import TableauTutor.Proofs.Derivation
import TableauTutor.Proofs.Reading

/-!
What is left of an outline. Reducing puts an atom without a place where a formula stood, and every other mark keeps its
place. So the marks that are left cut the sentence into pieces: symbols that stayed where they are, and formulas.
Nothing more can be joined, so no bracket that stayed belongs to a pair around a formula.

- `standsFor_reduced`: the pieces that the reduced outline stands for make up the sentence.
- `StandsFor.cut`: where no formula reaches across, a piece ends.
- `StandsFor.left_stays`, `StandsFor.right_stays`: no bracket that stays belongs to a pair around a formula.
-/

namespace TableauTutor

/-! ## Brackets and formulas -/

namespace Sentence

variable {s t u v w : Sentence} {y bracket : Symbol} {i j k : Nat}

/-- the brackets at two positions are partners, and this is what they enclose -/
def Pairs (s : Sentence) (i k : Nat) (w : Sentence) : Prop :=
  ∃ a b : Sentence, s = a ++ "(" :: w ++ ")" :: b ∧ a.length = i ∧ i + w.length + 1 = k ∧ Balanced w.tokens

/-- the bracket at a position is one of a pair around a formula -/
def BracketsFormula (s : Sentence) (j : Nat) : Prop := ∃ i k w, s.Pairs i k w ∧ w.Derivable ∧ (j = i ∨ j = k)

theorem BracketsFormula.context (h : s.BracketsFormula j) (a b : Sentence) :
    BracketsFormula (a ++ s ++ b) (a.length + j) := by
  obtain ⟨i, k, w, ⟨c, d, rfl, rfl, rfl, hbal⟩, hw, hj⟩ := h
  refine ⟨a.length + c.length, a.length + (c.length + w.length + 1), w, ⟨a ++ c, d ++ b, ?_, ?_, ?_, hbal⟩, hw, ?_⟩
  · simp
  · simp
  · omega
  · omega

/-- the left bracket of a pair, and what follows it -/
theorem Pairs.of_left {a b : Sentence} (h : Pairs (a ++ y :: b) a.length k w) : y = "(" ∧ ∃ d, b = w ++ ")" :: d := by
  obtain ⟨c, d, hs, hlen, -⟩ := h
  rw [List.append_assoc, List.cons_append] at hs
  obtain ⟨-, hb⟩ := List.append_inj hs hlen.symm
  exact ⟨(List.cons.inj hb).1, d, (List.cons.inj hb).2⟩

/-- the right bracket of a pair, and what precedes it -/
theorem Pairs.of_right {a b : Sentence} (h : Pairs (a ++ y :: b) i a.length w) : y = ")" ∧ ∃ c, a = c ++ "(" :: w := by
  obtain ⟨c, d, hs, rfl, hlen, -⟩ := h
  obtain ⟨rfl, hb⟩ := List.append_inj hs (by simpa [Nat.add_assoc] using hlen.symm)
  exact ⟨(List.cons.inj hb).1, c, rfl⟩

/-- a left bracket around a formula, and what follows it -/
theorem BracketsFormula.of_left {a b : Sentence} (h : BracketsFormula (a ++ "(" :: b) a.length) :
    ∃ w d : Sentence, b = w ++ ")" :: d ∧ w.Derivable := by
  obtain ⟨_, _, w, hpair, hw, rfl | rfl⟩ := h
  · obtain ⟨-, d, rfl⟩ := hpair.of_left
    exact ⟨w, d, rfl, hw⟩
  · exact absurd hpair.of_right.1 (by decide)

/-- a right bracket around a formula, and what precedes it -/
theorem BracketsFormula.of_right {a b : Sentence} (h : BracketsFormula (a ++ ")" :: b) a.length) :
    ∃ c w : Sentence, a = c ++ "(" :: w ∧ w.Derivable := by
  obtain ⟨_, _, w, hpair, hw, rfl | rfl⟩ := h
  · exact absurd hpair.of_left.1 (by decide)
  · obtain ⟨-, c, rfl⟩ := hpair.of_right
    exact ⟨c, w, rfl, hw⟩

/-- all brackets of one kind are those of pairs around formulas -/
def Settled (bracket : Symbol) (s : Sentence) : Prop := ∀ j, s[j]? = some bracket → s.BracketsFormula j

theorem Settled.append (hs : Settled bracket s) (ht : Settled bracket t) : Settled bracket (s ++ t) := by
  intro j hj
  by_cases hlt : j < s.length
  · rw [List.getElem?_append_left hlt] at hj
    simpa using (hs j hj).context [] t
  · rw [List.getElem?_append_right (by omega)] at hj
    have := (ht _ hj).context s []
    rwa [List.append_nil, Nat.add_sub_cancel' (by omega)] at this

theorem settled_nil (bracket : Symbol) : Settled bracket [] := by simp [Settled]

theorem Settled.cons (hy : y ≠ bracket) (hs : Settled bracket s) : Settled bracket (y :: s) := by
  intro j hj
  cases j with
  | zero => exact absurd (by simpa using hj) hy
  | succ j =>
    have := (hs j (by simpa using hj)).context [y] []
    simpa [Nat.add_comm] using this

theorem not_bracket_of_derivation (hy : y.kind = "sentvar" ∨ y.kind = "not" ∨ y.kind ∈ ["and", "or", "imp"]) :
    y ≠ "(" ∧ y ≠ ")" := by
  refine not_bracket_of_kind ?_
  rcases hy with hy | hy | hy
  · simp [hy]
  · simp [hy]
  · exact List.mem_cons_of_mem _ (List.mem_cons_of_mem _ hy)

theorem residue_symbol (hl : y ≠ "(") (hr : y ≠ ")") : Residue.ofToken y.toToken = ⟨0, 0⟩ := by
  rw [Symbol.toToken, if_neg (by simp [hl, hr])]
  simp [Residue.ofToken, Token.leftBracket, Token.rightBracket, Token.literal]

theorem Derivable.balanced (h : s.Derivable) : Balanced s.tokens := by
  have hres {y : Symbol} (hy : y.kind = "sentvar" ∨ y.kind = "not" ∨ y.kind ∈ ["and", "or", "imp"]) :
      Residue.ofToken y.toToken = ⟨0, 0⟩ :=
    residue_symbol (not_bracket_of_derivation hy).1 (not_bracket_of_derivation hy).2
  unfold Balanced
  induction h with
  | var hy => simp [hres (.inl hy)]
  | negation hy _ ih => simp [hres (.inr (.inl hy)), ih]
  | connective _ hy _ ihu ihv => simp [hres (.inr (.inr hy)), ihu, ihv]
  | bracketed _ ih => simp [ih, Residue.join]

/-- brackets in a formula belong to pairs around formulas -/
theorem Derivable.settled (h : s.Derivable) (hb : bracket = "(" ∨ bracket = ")") : Settled bracket s := by
  have hne {y : Symbol} (hy : y.kind = "sentvar" ∨ y.kind = "not" ∨ y.kind ∈ ["and", "or", "imp"]) : y ≠ bracket := by
    rcases hb with rfl | rfl
    · exact (not_bracket_of_derivation hy).1
    · exact (not_bracket_of_derivation hy).2
  induction h with
  | var hy => exact (settled_nil _).cons (hne (.inl hy))
  | negation hy _ ih => exact ih.cons (hne (.inr (.inl hy)))
  | connective _ hy _ ihu ihv => exact ihu.append (ihv.cons (hne (.inr (.inr hy))))
  | @bracketed w hw ih =>
    -- the new brackets are a pair around the formula; all others are those of the formula
    have hpair : Pairs ("(" :: w ++ [")"]) 0 (w.length + 1) w := ⟨[], [], by simp, rfl, by omega, hw.balanced⟩
    intro j hj
    rcases Nat.lt_trichotomy j (w.length + 1) with hlt | rfl | hlt
    · cases j with
      | zero => exact ⟨_, _, w, hpair, hw, .inl rfl⟩
      | succ j =>
        have hj' : w[j]? = some bracket := by
          rw [List.cons_append, List.getElem?_cons_succ, List.getElem?_append_left (by omega)] at hj
          exact hj
        have := (ih j hj').context ["("] [")"]
        simpa [Nat.add_comm] using this
    · exact ⟨_, _, w, hpair, hw, .inr rfl⟩
    · rw [List.getElem?_eq_none (by simp; omega)] at hj
      cases hj

/-- a formula starts with a variable, a left bracket, or a negation of a formula -/
theorem Derivable.first (h : s.Derivable) :
    ∃ (y : Symbol) (w : Sentence), s = y :: w ∧ (y.kind = "sentvar" ∨ y = "(" ∨ y.kind = "not" ∧ w.Derivable) := by
  induction h with
  | @var y hy => exact ⟨y, [], rfl, .inl hy⟩
  | @negation y w hy h _ => exact ⟨y, w, rfl, .inr (.inr ⟨hy, h⟩)⟩
  | @connective u v z _ hz hv ihu _ =>
    obtain ⟨y, w, rfl, hvar | hleft | ⟨hnot, hw⟩⟩ := ihu
    · exact ⟨y, w ++ z :: v, rfl, .inl hvar⟩
    · exact ⟨y, w ++ z :: v, rfl, .inr (.inl hleft)⟩
    · exact ⟨y, w ++ z :: v, rfl, .inr (.inr ⟨hnot, .connective hw hz hv⟩)⟩
  | bracketed => exact ⟨_, _, rfl, .inr (.inl rfl)⟩

theorem Derivable.last (h : s.Derivable) :
    ∃ (w : Sentence) (y : Symbol), s = w ++ [y] ∧ (y.kind = "sentvar" ∨ y = ")") := by
  induction h with
  | @var y hy => exact ⟨[], y, rfl, .inl hy⟩
  | @negation z _ _ _ ih =>
    obtain ⟨w, y, rfl, hy⟩ := ih
    exact ⟨z :: w, y, rfl, hy⟩
  | @connective u _ z _ _ _ _ ih =>
    obtain ⟨w, y, rfl, hy⟩ := ih
    exact ⟨u ++ z :: w, y, by simp, hy⟩
  | @bracketed w _ _ => exact ⟨"(" :: w, ")", rfl, .inr rfl⟩

/-! ## Where formulas end -/

/-- no formula reaches from the end of the first sentence into the second -/
def Boundary (u v : Sentence) : Prop :=
  ∀ a b c d : Sentence, u = a ++ b → v = c ++ d → b ≠ [] → c ≠ [] → ¬ Derivable (b ++ c)

theorem Boundary.of_append (h : Boundary (w ++ u) v) : Boundary u v := by
  rintro a b c d rfl hv
  exact h (w ++ a) b c d (by simp) hv

/-- a right bracket without a partner so far -/
theorem boundary_after_right (hw : (residue w.tokens).unclosed = 0) (v : Sentence) : Boundary (w ++ [")"]) v := by
  rintro a b c d hu rfl hb hc h
  obtain rfl | ⟨b', z, rfl⟩ := List.eq_nil_or_concat' b
  · exact hb rfl
  rw [← List.append_assoc] at hu
  obtain ⟨rfl, hz⟩ := List.append_inj' hu rfl
  obtain rfl := List.singleton_inj.1 hz
  have hbal := h.balanced
  simp only [Balanced, tokens_append, tokens_cons, tokens_nil, Symbol.toToken_right, residue_append,
    residue_cons, residue_nil, Residue.ofToken_right, Residue.join, Residue.mk.injEq] at hbal hw
  omega

/-- a left bracket without a partner from there on -/
theorem boundary_before_left (hw : (residue w.tokens).unopened = 0) (u : Sentence) : Boundary u ("(" :: w) := by
  rintro a b c d rfl hv hb hc h
  cases c with
  | nil => exact hc rfl
  | cons z c =>
    rw [List.cons_append] at hv
    obtain ⟨rfl, rfl⟩ := List.cons.inj hv
    have hbal := h.balanced
    simp only [Balanced, tokens_append, tokens_cons, Symbol.toToken_left, residue_append, residue_cons,
      Residue.ofToken_left, Residue.join, Residue.mk.injEq] at hbal hw
    omega

/-- no formula ends in a connective -/
theorem boundary_before_connectives (hv : ∀ y ∈ v, y.kind ∈ ["not", "and", "or", "imp"]) (u : Sentence) :
    Boundary u v := by
  rintro a b c d rfl rfl hb hc h
  obtain ⟨w, y, hw, hy⟩ := h.last
  obtain rfl | ⟨c', z, rfl⟩ := List.eq_nil_or_concat' c
  · exact hc rfl
  rw [← List.append_assoc] at hw
  obtain rfl := List.singleton_inj.1 (List.append_inj' hw rfl).2
  have hz := hv z (by simp)
  rcases hy with hy | rfl
  · simp [hy] at hz
  · exact absurd hz (by decide)

/-- two formulas stand side by side -/
def SideBySide (s : Sentence) : Prop := ∃ a u v b : Sentence, s = a ++ u ++ (v ++ b) ∧ u.Derivable ∧ v.Derivable

/-- no formula has two formulas side by side in it -/
theorem boundary_side_by_side (hu : u.Derivable) (hv : v.Derivable) (a b : Sentence) : Boundary (a ++ u) (v ++ b) := by
  obtain ⟨w, y, rfl, hy⟩ := hu.last
  obtain ⟨z, x, rfl, hz⟩ := hv.first
  rintro c d e f hleft hright hd he h
  obtain rfl | ⟨d, y', rfl⟩ := List.eq_nil_or_concat' d
  · exact hd rfl
  rw [← List.append_assoc, ← List.append_assoc] at hleft
  obtain rfl := List.singleton_inj.1 (List.append_inj' hleft rfl).2
  cases e with
  | nil => exact he rfl
  | cons z' e =>
    obtain rfl := (List.cons.inj hright).1
    -- after the end of a formula the reader does not take the start of another one
    have hend : ∃ m, Mark.ofSymbol? y = some m ∧ (m = .atom ∨ m = .right) := by
      rcases hy with hy | rfl
      · exact ⟨.atom, mark_variable hy, .inl rfl⟩
      · exact ⟨.right, mark_right, .inr rfl⟩
    have hstart : ∃ n, Mark.ofSymbol? z = some n ∧ (n = .atom ∨ n = .left ∨ n = .unary) := by
      rcases hz with hz | rfl | ⟨hz, -⟩
      · exact ⟨.atom, mark_variable hz, .inl rfl⟩
      · exact ⟨.left, mark_left, .inr (.inl rfl)⟩
      · exact ⟨.unary, mark_negation hz, .inr (.inr rfl)⟩
    obtain ⟨m, hm, hend⟩ := hend
    obtain ⟨n, hn, hstart⟩ := hstart
    have hread := (isFormula_outline h).reader? 0
    have hout : outline (d ++ [y] ++ z :: e) = outline d ++ m :: n :: outline e := by
      simp [outline, hm, hn]
    rw [hout, Outline.reader?_append] at hread
    cases hstate : Outline.reader? ⟨true, 0⟩ (outline d) with
    | none => simp [hstate] at hread
    | some st =>
      obtain ⟨expecting, depth⟩ := st
      rw [hstate, Option.bind_some] at hread
      rcases hend with rfl | rfl <;> rcases hstart with rfl | rfl | rfl <;> cases expecting <;> cases depth <;>
        simp [Outline.reader?, Outline.ReaderState.step?] at hread

end Sentence

/-! ## Pieces of a sentence -/

namespace Outline

open Sentence

variable {i : Nat} {ms ns : List Mark} {ps qs : List (Option Nat)} {s t u v : Sentence}

/-- marks, each with its place, that stand for a sentence from a position on: a mark with a place stands for the symbol
there, and an atom without a place for a formula -/
inductive StandsFor : Nat → List Mark → List (Option Nat) → Sentence → Prop where
  | nil {i : Nat} : StandsFor i [] [] []
  | symbol {i : Nat} {m : Mark} {y : Symbol} {ms : List Mark} {ps : List (Option Nat)} {s : Sentence}
      (hy : Mark.ofSymbol? y = some m) (h : StandsFor (i + 1) ms ps s) : StandsFor i (m :: ms) (some i :: ps) (y :: s)
  | formula {i : Nat} {u : Sentence} {ms : List Mark} {ps : List (Option Nat)} {s : Sentence}
      (hu : u.Derivable) (h : StandsFor (i + u.length) ms ps s) : StandsFor i (.atom :: ms) (none :: ps) (u ++ s)

/-- nothing in the marks can be joined to a formula -/
def FullyReduced (ms : List Mark) : Prop := ∀ p ∈ productions, ¬ p <:+: ms

theorem FullyReduced.of_part (h : FullyReduced ms) (hin : ns <:+: ms) : FullyReduced ns :=
  fun p hp hpin => h p hp (hpin.trans hin)

/-- a formula is read as an atom is -/
theorem IsFormula.reader?_eq_atom {w : List Mark} (h : IsFormula w) (st : ReaderState) :
    Outline.reader? st w = Outline.reader? st [.atom] := by
  obtain ⟨expecting, d⟩ := st
  cases expecting with
  | true => exact h.reader? d
  | false =>
    -- where no argument is expected, none can start
    change _ = none
    induction h with
    | atom => rfl
    | unary => rfl
    | binary _ _ ihu _ => rw [reader?_append, ihu, Option.bind_none]
    | bracketed => rfl

namespace StandsFor

theorem length_places (h : StandsFor i ms ps s) : ps.length = ms.length := by
  induction h with
  | nil => rfl
  | symbol _ _ ih => simp [ih]
  | formula _ _ ih => simp [ih]

theorem append (h : StandsFor i ms ps s) (h' : StandsFor (i + s.length) ns qs t) :
    StandsFor i (ms ++ ns) (ps ++ qs) (s ++ t) := by
  induction h with
  | nil => simpa using h'
  | symbol hy _ ih => exact .symbol hy (ih (by simpa [Nat.add_assoc, Nat.add_comm 1] using h'))
  | formula hu _ ih =>
    rw [List.append_assoc]
    exact .formula hu (ih (by simpa [Nat.add_assoc] using h'))

theorem split (h : StandsFor i (ms ++ ns) ps s) :
    ∃ ps₁ ps₂ s₁ s₂, ps = ps₁ ++ ps₂ ∧ s = s₁ ++ s₂ ∧ StandsFor i ms ps₁ s₁ ∧ StandsFor (i + s₁.length) ns ps₂ s₂ := by
  induction ms generalizing i ps s with
  | nil => exact ⟨[], ps, [], s, rfl, rfl, .nil, h⟩
  | cons m ms ih =>
    cases h with
    | symbol hy h =>
      obtain ⟨ps₁, ps₂, s₁, s₂, rfl, rfl, h₁, h₂⟩ := ih h
      exact ⟨_, ps₂, _, s₂, rfl, rfl, .symbol hy h₁, by simpa [Nat.add_assoc, Nat.add_comm 1] using h₂⟩
    | formula hu h =>
      obtain ⟨ps₁, ps₂, s₁, s₂, rfl, rfl, h₁, h₂⟩ := ih h
      exact ⟨_, ps₂, _, s₂, rfl, (List.append_assoc _ _ _).symm, .formula hu h₁, by simpa [Nat.add_assoc] using h₂⟩

/-- **Where no formula reaches across**, the marks fall into parts as the sentence does. -/
theorem cut (h : StandsFor i ms ps (u ++ v)) (hb : Boundary u v) :
    ∃ ms₁ ms₂ ps₁ ps₂, ms = ms₁ ++ ms₂ ∧ ps = ps₁ ++ ps₂ ∧ StandsFor i ms₁ ps₁ u ∧
    StandsFor (i + u.length) ms₂ ps₂ v := by
  generalize hs : u ++ v = s at h
  induction h generalizing u with
  | nil =>
    obtain ⟨rfl, rfl⟩ := List.append_eq_nil_iff.1 hs
    exact ⟨[], [], [], [], rfl, rfl, .nil, .nil⟩
  | symbol hy h ih =>
    cases u with
    | nil =>
      obtain rfl : v = _ := hs
      exact ⟨[], _, [], _, rfl, rfl, .nil, .symbol hy h⟩
    | cons z u =>
      obtain ⟨rfl, hrest⟩ := List.cons.inj hs
      obtain ⟨ms₁, ms₂, ps₁, ps₂, rfl, rfl, h₁, h₂⟩ := ih (hb.of_append (w := [z])) hrest
      exact ⟨_, ms₂, _, ps₂, rfl, rfl, .symbol hy h₁, by simpa [Nat.add_assoc, Nat.add_comm 1] using h₂⟩
  | @formula _ w _ _ s hw h ih =>
    obtain ⟨c, rfl, rfl⟩ | ⟨c, rfl, hrest⟩ := List.append_eq_append_iff.1 hs
    · -- the formula goes on behind u, so it starts there
      cases u with
      | nil => exact ⟨[], _, [], _, rfl, rfl, .nil, .formula hw h⟩
      | cons z u =>
        cases c with
        | nil =>
          simp only [List.append_nil] at hw h
          exact ⟨[.atom], _, [none], _, rfl, rfl, by simpa using formula hw .nil, by simpa using h⟩
        | cons x c => exact absurd hw (hb [] (z :: u) (x :: c) s rfl rfl (by simp) (by simp))
    · obtain ⟨ms₁, ms₂, ps₁, ps₂, rfl, rfl, h₁, h₂⟩ := ih hb.of_append hrest.symm
      exact ⟨_, ms₂, _, ps₂, rfl, rfl, .formula hw h₁, by simpa [Nat.add_assoc] using h₂⟩

theorem derivable (h : StandsFor i ms ps s) (hms : IsFormula ms) : s.Derivable := by
  induction hms generalizing i ps s with
  | atom =>
    cases h with
    | symbol hy h =>
      cases h
      exact .var (symbolizes_of_mark hy)
    | formula hu h =>
      cases h
      simpa using hu
  | unary _ ih =>
    cases h with
    | symbol hy h => exact .negation (symbolizes_of_mark hy) (ih h)
  | binary _ _ ihu ihv =>
    obtain ⟨_, _, _, _, -, rfl, h₁, h₂⟩ := h.split
    cases h₂ with
    | symbol hy h₂ => exact .connective (ihu h₁) (symbolizes_of_mark hy) (ihv h₂)
  | bracketed _ ih =>
    obtain ⟨_, _, _, _, -, rfl, h₁, h₂⟩ := h.split
    cases h₁ with
    | symbol hy h₁ =>
      cases h₂ with
      | symbol hz h₂ =>
        cases h₂
        obtain rfl := symbolizes_of_mark hy
        obtain rfl := symbolizes_of_mark hz
        exact .bracketed (ih h₁)

theorem of_atom (h : StandsFor i (.atom :: ms) ps s) :
    ∃ (qs : List (Option Nat)) (u v : Sentence), s = u ++ v ∧ u.Derivable ∧ StandsFor (i + u.length) ms qs v := by
  cases h with
  | @symbol _ _ y _ _ v hy h => exact ⟨_, [y], v, rfl, .var (symbolizes_of_mark hy), h⟩
  | formula hu h => exact ⟨_, _, _, rfl, hu, h⟩

/-- the marks are read as the outline is -/
theorem reader?_eq (h : StandsFor i ms ps s) (st : ReaderState) : reader? st ms = reader? st s.outline := by
  induction h generalizing st with
  | nil => rfl
  | symbol hy _ ih =>
    rw [outline, List.filterMap_cons_some hy, ← outline]
    simp only [reader?, ih]
  | @formula _ u ms _ s hu _ ih =>
    rw [outline, List.filterMap_append, ← outline, ← outline, reader?_append, (isFormula_outline hu).reader?_eq_atom,
      ← List.singleton_append, reader?_append]
    simp only [ih]

theorem eq_atom (h : StandsFor i ms ps s) (hs : s.Derivable) (hms : FullyReduced ms) : ms = [.atom] := by
  have hacc : Accepts ms := by
    rw [Accepts, h.reader?_eq]
    exact (isFormula_outline hs).reader? 0
  rcases (accepts_iff.1 hacc).atom_or_production with h | ⟨p, hp, hin⟩
  · exact h
  · exact absurd hin (hms p hp)

theorem at_mark {m : Mark} (hm : m ≠ .atom) (h : StandsFor i (ms ++ m :: ns) ps s) :
    ∃ (a : Sentence) (y : Symbol) (b : Sentence) (ps₁ ps₂ : List (Option Nat)), s = a ++ y :: b ∧
    Mark.ofSymbol? y = some m ∧
      ps = ps₁ ++ some (i + a.length) :: ps₂ ∧ StandsFor i ms ps₁ a ∧ StandsFor (i + a.length + 1) ns ps₂ b := by
  obtain ⟨ps₁, _, a, _, rfl, rfl, h₁, h₂⟩ := h.split
  cases h₂ with
  | symbol hy h₂ => exact ⟨a, _, _, ps₁, _, rfl, hy, rfl, h₁, h₂⟩
  | formula => exact absurd rfl hm

/-- a left bracket that stays is not one of a pair around a formula -/
theorem left_stays {a b : Sentence} (h : StandsFor (i + 1) ns ps b) (hall : FullyReduced (ms ++ .left :: ns)) :
    ¬ BracketsFormula (a ++ "(" :: b) a.length := by
  intro hb
  obtain ⟨w, d, rfl, hw⟩ := hb.of_left
  -- the pair would be a piece that begins with the bracket, but it is a formula
  have hbound : Boundary (w ++ [")"]) d := boundary_after_right (by rw [hw.balanced]) d
  rw [← List.singleton_append, ← List.append_assoc] at h
  obtain ⟨n₁, n₂, ps₁, ps₂, rfl, -, h₁, -⟩ := h.cut hbound
  have hpair := symbol mark_left h₁
  have hone := hpair.eq_atom (.bracketed hw) (hall.of_part ⟨ms, n₂, by simp⟩)
  simp at hone

/-- a right bracket that stays is not one of a pair around a formula -/
theorem right_stays {a b : Sentence} (h : StandsFor i ms ps a) (hall : FullyReduced (ms ++ .right :: ns)) :
    ¬ BracketsFormula (a ++ ")" :: b) a.length := by
  intro hb
  obtain ⟨c, w, rfl, hw⟩ := hb.of_right
  have hbound : Boundary c ("(" :: w) := boundary_before_left (by rw [hw.balanced]) c
  obtain ⟨m₁, m₂, ps₁, ps₂, rfl, -, -, h₂⟩ := h.cut hbound
  have hpair := h₂.append (.symbol mark_right .nil)
  have hone := hpair.eq_atom (.bracketed hw) (hall.of_part ⟨m₁, ns, by simp⟩)
  have hlast := congrArg List.getLast? hone
  simp at hlast

end StandsFor

/-! ## Reducing -/

theorem isFormula_production {p : List Mark} (hp : p ∈ productions) : IsFormula p := by
  simp only [productions, List.mem_cons, List.not_mem_nil, or_false] at hp
  rcases hp with rfl | rfl | rfl
  · exact .unary .atom
  · exact .binary .atom .atom
  · exact .bracketed .atom

/-- joining marks to an atom joins the pieces that they stand for to a formula -/
theorem StandsFor.replaceOnce {p : List Mark} (hp : p ∈ productions) {x y : Placed Mark}
    (hy : replaceOnce? p [.atom] x = some y) (h : StandsFor i x.marks x.places s) : StandsFor i y.marks y.places s := by
  obtain ⟨marks, places⟩ := x
  obtain ⟨k, hk, rfl⟩ := Option.map_eq_some_iff.1 hy
  have hx := find?_eq_some hk
  dsimp only at h hx
  have hlen : k + p.length ≤ marks.length := by
    have hlength := congrArg List.length hx
    have htwo := length_production hp
    simp only [List.length_append, List.length_take, List.length_drop] at hlength
    omega
  rw [hx, List.append_assoc] at h
  obtain ⟨ps₁, _, s₁, _, rfl, rfl, h₁, h⟩ := h.split
  obtain ⟨ps₂, ps₃, s₂, s₃, rfl, rfl, h₂, h₃⟩ := h.split
  have hk₁ : ps₁.length = k := by
    rw [h₁.length_places, List.length_take]
    omega
  have hk₂ : ps₂.length = p.length := h₂.length_places
  have hplaces : (ps₁ ++ (ps₂ ++ ps₃)).take k ++ none :: (ps₁ ++ (ps₂ ++ ps₃)).drop (k + p.length) = ps₁ ++
      ([none] ++ ps₃) := by
    simp [← hk₁, ← hk₂]
  simp only [hplaces, List.append_assoc]
  refine h₁.append (.append (s := s₂) ?_ h₃)
  simpa using formula (h₂.derivable (isFormula_production hp)) .nil

theorem StandsFor.replaceAll {p : List Mark} (hp : p ∈ productions) (fuel : Nat) {x : Placed Mark}
    (h : StandsFor i x.marks x.places s) :
    StandsFor i (replaceAll p [.atom] fuel x).marks (replaceAll p [.atom] fuel x).places s := by
  induction fuel generalizing x with
  | zero => exact h
  | succ fuel ih =>
    rw [Outline.replaceAll]
    cases hy : replaceOnce? p [.atom] x with
    | none => exact h
    | some y => exact ih (h.replaceOnce hp hy)

theorem StandsFor.pass {x : Placed Mark} (h : StandsFor i x.marks x.places s) :
    StandsFor i (pass x).marks (pass x).places s := by
  have hfold (qs : List (List Mark)) (hqs : ∀ p ∈ qs, p ∈ productions) {x : Placed Mark}
    (h : StandsFor i x.marks x.places s) :
      let y := qs.foldl (fun y p => Outline.replaceAll p [Mark.atom] y.marks.length y) x
      StandsFor i y.marks y.places s := by
    induction qs generalizing x with
    | nil => exact h
    | cons p qs ih =>
      obtain ⟨hp, hqs⟩ := List.forall_mem_cons.1 hqs
      exact ih hqs (h.replaceAll hp _)
  exact hfold productions (fun _ hp => hp) h

theorem StandsFor.passes (fuel : Nat) {x : Placed Mark} (h : StandsFor i x.marks x.places s) :
    StandsFor i (passes fuel x).marks (passes fuel x).places s := by
  induction fuel generalizing x with
  | zero => exact h
  | succ fuel ih =>
    rw [Outline.passes]
    split
    · exact h.pass
    · exact ih h.pass

/-- the outline of a sentence stands for the sentence, symbol by symbol -/
theorem standsFor_outline (hs : ∀ y ∈ s, y.IsGrammatical) (i : Nat) :
    StandsFor i s.outline ((List.range' i s.outline.length).map some) s := by
  induction s generalizing i with
  | nil => exact .nil
  | cons y s ih =>
    obtain ⟨hy, hs⟩ := List.forall_mem_cons.1 hs
    obtain ⟨m, hm⟩ := exists_mark_of_isGrammatical hy
    rw [outline, List.filterMap_cons_some hm, ← outline, List.length_cons, List.range'_succ, List.map_cons]
    exact .symbol hm (ih hs (i + 1))

/-- **The reduced outline** stands for the sentence, in pieces. -/
theorem standsFor_reduced (hs : ∀ y ∈ s, y.IsGrammatical) : StandsFor 0 (reduced s).marks (reduced s).places s := by
  have h := standsFor_outline hs 0
  rw [← List.range_eq_range'] at h
  exact StandsFor.passes _ (x := ⟨s.outline, (List.range s.outline.length).map some⟩) h

theorem fullyReduced_reduced (s : Sentence) : FullyReduced (reduced s).marks :=
  (passes_reduces (x := ⟨s.outline, (List.range s.outline.length).map some⟩) (Nat.lt_succ_self _)).2

end Outline

end TableauTutor
