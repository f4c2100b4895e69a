import TableauTutor.Proofs.ReducedOutline

/-!
Complaints about a sentence. The check looks at what is left of the outline, and each of its tests
says something about the sentence.

- `Sentence.checkSyntax_answers`: the check breaks down exactly on a formula followed by a negation
  and nothing but connectives.
- `Calculus.bracket_mistakes`: which brackets are reported. A right bracket that is reported has no partner; a left
  bracket that is reported may have one, if the pair encloses no formula.
-/

namespace TableauTutor

open Outline

namespace Sentence

variable {s : Sentence}

def HasVariable (s : Sentence) : Prop := ∃ y ∈ s, y.kind = "sentvar"

/-- a formula, then a negation, then nothing but connectives -/
def NegationTrails (s : Sentence) : Prop :=
  ∃ (u : Sentence) (y : Symbol) (v : Sentence), s = u ++ y :: v ∧ u.Derivable ∧ y.kind = "not" ∧
    ∀ z ∈ v, z.kind ∈ ["not", "and", "or", "imp"]

theorem Derivable.hasVariable (h : s.Derivable) : s.HasVariable := by
  induction h with
  | @var y hy => exact ⟨y, List.mem_singleton_self y, hy⟩
  | negation _ _ ih =>
    obtain ⟨y, hmem, hy⟩ := ih
    exact ⟨y, List.mem_cons_of_mem _ hmem, hy⟩
  | connective _ _ _ ih _ =>
    obtain ⟨y, hmem, hy⟩ := ih
    exact ⟨y, List.mem_append_left _ hmem, hy⟩
  | bracketed _ ih =>
    obtain ⟨y, hmem, hy⟩ := ih
    exact ⟨y, List.mem_append_left _ (List.mem_cons_of_mem _ hmem), hy⟩

end Sentence

/-! ## What the marks that are left say -/

namespace Outline

open Sentence

variable {i : Nat} {ms ns : List Mark} {ps : List (Option Nat)} {s u v : Sentence} {m : Mark} {bracket : Symbol}

namespace StandsFor

theorem atom_mem_iff (h : StandsFor i ms ps s) : .atom ∈ ms ↔ s.HasVariable := by
  induction h with
  | nil => simp [HasVariable]
  | @symbol _ m y _ _ s hy _ ih =>
    have hfirst : .atom = m ↔ y.kind = "sentvar" := by
      constructor
      · rintro rfl
        exact symbolizes_of_mark hy
      · intro hk
        rw [mark_variable hk] at hy
        exact Option.some.inj hy
    simp only [List.mem_cons, ih, hfirst, HasVariable, exists_eq_or_imp]
  | @formula _ u _ _ s hu _ _ =>
    obtain ⟨y, hmem, hy⟩ := hu.hasVariable
    exact iff_of_true List.mem_cons_self ⟨y, List.mem_append_left _ hmem, hy⟩

/-- a bracket that is not left belongs to a pair around a formula -/
theorem settled (h : StandsFor i ms ps s) (hb : bracket = "(" ∨ bracket = ")") (hm : Mark.ofSymbol? bracket = some m)
    (hnot : m ∉ ms) : Settled bracket s := by
  induction h with
  | nil => exact settled_nil _
  | @symbol _ n y _ _ _ hy _ ih =>
    rw [List.mem_cons, not_or] at hnot
    refine (ih hnot.2).cons ?_
    rintro rfl
    exact hnot.1 (Option.some.inj (hm.symm.trans hy))
  | formula hu _ ih => exact (hu.settled hb).append (ih fun h => hnot (List.mem_cons_of_mem _ h))

theorem unclosed_eq_zero (h : StandsFor i ms ps s) (hnot : .left ∉ ms) : (residue s.tokens).unclosed = 0 := by
  induction h with
  | nil => rfl
  | @symbol _ n y _ _ _ hy _ ih =>
    rw [List.mem_cons, not_or] at hnot
    have hrest := ih hnot.2
    have hy' : y ≠ "(" := by
      rintro rfl
      exact hnot.1 (Option.some.inj (mark_left.symm.trans hy))
    by_cases hr : y = ")"
    · simp [hr, Residue.join, hrest]
    · simp [residue_symbol hy' hr, hrest]
  | formula hu _ ih =>
    have hbal := hu.balanced
    unfold Balanced at hbal
    simp [hbal, ih fun h => hnot (List.mem_cons_of_mem _ h)]

theorem first_atom (h : StandsFor i ms ps (u ++ v)) (hu : u.Derivable) (hall : FullyReduced ms) :
    ∃ ns, ms = .atom :: ns := by
  induction ms generalizing i ps u with
  | nil =>
    obtain ⟨y, w, rfl, -⟩ := hu.first
    cases h
  | cons m ms ih =>
    obtain ⟨y, w, rfl, hy⟩ := hu.first
    generalize hs : y :: w ++ v = s at h
    cases h with
    | formula => exact ⟨ms, rfl⟩
    | symbol hm h =>
      obtain ⟨rfl, rfl⟩ := List.cons.inj hs
      rcases hy with hy | rfl | ⟨hy, hw⟩
      · rw [mark_variable hy] at hm
        exact ⟨ms, by rw [Option.some.inj hm]⟩
      · obtain rfl : Mark.left = m := Option.some.inj (mark_left.symm.trans hm)
        have hall' : FullyReduced ([] ++ .left :: ms) := hall
        refine absurd ?_ (left_stays (a := []) h hall')
        have := (hu.settled (.inl rfl) 0 rfl).context [] v
        simpa using this
      · rw [mark_negation hy] at hm
        obtain rfl := Option.some.inj hm
        obtain ⟨ns, rfl⟩ := ih h hw (hall.of_part (List.suffix_cons _ _).isInfix)
        exact absurd (List.prefix_append [Mark.unary, .atom] ns).isInfix (hall _ (by decide))

theorem last_atom (h : StandsFor i ms ps (v ++ u)) (hu : u.Derivable) (hall : FullyReduced ms) :
    ∃ ns, ms = ns ++ [.atom] := by
  obtain ⟨w, y, rfl, hy⟩ := hu.last
  obtain rfl | ⟨ns, m, rfl⟩ := List.eq_nil_or_concat' ms
  · generalize hs : v ++ (w ++ [y]) = s at h
    cases h
    simp at hs
  by_cases hm : m = .atom
  · exact ⟨ns, by rw [hm]⟩
  obtain ⟨a, z, b, ps₁, ps₂, hs, hz, rfl, h₁, h₂⟩ := h.at_mark hm
  cases h₂
  rw [← List.append_assoc] at hs
  obtain ⟨rfl, hyz⟩ := List.append_inj' hs rfl
  obtain rfl := List.singleton_inj.1 hyz
  rcases hy with hy | rfl
  · rw [mark_variable hy] at hz
    exact absurd (Option.some.inj hz).symm hm
  · obtain rfl : Mark.right = m := Option.some.inj (mark_right.symm.trans hz)
    refine absurd ?_ (right_stays (b := []) h₁ hall)
    have := (hu.settled (.inr rfl) w.length (by simp)).context v []
    simpa using this

/-- two atoms are left side by side exactly where two formulas stand side by side -/
theorem two_atoms_iff (h : StandsFor i ms ps s) (hall : FullyReduced ms) : [.atom, .atom] <:+: ms ↔ s.SideBySide := by
  constructor
  · rintro ⟨ms₁, ms₂, rfl⟩
    rw [List.append_assoc] at h
    obtain ⟨_, _, a, _, -, rfl, -, h⟩ := h.split
    obtain ⟨_, u, _, rfl, hu, h⟩ := of_atom h
    obtain ⟨_, v, b, rfl, hv, -⟩ := of_atom h
    exact ⟨a, u, v, b, by simp, hu, hv⟩
  · rintro ⟨a, u, v, b, rfl, hu, hv⟩
    obtain ⟨ms₁, ms₂, _, _, rfl, -, h₁, h₂⟩ := h.cut (boundary_side_by_side hu hv a b)
    obtain ⟨ns₁, rfl⟩ := h₁.last_atom hu (hall.of_part (List.prefix_append _ _).isInfix)
    obtain ⟨ns₂, rfl⟩ := h₂.first_atom hv (hall.of_part (List.suffix_append _ _).isInfix)
    exact ⟨ns₁, ns₂, by simp⟩

theorem connectives_iff (h : StandsFor i ms ps s) :
    (∀ m ∈ ms, m = .unary ∨ m = .binary) ↔ ∀ y ∈ s, y.kind ∈ ["not", "and", "or", "imp"] := by
  induction h with
  | nil => simp
  | @symbol _ m y _ _ _ hy _ ih =>
    have hfirst : m = .unary ∨ m = .binary ↔ y.kind ∈ ["not", "and", "or", "imp"] := by
      constructor
      · rintro (rfl | rfl)
        · exact List.mem_cons.2 (.inl (symbolizes_of_mark hy))
        · exact List.mem_cons.2 (.inr (symbolizes_of_mark hy))
      · intro hk
        rcases List.mem_cons.1 hk with hk | hk
        · rw [mark_negation hk] at hy
          exact .inl (Option.some.inj hy).symm
        · rw [mark_connective hk] at hy
          exact .inr (Option.some.inj hy).symm
    simp only [List.forall_mem_cons, ih, hfirst]
  | formula hu _ _ =>
    refine iff_of_false (fun hall => ?_) fun hall => ?_
    · simpa using hall .atom List.mem_cons_self
    · obtain ⟨y, hmem, hy⟩ := hu.hasVariable
      simpa [hy] using hall y (List.mem_append_left _ hmem)

/-- an atom, a negation and nothing but connectives are left exactly of a formula followed by such symbols -/
theorem negation_trails_iff (h : StandsFor i ms ps s) (hall : FullyReduced ms) :
    (∃ ns, ms = .atom :: .unary :: ns ∧ ∀ m ∈ ns, m = .unary ∨ m = .binary) ↔ s.NegationTrails := by
  constructor
  · rintro ⟨ns, rfl, hns⟩
    obtain ⟨_, u, _, rfl, hu, h'⟩ := h.of_atom
    cases h' with
    | symbol hy h' => exact ⟨u, _, _, rfl, hu, symbolizes_of_mark hy, h'.connectives_iff.1 hns⟩
  · rintro ⟨u, y, v, rfl, hu, hy, hv⟩
    have hyv : ∀ z ∈ y :: v, z.kind ∈ ["not", "and", "or", "imp"] := List.forall_mem_cons.2 ⟨by simp [hy], hv⟩
    obtain ⟨ms₁, ms₂, _, _, rfl, -, h₁, h₂⟩ := h.cut (boundary_before_connectives hyv u)
    obtain rfl := h₁.eq_atom hu (hall.of_part (List.prefix_append _ _).isInfix)
    have hms := h₂.connectives_iff.2 hyv
    generalize hs : y :: v = t at h₂
    cases h₂ with
    | nil => cases hs
    | @symbol _ m z ns _ t hz h₂ =>
      obtain ⟨rfl, rfl⟩ := List.cons.inj hs
      rw [mark_negation hy] at hz
      exact ⟨ns, by rw [← Option.some.inj hz]; rfl, (List.forall_mem_cons.1 hms).2⟩
    | formula => simpa using hms .atom List.mem_cons_self

end StandsFor

theorem find?_eq_none_iff {p : List Mark} : find? p ms = none ↔ ¬ p <:+: ms := by
  constructor
  · intro h hin
    have := find?_isSome hin
    simp [h] at this
  · intro h
    cases hk : find? p ms with
    | none => rfl
    | some k => exact absurd ⟨_, _, (find?_eq_some hk).symm⟩ h

theorem notMem_before {k : Nat} (h : find? [m] ms = some k) : m ∉ ms.take k := by
  induction ms generalizing k with
  | nil => simp
  | cons n ms ih =>
    rw [find?] at h
    split at h
    · obtain rfl := Option.some.inj h
      simp
    · rename_i hne
      obtain ⟨j, hj, rfl⟩ := Option.map_eq_some_iff.1 h
      rw [List.take_succ_cons, List.mem_cons, not_or]
      refine ⟨?_, ih hj⟩
      rintro rfl
      simp at hne

end Outline

/-! ## The complaints -/

namespace Sentence

variable {x : Placed Mark} {s : Sentence}

theorem placeDatum_inj {m n : Nat} : placeDatum (some m) = placeDatum (some n) ↔ m = n := by simp [placeDatum]

/-- the report of a left bracket at a position -/
def leftOpen (n : Nat) : Mistake :=
  ⟨"bracket left open", "Otwarcie nawiasu na pozycji " ++ toString (n + 1) ++ " nie ma zamknięcia", placeDatum (some n)⟩

/-- the report of a right bracket at a position -/
def notOpened (n : Nat) : Mistake :=
  ⟨"bracket not opened", "Zamknięcie nawiasu na pozycji " ++ toString (n + 1) ++ " nie ma otwarcia",
    placeDatum (some n)⟩

/-- a complaint about a pattern is made where the pattern occurs; the mark that it counts
stands for the symbol at its place -/
theorem complaint_cases (h : StandsFor 0 x.marks x.places s) (p₁ p₂ : List Mark) {m : Mark} (hm : m ≠ .atom)
    (name before after : String) :
    (¬ p₁ ++ m :: p₂ <:+: x.marks ∧ complaint x (p₁ ++ m :: p₂) p₁.length name before after = .ok none) ∨
      ∃ (k : Nat) (ms : List Mark) (ps₁ ps₂ : List (Option Nat)) (a : Sentence) (y : Symbol) (b : Sentence),
        find? (p₁ ++ m :: p₂) x.marks = some k ∧ x.marks = x.marks.take k ++ p₁ ++ m :: ms ∧ s = a ++ y :: b ∧
        Mark.ofSymbol? y = some m ∧ x.places[k + p₁.length]? = some (some a.length) ∧
        StandsFor 0 (x.marks.take k ++ p₁) ps₁ a ∧ StandsFor (a.length + 1) ms ps₂ b ∧
        complaint x (p₁ ++ m :: p₂) p₁.length name before after =
          .ok (some ⟨name, before ++ toString (a.length + 1) ++ after, placeDatum (x.places[k]?).join⟩) := by
  cases hk : find? (p₁ ++ m :: p₂) x.marks with
  | none => exact .inl ⟨find?_eq_none_iff.1 hk, by simp only [complaint, hk]; rfl⟩
  | some k =>
    have hx := find?_eq_some hk
    have hlen : k ≤ x.marks.length := by
      have hlength := congrArg List.length hx
      simp only [List.length_append, List.length_take, List.length_drop, List.length_cons] at hlength
      omega
    rw [List.append_assoc, List.append_assoc, ← List.append_assoc, List.cons_append] at hx
    have hcut := h
    rw [hx] at hcut
    obtain ⟨a, y, b, ps₁, ps₂, hs, hy, hps, h₁, h₂⟩ := hcut.at_mark hm
    rw [Nat.zero_add] at hps h₂
    have hplace : x.places[k + p₁.length]? = some (some a.length) := by
      have hk₁ : ps₁.length = k + p₁.length := by
        rw [h₁.length_places, List.length_append, List.length_take, Nat.min_eq_left hlen]
      rw [hps, ← hk₁]
      simp
    refine .inr ⟨k, _, ps₁, ps₂, a, y, b, rfl, hx, hs, hy, hplace, h₁, h₂, ?_⟩
    simp only [complaint, hk, hplace, Option.join_some, ordinal]
    rfl

/-- a complaint about a bracket names the first one that is left -/
theorem complaint_bracket (h : StandsFor 0 x.marks x.places s) {m : Mark} (hm : m ≠ .atom)
    (name before after : String) : (m ∉ x.marks ∧ complaint x [m] 0 name before after = .ok none) ∨
      ∃ (ms₁ ms₂ : List Mark) (ps₁ ps₂ : List (Option Nat)) (a : Sentence) (y : Symbol) (b : Sentence),
        x.marks = ms₁ ++ m :: ms₂ ∧ m ∉ ms₁ ∧ s = a ++ y :: b ∧ Mark.ofSymbol? y = some m ∧ StandsFor 0 ms₁ ps₁ a ∧
        StandsFor (a.length + 1) ms₂ ps₂ b ∧
        complaint x [m] 0 name before after =
          .ok (some ⟨name, before ++ toString (a.length + 1) ++ after, placeDatum (some a.length)⟩) := by
  rcases complaint_cases h [] [] hm name before after with
    ⟨hnot, hnone⟩ | ⟨k, ms, ps₁, ps₂, a, y, b, hk, hx, hs, hy, hplace, h₁, h₂, hsome⟩
  · refine .inl ⟨fun hmem => hnot ?_, hnone⟩
    obtain ⟨u, v, huv⟩ := List.append_of_mem hmem
    exact ⟨u, v, by simp [huv]⟩
  · rw [List.append_nil] at hx h₁
    rw [List.length_nil, Nat.add_zero] at hplace
    rw [hplace] at hsome
    exact .inr ⟨_, ms, ps₁, ps₂, a, y, b, hx, notMem_before hk, hs, hy, h₁, h₂, hsome⟩

/-- marks that no complaint applies to, although they are not a single atom -/
structure Silent (ms : List Mark) : Prop where
  more : ms ≠ [.atom]
  atom : .atom ∈ ms
  apart : ¬ [.atom, .atom] <:+: ms
  left : .left ∉ ms
  right : .right ∉ ms
  noRight : ¬ [.atom, .binary] <:+: ms
  noLeft : ¬ [.binary, .atom] <:+: ms

/-- **Where nothing is said**: one atom in front, a negation behind it, and nothing but connectives. -/
theorem silent_iff {ms : List Mark} (hall : FullyReduced ms) :
    Silent ms ↔ ∃ ns, ms = .atom :: .unary :: ns ∧ ∀ m ∈ ns, m = .unary ∨ m = .binary := by
  constructor
  · intro h
    -- nothing can stand before an atom
    have hfirst {a b : List Mark} (hms : ms = a ++ .atom :: b) : a = [] := by
      obtain rfl | ⟨a, m, rfl⟩ := List.eq_nil_or_concat' a
      · rfl
      exfalso
      have hin : [m, .atom] <:+: ms := ⟨a, b, by simp [hms]⟩
      have hmem : m ∈ ms := by simp [hms]
      cases m with
      | left => exact h.left hmem
      | right => exact h.right hmem
      | atom => exact h.apart hin
      | unary => exact hall _ (by decide) hin
      | binary => exact h.noLeft hin
    obtain ⟨a, b, hms⟩ := List.append_of_mem h.atom
    obtain rfl := hfirst hms
    rw [List.nil_append] at hms
    cases b with
    | nil => exact absurd hms h.more
    | cons m ns =>
      have hin : [.atom, m] <:+: ms := ⟨[], ns, by simp [hms]⟩
      have hmem : m ∈ ms := by simp [hms]
      have hrest : ∀ n ∈ ns, n = .unary ∨ n = .binary := by
        intro n hn
        have hmem : n ∈ ms := by simp [hms, hn]
        cases n with
        | unary => exact .inl rfl
        | binary => exact .inr rfl
        | left => exact absurd hmem h.left
        | right => exact absurd hmem h.right
        | atom =>
          obtain ⟨c, d, rfl⟩ := List.append_of_mem hn
          have := hfirst (a := .atom :: m :: c) (b := d) (by simp [hms])
          simp at this
      cases m with
      | unary => exact ⟨ns, hms, hrest⟩
      | left => exact absurd hmem h.left
      | right => exact absurd hmem h.right
      | atom => exact absurd hin h.apart
      | binary => exact absurd hin h.noRight
  · rintro ⟨ns, rfl, hns⟩
    have hnot {m : Mark} (h₁ : m ≠ .unary) (h₂ : m ≠ .binary) : m ∉ Mark.unary :: ns := by
      rw [List.mem_cons, not_or]
      exact ⟨h₁, fun hm => (hns m hm).elim h₁ h₂⟩
    -- a pattern with an atom in it can only be found in front
    have hfront {p : List Mark} (hp : .atom ∈ p) (hin : p <:+: .atom :: .unary :: ns) : p <+: .atom ::
        .unary :: ns := by
      rcases List.infix_cons_iff.1 hin with hin | hin
      · exact hin
      · exact absurd (hin.subset hp) (hnot (by decide) (by decide))
    refine ⟨by simp, List.mem_cons_self, fun h => ?_, ?_, ?_, fun h => ?_, fun h => ?_⟩
    · simpa [List.cons_prefix_cons] using hfront (by decide) h
    · rw [List.mem_cons, not_or]
      exact ⟨by decide, hnot (by decide) (by decide)⟩
    · rw [List.mem_cons, not_or]
      exact ⟨by decide, hnot (by decide) (by decide)⟩
    · simpa [List.cons_prefix_cons] using hfront (by decide) h
    · simpa [List.cons_prefix_cons] using hfront (by decide) h

/-- the complaints, each with what is left of the outline -/
inductive Verdict (x : Placed Mark) (s : Sentence) : Outcome (Option Mistake) → Prop where
  | fine (h : x.marks = [.atom]) : Verdict x s (.ok none)
  | noVariables (m : Mistake) (hm : m.name = "no variables" ∧ m.default ≠ "") (h : .atom ∉ x.marks) :
      Verdict x s (.ok (some m))
  | sideBySide (m : Mistake) (hm : m.name = "nothing between formulas" ∧ m.default ≠ "")
      (h : [.atom, .atom] <:+: x.marks) : Verdict x s (.ok (some m))
  | leftOpen {ms₁ ms₂ : List Mark} {ps₁ ps₂ : List (Option Nat)} {a b : Sentence} (hatom : .atom ∈ x.marks)
      (hside : ¬ [.atom, .atom] <:+: x.marks) (hmarks : x.marks = ms₁ ++ .left :: ms₂) (hfirst : .left ∉ ms₁)
      (hs : s = a ++ "(" :: b) (h₁ : StandsFor 0 ms₁ ps₁ a) (h₂ : StandsFor (a.length + 1) ms₂ ps₂ b) :
      Verdict x s (.ok (some (leftOpen a.length)))
  | notOpened {ms₁ ms₂ : List Mark} {ps₁ ps₂ : List (Option Nat)} {a b : Sentence} (hatom : .atom ∈ x.marks)
      (hside : ¬ [.atom, .atom] <:+: x.marks) (hleft : .left ∉ x.marks) (hmarks : x.marks = ms₁ ++ .right :: ms₂)
      (hfirst : .right ∉ ms₁) (hs : s = a ++ ")" :: b) (h₁ : StandsFor 0 ms₁ ps₁ a)
      (h₂ : StandsFor (a.length + 1) ms₂ ps₂ b) :
      Verdict x s (.ok (some (notOpened a.length)))
  | noArgument (m : Mistake) (hm : (m.name = "no right" ∨ m.name = "no left") ∧ m.default ≠ "")
      (hleft : .left ∉ x.marks)
      (hright : .right ∉ x.marks) (h : [.atom, .binary] <:+: x.marks ∨ [.binary, .atom] <:+: x.marks) :
      Verdict x s (.ok (some m))
  | malformed (h : Silent x.marks) : Verdict x s (.error .malformed)

/-- a complaint that is made is the verdict; when it is not made, the next one is asked for -/
theorem Verdict.next {p : List Mark} {k : Nat} {name before after : String} {rest : Outcome (Option Mistake)}
    (h : (complaint x p k name before after = .ok none ∧ Verdict x s rest) ∨
      ∃ m, complaint x p k name before after = .ok (some m) ∧ Verdict x s (.ok (some m))) :
    Verdict x s (do
      if let some m ← complaint x p k name before after then return some m
      rest) := by
  rcases h with ⟨hnone, hrest⟩ | ⟨m, hmade, hm⟩
  · rw [hnone]
    exact hrest
  · rw [hmade]
    exact hm

/-- **The complaints**: what is left of the outline decides which one is made. -/
theorem verdict_firstComplaint (h : StandsFor 0 x.marks x.places s) : Verdict x s (firstComplaint x) := by
  by_cases hfine : x.marks = [.atom]
  · simp only [firstComplaint, hfine, if_true]
    exact .fine hfine
  by_cases hatom : .atom ∈ x.marks
  swap
  · have hcontains : x.marks.contains .atom = false := by simpa using hatom
    simp only [firstComplaint, hfine, if_false, hcontains, Bool.not_false, if_true]
    exact .noVariables _ ⟨rfl, by simp⟩ hatom
  by_cases hside : [.atom, .atom] <:+: x.marks
  · simp only [firstComplaint, hfine, if_false, List.contains_iff_mem.2 hatom, Bool.not_true, Bool.false_eq_true,
      find?_isSome hside, if_true]
    exact .sideBySide _ ⟨rfl, by simp⟩ hside
  simp only [firstComplaint, hfine, if_false, List.contains_iff_mem.2 hatom, Bool.not_true, Bool.false_eq_true,
    find?_eq_none_iff.2 hside, Option.isSome_none]
  refine .next ?_
  rcases complaint_bracket h (m := .left) (by decide) "bracket left open" "Otwarcie nawiasu na pozycji "
    " nie ma zamknięcia" with
    ⟨hleft, hnone⟩ | ⟨_, _, _, _, a, y, b, hmarks, hfirst, hs, hy, h₁, h₂, hmade⟩
  swap
  · obtain rfl : y = "(" := symbolizes_of_mark hy
    exact .inr ⟨_, hmade, .leftOpen hatom hside hmarks hfirst hs h₁ h₂⟩
  refine .inl ⟨hnone, .next ?_⟩
  rcases complaint_bracket h (m := .right) (by decide) "bracket not opened" "Zamknięcie nawiasu na pozycji "
    " nie ma otwarcia" with
    ⟨hright, hnone⟩ | ⟨_, _, _, _, a, y, b, hmarks, hfirst, hs, hy, h₁, h₂, hmade⟩
  swap
  · obtain rfl : y = ")" := symbolizes_of_mark hy
    exact .inr ⟨_, hmade, .notOpened hatom hside hleft hmarks hfirst hs h₁ h₂⟩
  refine .inl ⟨hnone, .next ?_⟩
  rcases complaint_cases h [.atom] [] (m := .binary) (by decide) "no right" "Spójnik dwuargumentowy na pozycji "
      " nie ma prawego argumentu" with ⟨hnoRight, hnone⟩ | ⟨k, _, _, _, _, _, _, hk, -, -, -, -, -, -, hmade⟩
  swap
  · exact .inr ⟨_, hmade, .noArgument _ ⟨.inl rfl, by simp⟩ hleft hright (.inl ⟨_, _, (find?_eq_some hk).symm⟩)⟩
  refine .inl ⟨hnone, .next ?_⟩
  rcases complaint_cases h [] [.atom] (m := .binary) (by decide) "no left" "Spójnik dwuargumentowy na pozycji "
      " nie ma lewego argumentu" with ⟨hnoLeft, hnone⟩ | ⟨k, _, _, _, _, _, _, hk, -, -, -, -, -, -, hmade⟩
  swap
  · exact .inr ⟨_, hmade, .noArgument _ ⟨.inr rfl, by simp⟩ hleft hright (.inr ⟨_, _, (find?_eq_some hk).symm⟩)⟩
  exact .inl ⟨hnone, .malformed ⟨hfine, hatom, hside, hleft, hright, hnoRight, hnoLeft⟩⟩

theorem verdict_checkSyntax (hs : ∀ y ∈ s, y.IsGrammatical) : Verdict (reduced s) s s.checkSyntax :=
  verdict_firstComplaint (standsFor_reduced hs)

/-- **The check gives an answer**, unless a negation trails behind a formula. -/
theorem checkSyntax_answers (hs : ∀ y ∈ s, y.IsGrammatical) :
    (∃ r, s.checkSyntax = .ok r) ∧ ¬ s.NegationTrails ∨ s.checkSyntax = .error .malformed ∧ s.NegationTrails := by
  have hall := fullyReduced_reduced s
  have htrails : Silent (reduced s).marks ↔ s.NegationTrails :=
    (silent_iff hall).trans ((standsFor_reduced hs).negation_trails_iff hall)
  have hverdict := verdict_checkSyntax hs
  generalize s.checkSyntax = r at hverdict
  cases hverdict with
  | fine h => exact .inl ⟨⟨_, rfl⟩, fun ht => (htrails.2 ht).more h⟩
  | noVariables m _ h => exact .inl ⟨⟨_, rfl⟩, fun ht => h (htrails.2 ht).atom⟩
  | sideBySide m _ h => exact .inl ⟨⟨_, rfl⟩, fun ht => (htrails.2 ht).apart h⟩
  | leftOpen _ _ hmarks => exact .inl ⟨⟨_, rfl⟩, fun ht => (htrails.2 ht).left (by simp [hmarks])⟩
  | notOpened _ _ _ hmarks => exact .inl ⟨⟨_, rfl⟩, fun ht => (htrails.2 ht).right (by simp [hmarks])⟩
  | noArgument m _ _ _ h =>
    refine .inl ⟨⟨_, rfl⟩, fun ht => ?_⟩
    rcases h with h | h
    · exact (htrails.2 ht).noRight h
    · exact (htrails.2 ht).noLeft h
  | malformed h => exact .inr ⟨rfl, htrails.1 h⟩

theorem default_ne_empty (hs : ∀ y ∈ s, y.IsGrammatical) {m : Mistake} (h : s.checkSyntax = .ok (some m)) :
    m.default ≠ "" := by
  have hverdict := verdict_checkSyntax hs
  rw [h] at hverdict
  cases hverdict with
  | noVariables _ hm => exact hm.2
  | sideBySide _ hm => exact hm.2
  | leftOpen => simp [leftOpen]
  | notOpened => simp [notOpened]
  | noArgument _ hm => exact hm.2

/-! ## Reports of brackets -/

/-- the first bracket of a kind that is not one of a pair around a formula -/
def FirstLoose (bracket : Symbol) (s : Sentence) (n : Nat) : Prop :=
  s[n]? = some bracket ∧ ¬ s.BracketsFormula n ∧ ∀ k < n, s[k]? = some bracket → s.BracketsFormula k

theorem FirstLoose.unique {bracket : Symbol} {m n : Nat} (hm : FirstLoose bracket s m) (hn : FirstLoose bracket s n) :
    m = n := by
  rcases Nat.lt_trichotomy m n with hlt | heq | hlt
  · exact absurd (hn.2.2 m hlt hm.1) hm.2.1
  · exact heq
  · exact absurd (hm.2.2 n hlt hn.1) hn.2.1

/-- where all brackets before one belong to pairs around formulas, and it does not, it is the first -/
theorem firstLoose_of_settled {bracket : Symbol} {a b : Sentence} (ha : Settled bracket a)
    (h : ¬ BracketsFormula (a ++ bracket :: b) a.length) : FirstLoose bracket (a ++ bracket :: b) a.length := by
  refine ⟨by simp, h, fun k hk hat => ?_⟩
  rw [List.getElem?_append_left hk] at hat
  simpa using (ha k hat).context [] (bracket :: b)

/-- a right bracket before which no left one lacks a partner has none itself -/
theorem not_pairs_of_unclosed {a b : Sentence} (ha : (residue a.tokens).unclosed = 0) (i : Nat) (w : Sentence) :
    ¬ Pairs (a ++ ")" :: b) i a.length w := by
  intro h
  obtain ⟨-, c, rfl⟩ := h.of_right
  obtain ⟨_, _, -, -, -, hbal⟩ := h
  unfold Balanced at hbal
  simp [hbal, Residue.join] at ha

/-- **Left brackets that are reported**: the first one that is not one of a pair around a formula, where there are
variables and no two formulas stand side by side. -/
theorem leftOpen_iff (hs : ∀ y ∈ s, y.IsGrammatical) (m : Mistake) :
    s.checkSyntax = .ok (some m) ∧ m.name = "bracket left open" ↔
      s.HasVariable ∧ ¬ s.SideBySide ∧ ∃ n, m = leftOpen n ∧ FirstLoose "(" s n := by
  have hstands := standsFor_reduced hs
  have hall := fullyReduced_reduced s
  have hverdict := verdict_checkSyntax hs
  generalize s.checkSyntax = r at hverdict
  constructor
  · rintro ⟨rfl, hname⟩
    cases hverdict with
    | noVariables _ hm => simp [hm.1] at hname
    | sideBySide _ hm => simp [hm.1] at hname
    | notOpened => simp [notOpened] at hname
    | noArgument _ hm => rcases hm.1 with hm | hm <;> simp [hm] at hname
    | @leftOpen _ _ _ _ a b hatom hside hmarks hfirst hs' h₁ h₂ =>
      refine ⟨hstands.atom_mem_iff.1 hatom, fun h => hside ((hstands.two_atoms_iff hall).2 h), a.length, rfl, ?_⟩
      rw [hs']
      exact firstLoose_of_settled (h₁.settled (.inl rfl) mark_left hfirst) (h₂.left_stays (hmarks ▸ hall))
  · rintro ⟨hvar, hapart, n, rfl, hloose⟩
    have hleft : .left ∈ (reduced s).marks := by
      by_contra h
      exact hloose.2.1 (hstands.settled (.inl rfl) mark_left h n hloose.1)
    refine ⟨?_, rfl⟩
    cases hverdict with
    | fine h => simp [h] at hleft
    | noVariables _ _ h => exact absurd (hstands.atom_mem_iff.2 hvar) h
    | sideBySide _ _ h => exact absurd ((hstands.two_atoms_iff hall).1 h) hapart
    | notOpened _ _ h => exact absurd hleft h
    | noArgument _ _ h => exact absurd hleft h
    | malformed h => exact absurd hleft h.left
    | @leftOpen _ _ _ _ a b _ _ hmarks hfirst hs' h₁ h₂ =>
      rw [hs'] at hloose
      have hfound := firstLoose_of_settled (h₁.settled (.inl rfl) mark_left hfirst)
        (h₂.left_stays (a := a) (hmarks ▸ hall))
      rw [hloose.unique hfound]

/-- **Right brackets that are reported**: the first one that is not one of a pair around a formula, where all left ones
are. It has no partner. -/
theorem notOpened_iff (hs : ∀ y ∈ s, y.IsGrammatical) (m : Mistake) :
    s.checkSyntax = .ok (some m) ∧ m.name = "bracket not opened" ↔
      s.HasVariable ∧ ¬ s.SideBySide ∧ Settled "(" s ∧ ∃ n, m = notOpened n ∧ FirstLoose ")" s n ∧
      ∀ i w, ¬ s.Pairs i n w := by
  have hstands := standsFor_reduced hs
  have hall := fullyReduced_reduced s
  have hverdict := verdict_checkSyntax hs
  generalize s.checkSyntax = r at hverdict
  constructor
  · rintro ⟨rfl, hname⟩
    cases hverdict with
    | noVariables _ hm => simp [hm.1] at hname
    | sideBySide _ hm => simp [hm.1] at hname
    | leftOpen => simp [leftOpen] at hname
    | noArgument _ hm => rcases hm.1 with hm | hm <;> simp [hm] at hname
    | @notOpened _ _ _ _ a b hatom hside hleft hmarks hfirst hs' h₁ h₂ =>
      refine ⟨hstands.atom_mem_iff.1 hatom, fun h => hside ((hstands.two_atoms_iff hall).2 h),
        hstands.settled (.inl rfl) mark_left hleft, a.length, rfl, ?_⟩
      rw [hs']
      refine ⟨firstLoose_of_settled (h₁.settled (.inr rfl) mark_right hfirst) (h₁.right_stays (hmarks ▸ hall)), ?_⟩
      exact not_pairs_of_unclosed (h₁.unclosed_eq_zero fun h => hleft (by simp [hmarks, h]))
  · rintro ⟨hvar, hapart, hleft, n, rfl, hloose, -⟩
    have hright : .right ∈ (reduced s).marks := by
      by_contra h
      exact hloose.2.1 (hstands.settled (.inr rfl) mark_right h n hloose.1)
    refine ⟨?_, rfl⟩
    cases hverdict with
    | fine h => simp [h] at hright
    | noVariables _ _ h => exact absurd (hstands.atom_mem_iff.2 hvar) h
    | sideBySide _ _ h => exact absurd ((hstands.two_atoms_iff hall).1 h) hapart
    | noArgument _ _ _ h => exact absurd hright h
    | malformed h => exact absurd hright h.right
    | @leftOpen _ _ _ _ a b _ _ hmarks _ hs' _ h₂ =>
      refine absurd (hleft a.length (by simp [hs'])) ?_
      rw [hs']
      exact h₂.left_stays (hmarks ▸ hall)
    | @notOpened _ _ _ _ a b _ _ _ hmarks hfirst hs' h₁ h₂ =>
      rw [hs'] at hloose
      have hfound := firstLoose_of_settled (h₁.settled (.inr rfl) mark_right hfirst)
        (h₁.right_stays (b := b) (hmarks ▸ hall))
      rw [hloose.unique hfound]

end Sentence

namespace Calculus

open Sentence

/-- **Reports of brackets.** A bracket is reported only where there are variables and no two formulas stand side by
side. A left bracket is reported exactly if it is the first that is not one of a pair around a formula: it has no
partner, or the two enclose something else. A right bracket is reported exactly if all left ones belong to pairs around
formulas and it is the first right one that does not; then it has no partner. -/
theorem bracket_mistakes (c : Calculus) (s : Sentence) (hs : ∀ y ∈ s, y.IsGrammatical) (m : Mistake) :
    (c.checkSyntax s = .ok (some m) ∧ m.name = "bracket left open" ↔
      s.HasVariable ∧ ¬ s.SideBySide ∧ ∃ n, m = leftOpen n ∧ FirstLoose "(" s n) ∧
    (c.checkSyntax s = .ok (some m) ∧ m.name = "bracket not opened" ↔
      s.HasVariable ∧ ¬ s.SideBySide ∧ Settled "(" s ∧ ∃ n, m = notOpened n ∧ FirstLoose ")" s n ∧
      ∀ i w, ¬ s.Pairs i n w) := by
  rw [c.checkSyntax_grammatical hs]
  exact ⟨leftOpen_iff hs m, notOpened_iff hs m⟩

/-- `(p and)` is told that its left bracket is not closed, and the two are partners; the
right bracket of `p)` has none -/
theorem bracket_mistakes_no_argument :
    let s : Sentence := ["(", "sentvar_p", "and_and", ")"]
    let t : Sentence := ["sentvar_p", ")"]
    (∀ y ∈ s ++ t, y.IsGrammatical) ∧
      unsigned.checkSyntax s = .ok (some (leftOpen 0)) ∧ FirstLoose "(" s 0 ∧ s.Pairs 0 3 ["sentvar_p", "and_and"] ∧
      signed.checkSyntax t = .ok (some (notOpened 1)) ∧ ∀ i w, ¬ t.Pairs i 1 w := by
  intro s t
  have hs : ∀ y ∈ s, y.IsGrammatical := by decide
  have ht : ∀ y ∈ t, y.IsGrammatical := by decide
  have hleft : unsigned.checkSyntax s = .ok (some (leftOpen 0)) := rfl
  have hright : signed.checkSyntax t = .ok (some (notOpened 1)) := rfl
  obtain ⟨-, -, m, hm, hloose⟩ := (bracket_mistakes unsigned s hs _).1.1 ⟨hleft, rfl⟩
  obtain ⟨-, -, -, n, hn, -, hpairs⟩ := (bracket_mistakes signed t ht _).2.1 ⟨hright, rfl⟩
  obtain rfl := placeDatum_inj.1 (congrArg Mistake.details hm)
  obtain rfl := placeDatum_inj.1 (congrArg Mistake.details hn)
  refine ⟨by decide, hleft, hloose, ⟨[], [], rfl, rfl, rfl, ?_⟩, hright, hpairs⟩
  unfold Balanced
  decide

end Calculus

end TableauTutor
