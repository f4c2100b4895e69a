import TableauTutor.Proofs.Brackets

/-!
Formulas as trees, and the ways in which a tree can be written. A spelling has all the brackets that precedence and
association to the left ask for, and may have more pairs around any part. `Spelling.not_enclosed` and
`Spelling.enclosed` tell spellings with a pair around the whole from those without.
-/

namespace TableauTutor

/-- a formula as a tree: atoms, and connectives with one or two arguments, each with the token that stands for it -/
inductive SyntaxTree where
  | atom (a : Token)
  | unary (op : Token) (arg : SyntaxTree)
  | binary (op : Token) (left right : SyntaxTree)
deriving DecidableEq, Repr

namespace Connectives

/-- the languages that can be read without ambiguity: precedences are not negative, and all unary connectives have one
precedence, which is above that of every binary one -/
structure Regular (c : Connectives) : Prop where
  nonneg : ∀ k p, (k, p) ∈ c.precedence → 0 ≤ p
  shared : ∀ u ∈ c.unary, ∀ v ∈ c.unary, ∀ p q, c.precedence.lookup u = some p → c.precedence.lookup v = some q → p = q
  above : ∀ u ∈ c.unary, ∀ k, k ∉ c.unary → ∀ p q, c.precedence.lookup u = some p →
  c.precedence.lookup k = some q → q < p

theorem regular_sample : sample.Regular := by
  constructor
  · simp only [sample, List.mem_cons, Prod.mk.injEq, List.not_mem_nil, or_false]
    omega
  · simp [sample, List.lookup_cons]
  · simp [sample, List.lookup_cons]
    grind

theorem regular_propositional : propositional.Regular := by
  constructor
  · simp only [propositional, List.mem_cons, Prod.mk.injEq, List.not_mem_nil, or_false]
    omega
  · simp [propositional, List.lookup_cons]
  · simp [propositional, List.lookup_cons]
    grind

/-- not one of the bracket kinds -/
def IsSymbol (t : Token) : Prop := t.kind ≠ "(" ∧ t.kind ≠ ")"

/-- a token that is neither a bracket nor a connective -/
def IsAtom (c : Connectives) (t : Token) : Prop := IsSymbol t ∧ c.precedence.lookup t.kind = none

/-- a unary connective of the precedence p -/
def IsUnary (c : Connectives) (t : Token) (p : Int) : Prop :=
  IsSymbol t ∧ t.kind ∈ c.unary ∧ c.precedence.lookup t.kind = some p

/-- a binary connective of the precedence p -/
def IsBinary (c : Connectives) (t : Token) (p : Int) : Prop :=
  IsSymbol t ∧ t.kind ∉ c.unary ∧ c.precedence.lookup t.kind = some p

end Connectives

/-- precedence of the connective at the root -/
def SyntaxTree.precedence? (c : Connectives) : SyntaxTree → Option Int
  | atom _ => none
  | unary op _ => c.precedence.lookup op.kind
  | binary op _ _ => c.precedence.lookup op.kind

/-- the ways to write a tree, with a mark for those that have a pair of brackets around the whole. A part may stand
without brackets where its root binds tightly enough: on the left of a connective as tightly as the connective itself,
on the right more tightly -/
inductive Spelling (c : Connectives) : SyntaxTree → Bool → List Token → Prop where
  | atom {a : Token} (ha : c.IsAtom a) : Spelling c (.atom a) false [a]
  | unary {op : Token} {p : Int} {x : SyntaxTree} {b : Bool} {w : List Token} (hop : c.IsUnary op p)
      (hx : Spelling c x b w) (hfit : b = true ∨ ∀ q ∈ x.precedence? c, p ≤ q) :
      Spelling c (.unary op x) false (op :: w)
  | binary {op : Token} {p : Int} {l r : SyntaxTree} {bl br : Bool} {wl wr : List Token} (hop : c.IsBinary op p)
      (hl : Spelling c l bl wl) (hr : Spelling c r br wr) (hfl : bl = true ∨ ∀ q ∈ l.precedence? c, p ≤ q)
      (hfr : br = true ∨ ∀ q ∈ r.precedence? c, p < q) : Spelling c (.binary op l r) false (wl ++ op :: wr)
  | bracketed {t : SyntaxTree} {b : Bool} {w : List Token} (h : Spelling c t b w) :
      Spelling c t true (Token.leftBracket :: w ++ [Token.rightBracket])

/-- a list of tokens is a way to write a tree -/
def Spells (c : Connectives) (t : SyntaxTree) (w : List Token) : Prop := ∃ b, Spelling c t b w

theorem Spelling.sample_variable (x : String) :
    Spelling .sample (.atom ⟨"sentvar", x, false⟩) false [⟨"sentvar", x, false⟩] :=
  .atom ⟨⟨by simp, by simp⟩, by simp [Connectives.sample, List.lookup_cons]⟩

/-! ## Brackets of a spelling -/

theorem isSymbol_not_bracket {t : Token} (h : Connectives.IsSymbol t) :
    t ≠ Token.leftBracket ∧ t ≠ Token.rightBracket := by
  refine ⟨?_, ?_⟩
  · rintro rfl
    exact h.1 rfl
  · rintro rfl
    exact h.2 rfl

theorem residue_ofToken_symbol {t : Token} (h : Connectives.IsSymbol t) : Residue.ofToken t = ⟨0, 0⟩ := by
  obtain ⟨hl, hr⟩ := isSymbol_not_bracket h
  simp [Residue.ofToken, hl, hr]

/-- inside an enclosing pair no proper start of the list is balanced -/
theorem Enclosed.start_not_balanced {u v : List Token} (h : Enclosed (u ++ v)) (hu : u ≠ [])
    (hv : v ≠ []) : ¬ Balanced u := by
  obtain ⟨inner, hin, hbal⟩ := h
  obtain ⟨t, u', rfl⟩ := List.exists_cons_of_ne_nil hu
  obtain ⟨v', s, rfl⟩ : ∃ v' s, v = v' ++ [s] := ⟨v.dropLast, v.getLast hv, (List.dropLast_concat_getLast hv).symm⟩
  simp only [List.cons_append, ← List.append_assoc, List.cons.injEq] at hin
  obtain ⟨rfl, hin⟩ := hin
  have hinner : u' ++ v' = inner := (List.append_inj' hin rfl).1
  unfold Balanced at hbal ⊢
  rw [← hinner, residue_append] at hbal
  simp only [residue_cons, Residue.ofToken_left, Residue.join, Residue.mk.injEq] at hbal ⊢
  omega

namespace Spelling

variable {c : Connectives} {t : SyntaxTree} {b : Bool} {w : List Token}

theorem balanced (h : Spelling c t b w) : Balanced w := by
  unfold Balanced
  induction h with
  | atom ha => simp [residue_ofToken_symbol ha.1]
  | unary hop _ _ ih => simp [residue_ofToken_symbol hop.1, ih]
  | binary hop _ _ _ _ ihl ihr => simp [residue_ofToken_symbol hop.1, ihl, ihr]
  | bracketed _ ih => simp [ih, Residue.join]

theorem hasSymbol (h : Spelling c t b w) : HasSymbol w := by
  induction h with
  | atom ha => exact ⟨_, List.mem_singleton.2 rfl, isSymbol_not_bracket ha.1⟩
  | unary hop _ _ _ => exact ⟨_, List.mem_cons_self, isSymbol_not_bracket hop.1⟩
  | binary hop _ _ _ _ _ _ => exact ⟨_, List.mem_append_right _ List.mem_cons_self, isSymbol_not_bracket hop.1⟩
  | bracketed _ ih =>
    obtain ⟨s, hs, hne⟩ := ih
    exact ⟨s, List.mem_append_left _ (List.mem_cons_of_mem _ hs), hne⟩

theorem ne_nil (h : Spelling c t b w) : w ≠ [] := by
  rintro rfl
  obtain ⟨s, hs, -⟩ := h.hasSymbol
  simp at hs

theorem enclosed (h : Spelling c t true w) : Enclosed w := by
  cases h with
  | bracketed h => exact ⟨_, rfl, h.balanced⟩

theorem not_enclosed (h : Spelling c t false w) : ¬ Enclosed w := by
  cases h with
  | atom ha =>
    rintro ⟨inner, hin, -⟩
    simp at hin
  | unary hop _ _ =>
    rintro ⟨inner, hin, -⟩
    simp only [List.cons_append, List.cons.injEq] at hin
    exact (isSymbol_not_bracket hop.1).1 hin.1
  | binary hop hl hr _ _ => exact fun he => he.start_not_balanced hl.ne_nil (by simp) hl.balanced

theorem wrap (h : Spelling c t b w) (n : Nat) : ∃ b', Spelling c t b' (wrap n w) := by
  induction n with
  | zero => exact ⟨b, by simpa using h⟩
  | succ n ih =>
    obtain ⟨b', h'⟩ := ih
    exact ⟨true, by rw [wrap_succ]; exact h'.bracketed⟩

/-- a spelling is one without a pair around the whole, in some number of pairs -/
theorem exists_bare (h : Spelling c t b w) : ∃ n v, w = TableauTutor.wrap n v ∧ Spelling c t false v := by
  induction h with
  | atom ha => exact ⟨0, _, (wrap_zero _).symm, .atom ha⟩
  | unary hop hx hfit _ => exact ⟨0, _, (wrap_zero _).symm, .unary hop hx hfit⟩
  | binary hop hl hr hfl hfr _ _ => exact ⟨0, _, (wrap_zero _).symm, .binary hop hl hr hfl hfr⟩
  | bracketed _ ih =>
    obtain ⟨n, v, rfl, hv⟩ := ih
    exact ⟨n + 1, v, (wrap_succ n v).symm, hv⟩

end Spelling

theorem Spells.bare {c : Connectives} {t : SyntaxTree} {w : List Token} (h : Spells c t w) (he : ¬ Enclosed w) :
    Spelling c t false w := by
  obtain ⟨b, hb⟩ := h
  cases b with
  | false => exact hb
  | true => exact absurd hb.enclosed he

/-! ## Spellings put together -/

namespace Spelling

variable {c : Connectives}

/-- a unary connective in front of a spelling binds its first argument -/
theorem unary_front (hc : c.Regular) {op : Token} {p : Int} (hop : c.IsUnary op p) {t : SyntaxTree} {b : Bool}
    {w : List Token} (h : Spelling c t b w) :
    ∃ t', Spelling c t' false (op :: w) ∧ ∀ q ∈ t'.precedence? c, p ≤ q ∨ (b = false ∧ q ∈ t.precedence? c) := by
  induction h with
  | atom ha =>
    refine ⟨_, .unary hop (.atom ha) (.inr (by simp [SyntaxTree.precedence?])), fun q hq => .inl ?_⟩
    simp only [SyntaxTree.precedence?, hop.2.2, Option.mem_some_iff] at hq
    omega
  | @unary op' p' x b w hop' hx hfit _ =>
    have hpp : p = p' := hc.shared _ hop.2.1 _ hop'.2.1 _ _ hop.2.2 hop'.2.2
    refine ⟨_, .unary hop (.unary hop' hx hfit) (.inr fun q hq => ?_), fun q hq => .inl ?_⟩
    · simp only [SyntaxTree.precedence?, hop'.2.2, Option.mem_some_iff] at hq
      omega
    · simp only [SyntaxTree.precedence?, hop.2.2, Option.mem_some_iff] at hq
      omega
  | @binary op' p' l r bl br wl wr hop' hl hr hfl hfr ihl _ =>
    obtain ⟨l', hl', hprec⟩ := ihl
    have habove : p' < p := hc.above _ hop.2.1 _ hop'.2.1 _ _ hop.2.2 hop'.2.2
    refine ⟨_, .binary hop' hl' hr (.inr fun q hq => ?_) hfr, fun q hq => .inr ⟨rfl, hq⟩⟩
    rcases hprec q hq with hq | ⟨hb, hq⟩
    · omega
    · rcases hfl with hfl | hfl
      · simp [hb] at hfl
      · exact hfl q hq
  | bracketed h _ =>
    refine ⟨_, .unary hop (.bracketed h) (.inl rfl), fun q hq => .inl ?_⟩
    simp only [SyntaxTree.precedence?, hop.2.2, Option.mem_some_iff] at hq
    omega

/-- a spelling can stand on either side of any binary connective, or has a binary root without brackets around it -/
theorem tight_or_binary (hc : c.Regular) {t : SyntaxTree} {b : Bool} {w : List Token} (h : Spelling c t b w) :
    (∀ op p, c.IsBinary op p → b = true ∨ ∀ q ∈ t.precedence? c, p < q) ∨
      ∃ op p l r bl br wl wr, b = false ∧ t = .binary op l r ∧ w = wl ++ op :: wr ∧ c.IsBinary op p ∧
        Spelling c l bl wl ∧ Spelling c r br wr ∧ (bl = true ∨ ∀ q ∈ l.precedence? c, p ≤ q) ∧
        (br = true ∨ ∀ q ∈ r.precedence? c, p < q) := by
  cases h with
  | atom ha => exact .inl fun _ _ _ => .inr (by simp [SyntaxTree.precedence?])
  | unary hop hx hfit =>
    refine .inl fun op p hop' => .inr fun q hq => ?_
    exact hc.above _ hop.2.1 _ hop'.2.1 _ _ (by simpa [SyntaxTree.precedence?] using hq) hop'.2.2
  | binary hop hl hr hfl hfr => exact .inr ⟨_, _, _, _, _, _, _, _, rfl, rfl, rfl, hop, hl, hr, hfl, hfr⟩
  | bracketed h => exact .inl fun _ _ _ => .inl rfl

/-! ## A connective between two spellings -/

variable {op op₁ : Token} {p p₁ : Int} {l r x y : SyntaxTree} {bl br b' : Bool} {wl wr wx wy : List Token}

/-- two spellings with a binary connective between them spell some tree; its root is the connective, or the root of one
of the two that has no brackets around it -/
def Joined (c : Connectives) (op : Token) (p : Int) (l r : SyntaxTree) (bl br : Bool) (wl wr : List Token) : Prop :=
  ∃ t, Spelling c t false (wl ++ op :: wr) ∧ ∀ q ∈ t.precedence? c,
    q = p ∨ (bl = false ∧ q ∈ l.precedence? c) ∨ (br = false ∧ q ∈ r.precedence? c)

theorem precedence?_binary (h : c.IsBinary op p) : ∀ q ∈ (SyntaxTree.binary op l r).precedence? c, q = p := by
  intro q hq
  simpa [SyntaxTree.precedence?, h.2.2, eq_comm] using hq

/-- the connective is the root if both sides bind tightly enough -/
theorem joined_root (hop : c.IsBinary op p) (hl : Spelling c l bl wl) (hr : Spelling c r br wr)
    (hfl : bl = true ∨ ∀ q ∈ l.precedence? c, p ≤ q) (hfr : br = true ∨ ∀ q ∈ r.precedence? c, p < q) :
    Joined c op p l r bl br wl wr :=
  ⟨_, .binary hop hl hr hfl hfr, fun q hq => .inl (precedence?_binary hop q hq)⟩

/-- the root of the left side stays the root if it is weaker than all behind it -/
theorem Joined.left (h : Joined c op p y r b' br wy wr) (hop₁ : c.IsBinary op₁ p₁) (hx : Spelling c x b wx)
    (hfx : b = true ∨ ∀ q ∈ x.precedence? c, p₁ ≤ q) (hfy : b' = true ∨ ∀ q ∈ y.precedence? c, p₁ < q) (hp : p₁ < p)
    (hfr : br = true ∨ ∀ q ∈ r.precedence? c, p₁ < q) :
    Joined c op p (.binary op₁ x y) r false br (wx ++ op₁ :: wy) wr := by
  obtain ⟨t, ht, hprec⟩ := h
  have hfit : ∀ q ∈ t.precedence? c, p₁ < q := by
    intro q hq
    rcases hprec q hq with rfl | ⟨hb, hq⟩ | ⟨hb, hq⟩
    · exact hp
    · exact (hfy.resolve_left (by simp [hb])) q hq
    · exact (hfr.resolve_left (by simp [hb])) q hq
  refine ⟨.binary op₁ x t, ?_, fun q hq => .inr (.inl ⟨rfl, hq⟩)⟩
  simpa using Spelling.binary hop₁ hx ht hfx (.inr hfit)

/-- the root of the right side stays the root if nothing before it is weaker -/
theorem Joined.right (h : Joined c op p l x bl b wl wx) (hop₁ : c.IsBinary op₁ p₁) (hy : Spelling c y b' wy)
    (hfx : b = true ∨ ∀ q ∈ x.precedence? c, p₁ ≤ q) (hfy : b' = true ∨ ∀ q ∈ y.precedence? c, p₁ < q) (hp : p₁ ≤ p)
    (hfl : bl = true ∨ ∀ q ∈ l.precedence? c, p₁ ≤ q) :
    Joined c op p l (.binary op₁ x y) bl false wl (wx ++ op₁ :: wy) := by
  obtain ⟨t, ht, hprec⟩ := h
  have hfit : ∀ q ∈ t.precedence? c, p₁ ≤ q := by
    intro q hq
    rcases hprec q hq with rfl | ⟨hb, hq⟩ | ⟨hb, hq⟩
    · exact hp
    · exact (hfl.resolve_left (by simp [hb])) q hq
    · exact (hfx.resolve_left (by simp [hb])) q hq
  refine ⟨.binary op₁ t y, ?_, fun q hq => .inr (.inr ⟨rfl, hq⟩)⟩
  simpa using Spelling.binary hop₁ ht hy (.inr hfit) hfy

/-- **A binary connective between any two spellings** gives a spelling. -/
theorem binary_between (hc : c.Regular) (hop : c.IsBinary op p) (hl : Spelling c l bl wl) (hr : Spelling c r br wr) :
    Joined c op p l r bl br wl wr := by
  -- the weakest of the three connectives becomes the root, the last one if several are; the sides get shorter
  induction hn : wl.length + wr.length using Nat.strongRecOn generalizing l r bl br wl wr with
  | ind n ih =>
    have weaken {t : SyntaxTree} {b : Bool} {p : Int} (h : b = true ∨ ∀ q ∈ t.precedence? c, p < q) :
        b = true ∨ ∀ q ∈ t.precedence? c, p ≤ q := h.imp_right fun h q hq => Int.le_of_lt (h q hq)
    rcases hl.tight_or_binary hc with htl | ⟨op₁, p₁, l₁, l₂, b₁, b₂, w₁, w₂, rfl, rfl, rfl, hop₁, hl₁,
      hl₂, hf₁, hg₁⟩ <;>
      rcases hr.tight_or_binary hc with htr | ⟨op₂, p₂, r₁, r₂, d₁, d₂, v₁, v₂, rfl, rfl, rfl, hop₂, hr₁, hr₂, hf₂, hg₂⟩
    · exact joined_root hop hl hr (weaken (htl op p hop)) (htr op p hop)
    · by_cases hp : p₂ ≤ p
      · exact (ih _ (by simp at hn; omega) hl hr₁ rfl).right hop₂ hr₂ hf₂ hg₂ hp (weaken (htl op₂ p₂ hop₂))
      · exact joined_root hop hl hr (weaken (htl op p hop))
          (.inr fun q hq => by have := precedence?_binary hop₂ q hq; omega)
    · by_cases hp : p₁ < p
      · exact (ih _ (by simp at hn; omega) hl₂ hr rfl).left hop₁ hl₁ hf₁ hg₁ hp (htr op₁ p₁ hop₁)
      · exact joined_root hop hl hr (.inr fun q hq => by have := precedence?_binary hop₁ q hq; omega) (htr op p hop)
    · by_cases hp₂ : p₂ ≤ p ∧ p₂ ≤ p₁
      · exact (ih _ (by simp at hn ⊢; omega) hl hr₁ rfl).right hop₂ hr₂ hf₂ hg₂ hp₂.1
          (.inr fun q hq => by have := precedence?_binary hop₁ q hq; omega)
      · by_cases hp₁ : p₁ < p ∧ p₁ < p₂
        · exact (ih _ (by simp at hn ⊢; omega) hl₂ hr rfl).left hop₁ hl₁ hf₁ hg₁ hp₁.1
            (.inr fun q hq => by have := precedence?_binary hop₂ q hq; omega)
        · exact joined_root hop hl hr (.inr fun q hq => by have := precedence?_binary hop₁ q hq; omega)
            (.inr fun q hq => by have := precedence?_binary hop₂ q hq; omega)

end Spelling

end TableauTutor
