import TableauTutor.Proofs.Language

/-!
What the nodes of a proof say. In the unsigned calculus a node holds a formula; in the signed one it holds a formula
behind a sign, F saying that the formula is false, and the sign T never stands before a negation. `Calculus.toPlain` and
`Calculus.toNode` go from nodes to formulas and back without changing what is said.
-/

namespace TableauTutor

namespace Calculus

variable {c : Calculus} {x x' : Lexer} {s t : Sentence} {a b : Proposition}

/-- a formula that passes the syntax check of a calculus, without a pair of brackets around the whole -/
structure IsPlain (c : Calculus) (s : Sentence) : Prop where
  inLanguage : s.InLanguage
  accepted : c.checkSyntax s = .ok none
  bare : ¬ Enclosed s.tokens

/-- a sentence as the nodes of a proof hold it -/
def NodeForm : Calculus → Sentence → Prop
  | unsigned, s => unsigned.IsPlain s
  | signed, s => ∃ t : Sentence, signed.IsPlain t ∧
      (s = trueSign :: t ∧ (∀ k, t.parts = .ok (some k) → isNegation k.connective = false) ∨ s = falseSign :: t)

/-- the node says that the proposition is true; with the sign F it says so of a negation -/
def Means : Calculus → Sentence → Proposition → Prop
  | unsigned, s, a => s.Reads a
  | signed, s, a => ∃ t : Sentence, s = trueSign :: t ∧ t.Reads a ∧ (∀ b, a ≠ .neg b) ∨
      ∃ b, s = falseSign :: t ∧ t.Reads b ∧ a = .neg b

/-- what the node says is true under a valuation -/
def Holds (c : Calculus) (v : Symbol → Bool) (s : Sentence) : Prop := ∃ a, c.Means s a ∧ a.eval v = true

/-! ## Nodes and what they say -/

theorem checkSyntax_eq (hs : s.InLanguage) : c.checkSyntax s = s.checkSyntax := by
  have hsign : s.kinds.any (Text.startsWith "sign") = false := by
    rw [List.any_eq_false]
    intro k hk
    obtain ⟨y, hy, rfl⟩ := List.mem_map.1 hk
    rcases hs y hy with rfl | rfl | hl
    · decide
    · decide
    · rcases Symbol.letterKinds_cases hl.kind_mem with hk | hk | hk | hk | hk <;> (rw [hk]; decide)
  simp [checkSyntax, hsign]

theorem isPlain_iff : c.IsPlain s ↔ ∃ a, s.Reads a := by
  constructor
  · intro h
    have hacc := h.accepted
    rw [checkSyntax_eq h.inLanguage, Sentence.checkSyntax_iff_expresses h.inLanguage] at hacc
    obtain ⟨a, ha⟩ := hacc
    exact ⟨a, ha, h.bare⟩
  · rintro ⟨a, ha, hbare⟩
    exact ⟨ha.1, by rw [checkSyntax_eq ha.1]; exact (Sentence.checkSyntax_iff_expresses ha.1).2 ⟨a, ha⟩, hbare⟩

/-- the main connective is a negation exactly in a formula that says one -/
theorem negation_front_iff (h : s.Reads a) :
    (∀ k, s.parts = .ok (some k) → isNegation k.connective = false) ↔ ∀ b, a ≠ .neg b := by
  cases a with
  | var x => simp [h.parts_var.2]
  | neg a =>
    obtain ⟨y, n, t, -, hy, hk, -, -, hparts⟩ := h.neg_eq
    simp [hparts, hy.startsWith_not.2, hk]
  | join o a b =>
    obtain ⟨y, m, n, l, r, -, hy, hk, -, -, -, hparts⟩ := h.join_eq
    have hne : o.kind ≠ "not" := by cases o <;> decide
    simp [hparts, hy.startsWith_not.2, hk, hne]

theorem nodeForm_iff : c.NodeForm s ↔ ∃ a, c.Means s a := by
  cases c with
  | unsigned => exact isPlain_iff
  | signed =>
    constructor
    · rintro ⟨t, ht, h⟩
      obtain ⟨a, ha⟩ := isPlain_iff.1 ht
      rcases h with ⟨rfl, hneg⟩ | rfl
      · exact ⟨a, t, .inl ⟨rfl, ha, (negation_front_iff ha).1 hneg⟩⟩
      · exact ⟨.neg a, t, .inr ⟨a, rfl, ha, rfl⟩⟩
    · rintro ⟨a, t, ⟨rfl, ha, hneg⟩ | ⟨b, rfl, hb, -⟩⟩
      · exact ⟨t, isPlain_iff.2 ⟨a, ha⟩, .inl ⟨rfl, (negation_front_iff ha).2 hneg⟩⟩
      · exact ⟨t, isPlain_iff.2 ⟨b, hb⟩, .inr rfl⟩

theorem trueSign_ne_falseSign : trueSign ≠ falseSign := by decide

theorem Means.unique (ha : c.Means s a) (hb : c.Means s b) : a = b := by
  cases c with
  | unsigned => exact Sentence.Reads.unique ha hb
  | signed =>
    obtain ⟨t, ⟨rfl, ht, -⟩ | ⟨d, rfl, ht, rfl⟩⟩ := ha <;>
      obtain ⟨u, ⟨hu, hru, -⟩ | ⟨e, hu, hru, rfl⟩⟩ := hb <;> simp only [List.cons.injEq] at hu
    · obtain ⟨-, rfl⟩ := hu
      exact ht.unique hru
    · exact absurd hu.1 trueSign_ne_falseSign
    · exact absurd hu.1.symm trueSign_ne_falseSign
    · obtain ⟨-, rfl⟩ := hu
      rw [ht.unique hru]

theorem Means.holds_iff (h : c.Means s a) (v : Symbol → Bool) : c.Holds v s ↔ a.eval v = true := by
  constructor
  · rintro ⟨b, hb, hv⟩
    rwa [h.unique hb]
  · exact fun hv => ⟨a, h, hv⟩

/-! ## Signs and negations -/

/-- a formula whose argument is known, in whatever brackets -/
theorem argument_unique {y : Symbol} {m n : Nat} (ht : t.Reads a) (hs : s.Reads b)
    (h : y :: t.wrapped m = y :: s.wrapped n) : t = s := by
  have htok := congrArg Sentence.tokens (List.cons.inj h).2
  rw [Sentence.tokens_wrapped, Sentence.tokens_wrapped] at htok
  exact Sentence.tokens_injective (wrap_eq_wrap ht.1.balanced ht.2 hs.1.balanced hs.2 htok)

theorem behind_eq_wrapped (y : Symbol) (s : Sentence) : ∃ n, s.behind y = y :: s.wrapped n := by
  unfold Sentence.behind
  split
  · exact ⟨0, by rw [Sentence.wrapped_zero]⟩
  · exact ⟨1, by simp [Sentence.wrapped]⟩

/-- the main connective of a formula behind a negation is the negation, and the formula is its argument -/
theorem parts_behind {y : Symbol} (hs : s.Reads a) (hy : y.IsLetter) (hk : y.kind = "not") :
    (s.behind y).Reads (.neg a) ∧ (s.behind y).parts = .ok (some ⟨y, none, some s⟩) := by
  have hneg := hs.1.behind hy hk
  obtain ⟨z, m, t, heq, -, -, ht, -, hparts⟩ := hneg.neg_eq
  obtain ⟨n, hn⟩ := behind_eq_wrapped y s
  have hcons := hn.symm.trans heq
  obtain rfl := (List.cons.inj hcons).1
  obtain rfl := argument_unique hs ht hcons
  exact ⟨hneg, hparts⟩

theorem addPrefix_not (hx : signed.HasLexer x) (s : Sentence) :
    ∃ l, Sentence.addPrefix x "not" none s = .ok (s.behind (.of "not" l)) := by
  obtain ⟨l, hl⟩ := generate_not hx s
  refine ⟨l, ?_⟩
  have hstrength : Sentence.strengthOf "not" = .ok (Strength.measure 0 4 Connectives.propositional.scale) :=
    congrArg Outcome.ofFormula (Connectives.regular_propositional.strength_eq (k := "not") (by decide) 0)
  simp only [Sentence.addPrefix, hl, hstrength, ok_bind, pure_ok]
  split <;> rfl

theorem unsign_false (hx : signed.HasLexer x) (s : Sentence) :
    ∃ l, unsign x (falseSign :: s) = .ok (s.behind (.of "not" l)) := by
  obtain ⟨l, hl⟩ := addPrefix_not hx s
  have h1 : Text.startsWith "signtrue" falseSign = false := by decide
  have h2 : Text.startsWith "signfalse" falseSign = true := by decide
  exact ⟨l, by simp only [unsign, h1, h2, Bool.false_eq_true, if_false, if_true, hl]⟩

theorem unsign_true (x : Lexer) (s : Sentence) : unsign x (trueSign :: s) = .ok s := by
  have h1 : Text.startsWith "signtrue" trueSign = true := by decide
  simp [unsign, h1, pure_ok]

theorem sign_of_not_neg (hx : signed.HasLexer x) (h : s.Reads a) (hneg : ∀ b, a ≠ .neg b) :
    sign x s = .ok (trueSign :: s) := by
  have hgen := (generate_sign hx h.1.1).1
  have hfront := (negation_front_iff h).2 hneg
  cases a with
  | var y => simp [sign, h.parts_var.2, hgen, h.reduce, pure_ok]
  | neg b => exact absurd rfl (hneg b)
  | join o a b =>
    obtain ⟨y, m, n, l, r, -, -, -, -, -, -, hparts⟩ := h.join_eq
    simp [sign, hparts, hfront _ hparts, hgen, h.reduce, pure_ok]

theorem sign_of_neg (hx : signed.HasLexer x) {y : Symbol} (hs : s.InLanguage) (hy : y.IsLetter) (hk : y.kind = "not")
    (hparts : s.parts = .ok (some ⟨y, none, some t⟩)) (ht : t.Reads a) : sign x s = .ok (falseSign :: t) := by
  have hgen := (generate_sign hx hs).2
  simp [sign, hparts, hy.startsWith_not.2, hk, hgen, ht.reduce, pure_ok]

/-- a formula that rules made is put into a node that says the same -/
theorem toNode_means (hx : c.HasLexer x) (h : s.Reads a) : ∃ n, c.toNode x s = .ok n ∧ c.Means n a := by
  cases c with
  | unsigned => exact ⟨s, rfl, h⟩
  | signed =>
    by_cases hneg : ∃ b, a = .neg b
    · obtain ⟨b, rfl⟩ := hneg
      obtain ⟨y, n, t, -, hy, hk, ht, -, hparts⟩ := h.neg_eq
      exact ⟨falseSign :: t, sign_of_neg hx h.1.1 hy hk hparts ht, t, .inr ⟨b, rfl, ht, rfl⟩⟩
    · have hneg : ∀ b, a ≠ .neg b := fun b hb => hneg ⟨b, hb⟩
      exact ⟨trueSign :: s, sign_of_not_neg hx h hneg, s, .inl ⟨rfl, h, hneg⟩⟩

/-- a formula is put into the same node, however negations are spelled -/
theorem toNode_congr (hx : c.HasLexer x) (hx' : c.HasLexer x') (h : s.Reads a) : c.toNode x s = c.toNode x' s := by
  cases c with
  | unsigned => rfl
  | signed =>
    by_cases hneg : ∃ b, a = .neg b
    · obtain ⟨b, rfl⟩ := hneg
      obtain ⟨y, n, t, -, hy, hk, ht, -, hparts⟩ := h.neg_eq
      exact (sign_of_neg hx h.1.1 hy hk hparts ht).trans (sign_of_neg hx' h.1.1 hy hk hparts ht).symm
    · have hneg : ∀ b, a ≠ .neg b := fun b hb => hneg ⟨b, hb⟩
      exact (sign_of_not_neg hx h hneg).trans (sign_of_not_neg hx' h hneg).symm

theorem toPlain_plain (x : Lexer) (h : s.Reads a) : c.toPlain x s = .ok s := by
  cases c with
  | unsigned => rfl
  | signed =>
    cases s with
    | nil =>
      have := h.1.hasSymbol
      simp [HasSymbol] at this
    | cons y s =>
      have hsign : Text.startsWith "signtrue" y = false ∧ Text.startsWith "signfalse" y = false := by
        rcases h.1.1 y List.mem_cons_self with rfl | rfl | hl
        · decide
        · decide
        · exact hl.not_sign
      simp [toPlain, unsign, hsign, pure_ok]

/-- **From nodes to formulas.** A node is read as a formula that says the same, and the
formula leads back to the node. -/
theorem toPlain_reads (hx : c.HasLexer x) (h : c.Means s a) :
    ∃ p : Sentence, c.toPlain x s = .ok p ∧ p.Reads a ∧ c.toNode x p = .ok s := by
  cases c with
  | unsigned => exact ⟨s, rfl, h, rfl⟩
  | signed =>
    obtain ⟨t, ⟨rfl, ht, hneg⟩ | ⟨b, rfl, ht, rfl⟩⟩ := h
    · exact ⟨t, unsign_true x t, ht, sign_of_not_neg hx ht hneg⟩
    · obtain ⟨l, hl⟩ := unsign_false hx t
      have hy := Sentence.isLetter_not l
      have hk := Sentence.kind_not l
      obtain ⟨hp, hparts⟩ := parts_behind ht hy hk
      exact ⟨_, hl, hp, sign_of_neg hx hp.1.1 hy hk hparts ht⟩

end Calculus

end TableauTutor
