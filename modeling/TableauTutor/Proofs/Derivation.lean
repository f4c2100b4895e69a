import Mathlib.Data.List.Forall2
import TableauTutor.Calculus.Basic
import TableauTutor.Proofs.Grammar

/-!
The grammar of formulas, over sentences. A sentence written with brackets, variables and connectives has one mark for
each of its symbols, so a derivation of its outline is a derivation of the sentence itself.

- `checkSyntax_iff_derivable`: the syntax check of either calculus finds no mistake exactly in the derivable sentences.
-/

namespace TableauTutor

/-- a bracket, a variable or a connective -/
def Symbol.IsGrammatical (y : Symbol) : Prop :=
  y = "(" ∨ y = ")" ∨ y.kind ∈ ["sentvar", "not", "and", "or", "imp"]

instance (y : Symbol) : Decidable y.IsGrammatical := inferInstanceAs (Decidable (_ ∨ _ ∨ _))

namespace Sentence

/-- the sentences that the grammar of formulas derives -/
inductive Derivable : Sentence → Prop where
  | var {y : Symbol} (hy : y.kind = "sentvar") : Derivable [y]
  | negation {y : Symbol} {w : Sentence} (hy : y.kind = "not") (h : Derivable w) : Derivable (y :: w)
  | connective {u v : Sentence} {y : Symbol} (hu : Derivable u) (hy : y.kind ∈ ["and", "or", "imp"])
      (hv : Derivable v) : Derivable (u ++ y :: v)
  | bracketed {w : Sentence} (h : Derivable w) : Derivable ("(" :: w ++ [")"])

/-- each symbol has its mark -/
abbrev Marked (s : Sentence) (w : List Mark) : Prop := List.Forall₂ (fun y m => Mark.ofSymbol? y = some m) s w

/-! ## Symbols and their marks -/

theorem kind_left : Symbol.kind "(" = "(" := by decide

theorem kind_right : Symbol.kind ")" = ")" := by decide

theorem not_bracket_of_kind {y : Symbol} (hy : y.kind ∈ ["sentvar", "not", "and", "or", "imp"]) :
    y ≠ "(" ∧ y ≠ ")" := by
  constructor
  · rintro rfl
    rw [kind_left] at hy
    exact absurd hy (by decide)
  · rintro rfl
    rw [kind_right] at hy
    exact absurd hy (by decide)

theorem mark_variable {y : Symbol} (hy : y.kind = "sentvar") : Mark.ofSymbol? y = some .atom := by
  obtain ⟨hl, hr⟩ := not_bracket_of_kind (y := y) (by simp [hy])
  simp [Mark.ofSymbol?, hl, hr, hy]

theorem mark_negation {y : Symbol} (hy : y.kind = "not") : Mark.ofSymbol? y = some .unary := by
  obtain ⟨hl, hr⟩ := not_bracket_of_kind (y := y) (by simp [hy])
  simp [Mark.ofSymbol?, hl, hr, hy]

theorem mark_connective {y : Symbol} (hy : y.kind ∈ ["and", "or", "imp"]) : Mark.ofSymbol? y = some .binary := by
  have hmem : y.kind ∈ ["sentvar", "not", "and", "or", "imp"] := List.mem_cons_of_mem _ (List.mem_cons_of_mem _ hy)
  obtain ⟨hl, hr⟩ := not_bracket_of_kind hmem
  simp only [List.mem_cons, List.not_mem_nil, or_false] at hy
  rcases hy with hy | hy | hy <;> simp [Mark.ofSymbol?, hl, hr, hy]

/-- what a symbol is, if this is its mark -/
def Symbolizes (y : Symbol) : Mark → Prop
  | .left => y = "("
  | .right => y = ")"
  | .atom => y.kind = "sentvar"
  | .unary => y.kind = "not"
  | .binary => y.kind ∈ ["and", "or", "imp"]

theorem symbolizes_of_mark {y : Symbol} {m : Mark} (h : Mark.ofSymbol? y = some m) : Symbolizes y m := by
  unfold Mark.ofSymbol? at h
  split_ifs at h with hl hr hv hn hc
  · obtain rfl := Option.some.inj h
    exact hl
  · obtain rfl := Option.some.inj h
    exact hr
  · obtain rfl := Option.some.inj h
    exact hv
  · obtain rfl := Option.some.inj h
    exact hn
  · obtain rfl := Option.some.inj h
    exact List.contains_iff_mem.1 hc

theorem exists_mark_of_isGrammatical {y : Symbol} (hy : y.IsGrammatical) : ∃ m, Mark.ofSymbol? y = some m := by
  rcases hy with rfl | rfl | hy
  · exact ⟨.left, rfl⟩
  · exact ⟨.right, rfl⟩
  · rcases List.mem_cons.1 hy with hy | hy
    · exact ⟨.atom, mark_variable hy⟩
    · rcases List.mem_cons.1 hy with hy | hy
      · exact ⟨.unary, mark_negation hy⟩
      · exact ⟨.binary, mark_connective hy⟩

theorem marked_outline {s : Sentence} (hs : ∀ y ∈ s, y.IsGrammatical) : s.Marked s.outline := by
  induction s with
  | nil => exact .nil
  | cons y s ih =>
    obtain ⟨hy, hrest⟩ := List.forall_mem_cons.1 hs
    obtain ⟨m, hm⟩ := exists_mark_of_isGrammatical hy
    rw [outline, List.filterMap_cons_some hm]
    exact .cons hm (ih hrest)

theorem Marked.split {s : Sentence} {u v : List Mark} (h : s.Marked (u ++ v)) :
    ∃ a b : Sentence, s = a ++ b ∧ a.Marked u ∧ b.Marked v :=
  ⟨s.take u.length, s.drop u.length, (List.take_append_drop _ _).symm, List.forall₂_take_append s u v h,
    List.forall₂_drop_append s u v h⟩

/-! ## Derivations of sentences and of outlines -/

theorem derivable_of_isFormula {w : List Mark} (h : Outline.IsFormula w) {s : Sentence} (hs : s.Marked w) :
    s.Derivable := by
  -- the induction is on the derivation of the marks; the symbols are split as their marks are
  induction h generalizing s with
  | atom =>
    cases hs with
    | cons hy hnil =>
      cases hnil
      exact .var (symbolizes_of_mark hy)
  | unary _ ih =>
    cases hs with
    | cons hy hw => exact .negation (symbolizes_of_mark hy) (ih hw)
  | @binary u v _ _ ihu ihv =>
    obtain ⟨a, b, rfl, ha, hb⟩ := Marked.split hs
    cases hb with
    | cons hy hb => exact .connective (ihu ha) (symbolizes_of_mark hy) (ihv hb)
  | @bracketed w _ ih =>
    obtain ⟨a, b, rfl, ha, hb⟩ := Marked.split hs
    cases ha with
    | cons hy ha =>
      cases hb with
      | cons hz hnil =>
        cases hnil
        obtain rfl := symbolizes_of_mark hy
        obtain rfl := symbolizes_of_mark hz
        exact .bracketed (ih ha)

theorem isFormula_outline {s : Sentence} (h : s.Derivable) : Outline.IsFormula s.outline := by
  induction h with
  | var hy =>
    rw [outline, List.filterMap_cons_some (mark_variable hy)]
    exact .atom
  | negation hy _ ih =>
    rw [outline, List.filterMap_cons_some (mark_negation hy)]
    exact .unary ih
  | connective _ hy _ ihu ihv =>
    rw [outline, List.filterMap_append, List.filterMap_cons_some (mark_connective hy)]
    exact .binary ihu ihv
  | bracketed _ ih =>
    have hleft : Mark.ofSymbol? "(" = some .left := rfl
    rw [outline, List.filterMap_append, List.filterMap_cons_some hleft]
    exact .bracketed ih

/-- **A sentence is derivable exactly if its outline is.** -/
theorem derivable_iff_isFormula {s : Sentence} (hs : ∀ y ∈ s, y.IsGrammatical) :
    s.Derivable ↔ Outline.IsFormula s.outline := by
  constructor
  · exact isFormula_outline
  · intro h
    exact derivable_of_isFormula h (marked_outline hs)

theorem checkSyntax_eq_none_iff {s : Sentence} (hs : ∀ y ∈ s, y.IsGrammatical) :
    s.checkSyntax = .ok none ↔ s.Derivable :=
  checkSyntax_eq_none.trans (derivable_iff_isFormula hs).symm

end Sentence

namespace Calculus

theorem not_sign_of_isGrammatical {y : Symbol} (hy : y.IsGrammatical) : Text.startsWith "sign" y.kind = false := by
  rcases hy with rfl | rfl | hy
  · decide
  · decide
  · simp only [List.mem_cons, List.not_mem_nil, or_false] at hy
    rcases hy with hy | hy | hy | hy | hy <;> (rw [hy]; decide)

/-- without signs both calculi check alike -/
theorem checkSyntax_grammatical (c : Calculus) {s : Sentence} (hs : ∀ y ∈ s, y.IsGrammatical) :
    c.checkSyntax s = s.checkSyntax := by
  have hsign : s.kinds.any (Text.startsWith "sign") = false := by
    rw [List.any_eq_false]
    intro k hk
    obtain ⟨y, hy, rfl⟩ := List.mem_map.1 hk
    simp [not_sign_of_isGrammatical (hs y hy)]
  simp [checkSyntax, hsign]

/-- **The syntax check accepts exactly the grammar**, in both calculi: there is no mistake in a sentence of brackets,
variables and connectives if and only if the grammar derives it. -/
theorem checkSyntax_iff_derivable (c : Calculus) (s : Sentence) (hs : ∀ y ∈ s, y.IsGrammatical) :
    c.checkSyntax s = .ok none ↔ s.Derivable := by
  rw [c.checkSyntax_grammatical hs, Sentence.checkSyntax_eq_none, Sentence.derivable_iff_isFormula hs]

/-- `p and (~q or p)` is derived and accepted; without its last bracket it is neither -/
theorem checkSyntax_iff_derivable_samples :
    let s : Sentence := ["sentvar_p", "and_and", "(", "not_~", "sentvar_q", "or_or", "sentvar_p", ")"]
    (∀ y ∈ s, y.IsGrammatical) ∧ s.Derivable ∧ signed.checkSyntax s = .ok none ∧
      ¬ Sentence.Derivable s.dropLast ∧ unsigned.checkSyntax s.dropLast ≠ .ok none := by
  intro s
  have hs : ∀ y ∈ s, y.IsGrammatical := by decide
  have hderived : s.Derivable :=
    .connective (u := ["sentvar_p"]) (.var (by decide)) (by decide)
      (.bracketed (.connective (u := ["not_~", "sentvar_q"]) (.negation (by decide) (.var (by decide))) (by decide)
        (.var (by decide))))
  have hbroken : unsigned.checkSyntax s.dropLast ≠ .ok none := by
    intro h
    have hpass : (unsigned.checkSyntax s.dropLast).toOption.map Option.isNone = some false := by decide +kernel
    rw [h] at hpass
    exact absurd hpass (by decide)
  refine ⟨hs, hderived, (checkSyntax_iff_derivable signed s hs).2 hderived, fun h => hbroken ?_, hbroken⟩
  exact (checkSyntax_iff_derivable unsigned s.dropLast fun y hy => hs y (List.dropLast_subset s hy)).2 h

end Calculus

end TableauTutor
