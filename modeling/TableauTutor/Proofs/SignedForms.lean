import TableauTutor.Proofs.Cutting
import TableauTutor.Proofs.Meaning

/-!
Signed and unsigned forms. The node `F s` stands for the negation of `s`, the node `T s` for `s` itself, as long as `s`
is not a negation. From a node to its formula and back every symbol is the same; from a formula to its node and back the
negation in front and the brackets behind it are written anew, so that what is kept is what the formula says.
-/

namespace TableauTutor.Calculus

variable {x : Lexer} {s : Sentence} {a : Proposition}

theorem unsign_sign (hx : signed.HasLexer x) (h : s.Reads a) :
    ∃ n p : Sentence, sign x s = .ok n ∧ signed.Means n a ∧ unsign x n = .ok p ∧ p.Reads a := by
  obtain ⟨n, hn, hmeans⟩ : ∃ n, sign x s = .ok n ∧ signed.Means n a := toNode_means hx h
  obtain ⟨p, hp, hreads, -⟩ := toPlain_reads hx hmeans
  exact ⟨n, p, hn, hmeans, hp, hreads⟩

/-- **Signed and unsigned forms.** Every node of the signed calculus is read as a formula, and that formula is put into
the very same node. Every formula without an enclosing pair of brackets is put into a node, and the formula read from
that node says the same: it has the same syntax tree. -/
theorem signed_forms_translate (hx : signed.HasLexer x) :
    (∀ s, signed.NodeForm s → ∃ p, unsign x s = .ok p ∧ signed.IsPlain p ∧ sign x p = .ok s) ∧
      ∀ s, signed.IsPlain s → ∃ n p, sign x s = .ok n ∧ signed.NodeForm n ∧ unsign x n = .ok p ∧ signed.IsPlain p ∧
        ∀ a : Proposition, p.Expresses a ↔ s.Expresses a := by
  constructor
  · intro s hs
    obtain ⟨a, ha⟩ := nodeForm_iff.1 hs
    obtain ⟨p, hp, hreads, hback⟩ := toPlain_reads hx ha
    exact ⟨p, hp, isPlain_iff.2 ⟨a, hreads⟩, hback⟩
  · intro s hs
    obtain ⟨a, ha⟩ := isPlain_iff.1 hs
    obtain ⟨n, p, hn, hmeans, hp, hreads⟩ := unsign_sign hx ha
    refine ⟨n, p, hn, nodeForm_iff.2 ⟨a, hmeans⟩, hp, isPlain_iff.2 ⟨a, hreads⟩, fun b => ?_⟩
    constructor
    · intro hb
      rw [hb.unique hreads.1]
      exact ha.1
    · intro hb
      rw [hb.unique ha.1]
      exact hreads.1

/-- `F (p) v (q)`, and `not (((p) v (q)))`, which comes back as `~((p) v (q))` -/
theorem signed_forms_translate_brackets :
    let t : Sentence := ["(", .of "sentvar" "p", ")", .of "or" "v", "(", .of "sentvar" "q", ")"]
    let s : Sentence := .of "not" "not" :: t.wrapped 2
    ∃ x, signed.HasLexer x ∧ signed.NodeForm (falseSign :: t) ∧ signed.IsPlain s ∧
      (∃ p, unsign x (falseSign :: t) = .ok p ∧ signed.IsPlain p ∧ sign x p = .ok (falseSign :: t)) ∧
      ∃ n p, sign x s = .ok n ∧ signed.NodeForm n ∧ unsign x n = .ok p ∧ signed.IsPlain p ∧
        ∀ a : Proposition, p.Expresses a ↔ s.Expresses a := by
  intro t s
  obtain ⟨x, hx⟩ := signed.exists_lexer
  have hin : s.InLanguage := Sentence.inLanguage_of_symbols (by decide)
  have hbare : ¬ Enclosed t.tokens := by
    rintro ⟨us, h, hus⟩
    obtain rfl : _ = us := congrArg (fun l => l.tail.dropLast) h |>.trans (by simp)
    exact absurd (show residue _ = _ from hus) (by decide)
  obtain ⟨a, ha⟩ := Sentence.exists_expresses hin.of_cons.2.of_wrapped (show Outline.reader? _ _ = _ by decide)
  obtain ⟨b, hb⟩ := Sentence.exists_expresses hin (show Outline.reader? _ _ = _ by decide)
  have hnode : signed.NodeForm (falseSign :: t) := ⟨t, isPlain_iff.2 ⟨a, ha, hbare⟩, .inr rfl⟩
  have hplain : signed.IsPlain s := isPlain_iff.2 ⟨b, hb.reads_of_head? (by decide)⟩
  obtain ⟨hnodes, hformulas⟩ := signed_forms_translate hx
  exact ⟨x, hx, hnode, hplain, hnodes _ hnode, hformulas s hplain⟩

end TableauTutor.Calculus
