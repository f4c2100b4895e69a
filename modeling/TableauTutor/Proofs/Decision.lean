import TableauTutor.Proofs.SolverRun
import TableauTutor.Proofs.Statement

/-!
The solver decides whether a statement is a tautology. When every branch is closed, either each of them is
contradictory, and no valuation makes the root true, or one of them has been worked off without a contradiction, and the
variables that stand on it are a valuation that does.

- `isSuccessful_iff_unsatisfiable`: what the marks of a finished proof say about its root.
- `solve_decides`: the same in a session, about the statement that was typed.
-/

namespace TableauTutor

open Calculus ProofTree

/-! ## The valuation of a branch -/

theorem effort_lt_of_mem {name : String} {m : Method} (h : (name, m) ∈ ruleMethods) {a : Proposition}
    {ps : List (List Proposition)} (hps : m.expand a = some ps) {b : List Proposition} (hb : b ∈ ps) {q : Proposition}
    (hq : q ∈ b) : q.effort true < a.effort true :=
  (List.single_le_sum (by simp) _ (List.mem_map_of_mem hq)).trans_lt (effort_expand h hps b hb)

namespace Calculus

variable {c : Calculus} {ss : List Sentence} {used : History}

open Classical in
/-- the variables that stand among the sentences are true, the others are not -/
noncomputable def valuation (c : Calculus) (ss : List Sentence) (x : Symbol) : Bool :=
  decide (∃ s ∈ ss, c.Means s (.var x))

/-- **Sentences that are worked off without a contradiction are true together.** By induction on the effort: what is
used up was taken apart into sentences that take less, what is not is a literal. -/
theorem eval_valuation (hcons : c.Consistent ss) (hsettled : ∀ t, used.contains t = true → c.Settled ss t)
    (hall : ∀ s ∈ ss, ∀ a, c.Means s a → used.contains s = true ∨ a.isLiteral = true) {s : Sentence} (hs : s ∈ ss)
    {a : Proposition} (ha : c.Means s a) : a.eval (c.valuation ss) = true := by
  induction hn : a.effort true using Nat.strong_induction_on generalizing a s with
  | _ n ih =>
    subst hn
    rcases hall s hs a ha with hused | hlit
    · obtain ⟨a', ha', rule, m, ps, b, hm, hps, hb, hq⟩ := hsettled s hused
      obtain rfl := ha.unique ha'
      rw [eval_expand hm hps]
      refine ⟨b, hb, fun q hqb => ?_⟩
      obtain ⟨u, hu, huq⟩ := hq q hqb
      exact ih _ (effort_lt_of_mem hm hps hb hqb) hu huq rfl
    · rcases a with x | (x | a | ⟨o, a, b⟩) | ⟨o, a, b⟩ <;>
        simp only [Proposition.isLiteral, Bool.false_eq_true] at hlit
      · simpa [Proposition.eval, valuation] using ⟨s, hs, ha⟩
      · simp only [Proposition.eval, valuation, Bool.not_eq_true', decide_eq_false_iff_not]
        rintro ⟨u, hu, hux⟩
        exact hcons u hu s hs x hux ha

end Calculus

/-! ## What a finished proof says -/

/-- **The marks of a finished proof** say whether its root can be true: all branches are
successes exactly if it cannot. -/
theorem isSuccessful_iff_unsatisfiable {c : Calculus} {root : Sentence} {t : ProofTree} (h : t.Tended c root)
    (hclosed : t.isClosed = true) : t.isSuccessful = true ↔ ∀ v, ¬ c.Holds v root := by
  have hmark {s : Strand} (hs : s ∈ strands t) := Proof.verdict_means (h.sane.means_sentences hs) s.leaf.history
  rw [isSuccessful_iff]
  constructor
  · intro hsucc v hv
    obtain ⟨s, hs, hall⟩ := h.covers v hv
    have hs' := hsucc s hs
    rw [(h.strand s hs).mark] at hs'
    rcases hmark hs with ⟨-, -, -, hcontra⟩ | ⟨heq, -⟩ | ⟨heq, -⟩
    · exact hcontra.not_holds v hall
    · simp [heq, Closing.emptiness] at hs'
    · simp [heq] at hs'
  · intro hnone s hs
    have hsome := (isClosed_iff t).1 hclosed s hs
    rw [(h.strand s hs).mark] at hsome ⊢
    rcases hmark hs with ⟨i, j, heq, -⟩ | ⟨heq, hcons, hall⟩ | ⟨heq, -⟩
    · rw [heq]
      rfl
    · -- the branch is a reason to hold the root true
      obtain ⟨a, ha⟩ := h.sane.means_sentences hs root (h.strand s hs).root
      exact absurd ((ha.holds_iff _).2 (eval_valuation hcons (h.strand s hs).settled hall (h.strand s hs).root ha))
        (hnone _)
    · simp [heq] at hsome

/-! ## In a session -/

theorem Sentence.Expresses.isLiteral_neg {s : Sentence} {a : Proposition} (h : s.Expresses a)
    (hvar : ∀ n x, s ≠ Sentence.wrapped n [x]) : (Proposition.neg a).isLiteral = false := by
  cases a with
  | var x =>
    obtain ⟨n, t, rfl, ht⟩ := h.exists_reads
    exact absurd (by rw [ht.var_eq.1]) (hvar n x)
  | neg a => rfl
  | join o a b => rfl

/-- the negation of a formula cannot be true exactly if the formula is a tautology -/
theorem tautology_iff {c : Calculus} {s root : Sentence} {a : Proposition} (hs : s.Expresses a)
    (hroot : c.Means root (.neg a)) : s.Tautology ↔ ∀ v, ¬ c.Holds v root := by
  simp only [hroot.holds_iff, Proposition.eval, Bool.not_eq_true', Bool.not_eq_false]
  constructor
  · rintro ⟨b, hb, htrue⟩
    exact hs.unique hb ▸ htrue
  · exact fun htrue => ⟨a, hs, htrue⟩

namespace Session

/-- **The solver decides.** Let a text be accepted as a statement that is not just a variable in brackets. Then a
proof is started for it, and the solver ends: with more time it would do the same. If it fails, no name for a
branch is free. Otherwise it says that it has finished the proof; every branch is closed, and all are successes
exactly if the statement is a tautology. -/
theorem solve_decides {s : Session} {c : Calculus} {text : String} {φ : Sentence} (h : s.Accepts c text φ)
    (hvar : ∀ n x, φ ≠ Sentence.wrapped n [x]) :
    ∃ e s₁ p₁ answer p₂, exec (newProof text) s = (.ok none, s₁) ∧ s₁.setting = .ok e ∧ s₁.proof = some p₁ ∧
      exec solve s₁ = (answer, { s₁ with proof := some p₂ }) ∧
      (∀ extra, exec (Proof.solveWithin e extra) p₁ = exec (Proof.solve e) p₁) ∧
      (answer = .error (.outOfRange "no branch name is left") ∧ branchNames e.accessibility p₂.tree.branchNames = [] ∨
        exec (Proof.solve e) p₁ = (.ok true, p₂) ∧ p₂.tree.isClosed = true ∧
          (p₂.tree.isSuccessful = true ↔ φ.Tautology) ∧
          answer = .ok ["Udało się zakończyć dowód",
            "Formuła " ++ (if p₂.tree.isSuccessful then "" else "nie ") ++ "jest tautologią"]) := by
  obtain ⟨a, root, name, ha, hroot, hnew⟩ := exec_newProof h
  have hlit := ha.isLiteral_neg hvar
  have hfresh : Proof.Fresh (Accepts.setting s c) root (startedProof c φ root name) := by
    refine ⟨⟨_, hroot, hlit⟩, name, ?_⟩
    rw [startedProof, Proof.verdict_root hroot hlit]
    rfl
  have hx : (Accepts.setting s c).HasLexer := h.hasLexer
  obtain ⟨o, p₂, hrun, hend⟩ := Proof.solve_ends hx hfresh
  have hsolve : exec (Proof.solve (Accepts.setting s c)) (startedProof c φ root name) = (o, p₂) := by
    rw [← Proof.solveWithin_zero]
    exact hrun 0 trivial
  let s₁ : Session := { s with proof := some (startedProof c φ root name) }
  have hset : s₁.setting = .ok (Accepts.setting s c) := h.setting_eq
  have hact := exec_withProof (s := s₁) hset rfl hsolve
  have hmore (extra : Nat) : exec (Proof.solveWithin (Accepts.setting s c) extra) (startedProof c φ root name) =
      exec (Proof.solve (Accepts.setting s c)) (startedProof c φ root name) := (hrun extra trivial).trans hsolve.symm
  rcases hend with ⟨done, rfl, rfl, htended, hclosed⟩ | ⟨rfl, hout⟩
  · refine ⟨_, s₁, _, _, p₂, hnew, hset, rfl, ?_, hmore, .inr ⟨hsolve, hclosed, ?_, rfl⟩⟩
    · simp only [solve, exec_bind, hact, if_true, exec_get, exec_lift, currentProof]
      rfl
    · exact (isSuccessful_iff_unsatisfiable htended hclosed).trans (tautology_iff ha hroot).symm
  · refine ⟨_, s₁, _, _, p₂, hnew, hset, rfl, ?_, hmore, .inl ⟨rfl, hout⟩⟩
    simp only [solve, exec_bind, hact]
    rfl

/-- a session in which `p v ~p` is proved with signs -/
theorem solve_decides_excluded_middle :
    ∃ s : Session, s.Accepts .signed "p v ~p" excludedMiddle ∧ (∀ n x, excludedMiddle ≠ Sentence.wrapped n [x]) ∧
      ∃ e s₁ p₁ answer p₂, exec (newProof "p v ~p") s = (.ok none, s₁) ∧ s₁.setting = .ok e ∧ s₁.proof = some p₁ ∧
        exec solve s₁ = (answer, { s₁ with proof := some p₂ }) ∧
        (answer = .error (.outOfRange "no branch name is left") ∨
          p₂.tree.isClosed = true ∧ (p₂.tree.isSuccessful = true ↔ excludedMiddle.Tautology)) := by
  obtain ⟨s, haccepts⟩ := exists_accepts
  have hvar : ∀ n x, excludedMiddle ≠ Sentence.wrapped n [x] := by
    intro n x heq
    have hlen := congrArg List.length heq
    simp [excludedMiddle, Sentence.wrapped] at hlen
    omega
  obtain ⟨e, s₁, p₁, answer, p₂, hnew, hset, hp, hsolve, -, hend⟩ := solve_decides haccepts hvar
  exact ⟨s, haccepts, hvar, e, s₁, p₁, answer, p₂, hnew, hset, hp, hsolve, hend.imp (·.1) fun h => ⟨h.2.1, h.2.2.1⟩⟩

end Session

end TableauTutor
