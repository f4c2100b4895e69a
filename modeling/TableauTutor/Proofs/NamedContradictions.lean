import TableauTutor.Proofs.Closure
import TableauTutor.Proofs.Cutting
import TableauTutor.Proofs.Growth

/-!
Contradictions that are found, and how they are named. Without signs a pair is looked at only if exactly one of the two
sentences starts with a negation, so a sentence that starts with one is never found to be contradicted. The closing of a
branch names two numbers; with signs the second one counts from the first.

- `Calculus.explicit_contradictions`: without signs, the pairs that close a branch.
- `Calculus.contradiction_numbers`: the sentences that a closing names.
-/

namespace TableauTutor

/-! ## The first hit of a search -/

section Search

variable {α β : Type}

theorem firstResult_eq_some {f : α → Outcome (Option β)} {xs : List α} {y : β} (h : firstResult f xs = .ok (some y)) :
    ∃ x ∈ xs, f x = .ok (some y) := by
  induction xs with
  | nil => cases h
  | cons x xs ih =>
    rw [firstResult] at h
    obtain ⟨r, hr, h⟩ := of_bind_eq_ok h
    cases r with
    | some z => exact ⟨x, List.mem_cons_self, hr.trans h⟩
    | none =>
      obtain ⟨z, hz, hfz⟩ := ih h
      exact ⟨z, List.mem_cons_of_mem _ hz, hfz⟩

/-- a search for a member that passes a test ends with none, or with the number of the first one that does -/
theorem firstResult_test_cases {test : α → Outcome Bool} {f : Nat → β} {xs : List α} {n : Nat} {r : Option β}
    (h : firstResult (fun (x, j) => do return if ← test x then some (f j) else none) (xs.zipIdx n) = .ok r) :
    (r = none ∧ ∀ x ∈ xs, test x = .ok false) ∨
      ∃ k x, r = some (f (n + k)) ∧ xs[k]? = some x ∧ test x = .ok true ∧ ∀ l < k, ∀ z, xs[l]? = some z →
      test z = .ok false := by
  induction xs generalizing n with
  | nil => exact .inl ⟨(Except.ok.inj h).symm, by simp⟩
  | cons x xs ih =>
    rw [List.zipIdx_cons, firstResult] at h
    obtain ⟨q, hq, h⟩ := of_bind_eq_ok h
    obtain ⟨passed, hpassed, hq⟩ := of_bind_eq_ok hq
    obtain rfl := Except.ok.inj hq
    cases passed with
    | true => exact .inr ⟨0, x, (Except.ok.inj h).symm, rfl, hpassed, by simp⟩
    | false =>
      rcases ih h with ⟨hr, hall⟩ | ⟨k, z, hr, hz, hpass, hbefore⟩
      · exact .inl ⟨hr, List.forall_mem_cons.2 ⟨hpassed, hall⟩⟩
      · refine .inr ⟨k + 1, z, by rw [hr, Nat.add_assoc, Nat.add_comm 1], hz, hpass, fun l hl w hw => ?_⟩
        cases l with
        | zero => rwa [← Option.some.inj hw]
        | succ l => exact hbefore l (by omega) w hw

end Search

/-! ## The numbers of a closing -/

namespace Closing

theorem contradictionOf_inj {i j m n : Nat} : contradictionOf i j = contradictionOf m n ↔ i = m ∧ j = n := by
  constructor
  · intro h
    have htext : Nat.toDigits 10 i ++ ',' :: ' ' :: (Nat.toDigits 10 j ++ [')']) =
        Nat.toDigits 10 m ++ ',' :: ' ' :: (Nat.toDigits 10 n ++ [')']) := by
      simpa [contradictionOf] using congrArg (String.toList ∘ Stamp.text) h
    -- no comma is a digit, so the one between the numbers is in the same place
    have hcomma (k : Nat) : ',' ∉ Nat.toDigits 10 k :=
      fun hmem => absurd (Nat.isDigit_of_mem_toDigits (by decide) (by decide) hmem) (by decide)
    obtain ⟨hi, -, hj⟩ := (List.append_cons_inj_of_notMem (hcomma i) (by simp [hcomma])).1 htext
    rw [List.cons.injEq, List.append_left_inj] at hj
    have hvalue {k l : Nat} (h : Nat.toDigits 10 k = Nat.toDigits 10 l) : k = l := by
      rw [← Nat.ofDigitChars_ten_toDigits (n := k), h, Nat.ofDigitChars_ten_toDigits]
    exact ⟨hvalue hi, hvalue hj.2⟩
  · rintro ⟨rfl, rfl⟩
    rfl

theorem emptiness_ne_contradictionOf (i j : Nat) : emptiness ≠ contradictionOf i j :=
  fun h => Bool.false_ne_true (congrArg Stamp.success h)

end Closing

/-- a contradiction is told exactly if one was found, by its numbers -/
theorem Calculus.closure_eq_contradictionOf_iff {c : Calculus} {ss : List Sentence} {used : History} {i j : Nat} :
    (∃ info, c.closure ss used = .ok (some (.contradictionOf i j, info))) ↔ c.contradiction ss = .ok (some (i, j)) := by
  constructor
  · rintro ⟨info, h⟩
    obtain ⟨_ | ⟨m, n⟩, hfound, h⟩ := of_bind_eq_ok h
    · obtain ⟨passed, -, h⟩ := of_bind_eq_ok h
      cases passed with
      | true =>
        have hpair := Option.some.inj (Except.ok.inj h)
        exact absurd (congrArg Prod.fst hpair) (Closing.emptiness_ne_contradictionOf i j)
      | false => cases h
    · have hpair := Option.some.inj (Except.ok.inj h)
      obtain ⟨rfl, rfl⟩ := Closing.contradictionOf_inj.1 (congrArg Prod.fst hpair)
      exact hfound
  · intro h
    exact ⟨_, by simp only [closure, h, ok_bind]; rfl⟩

/-! ## Negations -/

namespace Sentence

variable {s t n x : Sentence} {a b : Proposition}

/-- the first symbol is a negation -/
def StartsNegated (s : Sentence) : Prop := ∃ (y : Symbol) (t : Sentence), s = y :: t ∧ y.kind = "not"

/-- the main connective of a formula is a negation, and this is its operand, brackets reduced -/
def Negates (n x : Sentence) : Prop :=
  ∃ (y : Symbol) (k m : Nat) (a : Proposition), n = wrapped k (y :: x.wrapped m) ∧ y.kind = "not" ∧ x.Reads a ∧
  n.Expresses (.neg a)

theorem eq_zero_of_startsNegated {k : Nat} (h : (s.wrapped k).StartsNegated) : k = 0 := by
  obtain ⟨y, u, heq, hy⟩ := h
  cases k with
  | zero => rfl
  | succ k =>
    have hfirst : "(" = y := by simpa [wrapped, List.replicate_succ] using congrArg List.head? heq
    rw [← hfirst] at hy
    exact absurd hy (by decide)

theorem Expresses.reads_of_startsNegated (h : s.Expresses a) (hs : s.StartsNegated) : s.Reads a := by
  obtain ⟨k, t, rfl, ht⟩ := h.exists_reads
  obtain rfl := eq_zero_of_startsNegated hs
  rwa [wrapped_zero]

theorem Reads.eq_of_wrapped {k m : Nat} (hs : s.Reads a) (ht : t.Reads b) (h : s.wrapped k = t.wrapped m) : s = t := by
  have htok := congrArg tokens h
  rw [tokens_wrapped, tokens_wrapped] at htok
  exact tokens_injective (wrap_eq_wrap hs.1.balanced hs.2 ht.1.balanced ht.2 htok)

theorem negates_cons_iff {y : Symbol} {m : Nat} (hn : Expresses (y :: t.wrapped m) (.neg a)) (hy : y.kind = "not")
    (ht : t.Reads a) : Negates (y :: t.wrapped m) x ↔ t = x := by
  constructor
  · rintro ⟨z, k, l, b, heq, -, hx, -⟩
    obtain rfl : k = 0 := eq_zero_of_startsNegated ⟨y, t.wrapped m, heq.symm, hy⟩
    rw [wrapped_zero] at heq
    exact ht.eq_of_wrapped hx (List.cons.inj heq).2
  · rintro rfl
    exact ⟨y, 0, m, a, (wrapped_zero _).symm, hy, ht, hn⟩

/-- what is left of a formula without its negation -/
theorem Reads.withoutPrefix_iff (h : s.Reads a) :
    ∃ r, s.withoutPrefix "not" = .ok r ∧ ∀ x, r = some x ↔ s.Negates x := by
  cases a with
  | neg a =>
    have hlen := h.one_lt_length (by simp)
    obtain ⟨y, m, t, hs, hy, hk, ht, -, hparts⟩ := h.neg_eq
    refine ⟨some t, ?_, fun x => ?_⟩
    · simp [Sentence.withoutPrefix, Sentence.argument, hlen, hparts, hy.startsWith_not.1, hk, ht.reduce,
        ht.evenBrackets, pure_ok]
    · rw [hs] at h ⊢
      rw [Option.some.injEq, negates_cons_iff h.1 hk ht]
  | var _ | join _ _ _ =>
    obtain ⟨r, hr, hrel⟩ := h.withoutPrefix
    cases hrel
    refine ⟨none, hr, fun x => iff_of_false (by simp) ?_⟩
    rintro ⟨-, -, -, b, -, -, -, hb⟩
    cases h.1.unique hb

end Sentence

namespace Calculus

open Sentence

variable {c : Calculus} {s t n x : Sentence} {a b : Proposition} {ss : List Sentence}

/-! ## Without signs -/

/-- the first sentence starts with the negation of the second one, which does not start with a negation -/
def Refutes (n x : Sentence) : Prop := n.StartsNegated ∧ ¬ x.StartsNegated ∧ n.Negates x

theorem startsNegated_iff (h : s.Expresses a) : ∃ r, startsNegated s = .ok r ∧ (r = true ↔ s.StartsNegated) := by
  cases s with
  | nil => exact absurd h.hasSymbol (by simp [HasSymbol])
  | cons y s =>
    refine ⟨Text.startsWith "not" y, rfl, ?_⟩
    have hfirst : StartsNegated (y :: s) ↔ y.kind = "not" := by simp [StartsNegated]
    rw [hfirst]
    rcases h.1 y List.mem_cons_self with rfl | rfl | hy
    · decide
    · decide
    · simp [hy.startsWith_not.1]

/-- **What is found to contradict**: one sentence starts with a negation of the other
one, and the other one with none. -/
theorem contradict_iff (hs : s.Expresses a) (ht : t.Expresses b) :
    ∃ r, contradict s t = .ok r ∧ (r = true ↔ Refutes s t ∨ Refutes t s) := by
  obtain ⟨m, hm, hms⟩ := startsNegated_iff hs
  obtain ⟨n, hn, hnt⟩ := startsNegated_iff ht
  simp only [contradict, hm, hn, ok_bind]
  -- only where one of the two starts with a negation and the other does not, what follows the negation is looked at
  cases m with
  | false =>
    cases n with
    | false =>
      refine ⟨false, rfl, ?_⟩
      simp_all [Refutes]
    | true =>
      obtain ⟨r, hr, hiff⟩ := (ht.reads_of_startsNegated (hnt.1 rfl)).withoutPrefix_iff
      refine ⟨r == some s, by rw [hr]; rfl, ?_⟩
      simp_all [Refutes]
  | true =>
    cases n with
    | false =>
      obtain ⟨r, hr, hiff⟩ := (hs.reads_of_startsNegated (hms.1 rfl)).withoutPrefix_iff
      refine ⟨r == some t, by rw [hr]; rfl, ?_⟩
      simp_all [Refutes]
    | true =>
      refine ⟨false, rfl, ?_⟩
      simp_all [Refutes]

/-- **Explicit contradictions** close a branch of formulas exactly if the negated formula does not start with a negation
itself, and its negation stands without brackets around it. -/
theorem explicit_contradictions (branch : List Sentence) (hbranch : ∀ s ∈ branch, ∃ a, s.Expresses a) (used : History) :
    (∃ i j info, unsigned.closure branch used = .ok (some (.contradictionOf i j, info))) ↔
      ∃ n ∈ branch, ∃ x ∈ branch, n.Negates x ∧ n.StartsNegated ∧ ¬ x.StartsNegated := by
  have htest : ∀ s ∈ branch, ∀ t ∈ branch, ∃ r, contradict s t = .ok r ∧ (r = true ↔ Refutes s t ∨ Refutes t s) := by
    intro s hs t ht
    obtain ⟨a, ha⟩ := hbranch s hs
    obtain ⟨b, hb⟩ := hbranch t ht
    exact contradict_iff ha hb
  obtain ⟨r, hr, hfound⟩ := contradictionPlain_of_total fun s hs t ht => (htest s hs t ht).imp fun _ h => h.1
  have hclosed : (∃ i j info, unsigned.closure branch used = .ok (some (.contradictionOf i j, info))) ↔ r.isSome := by
    constructor
    · rintro ⟨i, j, htold⟩
      rw [Except.ok.inj (hr.symm.trans (closure_eq_contradictionOf_iff.1 htold))]
      rfl
    · intro hsome
      obtain ⟨⟨i, j⟩, rfl⟩ := Option.isSome_iff_exists.1 hsome
      exact ⟨i, j, closure_eq_contradictionOf_iff.2 hr⟩
  rw [hclosed, hfound]
  constructor
  · rintro ⟨s, hs, t, ht, hst⟩
    obtain ⟨q, hq, hiff⟩ := htest s hs t ht
    obtain rfl := Except.ok.inj (hq.symm.trans hst)
    rcases hiff.1 rfl with ⟨hstarts, hnot, hneg⟩ | ⟨hstarts, hnot, hneg⟩
    · exact ⟨s, hs, t, ht, hneg, hstarts, hnot⟩
    · exact ⟨t, ht, s, hs, hneg, hstarts, hnot⟩
  · rintro ⟨n, hn, x, hx, hneg, hstarts, hnot⟩
    obtain ⟨q, hq, hiff⟩ := htest n hn x hx
    exact ⟨n, hn, x, hx, hq.trans (congrArg _ (hiff.2 (.inl ⟨hstarts, hnot, hneg⟩)))⟩

/-- `~p and q` and `~(~p and q)` do not close a branch, since both start with a negation;
`p and ~q` and `~(p and ~q)` do -/
theorem explicit_contradictions_starting_negated :
    let x : Sentence := ["not_~", "sentvar_p", "and_and", "sentvar_q"]
    let z : Sentence := ["sentvar_p", "and_and", "not_~", "sentvar_q"]
    (∀ s ∈ [x, x.negate, z, z.negate], ∃ a, s.Expresses a) ∧ x.negate.Negates x ∧ z.negate.Negates z ∧
      (∀ used, ¬ ∃ i j info, unsigned.closure [x, x.negate] used = .ok (some (.contradictionOf i j, info))) ∧
      ∀ used, ∃ i j info, unsigned.closure [z, z.negate] used = .ok (some (.contradictionOf i j, info)) := by
  intro x z
  obtain ⟨a, ha⟩ : ∃ a, x.Expresses a := exists_expresses (inLanguage_of_symbols (by decide)) (by decide)
  obtain ⟨b, hb⟩ : ∃ b, z.Expresses b := exists_expresses (inLanguage_of_symbols (by decide)) (by decide)
  have hx : x.Reads a := ha.reads_of_startsNegated ⟨_, _, rfl, by decide⟩
  have hz : z.Reads b := hb.reads_of_head? (by decide)
  have hpair {s : Sentence} {d : Proposition} (hs : s.Expresses d) : ∀ t ∈ [s, s.negate], ∃ d, t.Expresses d := by
    simpa using ⟨⟨d, hs⟩, .neg d, hs.negate.1⟩
  have hnegx : x.negate.Negates x := ⟨"not_~", 0, 1, a, by decide, by decide, hx, ha.negate.1⟩
  have hnegz : z.negate.Negates z := ⟨"not_~", 0, 1, b, by decide, by decide, hz, hb.negate.1⟩
  refine ⟨?_, hnegx, hnegz, fun used hclosed => ?_, fun used => ?_⟩
  · exact List.forall_mem_append.2 ⟨hpair ha, hpair hb⟩
  · obtain ⟨-, -, w, hw, -, -, hnot⟩ := (explicit_contradictions _ (hpair ha) used).1 hclosed
    simp only [List.mem_cons, List.not_mem_nil, or_false] at hw
    rcases hw with rfl | rfl
    · exact hnot ⟨_, _, rfl, by decide⟩
    · exact hnot ⟨_, _, rfl, by decide⟩
  · refine (explicit_contradictions _ (hpair hb) used).2 ⟨z.negate, by simp, z, by simp, hnegz,
      ⟨_, _, rfl, by decide⟩, ?_⟩
    rintro ⟨y, t, heq, hy⟩
    rw [← (List.cons.inj heq).1] at hy
    exact absurd hy (by decide)

/-! ## Numbers -/

/-- a formula; in the calculus with signs, behind a sign -/
def Formed : Calculus → Sentence → Prop
  | unsigned, s => ∃ a, s.Expresses a
  | signed, s => ∃ (y : Symbol) (t : Sentence), s = y :: t ∧ (y = trueSign ∨ y = falseSign) ∧ ∃ a, t.Expresses a

/-- one says the negation of what the other says; in the calculus with signs, the same
formula stands behind opposite signs -/
def Contradicts : Calculus → Sentence → Sentence → Prop
  | unsigned, s, t => ∃ a, s.Expresses a ∧ t.Expresses (.neg a) ∨ s.Expresses (.neg a) ∧ t.Expresses a
  | signed, s, t => Opposed s t

/-- the sentences with two numbers, counted from one, contradict each other -/
def ContradictAt (c : Calculus) (ss : List Sentence) (i j : Nat) : Prop :=
  0 < i ∧ 0 < j ∧ ∃ s t, ss[i - 1]? = some s ∧ ss[j - 1]? = some t ∧ c.Contradicts s t

theorem Refutes.expresses (h : Refutes n x) : ∃ a, x.Expresses a ∧ n.Expresses (.neg a) := by
  obtain ⟨-, -, -, -, -, a, -, -, hx, hn⟩ := h
  exact ⟨a, hx.1, hn⟩

/-- without signs the closing names the two sentences -/
theorem contradictAt_plain (hss : ∀ s ∈ ss, unsigned.Formed s) {i j : Nat}
    (h : contradictionPlain ss = .ok (some (i, j))) : unsigned.ContradictAt ss i j := by
  obtain ⟨⟨s, k⟩, hp, hrow⟩ := firstResult_eq_some h
  rw [List.mk_mem_zipIdx_iff_getElem?] at hp
  rcases firstResult_test_cases (f := fun j => (k + 1, j + 1)) hrow with ⟨hnone, -⟩ | ⟨l, t, heq, hl, hst, -⟩
  · cases hnone
  obtain ⟨rfl, rfl⟩ := Prod.mk.inj (Option.some.inj heq)
  refine ⟨by omega, by omega, s, t, by simpa using hp, by simpa using hl, ?_⟩
  obtain ⟨a, ha⟩ := hss s (List.mem_of_getElem? hp)
  obtain ⟨b, hb⟩ := hss t (List.mem_of_getElem? hl)
  obtain ⟨r, hr, hiff⟩ := contradict_iff ha hb
  obtain rfl := Except.ok.inj (hr.symm.trans hst)
  rcases hiff.1 rfl with hrefutes | hrefutes
  · obtain ⟨d, ht, hs⟩ := hrefutes.expresses
    exact ⟨d, .inr ⟨hs, ht⟩⟩
  · obtain ⟨d, hs, ht⟩ := hrefutes.expresses
    exact ⟨d, .inl ⟨hs, ht⟩⟩

/-- the sentences at two positions have opposite signs -/
def OpposedAt (ss : List Sentence) (k l : Nat) : Prop := ∃ s t, ss[k]? = some s ∧ ss[l]? = some t ∧ Opposed s t

theorem opposedAt_cons_succ {k l : Nat} : OpposedAt (s :: ss) (k + 1) (l + 1) ↔ OpposedAt ss k l := by simp [OpposedAt]

theorem opposedAt_cons_zero {l : Nat} : OpposedAt (s :: ss) 0 (l + 1) ↔ ∃ t, ss[l]? = some t ∧ Opposed s t := by
  simp [OpposedAt]

theorem oppositeSigns_formed (hs : signed.Formed s) (ht : signed.Formed t) {r : Bool} (h : oppositeSigns s t = .ok r) :
    r = true ↔ Opposed s t := by
  obtain ⟨y, u, rfl, hy, -⟩ := hs
  obtain ⟨z, w, rfl, hz, -⟩ := ht
  obtain ⟨q, hq, hiff⟩ := oppositeSigns_cons hy hz u w
  rwa [Except.ok.inj (h.symm.trans hq)]

/-- **The first contradiction with signs**: the first sentence that stands against a later one, and how far behind it
the nearest such sentence is. -/
theorem contradictionSigned_first (hss : ∀ s ∈ ss, signed.Formed s) {m i j : Nat}
    (h : contradictionSigned m ss = .ok (some (i, j))) :
    ∃ k d, i = m + k + 1 ∧ j = d + 1 ∧ OpposedAt ss k (k + d + 1) ∧ (∀ l < d, ¬ OpposedAt ss k (k + l + 1)) ∧
      ∀ k' < k, ∀ l > k', ¬ OpposedAt ss k' l := by
  induction ss generalizing m with
  | nil => cases h
  | cons s ss ih =>
    obtain ⟨hs, hrest⟩ := List.forall_mem_cons.1 hss
    rw [contradictionSigned] at h
    obtain ⟨r, hr, h⟩ := of_bind_eq_ok h
    have htest {l : Nat} {t : Sentence} (hl : ss[l]? = some t) {q : Bool} (hq : oppositeSigns s t = .ok q) :=
      oppositeSigns_formed hs (hrest t (List.mem_of_getElem? hl)) hq
    rcases firstResult_test_cases (f := fun j => (m + 1, j + 1)) hr with ⟨rfl, hall⟩ | ⟨d, t, rfl, hd, hst, hbefore⟩
    · -- nothing stands against the first sentence, so the search goes on behind it
      have hnone (l : Nat) : ¬ OpposedAt (s :: ss) 0 (l + 1) := by
        rw [opposedAt_cons_zero]
        rintro ⟨t, hl, hopp⟩
        have := (htest hl (hall t (List.mem_of_getElem? hl))).2 hopp
        cases this
      obtain ⟨k, d, hi, hj, hat, hnear, hfirst⟩ := ih hrest h
      have hshift (l : Nat) : OpposedAt (s :: ss) (k + 1) (k + 1 + l + 1) ↔ OpposedAt ss k (k + l + 1) := by
        rw [show k + 1 + l + 1 = k + l + 1 + 1 by omega, opposedAt_cons_succ]
      refine ⟨k + 1, d, by omega, hj, (hshift d).2 hat, fun l hl => mt (hshift l).1 (hnear l hl), fun k' hk' l hl => ?_⟩
      obtain ⟨l, rfl⟩ := Nat.exists_eq_add_of_lt hl
      cases k' with
      | zero => simpa using hnone l
      | succ k' =>
        rw [show k' + 1 + l + 1 = k' + l + 1 + 1 by omega, opposedAt_cons_succ]
        exact hfirst k' (by omega) _ (by omega)
    · obtain ⟨rfl, rfl⟩ := Prod.mk.inj (Option.some.inj (Except.ok.inj h))
      refine ⟨0, d, rfl, by omega, ?_, fun l hl => ?_, by simp⟩
      · rw [Nat.zero_add, opposedAt_cons_zero]
        exact ⟨t, hd, (htest hd hst).1 rfl⟩
      · rw [Nat.zero_add, opposedAt_cons_zero]
        rintro ⟨w, hw, hopp⟩
        have := (htest hw (hbefore l hl w hw)).2 hopp
        cases this

/-- **The sentences that a closing names.** Without signs they are the two that contradict each other. With signs the
first one and the one that comes so many places behind it contradict each other; the two that are named never do. -/
theorem contradiction_numbers (c : Calculus) (branch : List Sentence) (hbranch : ∀ s ∈ branch, c.Formed s)
    (used : History) (i j : Nat) (info : String) (h : c.closure branch used = .ok (some (.contradictionOf i j, info))) :
    (c = unsigned ∧ c.ContradictAt branch i j) ∨
    (c = signed ∧ c.ContradictAt branch i (i + j) ∧ ¬ c.ContradictAt branch i j) := by
  have hfound := closure_eq_contradictionOf_iff.1 ⟨info, h⟩
  cases c with
  | unsigned => exact .inl ⟨rfl, contradictAt_plain hbranch hfound⟩
  | signed =>
    obtain ⟨k, d, rfl, rfl, ⟨s, t, hs, ht, hst⟩, hnear, hfirst⟩ := contradictionSigned_first hbranch hfound
    rw [Nat.zero_add]
    refine .inr ⟨rfl, ⟨by omega, by omega, s, t, by simpa using hs, ?_, hst⟩, ?_⟩
    · rw [show k + 1 + (d + 1) - 1 = k + d + 1 by omega]
      exact ht
    · rintro ⟨-, -, u, v, hu, hv, huv⟩
      rw [Nat.add_sub_cancel] at hu hv
      -- the second number, read as a position, lies before the first sentence, on it, or nearer than the partner
      rcases Nat.lt_trichotomy d k with hlt | rfl | hlt
      · exact hfirst d hlt k hlt ⟨v, u, hv, hu, Opposed.symm huv⟩
      · obtain rfl := Option.some.inj (hu.symm.trans hv)
        exact not_opposed_self u huv
      · obtain ⟨l, rfl⟩ := Nat.exists_eq_add_of_lt hlt
        exact hnear l (by omega) ⟨u, v, hu, hv, huv⟩

/-- `T p` and `F p` are named (1, 1), and `p` and `~p` are named (1, 2) -/
theorem contradiction_numbers_literals :
    let told : String := "Sentences contradict. The branch was closed."
    let signs : List Sentence := [[trueSign, "sentvar_p"], [falseSign, "sentvar_p"]]
    let plain : List Sentence := [["sentvar_p"], ["not_~", "sentvar_p"]]
    signed.closure signs {} = .ok (some (.contradictionOf 1 1, told)) ∧ signed.ContradictAt signs 1 2 ∧
      ¬ signed.ContradictAt signs 1 1 ∧
      unsigned.closure plain {} = .ok (some (.contradictionOf 1 2, told)) ∧ unsigned.ContradictAt plain 1 2 := by
  intro told signs plain
  obtain ⟨a, ha⟩ : ∃ a, Sentence.Expresses ["sentvar_p"] a := exists_expresses (inLanguage_of_symbols (by decide))
    (by decide)
  have hsigns : ∀ s ∈ signs, signed.Formed s :=
    List.forall_mem_cons.2 ⟨⟨_, _, rfl, .inl rfl, a, ha⟩, List.forall_mem_singleton.2 ⟨_, _, rfl, .inr rfl, a, ha⟩⟩
  have hplain : ∀ s ∈ plain, unsigned.Formed s :=
    List.forall_mem_cons.2 ⟨⟨a, ha⟩, List.forall_mem_singleton.2 ⟨.neg a, ha.negate.1⟩⟩
  have hfirst : signed.closure signs {} = .ok (some (.contradictionOf 1 1, told)) := rfl
  have hsecond : unsigned.closure plain {} = .ok (some (.contradictionOf 1 2, told)) :=
    eq_ok_of_toOption (by decide +kernel)
  obtain ⟨hc, -⟩ | ⟨-, hat, hnot⟩ := contradiction_numbers signed signs hsigns {} 1 1 told hfirst
  · cases hc
  obtain ⟨-, hnamed⟩ | ⟨hc, -⟩ := contradiction_numbers unsigned plain hplain {} 1 2 told hsecond
  · exact ⟨hfirst, hat, hnot, hsecond, hnamed⟩
  · cases hc

end Calculus

end TableauTutor
