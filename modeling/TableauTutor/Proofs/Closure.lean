import TableauTutor.Proofs.StrictRules

/-!
When a branch is closed. Two nodes contradict each other if one says the negation of what the other says. Not every pair
of that kind is noticed, since formulas are compared symbol by symbol; of literals every pair is.

- `closure_cases`: the outcomes of the closure check, exactly.
- `closure_means`: what each outcome says about the nodes of a branch.
-/

namespace TableauTutor

/-! ## Looking through a list -/

section Search

variable {α β : Type}

theorem firstResult_spec {f : α → Outcome (Option β)} {xs : List α} (h : ∀ x ∈ xs, ∃ r, f x = .ok r) :
    ∃ r, firstResult f xs = .ok r ∧ (∀ y, r = some y → ∃ x ∈ xs, f x = .ok (some y)) ∧
      (r = none → ∀ x ∈ xs, f x = .ok none) := by
  induction xs with
  | nil => exact ⟨none, rfl, by simp, by simp⟩
  | cons x xs ih =>
    obtain ⟨r, hr⟩ := h x List.mem_cons_self
    cases r with
    | some y => exact ⟨some y, by simp [firstResult, hr, pure_ok],
        fun z hz => ⟨x, List.mem_cons_self, by rw [hr, hz]⟩, by simp⟩
    | none =>
      obtain ⟨r, hrest, hsome, hnone⟩ := ih fun z hz => h z (List.mem_cons_of_mem _ hz)
      refine ⟨r, by simp [firstResult, hr, hrest], fun y hy => ?_, fun hr' => ?_⟩
      · obtain ⟨z, hz, hfz⟩ := hsome y hy
        exact ⟨z, List.mem_cons_of_mem _ hz, hfz⟩
      · exact List.forall_mem_cons.2 ⟨hr, hnone hr'⟩

theorem firstResult_test {test : α → Outcome Bool} {xs : List α} (f : Nat → β) (h : ∀ x ∈ xs, ∃ r, test x = .ok r) :
    ∃ r, firstResult (fun (x, j) => do return if ← test x then some (f j) else none) xs.zipIdx = .ok r ∧
      (r.isSome → ∃ x ∈ xs, test x = .ok true) ∧ (r = none → ∀ x ∈ xs, test x = .ok false) := by
  have hmem : ∀ p ∈ xs.zipIdx, p.1 ∈ xs := fun p hp => (List.mem_zipIdx' hp).2 ▸ List.getElem_mem _
  have hall : ∀ p ∈ xs.zipIdx, ∃ r, (do return if ← test p.1 then some (f p.2) else none : Outcome (Option β)) =
      .ok r := by
    intro p hp
    obtain ⟨r, hr⟩ := h p.1 (hmem p hp)
    exact ⟨if r then some (f p.2) else none, by simp only [hr, ok_bind]; rfl⟩
  obtain ⟨r, hr, hsome, hnone⟩ := firstResult_spec hall
  refine ⟨r, hr, fun hr' => ?_, fun hr' x hx => ?_⟩
  · obtain ⟨y, rfl⟩ := Option.isSome_iff_exists.1 hr'
    obtain ⟨p, hp, hpy⟩ := hsome y rfl
    refine ⟨p.1, hmem p hp, ?_⟩
    obtain ⟨q, hq⟩ := h p.1 (hmem p hp)
    cases q with
    | true => exact hq
    | false => simp [hq, pure_ok] at hpy
  · obtain ⟨j, hj⟩ := List.getElem_of_mem hx
    have hp : (x, j) ∈ xs.zipIdx := by
      rw [List.mk_mem_zipIdx_iff_getElem?, List.getElem?_eq_some_iff]
      exact hj
    have hxj := hnone hr' (x, j) hp
    obtain ⟨q, hq⟩ := h x hx
    cases q with
    | false => exact hq
    | true => simp [hq, pure_ok] at hxj

theorem allPass_spec {f : α → Outcome Bool} {xs : List α} (h : ∀ x ∈ xs, ∃ r, f x = .ok r) :
    ∃ r, allPass f xs = .ok r ∧ (r = true → ∀ x ∈ xs, f x = .ok true) ∧ (r = false → ∃ x ∈ xs, f x = .ok false) := by
  induction xs with
  | nil => exact ⟨true, rfl, by simp, by simp⟩
  | cons x xs ih =>
    obtain ⟨r, hr⟩ := h x List.mem_cons_self
    cases r with
    | false => exact ⟨false, by simp [allPass, hr, pure_ok], by simp,
        fun _ => ⟨x, List.mem_cons_self, hr⟩⟩
    | true =>
      obtain ⟨r, hrest, htrue, hfalse⟩ := ih fun z hz => h z (List.mem_cons_of_mem _ hz)
      refine ⟨r, by simp [allPass, hr, hrest], fun hr' => ?_, fun hr' => ?_⟩
      · exact List.forall_mem_cons.2 ⟨hr, htrue hr'⟩
      · obtain ⟨z, hz, hfz⟩ := hfalse hr'
        exact ⟨z, List.mem_cons_of_mem _ hz, hfz⟩

end Search

namespace Calculus

variable {c : Calculus} {s t : Sentence} {a b : Proposition} {ss : List Sentence}

/-- one of the sentences says the negation of what another one says -/
def Contradictory (c : Calculus) (ss : List Sentence) : Prop :=
  ∃ s ∈ ss, ∃ t ∈ ss, ∃ a, c.Means s a ∧ c.Means t (.neg a)

/-- no variable is said to be true and false -/
def Consistent (c : Calculus) (ss : List Sentence) : Prop :=
  ∀ s ∈ ss, ∀ t ∈ ss, ∀ x, c.Means s (.var x) → ¬ c.Means t (.neg (.var x))

theorem Contradictory.not_holds (h : c.Contradictory ss) (v : Symbol → Bool) : ¬ ∀ s ∈ ss, c.Holds v s := by
  obtain ⟨s, hs, t, ht, a, ha, hneg⟩ := h
  intro hall
  have h1 := (ha.holds_iff v).1 (hall s hs)
  have h2 := (hneg.holds_iff v).1 (hall t ht)
  simp [Proposition.eval, h1] at h2

/-! ## Without signs -/

theorem startsNegated_neg (h : s.Reads (.neg a)) : startsNegated s = .ok true := by
  obtain ⟨y, n, t, rfl, hy, hk, -⟩ := h.neg_eq
  simp [startsNegated, hy.startsWith_not.1, hk, pure_ok]

theorem startsNegated_var {x : Symbol} (h : s.Reads (.var x)) : startsNegated s = .ok false := by
  obtain ⟨rfl, hx, hk⟩ := h.var_eq
  simp [startsNegated, hx.startsWith_not.1, hk, pure_ok]

theorem exists_startsNegated (h : s.Reads a) : ∃ r, startsNegated s = .ok r := by
  cases s with
  | nil => simpa using h.length_pos
  | cons y s => exact ⟨_, rfl⟩

theorem withoutPrefix_beq (hs : s.Reads a) (ht : t.Reads b) :
    ∃ r, s.withoutPrefix "not" = .ok r ∧ ((r == some t) = true → a = .neg b) := by
  obtain ⟨r, hr, hrel⟩ := hs.withoutPrefix
  refine ⟨r, hr, fun h => ?_⟩
  obtain rfl : r = some t := by simpa using h
  cases a with
  | neg a =>
    cases hrel with
    | some hta => rw [hta.unique ht]
  | var x => cases hrel
  | join o l r => cases hrel

theorem contradict_reads (hs : s.Reads a) (ht : t.Reads b) :
    ∃ r, contradict s t = .ok r ∧ (r = true → a = .neg b ∨ b = .neg a) := by
  obtain ⟨m, hm⟩ := exists_startsNegated hs
  obtain ⟨n, hn⟩ := exists_startsNegated ht
  obtain ⟨r, hr, hrt⟩ := withoutPrefix_beq hs ht
  obtain ⟨q, hq, hqs⟩ := withoutPrefix_beq ht hs
  simp only [contradict, hm, hn, ok_bind]
  cases m <;> cases n
  · exact ⟨false, rfl, by simp⟩
  · exact ⟨_, by simp only [hq]; rfl, fun h => .inr (hqs h)⟩
  · exact ⟨_, by simp only [hr]; rfl, fun h => .inl (hrt h)⟩
  · exact ⟨false, rfl, by simp⟩

theorem contradict_literals {x : Symbol} (hs : s.Reads (.var x)) (ht : t.Reads (.neg (.var x))) :
    contradict t s = .ok true := by
  obtain ⟨r, hr, hrel⟩ := ht.withoutPrefix
  simp only [Proposition.negated?] at hrel
  cases hrel with
  | @some u _ hu =>
    obtain rfl : u = s := by rw [hu.var_eq.1, hs.var_eq.1]
    simp [contradict, startsNegated_neg ht, startsNegated_var hs, hr, pure_ok]

/-- a search through all pairs that can be compared finds one that is found to contradict each other, if there is one -/
theorem contradictionPlain_of_total (htest : ∀ s ∈ ss, ∀ t ∈ ss, ∃ r, contradict s t = .ok r) :
    ∃ r, contradictionPlain ss = .ok r ∧ (r.isSome ↔ ∃ s ∈ ss, ∃ t ∈ ss, contradict s t = .ok true) := by
  have hmem : ∀ p ∈ ss.zipIdx, p.1 ∈ ss := fun p hp => (List.mem_zipIdx' hp).2 ▸ List.getElem_mem _
  have hrow := fun p (hp : p ∈ ss.zipIdx) =>
    firstResult_test (fun j => (p.2 + 1, j + 1)) (htest p.1 (hmem p hp))
  obtain ⟨r, hr, hsome, hnone⟩ := firstResult_spec (fun p hp => (hrow p hp).imp fun _ h => h.1)
  refine ⟨r, hr, fun hr' => ?_, fun ⟨s, hs, t, ht, hst⟩ => ?_⟩
  · obtain ⟨y, rfl⟩ := Option.isSome_iff_exists.1 hr'
    obtain ⟨p, hp, hpy⟩ := hsome y rfl
    obtain ⟨q, hq, hfound, -⟩ := hrow p hp
    obtain rfl : q = some y := Except.ok.inj (hq.symm.trans hpy)
    obtain ⟨t, ht, hpt⟩ := hfound rfl
    exact ⟨p.1, hmem p hp, t, ht, hpt⟩
  · by_contra hr'
    obtain ⟨i, hi⟩ := List.getElem_of_mem hs
    have hp : (s, i) ∈ ss.zipIdx := by
      rw [List.mk_mem_zipIdx_iff_getElem?, List.getElem?_eq_some_iff]
      exact hi
    obtain ⟨q, hq, -, hall⟩ := hrow (s, i) hp
    obtain rfl : q = none := Except.ok.inj (hq.symm.trans (hnone (by simpa using hr') _ hp))
    have := (hall rfl t ht).symm.trans hst
    simp at this

/-- **Contradictions without signs**: the search goes through all pairs. -/
theorem contradictionPlain_spec (h : ∀ s ∈ ss, ∃ a, unsigned.Means s a) :
    ∃ r, contradictionPlain ss = .ok r ∧ (r.isSome ↔ ∃ s ∈ ss, ∃ t ∈ ss, contradict s t = .ok true) := by
  refine contradictionPlain_of_total fun s hs t ht => ?_
  obtain ⟨a, ha⟩ := h s hs
  obtain ⟨b, hb⟩ := h t ht
  obtain ⟨r, hr, -⟩ := contradict_reads ha hb
  exact ⟨r, hr⟩

/-! ## With signs -/

theorem exists_sign (h : signed.Means s a) :
    ∃ (y : Symbol) (t : Sentence), s = y :: t ∧ (y = trueSign ∨ y = falseSign) := by
  obtain ⟨t, ⟨rfl, -⟩ | ⟨b, rfl, -⟩⟩ := h
  · exact ⟨_, t, rfl, .inl rfl⟩
  · exact ⟨_, t, rfl, .inr rfl⟩

/-- the same formula is once held to be true and once to be false -/
def Opposed (s t : Sentence) : Prop :=
  ∃ u : Sentence, s = trueSign :: u ∧ t = falseSign :: u ∨ s = falseSign :: u ∧ t = trueSign :: u

theorem Opposed.symm (h : Opposed s t) : Opposed t s := by
  obtain ⟨u, ⟨hs, ht⟩ | ⟨hs, ht⟩⟩ := h
  · exact ⟨u, .inr ⟨ht, hs⟩⟩
  · exact ⟨u, .inl ⟨ht, hs⟩⟩

theorem not_opposed_self (s : Sentence) : ¬ Opposed s s := by
  rintro ⟨u, ⟨rfl, h⟩ | ⟨rfl, h⟩⟩
  · exact trueSign_ne_falseSign (List.cons.inj h).1
  · exact trueSign_ne_falseSign (List.cons.inj h).1.symm

theorem oppositeSigns_cons {y z : Symbol} (hy : y = trueSign ∨ y = falseSign) (hz : z = trueSign ∨ z = falseSign)
    (u w : Sentence) : ∃ r, oppositeSigns (y :: u) (z :: w) = .ok r ∧ (r = true ↔ Opposed (y :: u) (z :: w)) := by
  have hne := trueSign_ne_falseSign
  by_cases huw : u = w
  · subst huw
    refine ⟨decide (y ≠ z), by simp [oppositeSigns, pure_ok], ?_⟩
    rcases hy with rfl | rfl <;> rcases hz with rfl | rfl <;> simp [Opposed, hne, hne.symm]
  · refine ⟨false, by simp [oppositeSigns, huw, pure_ok], ?_⟩
    simp only [Bool.false_eq_true, false_iff]
    rintro ⟨v, ⟨h1, h2⟩ | ⟨h1, h2⟩⟩ <;> exact huw ((List.cons.inj h1).2.trans (List.cons.inj h2).2.symm)

theorem oppositeSigns_means (hs : signed.Means s a) (ht : signed.Means t b) :
    ∃ r, oppositeSigns s t = .ok r ∧ (r = true ↔ Opposed s t) := by
  obtain ⟨y, u, rfl, hy⟩ := exists_sign hs
  obtain ⟨z, w, rfl, hz⟩ := exists_sign ht
  exact oppositeSigns_cons hy hz u w

theorem Opposed.contradictory (h : Opposed s t) (hs : signed.Means s a) (ht : signed.Means t b) (hss : s ∈ ss)
    (hts : t ∈ ss) : signed.Contradictory ss := by
  have hsigns {u : Sentence} {a : Proposition} (h : signed.Means (trueSign :: u) a) :
      signed.Means (falseSign :: u) (.neg a) := by
    obtain ⟨t, ⟨ht, hta, -⟩ | ⟨d, ht, -⟩⟩ := h
    · obtain rfl := (List.cons.inj ht).2
      exact ⟨u, .inr ⟨a, rfl, hta, rfl⟩⟩
    · exact absurd (List.cons.inj ht).1 trueSign_ne_falseSign
  obtain ⟨u, ⟨rfl, rfl⟩ | ⟨rfl, rfl⟩⟩ := h
  · exact ⟨_, hss, _, hts, a, hs, hsigns hs⟩
  · exact ⟨_, hts, _, hss, b, ht, hsigns ht⟩

theorem means_signed_var {x : Symbol} (h : signed.Means s (.var x)) : s = [trueSign, x] := by
  obtain ⟨t, ⟨rfl, ht, -⟩ | ⟨b, -, -, hb⟩⟩ := h
  · rw [ht.var_eq.1]
  · simp at hb

theorem means_signed_neg_var {x : Symbol} (h : signed.Means s (.neg (.var x))) : s = [falseSign, x] := by
  obtain ⟨t, ⟨-, -, hneg⟩ | ⟨b, rfl, ht, hb⟩⟩ := h
  · exact absurd rfl (hneg _)
  · obtain rfl := Proposition.neg.inj hb
    rw [ht.var_eq.1]

/-- **Contradictions with signs**: the search goes through all pairs. -/
theorem contradictionSigned_spec (i : Nat) (h : ∀ s ∈ ss, ∃ a, signed.Means s a) :
    ∃ r, contradictionSigned i ss = .ok r ∧ (r.isSome ↔ ∃ s ∈ ss, ∃ t ∈ ss, Opposed s t) := by
  induction ss generalizing i with
  | nil => exact ⟨none, rfl, by simp⟩
  | cons s ss ih =>
    have hrest : ∀ t ∈ ss, ∃ a, signed.Means t a := fun t ht => h t (List.mem_cons_of_mem _ ht)
    obtain ⟨a, ha⟩ := h s List.mem_cons_self
    have htest : ∀ t ∈ ss, ∃ r, oppositeSigns s t = .ok r ∧ (r = true ↔ Opposed s t) := by
      intro t ht
      obtain ⟨b, hb⟩ := hrest t ht
      exact oppositeSigns_means ha hb
    obtain ⟨r, hr, hsome, hnone⟩ := firstResult_test (fun j => (i + 1, j + 1)) fun t ht =>
      (htest t ht).imp fun _ h => h.1
    cases r with
    | some found =>
      refine ⟨some found, ?_, iff_of_true rfl ?_⟩
      · rw [contradictionSigned]
        exact congrArg (· >>= _) hr
      obtain ⟨t, ht, hst⟩ := hsome rfl
      obtain ⟨q, hq, hiff⟩ := htest t ht
      rw [hst, Except.ok.injEq] at hq
      exact ⟨s, List.mem_cons_self, t, List.mem_cons_of_mem _ ht, hiff.1 hq.symm⟩
    | none =>
      obtain ⟨r, hrest', hiff⟩ := ih (i + 1) hrest
      have hstep : contradictionSigned i (s :: ss) = contradictionSigned (i + 1) ss := by
        rw [contradictionSigned]
        exact congrArg (· >>= _) hr
      -- nothing stands against the first sentence
      have hfirst : ∀ t ∈ s :: ss, ¬ Opposed s t := by
        refine List.forall_mem_cons.2 ⟨not_opposed_self s, fun t ht hopp => ?_⟩
        obtain ⟨q, hq, hiff⟩ := htest t ht
        rw [hnone rfl t ht, Except.ok.injEq] at hq
        rw [← hiff, ← hq] at hopp
        simp at hopp
      refine ⟨r, hstep.trans hrest', hiff.trans ⟨fun ⟨u, hu, t, ht, hut⟩ => ?_, fun ⟨u, hu, t, ht, hut⟩ => ?_⟩⟩
      · exact ⟨u, List.mem_cons_of_mem _ hu, t, List.mem_cons_of_mem _ ht, hut⟩
      · rcases List.mem_cons.1 hu with rfl | hu'
        · exact absurd hut (hfirst t ht)
        rcases List.mem_cons.1 ht with rfl | ht'
        · exact absurd hut.symm (hfirst u hu)
        · exact ⟨u, hu', t, ht', hut⟩

/-! ## The closure check -/

/-- two sentences that the closure check finds to contradict each other -/
def Clash (c : Calculus) (s t : Sentence) : Prop :=
  match c with
  | unsigned => contradict s t = .ok true
  | signed => Opposed s t

/-- some two of the sentences are found to contradict each other -/
def Clashing (c : Calculus) (ss : List Sentence) : Prop := ∃ s ∈ ss, ∃ t ∈ ss, c.Clash s t

theorem Clashing.mono (h : c.Clashing ss) {ts : List Sentence} (hsub : ss ⊆ ts) : c.Clashing ts := by
  obtain ⟨s, hs, t, ht, h⟩ := h
  exact ⟨s, hsub hs, t, hsub ht, h⟩

theorem contradiction_spec (h : ∀ s ∈ ss, ∃ a, c.Means s a) :
    ∃ r, c.contradiction ss = .ok r ∧ (r.isSome ↔ c.Clashing ss) := by
  cases c with
  | unsigned => exact contradictionPlain_spec h
  | signed => exact contradictionSigned_spec 0 h

theorem Clashing.contradictory (hclash : c.Clashing ss) (h : ∀ s ∈ ss, ∃ a, c.Means s a) : c.Contradictory ss := by
  obtain ⟨s, hs, t, ht, hst⟩ := hclash
  obtain ⟨a, ha⟩ := h s hs
  obtain ⟨b, hb⟩ := h t ht
  cases c with
  | unsigned =>
    obtain ⟨r, hr, hneg⟩ := contradict_reads ha hb
    rw [show contradict s t = .ok true from hst, Except.ok.injEq] at hr
    rcases hneg hr.symm with rfl | rfl
    · exact ⟨t, ht, s, hs, b, hb, ha⟩
    · exact ⟨s, hs, t, ht, a, ha, hb⟩
  | signed => exact Opposed.contradictory hst ha hb hs ht

theorem consistent_of_not_clashing (h : ¬ c.Clashing ss) : c.Consistent ss := by
  intro s hs t ht x hsx htx
  refine h ⟨t, ht, s, hs, ?_⟩
  cases c with
  | unsigned => exact contradict_literals hsx htx
  | signed =>
    rw [means_signed_var hsx, means_signed_neg_var htx]
    exact ⟨[x], .inr ⟨rfl, rfl⟩⟩

/-- **The closure check.** A branch whose nodes all say something is closed as a success exactly if two of them are
found to contradict each other; it is closed as finished if all that is left unused are literals; otherwise something is
left to be taken apart. -/
theorem closure_cases (h : ∀ s ∈ ss, ∃ a, c.Means s a) (used : History) :
    (∃ i j info, c.closure ss used = .ok (some (.contradictionOf i j, info)) ∧ c.Clashing ss) ∨
      (∃ info, c.closure ss used = .ok (some (.emptiness, info)) ∧ ¬ c.Clashing ss ∧
        ∀ s ∈ ss, ∀ a, c.Means s a → used.contains s = true ∨ a.isLiteral = true) ∨
      (c.closure ss used = .ok none ∧ ¬ c.Clashing ss ∧
        ∃ s ∈ ss, ∃ a, c.Means s a ∧ used.contains s = false ∧ a.isLiteral = false) := by
  obtain ⟨r, hr, hclash⟩ := contradiction_spec h
  cases r with
  | some found =>
    obtain ⟨i, j⟩ := found
    exact .inl ⟨i, j, _, by simp only [closure, hr, ok_bind]; rfl, hclash.1 rfl⟩
  | none =>
    have hnone : ¬ c.Clashing ss := by simpa using hclash
    let pass (s : Sentence) : Outcome Bool := if used.contains s then return true else c.isFinal s
    have hpass {s : Sentence} {a : Proposition} (ha : c.Means s a) : pass s = .ok (used.contains s || a.isLiteral) := by
      cases hu : used.contains s with
      | true => simp [pass, hu, pure_ok]
      | false => simpa [pass, hu] using isFinal_means ha
    have hall : ∀ s ∈ ss, ∃ r, pass s = .ok r := by
      intro s hs
      obtain ⟨a, ha⟩ := h s hs
      exact ⟨_, hpass ha⟩
    obtain ⟨r, hr', htrue, hfalse⟩ := allPass_spec hall
    simp only [closure, hr, ok_bind]
    cases r with
    | true =>
      refine .inr (.inl ⟨_, by rw [hr']; rfl, hnone, fun s hs a ha => ?_⟩)
      simpa using (hpass ha).symm.trans (htrue rfl s hs)
    | false =>
      obtain ⟨s, hs, hfs⟩ := hfalse rfl
      obtain ⟨a, ha⟩ := h s hs
      exact .inr (.inr ⟨by rw [hr']; rfl, hnone, s, hs, a, ha, by simpa using (hpass ha).symm.trans hfs⟩)

/-- what each outcome of the closure check says about what the nodes say -/
theorem closure_means (h : ∀ s ∈ ss, ∃ a, c.Means s a) (used : History) :
    (∃ i j info, c.closure ss used = .ok (some (.contradictionOf i j, info)) ∧ c.Contradictory ss) ∨
      (∃ info, c.closure ss used = .ok (some (.emptiness, info)) ∧ c.Consistent ss ∧
        ∀ s ∈ ss, ∀ a, c.Means s a → used.contains s = true ∨ a.isLiteral = true) ∨
      (c.closure ss used = .ok none ∧
        ∃ s ∈ ss, ∃ a, c.Means s a ∧ used.contains s = false ∧ a.isLiteral = false) := by
  rcases closure_cases h used with ⟨i, j, info, heq, hclash⟩ | ⟨info, heq, hnone, hdone⟩ | ⟨heq, -, hleft⟩
  · exact .inl ⟨i, j, info, heq, hclash.contradictory h⟩
  · exact .inr (.inl ⟨info, heq, consistent_of_not_clashing hnone, hdone⟩)
  · exact .inr (.inr ⟨heq, hleft⟩)

end Calculus

end TableauTutor
