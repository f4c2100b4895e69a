import Mathlib.Algebra.BigOperators.Group.Finset.Basic
import Mathlib.Algebra.Order.BigOperators.Group.Finset
import TableauTutor.Proofs.Agenda

/-!
Why the solver stops. The effort of a proposition bounds how often rules can be used on it and on what comes out of it
along one branch. What waits on an agenda has a potential that falls with every sentence taken from it, also when taking
it apart doubles what waits; the bound that the solver works with exceeds the potential.
-/

namespace TableauTutor

/-! ## Effort -/

/-- how often rules can be used along one branch on a proposition that is held to be true, or false -/
def Proposition.effort : Proposition → Bool → Nat
  | var _, _ => 0
  | neg a, true => a.effort false
  | neg a, false => 1 + a.effort true
  | join .impl a b, keep => 1 + a.effort (!keep) + b.effort keep
  | join _ a b, keep => 1 + a.effort keep + b.effort keep

/-- what a connective adds to the weight of a sentence -/
def symbolWeight (k : String) : Nat := if k = "not" then 1 else if ["and", "or", "imp"].contains k then 2 else 0

theorem weight_eq (s : Sentence) : Agenda.weight s = s.measure symbolWeight := by
  induction s with
  | nil => rfl
  | cons y s ih =>
    rw [Sentence.measure_cons, ← ih]
    rfl

theorem effort_le_weight (a : Proposition) :
    a.effort true ≤ a.measure symbolWeight ∧ a.effort false ≤ a.measure symbolWeight + 1 := by
  have hnot : symbolWeight "not" = 1 := by decide
  have hjoin : ∀ o : Junctor, symbolWeight o.kind = 2 := fun o => by cases o <;> decide
  induction a with
  | var x => simp [Proposition.effort]
  | neg a ih =>
    simp only [Proposition.effort, Proposition.measure, hnot]
    omega
  | join o a b iha ihb =>
    simp only [Proposition.measure, hjoin]
    cases o <;> simp only [Proposition.effort, Bool.not_true, Bool.not_false] <;> omega

theorem effort_side (keep : Bool) (a : Proposition) : (a.side keep).effort true = a.effort keep := by
  cases keep <;> simp [Proposition.side, Proposition.effort]

theorem effort_arrange (d : Decomposition) {l r : Proposition} {n : Nat} (h : n = 1 + l.effort true + r.effort true) :
    ∀ b ∈ d.arrange l r, (b.map (Proposition.effort · true)).sum < n := by
  unfold Decomposition.arrange
  subst h
  split
  · simp
    omega
  · simp

/-- **A rule takes away effort** on every branch. -/
theorem effort_expand {name : String} {m : Method} (h : (name, m) ∈ Calculus.ruleMethods) {a : Proposition}
    {bs : List (List Proposition)} (hbs : m.expand a = some bs) :
    ∀ b ∈ bs, (b.map (Proposition.effort · true)).sum < a.effort true := by
  simp only [Calculus.ruleMethods, List.mem_cons, Prod.mk.injEq, List.not_mem_nil, or_false] at h
  rcases h with ⟨rfl, rfl⟩ | ⟨rfl, rfl⟩ | ⟨rfl, rfl⟩ | ⟨rfl, rfl⟩ | ⟨rfl, rfl⟩ | ⟨rfl, rfl⟩ | ⟨rfl, rfl⟩
  · rcases a with x | (x | a | ⟨o, a, b⟩) | ⟨o, a, b⟩ <;>
      simp [Method.expand, Proposition.negated?] at hbs
    subst hbs
    simp [Proposition.effort]
  all_goals
    obtain ⟨o, l, r, rfl, hk, rfl⟩ := Decomposition.expand_eq_some.1 hbs
    refine effort_arrange _ ?_
    cases o <;> simp [Junctor.kind] at hk
    simp only [effort_side, Proposition.effort, Bool.not_true, Bool.not_false]

theorem effort_pos {a : Proposition} {r : String} (h : a.rule? = some r) : 0 < a.effort true := by
  rcases a with x | (x | a | ⟨_ | _ | _, a, b⟩) | ⟨_ | _ | _, a, b⟩ <;>
    simp [Proposition.rule?, Proposition.effort] at h ⊢

/-! ## Potential -/

open Classical in
/-- the effort of what a sentence says -/
noncomputable def Sentence.effort (s : Sentence) : Nat := if h : ∃ a, s.Reads a then h.choose.effort true else 0

theorem Sentence.Reads.effort {s : Sentence} {a : Proposition} (h : s.Reads a) : s.effort = a.effort true := by
  have hex : ∃ a, s.Reads a := ⟨a, h⟩
  rw [Sentence.effort, dif_pos hex, h.unique hex.choose_spec]

namespace Agenda

/-- the effort of what waits on a branch -/
noncomputable def work (xs : List Pending) (b : String) : Nat :=
  (xs.map fun x => if x.branch = b then x.sentence.effort else 0).sum

/-- bounds how many sentences can still be taken from what waits -/
noncomputable def potential (xs : List Pending) : Nat := ∑ b ∈ (xs.map (·.branch)).toFinset, (2 ^ work xs b - 1)

variable {a : Agenda} {xs ys : List Pending} {x : Pending} {b : String}

theorem work_perm (h : xs.Perm ys) (b : String) : work xs b = work ys b := (h.map _).sum_eq

theorem work_append (xs ys : List Pending) (b : String) : work (xs ++ ys) b = work xs b + work ys b := by
  simp [work]

theorem work_cons (x : Pending) (xs : List Pending) (b : String) :
    work (x :: xs) b = (if x.branch = b then x.sentence.effort else 0) + work xs b := by
  simp [work]

theorem work_eq_zero (h : ∀ x ∈ xs, x.branch ≠ b) : work xs b = 0 := by
  refine List.sum_eq_zero fun n hn => ?_
  obtain ⟨x, hx, rfl⟩ := List.mem_map.1 hn
  rw [if_neg (h x hx)]

theorem potential_eq {t : Finset String} (h : ∀ x ∈ xs, x.branch ∈ t) :
    potential xs = ∑ b ∈ t, (2 ^ work xs b - 1) := by
  refine Finset.sum_subset (fun b hb => ?_) (fun b _ hb => ?_)
  · obtain ⟨x, hx, rfl⟩ := List.mem_map.1 (List.mem_toFinset.1 hb)
    exact h x hx
  · rw [work_eq_zero fun x hx heq => hb (List.mem_toFinset.2 (List.mem_map.2 ⟨x, hx, heq⟩)), pow_zero, Nat.sub_self]

theorem potential_perm (h : xs.Perm ys) : potential xs = potential ys := by
  rw [@potential_eq ys (xs.map (·.branch)).toFinset]
  · exact Finset.sum_congr rfl fun b _ => by rw [work_perm h]
  · intro x hx
    exact List.mem_toFinset.2 (List.mem_map_of_mem (h.mem_iff.2 hx))

theorem work_sublist (h : xs.Sublist ys) (b : String) : work xs b ≤ work ys b :=
  (h.map _).sum_le_sum fun _ _ => Nat.zero_le _

theorem potential_sublist (h : xs.Sublist ys) : potential xs ≤ potential ys := by
  rw [potential_eq (t := (ys.map (·.branch)).toFinset) fun x hx =>
    List.mem_toFinset.2 (List.mem_map_of_mem (h.subset hx))]
  refine Finset.sum_le_sum fun b _ => ?_
  have := Nat.pow_le_pow_right (n := 2) (by omega) (work_sublist h b)
  omega

theorem potential_skip (h : 0 < x.sentence.effort) (xs : List Pending) : potential xs < potential (x :: xs) := by
  have hx : x.branch ∈ ((x :: xs).map (·.branch)).toFinset :=
    List.mem_toFinset.2 (List.mem_map_of_mem List.mem_cons_self)
  rw [potential_eq (t := ((x :: xs).map (·.branch)).toFinset) fun y hy =>
    List.mem_toFinset.2 (List.mem_map_of_mem (List.mem_cons_of_mem _ hy))]
  refine Finset.sum_lt_sum (fun b _ => ?_) ⟨x.branch, hx, ?_⟩
  · have := Nat.pow_le_pow_right (n := 2) (by omega) (work_sublist (List.sublist_cons_self x xs) b)
    omega
  · have hlt : work xs x.branch < work (x :: xs) x.branch := by
      rw [work_cons, if_pos rfl]
      omega
    have := Nat.pow_lt_pow_right (a := 2) (by omega) hlt
    have := Nat.one_le_two_pow (n := work xs x.branch)
    omega

/-- **An entry that is taken apart**: each of the one or two branches that its branch goes on in has less work than
there was, and the other branches have what they had. -/
theorem potential_take {d : Finset String} (hcard : d.card ≤ 2) (hx : x.branch ∈ d)
    (hfresh : ∀ b ∈ d, b ≠ x.branch → ∀ y ∈ x :: xs, y.branch ≠ b)
    (hnames : ∀ y ∈ ys, y.branch ∈ d ∨ ∃ z ∈ xs, z.branch = y.branch)
    (hless : ∀ b ∈ d, work ys b < work (x :: xs) x.branch) (hother : ∀ b ∉ d, work ys b = work (x :: xs) b) :
    potential ys < potential (x :: xs) := by
  let t := ((x :: xs).map (·.branch)).toFinset ∪ d
  have hold : ∀ y ∈ x :: xs, y.branch ∈ t := fun y hy =>
    Finset.mem_union_left _ (List.mem_toFinset.2 (List.mem_map_of_mem hy))
  have hnew : ∀ y ∈ ys, y.branch ∈ t := by
    intro y hy
    rcases hnames y hy with h | ⟨z, hz, heq⟩
    · exact Finset.mem_union_right _ h
    · exact heq ▸ hold z (List.mem_cons_of_mem _ hz)
  have hsub : d ⊆ t := Finset.subset_union_right
  rw [potential_eq hold, potential_eq hnew, ← Finset.sum_sdiff hsub, ← Finset.sum_sdiff hsub]
  have hsame : ∑ b ∈ t \ d, (2 ^ work ys b - 1) = ∑ b ∈ t \ d, (2 ^ work (x :: xs) b - 1) :=
    Finset.sum_congr rfl fun b hb => by rw [hother b (Finset.mem_sdiff.1 hb).2]
  -- on the branches that go on, at most twice the half of what there was
  obtain ⟨w, hw⟩ : ∃ w, work (x :: xs) x.branch = w + 1 := Nat.exists_eq_succ_of_ne_zero (by have := hless _ hx; omega)
  have hone : ∑ b ∈ d, (2 ^ work (x :: xs) b - 1) = 2 ^ (w + 1) - 1 := by
    rw [← hw]
    refine Finset.sum_eq_single_of_mem _ hx fun b hb hne => ?_
    rw [work_eq_zero (hfresh b hb hne), pow_zero, Nat.sub_self]
  have htwo : ∑ b ∈ d, (2 ^ work ys b - 1) ≤ 2 * (2 ^ w - 1) := by
    have hle : ∀ b ∈ d, 2 ^ work ys b - 1 ≤ 2 ^ w - 1 := by
      intro b hb
      have hlt := hless b hb
      have := Nat.pow_le_pow_right (n := 2) (by omega) (show work ys b ≤ w by omega)
      omega
    exact (Finset.sum_le_card_nsmul _ _ _ hle).trans (Nat.mul_le_mul_right _ hcard)
  have hpos := Nat.one_le_two_pow (n := w)
  rw [hsame, hone, pow_succ]
  omega

/-! ## The bound of the solver -/

theorem load_eq (xs : List Pending) (b : String) :
    load xs b = (xs.map fun x => if x.branch = b then weight x.sentence + 1 else 0).sum := by
  rw [load]
  induction xs with
  | nil => rfl
  | cons x xs ih =>
    by_cases h : x.branch = b
    · simp [h, ih]
    · simp [h, ih]

theorem sum_toFinset_le (f : String → Nat) (bs : List String) : ∑ b ∈ bs.toFinset, f b ≤ (bs.map f).sum := by
  induction bs with
  | nil => simp
  | cons b bs ih =>
    rw [List.toFinset_cons, List.map_cons, List.sum_cons]
    by_cases hb : b ∈ bs.toFinset
    · rw [Finset.insert_eq_of_mem hb]
      omega
    · rw [Finset.sum_insert hb]
      omega

theorem bound_eq (ha : a.Keyed) :
    a.bound = ((a.pending.map (·.branch)).eraseDups.map fun b => 2 ^ load a.pending b).sum + 1 := by
  rw [bound, ← ha.pending_eq]
  generalize (a.pending.map (·.branch)).eraseDups = bs
  induction bs with
  | nil => rfl
  | cons b bs ih =>
    simp only [List.foldr_cons, List.map_cons, List.sum_cons] at ih ⊢
    rw [ih, Nat.add_assoc]
    rfl

theorem work_le_load (hread : ∀ x ∈ xs, ∃ p, x.sentence.Reads p) (b : String) : work xs b ≤ load xs b := by
  rw [load_eq]
  refine List.sum_le_sum fun x hx => ?_
  obtain ⟨p, hp⟩ := hread x hx
  have hle := (effort_le_weight p).1
  rw [hp.effort, weight_eq, hp.measure (by decide) (by decide)]
  split <;> omega

/-- **The bound** that the solver works with exceeds the potential of its agenda. -/
theorem potential_lt_bound (ha : a.Keyed) (hread : ∀ x ∈ a.pending, ∃ p, x.sentence.Reads p) :
    potential a.pending < a.bound := by
  let bs := (a.pending.map (·.branch)).eraseDups
  have hbs : ∀ x ∈ a.pending, x.branch ∈ bs.toFinset := fun x hx =>
    List.mem_toFinset.2 (List.mem_eraseDups.2 (List.mem_map_of_mem hx))
  have hterm : ∀ b ∈ bs, 2 ^ work a.pending b - 1 ≤ 2 ^ load a.pending b := fun b _ =>
    (Nat.sub_le _ _).trans (Nat.pow_le_pow_right (by omega) (work_le_load hread b))
  calc potential a.pending
      = ∑ b ∈ bs.toFinset, (2 ^ work a.pending b - 1) := potential_eq hbs
    _ ≤ (bs.map fun b => 2 ^ work a.pending b - 1).sum := sum_toFinset_le _ bs
    _ ≤ (bs.map fun b => 2 ^ load a.pending b).sum := List.sum_le_sum hterm
    _ < a.bound := by rw [bound_eq ha]; exact Nat.lt_succ_self _

end Agenda

end TableauTutor
