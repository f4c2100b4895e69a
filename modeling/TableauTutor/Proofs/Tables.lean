import Mathlib.Data.List.Induction
import Mathlib.Data.List.Nodup
import TableauTutor.Position

/-!
Tables, as lists of keys with what is written under them, and tables of groups. Pairs are gathered one at a time: each
goes to the end of the group of its key, or starts a group at the end of the table. So a table of groups is what its own
pairs give, and any list of pairs is, key by key, what its groups give.

- `gather_cases`: all that gathering one more pair can do; `lookup_groupByKey`: what is gathered under a key.
- `groupByKey_ungroup`, `perm_ungroup_groupByKey`: grouping and taking groups apart undo each
  other, the latter up to order.
-/

namespace TableauTutor

section Tables

variable {κ α β : Type} [BEq κ] [LawfulBEq κ] {k l : κ} {v : α} {t : List (κ × α)}

theorem lookup_put (k l : κ) (v : α) (t : List (κ × α)) :
    (put k v t).lookup l = if l == k then some v else t.lookup l := by
  induction t with
  | nil => by_cases h : l == k <;> simp [put, List.lookup_cons, h]
  | cons p t ih =>
    obtain ⟨m, w⟩ := p
    by_cases hm : m == k
    · obtain rfl := eq_of_beq hm
      by_cases hl : l == m <;> simp [put, List.lookup_cons, hl]
    · by_cases hl : l == m
      · obtain rfl := eq_of_beq hl
        simp [put, hm]
      · rw [put, if_neg hm]
        simp [List.lookup_cons, hl, ih]

theorem keys_put (h : k ∈ t.map (·.1)) (v : α) : (put k v t).map (·.1) = t.map (·.1) := by
  induction t with
  | nil => simp at h
  | cons p t ih =>
    obtain ⟨m, w⟩ := p
    by_cases hm : m == k
    · simp [put, hm]
    · have hk : k ∈ t.map (·.1) := by
        rcases List.mem_cons.1 h with h | h
        · exact absurd (beq_iff_eq.2 h.symm) hm
        · exact h
      rw [put, if_neg hm, List.map_cons, List.map_cons, ih hk]

theorem put_of_not_mem (h : k ∉ t.map (·.1)) (v : α) : put k v t = t ++ [(k, v)] := by
  induction t with
  | nil => rfl
  | cons q t ih =>
    obtain ⟨hne, hrest⟩ := not_or.1 (mt List.mem_cons.2 h)
    have hbeq : ¬ (q.1 == k) = true := by simpa using Ne.symm hne
    rw [put, if_neg hbeq, ih hrest, List.cons_append]

theorem mem_of_put {p : κ × α} (h : p ∈ put k v t) : p = (k, v) ∨ p ∈ t := by
  induction t with
  | nil => exact .inl (List.mem_singleton.1 h)
  | cons q t ih =>
    obtain ⟨m, w⟩ := q
    by_cases hm : m == k
    · rw [put, if_pos hm, eq_of_beq hm] at h
      rcases List.mem_cons.1 h with h | h
      · exact .inl h
      · exact .inr (List.mem_cons_of_mem _ h)
    · rw [put, if_neg hm] at h
      rcases List.mem_cons.1 h with h | h
      · exact .inr (h ▸ List.mem_cons_self)
      · exact (ih h).imp_right (List.mem_cons_of_mem _)

theorem mem_of_lookup_eq (h : t.lookup k = some v) : (k, v) ∈ t := by
  obtain ⟨l₁, l₂, rfl, -⟩ := List.lookup_eq_some_iff.1 h
  exact List.mem_append_right _ List.mem_cons_self

omit [LawfulBEq κ] in
theorem lookup_map {f : α → β} {g : κ × α → κ × β} (hg : ∀ p, g p = (p.1, f p.2)) (t : List (κ × α)) (k : κ) :
    (t.map g).lookup k = (t.lookup k).map f := by
  induction t with
  | nil => rfl
  | cons p t ih =>
    obtain ⟨m, w⟩ := p
    by_cases h : k == m <;> simp [List.lookup_cons, h, ih, hg]

theorem lookup_isSome (h : k ∈ t.map (·.1)) : ∃ v, t.lookup k = some v := by
  cases hk : t.lookup k with
  | some v => exact ⟨v, rfl⟩
  | none =>
    obtain ⟨p, hp, rfl⟩ := List.mem_map.1 h
    exact absurd rfl (bne_iff_ne.1 (List.lookup_eq_none_iff.1 hk p hp))

theorem lookup_of_mem (hnodup : (t.map (·.1)).Nodup) {p : κ × α} (hp : p ∈ t) : t.lookup p.1 = some p.2 := by
  induction t with
  | nil => simp at hp
  | cons q t ih =>
    obtain ⟨hq, hrest⟩ := List.nodup_cons.1 hnodup
    obtain ⟨m, w⟩ := q
    rcases List.mem_cons.1 hp with rfl | hp
    · simp
    · have hne : p.1 ≠ m := by
        intro heq
        exact hq (List.mem_map.2 ⟨p, hp, heq⟩)
      simp [List.lookup_cons, beq_false_of_ne hne, ih hrest hp]

theorem tableOf_of_nodup (h : (t.map (·.1)).Nodup) : tableOf t = t := by
  have hfold {t u : List (κ × α)} (h : ((u ++ t).map (·.1)).Nodup) : t.foldl (fun table x => put x.1 x.2 table) u = u ++
      t := by
    induction t generalizing u with
    | nil => exact (List.append_nil u).symm
    | cons x t ih =>
      have hx : x.1 ∉ u.map (·.1) := by
        rw [List.map_append, List.map_cons] at h
        exact fun hmem => (List.nodup_append.1 h).2.2 _ hmem _ List.mem_cons_self rfl
      rw [List.foldl_cons]
      simp only [put_of_not_mem hx]
      rw [ih (by simpa using h)]
      simp
  exact hfold h

end Tables

/-! ## Groups -/

section Groups

variable {κ α : Type}

@[simp] theorem ungroup_cons (p : κ × List α) (d : List (κ × List α)) :
    ungroup (p :: d) = p.2.map (fun v => (p.1, v)) ++ ungroup d := rfl

@[simp] theorem ungroup_append (d e : List (κ × List α)) :
    ungroup (d ++ e) = ungroup d ++ ungroup e := List.flatMap_append

/-- a table of groups: no key stands twice, and no group is without a value -/
structure IsGrouping (d : List (κ × List α)) : Prop where
  keys : (d.map (·.1)).Nodup
  filled : ∀ p ∈ d, p.2 ≠ []

variable [BEq κ] [LawfulBEq κ] {d acc groups : List (κ × List α)} {k : κ} {v : α}

omit [LawfulBEq κ] in
theorem groupByKey_concat (xs : List (κ × α)) (p : κ × α) : groupByKey (xs ++ [p]) = gather (groupByKey xs) p :=
  List.foldl_append

theorem gather_of_not_mem (h : k ∉ groups.map (·.1)) (v : α) : gather groups (k, v) = groups ++ [(k, [v])] := by
  have hnone : groups.lookup k = none := by
    rw [List.lookup_eq_none_iff]
    rintro p hp
    rw [bne_iff_ne]
    rintro rfl
    exact h (List.mem_map_of_mem hp)
  simp [gather, hnone, put_of_not_mem h]

theorem gather_of_mem {us : List α} {b : List (κ × List α)} (h : k ∉ acc.map (·.1)) (v : α) :
    gather (acc ++ (k, us) :: b) (k, v) = acc ++ (k, us ++ [v]) :: b := by
  induction acc with
  | nil => simp [gather, put]
  | cons q acc ih =>
    obtain ⟨m, ws⟩ := q
    obtain ⟨hne, hrest⟩ := not_or.1 (mt List.mem_cons.2 h)
    have hm : (m == k) = false := beq_false_of_ne (Ne.symm hne)
    have hk : (k == m) = false := beq_false_of_ne hne
    have hrest := ih hrest
    simp only [gather, List.cons_append, List.lookup_cons, put, hm, hk, Bool.false_eq_true, if_false] at hrest ⊢
    rw [hrest]

/-- **All that gathering can do**: a value starts a group behind the others, or goes to
the end of the group of its key. -/
theorem gather_cases (groups : List (κ × List α)) (k : κ) (v : α) :
    k ∉ groups.map (·.1) ∧ gather groups (k, v) = groups ++ [(k, [v])] ∨
      ∃ a us b, groups = a ++ (k, us) :: b ∧ gather groups (k, v) = a ++ (k, us ++ [v]) :: b := by
  by_cases h : k ∈ groups.map (·.1)
  · obtain ⟨us, hus⟩ := lookup_isSome h
    obtain ⟨a, b, rfl, ha⟩ := List.lookup_eq_some_iff.1 hus
    refine .inr ⟨a, us, b, rfl, gather_of_mem (fun hmem => ?_) v⟩
    obtain ⟨p, hp, rfl⟩ := List.mem_map.1 hmem
    simpa using ha p hp
  · exact .inl ⟨h, gather_of_not_mem h v⟩

theorem IsGrouping.gather (h : IsGrouping groups) (k : κ) (v : α) : IsGrouping (gather groups (k, v)) := by
  obtain ⟨hkeys, hfilled⟩ := h
  obtain ⟨hk, heq⟩ | ⟨a, us, b, rfl, heq⟩ := gather_cases groups k v
  · rw [heq]
    refine ⟨by simpa using hkeys.concat hk, fun p hp => ?_⟩
    rcases List.mem_append.1 hp with hp | hp
    · exact hfilled p hp
    · simp [List.mem_singleton.1 hp]
  · rw [heq]
    refine ⟨by simpa using hkeys, fun p hp => ?_⟩
    rcases List.mem_append.1 hp with hp | hp
    · exact hfilled p (List.mem_append_left _ hp)
    · rcases List.mem_cons.1 hp with rfl | hp
      · simp
      · exact hfilled p (List.mem_append_right _ (List.mem_cons_of_mem _ hp))

theorem perm_ungroup_gather (groups : List (κ × List α)) (k : κ) (v : α) :
    (ungroup (gather groups (k, v))).Perm (ungroup groups ++ [(k, v)]) := by
  obtain ⟨-, heq⟩ | ⟨a, us, b, rfl, heq⟩ := gather_cases groups k v
  · simp [heq, ungroup]
  · simp only [heq, ungroup_append, ungroup_cons, List.map_append, List.append_assoc]
    exact .append_left _ (.append_left _ List.perm_append_comm)

/-! ## Grouping -/

theorem isGrouping_groupByKey (xs : List (κ × α)) : IsGrouping (groupByKey xs) := by
  induction xs using List.reverseRecOn with
  | nil => exact ⟨List.nodup_nil, by simp [groupByKey]⟩
  | append_singleton xs p ih =>
    rw [groupByKey_concat]
    exact ih.gather p.1 p.2

theorem perm_ungroup_groupByKey (xs : List (κ × α)) : (ungroup (groupByKey xs)).Perm xs := by
  induction xs using List.reverseRecOn with
  | nil => rfl
  | append_singleton xs p ih =>
    rw [groupByKey_concat]
    exact (perm_ungroup_gather _ p.1 p.2).trans (ih.append_right [p])

/-- **What is gathered under a key**: the values that come with it, in their order. -/
theorem lookup_groupByKey (pairs : List (κ × α)) (k : κ) : (groupByKey pairs).lookup k =
    if (pairs.filter (·.1 == k)).isEmpty then none else some ((pairs.filter (·.1 == k)).map (·.2)) := by
  induction pairs using List.reverseRecOn with
  | nil => rfl
  | append_singleton pairs p ih =>
    rw [groupByKey_concat, gather, lookup_put, List.filter_append]
    by_cases hp : p.1 = k
    · subst hp
      rw [ih]
      cases hrest : pairs.filter (·.1 == p.1) <;> simp
    · have hk : (k == p.1) = false := beq_false_of_ne (Ne.symm hp)
      have hother : [p].filter (·.1 == k) = [] := by simp [hp]
      rw [hother, List.append_nil, ← ih, hk, if_neg (by decide)]

theorem keys_groupByKey (xs : List (κ × α)) : (groupByKey xs).map (·.1) = (xs.map (·.1)).eraseDups := by
  induction xs using List.reverseRecOn with
  | nil => rfl
  | append_singleton xs p ih =>
    rw [groupByKey_concat, List.map_append, List.eraseDups_append, ← ih]
    obtain ⟨hk, heq⟩ | ⟨a, us, b, hgroups, heq⟩ := gather_cases (groupByKey xs) p.1 p.2
    · rw [ih, List.mem_eraseDups] at hk
      simp [heq, List.removeAll, hk, List.eraseDups_cons]
    · have hk : p.1 ∈ xs.map (·.1) := by
        rw [← List.mem_eraseDups, ← ih, hgroups]
        simp
      rw [heq, hgroups]
      simp [List.removeAll, hk]

/-- values gathered one after another under the key of the last group -/
theorem foldl_gather_group (h : k ∉ acc.map (·.1)) (us vs : List α) :
    (vs.map fun v => (k, v)).foldl gather (acc ++ [(k, us)]) = acc ++ [(k, us ++ vs)] := by
  induction vs generalizing us with
  | nil => simp
  | cons v vs ih => rw [List.map_cons, List.foldl_cons, gather_of_mem h, ih, List.append_assoc, List.singleton_append]

/-- a table of groups is what its own pairs give -/
theorem groupByKey_ungroup (h : IsGrouping d) : groupByKey (ungroup d) = d := by
  -- behind groups with other keys
  have hfold {acc d : List (κ × List α)} (h : IsGrouping (acc ++ d)) : (ungroup d).foldl gather acc = acc ++ d := by
    induction d generalizing acc with
    | nil => exact (List.append_nil acc).symm
    | cons p d ih =>
      obtain ⟨k, vs⟩ := p
      have hk : k ∉ acc.map (·.1) := by
        have hkeys := h.keys
        rw [List.map_append, List.map_cons] at hkeys
        exact fun hmem => (List.nodup_append.1 hkeys).2.2 _ hmem _ List.mem_cons_self rfl
      obtain ⟨v, vs, rfl⟩ := List.exists_cons_of_ne_nil (h.filled (k, vs) (by simp))
      rw [ungroup_cons, List.map_cons, List.cons_append, List.foldl_cons, List.foldl_append, gather_of_not_mem hk,
        foldl_gather_group hk, ih (by simpa using h)]
      simp
  exact hfold h

end Groups

/-- **Grouping and taking groups apart are inverse.** The pairs of the groups of any list are a permutation of it, in
which the values of each key keep their order and the keys the order in which they come first; and every table of groups
is what its pairs give. -/
theorem grouping_inverse {κ α : Type} [BEq κ] [LawfulBEq κ] :
    (∀ xs : List (κ × α), IsGrouping (groupByKey xs) ∧ (ungroup (groupByKey xs)).Perm xs ∧
      (∀ k, ((ungroup (groupByKey xs)).filter (·.1 == k)).map (·.2) = (xs.filter (·.1 == k)).map (·.2)) ∧
      ((ungroup (groupByKey xs)).map (·.1)).eraseDups = (xs.map (·.1)).eraseDups) ∧
    ∀ d : List (κ × List α), IsGrouping d → groupByKey (ungroup d) = d := by
  refine ⟨fun xs => ?_, fun d => groupByKey_ungroup⟩
  have hgroups := isGrouping_groupByKey xs
  have hback : groupByKey (ungroup (groupByKey xs)) = groupByKey xs := groupByKey_ungroup hgroups
  refine ⟨hgroups, perm_ungroup_groupByKey xs, fun k => ?_, ?_⟩
  · -- the same is gathered under the key
    have hk : (groupByKey (ungroup (groupByKey xs))).lookup k = (groupByKey xs).lookup k := by rw [hback]
    rw [lookup_groupByKey, lookup_groupByKey] at hk
    split_ifs at hk with h h' h'
    · rw [List.isEmpty_iff.1 h, List.isEmpty_iff.1 h']
    · exact Option.some.inj hk
  · rw [← keys_groupByKey, hback, keys_groupByKey]

/-- pairs that change their order, and groups that do not start with the least key -/
theorem grouping_inverse_samples :
    let xs := [("b", 1), ("a", 2), ("b", 3), ("a", 2)]
    let d := [("b", [1, 3]), ("a", [2, 2])]
    ungroup (groupByKey xs) = [("b", 1), ("b", 3), ("a", 2), ("a", 2)] ∧ (ungroup (groupByKey xs)).Perm xs ∧
      IsGrouping d ∧ groupByKey (ungroup d) = d := by
  intro xs d
  have hd : IsGrouping d := ⟨by decide, by decide⟩
  exact ⟨by decide, (grouping_inverse.1 xs).2.1, hd, grouping_inverse.2 d hd⟩

end TableauTutor
