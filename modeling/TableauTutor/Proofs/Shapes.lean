import Mathlib.Algebra.BigOperators.Group.List.Basic
import Mathlib.Data.List.Rotate
import TableauTutor.Proofs.Drawing

/-!
Shapes are trees. A list of arities describes a tree when it can be read in prefix order with nothing left over. It can
be read so if what has been read never closes the tree before the end. In a circle of arities that has one node more
than there are parts there is one place to start from, and that is where the list is turned round.

- `shape_is_tree`: the shapes that are drawn.
-/

namespace TableauTutor

/-- an ordered tree -/
inductive Shape where
  | node (parts : List Shape)
deriving Repr

namespace Shape

mutual
/-- the arities of the nodes, a node before its parts -/
def word : Shape → List Int
  | node ts => ts.length :: words ts

def words : List Shape → List Int
  | [] => []
  | t :: ts => word t ++ words ts
end

mutual
/-- how many nodes are not leaves -/
def inner : Shape → Nat
  | node ts => (if ts.isEmpty then 0 else 1) + innerAll ts

def innerAll : List Shape → Nat
  | [] => 0
  | t :: ts => inner t + innerAll ts
end

/-! ## Words of trees -/

theorem words_append (ts us : List Shape) : words (ts ++ us) = words ts ++ words us := by
  induction ts with
  | nil => rfl
  | cons t ts ih => simp [words, ih]

mutual
theorem inner_eq_countP (t : Shape) : t.inner = t.word.countP (· ≠ 0) := by
  obtain ⟨ts⟩ := t
  rw [inner, word, innerAll_eq_countP ts, List.countP_cons, Nat.add_comm]
  congr 1
  cases ts with
  | nil => rfl
  | cons t ts => rfl

theorem innerAll_eq_countP (ts : List Shape) : innerAll ts = (words ts).countP (· ≠ 0) := by
  cases ts with
  | nil => rfl
  | cons t ts => rw [innerAll, words, inner_eq_countP t, innerAll_eq_countP ts, List.countP_append]
end

/-- **A word describes one tree.** Where words in a row begin like as many others, whatever follows,
they are words of the same trees. -/
theorem words_append_inj {ts us : List Shape} {rest rest' : List Int} (hlen : ts.length = us.length)
    (h : words ts ++ rest = words us ++ rest') : ts = us ∧ rest = rest' := by
  -- the induction is on the word; the parts of the first tree join the trees that are still to be compared
  generalize hw : words ts ++ rest = w at h
  induction w generalizing ts us with
  | nil =>
    cases ts with
    | nil =>
      obtain rfl := List.length_eq_zero_iff.1 hlen.symm
      exact ⟨rfl, hw.trans h⟩
    | cons t ts =>
      obtain ⟨cs⟩ := t
      simp [words, word] at hw
  | cons a w ih =>
    cases ts with
    | nil =>
      obtain rfl := List.length_eq_zero_iff.1 hlen.symm
      exact ⟨rfl, hw.trans h⟩
    | cons t ts =>
      cases us with
      | nil => simp at hlen
      | cons u us =>
        obtain ⟨cs⟩ := t
        obtain ⟨ds⟩ := u
        simp only [words, word, List.cons_append, List.cons.injEq, List.length_cons,
          Nat.add_right_cancel_iff] at h hw hlen
        have hparts : cs.length = ds.length := by
          have := hw.1.trans h.1
          omega
        rw [← words_append] at h hw
        have htotal : (cs ++ ts).length = (ds ++ us).length := by
          rw [List.length_append, List.length_append, hparts, hlen]
        obtain ⟨heq, hrest⟩ := ih htotal hw.2 h.2
        obtain ⟨rfl, rfl⟩ := List.append_inj heq hparts
        exact ⟨rfl, hrest⟩

/-! ## Leaves against what is asked for -/

/-- how many nodes there are more than the nodes among them have parts -/
def surplus (as : List Int) : Int := (as.map (1 - ·)).sum

@[simp] theorem surplus_nil : surplus [] = 0 := rfl

@[simp] theorem surplus_cons (a : Int) (as : List Int) : surplus (a :: as) = 1 - a + surplus as := by simp [surplus]

@[simp] theorem surplus_append (as bs : List Int) : surplus (as ++ bs) = surplus as + surplus bs := by simp [surplus]

theorem surplus_perm {as bs : List Int} (h : as.Perm bs) : surplus as = surplus bs := (h.map _).sum_eq

theorem surplus_eq (as : List Int) : surplus as = as.length - as.sum := by
  induction as with
  | nil => rfl
  | cons a as ih =>
    rw [surplus_cons, ih, List.length_cons, List.sum_cons]
    omega

/-- a list of arities that is used up by n trees, and not before its end -/
structure Complete (n : Int) (as : List Int) : Prop where
  total : surplus as = n
  sooner : ∀ u v, as = u ++ v → v ≠ [] → surplus u < n

/-- **A complete list of arities describes trees.** -/
theorem exists_words {n : Nat} {as : List Int} (h : Complete n as) (has : ∀ a ∈ as, 0 ≤ a) :
    ∃ ts : List Shape, ts.length = n ∧ words ts = as := by
  induction as generalizing n with
  | nil =>
    obtain rfl : n = 0 := by simpa [eq_comm] using h.total
    exact ⟨[], rfl, rfl⟩
  | cons a as ih =>
    obtain ⟨ha, has⟩ := List.forall_mem_cons.1 has
    have hn : 0 < n := by simpa using h.sooner [] (a :: as) rfl (by simp)
    have htotal := h.total
    rw [surplus_cons] at htotal
    -- the first node takes the first of the trees that follow
    have hrest : Complete (a.toNat + (n - 1) : Nat) as := by
      refine ⟨by omega, fun u v huv hv => ?_⟩
      have := h.sooner (a :: u) v (by rw [huv, List.cons_append]) hv
      rw [surplus_cons] at this
      omega
    obtain ⟨ts, hlen, rfl⟩ := ih hrest has
    refine ⟨node (ts.take a.toNat) :: ts.drop a.toNat, by simp; omega, ?_⟩
    have hsplit : words (ts.take a.toNat) ++ words (ts.drop a.toNat) = words ts := by
      rw [← words_append, List.take_append_drop]
    rw [words, word, List.cons_append, hsplit, List.length_take, hlen]
    congr 1
    omega

end Shape

namespace Drawing

open Shape

/-! ## Turning a list round -/

/-- what has been read falls into two parts: the surplus of the first is above that of all its beginnings, and in the
second, which is what was read since, it never rises above zero -/
structure Turned (u v : List Int) (s : Int × Nat) : Prop where
  place : u = [] ∧ s.2 = 0 ∨ u.length = s.2 + 1
  since : surplus v = s.1
  below : ∀ w, w <+: v → surplus w ≤ 0
  record : ∀ w, w <+: u → w ≠ u → surplus w < surplus u

theorem Turned.step {u v : List Int} {s : Int × Nat} {a : Int} (h : Turned u v s) (ha : 0 ≤ a) :
    ∃ u' v', u' ++ v' = u ++ v ++ [a] ∧ Turned u' v' (turnStep s (a, (u ++ v).length)) := by
  have hsince := h.since
  have hv := h.below v (List.prefix_refl v)
  unfold turnStep
  split
  · -- the surplus is higher than ever before: everything read so far becomes the first part
    rename_i hn
    refine ⟨u ++ v ++ [a], [], by simp, ⟨.inr (by simp [Nat.add_assoc]), rfl, by simp, fun w hw hne => ?_⟩⟩
    have hrise : surplus (u ++ v ++ [a]) = surplus u + 1 := by
      simp only [surplus_append, surplus_cons, surplus_nil]
      omega
    rw [hrise]
    have hw : w <+: u ++ v := (List.prefix_concat_iff.1 hw).resolve_left hne
    rcases List.prefix_or_prefix_of_prefix hw (List.prefix_append u v) with hwu | ⟨w', rfl⟩
    · by_cases hwu' : w = u
      · rw [hwu']
        omega
      · have := h.record w hwu hwu'
        omega
    · have := h.below w' ((List.prefix_append_right_inj u).1 hw)
      rw [surplus_append]
      omega
  · rename_i hn
    refine ⟨u, v ++ [a], by simp, ⟨h.place, ?_, fun w hw => ?_, h.record⟩⟩
    · simp only [surplus_append, surplus_cons, surplus_nil]
      omega
    · rcases List.prefix_concat_iff.1 hw with rfl | hw
      · simp only [surplus_append, surplus_cons, surplus_nil]
        omega
      · exact h.below w hw

/-- the whole list read, after what has been read already -/
theorem Turned.run {u v rest : List Int} {s : Int × Nat} (h : Turned u v s) (hrest : ∀ a ∈ rest, 0 ≤ a) :
    ∃ u' v', u' ++ v' = u ++ v ++ rest ∧ Turned u' v' ((rest.zipIdx (u ++ v).length).foldl turnStep s) := by
  induction rest generalizing u v s with
  | nil => exact ⟨u, v, by simp, h⟩
  | cons a rest ih =>
    obtain ⟨ha, hrest⟩ := List.forall_mem_cons.1 hrest
    obtain ⟨u', v', hread, hstep⟩ := h.step ha
    obtain ⟨u'', v'', hall, hrun⟩ := ih hstep hrest
    rw [hread] at hall hrun
    refine ⟨u'', v'', by simpa using hall, ?_⟩
    simpa [List.zipIdx_cons, Nat.add_assoc] using hrun

/-- **Where a list is turned round.** If there is a surplus, the list falls into two parts that change places: the
surplus of the first is above that of all its beginnings, and in the second it never rises above zero. -/
theorem exists_turn {as : List Int} (has : ∀ a ∈ as, 0 ≤ a) (hsurplus : 0 < surplus as) :
    ∃ u v, as = u ++ v ∧ rotate as = v ++ u ∧ (∀ w, w <+: v → surplus w ≤ 0) ∧ ∀ w, w <+: u → w ≠ u →
    surplus w < surplus u := by
  have hstart : Turned [] [] (0, 0) := ⟨.inl ⟨rfl, rfl⟩, rfl, by simp, by simp⟩
  obtain ⟨u, v, hread, hrun⟩ := hstart.run has
  obtain rfl : u ++ v = as := by simpa using hread
  have hplace : u.length = turningPoint (u ++ v) + 1 := by
    rw [turningPoint]
    refine hrun.place.resolve_left fun ⟨hu, _⟩ => ?_
    -- without a first part there would be no surplus
    have := hrun.below v (List.prefix_refl v)
    rw [hu, List.nil_append] at hsurplus
    omega
  refine ⟨u, v, rfl, ?_, hrun.below, hrun.record⟩
  rw [rotate, ← hplace, List.drop_left, List.take_left]

theorem rotate_perm (as : List Int) : (rotate as).Perm as := by
  have hparts := @List.perm_append_comm _ (as.drop (turningPoint as + 1)) (as.take (turningPoint as + 1))
  rwa [List.take_append_drop] at hparts

/-- **Turning a list round makes it complete.** -/
theorem complete_rotate {as : List Int} (has : ∀ a ∈ as, 0 ≤ a) (hsurplus : surplus as = 1) :
    Complete 1 (rotate as) ∧ (rotate as).IsRotated as := by
  obtain ⟨u, v, rfl, hrotate, hbelow, hrecord⟩ := exists_turn has (by omega)
  rw [hrotate]
  rw [surplus_append] at hsurplus
  refine ⟨⟨by rw [surplus_append]; omega, fun w w' hw hne => ?_⟩, List.isRotated_append⟩
  have hpre : w <+: v ++ u := ⟨w', hw.symm⟩
  rcases List.prefix_or_prefix_of_prefix hpre (List.prefix_append v u) with hwv | ⟨w₁, rfl⟩
  · have := hbelow w hwv
    omega
  · have hw₁ : w₁ <+: u := (List.prefix_append_right_inj v).1 hpre
    have hproper : w₁ ≠ u := by
      rintro rfl
      exact hne (by simpa using hw)
    have := hrecord w₁ hw₁ hproper
    rw [surplus_append]
    omega

/-! ## The shapes that are drawn -/

theorem length_le_sum {inner : List Int} (h : ∀ a ∈ inner, 0 < a) : (inner.length : Int) ≤ inner.sum := by
  induction inner with
  | nil => simp
  | cons a inner ih =>
    obtain ⟨ha, h⟩ := List.forall_mem_cons.1 h
    have := ih h
    rw [List.length_cons, List.sum_cons]
    omega

section Arrangement

variable {l : Int} {possible as : List Int}

theorem Arrangement.mem (h : Arrangement l possible as) : ∀ a ∈ as, a ∈ possible ∨ a = 0 := by
  obtain ⟨inner, -, hmem, hperm⟩ := h
  intro a ha
  rcases List.mem_append.1 (hperm.subset ha) with ha | ha
  · exact .inl (hmem a ha)
  · exact .inr (List.eq_of_mem_replicate ha)

theorem Arrangement.nonneg (h : Arrangement l possible as) (hpos : ∀ a ∈ possible, 0 < a) : ∀ a ∈ as, 0 ≤ a := by
  intro a ha
  rcases h.mem a ha with ha | rfl
  · exact Int.le_of_lt (hpos a ha)
  · exact Int.le_refl 0

/-- with as many leaves as go with the inner nodes, there is one node more than there are parts -/
theorem Arrangement.surplus_eq_one (h : Arrangement l possible as) (hl : 0 ≤ l) (hpos : ∀ a ∈ possible, 0 < a) :
    surplus as = 1 := by
  obtain ⟨inner, hlen, hmem, hperm⟩ := h
  have hsum := length_le_sum fun a ha => hpos a (hmem a ha)
  have hleaves (n : Nat) : surplus (List.replicate n 0) = n := by simp [surplus]
  rw [surplus_perm hperm, surplus_append, hleaves, surplus_eq]
  omega

theorem Arrangement.countP_eq (h : Arrangement l possible as) (hl : 0 ≤ l) (hpos : ∀ a ∈ possible, 0 < a) :
    (as.countP (· ≠ 0) : Int) = l := by
  obtain ⟨inner, hlen, hmem, hperm⟩ := h
  have hinner : inner.countP (· ≠ 0) = inner.length := by
    rw [List.countP_eq_length]
    intro a ha
    have := hpos a (hmem a ha)
    simp only [ne_eq, decide_not, Bool.not_eq_true', decide_eq_false_iff_not]
    omega
  have hleaves (n : Nat) : (List.replicate n (0 : Int)).countP (· ≠ 0) = 0 := by simp [List.countP_replicate]
  rw [hperm.countP_eq, List.countP_append, hinner, hleaves, hlen]
  omega

/-- **The tree of an arrangement.** Turned round, an arrangement describes one tree and has nothing left over. -/
theorem Arrangement.exists_tree (h : Arrangement l possible as) (hl : 0 ≤ l) (hpos : ∀ a ∈ possible, 0 < a) :
    ∃ t : Shape, (t.inner : Int) = l ∧ t.word = rotate as := by
  obtain ⟨hcomplete, hrotated⟩ := complete_rotate (h.nonneg hpos) (h.surplus_eq_one hl hpos)
  obtain ⟨ts, hlen, hword⟩ := exists_words (n := 1) hcomplete fun a ha => h.nonneg hpos a (hrotated.perm.subset ha)
  obtain ⟨t, rfl⟩ := List.length_eq_one_iff.1 hlen
  simp only [words, List.append_nil] at hword
  refine ⟨t, ?_, hword⟩
  rw [inner_eq_countP, hword, hrotated.perm.countP_eq, h.countP_eq hl hpos]

end Arrangement

theorem word_append_inj {t u : Shape} {rest rest' : List Int} (h : t.word ++ rest = u.word ++ rest') :
    t = u ∧ rest = rest' := by
  have hwords : words [t] ++ rest = words [u] ++ rest' := by simpa [words] using h
  obtain ⟨heq, hrest⟩ := words_append_inj (by simp) hwords
  exact ⟨List.head_eq_of_cons_eq heq, hrest⟩

/-- **Random shapes are trees.** Whatever is drawn, there are arities to be turned round: those that can come up are the
arrangements of the inner nodes and the leaves that go with them. Turned round, each of them is the word of a tree with
the inner nodes that were asked for, can be read as that of no other tree, and has nothing left over. -/
theorem shape_is_tree {l : Int} {possible : List Int} (hl : 0 ≤ l) (hne : possible ≠ [])
    (hpos : ∀ a ∈ possible, 0 < a) :
    (∀ d, ∃ as d', exec (arities l possible) d = (.ok as, d') ∧ exec (shape l possible) d = (.ok (rotate as), d')) ∧
    (∀ as, (∃ d d', exec (arities l possible) d = (.ok as, d')) ↔ Arrangement l possible as) ∧
    ∀ as, Arrangement l possible as → (rotate as).IsRotated as ∧
      ∃ t : Shape, (t.inner : Int) = l ∧ t.word = rotate as ∧ ∀ u rest, u.word ++ rest = rotate as → u = t ∧
      rest = [] := by
  refine ⟨fun d => ?_, fun as => exec_arities_iff, fun as has => ?_⟩
  · obtain ⟨as, d', h, -⟩ := (meets_arities (fun h => absurd h hne) l).exists_ok d
    exact ⟨as, d', h, by rw [shape, exec_bind_ok h, exec_pure]⟩
  · obtain ⟨-, hrotated⟩ := complete_rotate (has.nonneg hpos) (has.surplus_eq_one hl hpos)
    obtain ⟨t, hinner, hword⟩ := has.exists_tree hl hpos
    refine ⟨hrotated, t, hinner, hword, fun u rest hu => ?_⟩
    rw [← hword, ← List.append_nil t.word] at hu
    exact word_append_inj hu

/-- a conjunction with a negation on its right, shuffled so that the walk turns round at the first leaf -/
theorem shape_is_tree_two_connectives : Arrangement 2 [2, 1] [0, 2, 0, 1] ∧
    (∃ d d', exec (shape 2 [2, 1]) d = (.ok [2, 0, 1, 0], d')) ∧ ∃ t : Shape, (t.inner : Int) = 2 ∧
    t.word = [2, 0, 1, 0] := by
  obtain ⟨hshape, hdrawn, htree⟩ := @shape_is_tree 2 [2, 1] (by decide) (by decide) (by decide)
  have has : Arrangement 2 [2, 1] [0, 2, 0, 1] := ⟨[2, 1], rfl, by decide, by decide⟩
  have hrotate : rotate [0, 2, 0, 1] = [2, 0, 1, 0] := by decide
  obtain ⟨d, d', h⟩ := (hdrawn _).2 has
  obtain ⟨as, e, has', hword⟩ := hshape d
  rw [h] at has'
  cases has'
  obtain ⟨-, t, hinner, ht, -⟩ := htree _ has
  exact ⟨has, ⟨d, d', hrotate ▸ hword⟩, t, hinner, ht.trans hrotate⟩

end Drawing

end TableauTutor
