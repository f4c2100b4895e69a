import TableauTutor.Proofs.Reached

/-!
Going sideways. The branches of a tree are in order from left to right, and the neighbours of a branch are the ones
before and after it. But a neighbour is looked for among the siblings of the leaf. A leaf that has none has no
neighbours then, and a sibling that has branched itself stands for the first of its branches, which on the left is not
the nearest one.

- `names_around`: the names in the siblings of a leaf stand next to its own.
- `Proof.goes_sibling`: where going to a side leads.
- `Session.jump_sideways`: when it leads to the neighbour.
-/

namespace TableauTutor

namespace ProofTree

/-! ## Siblings -/

variable {before after : List ProofTree}

theorem siblings_concat (fs : List Frame) (f : Frame) : siblings before after (fs ++ [f]) = (f.before, f.after) := by
  induction fs generalizing before after with
  | nil => rfl
  | cons g fs ih => exact ih

theorem offset_append (fs gs : List Frame) : offset (fs ++ gs) = offset fs + offset gs := by
  induction fs with
  | nil => simp [offset]
  | cons f fs ih => simp [offset, ih, Nat.add_assoc]

theorem names_strandsAll (ts : List ProofTree) : (strandsAll ts).map (·.leaf.branch) = ts.flatMap branchNames := by
  induction ts with
  | nil => simp [strandsAll]
  | cons t ts ih => rw [strandsAll, List.map_append, ih, List.flatMap_cons, branchNames_eq]

/-- **The names around a leaf**: those in its siblings stand next to its own. -/
theorem names_around (fs : List Frame) (d : Node) :
    ∃ left right, (plug fs (node d [])).branchNames = left ++ d.branch :: right ∧
    (siblings [] [] fs).1.flatMap branchNames <:+ left ∧ (siblings [] [] fs).2.flatMap branchNames <+: right := by
  rcases List.eq_nil_or_concat' fs with rfl | ⟨gs, f, rfl⟩
  · exact ⟨[], [], branchNames_leaf d, List.suffix_rfl, List.prefix_rfl⟩
  · obtain ⟨left, right, hstrands⟩ := strands_plug gs
    refine ⟨left.map (·.leaf.branch) ++ f.before.flatMap branchNames, f.after.flatMap branchNames ++
      right.map (·.leaf.branch), ?_⟩
    rw [siblings_concat]
    refine ⟨?_, List.suffix_append _ _, List.prefix_append _ _⟩
    rw [plug_append, branchNames_eq, hstrands, plug, plug, strands_node (by simp), strandsAll_append, strandsAll]
    simp [strands, ← names_strandsAll, Function.comp_def]

theorem place_right {fs : List Frame} {u v : ProofTree} (h : (siblings [] [] fs).2.head? = some v) :
    ∃ q, (plug fs u).place? (offset fs + size u) = some q ∧ q.tree = v := by
  rcases List.eq_nil_or_concat' fs with rfl | ⟨gs, ⟨d, before, after⟩, rfl⟩
  · cases h
  · rw [siblings_concat] at h
    obtain ⟨more, rfl⟩ := List.head?_eq_some_iff.1 h
    have hplace := place?_plug (gs ++ [⟨d, before ++ [u], more⟩]) v
    refine ⟨_, Eq.trans ?_ hplace, rfl⟩
    simp [plug_append, plug, offset_append, offset, sizeAll, Nat.add_assoc]

theorem place_left {fs : List Frame} {u v : ProofTree} (h : (siblings [] [] fs).1.getLast? = some v) :
    ∃ q, (plug fs u).place? (offset fs - size v) = some q ∧ q.tree = v := by
  rcases List.eq_nil_or_concat' fs with rfl | ⟨gs, ⟨d, before, after⟩, rfl⟩
  · cases h
  · rw [siblings_concat] at h
    obtain ⟨more, rfl⟩ := List.getLast?_eq_some_iff.1 h
    have hplace := place?_plug (gs ++ [⟨d, more, u :: after⟩]) v
    have hoffset : offset (gs ++ [⟨d, more ++ [v], after⟩]) - size v = offset (gs ++ [⟨d, more, u :: after⟩]) := by
      simp only [offset_append, offset, sizeAll_append, sizeAll]
      omega
    refine ⟨_, Eq.trans ?_ hplace, rfl⟩
    rw [hoffset]
    simp [plug_append, plug]

/-- the sibling on a side of a place -/
def Place.sibling? (q : Place) : Direction → Option ProofTree
  | .left => q.before.getLast?
  | .right => q.after.head?

/-- the place of what is plugged in -/
def placeOf (fs : List Frame) (u : ProofTree) : Place :=
  ⟨offset fs, trailFrom 0 fs, (siblings [] [] fs).1, u, (siblings [] [] fs).2⟩

/-- **What is found on a side** is the sibling there. -/
theorem neighbour_plug (fs : List Frame) (u : ProofTree) {direction : String} {side : Direction}
    (hside : Direction.ofText? direction = some side) : ∃ k, (plug fs u).neighbour (offset fs) direction = .ok k ∧
      (k.bind (plug fs u).place?).map (·.tree) = (placeOf fs u).sibling? side := by
  unfold neighbour
  rw [place?_plug]
  cases fs with
  | nil => cases side <;> exact ⟨none, rfl, rfl⟩
  | cons f fs =>
    simp only [trailFrom, List.isEmpty_cons, Bool.false_eq_true, if_false, hside]
    cases side with
    | left =>
      refine ⟨_, rfl, ?_⟩
      cases hbefore : (siblings [] [] (f :: fs)).1.getLast? with
      | none => simp [Place.sibling?, placeOf, hbefore]
      | some v =>
        obtain ⟨q, hq, rfl⟩ := place_left (u := u) hbefore
        simp [Place.sibling?, placeOf, hbefore, hq]
    | right =>
      refine ⟨_, rfl, ?_⟩
      cases hafter : (siblings [] [] (f :: fs)).2.head? with
      | none => simp [Place.sibling?, placeOf, List.head?_eq_none_iff.1 hafter]
      | some v =>
        obtain ⟨q, hq, rfl⟩ := place_right (u := u) hafter
        obtain ⟨more, hmore⟩ := List.head?_eq_some_iff.1 hafter
        simp [Place.sibling?, placeOf, hmore, hq]

/-- what is typed for a side -/
def Direction.text : Direction → String
  | .left => "left"
  | .right => "right"

/-! ## Names on either side -/

theorem branchNames_ne_nil (t : ProofTree) : t.branchNames ≠ [] := by
  rw [branchNames_eq]
  exact List.map_eq_nil_iff.not.2 (strands_ne_nil t)

/-- the first name in the trees on the right is the next one -/
theorem head?_eq_iff {ts : List ProofTree} {right : List String} (h : ts.flatMap branchNames <+: right) :
    right.head? = ts.head?.bind (·.branchNames.head?) ↔ (ts = [] → right = []) := by
  cases ts with
  | nil => simp
  | cons t ts =>
    obtain ⟨rest, rfl⟩ := h
    obtain ⟨b, bs, hbs⟩ := List.exists_cons_of_ne_nil (branchNames_ne_nil t)
    simp [hbs]

/-- the first name in the last tree on the left is the one before if it is the only one there -/
theorem getLast?_eq_iff {ts : List ProofTree} {left : List String} (h : ts.flatMap branchNames <:+ left)
    (hn : left.Nodup) :
    left.getLast? = ts.getLast?.bind (·.branchNames.head?) ↔
      (ts = [] → left = []) ∧ ∀ u ∈ ts.getLast?, u.branchNames.length = 1 := by
  rcases List.eq_nil_or_concat' ts with rfl | ⟨more, u, rfl⟩
  · simp
  · rw [List.flatMap_append, List.flatMap_singleton] at h
    obtain ⟨rest, rfl⟩ := (List.suffix_append _ _).trans h
    have hnodup := (List.nodup_append.1 hn).2.1
    obtain ⟨b, bs, hbs⟩ := List.exists_cons_of_ne_nil (branchNames_ne_nil u)
    rw [hbs] at hnodup
    rcases List.eq_nil_or_concat' bs with rfl | ⟨bs, c, rfl⟩
    · simp [hbs]
    · have hne : c ≠ b := by
        rintro rfl
        simp at hnodup
      simp [hbs, List.getLast?_append, List.getLast?_cons, hne]

end ProofTree

namespace Proof

open ProofTree

variable {p : Proof} {q : Place} {side : Direction}

/-! ## Going to a side -/

theorem placeOf_of_leaf {b : String} (h : p.leaf b = .ok q) :
    ∃ fs d, p.tree = plug fs (node d []) ∧ d.branch = b ∧ q = placeOf fs (node d []) := by
  obtain ⟨fs, d, ht, hb, -, hplace⟩ := place_of_leaf h
  rw [ht, place?_plug, Option.some.injEq] at hplace
  exact ⟨fs, d, ht, hb, hplace.symm⟩

/-- going to a side leads to the branch of that name, or nowhere -/
def Goes (p : Proof) (side : Direction) (there : Option String) : Prop :=
  exec (jump side.text) p = match there with
    | none => (.error (.refusal (.noNeighbour side.text)), p)
    | some b => (.ok (), { p with branch := b })

theorem Goes.unique {x y : Option String} (hx : p.Goes side x) (hy : p.Goes side y) : x = y := by
  have h := hx.symm.trans hy
  cases x <;> cases y <;> simp_all

theorem Goes.iff_eq {x y : Option String} (hx : p.Goes side x) : p.Goes side y ↔ y = x :=
  ⟨fun hy => hy.unique hx, fun h => h ▸ hx⟩

/-- **Going to a side** leads to the first branch in the sibling there. -/
theorem goes_sibling (hnamed : p.tree.Named) (hknown : p.branch ∈ knownNames) (hleaf : p.leaf p.branch = .ok q)
    (side : Direction) : p.Goes side ((q.sibling? side).bind (·.branchNames.head?)) := by
  obtain ⟨fs, d, ht, -, rfl⟩ := placeOf_of_leaf hleaf
  -- no branch is called by a side
  have hhere : Text.capitalize side.text ≠ p.branch := by
    intro heq
    rw [← heq] at hknown
    exact absurd hknown (by cases side <;> decide)
  have hup : Text.upper side.text = "LEFT" ∨ Text.upper side.text = "RIGHT" := by cases side <;> decide
  have hlower : Text.lower side.text = side.text := by cases side <;> decide
  obtain ⟨k, hk, hsibling⟩ := neighbour_plug fs (node d [])
    (show Direction.ofText? (Text.upper side.text) = some side by
    cases side <;> decide)
  rw [← ht] at hk hsibling
  rw [← hsibling]
  simp only [Goes, jump, exec_bind, exec_get]
  rw [if_neg hhere, if_pos hup]
  simp only [exec_bind, exec_lift, hleaf, placeOf, hk]
  cases hfound : k.bind p.tree.place? with
  | none =>
    rw [hlower]
    rfl
  | some n =>
    obtain ⟨i, -, hi⟩ := Option.bind_eq_some_iff.1 hfound
    obtain ⟨gs, hgs, -, -⟩ := exists_plug (List.mem_of_getElem? hi)
    rw [hgs] at hnamed
    simp only [Option.map_some, Option.bind_some, hnamed.of_plug.first]
    rfl

end Proof

/-! ## In a session -/

namespace Session

open Proof ProofTree

/-- **Going sideways.** Take any session that commands lead to, with a proof whose current branch is there. Going
to a side leads to the first branch in the sibling of the leaf on that side, or nowhere if there is none. The
branches in the siblings are next to the current one. So going to the right leads to the next branch, and nowhere
behind the last one, exactly if the leaf has a sibling on the right or is the last one. Going to the left leads to
the branch before, and nowhere in front of the first one, exactly if the leaf has a sibling with a single branch
on the left or is the first one. -/
theorem jump_sideways {speller : Speller} {s : Session} (hs : Reached speller False s) {p : Proof}
    (hp : s.proof = some p) {q : Place} (hleaf : p.leaf p.branch = .ok q) :
    ∃ left right, p.tree.branchNames = left ++ p.branch :: right ∧
      q.before.flatMap (·.branchNames) <:+ left ∧ q.after.flatMap (·.branchNames) <+: right ∧
      (∀ side, p.Goes side ((q.sibling? side).bind (·.branchNames.head?))) ∧
      (p.Goes .right right.head? ↔ (q.after = [] → right = [])) ∧
      (p.Goes .left left.getLast? ↔ (q.before = [] → left = []) ∧
        ∀ u ∈ q.before.getLast?, u.branchNames.length = 1) := by
  obtain ⟨e, -, root, name, hkept⟩ := hs.regular.proof p hp
  have hnamed : p.tree.Named := (named_unmarked p.tree).1 hkept.orderly.built.named
  have hnodup := hkept.orderly.names
  rw [← branchNames_eq] at hnodup
  obtain ⟨fs, d, ht, hb, rfl⟩ := placeOf_of_leaf hleaf
  obtain ⟨left, right, hnames, hbefore, hafter⟩ := names_around fs d
  rw [← ht, hb] at hnames
  have hknown : p.branch ∈ knownNames := by
    have hmem : p.branch ∈ p.tree.unmarked.branchNames := by
      rw [branchNames_unmarked, hnames]
      simp
    obtain ⟨u, hu, heq⟩ := mem_branchNames.1 hmem
    rw [← heq]
    exact hkept.orderly.built.known hkept.known u hu
  have hgoes := goes_sibling hnamed hknown hleaf
  rw [hnames] at hnodup
  refine ⟨left, right, hnames, hbefore, hafter, hgoes, ?_, ?_⟩
  · rw [(hgoes .right).iff_eq]
    exact head?_eq_iff hafter
  · rw [(hgoes .left).iff_eq]
    exact getLast?_eq_iff hbefore (List.nodup_append.1 hnodup).1

/-- a session where the first of two branches goes on below its leaf -/
def lengthened? : Option Session := fresh?.map fun s =>
  let use (command : String) (s : Session) : Session := (exec (Command.perform ⟨.use, .rest command⟩) s).2
  use "false imp 2 2" (use "false and 1 6" (exec (Command.perform ⟨.prove, .rest "(p -> q) and r"⟩) s).2)

/-- here going to the right leads nowhere, and yet there is a branch -/
theorem jump_sideways_lengthened : ∃ s p q, Reached .orderly False s ∧ s.proof = some p ∧ p.leaf p.branch = .ok q ∧
    p.branch = "Czerwona" ∧ p.tree.branchNames = ["Czerwona", "Zielona"] ∧ p.Goes .right none := by
  have hrun : (lengthened?.bind fun s => s.proof.bind fun p => (p.leaf p.branch).toOption.map fun q =>
      decide (p.branch = "Czerwona" ∧ p.tree.branchNames = ["Czerwona", "Zielona"] ∧ q.after.length = 0)) =
        some true := by
    decide +kernel
  simp only [Option.bind_eq_some_iff, Option.map_eq_some_iff, decide_eq_true_eq, List.length_eq_zero_iff] at hrun
  obtain ⟨s, hs, p, hp, q, hq, hbranch, hnames, hafter⟩ := hrun
  have hreached : Reached .orderly False s := by
    obtain ⟨s₀, hfresh, rfl⟩ := Option.map_eq_some_iff.1 hs
    exact .command _ (.command _ (.command _ (reached_fresh hfresh) False.elim) False.elim) False.elim
  have hleaf : p.leaf p.branch = .ok q := by
    cases hl : p.leaf p.branch <;> simp_all [Except.toOption]
  obtain ⟨left, right, -, -, -, hgoes, -⟩ := jump_sideways hreached hp hleaf
  have hright := hgoes .right
  rw [Place.sibling?, hafter] at hright
  exact ⟨s, p, q, hreached, hp, hleaf, hbranch, hnames, hright⟩

end Session

end TableauTutor
