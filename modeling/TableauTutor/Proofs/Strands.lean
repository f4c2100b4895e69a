import Mathlib.Data.List.Nodup
import TableauTutor.Proof.Basic

/-!
Proof trees seen from their leaves. A strand is a leaf with the nodes above it. Frames lead from the root of a tree to a
place in it; `plug` puts a tree at the end of frames, so that a change at a place is a change of what is plugged in.

- `exists_plug`, `place?_plug`, `change_plug`: places and changes in terms of frames.
- `strands_eq_leaves`, `strands_plug`: the strands of a tree, and those that a change at a place leaves as they are.
-/

namespace TableauTutor

namespace ProofTree

/-! ## Frames -/

/-- one step down in a tree: a node on the way, and the siblings on either side of what comes next -/
structure Frame where
  data : Node
  before : List ProofTree
  after : List ProofTree

/-- a tree put at the end of frames -/
def plug : List Frame → ProofTree → ProofTree
  | [], u => u
  | f :: fs, u => node f.data (f.before ++ plug fs u :: f.after)

theorem plug_append (fs gs : List Frame) (u : ProofTree) : plug (fs ++ gs) u = plug fs (plug gs u) := by
  induction fs with
  | nil => rfl
  | cons f fs ih => simp [plug, ih]

/-- position of what is plugged in -/
def offset : List Frame → Nat
  | [] => 0
  | f :: fs => 1 + sizeAll f.before + offset fs

/-- the siblings on either side of what is plugged in, given those of the tree -/
def siblings (before after : List ProofTree) : List Frame → List ProofTree × List ProofTree
  | [] => (before, after)
  | f :: fs => siblings f.before f.after fs

/-- the nodes on the way, with their positions counted from the given one -/
def trailFrom (k : Nat) : List Frame → List (Node × Nat)
  | [] => []
  | f :: fs => (f.data, k) :: trailFrom (k + 1 + sizeAll f.before) fs

theorem trailFrom_nodes (k : Nat) (fs : List Frame) : (trailFrom k fs).map (·.1) = fs.map (·.data) := by
  induction fs generalizing k with
  | nil => rfl
  | cons f fs ih => simp [trailFrom, ih]

@[simp] theorem sizeAll_append (ts us : List ProofTree) : sizeAll (ts ++ us) = sizeAll ts + sizeAll us := by
  induction ts with
  | nil => simp [sizeAll]
  | cons t ts ih => simp [sizeAll, ih, Nat.add_assoc]

theorem size_pos (t : ProofTree) : 0 < size t := by
  cases t
  simp only [size]
  omega

theorem offset_add_size_le (fs : List Frame) (u : ProofTree) : offset fs + size u ≤ size (plug fs u) := by
  induction fs with
  | nil => simp [offset, plug]
  | cons f fs ih =>
    simp only [offset, plug, size, sizeAll_append, sizeAll]
    omega

/-! ## Changes -/

theorem changeAll_append (g : ProofTree → ProofTree) (ts us : List ProofTree) (k : Nat) :
    changeAll g (sizeAll ts + k) (ts ++ us) = ts ++ changeAll g k us := by
  induction ts with
  | nil => simp [sizeAll]
  | cons t ts ih =>
    have hlt : ¬ size t + sizeAll ts + k < size t := by omega
    simp only [List.cons_append, sizeAll, changeAll, hlt, if_false]
    rw [show size t + sizeAll ts + k - size t = sizeAll ts + k by omega, ih]

/-- **A change at a place** is a change of what is plugged in there. -/
theorem change_plug (g : ProofTree → ProofTree) (fs : List Frame) (u : ProofTree) :
    change g (offset fs) (plug fs u) = plug fs (g u) := by
  induction fs with
  | nil =>
    cases u
    simp [offset, plug, change]
  | cons f fs ih =>
    have hlt : offset fs < size (plug fs u) := by
      have := offset_add_size_le fs u
      have := size_pos u
      omega
    have hne : offset (f :: fs) ≠ 0 := by
      simp only [offset]
      omega
    rw [plug, change, if_neg hne, show offset (f :: fs) - 1 = sizeAll f.before + offset fs by simp only [offset]; omega,
      changeAll_append, changeAll, if_pos hlt, ih, plug]

/-! ## Places -/

mutual
theorem length_placesFrom (k : Nat) (above : List (Node × Nat)) (before : List ProofTree) (t : ProofTree)
    (after : List ProofTree) : (placesFrom k above before t after).length = size t := by
  cases t with
  | node d ts =>
    simp only [placesFrom, List.length_cons, size, length_placesAll]
    omega

theorem length_placesAll (k : Nat) (above : List (Node × Nat)) (before ts : List ProofTree) :
    (placesAll k above before ts).length = sizeAll ts := by
  cases ts with
  | nil => simp [placesAll, sizeAll]
  | cons t ts => simp [placesAll, sizeAll, length_placesFrom, length_placesAll]
end

theorem placesAll_mid (k : Nat) (above : List (Node × Nat)) (before ts : List ProofTree) (t : ProofTree)
    (us : List ProofTree) :
    ∃ ps qs, ps.length = sizeAll ts ∧
      placesAll k above before (ts ++ t :: us) = ps ++ placesFrom (k + sizeAll ts) above (before ++ ts) t us ++ qs := by
  induction ts generalizing k before with
  | nil => exact ⟨[], placesAll (k + size t) above (before ++ [t]) us, rfl, by simp [placesAll, sizeAll]⟩
  | cons t' ts ih =>
    obtain ⟨ps, qs, hlen, heq⟩ := ih (k + size t') (before ++ [t'])
    refine ⟨placesFrom k above before t' (ts ++ t :: us) ++ ps, qs, ?_, ?_⟩
    · simp [length_placesFrom, hlen, sizeAll]
    · simp [placesAll, heq, sizeAll, Nat.add_assoc]

/-- the places of what is plugged in among all places -/
theorem placesFrom_plug (k : Nat) (above : List (Node × Nat)) (before : List ProofTree) (fs : List Frame)
    (u : ProofTree) (after : List ProofTree) :
    ∃ ps qs, ps.length = offset fs ∧ placesFrom k above before (plug fs u) after =
      ps ++ placesFrom (k + offset fs) (above ++ trailFrom k fs) (siblings before after fs).1 u
        (siblings before after fs).2 ++ qs := by
  induction fs generalizing k above before after with
  | nil => exact ⟨[], [], rfl, by simp [plug, offset, trailFrom, siblings]⟩
  | cons f fs ih =>
    obtain ⟨ps, qs, hlen, heq⟩ := placesAll_mid (k + 1) (above ++ [(f.data, k)]) [] f.before (plug fs u) f.after
    obtain ⟨ps', qs', hlen', heq'⟩ := ih (k + 1 + sizeAll f.before) (above ++ [(f.data, k)]) f.before f.after
    refine ⟨⟨k, above, before, plug (f :: fs) u, after⟩ :: ps ++ ps', qs' ++ qs, ?_, ?_⟩
    · simp only [List.length_append, List.length_cons, hlen, hlen', offset]
      omega
    · rw [plug, placesFrom, heq, List.nil_append, heq']
      simp [offset, trailFrom, siblings, Nat.add_assoc]

/-- **The place of what is plugged in.** -/
theorem place?_plug (fs : List Frame) (u : ProofTree) :
    (plug fs u).place? (offset fs) =
    some ⟨offset fs, trailFrom 0 fs, (siblings [] [] fs).1, u, (siblings [] [] fs).2⟩ := by
  obtain ⟨ps, qs, hlen, heq⟩ := placesFrom_plug 0 [] [] fs u []
  cases u with
  | node d ts =>
    rw [place?, places, heq, List.append_assoc, ← hlen, List.getElem?_append_right (Nat.le_refl _),
      Nat.sub_self, placesFrom]
    simp [hlen]

mutual
theorem exists_plug_from {k : Nat} {above : List (Node × Nat)} {before : List ProofTree} {t : ProofTree}
    {after : List ProofTree} {q : Place} (h : q ∈ placesFrom k above before t after) :
    ∃ fs, t = plug fs q.tree ∧ q.position = k + offset fs ∧ q.above = above ++ trailFrom k fs := by
  cases t with
  | node d ts =>
    rw [placesFrom] at h
    rcases List.mem_cons.1 h with rfl | h
    · exact ⟨[], rfl, rfl, by simp [trailFrom]⟩
    · obtain ⟨l, t', r, fs, rfl, rfl, hpos, habove⟩ := exists_plug_all h
      refine ⟨⟨d, l, r⟩ :: fs, rfl, ?_, ?_⟩
      · simp only [hpos, offset]
        omega
      · simp [habove, trailFrom]

theorem exists_plug_all {k : Nat} {above : List (Node × Nat)} {before ts : List ProofTree} {q : Place}
    (h : q ∈ placesAll k above before ts) :
    ∃ l t r fs, ts = l ++ t :: r ∧ t = plug fs q.tree ∧ q.position = k + sizeAll l + offset fs ∧
      q.above = above ++ trailFrom (k + sizeAll l) fs := by
  cases ts with
  | nil => simp [placesAll] at h
  | cons t ts =>
    rw [placesAll] at h
    rcases List.mem_append.1 h with h | h
    · obtain ⟨fs, ht, hpos, habove⟩ := exists_plug_from h
      exact ⟨[], t, ts, fs, rfl, ht, by simpa [sizeAll] using hpos, by simpa [sizeAll] using habove⟩
    · obtain ⟨l, t', r, fs, rfl, ht', hpos, habove⟩ := exists_plug_all h
      refine ⟨t :: l, t', r, fs, rfl, ht', ?_, ?_⟩
      · simp only [hpos, sizeAll]
        omega
      · rw [habove, sizeAll, Nat.add_assoc]
end

/-- **Every place** is that of something plugged in at the end of frames. -/
theorem exists_plug {t : ProofTree} {q : Place} (h : q ∈ t.places) :
    ∃ fs, t = plug fs q.tree ∧ q.position = offset fs ∧ q.above = trailFrom 0 fs := by
  obtain ⟨fs, ht, hpos, habove⟩ := exists_plug_from h
  exact ⟨fs, ht, by simpa using hpos, by simpa using habove⟩

/-! ## Strands -/

/-- a leaf with the nodes above it -/
structure Strand where
  above : List Node
  leaf : Node
deriving DecidableEq, Repr

namespace Strand

def path (s : Strand) : List Node := s.above ++ [s.leaf]

def sentences (s : Strand) : List Sentence := s.path.map (·.sentence)

/-- the strand with more nodes on top -/
def below (ns : List Node) (s : Strand) : Strand := ⟨ns ++ s.above, s.leaf⟩

@[simp] theorem below_leaf (ns : List Node) (s : Strand) : (s.below ns).leaf = s.leaf := rfl

@[simp] theorem below_nil : below [] = id := rfl

@[simp] theorem below_below (ms ns : List Node) (s : Strand) : (s.below ns).below ms = s.below (ms ++ ns) := by
  simp [below]

@[simp] theorem path_below (ns : List Node) (s : Strand) : (s.below ns).path = ns ++ s.path := by simp [below, path]

end Strand

mutual
/-- the strands of a tree, from left to right -/
def strands : ProofTree → List Strand
  | node d [] => [⟨[], d⟩]
  | node d (t :: ts) => (strands t ++ strandsAll ts).map (Strand.below [d])

def strandsAll : List ProofTree → List Strand
  | [] => []
  | t :: ts => strands t ++ strandsAll ts
end

theorem strands_node {ts : List ProofTree} (h : ts ≠ []) (d : Node) :
    strands (node d ts) = (strandsAll ts).map (Strand.below [d]) := by
  cases ts with
  | nil => exact absurd rfl h
  | cons t ts => rw [strands, strandsAll]

theorem strandsAll_append (ts us : List ProofTree) : strandsAll (ts ++ us) = strandsAll ts ++ strandsAll us := by
  induction ts with
  | nil => simp [strandsAll]
  | cons t ts ih => simp [strandsAll, ih]

/-- **What a change at a place leaves as it is**: the strands on either side of it, and the nodes above it. -/
theorem strands_plug (fs : List Frame) :
    ∃ left right, ∀ u, strands (plug fs u) = left ++ (strands u).map (Strand.below (fs.map (·.data))) ++ right := by
  induction fs with
  | nil => exact ⟨[], [], fun u => by simp [plug]⟩
  | cons f fs ih =>
    obtain ⟨left, right, h⟩ := ih
    refine ⟨(strandsAll f.before ++ left).map (Strand.below [f.data]),
      (right ++ strandsAll f.after).map (Strand.below [f.data]), fun u => ?_⟩
    rw [plug, strands_node (by simp), strandsAll_append, strandsAll, h]
    simp [Function.comp_def]

/-- the strand that ends at a place -/
def Place.strand (q : Place) : Strand := ⟨q.above.map (·.1), q.data⟩

theorem Place.path_eq (q : Place) : q.path = q.strand.path := by
  simp [Place.path, Place.trail, Place.strand, Strand.path]

mutual
theorem strands_placesFrom (k : Nat) (above : List (Node × Nat)) (before : List ProofTree) (t : ProofTree)
    (after : List ProofTree) :
    ((placesFrom k above before t after).filter (·.isLeaf)).map Place.strand =
      (strands t).map (Strand.below (above.map (·.1))) := by
  cases t with
  | node d ts =>
    cases ts with
    | nil =>
      simp [placesFrom, placesAll, strands, Place.isLeaf, isLeaf, children, Place.strand, Place.data,
        data, Strand.below]
    | cons t ts =>
      have hleaf : Place.isLeaf ⟨k, above, before, node d (t :: ts), after⟩ = false := rfl
      rw [placesFrom, List.filter_cons, if_neg (by simp [hleaf]), strands_placesAll, strands_node (by simp)]
      simp [Function.comp_def]

theorem strands_placesAll (k : Nat) (above : List (Node × Nat)) (before ts : List ProofTree) :
    ((placesAll k above before ts).filter (·.isLeaf)).map Place.strand =
      (strandsAll ts).map (Strand.below (above.map (·.1))) := by
  cases ts with
  | nil => simp [placesAll, strandsAll]
  | cons t ts => simp [placesAll, strandsAll, strands_placesFrom, strands_placesAll]
end

/-- **The strands of a tree** end at its leaves. -/
theorem strands_eq_leaves (t : ProofTree) : t.leaves.map Place.strand = strands t := by
  have := strands_placesFrom 0 [] [] t []
  simpa [leaves, places] using this

theorem leaves_map {β : Type} (t : ProofTree) (f : Node → β) :
    t.leaves.map (fun q => f q.data) = (strands t).map fun s => f s.leaf := by
  rw [← strands_eq_leaves, List.map_map]
  rfl

theorem branchNames_eq (t : ProofTree) : t.branchNames = (strands t).map (·.leaf.branch) := leaves_map t _

theorem isClosed_iff (t : ProofTree) : t.isClosed = true ↔ ∀ s ∈ strands t, s.leaf.closed.isSome := by
  rw [isClosed, List.all_eq_true, ← strands_eq_leaves, List.forall_mem_map]
  rfl

theorem isSuccessful_iff (t : ProofTree) :
    t.isSuccessful = true ↔ ∀ s ∈ strands t, s.leaf.closed.map (·.success) = some true := by
  rw [isSuccessful, List.all_eq_true, ← strands_eq_leaves, List.forall_mem_map]
  simp [Place.strand]

/-- every strand leads to a leaf that is plugged in -/
theorem exists_frames {t : ProofTree} {s : Strand} (h : s ∈ strands t) :
    ∃ fs, t = plug fs (node s.leaf []) ∧ fs.map (·.data) = s.above := by
  rw [← strands_eq_leaves] at h
  obtain ⟨q, hq, rfl⟩ := List.mem_map.1 h
  obtain ⟨hmem, hleaf⟩ := List.mem_filter.1 hq
  obtain ⟨fs, ht, -, habove⟩ := exists_plug hmem
  refine ⟨fs, ?_, by rw [Place.strand, habove, trailFrom_nodes]⟩
  rw [ht]
  congr 1
  rcases hq : q.tree with ⟨d, ts⟩
  simp_all [Place.isLeaf, isLeaf, children, Place.strand, Place.data, data]

theorem strand_mem_plug (fs : List Frame) (d : Node) :
    (⟨fs.map (·.data), d⟩ : Strand) ∈ strands (plug fs (node d [])) := by
  obtain ⟨left, right, h⟩ := strands_plug fs
  simp [h, strands, Strand.below]

theorem strands_ne_nil (t : ProofTree) : strands t ≠ [] := by
  match t with
  | node d [] => simp [strands]
  | node d (t :: ts) => simp [strands, strands_ne_nil t]

theorem strandsAll_ne_nil {ts : List ProofTree} (h : ts ≠ []) : strandsAll ts ≠ [] := by
  obtain ⟨t, ts, rfl⟩ := List.exists_cons_of_ne_nil h
  simp [strandsAll, strands_ne_nil t]

end ProofTree

/-! ## Looking up a leaf -/

namespace Proof

open ProofTree

variable {p : Proof} {b : String}

/-- a leaf that is found by the name of its branch is the place of something plugged in -/
theorem place_of_leaf {q : Place} (h : p.leaf b = .ok q) : ∃ fs d, p.tree = plug fs (node d []) ∧ d.branch = b ∧
    p.tree.leaf? b = some (offset fs) ∧ p.tree.place? (offset fs) = some q := by
  unfold leaf at h
  split at h
  · rename_i q' hq
    obtain rfl : q' = q := Except.ok.inj h
    obtain ⟨k, hk, hplace⟩ := Option.bind_eq_some_iff.1 hq
    obtain ⟨r, hr, rfl⟩ := Option.map_eq_some_iff.1 hk
    obtain ⟨hmem, hleaf⟩ := List.mem_filter.1 (List.mem_of_find?_eq_some hr)
    obtain ⟨fs, ht, hpos, -⟩ := exists_plug hmem
    have htree : r.tree = node r.data [] := by
      rcases hr : r.tree with ⟨d, ts⟩
      simp_all [Place.isLeaf, isLeaf, children, Place.data, data]
    exact ⟨fs, r.data, by rw [← htree, ← ht], by simpa using List.find?_some hr, hpos ▸ hk, hpos ▸ hplace⟩
  · cases h

/-- **A leaf that is found** by the name of its branch: where it is plugged in, and what is known of its place. -/
theorem leaf_eq_ok {q : Place} (h : p.leaf b = .ok q) :
    ∃ fs d, p.tree = plug fs (node d []) ∧ d.branch = b ∧ q.position = offset fs ∧ q.strand = ⟨fs.map (·.data), d⟩ := by
  obtain ⟨fs, d, ht, hb, -, hplace⟩ := place_of_leaf h
  rw [ht, place?_plug, Option.some.injEq] at hplace
  refine ⟨fs, d, ht, hb, by rw [← hplace], ?_⟩
  rw [← hplace, Place.strand, trailFrom_nodes]
  rfl

theorem exists_leaf (h : ∃ s ∈ strands p.tree, s.leaf.branch = b) : ∃ q, p.leaf b = .ok q := by
  obtain ⟨s, hs, hb⟩ := h
  rw [← strands_eq_leaves] at hs
  obtain ⟨r, hr, rfl⟩ := List.mem_map.1 hs
  have hfind : (p.tree.leaves.find? (·.data.branch == b)).isSome := by
    rw [List.find?_isSome]
    exact ⟨r, hr, beq_iff_eq.2 hb⟩
  obtain ⟨q, hq⟩ := Option.isSome_iff_exists.1 hfind
  obtain ⟨hmem, -⟩ := List.mem_filter.1 (List.mem_of_find?_eq_some hq)
  obtain ⟨fs, ht, hpos, -⟩ := exists_plug hmem
  have hplug := place?_plug fs q.tree
  rw [← ht, ← hpos] at hplug
  exact ⟨_, by simp only [leaf, leaf?, hq, Option.map_some, Option.bind_some, hplug]; rfl⟩

theorem strand_unique (h : ((strands p.tree).map (·.leaf.branch)).Nodup) {s t : Strand} (hs : s ∈ strands p.tree)
    (ht : t ∈ strands p.tree) (heq : s.leaf.branch = t.leaf.branch) : s = t :=
  List.inj_on_of_nodup_map h hs ht heq

/-- **Looking up a branch** by the name of a leaf, where names differ, finds the leaf. -/
theorem leaf_plug (hn : ((strands p.tree).map (·.leaf.branch)).Nodup) {fs : List Frame} {d : Node}
    (ht : p.tree = plug fs (node d [])) :
    ∃ q, p.leaf d.branch = .ok q ∧ q.position = offset fs ∧ q.strand = ⟨fs.map (·.data), d⟩ := by
  have hplace := place?_plug fs (node d [])
  rw [← ht] at hplace
  generalize hq : (⟨offset fs, trailFrom 0 fs, _, node d [], _⟩ : Place) = q at hplace
  have hmem : q ∈ p.tree.leaves := by
    refine List.mem_filter.2 ⟨List.mem_of_getElem? hplace, ?_⟩
    simp [← hq, Place.isLeaf, isLeaf, children]
  have hdata : q.data = d := by rw [← hq]; rfl
  have hfind : (p.tree.leaves.find? (·.data.branch == d.branch)).isSome := by
    rw [List.find?_isSome]
    exact ⟨q, hmem, by rw [hdata]; exact beq_self_eq_true _⟩
  obtain ⟨r, hr⟩ := Option.isSome_iff_exists.1 hfind
  have hbranch : r.data.branch = q.data.branch := by
    rw [hdata]
    simpa using List.find?_some hr
  -- leaves of the same name are at the same place
  have hnames : (p.tree.leaves.map fun q => q.data.branch).Nodup := by rwa [leaves_map p.tree (·.branch)]
  obtain rfl := List.inj_on_of_nodup_map hnames (List.mem_of_find?_eq_some hr) hmem hbranch
  have hpos : r.position = offset fs := by rw [← hq]
  refine ⟨r, ?_, hpos, ?_⟩
  · simp only [leaf, leaf?, hr, Option.map_some, Option.bind_some, hpos, hplace]
    rfl
  · rw [Place.strand, hdata, ← hq, trailFrom_nodes]

end Proof

end TableauTutor
