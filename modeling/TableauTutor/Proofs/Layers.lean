import TableauTutor.Proofs.Growth

/-!
How a proof tree grows in layers. Every move hangs nodes of one new layer below a leaf, so that the tree after the first
moves is what is left when the later layers are taken away. Marks of closings are put on leaves at any time and play no
part in this: trees are compared without them.

- `Grows.prune`: growth is undone by taking its layer away.
- `Built.prune`: a tree built by moves, with layers taken away, is built by the moves of the other layers.
-/

namespace TableauTutor

namespace ProofTree

/-! ## Nodes on strands -/

theorem path_eq_cons {t : ProofTree} {s : Strand} (h : s ∈ strands t) : ∃ ns, s.path = t.data :: ns := by
  match t with
  | node d [] =>
    obtain rfl : s = ⟨[], d⟩ := by simpa [strands] using h
    exact ⟨[], rfl⟩
  | node d (t :: ts) =>
    rw [strands_node (by simp)] at h
    obtain ⟨u, -, rfl⟩ := List.mem_map.1 h
    exact ⟨u.path, Strand.path_below [d] u⟩

theorem data_mem_path {t : ProofTree} {s : Strand} (h : s ∈ strands t) : t.data ∈ s.path := by
  obtain ⟨ns, hpath⟩ := path_eq_cons h
  exact hpath ▸ List.mem_cons_self

theorem leaf_mem_path (s : Strand) : s.leaf ∈ s.path := by simp [Strand.path]

theorem mem_nodes {t : ProofTree} {n : Node} : n ∈ t.nodes ↔ ∃ s ∈ strands t, n ∈ s.path := by
  constructor
  · intro h
    obtain ⟨q, hq, rfl⟩ := List.mem_map.1 h
    obtain ⟨fs, ht, -, -⟩ := exists_plug hq
    obtain ⟨left, right, hstrands⟩ := strands_plug fs
    obtain ⟨s, hs⟩ := List.exists_mem_of_ne_nil _ (strands_ne_nil q.tree)
    refine ⟨s.below (fs.map (·.data)), ?_, ?_⟩
    · rw [ht, hstrands]
      simp only [List.mem_append, List.mem_map]
      exact .inl (.inr ⟨s, hs, rfl⟩)
    · rw [Strand.path_below]
      exact List.mem_append_right _ (data_mem_path hs)
  · rintro ⟨s, hs, hn⟩
    obtain ⟨fs, ht, habove⟩ := exists_frames hs
    -- the frames up to the node lead to a place with the node
    obtain ⟨gs, u, hplug, rfl⟩ : ∃ gs u, t = plug gs u ∧ u.data = n := by
      rcases List.mem_append.1 hn with hn | hn
      · rw [← habove] at hn
        obtain ⟨f, hf, rfl⟩ := List.mem_map.1 hn
        obtain ⟨gs, hs, rfl⟩ := List.append_of_mem hf
        exact ⟨gs, plug (f :: hs) (node s.leaf []), by rw [ht, plug_append], rfl⟩
      · exact ⟨fs, node s.leaf [], ht, (List.mem_singleton.1 hn).symm⟩
    have hplace := place?_plug gs u
    rw [← hplug] at hplace
    exact List.mem_map.2 ⟨_, List.mem_of_getElem? hplace, rfl⟩

theorem layer_lt_nextLayer {t : ProofTree} {s : Strand} (h : s ∈ strands t) : s.leaf.layer < t.nextLayer := by
  have hmem : s.leaf.layer ∈ t.leaves.map (·.data.layer) := by
    rw [leaves_map t (·.layer)]
    exact List.mem_map_of_mem h
  obtain ⟨m, hm⟩ := Option.isSome_iff_exists.1 (List.isSome_max?_of_mem hmem)
  have hle := (List.max?_eq_some_iff.1 hm).2 _ hmem
  rw [nextLayer, hm, Option.getD_some]
  omega

/-! ## Taking layers away -/

section Prune

variable (k : Int)

theorem pruneAll_append (ts us : List ProofTree) : pruneAll k (ts ++ us) = pruneAll k ts ++ pruneAll k us := by
  induction ts with
  | nil => rfl
  | cons t ts ih =>
    simp only [List.cons_append, pruneAll, ih]
    split <;> rfl

theorem prune_data (t : ProofTree) : (prune k t).data = t.data := by
  cases t
  rfl

variable {k}

theorem prune_plug_congr {u v : ProofTree} (fs : List Frame) (h : prune k u = prune k v)
    (hl : u.data.layer = v.data.layer) : prune k (plug fs u) = prune k (plug fs v) := by
  induction fs with
  | nil => exact h
  | cons f fs ih =>
    have hlayer : (plug fs u).data.layer = (plug fs v).data.layer := by
      cases fs with
      | nil => exact hl
      | cons f fs => rfl
    simp only [plug, prune, pruneAll_append, pruneAll, ih, hlayer]

theorem prune_plug_removed {u v : ProofTree} {fs : List Frame} (hfs : fs ≠ []) (hu : k ≤ u.data.layer)
    (hv : k ≤ v.data.layer) : prune k (plug fs u) = prune k (plug fs v) := by
  obtain ⟨gs, f, rfl⟩ : ∃ gs f, fs = gs ++ [f] := ⟨_, _, (List.dropLast_concat_getLast hfs).symm⟩
  rw [plug_append, plug_append]
  refine prune_plug_congr gs ?_ rfl
  have hremoved {w : ProofTree} (hw : k ≤ w.data.layer) : pruneAll k (w :: f.after) = pruneAll k f.after := by
    rw [pruneAll, if_neg (by omega)]
  simp only [plug, prune, pruneAll_append, hremoved hu, hremoved hv]

theorem pruneAll_eq_nil {ts : List ProofTree} (h : ∀ s ∈ strandsAll ts, ∀ n ∈ s.path, k ≤ n.layer) :
    pruneAll k ts = [] := by
  induction ts with
  | nil => rfl
  | cons t ts ih =>
    have hrest : ∀ s ∈ strandsAll ts, ∀ n ∈ s.path, k ≤ n.layer := fun s hs =>
      h s (by rw [strandsAll]; exact List.mem_append_right _ hs)
    obtain ⟨s, hs⟩ := List.exists_mem_of_ne_nil _ (strands_ne_nil t)
    have ht : k ≤ t.data.layer := h s (by rw [strandsAll]; exact List.mem_append_left _ hs) _ (data_mem_path hs)
    rw [pruneAll, if_neg (by omega), ih hrest]

mutual
theorem prune_eq_self {t : ProofTree} (h : ∀ s ∈ strands t, ∀ n ∈ s.path, n.layer < k) : prune k t = t := by
  match t with
  | node d [] => rfl
  | node d (t :: ts) =>
    rw [prune, pruneAll_eq_self]
    intro s hs n hn
    refine h (s.below [d]) ?_ n (by rw [Strand.path_below]; exact List.mem_append_right _ hn)
    rw [strands_node (by simp)]
    exact List.mem_map_of_mem hs

theorem pruneAll_eq_self {ts : List ProofTree} (h : ∀ s ∈ strandsAll ts, ∀ n ∈ s.path, n.layer < k) :
    pruneAll k ts = ts := by
  match ts with
  | [] => rfl
  | t :: ts =>
    simp only [strandsAll, List.mem_append] at h
    obtain ⟨s, hs⟩ := List.exists_mem_of_ne_nil _ (strands_ne_nil t)
    have ht : t.data.layer < k := h s (.inl hs) _ (data_mem_path hs)
    rw [pruneAll, if_pos ht, prune_eq_self fun s hs => h s (.inl hs), pruneAll_eq_self fun s hs => h s (.inr hs)]
end

mutual
/-- the strands of a pruned tree are beginnings of those of the tree -/
theorem exists_strand_of_prune {t : ProofTree} {s : Strand} (h : s ∈ strands (prune k t)) :
    ∃ u ∈ strands t, s.path <+: u.path := by
  match t with
  | node d ts =>
    rw [prune] at h
    by_cases hnil : pruneAll k ts = []
    · rw [hnil] at h
      obtain rfl : s = ⟨[], d⟩ := by simpa [strands] using h
      obtain ⟨u, hu⟩ := List.exists_mem_of_ne_nil _ (strands_ne_nil (node d ts))
      refine ⟨u, hu, ?_⟩
      cases ts with
      | nil =>
        obtain rfl : u = ⟨[], d⟩ := by simpa [strands] using hu
        exact List.prefix_rfl
      | cons t ts =>
        rw [strands_node (by simp)] at hu
        obtain ⟨v, -, rfl⟩ := List.mem_map.1 hu
        rw [Strand.path_below]
        exact List.prefix_append [d] v.path
    · rw [strands_node hnil] at h
      obtain ⟨v, hv, rfl⟩ := List.mem_map.1 h
      obtain ⟨u, hu, hbefore⟩ := exists_strand_of_pruneAll hv
      have hts : ts ≠ [] := by
        rintro rfl
        exact hnil rfl
      refine ⟨u.below [d], by rw [strands_node hts]; exact List.mem_map_of_mem hu, ?_⟩
      rw [Strand.path_below, Strand.path_below]
      exact (List.prefix_append_right_inj [d]).2 hbefore

theorem exists_strand_of_pruneAll {ts : List ProofTree} {s : Strand} (h : s ∈ strandsAll (pruneAll k ts)) :
    ∃ u ∈ strandsAll ts, s.path <+: u.path := by
  match ts with
  | [] => simp [pruneAll, strandsAll] at h
  | t :: ts =>
    have hrest (h : s ∈ strandsAll (pruneAll k ts)) : ∃ u ∈ strandsAll (t :: ts), s.path <+: u.path := by
      obtain ⟨u, hu, hbefore⟩ := exists_strand_of_pruneAll h
      exact ⟨u, by rw [strandsAll]; exact List.mem_append_right _ hu, hbefore⟩
    rw [pruneAll] at h
    split at h
    · rw [strandsAll] at h
      rcases List.mem_append.1 h with h | h
      · obtain ⟨u, hu, hbefore⟩ := exists_strand_of_prune h
        exact ⟨u, by rw [strandsAll]; exact List.mem_append_left _ hu, hbefore⟩
      · exact hrest h
    · exact hrest h
end

end Prune

/-! ## Growth in the next layer -/

/-- all names that a branch can have -/
def knownNames : List String := Colour.table.map (·.name) ++ plants

theorem branchNames_subset (level : Int) (used : List String) : TableauTutor.branchNames level used ⊆ knownNames := by
  have hsub : ((Colour.upTo level).map (·.name) ++ plants).Sublist knownNames :=
    (List.filter_sublist.map _).append_right _
  exact List.Subset.trans (fun _ h => (List.mem_filter.1 h).1) hsub.subset

/-- trees that can be hung below the leaf `d` of a tree: all their nodes are in the next layer and named as the leaf
below them is, the first of their leaves keeps the name of the branch, and the names of the others are new -/
structure Offshoot (t : ProofTree) (d : Node) (ts : List ProofTree) : Prop where
  layer : ∀ s ∈ strandsAll ts, ∀ n ∈ s.path, n.layer = t.nextLayer
  first : ((strandsAll ts).map (·.leaf.branch)).head? = some d.branch
  nodup : ((strandsAll ts).map (·.leaf.branch)).Nodup
  fresh : ∀ s ∈ strandsAll ts, s.leaf.branch = d.branch ∨ s.leaf.branch ∉ t.branchNames ∧ s.leaf.branch ∈ knownNames
  named : ∀ s ∈ strandsAll ts, ∀ n ∈ s.path, n.branch = s.leaf.branch

/-- a tree with trees hung below one of its leaves -/
def Grows (t t' : ProofTree) : Prop :=
  ∃ fs d ts, t = plug fs (node d []) ∧ t' = plug fs (node d ts) ∧ Offshoot t d ts

theorem Offshoot.own {t : ProofTree} {d : Node} {ts : List ProofTree} (h : Offshoot t d ts) :
    ∃ s ∈ strandsAll ts, s.leaf.branch = d.branch :=
  List.mem_map.1 (List.mem_of_head? h.first)

theorem Offshoot.ne_nil {t : ProofTree} {d : Node} {ts : List ProofTree} (h : Offshoot t d ts) : ts ≠ [] := by
  rintro rfl
  obtain ⟨s, hs, -⟩ := h.own
  simp [strandsAll] at hs

namespace Grows

variable {t t' : ProofTree} {k : Int}

/-- the strands of a grown tree: those of the tree but one, and longer ones for it -/
theorem strands_eq (h : Grows t t') : ∃ left right s news, strands t = left ++ s :: right ∧ strands t' = left ++
    news ++ right ∧
    (∀ u ∈ news, ∃ ns, u.path = s.path ++ ns ∧ ∀ n ∈ ns, n.layer = t.nextLayer) ∧
    (∃ u ∈ news, u.leaf.branch = s.leaf.branch) ∧
    (∀ u ∈ news, u.leaf.layer = t.nextLayer) ∧ (news.map (·.leaf.branch)).Nodup ∧
    ∀ u ∈ news, u.leaf.branch = s.leaf.branch ∨ u.leaf.branch ∉ t.branchNames ∧ u.leaf.branch ∈ knownNames := by
  obtain ⟨fs, d, ts, rfl, rfl, hoff⟩ := h
  obtain ⟨left, right, hold, hnew⟩ := strands_grown fs d hoff.ne_nil
  refine ⟨left, right, _, _, hold, hnew, ?_, ?_, ?_, ?_, ?_⟩
  · intro u hu
    obtain ⟨v, hv, rfl⟩ := List.mem_map.1 hu
    exact ⟨v.path, Strand.path_below _ v, hoff.layer v hv⟩
  · obtain ⟨v, hv, hbranch⟩ := hoff.own
    exact ⟨_, List.mem_map_of_mem hv, hbranch⟩
  · intro u hu
    obtain ⟨v, hv, rfl⟩ := List.mem_map.1 hu
    exact hoff.layer v hv _ (leaf_mem_path v)
  · simpa [Function.comp_def] using hoff.nodup
  · intro u hu
    obtain ⟨v, hv, rfl⟩ := List.mem_map.1 hu
    exact hoff.fresh v hv

theorem nextLayer_lt (h : Grows t t') : t.nextLayer < t'.nextLayer := by
  obtain ⟨left, right, s, news, -, hnew, -, ⟨u, hu, -⟩, hlayer, -⟩ := h.strands_eq
  rw [← hlayer u hu]
  exact layer_lt_nextLayer (by rw [hnew]; simp [hu])

/-- **Growth is undone** by taking its layer away. -/
theorem prune (h : Grows t t') (hk : k ≤ t.nextLayer) : prune k t' = prune k t := by
  obtain ⟨fs, d, ts, rfl, rfl, hoff⟩ := h
  refine prune_plug_congr fs ?_ rfl
  have hnil : pruneAll k ts = [] := pruneAll_eq_nil fun s hs n hn => by rw [hoff.layer s hs n hn]; exact hk
  rw [ProofTree.prune, hnil]
  rfl

theorem node_cases (h : Grows t t') {s : Strand} (hs : s ∈ strands t') {n : Node} (hn : n ∈ s.path) :
    (∃ u ∈ strands t, n ∈ u.path) ∨ n.layer = t.nextLayer := by
  obtain ⟨left, right, u, news, hold, hnew, hpath, -⟩ := h.strands_eq
  rw [hnew, List.mem_append, List.mem_append] at hs
  rcases hs with (hs | hs) | hs
  · exact .inl ⟨s, by simp [hold, hs], hn⟩
  · obtain ⟨ns, heq, hlayer⟩ := hpath s hs
    rw [heq] at hn
    rcases List.mem_append.1 hn with hn | hn
    · exact .inl ⟨u, by simp [hold], hn⟩
    · exact .inr (hlayer n hn)
  · exact .inl ⟨s, by simp [hold, hs], hn⟩

theorem exists_longer (h : Grows t t') {s : Strand} (hs : s ∈ strands t) :
    ∃ u ∈ strands t', s.path <+: u.path ∧ u.leaf.branch = s.leaf.branch := by
  obtain ⟨left, right, r, news, hold, hnew, hpath, ⟨u, hu, hown⟩, -⟩ := h.strands_eq
  rw [hold, List.mem_append, List.mem_cons] at hs
  rcases hs with hs | rfl | hs
  · exact ⟨s, by simp [hnew, hs], List.prefix_rfl, rfl⟩
  · obtain ⟨ns, heq, -⟩ := hpath u hu
    exact ⟨u, by simp [hnew, hu], ⟨ns, heq.symm⟩, hown⟩
  · exact ⟨s, by simp [hnew, hs], List.prefix_rfl, rfl⟩

theorem names (h : Grows t t') (hn : ((strands t).map (·.leaf.branch)).Nodup) :
    ((strands t').map (·.leaf.branch)).Nodup := by
  obtain ⟨left, right, s, news, hold, hnew, -, -, -, hnodup, hfresh⟩ := h.strands_eq
  rw [branchNames_eq] at hfresh
  rw [hold] at hn hfresh
  rw [hnew]
  replace hfresh : ∀ b ∈ news.map (·.leaf.branch), b = s.leaf.branch ∨ b ∉ (left ++ s :: right).map (·.leaf.branch) :=
    List.forall_mem_map.2 fun u hu => (hfresh u hu).imp_right And.left
  simp only [List.map_append, List.map_cons, List.nodup_append, List.nodup_cons, List.mem_append,
    List.mem_cons] at hn hfresh ⊢
  grind

theorem known (h : Grows t t') (hn : ∀ s ∈ strands t, s.leaf.branch ∈ knownNames) :
    ∀ s ∈ strands t', s.leaf.branch ∈ knownNames := by
  obtain ⟨left, right, r, news, hold, hnew, -, -, -, -, hfresh⟩ := h.strands_eq
  intro s hs
  rw [hnew, List.mem_append, List.mem_append] at hs
  rcases hs with (hs | hs) | hs
  · exact hn s (by simp [hold, hs])
  · rcases hfresh s hs with heq | hknown
    · rw [heq]
      exact hn r (by simp [hold])
    · exact hknown.2
  · exact hn s (by simp [hold, hs])

end Grows

/-! ## Trees built by moves -/

/-- a tree that starts with one node and grows by moves, which are recorded, and by growth that is not recorded because
what came after it failed; `R` says what a move does -/
inductive Built (R : ProofTree → UsedRule → ProofTree → Prop) (s : Sentence) (name : String) :
    ProofTree → List UsedRule → Prop
  | root : Built R s name (.root s name) []
  | lost {t t' : ProofTree} {log : List UsedRule} : Built R s name t log → Grows t t' → Built R s name t' log
  | move {t t' : ProofTree} {log : List UsedRule} {u : UsedRule} :
      Built R s name t log → Grows t t' → u.layer = t.nextLayer → R t u t' → Built R s name t' (log ++ [u])

namespace Built

variable {R : ProofTree → UsedRule → ProofTree → Prop} {s : Sentence} {name : String} {t : ProofTree}
    {log : List UsedRule}

theorem strands_root (s : Sentence) (name : String) :
    strands (.root s name) = [⟨[], { sentence := s, branch := name }⟩] := rfl

theorem mono_of_mem {R' : ProofTree → UsedRule → ProofTree → Prop} (h : Built R s name t log)
    (hR : ∀ t u t', u ∈ log → R t u t' → R' t u t') : Built R' s name t log := by
  induction h with
  | root => exact .root
  | lost _ hg ih => exact .lost (ih hR) hg
  | move _ hg hlayer hr ih =>
    have hbefore := ih fun t u t' hu => hR t u t' (List.mem_append_left _ hu)
    exact .move hbefore hg hlayer (hR _ _ _ (List.mem_append_right _ (List.mem_singleton.2 rfl)) hr)

theorem mono {R' : ProofTree → UsedRule → ProofTree → Prop} (h : Built R s name t log)
    (hR : ∀ t u t', R t u t' → R' t u t') : Built R' s name t log :=
  h.mono_of_mem fun t u t' _ => hR t u t'

theorem nextLayer_pos (h : Built R s name t log) : 0 < t.nextLayer := by
  induction h with
  | root => exact layer_lt_nextLayer (s := ⟨[], { sentence := s, branch := name }⟩) (by simp [strands_root])
  | lost _ hg ih => exact Int.lt_trans ih hg.nextLayer_lt
  | move _ hg _ _ ih => exact Int.lt_trans ih hg.nextLayer_lt

/-- **Every node comes before the next layer.** -/
theorem rising (h : Built R s name t log) : ∀ u ∈ strands t, ∀ n ∈ u.path, n.layer < t.nextLayer := by
  have hstep {t t' : ProofTree} (hg : Grows t t') (ih : ∀ u ∈ strands t, ∀ n ∈ u.path, n.layer < t.nextLayer) :
      ∀ u ∈ strands t', ∀ n ∈ u.path, n.layer < t'.nextLayer := by
    intro u hu n hn
    have hlt := hg.nextLayer_lt
    rcases hg.node_cases hu hn with ⟨v, hv, hnv⟩ | hlayer
    · exact Int.lt_trans (ih v hv n hnv) hlt
    · rwa [hlayer]
  induction h with
  | root =>
    intro u hu n hn
    obtain rfl : u = ⟨[], { sentence := s, branch := name }⟩ := by simpa [strands_root] using hu
    obtain rfl : n = { sentence := s, branch := name } := by simpa [Strand.path] using hn
    exact Built.root.nextLayer_pos (R := R)
  | lost _ hg ih => exact hstep hg ih
  | move _ hg _ _ ih => exact hstep hg ih

theorem names (h : Built R s name t log) : ((strands t).map (·.leaf.branch)).Nodup := by
  induction h with
  | root => simp [strands_root]
  | lost _ hg ih => exact hg.names ih
  | move _ hg _ _ ih => exact hg.names ih

theorem known (h : Built R s name t log) (hname : name ∈ knownNames) : ∀ u ∈ strands t, u.leaf.branch ∈ knownNames := by
  induction h with
  | root => simpa [strands_root] using hname
  | lost _ hg ih => exact hg.known ih
  | move _ hg _ _ ih => exact hg.known ih

theorem layer_lt (h : Built R s name t log) : ∀ u ∈ log, u.layer < t.nextLayer := by
  induction h with
  | root => simp
  | lost _ hg ih => exact fun u hu => Int.lt_trans (ih u hu) hg.nextLayer_lt
  | move _ hg hlayer _ ih =>
    intro u hu
    rcases List.mem_append.1 hu with hu | hu
    · exact Int.lt_trans (ih u hu) hg.nextLayer_lt
    · rw [List.mem_singleton.1 hu, hlayer]
      exact hg.nextLayer_lt

theorem layer_pos (h : Built R s name t log) : ∀ u ∈ log, 0 < u.layer := by
  induction h with
  | root => simp
  | lost _ _ ih => exact ih
  | move hb _ hlayer _ ih =>
    intro u hu
    rcases List.mem_append.1 hu with hu | hu
    · exact ih u hu
    · rw [List.mem_singleton.1 hu, hlayer]
      exact hb.nextLayer_pos

/-- **Moves are recorded** in the order of their layers. -/
theorem increasing (h : Built R s name t log) : log.Pairwise (·.layer < ·.layer) := by
  induction h with
  | root => exact .nil
  | lost _ _ ih => exact ih
  | move hb _ hlayer _ ih =>
    refine List.pairwise_append.2 ⟨ih, List.pairwise_singleton _ _, fun u hu v hv => ?_⟩
    rw [List.mem_singleton.1 hv, hlayer]
    exact hb.layer_lt u hu

theorem prune_grown (h : Built R s name t log) {t' : ProofTree} (hg : Grows t t') {k : Int} (hk : t.nextLayer < k) :
    t'.prune k = t' := by
  refine ProofTree.prune_eq_self fun u hu n hn => ?_
  rcases hg.node_cases hu hn with ⟨v, hv, hnv⟩ | hlayer
  · exact Int.lt_trans (h.rising v hv n hnv) hk
  · rwa [hlayer]

theorem filter_eq_self (h : Built R s name t log) {k : Int} (hk : t.nextLayer ≤ k) : log.filter (·.layer < k) = log :=
  List.filter_eq_self.2 fun u hu => decide_eq_true (Int.lt_of_lt_of_le (h.layer_lt u hu) hk)

/-- **A tree built by moves**, with layers taken away, is built by the moves of the other layers. -/
theorem prune (h : Built R s name t log) (k : Int) : Built R s name (t.prune k) (log.filter (·.layer < k)) := by
  induction h with
  | root => exact .root
  | @lost t t' log hb hg ih =>
    by_cases hk : t.nextLayer < k
    · -- the growth stays, with all that came before it
      rw [hb.prune_grown hg hk, hb.filter_eq_self (Int.le_of_lt hk)]
      exact .lost hb hg
    · rw [hg.prune (by omega)]
      exact ih
  | @move t t' log u hb hg hlayer hr ih =>
    rw [List.filter_append]
    by_cases hk : t.nextLayer < k
    · have hu : [u].filter (·.layer < k) = [u] := by simp [hlayer, hk]
      rw [hb.prune_grown hg hk, hb.filter_eq_self (Int.le_of_lt hk), hu]
      exact .move hb hg hlayer hr
    · have hu : [u].filter (·.layer < k) = [] := by simp [hlayer, hk]
      rw [hg.prune (by omega), hu, List.append_nil]
      exact ih

end Built

end ProofTree

end TableauTutor
