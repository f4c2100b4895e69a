import TableauTutor.Proofs.Moves

/-!
Names in proof trees. A branch is known by the name of its leaf, and a node of a tree has the name of the branch that it
was made on. That branch goes on below the node under the same name: growth gives the name of a leaf to the first of the
new leaves, and taking layers away gives it back to the old one.

- `Built.named`: in a tree built by moves every node has the name of the first leaf below it.
- `Named.exists_strand`: the same, seen from the root.
- `Built.branch_mem`: the branches of the recorded moves are there.
-/

namespace TableauTutor

namespace ProofTree

/-! ## Nodes with the name of a leaf below -/

mutual
/-- every node has the name of the first leaf below it -/
def Named : ProofTree → Prop
  | node d ts => (branchNames (node d ts)).head? = some d.branch ∧ NamedAll ts

def NamedAll : List ProofTree → Prop
  | [] => True
  | t :: ts => Named t ∧ NamedAll ts
end

theorem namedAll_append (ts us : List ProofTree) : NamedAll (ts ++ us) ↔ NamedAll ts ∧ NamedAll us := by
  induction ts with
  | nil => simp [NamedAll]
  | cons t ts ih => simp [NamedAll, ih, and_assoc]

theorem branchNames_leaf (d : Node) : branchNames (node d []) = [d.branch] := by rw [branchNames_eq]; rfl

theorem mem_branchNames {t : ProofTree} {b : String} : b ∈ t.branchNames ↔ ∃ s ∈ strands t, s.leaf.branch = b := by
  rw [branchNames_eq, List.mem_map]

theorem head?_branchNames_plug (fs : List Frame) {u v : ProofTree} (h : u.branchNames.head? = v.branchNames.head?) :
    (plug fs u).branchNames.head? = (plug fs v).branchNames.head? := by
  obtain ⟨left, right, hstrands⟩ := strands_plug fs
  rw [branchNames_eq, branchNames_eq] at h
  rw [branchNames_eq, branchNames_eq, hstrands, hstrands]
  simp only [List.map_append, List.map_map, Function.comp_def, Strand.below_leaf, List.head?_append, h]

/-- a strand of what starts at a place is the end of one of the tree -/
theorem below_mem_strands (fs : List Frame) {u : ProofTree} {s : Strand} (hs : s ∈ strands u) :
    s.below (fs.map (·.data)) ∈ strands (plug fs u) := by
  obtain ⟨left, right, hstrands⟩ := strands_plug fs
  rw [hstrands]
  exact List.mem_append_left _ (List.mem_append_right _ (List.mem_map_of_mem hs))

theorem branchNames_subset_plug (fs : List Frame) (u : ProofTree) : u.branchNames ⊆ (plug fs u).branchNames := by
  intro b hb
  obtain ⟨s, hs, rfl⟩ := mem_branchNames.1 hb
  exact mem_branchNames.2 ⟨_, below_mem_strands fs hs, rfl⟩

namespace Named

variable {t u v : ProofTree} {fs : List Frame}

theorem first (h : t.Named) : t.branchNames.head? = some t.data.branch := by
  cases t
  exact h.1

theorem data_mem (h : t.Named) : t.data.branch ∈ t.branchNames := List.mem_of_head? h.first

theorem of_plug (h : (plug fs u).Named) : u.Named := by
  induction fs with
  | nil => exact h
  | cons f fs ih =>
    rw [plug, Named, namedAll_append, NamedAll] at h
    exact ih h.2.2.1

/-- what starts at a place can be replaced, if the first name stays -/
theorem replace (h : (plug fs u).Named) (hv : v.Named) (hfirst : u.branchNames.head? = v.branchNames.head?) :
    (plug fs v).Named := by
  induction fs with
  | nil => exact hv
  | cons f fs ih =>
    have hnames := head?_branchNames_plug (f :: fs) hfirst
    rw [plug, Named, namedAll_append, NamedAll] at h
    obtain ⟨hdata, hbefore, hplug, hafter⟩ := h
    rw [plug, Named, namedAll_append, NamedAll]
    exact ⟨hnames.symm.trans hdata, hbefore, ih hplug, hafter⟩

/-- **Every place** of the tree is on a branch that goes on below it. -/
theorem place (h : t.Named) {q : Place} (hq : q ∈ t.places) : q.data.branch ∈ q.tree.branchNames := by
  obtain ⟨fs, ht, -, -⟩ := exists_plug hq
  rw [ht] at h
  exact h.of_plug.data_mem

end Named

mutual
theorem named_of_strands {t : ProofTree} (h : ∀ s ∈ strands t, ∀ n ∈ s.path, n.branch = s.leaf.branch) : t.Named := by
  match t with
  | node d ts =>
    obtain ⟨s, rest, hs⟩ := List.exists_cons_of_ne_nil (strands_ne_nil (node d ts))
    have hfirst : s ∈ strands (node d ts) := by rw [hs]; exact List.mem_cons_self
    refine ⟨?_, namedAll_of_strands fun s hs n hn => ?_⟩
    · rw [branchNames_eq, hs, List.map_cons, List.head?_cons, ← h s hfirst d (data_mem_path hfirst)]
    have hts : ts ≠ [] := by
      rintro rfl
      simp [strandsAll] at hs
    refine h (s.below [d]) ?_ n (by rw [Strand.path_below]; exact List.mem_append_right _ hn)
    rw [strands_node hts]
    exact List.mem_map_of_mem hs

theorem namedAll_of_strands {ts : List ProofTree} (h : ∀ s ∈ strandsAll ts, ∀ n ∈ s.path, n.branch = s.leaf.branch) :
    NamedAll ts := by
  match ts with
  | [] => trivial
  | t :: ts =>
    simp only [strandsAll, List.mem_append] at h
    exact ⟨named_of_strands fun s hs => h s (.inl hs), namedAll_of_strands fun s hs => h s (.inr hs)⟩
end

/-- **Growth** keeps names below the nodes that have them. -/
theorem Grows.named {t t' : ProofTree} (h : Grows t t') (ht : t.Named) : t'.Named := by
  obtain ⟨fs, d, ts, rfl, rfl, hoff⟩ := h
  have hown : (branchNames (node d ts)).head? = some d.branch := by
    rw [branchNames_eq, strands_node hoff.ne_nil, List.map_map]
    exact hoff.first
  refine ht.replace ⟨hown, namedAll_of_strands hoff.named⟩ ?_
  rw [branchNames_leaf, hown, List.head?_cons]

theorem Grows.branchNames_subset {t t' : ProofTree} (h : Grows t t') : t.branchNames ⊆ t'.branchNames := by
  intro b hb
  obtain ⟨s, hs, rfl⟩ := mem_branchNames.1 hb
  obtain ⟨u, hu, -, hbranch⟩ := h.exists_longer hs
  exact mem_branchNames.2 ⟨u, hu, hbranch⟩

/-- the move is made on a branch that is there -/
def MadeOn (t : ProofTree) (u : UsedRule) (_ : ProofTree) : Prop := u.branch ∈ t.branchNames

namespace Built

variable {R : ProofTree → UsedRule → ProofTree → Prop} {s : Sentence} {name : String} {t : ProofTree}
    {log : List UsedRule}

/-- **In a tree built by moves** every node has the name of the first leaf below it. -/
theorem named (h : Built R s name t log) : t.Named := by
  induction h with
  | root => exact ⟨by rw [branchNames_leaf, List.head?_cons], trivial⟩
  | lost _ hg ih => exact hg.named ih
  | move _ hg _ _ ih => exact hg.named ih

theorem branch_mem (h : Built MadeOn s name t log) : ∀ u ∈ log, u.branch ∈ t.branchNames := by
  induction h with
  | root => simp
  | lost _ hg ih => exact fun u hu => hg.branchNames_subset (ih u hu)
  | move _ hg _ hmem ih =>
    intro u hu
    rcases List.mem_append.1 hu with hu | hu
    · exact hg.branchNames_subset (ih u hu)
    · rw [List.mem_singleton.1 hu]
      exact hg.branchNames_subset hmem

end Built

mutual
theorem named_unmarked (t : ProofTree) : t.unmarked.Named ↔ t.Named := by
  match t with
  | node d ts =>
    have hnames := branchNames_unmarked (node d ts)
    rw [unmarked] at hnames
    rw [unmarked, Named, Named, hnames, namedAll_unmarked]
    rfl

theorem namedAll_unmarked (ts : List ProofTree) : NamedAll (unmarkedAll ts) ↔ NamedAll ts := by
  match ts with
  | [] => rfl
  | t :: ts => rw [unmarkedAll, NamedAll, NamedAll, named_unmarked, namedAll_unmarked]
end

/-! ## Seen from the root -/

theorem starts_with_data {t : ProofTree} {s : Strand} (h : s ∈ strands t) : [t.data] <+: s.path := by
  obtain ⟨ns, hpath⟩ := path_eq_cons h
  exact ⟨ns, hpath.symm⟩

theorem exists_plug_of_prefix {t : ProofTree} {s : Strand} (hs : s ∈ strands t) {ns : List Node} {n : Node}
    (hn : ns ++ [n] <+: s.path) : ∃ fs u, t = plug fs u ∧ fs.map (·.data) = ns ∧ u.data = n := by
  obtain ⟨fs, ht, habove⟩ := exists_frames hs
  rcases List.prefix_concat_iff.1 hn with heq | hbefore
  · obtain ⟨rfl, hlast⟩ := List.append_inj' heq rfl
    obtain rfl := List.singleton_inj.1 hlast
    exact ⟨fs, _, ht, habove, rfl⟩
  · obtain ⟨rest, hrest⟩ := hbefore
    rw [← habove, List.append_assoc, eq_comm, List.map_eq_append_iff] at hrest
    obtain ⟨gs, hs', rfl, rfl, hmap⟩ := hrest
    obtain ⟨f, hs'', rfl, rfl, -⟩ := List.map_eq_cons_iff.1 hmap
    exact ⟨gs, plug (f :: hs'') (node s.leaf []), by rw [ht, plug_append], rfl, rfl⟩

/-- **A node seen from the root** is on a strand that ends under its name. -/
theorem Named.exists_strand {t : ProofTree} (h : t.Named) {s : Strand} (hs : s ∈ strands t) {ns : List Node} {n : Node}
    (hn : ns ++ [n] <+: s.path) : ∃ r ∈ strands t, ns ++ [n] <+: r.path ∧ r.leaf.branch = n.branch := by
  obtain ⟨fs, u, rfl, rfl, rfl⟩ := exists_plug_of_prefix hs hn
  obtain ⟨v, hv, hbranch⟩ := mem_branchNames.1 h.of_plug.data_mem
  refine ⟨_, below_mem_strands fs hv, ?_, hbranch⟩
  rw [Strand.path_below]
  exact (List.prefix_append_right_inj _).2 (starts_with_data hv)

theorem exists_strand_of_place {t : ProofTree} {q : Place} (hq : q ∈ t.places) :
    ∃ s ∈ strands t, q.path <+: s.path := by
  obtain ⟨fs, ht, -, habove⟩ := exists_plug hq
  obtain ⟨v, hv⟩ := List.exists_mem_of_ne_nil _ (strands_ne_nil q.tree)
  have hpath : q.path = fs.map (·.data) ++ [q.tree.data] := by
    rw [Place.path_eq, Place.strand, habove, trailFrom_nodes]
    rfl
  refine ⟨v.below (fs.map (·.data)), by rw [ht]; exact below_mem_strands fs hv, ?_⟩
  rw [Strand.path_below, hpath]
  exact (List.prefix_append_right_inj _).2 (starts_with_data hv)

end ProofTree

end TableauTutor
