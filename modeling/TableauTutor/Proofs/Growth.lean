import TableauTutor.Proofs.Computations
import TableauTutor.Proofs.Strands

/-!
What moves do to a proof. A computation on a proof is followed step by step with `exec`. A move hangs new lines of nodes
below a leaf, one for each branch, and marks a sentence as used on all of them; closing a branch marks its leaf.

- `exec_grow`, `exec_markUsed`: a rule used on a branch replaces its leaf by the leaf with lines below it.
- `exec_dealClosure`: closing replaces a leaf by the same leaf with a mark.
-/

namespace TableauTutor

/-- the node with a sentence marked as used -/
def Node.use (s : Sentence) (n : Node) : Node := { n with history := n.history.insert s }

namespace ProofTree

/-! ## Lines of nodes -/

/-- nodes one below the other -/
def line : List Node → List ProofTree
  | [] => []
  | n :: ns => [node n (line ns)]

/-- several lines, side by side -/
def lines (nss : List (List Node)) : List ProofTree := nss.flatMap line

/-- a line for each name, with the sentences that go with it -/
def sprouts (make : String → Sentence → Node) (names : List String) (bs : List (List Sentence)) : List ProofTree :=
  lines ((names.zip bs).map fun nb => nb.2.map (make nb.1))

@[simp] theorem lines_nil : lines [] = [] := rfl

@[simp] theorem lines_cons (ns : List Node) (nss : List (List Node)) : lines (ns :: nss) = line ns ++ lines nss := rfl

@[simp] theorem lines_append (nss mss : List (List Node)) : lines (nss ++ mss) = lines nss ++ lines mss :=
  List.flatMap_append

/-- the sentences of a branch up to the first that is missing -/
def present (b : List (Option Sentence)) : List Sentence := (b.takeWhile (·.isSome)).filterMap id

theorem chain_eq (make : Sentence → Node) (b : List (Option Sentence)) :
    chain make b = (line ((present b).map make),
      if b.all (·.isSome) then .ok () else .error (.wrongKind "a sentence is missing")) := by
  induction b with
  | nil => rfl
  | cons s b ih =>
    cases s with
    | none => rfl
    | some s => simp [chain, ih, present, line]

theorem present_some (b : List Sentence) : present (b.map some) = b := by
  induction b with
  | nil => rfl
  | cons s b ih => simpa [present] using ih

theorem map_some_present {b : List (Option Sentence)} (h : b.all (·.isSome) = true) : (present b).map some = b := by
  induction b with
  | nil => rfl
  | cons s b ih =>
    cases s with
    | none => simp at h
    | some s =>
      have := ih (by simpa using h)
      simpa [present] using this

/-- the branches of a growth that get a line: as many as there are names, up to the first
in which a sentence is missing -/
def hung : List String → Calculus.Growth → List (List Sentence)
  | [], _ => []
  | _, [] => []
  | _ :: names, b :: g => present b :: if b.all (·.isSome) then hung names g else []

theorem branchTrees_cons (make : String → Sentence → Node) (n : String) (names : List String)
    {b : List (Option Sentence)} (hb : b ≠ []) (g : Calculus.Growth) :
    branchTrees make (n :: names) (b :: g) =
      if b.all (·.isSome) then
        (line ((present b).map (make n)) ++ (branchTrees make names g).1, (branchTrees make names g).2)
      else (line ((present b).map (make n)), .error (.wrongKind "a sentence is missing")) := by
  obtain ⟨s, b, rfl⟩ := List.exists_cons_of_ne_nil hb
  rw [branchTrees, chain_eq]
  · by_cases hall : (s :: b).all (·.isSome) = true
    · simp only [hall, if_true]
    · simp only [hall]
      rfl
  · simp

/-- **What is hung below a node**: a line for each branch, until a name or a sentence is missing. -/
theorem branchTrees_eq (make : String → Sentence → Node) {names : List String} {g : Calculus.Growth}
    (hg : ∀ b ∈ g, b ≠ []) : (branchTrees make names g).1 = sprouts make names (hung names g) := by
  induction g generalizing names with
  | nil => cases names <;> simp [branchTrees, hung, sprouts]
  | cons b g ih =>
    have hb := hg b List.mem_cons_self
    have hrest : ∀ b ∈ g, b ≠ [] := fun b hb => hg b (List.mem_cons_of_mem _ hb)
    cases names with
    | nil =>
      obtain ⟨s, b, rfl⟩ := List.exists_cons_of_ne_nil hb
      simp [branchTrees, hung, sprouts]
    | cons n names =>
      rw [branchTrees_cons make n names hb, hung]
      split
      · rw [ih hrest]
        simp [sprouts]
      · simp [sprouts]

/-- hanging branches fails only if there are fewer names than branches, or a sentence is missing -/
theorem branchTrees_outcome (make : String → Sentence → Node) {names : List String} {g : Calculus.Growth}
    (hg : ∀ b ∈ g, b ≠ []) :
    ((branchTrees make names g).2 = .ok () ∧ g.length ≤ names.length ∧ g = (hung names g).map (·.map some)) ∨
      ((branchTrees make names g).2 = .error (.outOfRange "no branch name is left") ∧ names.length < g.length) ∨
      ((branchTrees make names g).2 = .error (.wrongKind "a sentence is missing") ∧ ∃ b ∈ g, none ∈ b) := by
  induction g generalizing names with
  | nil =>
    refine .inl ⟨?_, by simp, by cases names <;> simp [hung]⟩
    cases names <;> simp [branchTrees]
  | cons b g ih =>
    have hb := hg b List.mem_cons_self
    have hrest : ∀ b ∈ g, b ≠ [] := fun b hb => hg b (List.mem_cons_of_mem _ hb)
    cases names with
    | nil =>
      obtain ⟨s, b, rfl⟩ := List.exists_cons_of_ne_nil hb
      exact .inr (.inl ⟨by simp [branchTrees], by simp⟩)
    | cons n names =>
      rw [branchTrees_cons make n names hb, hung]
      by_cases hall : b.all (·.isSome) = true
      · have hpresent := map_some_present hall
        simp only [hall, if_true, List.length_cons, List.map_cons, hpresent]
        rcases @ih names hrest with ⟨h, hlen, heq⟩ | ⟨h, hlen⟩ | ⟨h, b', hb', hnone⟩
        · exact .inl ⟨h, by omega, by rw [← heq]⟩
        · exact .inr (.inl ⟨h, by omega⟩)
        · exact .inr (.inr ⟨h, b', List.mem_cons_of_mem _ hb', hnone⟩)
      · refine .inr (.inr ⟨by simp [hall], b, List.mem_cons_self, ?_⟩)
        simpa using hall

/-- where no sentence is missing, every branch gets a line that there is a name for -/
theorem zip_hung (names : List String) (bs : List (List Sentence)) :
    names.zip (hung names (bs.map (·.map some))) = names.zip bs := by
  induction bs generalizing names with
  | nil => cases names <;> simp [hung]
  | cons b bs ih =>
    cases names with
    | nil => simp
    | cons n names =>
      have hall : (b.map some).all (·.isSome) = true := by simp
      rw [List.map_cons, hung, if_pos hall, present_some, List.zip_cons_cons, List.zip_cons_cons, ih]

/-! ## Marking a sentence as used -/

mutual
/-- the tree with a sentence marked as used at every node -/
def use (s : Sentence) : ProofTree → ProofTree
  | node d ts => node (d.use s) (useAll s ts)

def useAll (s : Sentence) : List ProofTree → List ProofTree
  | [] => []
  | t :: ts => use s t :: useAll s ts
end

mutual
theorem command_add (s : Sentence) (t : ProofTree) : command [.add s] t = (use s t, .ok ()) := by
  cases t with
  | node d ts =>
    have hrun : d.history.run [.add s] = (d.history.insert s, .ok ()) := rfl
    simp only [command, hrun, commandAll_add, use]
    rfl

theorem commandAll_add (s : Sentence) (ts : List ProofTree) : commandAll [.add s] ts = (useAll s ts, .ok ()) := by
  cases ts with
  | nil => rfl
  | cons t ts => simp only [commandAll, command_add, commandAll_add, useAll]
end

theorem commandEach_add (s : Sentence) (ts : List ProofTree) :
    commandEach (List.replicate ts.length [.add s]) ts = (useAll s ts, .ok ()) := by
  induction ts with
  | nil => rfl
  | cons t ts ih =>
    rw [List.length_cons, List.replicate_succ, commandEach, command_add]
    simp only [ih, useAll]

theorem useAll_append (s : Sentence) (ts us : List ProofTree) : useAll s (ts ++ us) = useAll s ts ++ useAll s us := by
  induction ts with
  | nil => rfl
  | cons t ts ih => simp [useAll, ih]

theorem useAll_line (s : Sentence) (ns : List Node) : useAll s (line ns) = line (ns.map (·.use s)) := by
  induction ns with
  | nil => rfl
  | cons n ns ih => simp [line, useAll, use, ih]

theorem useAll_lines (s : Sentence) (nss : List (List Node)) :
    useAll s (lines nss) = lines (nss.map (·.map (·.use s))) := by
  induction nss with
  | nil => rfl
  | cons ns nss ih => simp [useAll_append, useAll_line, ih]

theorem useAll_sprouts (s : Sentence) (make : String → Sentence → Node) (names : List String)
    (bs : List (List Sentence)) :
    useAll s (sprouts make names bs) = sprouts (fun n x => (make n x).use s) names bs := by
  simp [sprouts, useAll_lines, Function.comp_def]

theorem length_lines {nss : List (List Node)} (h : ∀ ns ∈ nss, ns ≠ []) : (lines nss).length = nss.length := by
  induction nss with
  | nil => rfl
  | cons ns nss ih =>
    obtain ⟨hn, hrest⟩ := List.forall_mem_cons.1 h
    obtain ⟨n, ns, rfl⟩ := List.exists_cons_of_ne_nil hn
    simp [line, ih hrest]

theorem length_sprouts (make : String → Sentence → Node) {names : List String} {bs : List (List Sentence)}
    (hb : ∀ b ∈ bs, b ≠ []) (h : bs.length ≤ names.length) : (sprouts make names bs).length = bs.length := by
  rw [sprouts, length_lines, List.length_map, List.length_zip, Nat.min_eq_right h]
  intro ns hns
  obtain ⟨⟨n, b⟩, hnb, rfl⟩ := List.mem_map.1 hns
  simpa using hb b (List.of_mem_zip hnb).2

theorem grow_plug (fs : List Frame) (d : Node) (level : Int) {g : Calculus.Growth} (hg : ∀ b ∈ g, b ≠ []) :
    let t := plug fs (node d [])
    let make (name : String) (s : Sentence) : Node :=
      { sentence := s, branch := name, layer := t.nextLayer, history := d.history }
    let names := t.namesFor level d.branch g.length
    t.grow (offset fs) level g =
      (plug fs (node d (sprouts make names (hung names g))), (branchTrees make names g).2.map fun _ =>
        t.nextLayer) := by
  intro t make names
  have hplace := place?_plug fs (node d [])
  have htrees := @branchTrees_eq make names g hg
  simp only [grow, t, hplace, change_plug, Place.data, data, addChildren, List.nil_append]
  rw [← htrees]

theorem commandChildren_plug (fs : List Frame) (d : Node) (cs : List ProofTree) (s : Sentence) :
    commandChildren (plug fs (node d cs)) (offset fs) (List.replicate cs.length [.add s]) =
      (plug fs (node d (useAll s cs)), .ok ()) := by
  have hplace := place?_plug fs (node d cs)
  simp only [commandChildren, hplace, children, List.length_replicate, if_true, commandEach_add, change_plug, data]

theorem close_plug (fs : List Frame) (d : Node) (c : Closing) :
    close (plug fs (node d [])) (offset fs) c = .ok (plug fs (node { d with closed := some c } [])) := by
  have hplace := place?_plug fs (node d [])
  simp [close, hplace, Place.isLeaf, isLeaf, children, change_plug, data, pure_ok]

/-! ## Strands of a grown tree -/

theorem strandsAll_line {ns : List Node} (h : ns ≠ []) : ∃ s, strandsAll (line ns) = [s] ∧ s.path = ns := by
  induction ns with
  | nil => exact absurd rfl h
  | cons n ns ih =>
    cases ns with
    | nil => exact ⟨⟨[], n⟩, by simp [line, strandsAll, strands], rfl⟩
    | cons m ns =>
      obtain ⟨s, hs, hpath⟩ := ih (by simp)
      refine ⟨s.below [n], ?_, by rw [Strand.path_below, hpath]; rfl⟩
      rw [line, strandsAll, strandsAll, strands_node (by simp [line]), hs]
      rfl

/-- **The strands of lines** are the lines, those apart that have no node. -/
theorem paths_lines (nss : List (List Node)) :
    (strandsAll (lines nss)).map Strand.path = nss.filter fun ns => !ns.isEmpty := by
  induction nss with
  | nil => rfl
  | cons ns nss ih =>
    rw [lines_cons, strandsAll_append, List.map_append, ih]
    cases ns with
    | nil => simp [line, strandsAll]
    | cons n ns =>
      obtain ⟨s, hs, hpath⟩ := strandsAll_line (List.cons_ne_nil n ns)
      simp [hs, hpath]

/-- a line is the path of a strand exactly if it has a node -/
theorem exists_strand_iff {nss : List (List Node)} {ns : List Node} :
    (∃ s ∈ strandsAll (lines nss), s.path = ns) ↔ ns ∈ nss ∧ ns ≠ [] := by
  rw [← List.mem_map, paths_lines, List.mem_filter]
  simp

theorem path_sprouts {make : String → Sentence → Node} {names : List String} {bs : List (List Sentence)} {s : Strand}
    (hs : s ∈ strandsAll (sprouts make names bs)) : ∃ name b, (name, b) ∈ names.zip bs ∧
    s.path = b.map (make name) := by
  obtain ⟨⟨name, b⟩, hb, hpath⟩ := List.mem_map.1 (exists_strand_iff.1 ⟨s, hs, rfl⟩).1
  exact ⟨name, b, hb, hpath.symm⟩

theorem Strand.leaf_of_path {s : Strand} {ns : List Node} (h : s.path = ns) : s.leaf ∈ ns := by
  rw [← h, Strand.path]
  simp

theorem leafNames_sprouts {make : String → Sentence → Node} (hmake : ∀ n s, (make n s).branch = n) (names : List String)
    (bs : List (List Sentence)) : ((strandsAll (sprouts make names bs)).map (·.leaf.branch)).Sublist names := by
  induction names generalizing bs with
  | nil => simp [sprouts, strandsAll]
  | cons n names ih =>
    cases bs with
    | nil => simp [sprouts, strandsAll]
    | cons b bs =>
      have hrest := ih bs
      rw [sprouts, List.zip_cons_cons, List.map_cons, lines_cons, strandsAll_append, List.map_append, ← sprouts]
      by_cases hb : b = []
      · subst hb
        exact hrest.cons _
      · obtain ⟨s, hs, hpath⟩ := strandsAll_line (by simpa using hb : b.map (make n) ≠ [])
        obtain ⟨y, -, hy⟩ := List.mem_map.1 (Strand.leaf_of_path hpath)
        have hname : s.leaf.branch = n := by rw [← hy, hmake]
        simp only [hs, List.map_cons, List.map_nil, List.singleton_append, hname]
        exact hrest.cons_cons n

/-- a leaf replaced by the leaf with trees below it: its strand gives way to longer ones -/
theorem strands_grown (fs : List Frame) (d : Node) {cs : List ProofTree} (h : cs ≠ []) :
    ∃ left right, strands (plug fs (node d [])) = left ++ ⟨fs.map (·.data), d⟩ :: right ∧
      strands (plug fs (node d cs)) = left ++ (strandsAll cs).map (Strand.below (fs.map (·.data) ++ [d])) ++ right := by
  obtain ⟨left, right, heq⟩ := strands_plug fs
  refine ⟨left, right, by simp [heq, strands, Strand.below], ?_⟩
  rw [heq, strands_node h]
  simp [Function.comp_def]

/-- a strand of a tree that has grown was there before, or it goes on from the leaf -/
theorem strand_grown_cases {fs : List Frame} {d : Node} {cs : List ProofTree} {s : Strand}
    (hs : s ∈ strands (plug fs (node d cs))) :
    s ∈ strands (plug fs (node d [])) ∨ ∃ r ∈ strandsAll cs, r.below (fs.map (·.data) ++ [d]) = s := by
  by_cases hne : cs = []
  · exact .inl (hne ▸ hs)
  obtain ⟨left, right, hold, hnew⟩ := strands_grown fs d hne
  rw [hnew, List.mem_append, List.mem_append, List.mem_map] at hs
  rcases hs with (hs | hs) | hs
  · exact .inl (by simp [hold, hs])
  · exact .inr hs
  · exact .inl (by simp [hold, hs])

/-- what goes on from the leaf is a strand of the tree that has grown -/
theorem below_mem_grown (fs : List Frame) (d : Node) {cs : List ProofTree} {r : Strand} (hr : r ∈ strandsAll cs) :
    r.below (fs.map (·.data) ++ [d]) ∈ strands (plug fs (node d cs)) := by
  have hne : cs ≠ [] := by
    rintro rfl
    cases hr
  obtain ⟨left, right, -, hnew⟩ := strands_grown fs d hne
  rw [hnew]
  exact List.mem_append_left _ (List.mem_append_right _ (List.mem_map_of_mem hr))

theorem strands_replaced (fs : List Frame) (d d' : Node) :
    ∃ left right, strands (plug fs (node d [])) = left ++ ⟨fs.map (·.data), d⟩ :: right ∧
      strands (plug fs (node d' [])) = left ++ ⟨fs.map (·.data), d'⟩ :: right := by
  obtain ⟨left, right, heq⟩ := strands_plug fs
  exact ⟨left, right, by simp [heq, strands, Strand.below], by simp [heq, strands, Strand.below]⟩

/-! ## Names of branches -/

theorem branchNames_spec (level : Int) (used : List String) :
    (TableauTutor.branchNames level used).Nodup ∧ ∀ n ∈ TableauTutor.branchNames level used, n ∉ used := by
  have hall : (Colour.table.map (·.name) ++ plants).Nodup := by decide +kernel
  have hsub : ((Colour.upTo level).map (·.name) ++ plants).Sublist (Colour.table.map (·.name) ++ plants) :=
    (List.filter_sublist.map _).append_right _
  refine ⟨(hall.sublist hsub).filter _, fun n hn => ?_⟩
  simpa using (List.mem_filter.1 hn).2

/-- the names for new branches differ, and all but the first are free -/
theorem namesFor_spec (t : ProofTree) (level : Int) {own : String} (h : own ∈ t.branchNames) (n : Int) :
    (t.namesFor level own n).Nodup ∧ ∃ more, t.namesFor level own n = own :: more ∧ ∀ m ∈ more, m ∉ t.branchNames := by
  obtain ⟨hnodup, hfree⟩ := branchNames_spec level t.branchNames
  have hmem : ∀ m ∈ (TableauTutor.branchNames level t.branchNames).take (n - 1).toNat, m ∉ t.branchNames :=
    fun m hm => hfree m (List.mem_of_mem_take hm)
  refine ⟨List.nodup_cons.2 ⟨fun hown => hmem own hown h, hnodup.sublist (List.take_sublist _ _)⟩, _, rfl, hmem⟩

theorem length_namesFor_le (t : ProofTree) (level : Int) (own : String) {k : Nat} (hk : 0 < k) :
    (t.namesFor level own k).length ≤ k := by
  have : ((k : Int) - 1).toNat = k - 1 := by omega
  simp only [namesFor, this, List.length_cons, List.length_take]
  omega

end ProofTree

/-! ## Moves -/

namespace Proof

open ProofTree

variable {e : Setting} {p : Proof} {b : String} {q : Place} {fs : List Frame} {d : Node}

/-- what is known of a leaf that was found: its frames and its place -/
structure Found (p : Proof) (b : String) (q : Place) (fs : List Frame) (d : Node) : Prop where
  leaf : p.leaf b = .ok q
  tree : p.tree = plug fs (node d [])
  branch : d.branch = b
  position : q.position = offset fs
  strand : q.strand = ⟨fs.map (·.data), d⟩

theorem found_of_leaf (h : p.leaf b = .ok q) : ∃ fs d, p.Found b q fs d := by
  obtain ⟨fs, d, ht, hb, hpos, hs⟩ := leaf_eq_ok h
  exact ⟨fs, d, h, ht, hb, hpos, hs⟩

theorem found_plug (hn : ((strands p.tree).map (·.leaf.branch)).Nodup) (ht : p.tree = plug fs (node d [])) :
    ∃ q, p.Found d.branch q fs d := by
  obtain ⟨q, hq, hpos, hs⟩ := leaf_plug hn ht
  exact ⟨q, hq, ht, rfl, hpos, hs⟩

/-- the nodes that a move makes on branches below a leaf -/
def newNode (p : Proof) (d : Node) (name : String) (s : Sentence) : Node :=
  { sentence := s, branch := name, layer := p.tree.nextLayer, history := d.history }

/-- **Growth**: lines are hung below a leaf, as many as there are names and sentences for. -/
theorem exec_grow (h : p.Found b q fs d) {g : Calculus.Growth} (hg : ∀ b ∈ g, b ≠ []) :
    let names := p.tree.namesFor e.accessibility b g.length
    exec (grow e b g) p =
      ((branchTrees (p.newNode d) names g).2.map fun _ => p.tree.nextLayer,
        { p with tree := plug fs (node d (sprouts (p.newNode d) names (hung names g))) }) := by
  intro names
  have hgrow := grow_plug fs d e.accessibility hg
  simp only [← h.tree, h.branch, ← h.position] at hgrow
  simp only [grow, exec_bind, exec_get, exec_lift, h.leaf, hgrow, exec_set]
  rfl

theorem exec_markUsed {p : Proof} {fs : List Frame} {d : Node} {cs : List ProofTree} (h : p.tree = plug fs (node d cs))
    (s : Sentence) :
    exec (markUsed (offset fs) cs.length s) p = (.ok (), { p with tree := plug fs (node d (useAll s cs)) }) := by
  have hc := commandChildren_plug fs d cs s
  rw [← h] at hc
  simp only [markUsed, exec_bind, exec_get, hc, exec_set, exec_lift]

/-- **Closing**: the leaf of a branch is marked, if there is reason to close it. -/
theorem exec_dealClosure (h : p.Found b q fs d) :
    exec (dealClosure e b) p =
      match e.calculus.closure ((fs.map (·.data) ++ [d]).map (·.sentence)) d.history with
      | .error f => (.error f, p)
      | .ok none => (.ok none, p)
      | .ok (some (c, info)) =>
        (.ok (some (c, b ++ ": " ++ info)), { p with tree := plug fs (node { d with closed := some c } []) }) := by
  have hpath : q.path = fs.map (·.data) ++ [d] := by
    rw [Place.path_eq, h.strand]
    rfl
  have hdata : q.data = d := congrArg Strand.leaf h.strand
  have hclose (c : Closing) := close_plug fs d c
  simp only [← h.tree, ← h.position] at hclose
  simp only [dealClosure, exec_bind, exec_get, exec_lift, h.leaf, hpath, hdata]
  cases e.calculus.closure ((fs.map (·.data) ++ [d]).map (·.sentence)) d.history with
  | error f => rfl
  | ok r =>
    cases r with
    | none => rfl
    | some r =>
      obtain ⟨c, info⟩ := r
      simp only [exec_bind, exec_lift, hclose, exec_set, exec_pure]

end Proof

end TableauTutor
