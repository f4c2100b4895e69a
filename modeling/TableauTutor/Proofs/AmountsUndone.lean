import TableauTutor.Proofs.Undoing

/-!
How many moves are undone. Layers never go down along a branch, so taking away a layer and those after it leaves the
nodes of the layers before, in their order; and where every node is on record these are the nodes that the moves taken
back did not make. An amount that is not there is refused; an amount of zero or less is neither refused nor carried out.

- `Session.undo_amount`: what undo does, for every amount.
-/

namespace TableauTutor

/-! ## The nodes of a tree -/

namespace ProofTree

mutual
theorem data_placesFrom (t : ProofTree) (k : Nat) (above : List (Node × Nat)) (before after : List ProofTree) :
    (placesFrom k above before t after).map (·.data) = t.nodes := by
  match t with
  | node d ts =>
    rw [nodes, places, placesFrom, placesFrom, List.map_cons, List.map_cons, data_placesAll ts, data_placesAll ts]
    rfl
termination_by structural t

theorem data_placesAll (ts : List ProofTree) (k : Nat) (above : List (Node × Nat)) (before : List ProofTree) :
    (placesAll k above before ts).map (·.data) = ts.flatMap nodes := by
  match ts with
  | [] => rfl
  | t :: ts => rw [placesAll, List.map_append, data_placesFrom t, data_placesAll ts, List.flatMap_cons]
termination_by structural ts
end

theorem nodes_node (d : Node) (ts : List ProofTree) : (node d ts).nodes = d :: ts.flatMap nodes := by
  rw [nodes, places, placesFrom, List.map_cons, data_placesAll]
  rfl

/-- along every branch of the tree no layer comes after a later one -/
def Layered (t : ProofTree) : Prop := ∀ s ∈ strands t, s.path.Pairwise (·.layer ≤ ·.layer)

variable {t : ProofTree} {k : Int}

theorem Layered.child {d : Node} {ts : List ProofTree} (h : Layered (node d ts)) (ht : t ∈ ts) : Layered t := by
  intro s hs
  have hmem : s ∈ strandsAll ts := by
    obtain ⟨us, vs, rfl⟩ := List.append_of_mem ht
    simp [strandsAll_append, strandsAll, hs]
  have hpath := h (s.below [d]) (by rw [strands_node (List.ne_nil_of_mem ht)]; exact List.mem_map_of_mem hmem)
  rw [Strand.path_below] at hpath
  exact (List.pairwise_append.1 hpath).2.1

theorem Layered.data_le (h : Layered t) : ∀ n ∈ t.nodes, t.data.layer ≤ n.layer := by
  intro n hn
  obtain ⟨s, hs, hmem⟩ := mem_nodes.1 hn
  obtain ⟨ns, hpath⟩ := path_eq_cons hs
  have hsorted := h s hs
  rw [hpath, List.pairwise_cons] at hsorted
  rw [hpath, List.mem_cons] at hmem
  rcases hmem with rfl | hmem
  · exact Int.le_refl _
  · exact hsorted.1 n hmem

mutual
/-- **What is left of the nodes** when layers are taken away: the nodes of the layers before, in their order. -/
theorem nodes_prune {t : ProofTree} (h : Layered t) (hroot : t.data.layer < k) :
    (prune k t).nodes = t.nodes.filter (·.layer < k) := by
  match t with
  | node d ts =>
    have hd : d.layer < k := hroot
    rw [prune, nodes_node, nodes_node, List.filter_cons_of_pos (by simpa using hd),
      nodes_pruneAll fun t ht => h.child ht]

theorem nodes_pruneAll {ts : List ProofTree} (h : ∀ t ∈ ts, Layered t) :
    (pruneAll k ts).flatMap nodes = (ts.flatMap nodes).filter (·.layer < k) := by
  match ts with
  | [] => rfl
  | t :: ts =>
    have ht := h t List.mem_cons_self
    have hrest : (pruneAll k ts).flatMap nodes = (ts.flatMap nodes).filter (·.layer < k) :=
      nodes_pruneAll fun u hu => h u (List.mem_cons_of_mem t hu)
    rw [pruneAll, List.flatMap_cons, List.filter_append]
    split
    · rename_i hlayer
      rw [List.flatMap_cons, nodes_prune ht hlayer, hrest]
    · -- the whole tree goes, since all its nodes are in later layers than its root, or in the same one
      rename_i hlayer
      have hnone : t.nodes.filter (·.layer < k) = [] := by
        refine List.filter_eq_nil_iff.2 fun n hn => ?_
        have := ht.data_le n hn
        simp only [decide_eq_true_eq]
        omega
      rw [hnone, List.nil_append, hrest]
end

theorem layered_unmarked : Layered t.unmarked ↔ Layered t := by
  simp only [Layered, strands_unmarked, List.forall_mem_map, Strand.path_unmark, List.pairwise_map]
  rfl

/-- **Layers never go down** along a branch of a tree built by moves: every move hangs one new layer below a leaf. -/
theorem Built.layered {R : ProofTree → UsedRule → ProofTree → Prop} {s : Sentence} {name : String} {log : List UsedRule}
    (h : Built R s name t log) : Layered t := by
  have hstep {t t' : ProofTree} {log : List UsedRule} (hb : Built R s name t log) (hg : Grows t t') (ih : Layered t) :
      Layered t' := by
    obtain ⟨left, right, r, news, hold, hnew, hpath, -⟩ := hg.strands_eq
    intro u hu
    rw [hnew, List.mem_append, List.mem_append] at hu
    rcases hu with (hu | hu) | hu
    · exact ih u (by simp [hold, hu])
    · have hr : r ∈ strands t := by simp [hold]
      obtain ⟨ns, heq, hlayer⟩ := hpath u hu
      rw [heq, List.pairwise_append]
      refine ⟨ih r hr, List.pairwise_of_forall_mem_list fun m hm n hn => ?_, fun m hm n hn => ?_⟩
      · rw [hlayer m hm, hlayer n hn]
      · rw [hlayer n hn]
        exact Int.le_of_lt (hb.rising r hr m hm)
    · exact ih u (by simp [hold, hu])
  induction h with
  | root =>
    intro u hu
    obtain rfl : u = ⟨[], { sentence := s, branch := name }⟩ := by simpa [strands_root] using hu
    exact List.pairwise_singleton _ _
  | lost hb hg ih => exact hstep hb hg ih
  | move hb hg _ _ ih => exact hstep hb hg ih

end ProofTree

/-! ## Moves taken back -/

namespace Proof

open ProofTree

variable {steady : Prop} {e : Setting} {p : Proof} {kept rest : List UsedRule} {k : Int}

/-- the nodes that are left when the last moves are taken back, the first of which made the layer `k` -/
theorem Kept.nodes_prune (h : p.Kept steady e) (hused : p.used = kept ++ rest) (hfirst : ∃ u ∈ rest, u.layer = k)
    (hleast : ∀ u ∈ rest, k ≤ u.layer) : (p.tree.prune k).nodes = p.tree.nodes.filter fun d => ∀ u ∈ rest,
    d.layer < u.layer := by
  obtain ⟨root, name, h⟩ := h
  obtain ⟨v, hv, hk⟩ := hfirst
  have hroot : p.tree.data.layer < k := by
    rw [h.orderly.root_layer, ← hk]
    exact h.orderly.layers.2 v (by simp [hused, hv])
  rw [ProofTree.nodes_prune (layered_unmarked.1 h.orderly.built.layered) hroot]
  refine List.filter_congr fun d _ => decide_eq_decide.2 ⟨fun hd u hu => ?_, fun hd => hk ▸ hd v hv⟩
  exact Int.lt_of_lt_of_le hd (hleast u hu)

/-- where every node is on record, a node is in the layers before the moves taken back exactly
if none of these moves made it -/
theorem Kept.layer_lt_iff (h : p.Kept steady e) (hrecorded : p.tree.Recorded p.used)
    (hused : p.used = kept ++ rest) {d : Node}
    (hd : d ∈ p.tree.nodes) : (∀ u ∈ rest, d.layer < u.layer) ↔ ∀ u ∈ rest, d.layer ≠ u.layer := by
  obtain ⟨root, name, h⟩ := h
  obtain ⟨hsorted, hpos⟩ := h.orderly.layers
  rw [hused] at hsorted hpos
  refine ⟨fun hlt u hu => Int.ne_of_lt (hlt u hu), fun hne u hu => ?_⟩
  obtain ⟨s, hs, hmem⟩ := mem_nodes.1 hd
  rcases hrecorded s hs d hmem with hzero | ⟨v, hv, heq⟩
  · rw [hzero]
    exact hpos u (List.mem_append_right _ hu)
  · rw [hused, List.mem_append] at hv
    rcases hv with hv | hv
    · rw [← heq]
      exact (List.pairwise_append.1 hsorted).2.2 v hv u hu
    · exact absurd heq.symm (hne v hv)

end Proof

namespace Session

open ProofTree

variable {speller : Speller} {s : Session} {p : Proof}

theorem undo_eq_ok (hp : s.proof = some p) {n : Int} (hpos : 0 < n) (henough : n ≤ p.used.length) :
    ∃ kept undone k, p.used = kept ++ undone.reverse ∧ (undone.length : Int) = n ∧
      (∃ u ∈ undone, u.layer = k) ∧ (∀ u ∈ undone, k ≤ u.layer) ∧
      exec (undo n) s = (.ok undone, { s with
        undoCount := s.undoCount + n, undone := some undone
        proof := some { p with
          used := kept, tree := p.tree.prune k
          branch := ((kept.getLast?).map (·.branch)).getD p.tree.data.branch } }) := by
  have hundo := exec_undo hp n
  rw [if_neg (by omega)] at hundo
  have hlength : ((p.used.drop (p.used.length - n.toNat)).reverse.length : Int) = n := by
    rw [List.length_reverse, List.length_drop]
    omega
  cases hmin : (((p.used.drop (p.used.length - n.toNat)).reverse).map (·.layer)).min? with
  | none =>
    rw [List.min?_eq_none_iff, List.map_eq_nil_iff] at hmin
    rw [hmin] at hlength
    exact absurd hlength (by simp; omega)
  | some k =>
    obtain ⟨hmem, hleast⟩ := List.min?_eq_some_iff.1 hmin
    obtain ⟨u, hu, hk⟩ := List.mem_map.1 hmem
    simp only [hmin, prune_data] at hundo
    refine ⟨_, _, k, ?_, hlength, ⟨u, hu, hk⟩, fun v hv => hleast _ (List.mem_map_of_mem hv), hundo⟩
    rw [List.reverse_reverse, List.take_append_drop]

/-- **Undo, for every amount.** An amount larger than the number of moves is refused, and nothing changes. From
one move on, as many as there are, the last moves are told, newest first, and go, and with them the nodes of
their layers and later ones; where every node is on record these are the nodes that the moves made. An amount of
zero or less is no refusal, but breaks down after the count of moves taken back and the list of them have been
set; the proof stays as it is. -/
theorem undo_amount (hp : s.proof = some p) (n : Int) :
    ((p.used.length : Int) < n → exec (undo n) s = (.error (.refusal .nothingToUndo), s)) ∧
    (0 < n → n ≤ p.used.length → ∃ kept undone k, p.used = kept ++ undone.reverse ∧ (undone.length : Int) = n ∧
      exec (undo n) s = (.ok undone, { s with
        undoCount := s.undoCount + n, undone := some undone
        proof := some { p with
          used := kept, tree := p.tree.prune k
          branch := ((kept.getLast?).map (·.branch)).getD p.tree.data.branch } }) ∧
      (∀ speller, Reached speller False s →
        (p.tree.prune k).nodes = p.tree.nodes.filter (fun d => ∀ u ∈ undone, d.layer < u.layer) ∧
        (p.tree.Recorded p.used → (p.tree.prune k).nodes = p.tree.nodes.filter fun d => ∀ u ∈ undone,
          d.layer ≠ u.layer))) ∧
    (n ≤ 0 → exec (undo n) s = (.error (.badValue "no move was taken back"),
      { s with undoCount := s.undoCount + n, undone := some [] })) := by
  refine ⟨fun hmore => by rw [exec_undo hp, if_pos hmore], fun hpos henough => ?_, fun hnone => ?_⟩
  · obtain ⟨kept, undone, k, hused, hlength, hfirst, hleast, hundo⟩ := undo_eq_ok hp hpos henough
    refine ⟨kept, undone, k, hused, hlength, hundo, fun speller hs => ?_⟩
    obtain ⟨e, -, hkept⟩ := hs.regular.proof p hp
    have hnodes := hkept.nodes_prune hused (by simpa using hfirst) (by simpa using hleast)
    simp only [List.mem_reverse] at hnodes
    refine ⟨hnodes, fun hrecorded => hnodes.trans (List.filter_congr fun d hd => decide_eq_decide.2 ?_)⟩
    simpa using hkept.layer_lt_iff hrecorded hused hd
  · have hundo := exec_undo hp n
    rw [if_neg (by omega), Int.toNat_of_nonpos hnone, Nat.sub_zero, List.take_length, List.drop_length] at hundo
    have hsame : s = { s with proof := some p } := by rw [← hp]
    rw [hundo, hsame]
    rfl

/-- a session where two implications have been taken apart -/
def implications? : Option Session := fresh?.map fun s =>
  let use (command : String) (s : Session) : Session := (exec (Command.perform ⟨.use, .rest command⟩) s).2
  use "false imp 3 2" (use "false imp 1 2" (exec (Command.perform ⟨.prove, .rest "p -> (q -> p)"⟩) s).2)

theorem reached_implications (h : implications? = some s) : Reached .orderly False s := by
  obtain ⟨s₀, hfresh, rfl⟩ := Option.map_eq_some_iff.1 h
  exact .command _ (.command _ (.command _ (reached_fresh hfresh) False.elim) False.elim) False.elim

/-- two moves were made here: three are refused, one is taken back with its nodes, and no move at all breaks down -/
theorem undo_amount_implications :
    ∃ s p, implications? = some s ∧ Reached .orderly False s ∧ s.proof = some p ∧ p.used.length = 2 ∧
    p.tree.Recorded p.used ∧ exec (undo 3) s = (.error (.refusal .nothingToUndo), s) ∧
      (∃ first last k, p.used = [first, last] ∧ exec (undo 1) s = (.ok [last], { s with
          undoCount := s.undoCount + 1, undone := some [last]
          proof := some { p with used := [first], tree := p.tree.prune k, branch := first.branch } }) ∧
        (p.tree.prune k).nodes = p.tree.nodes.filter fun d => ∀ u ∈ [last], d.layer ≠ u.layer) ∧
      exec (undo 0) s = (.error (.badValue "no move was taken back"), { s with undone := some [] }) := by
  have hrun : (implications?.bind fun s => s.proof.map fun p => decide (p.used.length = 2 ∧
      ∀ s ∈ strands p.tree, ∀ n ∈ s.path, n.layer = 0 ∨ ∃ u ∈ p.used, u.layer = n.layer)) = some true := by
      decide +kernel
  simp only [Option.bind_eq_some_iff, Option.map_eq_some_iff, decide_eq_true_eq] at hrun
  obtain ⟨s, hs, p, hp, htwo, hrecorded⟩ := hrun
  have hreached := reached_implications hs
  obtain ⟨hmore, -, -⟩ := undo_amount hp 3
  obtain ⟨-, hone, -⟩ := undo_amount hp 1
  obtain ⟨-, -, hnone⟩ := undo_amount hp 0
  obtain ⟨kept, undone, k, hused, hlength, hundo, hnodes⟩ := hone (by decide) (by omega)
  obtain ⟨last, rfl⟩ := List.length_eq_one_iff.1 (by omega : undone.length = 1)
  obtain ⟨first, rfl⟩ : ∃ first, kept = [first] := by
    rw [hused, List.length_append] at htwo
    exact List.length_eq_one_iff.1 (by simpa using htwo)
  exact ⟨s, p, hs, hreached, hp, htwo, hrecorded, hmore (by omega),
    ⟨first, last, k, hused, hundo, (hnodes _ hreached).2 hrecorded⟩, by simpa using hnone (by decide)⟩

end Session

end TableauTutor
