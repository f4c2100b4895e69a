import TableauTutor.Proofs.Repeating

/-!
Proofs made once more. Every node of a proof that went well was made by a recorded move, so when the recorded moves are
made one after another from the root, the tree comes out as it was, but without marks; and when the marks of the leaves
are then made, every leaf is as it was.

- `exec_closeAll`, `exec_remark`: the marks of the leaves.
- `KeptFrom.remade`: the proof made once more.
-/

namespace TableauTutor

open ProofTree Calculus

/-! ## Loops -/

section Loops

variable {σ τ α : Type} {f : α → Effect σ PUnit}

theorem exec_forM_append (xs ys : List α) (s : σ) :
    exec ((xs ++ ys).forM f) s = exec (do xs.forM f; ys.forM f) s := by
  induction xs generalizing s with
  | nil => rfl
  | cons x xs ih =>
    change exec (f x >>= fun _ => (xs ++ ys).forM f) s = exec ((f x >>= fun _ => xs.forM f) >>= fun _ => ys.forM f) s
    simp only [exec_bind, ih]
    rcases exec (f x) s with ⟨_ | _, t⟩ <;> rfl

/-- a loop goes through if the same loop on a part of the state does -/
theorem exec_forM_part {g : α → ExceptT Fault (StateM τ) PUnit} {w : σ → τ} {xs : List α}
    (h : ∀ x ∈ xs, ∀ s t, exec (f x) s = (.ok (), t) → exec (g x) (w s) = (.ok (), w t)) {s t : σ}
    (hrun : exec (xs.forM f) s = (.ok (), t)) : exec (xs.forM g) (w s) = (.ok (), w t) := by
  induction xs generalizing s with
  | nil =>
    obtain ⟨-, rfl⟩ := Prod.mk.inj hrun
    rfl
  | cons x xs ih =>
    change exec (f x >>= fun _ => xs.forM f) s = (.ok (), t) at hrun
    change exec (g x >>= fun _ => xs.forM g) (w s) = (.ok (), w t)
    rw [exec_bind] at hrun ⊢
    rcases hx : exec (f x) s with ⟨r | _, u⟩
    · rw [hx] at hrun
      cases (Prod.mk.inj hrun).1
    · rw [hx] at hrun
      rw [h x List.mem_cons_self s u hx]
      exact ih (fun y hy => h y (List.mem_cons_of_mem _ hy)) hrun

end Loops

namespace Proof

variable {e : Setting} {p : Proof} {b : String} {q : Place} {fs : List Frame} {d : Node} {u : UsedRule}
    {t t' : ProofTree}

/-! ## One move -/

/-- names of branches are capitalized, and none of them is a direction -/
theorem plain_of_known {n : String} (h : n ∈ knownNames) :
    n.isEmpty = false ∧ Text.capitalize n = n ∧ Text.upper n ≠ "LEFT" ∧ Text.upper n ≠ "RIGHT" := by
  have hall : ∀ n ∈ knownNames, n.isEmpty = false ∧ Text.capitalize n = n ∧ Text.upper n ≠ "LEFT" ∧
      Text.upper n ≠ "RIGHT" := by
    decide +kernel
  exact hall n h

theorem exec_jump (h : p.leaf b = .ok q) (hb : b ∈ knownNames) :
    exec (jump b) p = (.ok (), { p with branch := b }) := by
  obtain ⟨-, hcapital, hleft, hright⟩ := plain_of_known hb
  obtain ⟨fs, d, hfound⟩ := found_of_leaf h
  by_cases hhere : b = p.branch
  · simp only [jump, exec_bind, exec_get, hcapital, if_pos hhere]
    rw [hhere]
    rfl
  · have hplace : (p.tree.leaf? b).bind p.tree.place? = some q := by
      rw [leaf] at h
      split at h
      · rename_i q' hq
        rw [hq, Except.ok.inj h]
      · cases h
    have hdata : q.data.branch = b := (congrArg (·.leaf.branch) hfound.strand).trans hfound.branch
    have hside : ¬ (Text.upper b = "LEFT" ∨ Text.upper b = "RIGHT") := not_or.2 ⟨hleft, hright⟩
    simp only [jump, exec_bind, exec_get, hcapital, if_neg hhere, if_neg hside, hplace, exec_set, hdata]

/-- **A recorded move** is made once more, on its branch. -/
theorem exec_perform (h : Repeats e t u t') (hknown : ∀ v ∈ strands t, v.leaf.branch ∈ knownNames) (hp : p.tree = t) :
    exec (perform e u) p = (.ok (), { p with tree := t', used := p.used ++ [u], branch := u.branch }) := by
  have hleaf : ∃ q, p.leaf u.branch = .ok q := by
    have huse := h p hp
    cases hleaf : p.leaf u.branch with
    | ok q => exact ⟨q, rfl⟩
    | error f =>
      simp only [useOn, exec_bind, exec_get, exec_lift, hleaf] at huse
      cases (Prod.mk.inj huse).1
  obtain ⟨q, hq⟩ := hleaf
  have hu : u.branch ∈ knownNames := by
    obtain ⟨fs, d, hfound⟩ := found_of_leaf hq
    obtain ⟨left, right, hstrands, -⟩ := strands_replaced fs d d
    rw [← hp, hfound.tree, hstrands] at hknown
    rw [← hfound.branch]
    exact hknown ⟨_, d⟩ (List.mem_append_right _ List.mem_cons_self)
  simp only [perform, exec_bind, (plain_of_known hu).1, Bool.not_false, if_true, exec_jump hq hu, exec_get]
  exact h { p with branch := u.branch } hp

/-! ## All moves -/

end Proof

namespace ProofTree

variable {R : ProofTree → UsedRule → ProofTree → Prop} {s : Sentence} {name : String} {t t' : ProofTree}
    {log : List UsedRule} {u : UsedRule}

/-- growth that is not on record leaves nodes that are not -/
theorem Built.not_recorded (h : Built R s name t log) (hg : Grows t t') : ¬ Recorded t' log := by
  intro hrecorded
  obtain ⟨left, right, v, news, -, hnew, -, ⟨w, hw, -⟩, hlayer, -⟩ := hg.strands_eq
  have hmem : w ∈ strands t' := by
    rw [hnew]
    exact List.mem_append_left _ (List.mem_append_right _ hw)
  have hpos := h.nextLayer_pos
  rcases hrecorded w hmem w.leaf (leaf_mem_path w) with hzero | ⟨u, hu, heq⟩
  · rw [hlayer w hw] at hzero
    omega
  · have hlt := h.layer_lt u hu
    rw [heq, hlayer w hw] at hlt
    exact Int.lt_irrefl _ hlt

theorem Built.recorded_init (h : Built R s name t log) (hg : Grows t t') (hu : u.layer = t.nextLayer)
    (hrecorded : Recorded t' (log ++ [u])) : Recorded t log := by
  intro v hv n hn
  obtain ⟨w, hw, hbefore, -⟩ := hg.exists_longer hv
  rcases hrecorded w hw n (hbefore.subset hn) with hzero | ⟨m, hm, heq⟩
  · exact .inl hzero
  · rcases List.mem_append.1 hm with hm | hm
    · exact .inr ⟨m, hm, heq⟩
    · have hlt := h.rising v hv n hn
      rw [← heq, List.mem_singleton.1 hm, hu] at hlt
      exact absurd hlt (Int.lt_irrefl _)

end ProofTree

namespace Proof

variable {e : Setting} {p : Proof} {t : ProofTree} {s : Sentence} {name : String} {log : List UsedRule}
  {R : ProofTree → UsedRule → ProofTree → Prop}

/-- **The recorded moves** are made once more from the root, if each can be made where it was made. What is recorded
then may differ in what plays no part in a move. -/
theorem exec_moves {m : UsedRule → Work Unit} {f : UsedRule → UsedRule}
    (hm : ∀ {t log u t'}, Built R s name t log → R t u t' → ∀ p : Proof, p.tree = t →
      ∃ b, exec (m u) p = (.ok (), { p with tree := t', used := p.used ++ [f u], branch := b }))
    (h : Built R s name t log) (hrecorded : Recorded t log) (hp : p.tree = .root s name) :
    ∃ b, exec (log.forM m) p = (.ok (), { p with tree := t, used := p.used ++ log.map f, branch := b }) := by
  induction h with
  | root => exact ⟨p.branch, by rw [← hp, List.map_nil, List.append_nil]; rfl⟩
  | lost hbuilt hg => exact absurd hrecorded (hbuilt.not_recorded hg)
  | @move t t' log u hbuilt hg hu hmove ih =>
    obtain ⟨b, hb⟩ := ih (hbuilt.recorded_init hg hu hrecorded)
    obtain ⟨b', hlast⟩ := hm hbuilt hmove { p with tree := t, used := p.used ++ log.map f, branch := b } rfl
    refine ⟨b', ?_⟩
    rw [exec_forM_append, exec_bind, hb]
    change exec (m u >>= fun _ => pure ()) _ = _
    rw [exec_bind, hlast, List.append_assoc, List.map_append]
    rfl

theorem exec_performAll {f : UsedRule → UsedRule} (hf : ∀ u, perform e (f u) = perform e u)
    (h : Built (fun t u t' => Repeats e t (f u) t') s name t log) (hname : name ∈ knownNames)
    (hrecorded : Recorded t log)
    (hp : p.tree = .root s name) :
    ∃ b, exec (log.forM (perform e)) p = (.ok (), { p with tree := t, used := p.used ++ log.map f, branch := b }) := by
  refine exec_moves (fun {_ _ u _} hbuilt hrepeats q hq => ⟨(f u).branch, ?_⟩) h hrecorded hp
  rw [← hf u]
  exact exec_perform hrepeats (hbuilt.known hname) hq

end Proof

/-! ## Marks -/

/-- the marks on nodes, each with the name of its branch -/
def marksOf (ns : List Node) : List (String × Closing) := ns.filterMap fun n => n.closed.map fun v => (n.branch, v)

theorem marksOf_names (ns : List Node) : ((marksOf ns).map (·.1)).Sublist (ns.map (·.branch)) := by
  induction ns with
  | nil => exact .slnil
  | cons n ns ih =>
    cases hclosed : n.closed with
    | none => simpa [marksOf, hclosed] using ih.cons n.branch
    | some v => simpa [marksOf, hclosed] using ih

theorem lookup_marksOf {ns : List Node} (hn : (ns.map (·.branch)).Nodup) {n : Node} (h : n ∈ ns) :
    (marksOf ns).lookup n.branch = n.closed := by
  induction ns with
  | nil => cases h
  | cons m ns ih =>
    obtain ⟨hm, hn⟩ := List.nodup_cons.1 hn
    rcases List.mem_cons.1 h with rfl | h
    · cases hclosed : n.closed with
      | some v => simp [marksOf, hclosed]
      | none =>
        have hout : n.branch ∉ (marksOf ns).map (·.1) := fun hmem => hm ((marksOf_names ns).subset hmem)
        rw [show marksOf (n :: ns) = marksOf ns by simp [marksOf, hclosed]]
        exact List.lookup_eq_none_iff.2 fun x hx => by
          simpa using fun heq : n.branch = x.1 => hout (heq ▸ List.mem_map_of_mem hx)
    · have hne : (n.branch == m.branch) = false := beq_false_of_ne fun heq => hm (List.mem_map.2 ⟨n, h, heq⟩)
      cases hclosed : m.closed with
      | none =>
        rw [show marksOf (m :: ns) = marksOf ns by simp [marksOf, hclosed]]
        exact ih hn h
      | some v =>
        rw [show marksOf (m :: ns) = (m.branch, v) :: marksOf ns by simp [marksOf, hclosed], List.lookup_cons, hne]
        exact ih hn h

namespace Node

variable {n : Node} {b : String} {v : Closing} {marks : List (String × Closing)}

/-- the node with the mark that there is for its branch -/
def mark (marks : List (String × Closing)) (n : Node) : Node := { n with closed := (marks.lookup n.branch).or n.closed }

theorem mark_self (n : Node) (v : Closing) : n.mark [(n.branch, v)] = { n with closed := some v } := by
  simp [mark]

theorem mark_of_ne (h : n.branch ≠ b) : n.mark [(b, v)] = n := by
  rw [mark, List.lookup_cons, beq_false_of_ne h]
  rfl

theorem mark_cons (h : b ∉ marks.map (·.1)) : n.mark ((b, v) :: marks) = (n.mark [(b, v)]).mark marks := by
  by_cases heq : n.branch = b
  · obtain rfl := heq
    have hnone : marks.lookup n.branch = none := List.lookup_eq_none_iff.2 fun x hx => by
      simpa using fun heq : n.branch = x.1 => h (heq ▸ List.mem_map_of_mem hx)
    simp [mark, hnone]
  · rw [mark_of_ne heq, mark, mark, List.lookup_cons, beq_false_of_ne heq]

theorem mark_unmark (h : marks.lookup n.branch = n.closed) : n.unmark.mark marks = n := by
  rw [mark, unmark, h, Option.or_none]

end Node

namespace ProofTree

mutual
theorem unmarked_unmarked (t : ProofTree) : t.unmarked.unmarked = t.unmarked := by
  match t with
  | node d ts => rw [unmarked, unmarked, unmarkedAll_unmarkedAll ts]; rfl

theorem unmarkedAll_unmarkedAll (ts : List ProofTree) : unmarkedAll (unmarkedAll ts) = unmarkedAll ts := by
  match ts with
  | [] => rfl
  | t :: ts => rw [unmarkedAll, unmarkedAll, unmarked_unmarked t, unmarkedAll_unmarkedAll ts]
end

theorem leaves_close {fs : List Frame} {d : Node} (hn : ((strands (plug fs (node d []))).map (·.leaf.branch)).Nodup)
    (v : Closing) : (strands (plug fs (node { d with closed := some v } []))).map (·.leaf) =
      (strands (plug fs (node d []))).map fun s => s.leaf.mark [(d.branch, v)] := by
  obtain ⟨left, right, hold, hnew⟩ := strands_replaced fs d { d with closed := some v }
  rw [hold, List.map_append, List.map_cons] at hn
  have hother {s : Strand} (hs : s ∈ left ∨ s ∈ right) : s.leaf.mark [(d.branch, v)] = s.leaf := by
    apply Node.mark_of_ne
    intro heq
    rcases hs with hs | hs
    · exact (List.nodup_append.1 hn).2.2 _ (List.mem_map_of_mem hs) _ List.mem_cons_self heq
    · exact (List.nodup_cons.1 (List.nodup_append.1 hn).2.1).1 (heq ▸ List.mem_map_of_mem hs)
  rw [hold, hnew, List.map_append, List.map_append, List.map_cons, List.map_cons, Node.mark_self]
  congr 1
  · exact List.map_congr_left fun s hs => (hother (.inl hs)).symm
  · exact congrArg _ (List.map_congr_left fun s hs => (hother (.inr hs)).symm)

end ProofTree

namespace Proof

variable {e : Setting} {p : Proof}

/-- **Leaves are marked**, one after another. -/
theorem exec_closeAll {marks : List (String × Closing)} (hmarks : (marks.map (·.1)).Nodup)
    (hthere : ∀ x ∈ marks, x.1 ∈ p.tree.branchNames) (hn : p.tree.branchNames.Nodup) :
    ∃ t, exec (marks.forM fun x => Session.closeBranch x.1 x.2) p = (.ok (), { p with tree := t }) ∧
      t.unmarked = p.tree.unmarked ∧ (strands t).map (·.leaf) = (strands p.tree).map fun s => s.leaf.mark marks := by
  induction marks generalizing p with
  | nil => exact ⟨p.tree, rfl, rfl, rfl⟩
  | cons x marks ih =>
    obtain ⟨b, v⟩ := x
    obtain ⟨hb, hrest⟩ := List.nodup_cons.1 hmarks
    have hleaf := hthere (b, v) List.mem_cons_self
    rw [branchNames_eq] at hleaf
    obtain ⟨q, hq⟩ := exists_leaf (List.mem_map.1 hleaf)
    obtain ⟨fs, d, hfound⟩ := found_of_leaf hq
    obtain rfl : d.branch = b := hfound.branch
    have hunmarked : (plug fs (node { d with closed := some v } [])).unmarked = p.tree.unmarked := by
      rw [hfound.tree, unmarked_close]
    have hnames : (plug fs (node { d with closed := some v } [])).branchNames = p.tree.branchNames := by
      rw [← branchNames_unmarked, hunmarked, branchNames_unmarked]
    obtain ⟨t, hrun, ht, hleaves⟩ := ih (p := { p with tree := plug fs (node { d with closed := some v } []) }) hrest
      (fun y hy => by rw [hnames]; exact hthere y (List.mem_cons_of_mem _ hy)) (by rw [hnames]; exact hn)
    refine ⟨t, ?_, ht.trans hunmarked, ?_⟩
    · change exec (Session.closeBranch d.branch v >>= fun _ => marks.forM fun x => Session.closeBranch x.1 x.2) p = _
      rw [exec_bind, exec_closeBranch hfound]
      exact hrun
    · rw [hfound.tree, branchNames_eq] at hn
      have hclose := leaves_close hn v
      rw [← hfound.tree] at hclose
      calc (strands t).map (·.leaf)
          = ((strands (plug fs (node { d with closed := some v } []))).map (·.leaf)).map (Node.mark marks) := by
            rw [hleaves, List.map_map]
            rfl
        _ = (strands p.tree).map fun s => (s.leaf.mark [(d.branch, v)]).mark marks := by
            rw [hclose, List.map_map]
            rfl
        _ = (strands p.tree).map fun s => s.leaf.mark ((d.branch, v) :: marks) :=
            List.map_congr_left fun s _ => (Node.mark_cons hb).symm

/-- **The marks of the leaves** are made again on the tree without marks, and every leaf is as it was. -/
theorem exec_remark {t : ProofTree} (hnames : t.branchNames.Nodup) (hp : p.tree = t.unmarked) :
    ∃ t', exec ((marksOf (t.leaves.map (·.data))).forM fun x => Session.closeBranch x.1 x.2) p =
    (.ok (), { p with tree := t' }) ∧ t'.unmarked = t.unmarked ∧ t'.leaves.map (·.data) = t.leaves.map (·.data) := by
  have hsub := marksOf_names (t.leaves.map (·.data))
  rw [List.map_map] at hsub
  have hsame : p.tree.branchNames = t.branchNames := by rw [hp, branchNames_unmarked]
  obtain ⟨t', hmarks, ht, hleaves⟩ := exec_closeAll (p := p) (hsub.nodup hnames)
    (fun x hx => by rw [hsame]; exact hsub.subset (List.mem_map_of_mem hx)) (by rw [hsame]; exact hnames)
  rw [hp] at ht hleaves
  refine ⟨t', hmarks, ht.trans (unmarked_unmarked t), ?_⟩
  have hold : t.leaves.map (·.data) = (strands t).map (·.leaf) := leaves_map t id
  have hclean : (strands t.unmarked).map (·.leaf) = (strands t).map (·.leaf.unmark) := by
    rw [strands_unmarked, List.map_map]
    rfl
  calc t'.leaves.map (·.data)
      = (strands t').map (·.leaf) := leaves_map t' id
    _ = ((strands t.unmarked).map (·.leaf)).map (Node.mark (marksOf (t.leaves.map (·.data)))) := by
        rw [hleaves, List.map_map]
        rfl
    _ = (strands t).map (·.leaf) := by
        rw [hclean, List.map_map]
        refine List.map_congr_left fun s hs => Node.mark_unmark ?_
        refine lookup_marksOf (by rw [List.map_map]; exact hnames) ?_
        rw [hold]
        exact List.mem_map_of_mem hs
    _ = t.leaves.map (·.data) := hold.symm

/-! ## The whole proof -/

/-- **A proof that went well** and that no solver had a part in is made once more: started with its statement, with its
moves one after another, and with the marks of its leaves. -/
theorem KeptFrom.remade {root : Sentence} {name : String} (h : p.KeptFrom True e root name)
    (hauto : ∀ u ∈ p.used, u.auto = false) :
    ∃ q₀ q₁ q, Proof.start e p.statement = .ok q₀ ∧ exec (p.used.forM (perform e)) q₀ = (.ok (), q₁) ∧
      exec ((marksOf (p.tree.leaves.map (·.data))).forM fun x => Session.closeBranch x.1 x.2) q₁ = (.ok (), q) ∧
      q.statement = p.statement ∧ q.used = p.used ∧ q.tree.unmarked = p.tree.unmarked ∧
      q.tree.leaves.map (·.data) = p.tree.leaves.map (·.data) := by
  have hstart : Proof.start e p.statement = .ok (fresh p.statement root name) := by
    rw [Proof.start, h.prepared, h.first trivial]
    rfl
  have hbuilt := h.orderly.built.mono_of_mem fun t u t' hu hR => hR trivial (hauto u hu)
  obtain ⟨b, hmoves⟩ := exec_performAll (p := fresh p.statement root name) (f := id) (fun _ => rfl) hbuilt h.known
    (recorded_unmarked.2 (h.recorded trivial)) rfl
  rw [List.map_id] at hmoves
  have hnames : p.tree.branchNames.Nodup := by
    rw [branchNames_eq]
    exact h.orderly.names
  obtain ⟨t, hmarks, ht, hleaves⟩ := exec_remark
    (p := { fresh p.statement root name with tree := p.tree.unmarked, used := [] ++ p.used, branch := b }) hnames rfl
  exact ⟨_, _, _, hstart, hmoves, hmarks, rfl, rfl, ht, hleaves⟩

end Proof

end TableauTutor
