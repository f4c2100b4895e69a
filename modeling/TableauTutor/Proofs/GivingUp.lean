import TableauTutor.Proofs.Recording

/-!
A solver that gives up. Everything after the moves that were there when it started is taken away: not only what it made
itself, but also nodes that no recorded move made. If there are none, the tree is what it was before, its marks apart.

- `solve_gives_up`: what a solver that gives up leaves.
- `Orderly.prune_eq_self`: where every node was made by a recorded move, that is the tree as it was.
-/

namespace TableauTutor

namespace ProofTree

mutual
theorem prune_prune {k k' : Int} (h : k ≤ k') (t : ProofTree) : prune k (prune k' t) = prune k t := by
  match t with
  | node d ts => rw [prune, prune, prune, pruneAll_pruneAll h]

theorem pruneAll_pruneAll {k k' : Int} (h : k ≤ k') (ts : List ProofTree) :
    pruneAll k (pruneAll k' ts) = pruneAll k ts := by
  match ts with
  | [] => rfl
  | t :: ts =>
    by_cases hk' : t.data.layer < k'
    · rw [pruneAll, if_pos hk', pruneAll, pruneAll, prune_data, prune_prune h, pruneAll_pruneAll h]
    · rw [pruneAll, if_neg hk', pruneAll_pruneAll h, pruneAll, if_neg (by omega)]
end

end ProofTree

namespace Proof

open ProofTree

variable {e : Setting} {p q : Proof} {R : ProofTree → UsedRule → ProofTree → Prop} {M : List Sentence → Closing → Prop}
  {st root : Sentence} {name : String} {start : List UsedRule}

theorem Orderly.layerAfter_le (h : Orderly R M st root name start p) :
    layerAfter start ≤ p.tree.unmarked.nextLayer := by
  cases hlast : start.getLast? with
  | none =>
    have := h.built.nextLayer_pos
    simp only [layerAfter, hlast, Option.map_none, Option.getD_none]
    omega
  | some u =>
    have := h.built.layer_lt u (h.start.subset (List.mem_of_getLast? hlast))
    simp only [layerAfter, hlast, Option.map_some, Option.getD_some]
    omega

theorem Orderly.layerAfter_mono (h : Orderly R M st root name start p) {more rest : List UsedRule}
    (hmore : start <+: more) (hused : more ++ rest = p.used) : layerAfter start ≤ layerAfter more := by
  obtain ⟨mid, rfl⟩ := hmore
  have hlayer := h.lt_layer (by rw [← hused, List.append_assoc] : start ++ (mid ++ rest) = p.used)
  cases hlast : mid.getLast? with
  | none =>
    obtain rfl := List.getLast?_eq_none_iff.1 hlast
    simp
  | some u =>
    calc layerAfter start ≤ u.layer := hlayer u (List.mem_append_left _ (List.mem_of_getLast? hlast))
      _ ≤ u.layer + 1 := by omega
      _ = layerAfter (start ++ mid) := by
        rw [layerAfter, List.getLast?_append, hlast, Option.some_or, Option.map_some, Option.getD_some]

/-- a proof that has gone on from another one: without what came after the moves of the other
one, it is as the other one is -/
structure GoneOn (R : ProofTree → UsedRule → ProofTree → Prop) (M : List Sentence → Closing → Prop) (st root : Sentence)
    (name : String) (p q : Proof) : Prop where
  orderly : Orderly R M st root name p.used q
  branch : q.branch = p.branch
  tree : q.tree.unmarked.prune (layerAfter p.used) = p.tree.unmarked.prune (layerAfter p.used)

theorem GoneOn.refl (h : Orderly R M st root name start p) : GoneOn R M st root name p p :=
  ⟨⟨h.statement, h.built, List.prefix_rfl, h.marked⟩, rfl, rfl⟩

theorem Orderly.prune_growth (h : Orderly R M st root name start p) {fs : List Frame} {d : Node}
    (ht : p.tree = plug fs (node d [])) {g : Calculus.Growth} (hg : ∀ b ∈ g, b ≠ []) (s : Option Sentence) :
    (plug fs (node d (growth e p d g s))).unmarked.prune (layerAfter start) =
    p.tree.unmarked.prune (layerAfter start) := by
  rcases grows_growth (e := e) ht hg s with hnil | hgrows
  · rw [hnil, ← ht]
  · exact hgrows.prune h.layerAfter_le

theorem endures_goneOn (hR : SolvesBy R) (hM : ClosesBy M e.calculus) (p : Proof) :
    Endures e (GoneOn R M st root name p) where
  lost s hq hfound hg :=
    ⟨(endures_orderly hR hM).lost s hq.orderly hfound hg, hq.branch,
      (hq.orderly.prune_growth hfound.tree hg s).trans hq.tree⟩
  move s hq hfound hg hok hlayer hbranch hauto :=
    ⟨(endures_orderly hR hM).move s hq.orderly hfound hg hok hlayer hbranch hauto, hq.branch,
      (hq.orderly.prune_growth hfound.tree hg.2 s).trans hq.tree⟩
  close {q} _ _ _ _ _ _ hq hfound hclosure := by
    refine ⟨(endures_orderly hR hM).close hq.orderly hfound hclosure, hq.branch, ?_⟩
    have htree := hq.tree
    rw [hfound.tree] at htree
    rwa [unmarked_close]

theorem retreats_goneOn (p : Proof) : Retreats p.used (GoneOn R M st root name p) where
  stays hq := hq.orderly.start
  back {q more rest} hq hmore hused := by
    refine ⟨retreats_orderly.back hq.orderly hmore hused, hq.branch, ?_⟩
    rw [takeBack, prune_unmarked, prune_prune (hq.orderly.layerAfter_mono hmore hused)]
    exact hq.tree

/-- rules that are given up end with taking back what came after the moves that were there -/
theorem tryRules_eq_false {bound : Nat} {tried rules : List String} (hrules : rules ≠ []) {a : Agenda}
    (h : exec (tryRules e bound tried rules a) p = (.ok false, q)) : ∃ q' : Proof, q = q'.takeBack p.used := by
  obtain ⟨rule, rest, rfl⟩ := List.exists_cons_of_ne_nil hrules
  simp only [tryRules, exec_bind, exec_get] at h
  rcases hsat : exec (saturate e bound (tried ++ [rule]) bound a) p with ⟨f | ⟨done, a'⟩, p'⟩ <;> rw [hsat] at h
  · cases h
  cases done with
  | true => cases h
  | false =>
    simp only [Bool.false_eq_true, if_false, exec_bind] at h
    rcases hrest : exec (tryRules e bound (tried ++ [rule]) rest a') p' with ⟨f | _ | _, p''⟩ <;> rw [hrest] at h
    · cases h
    · exact ⟨p'', (Prod.mk.inj h).2.symm⟩
    · cases h

theorem solve_eq_false (h : exec (solve e) p = (.ok false, q)) : ∃ q' : Proof, q = q'.takeBack p.used := by
  have hclose (b : String) : Keeps (fun q => q.used = p.used) (dealClosure e b) := keeps_closing fun hq _ _ => hq
  obtain ⟨p', hused, ⟨f, hrun⟩ | ⟨a, -, hrun⟩⟩ := exec_solve_eq hclose rfl <;> rw [hrun] at h
  · cases h
  · rw [← hused]
    exact tryRules_eq_false (by decide) h

/-- **A solver that gives up** leaves the moves that were there and the current branch, and what is left of the tree
when everything after these moves is taken away. -/
theorem solve_gives_up (hR : SolvesBy R) (hM : ClosesBy M e.calculus) (hp : Orderly R M st root name start p)
    (h : exec (solve e) p = (.ok false, q)) :
    q.used = p.used ∧ q.branch = p.branch ∧ q.tree.unmarked = (p.tree.prune (layerAfter p.used)).unmarked := by
  have hgone := (endures_goneOn hR hM p).solve (retreats_goneOn p) p (.refl hp)
  rw [h] at hgone
  -- what came after the moves of the proof is gone in the end, so all that is left is what was there before
  obtain ⟨q', rfl⟩ := solve_eq_false h
  refine ⟨rfl, hgone.branch, ?_⟩
  have htree := hgone.tree
  simp only [takeBack, prune_unmarked, prune_prune (Int.le_refl _)] at htree
  simp only [takeBack, prune_unmarked, htree]

/-- where every node was made by a recorded move, there is nothing after the moves -/
theorem Orderly.prune_eq_self (h : Orderly R M st root name start p) (hrec : p.tree.Recorded p.used) :
    p.tree.prune (layerAfter p.used) = p.tree := by
  have hlt := lt_layerAfter h.layers.1
  have hpos := layerAfter_pos h.layers.2
  refine ProofTree.prune_eq_self fun s hs n hn => ?_
  rcases hrec s hs n hn with hzero | ⟨u, hu, hlayer⟩
  · rwa [hzero]
  · rw [← hlayer]
    exact hlt u hu

end Proof

end TableauTutor
