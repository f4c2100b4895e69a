import TableauTutor.Proofs.Checking
import TableauTutor.Proofs.GivingUp
import TableauTutor.Proofs.Naming

/-!
The current branch. Names are the only handle on branches, and the branch that work goes on with is known by its name
alone. So the name had better be there. It always is, with one exception: a solver that gives up takes away nodes that
no recorded move made, and goes on under the name of a branch that may have gone with them.

- `onBranch_useOn`, `onBranch_goneTo`, …: what is done to a proof leaves the current branch there.
- `onBranch_solve`: so does the solver, unless it gives up and takes the branch away.
- `Session.branches_named`: all of this for whatever is done in a session.
-/

namespace TableauTutor

open ProofTree

namespace Proof

variable {e : Setting} {p p' : Proof} {b : String} {q : Place} {fs : List Frame} {d : Node}

/-! ## Proofs in order -/

/-- a proof of some statement whose tree is built by its moves, each of them made on a branch that was there -/
def InOrder (p : Proof) : Prop := ∃ st root name, Orderly MadeOn (fun _ _ => True) st root name [] p

/-- the branch that work goes on with is there -/
def OnBranch (p : Proof) : Prop := p.branch ∈ p.tree.branchNames

namespace InOrder

theorem names (h : p.InOrder) : p.tree.branchNames.Nodup := by
  obtain ⟨st, root, name, h⟩ := h
  rw [branchNames_eq]
  exact h.names

theorem named (h : p.InOrder) : p.tree.Named := by
  obtain ⟨st, root, name, h⟩ := h
  exact (named_unmarked p.tree).1 h.built.named

theorem branch_mem (h : p.InOrder) : ∀ u ∈ p.used, u.branch ∈ p.tree.branchNames := by
  obtain ⟨st, root, name, h⟩ := h
  rw [← branchNames_unmarked]
  exact h.built.branch_mem

theorem exists_leaf (h : p.InOrder) (hb : b ∈ p.tree.branchNames) : ∃ q, p.leaf b = .ok q := by
  have hnames := h.names
  rw [branchNames_eq] at hnames
  obtain ⟨s, hs, rfl⟩ := mem_branchNames.1 hb
  obtain ⟨fs, ht, -⟩ := exists_frames hs
  obtain ⟨q, hfound⟩ := found_plug hnames ht
  exact ⟨q, hfound.leaf⟩

end InOrder

theorem inOrder_fresh (st root : Sentence) (name : String) : (fresh st root name).InOrder := ⟨st, root, name, .fresh⟩

theorem solvesBy_madeOn : SolvesBy MadeOn := fun _ hmem => hmem

theorem movesBy_madeOn : MovesBy MadeOn e := by
  intro p b q fs d rule context g s hfound _ _ _
  rw [MadeOn, branchNames_unmarked]
  exact hfound.mem_branchNames

theorem closesBy_true : ClosesBy (fun _ _ => True) e.calculus := fun _ _ _ _ _ => trivial

theorem keeps_inOrder {α : Type} {x : Work α}
    (h : ∀ {st root name}, Keeps (Orderly MadeOn (fun _ _ => True) st root name []) x) : Keeps InOrder x := by
  rintro p ⟨st, root, name, hp⟩
  exact ⟨st, root, name, h p hp⟩

/-- what every change keeps that is made to a proof, the solver apart -/
structure Stable (I : Proof → Prop) : Prop where
  use : ∀ e rule context b, Keeps I (useOn e rule context b)
  close : ∀ e b, Keeps I (dealClosure e b)
  grow : ∀ e b {g}, (∀ b ∈ g, b ≠ []) → Keeps I (grow e b g)
  goTo : ∀ {p p'}, I p → p.GoneTo p' → I p'
  undo : ∀ {p kept rest k}, I p → p.used = kept ++ rest → (∃ v ∈ rest, v.layer = k) → (∀ v ∈ rest, k ≤ v.layer) →
    I { p with
        used := kept, tree := p.tree.prune k
        branch := ((kept.getLast?).map (·.branch)).getD (p.tree.prune k).data.branch }

theorem keeps_grow {J : Proof → Prop} {g : Calculus.Growth} (hlost : ∀ {p q fs d}, J p → p.Found b q fs d →
      J { p with tree := plug fs (node d (growth e p d g none)) }) (hg : ∀ b ∈ g, b ≠ []) : Keeps J (grow e b g) := by
  intro p hp
  cases hleaf : p.leaf b with
  | error f =>
    simp only [grow, exec_bind, exec_get, exec_lift, hleaf]
    exact hp
  | ok q =>
    obtain ⟨fs, d, hfound⟩ := found_of_leaf hleaf
    rw [exec_grow_growth hfound hg]
    exact hlost hp hfound

/-- **Proofs stay in order.** -/
theorem stable_inOrder : Stable InOrder where
  use _ rule context b := keeps_inOrder (keeps_useOn movesBy_madeOn rule context b)
  close _ b := keeps_inOrder (keeps_dealClosure closesBy_true b)
  grow _ _ _ hg := keeps_inOrder (keeps_grow (fun hp hfound => hp.lost hfound.tree hg none) hg)
  goTo hp hgone := by
    obtain ⟨st, root, name, hp⟩ := hp
    obtain ⟨b, rfl, -⟩ := hgone
    exact ⟨st, root, name, hp.goTo b⟩
  undo hp hused hfirst hleast := by
    obtain ⟨st, root, name, hp⟩ := hp
    exact ⟨st, root, name, hp.undo hused hfirst hleast List.nil_prefix _⟩

theorem inOrder_solve : Keeps InOrder (solve e) := keeps_inOrder (keeps_solve solvesBy_madeOn closesBy_true)

/-! ## The current branch -/

theorem branchNames_growth (ht : p.tree = plug fs (node d [])) {g : Calculus.Growth} (hg : ∀ b ∈ g, b ≠ [])
    (s : Option Sentence) : p.tree.branchNames ⊆ (plug fs (node d (growth e p d g s))).branchNames := by
  rcases grows_growth (e := e) ht hg s with hnil | hgrows
  · rw [hnil, ← ht]
    exact List.Subset.refl _
  · rw [← branchNames_unmarked p.tree, ← branchNames_unmarked (plug fs _)]
    exact hgrows.branchNames_subset

theorem branchNames_close (fs : List Frame) (d : Node) (v : Closing) :
    (plug fs (node { d with closed := some v } [])).branchNames = (plug fs (node d [])).branchNames := by
  rw [← branchNames_unmarked, unmarked_close, branchNames_unmarked]

/-- **The changes of the solver** leave the current branch there. -/
theorem endures_onBranch : Endures e OnBranch where
  lost s hp hfound hg := branchNames_growth hfound.tree hg s hp
  move s hp hfound hg _ _ _ _ := branchNames_growth hfound.tree hg.2 s hp
  close {p b q fs d v info} hp hfound _ := by
    rw [OnBranch, hfound.tree] at hp
    rwa [OnBranch, branchNames_close]

/-- **Going to a place** is going to a branch that is there: a node has the name of a leaf below it. -/
theorem onBranch_goneTo (hp : p.InOrder) (hb : p.OnBranch) (h : p.GoneTo p') : p'.OnBranch := by
  obtain ⟨b, rfl, rfl | ⟨q, hq, rfl⟩⟩ := h
  · exact hb
  · obtain ⟨fs, ht, -, -⟩ := exists_plug hq
    have hsub := branchNames_subset_plug fs q.tree
    rw [← ht] at hsub
    exact hsub (hp.named.place hq)

/-- **The current branch stays there**, the solver apart. -/
theorem stable_onBranch : Stable fun p => p.InOrder ∧ p.OnBranch where
  use e rule context b := by
    refine .and (stable_inOrder.use e rule context b)
      (keeps_using (fun hp hfound hrule => ?_) fun hp hfound hrule _ => ?_)
    · exact branchNames_growth hfound.tree (Calculus.useRule_full hrule).2 none hp
    · exact branchNames_growth hfound.tree (Calculus.useRule_full hrule).2 (some _) hp
  close e b := .and (stable_inOrder.close e b) (endures_onBranch.dealClosure b)
  grow e b _ hg := .and (stable_inOrder.grow e b hg)
    (keeps_grow (fun hp hfound => branchNames_growth hfound.tree hg none hp) hg)
  goTo hp hgone := ⟨stable_inOrder.goTo hp.1 hgone, onBranch_goneTo hp.1 hp.2 hgone⟩
  undo {p kept rest k} hp hused hfirst hleast := by
    -- work goes on with the branch of the last move that is left, or with the one of the root
    have hin := stable_inOrder.undo hp.1 hused hfirst hleast
    refine ⟨hin, ?_⟩
    cases hlast : kept.getLast? with
    | none => exact hin.named.data_mem
    | some u => exact hin.branch_mem u (List.mem_of_getLast? hlast)

/-- **The solver** leaves the current branch there, unless it gives up and the branch is among what it takes away. Then
there was something that no recorded move made. -/
theorem onBranch_solve (hp : p.InOrder) (hb : p.OnBranch) : (exec (solve e) p).2.OnBranch ∨
    (exec (solve e) p).1 = .ok false ∧ ¬ p.tree.Recorded p.used ∧
    p.branch ∉ (p.tree.prune (layerAfter p.used)).branchNames := by
  by_cases hgives : (exec (solve e) p).1 = .ok false
  · obtain ⟨st, root, name, horderly⟩ := hp
    obtain ⟨-, hbranch, htree⟩ := solve_gives_up solvesBy_madeOn closesBy_true horderly (Prod.ext hgives rfl)
    rw [OnBranch, hbranch, ← branchNames_unmarked, htree, branchNames_unmarked]
    by_cases hmem : p.branch ∈ (p.tree.prune (layerAfter p.used)).branchNames
    · exact .inl hmem
    · refine .inr ⟨hgives, fun hrec => hmem ?_, hmem⟩
      rwa [horderly.prune_eq_self hrec]
  · exact .inl (endures_onBranch.solve_of_ne hb hgives)

end Proof

/-! ## In a session -/

namespace Session

open Proof

variable {s s₁ : Session} {I : Proof → Prop} {α : Type}

/-- the session has a proof, of which something is true -/
def Holding (I : Proof → Prop) (s : Session) : Prop := ∃ p, s.proof = some p ∧ I p

theorem holding_withProof {x : Setting → Work α} (h : ∀ e, Keeps I (x e)) : Keeps (Holding I) (withProof x) := by
  rintro s ⟨p, hp, hI⟩
  cases he : s.setting with
  | error f =>
    simp only [withProof, exec_bind, exec_get, hp, exec_lift, he]
    exact ⟨p, hp, hI⟩
  | ok e =>
    rcases hrun : exec (x e) p with ⟨r, p'⟩
    have hkept := h e p hI
    rw [hrun] at hkept
    rw [exec_withProof he hp hrun]
    exact ⟨p', rfl, hkept⟩

theorem holding_useRule (h : ∀ e rule context b, Keeps I (useOn e rule context b)) (rule : String) (context : Context) :
    Keeps (Holding I) (useRule rule context) :=
  keeps_useRule_of fun b => holding_withProof fun e => h e rule context b

theorem holding_changeAccessibility (level : Int) : Keeps (Holding I) (changeAccessibility level) := by
  rintro s ⟨p, hp, hI⟩
  obtain ⟨files, hfiles⟩ := changeAccessibility_frame level s
  rw [hfiles]
  exact ⟨p, hp, hI⟩

theorem exec_solve_snd (s : Session) : (exec solve s).2 = (exec (withProof Proof.solve) s).2 := by
  simp only [solve, exec_bind]
  rcases exec (withProof Proof.solve) s with ⟨f | _ | _, t⟩
  · rfl
  · rfl
  · simp only [if_true, exec_bind, exec_get, exec_lift]
    cases t.currentProof <;> rfl

/-- what can be done to the proof of a session: a task, or branches hung below a leaf that no rule gave -/
inductive Chore where
  | task (t : Task)
  | append (g : Calculus.Growth) (branch : Option String)

/-- a chore done; what is to be hung is hung below the current branch if no other is named -/
def Chore.act : Chore → Act Unit
  | task t => t.act
  | append g branch => withProof fun e => do
    let p ← get
    let _ ← Proof.grow e (branch.getD p.branch) g

/-- no branch that is to be hung is empty -/
def Chore.Full : Chore → Prop
  | task _ => True
  | append g _ => ∀ b ∈ g, b ≠ []

/-- chores done one after another, whether they succeed or fail -/
def doChores (s : Session) (chores : List Chore) : Session := chores.foldl (fun s chore => (exec chore.act s).2) s

/-- **Every chore** but running the solver keeps what is stable. -/
theorem holding_chore (hI : Stable I) {chore : Chore} (hfull : chore.Full) (hne : chore ≠ .task .solve) :
    Keeps (Holding I) chore.act := by
  cases chore with
  | append g branch =>
    have hgrow (e : Setting) : Keeps I (do let p ← get; let _ ← Proof.grow e (branch.getD p.branch) g : Work Unit) :=
      Keeps.get.bind fun p => (hI.grow e _ hfull).bind fun _ => .pure _
    exact holding_withProof hgrow
  | task t =>
    cases t with
    | use rule context => exact (holding_useRule hI.use rule context).bind fun _ => .pure _
    | close branch => exact ((holding_withProof fun e => hI.close e branch).bind fun _ => .pure _).bind fun _ => .pure _
    | jump target => exact holding_withProof fun e p hp => hI.goTo hp (goneTo_jump target p)
    | next => exact (holding_withProof fun e p hp => hI.goTo hp (goneTo_next p)).bind fun _ => .pure _
    | undo amount =>
      refine Keeps.bind ?_ fun _ => .pure _
      rintro s ⟨p, hp, hkept⟩
      obtain ⟨p', n, u, heq, rfl | ⟨kept, rest, k, hused, hfirst, hleast, rfl⟩⟩ := undo_frame hp amount <;> rw [heq]
      · exact ⟨p', rfl, hkept⟩
      · exact ⟨_, rfl, hI.undo hkept hused hfirst hleast⟩
    | solve => exact absurd rfl hne
    | colours level => exact holding_changeAccessibility level

/-- a solver that is run now gives up, and it takes the current branch away with nodes that no recorded move made -/
def LosesBranch (s : Session) : Prop :=
  ∃ e p, s.setting = .ok e ∧ s.proof = some p ∧ (exec (Proof.solve e) p).1 = .ok false ∧
    ¬ p.tree.Recorded p.used ∧ p.branch ∉ (p.tree.prune (layerAfter p.used)).branchNames

theorem inOrder_chore {chore : Chore} (hfull : chore.Full) : Keeps (Holding InOrder) chore.act := by
  by_cases hsolve : chore = .task .solve
  · subst hsolve
    refine Keeps.bind (fun s hs => ?_) fun _ => .pure _
    rw [exec_solve_snd]
    exact holding_withProof (fun e => inOrder_solve) s hs
  · exact holding_chore stable_inOrder hfull hsolve

/-- **Every chore** leaves the current branch there, but for a solver that gives up and takes it away. -/
theorem onBranch_chore {chore : Chore} (hfull : chore.Full) (h : s.Holding fun p => p.InOrder ∧ p.OnBranch) :
    (exec chore.act s).2.Holding (fun p => p.InOrder ∧ p.OnBranch) ∨ chore = .task .solve ∧ s.LosesBranch := by
  by_cases hsolve : chore = .task .solve
  · subst hsolve
    have hstate : (exec (Chore.task .solve).act s).2 = (exec (withProof Proof.solve) s).2 := by
      rw [← exec_solve_snd]
      simp only [Chore.act, Task.act, exec_bind]
      rcases exec solve s with ⟨_ | _, t⟩ <;> rfl
    rw [hstate]
    obtain ⟨p, hp, hin, hon⟩ := h
    cases he : s.setting with
    | error f =>
      simp only [withProof, exec_bind, exec_get, hp, exec_lift, he]
      exact .inl ⟨p, hp, hin, hon⟩
    | ok e =>
      rw [exec_withProof he hp rfl]
      rcases onBranch_solve hin hon with hon' | ⟨hgives, hrec, hlost⟩
      · exact .inl ⟨_, rfl, inOrder_solve p hin, hon'⟩
      · exact .inr ⟨rfl, e, p, he, hp, hgives, hrec, hlost⟩
  · exact .inl (holding_chore stable_onBranch hfull hsolve s h)

theorem holding_newProof {text : String} (h : exec (newProof text) s = (.ok none, s₁)) :
    s₁.Holding fun p => p.InOrder ∧ p.OnBranch := by
  obtain ⟨ts, e, p, -, -, -, hp, rfl⟩ := newProof_eq_ok h
  have hfresh : p.InOrder ∧ p.OnBranch := by
    obtain ⟨root, -, hp⟩ := of_bind_eq_ok hp
    obtain rfl := Except.ok.inj hp
    exact ⟨inOrder_fresh _ _ _, by rw [OnBranch, ProofTree.root, branchNames_leaf]; exact List.mem_singleton.2 rfl⟩
  exact ⟨_, rfl, stable_onBranch.close e p.branch p hfresh⟩

/-- **Names of branches.** Let a proof be started, and let any chores be done on it, whether they succeed or fail. Then
no two leaves have the same name, every node has the name of a leaf below it, and the current branch has a leaf, unless
a solver took it away when it gave up. -/
theorem branches_named {text : String} (h : exec (newProof text) s = (.ok none, s₁)) {chores : List Chore}
    (hfull : ∀ chore ∈ chores, chore.Full) :
    ∃ p, (s₁.doChores chores).proof = some p ∧ p.tree.branchNames.Nodup ∧
      (∀ q ∈ p.tree.places, q.data.branch ∈ q.tree.branchNames) ∧
      ((∃ q, p.leaf p.branch = .ok q) ∨
        ∃ before after, chores = before ++ .task .solve :: after ∧ (s₁.doChores before).LosesBranch) := by
  have hall : (s₁.doChores chores).Holding InOrder ∧ ((s₁.doChores chores).Holding (fun p => p.InOrder ∧ p.OnBranch) ∨
      ∃ before after, chores = before ++ .task .solve :: after ∧ (s₁.doChores before).LosesBranch) := by
    have hstart := holding_newProof h
    induction chores using List.reverseRecOn with
    | nil => exact ⟨hstart.imp fun p hp => ⟨hp.1, hp.2.1⟩, .inl hstart⟩
    | append_singleton chores chore ih =>
      obtain ⟨hbefore, hlast⟩ := List.forall_mem_append.1 hfull
      have hlast := hlast chore (List.mem_singleton.2 rfl)
      have hnext : s₁.doChores (chores ++ [chore]) = (exec chore.act (s₁.doChores chores)).2 := by
        rw [doChores, List.foldl_append]
        rfl
      obtain ⟨hin, hon | ⟨before, after, rfl, hloses⟩⟩ := ih hbefore
      · rw [hnext]
        refine ⟨inOrder_chore hlast _ hin, (onBranch_chore hlast hon).imp_right fun hloses => ?_⟩
        exact ⟨chores, [], by rw [hloses.1], hloses.2⟩
      · rw [hnext]
        exact ⟨inOrder_chore hlast _ hin, .inr ⟨before, after ++ [chore], by simp, hloses⟩⟩
  obtain ⟨⟨p, hp, hin⟩, hon⟩ := hall
  refine ⟨p, hp, hin.names, fun q hq => hin.named.place hq, hon.imp_left fun ⟨p', hp', hboth⟩ => ?_⟩
  obtain rfl := Option.some.inj (hp'.symm.trans hp)
  exact hin.exists_leaf hboth.2

/-- two branches hung below the root, and a walk to the second of them -/
def offRecord : List Chore :=
  [.append [[some [.of "signtrue" "T", .of "sentvar" "p"]], [some [.of "signfalse" "F", .of "sentvar" "p"]]] none,
    .task (.jump "right")]

theorem branches_named_off_record : ∃ s₁ p, exec (newProof "p v ~p") signedSession = (.ok none, s₁) ∧
    (∀ chore ∈ offRecord, chore.Full) ∧ (s₁.doChores offRecord).proof = some p ∧ p.tree.branchNames.Nodup ∧
    (∀ q ∈ p.tree.places, q.data.branch ∈ q.tree.branchNames) ∧ ∃ q, p.leaf p.branch = .ok q := by
  obtain ⟨a, root, name, -, -, hnew⟩ := exec_newProof signedSession_accepts
  have hfull : ∀ chore ∈ offRecord, chore.Full := by simp [offRecord, Chore.Full]
  obtain ⟨p, hp, hnames, hnamed, hleaf | ⟨before, after, hsolve, -⟩⟩ := branches_named hnew hfull
  · exact ⟨_, p, hnew, hfull, hp, hnames, hnamed, hleaf⟩
  · -- the solver is not among these chores
    have hmem : Chore.task .solve ∈ offRecord := by rw [hsolve]; simp
    simp [offRecord] at hmem

-- the solver has nothing to do here and gives up, and then the branch that work goes on with is gone
example : (((exec (newProof "p") signedSession).2.doChores (offRecord ++ [.task .solve])).proof.map fun p =>
    (p.branch, p.tree.branchNames)) = some ("Zielona", ["Czerwona"]) := by decide +kernel

end Session

end TableauTutor
