import TableauTutor.Proofs.Reached

/-!
Undoing. A move hangs nodes in a new layer below a leaf, the closure check after it marks leaves of that layer only, and
going to other branches changes no node. So what is left of a proof when the layers of some moves are taken away is the
proof before these moves, with all its marks; and as every successful use of a rule is one recorded move, taking back as
many moves as rules were used takes back just these.

- `Session.undo_played`: undo takes a run back.
-/

namespace TableauTutor

open ProofTree Calculus

/-! ## Rules yield something -/

namespace Calculus

variable {c : Calculus} {x : Lexer} {branch : List Sentence} {used : History} {context : Context} {rule : String}

theorem naive_of_useRule {r : Option (Growth × Sentence)} (h : c.useRule x rule branch used context = .ok r) :
    ∃ m numbers, c.naive x m branch numbers = .ok (r.map (·.1)) := by
  simp only [useRule] at h
  split at h
  · rename_i m _
    split at h
    · obtain ⟨_ | i, -, h⟩ := of_bind_eq_ok h
      · cases h
      simp only at h
      split at h
      · split at h
        · cases h
        cases m with
        | doubleNegation =>
          obtain ⟨numbers, -, h⟩ := of_bind_eq_ok h
          obtain ⟨_ | g, hg, h⟩ := of_bind_eq_ok h <;> obtain rfl := Except.ok.inj h <;> exact ⟨_, numbers, hg⟩
        | decomposition dec =>
          obtain ⟨j, -, h⟩ := of_bind_eq_ok h
          obtain ⟨numbers, -, h⟩ := of_bind_eq_ok h
          obtain ⟨_ | g, hg, h⟩ := of_bind_eq_ok h <;> obtain rfl := Except.ok.inj h <;> exact ⟨_, numbers, hg⟩
      · cases h
    · cases h
  · cases h

/-- **A rule that is used yields something**; in the calculus with signs, if the
sentences of the branch say something. -/
theorem useRule_isSome (hsigned : c = .signed → c.HasLexer x ∧ ∀ s ∈ branch, ∃ a, c.Means s a)
    {r : Option (Growth × Sentence)} (h : c.useRule x rule branch used context = .ok r) : r.isSome := by
  obtain ⟨m, numbers, hnaive⟩ := naive_of_useRule h
  suffices (r.map (·.1)).isSome by rwa [Option.isSome_map] at this
  generalize r.map (·.1) = g at hnaive
  unfold naive at hnaive
  split at hnaive
  · obtain ⟨g', -, rfl⟩ := of_map_eq_ok hnaive
    rfl
  · cases c with
    | unsigned =>
      obtain ⟨g', -, rfl⟩ := of_map_eq_ok hnaive
      rfl
    | signed =>
      obtain ⟨hx, hbranch⟩ := hsigned rfl
      obtain ⟨s, a, ns, ps, -, -, rfl, -⟩ := decompose_means hx hbranch hnaive
      rfl
  · cases hnaive

end Calculus

/-! ## Proofs and their later layers -/

namespace Proof

variable {e : Setting} {p q : Proof} {b : String} {place : Place} {fs : List Frame} {d : Node} {rule : String}
    {context : Context} {k : Int}

theorem prune_growth (ht : p.tree = plug fs (node d [])) (hk : k ≤ p.tree.nextLayer) (g : Growth)
    (s : Option Sentence) : (plug fs (node d (growth e p d g s))).prune k = p.tree.prune k := by
  rw [ht]
  refine prune_plug_congr fs ?_ rfl
  have hnil : pruneAll k (growth e p d g s) = [] := by
    refine pruneAll_eq_nil fun u hu n hn => ?_
    obtain ⟨name, y, rfl⟩ := mem_growth hu hn
    rwa [grownNode_layer]
  rw [ProofTree.prune, hnil]
  rfl

theorem prune_close (ht : p.tree = plug fs (node d [])) (hroot : p.tree.data.layer < k) (hd : k ≤ d.layer)
    (v : Closing) : (plug fs (node { d with closed := some v } [])).prune k = p.tree.prune k := by
  have hfs : fs ≠ [] := by
    rintro rfl
    rw [ht] at hroot
    exact absurd hroot (Int.not_lt.2 hd)
  rw [ht]
  exact prune_plug_removed hfs hd hd

/-- **A rule used on a branch**, if all is well: a move that is recorded. -/
theorem Kept.exec_useOn_ok {steady : Prop} (hp : p.Kept steady e) (h : exec (useOn e rule context b) p = (.ok (), q)) :
    ∃ place fs d g s, p.Found b place fs d ∧
      e.calculus.useRule e.lexer rule ((fs.map (·.data) ++ [d]).map (·.sentence)) d.history context =
      .ok (some (g, s)) ∧
      growthOutcome e p d g = .ok () ∧
      q = { p with tree := plug fs (node d (growth e p d g (some s))), used := p.used ++ [p.move rule context b] } := by
  cases useOn_ends h with
  | @idle _ fs d hfound hrule =>
    have hsigned : e.calculus = .signed → e.HasLexer ∧
        ∀ s ∈ (fs.map (·.data) ++ [d]).map (·.sentence), ∃ a, e.calculus.Means s a := by
      intro hc
      obtain ⟨root, name, hp⟩ := hp
      obtain ⟨hx, hexpresses⟩ := hp.signed hc
      exact ⟨hx, List.forall_mem_map.2 (Sane.means_plug (hfound.tree ▸ (hp.sound hexpresses).sane))⟩
    cases useRule_isSome hsigned hrule
  | made hfound hrule hok => exact ⟨_, _, _, _, _, hfound, hrule, hok, rfl⟩

/-- `q` is `p` with some moves more: taking their layers away gives the tree of `p`, with its marks -/
structure Ahead (p q : Proof) (us : List UsedRule) : Prop where
  used : q.used = p.used ++ us
  tree : q.tree.prune p.tree.nextLayer = p.tree
  same : us = [] → q.tree = p.tree
  first : ∀ u ∈ us.head?, u.layer = p.tree.nextLayer

namespace Ahead

variable {steady : Prop} {us : List UsedRule}

theorem refl (hp : p.Kept steady e) : p.Ahead p [] := by
  obtain ⟨root, name, hp⟩ := hp
  refine ⟨(List.append_nil _).symm, ?_, fun _ => rfl, fun u hu => by cases hu⟩
  exact ProofTree.prune_eq_self hp.orderly.rising

theorem goTo (h : p.Ahead q us) (b : String) : p.Ahead { q with branch := b } us := ⟨h.used, h.tree, h.same, h.first⟩

theorem layer_le (h : p.Ahead q us) (hq : q.Kept steady e) : ∀ u ∈ us, p.tree.nextLayer ≤ u.layer := by
  obtain ⟨root, name, hq⟩ := hq
  have hsorted := hq.orderly.layers.1
  rw [h.used] at hsorted
  cases us with
  | nil => exact fun u hu => absurd hu List.not_mem_nil
  | cons v us =>
    have hv := h.first v rfl
    intro u hu
    rcases List.mem_cons.1 hu with rfl | hu
    · exact Int.le_of_eq hv.symm
    · have := (List.pairwise_cons.1 (List.pairwise_append.1 hsorted).2.1).1 u hu
      omega

theorem nextLayer_le (h : p.Ahead q us) (hq : q.Kept steady e) : p.tree.nextLayer ≤ q.tree.nextLayer := by
  cases us with
  | nil => rw [h.same rfl]
  | cons v us =>
    have hv := h.first v rfl
    obtain ⟨root, name, hq⟩ := hq
    have hlt := hq.orderly.built.layer_lt v (by rw [h.used]; simp)
    rw [nextLayer_unmarked] at hlt
    omega

/-- **One more move.** -/
theorem use (h : p.Ahead q us) (hq : q.Kept steady e) {r : Proof} (hr : exec (useOn e rule context b) q = (.ok (), r)) :
    p.Ahead r (us ++ [q.move rule context b]) := by
  obtain ⟨_, fs, d, g, s, hfound, -, -, rfl⟩ := hq.exec_useOn_ok hr
  refine ⟨?_, ?_, fun hnil => ?_, fun u hu => ?_⟩
  · simp only [h.used, List.append_assoc]
  · exact (prune_growth hfound.tree (h.nextLayer_le hq) g (some s)).trans h.tree
  · simp at hnil
  · cases us with
    | nil =>
      obtain rfl := Option.some.inj hu
      rw [← h.same rfl]
      rfl
    | cons v us => exact h.first u hu

/-- **The closure check** on a branch that ends in a later layer. -/
theorem dealClosure (h : p.Ahead q us) (hus : us ≠ []) (hroot : q.tree.data.layer < p.tree.nextLayer)
    (hnames : ((strands q.tree).map (·.leaf.branch)).Nodup) {u : Strand} (hu : u ∈ strands q.tree)
    (hlayer : p.tree.nextLayer ≤ u.leaf.layer) : p.Ahead (exec (Proof.dealClosure e u.leaf.branch) q).2 us := by
  cases hleaf : q.leaf u.leaf.branch with
  | error f =>
    simp only [Proof.dealClosure, exec_bind, exec_get, exec_lift, hleaf]
    exact h
  | ok place =>
    obtain ⟨fs, d, hfound⟩ := found_of_leaf hleaf
    -- there is one leaf of this name
    have hmem : ⟨fs.map (·.data), d⟩ ∈ strands q.tree := by rw [hfound.tree]; exact strand_mem_plug fs d
    obtain rfl := List.inj_on_of_nodup_map hnames hmem hu hfound.branch
    rw [exec_dealClosure hfound]
    generalize e.calculus.closure ((fs.map (·.data) ++ [d]).map (·.sentence)) d.history = r
    rcases r with f | _ | ⟨v, info⟩
    · exact h
    · exact h
    · exact ⟨h.used, (prune_close hfound.tree hroot hlayer v).trans h.tree, fun hnil => absurd hnil hus, h.first⟩

end Ahead

end Proof

/-! ## Commands -/

namespace Session

variable {speller : Speller} {s t u : Session} {p q : Proof} {e : Setting} {rule : String} {context : Context}
    {us : List UsedRule} {k : Nat}

theorem useRule_eq_none (hp : s.proof = some p) (he : s.setting = .ok e)
    (h : exec (useRule rule context) s = (.ok none, t)) :
    ∃ q, exec (Proof.useOn e rule context p.branch) p = (.ok (), q) ∧ t = { s with proof := some q } := by
  simp only [useRule, exec_bind, exec_get, currentProof_some hp, (calculus_of_setting he).1, exec_lift] at h
  cases hr : e.calculus.rule? rule with
  | none =>
    simp only [hr] at h
    cases h
  | some r =>
    simp only [hr] at h
    split at h
    · cases h
    rcases hrun : exec (Proof.useOn e rule context p.branch) p with ⟨r, q⟩
    have hwith := exec_withProof (x := fun e => Proof.useOn e rule context p.branch) he hp hrun
    simp only [exec_tryCatch, exec_bind, hwith] at h
    rcases r with f | _
    · -- a mistake is told
      cases f with
      | mistake m =>
        dsimp only at h
        split at h
        · simp only [exec_bind, exec_lift] at h
          cases ha : s.assistant <;> simp only [ha] at h <;> cases h
        · cases h
      | _ => cases h
    · obtain ⟨-, rfl⟩ := Prod.mk.inj h
      exact ⟨q, rfl, rfl⟩

/-- the session `s` in the closure check after a move that made the proof `r`; `p` is the proof some moves before -/
def Checked (s : Session) (e : Setting) (p r : Proof) (us : List UsedRule) (t : Session) : Prop :=
  ∃ q, t = { s with proof := some q } ∧ q.Kept False e ∧ q.tree.unmarked = r.tree.unmarked ∧ p.Ahead q us

/-- **One branch** that the move changed is closed, if there is reason to. -/
theorem checked_closeBranch (he : s.setting = .ok e) {r : Proof} (hus : us ≠ [])
    (hp : 0 < p.tree.nextLayer) {v : Strand} (hv : v ∈ strands r.tree) (hlayer : p.tree.nextLayer ≤ v.leaf.layer) :
    Keeps (s.Checked e p r us) (Command.closeBranch v.leaf.branch) := by
  refine Keeps.bind (Keeps.bind ?_ fun _ => .pure _) fun _ => .pure _
  rintro _ ⟨q, rfl, hq, hmarks, hahead⟩
  have he' : Session.setting { s with proof := some q } = .ok e := he
  rcases hrun : exec (Proof.dealClosure e v.leaf.branch) q with ⟨o, q'⟩
  rw [exec_withProof (x := fun e => Proof.dealClosure e v.leaf.branch) he' rfl hrun]
  obtain rfl : (exec (Proof.dealClosure e v.leaf.branch) q).2 = q' := by rw [hrun]
  refine ⟨_, rfl, Proof.kept_dealClosure _ q hq, (Proof.unmarked_dealClosure _ _ q).trans hmarks, ?_⟩
  -- the leaf is there, with or without a mark
  have hmem : v.unmark ∈ (strands q.tree).map Strand.unmark := by
    rw [← strands_unmarked, hmarks, strands_unmarked]
    exact List.mem_map_of_mem hv
  obtain ⟨u, hu, hunmark⟩ := List.mem_map.1 hmem
  have hbranch : u.leaf.branch = v.leaf.branch := congrArg (·.leaf.branch) hunmark
  have hlayer' : u.leaf.layer = v.leaf.layer := congrArg (·.leaf.layer) hunmark
  obtain ⟨root, name, hkept⟩ := hq
  rw [← hbranch]
  refine hahead.dealClosure hus ?_ hkept.orderly.names hu (hlayer'.symm ▸ hlayer)
  rwa [hkept.orderly.root_layer]

/-- **All branches** that the move changed. -/
theorem checked_afterUse (rule : String) (he : s.setting = .ok e) {r : Proof} (hr : s.proof = some r)
    (hkept : r.Kept False e) (hahead : p.Ahead r us)
    (hp : 0 < p.tree.nextLayer) {m : UsedRule} (hlast : us.getLast? = some m) :
    s.Checked e p r us (exec (Command.afterUse rule) s).2 := by
  have hus : us ≠ [] := by
    rintro rfl
    cases hlast
  have hs : s.Checked e p r us s := ⟨r, by rw [← hr], hkept, rfl, hahead⟩
  have hcurrent : s.currentProof = .ok r := by rw [currentProof, hr]; rfl
  have hused : r.used.getLast? = some m := by rw [hahead.used, List.getLast?_append, hlast]; rfl
  have hloop {changed : List String} (hchanged : r.lastModified = .ok changed) :
      Keeps (s.Checked e p r us) (changed.mapM Command.closeBranch) := by
    rw [Proof.lastModified, hused] at hchanged
    obtain rfl := Except.ok.inj hchanged
    refine Keeps.mapM fun b hb => ?_
    obtain ⟨place, hplace, rfl⟩ := List.mem_map.1 hb
    obtain ⟨hleaf, hlayer⟩ := List.mem_filter.1 hplace
    have hmem : place.strand ∈ strands r.tree := by
      rw [← strands_eq_leaves]
      exact List.mem_map_of_mem hleaf
    have hm : p.tree.nextLayer ≤ place.strand.leaf.layer := by
      have hle := hahead.layer_le hkept m (List.mem_of_getLast? hlast)
      rwa [← eq_of_beq hlayer] at hle
    exact checked_closeBranch (v := place.strand) he hus hp hmem hm
  simp only [Command.afterUse, exec_bind, exec_get, hcurrent, exec_lift]
  cases hchanged : r.lastModified with
  | error f => exact hs
  | ok changed =>
    have hchecked := hloop hchanged s hs
    dsimp only
    rcases hrun : exec (changed.mapM Command.closeBranch) s with ⟨f | closings, t⟩
    · rwa [hrun] at hchecked
    · rw [hrun] at hchecked
      dsimp only
      cases t.proofFinished <;> exact hchecked

/-! ## Runs of commands -/

/-- a command uses a rule with success: there is no mistake, and after that the branches that the move changed are
closed where they can be -/
def Uses (command : String) (s t : Session) : Prop :=
  ∃ rule context s₁ told more, exec (useRule rule context) s = (.ok none, s₁) ∧ exec (Command.afterUse rule) s₁ =
  (.ok told, t) ∧ exec (Command.perform ⟨.use, .rest command⟩) s = (.ok (.text (Text.join "\n" (more ++ told))), t)

/-- the session after a command that uses a rule with success -/
def use? (command : String) (s : Session) : Option Session :=
  let rule := Text.join " " ((Text.words command).take 2)
  if command.length < 2 then none
  else match s.contextInfo rule with
    | .ok (some items) =>
      match Command.readContext items ((Text.words command).drop 2) with
      | .ok (.ok context) =>
        match exec (useRule rule context) s with
        | (.ok none, s₁) =>
          match exec (Command.afterUse rule) s₁ with
          | (.ok _, t) => some t
          | _ => none
        | _ => none
      | _ => none
    | _ => none

theorem uses_of_use? {command : String} (h : s.use? command = some t) : Uses command s t := by
  unfold use? at h
  dsimp only at h
  split at h
  · cases h
  rename_i hlength
  split at h <;> try cases h
  rename_i items hitems
  split at h <;> try cases h
  rename_i context hcontext
  split at h <;> try cases h
  rename_i s₁ huse
  split at h <;> try cases h
  rename_i told hafter
  refine ⟨_, context, s₁, told,
    if items.length < ((Text.words command).drop 2).length then
      ["Too many args, but the program will continue"] else [],
    huse, hafter, ?_⟩
  have hperform : Command.perform ⟨.use, .rest command⟩ = (do return .text (← Command.use command)) := rfl
  rw [hperform, exec_bind, Command.use, if_neg hlength]
  simp only [Command.useAndTell, exec_bind, exec_get, exec_lift, hitems, hcontext, exec_tryCatch, huse,
    exec_pure, hafter]

/-- a run of commands that use rules with success, so many times, and go to other branches in between -/
inductive Played : Nat → Session → Session → Prop
  | none (s : Session) : Played 0 s s
  | jump {k : Nat} {s t : Session} (h : Played k s t) (target : String) :
      Played k s (exec (Command.perform ⟨.jump, .rest target⟩) t).2
  | next {k : Nat} {s t : Session} (h : Played k s t) : Played k s (exec (Command.perform ⟨.next, .each []⟩) t).2
  | use {k : Nat} {s t u : Session} (h : Played k s t) {command : String} (huse : Uses command t u) : Played (k + 1) s u

theorem Played.reached (h : Played k s t) (hs : Reached speller False s) : Reached speller False t := by
  induction h with
  | none => exact hs
  | jump _ target ih => exact .command _ (ih hs) False.elim
  | next _ ih => exact .command _ (ih hs) False.elim
  | @use k s t u h command huse ih =>
    obtain ⟨rule, context, s₁, told, more, -, -, hperform⟩ := huse
    have hreached := Reached.command ⟨.use, .rest command⟩ (ih hs) False.elim
    rwa [hperform] at hreached

theorem keeps_goTo {α : Type} (he : s.setting = .ok e) {x : Work α}
    (hx : ∀ p, ∃ b, (exec x p).2 = { p with branch := b }) :
    Keeps (fun t => ∃ b, t = { s with proof := some { p with branch := b } }) (withProof fun _ => x) := by
  rintro _ ⟨b, rfl⟩
  have he' : Session.setting { s with proof := some { p with branch := b } } = .ok e := he
  rcases hrun : exec x { p with branch := b } with ⟨r, q⟩
  rw [exec_withProof (x := fun _ => x) he' rfl hrun]
  obtain ⟨b', hb'⟩ := hx { p with branch := b }
  rw [hrun] at hb'
  exact ⟨b', by rw [show q = _ from hb']⟩

/-- **A command that uses a rule** with success makes one more move. -/
theorem ahead_of_uses {command : String} (ht : t.Regular speller False) (hq : t.proof = some q)
    (hp : 0 < p.tree.nextLayer)
    (hahead : p.Ahead q us) (h : Uses command t u) : ∃ r m, u.proof = some r ∧ p.Ahead r (us ++ [m]) := by
  obtain ⟨rule, context, s₁, told, more, huse, hafter, -⟩ := h
  obtain ⟨e, he, hkept⟩ := ht.proof q hq
  obtain ⟨r, hrun, rfl⟩ := useRule_eq_none hq he huse
  have hkept' := (Proof.kept_useOn rule context q.branch).keeps q hkept
  rw [hrun] at hkept'
  have he' : Session.setting { t with proof := some r } = .ok e := he
  have hchecked := checked_afterUse rule he' rfl hkept' (hahead.use hkept hrun) hp List.getLast?_concat
  rw [hafter] at hchecked
  obtain ⟨r', rfl, -, -, hahead'⟩ := hchecked
  exact ⟨r', _, rfl, hahead'⟩

/-- **A run of commands** that use rules makes as many moves. -/
theorem ahead_of_played (hs : Reached speller False s) (hp : s.proof = some p) (h : Played k s t) :
    ∃ q us, t.proof = some q ∧ p.Ahead q us ∧ us.length = k := by
  obtain ⟨e, he, hkept⟩ := hs.regular.proof p hp
  have hpos : 0 < p.tree.nextLayer := by
    obtain ⟨root, name, hkept⟩ := hkept
    have := hkept.orderly.built.nextLayer_pos
    rwa [nextLayer_unmarked] at this
  induction h with
  | none => exact ⟨p, [], hp, .refl hkept, rfl⟩
  | @jump k s t h target ih =>
    obtain ⟨q, us, hq, hahead, hlength⟩ := ih hs hp he
    obtain ⟨e', he', -⟩ := (h.reached hs).regular.proof q hq
    have hjump : Keeps (fun u => ∃ b, u = { t with proof := some { q with branch := b } }) (Command.jumpTo target) := by
      unfold Command.jumpTo
      dsimp only
      split <;> exact (keeps_goTo he' (Proof.jump_frame _)).bind fun _ => .pure _
    obtain ⟨b, hb⟩ := Command.keeps_saying hjump t ⟨q.branch, by rw [← hq]⟩
    exact ⟨_, us, congrArg Session.proof hb, hahead.goTo b, hlength⟩
  | @next k s t h ih =>
    obtain ⟨q, us, hq, hahead, hlength⟩ := ih hs hp he
    obtain ⟨e', he', -⟩ := (h.reached hs).regular.proof q hq
    have hnext : Keeps (fun u => ∃ b, u = { t with proof := some { q with branch := b } })
        (Command.perform ⟨.next, .each []⟩) := by
      refine .tryCatch ((keeps_goTo he' Proof.next_frame).bind fun _ => .pure _) fun f => ?_
      cases f with
      | refusal e => exact .pure _
      | _ => exact .throw _
    obtain ⟨b, hb⟩ := hnext t ⟨q.branch, by rw [← hq]⟩
    exact ⟨_, us, congrArg Session.proof hb, hahead.goTo b, hlength⟩
  | use h huse ih =>
    obtain ⟨q, us, hq, hahead, hlength⟩ := ih hs hp he
    obtain ⟨r, m, hr, hahead'⟩ := ahead_of_uses (h.reached hs).regular hq hpos hahead huse
    exact ⟨r, us ++ [m], hr, hahead', by rw [List.length_append, hlength]; rfl⟩

theorem min?_layer (hahead : p.Ahead q us) (hq : q.Kept False e) (hus : us ≠ []) :
    (us.reverse.map (·.layer)).min? = some p.tree.nextLayer := by
  refine List.min?_eq_some_iff.2 ⟨?_, fun b hb => ?_⟩
  · obtain ⟨u, us, rfl⟩ := List.exists_cons_of_ne_nil hus
    rw [← hahead.first u rfl]
    exact List.mem_map_of_mem (by simp)
  · obtain ⟨u, hu, rfl⟩ := List.mem_map.1 hb
    exact hahead.layer_le hq u (by simpa using hu)

/-- **Undo takes back what was done.** In a session that commands led to, let rules be used with success some times, on
any branches. To undo as many moves gives the tree and the recorded moves that were there before. -/
theorem undo_played (hs : Reached speller False s) (hp : s.proof = some p) (hk : 1 ≤ k) (h : Played k s t) :
    ∃ undone u q, exec (undo k) t = (.ok undone, u) ∧ u.proof = some q ∧ q.tree = p.tree ∧ q.used = p.used := by
  obtain ⟨q, us, hq, hahead, rfl⟩ := ahead_of_played hs hp h
  obtain ⟨e, -, hkept⟩ := (h.reached hs).regular.proof q hq
  have hus : us ≠ [] := List.ne_nil_of_length_pos hk
  have henough : ¬ (q.used.length : Int) < us.length := by
    rw [hahead.used, List.length_append]
    omega
  have hleft : q.used.length - (us.length : Int).toNat = p.used.length := by
    rw [hahead.used, List.length_append, Int.toNat_natCast]
    omega
  have htake : q.used.take p.used.length = p.used := by rw [hahead.used, List.take_left]
  have hdrop : q.used.drop p.used.length = us := by rw [hahead.used, List.drop_left]
  have hundo := exec_undo hq us.length
  rw [if_neg henough, hleft, htake, hdrop] at hundo
  simp only [min?_layer hahead hkept hus] at hundo
  exact ⟨_, _, _, hundo, rfl, hahead.tree, rfl⟩

/-- a session where a disjunction of conjunctions has been taken apart -/
def conjunctions? : Option Session :=
  fresh?.bind fun s => (exec (Command.perform ⟨.prove, .rest "(p and q) or (r and s)"⟩) s).2.use? "false or 1 6"

theorem undo_played_conjunctions :
    ∃ s p t, conjunctions? = some s ∧ Reached .orderly False s ∧ s.proof = some p ∧ p.used.length = 1 ∧ Played 2 s t ∧
      ∃ undone u q, exec (undo 2) t = (.ok undone, u) ∧ u.proof = some q ∧ q.tree = p.tree ∧ q.used = p.used := by
  -- both conjunctions are taken apart, the second on another branch
  have hrun : (conjunctions?.bind fun s => s.proof.bind fun p => (s.use? "false and 2 2").bind fun t =>
      ((exec (Command.perform ⟨.jump, .rest "Zielona"⟩) t).2.use? "false and 3 2").map fun _ => p.used.length) =
      some 1 := by
    decide +kernel
  simp only [Option.bind_eq_some_iff, Option.map_eq_some_iff] at hrun
  obtain ⟨s, hs, p, hp, t, ht, u, hu, hused⟩ := hrun
  have hreached : Reached .orderly False s := by
    obtain ⟨s₀, hfresh, huse⟩ := Option.bind_eq_some_iff.1 hs
    have hproving : Reached .orderly False (exec (Command.perform ⟨.prove, .rest "(p and q) or (r and s)"⟩) s₀).2 :=
      .command _ (reached_fresh hfresh) False.elim
    exact ((Played.none _).use (uses_of_use? huse)).reached hproving
  have hplayed : Played 2 s u := (((Played.none s).use (uses_of_use? ht)).jump "Zielona").use (uses_of_use? hu)
  exact ⟨s, p, u, hs, hreached, hp, hused, hplayed, undo_played hreached hp (by decide) hplayed⟩

end Session

end TableauTutor
