import TableauTutor.Proofs.Halfway
import TableauTutor.Proofs.Lasting
import TableauTutor.Proofs.Undoing

/-!
Closed branches stay closed. Using a rule does not look at the marks of leaves: new nodes without marks are hung below a
closed leaf, and only the closure check after it can close them again. If the leaf was closed for a contradiction, the
contradiction is found on every longer branch; if it was closed because nothing was left to be done, no rule can be used
there. Both need that the leaf has the mark that the check gives it. This is so all the time, unless a file was loaded:
the marks in a file go by the names of branches, and these are others if the colours were changed.

- `Session.use_keeps_closed`: closed branches stay closed.
-/

namespace TableauTutor

open ProofTree Calculus

/-! ## Verdicts -/

namespace Calculus

variable {c : Calculus} {ss : List Sentence} {used : History} {v : Closing}

theorem verdict_of_clashing (h : ∀ s ∈ ss, ∃ a, c.Means s a) (hclash : c.Clashing ss) (used : History) :
    ∃ v, c.verdict ss used = some v ∧ v.success = true := by
  rcases closure_cases h used with ⟨i, j, info, heq, -⟩ | ⟨info, -, hnone, -⟩ | ⟨-, hnone, -⟩
  · exact ⟨.contradictionOf i j, by rw [verdict, heq]; rfl, rfl⟩
  · exact absurd hclash hnone
  · exact absurd hclash hnone

theorem verdict_eq_some (h : ∀ s ∈ ss, ∃ a, c.Means s a) (hv : c.verdict ss used = some v) :
    v.success = true ∧ c.Clashing ss ∨
      v.success = false ∧ ∀ s ∈ ss, ∀ a, c.Means s a → used.contains s = true ∨ a.isLiteral = true := by
  rcases closure_cases h used with ⟨i, j, info, heq, hclash⟩ | ⟨info, heq, -, hdone⟩ | ⟨heq, -⟩ <;>
    rw [verdict, heq] at hv
  · obtain rfl := Option.some.inj hv
    exact .inl ⟨rfl, hclash⟩
  · obtain rfl := Option.some.inj hv
    exact .inr ⟨rfl, hdone⟩
  · cases hv

end Calculus

/-! ## Marks of the closure check -/

/-- every mark is the one that the closure check gives to the node -/
def ProofTree.Attested (c : Calculus) (t : ProofTree) : Prop :=
  t.AllMarks fun ns n v => c.verdict ((ns ++ [n]).map (·.sentence)) n.history = some v

namespace Proof

variable {e : Setting} {p q : Proof} {fs : List Frame} {d : Node} {b : String}

theorem attested_close (hp : p.tree.Attested e.calculus) (ht : p.tree = plug fs (node d [])) {v : Closing}
    {info : String}
    (h : e.calculus.closure ((fs.map (·.data) ++ [d]).map (·.sentence)) d.history = .ok (some (v, info))) :
    (plug fs (node { d with closed := some v } [])).Attested e.calculus := by
  refine AllMarks.close (ht ▸ hp) ?_
  simp only [List.map_append, List.map_cons, List.map_nil] at h ⊢
  rw [verdict, h]
  rfl

theorem attested_growth (hp : p.tree.Attested e.calculus) (ht : p.tree = plug fs (node d [])) (g : Growth)
    (s : Option Sentence) : (plug fs (node d (growth e p d g s))).Attested e.calculus :=
  AllMarks.grow (ht ▸ hp) fun _ hu _ => growth_closed hu

theorem endures_attested (e : Setting) : Endures e fun p => p.tree.Attested e.calculus where
  lost s hp hfound _ := attested_growth hp hfound.tree _ s
  move s hp hfound _ _ _ _ _ := attested_growth hp hfound.tree _ s
  close hp hfound h := attested_close hp hfound.tree h

theorem retreats_attested (c : Calculus) : Retreats [] fun p => p.tree.Attested c where
  stays _ := List.nil_prefix
  back hp _ _ := AllMarks.prune hp _

/-- **Every step** leaves marks that are those of the closure check. -/
theorem Step.attested (h : Step e p q) (hp : p.tree.Attested e.calculus) : q.tree.Attested e.calculus := by
  cases h with
  | use rule context b =>
    exact keeps_using (J := fun p => p.tree.Attested e.calculus)
      (fun hp hfound _ => attested_growth hp hfound.tree _ none)
      (fun {_ _ _ _ _ s} hp hfound _ _ => attested_growth hp hfound.tree _ (some s)) p hp
  | close b => exact (endures_attested e).dealClosure b p hp
  | goTo b => exact hp
  | solve => exact (endures_attested e).solve (retreats_attested e.calculus) p hp
  | undo b _ _ _ => exact AllMarks.prune hp _

end Proof

/-- **Marks of the closure check** last. -/
theorem Session.lasting_attested : Session.Lasting fun e p => p.tree.Attested e.calculus where
  start h := by
    obtain ⟨root, -, h⟩ := of_bind_eq_ok h
    obtain rfl := Except.ok.inj h
    exact AllMarks.root root _
  step := Proof.Step.attested
  colours _ hp := hp

/-! ## Branches closed one after another -/

namespace ProofTree

/-- the strand after the closure check -/
def Strand.settle (c : Calculus) (r : Strand) : Strand := ⟨r.above, r.leaf.close (c.verdict r.sentences r.leaf.history)⟩

namespace Strand

variable (c : Calculus) (r : Strand)

@[simp] theorem settle_branch : (r.settle c).leaf.branch = r.leaf.branch := Node.close_branch _ _

@[simp] theorem settle_settle : (r.settle c).settle c = r.settle c := by
  have hsentences : (r.settle c).sentences = r.sentences := by simp [sentences, path, settle]
  have hhistory : (r.settle c).leaf.history = r.leaf.history := Node.close_history _ _
  rw [settle, hsentences, hhistory]
  simp only [settle, Node.close_close]

end Strand

/-- the strands of a tree where some branches went through the closure check -/
def settled (c : Calculus) (bs : List String) (rs : List Strand) : List Strand :=
  rs.map fun r => if r.leaf.branch ∈ bs then r.settle c else r

theorem settled_cons (c : Calculus) (b : String) (bs : List String) (rs : List Strand) :
    settled c bs (settled c [b] rs) = settled c (b :: bs) rs := by
  simp only [settled, List.map_map]
  refine List.map_congr_left fun r _ => ?_
  by_cases hb : r.leaf.branch = b
  · by_cases hbs : b ∈ bs <;> simp [hb, hbs]
  · by_cases hbs : r.leaf.branch ∈ bs <;> simp [hb, hbs]

theorem settled_of_forall {c : Calculus} {bs : List String} {rs : List Strand} (h : ∀ r ∈ rs, r.leaf.branch ∉ bs) :
    settled c bs rs = rs := by
  rw [settled, List.map_congr_left (g := id) fun r hr => by simp [h r hr], List.map_id]

theorem names_settled (c : Calculus) (bs : List String) (rs : List Strand) :
    (settled c bs rs).map (·.leaf.branch) = rs.map (·.leaf.branch) := by
  rw [settled, List.map_map]
  refine List.map_congr_left fun r _ => ?_
  by_cases hb : r.leaf.branch ∈ bs <;> simp [hb]

end ProofTree

namespace Proof

variable {e : Setting} {p : Proof} {b : String}

/-- **The closure check** of a branch, seen from the strands of the tree. -/
theorem strands_dealClosure (hsane : p.tree.Sane e.calculus) (hb : b ∈ p.tree.branchNames) :
    ∃ r t, exec (dealClosure e b) p = (.ok r, { p with tree := t }) ∧ t.Sane e.calculus ∧
      strands t = settled e.calculus [b] (strands p.tree) := by
  rw [branchNames_eq] at hb
  obtain ⟨r, hr, rfl⟩ := List.mem_map.1 hb
  obtain ⟨fs, ht, habove⟩ := exists_frames hr
  obtain ⟨o, hrun, -⟩ := exec_dealClosure_plug hsane ht
  refine ⟨o, _, hrun, (ht ▸ hsane).close _, ?_⟩
  rw [habove]
  obtain ⟨left, right, hold, hnew⟩ := strands_replaced fs r.leaf
    (r.leaf.close (e.calculus.verdict r.sentences r.leaf.history))
  rw [habove, ← ht] at hold
  rw [habove] at hnew
  -- the other leaves have other names
  have hnames := hsane.names
  rw [hold, List.map_append, List.map_cons, List.nodup_append, List.nodup_cons] at hnames
  have hleft : ∀ u ∈ left, u.leaf.branch ∉ [r.leaf.branch] := fun u hu h =>
    hnames.2.2 _ (List.mem_map_of_mem hu) _ List.mem_cons_self (List.mem_singleton.1 h)
  have hright : ∀ u ∈ right, u.leaf.branch ∉ [r.leaf.branch] := fun u hu h =>
    hnames.2.1.1 (List.mem_map.2 ⟨u, hu, List.mem_singleton.1 h⟩)
  calc strands (plug fs (node (r.leaf.close (e.calculus.verdict r.sentences r.leaf.history)) []))
      = left ++ r.settle e.calculus :: right := hnew
    _ = settled e.calculus [r.leaf.branch] left ++ r.settle e.calculus :: settled e.calculus [r.leaf.branch] right := by
        rw [settled_of_forall hleft, settled_of_forall hright]
    _ = settled e.calculus [r.leaf.branch] (strands p.tree) := by
        simp [hold, settled]

end Proof

namespace Session

variable {s t : Session} {e : Setting} {p : Proof} {command : String}

/-- **Branches closed one after another** where they can be. -/
theorem exec_closeBranches (he : s.setting = .ok e) (hp : s.proof = some p) (hsane : p.tree.Sane e.calculus)
    {bs : List String} (hbs : ∀ b ∈ bs, b ∈ p.tree.branchNames) :
    ∃ texts u, exec (bs.mapM Command.closeBranch) s = (.ok texts, { s with proof := some { p with tree := u } }) ∧
      strands u = settled e.calculus bs (strands p.tree) := by
  induction bs generalizing s p with
  | nil =>
    refine ⟨[], p.tree, ?_, by simp [settled]⟩
    rw [List.mapM_nil, exec_pure, ← hp]
  | cons b bs ih =>
    obtain ⟨hb, hbs⟩ := List.forall_mem_cons.1 hbs
    obtain ⟨r, u, hrun, hsane', hu⟩ := Proof.strands_dealClosure hsane hb
    have hnames : u.branchNames = p.tree.branchNames := by rw [branchNames_eq, hu, names_settled, ← branchNames_eq]
    have hwith := exec_withProof (x := fun e => Proof.dealClosure e b) he hp hrun
    have he' : Session.setting { s with proof := some { p with tree := u } } = .ok e := he
    obtain ⟨texts, u', hrest, hu'⟩ := ih he' rfl hsane' fun b hb => hnames ▸ hbs b hb
    obtain ⟨text, hone⟩ : ∃ text, exec (Command.closeBranch b) s =
      (.ok text, { s with proof := some { p with tree := u } }) := by
      simp only [Command.closeBranch, dealClosure, exec_bind, hwith, exec_pure]
      exact ⟨_, rfl⟩
    refine ⟨text :: texts, u', ?_, by rw [hu', hu, settled_cons]⟩
    simp only [List.mapM_cons, exec_bind, hone, hrest, exec_pure]

/-- **After a rule was used**, the branches that the move changed go through the closure check. -/
theorem exec_afterUse (rule : String) (he : s.setting = .ok e) (hp : s.proof = some p) (hsane : p.tree.Sane e.calculus)
    {m : UsedRule} (hlast : p.used.getLast? = some m) :
    ∃ told u, exec (Command.afterUse rule) s = (.ok told, { s with proof := some { p with tree := u } }) ∧
      strands u = (strands p.tree).map fun r => if r.leaf.layer = m.layer then r.settle e.calculus else r := by
  have hchanged : p.lastModified = .ok (((strands p.tree).filter (·.leaf.layer == m.layer)).map (·.leaf.branch)) := by
    rw [Proof.lastModified, hlast, ← strands_eq_leaves, List.filter_map, List.map_map]
    rfl
  have hnames : ∀ b ∈ ((strands p.tree).filter (·.leaf.layer == m.layer)).map (·.leaf.branch),
      b ∈ p.tree.branchNames := by
    rw [branchNames_eq]
    exact fun b hb => (List.filter_sublist.map _).subset hb
  obtain ⟨texts, u, hrun, hu⟩ := exec_closeBranches he hp hsane hnames
  refine ⟨_, u, by
    simp only [Command.afterUse, exec_bind, exec_get, currentProof_some hp, exec_lift, hchanged, hrun]
    rfl, ?_⟩
  rw [hu, settled]
  refine List.map_congr_left fun r hr => ?_
  -- a branch was changed if its leaf is in the layer, for there is one leaf to a name
  have hiff : r.leaf.branch ∈ ((strands p.tree).filter (·.leaf.layer == m.layer)).map (·.leaf.branch) ↔
      r.leaf.layer = m.layer := by
    simp only [List.mem_map, List.mem_filter, beq_iff_eq]
    constructor
    · rintro ⟨r', ⟨hr', hlayer⟩, hbranch⟩
      rwa [← Proof.strand_unique hsane.names hr' hr hbranch]
    · exact fun hlayer => ⟨r, ⟨hr, hlayer⟩, rfl⟩
  simp only [hiff]

/-! ## Commands for rules -/

/-- **A command for a rule** that comes to its end uses the rule with success, or does nothing. -/
theorem use_cases {reply : Reply}
    (h : exec (Command.perform ⟨.use, .rest command⟩) s = (.ok reply, t)) : t = s ∨ Uses command s t := by
  have hperform : Command.perform ⟨.use, .rest command⟩ = (do return .text (← Command.use command)) := rfl
  have hrun := h
  rw [hperform, exec_bind, Command.use] at hrun
  by_cases hlength : command.length < 2
  · rw [if_pos hlength] at hrun
    exact .inl (Prod.mk.inj hrun).2.symm
  rw [if_neg hlength] at hrun
  simp only [exec_bind, exec_get, exec_lift] at hrun
  generalize Text.join " " ((Text.words command).take 2) = rule at hrun
  rcases hitems : s.contextInfo rule with f | _ | items <;> rw [hitems] at hrun
  · cases hrun
  · exact .inl (Prod.mk.inj hrun).2.symm
  simp only [exec_bind, exec_lift] at hrun
  rcases hcontext : Command.readContext items ((Text.words command).drop 2) with f | text | context <;>
    rw [hcontext] at hrun
  · cases hrun
  · exact .inl (Prod.mk.inj hrun).2.symm
  simp only [Command.useAndTell, exec_bind, exec_tryCatch] at hrun
  have hcases := useRule_cases s rule context
  rcases hused : exec (useRule rule context) s with ⟨f | _ | texts, s₁⟩ <;> simp only [hused] at hrun hcases
  · cases f with
    | refusal m =>
      -- growth that ends halfway is no refusal
      rcases hcases with hok | rfl | ⟨_, _, f, _, -, -, hbreaks, hfailed⟩
      · cases hok
      · exact .inl (Prod.mk.inj hrun).2.symm
      · obtain rfl := Except.error.inj (Prod.mk.inj hfailed).1
        cases hbreaks.breaks
    | _ => cases hrun
  · simp only [exec_pure, exec_bind] at hrun
    rcases hafter : exec (Command.afterUse rule) s₁ with ⟨f | told, s₂⟩ <;> simp only [hafter] at hrun
    · cases hrun
    · obtain ⟨hreply, rfl⟩ := Prod.mk.inj hrun
      exact .inr ⟨rule, context, s₁, told, _, hused, hafter, by rw [h, ← hreply]⟩
  · rcases hcases with hok | rfl | ⟨_, _, _, _, -, -, -, hfailed⟩
    · cases hok
    · exact .inl (Prod.mk.inj hrun).2.symm
    · cases hfailed

end Session

/-! ## New leaves below a leaf -/

namespace Proof

variable {e : Setting} {p q : Proof} {r : Strand} {news : List Strand} {rule : String} {context : Context}
    {fs : List Frame} {d : Node} {g : Growth} {s : Sentence}

/-- a move: the leaf of the current branch gives way to new ones below it, and all others stay as they are -/
structure GivesWay (p q : Proof) (r : Strand) (news : List Strand) : Prop where
  branch : r.leaf.branch = p.branch
  used : ∃ u, q.used = p.used ++ [u]
  strands : ∃ left right, p.tree.strands = left ++ r :: right ∧ q.tree.strands = left ++ news ++ right
  new : news ≠ []
  longer : ∀ n ∈ news, r.path <+: n.path

/-- a leaf that was closed was closed as a success, and so are the leaves that it gave way to -/
def StaysClosed (r : Strand) (news : List Strand) : Prop :=
  ∀ v, r.leaf.closed = some v → v.success = true ∧ ∀ n ∈ news, n.leaf.closed.map (·.success) = some true

/-- the new strands that a move makes, after the closure check -/
def newStrands (e : Setting) (p : Proof) (fs : List Frame) (d : Node) (g : Growth) (s : Sentence) : List Strand :=
  (strandsAll (growth e p d g (some s))).map fun r => (r.below (fs.map (·.data) ++ [d])).settle e.calculus

/-- **A move and the closure check after it**: new strands take the place of the one that they go on from. -/
theorem givesWay_of_use {root : Sentence} {name : String} (hp : p.KeptFrom False e root name) {place : Place}
    (hfound : p.Found p.branch place fs d) (hg : Full g) (hok : growthOutcome e p d g = .ok ()) {m : UsedRule}
    {t : ProofTree}
    (ht : t.strands = (plug fs (node d (growth e p d g (some s)))).strands.map fun r =>
      if r.leaf.layer = p.tree.nextLayer then r.settle e.calculus else r) :
    p.GivesWay { p with tree := t, used := p.used ++ [m] } ⟨fs.map (·.data), d⟩ (newStrands e p fs d g s) := by
  have hne : growth e p d g (some s) ≠ [] := by
    intro hnil
    have hlength := length_growth hg.2 hok (some s)
    rw [hnil, List.length_nil] at hlength
    exact hg.1 (List.length_eq_zero_iff.1 hlength.symm)
  obtain ⟨left, right, hold, hnew⟩ := strands_grown fs d hne
  rw [← hfound.tree] at hold
  -- the closure check is made on the new leaves only
  have hstay {rs : List Strand} (hrs : ∀ r ∈ rs, r ∈ p.tree.strands) :
      (rs.map fun r => if r.leaf.layer = p.tree.nextLayer then r.settle e.calculus else r) = rs := by
    refine (List.map_congr_left fun r hr => ?_).trans (List.map_id rs)
    exact if_neg (hp.orderly.rising r (hrs r hr) _ (leaf_mem_path r)).ne
  have hchange : ((strandsAll (growth e p d g (some s))).map (Strand.below (fs.map (·.data) ++ [d]))).map
      (fun r => if r.leaf.layer = p.tree.nextLayer then r.settle e.calculus else r) = newStrands e p fs d g s := by
    rw [List.map_map]
    refine List.map_congr_left fun r hr => if_pos ?_
    obtain ⟨name, y, heq⟩ := mem_growth hr (leaf_mem_path r)
    rw [Strand.below_leaf, heq, grownNode_layer]
  refine ⟨hfound.branch, ⟨m, rfl⟩, ⟨left, right, hold, ?_⟩, ?_, fun n hn => ?_⟩
  · rw [ht, hnew, List.map_append, List.map_append, hchange, hstay fun r hr => by simp [hold, hr],
      hstay fun r hr => by simp [hold, hr]]
  · rw [newStrands, ne_eq, List.map_eq_nil_iff]
    exact strandsAll_ne_nil hne
  · obtain ⟨r, -, rfl⟩ := List.mem_map.1 hn
    exact ⟨r.above ++ [_], by simp only [Strand.path, Strand.settle, Strand.below, List.append_assoc]; rfl⟩

/-- **A contradiction is found again** on every longer branch, and where nothing is left
to be done no rule can be used. -/
theorem staysClosed_of_use {root : Sentence} {name : String} (hp : p.KeptFrom False e root name)
    (hst : ∃ a, p.statement.Expresses a)
    (hmarks : p.tree.Attested e.calculus) {place : Place} (hfound : p.Found p.branch place fs d)
    (hrule : e.calculus.useRule e.lexer rule ((fs.map (·.data) ++ [d]).map (·.sentence)) d.history context =
      .ok (some (g, s))) :
    StaysClosed ⟨fs.map (·.data), d⟩ (newStrands e p fs d g s) := by
  have hsane := (hp.sound hst).sane
  have hr : ⟨fs.map (·.data), d⟩ ∈ p.tree.strands := hfound.tree ▸ strand_mem_plug fs d
  have hmeans := hsane.means_sentences hr
  obtain ⟨y, hy, hlexer⟩ := exists_lexer_useRule fun hc => (hp.signed hc).1
  rw [hlexer] at hrule
  intro v hv
  have hverdict := hmarks _ hr (fs.map (·.data)) d (List.prefix_refl _) v hv
  rcases verdict_eq_some hmeans hverdict with ⟨hsuccess, hclash⟩ | ⟨-, hdone⟩
  · refine ⟨hsuccess, fun n hn => ?_⟩
    obtain ⟨r, hr', rfl⟩ := List.mem_map.1 hn
    have hgrown : (plug fs (node d (growth e p d g (some s)))).Sane e.calculus :=
      sane_used (e := { e with lexer := y }) hy hsane hfound hrule (some s)
    have hsub : (⟨fs.map (·.data), d⟩ : Strand).sentences ⊆ (r.below (fs.map (·.data) ++ [d])).sentences := by
      rw [Strand.sentences, Strand.sentences, Strand.path_below]
      exact List.map_subset _ (List.subset_append_left _ _)
    obtain ⟨w, hw, hwin⟩ := verdict_of_clashing (hgrown.means_sentences (below_mem_grown fs d hr')) (hclash.mono hsub)
      (r.below (fs.map (·.data) ++ [d])).leaf.history
    simp only [Strand.settle, hw, Node.close, Option.map_some, hwin]
  · exact absurd hrule (useRule_of_finished hy hmeans hdone)

/-- **The verdict on a closed proof** stays what it is. -/
theorem GivesWay.verdict (h : p.GivesWay q r news) (hstays : StaysClosed r news) (hclosed : p.tree.isClosed = true) :
    q.tree.isClosed = true ∧ q.tree.isSuccessful = p.tree.isSuccessful := by
  obtain ⟨left, right, hold, hnew⟩ := h.strands
  rw [isClosed_iff, hold] at hclosed
  obtain ⟨v, hv⟩ := Option.isSome_iff_exists.1 (hclosed r (by simp))
  obtain ⟨hsuccess, hnews⟩ := hstays v hv
  refine ⟨(isClosed_iff _).2 fun n hn => ?_, Bool.eq_iff_iff.2 ?_⟩
  · rw [hnew, List.mem_append, List.mem_append] at hn
    rcases hn with (hn | hn) | hn
    · exact hclosed n (by simp [hn])
    · exact Option.isSome_map ▸ (by rw [hnews n hn]; rfl)
    · exact hclosed n (by simp [hn])
  · rw [isSuccessful_iff, isSuccessful_iff, hold, hnew]
    simp only [List.forall_mem_append, List.forall_mem_cons, hv, Option.map_some, hsuccess, true_and]
    exact ⟨fun h => ⟨h.1.1, h.2⟩, fun h => ⟨⟨h.1, hnews⟩, h.2⟩⟩

end Proof

namespace Session

variable {s t : Session} {e : Setting} {p : Proof} {command : String}

/-- sessions whose proof has the marks of the closure check: no file was loaded since the proof was started, or the
marks were those of the check when it was loaded -/
inductive Faithful : Session → Prop
  | idle {speller : Speller} {s : Session} (hs : Reached speller False s) (hp : s.proof = none) : Faithful s
  | load {speller : Speller} {s : Session} {call : Command.Call Verb} (hs : Reached speller False s)
      (hverb : call.verb = .load)
      (hmarks : Holds (fun e p => p.tree.Attested e.calculus) (exec (Command.perform call) s).2) :
      Faithful (exec (Command.perform call) s).2
  | command {s : Session} {call : Command.Call Verb} (hs : Faithful s) (hverb : call.verb ≠ .load) :
      Faithful (exec (Command.perform call) s).2

theorem Faithful.reached (h : s.Faithful) : ∃ speller, Reached speller False s := by
  induction h with
  | idle hs _ => exact ⟨_, hs⟩
  | load hs _ _ => exact ⟨_, .command _ hs False.elim⟩
  | command _ _ ih =>
    obtain ⟨speller, hs⟩ := ih
    exact ⟨speller, .command _ hs False.elim⟩

theorem Faithful.holds (h : s.Faithful) : Holds (fun e p => p.tree.Attested e.calculus) s := by
  induction h with
  | idle _ hp => exact holds_of_none hp
  | load _ _ hmarks => exact hmarks
  | command _ hverb ih => exact Command.holds_perform lasting_attested hverb _ ih

/-- **Closed branches stay closed.** Let a command for a rule come to its end in a session whose marks are those of the
closure check; without signs, the statement has to be a formula. Then nothing was done; or the rule was used with
success, the leaf of the current branch gave way to new ones, and if it was closed, it was closed as a success and they
all are. So a leaf that is closed because nothing is left to be done admits no rule, and a closed proof stays closed,
with the same verdict. -/
theorem use_keeps_closed (hs : s.Faithful) (hp : s.proof = some p)
    (hst : s.calculus = .ok .unsigned → ∃ a, p.statement.Expresses a) {reply : Reply}
    (hrun : exec (Command.perform ⟨.use, .rest command⟩) s = (.ok reply, t)) :
    ∃ q, t.proof = some q ∧
      (t = s ∨ Uses command s t ∧ ∃ r news, p.GivesWay q r news ∧ Proof.StaysClosed r news) ∧
      (p.tree.isClosed = true → q.tree.isClosed = true ∧ q.tree.isSuccessful = p.tree.isSuccessful) := by
  obtain ⟨speller, hreached⟩ := hs.reached
  obtain ⟨e, he, hkept⟩ := hreached.regular.proof p hp
  obtain ⟨e', he', hmarks⟩ := hs.holds p hp
  obtain rfl := Except.ok.inj (he'.symm.trans he)
  rcases use_cases hrun with rfl | huses
  · exact ⟨p, hp, .inl rfl, fun h => ⟨h, rfl⟩⟩
  obtain ⟨rule, context, s₁, told, more, huse, hafter, -⟩ := id huses
  obtain ⟨q, hmove, rfl⟩ := useRule_eq_none hp he huse
  have hstate : ∃ a, p.statement.Expresses a := by
    obtain ⟨_, _, hkept⟩ := hkept
    cases hc : e'.calculus with
    | unsigned => exact hst (hc ▸ (calculus_of_setting he).1)
    | signed => exact (hkept.signed hc).2
  have hkept' : q.Kept False e' := by
    have hstep := (Proof.Step.use rule context p.branch p).kept hkept False.elim
    rwa [hmove] at hstep
  obtain ⟨place, fs, d, g, y, hfound, hrule, hok, rfl⟩ := hkept.exec_useOn_ok hmove
  obtain ⟨_, _, hkept⟩ := hkept
  obtain ⟨_, _, hkept'⟩ := hkept'
  -- the new leaves are checked
  obtain ⟨told', u, hafter', hu⟩ := exec_afterUse rule (s := { s with proof := some _ })
    (e := e') he rfl (hkept'.sound hstate).sane List.getLast?_concat
  obtain ⟨-, rfl⟩ := Prod.mk.inj (hafter.symm.trans hafter')
  have hway := Proof.givesWay_of_use hkept hfound (useRule_full hrule) hok (m := p.move rule context p.branch) hu
  have hstays := Proof.staysClosed_of_use hkept hstate hmarks hfound hrule
  exact ⟨_, rfl, .inr ⟨huses, _, _, hway, hstays⟩, hway.verdict hstays⟩

theorem use_keeps_closed_disjunction :
    ∃ s p reply t q, s.Faithful ∧ s.proof = some p ∧ p.tree.isClosed = true ∧ p.tree.isSuccessful = true ∧
      exec (Command.perform ⟨.use, .rest "true or 2 2"⟩) s = (.ok reply, t) ∧ t.proof = some q ∧ q.used.length = 2 ∧
      (∃ r news, p.GivesWay q r news ∧ Proof.StaysClosed r news) ∧ q.tree.isClosed = true ∧
      q.tree.isSuccessful = true := by
  -- the implication closes the branch, and the disjunction is then taken apart below it
  have hrun : (fresh?.bind fun s₀ =>
      let s := (exec (Command.perform ⟨.use, .rest "false imp 1 6"⟩)
        (exec (Command.perform ⟨.prove, .rest "(q or r) -> (q or r)"⟩) s₀).2).2
      s.proof.bind fun p => (exec (Command.perform ⟨.use, .rest "true or 2 2"⟩) s).1.toOption.bind fun _ =>
        (exec (Command.perform ⟨.use, .rest "true or 2 2"⟩) s).2.proof.bind fun q =>
          if s₀.proof.isNone ∧ s.calculus.toOption = some .signed ∧ p.tree.isClosed ∧ p.tree.isSuccessful then
            some (p.used.length, q.used.length) else none) = some (1, 2) := by
    decide +kernel
  simp only [Option.bind_eq_some_iff, Option.ite_none_right_eq_some, Option.some.injEq, Prod.mk.injEq,
    Option.isNone_iff_eq_none] at hrun
  obtain ⟨s₀, hfresh, p, hp, reply, hreply, q, hq, ⟨hnone, hsign, hclosed, hsuccess⟩, hone, htwo⟩ := hrun
  have hs : Faithful (exec (Command.perform ⟨.use, .rest "false imp 1 6"⟩)
      (exec (Command.perform ⟨.prove, .rest "(q or r) -> (q or r)"⟩) s₀).2).2 :=
    .command (.command (.idle (reached_fresh hfresh) hnone) (by decide)) (by decide)
  have hrun : exec (Command.perform ⟨.use, .rest "true or 2 2"⟩) _ = (.ok reply, _) :=
    Prod.ext (eq_ok_of_toOption hreply) rfl
  obtain ⟨q', hq', hmove, hverdict⟩ :=
    use_keeps_closed hs hp (fun h => by cases (eq_ok_of_toOption hsign).symm.trans h) hrun
  obtain rfl := Option.some.inj (hq.symm.trans hq')
  obtain ⟨hclosed', hsuccess'⟩ := hverdict hclosed
  refine ⟨_, p, reply, _, q, hs, hp, hclosed, hsuccess, hrun, hq, htwo, ?_, hclosed', hsuccess'.trans hsuccess⟩
  rcases hmove with hsame | ⟨-, hways⟩
  · obtain rfl : p = q := Option.some.inj (hp.symm.trans ((congrArg Session.proof hsame).symm.trans hq))
    cases hone.symm.trans htwo
  · exact hways

-- without signs a sentence with a sign is no formula: nothing is left to be done with it, and yet a rule takes it apart
example : ∃ s : Sentence, (unsigned.verdict [s] {}).map (·.success) = some false ∧
    ((unsigned.useRule {} "true and" [s] {} [("sentenceID", .whole 0), ("tokenID", .whole 3)]).toOption.bind
      id).isSome = true :=
  ⟨[.of "not" "~", "(", .of "sentvar" "p", .of "signtrue" "T", ")"], by decide +kernel⟩

end Session

end TableauTutor
