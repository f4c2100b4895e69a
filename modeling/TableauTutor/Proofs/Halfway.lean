import TableauTutor.Proofs.Recording
import TableauTutor.Proofs.Statement

/-!
Growth that ends halfway. Branches are hung below a leaf one after another, each under a name of its own, and there are
only so many names. When they run out the program breaks down, and the branches that were hung by then stay in the tree.
A refusal or a mistake of the person comes before that and changes nothing.

- `ProofTree.grow_leaf`: what growth below a leaf leaves, and when it fails.
- `Session.useRule_cases`: a rule that is not used leaves the session as it was, or what a
  growth left that ended halfway.
- `Session.growth_fails_halfway`: both together.
-/

namespace TableauTutor

namespace ProofTree

theorem plug_injective (fs : List Frame) {u v : ProofTree} (h : plug fs u = plug fs v) : u = v := by
  induction fs with
  | nil => exact h
  | cons f fs ih =>
    have hchildren := List.append_cancel_left (ProofTree.node.inj h).2
    exact ih (List.cons.inj hchildren).1

/-- the lines that branches make below a leaf, each under its name -/
def newBranches (t : ProofTree) (d : Node) (names : List String) (bs : List (List Sentence)) : List (List Node) :=
  (names.zip bs).map fun nb => nb.2.map fun y =>
  { sentence := y, branch := nb.1, layer := t.nextLayer, history := d.history }

theorem length_newBranches (t : ProofTree) (d : Node) (names : List String) {bs : List (List Sentence)}
    (hbs : ∀ b ∈ bs, b ≠ []) : (lines (newBranches t d names bs)).length = min names.length bs.length := by
  rw [length_lines, newBranches, List.length_map, List.length_zip]
  intro ns hns
  obtain ⟨nb, hnb, rfl⟩ := List.mem_map.1 hns
  simpa using hbs nb.2 (List.of_mem_zip hnb).2

/-- a tree with branches hung below a leaf, the first under the name of the leaf, the others under free ones, as far as
there are names for them; everything else is as it was -/
structure Hung (t : ProofTree) (q : Place) (bs : List (List Sentence)) (more : List String) (t' : ProofTree) :
    Prop where
  names : (q.data.branch :: more).Nodup
  free : ∀ n ∈ more, n ∉ t.branchNames
  tree : ∃ fs, t = plug fs (node q.data []) ∧
    t' = plug fs (node q.data (lines (newBranches t q.data (q.data.branch :: more) bs)))

theorem Hung.ne {t t' : ProofTree} {q : Place} {bs : List (List Sentence)} {more : List String}
    (h : Hung t q bs more t') (hbs : ∀ b ∈ bs, b ≠ []) (hne : bs ≠ []) : t' ≠ t := by
  obtain ⟨fs, ht, ht'⟩ := h.tree
  intro hsame
  have hlines : lines (newBranches t q.data (q.data.branch :: more) bs) = [] :=
    (ProofTree.node.inj (plug_injective fs (ht'.symm.trans (hsame.trans ht)))).2
  have hlength := length_newBranches t q.data (q.data.branch :: more) hbs
  have hpos := List.length_pos_iff.2 hne
  rw [hlines, List.length_nil, List.length_cons] at hlength
  omega

/-- **Growth below a leaf.** There is a line for each branch, and the new layer is known. Or there are too few names:
then growth fails, and the branches that there were names for stay below the leaf. -/
theorem grow_leaf {t : ProofTree} {q : Place} (hq : q ∈ t.leaves) (level : Int) {bs : List (List Sentence)}
    (hbs : ∀ b ∈ bs, b ≠ []) :
    ∃ more t' r, t.grow q.position level (bs.map (·.map some)) = (t', r) ∧ Hung t q bs more t' ∧
      (bs.length ≤ (TableauTutor.branchNames level t.branchNames).length + 1 ∧ r = .ok t.nextLayer ∧
        bs.length ≤ more.length + 1 ∨ (TableauTutor.branchNames level t.branchNames).length + 1 < bs.length ∧
          r = .error (.outOfRange "no branch name is left") ∧ more = TableauTutor.branchNames level t.branchNames) := by
  obtain ⟨hplace, hleaf⟩ := List.mem_filter.1 hq
  obtain ⟨fs, ht, hpos, -⟩ := exists_plug hplace
  have htree : q.tree = node q.data [] := by
    rcases htree : q.tree with ⟨d, ts⟩
    rw [Place.isLeaf, htree, isLeaf, children, List.isEmpty_iff] at hleaf
    rw [Place.data, htree, hleaf]
    rfl
  rw [htree] at ht
  have hown : q.data.branch ∈ t.branchNames := List.mem_map_of_mem hq
  obtain ⟨hnodup, more, hmore, hfree⟩ := namesFor_spec t level hown bs.length
  have hg : ∀ b ∈ bs.map (·.map some), b ≠ [] := by simpa using hbs
  have hgrow := grow_plug fs q.data level hg
  rw [← ht, List.length_map, ← hpos] at hgrow
  dsimp only at hgrow
  rw [sprouts, zip_hung] at hgrow
  rw [hmore] at hnodup hgrow
  refine ⟨more, _, _, hgrow, ⟨hnodup, hfree, fs, ht, rfl⟩, ?_⟩
  rw [namesFor, List.cons.injEq] at hmore
  have hlength := congrArg List.length hmore.2
  rw [List.length_take] at hlength
  -- no sentence is missing, so growth fails only for want of names
  rcases branchTrees_outcome (fun name y => ⟨y, name, t.nextLayer, q.data.history, none⟩) hg with
    ⟨hok, hlen, -⟩ | ⟨herr, hlen⟩ | ⟨-, b, hb, hnone⟩
  · left
    rw [List.length_map, List.length_cons] at hlen
    exact ⟨by omega, by rw [hok]; rfl, hlen⟩
  · right
    rw [List.length_map, List.length_cons] at hlen
    refine ⟨by omega, by rw [herr]; rfl, ?_⟩
    rw [← hmore.2]
    exact List.take_of_length_le (by omega)
  · obtain ⟨b', -, rfl⟩ := List.mem_map.1 hb
    simp at hnone

end ProofTree

/-! ## Using a rule -/

namespace Proof

open ProofTree

variable {e : Setting} {p : Proof}

theorem grow_growth {b : String} {q : Place} {fs : List Frame} {d : Node} (h : p.Found b q fs d) {g : Calculus.Growth}
    (hg : ∀ b ∈ g, b ≠ []) :
    p.tree.grow q.position e.accessibility g =
      (plug fs (node d (growth e p d g none)), (growthOutcome e p d g).map fun _ => p.tree.nextLayer) := by
  have hgrow := grow_plug fs d e.accessibility hg
  rwa [← h.tree, ← h.position] at hgrow

/-- what a rule adds to the current branch cannot be hung as a whole, and the program breaks down -/
structure Breaks (e : Setting) (rule : String) (context : Context) (p : Proof) (f : Fault) (tree : ProofTree) :
    Prop where
  growth : ∃ q g s, p.leaf p.branch = .ok q ∧
    e.calculus.useRule e.lexer rule (q.path.map (·.sentence)) q.data.history context = .ok (some (g, s)) ∧
    p.tree.grow q.position e.accessibility g = (tree, .error f)
  breaks : f.breaks = true

/-- **A rule used on the current branch**: it is used, nothing has changed, or the program breaks down halfway. -/
theorem useOn_cases (e : Setting) (rule : String) (context : Context) (p : Proof) :
    (exec (useOn e rule context p.branch) p).1 = .ok () ∨
    (∃ f, exec (useOn e rule context p.branch) p = (.error f, p)) ∨
      ∃ f tree, p.Breaks e rule context f tree ∧
      exec (useOn e rule context p.branch) p = (.error f, { p with tree }) := by
  rcases hrun : exec (useOn e rule context p.branch) p with ⟨r, p'⟩
  cases useOn_ends hrun with
  | refused f => exact .inr (.inl ⟨f, rfl⟩)
  | idle => exact .inl rfl
  | made => exact .inl rfl
  | @lost q fs d g s f hfound hrule hlost =>
    have hpath : q.path = fs.map (·.data) ++ [d] := by
      rw [Place.path_eq, hfound.strand]
      rfl
    have hdata : q.data = d := congrArg Strand.leaf hfound.strand
    have hg := (Calculus.useRule_full hrule).2
    have hgrow := grow_growth (e := e) hfound hg
    rw [hlost] at hgrow
    refine .inr (.inr ⟨f, _, ⟨⟨q, g, s, hfound.leaf, ?_, hgrow⟩, growthOutcome_abrupt hg f hlost⟩, rfl⟩)
    rw [hpath, hdata]
    exact hrule

end Proof

namespace Session

open Proof ProofTree

/-- what is said to a person about a mistake, if it is one -/
def comment (s : Session) : Fault → Act (Option (List String))
  | .mistake m => do
    if ((s.sockets.lookup "Assistant").map (·.isPlugged)).getD false then
      let a ← Outcome.lift s.assistant
      return some ((a.onUse m).getD [m.default])
    else return some [m.default]
  | f => throw f

theorem exec_comment_snd (s t : Session) (f : Fault) : (exec (s.comment f) t).2 = t := by
  cases f with
  | mistake m =>
    rw [comment]
    split
    · rw [exec_bind, exec_lift]
      cases s.assistant <;> rfl
    · rfl
  | _ => rfl

theorem comment_of_breaks (s : Session) {f : Fault} (h : f.breaks = true) : s.comment f = throw f := by
  cases f with
  | mistake m => cases h
  | _ => rfl

/-- a rule that there is, with a context that fits, is tried on the current branch -/
theorem exec_useRule_eq (s : Session) (rule : String) (context : Context) :
    (exec (useRule rule context) s).2 = s ∨ ∃ p, s.proof = some p ∧ exec (useRule rule context) s =
      exec (tryCatch (do withProof (fun e => useOn e rule context p.branch); return none) s.comment) s := by
  rw [useRule, exec_bind, exec_get]
  dsimp only
  cases hp : s.proof with
  | none =>
    left
    simp only [exec_bind, exec_lift, currentProof, hp]
    rfl
  | some p =>
    simp only [exec_bind, exec_lift, currentProof, hp, pure_ok]
    cases s.calculus with
    | error f => exact .inl rfl
    | ok c =>
      dsimp only
      cases c.rule? rule with
      | none => exact .inl rfl
      | some r =>
        dsimp only
        split
        · exact .inl rfl
        · refine .inr ⟨p, rfl, ?_⟩
          congr 2

/-- **A rule used in a session**: it is used, the session is as it was, or the program breaks down and leaves the part
of what the rule adds to the current branch that there were names and sentences for. -/
theorem useRule_cases (s : Session) (rule : String) (context : Context) :
    (exec (useRule rule context) s).1 = .ok none ∨ (exec (useRule rule context) s).2 = s ∨
      ∃ e p f tree, s.setting = .ok e ∧ s.proof = some p ∧ p.Breaks e rule context f tree ∧
        exec (useRule rule context) s = (.error f, { s with proof := some { p with tree } }) := by
  rcases exec_useRule_eq s rule context with hsame | ⟨p, hp, hrun⟩
  · exact .inr (.inl hsame)
  rw [hrun, exec_tryCatch, exec_bind]
  cases he : s.setting with
  | error f =>
    have hwith : exec (withProof fun e => useOn e rule context p.branch) s = (.error f, s) := by
      simp only [withProof, exec_bind, exec_get, hp, exec_lift, he]
    rw [hwith]
    exact .inr (.inl (exec_comment_snd s s f))
  | ok e =>
    have hsame : { s with proof := some p } = s := by rw [← hp]
    rcases useOn_cases e rule context p with hok | ⟨f, hfail⟩ | ⟨f, tree, hbreaks, hfail⟩
    · rw [exec_withProof (x := fun e => useOn e rule context p.branch) he hp (Prod.ext hok rfl)]
      exact .inl rfl
    · rw [exec_withProof (x := fun e => useOn e rule context p.branch) he hp hfail, hsame]
      exact .inr (.inl (exec_comment_snd s s f))
    · rw [exec_withProof (x := fun e => useOn e rule context p.branch) he hp hfail]
      refine .inr (.inr ⟨e, p, f, tree, rfl, hp, hbreaks, ?_⟩)
      simp only [comment_of_breaks s hbreaks.breaks, exec_throw]

/-- **Growth and failure.** Branches of sentences that are hung below a leaf are all there in the end if
there are names for them. If not, those that there are names for stay, at least one, and growth fails. A
rule that is not used leaves the session as it was, unless growth failed: then the tree has changed, into
what growth left of it, and nothing else. -/
theorem growth_fails_halfway {t : ProofTree} {q : Place} (hq : q ∈ t.leaves) (level : Int) {bs : List (List Sentence)}
    (hbs : ∀ b ∈ bs, b ≠ []) (s : Session) (rule : String) (context : Context) :
    (∃ more t' r, t.grow q.position level (bs.map (·.map some)) = (t', r) ∧ Hung t q bs more t' ∧
      (bs.length ≤ (TableauTutor.branchNames level t.branchNames).length + 1 ∧ r = .ok t.nextLayer ∧
        bs.length ≤ more.length + 1 ∨ (TableauTutor.branchNames level t.branchNames).length + 1 < bs.length ∧
          r = .error (.outOfRange "no branch name is left") ∧ more = TableauTutor.branchNames level t.branchNames ∧
          t' ≠ t)) ∧
    ((exec (useRule rule context) s).1 = .ok none ∨ (exec (useRule rule context) s).2 = s ∨
      ∃ e p f tree, s.setting = .ok e ∧ s.proof = some p ∧ p.Breaks e rule context f tree ∧
        exec (useRule rule context) s = (.error f, { s with proof := some { p with tree } })) := by
  refine ⟨?_, useRule_cases s rule context⟩
  obtain ⟨more, t', r, hgrow, hhung, hcases⟩ := grow_leaf hq level hbs
  refine ⟨more, t', r, hgrow, hhung, hcases.imp_right fun ⟨hlen, hr, hmore⟩ => ⟨hlen, hr, hmore, hhung.ne hbs ?_⟩⟩
  rintro rfl
  simp at hlen

/-- two hundred branches are more than there are names for -/
theorem growth_fails_halfway_two_hundred : let t := ProofTree.root excludedMiddle "Czerwona"
    ∃ q ∈ t.leaves, ∃ t', t.grow q.position 4 (List.replicate 200 [some excludedMiddle]) =
      (t', .error (.outOfRange "no branch name is left")) ∧ t' ≠ t := by
  intro t
  have hq : (⟨0, [], [], t, []⟩ : Place) ∈ t.leaves := List.mem_singleton.2 rfl
  have hbs : ∀ b ∈ List.replicate 200 [excludedMiddle], b ≠ [] := fun b hb => by simp [List.eq_of_mem_replicate hb]
  have hfails : (t.grow 0 4 (List.replicate 200 [some excludedMiddle])).2.toBool = false := by decide +kernel
  obtain ⟨more, t', r, hgrow, -, ⟨-, rfl, -⟩ | ⟨-, rfl, -, hne⟩⟩ :=
    (growth_fails_halfway hq 4 hbs signedSession "" []).1
  · rw [List.map_replicate] at hgrow
    rw [show t.grow 0 4 (List.replicate 200 [some excludedMiddle]) = _ from hgrow] at hfails
    cases hfails
  · rw [List.map_replicate] at hgrow
    exact ⟨_, hq, t', hgrow, hne⟩

end Session

end TableauTutor
