import TableauTutor.Proofs.Replaying
import TableauTutor.Proofs.SolverInvariant

/-!
Copies of proofs. A copy is made by the recorded moves, one after another, and by the marks of the leaves. Names, layers
and histories depend on the moves that are left only, so the copy is the proof once more if every node was made by a
recorded move. What is done by hand makes no other nodes, with one exception: a rule that finds too few names for its
branches leaves those that it found names for, and no record of them.

- `copy_eq_ok_iff`: a copy is made of moves and marks.
- `Handmade`: what is true of a proof whatever is done to it by hand. `keeps_operation`: one operation;
  `handmade_after`: any number.
- `Handmade.copied_iff`: the copy is the proof once more exactly if every node is on record.
- `Handmade.useOn_error`, `Handmade.recorded_operation`: a node goes unrecorded only for want of a name.
- `Session.copied_iff_recorded`: all together.
-/

namespace TableauTutor

open ProofTree Calculus

namespace Proof

variable {e : Setting} {p p' c : Proof} {b : String} {rule : String} {context : Context} {st root : Sentence}
    {name : String}

/-! ## What a copy is made of -/

theorem finalState_closeBranch (b : String) (v : Closing) (p : Proof) : finalState (Session.closeBranch b v) p =
    match p.tree.leaf? b with
    | none => .error noLeaf
    | some k => do return { p with tree := ← p.tree.close k v } := by
  simp only [finalState, Session.closeBranch, exec_bind, exec_get]
  cases p.tree.leaf? b with
  | none => rfl
  | some k =>
    simp only [exec_bind, exec_lift]
    cases p.tree.close k v <;> rfl

theorem foldlM_marks (qs : List Place) (p : Proof) :
    qs.foldlM (fun (p : Proof) q =>
      match q.data.closed with
      | none => .ok p
      | some v => finalState (Session.closeBranch q.data.branch v) p) p =
    finalState ((marksOf (qs.map (·.data))).forM fun x => Session.closeBranch x.1 x.2) p := by
  rw [← foldlM_finalState]
  induction qs generalizing p with
  | nil => rfl
  | cons q qs ih =>
    cases hclosed : q.data.closed with
    | none => simpa [marksOf, hclosed] using ih p
    | some v => simp [marksOf, hclosed, ih]

/-- **A copy** is started with the statement; the recorded moves are made, and then the marks of the leaves. -/
theorem copy_eq_ok_iff : p.copy e = .ok c ↔ ∃ p₀ p₁, Proof.start e p.statement = .ok p₀ ∧
    exec (p.used.forM fun u => useOn e u.rule u.context u.branch) p₀ = (.ok (), p₁) ∧
    exec ((marksOf (p.tree.leaves.map (·.data))).forM fun x => Session.closeBranch x.1 x.2) p₁ = (.ok (), c) := by
  have hcopy : p.copy e = (do
      let p₀ ← Proof.start e p.statement
      let p₁ ← finalState (p.used.forM fun u => useOn e u.rule u.context u.branch) p₀
      finalState ((marksOf (p.tree.leaves.map (·.data))).forM fun x => Session.closeBranch x.1 x.2) p₁) := by
    simp only [← foldlM_finalState (fun u : UsedRule => useOn e u.rule u.context u.branch), ← foldlM_marks,
      finalState_closeBranch]
    refine congrArg _ (funext fun p₀ => congrArg₂ _ ?_ rfl)
    congr 1
    funext c u
    rw [finalState, exec]
    rcases ((useOn e u.rule u.context u.branch).run.run c : Outcome Unit × Proof) with ⟨_ | _, _⟩ <;> rfl
  rw [hcopy]
  constructor
  · intro h
    obtain ⟨p₀, hstart, h⟩ := of_bind_eq_ok h
    obtain ⟨p₁, hmoves, hmarks⟩ := of_bind_eq_ok h
    exact ⟨p₀, p₁, hstart, finalState_eq_ok_iff.1 hmoves, finalState_eq_ok_iff.1 hmarks⟩
  · rintro ⟨p₀, p₁, hstart, hmoves, hmarks⟩
    rw [hstart]
    change (finalState _ p₀ >>= _) = _
    rw [finalState_eq_ok_iff.2 hmoves]
    exact finalState_eq_ok_iff.2 hmarks

/-- a proof is another one once more: the nodes are the same, marks apart, the leaves also have the same marks, and the
same moves are recorded -/
structure Reproduces (c p : Proof) : Prop where
  statement : c.statement = p.statement
  tree : c.tree.unmarked = p.tree.unmarked
  leaves : c.tree.leaves.map (·.data) = p.tree.leaves.map (·.data)
  used : c.used = p.used

/-- the copy of a proof is the proof once more -/
def Copied (e : Setting) (p : Proof) : Prop := ∃ c, p.copy e = .ok c ∧ c.Reproduces p

theorem onRecord_closeBranch (b : String) (v : Closing) : Keeps (OnRecord True) (Session.closeBranch b v) :=
  keeps_marking fun hfound hp => hp.close hfound.tree v

theorem recorded_copy (h : p.copy e = .ok c) : c.tree.Recorded c.used := by
  obtain ⟨p₀, p₁, hstart, hmoves, hmarks⟩ := copy_eq_ok_iff.1 h
  have hfresh : p₀.OnRecord True := by
    obtain ⟨root, -, h⟩ := of_bind_eq_ok hstart
    obtain rfl := Except.ok.inj h
    exact fun _ => .root _ _
  have hmoved := KeepsSmooth.forM (l := p.used) (fun u _ => smooth_useOn (e := e) (c := True) u.rule u.context u.branch)
    p₀ hfresh
  rw [hmoves] at hmoved
  have hmarked := Keeps.forM (l := marksOf (p.tree.leaves.map (·.data))) (fun x _ => onRecord_closeBranch x.1 x.2) p₁
    (hmoved fun _ => Outcome.smooth_ok ())
  rw [hmarks] at hmarked
  exact hmarked trivial

/-! ## What is done by hand -/

/-- the last moves taken back -/
def undoLast (amount : Int) : Work Unit := do
  let p ← get
  if (p.used.length : Int) < amount then throw (.refusal .nothingToUndo)
  let kept := p.used.take (p.used.length - amount.toNat)
  let undone := (p.used.drop (p.used.length - amount.toNat)).reverse
  let some layer := (undone.map (·.layer)).min? | throw (.badValue "no move was taken back")
  let tree := p.tree.prune layer
  set { p with used := kept, tree, branch := ((kept.getLast?).map (·.branch)).getD tree.data.branch : Proof }

/-- what can be done to a proof by hand, on any of its branches -/
inductive Operation where
  | use (rule : String) (context : Context) (branch : String)
  | close (branch : String)
  | jump (target : String)
  | next
  | undo (amount : Int)

/-- an operation is carried out -/
def Operation.act (e : Setting) : Operation → Work Unit
  | use rule context branch => useOn e rule context branch
  | close branch => do let _ ← dealClosure e branch
  | jump target => Proof.jump target
  | next => do let _ ← Proof.next
  | undo amount => undoLast amount

/-- the proof after operations, whether they succeed or fail -/
def after (e : Setting) (p : Proof) (ops : List Operation) : Proof := ops.foldl (fun p op => (exec (op.act e) p).2) p

/-- what comes of the operations -/
def outcomes (e : Setting) : Proof → List Operation → List (Outcome Unit)
  | _, [] => []
  | p, op :: ops => (exec (op.act e) p).1 :: outcomes e (exec (op.act e) p).2 ops

end Proof

namespace Session

theorem undo_eq_undoLast {s : Session} {p : Proof} (hp : s.proof = some p) (amount : Int) :
    (exec (undo amount) s).2.proof = some (exec (Proof.undoLast amount) p).2 := by
  rw [exec_undo hp]
  simp only [Proof.undoLast, exec_bind, exec_get]
  split
  · exact hp
  · generalize hundone : (p.used.drop (p.used.length - amount.toNat)).reverse = undone
    cases hmin : (undone.map (·.layer)).min? with
    | some layer => rfl
    | none =>
      obtain rfl : undone = [] := by simpa using hmin
      have hused := List.take_append_drop (p.used.length - amount.toNat) p.used
      rw [List.reverse_eq_nil_iff.1 hundone, List.append_nil] at hused
      simp only [hused]
      rfl

end Session

namespace Proof

variable {e : Setting} {p p' c : Proof} {b : String} {rule : String} {context : Context} {st root : Sentence}
    {name : String}

theorem undoLast_frame (amount : Int) (p : Proof) :
    (exec (undoLast amount) p).2 = p ∨ ∃ kept rest k b, p.used = kept ++ rest ∧
    (∃ u ∈ rest, u.layer = k) ∧ (∀ u ∈ rest, k ≤ u.layer) ∧
      (exec (undoLast amount) p).2 = { p with used := kept, tree := p.tree.prune k, branch := b } := by
  -- it does not matter in which session
  let s : Session := { Session.signedSession with proof := some p }
  obtain ⟨p', n, u, hundo, hp'⟩ := Session.undo_frame (s := s) (p := p) rfl amount
  have hsame := Session.undo_eq_undoLast (s := s) (p := p) rfl amount
  rw [hundo] at hsame
  rw [← Option.some.inj hsame]
  exact hp'.imp_right fun ⟨kept, rest, k, hused, hfirst, hleast, heq⟩ => ⟨kept, rest, k, _, hused, hfirst, hleast, heq⟩

/-! ## Proofs made by hand -/

/-- a proof whose moves can be made again one after another, and whose nodes say something -/
structure Handmade (e : Setting) (st root : Sentence) (name : String) (p : Proof) : Prop where
  sane : p.tree.Sane e.calculus
  orderly : Orderly (Repeats e) (fun _ _ => True) st root name [] p

/-- **Every operation** leaves a proof that can be made by hand, also if it fails. -/
theorem keeps_operation (hx : e.HasLexer) (op : Operation) : Keeps (Handmade e st root name) (op.act e) := by
  intro p hp
  have hgo (b : String) : Handmade e st root name { p with branch := b } := ⟨hp.sane, hp.orderly.goTo b⟩
  cases op with
  | use rule context b =>
    exact ⟨keeps_useOn_sane hx rule context b p hp.sane, keeps_useOn (movesBy_repeats e) rule context b p hp.orderly⟩
  | close b =>
    rw [Operation.act, exec_discard_snd]
    exact ⟨keeps_dealClosure_sane b p hp.sane, keeps_dealClosure (fun _ _ _ _ _ => trivial) b p hp.orderly⟩
  | jump target =>
    obtain ⟨b, hb⟩ := jump_frame target p
    rw [Operation.act, hb]
    exact hgo b
  | next =>
    obtain ⟨b, hb⟩ := next_frame p
    rw [Operation.act, exec_discard_snd, hb]
    exact hgo b
  | undo amount =>
    rcases undoLast_frame amount p with hsame | ⟨kept, rest, k, b, hused, hfirst, hleast, heq⟩
    · rw [Operation.act, hsame]
      exact hp
    · rw [Operation.act, heq]
      have horderly := hp.orderly.undo hused hfirst hleast List.nil_prefix b
      exact ⟨sane_prune hp.sane horderly.names, horderly⟩

/-- **Any number of operations.** -/
theorem handmade_after (hx : e.HasLexer) (ops : List Operation) (hp : Handmade e st root name p) :
    Handmade e st root name (p.after e ops) := by
  induction ops generalizing p with
  | nil => exact hp
  | cons op ops ih => exact ih (keeps_operation hx op p hp)

theorem growthOutcome_cases {d : Node} {bs : List (List Sentence)} (hbs : ∀ b ∈ bs.map (·.map some), b ≠ []) :
    growthOutcome e p d (bs.map (·.map some)) = .ok () ∨ growthOutcome e p d (bs.map (·.map some)) = .error noName := by
  unfold growthOutcome
  rcases branchTrees_outcome (p.newNode d) hbs with ⟨hok, -⟩ | ⟨herr, -⟩ | ⟨-, b, hb, hnone⟩
  · exact .inl hok
  · exact .inr herr
  · obtain ⟨ss, -, rfl⟩ := List.mem_map.1 hb
    simp at hnone

namespace Handmade

/-- **The copy is the proof once more** exactly if every node was made by a recorded move. -/
theorem copied_iff (h : Handmade e st root name p) (hstart : Proof.start e st = .ok (.fresh st root name)) :
    p.Copied e ↔ p.tree.Recorded p.used := by
  constructor
  · rintro ⟨c, hcopy, hsame⟩
    have hrecorded := recorded_unmarked.2 (recorded_copy hcopy)
    rw [hsame.tree, hsame.used] at hrecorded
    exact recorded_unmarked.1 hrecorded
  · intro hrecorded
    obtain ⟨b, hmoves⟩ := exec_moves (p := fresh st root name) (f := id)
      (m := fun u => useOn e u.rule u.context u.branch)
      (fun _ hrepeats q hq => ⟨q.branch, hrepeats q hq⟩) h.orderly.built (recorded_unmarked.2 hrecorded) rfl
    rw [List.map_id] at hmoves
    obtain ⟨t, hmarks, ht, hleaves⟩ := exec_remark
      (p := { fresh st root name with tree := p.tree.unmarked, used := [] ++ p.used, branch := b })
      (by rw [branchNames_eq]; exact h.orderly.names) rfl
    refine ⟨_, copy_eq_ok_iff.2 ⟨_, _, ?_, hmoves, hmarks⟩, h.orderly.statement.symm, ht, hleaves, rfl⟩
    rw [h.orderly.statement]
    exact hstart

/-- **A rule that is not used** leaves the proof as it was, or there were too few names and nodes are left that no
recorded move made. -/
theorem useOn_error (h : Handmade e st root name p) (hx : e.HasLexer) {f : Fault}
    (hrun : exec (useOn e rule context b) p = (.error f, p')) : p' = p ∨ f = noName ∧ ¬ p'.tree.Recorded p'.used := by
  cases useOn_ends hrun with
  | refused => exact .inl rfl
  | @lost _ _ d _ _ _ hfound hrule hlost =>
    obtain ⟨ns, m, a, ps, rfl, -⟩ := useRule_follows hx (List.forall_mem_map.2 (Sane.means_plug (hfound.tree ▸ h.sane)))
      hrule
    have hg := (Calculus.useRule_full hrule).2
    rcases growthOutcome_cases (e := e) (p := p) (d := d) hg with hok | herr
    · cases hlost.symm.trans hok
    · rcases grows_growth (e := e) hfound.tree hg none with hnil | hgrows
      · left
        rw [hnil, ← hfound.tree]
      · refine .inr ⟨Except.error.inj (hlost.symm.trans herr), fun hrecorded => ?_⟩
        exact h.orderly.built.not_recorded hgrows (recorded_unmarked.2 hrecorded)

/-- **An operation** leaves every node on record, unless it fails for want of a name. -/
theorem recorded_operation (h : Handmade e st root name p) (hx : e.HasLexer) (hp : p.tree.Recorded p.used)
    (op : Operation) (hnamed : (exec (op.act e) p).1 ≠ .error noName) :
    (exec (op.act e) p).2.tree.Recorded (exec (op.act e) p).2.used := by
  cases op with
  | use rule context b =>
    rcases hrun : exec (useOn e rule context b) p with ⟨f | _, p'⟩
    · rw [Operation.act, hrun] at hnamed ⊢
      rcases h.useOn_error hx hrun with rfl | ⟨rfl, -⟩
      · exact hp
      · exact absurd rfl hnamed
    · have hsmooth := smooth_useOn (e := e) (c := True) rule context b p fun _ => hp
      rw [hrun] at hsmooth
      rw [Operation.act, hrun]
      exact hsmooth (fun _ => Outcome.smooth_ok _) trivial
  | close b =>
    rw [Operation.act, exec_discard_snd]
    exact onRecord_dealClosure (c := True) b p (fun _ => hp) trivial
  | jump target =>
    obtain ⟨b, hb⟩ := jump_frame target p
    rw [Operation.act, hb]
    exact hp
  | next =>
    obtain ⟨b, hb⟩ := next_frame p
    rw [Operation.act, exec_discard_snd, hb]
    exact hp
  | undo amount =>
    rcases undoLast_frame amount p with hsame | ⟨kept, rest, k, b, hused, -, hleast, heq⟩
    · rw [Operation.act, hsame]
      exact hp
    · rw [Operation.act, heq]
      rw [hused] at hp
      exact hp.prune h.orderly.root_layer hleast

/-- **Any number of operations.** -/
theorem recorded_after (h : Handmade e st root name p) (hx : e.HasLexer) (hp : p.tree.Recorded p.used)
    {ops : List Operation} (hnamed : .error noName ∉ p.outcomes e ops) :
    (p.after e ops).tree.Recorded (p.after e ops).used := by
  induction ops generalizing p with
  | nil => exact hp
  | cons op ops ih =>
    obtain ⟨hop, hops⟩ := List.ne_and_not_mem_of_not_mem_cons hnamed
    exact ih (keeps_operation hx op p h) (h.recorded_operation hx hp op hop.symm) hops

end Handmade

end Proof

/-! ## In a session -/

namespace Session

open Proof

/-- **Copies.** A proof of a statement can be started. Whatever is done to it by hand, its copy is the proof
once more exactly if every node was made by a recorded move. It is so if nothing failed for want of a name;
a rule that is not used leaves the proof as it was, or it failed for want of a name and then the copy is
another proof, or there is none. -/
theorem copied_iff_recorded {s : Session} {c : Calculus} {text : String} {φ : Sentence} (h : s.Accepts c text φ) :
    let e := Accepts.setting s c
    ∃ p₀, Proof.start e φ = .ok p₀ ∧ ∀ ops,
      let p := p₀.after e ops
      (p.Copied e ↔ p.tree.Recorded p.used) ∧ (.error noName ∉ p₀.outcomes e ops → p.Copied e) ∧
      ∀ rule context b f p', exec (useOn e rule context b) p = (.error f, p') → p' = p ∨ f = noName ∧
      ¬ p'.Copied e := by
  intro e
  have hx : e.HasLexer := h.hasLexer
  obtain ⟨a, ha⟩ := h.expresses
  obtain ⟨root, hroot, hmeans⟩ := toNode_means hx ha.negate
  let name := (branchNames e.accessibility []).headD ""
  have hstart : Proof.start e φ = .ok (.fresh φ root name) := by
    simp only [Proof.start, prepare, hroot, ok_bind, pure_ok]
    rfl
  have hfresh : Handmade e φ root name (.fresh φ root name) := ⟨.root ⟨_, hmeans⟩ name, .fresh⟩
  refine ⟨_, hstart, fun ops => ?_⟩
  have hp := handmade_after hx ops hfresh
  refine ⟨hp.copied_iff hstart, fun hnamed => ?_, fun rule context b f p' hrun => ?_⟩
  · exact (hp.copied_iff hstart).2 (hfresh.recorded_after hx (.root _ _) hnamed)
  · have hp' := keeps_operation hx (.use rule context b) _ hp
    rw [Operation.act, hrun] at hp'
    rcases hp.useOn_error hx hrun with hsame | ⟨hf, hlost⟩
    · exact .inl hsame
    · exact .inr ⟨hf, fun hcopied => hlost ((hp'.copied_iff hstart).1 hcopied)⟩

/-- a proof of `p v ~p` by hand, with a move that is taken back and made again -/
def excludedMiddleByHand : List Operation :=
  [.use "false or" [("sentenceID", .whole 0), ("tokenID", .whole 2)] "Czerwona",
    .use "double not" [("sentenceID", .whole 2)] "Czerwona", .undo 1,
    .use "double not" [("sentenceID", .whole 2)] "Czerwona", .close "Czerwona"]

theorem copied_iff_recorded_excluded_middle :
    let e := Accepts.setting signedSession .signed
    signedSession.Accepts .signed "p v ~p" excludedMiddle ∧ ∃ p₀, Proof.start e excludedMiddle = .ok p₀ ∧
      (p₀.after e excludedMiddleByHand).used.length = 2 ∧ (p₀.after e excludedMiddleByHand).tree.isClosed = true ∧
      (p₀.after e excludedMiddleByHand).Copied e := by
  intro e
  obtain ⟨p₀, hstart, hall⟩ := copied_iff_recorded signedSession_accepts
  have hrun : (Proof.start e excludedMiddle).toOption.map (fun p =>
      ((p.outcomes e excludedMiddleByHand).all (·.isOk), (p.after e excludedMiddleByHand).used.length,
        (p.after e excludedMiddleByHand).tree.isClosed)) = some (true, 2, true) := by decide +kernel
  rw [hstart] at hrun
  obtain ⟨hok, hused, hclosed⟩ : (p₀.outcomes e excludedMiddleByHand).all (·.isOk) = true ∧ _ ∧ _ := by
    simpa [Except.toOption] using hrun
  refine ⟨signedSession_accepts, p₀, hstart, hused, hclosed, (hall excludedMiddleByHand).2.1 fun hmem => ?_⟩
  cases List.all_eq_true.1 hok _ hmem

end Session

end TableauTutor
