import TableauTutor.Proofs.Moves

/-!
Moves on record. What a rule hangs below a leaf before it fails stays there, though no move is recorded. But then the
program breaks down: a refusal, and a mistake of the person, come before anything is changed. So as long as nothing
breaks down, every node of a proof was made by a recorded move.

- `Recorded`: every node was made by a move that is recorded.
- `smooth_useOn`, `smooth_solve`: so it stays.
-/

namespace TableauTutor

/-! ## Nodes of recorded moves -/

namespace ProofTree

variable {k : Int}

mutual
theorem layer_of_prune {t : ProofTree} {s : Strand} (hs : s ∈ strands (prune k t)) {n : Node} (hn : n ∈ s.path) :
    n = t.data ∨ n.layer < k := by
  match t with
  | node d ts =>
    rw [prune] at hs
    by_cases hnil : pruneAll k ts = []
    · rw [hnil] at hs
      obtain rfl : s = ⟨[], d⟩ := by simpa [strands] using hs
      exact .inl (List.mem_singleton.1 hn)
    · rw [strands_node hnil] at hs
      obtain ⟨v, hv, rfl⟩ := List.mem_map.1 hs
      rw [Strand.path_below, List.singleton_append, List.mem_cons] at hn
      exact hn.imp_right (layer_of_pruneAll hv)

theorem layer_of_pruneAll {ts : List ProofTree} {s : Strand} (hs : s ∈ strandsAll (pruneAll k ts)) {n : Node}
    (hn : n ∈ s.path) : n.layer < k := by
  match ts with
  | [] => simp [pruneAll, strandsAll] at hs
  | t :: ts =>
    rw [pruneAll] at hs
    split at hs
    · rename_i hlayer
      rw [strandsAll, List.mem_append] at hs
      rcases hs with hs | hs
      · rcases layer_of_prune hs hn with rfl | hlt
        · exact hlayer
        · exact hlt
      · exact layer_of_pruneAll hs hn
    · exact layer_of_pruneAll hs hn
end

theorem Grows.data_eq {t t' : ProofTree} (h : Grows t t') : t'.data = t.data := by
  obtain ⟨fs, d, ts, rfl, rfl, -⟩ := h
  cases fs <;> rfl

theorem Built.root_layer {R : ProofTree → UsedRule → ProofTree → Prop} {s : Sentence} {name : String} {t : ProofTree}
    {log : List UsedRule} (h : Built R s name t log) : t.data.layer = 0 := by
  induction h with
  | root => rfl
  | lost _ hg ih => rw [hg.data_eq, ih]
  | move _ hg _ _ ih => rw [hg.data_eq, ih]

/-- every node but the root was made by a recorded move -/
def Recorded (t : ProofTree) (log : List UsedRule) : Prop :=
  ∀ s ∈ strands t, ∀ n ∈ s.path, n.layer = 0 ∨ ∃ u ∈ log, u.layer = n.layer

theorem recorded_unmarked {t : ProofTree} {log : List UsedRule} : Recorded t.unmarked log ↔ Recorded t log :=
  forall_unmarked fun _ => Iff.rfl

namespace Recorded

variable {t t' : ProofTree} {log : List UsedRule} {u : UsedRule}

theorem root (s : Sentence) (name : String) : Recorded (.root s name) log := by
  intro v hv n hn
  obtain rfl : v = ⟨[], { sentence := s, branch := name }⟩ := by simpa [Built.strands_root] using hv
  obtain rfl : n = { sentence := s, branch := name } := by simpa [Strand.path] using hn
  exact .inl rfl

theorem record (h : Recorded t log) (u : UsedRule) : Recorded t (log ++ [u]) := by
  intro s hs n hn
  rcases h s hs n hn with hzero | ⟨v, hv, heq⟩
  · exact .inl hzero
  · exact .inr ⟨v, List.mem_append_left _ hv, heq⟩

theorem grow (h : Recorded t log) (hg : Grows t t') (hu : u.layer = t.nextLayer) : Recorded t' (log ++ [u]) := by
  intro s hs n hn
  rcases hg.node_cases hs hn with ⟨v, hv, hnv⟩ | hlayer
  · exact h.record u v hv n hnv
  · exact .inr ⟨u, List.mem_append_right _ (List.mem_singleton.2 rfl), hu.trans hlayer.symm⟩

theorem prune {kept rest : List UsedRule} (h : Recorded t (kept ++ rest)) (hroot : t.data.layer = 0)
    (hrest : ∀ u ∈ rest, k ≤ u.layer) : Recorded (t.prune k) kept := by
  intro s hs n hn
  rcases layer_of_prune hs hn with rfl | hlt
  · exact .inl hroot
  obtain ⟨v, hv, hbefore⟩ := exists_strand_of_prune hs
  rcases h v hv n (hbefore.subset hn) with hzero | ⟨u, hu, heq⟩
  · exact .inl hzero
  · rcases List.mem_append.1 hu with hu | hu
    · exact .inr ⟨u, hu, heq⟩
    · have := hrest u hu
      omega

end Recorded

end ProofTree

/-! ## Computations on proofs -/

namespace Proof

open ProofTree

theorem Orderly.root_layer {R : ProofTree → UsedRule → ProofTree → Prop} {M : List Sentence → Closing → Prop}
    {st root : Sentence}
    {name : String} {start : List UsedRule} {p : Proof} (h : Orderly R M st root name start p) :
    p.tree.data.layer = 0 := by
  have hroot := h.built.root_layer
  rwa [data_unmarked] at hroot

variable {e : Setting} {p : Proof} {b : String} {q : Place} {fs : List Frame} {d : Node} {c : Prop}

/-- in case of `c`, every node of the proof was made by a recorded move -/
def OnRecord (c : Prop) (p : Proof) : Prop := c → p.tree.Recorded p.used

theorem OnRecord.close (h : p.OnRecord c) (ht : p.tree = plug fs (node d [])) (v : Closing) :
    OnRecord c { p with tree := plug fs (node { d with closed := some v } []) } := by
  intro hc
  have hold := recorded_unmarked.2 (h hc)
  rw [ht] at hold
  apply recorded_unmarked.1
  rw [unmarked_close]
  exact hold

theorem OnRecord.move (h : p.OnRecord c) (ht : p.tree = plug fs (node d [])) {g : Calculus.Growth}
    (hg : ∀ b ∈ g, b ≠ []) {s : Option Sentence} {u : UsedRule} (hu : u.layer = p.tree.nextLayer) :
    OnRecord c { p with tree := plug fs (node d (growth e p d g s)), used := p.used ++ [u] } := by
  intro hc
  rcases grows_growth (e := e) ht hg s with hnil | hgrows
  · simp only [hnil, ← ht]
    exact (h hc).record u
  · exact recorded_unmarked.1 ((recorded_unmarked.2 (h hc)).grow hgrows (by rw [hu, nextLayer_unmarked]))

theorem growthOutcome_abrupt {g : Calculus.Growth} (hg : ∀ b ∈ g, b ≠ []) : (growthOutcome e p d g).Abrupt := by
  unfold growthOutcome
  rcases branchTrees_outcome (p.newNode d) hg with ⟨h, -⟩ | ⟨h, -⟩ | ⟨h, -⟩ <;> rw [h]
  · exact .ok ()
  · exact .error rfl
  · exact .error rfl

/-- **Using a rule** leaves every node on record, unless it breaks down. -/
theorem smooth_useOn (rule : String) (context : Context) (b : String) :
    KeepsSmooth c (OnRecord c) (useOn e rule context b) := by
  intro p hp hsmooth hc
  have hsmooth := hsmooth hc
  revert hc
  rcases hrun : exec (useOn e rule context b) p with ⟨r, p'⟩
  rw [hrun] at hsmooth
  cases useOn_ends hrun with
  | refused => exact hp
  | idle => exact hp
  | @lost _ _ d g _ _ _ hrule hlost =>
    have habrupt : (growthOutcome e p d g).Abrupt := growthOutcome_abrupt (Calculus.useRule_full hrule).2
    rw [hlost] at habrupt
    exact absurd hsmooth habrupt.not_smooth
  | made hfound hrule => exact hp.move hfound.tree (Calculus.useRule_full hrule).2 rfl

/-- **Closing a branch** makes no nodes. -/
theorem onRecord_dealClosure (b : String) : Keeps (OnRecord c) (dealClosure e b) :=
  keeps_closing fun hp hfound _ => hp.close hfound.tree _

/-! ## The solver -/

theorem sign_abrupt (x : Lexer) (s : Sentence) : (Calculus.sign x s).Abrupt := by
  have htrue (s : Sentence) : (do return (← s.generate x "signtrue") :: (← s.reduce) : Outcome Sentence).Abrupt :=
    (Outcome.Abrupt.ofLexicon _).bind fun _ => (Outcome.Abrupt.ofFormula _).bind fun _ => .ok _
  refine (Outcome.Abrupt.ofFormula _).bind fun k => ?_
  cases k with
  | none => exact htrue s
  | some k =>
    dsimp only
    split
    · refine (Outcome.Abrupt.ofLexicon _).bind fun y => ?_
      cases k.right with
      | none => exact .error rfl
      | some t => exact (Outcome.Abrupt.ofFormula _).bind fun _ => .ok _
    · exact htrue s

theorem toNode_abrupt (c : Calculus) (x : Lexer) (s : Sentence) : (c.toNode x s).Abrupt := by
  cases c with
  | unsigned => exact .ok s
  | signed => exact sign_abrupt x s

theorem movedToken_abrupt (c : Calculus) (rule : String) (s : Sentence) : (movedToken c rule s).Abrupt := by
  unfold movedToken
  dsimp only
  split
  · refine (Outcome.Abrupt.ofFormula _).bind fun k => ?_
    rcases k with _ | ⟨y, left, _ | t⟩
    · exact .error rfl
    · exact .error rfl
    · refine (Outcome.Abrupt.ofFormula _).bind fun i => ?_
      cases i with
      | none => exact .error rfl
      | some i => exact .ok _
  · refine (Outcome.Abrupt.ofFormula _).bind fun i => ?_
    cases i with
    | none => exact .error rfl
    | some i => exact .ok _

/-- **A sentence taken apart** leaves every node on record, unless this breaks down. -/
theorem smooth_takeApart (rule : String) (x : Pending) : KeepsSmooth c (OnRecord c) (takeApart e rule x) := by
  intro p hp hsmooth hc
  have hsmooth := hsmooth hc
  revert hc
  rcases takeApart_cases e rule x p with ⟨f, hrun⟩ | ⟨m, bs, q, fs, d, -, hstrict, hfound, hcases⟩
  · rw [hrun]
    exact hp
  have hg := (full_of_strict hstrict).2
  rcases hcases with ⟨f, hcause, hrun⟩ | ⟨-, s, -, ⟨f, htoken, hrun⟩ | ⟨token, -, hrun⟩⟩ <;> rw [hrun] at hsmooth ⊢
  -- what is hung but not recorded was hung before a breakdown
  · rcases hcause with hgrowth | hnode
    · exact absurd hsmooth (hgrowth ▸ growthOutcome_abrupt hg).not_smooth
    · exact absurd hsmooth (hnode ▸ toNode_abrupt e.calculus e.lexer x.sentence).not_smooth
  · exact absurd hsmooth (htoken ▸ movedToken_abrupt e.calculus rule x.sentence).not_smooth
  · exact hp.move hfound.tree hg rfl

theorem smooth_advance (rule : String) (x : Pending) (closed : List String) (a : Agenda) :
    KeepsSmooth c (OnRecord c) (advance e rule x closed a) := by
  refine (smooth_takeApart rule x).bind fun _ => Keeps.smooth ?_
  refine Keeps.get.bind fun p => (Keeps.foldlM (fun closed q _ => ?_) closed).bind fun closed => ?_
  · refine (onRecord_dealClosure q.data.branch).bind fun r => ?_
    cases r <;> exact .pure _
  · exact Keeps.get.bind fun p => (Keeps.lift _).bind fun _ => .pure _

theorem smooth_exhaust (rule : String) (fuel : Nat) (closed : List String) (a : Agenda) :
    KeepsSmooth c (OnRecord c) (exhaust e rule fuel closed a) := by
  induction fuel generalizing closed a with
  | zero => exact (Keeps.pure _).smooth
  | succ fuel ih =>
    rw [exhaust]
    split
    · exact (Keeps.pure _).smooth
    · exact .ite (ih _ _) ((smooth_advance rule _ _ _).bind fun r => ih r.1 r.2)

theorem smooth_saturate (bound : Nat) (rules : List String) (fuel : Nat) (a : Agenda) :
    KeepsSmooth c (OnRecord c) (saturate e bound rules fuel a) := by
  induction fuel generalizing a with
  | zero => exact (Keeps.pure _).smooth
  | succ fuel ih =>
    rw [saturate]
    refine .ite (Keeps.pure _).smooth ((KeepsSmooth.foldlM (fun a r _ => ?_) a).bind fun a => ?_)
    · exact .ite (Keeps.pure _).smooth (smooth_exhaust r bound [] a)
    · exact Keeps.get.smooth.bind fun p => .ite (Keeps.pure _).smooth (ih a)

section Orderly

variable {R : ProofTree → UsedRule → ProofTree → Prop} {M : List Sentence → Closing → Prop} {st root : Sentence}
    {name : String} {start : List UsedRule} (hR : SolvesBy R) (hM : ClosesBy M e.calculus)

include hR hM

/-- **Rules that are tried and given up**: what they did is taken back, and so are their moves. -/
theorem smooth_tryRules (bound : Nat) (tried rest : List String) (a : Agenda) :
    KeepsSmooth c (fun p => Orderly R M st root name start p ∧ p.OnRecord c) (tryRules e bound tried rest a) := by
  induction rest generalizing tried a start with
  | nil => exact (Keeps.pure _).smooth
  | cons rule rest ih =>
    refine KeepsSmooth.get_bind fun p hp hsmooth => ?_
    -- from here on, what was used up to now stays
    have hp' : Orderly R M st root name p.used p := ⟨hp.1.statement, hp.1.built, List.prefix_rfl, hp.1.marked⟩
    have hweaken {q : Proof} (hq : Orderly R M st root name p.used q ∧ q.OnRecord c) :
        Orderly R M st root name start q ∧ q.OnRecord c :=
      ⟨⟨hq.1.statement, hq.1.built, hp.1.start.trans hq.1.start, hq.1.marked⟩, hq.2⟩
    refine hweaken ((KeepsSmooth.bind
      (.and ((endures_orderly hR hM).saturate bound _ bound a) (smooth_saturate bound _ bound a)) fun r =>
      ?_ : KeepsSmooth c _ _)
      p ⟨hp', hp.2⟩ hsmooth)
    refine .ite (Keeps.pure _).smooth ((ih (tried ++ [rule]) r.2).bind fun done => .ite (Keeps.pure _).smooth ?_)
    refine Keeps.smooth (Keeps.bind (.change fun q hq => ?_) fun _ => .pure _)
    obtain ⟨more, hmore⟩ := hq.1.start
    refine ⟨hq.1.takeBack hmore, fun hc => ?_⟩
    have hrecorded := hq.2 hc
    rw [← hmore] at hrecorded
    exact hrecorded.prune hq.1.root_layer (hq.1.lt_layer hmore)

/-- **The solver** leaves every node on record, unless it breaks down. -/
theorem smooth_solve : KeepsSmooth c (fun p => Orderly R M st root name start p ∧ p.OnRecord c) (solve e) := by
  have hclose (b : String) : Keeps (fun p => Orderly R M st root name start p ∧ p.OnRecord c) (dealClosure e b) :=
    fun p hp => ⟨keeps_dealClosure hM b p hp.1, onRecord_dealClosure b p hp.2⟩
  refine (keeps_checkBranches hclose).smooth.bind fun _ => Keeps.get.smooth.bind fun p => ?_
  exact (Keeps.lift _).smooth.bind fun a => smooth_tryRules hR hM _ _ _ a

end Orderly

end Proof

end TableauTutor
