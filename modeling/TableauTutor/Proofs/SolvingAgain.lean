import TableauTutor.Proofs.Checking
import TableauTutor.Proofs.ClosedBranches
import TableauTutor.Proofs.GivingUp

/-!
Solving again. The solver first goes through the closure check of every branch. It finishes the proof if a branch is
open then, unless it runs out of names; if no branch is open there is nothing that waits, every rule is given up, and
the solver says that it has not finished the proof. So it says this of each proof that is finished already, and it
leaves such a proof as it is.

- `solve_of_closed`: what the solver does where no branch is open.
- `solve_of_open`: what it does where a branch is open, and what it does after that.
- `Session.solve_finishes_iff`: the same for every number of calls on the proof of a statement that was typed.
-/

namespace TableauTutor

open ProofTree Calculus

namespace Proof

variable {e : Setting} {p p₀ : Proof}

/-! ## The first check -/

/-- branches that go through the closure check one after another -/
theorem exec_checkLoop (hsane : p.tree.Sane e.calculus) {bs : List String} (hbs : ∀ b ∈ bs, b ∈ p.tree.branchNames) :
    ∃ t, exec (forIn bs PUnit.unit fun b _ => do let _ ← dealClosure e b; return ForInStep.yield PUnit.unit) p =
      (.ok PUnit.unit, { p with tree := t }) ∧ t.Sane e.calculus ∧
      strands t = settled e.calculus bs (strands p.tree) := by
  induction bs generalizing p with
  | nil => exact ⟨p.tree, rfl, hsane, by simp [settled]⟩
  | cons b bs ih =>
    obtain ⟨hb, hbs⟩ := List.forall_mem_cons.1 hbs
    obtain ⟨r, u, hrun, hsane', hu⟩ := strands_dealClosure hsane hb
    have hnames : u.branchNames = p.tree.branchNames := by rw [branchNames_eq, hu, names_settled, ← branchNames_eq]
    obtain ⟨t, hrest, ht, hstrands⟩ := ih (p := { p with tree := u }) hsane' fun b hb => hnames ▸ hbs b hb
    refine ⟨t, ?_, ht, by rw [hstrands, hu, settled_cons]⟩
    rw [List.forIn_cons]
    simp only [exec_bind, hrun, exec_pure]
    exact hrest

/-- **The first check** marks every leaf as the closure check has it, and changes nothing else. -/
theorem exec_checkBranches (hsane : p.tree.Sane e.calculus) (hmarks : p.tree.Attested e.calculus) :
    ∃ t, exec (checkBranches e) p = (.ok (), { p with tree := t }) ∧ t.Watched e.calculus := by
  obtain ⟨t, hrun, ht, hstrands⟩ := exec_checkLoop (p := p) hsane fun b hb => hb
  refine ⟨t, ?_, ht, fun s hs => ?_⟩
  · simp only [checkBranches, exec_bind, exec_get, hrun, exec_pure]
  · rw [hstrands] at hs
    obtain ⟨r, hr, rfl⟩ := List.mem_map.1 hs
    have hb : r.leaf.branch ∈ p.tree.branchNames := by
      rw [branchNames_eq]
      exact List.mem_map_of_mem hr
    rw [if_pos hb]
    have hsentences : (r.settle e.calculus).sentences = r.sentences := by
      simp [Strand.sentences, Strand.path, Strand.settle]
    rw [hsentences, Strand.settle, Node.close_history]
    cases hv : e.calculus.verdict r.sentences r.leaf.history with
    | some v => rfl
    | none =>
      -- a mark that was there before would be the verdict
      refine Option.eq_none_iff_forall_ne_some.2 fun v hmark => ?_
      have hverdict : e.calculus.verdict r.sentences r.leaf.history = some v :=
        hmarks r hr r.above r.leaf List.prefix_rfl v hmark
      cases hv.symm.trans hverdict

/-- where every mark is right the first check changes nothing -/
theorem exec_checkBranches_of_watched (h : p.tree.Watched e.calculus) : exec (checkBranches e) p = (.ok (), p) := by
  have hdeal : ∀ b ∈ p.tree.branchNames, ∃ r, exec (dealClosure e b) p = (.ok r, p) := by
    intro b hb
    rw [branchNames_eq] at hb
    obtain ⟨s, hs, rfl⟩ := List.mem_map.1 hb
    obtain ⟨fs, ht, habove⟩ := exists_frames hs
    obtain ⟨r, hrun, -⟩ := exec_dealClosure_plug h.sane ht
    have hsame : s.leaf.close s.leaf.closed = s.leaf := by
      cases hc : s.leaf.closed <;> simp [Node.close, ← hc]
    have hverdict : e.calculus.verdict ((fs.map (·.data) ++ [s.leaf]).map (·.sentence)) s.leaf.history =
        s.leaf.closed := by
      rw [habove]
      exact (h.mark s hs).symm
    rw [hverdict, hsame, ← ht] at hrun
    exact ⟨r, hrun⟩
  simp only [checkBranches, exec_bind, exec_get]
  generalize p.tree.branchNames = bs at hdeal
  induction bs with
  | nil => rfl
  | cons b bs ih =>
    obtain ⟨⟨r, hrun⟩, hrest⟩ := List.forall_mem_cons.1 hdeal
    rw [List.forIn_cons]
    simpa only [exec_bind, hrun, exec_pure] using ih hrest

/-! ## Nothing waits -/

theorem tryRules_of_empty {a : Agenda} (ha : ∀ rule, a.waiting rule = []) (bound : Nat) (tried : List String)
    {rules : List String}
    (hrules : rules ≠ []) : exec (tryRules e bound tried rules a) p = (.ok false, p.takeBack p.used) := by
  induction rules generalizing tried with
  | nil => exact absurd rfl hrules
  | cons rule rest ih =>
    have hsaturate : exec (saturate e bound (tried ++ [rule]) bound a) p = (.ok (false, a), p) := by
      cases bound with
      | zero => rfl
      | succ n => simp [saturate, ha]
    simp only [tryRules, exec_bind, exec_get, hsaturate, Bool.false_eq_true, if_false]
    cases rest with
    | nil => rfl
    | cons next rest =>
      rw [ih _ (by simp)]
      simp only [exec_bind, exec_modify, exec_pure, Bool.false_eq_true, if_false]
      simp only [takeBack, prune_prune (Int.le_refl _)]

/-- **A solver that finds no branch open** gives up, and takes away what no recorded move made. -/
theorem solve_of_closed (hx : e.HasLexer) (hcheck : exec (checkBranches e) p = (.ok (), p₀))
    (hsane : p₀.tree.Sane e.calculus) (hclosed : p₀.tree.isClosed = true) :
    exec (solve e) p = (.ok false, p₀.takeBack p₀.used) := by
  have hnone : openEntries e p₀.tree = [] := by
    have hfilter : (strands p₀.tree).filter (·.leaf.closed.isNone) = [] := by
      rw [List.filter_eq_nil_iff]
      intro s hs
      have hsome := (isClosed_iff p₀.tree).1 hclosed s hs
      simpa [Option.isSome_iff_ne_none] using hsome
    rw [openEntries, hfilter, List.flatMap_nil]
  have hagenda := agenda_eq hx hsane.means
  rw [hnone] at hagenda
  rw [← solveWithin_zero, exec_solveWithin hcheck, hagenda]
  exact tryRules_of_empty (fun rule => Agenda.waiting_empty rule) _ _ (by decide)

/-! ## Something waits -/

/-- what steps of the solver keep of a proof with right marks: as soon as there was a step, no
node is in a layer after its move -/
structure Advanced (e : Setting) (start : ProofTree) (p : Proof) : Prop where
  watched : p.tree.Watched e.calculus
  rising : ∀ s ∈ strands p.tree, ∀ n ∈ s.path, n.layer < p.tree.nextLayer
  recorded : p.tree = start ∨ ∀ s ∈ strands p.tree, ∀ n ∈ s.path, n.layer < layerAfter p.used

/-- the layers on a branch that goes on: the new nodes are in the next one -/
theorem GoesOn.layers {above : List Node} {d n : Node} {name : String} {b : List Sentence} {s : Strand}
    (h : GoesOn e p above d n name b s) : s.path.map (·.layer) = above.map (·.layer) ++
    List.replicate b.length p.tree.nextLayer := by
  rw [h.path, List.map_append, map_closeLine (by simp), List.map_map]
  congr 1
  exact List.eq_replicate_iff.2 ⟨by simp, by simp [newNode, Node.use]⟩

theorem GoesOn.leaf_layer {above : List Node} {d n : Node} {name : String} {b : List Sentence} {s : Strand}
    (h : GoesOn e p above d n name b s) (hb : b ≠ []) : s.leaf.layer = p.tree.nextLayer := by
  have hlast := congrArg List.getLast? h.layers
  rw [Strand.path, List.map_append, List.map_singleton, List.getLast?_append_of_ne_nil _ (by simp),
    List.getLast?_append_of_ne_nil _ (by simpa using hb), List.getLast?_replicate, if_neg (by simpa using hb)] at hlast
  simpa using hlast

theorem upholds_advanced (e : Setting) (start : ProofTree) : Upholds e (Advanced e start) (OutOfNames e) where
  sane hp := hp.watched.sane
  step {p rule x fs d n a m ps bs more left right news token} hp h _ hstep := by
    let p' := grownProof e p rule x fs d n (x.branch :: more) bs token
    have hold : ∀ s ∈ strands p.tree, ∀ y ∈ s.path, y.layer < p.tree.nextLayer + 1 := fun s hs y hy =>
      Int.lt_trans (hp.rising s hs y hy) (Int.lt_succ _)
    have hlayers : ∀ s ∈ strands p'.tree, ∀ y ∈ s.path, y.layer < p.tree.nextLayer + 1 := by
      intro s hs y hy
      simp only [p', hstep.new, List.mem_append] at hs
      rcases hs with (hs | hs) | hs
      · exact hold s (by simp [hstep.old, hs]) y hy
      · obtain ⟨nb, -, hgo⟩ := hstep.goesOn s hs
        have hmem := List.mem_map_of_mem (f := (·.layer)) hy
        rw [hgo.layers, List.mem_append] at hmem
        rcases hmem with hmem | hmem
        · obtain ⟨z, hz, hlayer⟩ := List.mem_map.1 hmem
          have hstrand := hstep.leaf_mem
          rw [← hlayer]
          exact hold _ hstrand z hz
        · rw [(List.mem_replicate.1 hmem).2]
          exact Int.lt_succ _
      · exact hold s (by simp [hstep.old, hs]) y hy
    -- a new leaf is in the layer of the move, so the next layer comes after it
    have hnext : p.tree.nextLayer + 1 ≤ p'.tree.nextLayer := by
      obtain ⟨b, bs, rfl⟩ : ∃ b bs', bs = b :: bs' :=
        List.exists_cons_of_ne_nil (List.ne_nil_of_length_eq_add_one hstep.length.symm)
      obtain ⟨s, hs, hgo⟩ := hstep.exists_goesOn (x.branch, b) (by simp)
      have hlt : s.leaf.layer < p'.tree.nextLayer := layer_lt_nextLayer (by simp [p', hstep.new, hs])
      rw [hgo.leaf_layer (h.ne_nil b (by simp))] at hlt
      omega
    refine ⟨hstep.watched hp.watched, fun s hs y hy => Int.lt_of_lt_of_le (hlayers s hs y hy) hnext,
      .inr fun s hs y hy => ?_⟩
    simpa [grownProof, solverMove, layerAfter] using hlayers s hs y hy
  fail _ h hlen := outOfNames_of_length_lt h hlen

/-- **A solver that finds a branch open** finishes the proof or runs out of names. A proof that it has finished stays as
it is when the solver is called again, and it is not finished once more. -/
theorem solve_of_open (hx : e.HasLexer) (hcheck : exec (checkBranches e) p = (.ok (), p₀))
    (hp : Advanced e p₀.tree p₀) (hopen : p₀.tree.isClosed = false) :
    ∃ o p', exec (solve e) p = (o, p') ∧
      (o = .error noName ∧ OutOfNames e p' ∨
        o = .ok true ∧ p'.tree.isClosed = true ∧ exec (solve e) p' = (.ok false, p')) := by
  obtain ⟨o, p', hrun, hend⟩ :=
    solve_ends_of_open hx (upholds_advanced e p₀.tree) Advanced.watched hcheck hp hopen
  refine ⟨o, p', by rw [← solveWithin_zero]; exact hrun 0 trivial, ?_⟩
  rcases hend with ⟨done, rfl, rfl, hp', hclosed⟩ | ⟨rfl, hout⟩
  · refine .inr ⟨rfl, hclosed, ?_⟩
    have hlayers : ∀ s ∈ strands p'.tree, ∀ n ∈ s.path, n.layer < layerAfter p'.used := by
      rcases hp'.recorded with hsame | hlayers
      · rw [hsame, hopen] at hclosed
        cases hclosed
      · exact hlayers
    rw [solve_of_closed hx (exec_checkBranches_of_watched hp'.watched) hp'.watched.sane hclosed, takeBack,
      prune_eq_self hlayers]
  · exact .inl ⟨rfl, hout⟩

end Proof

namespace Session

variable {s : Session} {c : Calculus} {text : String} {φ root : Sentence} {name : String} {e : Setting} {p p' : Proof}

/-! ## In a session -/

/-- what a call of the solver says, and the proof that it leaves -/
theorem exec_solve {o : Outcome Bool} (he : s.setting = .ok e) (hp : s.proof = some p)
    (h : exec (Proof.solve e) p = (o, p')) : exec solve s = (o.map fun done =>
      if done then ["Udało się zakończyć dowód",
        "Formuła " ++ (if p'.tree.isSuccessful then "" else "nie ") ++ "jest tautologią"]
      else ["Nie udało się zakończyć dowodu"], { s with proof := some p' }) := by
  have hact := exec_withProof (x := Proof.solve) he hp h
  rcases o with f | _ | _
  · simp only [solve, exec_bind, hact]
    rfl
  · simp only [solve, exec_bind, hact, Bool.false_eq_true, if_false]
    rfl
  · simp only [solve, exec_bind, hact, if_true, exec_get, exec_lift, currentProof]
    rfl

theorem strands_startedProof :
    strands (startedProof c φ root name).tree =
    [⟨[], Node.close (c.verdict [root] {}) { sentence := root, branch := name }⟩] := rfl

theorem watched_startedProof {a : Proposition} (hroot : c.Means root a) :
    (startedProof c φ root name).tree.Watched c := by
  have hsane : Sane c (plug [] (.node { sentence := root, branch := name } [])) := .root ⟨a, hroot⟩ name
  refine ⟨hsane.close (c.verdict [root] {}), fun s hs => ?_⟩
  obtain rfl := List.mem_singleton.1 (strands_startedProof ▸ hs)
  simp [Node.close_closed, Strand.sentences, Strand.path]

theorem expresses_wrapped_singleton {n : Nat} {y : Symbol} {a : Proposition}
    (h : Sentence.Expresses (Sentence.wrapped n [y]) a) : ∃ x, a = .var x := by
  -- count the symbols that are no brackets
  have hone : ∀ b : Proposition, 1 ≤ b.measure letterCount := by
    intro b
    induction b with
    | var x => exact Nat.le_refl 1
    | neg b ih => exact Nat.le_trans ih (Nat.le_add_left _ _)
    | join o b d ihb _ => exact Nat.le_trans ihb (Nat.le_add_right _ _)
  obtain ⟨m, u, heq, hu⟩ := h.exists_reads
  have hcount := congrArg (Sentence.measure letterCount) heq
  rw [Sentence.measure_wrapped rfl rfl, Sentence.measure_wrapped rfl rfl, hu.measure rfl rfl] at hcount
  have hle : Sentence.measure letterCount [y] ≤ 1 := by
    simp only [Sentence.measure, letterCount, List.map_singleton, List.sum_singleton]
    split <;> omega
  cases a with
  | var x => exact ⟨x, rfl⟩
  | neg b =>
    have := hone b
    have hnot : letterCount "not" = 1 := rfl
    simp only [Proposition.measure] at hcount
    omega
  | join o b d =>
    have := hone b
    have := hone d
    simp only [Proposition.measure] at hcount
    omega

/-- the proof that is started is closed exactly if its statement is a variable in brackets -/
theorem isClosed_startedProof {a : Proposition} (ha : φ.Expresses a) (hroot : c.Means root (.neg a)) :
    (startedProof c φ root name).tree.isClosed = true ↔ ∃ n y, φ = Sentence.wrapped n [y] := by
  have hclosed : (startedProof c φ root name).tree.isClosed = true ↔ (c.verdict [root] {}).isSome = true := by
    rw [isClosed_iff, strands_startedProof, List.forall_mem_singleton, Node.close_closed _ _ rfl]
  rw [hclosed]
  constructor
  · intro hsome
    by_contra hvar
    have hlit := ha.isLiteral_neg fun n y heq => hvar ⟨n, y, heq⟩
    rw [Proof.verdict_root hroot hlit] at hsome
    cases hsome
  · rintro ⟨n, y, rfl⟩
    have hmeans : ∀ s ∈ [root], ∃ a, c.Means s a := by simpa using ⟨_, hroot⟩
    rcases Proof.verdict_means hmeans {} with ⟨i, j, heq, -⟩ | ⟨heq, -⟩ | ⟨-, u, hu, b, hb, -, hlit⟩
    · rw [heq]
      rfl
    · rw [heq]
      rfl
    · -- the root says the negation of a variable
      obtain rfl := List.mem_singleton.1 hu
      obtain rfl := hb.unique hroot
      obtain ⟨x, rfl⟩ := expresses_wrapped_singleton ha
      cases hlit

/-- **What a call of the solver does.** Let a text be accepted as a statement, and let the solver be called any number
of times on the proof that is started for it, whatever comes of it. One more call finishes the proof exactly if a branch
is open after the closure check of all branches, unless the names for branches run out. If none is open the call says
that the proof was not finished, and takes away what no recorded move made. A proof that a call has finished stays as it
is in every further call, and each of them says that it was not finished. So does the first call already if the
statement is a variable in brackets. -/
theorem solve_finishes_iff (h : s.Accepts c text φ) :
    ∃ e s₁ p₁, exec (newProof text) s = (.ok none, s₁) ∧ s₁.setting = .ok e ∧ s₁.proof = some p₁ ∧
      exec (Proof.checkBranches e) p₁ = (.ok (), p₁) ∧ (p₁.tree.isClosed = true ↔ ∃ n y, φ = Sentence.wrapped n [y]) ∧
      (p₁.tree.isClosed = true → exec solve s₁ = (.ok ["Nie udało się zakończyć dowodu"], s₁)) ∧
      ∀ n, ∃ p p₀ answer p', (fun s => (exec solve s).2)^[n] s₁ = { s₁ with proof := some p } ∧
        exec (Proof.checkBranches e) p = (.ok (), p₀) ∧
        exec solve { s₁ with proof := some p } = (answer, { s₁ with proof := some p' }) ∧
        (p₀.tree.isClosed = true → answer = .ok ["Nie udało się zakończyć dowodu"] ∧ p' = p₀.takeBack p.used) ∧
        (p₀.tree.isClosed = false →
          answer = .error (.outOfRange "no branch name is left") ∧
          branchNames e.accessibility p'.tree.branchNames = [] ∨
          answer = .ok ["Udało się zakończyć dowód",
            "Formuła " ++ (if p'.tree.isSuccessful then "" else "nie ") ++ "jest tautologią"] ∧
            p'.tree.isClosed = true ∧
            exec solve { s₁ with proof := some p' } =
              (.ok ["Nie udało się zakończyć dowodu"], { s₁ with proof := some p' })) := by
  obtain ⟨a, root, name, ha, hroot, hnew⟩ := exec_newProof h
  let e := Accepts.setting s c
  let s₁ : Session := { s with proof := some (startedProof c φ root name) }
  have hx : e.HasLexer := h.hasLexer
  have he (p : Proof) : Session.setting { s₁ with proof := some p } = .ok e := h.setting_eq
  have hwatched : (startedProof c φ root name).tree.Watched e.calculus := watched_startedProof hroot
  have hcheck := Proof.exec_checkBranches_of_watched hwatched
  refine ⟨e, s₁, _, hnew, he _, rfl, hcheck, isClosed_startedProof ha hroot, fun hclosed => ?_, fun n => ?_⟩
  · -- there is nothing but the root
    have hrun := Proof.solve_of_closed hx hcheck hwatched.sane hclosed
    rw [exec_solve (he _) rfl hrun]
    rfl
  · obtain ⟨p, hp, hsound, hmarks⟩ : ∃ p, (fun s => (exec solve s).2)^[n] s₁ = { s₁ with proof := some p } ∧
        p.Sound e.calculus φ root name [] ∧ p.tree.Attested e.calculus := by
      induction n with
      | zero =>
        exact ⟨_, rfl, started_of e hroot (.fresh ⟨_, hroot⟩) (Proof.keeps_dealClosure_sound name),
          started_of e hroot (I := fun p => p.tree.Attested e.calculus) (AllMarks.root root name)
            ((Proof.endures_attested e).dealClosure name)⟩
      | succ n ih =>
        obtain ⟨p, hp, hsound, hmarks⟩ := ih
        rw [Function.iterate_succ_apply', hp, exec_solve (he p) rfl rfl]
        exact ⟨_, rfl, Proof.keeps_solve_sound hx p hsound,
          (Proof.endures_attested e).solve (Proof.retreats_attested _) p hmarks⟩
    obtain ⟨t, hchecked, ht⟩ := Proof.exec_checkBranches hsound.sane hmarks
    cases hclosed : t.isClosed with
    | true =>
      have hrun := Proof.solve_of_closed hx hchecked ht.sane hclosed
      refine ⟨p, _, _, _, hp, hchecked, exec_solve (he p) rfl hrun, fun _ => ⟨rfl, rfl⟩, fun hopen => ?_⟩
      cases hclosed.symm.trans hopen
    | false =>
      have hsound' := Proof.keeps_checkBranches (fun b => Proof.keeps_dealClosure_sound b) p hsound
      rw [hchecked] at hsound'
      obtain ⟨o, p', hrun, hend⟩ := Proof.solve_of_open hx hchecked ⟨ht, hsound'.orderly.rising, .inl rfl⟩ hclosed
      refine ⟨p, _, _, p', hp, hchecked, exec_solve (he p) rfl hrun, fun hopen => ?_, fun _ => ?_⟩
      · cases hclosed.symm.trans hopen
      · rcases hend with ⟨rfl, hout⟩ | ⟨rfl, hclosed', hagain⟩
        · exact .inl ⟨rfl, hout⟩
        · exact .inr ⟨rfl, hclosed', exec_solve (he p') rfl hagain⟩

/-- the first call finishes the proof of `p v ~p`, the second says that it was not finished -/
theorem solve_finishes_iff_excluded_middle :
    signedSession.Accepts .signed "p v ~p" excludedMiddle ∧
      ∃ s₁ s₂, exec (newProof "p v ~p") signedSession = (.ok none, s₁) ∧
        exec solve s₁ = (.ok ["Udało się zakończyć dowód", "Formuła jest tautologią"], s₂) ∧
        exec solve s₂ = (.ok ["Nie udało się zakończyć dowodu"], s₂) := by
  obtain ⟨e, s₁, p₁, hnew, -, -, -, -, -, hcalls⟩ := solve_finishes_iff signedSession_accepts
  obtain ⟨p, p₀, answer, p', hp, -, hcall, hclosed, hopen⟩ := hcalls 0
  rw [Function.iterate_zero_apply] at hp
  rw [← hp] at hcall
  have hanswer : answer = .ok ["Udało się zakończyć dowód", "Formuła jest tautologią"] := by
    have hrun : (exec solve (exec (newProof "p v ~p") signedSession).2).1.toOption =
        some ["Udało się zakończyć dowód", "Formuła jest tautologią"] := by decide +kernel
    rw [hnew, hcall] at hrun
    exact eq_ok_of_toOption hrun
  refine ⟨signedSession_accepts, s₁, { s₁ with proof := some p' }, hnew, by rw [hcall, hanswer], ?_⟩
  cases hp₀ : p₀.tree.isClosed with
  | true =>
    rw [(hclosed hp₀).1] at hanswer
    exact absurd (Except.ok.inj hanswer) (by decide)
  | false =>
    rcases hopen hp₀ with ⟨herror, -⟩ | ⟨-, -, hagain⟩
    · rw [herror] at hanswer
      cases hanswer
    · exact hagain

end Session

end TableauTutor
