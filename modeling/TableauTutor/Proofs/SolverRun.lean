import TableauTutor.Proofs.SolverInvariant

/-!
The loops of the solver. A run from a tree and an agenda in order ends, whatever bound above the potential it is given,
in the same way: with a result, or because there is no name for a branch. What the steps keep is kept by the loops. If
the tree is tended, the result is that every branch is closed.

- `exhaust_ends`, `saturate_ends`, `tryRules_ends`: the loops, from the inside out.
- `solve_ends`: the solver.
-/

namespace TableauTutor

namespace Proof

open ProofTree Calculus

variable {e : Setting} {p : Proof} {root : Sentence} {kept failed : Proof → Prop}

/-! ## Runs that do not depend on the bound -/

/-- with every bound that is enough the computation ends in the same way: with a result as
required, or for want of a name -/
def Ends {ι α : Type} (failed : Proof → Prop) (enough : ι → Prop) (x : ι → Work α) (p : Proof) (Q : α → Proof → Prop) :
    Prop :=
  ∃ o p', (∀ i, enough i → exec (x i) p = (o, p')) ∧ ((∃ a, o = .ok a ∧ Q a p') ∨ o = .error noName ∧ failed p')

namespace Ends

variable {ι κ α β : Type} {enough : ι → Prop} {x : ι → Work α} {Q R : α → Proof → Prop}

theorem of_ok {a : α} {p' : Proof} (h : ∀ i, enough i → exec (x i) p = (.ok a, p')) (hQ : Q a p') :
    Ends failed enough x p Q :=
  ⟨.ok a, p', h, .inl ⟨a, rfl, hQ⟩⟩

theorem of_error {p' : Proof} (h : ∀ i, enough i → exec (x i) p = (.error noName, p')) (hp' : failed p') :
    Ends failed enough x p Q :=
  ⟨.error noName, p', h, .inr ⟨rfl, hp'⟩⟩

theorem mono (h : Ends failed enough x p Q) (hQ : ∀ a p', Q a p' → R a p') : Ends failed enough x p R := by
  obtain ⟨o, p', hrun, hres⟩ := h
  exact ⟨o, p', hrun, hres.imp_left fun ⟨a, ho, ha⟩ => ⟨a, ho, hQ a p' ha⟩⟩

/-- another computation that runs as this one does with a bound that is enough -/
theorem of_exec_eq {enough' : κ → Prop} {y : κ → Work α} {p₀ : Proof} (h : Ends failed enough x p Q)
    (heq : ∀ k, enough' k → ∃ i, enough i ∧ exec (y k) p₀ = exec (x i) p) : Ends failed enough' y p₀ Q := by
  obtain ⟨o, p', hrun, hres⟩ := h
  refine ⟨o, p', fun k hk => ?_, hres⟩
  obtain ⟨i, hi, hki⟩ := heq k hk
  rw [hki, hrun i hi]

theorem bind {f : ι → α → Work β} {Q' : β → Proof → Prop} (h : Ends failed enough x p Q)
    (hf : ∀ a p', Q a p' → Ends failed enough (fun i => f i a) p' Q') :
    Ends failed enough (fun i => x i >>= f i) p Q' := by
  obtain ⟨o, p', hrun, ⟨a, rfl, ha⟩ | ⟨rfl, hp'⟩⟩ := h
  · exact (hf a p' ha).of_exec_eq fun i hi => ⟨i, hi, exec_bind_ok (hrun i hi)⟩
  · exact of_error (fun i hi => exec_bind_error (hrun i hi)) hp'

theorem get_bind {f : ι → Proof → Work α} (h : Ends failed enough (fun i => f i p) p Q) :
    Ends failed enough (fun i => get >>= f i) p Q :=
  h.of_exec_eq fun i hi => ⟨i, hi, exec_bind_ok (exec_get p)⟩

end Ends

/-! ## Using up what waits for a rule -/

section Exhaust

variable {rule : String} {x : Pending} {closed : List String} {ag : Agenda}

theorem Scheduled.skip (hp : p.tree.Sane e.calculus) (hs : Scheduled e p closed ag)
    (hlast : (ag.waiting rule).getLast? = some x) (hrule : rule ∈ ruleNames) (hclosed : x.branch ∈ closed) :
    Scheduled e p closed (put rule (ag.waiting rule).dropLast ag) := by
  have hkeep {r : String} {y : Pending} (hy : y ∈ Agenda.waiting (put rule (ag.waiting rule).dropLast ag) r) :
      y ∈ ag.waiting r := (mem_waiting_dropLast hlast).2 (.inl hy)
  refine ⟨hs.keyed.put hrule _, fun r y hy => hs.valid r y (hkeep hy), fun r y hy => hs.isOpen r y (hkeep hy),
    hs.isClosed, ?_⟩
  intro s hmem hnone n hn hused a r hmeans hr
  obtain ⟨y, hy, hyb, hplain⟩ := hs.complete s hmem hnone n hn hused a r hmeans hr
  rcases (mem_waiting_dropLast hlast).1 hy with hy | ⟨-, rfl⟩
  · exact ⟨y, hy, hyb, hplain⟩
  · -- the branch of the entry is closed, that of `s` is not
    obtain ⟨u, hu, hub, hne⟩ := hs.isClosed _ hclosed
    obtain rfl := strand_unique hp.names hu hmem (hub.trans hyb)
    exact absurd hnone hne

theorem Scheduled.drop (hp : p.tree.Sane e.calculus) (hs : Scheduled e p closed ag) :
    Scheduled e p [] (ag.dropBranches closed) := by
  have hmem {r : String} {y : Pending} : y ∈ (ag.dropBranches closed).waiting r ↔ y ∈ ag.waiting r ∧
      y.branch ∉ closed := by
    simp [Agenda.waiting_dropBranches]
  refine ⟨hs.keyed.dropBranches closed, fun r y hy => hs.valid r y (hmem.1 hy).1,
    fun r y hy _ => hs.isOpen r y (hmem.1 hy).1 (hmem.1 hy).2, by simp, ?_⟩
  intro s hsm hnone n hn hused a r hmeans hr
  obtain ⟨y, hy, hyb, hplain⟩ := hs.complete s hsm hnone n hn hused a r hmeans hr
  refine ⟨y, hmem.2 ⟨hy, fun hclosed => ?_⟩, hyb, hplain⟩
  obtain ⟨u, hu, hub, hne⟩ := hs.isClosed _ hclosed
  obtain rfl := strand_unique hp.names hu hsm (hub.trans hyb)
  exact hne hnone

theorem potential_dropBranches (closed : List String) (ag : Agenda) :
    Agenda.potential (ag.dropBranches closed).pending ≤ Agenda.potential ag.pending := by
  rw [Agenda.pending_dropBranches]
  exact Agenda.potential_sublist List.filter_sublist

/-- what waits for a rule says something that the rule takes apart -/
theorem Valid.effort_pos (hx : e.HasLexer) (h : Valid e p rule x) :
    0 < x.sentence.effort ∧ rule ∈ ruleNames := by
  obtain ⟨-, -, -, n, a, -, hplain, hmeans, hrule⟩ := h
  obtain ⟨plain, hplain', hread, -⟩ := toPlain_reads hx hmeans
  obtain rfl : plain = x.sentence := Except.ok.inj (hplain'.symm.trans hplain)
  exact ⟨by rw [hread.effort]; exact TableauTutor.effort_pos hrule, rule?_mem hrule⟩

/-- what a run leaves: tree and agenda in order, the potential not greater, and smaller if there was something to do -/
structure Progress (e : Setting) (kept : Proof → Prop) (ag : Agenda) (something : Prop) (ag' : Agenda) (p : Proof) :
    Prop where
  kept : kept p
  scheduled : Scheduled e p [] ag'
  le : Agenda.potential ag'.pending ≤ Agenda.potential ag.pending
  lt : something → Agenda.potential ag'.pending < Agenda.potential ag.pending

/-- nothing waits: the entries of closed branches are dropped, whatever the bound -/
theorem exhaust_done (hup : Upholds e kept failed) (hp : kept p) (hs : Scheduled e p closed ag)
    (hnone : (ag.waiting rule).getLast? = none) {enough : Nat → Prop} :
    Ends failed enough (fun fuel => exhaust e rule fuel closed ag) p (Progress e kept ag (ag.waiting rule ≠ [])) := by
  refine .of_ok (fun fuel _ => ?_) ⟨hp, hs.drop (hup.sane hp), potential_dropBranches closed ag,
    fun hne => absurd (List.getLast?_eq_none_iff.1 hnone) hne⟩
  cases fuel with
  | zero => rfl
  | succ fuel => simp only [exhaust, hnone, exec_pure]

theorem potential_dropLast (hx : e.HasLexer) (hs : Scheduled e p closed ag)
    (hlast : (ag.waiting rule).getLast? = some x) :
    Agenda.potential (Agenda.pending (put rule (ag.waiting rule).dropLast ag)) < Agenda.potential ag.pending := by
  obtain ⟨hpos, hrule⟩ := (hs.valid rule x (List.mem_of_getLast? hlast)).effort_pos hx
  rw [Agenda.potential_perm (pending_dropLast hrule hlast)]
  exact Agenda.potential_skip hpos _

/-- **A rule is used up** within the potential of the agenda. -/
theorem exhaust_ends (hx : e.HasLexer) {bound : Nat} (hup : Upholds e kept failed) (hp : kept p)
    (hs : Scheduled e p closed ag) (hbound : Agenda.potential ag.pending ≤ bound) :
    Ends failed (bound ≤ ·) (fun fuel => exhaust e rule fuel closed ag) p
      (Progress e kept ag (ag.waiting rule ≠ [])) := by
  induction bound generalizing p closed ag with
  | zero =>
    cases hlast : (ag.waiting rule).getLast? with
    | none => exact exhaust_done hup hp hs hlast
    | some x => exact absurd (potential_dropLast hx hs hlast) (by omega)
  | succ bound ih =>
    cases hlast : (ag.waiting rule).getLast? with
    | none => exact exhaust_done hup hp hs hlast
    | some x =>
      -- the rest of the run starts from a smaller potential
      have hrest {closed' : List String} {ag' : Agenda} {p' : Proof} (hp' : kept p')
          (hs' : Scheduled e p' closed' ag') (hlt : Agenda.potential ag'.pending < Agenda.potential ag.pending) :
          Ends failed (bound ≤ ·) (fun fuel => exhaust e rule fuel closed' ag') p'
            (Progress e kept ag (ag.waiting rule ≠ [])) :=
        (ih hp' hs' (by omega)).mono fun ag'' p'' h =>
        ⟨h.kept, h.scheduled, h.le.trans hlt.le, fun _ => h.le.trans_lt hlt⟩
      have hsucc {fuel : Nat} (hfuel : bound + 1 ≤ fuel) : ∃ k, bound ≤ k ∧ fuel = k + 1 :=
        ⟨fuel - 1, by omega, by omega⟩
      have hrule := ((hs.valid rule x (List.mem_of_getLast? hlast)).effort_pos hx).2
      by_cases hclosed : x.branch ∈ closed
      · refine (hrest hp (hs.skip (hup.sane hp) hlast hrule hclosed) (potential_dropLast hx hs hlast)).of_exec_eq
          fun fuel hfuel => ?_
        obtain ⟨k, hk, rfl⟩ := hsucc hfuel
        refine ⟨k, hk, ?_⟩
        have : closed.contains x.branch = true := by simpa using hclosed
        simp only [exhaust, hlast, this, if_true]
      · have hfalse : closed.contains x.branch = false := by simpa using hclosed
        rcases advance_run hup hx hp hs hlast hclosed with ⟨p', hrun, hout⟩ | ⟨closed', ag', p', hrun, hp', hs', hlt⟩
        · refine .of_error (fun fuel hfuel => ?_) hout
          obtain ⟨k, -, rfl⟩ := hsucc hfuel
          simp only [exhaust, hlast, hfalse, Bool.false_eq_true, if_false]
          exact exec_bind_error hrun
        · refine (hrest hp' hs' hlt).of_exec_eq fun fuel hfuel => ?_
          obtain ⟨k, hk, rfl⟩ := hsucc hfuel
          refine ⟨k, hk, ?_⟩
          simp only [exhaust, hlast, hfalse, Bool.false_eq_true, if_false]
          exact exec_bind_ok hrun

end Exhaust

/-! ## Using rules in turn -/

section Saturate

variable {ag : Agenda} {bound : Nat}

/-- a round: each rule that something waits for is used up once -/
theorem round_ends (hx : e.HasLexer) (hup : Upholds e kept failed) (hp : kept p)
    (hs : Scheduled e p [] ag) (hbound : Agenda.potential ag.pending ≤ bound) (rules : List String) :
    Ends failed (bound ≤ ·) (fun fuel => rules.foldlM (fun ag r => propagate e fuel r ag) ag) p
      (Progress e kept ag (∃ r ∈ rules, ag.waiting r ≠ [])) := by
  induction rules generalizing p ag with
  | nil => exact .of_ok (fun fuel _ => rfl) ⟨hp, hs, le_rfl, by simp⟩
  | cons rule rules ih =>
    simp only [List.foldlM_cons]
    by_cases hempty : ag.waiting rule = []
    · -- nothing happens to the agenda
      refine ((ih hp hs hbound).of_exec_eq fun fuel hfuel => ⟨fuel, hfuel, ?_⟩).mono
        fun ag' p' h => ⟨h.kept, h.scheduled, h.le, fun hsome => h.lt (by simpa [hempty] using hsome)⟩
      refine exec_bind_ok ?_
      simp [propagate, hempty]
    · have hfirst : Ends failed (bound ≤ ·) (fun fuel => propagate e fuel rule ag) p
          (Progress e kept ag (ag.waiting rule ≠ [])) :=
        (exhaust_ends hx hup hp hs hbound).of_exec_eq fun fuel hfuel =>
          ⟨fuel, hfuel, by rw [propagate, if_neg (by simpa using hempty)]⟩
      refine hfirst.bind fun ag' p' h => ?_
      refine (ih h.kept h.scheduled (h.le.trans hbound)).mono fun ag'' p'' h' => ?_
      exact ⟨h'.kept, h'.scheduled, h'.le.trans h.le, fun _ => h'.le.trans_lt (h.lt hempty)⟩

/-- how a turn of the given rules ends: the proof is closed, or nothing waits for these rules; a proof that was open at
the start is not closed then -/
def Turn (e : Setting) (kept : Proof → Prop) (start : Proof) (bound : Nat) (rules : List String)
    (r : Bool × Agenda) (p : Proof) : Prop :=
  kept p ∧ (start.tree.isClosed = false → p.tree.isClosed = r.1) ∧
    (r.1 = false → Scheduled e p [] r.2 ∧ Agenda.potential r.2.pending ≤ bound ∧ ∀ rule ∈ rules, r.2.waiting rule = [])

/-- nothing waits: the turn is over, whatever the bounds -/
theorem saturate_done (hp : kept p) (hs : Scheduled e p [] ag) (hbound : Agenda.potential ag.pending ≤ bound)
    {rules : List String} (hempty : ∀ r ∈ rules, ag.waiting r = []) {enough : Nat × Nat → Prop} :
    Ends failed enough (fun k => saturate e k.1 rules k.2 ag) p (Turn e kept p bound rules) := by
  have hall : (rules.all fun r => (ag.waiting r).isEmpty) = true := by simpa using hempty
  refine .of_ok (a := (false, ag)) (fun k _ => ?_) ⟨hp, fun hopen => hopen, fun _ => ⟨hs, hbound, hempty⟩⟩
  cases k.2 with
  | zero => rfl
  | succ fuel => rw [saturate, if_pos hall, exec_pure]

/-- **Rules are used in turn** until nothing waits for one of them, or the proof is closed. -/
theorem saturate_ends (hx : e.HasLexer) (hup : Upholds e kept failed) (hp : kept p)
    (hs : Scheduled e p [] ag) (hbound : Agenda.potential ag.pending ≤ bound) (rules : List String) :
    Ends failed (fun k : Nat × Nat => bound ≤ k.1 ∧ bound ≤ k.2) (fun k => saturate e k.1 rules k.2 ag) p
      (Turn e kept p bound rules) := by
  induction bound generalizing p ag with
  | zero =>
    refine saturate_done hp hs hbound fun r _ => ?_
    by_contra hne
    exact absurd (potential_dropLast hx hs (List.getLast?_eq_some_getLast hne)) (by omega)
  | succ bound ih =>
    by_cases hempty : ∀ r ∈ rules, ag.waiting r = []
    · exact saturate_done hp hs hbound hempty
    have hsome : ∃ r ∈ rules, ag.waiting r ≠ [] := by simpa using hempty
    have hall : ¬ (rules.all fun r => (ag.waiting r).isEmpty) = true := by simpa using hempty
    -- one round, and the rest from a smaller potential
    let rest (k : Nat × Nat) (ag' : Agenda) : Work (Bool × Agenda) := do
      if (← get).tree.isClosed then return (true, ag') else saturate e k.1 rules (k.2 - 1) ag'
    have hround : Ends failed (fun k : Nat × Nat => bound + 1 ≤ k.1 ∧ bound + 1 ≤ k.2)
        (fun k => rules.foldlM (fun ag r => propagate e k.1 r ag) ag >>= rest k) p
          (Turn e kept p (bound + 1) rules) := by
      refine ((round_ends hx hup hp hs hbound rules).of_exec_eq fun k hk => ⟨k.1, hk.1, rfl⟩).bind fun ag' p' h => ?_
      cases hclosed : p'.tree.isClosed with
      | true =>
        refine .of_ok (a := (true, ag')) (fun k _ => ?_) ⟨h.kept, fun _ => hclosed, by simp⟩
        simp only [rest, exec_bind, exec_get, hclosed, if_true, exec_pure]
      | false =>
        have hlt := h.lt hsome
        refine ((ih h.kept h.scheduled (by omega)).of_exec_eq fun k hk => ?_).mono fun r p'' hr => ?_
        · refine ⟨(k.1, k.2 - 1), by omega, ?_⟩
          simp only [rest, exec_bind, exec_get, hclosed, Bool.false_eq_true, if_false]
        · exact ⟨hr.1, fun _ => hr.2.1 hclosed, fun hfalse =>
            ⟨(hr.2.2 hfalse).1, (hr.2.2 hfalse).2.1.trans (Nat.le_succ _), (hr.2.2 hfalse).2.2⟩⟩
    refine hround.of_exec_eq fun k hk => ⟨k, hk, ?_⟩
    obtain ⟨j, hj⟩ : ∃ j, k.2 = j + 1 := ⟨k.2 - 1, by omega⟩
    rw [hj, saturate, if_neg hall]
    simp only [rest, hj, Nat.add_sub_cancel]

end Saturate

/-! ## The solver -/

section Solve

variable {ag : Agenda} {bound : Nat}

/-- while a branch is open, something waits -/
theorem Scheduled.exists_waiting (hp : p.tree.Watched e.calculus) (hs : Scheduled e p [] ag)
    (hopen : p.tree.isClosed = false) : ∃ rule ∈ ruleNames, ag.waiting rule ≠ [] := by
  obtain ⟨s, hs', hnone⟩ : ∃ s ∈ strands p.tree, s.leaf.closed = none := by
    by_contra hall
    simp only [not_exists, not_and] at hall
    have := (isClosed_iff p.tree).2 fun s hs => Option.isSome_iff_ne_none.2 (hall s hs)
    simp [hopen] at this
  have hverdict := hp.mark s hs'
  rw [hnone] at hverdict
  -- the closure check leaves a branch open only if something on it can be taken apart
  rcases verdict_means (hp.sane.means_sentences hs') s.leaf.history with
    ⟨i, j, heq, -⟩ | ⟨heq, -⟩ | ⟨-, t, ht, a, ha, hused, hlit⟩
  · simp [heq] at hverdict
  · simp [heq] at hverdict
  · obtain ⟨n, hn, rfl⟩ := List.mem_map.1 ht
    cases hrule : a.rule? with
    | none => simp [(rule?_eq_none a).1 hrule] at hlit
    | some rule =>
      obtain ⟨x, hx, -⟩ := hs.complete s hs' hnone n hn hused a rule ha hrule
      exact ⟨rule, rule?_mem hrule, List.ne_nil_of_mem hx⟩

/-- the solver has closed the proof -/
def Finished (e : Setting) (root : Sentence) (done : Bool) (p : Proof) : Prop :=
  done = true ∧ p.tree.Tended e.calculus root ∧ p.tree.isClosed = true

/-- **All rules together close the proof**: when nothing waits for any of them, no branch is open. -/
theorem tryRules_ends (hx : e.HasLexer) (hup : Upholds e kept failed)
    (hwatch : ∀ {p}, kept p → p.tree.Watched e.calculus) (hp : kept p) (hs : Scheduled e p [] ag)
    (hbound : Agenda.potential ag.pending ≤ bound) (hopen : p.tree.isClosed = false)
    {tried rest : List String} (hall : tried ++ rest = ruleNames) (hrest : rest ≠ []) :
    Ends failed (bound ≤ ·) (fun fuel => tryRules e fuel tried rest ag) p
      fun done p => done = true ∧ kept p ∧ p.tree.isClosed = true := by
  induction rest generalizing p ag tried with
  | nil => exact absurd rfl hrest
  | cons rule rest ih =>
    have hturn : Ends failed (bound ≤ ·) (fun fuel => saturate e fuel (tried ++ [rule]) fuel ag) p
        (Turn e kept p bound (tried ++ [rule])) :=
      (saturate_ends hx hup hp hs hbound _).of_exec_eq fun fuel hfuel => ⟨(fuel, fuel), ⟨hfuel, hfuel⟩, rfl⟩
    simp only [tryRules]
    refine Ends.get_bind (hturn.bind fun r p' hr => ?_)
    obtain ⟨done, ag'⟩ := r
    obtain ⟨hp', hclosed, hopen'⟩ := hr
    replace hclosed := hclosed hopen
    cases done with
    | true => exact .of_ok (fun _ _ => rfl) ⟨rfl, hp', hclosed⟩
    | false =>
      obtain ⟨hs', hbound', hempty⟩ := hopen' rfl
      have hmore : rest ≠ [] := by
        rintro rfl
        obtain ⟨r, hr, hne⟩ := hs'.exists_waiting (hwatch hp') hclosed
        exact hne (hempty r (hall ▸ hr))
      have hall' : (tried ++ [rule]) ++ rest = ruleNames := by simpa using hall
      have hrec := ih hp' hs' hbound' hclosed hall' hmore
      simp only [Bool.false_eq_true, if_false]
      refine hrec.bind fun done p'' hdone => ?_
      obtain rfl := hdone.1
      exact .of_ok (fun _ _ => rfl) hdone

/-- **The first agenda** fits the proof. -/
theorem scheduled_agenda (hx : e.HasLexer) (hp : p.tree.Sane e.calculus) :
    Scheduled e p [] (Agenda.empty.enter (openEntries e p.tree)) := by
  have hmem {rule : String} {x : Pending} : x ∈ (Agenda.empty.enter (openEntries e p.tree)).waiting rule ↔
      ∃ s ∈ strands p.tree, s.leaf.closed = none ∧ ∃ i n, s.path[i]? = some n ∧
        s.leaf.history.contains n.sentence = false ∧ entryFor e n.sentence s.leaf.branch i = some (rule, x) := by
    simp only [Agenda.waiting_enter, Agenda.waiting_empty, openEntries, strandEntries, List.nil_append, List.mem_map,
      List.mem_filter, List.mem_flatMap, Prod.exists, List.mem_zipIdx_iff_getElem?, Option.isNone_iff_eq_none,
      decide_eq_true_eq]
    constructor
    · rintro ⟨r, y, ⟨⟨s, ⟨hs, hnone⟩, n, i, hn, hy⟩, rfl⟩, rfl⟩
      split at hy
      · simp at hy
      · rename_i hused
        exact ⟨s, hs, hnone, i, n, hn, by simpa using hused, Option.mem_toList.1 hy⟩
    · rintro ⟨s, hs, hnone, i, n, hn, hused, hentry⟩
      refine ⟨rule, x, ⟨⟨s, ⟨hs, hnone⟩, n, i, hn, ?_⟩, rfl⟩, rfl⟩
      simp [hused, hentry]
  refine ⟨Agenda.keyed_empty.enter (openEntries_mem hx hp.means), ?_, ?_, by simp, ?_⟩
  · intro rule x h
    obtain ⟨s, hs, -, i, n, hn, -, hentry⟩ := hmem.1 h
    exact (valid_of_entry hx hp hs hn hentry).1
  · intro rule x h _ u hu hub
    obtain ⟨s, hs, hnone, i, n, hn, -, hentry⟩ := hmem.1 h
    obtain rfl := strand_unique hp.names hu hs (hub.trans (entryFor_branch hentry))
    exact hnone
  · intro s hs hnone n hn hused a rule hmeans hrule
    obtain ⟨i, hi⟩ := List.getElem?_of_mem hn
    obtain ⟨plain, hplain, -, -, heq⟩ := entryFor_eq hx hmeans s.leaf.branch i
    rw [hrule, Option.map_some] at heq
    exact ⟨_, hmem.2 ⟨s, hs, hnone, i, n, hi, hused, heq⟩, rfl, hplain⟩

/-- the solver with more time than it takes for itself -/
def solveWithin (e : Setting) (extra : Nat) : Work Bool := do
  checkBranches e
  let a ← Outcome.lift ((← get).agenda e)
  tryRules e (a.bound + extra) [] ruleNames a

theorem solveWithin_zero (e : Setting) : solveWithin e 0 = solve e := rfl

/-- a proof of which only the root is there, and nothing can be said about it yet -/
structure Fresh (e : Setting) (root : Sentence) (p : Proof) : Prop where
  means : ∃ a, e.calculus.Means root a ∧ a.isLiteral = false
  tree : ∃ name, p.tree = .root root name

theorem verdict_root {c : Calculus} {a : Proposition} (ha : c.Means root a) (hlit : a.isLiteral = false) :
    c.verdict [root] {} = none := by
  have hmeans : ∀ s ∈ [root], ∃ a, c.Means s a := by simpa using ⟨a, ha⟩
  rcases verdict_means hmeans {} with ⟨-, -, -, h⟩ | ⟨-, -, h⟩ | ⟨heq, -⟩
  · obtain ⟨s, hs, t, ht, b, hb, hneg⟩ := h
    obtain rfl := List.mem_singleton.1 hs
    obtain rfl := List.mem_singleton.1 ht
    exact absurd (congrArg sizeOf (hb.unique hneg)) (by simp)
  · rcases h root (by simp) a ha with h | h
    · simp [History.contains] at h
    · simp [hlit] at h
  · exact heq

theorem Fresh.tended (h : Fresh e root p) : p.tree.Tended e.calculus root := by
  obtain ⟨⟨a, ha, hlit⟩, name, ht⟩ := h
  have hstrands : strands p.tree = [⟨[], { sentence := root, branch := name }⟩] := by rw [ht]; rfl
  refine ⟨ht ▸ .root ⟨a, ha⟩ name, ?_, ?_⟩
  · rw [hstrands, List.forall_mem_singleton]
    exact ⟨List.mem_singleton.2 rfl, by simp [History.contains], (verdict_root ha hlit).symm⟩
  · intro v hv
    simpa [hstrands, Strand.sentences, Strand.path] using hv

/-- a fresh proof stays as it is when its branch is checked -/
theorem Fresh.dealClosure (h : Fresh e root p) :
    ∃ name, p.tree.branchNames = [name] ∧ exec (dealClosure e name) p = (.ok none, p) := by
  obtain ⟨⟨a, ha, hlit⟩, name, ht⟩ := id h
  have hplug : p.tree = plug [] (node { sentence := root, branch := name } []) := ht
  obtain ⟨r, hrun, hr⟩ := exec_dealClosure_plug h.tended.sane hplug
  have hnone : e.calculus.verdict (([] ++ [({ sentence := root, branch := name } : Node)]).map Node.sentence)
      {} = none :=
    verdict_root ha hlit
  simp only [List.map_nil] at hrun hr
  rw [hnone] at hrun hr
  obtain rfl : r = none := by simpa using hr
  refine ⟨name, by rw [branchNames_eq, ht]; rfl, hrun.trans ?_⟩
  simp [Node.close, ← hplug]

theorem exec_solveWithin {p₀ : Proof} (hcheck : exec (checkBranches e) p = (.ok (), p₀)) (extra : Nat) :
    exec (solveWithin e extra) p =
      exec (do let a ← Outcome.lift (p₀.agenda e); tryRules e (a.bound + extra) [] ruleNames a) p₀ := by
  rw [solveWithin, exec_bind_ok hcheck]
  rfl

/-- **The solver finishes every proof that is open** after the first check, unless it runs out of names, however much
more time it has. -/
theorem solve_ends_of_open (hx : e.HasLexer) (hup : Upholds e kept failed)
    (hwatch : ∀ {p}, kept p → p.tree.Watched e.calculus) {p₀ : Proof} (hcheck : exec (checkBranches e) p = (.ok (), p₀))
    (hp : kept p₀) (hopen : p₀.tree.isClosed = false) :
    Ends failed (fun _ : Nat => True) (solveWithin e) p fun done p => done = true ∧ kept p ∧
    p.tree.isClosed = true := by
  have hsane := hup.sane hp
  have hs := scheduled_agenda hx hsane
  have hagenda := agenda_eq hx hsane.means
  have hread : ∀ x ∈ (Agenda.empty.enter (openEntries e p₀.tree)).pending, ∃ a, x.sentence.Reads a := by
    intro x hxm
    obtain ⟨rule, -, hxm⟩ := Agenda.mem_pending.1 hxm
    obtain ⟨-, -, -, n, a, -, hplain, hmeans, -⟩ := hs.valid rule x hxm
    obtain ⟨plain, hplain', hread, -⟩ := toPlain_reads hx hmeans
    exact ⟨a, Except.ok.inj (hplain'.symm.trans hplain) ▸ hread⟩
  have hall : [] ++ ruleNames = ruleNames := List.nil_append _
  refine (tryRules_ends hx hup hwatch hp hs (Agenda.potential_lt_bound hs.keyed hread).le hopen hall
    (by decide)).of_exec_eq fun extra _ => ⟨_, Nat.le_add_right _ extra, ?_⟩
  rw [exec_solveWithin hcheck, hagenda]
  rfl

/-- **The solver finishes every fresh proof** unless it runs out of names, however much more time it has. -/
theorem solve_ends (hx : e.HasLexer) (h : Fresh e root p) :
    Ends (OutOfNames e) (fun _ : Nat => True) (solveWithin e) p (Finished e root) := by
  obtain ⟨name, hnames, hdeal⟩ := h.dealClosure
  have hcheck : exec (checkBranches e) p = (.ok (), p) := by
    simp only [checkBranches, exec_bind, exec_get, hnames, List.forIn_cons, List.forIn_nil, hdeal, exec_pure]
  have hopen : p.tree.isClosed = false := by
    obtain ⟨-, name, ht⟩ := id h
    rw [ht]
    rfl
  exact solve_ends_of_open hx (upholds_tended e root) Tended.watched hcheck h.tended hopen

end Solve

end Proof

end TableauTutor
