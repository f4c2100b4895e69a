import TableauTutor.Proofs.Upkeep

/-!
Saved proofs. A file holds the statement of a proof, its moves, the marks on its leaves, and the
configuration. To load it is to plug the plugins of the configuration, to start a proof of the statement, and
to make the moves and the marks once more.

- `exec_loadProof`: what loading a saved proof does.
- `smooth_loadProof`: the session stays regular.
-/

namespace TableauTutor

open Calculus

namespace Session

variable {speller : Speller} {steady : Prop} {s s₀ t : Session} {p : Proof} {e : Setting} {name : String}

/-! ## What a file says -/

theorem useOfDatum_savedUse (u : UsedRule) : useOfDatum (savedUse u) = .ok u := by
  obtain ⟨layer, branch, rule, context, decisions, auto⟩ := u
  cases auto <;> rfl

theorem mapM_savedUse (us : List UsedRule) : (us.map savedUse).mapM useOfDatum = .ok us := by
  induction us with
  | nil => rfl
  | cons u us ih =>
    rw [List.map_cons, List.mapM_cons, useOfDatum_savedUse, ih]
    rfl

/-- the marks on the leaves of a proof, as they are written -/
def savedMarks (p : Proof) : List (String × Datum) :=
  tableOf (p.tree.leaves.filterMap fun q => q.data.closed.map fun c => (q.data.branch, c.toDatum))

/-- a proof started with the statement of a proof, with its moves, and with its marks as they are written -/
def remake (p : Proof) : Act String := do
  let e ← Outcome.lift (← get).setting
  let q ← Outcome.lift (Proof.start e p.statement)
  modify fun s => { s with proof := some q }
  p.used.forM fun u => withProof fun e => Proof.perform e u
  (savedMarks p).forM fun x => do
    let c ← Outcome.lift (closingOfDatum x.2)
    withProof fun _ => closeBranch x.1 c
  return "Proof loaded successfully"

/-- what is done with a file once it is read -/
def restore (config : Config) (p : Proof) : Act String := do
  config.plugins.forM fun x => plugSwitch x.1 x.2
  changeAccessibility config.accessibility
  remake p

/-- **A saved proof is loaded.** -/
theorem exec_loadProof (hp : s.proof = none) (hfile : s.files.isFile (savePath name) = true)
    (hread : s.files.read (savePath name) = .ok (s₀.savedProof p)) :
    exec (loadProof name) s = exec (restore s₀.config p) s := by
  have hsetup : field (s₀.savedProof p) "setup" = .ok s₀.config.toDatum := rfl
  have hsentence : field (s₀.savedProof p) "sentence" = .ok (.list (p.statement.map .text)) := rfl
  have hused : field (s₀.savedProof p) "used rules" = .ok (.list (p.used.map savedUse)) := rfl
  have hclosed : field (s₀.savedProof p) "closed" = .ok (.record (savedMarks p)) := rfl
  have hstatement : (Datum.list (p.statement.map .text)).items.map Datum.shown = p.statement := by
    rw [Datum.items, List.map_map]
    exact List.map_id' _
  have hmoves : (Datum.list (p.used.map savedUse)).items.mapM useOfDatum = .ok p.used := mapM_savedUse p.used
  have htext : (s₀.savedProof p).isText = false := rfl
  unfold loadProof restore remake
  simp only [exec_bind, exec_get, hp, Option.isSome_none, Bool.false_eq_true, if_false, hfile, Bool.not_true,
    exec_lift, hread,
    htext, hsetup, Config.ofDatum_toDatum, hsentence, hstatement, hused, hmoves, hclosed, Datum.fields]

/-! ## Sessions stay regular -/

theorem template_closingOfDatum {d : Datum} {v : Closing} (h : closingOfDatum d = .ok v) : v.template = none := by
  obtain ⟨success, -, h⟩ := of_bind_eq_ok h
  obtain ⟨text, -, h⟩ := of_bind_eq_ok h
  rw [← Except.ok.inj h]

/-- moves and marks made on the proof of a session -/
theorem smooth_replay (us : List UsedRule) (marks : List (String × Datum)) :
    KeepsSmooth steady (Regular speller steady) (do
      us.forM fun u => withProof fun e => Proof.perform e u
      marks.forM fun x => do
        let c ← Outcome.lift (closingOfDatum x.2)
        withProof fun _ => closeBranch x.1 c
      return "Proof loaded successfully" : Act String) := by
  refine (KeepsSmooth.forM fun u _ => smooth_withProof fun e => smooth_perform u).bind fun _ => Keeps.smooth ?_
  refine (Keeps.forM fun x _ => ?_).bind fun _ => .pure _
  intro s hs
  simp only [exec_bind, exec_lift]
  cases hc : closingOfDatum x.2 with
  | error f => exact hs
  | ok v => exact regular_withProof (fun _ => Proof.keeps_closeBranch x.1 (template_closingOfDatum hc)) s hs

/-- a proof whose statement says something, if it is to be made in the calculus with signs, is made once more -/
theorem smooth_restore {config : Config} {n : String} (husual : config.Usual)
    (hn : config.plugins.lookup "Formal" = some n)
    (hsigned : signed.Named (Text.withoutEnd ".py" n) → ∃ a, p.statement.Expresses a) (hs : s.Regular speller steady)
    (hp : s.proof = none)
    (hsmooth : steady → Outcome.Smooth (exec (restore config p) s).1) : (exec (restore config p) s).2.Regular
    speller steady := by
  unfold restore at hsmooth ⊢
  simp only [exec_bind] at hsmooth ⊢
  rcases hplug : exec (config.plugins.forM fun x => plugSwitch x.1 x.2) s with ⟨f | _, t⟩
  · exact (regular_plugAll husual.nodup husual.sockets hs hp hplug).1
  obtain ⟨ht, hnone, hnoted⟩ := regular_plugAll husual.nodup husual.sockets hs hp hplug
  have hformal : t.config.plugins.lookup "Formal" = some n := (hnoted rfl).1 ("Formal", n) (mem_of_lookup_eq hn)
  simp only [hplug] at hsmooth ⊢
  -- the colours of the configuration
  obtain ⟨files, hfiles⟩ := changeAccessibility_frame config.accessibility t
  have ht' := ht.colours config.accessibility fun _ hsome => by rw [hnone] at hsome; cases hsome
  rcases hcolours : exec (changeAccessibility config.accessibility) t with ⟨f | _, t'⟩
  · rw [hcolours] at ht'
    exact ht'
  rw [hcolours] at ht' hfiles
  have hplugins : t'.config.plugins = t.config.plugins := congrArg (fun s => s.config.plugins) hfiles
  simp only [hcolours, remake, exec_bind, exec_get, exec_lift] at hsmooth ⊢
  -- the proof is started
  cases he : t'.setting with
  | error f => exact ht'
  | ok e =>
    simp only [he] at hsmooth ⊢
    cases hq : Proof.start e p.statement with
    | error f => exact ht'
    | ok q =>
      simp only [hq, exec_modify] at hsmooth ⊢
      have hstarted := ht'.start he hq fun hc _ => by
        obtain ⟨n', hn', hnamed⟩ := ht'.named (calculus_of_setting he).1
        rw [hplugins, hformal] at hn'
        obtain rfl := Option.some.inj hn'
        exact hsigned (hc ▸ hnamed)
      simpa only [exec_bind] using smooth_replay p.used (savedMarks p) _ hstarted
        (by simpa only [exec_bind] using hsmooth)

/-- **Loading** leaves a session regular, whatever the file holds. -/
theorem smooth_loadProof (name : String) : KeepsSmooth steady (Regular speller steady) (loadProof name) := by
  intro s hs hsmooth
  by_cases hp : s.proof = none
  · cases hfile : s.files.isFile (savePath name) with
    | false =>
      simp only [loadProof, exec_bind, exec_get, hp, Option.isSome_none, Bool.false_eq_true, if_false, hfile,
        Bool.not_false, if_true]
      exact hs
    | true =>
      cases hread : s.files.read (savePath name) with
      | error f =>
        simp only [loadProof, exec_bind, exec_get, hp, Option.isSome_none, Bool.false_eq_true, if_false, hfile,
          Bool.not_true, exec_lift, hread]
        exact hs
      | ok d =>
        -- what is no saved proof has no setup in it
        have hrefused (hd : d.field? "setup" = none) : ∃ f, exec (loadProof name) s = (.error f, s) := by
          have hfield : field d "setup" = .error (.missingKey "setup") := by rw [field, hd]; rfl
          simp only [loadProof, exec_bind, exec_get, hp, Option.isSome_none, Bool.false_eq_true, if_false, hfile,
            Bool.not_true, exec_lift, hread]
          cases d.isText with
          | true => exact ⟨_, rfl⟩
          | false =>
            simp only [Bool.false_eq_true, if_false, exec_bind, exec_lift, hfield]
            exact ⟨_, rfl⟩
        cases Files.stored_of_read hs.files hread with
        | proof husual hn hsigned =>
          rw [exec_loadProof hp hfile hread] at hsmooth ⊢
          exact smooth_restore husual hn hsigned hs hp hsmooth
        | text text =>
          obtain ⟨f, hf⟩ := hrefused rfl
          rwa [hf]
        | config =>
          obtain ⟨f, hf⟩ := hrefused rfl
          rwa [hf]
        | setup husual =>
          obtain ⟨f, hf⟩ := hrefused (husual.field?_pluginsDatum (by decide))
          rwa [hf]
  · have hsome : s.proof.isSome = true := Option.isSome_iff_ne_none.2 hp
    simp only [loadProof, exec_bind, exec_get, hsome, if_true]
    exact hs

end Session

end TableauTutor
