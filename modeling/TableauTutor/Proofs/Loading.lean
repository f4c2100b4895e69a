import TableauTutor.Proofs.Reached
import TableauTutor.Proofs.Replaying
import TableauTutor.Proofs.Replugging

/-!
Loading. A file of a saved proof holds its statement, its moves and the marks of its leaves, but neither its nodes nor
the names of their branches; when it is loaded, the moves are made once more with the plugins, the colours and the lexer
of the moment. They are the same as when the proof was made, and so the proof is the same, if three things are given:
the colours were not changed during the proof; every plugin of the setup can be plugged; and if the calculus is the one
with signs, it is plugged before the lexicon is, for only then the lexer is made for it.

- `Session.load_saved`: loading undoes saving.
-/

namespace TableauTutor

open ProofTree Calculus

/-! ## Lexers -/

namespace Proof

variable {e : Setting} {p : Proof} {root : Sentence} {name : String}

/-- **Without signs** a proof does not depend on the lexer. -/
theorem KeptFrom.change_lexer (h : p.KeptFrom True e root name) {y : Lexer} (hy : e.calculus = .signed → y = e.lexer) :
    p.KeptFrom True { e with lexer := y } root name := by
  obtain ⟨c, x, level⟩ := e
  cases c with
  | signed =>
    obtain rfl : y = x := hy rfl
    exact h
  | unsigned =>
    refine ⟨h.prepared, h.known, h.first, ⟨h.orderly.statement, ?_, h.orderly.start, h.orderly.marked⟩, h.recorded,
      (fun hsigned => by cases hsigned), h.sound⟩
    refine h.orderly.built.mono fun t u t' hR htrue hauto => ?_
    unfold Repeats
    rw [useOn_lexer y x]
    exact hR htrue hauto

end Proof

/-! ## Marks in files -/

namespace Session

variable {speller : Speller} {s s' t u : Session} {p q : Proof} {e : Setting} {c : Calculus} {name said : String}

theorem closingOfDatum_toDatum {v : Closing} (hv : v.template = none) : closingOfDatum v.toDatum = .ok v := by
  obtain ⟨success, text, template⟩ := v
  obtain rfl : template = none := hv
  cases success <;> rfl

theorem savedMarks_eq (h : p.tree.branchNames.Nodup) :
    savedMarks p = (marksOf (p.tree.leaves.map (·.data))).map fun x => (x.1, x.2.toDatum) := by
  have hlist : (p.tree.leaves.filterMap fun q => q.data.closed.map fun v => (q.data.branch, v.toDatum))
      = (marksOf (p.tree.leaves.map (·.data))).map fun x => (x.1, x.2.toDatum) := by
    rw [marksOf, List.filterMap_map, List.map_filterMap]
    refine List.filterMap_congr fun q _ => ?_
    simp only [Function.comp_apply, Option.map_map]
    rfl
  rw [savedMarks, hlist]
  apply tableOf_of_nodup
  rw [List.map_map]
  have hsub := marksOf_names (p.tree.leaves.map (·.data))
  rw [List.map_map] at hsub
  exact hsub.nodup h

/-! ## The proof made once more -/

theorem setting_of_calculus (h : s.calculus = .ok c) : s.setting = .ok ⟨c, s.lexer, s.config.accessibility⟩ := by
  simp only [Session.setting, h]
  rfl

/-- the colours can be changed if the configuration can be written; nothing else is changed that proofs are made with -/
theorem exists_changeAccessibility (h : s.files.Writable s.configPath) (level : Int) :
    ∃ t, exec (changeAccessibility level) s = (.ok (), t) ∧ t.calculus = s.calculus ∧ t.lexer = s.lexer ∧
      t.config.accessibility = level := by
  obtain ⟨files, hwrite, -⟩ := h.write (Config.toDatum { s.config with accessibility := level })
  refine ⟨{ s with config := { s.config with accessibility := level }, files }, ?_, rfl, rfl, rfl⟩
  simp only [changeAccessibility, exec_bind, exec_modify, writeConfig, exec_get, exec_lift]
  generalize hr : Files.write _ _ _ = r
  obtain rfl : r = .ok files := hr.symm.trans hwrite
  rfl

theorem template_of_marks (h : p.tree.Marked fun _ v => v.template = none) {x : String × Closing}
    (hx : x ∈ marksOf (p.tree.leaves.map (·.data))) : x.2.template = none := by
  obtain ⟨n, hn, hmark⟩ := List.mem_filterMap.1 hx
  obtain ⟨v, hv, rfl⟩ := Option.map_eq_some_iff.1 hmark
  have hleaves : p.tree.leaves.map (·.data) = (strands p.tree).map (·.leaf) := leaves_map p.tree id
  rw [hleaves] at hn
  obtain ⟨r, hr, rfl⟩ := List.mem_map.1 hn
  exact h r hr r.above r.leaf (List.prefix_refl _) v hv

/-- **A proof is made once more** in a session where everything is set as it was: it has the moves it had, the tree it
had but for marks above leaves, and its leaves are as they were. -/
theorem exec_remake (he : s.setting = .ok e) (hkept : p.Kept True e) (hauto : ∀ u ∈ p.used, u.auto = false) :
    ∃ q, exec (remake p) s = (.ok "Proof loaded successfully", { s with proof := some q }) ∧ q.statement = p.statement ∧
      q.used = p.used ∧ q.tree.unmarked = p.tree.unmarked ∧
      q.tree.leaves.map (·.data) = p.tree.leaves.map (·.data) := by
  obtain ⟨root, name, hkept⟩ := hkept
  obtain ⟨q₀, q₁, q, hstart, hmoves, hmarks, hq⟩ := hkept.remade hauto
  have he' (q : Proof) : Session.setting { s with proof := some q } = .ok e := he
  -- the moves and the marks are made on the proof of the session
  have hmoves' := exec_forM_part (w := fun q => { s with proof := some q }) (g := fun m => withProof fun e =>
    Proof.perform e m) (fun m _ q q' h => exec_withProof (he' q) rfl h) hmoves
  have hmarks' := exec_forM_part (w := fun q => { s with proof := some q })
    (g := fun x => do
      let v ← Outcome.lift (closingOfDatum x.2.toDatum)
      withProof fun _ => closeBranch x.1 v)
    (fun x hx q q' h => by
      simp only [exec_bind, exec_lift, closingOfDatum_toDatum (template_of_marks hkept.orderly.marked hx)]
      exact exec_withProof (x := fun _ => closeBranch x.1 x.2) (he' q) rfl h) hmarks
  refine ⟨q, ?_, hq⟩
  have hnames : p.tree.branchNames.Nodup := by
    rw [branchNames_eq]
    exact hkept.orderly.names
  simp only [remake, exec_bind, exec_get, exec_lift, he, hstart, exec_modify, hmoves', savedMarks_eq hnames]
  rw [List.forM_eq_forM] at hmarks' ⊢
  rw [List.forM_map, hmarks']
  rfl

/-! ## Saving and loading -/

theorem saveProof_eq_ok (hp : s.proof = some p) (h : exec (saveProof name) s = (.ok said, s')) :
    (∀ u ∈ p.used, u.auto = false) ∧ ∃ files, s.files.write (savePath name) (s.savedProof p) = .ok files ∧
    s' = { s with files } := by
  simp only [saveProof, exec_bind, exec_get, hp] at h
  split at h
  · cases h
  rename_i hauto
  split at h
  · cases h
  simp only [exec_bind, exec_lift] at h
  cases hw : s.files.write (savePath name) (s.savedProof p) with
  | error f =>
    rw [hw] at h
    cases h
  | ok files =>
    rw [hw] at h
    obtain ⟨-, rfl⟩ := Prod.mk.inj h
    refine ⟨fun u hu => ?_, files, rfl, by rw [← hp]⟩
    exact Bool.eq_false_iff.2 fun h => hauto (List.any_eq_true.2 ⟨u, hu, h⟩)

/-- **Loading undoes saving.** Let a proof be made by commands that go well, with the colours unchanged, and let it be
saved. In any session without a proof that has the file, and where each plugin of the setup can be plugged, the file can
be loaded, and gives a proof with the same statement, the same moves, the same tree but for marks above leaves, and the
same leaves. For a proof in the calculus with signs, this calculus has to be plugged before the lexicon is. -/
theorem load_saved (hs : Reached speller True s) (hp : s.proof = some p)
    (hsave : exec (saveProof name) s = (.ok said, s'))
    (ht : Reached speller False t) (hnone : t.proof = none)
    (hfile : t.files.read (savePath name) = s'.files.read (savePath name))
    (hoffers : ∀ x ∈ s.config.plugins, (exec (plugSwitch x.1 x.2) t).1 = .ok ())
    (hsign : s.calculus = .ok .signed →
      t.calculus = .ok .signed ∨ ["Formal", "Lexicon"].Sublist (s.config.plugins.map (·.1))) :
    ∃ t' q, exec (loadProof name) t = (.ok "Proof loaded successfully", t') ∧ t'.proof = some q ∧
    q.statement = p.statement ∧
      q.used = p.used ∧ q.tree.unmarked = p.tree.unmarked ∧
      q.tree.leaves.map (·.data) = p.tree.leaves.map (·.data) := by
  obtain ⟨hauto, files, hwrite, rfl⟩ := saveProof_eq_ok hp hsave
  rw [Files.read_of_write hwrite] at hfile
  obtain ⟨e, he, hkept⟩ := hs.regular.proof p hp
  obtain ⟨hc, hlexer, hlevel⟩ := calculus_of_setting he
  obtain ⟨n, hn, hnamed⟩ := hs.regular.named hc
  -- the plugins and the colours are as they were
  obtain ⟨u, hplug, hregular, hidle, hcalculus, hsigned, hwritable⟩ :=
    exists_plugAll ht.regular hnone hs.regular.usual hn hnamed hs.regular.lexicon hoffers fun h => hsign (h ▸ hc)
  obtain ⟨v, hcolours, hcalculus', hlexer', hlevel'⟩ := exists_changeAccessibility hwritable s.config.accessibility
  have hsetting : v.setting = .ok { e with lexer := u.lexer } := by
    rw [setting_of_calculus (hcalculus'.trans hcalculus), hlexer', hlevel', hlevel]
  have hkept' : p.Kept True { e with lexer := u.lexer } := by
    obtain ⟨root, first, hkept⟩ := hkept
    refine ⟨root, first, hkept.change_lexer fun h => ?_⟩
    have hown := (hkept.signed h).1
    have hspeller : e.lexer.speller = u.lexer.speller := by rw [hlexer, hs.regular.speller_eq, hregular.speller_eq]
    rw [Setting.HasLexer, h, HasLexer, hspeller] at hown
    exact Option.some.inj ((hsigned h).symm.trans hown)
  obtain ⟨q, hrun, hq⟩ := exec_remake hsetting hkept' hauto
  refine ⟨{ v with proof := some q }, q, ?_, rfl, hq⟩
  rw [exec_loadProof hnone (Files.isFile_of_read hfile) hfile, restore, exec_bind, hplug]
  dsimp only
  rw [exec_bind, hcolours]
  exact hrun

theorem exec_saying {x : Act String} (h : exec x s = (.ok said, t)) :
    exec (Command.saying x) s = (.ok (.text said), t) := by
  simp only [Command.saying, exec_tryCatch, exec_bind, h]
  rfl

/-- the session after a command, if the command goes well -/
def went? (call : Command.Call Verb) (s : Session) : Option Session :=
  match exec (Command.perform call) s with
  | (.ok _, t) => if t.config.accessibility = s.config.accessibility then some t else none
  | (.error _, _) => none

theorem reached_of_went? {steady : Prop} {call : Command.Call Verb} (hs : Reached speller steady s)
    (h : s.went? call = some t) : Reached speller steady t := by
  unfold went? at h
  split at h
  · rename_i reply u hrun
    split at h
    · rename_i hlevel
      obtain rfl := Option.some.inj h
      have hwell : Command.GoesWell call s := ⟨⟨reply, by rw [hrun]⟩, fun _ => by rw [hrun]; exact hlevel⟩
      have hreached := Reached.command call hs fun _ => hwell
      rwa [hrun] at hreached
    · cases h
  · cases h

theorem load_saved_disjunction :
    ∃ s p said s' t, Reached .orderly True s ∧ s.proof = some p ∧ p.used.length = 1 ∧
    exec (saveProof "kept") s = (.ok said, s') ∧
      Reached .orderly False t ∧ t.proof = none ∧
      ∃ t' q, exec (loadProof "kept") t = (.ok "Proof loaded successfully", t') ∧
        t'.proof = some q ∧ q.statement = p.statement ∧ q.used = p.used ∧ q.tree.unmarked = p.tree.unmarked ∧
        q.tree.leaves.map (·.data) = p.tree.leaves.map (·.data) := by
  -- a proof is begun, saved and left
  have hrun : (fresh?.bind fun s₀ => (s₀.went? ⟨.prove, .rest "p or q"⟩).bind fun s₁ =>
      (s₁.went? ⟨.use, .rest "false or 1 2"⟩).bind fun s => s.proof.bind fun p =>
      (exec (saveProof "kept") s).1.toOption.bind fun _ =>
        let t := (exec (Command.perform ⟨.leave, .each []⟩)
          (exec (Command.perform ⟨.save, .each [.text "kept"]⟩) s).2).2
        if (∀ x ∈ s.config.plugins, (exec (plugSwitch x.1 x.2) t).1.toOption = some ()) ∧
          t.calculus.toOption = some .signed
        then some p.used.length else none) = some 1 := by
    decide +kernel
  simp only [Option.bind_eq_some_iff, Option.ite_none_right_eq_some, Option.some.injEq] at hrun
  obtain ⟨s₀, hfresh, s₁, hprove, s, huse, p, hp, said, hsaid, ⟨hoffers, hsign⟩, hused⟩ := hrun
  have hok {ε α : Type} {r : Except ε α} {a : α} (h : r.toOption = some a) : r = .ok a := by
    cases r with
    | error f => cases h
    | ok b => exact congrArg _ (Option.some.inj h)
  have hs (steady : Prop) : Reached .orderly steady s :=
    reached_of_went? (reached_of_went? (reached_fresh hfresh) hprove) huse
  have hsave : exec (saveProof "kept") s = (.ok said, (exec (saveProof "kept") s).2) :=
    Prod.ext (hok hsaid) rfl
  have hkeep : (exec (Command.perform ⟨.save, .each [.text "kept"]⟩) s).2 = (exec (saveProof "kept") s).2 :=
    congrArg Prod.snd (exec_saying hsave)
  have hsaved : Reached .orderly False (exec (Command.perform ⟨.save, .each [.text "kept"]⟩) s).2 :=
    .command _ (hs False) False.elim
  have ht := Reached.command ⟨.leave, .each []⟩ hsaved False.elim
  refine ⟨s, p, said, _, _, hs True, hp, hused, hsave, ht, rfl,
    load_saved (hs True) hp hsave ht rfl ?_ (fun x hx => hok (hoffers x hx)) fun _ => .inl (hok hsign)⟩
  rw [← hkeep]
  rfl

end Session

end TableauTutor
