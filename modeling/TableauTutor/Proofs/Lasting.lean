import TableauTutor.Proofs.Reached

/-!
What lasts through commands. Whatever a command does, unless it loads a file, the proof of the session stays, goes on in
steps, is dropped, or is a new one; and what proofs are made with does not change during a proof, but for the colours.
So what is true of proofs at their start and is kept by every step is true of the proof of a session all the time.

- `Session.Lasting`: what is true at the start and is kept by steps.
- `Command.holds_perform`: it is true after every command, if it was true before and the command does not load a file.
-/

namespace TableauTutor

open Proof

namespace Session

variable {I : Setting → Proof → Prop} {s t : Session} {e : Setting} {p : Proof} {α : Type}

/-- what is true of proofs at their start, and is kept by every step and by a change of the colours -/
structure Lasting (I : Setting → Proof → Prop) : Prop where
  start : ∀ {e st p}, Proof.start e st = .ok p → I e p
  step : ∀ {e p p'}, Step e p p' → I e p → I e p'
  colours : ∀ {e p} level, I e p → I { e with accessibility := level } p

/-- it is true of the proof of the session, if there is one -/
def Holds (I : Setting → Proof → Prop) (s : Session) : Prop := ∀ p, s.proof = some p → ∃ e, s.setting = .ok e ∧ I e p

theorem holds_of_none (h : s.proof = none) : s.Holds I := fun p hp => by
  rw [h] at hp
  cases hp

theorem Holds.congr (h : s.Holds I) (hp : t.proof = s.proof) (he : ∀ p, s.proof = some p → t.setting = s.setting) :
    t.Holds I := by
  intro p hp'
  rw [hp] at hp'
  rw [he p hp']
  exact h p hp'

/-! ## Work on the proof -/

theorem exec_withProof_none (h : s.proof = none) (x : Setting → Work α) :
    exec (withProof x) s = (.error noProof, s) := by
  simp only [withProof, exec_bind, exec_get, h]
  rfl

/-- a request that makes steps of a proof, and none where there is no proof -/
theorem Lasting.request (hI : Lasting I) {x : Act α}
    (hx : ∀ {s : Session} {e p}, s.setting = .ok e → Keeps (s.Within e p) x)
    (hnone : ∀ s : Session, s.proof = none → (exec x s).2 = s) : Keeps (Holds I) x := by
  intro s hs
  cases hp : s.proof with
  | none =>
    rw [hnone s hp]
    exact hs
  | some p =>
    obtain ⟨e, he, hIp⟩ := hs p hp
    obtain ⟨p', n, u, hsteps, ht⟩ := hx he s (Within.refl hp)
    rw [ht]
    intro q hq
    obtain rfl := Option.some.inj hq
    exact ⟨e, he, hsteps.induct (I := I e) hI.step hIp⟩

namespace Lasting

theorem dealClosure (hI : Lasting I) (b : String) : Keeps (Holds I) (dealClosure b) :=
  hI.request (fun he => keeps_dealClosure he b) fun s hs => by
    simp only [Session.dealClosure, exec_bind, exec_withProof_none hs]

theorem next (hI : Lasting I) : Keeps (Holds I) next :=
  hI.request keeps_next fun s hs => by rw [Session.next, exec_withProof_none hs]

theorem jump (hI : Lasting I) (target : String) : Keeps (Holds I) (jump target) :=
  hI.request (fun he => keeps_jump he target) fun s hs => by rw [Session.jump, exec_withProof_none hs]

theorem solve (hI : Lasting I) : Keeps (Holds I) solve :=
  hI.request keeps_solve fun s hs => by simp only [Session.solve, exec_bind, exec_withProof_none hs]

theorem useRule (hI : Lasting I) (rule : String) (context : Context) : Keeps (Holds I) (useRule rule context) :=
  hI.request (fun he => keeps_useRule he rule context) fun s hs => by
    simp only [Session.useRule, exec_bind, exec_get, currentProof_none hs, exec_lift]

theorem undo (hI : Lasting I) (amount : Int) : Keeps (Holds I) (undo amount) :=
  hI.request (fun _ => keeps_undo amount) fun s hs => by
    simp only [Session.undo, exec_bind, exec_get, currentProof_none hs, exec_lift]

/-- **A proof of a typed statement** is started. -/
theorem newProof (hI : Lasting I) (text : String) : Keeps (Holds I) (newProof text) :=
  keeps_newProof hI.dealClosure fun _ _ he _ hp q hq => by
    obtain rfl := Option.some.inj hq
    exact ⟨_, he, hI.start hp⟩

/-- **The colours** can be changed. -/
theorem changeAccessibility (hI : Lasting I) (level : Int) : Keeps (Holds I) (changeAccessibility level) := by
  intro s hs
  obtain ⟨files, hfiles⟩ := changeAccessibility_frame level s
  rw [hfiles]
  intro p hp
  obtain ⟨e, he, hIp⟩ := hs p hp
  exact ⟨_, setting_colours he level files, hI.colours level hIp⟩

end Lasting

/-! ## Work on everything else -/

theorem holds_resetProof : Keeps (Holds I) resetProof := Keeps.change fun _ _ => holds_of_none rfl

theorem holds_genFormula (length vars : Int) : Keeps (Holds I) (genFormula length vars) := by
  refine Keeps.get_bind fun s hs => ?_
  simp only [exec_bind, exec_lift]
  cases s.calculus with
  | error f => exact hs
  | ok c => exact hs

theorem holds_setupSave (name : String) : Keeps (Holds I) (setupSave name) := by
  refine Keeps.get_bind fun s hs => ?_
  split
  · exact hs
  · exact holds_written (.pure _) hs fun _ _ => hs

theorem holds_setupDelete (name : String) : Keeps (Holds I) (setupDelete name) := by
  refine Keeps.get_bind fun s hs => ?_
  split
  · exact hs
  · exact holds_written (.pure _) hs fun _ _ => hs

theorem holds_saveProof (name : String) : Keeps (Holds I) (saveProof name) := keeps_saveProof fun hs _ _ => hs

theorem holds_withShelf (x : Plugging α) : Keeps (Holds I) (withShelf x) := by
  intro s hs
  rw [exec_withShelf]
  exact hs

theorem holds_plugList (name : String) : Keeps (Holds I) (plugList name) :=
  Keeps.get.bind fun _ => (Keeps.lift _).bind fun _ => holds_withShelf _

theorem holds_plugGen (name plugin : String) : Keeps (Holds I) (plugGen name plugin) :=
  Keeps.get.bind fun _ => (Keeps.lift _).bind fun _ => holds_withShelf _

/-- what proofs are made with stays when a plugin is switched during a proof -/
theorem setting_plugSwitch (a new : String) (hp : s.proof = some p) :
    (exec (plugSwitch a new) s).2.setting = s.setting := by
  obtain ⟨f, hf⟩ | ⟨k, hk, hbound⟩ := plugSwitch_cases a new s
  · rw [hf]
  have hfree : k.name ∉ bound := fun hmem => by
    rw [hbound hmem] at hp
    cases hp
  have hlexicon : k.name ≠ "Lexicon" := fun h => hfree (by rw [h]; decide)
  have hformal : ¬ ("Formal" == k.name) = true := fun h => hfree (by rw [← eq_of_beq h]; decide)
  rw [exec_plugSwitch hk hbound]
  rcases exec (k.plug new) s.shelf with ⟨f | k', shelf⟩
  · cases f <;> rfl
  · have hreplug (files : Files) : Session.setting { replug { s with shelf } k.name k' new with files } = s.setting :=
      setting_congr (by simp only [replug, lookup_put, if_neg hformal]) rfl rfl
    dsimp only
    generalize Files.write _ _ _ = r
    rcases r with f | files
    · exact hreplug s.files
    · dsimp only
      rw [if_neg hlexicon]
      exact hreplug files

theorem holds_plugSwitch (a new : String) : Keeps (Holds I) (plugSwitch a new) :=
  fun s hs => hs.congr (proof_plugSwitch a new s) fun _ => setting_plugSwitch a new

end Session

/-! ## Commands -/

namespace Command

open Session

variable {I : Setting → Proof → Prop}

theorem holds_writeTree (file : String) : Keeps (Holds I) (writeTree file) := keeps_writeTree fun hs _ => hs

/-- the actions that commands are made of keep what lasts -/
theorem upheld_holds (hI : Lasting I) : Upheld False (Holds I) where
  dealClosure := hI.dealClosure
  jump := hI.jump
  next := hI.next
  useRule rule context := (hI.useRule rule context).smooth
  solve := hI.solve.smooth
  undo := hI.undo
  newProof := hI.newProof
  resetProof := holds_resetProof
  saveProof := holds_saveProof
  writeTree := holds_writeTree
  genFormula := holds_genFormula
  plugSwitch := holds_plugSwitch
  plugList := holds_plugList
  plugGen := holds_plugGen
  setupSave := holds_setupSave
  setupDelete := holds_setupDelete

/-- **Every command** that does not load a file keeps what lasts. -/
theorem holds_perform (hI : Lasting I) {call : Call Verb} (hload : call.verb ≠ .load) :
    Keeps (Holds I) (perform call) :=
  ((upheld_holds hI).perform (fun h => absurd h hload) fun _ => hI.changeAccessibility).keeps

end Command

end TableauTutor
