import TableauTutor.Command.Performance
import TableauTutor.Proofs.Saving

/-!
Sessions that commands lead to. A session starts with the plugins of the program and a configuration, and then goes
through commands, whatever they are; another session may start later with the files that the first one left.

- `Command.Upheld`: what the actions keep that commands are made of; `Command.Upheld.perform`: every command keeps it.
- `Command.regular_perform`: every command leaves a session regular.
- `Session.Reached`: sessions that commands lead to.
- `Session.Reached.regular`: they are regular.
-/

namespace TableauTutor

open Session

namespace Command

variable {speller : Speller} {steady : Prop} {c : Prop} {I : Session → Prop} {s : Session} {α : Type}

/-! ## Refusals that are said -/

theorem smooth_saying {x : Act String} (hx : KeepsSmooth c I x) : KeepsSmooth c I (saying x) := by
  refine .tryCatch (hx.bind fun _ => (Keeps.pure _).smooth) (fun f => ?_) fun f hf => ?_
  · cases f with
    | refusal e => exact (Keeps.pure _).smooth
    | _ => exact (Keeps.throw _).smooth
  · cases f with
    | refusal e => cases hf
    | _ => rfl

theorem keeps_saying {x : Act String} (hx : Keeps I x) : Keeps I (saying x) := (smooth_saying hx.smooth).keeps

theorem keeps_doing {x : Act α} (hx : Keeps I x) (done : String) : Keeps I (doing x done) :=
  keeps_saying (hx.bind fun _ => .pure _)

theorem keeps_asking (x : Session → Outcome String) : Keeps I (asking x) :=
  keeps_saying (Keeps.get.bind fun _ => .lift _)

/-! ## Commands one by one -/

/-- what the actions keep that commands are made of. If `c`, a rule or the solver need not keep it if it breaks down -/
structure Upheld (c : Prop) (I : Session → Prop) : Prop where
  dealClosure : ∀ b, Keeps I (Session.dealClosure b)
  jump : ∀ target, Keeps I (Session.jump target)
  next : Keeps I Session.next
  useRule : ∀ rule context, KeepsSmooth c I (Session.useRule rule context)
  solve : KeepsSmooth c I Session.solve
  undo : ∀ amount, Keeps I (Session.undo amount)
  newProof : ∀ text, Keeps I (Session.newProof text)
  resetProof : Keeps I Session.resetProof
  saveProof : ∀ name, Keeps I (Session.saveProof name)
  writeTree : ∀ file, Keeps I (Command.writeTree file)
  genFormula : ∀ length vars, Keeps I (Session.genFormula length vars)
  plugSwitch : ∀ a new, Keeps I (Session.plugSwitch a new)
  plugList : ∀ name, Keeps I (Session.plugList name)
  plugGen : ∀ name plugin, Keeps I (Session.plugGen name plugin)
  setupSave : ∀ name, Keeps I (Session.setupSave name)
  setupDelete : ∀ name, Keeps I (Session.setupDelete name)

namespace Upheld

theorem afterUse (h : Upheld c I) (rule : String) : Keeps I (afterUse rule) := by
  refine Keeps.get.bind fun s => (Keeps.lift _).bind fun p => (Keeps.lift _).bind fun changed => ?_
  refine (Keeps.mapM fun b _ => (h.dealClosure b).bind fun _ => .pure _).bind fun closings => ?_
  exact Keeps.get.bind fun s => (Keeps.lift _).bind fun r => .pure _

theorem useAndTell (h : Upheld c I) (rule : String) (context : Context) :
    KeepsSmooth c I (useAndTell rule context) := by
  refine KeepsSmooth.bind (.tryCatch ((h.useRule rule context).bind fun _ => (Keeps.pure _).smooth)
    (fun f => ?_) fun f hf => ?_) fun answer => ?_
  · cases f with
    | refusal e => exact (Keeps.pure _).smooth
    | _ => exact (Keeps.throw _).smooth
  · cases f with
    | refusal e => cases hf
    | _ => rfl
  · rcases answer with text | _ | texts
    · exact (Keeps.pure _).smooth
    · exact ((h.afterUse rule).bind fun _ => .pure _).smooth
    · exact (Keeps.pure _).smooth

theorem use (h : Upheld c I) (command : String) : KeepsSmooth c I (use command) := by
  refine .ite (Keeps.pure _).smooth (Keeps.get.smooth.bind fun s => (Keeps.lift _).smooth.bind fun items => ?_)
  cases items with
  | none => exact (Keeps.pure _).smooth
  | some items =>
    refine (Keeps.lift _).smooth.bind fun context => ?_
    cases context with
    | error text => exact (Keeps.pure _).smooth
    | ok context =>
      refine (h.useAndTell _ context).bind fun said => ?_
      cases said <;> exact (Keeps.pure _).smooth

theorem prove (h : Upheld c I) (statement : String) : Keeps I (prove statement) := by
  refine Keeps.get.bind fun s => .ite (.pure _) ((h.newProof statement).bind fun texts => ?_)
  cases texts <;> exact .pure _

theorem jumpTo (h : Upheld c I) (target : String) : Keeps I (jumpTo target) := by
  unfold Command.jumpTo
  dsimp only
  split <;> exact (h.jump _).bind fun _ => .pure _

theorem load (h : Upheld c I) {name : String} (hload : KeepsSmooth c I (loadProof name)) :
    KeepsSmooth c I (load name) := by
  refine hload.bind fun said => Keeps.smooth ?_
  refine Keeps.get.bind fun s => (Keeps.lift _).bind fun bs => (Keeps.forIn fun b _ => h.dealClosure b).bind fun _ =>
    .pure _

theorem listPlugins (h : Upheld c I) (socket : String) : Keeps I (listPlugins socket) :=
  (h.plugList socket).bind fun _ => .pure _

theorem switchPlugin (h : Upheld c I) (socket plugin : String) : Keeps I (switchPlugin socket plugin) :=
  .tryCatch ((h.plugSwitch socket plugin).bind fun _ => .pure _) fun _ => .pure _

theorem openSetup (h : Upheld c I) (name : String) (force : Bool) : Keeps I (openSetup name force) :=
  Keeps.get_bind fun _ hs => keeps_setupOpen h.plugSwitch name force hs

/-- **Every command** keeps what the actions keep that it is made of; loading a file and changing
the colours are looked at apart. -/
theorem perform (h : Upheld c I) {call : Call Verb}
    (hload : call.verb = .load → ∀ name, KeepsSmooth c I (loadProof name))
    (hcolours : call.verb = .colours → ∀ level, Keeps I (changeAccessibility level)) :
    KeepsSmooth c I (perform call) := by
  unfold Command.perform
  split
  · exact (Keeps.pure _).smooth
  · exact (Keeps.throw _).smooth
  · exact (keeps_asking _).smooth
  · exact (keeps_asking _).smooth
  · exact (keeps_saying (h.jumpTo _)).smooth
  · refine Keeps.smooth (.tryCatch (h.next.bind fun _ => .pure _) fun f => ?_)
    cases f with
    | refusal e => exact .pure _
    | _ => exact .throw _
  · exact ((h.writeTree _).bind fun _ => .pure _).smooth
  · exact (h.use _).bind fun _ => (Keeps.pure _).smooth
  · exact (keeps_saying ((h.undo _).bind fun _ => .pure _)).smooth
  · exact (keeps_doing h.resetProof _).smooth
  · exact (keeps_saying (h.prove _)).smooth
  · exact ((h.genFormula _ _).bind fun _ => .pure _).smooth
  · exact (keeps_asking _).smooth
  · exact smooth_saying (h.solve.bind fun _ => (Keeps.pure _).smooth)
  · exact (keeps_asking _).smooth
  · exact (keeps_saying (h.saveProof _)).smooth
  · exact smooth_saying (h.load (hload ‹_› _))
  · exact (h.switchPlugin _ _).smooth
  · exact (Keeps.get.bind fun _ => .pure _).smooth
  · exact (Keeps.get.bind fun _ => .pure _).smooth
  · exact ((Keeps.mapM fun _ _ => h.listPlugins _).bind fun _ => .pure _).smooth
  · exact (keeps_saying (h.listPlugins _)).smooth
  · exact (keeps_doing (h.plugGen _ _) _).smooth
  · exact (keeps_doing (h.setupSave _) _).smooth
  · exact (keeps_doing (h.setupDelete _) _).smooth
  · exact (h.openSetup _ _).smooth
  · exact (h.openSetup _ _).smooth
  · exact (Keeps.get.bind fun _ => (Keeps.lift _).bind fun _ => .pure _).smooth
  · exact (Keeps.pure _).smooth
  · exact (Keeps.pure _).smooth
  · exact ((hcolours ‹_› _).bind fun _ => .pure _).smooth
  · exact (Keeps.pure _).smooth
  · exact (Keeps.throw _).smooth

end Upheld

theorem keeps_writeTree {file : String} (h : ∀ {s w text}, I s → s.files.write file (.text text) = .ok w →
    I { s with files := w }) : Keeps I (writeTree file) := by
  refine Keeps.get_bind fun s hs => ?_
  simp only [exec_bind, exec_lift]
  cases s.tree with
  | error f => exact hs
  | ok lines =>
    dsimp only
    split
    · exact hs
    simpa only [exec_bind] using holds_written (.ite ((Keeps.throw _).bind fun _ => .pure _) (.pure _)) hs fun _ hw =>
      h hs hw

theorem regular_writeTree (file : String) : Keeps (Regular speller steady) (writeTree file) :=
  keeps_writeTree fun hs hw => hs.of_files (Files.stored_of_write hs.files (.text _) hw)

theorem upheld_regular : Upheld steady (Regular speller steady) where
  dealClosure := regular_dealClosure
  jump := regular_jump
  next := regular_next
  useRule := smooth_useRule
  solve := smooth_solve
  undo := regular_undo
  newProof := regular_newProof
  resetProof := regular_resetProof
  saveProof := regular_saveProof
  writeTree := regular_writeTree
  genFormula := regular_genFormula
  plugSwitch := regular_plugSwitch
  plugList := regular_plugList
  plugGen := regular_plugGen
  setupSave := regular_setupSave
  setupDelete := regular_setupDelete

/-! ## All commands -/

/-- the command is carried out to its end, and does not change the colours during a proof -/
def GoesWell (call : Call Verb) (s : Session) : Prop :=
  (∃ reply, (exec (perform call) s).1 = .ok reply) ∧
    (s.proof.isSome → (exec (perform call) s).2.config.accessibility = s.config.accessibility)

/-- a command for the colours changes them, or does nothing -/
theorem perform_colours (given : Given) (s : Session) : (exec (perform ⟨.colours, given⟩) s).2 = s ∨
    ∃ level, (exec (perform ⟨.colours, given⟩) s).2 = (exec (changeAccessibility level) s).2 := by
  rcases given with docs | text | args
  · exact .inl rfl
  · exact .inl rfl
  · rcases args with _ | ⟨_ | _, _ | ⟨_, _⟩⟩
    · exact .inl rfl
    · rename_i level
      refine .inr ⟨level, ?_⟩
      have heq : perform ⟨.colours, .each [.number level]⟩ =
          (do changeAccessibility level; return .text "Color accessibility changed") := rfl
      rw [heq, exec_bind]
      rcases exec (changeAccessibility level) s with ⟨f | _, t⟩ <;> rfl
    · exact .inl rfl
    · exact .inl rfl
    · exact .inl rfl

/-- **Every command** leaves a session regular. -/
theorem regular_perform (call : Call Verb) (hs : s.Regular speller steady) (hwell : steady → GoesWell call s) :
    (exec (perform call) s).2.Regular speller steady := by
  have hsmooth : steady → Outcome.Smooth (exec (perform call) s).1 := by
    intro h
    obtain ⟨⟨reply, hreply⟩, -⟩ := hwell h
    rw [hreply]
    exact Outcome.smooth_ok reply
  by_cases hcolours : call.verb = .colours
  · obtain ⟨verb, given⟩ := call
    obtain rfl : verb = .colours := hcolours
    rcases perform_colours given s with heq | ⟨level, heq⟩
    · rwa [heq]
    · obtain ⟨files, hfiles⟩ := changeAccessibility_frame level s
      rw [heq]
      refine hs.colours _ fun h hproof => ?_
      have hlevel := (hwell h).2 hproof
      rwa [heq, hfiles] at hlevel
  · exact upheld_regular.perform (fun _ => smooth_loadProof) (fun h => absurd h hcolours) s hs hsmooth

end Command

namespace Session

/-- sessions that commands lead to, if spellings are picked by the speller in all of them. If `steady`, commands go well
from the time when the present proof was started -/
inductive Reached (speller : Speller) : Prop → Session → Prop
  | start {steady : Prop} {name : String} {config : Option Config} {catalogue : Catalogue} {draws : Draws}
      {s : Session} (hconfig : ∀ c ∈ config, c.Usual)
      (h : Session.start name (freshFiles name config) (Bundle.shelf []) catalogue draws speller = .ok s) :
      Reached speller steady s
  | again {steady : Prop} {name : String} {catalogue : Catalogue} {draws : Draws} {s t : Session}
      (hs : Reached speller steady s)
      (h : Session.start name s.files { s.shelf with cache := [] } catalogue draws speller = .ok t) :
      Reached speller steady t
  | command {steady : Prop} {s : Session} (call : Command.Call Verb) (hs : Reached speller steady s)
      (hwell : steady → Command.GoesWell call s) : Reached speller steady (exec (Command.perform call) s).2
  | idle {steady : Prop} {s : Session} (hs : Reached speller False s) (hp : s.proof = none) : Reached speller steady s

variable {speller : Speller} {steady : Prop} {s : Session}

theorem stored_freshFiles {name : String} {config : Option Config} (h : ∀ c ∈ config, c.Usual) :
    ∀ f ∈ (freshFiles name config).files, Stored f.2 := by
  cases config with
  | none => exact fun f hf => absurd hf List.not_mem_nil
  | some c =>
    intro f hf
    obtain rfl := List.mem_singleton.1 hf
    exact .config (h c rfl)

/-- **Sessions that commands lead to** are regular. -/
theorem Reached.regular (h : Reached speller steady s) : s.Regular speller steady := by
  induction h with
  | start hconfig h => exact regular_start (stored_freshFiles hconfig) Shelf.proper_bundle h
  | @again _ _ _ _ s t hs h ih =>
    have hshelf : Shelf.Proper { s.shelf with cache := [] } := ⟨ih.shelf.filed, fun y hy => by cases hy⟩
    exact regular_start ih.files hshelf h
  | command call hs hwell ih => exact Command.regular_perform call ih hwell
  | idle hs hp ih =>
    exact ⟨ih.usual, ih.plugged, ih.shelf, ih.lexer, ih.lexicon, ih.files, fun p h => by rw [hp] at h; cases h⟩

/-- the session that the program starts when nothing has been saved before -/
def fresh? : Option Session :=
  (Session.start "config.json" (freshFiles "config.json" none) (Bundle.shelf []) {} {} .orderly).toOption

theorem reached_fresh (h : fresh? = some s) : Reached .orderly steady s := by
  unfold fresh? at h
  cases hstart : Session.start "config.json" (freshFiles "config.json" none) (Bundle.shelf []) {} {} .orderly with
  | error f =>
    rw [hstart] at h
    cases h
  | ok t =>
    rw [hstart] at h
    obtain rfl : t = s := Option.some.inj h
    exact .start (by simp) hstart

end Session

end TableauTutor
