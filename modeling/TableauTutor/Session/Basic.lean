import TableauTutor.Assistant.Hint
import TableauTutor.Fetching
import TableauTutor.Generation
import TableauTutor.Session.Bundle

/-!
Sessions: the sockets with their plugins, the configuration, and the proof that is worked on. Every request is an action
on the session that may fail; what was changed before a failure stays changed. The lexer is made when the session starts
and when the lexicon is changed.
-/

namespace TableauTutor

/-- what is kept between sessions: the plugin of each socket, and how well colours are told apart -/
structure Config where
  plugins : List (String × String)
  accessibility : Int
deriving DecidableEq, Repr, Inhabited

namespace Config

/-- what a session starts with when there is no configuration -/
def initial : Config :=
  { plugins := [("Assistant", "pan"), ("UserInterface", "flask_local"), ("Lexicon", "classic"),
      ("Formal", "analytic_signed"), ("Output", "actual_tree")]
    accessibility := 4 }

/-- the chosen plugins, as they are written into a setup -/
def pluginsDatum (c : Config) : Datum := .record (c.plugins.map fun (k, v) => (k, .text v))

def toDatum (c : Config) : Datum :=
  .record [("chosen_plugins", c.pluginsDatum), ("accessibility", .whole c.accessibility)]

def ofDatum (d : Datum) : Outcome Config := do
  let some chosen := d.field? "chosen_plugins" | throw (.missingKey "chosen_plugins")
  let some level := d.field? "accessibility" | throw (.missingKey "accessibility")
  return { plugins := chosen.fields.map fun (k, v) => (k, v.shown), accessibility := level.index?.getD 0 }

end Config

structure Session where
  name : String := "main"
  /-- the file of the configuration -/
  configName : String
  config : Config
  sockets : List (String × Socket)
  shelf : Shelf
  lexer : Lexer
  proof : Option Proof := none
  /-- how many moves have been undone, all in all -/
  undoCount : Int := 0
  /-- the moves that were undone last -/
  undone : Option (List UsedRule) := none
  files : Files
  catalogue : Catalogue := {}
  draws : Draws := {}
deriving Repr

/-- an action on a session -/
abbrev Act := ExceptT Fault (StateM Session)

namespace Session

def inspect (s : Session) : String := "Session(self.id=" ++ Text.quoted s.name ++ ")"

/-! ### Plugins -/

/-- the plugin in a socket -/
def plugin (s : Session) (socket : String) : Outcome Plugin :=
  match s.sockets.lookup socket with
  | none => throw (.refusal (.noSuchSocket socket))
  | some k =>
    match k.call with
    | .error (.plugin e) => throw (.refusal (.relayed e.message))
    | r => r

def calculus (s : Session) : Outcome Calculus := do
  match (← s.plugin "Formal").role with
  | .calculus c => return c
  | _ => throw (.wrongKind "the plugin is blank")

/-- the style of the output; none when the plugin is blank -/
def style (s : Session) : Outcome (Option Style) := do
  match (← s.plugin "Output").role with
  | .style y => return some y
  | _ => return none

def assistant (s : Session) : Outcome Assistant := do
  match (← s.plugin "Assistant").role with
  | .assistant a => return a
  | _ => return .silent

/-- a sentence as the output shows it; a blank plugin gives nothing -/
def shown (s : Session) (x : Sentence) : Outcome Datum := do
  return match ← s.style with
  | some y => .text (y.sentence x)
  | none => .none

/-- a sentence inside a text -/
def read (s : Session) (x : Sentence) : Outcome String := do return (← s.shown x).shown

/-- what proofs are made with -/
def setting (s : Session) : Outcome Setting := do
  return { calculus := ← s.calculus, lexer := s.lexer, accessibility := s.config.accessibility }

/-- the lexer for the plugged lexicon and the languages of the plugged calculus -/
def makeLexer (s : Session) : Outcome Lexer := do
  let lexicon ← s.plugin "Lexicon"
  let c ← s.calculus
  match lexicon.role, c.lexer? s.lexer.speller with
  | .lexicon, some x => return x
  | _, _ => throw (.missingPart "'NoneType' object has no attribute 'needs_casing'")

def compileLexer : Act Unit := do
  let x ← Outcome.lift (← get).makeLexer
  modify fun s => { s with lexer := x }

/-- work with plugins as an action -/
def withShelf {α : Type} (x : Plugging α) : Act α := do
  let s ← get
  let (r, shelf) := x.run.run s.shelf
  set { s with shelf }
  Outcome.lift r

def configPath (s : Session) : String := "config/" ++ s.configName

def writeConfig : Act Unit := do
  let s ← get
  let files ← Outcome.lift (s.files.write s.configPath s.config.toDatum)
  set { s with files }

/-- a socket by its name, or by the name of the plugin chosen for it -/
def findSocket (s : Session) (name : String) : Outcome Socket :=
  match s.sockets.lookup name with
  | some k => return k
  | none =>
    match s.config.plugins.find? (·.2 == name) with
    | none => throw (.refusal (.noSocketOrPlugin name))
    | some (socket, _) =>
      match s.sockets.lookup socket with
      | some k => return k
      | none => throw (.missingKey socket)

/-- sockets whose plugin cannot be changed during a proof -/
def bound : List String := ["Formal", "Lexicon"]

/-- a plugin put into a socket, and noted in the configuration -/
def plugSwitch (socketOrPlugin new : String) : Act Unit := do
  let k ← Outcome.lift ((← get).findSocket socketOrPlugin)
  if bound.contains k.name && (← get).proof.isSome then throw (.refusal (.proofOpen k.name))
  let plugged ← tryCatch (withShelf (k.plug new)) fun
    | .plugin e => throw (.refusal (.relayed e.message))
    | f => throw f
  modify fun s => { s with
    sockets := put k.name plugged s.sockets
    config := { s.config with plugins := put k.name new s.config.plugins } }
  writeConfig
  if k.name = "Lexicon" then compileLexer

/-- a socket by its name -/
def socket (s : Session) (name : String) : Outcome Socket :=
  match s.sockets.lookup name with
  | some k => return k
  | none => throw (.refusal (.noSuchSocket name))

/-- the plugins that a socket could take -/
def plugList (name : String) : Act (List String) := do
  withShelf (← Outcome.lift ((← get).socket name)).findPlugins

/-- a new plugin made from a socket's template -/
def plugGen (name plugin : String) : Act Unit := do
  withShelf ((← Outcome.lift ((← get).socket name)).generate plugin)

def unplug (name : String) : Act Unit := do
  let some k := (← get).sockets.lookup name | throw (.missingKey name)
  modify fun s => { s with sockets := put k.name k.unplug s.sockets }

/-- is there a file, among the plugins or elsewhere -/
def isHere (s : Session) (path : String) : Bool :=
  s.files.isFile path ||
    s.shelf.folders.any fun (folder, fs) => fs.any fun (f, _) => folder ++ "/" ++ f == "<app>/" ++ path

/-- the files of a plugin fetched -/
def plugDownload (s : Session) (socketOrPlugin plugin : String) (force : Bool) : Report :=
  match s.findSocket socketOrPlugin with
  | .error f => .fail f
  | .ok k =>
    match s.catalogue.fetchPlugin s.isHere k.name plugin force with
    | ⟨lines, .error (.fetch e)⟩ => ⟨lines ++ [e.message], .ok ()⟩
    | r => r

/-- the plugins of a socket that could be fetched; none when nothing is known of the socket -/
def plugSearch (socketOrPlugin : String) : Act (Option (List String)) := do
  let k ← Outcome.lift ((← get).findSocket socketOrPlugin)
  let here ← withShelf k.findPlugins
  return ((← get).catalogue.plugins.lookup k.name).map fun ps => (ps.map (·.1)).filter fun p => !here.contains p

/-! ### Setups and configuration -/

def setupPath (name : String) : String := "setups/" ++ name ++ ".json"

def setupSave (name : String) : Act Unit := do
  let s ← get
  if s.files.isFile (setupPath name) then throw (.refusal .setupExists)
  let files ← Outcome.lift (s.files.write (setupPath name) s.config.pluginsDatum)
  set { s with files }

def setupDelete (name : String) : Act Unit := do
  let s ← get
  if !s.files.isFile (setupPath name) then throw (.refusal .setupMissing)
  let files ← Outcome.lift (s.files.remove (setupPath name))
  set { s with files }

def setupList (s : Session) : Outcome (List String) := Catalogue.localSetups s.files

/-- the setups that could be fetched -/
def setupSearch (s : Session) : Outcome (List String) := do
  let here ← s.setupList
  return (s.catalogue.setups.map (·.1)).filter fun n => !here.contains n

/-- the plugins of a setup plugged one after another; a refusal is told and passed over -/
def activate : List (String × String) → Session → Report × Session
  | [], s => (.nothing, s)
  | (socket, plugin) :: rest, s =>
    let line := "\tPlugging " ++ plugin ++ " into " ++ socket ++ " socket"
    match (plugSwitch socket plugin).run.run s with
    | (.ok (), s) =>
      let (r, s) := activate rest s
      (.say line ++ r, s)
    | (.error (.refusal e), s) =>
      let (r, s) := activate rest s
      (.say line ++ .say ("\t\t" ++ e.message) ++ r, s)
    | (.error f, s) => (.say line ++ .fail f, s)

/-- a setup fetched if need be, and its plugins plugged -/
def setupOpen (name : String) (force : Bool) (s : Session) : Report × Session :=
  match s.catalogue.fetchSetupPlugins s.files s.isHere name force with
  | ⟨lines, .error (.fetch e)⟩ => (⟨lines, .error (.refusal (.relayed e.message))⟩, s)
  | ⟨lines, .error f⟩ => (⟨lines, .error f⟩, s)
  | r =>
    match Catalogue.setupEntries s.files (setupPath name) with
    | .error f => (r ++ .say "Activating the setup" ++ .fail f, s)
    | .ok entries =>
      let (t, s) := activate entries s
      (r ++ .say "Activating the setup" ++ t, s)

def changeAccessibility (level : Int) : Act Unit := do
  modify fun s => { s with config := { s.config with accessibility := level } }
  writeConfig

/-! ### Starting -/

/-- the sockets of a session with the plugins of a configuration in them -/
def makeSockets (c : Config) : Plugging (List (String × Socket)) := do
  let read ← Bundle.sockets.mapM fun (name, version) => do
    let plugged := (c.plugins.lookup name).getD ""
    return (name, ← Socket.make name (.folder (Bundle.folder name)) version (.template "__template__.py") plugged false)
  let (name, version) := Bundle.interface
  let k ← Socket.make name (.folder (Bundle.folder name)) version (.template "__template__.py") "" true
  return read ++ [(name, k)]

/-- the folders of the program, with a configuration in a file of the given name if there is one -/
def freshFiles (configName : String) (c : Option Config) : Files :=
  .ofPaths ["config", "setups", "saved_proofs", "plugins"]
    (match c with
      | some c => [("config/" ++ configName, c.toDatum)]
      | none => [])

/-- a session with the configuration in a file; without the file one is written -/
def start (configName : String) (files : Files) (shelf : Shelf) (catalogue : Catalogue) (draws : Draws)
    (speller : Speller) : Outcome Session := do
  let path := "config/" ++ configName
  let files ← if files.isFile path then pure files else files.write path Config.initial.toDatum
  let config ← Config.ofDatum (← files.read path)
  let (sockets, shelf) := (makeSockets config).run.run shelf
  let s : Session :=
    { configName, config, sockets := ← sockets, shelf, files, catalogue, draws, lexer := { speller } }
  return { s with lexer := ← s.makeLexer }

end Session

end TableauTutor
