import TableauTutor.Plugin

/-!
Sockets: places in the program that a plugin can be put into. A plugin must be meant for the socket, have its version up
to the last number, and have the functions that the socket's template has, annotated in the same way.
-/

namespace TableauTutor

/-- the folders with plugins, each a list of files, and the plugins read so far by socket and name, oldest first -/
structure Shelf where
  folders : List (String × List (String × Plugin)) := []
  cache : List ((String × String) × Plugin) := []
deriving Repr, Inhabited

/-- work with plugins that may fail; what was read before a failure stays read -/
abbrev Plugging := ExceptT Fault (StateM Shelf)

namespace Shelf

/-- forget the oldest plugins; all of them if no number above zero is given -/
def clearCache (amount : Int) (s : Shelf) : Shelf × Outcome Unit :=
  if amount ≤ 0 then ({ s with cache := [] }, .ok ())
  else ({ s with cache := s.cache.drop amount.toNat },
    if amount ≤ s.cache.length then .ok () else .error (.missingKey "cache"))

/-- names in a folder, sorted, each with whether it is a folder -/
def entries (files : List (String × Plugin)) : List (String × Bool) :=
  sortBy (fun a b => a.1 ≤ b.1) (files.map fun (path, _) =>
    match Text.splitAt '/' path with
    | first :: _ :: _ => (first, true)
    | first :: [] => (first, false)
    | [] => ("", false)).eraseDups

end Shelf

/-- where the plugins of a socket are -/
inductive PluginFolder where
  /-- nowhere: the socket only checks plugins -/
  | nowhere
  /-- a path that does not start at the top -/
  | relative
  | folder (path : String)
deriving DecidableEq, Repr

structure Socket where
  name : String
  place : PluginFolder
  version : List Int
  template : Option String := none
  functions : List (String × Signature) := []
  plugin : Option Plugin := none
  pluginName : Option String := none
  /-- a socket that has been unplugged takes no plugin any more -/
  accepts : Bool := true
  /-- a dummy takes the name of a plugin and never reads it -/
  dummy : Bool := false
deriving Repr

namespace Socket

/-- the numbers of a version -/
def readVersion (text : String) : Outcome (List Int) :=
  (Text.splitAt '.' text).mapM fun part =>
    match Text.readInt? part with
    | some n => return n
    | none => throw (.badValue ("invalid literal for int() with base 10: " ++ Text.quoted part))

def versionText (s : Socket) : String := Text.join "." (s.version.map toString)

def folderName (s : Socket) : String :=
  match s.place with
  | .folder path => path
  | _ => "<> test <>"

/-- the files of the socket's folder -/
def files (s : Socket) : Plugging (List (String × Plugin)) := do
  match (← get).folders.lookup s.folderName with
  | some fs => return fs
  | none => throw (.fileMissing ("[Errno 2] No such file or directory: " ++ Text.quoted s.folderName))

/-- the plugins in the socket's folder: files of code and folders -/
def findPlugins (s : Socket) : Plugging (List String) := do
  let hidden := [s.template.getD "None" ++ ".py", "__utils__.py", "__init__.py"]
  return (Shelf.entries (← s.files)).filterMap fun (name, isFolder) =>
    if Text.endsWith ".py" name && !hidden.contains name then some (Text.dropEnd 3 name)
    else if isFolder && name != "__pycache__" then some name
    else none

/-- a plugin from its file, or from a folder of its name -/
def readFile (s : Socket) (plugin : String) : Plugging Plugin := do
  let fs ← s.files
  let inFolder := plugin ++ "/__init__.py"
  let alone := plugin ++ ".py"
  match fs.lookup inFolder, fs.lookup alone with
  | some p, _ => return { p with name := inFolder }
  | none, some p => return { p with name := alone }
  | none, none =>
    throw (.fileMissing ("[Errno 2] No such file or directory: " ++ Text.quoted (s.folderName ++ "/" ++ alone)))

/-- a plugin read, or taken from those read before; the template is read anew each time -/
def load (s : Socket) (plugin : String) : Plugging Plugin := do
  let key := (s.name, plugin)
  match (← get).cache.lookup key with
  | some p =>
    modify fun h => { h with cache := h.cache.filter (·.1 != key) ++ [(key, p)] }
    return p
  | none =>
    let p ← s.readFile plugin
    if s.template ≠ some plugin then modify fun h => { h with cache := h.cache ++ [(key, p)] }
    return p

/-- is the plugin meant for the socket -/
def checkName (s : Socket) (p : Plugin) (message : String) : Outcome Unit :=
  match p.socket with
  | none => throw (.broken .noSocketName)
  | some d => if d == .text s.name then return () else throw (.plugin (.wrongSocket message))

/-- has the plugin the socket's version, but for the last number -/
def checkVersion (s : Socket) (p : Plugin) (message : String) : Outcome Unit :=
  match p.version with
  | none => throw (.broken .noVersion)
  | some (.text t) => do
    let v ← readVersion t
    if v.length ≠ 3 then throw (.plugin (.versionFormat t))
    if v.dropLast ≠ s.version.dropLast then throw (.plugin (.wrongVersion message))
  | some d => throw (.missingPart (d.lacking "split"))

def noSignature (name : String) : Fault := .badValue ("no signature found for " ++ name)

/-- is a function annotated as the socket's function of that name is -/
def checkFunction (s : Socket) : Plugin.Callable → Outcome Unit
  | .error name => if (s.functions.lookup name).isSome then throw (noSignature name) else return ()
  | .function f =>
    match s.functions.lookup f.own with
    | none => return ()
    | some proper =>
      if f.signature.arguments ≠ proper.arguments then throw (.plugin (.otherArguments f.own))
      else if f.signature.result ≠ proper.result then throw (.plugin (.otherResult f.own))
      else return ()

/-- has the plugin the functions that the socket needs -/
def checkFunctions (s : Socket) (p : Plugin) : Outcome Unit := do
  if s.dummy then throw .dummySocket
  let lacking := (s.functions.map (·.1)).filter fun n => !p.names.contains n
  if !lacking.isEmpty then throw (.plugin (.lacksFunctions (sortBy (fun a b => a ≤ b) lacking)))
  s.functions.forM fun (n, _) =>
    match p.callable? n with
    | none => throw (.missingKey n)
    | some f => s.checkFunction f

/-- the socket with a plugin in it, known by a name -/
def hold (s : Socket) (name : String) (p : Plugin) : Socket := { s with plugin := some p, pluginName := some name }

/-- a plugin looked for in the socket's folder and read -/
def fetch (s : Socket) (name : String) : Plugging Plugin := do
  if s.place = .nowhere then throw (.broken .unnamed)
  if !(← s.findPlugins).contains name then throw (.fileMissing (name ++ " doesn't exist in " ++ s.folderName))
  s.load name

/-- a plugin that was read, put into the socket if it passes -/
def receive (s : Socket) (name : String) (p : Plugin) : Plugging Socket := do
  let some meant := p.socket | throw (p.lacks "SOCKET")
  Outcome.lift (s.checkName p (name ++ " is meant to be plugged into " ++ meant.shown ++ ", not " ++ s.name))
  let some version := p.version | throw (p.lacks "VERSION")
  Outcome.lift (s.checkVersion p ("Wrong version - Socket: " ++ s.versionText ++ "; Plugin: " ++ version.shown))
  Outcome.lift (s.checkFunctions p)
  return s.hold name p

/-- a plugin put into the socket -/
def plug (s : Socket) (name : String) : Plugging Socket := do
  if !s.accepts then throw (.wrongKind "'NoneType' object is not callable")
  if s.dummy then return s
  let name := Text.withoutEnd ".py" name
  s.receive name (← s.fetch name)

def unplug (s : Socket) : Socket := { s with accepts := false }

/-- can a plugin be put into the socket; a socket without a plugin counts as plugged -/
def isPlugged (s : Socket) : Bool := s.accepts

/-- the plugin in the socket -/
def call (s : Socket) : Outcome Plugin :=
  if s.dummy then throw .dummySocket
  else match s.plugin with
    | some p => return p
    | none => throw (.plugin (.noPlugin s.name))

/-- the functions of a template; kinds of errors are not needed of a plugin -/
def functionsOf (p : Plugin) : Outcome (List (String × Signature)) :=
  (p.callables.filter fun n => !Text.endsWith "Error" n).mapM fun n =>
    match p.callable? n with
    | some (.function f) => return (n, f.signature)
    | _ => throw (noSignature n)

/-- the socket with the functions of a template in its folder -/
def readTemplate (s : Socket) (template : String) : Plugging Socket := do
  let template := Text.withoutEnd ".py" template
  let absent : Fault := .fileMissing (template ++ ".py doesn't exist in " ++ s.folderName)
  let some fs := (← get).folders.lookup s.folderName | throw absent
  if (fs.lookup (template ++ ".py")).isNone then throw absent
  let s := { s with template := some template }
  let p ← s.load template
  Outcome.lift (s.checkVersion p ("Version of " ++ p.name ++ " not compatible with " ++ s.name))
  let some meant := p.socket | throw (p.lacks "SOCKET")
  Outcome.lift (s.checkName p (p.name ++ " can be a socket of " ++ meant.shown ++ ", not " ++ s.name))
  return { s with functions := ← Outcome.lift (functionsOf p) }

/-- what a socket takes the functions from that it needs -/
inductive Need where
  | template (file : String)
  | functions (fs : List (String × Signature))
deriving DecidableEq, Repr

/-- a new socket; its folder is made if there is none -/
def make (name : String) (place : PluginFolder) (version : String) (need : Need) (plugged : String)
    (dummy : Bool) : Plugging Socket := do
  match place with
  | .nowhere => pure ()
  | .relative => throw (.broken .relativePath)
  | .folder path =>
    if ((← get).folders.lookup path).isNone then modify fun h => { h with folders := h.folders ++ [(path, [])] }
  let version ← Outcome.lift (readVersion version)
  if version.length ≠ 3 then throw (.broken .versionFormat)
  let bare : Socket := { name, place, version, dummy }
  let s ← match need with
    | .functions fs => pure { bare with functions := fs }
    | .template file => bare.readTemplate file
  if plugged.isEmpty then return s else s.plug plugged

/-- a new plugin made from the template -/
def generate (s : Socket) (plugin : String) : Plugging Unit := do
  let plugin := Text.withoutEnd ".py" plugin
  let some template := s.template
    | throw (.fileMissing ("There is no template available for " ++ s.name ++ "'s plugins"))
  if plugin = template then throw (.fileExists (plugin ++ " already exists in " ++ s.name ++ "'s directory"))
  let fs ← s.files
  let missing (file : String) : Fault :=
    .fileMissing ("[Errno 2] No such file or directory: " ++ Text.quoted (s.folderName ++ "/" ++ file))
  let some p := fs.lookup (template ++ ".py") | throw (missing (template ++ ".py"))
  let parent := Text.folder plugin
  if !parent.isEmpty && !fs.any fun f => Text.startsWith (parent ++ "/") f.1 then throw (missing (plugin ++ ".py"))
  modify fun h => { h with folders := put s.folderName (put (plugin ++ ".py") p.copied fs) h.folders }

end Socket

end TableauTutor
