import TableauTutor.Files

/-!
Getting plugins and setups from outside. What is done is told line by line; a list of the files to be had is known, but
the program has no leave to fetch a file, so only what is here already can be got.
-/

namespace TableauTutor

/-- lines told while something is done, and how it ended -/
structure Report where
  lines : List String
  ended : Outcome Unit := .ok ()

namespace Report

def say (line : String) : Report := ⟨[line], .ok ()⟩

def nothing : Report := ⟨[], .ok ()⟩

def fail (f : Fault) : Report := ⟨[], .error f⟩

/-- one after the other; what follows a failure is not done -/
def andThen (first second : Report) : Report :=
  match first.ended with
  | .ok () => ⟨first.lines ++ second.lines, second.ended⟩
  | .error f => ⟨first.lines, .error f⟩

instance : Append Report := ⟨andThen⟩

def all (rs : List Report) : Report := rs.foldr andThen nothing

def indent (r : Report) : Report := { r with lines := r.lines.map ("\t" ++ ·) }

end Report

/-- seconds between two tries -/
def pause : Nat := 5

/-- an action tried until it has no complaint, with a pause after each complaint; the seventh complaint ends it. The
complaints come one after another, and none when they have run out -/
def retry (tries : Nat) : List Datum → Report × List Nat
  | [] => (if 0 < tries then .say "It was successful" else .nothing, [])
  | d :: ds =>
    if d.isVoid then (if 0 < tries then .say "It was successful" else .nothing, [])
    else if 6 < tries + 1 then (.fail (.fetch .notFetched), [])
    else
      let (r, pauses) := retry (tries + 1) ds
      (.say (d.shown ++ ", retrying in " ++ toString pause ++ " seconds (retried " ++ toString (tries + 1) ++
        " time(s))") ++ r, pause :: pauses)

/-- the files that can be had: those of each plugin by socket, and the one of each setup -/
structure Catalogue where
  plugins : List (String × List (String × List String)) := []
  setups : List (String × String) := []
deriving Repr, Inhabited

/-- a file from outside: the program has no leave to get it -/
def fetchFile (_ : String) : Report := .fail (.broken .unnamed)

/-- one of n files, unless it is here already; with `force` it is got in any case -/
def fetchOne (isHere : String → Bool) (force : Bool) (n : Nat) (file : String) (i : Nat) : Report :=
  .say ("(" ++ toString (i + 1) ++ "/" ++ toString n ++ ") Downloading " ++ file) ++
    if isHere file && !force then .say "\tThis file already exists" else (fetchFile file).indent

namespace Catalogue

/-- a list of files as it is published: a field for the plugins and one for the setups; a socket counts when its plugins
are listed by name -/
def ofDatum (plugins setups : Datum) : Catalogue :=
  { plugins := plugins.fields.filterMap fun
      | (socket, .record ps) => some (socket, ps.map fun (p, fs) => (p, (fs.parts?.getD []).map Datum.shown))
      | _ => none
    setups := setups.fields.map fun (name, file) => (name, file.shown) }

/-- the files of a plugin -/
def fetchPlugin (c : Catalogue) (isHere : String → Bool) (socket plugin : String) (force : Bool) : Report :=
  .say "Checking the required files" ++
    match c.plugins.lookup socket with
    | none => .fail (.fetch .noSuchSocket)
    | some plugins =>
      match plugins.lookup plugin with
      | none => .fail (.fetch .noSuchPlugin)
      | some files => .all (files.zipIdx.map fun (file, i) => fetchOne isHere force files.length file i)

/-- names of the setups that are here -/
def localSetups (w : Files) : Outcome (List String) := do
  return (← w.list "setups").map (Text.withoutEnd ".json")

def fetchSetup (c : Catalogue) (w : Files) (setup : String) (force : Bool) : Report :=
  match localSetups w with
  | .error f => .fail f
  | .ok here =>
    if here.contains setup && !force then .say "This setup exists locally"
    else .say "Checking if the setup exists" ++
      match c.setups.lookup setup with
      | none => .fail (.fetch .noSuchSetup)
      | some file => .say "\tSetup was found" ++ .say ("Downloading " ++ file) ++ (fetchFile file).indent

/-- the plugins that a setup names, by socket -/
def setupEntries (w : Files) (path : String) : Outcome (List (String × String)) := do
  match ← w.read path with
  | .record fs => return fs.map fun (k, d) => (k, d.shown)
  | _ => throw (.missingPart "the setup is no record")

/-- number of sockets that a setup is about -/
def socketAmount : Nat := 5

/-- a setup and the files of all plugins it names -/
def fetchSetupPlugins (c : Catalogue) (w : Files) (isHere : String → Bool) (setup : String) (force : Bool) : Report :=
  c.fetchSetup w setup force ++
    match localSetups w with
    | .error f => .fail f
    | .ok here =>
      let path := if here.contains setup then "setups/" ++ setup ++ ".json" else (c.setups.lookup setup).getD ""
      match setupEntries w path with
      | .error f => .fail f
      | .ok entries => .all (entries.zipIdx.map fun ((socket, plugin), i) =>
          .say ("(" ++ toString (i + 1) ++ "/" ++ toString socketAmount ++ ") Downloading " ++ plugin ++ " for the " ++
            socket ++ " socket") ++ (c.fetchPlugin isHere socket plugin force).indent)

end Catalogue

/-- the files without which the program does not start -/
def requiredFiles : List String :=
  ["setups/GUI.json",
   "plugins/Assistant/__template__.py", "plugins/Assistant/basic.py", "plugins/Assistant/pan/__init__.py",
   "plugins/Assistant/pan/articles/Baza wiedzy.html",
   "plugins/Formal/__template__.py", "plugins/Formal/__utils__.py",
   "plugins/Formal/analytic_freedom/__init__.py", "plugins/Formal/analytic_freedom/solver.py",
   "plugins/Formal/analytic_freedom/syntax_check.py",
   "plugins/Formal/analytic_signed/__init__.py", "plugins/Formal/analytic_signed/solver.py",
   "plugins/Formal/analytic_signed/signed.py",
   "plugins/Lexicon/__template__.py", "plugins/Lexicon/__utils__.py", "plugins/Lexicon/classic.py",
   "plugins/Output/__template__.py", "plugins/Output/__utils__.py", "plugins/Output/actual_tree.py",
   "plugins/Output/TeX_forest.py",
   "plugins/UserInterface/__template__.py", "plugins/UserInterface/__utils__.py", "plugins/UserInterface/CLI.py",
   "plugins/UserInterface/flask_local/app.py", "plugins/UserInterface/flask_local/libs.py",
   "plugins/UserInterface/flask_local/__init__.py", "plugins/UserInterface/flask_local/static/favicon.ico",
   "plugins/UserInterface/flask_local/static/larch.js", "plugins/UserInterface/flask_local/static/logo.png",
   "plugins/UserInterface/flask_local/static/normal_u95.png", "plugins/UserInterface/flask_local/static/szyszka.png",
   "plugins/UserInterface/flask_local/static/css/knowledge-base.css",
   "plugins/UserInterface/flask_local/static/css/larch-logo.png",
   "plugins/UserInterface/flask_local/static/css/larch.css", "plugins/UserInterface/flask_local/static/css/styles.css",
   "plugins/UserInterface/flask_local/templates/index.html",
   "plugins/UserInterface/flask_local/templates/knowledge-base.html",
   "plugins/UserInterface/flask_local/templates/larch.html"]

/-- every required file that is not here is fetched -/
def fetchRequired (isHere : String → Bool) : Report :=
  .all (requiredFiles.map fun file =>
    .say ("Downloading " ++ file) ++ if isHere file then .nothing else fetchFile file)

/-- the folder for the program's data below the one for the data of all programs -/
def dataFolder (version : String) : String := if version.isEmpty then "Larch" else "Larch/" ++ version

/-- the program's folder with what it needs in it -/
def prepareDataFolder (w : Files) (version : String) : Files × Outcome String :=
  ["plugins", "setups", "saved_proofs"].foldl (fun (w, r) name =>
    match r with
    | .error e => (w, .error e)
    | .ok folder =>
      match w.prepare (folder ++ "/" ++ name) with
      | (w, .error e) => (w, .error e)
      | (w, .ok ()) => (w, .ok folder)) (w, .ok (dataFolder version))

end TableauTutor
