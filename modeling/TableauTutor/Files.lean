import TableauTutor.Datum
import TableauTutor.Fault

/-!
Files and folders of the program, as a value. A path is written with slashes and read component by component, from the
working folder on; every component that is passed on the way has to be a folder.
-/

namespace TableauTutor

/-- where a file or a folder is: the names on the way from the working folder -/
abbrev Location := List String

/-- what the working folder holds; the working folder itself is not listed -/
structure Files where
  folders : List Location := []
  files : List (Location × Datum) := []
deriving Repr, Inhabited

namespace Files

def components (path : String) : List String := Text.splitAt '/' path

def pathOf (l : Location) : String := Text.join "/" l

def holdsFolder (w : Files) (l : Location) : Bool := l.isEmpty || w.folders.contains l

def holdsFile (w : Files) (l : Location) : Bool := (w.files.lookup l).isSome

def missing (path : String) : Fault := .fileMissing ("[Errno 2] No such file or directory: " ++ Text.quoted path)

/-- where components lead from a location: a dot stays, two dots go up -/
def follow (w : Files) (path : String) : Location → List String → Outcome Location
  | here, [] => return here
  | here, c :: cs =>
    if w.holdsFolder here then
      if c = "" ∨ c = "." then follow w path here cs
      else if c = ".." then follow w path here.dropLast cs
      else follow w path (here ++ [c]) cs
    else if w.holdsFile here then throw (.notFolder ("[Errno 20] Not a directory: " ++ Text.quoted path))
    else throw (missing path)

/-- where a path leads -/
def locate (w : Files) (path : String) : Outcome Location := follow w path [] (components path)

def isFolder (w : Files) (path : String) : Bool :=
  match w.locate path with
  | .ok l => w.holdsFolder l
  | .error _ => false

def isFile (w : Files) (path : String) : Bool :=
  match w.locate path with
  | .ok l => w.holdsFile l
  | .error _ => false

def exist (w : Files) (path : String) : Bool := w.isFile path || w.isFolder path

/-- what a file holds -/
def read (w : Files) (path : String) : Outcome Datum := do
  let l ← w.locate path
  match w.files.lookup l with
  | some d => return d
  | none =>
    if w.holdsFolder l then throw (.isFolder ("[Errno 21] Is a directory: " ++ Text.quoted path))
    else throw (missing path)

/-- a file written anew -/
def write (w : Files) (path : String) (content : Datum) : Outcome Files := do
  let l ← w.locate path
  if w.holdsFolder l then throw (.isFolder ("[Errno 21] Is a directory: " ++ Text.quoted path))
  return { w with files := put l content w.files }

def remove (w : Files) (path : String) : Outcome Files := do
  let l ← w.locate path
  return { w with files := w.files.filter (·.1 != l) }

/-- a folder made in a folder that exists -/
def makeFolder (w : Files) (path : String) : Outcome Files := do
  let l ← w.locate path
  if w.holdsFolder l || w.holdsFile l then throw (.fileExists ("[Errno 17] File exists: " ++ Text.quoted path))
  return { w with folders := w.folders ++ [l] }

/-- a folder made together with the folders on the way to it, for at most `fuel` of them; what was made before a failure
stays made -/
def prepareFrom : Nat → String → Files → Files × Outcome Unit
  | 0, _, w => (w, .ok ())
  | fuel + 1, path, w =>
    if w.isFolder path then (w, .ok ())
    else match prepareFrom fuel (Text.folder path) w with
      | (w, .error e) => (w, .error e)
      | (w, .ok ()) =>
        match w.makeFolder path with
        | .error e => (w, .error e)
        | .ok w => (w, .ok ())

def prepare (w : Files) (path : String) : Files × Outcome Unit := prepareFrom (path.length + 1) path w

/-- names in a folder, sorted -/
def list (w : Files) (path : String) : Outcome (List String) := do
  let l ← w.locate path
  if !w.holdsFolder l then throw (missing path)
  let names := (w.folders ++ w.files.map (·.1)).filterMap fun k =>
    if k.dropLast = l ∧ k ≠ [] then k.getLast? else none
  return names.mergeSort fun a b => a ≤ b

/-- files and folders with all folders on the way to them -/
def ofPaths (folders : List String) (files : List (String × Datum)) : Files :=
  let placed := files.map fun (p, d) => (components p, d)
  let above := (folders.map components ++ placed.map (·.1.dropLast)).flatMap fun l =>
    (List.range (l.length + 1)).map fun n => l.take n
  { folders := (above.filter (· != [])).eraseDups, files := placed }

end Files

end TableauTutor
