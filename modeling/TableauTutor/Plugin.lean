import TableauTutor.Assistant.Basic
import TableauTutor.Calculus.Basic
import TableauTutor.Rendering.Basic

/-!
Plugins: what a file of a plugin folder declares, and the part of the program that it plays.
-/

namespace TableauTutor

/-- how a function is annotated; an empty text where there is no annotation -/
structure Signature where
  arguments : List String
  result : String
deriving DecidableEq, Repr

/-- a function with the name it was declared under -/
structure Declaration where
  own : String
  signature : Signature
deriving DecidableEq, Repr

/-- the part that a plugin plays; a blank one has functions that give nothing -/
inductive Role where
  | blank
  | calculus (c : Calculus)
  | lexicon
  | style (s : Style)
  | assistant (a : Assistant)
deriving DecidableEq, Repr

structure Plugin where
  /-- the file it was read from -/
  name : String := ""
  /-- the socket it is meant for -/
  socket : Option Datum := none
  version : Option Datum := none
  /-- names of constants -/
  constants : List String := []
  /-- functions by the names that they can be called by -/
  functions : List (String × Declaration) := []
  /-- names of kinds of errors -/
  errors : List String := []
  role : Role := .blank
  /-- a copy of the file declares neither socket nor version -/
  bareCopies : Bool := false
deriving Repr, Inhabited

namespace Plugin

/-- functions by name, each with a list of its arguments and its result -/
def functionsOfDatum (d : Datum) : List (String × Signature) :=
  d.fields.map fun (name, sig) =>
    match sig.items with
    | arguments :: result :: _ => (name, ⟨arguments.items.map Datum.shown, result.shown⟩)
    | _ => (name, ⟨[], ""⟩)

/-- functions that can be called by the names they were declared under -/
def declared (functions : List (String × Signature)) : List (String × Declaration) :=
  functions.map fun (own, signature) => (own, ⟨own, signature⟩)

/-- a plugin described by a manifest -/
def ofManifest (d : Datum) : Plugin :=
  let part (key : String) : Datum := (d.field? key).getD .none
  let functions := declared (functionsOfDatum (part "funcs"))
  { socket := d.field? "SOCKET", version := d.field? "VERSION", constants := (part "values").fields.map (·.1)
    functions := functions ++ (part "aliases").fields.filterMap fun (k, v) =>
      (functions.lookup v.shown).map fun f => (k, f)
    errors := (part "classes").items.map Datum.shown }

/-- something that can be called -/
inductive Callable where
  | function (f : Declaration)
  | error (name : String)
deriving DecidableEq, Repr

/-- names that every plugin has -/
def usualNames : List String :=
  ["__builtins__", "__cached__", "__doc__", "__file__", "__loader__", "__name__", "__package__", "__spec__"]

/-- all names that a plugin knows -/
def names (p : Plugin) : List String :=
  usualNames ++ (if p.socket.isSome then ["SOCKET"] else []) ++ (if p.version.isSome then ["VERSION"] else []) ++
    p.constants ++ p.functions.map (·.1) ++ p.errors

def callable? (p : Plugin) (name : String) : Option Callable :=
  match p.functions.lookup name with
  | some f => some (.function f)
  | none => if p.errors.contains name then some (.error name) else none

/-- names of what can be called, sorted -/
def callables (p : Plugin) : List String :=
  sortBy (fun a b => a ≤ b) (p.names.filter fun n => (p.callable? n).isSome).eraseDups

/-- what a copy of the file declares -/
def copied (p : Plugin) : Plugin :=
  if p.bareCopies then { p with socket := none, version := none, bareCopies := false } else p

/-- a name was asked for that the plugin does not declare -/
def lacks (p : Plugin) (part : String) : Fault :=
  .missingPart ("module '" ++ p.name ++ "' has no attribute '" ++ part ++ "'")

end Plugin

end TableauTutor
