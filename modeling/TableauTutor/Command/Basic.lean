import TableauTutor.Fault

/-!
Typed commands. A line holds commands between slashes; each starts with the name of a form, and what stands behind the
name is read as the form says. The first form whose name starts the command is taken, so a longer name has to come
before a shorter one that starts it.
-/

namespace TableauTutor.Command

/-- how one argument is read -/
inductive ArgumentType where
  | number
  | text
deriving DecidableEq, Repr

/-- how what stands behind the name is read -/
inductive Arguments where
  /-- as one text -/
  | rest
  /-- word by word -/
  | each (types : List ArgumentType)
deriving DecidableEq, Repr

/-- a form of commands; `verb` says what is to be done -/
structure Form (ν : Type) where
  verb : ν
  name : String
  arguments : Arguments
  docs : String
deriving Repr

inductive Argument where
  | number (n : Int)
  | text (s : String)
deriving DecidableEq, Repr

/-- what a command is given -/
inductive Given where
  /-- only its description is wanted -/
  | help (docs : String)
  | rest (text : String)
  | each (arguments : List Argument)
deriving DecidableEq, Repr

structure Call (ν : Type) where
  verb : ν
  given : Given
deriving Repr

/-- words that ask for the description of a command -/
def helpWords : List String := ["?", "--help", "help"]

def readArgument (type : ArgumentType) (word : String) : Outcome Argument :=
  match type with
  | .text => return .text word
  | .number =>
    match Text.readInt? word with
    | some n => return .number n
    | none => throw (.wrongKind "Wrong argument type")

/-- words read as arguments, one for each type -/
def readArguments (types : List ArgumentType) (words : List String) : Outcome (List Argument) :=
  if types.length < words.length then throw (.command .tooMany)
  else if words.length < types.length then throw (.command .moreNeeded)
  else (types.zip words).mapM fun (t, w) => readArgument t w

/-- one command -/
def parseOne {ν : Type} (forms : List (Form ν)) (text : String) : Outcome (Call ν) := do
  let command := Text.strip text
  let some f := forms.find? fun f => Text.startsWith f.name command | throw (.command .notFound)
  let behind := Text.drop f.name.length command
  let words := Text.words behind
  if words.any helpWords.contains then
    return ⟨f.verb, .help (if f.docs.isEmpty then "Help not found" else f.docs)⟩
  match f.arguments with
  | .rest =>
    let t := Text.strip behind
    if t.isEmpty then throw (.command .moreNeeded) else return ⟨f.verb, .rest t⟩
  | .each types => return ⟨f.verb, .each (← readArguments types words)⟩

/-- the commands of a line -/
def parse {ν : Type} (forms : List (Form ν)) (line : String) : Outcome (List (Call ν)) :=
  (Text.splitAt '/' line).mapM (parseOne forms)

end TableauTutor.Command
