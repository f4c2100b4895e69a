import TableauTutor.Datum
import TableauTutor.Position

/-!
Closings: the stamp put on a branch of a proof that needs no more work. It says whether the branch counts as a success,
and what is shown beneath it; a template lets the shown text name the sentences that closed the branch.
-/

namespace TableauTutor

/-- why a template has no filled form -/
inductive TemplateError where
  /-- there is no template -/
  | noTemplate
  /-- a name without a value -/
  | noValue (name : String)
  /-- a dollar sign that starts nothing -/
  | badPlaceholder
deriving DecidableEq, Repr

def TemplateError.message : TemplateError → String
  | noTemplate => "Nie możesz użyć wzorca, jeżeli nie został on podany"
  | noValue name => "'" ++ name ++ "'"
  | badPlaceholder => "Invalid placeholder in string"

namespace Template

def startsName (c : Char) : Bool := c.isAlpha || c == '_'
def continuesName (c : Char) : Bool := c.isAlphanum || c == '_'

/-- a name at the front, and what follows it -/
def name? : List Char → Option (List Char × List Char)
  | [] => none
  | c :: cs => if startsName c then some (c :: cs.takeWhile continuesName, cs.dropWhile continuesName) else none

/-- what a dollar sign stands for, given the characters after it, and what follows -/
def placeholder (values : List (String × String)) (cs : List Char) : Except TemplateError (List Char × List Char) :=
  let value (name rest : List Char) :=
    match values.lookup (String.ofList name) with
    | some v => .ok (v.toList, rest)
    | none => .error (.noValue (String.ofList name))
  match cs with
  | '$' :: rest => .ok (['$'], rest)
  | '\x7b' :: inner =>
    match name? inner with
    | some (name, '\x7d' :: rest) => value name rest
    | _ => .error .badPlaceholder
  | _ =>
    match name? cs with
    | some (name, rest) => value name rest
    | none => .error .badPlaceholder

/-- the template with its placeholders filled, read for at most `fuel` characters -/
def fillFrom (values : List (String × String)) : Nat → List Char → Except TemplateError (List Char)
  | 0, _ => .ok []
  | _, [] => .ok []
  | fuel + 1, c :: cs =>
    if c == '$' then do
      let (here, rest) ← placeholder values cs
      return here ++ (← fillFrom values fuel rest)
    else do
      return c :: (← fillFrom values fuel cs)

/-- placeholders are a dollar sign with a name or with a name in braces; two dollar signs stand for one -/
def fill (values : List (String × String)) (template : String) : Except TemplateError String :=
  (fillFrom values template.toList.length template.toList).map String.ofList

end Template

/-- a stamp whose verdict has type φ -/
structure Stamp (φ : Type) where
  success : φ
  text : String
  template : Option String := none
deriving DecidableEq, Repr

/-- the stamp of a closed branch -/
abbrev Closing := Stamp Bool

/-- the stamp with its template filled in -/
def Stamp.fill {φ : Type} (s : Stamp φ) (values : List (String × String)) : Except TemplateError (Stamp φ) :=
  match s.template with
  | none => .error .noTemplate
  | some t => do return { success := s.success, text := ← Template.fill values t }

namespace Closing

/-- nothing is left to do -/
def emptiness : Closing := { success := false, text := "---" }

/-- a sentence and its negation -/
def contradiction : Closing :=
  { success := true, text := "XXX", template := some "XXX ($sentenceID1, $sentenceID2)" }

/-- stopped to avoid going in circles -/
def loop : Closing := { success := false, text := "..." }

def axiomatic : Closing := { success := true, text := "Ax" }

def falsum : Closing := { success := true, text := "Falsum" }

/-- verdict and text, as they are saved -/
def toDatum (c : Closing) : Datum := .record [("success", .flag c.success), ("text", .text c.text)]

/-- the contradiction between the sentences with the given numbers -/
def contradictionOf (first second : Nat) : Closing :=
  { success := true, text := "XXX (" ++ toString first ++ ", " ++ toString second ++ ")" }

end Closing

end TableauTutor
