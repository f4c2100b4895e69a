import TableauTutor.Command.Table
import TableauTutor.Session.Proving

/-!
What is shown while a command is typed: the current branch beside it, and ways to complete it.
-/

namespace TableauTutor

namespace Prompt

/-- signs that would be read as markup written out -/
def escape (s : String) : String :=
  Text.replace ">" "&gt;" (Text.replace "<" "&lt;" (Text.replace "&" "&amp;" s))

/-- how many digits a number has beyond the first -/
def extraDigits (n : Nat) : Nat := (Nat.toDigits 10 n).length - 1

/-- as many blanks as a difference leaves, if any -/
def blanks (n : Int) : String := Text.repeated n.toNat " "

/-- numbered lines of the same width, and a text below them -/
def block (lines : List String) (closing : Option String) : List String :=
  let width : Int := ((lines.map String.length).max?).getD 0 + 1
  let numbered := lines.zipIdx.map fun (line, i) =>
    toString (i + 1) ++ ". " ++ line ++ blanks (width - line.length - extraDigits (i + 1))
  match closing with
  | none => numbered
  | some text =>
    if text.isEmpty then numbered
    else numbered ++ [text ++ blanks (width - text.length + extraDigits lines.length + 3)]

/-- what stands beside the prompt before there is a proof -/
def vacant : List Datum := ["Miejsce", "na", "twój", "dowód"].map .text

/-- the current branch in its colour -/
def beside (s : Session) : Outcome String := do
  let ((shown, closing), colour) ← match s.proof with
    | some p => do pure (← s.branchTexts, Colour.ofBranch p.branch)
    | none => pure ((vacant, none), Colour.black)
  let lines ← shown.mapM fun
    | .text t => pure t
    | _ => throw (.wrongKind "the output shows nothing")
  let ink := if colour.brightText then "#FFFFFF" else "#000000"
  return "\n<style fg=\"" ++ ink ++ "\" bg=\"" ++ colour.rgb ++ "\"> " ++
    escape (Text.join " \n " (block lines closing)) ++ " </style>"

def isPlainWord (c : Char) : Bool := c.isAlphanum || c == '_'

/-- the last run of word characters, or of others that are no blanks; nothing behind a blank -/
def lastWord (text : String) : String :=
  let cs := text.toList.reverse
  match cs with
  | [] => ""
  | c :: _ =>
    String.ofList (cs.takeWhile fun d => !Text.isBlank d && isPlainWord d == isPlainWord c).reverse

/-- ways to complete a typed text: what to put, and how far back it starts -/
def completions (s : Session) (text : String) : List (String × Int) :=
  let last := lastWord text
  let back (word : String) : String × Int := (word, -(last.length : Int))
  if !Command.names.any fun n => Text.startsWith n text then
    (Command.names.filter (Text.startsWith text)).map fun n => (n, -(text.length : Int))
  else if text = "jump " then
    match s.branches with
    | .ok names => (["<", ">"] ++ names).map back
    | .error _ => []
  else if Text.startsWith "use " text then
    match s.rules with
    | .ok rules => ((rules.map (·.name)).filter (Text.startsWith last)).map back
    | .error _ => []
  else []

end Prompt

end TableauTutor
