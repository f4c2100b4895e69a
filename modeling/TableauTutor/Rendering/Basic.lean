import TableauTutor.Sentence.Basic

/-!
Styles in which sentences are shown: as they were typed, with their kinds, or as TeX.
-/

namespace TableauTutor

/-- a way of showing sentences and proofs -/
inductive Style where
  /-- lexems, and the proof as a tree that grows to the right -/
  | plain
  /-- symbols with their kinds, and the proof as such a tree -/
  | typed
  /-- TeX for a forest -/
  | forest
  /-- TeX for inferences -/
  | inference
deriving DecidableEq, Repr

namespace Style

/-- TeX commands by kind -/
def texCommands : List (String × String) :=
  [("falsum", "\\bot"), ("turnstile", "\\Rightarrow"), ("imp", "\\rightarrow"), ("and", "\\land"), ("or", "\\lor"),
   ("sep", ","), ("^", "\\ast"), ("(", "("), (")", ")")]

/-- the TeX command of a symbol, or its lexem where it has none -/
def tex (commands : List (String × String)) (y : Symbol) : String := (commands.lookup y.kind).getD y.lexem

/-- one symbol -/
def symbol (style : Style) (y : Symbol) : String :=
  match style with
  | plain => y.lexem
  | typed => "<" ++ y ++ ">"
  | forest => tex (("not", "\\neg") :: texCommands) y
  | inference => tex texCommands y

/-- a lexem of more than one character has blanks around it -/
def spaced (lexem : String) : String := if 1 < lexem.length then " " ++ lexem ++ " " else lexem

/-- a sentence in one line -/
def sentence (style : Style) (s : Sentence) : String :=
  match style with
  | plain => Text.replace "  " " " (String.join (s.map fun y => spaced y.lexem))
  | typed => "<" ++ Text.join "> <" s ++ ">"
  | _ => Text.join " " (s.map style.symbol)

/-- does the style show sentences only, and no other lists of symbols -/
def isStrict : Style → Bool
  | plain => true
  | typed => true
  | _ => false

end Style

end TableauTutor
