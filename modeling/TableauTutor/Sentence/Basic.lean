import TableauTutor.Fault
import TableauTutor.Formula.Components

/-!
Sentences as proofs hold them: lists of symbols. A symbol is a bracket, or a kind and a lexem joined by an underscore. A
sentence is read as a formula over the connectives of propositional logic, with exact strengths.

The premises are these. No other text fixes what a sentence is: its operations are what rules, proofs, commands and
practice formulas ask of it, as they use it. A symbol has its kind before the first underscore and its lexem behind the
last one; strengths of connectives are compared as fractions, without rounding.
-/

namespace TableauTutor

/-- a bracket, or a kind and a lexem joined by an underscore -/
abbrev Symbol := String

namespace Symbol

def of (kind lexem : String) : Symbol := kind ++ "_" ++ lexem

/-- the text before the first underscore -/
def kind (s : Symbol) : String := String.ofList (s.toList.takeWhile (· != '_'))

/-- the text after the last underscore -/
def lexem (s : Symbol) : String := String.ofList ((s.toList.reverse.takeWhile (· != '_')).reverse)

/-- the symbol of a token -/
def ofToken (t : Token) : Symbol := if t.isLiteral then t.lexem else of t.kind t.lexem

/-- the token that stands for the symbol in a formula; its lexem is the whole symbol -/
def toToken (s : Symbol) : Token := if s = "(" ∨ s = ")" then Token.literal s else ⟨s.kind, s, false⟩

end Symbol

/-- a list of symbols -/
abbrev Sentence := List Symbol

namespace Sentence

def ofTokens (ts : List Token) : Sentence := ts.map Symbol.ofToken

def toFormula (s : Sentence) : Formula Rat := { tokens := s.map Symbol.toToken }

def ofFormula (f : Formula Rat) : Sentence := f.lexems

def kinds (s : Sentence) : List String := s.map Symbol.kind

/-- position of the main connective -/
def mainConnective (s : Sentence) : Outcome (Option Int) :=
  .ofFormula (s.toFormula.mainConnective .propositional)

/-- no connective at all, or a single one in front -/
def isLiteral (s : Sentence) : Outcome Bool := .ofFormula (s.toFormula.isLiteral .propositional)

/-- enclosing brackets dropped, brackets without a partner given one -/
def reduce (s : Sentence) : Outcome Sentence := .ofFormula (s.toFormula.reduceBrackets.map ofFormula)

/-- the parts on either side of a position -/
def splitAt (s : Sentence) (i : Int) : Outcome (Option Sentence × Option Sentence) :=
  .ofFormula ((s.toFormula.split i).map fun (l, r) => (l.map ofFormula, r.map ofFormula))

/-- a main connective with the parts on either side of it -/
structure Parts where
  connective : Symbol
  left : Option Sentence
  right : Option Sentence
deriving DecidableEq, Repr

/-- the main connective and the parts on either side of it; none without a connective -/
def parts (s : Sentence) : Outcome (Option Parts) :=
  .ofFormula ((s.toFormula.components .propositional).map fun k =>
    k.map fun k => ⟨k.connective.lexem, k.left.map ofFormula, k.right.map ofFormula⟩)

/-- make up a symbol of a kind to go with the sentence -/
def generate (x : Lexer) (s : Sentence) (kind : String) : Outcome Symbol :=
  .ofLexicon ((x.generate (s.map fun y => (y.kind, y.lexem)) kind).map fun (k, l) => Symbol.of k l)

/-- as many left brackets as right ones -/
def evenBrackets (s : Sentence) : Bool := s.count "(" == s.count ")"

/-- a kind that has a binding strength can stand in front of a sentence in brackets -/
def strengthOf (kind : String) : Outcome Rat := .ofFormula (Formula.strength .propositional kind 0)

/-- the sentence with a symbol in front, in brackets unless it is a single symbol -/
def behind (symbol : Symbol) (s : Sentence) : Sentence :=
  if s.length = 1 then symbol :: s else symbol :: "(" :: s ++ [")"]

def negate (s : Sentence) : Sentence := s.behind (Symbol.of "not" "~")

/-- the sentence with a symbol of a kind in front; the lexem is made up when none is given -/
def addPrefix (x : Lexer) (kind : String) (lexem : Option String) (s : Sentence) : Outcome Sentence := do
  let symbol ← match lexem with
    | some l => if l.isEmpty then generate x s kind else pure (Symbol.of kind l)
    | none => generate x s kind
  if s.length ≠ 1 then
    let _ ← strengthOf kind
  return s.behind symbol

/-- the argument of a leading connective whose symbol starts with the given text -/
def argument (start : String) (s : Sentence) : Outcome (Option Sentence) := do
  if s.length ≤ 1 then return none
  match ← s.parts with
  | none => return none
  | some k => return if Text.startsWith start k.connective then k.right else none

/-- a part with its brackets reduced; none stays none -/
def reducePart : Option Sentence → Outcome (Option Sentence)
  | none => return none
  | some s => some <$> s.reduce

/-- the argument with its brackets reduced once more; a lone bracket is no argument -/
def withoutPrefix (start : String) (s : Sentence) : Outcome (Option Sentence) := do
  match ← s.argument start with
  | none => return none
  | some t =>
    let r ← t.reduce
    if r.isEmpty || r.evenBrackets then return some r else throw (.broken .unnamed)

/-- the argument of a leading connective, brackets reduced -/
def peel (start : String) (s : Sentence) : Outcome (Option Sentence) := do
  reducePart (← s.argument start)

/-- both sides of the main connective when it is of the given kind -/
def sides (kind : String) (s : Sentence) : Outcome (Option (Option Sentence × Option Sentence)) := do
  if s.length ≤ 1 then return none
  match ← s.parts with
  | none => return none
  | some k => return if k.connective.kind == kind then some (k.left, k.right) else none

/-- both sides of the main connective, present and reduced, when it is of the given kind -/
def around (kind : String) (s : Sentence) : Outcome (Option (Sentence × Sentence)) := do
  match ← s.sides kind with
  | none => return none
  | some (left, right) =>
    match ← reducePart left, ← reducePart right with
    | some l, some r => return some (l, r)
    | _, _ => return none

end Sentence

end TableauTutor
