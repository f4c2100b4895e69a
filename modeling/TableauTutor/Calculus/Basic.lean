import TableauTutor.History
import TableauTutor.Rule.Basic
import TableauTutor.Rule.Decomposition
import TableauTutor.Sentence.SyntaxCheck

/-!
The two calculi of analytic tableaux. In the unsigned one a node holds a formula; in the signed one it holds a formula
with the sign T or F in front, F standing for a negation. Rules work on unsigned formulas; the signed calculus reads the
sign as a negation before a rule is used and puts signs in front of what comes out. How that negation is spelled is up
to the speller, and may be another way for each sentence; the sign put in front takes its place again.
-/

namespace TableauTutor

inductive Calculus where
  | unsigned
  | signed
deriving DecidableEq, Repr

/-- how a rule takes a sentence apart -/
inductive Method where
  | doubleNegation
  | decomposition (d : Decomposition)
deriving DecidableEq, Repr

namespace Calculus

/-- languages that the lexer has to know -/
def tags : Calculus → List String
  | unsigned => ["propositional", "uses negation"]
  | signed => ["propositional", "uses negation", "signed"]

/-- the lexer of the program's lexicon for the calculus -/
def lexer? (c : Calculus) (speller : Speller) : Option Lexer :=
  (Lexer.build? .classic { languages := c.tags }).map ({ · with speller })

def precedence (_ : Calculus) : List (String × Int) := Connectives.propositional.precedence

/-- the mistake in a statement that is to be proved, if there is one; signs are not for the person to write -/
def checkSyntax (c : Calculus) (s : Sentence) : Outcome (Option Mistake) :=
  if c = signed ∧ s.kinds.any (Text.startsWith "sign") then
    return some ⟨"no sign symbols", "Program samodzielnie sygnuje formuły, znaki te są zarezerwowane", .none⟩
  else s.checkSyntax

/-- is the symbol a negation -/
def isNegation (y : Symbol) : Bool := Text.startsWith "not_" y

def emptySentence : Fault := .outOfRange "the sentence is empty"
def missingSide : Fault := .missingPart "a side is missing"

/-- the sign in front of a sentence read as a negation, or as nothing -/
def unsign (x : Lexer) (s : Sentence) : Outcome Sentence :=
  match s with
  | [] => throw emptySentence
  | y :: rest =>
    if Text.startsWith "signtrue" y then return rest
    else if Text.startsWith "signfalse" y then Sentence.addPrefix x "not" none rest
    else return s

/-- a negation in front of a sentence turned into the sign F; any other sentence gets the sign T -/
def sign (x : Lexer) (s : Sentence) : Outcome Sentence := do
  match ← s.parts with
  | none => return (← s.generate x "signtrue") :: (← s.reduce)
  | some k =>
    if isNegation k.connective then
      let y ← s.generate x "signfalse"
      match k.right with
      | none => throw missingSide
      | some t => return y :: (← t.reduce)
    else return (← s.generate x "signtrue") :: (← s.reduce)

/-- a sentence of a node as rules read it -/
def toPlain (c : Calculus) (x : Lexer) (s : Sentence) : Outcome Sentence :=
  match c with
  | unsigned => return s
  | signed => unsign x s

/-- a sentence as a node holds it -/
def toNode (c : Calculus) (x : Lexer) (s : Sentence) : Outcome Sentence :=
  match c with
  | unsigned => return s
  | signed => sign x s

/-- what a proof of a statement starts from: its negation -/
def prepare (c : Calculus) (x : Lexer) (s : Sentence) : Outcome Sentence := c.toNode x s.negate

/-- name, symbolic form without signs, symbolic form with signs, and what the rule takes apart -/
def ruleTable : List (String × String × String × String) :=
  [("double not", "~~A / A", "F~A / TA", "Usuwanie podwójnej negacji. Wymaga wskazania zdania w gałęzi."),
   ("true and", "A and B / A; B", "T(A and B) / TA; TB",
    "Rozkładanie prawdziwej koniunkcji. Wymaga wskazania zdania w gałęzi oraz rozkładanego spójnika."),
   ("false or", "~(A or B) / ~A; ~B", "F(A or B) / FA; FB",
    "Rozkładanie fałszywej alternatywy. Wymaga wskazania zdania w gałęzi oraz rozkładanego spójnika."),
   ("false imp", "~(A -> B) / A; ~B", "F(A -> B) / TA; FB",
    "Rozkładanie fałszywej implikacji. Wymaga wskazania zdania w gałęzi oraz rozkładanego spójnika."),
   ("true or", "(A or B) / A | B", "T(A or B) / TA | TB",
    "Rozkładanie prawdziwej alternatywy. Wymaga wskazania zdania w gałęzi oraz rozkładanego spójnika."),
   ("false and", "~(A and B) / ~A | ~B", "F(A and B) / FA | FB",
    "Rozkładanie fałszywej koniunkcji. Wymaga wskazania zdania w gałęzi oraz rozkładanego spójnika."),
   ("true imp", "(A -> B) / ~A | B", "T(A -> B) / FA | TB",
    "Rozkładanie prawdziwej implikacji. Wymaga wskazania zdania w gałęzi oraz rozkładanego spójnika.")]

/-- names of the rules, in the order in which the solver tries them -/
def ruleNames : List String := ruleTable.map (·.1)

/-- what a rule asks for: removing a double negation needs no token -/
def parametersOf (name : String) : List Parameter :=
  if name = "double not" then [.branch, .item .sentence] else [.branch, .item .sentence, .item .token]

def rules (c : Calculus) : List Rule :=
  ruleTable.map fun (name, plain, signs, docs) =>
    ({ name, symbolic := if c = unsigned then plain else signs, docs } : Rule).withParameters (parametersOf name)

def rule? (c : Calculus) (name : String) : Option Rule := c.rules.find? (·.name == name)

def method? (name : String) : Option Method :=
  if name = "double not" then some .doubleNegation
  else if ruleNames.contains name then (Decomposition.named? name).map .decomposition
  else none

/-- a double negation removed; none when there is no such negation -/
def undouble (s : Sentence) : Outcome (Option Sentence) := do
  match ← s.peel "not" with
  | none => return none
  | some t => t.peel "not"

/-- a method used at the main connective of an unsigned sentence -/
def Method.strict (m : Method) (s : Sentence) : Outcome (Option (List (List Sentence))) :=
  match m with
  | .doubleNegation => do return (← undouble s).map fun t => [[t]]
  | .decomposition d => d.strict s

/-- a method used at the main connective of a sentence of a node -/
def strict (c : Calculus) (x : Lexer) (m : Method) (s : Sentence) : Outcome (Option (List (List Sentence))) := do
  match ← Method.strict m (← c.toPlain x s) with
  | none => return none
  | some branches => return some (← branches.mapM fun b => b.mapM (c.toNode x))

/-- branches that a rule adds below a leaf; a place is empty where nothing stood on a side of the chosen symbol -/
abbrev Growth := List (List (Option Sentence))

/-- signs put in front of all sentences; none when one of them is missing -/
def signGrowth (x : Lexer) (g : Growth) : Outcome (Option Growth) := do
  let made ← g.mapM fun b => b.mapM fun
    | none => return none
    | some s => some <$> sign x s
  return if made.any fun b => b.any (·.isNone) then none else some made

/-- how far a position in a signed sentence is from the same position in the sentence with a negation in its place -/
def signShift (s : Sentence) : Outcome Int :=
  match s with
  | [] => throw emptySentence
  | y :: rest =>
    return if Text.startsWith "signfalse_" y then if rest.isEmpty then 0 else 1 else -1

/-- a decomposition used on a sentence of a branch, at the symbol that a person chose -/
def decompose (c : Calculus) (x : Lexer) (d : Decomposition) (branch : List Sentence) (sentenceID tokenID : Int) :
    Outcome (Option Growth) :=
  match c with
  | unsigned => some <$> d.naive branch sentenceID tokenID
  | signed => do
    let some s := pick? branch sentenceID | throw emptySentence
    let shift ← signShift s
    let plain ← branch.mapM (unsign x)
    signGrowth x (← d.naive plain sentenceID (tokenID + shift))

def cannotPerform : Mistake := ⟨"cannot perform", "This rule cannot be performed", .none⟩

/-- a double negation removed from a sentence of a branch -/
def removeDoubleNegation (c : Calculus) (x : Lexer) (branch : List Sentence) (sentenceID : Int) : Outcome Growth := do
  let some s := pick? branch sentenceID | throw emptySentence
  match ← undouble (← c.toPlain x s) with
  | none => throw (.mistake cannotPerform)
  | some t => return [[some (← c.toNode x t)]]

def argumentCount : Fault := .wrongKind "wrong number of arguments"

/-- a method used with the numbers that a person gave: the sentence, and for a decomposition the token too -/
def naive (c : Calculus) (x : Lexer) (m : Method) (branch : List Sentence) (numbers : List Int) :
    Outcome (Option Growth) :=
  match m, numbers with
  | .doubleNegation, [i] => some <$> c.removeDoubleNegation x branch i
  | .decomposition d, [i, j] => c.decompose x d branch i j
  | _, _ => throw argumentCount

/-- the rule that takes an unsigned sentence apart, named by the main connective and whether it is negated -/
def ruleForPlain (s : Sentence) : Outcome (Option String) := do
  match ← s.parts with
  | none => return none
  | some k =>
    if isNegation k.connective then
      match k.right with
      | none => throw (.missingPart "the argument is missing")
      | some t =>
        match ← t.parts with
        | none => return none
        | some l => return some (if isNegation l.connective then "double not" else "false " ++ l.connective.kind)
    else return some ("true " ++ k.connective.kind)

/-- the rule that takes a sentence of a node apart -/
def ruleFor (c : Calculus) (x : Lexer) (s : Sentence) : Outcome (Option String) := do
  ruleForPlain (← c.toPlain x s)

end Calculus

end TableauTutor
