import TableauTutor.Sentence.Structure

/-!
Decomposition of a sentence at a connective, in uniform notation: whether the sentence stands as it is or negated,
whether each of the two sides is kept or negated, and whether the sides go on one branch or on two.
-/

namespace TableauTutor

/-- how a sentence with a given main connective falls apart -/
structure Decomposition where
  /-- kind of the connective -/
  main : String
  /-- is the first side kept as it is -/
  first : Bool
  /-- is the second side kept as it is -/
  second : Bool
  /-- is the sentence itself not negated -/
  whole : Bool
  /-- does each side get a branch of its own -/
  branching : Bool
deriving DecidableEq, Repr

namespace Decomposition

/-- first side, second side, whole: what goes on one branch -/
def conjunctive : List (String × Bool × Bool × Bool) :=
  [("true and", true, true, true), ("false or", false, false, false), ("false imp", true, false, false),
   ("false revimp", false, true, false), ("false nand", true, true, false), ("true nor", false, false, true)]

/-- first side, second side, whole: what goes on two branches -/
def disjunctive : List (String × Bool × Bool × Bool) :=
  [("false and", false, false, false), ("true or", true, true, true), ("true imp", false, true, true),
   ("false revimp", true, false, false), ("true nand", false, false, true), ("false nor", true, true, false)]

/-- the decomposition with a name, such as "false imp" -/
def named? (name : String) : Option Decomposition :=
  let main := ((Text.splitAt ' ' name)[1]?).getD ""
  match disjunctive.lookup name, conjunctive.lookup name with
  | some (first, second, whole), _ => some ⟨main, first, second, whole, true⟩
  | none, some (first, second, whole) => some ⟨main, first, second, whole, false⟩
  | none, none => none

/-- a side kept or negated -/
def side (keep : Bool) (s : Sentence) : Sentence := if keep then s else s.negate

/-- two sides on their branches -/
def arrange {α : Type} (d : Decomposition) (a b : α) : List (List α) := if d.branching then [[a], [b]] else [[a, b]]

/-- the sentence without its negation, where the decomposition is of a negated one -/
def core (d : Decomposition) (s : Sentence) : Outcome (Option Sentence) :=
  if d.whole then return some s else s.withoutPrefix "not"

/-- the branches that a sentence falls into at its main connective; none when that is another one -/
def strict (d : Decomposition) (s : Sentence) : Outcome (Option (List (List Sentence))) := do
  match ← d.core s with
  | none => return none
  | some t =>
    match ← t.around d.main with
    | none => return none
    | some (l, r) => return some (d.arrange (side d.first l) (side d.second r))

/-- the sentence at a position of a branch -/
def sentenceAt (branch : List Sentence) (i : Int) : Outcome Sentence :=
  if i < 0 then throw (.rule .noSuchSentence)
  else match branch[i.toNat]? with
    | some s => return s
    | none => throw (.rule .noSuchSentence)

/-- refuses a position at which a sentence cannot be divided -/
def checkToken (s : Sentence) (i : Int) : Outcome Unit :=
  if i < 0 then throw (.rule .noSuchToken)
  else match s[i.toNat]? with
    | none => throw (.rule .noSuchToken)
    | some y =>
      if Text.startsWith "sentvar" y then throw (.rule .atVariable)
      else if Text.startsWith "not" y then throw (.rule .atNegation)
      else if Text.contains y "()" then throw (.rule .atBracket)
      else return ()

/-- the branches that a sentence of a branch falls into at the symbol that a person chose, whatever it is. Positions are
counted in the sentence as it stands; a negation in front and the bracket after it are passed over -/
def naive (d : Decomposition) (branch : List Sentence) (sentenceID tokenID : Int) :
    Outcome (List (List (Option Sentence))) := do
  let s ← sentenceAt branch sentenceID
  checkToken s tokenID
  match ← d.core s with
  | none => throw (.rule .noNegation)
  | some t =>
    let (l, r) ← t.splitAt (tokenID - ((s.length + 1 : Int) - t.length).fdiv 2)
    return d.arrange (l.map (side d.first)) (r.map (side d.second))

end Decomposition

end TableauTutor
