import TableauTutor.Sentence.Basic

/-!
Rules of a calculus as a person meets them: a name, a symbolic form, a description, and what has to be named for the
rule to be used, its context.
-/

namespace TableauTutor

/-- one thing that has to be named for a rule to be used -/
structure ContextItem where
  key : String
  official : String
  docs : String
  type : String
deriving DecidableEq, Repr

namespace ContextItem

/-- an item of a type; what is left empty is taken from what stands before it -/
def make (type key official docs : String) : ContextItem :=
  let k := if key.isEmpty then type else key
  { key := k, official := if official.isEmpty then k else official, docs, type }

/-- the parts in a row -/
def row (c : ContextItem) : Datum := .ofTexts [c.key, c.official, c.docs, c.type]

def sentence : ContextItem := make "sentenceID" "" "Sentence Number" "The number of the sentence in this branch"
def token : ContextItem := make "tokenID" "" "Token Number" "The number of the symbol in the sentence"

/-- what a value of a type is read as -/
inductive Reading where
  | number
  | text
deriving DecidableEq, Repr

/-- how values of a type are read; numbers of sentences and of tokens are whole numbers -/
def reading (type : String) : Outcome Reading :=
  if type = "sentenceID" || type = "tokenID" then return .number else throw (.missingKey type)

end ContextItem

/-- what a parameter of a rule stands for -/
inductive Parameter where
  | branch
  | item (c : ContextItem)
  | unknown
deriving DecidableEq, Repr

/-- the context that parameters ask for; none when one of them is not understood -/
def contextOf : List Parameter → Option (List ContextItem)
  | [] => some []
  | .branch :: ps => contextOf ps
  | .item c :: ps => (contextOf ps).map (c :: ·)
  | .unknown :: _ => none

/-- a rule of a calculus -/
structure Rule where
  name : String
  symbolic : String
  docs : String
  reusable : Bool := false
  context : Option (List ContextItem) := none
deriving DecidableEq, Repr

namespace Rule

/-- the rule with a context taken from parameters, unless it has one that is not empty -/
def withParameters (r : Rule) (ps : List Parameter) : Rule :=
  if (r.context.getD []).isEmpty then { r with context := contextOf ps } else r

end Rule

end TableauTutor
