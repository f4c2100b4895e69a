import TableauTutor.Sentence.Basic

/-!
Nested groups of sentences, as a rule yields them: a group of branches, each a group of sentences. Changes are made
sentence by sentence and keep the nesting; where one sentence has no result, the whole has none.
-/

namespace TableauTutor

/-- a sentence, a group of structures, nothing, or some datum that has no place here -/
inductive Structure where
  | sentence (s : Sentence)
  | group (members : List Structure)
  | nothing
  | other (d : Datum)
deriving Repr, Inhabited

namespace Structure

def isNothing : Structure → Bool
  | nothing => true
  | _ => false

def ofOption : Option Sentence → Structure
  | some s => sentence s
  | none => nothing

/-- branches of sentences as a group of groups -/
def ofBranches (bs : List (List (Option Sentence))) : Structure :=
  group (bs.map fun b => group (b.map ofOption))

/-- a group of members, unless one of them is nothing -/
def groupAll (members : List Structure) : Structure :=
  if members.any isNothing then nothing else group members

mutual
/-- a change made at every sentence -/
def modify (f : Sentence → Outcome Structure) : Structure → Outcome Structure
  | sentence s => f s
  | group members => do return groupAll (← modifyAll f members)
  | nothing => return nothing
  | other _ => throw (.wrongKind "neither a sentence nor a group")

def modifyAll (f : Sentence → Outcome Structure) : List Structure → Outcome (List Structure)
  | [] => return []
  | x :: xs => do
    let y ← modify f x
    return y :: (← modifyAll f xs)
end

/-- a change of sentences into sentences -/
def map (f : Sentence → Outcome Sentence) : Structure → Outcome Structure := modify fun s => sentence <$> f s

/-- a change of sentences into sentences that may have no result -/
def filterMap (f : Sentence → Outcome (Option Sentence)) : Structure → Outcome Structure :=
  modify fun s => ofOption <$> f s

/-- start a structure from a sentence; there must not be one yet -/
def create (f : Sentence → Outcome Structure) : Structure → Outcome Structure
  | sentence s => f s
  | group _ => throw (.broken .structureExists)
  | nothing => return nothing
  | other _ => throw (.broken .unnamed)

/-- one branch with one sentence -/
def single : Structure → Outcome Structure := create fun s => return group [group [sentence s]]

/-- brackets reduced at every sentence -/
def reduce : Structure → Outcome Structure := map Sentence.reduce

/-- brackets reduced; a sentence on its own has to come out with even brackets -/
def clean (x : Structure) : Outcome Structure := do
  let y ← x.reduce
  match y with
  | sentence s => if s.isEmpty || s.evenBrackets then return y else throw (.broken .unnamed)
  | _ => return y

/-- are the brackets even, at every sentence -/
def evenBrackets : Structure → Outcome Structure := modify fun s => return other (.flag s.evenBrackets)

def addPrefix (x : Lexer) (kind : String) (lexem : Option String) : Structure → Outcome Structure :=
  map (Sentence.addPrefix x kind lexem)

/-- a leading connective removed at every sentence -/
def withoutPrefix (start : String) (x : Structure) : Outcome Structure := do
  (← filterMap (Sentence.argument start) x).clean

/-- the sides of the main connective, on two branches or on one -/
def around (kind : String) (branching : Bool) (x : Structure) : Outcome Structure := do
  let made ← create (fun s => do
    match ← s.sides kind with
    | none => return nothing
    | some (l, r) => return ofBranches (if branching then [[l], [r]] else [[l, r]])) x
  made.clean

mutual
/-- two structures of one shape, joined sentence by sentence with a symbol between -/
def join (glue : Symbol) : Structure → Structure → Outcome Structure
  | group xs, group ys =>
    if xs.length = ys.length then do return group (← joinAll glue xs ys) else throw (.broken .unequalLengths)
  | sentence s, sentence t => return sentence (s ++ glue :: t)
  | sentence _, group _ => throw (.broken .unequalDepths)
  | group _, sentence _ => throw (.broken .unequalDepths)
  | x, y => throw (.broken (.illFormedPair x.isProper y.isProper))

def joinAll (glue : Symbol) : List Structure → List Structure → Outcome (List Structure)
  | x :: xs, y :: ys => do
    let z ← join glue x y
    return z :: (← joinAll glue xs ys)
  | _, _ => return []

def isProper : Structure → Bool
  | sentence _ => true
  | group _ => true
  | _ => false
end

/-- which members of a structure are chosen -/
inductive Choice where
  | chosen (b : Bool)
  | among (cs : List Choice)
deriving Repr, Inhabited

/-- the members of a structure one level down: symbols for a sentence; none when there are no members -/
def members? : Structure → Option (List Structure)
  | sentence s => some (s.map fun y => other (.text y))
  | group xs => some xs
  | nothing => none
  | other (.text s) => some (s.toList.map fun c => other (.text (String.singleton c)))
  | other (.list xs) => some (xs.map other)
  | other (.record fs) => some (fs.map fun f => other (.text f.1))
  | other _ => none

def notSized : Fault := .wrongKind "not made of members"

def isVoid : Structure → Bool
  | sentence s => s.isEmpty
  | group xs => xs.isEmpty
  | nothing => true
  | other d => d.isVoid

mutual
/-- a change made at the chosen members only -/
def pickApply (f : Structure → Outcome Structure) : List Structure → List Choice → Outcome (List Structure)
  | x :: xs, c :: cs => do
    let y ← pickOne f x c
    return y :: (← pickApply f xs cs)
  | _, _ => return []

def pickOne (f : Structure → Outcome Structure) (x : Structure) : Choice → Outcome Structure
  | .chosen true => f x
  | .chosen false => return x
  | .among cs =>
    match x.members? with
    | some xs => do return group (← pickApply f xs cs)
    | none => throw notSized
end

/-- a change made at the chosen members of a structure; the choice has to have its shape on the first two levels -/
def select (choice : List Choice) (f : Structure → Outcome Structure) (x : Structure) : Outcome Structure := do
  if x.isVoid then return nothing
  let some xs := x.members? | throw notSized
  if xs.length ≠ choice.length then throw (.broken .unnamed)
  for (y, c) in xs.zip choice do
    let some ys := y.members? | throw notSized
    match c with
    | .chosen _ => throw notSized
    | .among cs => if ys.length ≠ cs.length then throw (.broken .unnamed)
  return group (← pickApply f xs choice)

end Structure

end TableauTutor
