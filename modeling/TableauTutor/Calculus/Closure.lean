import TableauTutor.Calculus.Basic

/-!
When a branch is closed: two of its sentences contradict each other, or every sentence is
used up or cannot be taken apart.
-/

namespace TableauTutor

/-- the first result among those of a list, looked at in order -/
def firstResult {α β : Type} (f : α → Outcome (Option β)) : List α → Outcome (Option β)
  | [] => return none
  | x :: xs => do
    match ← f x with
    | some y => return some y
    | none => firstResult f xs

/-- do all members pass; looked at in order, until one does not -/
def allPass {α : Type} (f : α → Outcome Bool) : List α → Outcome Bool
  | [] => return true
  | x :: xs => do if ← f x then allPass f xs else return false

namespace Calculus

def startsNegated : Sentence → Outcome Bool
  | [] => throw emptySentence
  | y :: _ => return Text.startsWith "not" y

/-- one of two unsigned sentences is negated, and without the negation it is the other one -/
def contradict (a b : Sentence) : Outcome Bool := do
  match ← startsNegated a, ← startsNegated b with
  | true, false => return (← a.withoutPrefix "not") == some b
  | false, true => return (← b.withoutPrefix "not") == some a
  | _, _ => return false

/-- the numbers, from one, of two sentences that contradict each other -/
def contradictionPlain (branch : List Sentence) : Outcome (Option (Nat × Nat)) :=
  firstResult (fun (a, i) => firstResult (fun (b, j) => do
    return if ← contradict a b then some (i + 1, j + 1) else none) branch.zipIdx) branch.zipIdx

/-- the same formula with another sign in front -/
def oppositeSigns (a b : Sentence) : Outcome Bool :=
  if a.drop 1 = b.drop 1 then
    match a.head?, b.head? with
    | some y, some z => return y ≠ z
    | _, _ => throw emptySentence
  else return false

/-- the number of a signed sentence, and how far behind it the one is that contradicts it -/
def contradictionSigned : Nat → List Sentence → Outcome (Option (Nat × Nat))
  | _, [] => return none
  | i, a :: rest => do
    match ← firstResult (fun (b, j) => do return if ← oppositeSigns a b then some (i + 1, j + 1) else none)
        rest.zipIdx with
    | some found => return some found
    | none => contradictionSigned (i + 1) rest

def contradiction (c : Calculus) (branch : List Sentence) : Outcome (Option (Nat × Nat)) :=
  match c with
  | unsigned => contradictionPlain branch
  | signed => contradictionSigned 0 branch

/-- a sentence that no rule takes apart -/
def isFinal (c : Calculus) (s : Sentence) : Outcome Bool :=
  match c with
  | unsigned => s.isLiteral
  | signed => return s.length == 2

/-- the closing of a branch and what is said about it, when there is reason to close it -/
def closure (c : Calculus) (branch : List Sentence) (used : History) : Outcome (Option (Closing × String)) := do
  match ← c.contradiction branch with
  | some (i, j) => return some (.contradictionOf i j, "Sentences contradict. The branch was closed.")
  | none =>
    if ← allPass (fun s => if used.contains s then return true else c.isFinal s) branch then
      return some (.emptiness, "Nothing else to be done, branch was closed.")
    else return none

end Calculus

end TableauTutor
