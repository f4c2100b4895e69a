import TableauTutor.Sentence.Basic

/-!
Outlines: a sentence seen as brackets, variables and connectives of one or two arguments. Reducing an outline replaces
what is a formula by a single atom mark, as long as it can; every mark that was not made this way keeps its position.
-/

namespace TableauTutor

/-- what a symbol is in the grammar of formulas -/
inductive Mark where
  | left
  | right
  | atom
  | unary
  | binary
deriving DecidableEq, Repr

namespace Mark

/-- the mark of a symbol; symbols of other kinds have none -/
def ofSymbol? (y : Symbol) : Option Mark :=
  if y = "(" then some left
  else if y = ")" then some right
  else if y.kind = "sentvar" then some atom
  else if y.kind = "not" then some unary
  else if ["and", "or", "imp"].contains y.kind then some binary
  else none

def letter : Mark → Char
  | left => '('
  | right => ')'
  | atom => 's'
  | unary => '1'
  | binary => '2'

end Mark

/-- the marks of a sentence -/
def Sentence.outline (s : Sentence) : List Mark := s.filterMap Mark.ofSymbol?

namespace Outline

variable {α : Type} [BEq α]

/-- first position at which a pattern occurs -/
def find? (pattern : List α) : List α → Option Nat
  | [] => if pattern.isEmpty then some 0 else none
  | x :: xs => if pattern.isPrefixOf (x :: xs) then some 0 else (find? pattern xs).map (· + 1)

/-- positions at which a pattern occurs, without overlap; `skip` members are passed over first -/
def findAllFrom (pattern : List α) (i : Nat) : Nat → List α → List Nat
  | _, [] => []
  | skip + 1, _ :: xs => findAllFrom pattern (i + 1) skip xs
  | 0, x :: xs =>
    if pattern.isPrefixOf (x :: xs) then i :: findAllFrom pattern (i + 1) (pattern.length - 1) xs
    else findAllFrom pattern (i + 1) 0 xs

def findAll (pattern : List α) (xs : List α) : List Nat := findAllFrom pattern 0 0 xs

/-- marks with a position for each; a mark that stands for several others has none -/
structure Placed (α : Type) where
  marks : List α
  places : List (Option Nat)
deriving DecidableEq, Repr

/-- the first occurrence of a pattern replaced; its places give way to one that is empty -/
def replaceOnce? (old new : List α) (x : Placed α) : Option (Placed α) :=
  (find? old x.marks).map fun i =>
    { marks := x.marks.take i ++ new ++ x.marks.drop (i + old.length)
      places := x.places.take i ++ none :: x.places.drop (i + old.length) }

/-- occurrences of a pattern replaced until there are none, at most `fuel` times -/
def replaceAll (old new : List α) : Nat → Placed α → Placed α
  | 0, x => x
  | fuel + 1, x =>
    match replaceOnce? old new x with
    | some y => replaceAll old new fuel y
    | none => x

/-- the productions of the grammar of formulas, read backwards: what makes up a formula -/
def productions : List (List Mark) :=
  [[.unary, .atom], [.atom, .binary, .atom], [.left, .atom, .right]]

/-- every production applied as often as possible, one after another -/
def pass (x : Placed Mark) : Placed Mark :=
  productions.foldl (fun y p => replaceAll p [Mark.atom] y.marks.length y) x

/-- passes until nothing changes, at most `fuel` of them -/
def passes : Nat → Placed Mark → Placed Mark
  | 0, x => x
  | fuel + 1, x => if (pass x).marks = x.marks then pass x else passes fuel (pass x)

/-- the outline of a sentence, reduced as far as it goes; an outline of n marks changes in fewer than n passes -/
def reduced (s : Sentence) : Placed Mark :=
  let marks := s.outline
  passes (marks.length + 1) { marks, places := (List.range marks.length).map some }

end Outline

end TableauTutor
