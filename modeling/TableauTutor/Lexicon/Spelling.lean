import TableauTutor.Lexicon.Pattern

/-!
Spellings of a pattern, listed one after the other: alternatives in order, later parts varying fastest, few repetitions
first. `find` stops at the first spelling that passes a test, and `first` takes the first choice everywhere. Both keep a
table of what the groups spelled last; the table is not rolled back when the search goes on with another choice.
-/

namespace TableauTutor.Pattern

/-- the characters that stand in for any character when spellings are listed -/
def printable : List (List Char) := (List.range 91).map fun n => [Char.ofNat (n + 32)]

/-- spellings of a named class: digits and blanks in order; the other classes have only the empty one -/
def classSpellings (k : CharClass) (negated : Bool) : List (List Char) :=
  match k, negated with
  | .digit, false => (List.range 10).map fun n => [Char.ofNat (n + 48)]
  | .blank, false => [['\t'], ['\n'], ['\x0b'], ['\x0c'], ['\r'], [' ']]
  | _, _ => [[]]

def itemSpellings : CharItem → List (List Char)
  | .one c => [[c]]
  | .range a b => (CharItem.between a b).map ([·])
  | .named k negated => classSpellings k negated

/-- spellings of a set in written order; a negated set is what is left of the printable characters -/
def setSpellings (negated : Bool) (items : List CharItem) : List (List Char) :=
  if negated then items.foldl (fun left i => (itemSpellings i).foldl List.erase left) printable
  else items.flatMap itemSpellings

/-- how many different numbers of repetitions are listed -/
def repLimit : Nat := 20

/-- the numbers of repetitions that are listed -/
def repCounts (least : Nat) (most : Option Nat) : List Nat :=
  let n := match most with
    | some m => min repLimit (m + 1 - least)
    | none => repLimit
  (List.range n).map (· + least)

/-- why there is no spelling -/
inductive SpellingError where
  /-- a set has no member to choose -/
  | nothingToChoose
  /-- a group is referred to that has not been spelled -/
  | unspelledGroup
deriving DecidableEq, Repr

/-- what was spelled last: by a group, by a condition on what follows or by one on what precedes -/
inductive Spelled where
  | group (n : Nat)
  | behind
deriving DecidableEq, Repr

/-- conditions on what follows are entered under the first number -/
def Spelled.ahead : Spelled := group 1

abbrev Spelling := StateT (List (Spelled × List Char)) (Except SpellingError)

namespace Spelling

def store (key : Spelled) (text : List Char) : Spelling Unit := modify ((key, text) :: ·)

def textOf (key : Spelled) : Spelling (List Char) := do
  match (← get).lookup key with
  | some text => return text
  | none => throw .unspelledGroup

end Spelling

/-- the first member for which the search finds something -/
def searchIn {α : Type} (search : α → Spelling (Option (List Char))) : List α → Spelling (Option (List Char))
  | [] => return none
  | x :: xs => do
    match ← search x with
    | some found => return some found
    | none => searchIn search xs

/-- n spellings in a row, and then the rest -/
def searchTimes (step : (List Char → Spelling (Option (List Char))) → List Char → Spelling (Option (List Char)))
    (k : List Char → Spelling (Option (List Char))) : Nat → List Char → Spelling (Option (List Char))
  | 0, text => k text
  | n + 1, text => step (searchTimes step k n) text

/-- go through the spellings that follow a text, and for each through the rest, until something is found. Parts that
have no list of spellings of their own are passed over -/
def search : Pattern → (List Char → Spelling (Option (List Char))) → List Char → Spelling (Option (List Char))
  | empty, k, text => k text
  | char c, k, text => k (text ++ [c])
  | any, k, text => searchIn (fun s => k (text ++ s)) printable
  | set negated items, k, text => searchIn (fun s => k (text ++ s)) (setSpellings negated items)
  | anchor _, k, text => k text
  | seq p q, k, text => search p (search q k) text
  | alt p q, k, text => do
    match ← search p k text with
    | some found => return some found
    | none => search q k text
  | rep p least most eagerness, k, text =>
    if eagerness = .possessive then k text
    else searchIn (fun n => searchTimes (search p) k n text) (repCounts least most)
  | group n p, k, text =>
    search p (fun longer => do Spelling.store (.group n) (longer.drop text.length); k longer) text
  | back n, k, text => do k (text ++ (← Spelling.textOf (.group n)))
  | given _ _ _, k, text => k text
  | under _ _ p, k, text => search p k text
  | ahead negated p, k, text =>
    if negated then k text
    else search p (fun longer => do Spelling.store .ahead (longer.drop text.length); k longer) text
  | behind negated _ p, k, text =>
    if negated then k text
    else search p (fun longer => do Spelling.store .behind (longer.drop text.length); k longer) text
  | atomic _, k, text => k text

/-- the first spelling that passes the test -/
def find? (p : Pattern) (test : List Char → Bool) : Except SpellingError (Option (List Char)) :=
  Prod.fst <$> (p.search (fun text => return if test text then some text else none) []).run []

/-- the first of a list of spellings -/
def chooseFirst : List (List Char) → Spelling (List Char)
  | [] => throw .nothingToChoose
  | s :: _ => return s

/-- n results in a row -/
def inARow (step : Spelling (List Char)) : Nat → Spelling (List Char)
  | 0 => return []
  | n + 1 => do
    let s ← step
    return s ++ (← inARow step n)

/-- the spelling that takes the first choice everywhere, and as few repetitions as there may be -/
def spell : Pattern → Spelling (List Char)
  | empty => return []
  | char c => return [c]
  | any => chooseFirst printable
  | set negated items => chooseFirst (setSpellings negated items)
  | anchor _ => return []
  | seq p q => do
    let s ← spell p
    return s ++ (← spell q)
  | alt p _ => spell p
  | rep p least _ eagerness => if eagerness = .possessive then return [] else inARow (spell p) least
  | group n p => do
    let s ← spell p
    Spelling.store (.group n) s
    return s
  | back n => Spelling.textOf (.group n)
  | given _ _ _ => return []
  | under _ _ p => spell p
  | ahead negated p => do
    if negated then return []
    let s ← spell p
    Spelling.store .ahead s
    return s
  | behind negated _ p => do
    if negated then return []
    let s ← spell p
    Spelling.store .behind s
    return s
  | atomic _ => return []

/-- the first spelling -/
def first (p : Pattern) : Except SpellingError (List Char) := Prod.fst <$> p.spell.run []

end TableauTutor.Pattern
