import TableauTutor.Lexicon.Flaw
import TableauTutor.Lexicon.Pattern

/-!
Reading a written pattern sign by sign. A sign is a character, or a character behind a backslash. A draft holds what is
left of the text, the place reached in it, and what is known of the groups: which are closed, how wide they are and what
they are called.
-/

namespace TableauTutor.Pattern

/-- a character, or a character behind a backslash -/
inductive Sign where
  | plain (c : Char)
  | escaped (c : Char)
deriving DecidableEq, Repr

def Sign.text : Sign → List Char
  | plain c => [c]
  | escaped c => ['\\', c]

/-- the state of reading -/
structure Draft where
  rest : List Char := []
  place : Nat := 0
  /-- groups in the order of their numbers, from one on; an open one has no width yet -/
  groups : List (Option Width) := []
  names : List (String × Nat) := []
  /-- within a condition on what precedes, the number of groups before it -/
  bound : Option Nat := none
  /-- numbers that a choice depends on, with their places -/
  asked : List (Nat × Nat) := []
deriving DecidableEq, Repr

abbrev Reading := StateT Draft (Except ReadError)

namespace Reading

/-- the flaw shows n characters before the place reached -/
def flawBefore {α : Type} (n : Nat) (flaw : Flaw) : Reading α := do throw (.flawed flaw ((← get).place - n))

def flawAt {α : Type} (place : Nat) (flaw : Flaw) : Reading α := throw (.flawed flaw place)

def place : Reading Nat := return (← get).place

/-- the next sign, which stays where it is -/
def peek : Reading (Option Sign) := do
  match (← get).rest with
  | [] => return none
  | '\\' :: c :: _ => return some (.escaped c)
  | ['\\'] => throw (.flawed (.badEscape "(end of pattern)") (← get).place)
  | c :: _ => return some (.plain c)

/-- leave n characters behind -/
def skip (n : Nat) : Reading Unit := modify fun d => { d with rest := d.rest.drop n, place := d.place + n }

/-- take the next sign -/
def take : Reading (Option Sign) := do
  let sign ← peek
  if let some s := sign then skip s.text.length
  return sign

/-- take the character if it is next -/
def accept (c : Char) : Reading Bool := do
  if (← peek) = some (.plain c) then
    skip 1
    return true
  else return false

/-- take at most n characters that pass the test -/
def takeUpTo (n : Nat) (test : Char → Bool) : Reading (List Char) := do
  let found := ((← get).rest.take n).takeWhile test
  skip found.length
  return found

/-- the text up to a mark, which is taken too -/
def nameUpTo (mark : Char) (what : String) : Nat → List Char → Reading (List Char)
  | 0, name => return name
  | fuel + 1, name => do
    match ← take with
    | none => if name.isEmpty then flawBefore 0 (.missing what) else flawBefore name.length (.unclosedName mark)
    | some s =>
      if s = .plain mark then
        if name.isEmpty then flawBefore 1 (.missing what) else return name
      else nameUpTo mark what fuel (name ++ s.text)

/-- a name that is not empty, up to a mark -/
def name (mark : Char) (what : String) : Reading String := do
  return String.ofList (← nameUpTo mark what ((← get).rest.length + 1) [])

/-- a letter or a low line, and then letters, digits and low lines -/
def isName (s : String) : Bool :=
  match s.toList with
  | [] => false
  | c :: cs => Text.isWord c && !Text.isDigit c && cs.all Text.isWord

/-- the name of a group -/
def groupName (mark : Char) : Reading String := do
  let s ← name mark "group name"
  if isName s then return s else flawBefore (s.length + 1) (.badName s)

/-- the number of a new group, which stays open -/
def openGroup (name : Option String) : Reading Nat := do
  let d ← get
  let n := d.groups.length + 1
  match name with
  | none => modify fun d => { d with groups := d.groups ++ [none] }
  | some s =>
    if let some earlier := d.names.lookup s then flawBefore (s.length + 1) (.nameTaken s n earlier)
    modify fun d => { d with groups := d.groups ++ [none], names := d.names ++ [(s, n)] }
  return n

/-- the width of a closed group -/
def widthOf? (d : Draft) (n : Nat) : Option Width := if n = 0 then none else (d.groups[n - 1]?).join

/-- the width of a pattern whose references are to closed groups -/
def widthOf (p : Pattern) : Reading Width := do
  let d ← get
  return p.width fun n => (widthOf? d n).getD {}

def closeGroup (n : Nat) (p : Pattern) : Reading Unit := do
  let w ← widthOf p
  modify fun d => { d with groups := d.groups.set (n - 1) (some w) }

/-- within a condition on what precedes, only groups closed before it may be referred to -/
def checkBound (n : Nat) : Reading Unit := do
  let d ← get
  match d.bound with
  | none => return
  | some before =>
    if (widthOf? d n).isNone then flawBefore 0 .openGroup
    else if before < n then flawBefore 0 .ownGroup

/-- a reference to a group; the flaw of an open one shows at the start of the reference -/
def reference (n length : Nat) : Reading Pattern := do
  if (widthOf? (← get) n).isNone then flawBefore length .openGroup
  checkBound n
  return .back n

end Reading

end TableauTutor.Pattern
