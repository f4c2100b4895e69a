import TableauTutor.Text.Basic
import TableauTutor.Text.Case

/-!
Patterns describe the spellings of a kind of token: characters and sets of them, conditions on a place, sequences,
alternatives and repetitions, and groups that remember what they matched. `Pattern.width` bounds the length of what a
pattern can match, which a condition on the text before a place needs.
-/

namespace TableauTutor

/-- ways of matching that a part of a pattern can switch on and off -/
inductive Mode where
  /-- capitals and small letters match each other -/
  | anyCase
  /-- the start and the end of a line are those of every line -/
  | everyLine
  /-- any character may be a line break too -/
  | acrossLines
  /-- classes and case know the letters of ASCII only -/
  | narrow
  /-- classes and case know all letters -/
  | wide
  /-- blanks and remarks in the written pattern are skipped -/
  | spacious
deriving DecidableEq, Repr

/-- the ways of matching in force -/
structure Modes where
  anyCase : Bool := false
  everyLine : Bool := false
  acrossLines : Bool := false
  narrow : Bool := false
deriving DecidableEq, Repr

namespace Modes

/-- a mode named in the list takes the value, any other keeps its own -/
def set (value : Bool) (names : List Mode) (m : Modes) : Modes where
  anyCase := if names.contains .anyCase then value else m.anyCase
  everyLine := if names.contains .everyLine then value else m.everyLine
  acrossLines := if names.contains .acrossLines then value else m.acrossLines
  narrow := if names.contains .narrow then value else if names.contains .wide then !value else m.narrow

def switch (on off : List Mode) (m : Modes) : Modes := (m.set true on).set false off

/-- do two characters match as the same letter -/
def alike (m : Modes) (a b : Char) : Bool :=
  a == b || (m.anyCase && if m.narrow then a.toLower == b.toLower else Text.sameLetter a b)

/-- are two characters the same again when a group is referred to -/
def repeats (m : Modes) (a b : Char) : Bool :=
  a == b || (m.anyCase && if m.narrow then a.toLower == b.toLower else Text.smallLetter a == Text.smallLetter b)

end Modes

/-- named classes of characters -/
inductive CharClass where
  | digit
  | blank
  | word
deriving DecidableEq, Repr

/-- blanks of ASCII -/
def isAsciiBlank (c : Char) : Bool := [' ', '\t', '\n', '\r', '\x0b', '\x0c'].contains c

def CharClass.holds (m : Modes) (k : CharClass) (c : Char) : Bool :=
  match k with
  | digit => if m.narrow then c.isDigit else Text.isDigit c
  | blank => if m.narrow then isAsciiBlank c else Text.isBlank c
  | word => if m.narrow then c.isAlphanum || c == '_' else Text.isWord c

/-- a member of a bracketed set of characters -/
inductive CharItem where
  | one (c : Char)
  | range (first last : Char)
  | named (k : CharClass) (negated : Bool)
deriving DecidableEq, Repr

namespace CharItem

/-- the characters of a range, in order -/
def between (first last : Char) : List Char :=
  (List.range (last.toNat + 1 - first.toNat)).map fun n => Char.ofNat (first.toNat + n)

def holds (m : Modes) : CharItem → Char → Bool
  | one a, c => m.alike a c
  | range a b, c => a.toNat ≤ c.toNat && c.toNat ≤ b.toNat || m.anyCase && (between a b).any (m.alike · c)
  | named k negated, c => k.holds m c != negated

end CharItem

/-- conditions on a place that use up no character -/
inductive Anchor where
  | textStart
  | textEnd
  | lineStart
  /-- the end, or just before a line break that ends the text -/
  | lineEnd
  | wordEdge (negated : Bool)
deriving DecidableEq, Repr

/-- which number of repetitions is preferred -/
inductive Eagerness where
  | greedy
  | lazy
  /-- as many as there are, none of them given back -/
  | possessive
deriving DecidableEq, Repr

/-- a pattern of characters -/
inductive Pattern where
  | empty
  | char (c : Char)
  /-- any character but a line break -/
  | any
  | set (negated : Bool) (items : List CharItem)
  | anchor (a : Anchor)
  | seq (p q : Pattern)
  | alt (p q : Pattern)
  /-- at least `least` times and at most `most` times -/
  | rep (p : Pattern) (least : Nat) (most : Option Nat) (eagerness : Eagerness)
  /-- a part whose match is remembered under a number -/
  | group (n : Nat) (p : Pattern)
  /-- what the group with the number matched, once more -/
  | back (n : Nat)
  /-- the first part if the group with the number has matched, else the second -/
  | given (n : Nat) (p q : Pattern)
  /-- a part that is matched under other modes -/
  | under (on off : List Mode) (p : Pattern)
  /-- the pattern matches here, or does not when negated; no character is used up -/
  | ahead (negated : Bool) (p : Pattern)
  /-- the pattern, of the given width, matches what ends here; without a width there is no way to match -/
  | behind (negated : Bool) (width : Option Nat) (p : Pattern)
  /-- the first way to match, not given back -/
  | atomic (p : Pattern)
deriving DecidableEq, Repr

namespace Pattern

/-- parts in a row -/
def sequence : List Pattern → Pattern
  | [] => empty
  | [p] => p
  | p :: ps => seq p (sequence ps)

/-- rows of parts as alternatives -/
def choice : List (List Pattern) → Pattern
  | [] => empty
  | [b] => sequence b
  | b :: bs => alt (sequence b) (choice bs)

/-- least and most number of characters of a match -/
structure Width where
  least : Nat := 0
  most : Nat := 0
deriving DecidableEq, Repr

namespace Width

/-- no width is counted beyond this -/
def limit : Nat := 18446744073709551616

def add (a b : Width) : Width := ⟨min limit (a.least + b.least), min limit (a.most + b.most)⟩

def either (a b : Width) : Width := ⟨min a.least b.least, max a.most b.most⟩

def times (least : Nat) (most : Option Nat) (a : Width) : Width where
  least := min limit (a.least * least)
  most := match most with
    | none => if a.most == 0 then 0 else limit
    | some n => min limit (a.most * n)

/-- the only width there is -/
def fixed? (a : Width) : Option Nat := if a.least == a.most && a.least < 4294967296 then some a.least else none

end Width

/-- the width of a pattern, given those of the groups it refers to -/
def width (known : Nat → Width) : Pattern → Width
  | empty => {}
  | char _ => ⟨1, 1⟩
  | any => ⟨1, 1⟩
  | set _ _ => ⟨1, 1⟩
  | anchor _ => {}
  | seq p q => (p.width known).add (q.width known)
  | alt p q => (p.width known).either (q.width known)
  | rep p least most _ => (p.width known).times least most
  | group _ p => p.width known
  | back n => known n
  | given _ p q => (p.width known).either (q.width known)
  | under _ _ p => p.width known
  | ahead _ _ => {}
  | behind _ _ _ => {}
  | atomic p => p.width known

/-- every condition on the text before a place has a width -/
def isBounded : Pattern → Bool
  | seq p q => p.isBounded && q.isBounded
  | alt p q => p.isBounded && q.isBounded
  | rep p _ _ _ => p.isBounded
  | group _ p => p.isBounded
  | given _ p q => p.isBounded && q.isBounded
  | under _ _ p => p.isBounded
  | ahead _ p => p.isBounded
  | behind _ width p => width.isSome && p.isBounded
  | atomic p => p.isBounded
  | _ => true

end Pattern

end TableauTutor
