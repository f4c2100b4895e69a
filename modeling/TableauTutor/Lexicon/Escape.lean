import TableauTutor.Lexicon.Draft
import TableauTutor.Text.CharName

/-!
Reading escapes and bracketed sets of characters. An escape stands for a character, a class of characters or a condition
on the place, or, outside sets, refers to a group by its number.
-/

namespace TableauTutor.Pattern

def hexValue? (c : Char) : Option Nat :=
  if '0' ≤ c ∧ c ≤ '9' then some (c.toNat - 48)
  else if 'a' ≤ c ∧ c ≤ 'f' then some (c.toNat - 87)
  else if 'A' ≤ c ∧ c ≤ 'F' then some (c.toNat - 55)
  else none

def isOctal (c : Char) : Bool := '0' ≤ c && c ≤ '7'

/-- the number that digits of a base write -/
def valueOf (base : Nat) (digits : List Char) : Nat :=
  digits.foldl (fun n c => base * n + (hexValue? c).getD 0) 0

/-- the class that a letter behind a backslash names -/
def classNamed? : Char → Option CharItem
  | 'd' => some (.named .digit false)
  | 'D' => some (.named .digit true)
  | 's' => some (.named .blank false)
  | 'S' => some (.named .blank true)
  | 'w' => some (.named .word false)
  | 'W' => some (.named .word true)
  | _ => none

/-- the character that a letter or a backslash behind a backslash stands for -/
def charNamed? : Char → Option Char
  | 'a' => some '\x07'
  | 'f' => some '\x0c'
  | 'n' => some '\n'
  | 'r' => some '\r'
  | 't' => some '\t'
  | 'v' => some '\x0b'
  | '\\' => some '\\'
  | _ => none

/-- the condition on a place that a letter behind a backslash names -/
def anchorNamed? : Char → Option Anchor
  | 'A' => some .textStart
  | 'Z' => some .textEnd
  | 'b' => some (.wordEdge false)
  | 'B' => some (.wordEdge true)
  | _ => none

namespace Reading

/-- an escape that has been taken is no good -/
def badEscape {α : Type} (escape : List Char) : Reading α :=
  flawBefore escape.length (.badEscape (String.ofList escape))

/-- the character written by exactly n hexadecimal digits behind a letter -/
def hexadecimal (letter : Char) (n : Nat) : Reading Char := do
  let digits ← takeUpTo n fun c => (hexValue? c).isSome
  let escape := '\\' :: letter :: digits
  if digits.length < n then flawBefore escape.length (.incompleteEscape (String.ofList escape))
  let value := valueOf 16 digits
  if 0x110000 ≤ value then badEscape escape
  return Char.ofNat value

/-- a character by its name -/
def namedChar : Reading Char := do
  if !(← accept '\x7b') then flawBefore 0 .noOpeningBrace
  let s ← name '\x7d' "character name"
  match Text.charNamed? s with
  | some c => return c
  | none => flawBefore (s.length + 4) (.undefinedCharacter s)

/-- a character by octal digits, as far as they make up a byte -/
def octal (digits : List Char) : Reading Char := do
  let value := valueOf 8 digits
  let escape := '\\' :: digits
  if 255 < value then flawBefore escape.length (.octalTooLarge (String.ofList escape))
  return Char.ofNat value

/-- the escapes that mean the same in a set and outside, after the classes and the digits -/
def plainEscape (c : Char) : Reading Char := do
  match charNamed? c, c with
  | some x, _ => return x
  | none, 'x' => hexadecimal c 2
  | none, 'u' => hexadecimal c 4
  | none, 'U' => hexadecimal c 8
  | none, 'N' => namedChar
  | none, c => if c.isAlpha then badEscape ['\\', c] else return c

/-- an escape in a set -/
def setEscape (c : Char) : Reading CharItem := do
  if let some item := classNamed? c then return item
  if c == 'b' then return .one '\x08'
  if isOctal c then return .one (← octal (c :: (← takeUpTo 2 isOctal)))
  if c.isDigit then badEscape ['\\', c]
  return .one (← plainEscape c)

/-- digits behind a backslash, outside sets: three octal ones, or those after a zero, write a character; else they are
the number of a group -/
def numberEscape (c : Char) : Reading Pattern := do
  if c == '0' then return .char (← octal (c :: (← takeUpTo 2 isOctal)))
  let second ← takeUpTo 1 Char.isDigit
  let third ← if isOctal c && second.any isOctal then takeUpTo 1 isOctal else pure []
  if !third.isEmpty then return .char (← octal (c :: second ++ third))
  let n := valueOf 10 (c :: second)
  let length := second.length + 2
  if (← get).groups.length < n then flawBefore (length - 1) (.unknownGroup n)
  reference n length

/-- an escape outside sets -/
def escape (c : Char) : Reading Pattern := do
  if let some a := anchorNamed? c then return .anchor a
  if let some item := classNamed? c then return .set false [item]
  if c.isDigit then numberEscape c
  else return .char (← plainEscape c)

/-- one end of a range, or a class -/
def setMember : Sign → Reading CharItem
  | .plain c => return .one c
  | .escaped c => setEscape c

/-- members of a set up to its closing bracket, which is a member where it comes first; the set started at a place -/
def setMembers (start : Nat) : Nat → List CharItem → Reading (List CharItem)
  | 0, items => return items
  | fuel + 1, items => do
    match ← take with
    | none => flawAt start .unclosedSet
    | some sign =>
      if sign = .plain ']' ∧ items ≠ [] then return items
      let a ← setMember sign
      if ← accept '-' then
        match ← take with
        | none => flawAt start .unclosedSet
        | some (.plain ']') => return items ++ [a, .one '-']
        | some last =>
          let b ← setMember last
          let bad : Reading (List CharItem) :=
            flawBefore (sign.text.length + 1 + last.text.length)
              (.badRange (String.ofList sign.text) (String.ofList last.text))
          match a, b with
          | .one x, .one y => if y.toNat < x.toNat then bad else setMembers start fuel (items ++ [.range x y])
          | _, _ => bad
      else setMembers start fuel (items ++ [a])

/-- a set after its opening bracket; a set of one character is that character -/
def bracketed : Reading Pattern := do
  let start := (← place) - 1
  let negated ← accept '^'
  let items ← setMembers start ((← get).rest.length + 1) []
  match negated, items.eraseDups with
  | false, [.one c] => return .char c
  | negated, items => return .set negated items

end Reading

end TableauTutor.Pattern
