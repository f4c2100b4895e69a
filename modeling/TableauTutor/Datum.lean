import TableauTutor.Text.Basic

/-!
Loosely typed data: what configuration files, saved proofs and the details of a mistake are made of. Fields of a record
keep the order in which they were written.
-/

namespace TableauTutor

/-- a piece of loosely typed data -/
inductive Datum where
  | none
  | flag (b : Bool)
  | whole (n : Int)
  /-- mantissa · 10^(-places) -/
  | decimal (mantissa : Int) (places : Nat)
  | text (s : String)
  | list (items : List Datum)
  | record (fields : List (String × Datum))
deriving Repr, Inhabited

namespace Datum

/-- a decimal without trailing zeros -/
def trimDecimal : Nat → Int → Nat → Int × Nat
  | 0, m, p => (m, p)
  | fuel + 1, m, p => if 0 < p && m % 10 == 0 then trimDecimal fuel (m / 10) (p - 1) else (m, p)

/-- digits of a decimal: a point with at least one place after it, or a power of ten when the
number is very large or very small -/
def decimalText (mantissa : Int) (places : Nat) : String :=
  let (m, p) := trimDecimal places mantissa places
  let digits := Nat.toDigits 10 m.natAbs
  let sign := if m < 0 then "-" else ""
  -- exponent of the first digit
  let lead : Int := (digits.length : Int) - 1 - p
  let body :=
    if m == 0 then "0.0"
    else if -4 ≤ lead && lead < 16 then
      let padded := List.replicate (p + 1 - digits.length) '0' ++ digits
      let front := padded.take (padded.length - p)
      let back := padded.drop (padded.length - p)
      String.ofList front ++ "." ++ String.ofList (if back.isEmpty then ['0'] else back)
    else
      let shown := (digits.reverse.dropWhile (· == '0')).reverse
      let tail := if shown.length ≤ 1 then [] else '.' :: shown.drop 1
      let power := Nat.toDigits 10 lead.natAbs
      String.ofList (shown.take 1 ++ tail ++ ['e', if lead < 0 then '-' else '+'] ++
        List.replicate (2 - power.length) '0' ++ power)
  sign ++ body

mutual
/-- the datum written out, texts in quotes -/
def written : Datum → String
  | none => "None"
  | flag b => if b then "True" else "False"
  | whole n => toString n
  | decimal m p => decimalText m p
  | text s => Text.quoted s
  | list xs => "[" ++ Text.join ", " (writtenList xs) ++ "]"
  | record fs => "\x7b" ++ Text.join ", " (writtenFields fs) ++ "\x7d"

def writtenList : List Datum → List String
  | [] => []
  | x :: xs => written x :: writtenList xs

def writtenFields : List (String × Datum) → List String
  | [] => []
  | (k, v) :: fs => (Text.quoted k ++ ": " ++ written v) :: writtenFields fs
end

/-- the datum as it is shown: a text as it is, anything else written out -/
def shown : Datum → String
  | text s => s
  | d => written d

/-- several data in a row: nothing for none, the only one as it is shown, more than one in round brackets -/
def shownRow : List Datum → String
  | [] => ""
  | [d] => shown d
  | ds => "(" ++ Text.join ", " (writtenList ds) ++ ")"

/-- the number a datum stands for, as mantissa and places; truth values count as one and zero -/
def number? : Datum → Option (Int × Nat)
  | flag b => some (if b then 1 else 0, 0)
  | whole n => some (n, 0)
  | decimal m p => some (trimDecimal p m p)
  | _ => Option.none

mutual
/-- equal data; numbers by value, records whatever the order of their fields -/
def same : Datum → Datum → Bool
  | none, none => true
  | text s, text t => s == t
  | list xs, list ys => sameList xs ys
  | record fs, record gs => fs.length == gs.length && sameFields fs gs
  | x, y =>
    match x.number?, y.number? with
    | some a, some b => a == b
    | _, _ => false

def sameList : List Datum → List Datum → Bool
  | [], [] => true
  | x :: xs, y :: ys => same x y && sameList xs ys
  | _, _ => false

/-- every field of the first record is in the second -/
def sameFields : List (String × Datum) → List (String × Datum) → Bool
  | [], _ => true
  | (k, v) :: fs, gs =>
    (match gs.lookup k with
      | some w => same v w
      | Option.none => false) && sameFields fs gs
end

instance : BEq Datum := ⟨same⟩

/-- the field of a record -/
def field? (key : String) : Datum → Option Datum
  | record fs => fs.lookup key
  | _ => Option.none

def texts? : Datum → Option (List String)
  | list xs => xs.mapM fun
    | text s => some s
    | _ => Option.none
  | _ => Option.none

/-- texts as a list of data -/
def ofTexts (ts : List String) : Datum := list (ts.map text)

/-- something that may be missing -/
def ofOption {α : Type} (f : α → Datum) : Option α → Datum
  | some x => f x
  | Option.none => none

/-- the fields of a record; none if it is no record -/
def fields : Datum → List (String × Datum)
  | record fs => fs
  | _ => []

/-- the members of a list; none if it is no list -/
def items : Datum → List Datum
  | list xs => xs
  | _ => []

/-- what it is made of: the characters of a text, the members of a list, the keys of a record -/
def parts? : Datum → Option (List Datum)
  | text s => some (s.toList.map fun c => text (String.singleton c))
  | list xs => some xs
  | record fs => some (fs.map fun (k, _) => text k)
  | _ => Option.none

/-- what kind of thing it is, for complaints -/
def kindName : Datum → String
  | none => "NoneType"
  | flag _ => "bool"
  | whole _ => "int"
  | decimal _ _ => "float"
  | text _ => "str"
  | list _ => "list"
  | record _ => "dict"

/-- the complaint about a part that things of its kind do not have -/
def lacking (d : Datum) (part : String) : String := "'" ++ d.kindName ++ "' object has no attribute '" ++ part ++ "'"

/-- the position that a datum names -/
def index? : Datum → Option Int
  | whole n => some n
  | flag b => some (if b then 1 else 0)
  | _ => Option.none

def isNone : Datum → Bool
  | none => true
  | _ => false

def isText : Datum → Bool
  | text _ => true
  | _ => false

/-- counts as false: nothing, zero, and what is empty -/
def isVoid : Datum → Bool
  | none => true
  | flag b => !b
  | whole n => n == 0
  | decimal m _ => m == 0
  | text s => s.isEmpty
  | list xs => xs.isEmpty
  | record fs => fs.isEmpty

/-- does it hold data that can be changed, a list or a record -/
def isMutable : Datum → Bool
  | list _ => true
  | record _ => true
  | _ => false

end Datum

end TableauTutor
