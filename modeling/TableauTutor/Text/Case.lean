import TableauTutor.Text.Basic
import TableauTutor.Text.CaseTable

/-!
Upper, lower and capitalised forms of a text by the full case mappings of the Unicode standard, so that one character
may become several and a capital sigma at the end of a word becomes a final sigma.
-/

namespace TableauTutor.Text

/-- the row that moves a code point, if there is one -/
def CaseRun.find? (rows : List CaseRun) (n : Nat) : Option CaseRun :=
  rows.find? fun r => r.first ≤ n && n ≤ r.last && (n - r.first) % r.step == 0

/-- is the code point in one of the stepped ranges -/
def inClass (rows : List (Nat × Nat × Nat)) (c : Char) : Bool :=
  rows.any fun (first, last, step) => first ≤ c.toNat && c.toNat ≤ last && (c.toNat - first) % step == 0

def isUpperChar : Char → Bool := inClass upperClass
def isLowerChar : Char → Bool := inClass lowerClass
def isTitleChar : Char → Bool := inClass titleClass

/-- a letter that has a case at all -/
def isCased (c : Char) : Bool := isUpperChar c || isLowerChar c || isTitleChar c

/-- a character mapped by a table of single partners and a table of longer ones -/
def mapCase (specials : List (Nat × List Nat)) (rows : List CaseRun) (c : Char) : List Char :=
  match specials.lookup c.toNat with
  | some several => several.map Char.ofNat
  | none =>
    match CaseRun.find? rows c.toNat with
    | some r => [Char.ofNat (Int.toNat (c.toNat + r.shift))]
    | none => [c]

def upperChar (c : Char) : List Char :=
  if c.toNat < 128 then [c.toUpper] else mapCase upperSpecials upperRuns c

def titleChar (c : Char) : List Char :=
  match titleSpecials.lookup c.toNat with
  | some several => several.map Char.ofNat
  | none => upperChar c

def lowerChar (c : Char) : List Char :=
  if c.toNat < 128 then [c.toLower] else mapCase lowerSpecials lowerRuns c

/-- the single small letter of a letter -/
def smallLetter (c : Char) : Char := (lowerChar c).headD c

/-- the same letter but for its case: the small letters agree, or their capitals do -/
def sameLetter (a b : Char) : Bool :=
  smallLetter a == smallLetter b || upperChar (smallLetter a) == upperChar (smallLetter b)

/-- a character that does not count when it is asked whether a letter ends a word -/
def isIgnorable (c : Char) : Bool := inRanges ignorableRanges c

/-- lower case of a text, given whether the last character that counts was a cased letter -/
def lowerFrom : Bool → List Char → List Char
  | _, [] => []
  | afterCased, c :: cs =>
    let here :=
      if c.toNat == 0x3A3 then
        let last := afterCased && !((cs.dropWhile isIgnorable).head?.any isCased)
        [Char.ofNat (if last then 0x3C2 else 0x3C3)]
      else lowerChar c
    here ++ lowerFrom (if isIgnorable c then afterCased else isCased c) cs

def upper (s : String) : String := String.ofList (s.toList.flatMap upperChar)
def lower (s : String) : String := String.ofList (lowerFrom false s.toList)

/-- first character in title case, the others in lower case -/
def capitalize (s : String) : String :=
  match s.toList with
  | [] => ""
  | c :: cs => String.ofList (titleChar c ++ lowerFrom (!isIgnorable c && isCased c) cs)

/-- at least one cased letter, and all of them upper case -/
def isUpper (s : String) : Bool :=
  s.toList.any isUpperChar && !(s.toList.any fun c => isLowerChar c || isTitleChar c)

end TableauTutor.Text
