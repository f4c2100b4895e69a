import TableauTutor.Text.ClassTable

/-!
Texts as lists of characters: prefixes, cutting at blanks or at a separator, replacing, searching, whole numbers as a
person types them, paths of files, and texts in quotes. All of it works on `List Char`, so every function is structural
on the characters it reads.
-/

namespace TableauTutor.Text

/-- is the code point in one of the ranges -/
def inRanges (rows : List (Nat × Nat)) (c : Char) : Bool :=
  rows.any fun (first, last) => first ≤ c.toNat && c.toNat ≤ last

/-- a letter, a number or the underscore -/
def isWord (c : Char) : Bool :=
  if c.toNat < 128 then c.isAlphanum || c == '_' else inRanges wordRanges c

/-- white space -/
def isBlank (c : Char) : Bool := inRanges blankRanges c

/-- value of a decimal digit of any script -/
def digit? (c : Char) : Option Nat :=
  (digitRanges.find? fun (first, last) => first ≤ c.toNat && c.toNat ≤ last).map fun (first, _) =>
    (c.toNat - first) % 10

def isDigit (c : Char) : Bool := (digit? c).isSome

def startsWith (head s : String) : Bool := head.toList.isPrefixOf s.toList
def endsWith (tail s : String) : Bool := tail.toList.isSuffixOf s.toList

/-- the text without its first n characters -/
def drop (n : Nat) (s : String) : String := String.ofList (s.toList.drop n)

/-- the text without its last n characters -/
def dropEnd (n : Nat) (s : String) : String := String.ofList (s.toList.take (s.toList.length - n))

/-- the text without the ending, where it has it -/
def withoutEnd (tail s : String) : String := if endsWith tail s then dropEnd tail.toList.length s else s

/-- the text without blanks at either end -/
def strip (s : String) : String :=
  String.ofList ((s.toList.dropWhile isBlank).reverse.dropWhile isBlank).reverse

/-- cut at every character that satisfies the test; `piece` holds the characters read since the last cut, last first -/
def cutAt (test : Char → Bool) (piece : List Char) : List Char → List (List Char)
  | [] => [piece.reverse]
  | c :: cs => if test c then piece.reverse :: cutAt test [] cs else cutAt test (c :: piece) cs

/-- the parts between the occurrences of a character -/
def splitAt (mark : Char) (s : String) : List String := (cutAt (· == mark) [] s.toList).map String.ofList

/-- the runs of characters that are no blanks -/
def words (s : String) : List String :=
  ((cutAt isBlank [] s.toList).filter (!·.isEmpty)).map String.ofList

/-- does the text occur in the other one -/
def isInfix (part : List Char) : List Char → Bool
  | [] => part.isEmpty
  | c :: cs => part.isPrefixOf (c :: cs) || isInfix part cs

def contains (part s : String) : Bool := isInfix part.toList s.toList

/-- first position at which the part occurs -/
def indexOf? (part : List Char) : List Char → Option Nat
  | [] => if part.isEmpty then some 0 else none
  | c :: cs => if part.isPrefixOf (c :: cs) then some 0 else (indexOf? part cs).map (· + 1)

/-- `skip` characters are passed over before the next look -/
def replaceFrom (old new : List Char) : Nat → List Char → List Char
  | _, [] => []
  | skip + 1, _ :: cs => replaceFrom old new skip cs
  | 0, c :: cs =>
    if old.isPrefixOf (c :: cs) then new ++ replaceFrom old new (old.length - 1) cs
    else c :: replaceFrom old new 0 cs

/-- every occurrence of a non-empty text replaced, from the left and without overlap -/
def replace (old new s : String) : String := String.ofList (replaceFrom old.toList new.toList 0 s.toList)

/-- the parts between the occurrences of a separator; `skip` characters of it remain to be passed over -/
def splitFrom (sep : List Char) (piece : List Char) : Nat → List Char → List (List Char)
  | _, [] => [piece.reverse]
  | skip + 1, _ :: cs => splitFrom sep piece skip cs
  | 0, c :: cs =>
    if sep.isPrefixOf (c :: cs) then piece.reverse :: splitFrom sep [] (sep.length - 1) cs
    else splitFrom sep (c :: piece) 0 cs

/-- the parts between the occurrences of a non-empty separator -/
def splitOn (sep s : String) : List String := (splitFrom sep.toList [] 0 s.toList).map String.ofList

def join (sep : String) (parts : List String) : String := sep.intercalate parts

/-- the text n times -/
def repeated (n : Nat) (s : String) : String := String.join (List.replicate n s)

/-- digits, with single underscores allowed between two of them -/
def readDigits (value : Nat) : Bool → List Char → Option Nat
  | afterDigit, [] => if afterDigit then some value else none
  | afterDigit, c :: cs =>
    match digit? c with
    | some d => readDigits (10 * value + d) true cs
    | none => if c == '_' && afterDigit then readDigits value false cs else none

/-- no number of more digits is read -/
def digitLimit : Nat := 4300

/-- blanks that may stand around a number: all but the separators of files, groups, records and units -/
def isMargin (c : Char) : Bool := isBlank c && !(28 ≤ c.toNat && c.toNat ≤ 31)

/-- a whole number with an optional sign, blanks around it allowed -/
def readInt? (s : String) : Option Int :=
  if digitLimit < s.toList.countP isDigit then none
  else
    match ((s.toList.dropWhile isMargin).reverse.dropWhile isMargin).reverse with
    | '-' :: cs => (readDigits 0 false cs).map fun n => -(n : Int)
    | '+' :: cs => (readDigits 0 false cs).map Int.ofNat
    | cs => (readDigits 0 false cs).map Int.ofNat

/-! ## Paths, written with slashes -/

/-- the folder of a path: all before the last slash, without slashes at its end unless it is nothing else -/
def folder (path : String) : String :=
  let head := path.toList.reverse.dropWhile (· != '/')
  String.ofList (if head.all (· == '/') then head else head.dropWhile (· == '/')).reverse

/-- the path of a file from the folder of another one -/
def pathWithin (file additional : String) : String :=
  folder file ++ (if additional.isEmpty then "" else "/") ++ additional

/-! ## Texts in quotes -/

def isPrintable (c : Char) : Bool :=
  if c.toNat < 127 then 32 ≤ c.toNat else inRanges printableRanges c

/-- a number in base sixteen with at least the given number of digits -/
def hexadecimal (width n : Nat) : List Char :=
  let digits := Nat.toDigits 16 n
  List.replicate (width - digits.length) '0' ++ digits

/-- one character between the given quotes -/
def quoteChar (mark c : Char) : List Char :=
  if c == mark || c == '\\' then ['\\', c]
  else if c == '\n' then ['\\', 'n']
  else if c == '\r' then ['\\', 'r']
  else if c == '\t' then ['\\', 't']
  else if isPrintable c then [c]
  else if c.toNat < 0x100 then '\\' :: 'x' :: hexadecimal 2 c.toNat
  else if c.toNat < 0x10000 then '\\' :: 'u' :: hexadecimal 4 c.toNat
  else '\\' :: 'U' :: hexadecimal 8 c.toNat

/-- a text in single quotes, unless it holds a single quote and no double one; backslashes, the chosen quote, line
breaks, tabs and characters that cannot be shown are escaped -/
def quoted (s : String) : String :=
  let cs := s.toList
  let mark := if cs.contains '\'' && !cs.contains '"' then '"' else '\''
  String.ofList (mark :: cs.flatMap (quoteChar mark) ++ [mark])

end TableauTutor.Text
