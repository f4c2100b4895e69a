import TableauTutor.Text.Basic

/-!
Well-formed markup: every tag that is opened is closed again in the right order, attributes are quoted and named once,
an ampersand starts the name of a character, and a name with a colon belongs to a vocabulary that has been declared.
-/

namespace TableauTutor.Markup

/-- may the code point stand in a document -/
def isLegalCode (n : Nat) : Bool := n == 9 || n == 10 || n == 13 || (32 ≤ n && n != 0xFFFE && n != 0xFFFF)

def isLegal (c : Char) : Bool := isLegalCode c.toNat

def isSpace (c : Char) : Bool := c == ' ' || c == '\t' || c == '\n' || c == '\r'

def startsName (c : Char) : Bool := Text.inRanges Text.nameStartRanges c

def continuesName (c : Char) : Bool := startsName c || c == ':' || Text.inRanges Text.nameRestRanges c

def skipSpaces (cs : List Char) : List Char := cs.dropWhile isSpace

/-- a name at the front, and what follows it -/
def name? : List Char → Option (List Char × List Char)
  | [] => none
  | c :: cs => if startsName c then some (c :: cs.takeWhile continuesName, cs.dropWhile continuesName) else none

/-- the vocabulary that a name with a colon belongs to -/
def vocabulary? (name : List Char) : Option (List Char) :=
  if name.contains ':' then some (name.takeWhile (· != ':')) else none

/-- there is at most one colon, and a name behind it -/
def isQualified (name : List Char) : Bool :=
  match name.dropWhile (· != ':') with
  | [] => true
  | _ :: rest => rest.head?.any startsName && !rest.contains ':'

/-- the name belongs to one of the vocabularies, if to any -/
def isKnown (vocabularies : List (List Char)) (name : List Char) : Bool :=
  isQualified name && (vocabulary? name).all vocabularies.contains

/-- characters that have a name -/
def namedCharacters : List (List Char) := ["amp", "lt", "gt", "quot", "apos"].map String.toList

def hexDigit? (c : Char) : Option Nat :=
  if c.isDigit then some (c.toNat - '0'.toNat)
  else if 'a' ≤ c && c ≤ 'f' then some (c.toNat - 'a'.toNat + 10)
  else if 'A' ≤ c && c ≤ 'F' then some (c.toNat - 'A'.toNat + 10)
  else none

/-- the number that digits of a base write -/
def number? (base : Nat) (cs : List Char) : Option Nat :=
  if cs.isEmpty then none
  else cs.foldlM (fun n c => (hexDigit? c).bind fun d => if d < base then some (base * n + d) else none) 0

/-- is there a character of that number -/
def isCharacter (n : Nat) : Bool := isLegalCode n && n < 0x110000 && !(0xD800 ≤ n && n < 0xE000)

/-- what follows the name of a character, given what stands behind the ampersand -/
def reference? (cs : List Char) : Option (List Char) :=
  let inner := cs.takeWhile (· != ';')
  match cs.dropWhile (· != ';') with
  | [] => none
  | _ :: rest =>
    let good := match inner with
      | '#' :: 'x' :: ds => (number? 16 ds).any isCharacter
      | '#' :: ds => (number? 10 ds).any isCharacter
      | name => namedCharacters.contains name
    if good then some rest else none

/-- what follows a quoted value that ends with the given mark -/
def value? (mark : Char) : Nat → List Char → Option (List Char)
  | 0, _ => none
  | _, [] => none
  | fuel + 1, c :: cs =>
    if c == mark then some cs
    else if c == '&' then (reference? cs).bind (value? mark fuel)
    else if c == '<' || !isLegal c then none
    else value? mark fuel cs

/-- a tag behind its name -/
structure Tag where
  /-- the names of the attributes, and whether their values are empty -/
  attributes : List (List Char × Bool)
  /-- it is closed at once -/
  closed : Bool
  rest : List Char
deriving DecidableEq, Repr

/-- the rest of a tag behind its name -/
def tag? : Nat → List (List Char × Bool) → List Char → Option Tag
  | 0, _, _ => none
  | fuel + 1, seen, cs =>
    match skipSpaces cs with
    | '>' :: rest => some ⟨seen, false, rest⟩
    | '/' :: '>' :: rest => some ⟨seen, true, rest⟩
    | inner =>
      if inner.length == cs.length then none
      else do
        let (name, rest) ← name? inner
        if (seen.map (·.1)).contains name then none
        else match skipSpaces rest with
          | '=' :: rest =>
            match skipSpaces rest with
            | mark :: rest =>
              if mark == '"' || mark == '\'' then do
                let after ← value? mark (rest.length + 1) rest
                tag? fuel ((name, rest.head? == some mark) :: seen) after
              else none
            | [] => none
          | _ => none

/-- the vocabularies known within a tag: those known around it and those it declares. A declaration has a value, and
cannot be of the two vocabularies that every document has -/
def declare? (vocabularies : List (List Char)) (t : Tag) : Option (List (List Char)) :=
  let declared := t.attributes.filter fun (name, _) => vocabulary? name == some "xmlns".toList
  let names := declared.map fun (name, _) => name.drop 6
  if (declared.any fun (_, bare) => bare) || names.any fun n => n == "xml".toList || n == "xmlns".toList then none
  else some (names ++ vocabularies)

/-- the names of a tag belong to known vocabularies -/
def isDeclared (vocabularies : List (List Char)) (name : List Char) (t : Tag) : Bool :=
  isKnown vocabularies name && t.attributes.all fun (a, _) => isKnown ("xmlns".toList :: vocabularies) a

/-- what follows the first occurrence of an ending -/
def past? (ending : List Char) : List Char → Option (List Char)
  | [] => none
  | c :: cs =>
    if ending.isPrefixOf (c :: cs) then some ((c :: cs).drop ending.length)
    else if isLegal c then past? ending cs
    else none

/-- what follows a comment, which may hold no two dashes -/
def pastComment? (cs : List Char) : Option (List Char) :=
  match past? ['-', '-'] cs with
  | some ('>' :: rest) => some rest
  | _ => none

/-- a tag that is open: its name, and the vocabularies known within it -/
structure Opened where
  name : List Char
  vocabularies : List (List Char)
deriving DecidableEq, Repr

/-- the vocabularies known inside the tags that are open, the innermost first -/
def knownIn : List Opened → List (List Char)
  | [] => ["xml".toList]
  | top :: _ => top.vocabularies

/-- is a text well-formed inside the tags that are open, the innermost first -/
def content : Nat → List Opened → List Char → Bool
  | 0, _, _ => false
  | _ + 1, opened, [] => opened.isEmpty
  | fuel + 1, opened, '<' :: '/' :: cs =>
    match name? cs, opened with
    | some (name, rest), top :: below =>
      match skipSpaces rest with
      | '>' :: rest => name == top.name && content fuel below rest
      | _ => false
    | _, _ => false
  | fuel + 1, opened, '<' :: '!' :: '-' :: '-' :: cs => (pastComment? cs).any (content fuel opened)
  | fuel + 1, opened, '<' :: '!' :: cs =>
    if ("[CDATA[".toList).isPrefixOf cs then (past? [']', ']', '>'] (cs.drop 7)).any (content fuel opened) else false
  | fuel + 1, opened, '<' :: '?' :: cs =>
    match name? cs with
    | some (name, rest) =>
      name.map Char.toLower != ['x', 'm', 'l'] && !name.contains ':' &&
        (rest.head?.any isSpace || ['?', '>'].isPrefixOf rest) && (past? ['?', '>'] rest).any (content fuel opened)
    | none => false
  | fuel + 1, opened, '<' :: cs =>
    match name? cs with
    | none => false
    | some (name, rest) =>
      (tag? (rest.length + 1) [] rest).any fun t =>
        (declare? (knownIn opened) t).any fun vocabularies =>
          isDeclared vocabularies name t &&
            content fuel (if t.closed then opened else ⟨name, vocabularies⟩ :: opened) t.rest
  | fuel + 1, opened, '&' :: cs => (reference? cs).any (content fuel opened)
  | _ + 1, _, ']' :: ']' :: '>' :: _ => false
  | fuel + 1, opened, c :: cs => isLegal c && content fuel opened cs

/-- is a text well-formed when it is put between a tag and its end -/
def isWellFormed (s : String) : Bool := content (s.length + 1) [] s.toList

end TableauTutor.Markup
