import TableauTutor.Lexicon.Escape

/-!
Reading patterns from their written form: alternatives, repetition, groups and what may stand at their opening. In the
spacious reading blanks outside sets are skipped and a hash sign starts a remark that runs to the end of its line.
-/

namespace TableauTutor.Pattern

/-- a part that has been read; a row in plain brackets stays together until the sequence around it is complete -/
inductive Piece where
  | part (p : Pattern)
  | row (ps : List Pattern)
deriving DecidableEq, Repr

def Piece.parts : Piece → List Pattern
  | part p => [p]
  | row ps => ps

/-- can two such parts be recognised as equal -/
def isSimple : Pattern → Bool
  | char _ => true
  | any => true
  | set _ _ => true
  | anchor _ => true
  | back _ => true
  | _ => false

/-- the parts with which a row and all the others begin, and what is left of the rows -/
def commonStart : List Pattern → List (List Pattern) → List Pattern × List (List Pattern)
  | [], others => ([], [] :: others)
  | p :: ps, others =>
    if isSimple p && others.all (·.head? == some p) then
      let (common, left) := commonStart ps (others.map List.tail)
      (p :: common, left)
    else ([], (p :: ps) :: others)

/-- the members of a set when the row is a single character or a single set -/
def memberRow? : List Pattern → Option (List CharItem)
  | [char c] => some [.one c]
  | [set false items] => some items
  | _ => none

/-- rows as alternatives: a common start is taken out, and alternatives of single characters make one set -/
def alternatives : List (List Pattern) → List Pattern
  | [] => []
  | [row] => row
  | row :: rows =>
    let (common, left) := commonStart row rows
    match left.mapM memberRow? with
    | some items => common ++ [set false items.flatten.eraseDups]
    | none => common ++ [choice left]

/-- what a character means in a list of modes: a mode, or one that holds for a whole pattern only -/
inductive ModeMark where
  | mode (m : Mode)
  | locale
  | whole
deriving DecidableEq, Repr

def modeMark? : Sign → Option ModeMark
  | .plain 'i' => some (.mode .anyCase)
  | .plain 'm' => some (.mode .everyLine)
  | .plain 's' => some (.mode .acrossLines)
  | .plain 'x' => some (.mode .spacious)
  | .plain 'a' => some (.mode .narrow)
  | .plain 'u' => some (.mode .wide)
  | .plain 'L' => some .locale
  | .plain 't' => some .whole
  | _ => none

/-- a letter that is no mode is told from a sign that cannot be one -/
def Sign.isLetter : Sign → Bool
  | plain c => Text.isWord c && !Text.isDigit c && c != '_'
  | escaped _ => false

/-- the modes that a group switches -/
structure ModeChange where
  on : List Mode := []
  off : List Mode := []
deriving DecidableEq, Repr

namespace Reading

/-- the sign cannot stand in a list of modes -/
def noMode {α : Type} (expected : String) (sign : Sign) : Reading α :=
  flawBefore sign.text.length (if sign.isLetter then .unknownMode else .noModes expected)

/-- modes that are switched on, from the given sign on, and the sign that ends them -/
def modesOn : Nat → List ModeMark → Sign → Reading (List ModeMark × Sign)
  | 0, marks, sign => return (marks, sign)
  | fuel + 1, marks, sign => do
    match modeMark? sign with
    | none => noMode "-, : or )" sign
    | some .locale => flawBefore 0 .localeMode
    | some mark =>
      let marks := marks ++ [mark]
      if marks.contains (.mode .narrow) && marks.contains (.mode .wide) then flawBefore 0 .modesClash
      match ← take with
      | none => flawBefore 0 (.noModes "-, : or )")
      | some next =>
        if next = .plain ')' ∨ next = .plain '-' ∨ next = .plain ':' then return (marks, next)
        else modesOn fuel marks next

/-- modes that are switched off, from the given sign on -/
def modesOff : Nat → List ModeMark → Sign → Reading (List ModeMark)
  | 0, marks, _ => return marks
  | fuel + 1, marks, sign => do
    match modeMark? sign with
    | none => noMode (if marks.isEmpty then "flag" else ":") sign
    | some mark =>
      if mark = .locale ∨ mark = .mode .narrow ∨ mark = .mode .wide then flawBefore 0 .fixedModeOff
      let marks := marks ++ [mark]
      match ← take with
      | none => flawBefore 0 (.noModes ":")
      | some next => if next = .plain ':' then return marks else modesOff fuel marks next

def plainModes (marks : List ModeMark) : List Mode :=
  marks.filterMap fun
    | .mode m => some m
    | _ => none

/-- the modes of a group, from their first sign on; modes for all of a pattern have no place within it -/
def modeChange (start : Nat) (sign : Sign) : Reading ModeChange := do
  let fuel := (← get).rest.length + 1
  let (on, last) ← if sign = .plain '-' then pure ([], sign) else modesOn fuel [] sign
  if last = .plain ')' then flawAt start .lateModes
  if on.contains .whole then flawBefore 1 .wholeModeOn
  let off ← if last ≠ .plain '-' then pure [] else do
    match ← take with
    | none => flawBefore 0 (.noModes "flag")
    | some next => modesOff fuel [] next
  if off.contains .whole then flawBefore 1 .wholeModeOff
  if on.any off.contains then flawBefore 1 .modeOnAndOff
  return ⟨plainModes on, plainModes off⟩

/-- the rest of a remark that ends with its line -/
def lineRemark : Nat → Reading Unit
  | 0 => return
  | fuel + 1 => do
    match ← take with
    | none => return
    | some s => if s = .plain '\n' then return else lineRemark fuel

/-- the rest of a remark in brackets -/
def bracketRemark (start : Nat) : Nat → Reading Unit
  | 0 => return
  | fuel + 1 => do
    match ← take with
    | none => flawAt start .unclosedRemark
    | some s => if s = .plain ')' then return else bracketRemark start fuel

/-- the least number of repetitions that is too large -/
def repetitionLimit : Nat := 4294967295

def repetitionCount (digits : List Char) : Reading Nat := do
  let n := valueOf 10 digits
  if repetitionLimit ≤ n then throw .tooManyRepetitions
  return n

/-- bounds in braces after the opening one; none, and nothing taken, when this is no repetition -/
def braces : Reading (Option (Nat × Option Nat)) := do
  let cs := (← get).rest
  let here ← place
  let low := cs.takeWhile Char.isDigit
  let afterLow := cs.drop low.length
  let (high, length) := match afterLow with
    | ',' :: more =>
      let high := more.takeWhile Char.isDigit
      (high, low.length + 1 + high.length)
    | _ => (low, low.length)
  if length == 0 || (cs.drop length).head? != some '\x7d' then return none
  skip (length + 1)
  let least ← if low.isEmpty then pure 0 else repetitionCount low
  if high.isEmpty then return some (least, none)
  let most ← repetitionCount high
  if most < least then flawAt here .boundsReversed
  return some (least, some most)

/-- the bounds that a repetition mark sets; none when the mark stands for itself -/
def bounds (mark : Char) : Reading (Option (Nat × Option Nat)) :=
  match mark with
  | '*' => return some (0, none)
  | '+' => return some (1, none)
  | '?' => return some (0, some 1)
  | _ => braces

/-- the last piece, repeated; the mark stood at a place -/
def repetition (start : Nat) (pieces : List Piece) (least : Nat) (most : Option Nat) : Reading (List Piece) := do
  match pieces with
  | [] => flawAt start .nothingToRepeat
  | .part (.anchor _) :: _ => flawAt start .nothingToRepeat
  | .part (.rep _ _ _ _) :: _ => flawAt start .repeatedTwice
  | piece :: before =>
    let eagerness ← do
      if ← accept '?' then pure Eagerness.lazy
      else if ← accept '+' then pure Eagerness.possessive
      else pure Eagerness.greedy
    return .part (.rep (sequence piece.parts) least most eagerness) :: before

/-- the group that a choice depends on -/
def choiceGroup : Reading Nat := do
  let s ← name ')' "group name"
  if isName s then
    match (← get).names.lookup s with
    | some n => return n
    | none => flawBefore (s.length + 1) (.unknownName s)
  else
    match Text.readInt? s with
    | some (.ofNat n) =>
      if n == 0 then flawBefore (s.length + 1) .zeroGroup
      if 1073741823 ≤ n then flawBefore (s.length + 1) (.unknownGroup n)
      modify fun d => { d with asked := d.asked ++ [(n, d.place - s.length - 1)] }
      return n
    | _ => flawBefore (s.length + 1) (.badName s)

/-- the bracket that closes the group opened at a place -/
def closing (start : Nat) : Reading Unit := do
  if !(← accept ')') then flawAt start .unclosedGroup

/-- what the opening of a group says about it -/
inductive Opening where
  | group (name : Option String)
  | plain (change : ModeChange)
  | atomic
  | ahead (negated : Bool)
  | behind (negated : Bool)
  | choice (n : Nat)
  /-- a reference to a group by its name, complete -/
  | reference (p : Pattern)
  | remark
deriving DecidableEq, Repr

/-- a sign that has to be there -/
def needed : Reading Sign := do
  match ← take with
  | some s => return s
  | none => flawBefore 0 .unexpectedEnd

/-- the opening of a group after its bracket, which stands at a place -/
def opening (start : Nat) : Reading Opening := do
  if !(← accept '?') then return .group none
  let sign ← needed
  match sign with
  | .plain 'P' =>
    if ← accept '<' then return .group (some (← groupName '>'))
    else if ← accept '=' then
      let s ← groupName ')'
      match (← get).names.lookup s with
      | none => flawBefore (s.length + 1) (.unknownName s)
      | some n => return .reference (← reference n (s.length + 1))
    else
      let s ← needed
      flawBefore (s.text.length + 2) (.unknownExtension (String.ofList ('P' :: s.text)))
  | .plain ':' => return .plain {}
  | .plain '>' => return .atomic
  | .plain '=' => return .ahead false
  | .plain '!' => return .ahead true
  | .plain '<' =>
    match ← needed with
    | .plain '=' => return .behind false
    | .plain '!' => return .behind true
    | s => flawBefore (s.text.length + 2) (.unknownExtension (String.ofList ('<' :: s.text)))
  | .plain '(' =>
    let n ← choiceGroup
    checkBound n
    return .choice n
  | .plain '#' =>
    bracketRemark start ((← get).rest.length + 1)
    return .remark
  | s =>
    if (modeMark? s).isSome ∨ s = .plain '-' then return .plain (← modeChange start s)
    else flawBefore (s.text.length + 1) (.unknownExtension (String.ofList s.text))

/-- a part that is neither a group nor a repetition mark -/
def simplePart : Char → Reading Pattern
  | '[' => bracketed
  | '.' => return .any
  | '^' => return .anchor .lineStart
  | '$' => return .anchor .lineEnd
  | c => return .char c

mutual
/-- rows of parts between bars, up to a closing bracket or the end -/
def rows (spacious : Bool) : Nat → Reading (List (List Pattern))
  | 0 => return []
  | fuel + 1 => do
    let row ← pieces spacious fuel []
    if ← accept '|' then return row :: (← rows spacious fuel) else return [row]

/-- pieces up to a bar, a closing bracket or the end, after those that have been read, the last one first -/
def pieces (spacious : Bool) : Nat → List Piece → Reading (List Pattern)
  | 0, read => return read.reverse.flatMap Piece.parts
  | fuel + 1, read => do
    match ← peek with
    | none => return read.reverse.flatMap Piece.parts
    | some (.escaped c) =>
      skip 2
      pieces spacious fuel (.part (← escape c) :: read)
    | some (.plain c) =>
      if c == '|' || c == ')' then return read.reverse.flatMap Piece.parts
      let start ← place
      skip 1
      if spacious && isAsciiBlank c then pieces spacious fuel read
      else if spacious && c == '#' then
        lineRemark ((← get).rest.length + 1)
        pieces spacious fuel read
      else if ['*', '+', '?', '\x7b'].contains c then
        match ← bounds c with
        | none => pieces spacious fuel (.part (.char c) :: read)
        | some (least, most) => pieces spacious fuel (← repetition start read least most)
      else if c == '(' then
        match ← bracket spacious fuel start with
        | none => pieces spacious fuel read
        | some piece => pieces spacious fuel (piece :: read)
      else pieces spacious fuel (.part (← simplePart c) :: read)

/-- what is in brackets, after the opening one at a place; a remark is nothing -/
def bracket (spacious : Bool) : Nat → Nat → Reading (Option Piece)
  | 0, _ => return none
  | fuel + 1, start => do
    match ← opening start with
    | .remark => return none
    | .reference p => return some (.part p)
    | .group name =>
      let n ← openGroup name
      let p := sequence (alternatives (← rows spacious fuel))
      closing start
      closeGroup n p
      return some (.part (.group n p))
    | .plain change =>
      let row := alternatives
        (← rows ((spacious || change.on.contains .spacious) && !change.off.contains .spacious) fuel)
      closing start
      if change = {} then return some (.row row)
      else return some (.part (.under change.on change.off (sequence row)))
    | .atomic =>
      let p := sequence (alternatives (← rows spacious fuel))
      closing start
      return some (.part (.atomic p))
    | .ahead negated =>
      let p := sequence (alternatives (← rows spacious fuel))
      closing start
      return some (.part (.ahead negated p))
    | .behind negated =>
      let outer := (← get).bound
      modify fun d => { d with bound := d.bound.or (some d.groups.length) }
      let p := sequence (alternatives (← rows spacious fuel))
      modify fun d => { d with bound := outer }
      closing start
      let w ← widthOf p
      return some (.part (.behind negated w.fixed? p))
    | .choice n =>
      let yes ← pieces spacious fuel []
      let no ← if ← accept '|' then pieces spacious fuel [] else pure []
      if (← peek) = some (.plain '|') then flawBefore 0 .thirdBranch
      closing start
      return some (.part (.given n (sequence yes) (sequence no)))
end

/-- a whole text as one pattern, in which the groups go on counting -/
def whole (spacious : Bool) (text : String) : Reading Pattern := do
  let cs := text.toList
  modify fun d => { d with rest := cs, place := 0 }
  let row := alternatives (← rows spacious (3 * cs.length + 3))
  if (← peek).isSome then flawBefore 0 .unopenedGroup
  return sequence row

/-- every group that a choice depends on is there -/
def checkAsked : Reading Unit := do
  let d ← get
  if let some (n, place) := d.asked.find? fun (n, _) => d.groups.length < n then flawAt place (.unknownGroup n)

end Reading

/-- the pattern that a text writes down -/
def read (spacious : Bool) (text : String) : Except ReadError Pattern :=
  Prod.fst <$> (do
    let p ← Reading.whole spacious text
    Reading.checkAsked
    return p : Reading Pattern).run {}

/-- the patterns that several texts write down when they are read as alternatives of one text -/
def readTogether (spacious : Bool) (texts : List String) : Except ReadError (List Pattern) :=
  Prod.fst <$> (do
    let ps ← texts.mapM (Reading.whole spacious)
    Reading.checkAsked
    return ps : Reading (List Pattern)).run {}

end TableauTutor.Pattern
