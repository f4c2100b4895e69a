import TableauTutor.Lexicon.Basic
import TableauTutor.Lexicon.Matching
import TableauTutor.Lexicon.Reader
import TableauTutor.Lexicon.Speller
import TableauTutor.Position
import TableauTutor.Token

/-!
Lexers: a lexicon narrowed down to the languages in use. A lexer cuts a text into tokens, each time taking the first
kind whose pattern matches, and makes up tokens of a kind for a given list of tokens.

The premises are these. Kinds are tried in the order of their written patterns, longer ones first, then by name; a
pattern matches by backtracking, with earlier alternatives and more repetitions first; gaps are skipped before a kind is
tried, and a bracket that no kind matches is a token by itself. Of the spellings that tokens are made up from no more is
known than what `Speller` says.
-/

namespace TableauTutor

/-- what a lexer is built for -/
structure Selection where
  languages : List String := []
  /-- rules for reading only take part -/
  withReadOnly : Bool := false
  /-- tokens can be made up -/
  generating : Bool := true
deriving DecidableEq, Repr

namespace Selection

def allows (s : Selection) : Constraint → Bool
  | .language tag => s.languages.contains tag
  | .fresh => true
  | .readOnly => s.withReadOnly

/-- does a rule take part -/
def admits (s : Selection) (r : LexicalRule) : Bool := r.constraints.all s.allows

end Selection

/-- why a lexer cannot be built, a text not be cut into tokens, or a token not be made up -/
inductive LexiconError where
  | unbuildable
  | notTokenizable (rest : String)
  | notGeneratable (kind : String)
  | needMoreLexems (kind : String)
  | unreadable (text : String) (e : Pattern.ReadError)
  | unspelled (kind : String) (e : Pattern.SpellingError)
deriving DecidableEq, Repr

def LexiconError.message : LexiconError → String
  | unbuildable => "no lexer for these kinds"
  | notTokenizable rest => rest ++ " is not tokenizable"
  | notGeneratable kind => "Type " ++ kind ++ " is not generatable"
  | needMoreLexems kind => "Need more lexems for the " ++ kind ++ " type"
  | unreadable text e => e.message text
  | unspelled kind .nothingToChoose => "nothing to choose for the " ++ kind ++ " type"
  | unspelled kind .unspelledGroup => "a group of the " ++ kind ++ " type is used before it is spelled"

/-- a lexer: patterns by kind for reading, in the order in which they are tried, the characters skipped between tokens,
and written patterns for making up tokens, with a speller for them -/
structure Lexer where
  reading : List (String × Pattern) := []
  gaps : List Char := [' ', '\t']
  making : List (String × String) := []
  fresh : List String := []
  casing : Bool := false
  speller : Speller := .orderly
deriving Repr

namespace Lexer

/-- the lexer on the i-th of the occasions that there are next -/
def turn (x : Lexer) (i : Nat) : Lexer := { x with speller := x.speller.turn i }

/-- lexems as the alternatives of one written pattern -/
def alternation (lexems : List String) : String :=
  Text.join "|" (lexems.map fun l => "(" ++ l ++ ")")

/-- lexems by kind, each list in descending order -/
def joinLexems (pairs : List (String × String)) : List (String × List String) :=
  (groupByKey pairs).map fun (k, ls) => (k, sortBy (fun a b => b ≤ a) ls)

/-- the lexems of the rules that take part -/
def lexemsFor (x : Lexicon) (s : Selection) : List (String × String) :=
  (x.rules.filter s.admits).flatMap fun r => r.lexems.map fun l => (r.kind, l)

/-- written patterns for reading, by kind -/
def readingTexts (x : Lexicon) (s : Selection) : List (String × String) :=
  (joinLexems (lexemsFor x s)).map fun (k, ls) => (k, alternation ls)

/-- written patterns for making up tokens, by kind -/
def makingTexts (x : Lexicon) (s : Selection) : List (String × String) :=
  if s.generating then readingTexts x s else []

/-- longer written patterns first, then by name -/
def before (a b : String × String) : Bool :=
  b.2.length < a.2.length || (a.2.length == b.2.length && a.1 ≤ b.1)

/-- kinds that a lexer can have -/
def isKindName (kind : String) : Bool := !kind.isEmpty && kind.toList.all fun c => c.isAlphanum || c == '_'

/-- the parts of a name after the scopes before it; a last part is not taken for a scope -/
def dropScopes : List String → List String
  | scope :: part :: parts =>
    if scope == "ANY" || scope == "INITIAL" then dropScopes (part :: parts) else scope :: part :: parts
  | parts => parts

/-- the kind of the tokens that a rule makes -/
def tokenKind (kind : String) : String := Text.join "_" (dropScopes (Text.splitAt '_' kind))

/-- kinds whose tokens are left out -/
def isSilent (kind : String) : Bool := Text.contains "ignore_" kind

/-- is the written pattern a list of characters to be skipped rather than a rule -/
def isGapList (kind : String) : Bool := tokenKind kind == "ignore"

/-- does a rule of this kind make tokens of one of the kinds -/
def isProper (kinds : List String) (kind : String) : Bool :=
  tokenKind kind != "error" && (kinds.contains (tokenKind kind) || isSilent (tokenKind kind))

/-- a written pattern in brackets that are named for its kind -/
def namedText (rule : String × String) : String := "(?P<t_" ++ rule.1 ++ ">" ++ rule.2 ++ ")"

/-- the pattern for reading a kind can be used and matches no empty text -/
def isUsable (p : Pattern) : Bool := p.isBounded && (p.firstEnd? ⟨[], []⟩).isNone

/-- does a rule stand on its own; a repetition without end in sight is told apart -/
def checkRule (rule : String × String) : Except LexiconError Bool :=
  match Pattern.read true (namedText rule) with
  | .ok p => .ok (isUsable p)
  | .error .tooManyRepetitions => .error (.unreadable (namedText rule) .tooManyRepetitions)
  | .error _ => .ok false

/-- the patterns of rules, read together so that the groups of one count on from those of the others; rules that do not
go together are read in two halves -/
def readRules : Nat → List (String × String) → List (String × Pattern)
  | 0, _ => []
  | fuel + 1, rules =>
    let halves := readRules fuel (rules.take (rules.length / 2)) ++ readRules fuel (rules.drop (rules.length / 2))
    match Pattern.readTogether true (rules.map namedText) with
    | .ok ps => if ps.all Pattern.isBounded then (rules.map fun r => tokenKind r.1).zip ps else halves
    | .error _ => halves

/-- the lexer for a selection; there is none when no rule is left or a rule cannot be read -/
def build (x : Lexicon) (s : Selection) : Except LexiconError Lexer := do
  let texts := readingTexts x s
  let kinds := texts.map (·.1)
  let rules := sortBy before (texts.filter fun (k, _) => !isGapList k)
  let checks ← (rules.filter fun (k, _) => isProper kinds k).mapM checkRule
  if rules.isEmpty || !kinds.all isKindName || checks.contains false || !rules.all fun (k, _) => isProper kinds k then
    throw .unbuildable
  return {
    reading := readRules rules.length rules
    gaps := ((texts.lookup "ignore").map String.toList).getD [' ', '\t']
    making := makingTexts x s
    fresh := x.freshKinds
    casing := x.needsCasing }

def build? (x : Lexicon) (s : Selection) : Option Lexer := (build x s).toOption

def isBracket (c : Char) : Bool := c == '(' || c == ')'

/-- a token made from matched characters: brackets stand for themselves -/
def tokenOf (kind : String) (lexem : List Char) : Token :=
  match lexem with
  | ['('] => Token.leftBracket
  | [')'] => Token.rightBracket
  | _ => ⟨kind, String.ofList lexem, false⟩

/-- the token of the first kind whose pattern matches at a place, unless the kind is silent, and the place after it -/
def firstMatch? (s : Pattern.Place) : List (String × Pattern) → Option (Option Token × Pattern.Place)
  | [] => none
  | (k, p) :: more =>
    match p.firstEnd? s with
    | some t => some (if isSilent k then none else some (tokenOf k (s.upTo t)), t)
    | none => firstMatch? s more

/-- what there is at a place, a token or something silent, and the place after it -/
def next? (x : Lexer) (s : Pattern.Place) : Option (Option Token × Pattern.Place) :=
  match firstMatch? s x.reading with
  | some m => some m
  | none =>
    match s.rest with
    | c :: cs => if isBracket c then some (some (Token.literal (String.singleton c)), s.next c cs) else none
    | [] => none

/-- tokens from a place on; every step uses up at least one character -/
def scan (x : Lexer) (s : Pattern.Place) : Except LexiconError (List Token) :=
  match _h : s.rest with
  | [] => .ok []
  | c :: cs =>
    if x.gaps.contains c then scan x (s.next c cs)
    else
      match x.next? s with
      | none => .error (.notTokenizable (String.ofList s.rest))
      | some (t, s') =>
        if s'.rest.length < s.rest.length then do return t.toList ++ (← scan x s')
        else .error (.notTokenizable (String.ofList s.rest))
termination_by s.rest.length
decreasing_by
  · simp [_h, Pattern.Place.next]
  · assumption

/-- the tokens of a text, in lower case where case does not matter -/
def tokenize (x : Lexer) (text : String) : Except LexiconError (List Token) :=
  x.scan ⟨[], (if x.casing then text else Text.lower text).toList⟩

/-- the better of the best so far and another member: the one that is there more often -/
def better (xs : List String) (best : Option (String × Nat)) (x : String) : Option (String × Nat) :=
  match best with
  | some (y, n) => if n < xs.count x then some (x, xs.count x) else some (y, n)
  | none => some (x, xs.count x)

/-- the most frequent member, the first of those when several are -/
def mostFrequent? (xs : List String) : Option String := (xs.eraseDups.foldl (better xs) none).map (·.1)

/-- make up a token of a kind to go with the given ones: a fresh lexem where the kind asks for it, otherwise the one
used most, otherwise one that is picked -/
def generate (x : Lexer) (tokens : List (String × String)) (kind : String) : Except LexiconError (String × String) :=
  match x.making.lookup kind with
  | none => .error (.notGeneratable kind)
  | some text =>
    if x.fresh.contains kind then do
      let p ← (Pattern.read false text).mapError (.unreadable text)
      match ← (x.speller.find? p fun s =>
        !((tokens.map (·.2)).contains (String.ofList s))).mapError (.unspelled kind) with
      | some s => return (kind, String.ofList s)
      | none => throw (.needMoreLexems kind)
    else
      match mostFrequent? ((tokens.filter (·.1 == kind)).map (·.2)) with
      | some lexem => .ok (kind, lexem)
      | none => do
        let p ← (Pattern.read false text).mapError (.unreadable text)
        return (kind, String.ofList (← (x.speller.pick [] tokens p).mapError (.unspelled kind)))

end Lexer

end TableauTutor
