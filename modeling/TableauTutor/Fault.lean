import TableauTutor.Closing
import TableauTutor.Formula.Basic
import TableauTutor.Lexicon.Lexer
import TableauTutor.Mistake

/-!
Everything that can stop an operation on a proof or a session, as one type of causes. `Fault.message` is the text that a
person gets to see.
-/

namespace TableauTutor

/-- why a rule cannot be used the way it was asked for -/
inductive RuleError where
  | noSuchSentence
  | noSuchToken
  | atVariable
  | atNegation
  | atBracket
  | noNegation
deriving DecidableEq, Repr

def RuleError.message : RuleError → String
  | noSuchSentence => "No such sentence"
  | noSuchToken => "No such token"
  | atVariable => "You can't divide a sentence by a variable"
  | atNegation => "You can't divide a sentence by a negation"
  | atBracket => "You can't divide a sentence by a parenthesis"
  | noNegation => "You can't reduce a negation if it doesn't exist"

/-- a request that the session turns down -/
inductive Refusal where
  | noSuchSocket (name : String)
  | noSocketOrPlugin (name : String)
  | proofOpen (socket : String)
  | setupExists
  | setupMissing
  | noProof
  | noSuchRule
  | wrongContext
  | nothingToUndo
  | nothingToSave
  | madeBySolver
  | saveExists
  | proofStarted
  | saveMissing
  | noNeighbour (direction : String)
  | noBranch (name : String)
  | allClosed
  /-- a complaint of another part, passed on in its own words -/
  | relayed (text : String)
deriving DecidableEq, Repr

def Refusal.message : Refusal → String
  | noSuchSocket name => "There is no socket named " ++ name
  | noSocketOrPlugin name => "Socket/plugin " ++ name ++ " not found in the program"
  | proofOpen socket => "Finish your proof before changing the " ++ socket ++ " plugin"
  | setupExists => "This setup already exists"
  | setupMissing => "This setup doesn't exists"
  | noProof => "There is no proof started"
  | noSuchRule => "No such rule"
  | wrongContext => "Wrong context"
  | nothingToUndo => "Nothing to undo"
  | nothingToSave => "There is no proof to save"
  | madeBySolver => "Cannot save autogenerated proofs"
  | saveExists => "Plik o podanej nazwie juz istnieje"
  | proofStarted =>
    "There is already a proof started. Save or finish it and leave the current proof to load a saved one."
  | saveMissing => "There is no such save file"
  | noNeighbour direction => "There is no branch on the " ++ direction
  | noBranch name => "Branch '" ++ name ++ "' doesn't exist in this proof"
  | allClosed => "All branches are closed"
  | relayed text => text

/-- something was expected to hold and does not -/
inductive Broken where
  | structureExists
  | unequalLengths
  | unequalDepths
  | illFormedPair (left right : Bool)
  | undefinedRule
  | ruleGaveNothing
  | closesInnerNode
  | endsInnerNode
  | unequalBranchCount
  | illFormedFormula (complaint : String)
  | relativePath
  | versionFormat
  | noSocketName
  | noVersion
  | nothingToFind
  | elsewhere
  /-- a condition without words -/
  | unnamed
deriving DecidableEq, Repr

def Broken.message : Broken → String
  | structureExists => "Tuple structure already exists"
  | unequalLengths => "Tuples not of equal length"
  | unequalDepths => "Tuples not of equal depth"
  | illFormedPair left right =>
    (if left then "left" else "") ++ (if left && right then " and " else "") ++ (if right then "right" else "") ++
      "tuple is messed up"
  | undefinedRule => "Reguła nie została zdefiniowana"
  | ruleGaveNothing => "Reguła nie zwróciła nic"
  | closesInnerNode => "Można zamykać tylko liście"
  | endsInnerNode => "Gałąź nie jest kompletna, gdyż węzeł nie jest liściem"
  | unequalBranchCount => "Liczba gałęzi i list komend dla historii powinna być taka sama"
  | illFormedFormula complaint => "Formuła jest niepoprawna: " ++ complaint
  | relativePath => "Path not absolute"
  | versionFormat => "Wrong version format"
  | noSocketName => "No socket name in the plugin"
  | noVersion => "No plugin version in the plugin"
  | nothingToFind => "Jedno trzeba dostarczyć"
  | elsewhere => "cwd musi być folderem `tests` położonym równolegle do `app`"
  | unnamed => ""

/-- why a plugin is not accepted by a socket -/
inductive PluginError where
  | noPlugin (socket : String)
  /-- the plugin is for another socket -/
  | wrongSocket (text : String)
  | versionFormat (version : String)
  /-- the plugin has another version than the socket -/
  | wrongVersion (text : String)
  | lacksFunctions (names : List String)
  | otherArguments (function : String)
  | otherResult (function : String)
deriving DecidableEq, Repr

def PluginError.message : PluginError → String
  | noPlugin socket => socket ++ " lacks a plugin"
  | wrongSocket text => text
  | versionFormat version => "Wrong version format used in the plugin: " ++ version
  | wrongVersion text => text
  | lacksFunctions names => Text.join ", " names
  | otherArguments function => "arguments of " ++ function
  | otherResult function => "return of " ++ function

/-- why a file cannot be fetched -/
inductive FetchError where
  | noSuchSocket
  | noSuchPlugin
  | noSuchSetup
  | notFetched
deriving DecidableEq, Repr

def FetchError.message : FetchError → String
  | noSuchSocket => "No such socket"
  | noSuchPlugin => "No such plugin"
  | noSuchSetup => "No such setup exists"
  | notFetched => "Couldn't download the file"

/-- why a typed line is no command -/
inductive CommandError where
  | notFound
  | moreNeeded
  | tooMany
deriving DecidableEq, Repr

def CommandError.message : CommandError → String
  | notFound => "Command not found"
  | moreNeeded => "More arguments needed"
  | tooMany => "Too many arguments"

/-- why an operation has no result -/
inductive Fault where
  | formula (e : FormulaError)
  | lexicon (e : LexiconError)
  | template (e : TemplateError)
  | rule (e : RuleError)
  | mistake (m : Mistake)
  | refusal (e : Refusal)
  | broken (e : Broken)
  | plugin (e : PluginError)
  | fetch (e : FetchError)
  | command (e : CommandError)
  /-- a text that is no direction -/
  | direction (text : String)
  /-- a sentence that no mistake describes -/
  | malformed
  /-- a position outside a sequence -/
  | outOfRange (text : String)
  | missingKey (key : String)
  /-- a value of a kind that the operation cannot take -/
  | wrongKind (text : String)
  | badValue (text : String)
  /-- something was asked of a value that does not have it -/
  | missingPart (text : String)
  /-- an empty sentence has no part to start from -/
  | noStart
  | fileMissing (text : String)
  | fileExists (text : String)
  /-- a folder where a file is needed -/
  | isFolder (text : String)
  /-- a file where a folder is needed -/
  | notFolder (text : String)
  /-- asked of a socket that never loads its plugin -/
  | dummySocket
  | illFormedMarkup
  /-- a file that should hold data and does not -/
  | illFormedData
  /-- the program is to end -/
  | exit
deriving Repr

def Fault.message : Fault → String
  | formula e => e.message
  | lexicon e => e.message
  | template e => e.message
  | rule e => e.message
  | mistake m => m.default
  | refusal e => e.message
  | broken e => e.message
  | plugin e => e.message
  | fetch e => e.message
  | command e => e.message
  | direction text => "'" ++ text ++ "' is not a valid direction"
  | malformed => "Zdanie nie jest poprawne"
  | outOfRange text => text
  | missingKey key => Text.quoted key
  | wrongKind text => text
  | badValue text => text
  | missingPart text => text
  | noStart => "the sentence is empty"
  | fileMissing text => text
  | fileExists text => text
  | isFolder text => text
  | notFolder text => text
  | dummySocket => "It's a dummy"
  | illFormedMarkup => ""
  | illFormedData => "Expecting value: line 1 column 1 (char 0)"
  | exit => ""

/-- an operation that may fail -/
abbrev Outcome (α : Type) := Except Fault α

/-- an outcome as a step of a computation with a state -/
def Outcome.lift {m : Type → Type} [Monad m] {α : Type} (x : Outcome α) : ExceptT Fault m α := ExceptT.mk (pure x)

def Outcome.ofFormula {α : Type} (x : Except FormulaError α) : Outcome α := x.mapError .formula
def Outcome.ofLexicon {α : Type} (x : Except LexiconError α) : Outcome α := x.mapError .lexicon

end TableauTutor
