import TableauTutor.Datum
import TableauTutor.Text.Case

/-!
Lexicons: for every kind of token the spellings it may have, declared under constraints. A constraint ties a rule to a
language, asks for fresh spellings when a token of the kind is made up, or keeps the rule out of making up tokens.
-/

namespace TableauTutor

/-- a condition under which a rule of a lexicon is declared -/
inductive Constraint where
  /-- the rule belongs to a language -/
  | language (tag : String)
  /-- a token that is made up must not be in the sentence yet -/
  | fresh
  /-- the rule is there for reading only -/
  | readOnly
deriving DecidableEq, Repr

/-- the written patterns of a kind of token, with the constraints they were declared under, outermost first -/
structure LexicalRule where
  constraints : List Constraint
  kind : String
  lexems : List String
deriving DecidableEq, Repr

/-- a collection of different rules -/
structure Lexicon where
  rules : List LexicalRule := []
deriving DecidableEq, Repr

namespace Lexicon

/-- add a rule, unless it is there already -/
def declare (constraints : List Constraint) (kind : String) (lexems : List String) (x : Lexicon) : Lexicon :=
  let rule : LexicalRule := ⟨constraints, kind, lexems⟩
  if x.rules.contains rule then x else ⟨x.rules ++ [rule]⟩

/-- why a value declares no lexems -/
inductive LexemError where
  /-- the case of a member that is no text is asked for -/
  | noCase
  /-- a member cannot be told from others, or not be sorted among them -/
  | noOrder
deriving DecidableEq, Repr

def isNested : Datum → Bool
  | .list _ => true
  | .record _ => true
  | _ => false

/-- the lexems that a value declares: a text is the only one, a list or the keys of a record are several, and another
value declares none. Members are asked for their case up to the first one in capitals -/
def lexemsIn (d : Datum) : Except LexemError (Option (List String)) :=
  if d.isText then .ok (some [d.shown])
  else
    match d.parts? with
    | none => .ok none
    | some members =>
      if members.all Datum.isText then .ok (some (members.map Datum.shown))
      else if members.any isNested then .error .noOrder
      else if (members.takeWhile Datum.isText).any fun m => Text.isUpper m.shown then .error .noOrder
      else .error .noCase

/-- does some lexem consist of capitals, so that case matters -/
def needsCasing (x : Lexicon) : Bool := x.rules.any fun r => r.lexems.any Text.isUpper

/-- kinds declared as fresh -/
def freshKinds (x : Lexicon) : List String :=
  ((x.rules.filter fun r => r.constraints.contains .fresh).map (·.kind)).eraseDups

/-- the lexicon of the formal languages that the program knows -/
def classic : Lexicon where
  rules :=
    let signed := [Constraint.language "signed"]
    let propositional := [Constraint.language "propositional"]
    let predicate := [Constraint.language "predicate"]
    let sequents := [Constraint.language "sequent calculus"]
    [ ⟨signed, "signtrue", ["T"]⟩,
      ⟨signed, "signfalse", ["F"]⟩,
      ⟨propositional ++ [.language "uses negation"], "not", ["not", "~", "\\!"]⟩,
      ⟨propositional, "and", ["oraz", "and", "\\^", "&"]⟩,
      ⟨propositional, "or", ["lub", "or", "\\|", "v"]⟩,
      ⟨propositional, "imp", ["imp", "->"]⟩,
      ⟨propositional ++ [.fresh], "sentvar", ["[a-z]"]⟩,
      ⟨propositional ++ [.readOnly], "sentvar", ["\\w+"]⟩,
      ⟨predicate, "forall", ["forall", "/\\", "A"]⟩,
      ⟨predicate, "exists", ["exists", "\\/", "E"]⟩,
      ⟨predicate ++ [.fresh], "constant", ["[a-t]", "\\d"]⟩,
      ⟨predicate ++ [.fresh], "indvar", ["[u-z]"]⟩,
      ⟨predicate ++ [.fresh], "predicate", ["[P-Z]"]⟩,
      ⟨predicate ++ [.fresh], "function", ["[F-O]"]⟩,
      ⟨sequents, "turnstile", ["=>", "\\|-"]⟩,
      ⟨sequents, "sep", [";"]⟩,
      ⟨sequents, "falsum", ["bot", "F"]⟩ ]

end Lexicon

end TableauTutor
