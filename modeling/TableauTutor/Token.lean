import TableauTutor.Text.Case

/-!
Tokens: the letters of a formal alphabet. A token has a kind (what it is: a variable, a connective), a lexem (how it was
written) and a mark for literals, which stand for themselves, as brackets do.
-/

namespace TableauTutor

/-- one letter of a formal alphabet -/
structure Token where
  kind : String
  lexem : String
  isLiteral : Bool := false
deriving DecidableEq, Repr

namespace Token

/-- a token that stands for itself -/
def literal (s : String) : Token := ⟨s, s, true⟩

def leftBracket : Token := literal "("
def rightBracket : Token := literal ")"

/-- the token with its kind in capitals, for inspection -/
def inspect (t : Token) : String :=
  (if t.isLiteral then "Literal" else Text.upper t.kind) ++ "(" ++ t.lexem ++ ")"

/-- what identifies the token when notation does not matter: the kind of a
variable-like token, the lexem of any other -/
def signature (t : Token) : String :=
  if ["indvar", "constant", "predicate", "function", "sentvar"].contains t.kind then t.kind else t.lexem

end Token

end TableauTutor
