/-!
Which kinds of tokens are connectives, how strongly each binds, and which of them take one argument.
-/

namespace TableauTutor

/-- the connectives of a language: a precedence for each, and the unary ones -/
structure Connectives where
  precedence : List (String × Int)
  unary : List String
deriving DecidableEq, Repr

namespace Connectives

/-- one more than the highest precedence; none without connectives -/
def scale? (c : Connectives) : Option Int := (c.precedence.map (·.2)).max?.map (· + 1)

/-- a small language for trying formulas out -/
def sample : Connectives where
  precedence := [("neg", 3), ("unary", 3), ("and", 2), ("or", 2), ("imp", 1)]
  unary := ["neg", "unary"]

/-- the connectives of propositional logic, as both calculi read them -/
def propositional : Connectives where
  precedence := [("and", 3), ("or", 3), ("imp", 2), ("not", 4)]
  unary := ["not"]

end Connectives

end TableauTutor
