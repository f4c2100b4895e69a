import TableauTutor.Formula.Basic

/-!
Taking formulas apart: brackets around the whole are dropped, brackets that a cut left open are closed again, and a
formula falls into its main connective and the parts on either side of it.
-/

namespace TableauTutor.Formula

variable {σ : Type} [Strength σ]

/-- how many pairs of brackets enclose the tokens, and what they enclose -/
def stripPairs : List Token → Except FormulaError (Nat × List Token)
  | [] => .error .onlyBrackets
  | t :: ts =>
    if t = Token.leftBracket ∧ (t :: ts).getLast? = some Token.rightBracket then do
      let (n, core) ← stripPairs ts.dropLast
      return (n + 1, core)
    else .ok (0, t :: ts)
termination_by ts => ts.length
decreasing_by
  simp only [List.length_dropLast, List.length_cons]
  omega

/-- counts of left and right brackets read so far, and the largest surplus of right ones -/
structure BracketCount where
  left : Nat := 0
  right : Nat := 0
  surplus : Nat := 0
deriving DecidableEq, Repr

def BracketCount.step (b : BracketCount) (t : Token) : BracketCount :=
  if t = Token.leftBracket then { b with left := b.left + 1 }
  else if t = Token.rightBracket then
    { b with right := b.right + 1, surplus := max b.surplus (b.right + 1 - b.left) }
  else b

def countBrackets (tokens : List Token) : BracketCount := tokens.foldl BracketCount.step {}

/-- enclosing pairs dropped, then the fewest brackets added in front and at the end that leave none without a partner -/
def reduceBrackets (f : Formula σ) : Except FormulaError (Formula σ) :=
  if f.tokens.length < 2 then .ok ⟨f.tokens, []⟩
  else do
    let (removed, core) ← stripPairs f.tokens
    let b := countBrackets core
    return {
      tokens := List.replicate b.surplus Token.leftBracket ++ core ++
        List.replicate (b.left + b.surplus - b.right) Token.rightBracket
      remembered := mapKeys (· - ((removed : Int) - b.surplus)) f.remembered }

/-- a part of a formula, brackets first balanced and then dropped where they enclose
the whole; none for an empty part -/
def part (tokens : List Token) (remembered : List (Int × σ)) : Except FormulaError (Option (Formula σ)) :=
  if tokens.isEmpty then .ok none
  else do
    let once ← reduceBrackets ⟨tokens, remembered⟩
    return some (← once.reduceBrackets)

/-- the parts on either side of a position -/
def split (f : Formula σ) (i : Int) : Except FormulaError (Option (Formula σ) × Option (Formula σ)) := do
  let (l, r) := splitAtKey f.remembered i
  let left ← part (TableauTutor.cut f.tokens none (some i)) l
  let right ← part (TableauTutor.cut f.tokens (some (i + 1)) none) r
  return (left, right)

/-- a main connective with the parts on either side of it -/
structure Components (σ : Type) where
  connective : Token
  left : Option (Formula σ)
  right : Option (Formula σ)

/-- the main connective and the parts on either side of it; the position is found in the formula as it stands, the split
is made where the enclosing brackets are gone -/
def components (c : Connectives) (f : Formula σ) : Except FormulaError (Option (Components σ)) := do
  let reduced ← f.reduceBrackets
  match ← f.mainConnective c with
  | none => return none
  | some i =>
    match pick? reduced.tokens i with
    | none => throw .noSuchPosition
    | some t =>
      let (left, right) ← reduced.split i
      return some ⟨t, left, right⟩

/-- the formula after its parts have been asked for: strengths are stored once the brackets could be reduced -/
def afterComponents (c : Connectives) (f : Formula σ) : Formula σ :=
  match f.reduceBrackets with
  | .ok _ => f.remember c
  | .error _ => f

/-- leading connectives among the chosen ones removed, at most `fuel` of them -/
def dropUnary (c : Connectives) (chosen : List String) : Nat → Formula σ → Except FormulaError (Formula σ)
  | 0, f => f.reduceBrackets
  | fuel + 1, f => do
    match ← f.components c with
    | none => (f.afterComponents c).reduceBrackets
    | some k =>
      if chosen.contains k.connective.kind then
        match k.right with
        | none => throw .unaryWithoutArgument
        | some g => dropUnary c chosen fuel g
      else (f.afterComponents c).reduceBrackets

/-- leading unary connectives removed: the chosen ones, or all of the language when none is chosen -/
def removeMainUnary (c : Connectives) (chosen : List String) (f : Formula σ) : Except FormulaError (Formula σ) :=
  dropUnary c (if chosen.isEmpty then c.unary else chosen) (f.tokens.length + f.remembered.length + 2) f

end TableauTutor.Formula
