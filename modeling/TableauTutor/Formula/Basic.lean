import TableauTutor.Token
import TableauTutor.Connectives
import TableauTutor.Strength
import TableauTutor.Position

/-!
Formulas: lists of tokens that remember the binding strengths of their connectives once these have been computed. A
formula without remembered strengths computes them when asked; `remember` stores them.
-/

namespace TableauTutor

/-- why an operation on a formula has no result -/
inductive FormulaError where
  /-- a strength was asked for something that is no connective -/
  | unknownConnective (name : String)
  /-- there are no connectives to take a scale from -/
  | noConnectives
  /-- the scale is zero -/
  | zeroScale
  /-- a position outside the formula -/
  | noSuchPosition
  /-- nothing is left once the enclosing brackets are gone -/
  | onlyBrackets
  | unaryWithoutArgument
  /-- something other than tokens was to be joined to a formula -/
  | notTokens
  /-- a cut with step zero -/
  | zeroStep
deriving DecidableEq, Repr

def FormulaError.message : FormulaError → String
  | unknownConnective name => name
  | noConnectives => "no connectives"
  | zeroScale => "division by zero"
  | noSuchPosition => "no such position"
  | onlyBrackets => "nothing but brackets"
  | unaryWithoutArgument => "Unary operator without argument"
  | notTokens => "List must contain only Token objects"
  | zeroStep => "a step of zero"

/-- a list of tokens and the strengths remembered for it, by position -/
structure Formula (σ : Type) where
  tokens : List Token
  remembered : List (Int × σ) := []

namespace Formula

variable {σ : Type} [Strength σ]

def kinds (f : Formula σ) : List String := f.tokens.map (·.kind)
def lexems (f : Formula σ) : List String := f.tokens.map (·.lexem)
def items (f : Formula σ) : List (String × String) := f.tokens.map fun t => (t.kind, t.lexem)

/-- the formula up to notation -/
def signature (f : Formula σ) : List String := f.tokens.map (·.signature)

/-- the text under which formulas are filed -/
def filing (f : Formula σ) : String := " ".intercalate f.signature

def text (f : Formula σ) : String := " ".intercalate f.lexems
def inspect (f : Formula σ) : String := "Formula[" ++ f.text ++ "]"

/-- equal up to notation -/
def alike (f g : Formula σ) : Bool := f.signature == g.signature

/-- strength of a connective at a bracket depth -/
def strength (c : Connectives) (connective : String) (depth : Int) : Except FormulaError σ :=
  match c.precedence.lookup connective, c.scale? with
  | none, _ => .error (.unknownConnective connective)
  | some _, none => .error .noConnectives
  | some p, some scale => if scale = 0 then .error .zeroScale else .ok (Strength.measure depth p scale)

/-- strengths of the connectives among the kinds, the first of which stands at the given position and depth -/
def strengthsFrom (c : Connectives) (position depth : Int) : List String → Except FormulaError (List (Int × σ))
  | [] => .ok []
  | k :: ks =>
    if k = "(" then strengthsFrom c (position + 1) (depth + 1) ks
    else if k = ")" then strengthsFrom c (position + 1) (depth - 1) ks
    else if (c.precedence.lookup k).isSome then do
      let s ← strength c k depth
      let rest ← strengthsFrom c (position + 1) depth ks
      return (position, s) :: rest
    else strengthsFrom c (position + 1) depth ks

/-- strengths of the connectives by position: those remembered, or else those computed from the tokens -/
def strengths (c : Connectives) (f : Formula σ) : Except FormulaError (List (Int × σ)) :=
  if f.remembered.isEmpty then strengthsFrom c 0 0 f.kinds else .ok f.remembered

/-- the formula with its strengths stored -/
def remember (c : Connectives) (f : Formula σ) : Formula σ :=
  match f.strengths c with
  | .ok s => { f with remembered := s }
  | .error _ => f

/-- the smallest strength of a table -/
def weakest? : List (Int × σ) → Option σ
  | [] => none
  | (_, s) :: rest => some (rest.foldl (fun m (_, t) => if Strength.below t m then t else m) s)

/-- does every position hold a unary connective; looked at from the left, until one does not -/
def allUnary (c : Connectives) (tokens : List Token) : List Int → Except FormulaError Bool
  | [] => .ok true
  | i :: is =>
    match pick? tokens i with
    | none => .error .noSuchPosition
    | some t => if c.unary.contains t.kind then allUnary c tokens is else .ok false

/-- the position among the weakest connectives that splits the formula: the first of them when all are unary, otherwise
the last -/
def dominant (c : Connectives) (tokens : List Token) (table : List (Int × σ)) : Except FormulaError (Option Int) :=
  match weakest? table with
  | none => .ok none
  | some m => do
    let places := (table.filter fun (_, s) => Strength.same s m).map (·.1)
    if ← allUnary c tokens places then return places.min? else return places.max?

/-- position of the main connective; none in a formula without connectives -/
def mainConnective (c : Connectives) (f : Formula σ) : Except FormulaError (Option Int) := do
  dominant c f.tokens (← f.strengths c)

/-- no connective at all, or a single one in front -/
def isLiteral (c : Connectives) (f : Formula σ) : Except FormulaError Bool := do
  match ← f.mainConnective c with
  | none => return true
  | some i => return i == 0 && (← f.strengths c).length == 1

/-- the members between two cut positions; strengths are not kept -/
def cut (f : Formula σ) (start stop : Option Int) : Formula σ := ⟨TableauTutor.cut f.tokens start stop, []⟩

/-- the members between two cut positions, every step-th of them -/
def cutBy (f : Formula σ) (start stop : Option Int) (step : Int) : Except FormulaError (Formula σ) :=
  match cutBy? f.tokens start stop step with
  | some ts => .ok ⟨ts, []⟩
  | none => .error .zeroStep

/-- the formula n times over; strengths are not kept -/
def times (f : Formula σ) (n : Int) : Formula σ := ⟨repeatList n f.tokens, []⟩

/-- the formula followed by further tokens, if they are tokens; strengths are not kept -/
def combine (f : Formula σ) (more : List (Option Token)) : Except FormulaError (Formula σ) :=
  match more.mapM id with
  | some ts => .ok ⟨f.tokens ++ ts, []⟩
  | none => .error .notTokens

end Formula

end TableauTutor
