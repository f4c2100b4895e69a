import TableauTutor.Calculus.Basic

/-!
Making up formulas. The shape of a formula is drawn as a list of arities, shuffled and turned round until it describes a
tree in prefix order; then connectives and variables are drawn while the formula is written. Draws come from a list of
numbers that is read over and over, and each symbol is made up on an occasion of its own.
-/

namespace TableauTutor

/-- numbers to draw from, how many have been drawn, and how many symbols have been made up -/
structure Draws where
  numbers : List Int := [0]
  drawn : Nat := 0
  spelled : Nat := 0
deriving DecidableEq, Repr, Inhabited

/-- a computation that draws and may fail; draws made before a failure stay made -/
abbrev Drawing := ExceptT Fault (StateM Draws)

namespace Drawing

/-- a number below n -/
def below (n : Nat) : Drawing Nat := do
  let d ← get
  set { d with drawn := d.drawn + 1 }
  return (((d.numbers[d.drawn % d.numbers.length]?).getD 0) % (n : Int)).toNat

/-- one of the members -/
def choice {α : Type} (xs : List α) : Drawing α := do
  if xs.isEmpty then throw (.outOfRange "nothing to draw from")
  match xs[← below xs.length]? with
  | some x => return x
  | none => throw (.outOfRange "nothing to draw from")

/-- n members, drawn one after another -/
def choices {α : Type} (xs : List α) : Nat → Drawing (List α)
  | 0 => return []
  | n + 1 => do
    let x ← choice xs
    return x :: (← choices xs n)

/-- two members exchanged -/
def swap {α : Type} (xs : List α) (i j : Nat) : List α :=
  match xs[i]?, xs[j]? with
  | some x, some y => (xs.set i y).set j x
  | _, _ => xs

/-- every position from i down to one exchanged with one that is not behind it -/
def shuffleFrom {α : Type} : Nat → List α → Drawing (List α)
  | 0, xs => return xs
  | i + 1, xs => do
    let j ← below (i + 2)
    shuffleFrom i (swap xs (i + 1) j)

def shuffle {α : Type} (xs : List α) : Drawing (List α) := shuffleFrom (xs.length - 1) xs

/-- arities of l inner nodes and of the leaves that go with them, in random order -/
def arities (l : Int) (possible : List Int) : Drawing (List Int) := do
  let inner ← choices possible l.toNat
  shuffle (inner ++ repeatList (inner.foldl (· + ·) 0 + 1 - l) [0])

/-- one arity read on the way to the turning point: the leaves that are left over since, and the point so far -/
def turnStep (s : Int × Nat) (r : Int × Nat) : Int × Nat :=
  if s.1 + 1 - r.1 = 1 then (0, r.2) else (s.1 + 1 - r.1, s.2)

/-- the last position at which the leaves read since the one before outnumber, by one, what the inner nodes take up -/
def turningPoint (as : List Int) : Nat := (as.zipIdx.foldl turnStep (0, 0)).2

/-- the arities turned round behind their turning point -/
def rotate (as : List Int) : List Int :=
  let k := turningPoint as
  as.drop (k + 1) ++ as.take (k + 1)

/-- the shape of a formula with l connectives -/
def shape (l : Int) (possible : List Int) : Drawing (List Int) := do return rotate (← arities l possible)

/-- a symbol made up to go with a sentence -/
def makeUp (x : Lexer) (s : Sentence) (kind : String) : Drawing Symbol := do
  let d ← get
  set { d with spelled := d.spelled + 1 }
  Outcome.lift (s.generate (x.turn d.spelled) kind)

/-- n different variables -/
def drawVariables (x : Lexer) (kind : String) : Nat → Sentence → Drawing Sentence
  | 0, vs => return vs
  | n + 1, vs => do
    let v ← makeUp x vs kind
    drawVariables x kind n (vs ++ [v])

/-- a formula written behind a sentence. Two-place connectives stand between their arguments, in brackets; every
argument is written from the arities that follow the connective -/
def write (x : Lexer) (connectives : List (Int × List String)) (vars : Sentence) :
    List Int → Sentence → Drawing Sentence
  | [], _ => throw (.outOfRange "the shape ends too early")
  | a :: rest, s =>
    if a = 0 then do return s ++ [← choice vars]
    else do
      let some kinds := connectives.lookup a | throw (.missingKey (toString a))
      let main ← makeUp x s (← choice kinds)
      if a = 2 then
        let s ← write x connectives vars rest (s ++ ["("])
        let s ← write x connectives vars rest (s ++ [main])
        return s ++ [")"]
      else (List.range a.toNat).foldlM (fun s _ => write x connectives vars rest s) (s ++ [main])

/-- a formula of the given shape over n variables -/
def fromShape (x : Lexer) (shape : List Int) (connectives : List (Int × List String)) (n : Int) (kind : String) :
    Drawing Sentence := do
  let vars ← drawVariables x kind n.toNat []
  write x connectives vars shape []

/-- a formula drawn from connectives by arity -/
def formula (x : Lexer) (length : Int) (connectives : List (Int × List String)) (n : Int) (kind : String) :
    Drawing Sentence := do
  fromShape x (← shape length (connectives.map (·.1))) connectives n kind

end Drawing

/-- connectives of practice formulas, by arity -/
def Calculus.practiceConnectives : List (Int × List String) := [(2, ["and", "or", "imp"]), (1, ["not"])]

/-- a formula of propositional logic for practice; it has to pass the syntax check -/
def Calculus.practice (c : Calculus) (x : Lexer) (length vars : Int) : Drawing Sentence := do
  let s ← Drawing.formula x length practiceConnectives vars "sentvar"
  match ← Outcome.lift (c.checkSyntax s) with
  | none => return s
  | some m => throw (.broken (.illFormedFormula m.default))

end TableauTutor
