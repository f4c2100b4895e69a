import TableauTutor.Calculus.Basic

/-!
Using a rule on a branch with the context that a person gave: the sentence must exist and must not be used up.
-/

namespace TableauTutor

/-- what a person names when using a rule -/
abbrev Context := List (String × Datum)

namespace Calculus

def notNumber : Fault := .wrongKind "not a number"
def notIndex : Fault := .wrongKind "not a position"

/-- a number in a context: a whole one, or mantissa · 10^(-places), which can be compared but names no position -/
inductive Numeral where
  | whole (n : Int)
  | decimal (mantissa : Int) (places : Nat)
deriving DecidableEq, Repr

/-- the number that a datum stands for -/
def numeral (d : Datum) : Outcome Numeral :=
  match d with
  | .decimal m p => return .decimal m p
  | .whole n => return .whole n
  | .flag b => return .whole (if b then 1 else 0)
  | _ => throw notNumber

/-- is a decimal below zero, or not below n -/
def outside (n : Nat) (mantissa : Int) (places : Nat) : Bool :=
  mantissa < 0 || ((n * Nat.pow 10 places : Nat) : Int) ≤ mantissa

/-- the position that a datum names in a sequence of length n: none outside it -/
def position (n : Nat) (d : Datum) : Outcome (Option Int) := do
  match ← numeral d with
  | .whole i => return if 0 ≤ i ∧ i < n then some i else none
  | .decimal m p => if outside n m p then return none else throw notIndex

def noSuchSentence : Mistake := ⟨"no such sentence", "No such sentence", .none⟩
def alreadyUsed : Mistake :=
  ⟨"already used", "This sentence was already used in a non-reusable rule", .none⟩

/-- the token number in a context for a decomposition of the sentence; a number that is not whole names no token -/
def tokenNumber (c : Calculus) (s : Sentence) (context : Context) : Outcome Int := do
  let some d := context.lookup "tokenID" | throw argumentCount
  match ← numeral d with
  | .whole j => return j
  | .decimal m p =>
    let shift ← match c with
      | unsigned => pure 0
      | signed => signShift s
    if outside s.length (m + shift * (Nat.pow 10 p : Nat)) p then throw (.rule .noSuchToken) else throw notIndex

/-- what using a rule on a branch adds, and the sentence it was used on; none when the rule yields nothing -/
def useRule (c : Calculus) (x : Lexer) (name : String) (branch : List Sentence) (used : History) (context : Context) :
    Outcome (Option (Growth × Sentence)) := do
  let some m := method? name | throw (.missingKey name)
  let some d := context.lookup "sentenceID" | throw (.missingKey "sentenceID")
  let some i ← position branch.length d | throw (.mistake noSuchSentence)
  let some s := pick? branch i | throw (.mistake noSuchSentence)
  if used.contains s then throw (.mistake alreadyUsed)
  let numbers ← match m with
    | .doubleNegation => pure [i]
    | .decomposition _ => do pure [i, ← c.tokenNumber s context]
  match ← c.naive x m branch numbers with
  | none => return none
  | some g => return some (g, s)

end Calculus

end TableauTutor
