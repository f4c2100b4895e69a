import TableauTutor.Sentence.Basic

/-!
Histories: the set of sentences that have been used up on the way to a node of a proof. A history is changed by
commands; a command that computes a new history works on a copy, and whatever follows it works on that copy too.
-/

namespace TableauTutor

/-- a set of sentences, in the order in which they came -/
structure History where
  used : List Sentence := []
deriving DecidableEq, Repr, Inhabited

namespace History

def contains (h : History) (s : Sentence) : Bool := h.used.contains s

def insert (h : History) (s : Sentence) : History := if h.contains s then h else ⟨h.used ++ [s]⟩

/-- does a sentence stand before another, or is it the same, when they are compared symbol by symbol -/
def inOrder : Sentence → Sentence → Bool
  | [], _ => true
  | _ :: _, [] => false
  | x :: xs, y :: ys => if x = y then inOrder xs ys else x < y

/-- the used sentences in the order of their symbols -/
def sorted (h : History) : List Sentence := h.used.mergeSort inOrder

/-- a change of a history -/
inductive Command where
  | add (s : Sentence)
  /-- minus one clears the history, every other number does nothing -/
  | number (n : Int)
  /-- go on with a copy that is computed from the history -/
  | compute (f : History → Outcome History)
  /-- something that is no command, of the named kind -/
  | foreign (kind : String)

/-- one command -/
def step (num : Nat) (h : History) : Command → Outcome History
  | .add s => return h.insert s
  | .number n => return if n = -1 then {} else h
  | .compute f => f h
  | .foreign kind =>
    throw (.wrongKind ("Historia nie przyjmuje typu " ++ kind ++ " (komenda " ++ toString (num + 1) ++ ".)"))

/-- commands in a row, the first of which has the given number. `copy` is the history they act on once one has been
computed; what is done to it is not seen in the history itself -/
def runFrom (num : Nat) (h : History) (copy : Option History) : List Command → History × Outcome Unit
  | [] => (h, .ok ())
  | c :: cs =>
    match step num (copy.getD h) c, copy, c with
    | .error e, _, _ => (h, .error e)
    | .ok k, some _, _ => runFrom (num + 1) h (some k) cs
    | .ok k, none, .compute _ => runFrom (num + 1) h (some k) cs
    | .ok k, none, _ => runFrom (num + 1) k none cs

/-- a history after commands, and whether all of them could be carried out -/
def run (h : History) (cs : List Command) : History × Outcome Unit := runFrom 0 h none cs

end History

end TableauTutor
