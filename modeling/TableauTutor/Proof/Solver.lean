import TableauTutor.Proof.Basic

/-!
The solver. Sentences that a rule can take apart wait in a list for each rule, once for every branch they are on. Rules
are tried in a fixed order: first those that remove a double negation, then those that do not branch, then those that
do. Before a rule is used, everything that the earlier rules can do is done.
-/

namespace TableauTutor

/-- an unsigned sentence that waits to be taken apart on a branch, with its position there -/
structure Pending where
  sentence : Sentence
  branch : String
  position : Nat
deriving DecidableEq, Repr

/-- what waits, by the name of the rule -/
abbrev Agenda := List (String × List Pending)

namespace Agenda

def empty : Agenda := Calculus.ruleNames.map fun n => (n, [])

def waiting (a : Agenda) (rule : String) : List Pending := (a.lookup rule).getD []

/-- something more to wait for a rule that exists -/
def add (a : Agenda) (rule : String) (x : Pending) : Outcome Agenda :=
  match a.lookup rule with
  | none => throw (.missingKey rule)
  | some xs => return put rule (xs ++ [x]) a

/-- what waits on a branch put on other branches too -/
def spread (a : Agenda) (target : String) (branches : List String) : Agenda :=
  a.map fun (rule, xs) => (rule, xs ++ (xs.filter (·.branch == target)).flatMap fun x =>
    branches.map fun b => { x with branch := b })

def dropBranches (a : Agenda) (closed : List String) : Agenda :=
  a.map fun (rule, xs) => (rule, xs.filter fun x => !closed.contains x.branch)

/-- how much a sentence can still be taken apart: a rule takes away more than it adds -/
def weight (s : Sentence) : Nat :=
  s.foldr (fun y n => (if y.kind = "not" then 1 else if ["and", "or", "imp"].contains y.kind then 2 else 0) + n) 0

/-- the weight of what waits on a branch, and one more for each that waits -/
def load (xs : List Pending) (branch : String) : Nat :=
  (xs.filter (·.branch == branch)).foldr (fun x n => weight x.sentence + 1 + n) 0

/-- a bound on the number of sentences that are ever taken from an agenda: each that is taken leaves at most two
branches with less weight than before -/
def bound (a : Agenda) : Nat :=
  let all := a.flatMap (·.2)
  (all.map (·.branch)).eraseDups.foldr (fun b n => Nat.pow 2 (load all b) + n) 1

end Agenda

namespace Proof

/-- what waits on the open branches of a proof -/
def agenda (e : Setting) (p : Proof) : Outcome Agenda :=
  (p.tree.leaves.filter (·.data.closed.isNone)).foldlM (fun a q =>
    (q.path.zipIdx).foldlM (fun a (n, i) => do
      if q.data.history.contains n.sentence then return a
      match ← e.calculus.ruleFor e.lexer n.sentence with
      | none => return a
      | some rule => a.add rule ⟨← e.calculus.toPlain e.lexer n.sentence, q.data.branch, i⟩) a) Agenda.empty

/-- the number of the symbol that a move of the solver is recorded with -/
def movedToken (c : Calculus) (rule : String) (s : Sentence) : Outcome Int := do
  let noNumber : Fault := .wrongKind "no main connective"
  if Text.startsWith "false" rule then
    let some k ← s.parts | throw (.wrongKind "no main connective")
    let some t := k.right | throw (.missingPart "the argument is missing")
    let some i ← t.mainConnective | throw noNumber
    return i + (if c = .unsigned then 2 else 1)
  else
    let some i ← s.mainConnective | throw noNumber
    return i + (if c = .unsigned then 0 else 1)

/-- a waiting sentence taken apart; the positions of the node it hung below and of the first node after what was made -/
def takeApart (e : Setting) (rule : String) (x : Pending) : Work (Nat × Nat) := do
  let some m := Calculus.method? rule | throw (.missingKey rule)
  let some branches ← Outcome.lift (e.calculus.strict e.lexer m x.sentence) | throw (.broken .ruleGaveNothing)
  let q ← Outcome.lift ((← get).leaf x.branch)
  let layer ← grow e x.branch (branches.map (·.map some))
  let s ← Outcome.lift (e.calculus.toNode e.lexer x.sentence)
  markUsed q.position branches.length s
  let token ← Outcome.lift (movedToken e.calculus rule x.sentence)
  let context : Context := [("sentenceID", .whole x.position), ("tokenID", .whole token)]
  modify fun p => { p with
    used := p.used ++ [{ layer, branch := x.branch, rule, context, decisions := .record [], auto := true }] }
  let made := ((← get).tree.place? q.position).map (·.tree.size)
  return (q.position, q.position + made.getD 1)

/-- the places between two positions -/
def placesBetween (p : Proof) (start stop : Nat) : List ProofTree.Place := (p.tree.places.take stop).drop start

/-- what was made put on the agenda -/
def enlist (e : Setting) (new : List ProofTree.Place) (a : Agenda) : Outcome Agenda :=
  new.foldlM (fun a q => do
    if q.data.closed.isSome then return a
    match ← e.calculus.ruleFor e.lexer q.data.sentence with
    | none => return a
    | some rule => a.add rule ⟨← e.calculus.toPlain e.lexer q.data.sentence, q.data.branch, q.depth⟩) a

/-- one waiting sentence taken apart, the new ends closed where they can be, and the agenda brought up to date; `closed`
lists the branches closed since the rule was taken up -/
def advance (e : Setting) (rule : String) (x : Pending) (closed : List String) (a : Agenda) :
    Work (List String × Agenda) := do
  let (top, stop) ← takeApart e rule x
  let made := (← get).placesBetween (top + 1) stop
  let closed ← made.foldlM (fun closed q => do
    match ← dealClosure e q.data.branch with
    | some _ => return closed ++ [q.data.branch]
    | none => return closed) closed
  let new := (← get).placesBetween (top + 1) stop
  let branches := (new.map (·.data.branch)).eraseDups
  let target := ((new.getLast?.bind fun q => q.above.getLast?).map (·.1.branch)).getD x.branch
  let a := if 1 < branches.length then a.spread target (branches.filter (· != target)) else a
  return (closed, ← Outcome.lift (enlist e new a))

/-- a rule used on what waits for it, last come first, until nothing does -/
def exhaust (e : Setting) (rule : String) : Nat → List String → Agenda → Work Agenda
  | 0, closed, a => return a.dropBranches closed
  | fuel + 1, closed, a =>
    match (a.waiting rule).getLast? with
    | none => return a.dropBranches closed
    | some x => do
      let a := put rule (a.waiting rule).dropLast a
      if closed.contains x.branch then exhaust e rule fuel closed a
      else
        let (closed, a) ← advance e rule x closed a
        exhaust e rule fuel closed a

/-- a rule used until nothing waits for it, if something does -/
def propagate (e : Setting) (fuel : Nat) (rule : String) (a : Agenda) : Work Agenda :=
  if (a.waiting rule).isEmpty then return a else exhaust e rule fuel [] a

/-- rules used one after another as long as something waits for one of them; whether the proof got closed -/
def saturate (e : Setting) (bound : Nat) (rules : List String) : Nat → Agenda → Work (Bool × Agenda)
  | 0, a => return (false, a)
  | fuel + 1, a =>
    if rules.all fun r => (a.waiting r).isEmpty then return (false, a)
    else do
      let a ← rules.foldlM (fun a r => propagate e bound r a) a
      if (← get).tree.isClosed then return (true, a) else saturate e bound rules fuel a

/-- rules tried one after another, each together with those before it; when all fail, what they did is taken back -/
def tryRules (e : Setting) (bound : Nat) (tried : List String) : List String → Agenda → Work Bool
  | [], _ => return false
  | rule :: rest, a => do
    let start := (← get).used
    let (done, a) ← saturate e bound (tried ++ [rule]) bound a
    if done then return true
    if ← tryRules e bound (tried ++ [rule]) rest a then return true
    modify fun p => { p with
      used := start, tree := p.tree.prune (((start.getLast?).map (·.layer)).getD 0 + 1) }
    return false

/-- the closure check of every branch, with which the solver starts -/
def checkBranches (e : Setting) : Work Unit := do
  for b in (← get).tree.branchNames do
    let _ ← dealClosure e b

/-- finish a proof; whether that could be done -/
def solve (e : Setting) : Work Bool := do
  checkBranches e
  let a ← Outcome.lift ((← get).agenda e)
  tryRules e a.bound [] Calculus.ruleNames a

end Proof

end TableauTutor
