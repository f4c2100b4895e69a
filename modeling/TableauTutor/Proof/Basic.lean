import TableauTutor.Calculus.Closure
import TableauTutor.Calculus.Use
import TableauTutor.Proof.Tree

/-!
Proofs: a tree that starts from the negation of a statement, the rules used so far, and the branch that
work goes on with. Every change is a step of a computation on the proof that may fail; what was changed
before a failure stays changed.
-/

namespace TableauTutor

/-- one use of a rule -/
structure UsedRule where
  layer : Int
  branch : String
  rule : String
  context : Context
  /-- what the rule had to decide by itself -/
  decisions : Datum := .none
  /-- made by the solver -/
  auto : Bool := false
deriving Repr, Inhabited

def UsedRule.inspect (u : UsedRule) : String := toString u.layer ++ ". On " ++ u.branch ++ " do " ++ u.rule

/-- where a rule was used, which one, and what was chosen for it -/
def UsedRule.fields (u : UsedRule) : List (String × Datum) :=
  [("layer", .whole u.layer), ("branch", .text u.branch), ("rule", .text u.rule), ("context", .record u.context),
   ("auto", .flag u.auto)]

/-- a use of a rule for another proof; it has to have been made with decisions -/
def UsedRule.copy (u : UsedRule) : Outcome UsedRule :=
  match u.decisions with
  | .none => throw (.missingPart "no decisions to copy")
  | _ => return u

/-- what a proof is made with: a calculus, a lexer for making up symbols, and how well colours are told apart -/
structure Setting where
  calculus : Calculus
  lexer : Lexer
  accessibility : Int
deriving Repr

/-- the setting on the i-th of the occasions that there are next -/
def Setting.turn (e : Setting) (i : Nat) : Setting := { e with lexer := e.lexer.turn i }

structure Proof where
  statement : Sentence
  tree : ProofTree
  used : List UsedRule := []
  /-- the branch that work goes on with -/
  branch : String
deriving Repr, Inhabited

/-- a change of a proof -/
abbrev Work := ExceptT Fault (StateM Proof)

namespace Proof

/-- a fresh proof of a statement -/
def start (e : Setting) (statement : Sentence) : Outcome Proof := do
  let root ← e.calculus.prepare e.lexer statement
  let branch := (branchNames e.accessibility []).headD ""
  return { statement, tree := .root root branch, branch }

def noLeaf : Fault := .missingPart "no such branch"

/-- the leaf of a branch -/
def leaf (p : Proof) (branch : String) : Outcome ProofTree.Place :=
  match (p.tree.leaf? branch).bind p.tree.place? with
  | some q => return q
  | none => throw noLeaf

/-- the sentences of a branch -/
def sentences (p : Proof) (branch : String) : Outcome (List Sentence) := do
  return (← p.leaf branch).path.map (·.sentence)

/-- branches hung below the leaf of a branch; the new layer -/
def grow (e : Setting) (branch : String) (g : Calculus.Growth) : Work Int := do
  let p ← get
  let q ← Outcome.lift (p.leaf branch)
  let (tree, layer) := p.tree.grow q.position e.accessibility g
  set { p with tree }
  Outcome.lift layer

/-- every branch below a node marked as having used up a sentence -/
def markUsed (position branches : Nat) (s : Sentence) : Work Unit := do
  let p ← get
  let (tree, r) := p.tree.commandChildren position (List.replicate branches [History.Command.add s])
  set { p with tree }
  Outcome.lift r

/-- the end of a branch closed if there is reason to; the closing and what is said about it -/
def dealClosure (e : Setting) (branch : String) : Work (Option (Closing × String)) := do
  let p ← get
  let q ← Outcome.lift (p.leaf branch)
  match ← Outcome.lift (e.calculus.closure (q.path.map (·.sentence)) q.data.history) with
  | none => return none
  | some (closing, info) =>
    let tree ← Outcome.lift (p.tree.close q.position closing)
    set { p with tree }
    return some (closing, branch ++ ": " ++ info)

/-- a rule used on a branch. What a rule refuses is reported as a refusal; a rule that yields nothing changes nothing -/
def useOn (e : Setting) (rule : String) (context : Context) (branch : String) : Work Unit := do
  let p ← get
  let q ← Outcome.lift (p.leaf branch)
  match e.calculus.useRule e.lexer rule (q.path.map (·.sentence)) q.data.history context with
  | .error (.rule r) => throw (.refusal (.relayed r.message))
  | .error f => throw f
  | .ok none => return ()
  | .ok (some (g, s)) =>
    let layer ← grow e branch g
    markUsed q.position g.length s
    modify fun p => { p with used := p.used ++ [{ layer, branch, rule, context }] }

/-- a look ahead at what a rule would add to a branch. Nothing is shown for a rule that is refused; what a rule adds
comes with two more parts and is not shown at all -/
def preview (e : Setting) (p : Proof) (branch rule : String) (context : Context) : Outcome Unit := do
  let q ← p.leaf branch
  match e.calculus.useRule e.lexer rule (q.path.map (·.sentence)) q.data.history context with
  | .error (.rule _) => return ()
  | .error f => throw f
  | .ok _ => throw (.badValue "more parts than are shown")

/-- go to a branch by its name, or to the neighbour on a side -/
def jump (new : String) : Work Unit := do
  let p ← get
  if Text.capitalize new = p.branch then return ()
  let up := Text.upper new
  if up = "LEFT" ∨ up = "RIGHT" then
    let q ← Outcome.lift (p.leaf p.branch)
    match (← Outcome.lift (p.tree.neighbour q.position up)).bind p.tree.place? with
    | none => throw (.refusal (.noNeighbour (Text.lower new)))
    | some n => set { p with branch := n.data.branch }
  else
    match (p.tree.leaf? new).bind p.tree.place? with
    | none => throw (.refusal (.noBranch new))
    | some n => set { p with branch := n.data.branch }

/-- go to the first open branch -/
def next : Work String := do
  let p ← get
  match p.tree.openLeaves with
  | [] => throw (.refusal .allClosed)
  | q :: _ =>
    set { p with branch := q.data.branch }
    return "Branch changed to " ++ q.data.branch

/-- a recorded use of a rule made once more, after going to its branch -/
def perform (e : Setting) (u : UsedRule) : Work Unit := do
  if !u.branch.isEmpty then jump u.branch
  useOn e u.rule u.context (← get).branch

/-- histories at the ends of the branches -/
def histories (p : Proof) : List (String × History) :=
  tableOf (p.tree.leaves.map fun q => (q.data.branch, q.data.history))

/-- the branches that the last move changed -/
def lastModified (p : Proof) : Outcome (List String) :=
  match p.used.getLast? with
  | none => if p.tree.branchNames.length = 1 then return p.tree.branchNames else throw (.broken .unnamed)
  | some u => return (p.tree.leaves.filter (·.data.layer == u.layer)).map (·.data.branch)

/-- a proof made anew by the same moves, its branches closed as they are -/
def copy (e : Setting) (p : Proof) : Outcome Proof := do
  let fresh ← start e p.statement
  let made ← p.used.foldlM (fun c u =>
    match (useOn e u.rule u.context u.branch).run.run c with
    | (.ok (), c) => .ok c
    | (.error f, _) => .error f) fresh
  p.tree.leaves.foldlM (fun c q =>
    match q.data.closed with
    | none => return c
    | some closing =>
      match c.tree.leaf? q.data.branch with
      | none => throw noLeaf
      | some k => do return { c with tree := ← c.tree.close k closing }) made

/-- the sentences of its branch that a use of a rule names -/
def premisses (e : Setting) (p : Proof) (u : UsedRule) : Outcome (List (String × Sentence)) := do
  let branch ← p.sentences u.branch
  let some items := (e.calculus.rule? u.rule).bind (·.context)
    | throw (.wrongKind "the rule asks for nothing")
  let keys := (items.filter (·.type == "sentenceID")).map (·.key)
  (u.context.filter fun (k, _) => keys.contains k).mapM fun (k, d) =>
    match d.index? with
    | none => throw Calculus.notIndex
    | some i =>
      match pick? branch i with
      | some s => return (k, s)
      | none => throw (.outOfRange "no such sentence")

/-- the sentence that a rule was used on -/
def premiss (e : Setting) (p : Proof) (u : UsedRule) : Outcome Sentence := do
  match (← premisses e p u).lookup "sentenceID" with
  | some s => return s
  | none => throw (.missingKey "sentenceID")

/-- a mistake in a use of a rule, about the sentence it was used on -/
def moveMistake (name text : String) (u : UsedRule) (s : Sentence) : Mistake :=
  ⟨name, text, .record [("rule", .text u.rule), ("premiss", .list (s.map .text))]⟩

/-- the mistake in deriving a sentence by a use of a rule, if there is one: the rule does not fit the sentence it was
used on, or it was used at another connective than the main one. Sentences are compared without signs, as they are
spelled then, each on an occasion of its own. `read` shows a sentence -/
def mistakeIn (e : Setting) (read : Sentence → Outcome String) (p : Proof) (u : UsedRule) (conclusion : Sentence) :
    Outcome (Option Mistake) := do
  let plain ← e.calculus.toPlain e.lexer conclusion
  let s ← p.premiss e u
  let some m := Calculus.method? u.rule | throw (.missingKey u.rule)
  match ← e.calculus.strict e.lexer m s with
  | none =>
    let shown ← read s
    return some (moveMistake "wrong rule" ("'" ++ u.rule ++ "' can't be used on '" ++ shown ++ "'") u s)
  | some branches =>
    let entailed ← branches.flatten.zipIdx.mapM fun (t, k) => e.calculus.toPlain (e.lexer.turn k) t
    if entailed.contains plain then
      if (← e.calculus.ruleFor e.lexer s) = some u.rule then return none
    let shown ← read s
    return some (moveMistake "wrong precedence" ("Check which connective is the main one in '" ++ shown ++ "'") u s)

/-- the nodes that uses of rules made -/
def madeNodes (p : Proof) : List Node := p.tree.nodes.filter (·.layer != 0)

/-- the sentences that a use of a rule made -/
def made (p : Proof) (u : UsedRule) : List Sentence := (p.madeNodes.filter (·.layer == u.layer)).map (·.sentence)

/-- the sentences that each use of a rule made -/
def byMove (p : Proof) : Outcome (List (UsedRule × List Sentence)) := do
  let layers := p.used.map (·.layer)
  match p.madeNodes.find? fun n => !layers.contains n.layer with
  | some n => throw (.missingKey (toString n.layer))
  | none => return p.used.map fun u => (u, p.made u)

/-- the mistakes found so far and the one in deriving a numbered sentence, each once -/
def noted (e : Setting) (read : Sentence → Outcome String) (p : Proof) (u : UsedRule) (found : List Mistake)
    (s : Sentence × Nat) : Outcome (List Mistake) := do
  match ← p.mistakeIn (e.turn s.2) read u s.1 with
  | none => return found
  | some m => return if found.any (·.same m) then found else found ++ [m]

/-- all mistakes in a proof, each once -/
def check (e : Setting) (read : Sentence → Outcome String) (p : Proof) : Outcome (List Mistake) := do
  (← p.byMove).zipIdx.foldlM (fun found ((u, sentences), i) =>
    sentences.zipIdx.foldlM (noted (e.turn i) read p u) found) []

end Proof

end TableauTutor
