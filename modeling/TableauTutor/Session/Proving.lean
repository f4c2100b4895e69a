import TableauTutor.Session.Basic

/-!
Proving in a session: starting a proof, using rules, taking moves back, saving and loading, and
what can be asked about the proof.
-/

namespace TableauTutor

namespace Session

def noProof : Fault := .refusal .noProof

/-- a change of the proof as an action -/
def withProof {α : Type} (x : Setting → Work α) : Act α := do
  let s ← get
  let some p := s.proof | throw noProof
  let e ← Outcome.lift s.setting
  let (r, p) := (x e).run.run p
  set { s with proof := some p }
  Outcome.lift r

/-- the proof that is worked on -/
def currentProof (s : Session) : Outcome Proof :=
  match s.proof with
  | some p => return p
  | none => throw noProof

/-- a made-up formula -/
def genFormula (length vars : Int) : Act Sentence := do
  let s ← get
  let c ← Outcome.lift s.calculus
  let (r, draws) := (c.practice s.lexer length vars).run.run s.draws
  set { s with draws }
  Outcome.lift r

/-- a branch of the proof closed if there is reason to; what is said about it -/
def dealClosure (branch : String) : Act (Option String) := do
  return (← withProof fun e => Proof.dealClosure e branch).map (·.2)

/-- a proof of a typed statement started; what is said about a statement that is no formula -/
def newProof (statement : String) : Act (Option (List String)) := do
  let s ← get
  let tokens ← match s.lexer.tokenize statement with
    | .ok ts => pure ts
    | .error e => throw (.refusal (.relayed e.message))
  let x := Sentence.ofTokens tokens
  let c ← Outcome.lift s.calculus
  match ← Outcome.lift (c.checkSyntax x) with
  | some m =>
    let a ← Outcome.lift s.assistant
    return some ((a.onSyntax m).getD [m.default])
  | none =>
    let e ← Outcome.lift s.setting
    let p ← Outcome.lift (Proof.start e x)
    set { s with proof := some p }
    let _ ← dealClosure p.branch
    return none

def resetProof : Act Unit := modify fun s => { s with proof := none }

/-- what a rule asks for; none when there is no such rule -/
def contextInfo (s : Session) (rule : String) : Outcome (Option (List ContextItem)) := do
  return ((← s.calculus).rule? rule).bind (·.context)

/-- do the names in a context fit what a rule asks for -/
def sameKeys (items : List ContextItem) (context : Context) : Bool :=
  (items.all fun i => (context.lookup i.key).isSome) && context.all fun (k, _) => items.any (·.key == k)

/-- a rule used on the current branch; what is said when the person has made a mistake -/
def useRule (rule : String) (context : Context) : Act (Option (List String)) := do
  let s ← get
  let p ← Outcome.lift s.currentProof
  let c ← Outcome.lift s.calculus
  let some r := c.rule? rule | throw (.refusal .noSuchRule)
  if !sameKeys (r.context.getD []) context then throw (.refusal .wrongContext)
  tryCatch (do withProof (fun e => Proof.useOn e rule context p.branch); return none) fun
    | .mistake m => do
      if ((s.sockets.lookup "Assistant").map (·.isPlugged)).getD false then
        let a ← Outcome.lift s.assistant
        return some ((a.onUse m).getD [m.default])
      else return some [m.default]
    | f => throw f

/-- the last moves taken back, newest first -/
def undo (amount : Int) : Act (List UsedRule) := do
  let s ← get
  let p ← Outcome.lift s.currentProof
  if (p.used.length : Int) < amount then throw (.refusal .nothingToUndo)
  let kept := p.used.take (p.used.length - amount.toNat)
  let undone := (p.used.drop (p.used.length - amount.toNat)).reverse
  set { s with
    proof := some { p with used := kept }, undoCount := s.undoCount + amount, undone := some undone }
  let some layer := (undone.map (·.layer)).min? | throw (.badValue "no move was taken back")
  let tree := p.tree.prune layer
  let branch := ((kept.getLast?).map (·.branch)).getD tree.data.branch
  modify fun s => { s with proof := some { p with used := kept, tree, branch } }
  return undone

/-! ### Saving and loading -/

def savePath (name : String) : String := "saved_proofs/" ++ name

/-- a use of a rule as it is saved -/
def savedUse (u : UsedRule) : Datum :=
  .record [("layer", .whole u.layer), ("branch", .text u.branch), ("rule", .text u.rule),
    ("context", .record u.context), ("decisions", u.decisions), ("auto", .flag u.auto)]

/-- a proof and the configuration it was made with -/
def savedProof (s : Session) (p : Proof) : Datum :=
  .record [("sentence", .list (p.statement.map .text)), ("used rules", .list (p.used.map savedUse)),
    ("setup", s.config.toDatum),
    ("closed", .record (tableOf (p.tree.leaves.filterMap fun q =>
      q.data.closed.map fun c => (q.data.branch, c.toDatum))))]

def saveProof (name : String) : Act String := do
  let s ← get
  let some p := s.proof | throw (.refusal .nothingToSave)
  if p.used.any (·.auto) then throw (.refusal .madeBySolver)
  if s.files.isFile (savePath name) then throw (.refusal .saveExists)
  let files ← Outcome.lift (s.files.write (savePath name) (s.savedProof p))
  set { s with files }
  return "Proof saved successfully"

/-- the field of a record that has to be there -/
def field (d : Datum) (key : String) : Outcome Datum :=
  match d.field? key with
  | some v => return v
  | none => throw (.missingKey key)

def useOfDatum (d : Datum) : Outcome UsedRule := do
  let branch ← field d "branch"
  let rule ← field d "rule"
  let context ← field d "context"
  let decisions ← field d "decisions"
  let layer ← field d "layer"
  let auto ← field d "auto"
  return ⟨layer.index?.getD 0, branch.shown, rule.shown, context.fields, decisions, !auto.isVoid⟩

def closingOfDatum (d : Datum) : Outcome Closing := do
  let success ← field d "success"
  let text ← field d "text"
  return { success := !success.isVoid, text := text.shown }

/-- the leaf of a branch closed -/
def closeBranch (branch : String) (c : Closing) : Work Unit := do
  let p ← get
  let some k := p.tree.leaf? branch | throw Proof.noLeaf
  let tree ← Outcome.lift (p.tree.close k c)
  set { p with tree }

/-- a saved proof made once more, with the configuration it was made with -/
def loadProof (name : String) : Act String := do
  if (← get).proof.isSome then throw (.refusal .proofStarted)
  if !(← get).files.isFile (savePath name) then throw (.refusal .saveMissing)
  let d ← Outcome.lift ((← get).files.read (savePath name))
  if d.isText then throw .illFormedData
  let setup ← Outcome.lift (field d "setup")
  let config ← Outcome.lift (Config.ofDatum setup)
  config.plugins.forM fun (socket, plugin) => plugSwitch socket plugin
  changeAccessibility config.accessibility
  let statement ← Outcome.lift (field d "sentence")
  let e ← Outcome.lift (← get).setting
  let p ← Outcome.lift (Proof.start e (statement.items.map Datum.shown))
  modify fun s => { s with proof := some p }
  let used ← Outcome.lift (field d "used rules")
  let moves ← Outcome.lift (used.items.mapM useOfDatum)
  moves.forM fun u => withProof fun e => Proof.perform e u
  let closed ← Outcome.lift (field d "closed")
  closed.fields.forM fun (branch, c) => do
    let c ← Outcome.lift (closingOfDatum c)
    withProof fun _ => closeBranch branch c
  return "Proof loaded successfully"

/-! ### Help -/

/-- what the assistant says at the start -/
def startHelp (s : Session) : Outcome (List String) := do return ((← s.assistant).greeting).getD []

/-- a hint on the proof -/
def hint (s : Session) : Outcome Datum := do
  let p ← s.currentProof
  let a ← s.assistant
  a.hint (← s.setting) s.read p

/-- what is wrong with the proof -/
def check (s : Session) : Outcome (List String) := do
  let p ← s.currentProof
  let mistakes ← p.check (← s.setting) s.read
  let texts ← mistakes.mapM fun m => do return ((← (← s.assistant).onCheck s.read m).getD [m.default])
  return texts.flatten

/-- the proof finished by the solver; what is said about it -/
def solve : Act (List String) := do
  if ← withProof Proof.solve then
    let p ← Outcome.lift (← get).currentProof
    return ["Udało się zakończyć dowód",
      "Formuła " ++ (if p.tree.isSuccessful then "" else "nie ") ++ "jest tautologią"]
  else return ["Nie udało się zakończyć dowodu"]

/-! ### Looking round -/

/-- the sentences of the current branch as they are shown, and the text of its closing -/
def branchTexts (s : Session) : Outcome (List Datum × Option String) := do
  let p ← s.currentProof
  match (p.tree.leaf? p.branch).bind p.tree.place? with
  | none => throw noProof
  | some q => return (← q.path.mapM fun n => s.shown n.sentence, q.data.closed.map (·.text))

def branches (s : Session) : Outcome (List String) := do return (← s.currentProof).tree.branchNames

def rules (s : Session) : Outcome (List Rule) := do return (← s.calculus).rules

/-- the lines of the printed proof; none when the output is blank -/
def tree (s : Session) : Outcome (Option (List String)) := do
  let p ← s.currentProof
  return (← s.style).map fun y => p.tree.printed.write y

def next : Act String := withProof fun _ => Proof.next

def jump (target : String) : Act Unit := withProof fun _ => Proof.jump target

/-- are all branches closed, and are all closed as successes -/
def proofFinished (s : Session) : Outcome (Bool × Bool) := do
  let p ← s.currentProof
  return (p.tree.isClosed, p.tree.isSuccessful)

def currentBranch (s : Session) : String := (s.proof.map (·.branch)).getD ""

end Session

end TableauTutor
