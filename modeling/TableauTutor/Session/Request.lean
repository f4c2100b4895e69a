import TableauTutor.Command.Performance
import TableauTutor.Command.Prompt
import TableauTutor.Rendering.Html

/-!
Requests by name, for pages and other programs. Many of the names are those that the program lists for its session;
arguments and answers are loosely typed.
-/

namespace TableauTutor

namespace Session

/-- the argument at a place, nothing if there are fewer -/
def argument (args : List Datum) (k : Nat) : Datum := args[k]?.getD .none

/-- an answer that names something for each rule -/
def ruleTexts (part : Rule → String) (s : Session) : Outcome Datum := do
  return .record ((← s.rules).map fun r => (r.name, .text (part r)))

/-- a report as an answer -/
def told (r : Report) : Act Datum := do
  Outcome.lift r.ended
  return .ofTexts r.lines

/-- what can be asked without changing the session; none when the name is not one of these -/
def question? (name : String) (args : List Datum) : Option (Session → Outcome Datum) :=
  let first := (argument args 0).shown
  match name with
  | "acc" => some fun s => return .ofOption id (← s.plugin first).socket
  | "articles" => some fun s => return if (← s.assistant).hasArticles then .record [] else .none
  | "check" => some fun s => Datum.ofTexts <$> s.check
  | "complete" => some fun s =>
    return .list ((Prompt.completions s first).map fun (text, start) => .list [.text text, .whole start])
  | "config" => some fun s => s.files.read s.configPath
  | "context_info" => some fun s => do
    return .ofOption (fun (l : List ContextItem) => .list (l.map (·.row))) (← s.contextInfo first)
  | "file" => some fun s => s.files.read first
  | "get_current_branch" => some fun s => return .text s.currentBranch
  | "getbranch_strings" => some fun s => do
    let (texts, closing) ← s.branchTexts
    return .list [.list texts, .ofOption .text closing]
  | "getbranches" => some fun s => Datum.ofTexts <$> s.branches
  | "getrules" => some (ruleTexts (·.docs))
  | "getrulessymbol" => some (ruleTexts (·.symbolic))
  | "gettree" => some fun s => Datum.ofOption .ofTexts <$> s.tree
  | "hint" => some hint
  | "proof_finished" => some fun s => do
    let (ended, succeeded) ← s.proofFinished
    return .list [.flag ended, .flag succeeded]
  | "rprompt" => some fun s => .text <$> Prompt.beside s
  | "setup_list" => some fun s => Datum.ofTexts <$> s.setupList
  | "setup_search" => some fun s => Datum.ofTexts <$> s.setupSearch
  | "start_help" => some fun s => Datum.ofTexts <$> s.startHelp
  | _ => none

/-- the nodes of a tree, from the root on -/
def nodesDatum (t : ProofTree) : Datum := .list (t.places.map (·.toDatum))

/-- what can be asked about the open proof; none when the name is not one of these -/
def proofQuestion? (name : String) : Option (Session → Setting → Proof → Outcome Datum) :=
  match name with
  | "contra_html" => some fun s _ p => do
    let some y ← s.style | throw (.wrongKind "the output shows nothing")
    return .text (Html.branchTree y p.tree)
  | "copy" => some fun _ e p => return nodesDatum (← p.copy e).tree
  | "getused" => some fun _ _ p =>
    return .list (p.tree.places.map fun q => .ofTexts ((Html.usedMarks q.tree).mergeSort fun a b => a ≤ b))
  | "histories" => some fun _ _ p =>
    return .record (p.histories.map fun (branch, h) => (branch, .list (h.sorted.map .ofTexts)))
  | "last_modified" => some fun _ _ p => Datum.ofTexts <$> p.lastModified
  | "mistakes" => some fun s e p => return .list ((← p.check e s.read).map (·.toDatum))
  | "nodes" => some fun _ _ p => return nodesDatum p.tree
  | "notused" => some fun _ _ p => do
    return .list ((← ProofTree.unused (← p.leaf p.branch)).map fun (n, _) => .ofTexts n.sentence)
  | "premisses" => some fun _ e p => do
    return .list ((← p.used.mapM (p.premisses e)).map fun ps => .record (ps.map fun (k, x) => (k, .ofTexts x)))
  | "tree_clickable_html" => some fun s _ p => do
    let spell : Symbol → String := match ← s.style with
      | some y => y.symbol
      | none => fun _ => Datum.none.shown
    return .text (Html.clickableTree spell 0 p.tree)
  | _ => none

/-- a rule used with a context that has to be a record -/
def useRuleWith (rule : String) (context : Datum) : Act (Option (List String)) := do
  match context with
  | .record fields => useRule rule fields
  | _ =>
    let s ← get
    let _ ← Outcome.lift s.currentProof
    let c ← Outcome.lift s.calculus
    if (c.rule? rule).isNone then throw (.refusal .noSuchRule) else throw (.missingPart "the context is no record")

/-- an action without an answer -/
def silently (x : Act Unit) : Act Datum := do
  x
  return .none

/-- what changes the session; none when the name is not one of these -/
def change? (name : String) (args : List Datum) : Option (Act Datum) :=
  let first := (argument args 0).shown
  let second := argument args 1
  let number (d : Datum) : Int := d.index?.getD 0
  let perhaps (x : Act (Option (List String))) : Act Datum := Datum.ofOption .ofTexts <$> x
  match name with
  | "change_accessibility" => some (silently (changeAccessibility (number (argument args 0))))
  | "deal_closure" => some (Datum.ofOption .text <$> dealClosure first)
  | "gen_formula" => some (Datum.ofTexts <$> genFormula (number (argument args 0)) (number second))
  | "jump" => some (silently (jump first))
  | "load_proof" => some (.text <$> loadProof first)
  | "new_proof" => some (perhaps (newProof first))
  | "next" => some (.text <$> next)
  | "plug_download" => some (do told ((← get).plugDownload first second.shown (!(argument args 2).isVoid)))
  | "plug_list" => some (Datum.ofTexts <$> plugList first)
  | "plug_search" =>
    some (if (argument args 0).isNone then do return .record [("Assistant", ← perhaps (plugSearch "Assistant"))]
      else perhaps (plugSearch first))
  | "plug_switch" => some (silently (plugSwitch first second.shown))
  | "reset_proof" => some (silently resetProof)
  | "save_proof" => some (.text <$> saveProof first)
  | "setup_delete" => some (silently (setupDelete first))
  | "setup_open" => some (do
    let (r, s) := setupOpen first (!second.isVoid) (← get)
    set s
    told r)
  | "setup_save" => some (silently (setupSave first))
  | "solve" => some (Datum.ofTexts <$> solve)
  | "unplug" => some (silently (unplug first))
  | "use_rule" => some (perhaps (useRuleWith first second))
  | _ => none

/-- a request by name; none when there is no such request -/
def request? (name : String) (args : List Datum) : Option (Act Datum) :=
  match question? name args with
  | some q => some (do Outcome.lift (q (← get)))
  | none =>
    match proofQuestion? name with
    | some q => some do
      let s ← get
      match s.proof with
      | some p => Outcome.lift (do q s (← s.setting) p)
      | none => throw (.missingPart name)
    | none => change? name args

end Session

end TableauTutor
