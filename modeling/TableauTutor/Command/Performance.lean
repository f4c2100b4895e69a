import TableauTutor.Command.Table
import TableauTutor.Session.Proving

/-!
What each command does to a session, and what it says. A refusal is said, anything else
that goes wrong stops the command.
-/

namespace TableauTutor

/-- what a command says -/
inductive Reply where
  /-- all at once -/
  | value (d : Datum)
  /-- line by line -/
  | report (r : Report)

namespace Reply

def text (s : String) : Reply := .value (.text s)

end Reply

namespace Command

open Session

/-- an action whose refusals are said -/
def saying (x : Act String) : Act Reply :=
  tryCatch (do return .text (← x)) fun
    | .refusal e => return .text e.message
    | f => throw f

/-- an action that may refuse, and what is said once it is done -/
def doing {α : Type} (x : Act α) (done : String) : Act Reply := saying (do let _ ← x; return done)

/-- a question whose refusals are said -/
def asking (x : Session → Outcome String) : Act Reply := saying (do Outcome.lift (x (← get)))

/-- a report whose refusal at the end is said, and what is said otherwise -/
def finishing (r : Report) (done : String) : Report :=
  match r with
  | ⟨lines, .ok ()⟩ => ⟨lines ++ [done], .ok ()⟩
  | ⟨lines, .error (.refusal e)⟩ => ⟨lines ++ [e.message], .ok ()⟩
  | ⟨lines, .error f⟩ => ⟨lines, .error f⟩

/-- the plugins of a socket as they are listed -/
def listPlugins (socket : String) : Act String := do
  return "Plugins available locally for " ++ socket ++ ":\n" ++ Text.join "; " (← plugList socket)

/-- words read as the context of a rule; what is said when that fails. Sentences are counted from one -/
def readContext : List ContextItem → List String → Outcome (Except String Context)
  | [], _ => return .ok []
  | items, [] => return .error ("More arguments needed: " ++ Text.join ", " (items.map (·.official)))
  | i :: items, w :: words => do
    let value : Option Datum ← match ← ContextItem.reading i.type with
      | .number => pure ((Text.readInt? w).map fun n => .whole (if i.type = "sentenceID" then n - 1 else n))
      | .text => pure (some (.text w))
    match value with
    | none => return .error (i.official ++ " is of a wrong type")
    | some d =>
      match ← readContext items words with
      | .error text => return .error text
      | .ok context => return .ok ((i.key, d) :: context)

/-- what is said about the end of a branch -/
def closeBranch (branch : String) : Act String := do
  return (← dealClosure branch).getD ("No contradictions found on branch " ++ branch ++ ".")

/-- what is said after a rule was used: the branches it changed are closed where they can be -/
def afterUse (rule : String) : Act (List String) := do
  let p ← Outcome.lift (← get).currentProof
  let changed ← Outcome.lift p.lastModified
  let closings ← changed.mapM closeBranch
  let (ended, succeeded) ← Outcome.lift (← get).proofFinished
  let verdict :=
    if succeeded then ["Proof was succesfully finished"] else if ended then ["All branches are closed"] else []
  return ("Used '" ++ rule ++ "' successfully") :: closings ++ verdict

/-- what is said about the use of a rule, a refusal included -/
def useAndTell (rule : String) (context : Context) : Act (Except String (List String)) := do
  let answer : Except String (Option (List String)) ← tryCatch (do return .ok (← useRule rule context)) fun
    | .refusal e => return .error e.message
    | f => throw f
  match answer with
  | .error text => return .error text
  | .ok (some texts) => return .ok texts
  | .ok none => return .ok (← afterUse rule)

/-- a rule named by two words used with the context that the other words give -/
def use (command : String) : Act String := do
  if command.length < 2 then return "Full rule name needed"
  let words := Text.words command
  let rule := Text.join " " (words.take 2)
  let given := words.drop 2
  let some items ← Outcome.lift ((← get).contextInfo rule) | return "No such rule"
  let extra :=
    if items.length < given.length then ["Too many args, but the program will continue"] else []
  match ← Outcome.lift (readContext items given) with
  | .error text => return text
  | .ok context =>
    match ← useAndTell rule context with
    | .error text => return text
    | .ok said => return Text.join "\n" (extra ++ said)

/-- a statement typed by the person -/
def prove (statement : String) : Act String := do
  if (← get).proof.isSome then return "A proof would be deleted"
  match ← newProof statement with
  | none => return "Sentence tokenized successfully \nProof initialized"
  | some texts => return Text.join "\n" texts

/-- the printed proof written into a new file. A file that is there already cannot be written on -/
def writeTree (file : String) : Act String := do
  let s ← get
  let lines ← Outcome.lift s.tree
  if s.isHere file then throw (.wrongKind "the file cannot be written on")
  let content := String.join ((lines.getD []).map (· ++ "\n"))
  let files ← Outcome.lift (s.files.write file (.text content))
  set { s with files }
  if lines.isNone then throw (.wrongKind "the output shows nothing")
  return "Proof saved as " ++ file

/-- a saved proof, its branches closed where they can be -/
def load (name : String) : Act String := do
  let said ← loadProof name
  for b in ← Outcome.lift (← get).branches do
    let _ ← dealClosure b
  return said

/-- neighbours have signs of their own -/
def jumpTo (target : String) : Act String := do
  let (place, name) := match target with
    | "<" => ("left", "the left neighbour")
    | ">" => ("right", "the right neighbour")
    | t => (t, t)
  Session.jump place
  return "Branch changed to " ++ name

/-- hints one below the other; a single text is taken letter by letter -/
def hintText (d : Datum) : String :=
  match d with
  | .list ts => Text.join "\n\n" (ts.map Datum.shown)
  | .text t => Text.join "\n\n" (t.toList.map String.singleton)
  | _ => "Podpowiedzi nie ma, trzymaj się tam"

/-- what can be asked of a session -/
def methods : List String :=
  ["_find_socket", "acc", "change_accessibility", "check", "compile_lexer", "context_info", "deal_closure",
   "gen_formula", "get_current_branch", "get_methods", "get_socket_names", "getbranch_strings", "getbranches",
   "getrules", "getrulessymbol", "gettree", "hint", "jump", "load_proof", "new_proof", "next", "plug_download",
   "plug_gen", "plug_list", "plug_search", "plug_switch", "proof_finished", "read_config", "reset_proof",
   "save_proof", "setup_delete", "setup_list", "setup_open", "setup_save", "setup_search", "solve", "start_help", "undo", "use_rule", "write_config"]

/-- a setup opened as an action -/
def openSetup (name : String) (force : Bool) : Act Reply := do
  let (r, s) := setupOpen name force (← get)
  set s
  return .report (finishing r ("You are now using " ++ name))

def fetchPlugin (socket plugin : String) (force : Bool) : Act Reply := do
  return .report (finishing ((← get).plugDownload socket plugin force) ("Plugin succesfully downloaded: " ++ plugin))

/-- a plugin switched; whatever goes wrong is said -/
def switchPlugin (socket plugin : String) : Act Reply :=
  tryCatch (do plugSwitch socket plugin; return .text ("Plugin succesfully installed: " ++ plugin)) fun f =>
    return .text f.message

/-- a command carried out -/
def perform (c : Call Verb) : Act Reply :=
  match c.verb, c.given with
  | _, .help docs => return .text docs
  | .exit, _ => throw .exit
  | .rules, _ => asking fun s => do
    return Text.join "\n\n" ((← s.rules).map fun r => r.name ++ "\n---\n" ++ r.docs)
  | .tree, _ => asking fun s => do
    match ← s.tree with
    | some lines => return Text.join "\n" lines
    | none => throw (.wrongKind "the output shows nothing")
  | .jump, .rest target => saying (jumpTo target)
  | .next, _ =>
    tryCatch (do let _ ← Session.next; return .value .none) fun
      | .refusal e => return .text e.message
      | f => throw f
  | .write, .each [.text file] => do return .text (← writeTree file)
  | .use, .rest command => do return .text (← use command)
  | .undo, .each [.number n] => saying (do
    return Text.join "\n" ((← Session.undo n).map fun u => "Undid rule: " ++ u.rule))
  | .leave, _ => doing resetProof "Proof was deleted"
  | .prove, .rest statement => saying (prove statement)
  | .gen, .each [.number length, .number vars] => do
    return .text (Text.join " " ((← genFormula length vars).map Symbol.lexem))
  | .hint, _ => asking fun s => do return hintText (← s.hint)
  | .solve, _ => saying (do return Text.join "\n" (← Session.solve))
  | .check, _ => asking fun s => do
    let problems ← s.check
    return if problems.isEmpty then "Dowód jest poprawny" else Text.join "\n" problems
  | .save, .each [.text name] => saying (saveProof name)
  | .load, .each [.text name] => saying (load name)
  | .plugSwitch, .each [.text socket, .text plugin] => switchPlugin socket plugin
  | .plugGet, .each [.text socket, .text plugin] => fetchPlugin socket plugin false
  | .plugUpdate, .each [.text socket, .text plugin] => fetchPlugin socket plugin true
  | .plugListAll, _ => do return .text (Text.join "\n\n" (← Bundle.sockets.mapM fun (name, _) => listPlugins name))
  | .plugList, .each [.text socket] => saying (listPlugins socket)
  | .plugGen, .each [.text socket, .text plugin] =>
    doing (plugGen socket plugin) ("Generated plugin " ++ plugin ++ " from template")
  | .setupSave, .each [.text name] => doing (setupSave name) "The setup was saved"
  | .setupDelete, .each [.text name] => doing (setupDelete name) "The setup was deleted"
  | .setupOpen, .each [.text name] => openSetup name false
  | .setupUpdate, .each [.text name] => openSetup name true
  | .setupList, _ => do return .value (.list ((← Outcome.lift (← get).setupList).map .text))
  | .clear, _ => return .text ""
  | .methods, _ => return .text (Text.join "\n" methods)
  | .colours, .each [.number level] => do
    changeAccessibility level
    return .text "Color accessibility changed"
  | .help, _ => return .text (Text.join "\n" names)
  | _, _ => throw (.wrongKind "wrong number of arguments")

end Command

end TableauTutor
