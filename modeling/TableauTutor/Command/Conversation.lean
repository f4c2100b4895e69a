import TableauTutor.Command.Performance
import TableauTutor.Markup

/-!
Conversations: lines typed one after another and what is printed in answer. What is printed has to be well-formed
markup; anything else ends the conversation, as does whatever stops a command.
-/

namespace TableauTutor

namespace Conversation

/-- what a line prints, what ended the conversation if anything did, and the session after it -/
structure Turn where
  printed : List Datum
  ended : Option Fault
  session : Session

/-- a value printed, if it is well-formed -/
def print (d : Datum) : Outcome Datum :=
  if Markup.isWellFormed d.shown then return d else throw .illFormedMarkup

/-- values printed one after another, until one is not well-formed -/
def printAll : List Datum → List Datum × Option Fault
  | [] => ([], none)
  | d :: ds =>
    match print d with
    | .error f => ([], some f)
    | .ok d =>
      let (more, ended) := printAll ds
      (d :: more, ended)

/-- a reply printed -/
def printReply : Reply → List Datum × Option Fault
  | .value d => printAll [d]
  | .report r =>
    match printAll (r.lines.map .text), r.ended with
    | (ds, none), .error f => (ds, some f)
    | shown, _ => shown

/-- commands carried out one after another -/
def carryOut : List (Command.Call Verb) → Session → Turn
  | [], s => ⟨[], none, s⟩
  | c :: cs, s =>
    match (Command.perform c).run.run s with
    | (.error f, s) => ⟨[], some f, s⟩
    | (.ok reply, s) =>
      match printReply reply with
      | (shown, some f) => ⟨shown, some f, s⟩
      | (shown, none) =>
        let t := carryOut cs s
        { t with printed := shown ++ t.printed }

/-- what is said about a line that is no command -/
def complaint : Fault → String
  | .command e => e.message
  | _ => "błąd: złe argumenty"

/-- a line typed by the person -/
def typed (line : String) (s : Session) : Turn :=
  let line := Text.strip line
  if line.isEmpty then ⟨[], none, s⟩
  else match Command.parse Command.table line with
    | .error f => ⟨[.text (complaint f)], none, s⟩
    | .ok calls => carryOut calls s

/-- what is printed at the start -/
def greeting (s : Session) : Outcome Datum := do
  print (.text (Text.join "\n" ((← s.startHelp) ++ ["Type ? to get command list; type [command]? to get help"])))

/-- lines typed until one of them ends the conversation -/
def typeAll : List String → Session → List Datum × Option Fault
  | [], _ => ([], none)
  | line :: lines, s =>
    match typed line s with
    | ⟨shown, some f, _⟩ => (shown, some f)
    | ⟨shown, none, s⟩ =>
      let (more, ended) := typeAll lines s
      (shown ++ more, ended)

/-- a whole conversation: what was printed, and how it ended -/
def hold (start : Outcome Session) (lines : List String) : List Datum × Option Fault :=
  match start with
  | .error f => ([], some f)
  | .ok s =>
    match greeting s with
    | .error f => ([], some f)
    | .ok hello =>
      let (shown, ended) := typeAll lines s
      (hello :: shown, ended)

end Conversation

/-! ### From outside

Lines typed from outside the program's folder, each answered by its first command. A report is told only after the
program's folder has been left, so it finds no setups. -/

namespace Remote

/-- the copy of the configuration that is worked with -/
def configName : String := "config_copy.json"

/-- the files with a copy of the configuration; `beside` says whether the lines come from
the folder that is meant for it -/
def prepare (beside : Bool) (w : Files) : Outcome Files :=
  if !beside then throw (.broken .elsewhere)
  else if w.isFile ("config/" ++ configName) then return w
  else do w.write ("config/" ++ configName) (← w.read "config/config.json")

/-- an answer, and whether the program's folder was left again -/
structure Answer where
  said : Outcome Datum
  left : Bool

/-- the report of a command told without the program's folder -/
def tell (verb : Verb) (r : Report) : Outcome Datum :=
  if verb = .setupOpen ∨ verb = .setupUpdate then throw (Files.missing "setups")
  else r.ended.map fun _ => .list (r.lines.map .text)

def answer (line : String) (s : Session) : Answer × Session :=
  match Command.parse Command.table line with
  | .error f => (⟨.ok (.text (Conversation.complaint f)), true⟩, s)
  | .ok [] => (⟨.error (.outOfRange "no command"), false⟩, s)
  | .ok (c :: _) =>
    match (Command.perform c).run.run s with
    | (.error f, s) => (⟨.error f, false⟩, s)
    | (.ok (.value d), s) => (⟨.ok d, true⟩, s)
    | (.ok (.report r), t) =>
      (⟨tell c.verb r, true⟩, if c.verb = .setupOpen ∨ c.verb = .setupUpdate then s else t)

end Remote

end TableauTutor
