import TableauTutor.Command.Conversation

/-!
The program on the command line: a session with the plugins that come with it, and a conversation that lasts until a
command or the end of the input ends it. Files live as long as the conversation.
-/

namespace TableauTutor

namespace CommandLine

/-- how many numbers are drawn at random beforehand; they are used again from the start when they run out -/
def drawn : Nat := 4096

def put (ds : List Datum) : IO Unit := ds.forM fun d => IO.println d.shown

/-- reads a line, answers it, and goes on -/
partial def converse (input : IO.FS.Stream) (s : Session) : IO Unit := do
  IO.print "~ "
  (← IO.getStdout).flush
  let line ← input.getLine
  if line.isEmpty then return
  let turn := Conversation.typed line s
  put turn.printed
  match turn.ended with
  | some .exit => return
  | some f => IO.eprintln f.message
  | none => converse input turn.session

end CommandLine

end TableauTutor

open TableauTutor in
def main : IO UInt32 := do
  let numbers ← (List.range CommandLine.drawn).mapM fun _ => do return Int.ofNat (← IO.rand 0 1000000)
  let number (occasion : List Nat) : Nat := ((numbers[(hash occasion).toNat % CommandLine.drawn]?).getD 0).toNat
  let speller := Speller.drawn fun occasion _ => number occasion
  let files := Session.freshFiles "config.json" none
  match Session.start "config.json" files (Bundle.shelf []) {} { numbers } speller with
  | .error f =>
    IO.eprintln f.message
    return 1
  | .ok s =>
    match Conversation.greeting s with
    | .error f =>
      IO.eprintln f.message
      return 1
    | .ok hello =>
      CommandLine.put [hello]
      CommandLine.converse (← IO.getStdin) s
      return 0
