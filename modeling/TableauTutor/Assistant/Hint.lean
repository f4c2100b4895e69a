import TableauTutor.Assistant.Basic
import TableauTutor.Proof.Solver

/-!
Hints on a proof under way. The guide looks for a mistake first; without one it finishes a copy of the proof and tells
the first step that the solver took.
-/

namespace TableauTutor

namespace Assistant

/-- the moves of a copy of the proof that the solver has finished, and that copy -/
def solvedCopy (e : Setting) (p : Proof) : Outcome (List UsedRule × Proof) := do
  let c ← p.copy e
  match (Proof.solve e).run.run c with
  | (.ok _, c) => return (c.used, c)
  | (.error f, _) => throw f

/-- how to take the next step -/
def nextStep (e : Setting) (read : Sentence → Outcome String) (p : Proof) (u : UsedRule) : Outcome (List String) := do
  let s ← p.premiss e u
  let shown ← read s
  let some d := u.context.lookup "tokenID" | throw (.missingKey "tokenID")
  let some i := d.index? | throw Calculus.notIndex
  let some y := pick? (s.map Symbol.lexem) i | throw (.outOfRange "no such symbol")
  return ["<p>Teraz rozłóż formułę " ++ shown ++ ".",
    "<p><details><summary>Spróbuj zrobić to samodzielnie, a jeśli masz wątpliwości jak to zrobić, kliknij tutaj" ++
      "</summary>",
    "Spróbuj rozłożyć spójnik " ++ y ++ "</details></p>"]

/-- a hint: a list of texts, a single text, or nothing -/
def hint (a : Assistant) (e : Setting) (read : Sentence → Outcome String) (p : Proof) : Outcome Datum :=
  let texts (ts : List String) : Datum := .list (ts.map .text)
  match a with
  | guide => do
    if p.tree.isLeaf then
      return texts ["<p>Jak zacząć? Kliknij główny spójnik i zacznij rozkładać formuły.</p>"]
    let mistakes ← match p.check e read with
      | .error (.refusal _) => pure []
      | r => r
    match mistakes with
    | m :: _ =>
      match ← a.onCheck read m with
      | some ts => return texts ts
      | none => return .text m.default
    | [] =>
      let (moves, solved) ← solvedCopy e p
      match moves.dropWhile (!·.auto) with
      | [] => return texts ["<p>To koniec! Wszystkie formuły są rozłożone. Możesz przejść dalej.</p>"]
      | u :: _ => return texts (← nextStep e read solved u)
  | _ => return .none

end Assistant

end TableauTutor
