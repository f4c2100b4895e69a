import TableauTutor.Sentence.Structure

/-!
Parts of a sentence: what stands between separators of a kind. A part can be taken out, or changed where it stands.
-/

namespace TableauTutor.Sentence

def isSeparator (kind : String) (y : Symbol) : Bool := Text.startsWith (kind ++ "_") y

/-- a place in a sentence and the number of separators up to it -/
structure Reach where
  place : Nat
  separators : Nat
deriving DecidableEq, Repr

/-- how far the sentence has to be read until n separators are counted; to its end when they never are -/
def reachFrom (kind : String) (n : Int) (seen : Nat) : Sentence → Reach
  | [] => ⟨0, seen⟩
  | y :: ys =>
    let seen' := if isSeparator kind y then seen + 1 else seen
    if (seen' : Int) = n then ⟨0, seen'⟩
    else
      let r := reachFrom kind n seen' ys
      ⟨r.place + 1, r.separators⟩

def reach (kind : String) (n : Int) (s : Sentence) : Reach := reachFrom kind n 0 s

/-- the symbols up to the next separator -/
def untilSeparator (kind : String) (s : Sentence) : Sentence := s.takeWhile fun y => !isSeparator kind y

/-- what is left of a sentence when part n is taken out of it, and the part; without such a
part the sentence stays as it is -/
def popPart (kind : String) (n : Int) (s : Sentence) : Sentence × Outcome Sentence :=
  let r := reach kind n s
  if s.length ≤ r.place || (r.separators : Int) < n then (s, .error (.outOfRange "sent_num is too big"))
  else
    let front := s.take r.place
    let rest := if 0 < r.separators then s.drop (r.place + 1) else s.drop r.place
    let part := untilSeparator kind rest
    let left := front ++ rest.drop part.length
    (if r.separators = 0 then left.take r.place ++ left.drop (r.place + 1) else left, .ok part)

/-- a structure put in place of a part: before and after it stands what was there -/
def embed (before after : Sentence) : Structure → Outcome Structure
  | .sentence t => return .sentence (before ++ t ++ after)
  | .group branches => do
    let made ← branches.mapM fun b =>
      match b with
      | .group members => do
        let ms ← members.mapM fun m =>
          match m with
          | .sentence t => return Structure.sentence (before ++ t ++ after)
          | _ => throw (.wrongKind "can only join sentences")
        return Structure.group ms
      | _ => throw (.broken .unnamed)
    return .group made
  | _ => return .nothing

/-- a change made at part n of a sentence -/
def onPart (kind : String) (n : Int) (f : Sentence → Outcome Structure) (s : Sentence) : Outcome Structure := do
  if s.isEmpty then throw .noStart
  let r := reach kind n s
  let place := min r.place (s.length - 1)
  if (r.separators : Int) < n then return .nothing
  let stop := place + 1 + (untilSeparator kind (s.drop (place + 1))).length
  let start := if r.separators = 0 then place else place + 1
  let out ← f (if s.length - 1 ≤ stop then s.drop start else (s.take stop).drop start)
  embed (s.take start) (s.drop stop) out

end TableauTutor.Sentence
