import TableauTutor.Sentence.Outline

/-!
Is a sentence a formula? If not, one mistake is reported: the first of a fixed list of complaints that applies to what
is left of the outline.
-/

namespace TableauTutor.Sentence

/-- a number as a person counts it, from one -/
def ordinal (place : Option Nat) : Outcome String :=
  match place with
  | some n => return toString (n + 1)
  | none => throw (.wrongKind "no position")

def placeDatum (place : Option Nat) : Datum :=
  .record [("pos", match place with | some n => .whole n | none => .none)]

/-- a complaint about the place of a pattern: its name, the text before the number and the text after it. The number
names the mark `shift` places on, the details name the first mark of the pattern -/
def complaint (x : Outline.Placed Mark) (pattern : List Mark) (shift : Nat) (name before after : String) :
    Outcome (Option Mistake) :=
  match Outline.find? pattern x.marks with
  | none => return none
  | some i => do
    let shown ← ordinal ((x.places[i + shift]?).join)
    return some ⟨name, before ++ shown ++ after, placeDatum ((x.places[i]?).join)⟩

/-- the first complaint that applies -/
def firstComplaint (x : Outline.Placed Mark) : Outcome (Option Mistake) := do
  if x.marks = [.atom] then return none
  if !x.marks.contains .atom then
    return some ⟨"no variables", "Zdanie nie zawiera żadnych zmiennych", .none⟩
  if (Outline.find? [Mark.atom, Mark.atom] x.marks).isSome then
    return some ⟨"nothing between formulas",
      "W zdaniu znajdują się dwie zmienne lub formuły niepołączone spójnikiem", .none⟩
  if let some m ← complaint x [.left] 0 "bracket left open" "Otwarcie nawiasu na pozycji " " nie ma zamknięcia" then
    return some m
  if let some m ← complaint x [.right] 0 "bracket not opened" "Zamknięcie nawiasu na pozycji " " nie ma otwarcia" then
    return some m
  if let some m ← complaint x [.atom, .binary] 1 "no right" "Spójnik dwuargumentowy na pozycji "
      " nie ma prawego argumentu" then
    return some m
  if let some m ← complaint x [.binary, .atom] 0 "no left" "Spójnik dwuargumentowy na pozycji "
      " nie ma lewego argumentu" then
    return some m
  throw .malformed

/-- the mistake in a sentence, if there is one -/
def checkSyntax (s : Sentence) : Outcome (Option Mistake) := firstComplaint (Outline.reduced s)

end TableauTutor.Sentence
