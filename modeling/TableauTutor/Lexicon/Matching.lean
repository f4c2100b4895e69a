import TableauTutor.Lexicon.Pattern

/-!
Matching patterns against a text, with backtracking. `run` is given what has to be done with the rest of the text and
answers the first way, in order of preference, in which the pattern and then the rest succeed.
-/

namespace TableauTutor.Pattern

/-- a place in a text: what stands before it, nearest character first, and what follows -/
structure Place where
  before : List Char := []
  rest : List Char
deriving DecidableEq, Repr

namespace Place

/-- is the place between a character of a word and one that is not -/
def isEdge (m : Modes) (s : Place) : Bool :=
  s.before.head?.any (CharClass.word.holds m) != s.rest.head?.any (CharClass.word.holds m)

/-- does the place meet the condition; an empty text has neither edges nor places that are none -/
def satisfies (m : Modes) (s : Place) : Anchor → Bool
  | .textStart => s.before.isEmpty
  | .textEnd => s.rest.isEmpty
  | .lineStart => s.before.isEmpty || m.everyLine && s.before.head? == some '\n'
  | .lineEnd => s.rest.isEmpty || s.rest == ['\n'] || m.everyLine && s.rest.head? == some '\n'
  | .wordEdge negated => !(s.before.isEmpty && s.rest.isEmpty) && s.isEdge m != negated

/-- the place after the next character -/
def next (s : Place) (c : Char) (cs : List Char) : Place := ⟨c :: s.before, cs⟩

/-- the place n characters before -/
def back (n : Nat) (s : Place) : Place := ⟨s.before.drop n, (s.before.take n).reverse ++ s.rest⟩

/-- the characters from a place up to a later one -/
def upTo (s t : Place) : List Char := s.rest.take (s.rest.length - t.rest.length)

end Place

/-- how far a match has come: the place, and what the groups matched, latest first -/
structure Progress where
  place : Place
  groups : List (Nat × List Char) := []
deriving DecidableEq, Repr

namespace Progress

/-- one character that passes the test, then the rest -/
def eat (test : Char → Bool) (k : Progress → Option Progress) (s : Progress) : Option Progress :=
  match s.place.rest with
  | [] => none
  | c :: cs => if test c then k { s with place := s.place.next c cs } else none

/-- the given characters, then the rest -/
def eatAll (same : Char → Char → Bool) (k : Progress → Option Progress) : List Char → Progress → Option Progress
  | [], s => k s
  | c :: cs, s => s.eat (same c) (eatAll same k cs)

def remember (n : Nat) (text : List Char) (s : Progress) : Progress := { s with groups := (n, text) :: s.groups }

/-- is the second one further on -/
def advances (s t : Progress) : Bool := t.place.rest.length < s.place.rest.length

end Progress

/-- repeat a step, then the rest. Once enough have been made, a step is tried only from a place at which the last such
step did not start, so that the fuel, one for every step that is needed and for every place, is enough -/
def loop (step : (Progress → Option Progress) → Progress → Option Progress) (least : Nat) (most : Option Nat)
    (lazy : Bool) (k : Progress → Option Progress) : Nat → Nat → Option Nat → Progress → Option Progress
  | 0, _, _, _ => none
  | fuel + 1, count, last, s =>
    if count < least then step (loop step least most lazy k fuel (count + 1) last) s
    else
      let here := some s.place.rest.length
      let more := fun (_ : Unit) =>
        if most.all (count < ·) && last != here then step (loop step least most lazy k fuel (count + 1) here) s
        else none
      if lazy then (k s).orElse more else (more ()).orElse fun _ => k s

/-- repeat a step as often as it succeeds and moves on -/
def exhaust (step : Progress → Option Progress) : Nat → Nat → Option Nat → Progress → Option Progress
  | 0, _, _, s => some s
  | fuel + 1, least, most, s =>
    if 0 < least then (step s).bind (exhaust step fuel (least - 1) (most.map (· - 1)))
    else if most == some 0 then some s
    else
      match step s with
      | none => some s
      | some t => if s.advances t then exhaust step fuel 0 (most.map (· - 1)) t else some t

/-- the first way in which the pattern matches and the rest succeeds -/
def run : Pattern → Modes → (Progress → Option Progress) → Progress → Option Progress
  | empty, _, k, s => k s
  | char c, m, k, s => s.eat (m.alike c) k
  | any, m, k, s => s.eat (fun c => m.acrossLines || c != '\n') k
  | set negated items, m, k, s => s.eat (fun c => items.any (·.holds m c) != negated) k
  | anchor a, m, k, s => if s.place.satisfies m a then k s else none
  | seq p q, m, k, s => run p m (run q m k) s
  | alt p q, m, k, s => (run p m k s).orElse fun _ => run q m k s
  | rep p least most eagerness, m, k, s =>
    let fuel := least + s.place.rest.length + 2
    match eagerness with
    | .possessive => (exhaust (run p m some) fuel least most s).bind k
    | e => loop (run p m) least most (e == .lazy) k fuel 0 none s
  | group n p, m, k, s => run p m (fun t => k (t.remember n (s.place.upTo t.place))) s
  | back n, m, k, s =>
    match s.groups.lookup n with
    | none => none
    | some text => s.eatAll m.repeats k text
  | given n p q, m, k, s => if (s.groups.lookup n).isSome then run p m k s else run q m k s
  | under on off p, m, k, s => run p (m.switch on off) k s
  | ahead negated p, m, k, s =>
    match negated, run p m some s with
    | false, some t => k { s with groups := t.groups }
    | true, none => k s
    | _, _ => none
  | behind negated width p, m, k, s =>
    match width with
    | none => none
    | some n =>
      let start := if n ≤ s.place.before.length then run p m some { s with place := s.place.back n } else none
      match negated, start with
      | false, some t => k { s with groups := t.groups }
      | true, none => k s
      | _, _ => none
  | atomic p, m, k, s => (run p m some s).bind k

/-- the place at which the preferred match that starts here ends -/
def firstEnd? (p : Pattern) (s : Place) : Option Place := (p.run {} some ⟨s, []⟩).map (·.place)

end TableauTutor.Pattern
