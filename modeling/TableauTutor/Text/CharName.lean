import TableauTutor.Text.Basic
import TableauTutor.Text.CharNameTable

/-!
Characters by their names in the Unicode standard. A name may be written in small letters, except that of an ideograph,
which is made up of its number.
-/

namespace TableauTutor.Text

/-- names with their frequent words written out -/
def spellOut (names : List String) : List String := names.flatMap fun row =>
  splitAt ';' (String.join (row.toList.map fun c => (charNameWords.lookup c).getD (String.singleton c)))

/-- the code point of a name among names of letters in a row -/
def letterInRun? (name : String) : Nat × Nat × Nat × String × List String → Option Nat
  | (capital, small, step, script, called) =>
    let letters := spellOut called
    ((letters.findIdx? (script ++ " CAPITAL LETTER " ++ · == name)).map (capital + step * ·)).or
      ((letters.findIdx? (script ++ " SMALL LETTER " ++ · == name)).map (small + step * ·))

/-- the code point of a name among other names in a row -/
def codeInRun? (name : String) (run : Nat × List String) : Option Nat :=
  ((spellOut run.2).findIdx? (· == name)).map (run.1 + ·)

/-- ranges of ideographs that are named by their numbers -/
def ideographRanges : List (Nat × Nat) := [
  (13312, 19903), (19968, 40959), (131072, 173791), (173824, 177976), (177984, 178205), (178208, 183969),
  (183984, 191456), (196608, 201546)]

/-- the value of capital hexadecimal digits -/
def capitalHex? (cs : List Char) : Option Nat :=
  cs.foldlM (fun n c =>
    if c.isDigit then some (16 * n + (c.toNat - 48))
    else if 'A' ≤ c && c ≤ 'F' then some (16 * n + (c.toNat - 55))
    else none) 0

/-- the ideograph whose number makes up its name -/
def ideograph? (name : String) : Option Nat := do
  let head := "CJK UNIFIED IDEOGRAPH-"
  if !startsWith head name then none
  else
    let digits := name.toList.drop head.length
    let n ← if digits.length == 4 || digits.length == 5 then capitalHex? digits else none
    if inRanges ideographRanges (Char.ofNat n) then return n else none

/-- the character of a name -/
def charNamed? (name : String) : Option Char :=
  let capitals := String.ofList (name.toList.map Char.toUpper)
  let code := (letterNameRuns.findSome? (letterInRun? capitals)).or ((charNameRuns.findSome? (codeInRun? capitals)).or
    ((charAliases.lookup capitals).or (ideograph? name)))
  code.map Char.ofNat

end TableauTutor.Text
