import TableauTutor.Text.Basic

/-!
What can be wrong with a written pattern, and how it is told: the flaw, the place where it shows, and in a text of
several lines also the line and the column of that place.
-/

namespace TableauTutor.Pattern

/-- what can be wrong with a written pattern -/
inductive Flaw where
  | badEscape (escape : String)
  | incompleteEscape (escape : String)
  | octalTooLarge (escape : String)
  | noOpeningBrace
  | undefinedCharacter (name : String)
  /-- a name is empty -/
  | missing (what : String)
  /-- a name is not closed by its mark -/
  | unclosedName (mark : Char)
  | badName (name : String)
  | unknownName (name : String)
  | nameTaken (name : String) (now earlier : Nat)
  | zeroGroup
  | unknownGroup (n : Nat)
  /-- a group is referred to before it is closed -/
  | openGroup
  /-- a condition on what precedes refers to a group of its own -/
  | ownGroup
  | unclosedSet
  | badRange (first last : String)
  | boundsReversed
  | nothingToRepeat
  | repeatedTwice
  | unexpectedEnd
  | unknownExtension (mark : String)
  | unclosedRemark
  | unclosedGroup
  | unopenedGroup
  | thirdBranch
  | lateModes
  | localeMode
  | modesClash
  | unknownMode
  /-- a list of modes ends too early -/
  | noModes (expected : String)
  | wholeModeOn
  | wholeModeOff
  | fixedModeOff
  | modeOnAndOff
deriving DecidableEq, Repr

def Flaw.message : Flaw → String
  | badEscape e => "bad escape " ++ e
  | incompleteEscape e => "incomplete escape " ++ e
  | octalTooLarge e => "octal escape value " ++ e ++ " outside of range 0-0o377"
  | noOpeningBrace => "missing \x7b"
  | undefinedCharacter name => "undefined character name " ++ Text.quoted name
  | missing what => "missing " ++ what
  | unclosedName mark => "missing " ++ String.singleton mark ++ ", unterminated name"
  | badName name => "bad character in group name " ++ Text.quoted name
  | unknownName name => "unknown group name " ++ Text.quoted name
  | nameTaken name now earlier =>
    "redefinition of group name " ++ Text.quoted name ++ " as group " ++ toString now ++ "; was group " ++
      toString earlier
  | zeroGroup => "bad group number"
  | unknownGroup n => "invalid group reference " ++ toString n
  | openGroup => "cannot refer to an open group"
  | ownGroup => "cannot refer to group defined in the same lookbehind subpattern"
  | unclosedSet => "unterminated character set"
  | badRange a b => "bad character range " ++ a ++ "-" ++ b
  | boundsReversed => "min repeat greater than max repeat"
  | nothingToRepeat => "nothing to repeat"
  | repeatedTwice => "multiple repeat"
  | unexpectedEnd => "unexpected end of pattern"
  | unknownExtension mark => "unknown extension ?" ++ mark
  | unclosedRemark => "missing ), unterminated comment"
  | unclosedGroup => "missing ), unterminated subpattern"
  | unopenedGroup => "unbalanced parenthesis"
  | thirdBranch => "conditional backref with more than two branches"
  | lateModes => "global flags not at the start of the expression"
  | localeMode => "bad inline flags: cannot use 'L' flag with a str pattern"
  | modesClash => "bad inline flags: flags 'a', 'u' and 'L' are incompatible"
  | unknownMode => "unknown flag"
  | noModes expected => "missing " ++ expected
  | wholeModeOn => "bad inline flags: cannot turn on global flag"
  | wholeModeOff => "bad inline flags: cannot turn off global flag"
  | fixedModeOff => "bad inline flags: cannot turn off flags 'a', 'u' and 'L'"
  | modeOnAndOff => "bad inline flags: flag turned on and off"

/-- why a written pattern cannot be read -/
inductive ReadError where
  | flawed (flaw : Flaw) (place : Nat)
  | tooManyRepetitions
deriving DecidableEq, Repr

/-- the last line that the characters begin, counted from one, and the column after it -/
def lineAndColumn (cs : List Char) : Nat × Nat :=
  (cs.count '\n' + 1, (cs.reverse.takeWhile (· != '\n')).length + 1)

/-- the error told about the text in which it was found -/
def ReadError.message (text : String) : ReadError → String
  | flawed flaw place =>
    let told := flaw.message ++ " at position " ++ toString place
    if text.toList.contains '\n' then
      let (line, column) := lineAndColumn (text.toList.take place)
      told ++ " (line " ++ toString line ++ ", column " ++ toString column ++ ")"
    else told
  | tooManyRepetitions => "the repetition number is too large"

end TableauTutor.Pattern
