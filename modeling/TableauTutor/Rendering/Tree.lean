import TableauTutor.Rendering.Basic

/-!
Proofs on paper: a tree of sentences with the closing of each branch at its end, written in one of the styles.
-/

namespace TableauTutor

/-- a proof to be printed; a node without children may have a closing text -/
inductive PrintedTree where
  | node (sentence : Sentence) (children : Option (List PrintedTree)) (closer : Option String)
deriving Repr, Inhabited

namespace PrintedTree

mutual
def toDatum : PrintedTree → Datum
  | node s children closer =>
    .record [("sentence", .ofTexts s),
      ("children", match children with
        | some ts => .list (toDatumAll ts)
        | none => .none),
      ("closer", .ofOption .text closer)]

def toDatumAll : List PrintedTree → List Datum
  | [] => []
  | t :: ts => toDatum t :: toDatumAll ts
end

/-- a text without line breaks at its end -/
def withoutBreaks (s : String) : String := String.ofList (s.toList.reverse.dropWhile (· == '\n')).reverse

mutual
/-- the lines of a tree that grows to the right; `lead` stands before the first line, `follow` before the lines below -/
def lines (style : Style) (lead follow : String) : PrintedTree → List String
  | node s children _ =>
    withoutBreaks (lead ++ style.sentence s) ::
      (match children with
        | some ts => linesBelow style follow ts
        | none => [])

def linesBelow (style : Style) (follow : String) : List PrintedTree → List String
  | [] => []
  | t :: ts =>
    (if ts.isEmpty then lines style (follow ++ "└── ") (follow ++ "    ") t
     else lines style (follow ++ "├── ") (follow ++ "│   ") t) ++ linesBelow style follow ts
end

/-- a closing text inside TeX brackets -/
def texCloser (s : String) : String := Text.replace "," "\x7b,\x7d" (Text.replace "XXX" "\\times" s)

mutual
/-- nested square brackets, one for each sentence and one for a closing text -/
def brackets : PrintedTree → String
  | node s (some ts) _ => "[" ++ Style.forest.sentence s ++ "\n" ++ Text.join "\n" (bracketsAll ts) ++ "]"
  | node s none closer =>
    match closer with
    | some c =>
      if c.isEmpty then "[" ++ Style.forest.sentence s ++ "]"
      else "[" ++ Style.forest.sentence s ++ " [" ++ texCloser c ++ "]]"
    | none => "[" ++ Style.forest.sentence s ++ "]"

def bracketsAll : List PrintedTree → List String
  | [] => []
  | t :: ts => brackets t :: bracketsAll ts
end

def forestStyle : String :=
  "\\forestset\x7bsmullyan tableaux/.style=\x7bfor tree=\x7bmath content\x7d,where n children=1\x7b" ++
    "!1.before computing xy=\x7bl=\\baselineskip\x7d,!1.no edge\x7d\x7b\x7d,\x7d,\x7d"

mutual
/-- nested inferences; what stands above a line is written behind it -/
def inferences : PrintedTree → String
  | node s children _ =>
    "\\infer\x7b" ++ Style.inference.sentence s ++ "\x7d\x7b" ++
      (match children with
        | some ts => Text.join " & " (inferencesAll ts)
        | none => "") ++ "\x7d"

def inferencesAll : List PrintedTree → List String
  | [] => []
  | t :: ts => inferences t :: inferencesAll ts
end

/-- the lines of a printed proof -/
def write (style : Style) (t : PrintedTree) : List String :=
  match style with
  | .plain => t.lines .plain "" ""
  | .typed => t.lines .typed "" ""
  | .forest =>
    [forestStyle, "\\begin\x7bforest\x7d", "smullyan tableaux", t.brackets, "\\end\x7bforest\x7d"]
  | .inference => [t.inferences]

end PrintedTree

end TableauTutor
