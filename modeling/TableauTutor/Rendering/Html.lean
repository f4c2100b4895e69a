import TableauTutor.Proof.Tree
import TableauTutor.Sentence.Structure

/-!
Proofs and rules as HTML for a page on which every symbol and every branch can be clicked.
-/

namespace TableauTutor.Html

/-- a rule as a button: what it is used on above a line, what it yields below -/
def ruleButton (rule symbolic tokenID sentenceID tooltip : String) : Outcome String :=
  match Text.splitOn " / " (Text.replace "|" "</div> <div>" (Text.replace ";" "<br>" symbolic)) with
  | [premiss, result] =>
    return "<button type=\"button\" onclick=\"use_rule('" ++ rule ++ "', " ++ tokenID ++ ", " ++ sentenceID ++
      ")\" title=\"" ++ tooltip ++ "\">\n    <div class=\"symbolic\"><div>" ++ premiss ++
      "</div></div>\n    <hr>\n    <div class=\"symbolic\"><div>" ++ result ++ "</div></div></button>"
  | _ => throw (.badValue "no line between premiss and result")

/-- one symbol of a sentence as a button -/
def symbolButton (sentenceID : Int) (branch : String) (tokenID : Nat) (symbol : String) : String :=
  "<button type=\"button\" class=\"" ++ branch ++ " tree-btn\" id=\"btn" ++ toString sentenceID ++ toString tokenID ++
    branch ++ "\" onclick=\"getRules(" ++ toString tokenID ++ ", " ++ toString sentenceID ++ ", '" ++ branch ++
    "')\">" ++ symbol ++ "</button>"

/-- a sentence as a row of buttons; the first argument shows a symbol -/
def clickable (spell : Symbol → String) (s : Sentence) (sentenceID : Int) (branches : List String) (add : String) :
    String :=
  let branch := Text.join " " branches ++ add
  Text.join " " (s.zipIdx.map fun (y, i) => symbolButton sentenceID branch i (spell y))

/-- a mark for every branch on which the sentence on top is used up -/
def usedMarks (t : ProofTree) : List String :=
  ((t.leaves.filter fun p => p.data.history.contains t.data.sentence).map fun p =>
    " used-" ++ Text.lower p.data.branch).eraseDups

mutual
/-- a tree with a button for every symbol -/
def clickableTree (spell : Symbol → String) (depth : Nat) : ProofTree → String
  | .node d [] => clickable spell d.sentence depth [d.branch] (" leaf-" ++ d.branch ++ " leaf")
  | .node d (u :: us) =>
    let t := ProofTree.node d (u :: us)
    clickable spell d.sentence depth (t.leaves.map fun p => Text.lower p.data.branch).eraseDups
      (String.join (usedMarks t)) ++
      "<div class=\"symbolic2\">" ++ clickableTrees spell (depth + 1) (u :: us) ++ "</div>"

def clickableTrees (spell : Symbol → String) (depth : Nat) : List ProofTree → String
  | [] => ""
  | t :: ts => "<div>" ++ clickableTree spell depth t ++ "</div>" ++ clickableTrees spell depth ts
end

/-- the sign under a closed branch -/
def closeMark : Option Closing → String
  | none => ""
  | some c =>
    "<br><div class=\"branch_close\">" ++ (if c.success then "&#10060;" else "&#11093;") ++ "</div>"

def symbols (style : Style) (s : Sentence) : String := Text.join " " (s.map style.symbol)

mutual
/-- a tree with a button for every branch -/
def branchTree (style : Style) : ProofTree → String
  | .node d [] =>
    "<button type=\"button\" onclick=\"getBranch('" ++ d.branch ++ "');\">" ++ symbols style d.sentence ++
      "</button>" ++ closeMark d.closed
  | .node d (u :: us) =>
    symbols style d.sentence ++ "<div class=\"symbolic2\">" ++ branchTrees style (u :: us) ++ "</div>"

def branchTrees (style : Style) : List ProofTree → String
  | [] => ""
  | t :: ts => "<div>" ++ branchTree style t ++ "</div>" ++ branchTrees style ts
end

/-- an answer to the page; content that is nothing is left out -/
def response (type content : Datum) : Datum :=
  match content with
  | .none => .record [("type", type)]
  | c => .record [("type", type), ("content", c)]

/-- a table of branches has no form yet: without branches there is no widest one, otherwise
its width is asked of a number -/
def preview (x : Structure) : Outcome String :=
  match x.members? with
  | none => throw (.wrongKind "nothing to show")
  | some [] => throw (.badValue "no branches")
  | some _ => throw (.wrongKind "no width")

end TableauTutor.Html
