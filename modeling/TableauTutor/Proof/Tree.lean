import TableauTutor.BranchName
import TableauTutor.Calculus.Basic
import TableauTutor.Rendering.Tree

/-!
Proof trees. A node holds a sentence, the name of its branch, the layer (the move that made it), the history of what was
used up on the way to it, and the closing of its branch when it is a leaf that has been closed. A node is named by its
position when the tree is read from the root, a node before its children, children from left to right.
-/

namespace TableauTutor

/-- what a node of a proof holds -/
structure Node where
  sentence : Sentence
  branch : String
  layer : Int := 0
  history : History := {}
  closed : Option Closing := none
deriving DecidableEq, Repr, Inhabited

inductive ProofTree where
  | node (data : Node) (children : List ProofTree)
deriving Repr, Inhabited

namespace ProofTree

def data : ProofTree → Node
  | node d _ => d

def children : ProofTree → List ProofTree
  | node _ ts => ts

def isLeaf (t : ProofTree) : Bool := t.children.isEmpty

/-- a tree with one node -/
def root (s : Sentence) (branch : String) : ProofTree := node { sentence := s, branch } []

mutual
def size : ProofTree → Nat
  | node _ ts => 1 + sizeAll ts

def sizeAll : List ProofTree → Nat
  | [] => 0
  | t :: ts => size t + sizeAll ts
end

/-- a place in a tree: its position, the nodes above it from the root on with their positions, the siblings on either
side, and what starts there -/
structure Place where
  position : Nat
  above : List (Node × Nat)
  before : List ProofTree
  tree : ProofTree
  after : List ProofTree
deriving Repr, Inhabited

namespace Place

def data (p : Place) : Node := p.tree.data
def isLeaf (p : Place) : Bool := p.tree.isLeaf
def depth (p : Place) : Nat := p.above.length

/-- the nodes from the root to the place, with their positions -/
def trail (p : Place) : List (Node × Nat) := p.above ++ [(p.data, p.position)]

/-- the nodes from the root to the place -/
def path (p : Place) : List Node := p.trail.map (·.1)

/-- what is there to be known about the node at a place -/
def toDatum (p : Place) : Datum :=
  let d := p.data
  .record [("branch", .text d.branch), ("layer", .whole d.layer), ("depth", .whole p.depth),
    ("sentence", .ofTexts d.sentence), ("closed", .ofOption Closing.toDatum d.closed),
    ("history", .list (d.history.sorted.map .ofTexts))]

end Place

mutual
/-- all places of a tree that starts at a position below the given nodes, in order -/
def placesFrom (k : Nat) (above : List (Node × Nat)) (before : List ProofTree) (t : ProofTree)
    (after : List ProofTree) : List Place :=
  ⟨k, above, before, t, after⟩ :: (match t with | node d ts => placesAll (k + 1) (above ++ [(d, k)]) [] ts)

def placesAll (k : Nat) (above : List (Node × Nat)) (before : List ProofTree) : List ProofTree → List Place
  | [] => []
  | t :: ts => placesFrom k above before t ts ++ placesAll (k + size t) above (before ++ [t]) ts
end

def places (t : ProofTree) : List Place := placesFrom 0 [] [] t []

def nodes (t : ProofTree) : List Node := t.places.map (·.data)

/-- the place at a position -/
def place? (t : ProofTree) (k : Nat) : Option Place := t.places[k]?

mutual
/-- the tree with what starts at a position changed -/
def change (f : ProofTree → ProofTree) (k : Nat) : ProofTree → ProofTree
  | node d ts => if k = 0 then f (node d ts) else node d (changeAll f (k - 1) ts)

def changeAll (f : ProofTree → ProofTree) (k : Nat) : List ProofTree → List ProofTree
  | [] => []
  | t :: ts => if k < size t then change f k t :: ts else t :: changeAll f (k - size t) ts
end

def leaves (t : ProofTree) : List Place := t.places.filter (·.isLeaf)

def branchNames (t : ProofTree) : List String := t.leaves.map (·.data.branch)

/-- position of the first leaf of a branch -/
def leaf? (t : ProofTree) (name : String) : Option Nat :=
  (t.leaves.find? (·.data.branch == name)).map (·.position)

def openLeaves (t : ProofTree) : List Place := t.leaves.filter (·.data.closed.isNone)

/-- are all branches below closed -/
def isClosed (t : ProofTree) : Bool := t.leaves.all (·.data.closed.isSome)

/-- are all branches closed as successes -/
def isSuccessful (t : ProofTree) : Bool := t.leaves.all fun p => (p.data.closed.map (·.success)) == some true

/-- the nodes of the branch that ends at a place, with their positions -/
def branchOf (p : Place) : Outcome (List (Node × Nat)) :=
  if p.isLeaf then return p.trail else throw (.broken .endsInnerNode)

/-- the nodes of a branch whose sentences are not used up at its end -/
def unused (p : Place) : Outcome (List (Node × Nat)) := do
  return (← branchOf p).filter fun n => !p.data.history.contains n.1.sentence

/-- a name for each of n branches that go on from a branch: the first keeps its name, the others get free ones -/
def namesFor (t : ProofTree) (accessibility : Int) (own : String) (n : Int) : List String :=
  own :: (TableauTutor.branchNames accessibility t.branchNames).take (n - 1).toNat

/-- the next layer -/
def nextLayer (t : ProofTree) : Int := ((t.leaves.map (·.data.layer)).max?).getD 0 + 1

/-- the children of a node, with more of them behind -/
def addChildren (more : List ProofTree) : ProofTree → ProofTree
  | node d ts => node d (ts ++ more)

/-- sentences one below the other, as far as there are any; whether all of them were there -/
def chain (make : Sentence → Node) : List (Option Sentence) → List ProofTree × Outcome Unit
  | [] => ([], .ok ())
  | none :: _ => ([], .error (.wrongKind "a sentence is missing"))
  | some s :: rest =>
    let (below, r) := chain make rest
    ([node (make s) below], r)

/-- branches to hang below a node, each with its name, until a name or a sentence is missing -/
def branchTrees (make : String → Sentence → Node) : List String → Calculus.Growth → List ProofTree × Outcome Unit
  | _, [] => ([], .ok ())
  | names, [] :: rest => branchTrees make (names.drop 1) rest
  | [], (_ :: _) :: _ => ([], .error (.outOfRange "no branch name is left"))
  | name :: names, branch :: rest =>
    match chain (make name) branch with
    | (made, .error e) => (made, .error e)
    | (made, .ok ()) =>
      let (more, r) := branchTrees make names rest
      (made ++ more, r)

/-- branches hung below the node at a position; the new layer. What was hung before something was missing stays -/
def grow (t : ProofTree) (k : Nat) (accessibility : Int) (g : Calculus.Growth) : ProofTree × Outcome Int :=
  match t.place? k with
  | none => (t, .error (.missingPart "no such node"))
  | some p =>
    let layer := t.nextLayer
    let make (name : String) (s : Sentence) : Node :=
      { sentence := s, branch := name, layer, history := p.data.history }
    let (made, r) := branchTrees make (t.namesFor accessibility p.data.branch g.length) g
    (t.change (addChildren made) k, r.map fun _ => layer)

mutual
/-- commands carried out on the histories of a tree, until one fails -/
def command (cs : List History.Command) : ProofTree → ProofTree × Outcome Unit
  | node d ts =>
    match d.history.run cs with
    | (h, .error e) => (node { d with history := h } ts, .error e)
    | (h, .ok ()) =>
      let (below, r) := commandAll cs ts
      (node { d with history := h } below, r)

def commandAll (cs : List History.Command) : List ProofTree → List ProofTree × Outcome Unit
  | [] => ([], .ok ())
  | t :: ts =>
    match command cs t with
    | (u, .error e) => (u :: ts, .error e)
    | (u, .ok ()) =>
      let (us, r) := commandAll cs ts
      (u :: us, r)
end

/-- each list of commands carried out on the tree that goes with it -/
def commandEach : List (List History.Command) → List ProofTree → List ProofTree × Outcome Unit
  | cs :: css, t :: ts =>
    match command cs t with
    | (u, .error e) => (u :: ts, .error e)
    | (u, .ok ()) =>
      let (us, r) := commandEach css ts
      (u :: us, r)
  | _, ts => (ts, .ok ())

/-- commands for each of the children of a node -/
def commandChildren (t : ProofTree) (k : Nat) (css : List (List History.Command)) : ProofTree × Outcome Unit :=
  match t.place? k with
  | none => (t, .error (.missingPart "no such node"))
  | some p =>
    if p.tree.children.length = css.length then
      let (us, r) := commandEach css p.tree.children
      (t.change (fun u => node u.data us) k, r)
    else (t, .error (.broken .unequalBranchCount))

/-- commands for the history of one node -/
def commandAt (t : ProofTree) (k : Nat) (cs : List History.Command) : ProofTree × Outcome Unit :=
  match t.place? k with
  | none => (t, .error (.missingPart "no such node"))
  | some p =>
    let (h, r) := p.data.history.run cs
    (t.change (fun u => node { u.data with history := h } u.children) k, r)

/-- a leaf closed -/
def close (t : ProofTree) (k : Nat) (c : Closing) : Outcome ProofTree :=
  match t.place? k with
  | none => throw (.missingPart "no such node")
  | some p =>
    if p.isLeaf then return t.change (fun u => node { u.data with closed := some c } u.children) k
    else throw (.broken .closesInnerNode)

mutual
/-- everything from a layer on removed; the root stays -/
def prune (layer : Int) : ProofTree → ProofTree
  | node d ts => node d (pruneAll layer ts)

def pruneAll (layer : Int) : List ProofTree → List ProofTree
  | [] => []
  | t :: ts => if t.data.layer < layer then prune layer t :: pruneAll layer ts else pruneAll layer ts
end

/-- left or right -/
inductive Direction where
  | left
  | right
deriving DecidableEq, Repr

def Direction.ofText? (s : String) : Option Direction :=
  let u := Text.upper s
  if u = "R" ∨ u = "RIGHT" then some .right else if u = "L" ∨ u = "LEFT" then some .left else none

/-- position of the sibling on a side of the node at a position; the root has none, whatever the side -/
def neighbour (t : ProofTree) (k : Nat) (direction : String) : Outcome (Option Nat) :=
  match t.place? k with
  | none => return none
  | some p =>
    if p.above.isEmpty then return none
    else match Direction.ofText? direction with
      | none => throw (.direction direction)
      | some .right => return if p.after.isEmpty then none else some (k + p.tree.size)
      | some .left => return p.before.getLast?.map fun u => k - u.size

mutual
/-- the proof on paper -/
def printed : ProofTree → PrintedTree
  | node d [] => .node d.sentence none (d.closed.map (·.text))
  | node d (t :: ts) => .node d.sentence (some (printed t :: printedAll ts)) (some "")

def printedAll : List ProofTree → List PrintedTree
  | [] => []
  | t :: ts => printed t :: printedAll ts
end

/-- the node at a place in one line -/
def inspect (readable : String) (p : Place) : String :=
  p.data.branch ++ ":" ++ toString p.depth ++ (if p.data.closed.isSome then " (closed)" else "") ++ " - " ++ readable

end ProofTree

end TableauTutor
