/-!
Positions in a sequence, counted from the start or, when negative, from the end; cuts between two positions; sorting;
and tables kept in the order in which their keys were first written.
-/

namespace TableauTutor

/-- the index that a position of a sequence of length n names -/
def resolve? (n : Nat) (i : Int) : Option Nat :=
  if 0 ≤ i then if i < n then some i.toNat else none
  else if 0 ≤ i + n then some (i + n).toNat else none

/-- the member at a position -/
def pick? {α : Type} (xs : List α) (i : Int) : Option α := (resolve? xs.length i).bind fun k => xs[k]?

/-- a cut position forced into `lo … hi`, after counting from the end when it is negative -/
def clamp (n : Nat) (lo hi i : Int) : Int :=
  let j := if i < 0 then i + n else i
  if j < lo then lo else if hi < j then hi else j

/-- the members between two cut positions -/
def cut {α : Type} (xs : List α) (start : Option Int) (stop : Option Int) : List α :=
  let n := xs.length
  let a := (start.map (clamp n 0 n)).getD 0
  let b := (stop.map (clamp n 0 n)).getD n
  (xs.take b.toNat).drop a.toNat

/-- how many steps lead from a to before b -/
def stepCount (a b step : Int) : Nat :=
  if 0 < step then ((b - a + step - 1) / step).toNat else ((a - b - step - 1) / (-step)).toNat

/-- the members between two cut positions, every step-th of them; no such cut when the step is zero -/
def cutBy? {α : Type} (xs : List α) (start stop : Option Int) (step : Int) : Option (List α) :=
  let n := xs.length
  if step = 0 then none
  else if 0 < step then
    let a := (start.map (clamp n 0 n)).getD 0
    let b := (stop.map (clamp n 0 n)).getD n
    some ((List.range (stepCount a b step)).filterMap fun (k : Nat) => xs[(a + k * step).toNat]?)
  else
    let a := (start.map (clamp n (-1) (n - 1))).getD (n - 1)
    let b := (stop.map (clamp n (-1) (n - 1))).getD (-1)
    some ((List.range (stepCount a b step)).filterMap fun (k : Nat) => xs[(a + k * step).toNat]?)

/-- the sequence with a member put before a cut position -/
def insertAt {α : Type} (xs : List α) (i : Int) (x : α) : List α :=
  let k := (clamp xs.length 0 xs.length i).toNat
  xs.take k ++ x :: xs.drop k

/-- the member at a position, and the sequence without it -/
def extract? {α : Type} (xs : List α) (i : Int) : Option (α × List α) :=
  (resolve? xs.length i).bind fun k => xs[k]?.map fun x => (x, xs.take k ++ xs.drop (k + 1))

/-- the sequence n times over; nothing when n is not positive -/
def repeatList {α : Type} (n : Int) (xs : List α) : List α := (List.replicate n.toNat xs).flatten

/-- a member put before the first one that it precedes -/
def insertBy {α : Type} (precedes : α → α → Bool) (x : α) : List α → List α
  | [] => [x]
  | y :: ys => if precedes x y then x :: y :: ys else y :: insertBy precedes x ys

/-- the members sorted; equals keep their order -/
def sortBy {α : Type} (precedes : α → α → Bool) (xs : List α) : List α := xs.foldr (insertBy precedes) []

/-- write a key of a table; a new key goes to the end -/
def put {κ α : Type} [BEq κ] (key : κ) (value : α) : List (κ × α) → List (κ × α)
  | [] => [(key, value)]
  | (k, v) :: rest => if k == key then (k, value) :: rest else (k, v) :: put key value rest

/-- the table that writing the pairs in order gives -/
def tableOf {κ α : Type} [BEq κ] (pairs : List (κ × α)) : List (κ × α) :=
  pairs.foldl (fun table (k, v) => put k v table) []

/-- the table with every key renamed; where two keys meet, the later value stays -/
def mapKeys {κ ι α : Type} [BEq ι] (f : κ → ι) (table : List (κ × α)) : List (ι × α) :=
  tableOf (table.map fun (k, v) => (f k, v))

/-- the part of a table before a key, and the part after it counted anew -/
def splitAtKey {α : Type} (table : List (Int × α)) (key : Int) : List (Int × α) × List (Int × α) :=
  (table.filter (·.1 < key), (table.filter (key < ·.1)).map fun (k, v) => (k - key - 1, v))

/-- one more value in the group of its key -/
def gather {κ α : Type} [BEq κ] (groups : List (κ × List α)) (p : κ × α) : List (κ × List α) :=
  put p.1 ((groups.lookup p.1).getD [] ++ [p.2]) groups

/-- values gathered under their keys, keys in the order of their first occurrence -/
def groupByKey {κ α : Type} [BEq κ] : List (κ × α) → List (κ × List α) := List.foldl gather []

/-- every value of every group paired with its key -/
def ungroup {κ α : Type} (groups : List (κ × List α)) : List (κ × α) :=
  groups.flatMap fun (k, vs) => vs.map fun v => (k, v)

end TableauTutor
