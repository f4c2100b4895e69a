import TableauTutor.Datum

/-!
Mistakes of the person using the program: a name by which an assistant recognises it, a
text to fall back on, and details.
-/

namespace TableauTutor

/-- something that the person using the program did wrong -/
structure Mistake where
  name : String
  default : String
  details : Datum := .none
deriving Repr, Inhabited

namespace Mistake

/-- two mistakes are the same when name and details agree, whatever their texts -/
def same (m n : Mistake) : Bool := m.name == n.name && m.details == n.details

instance : BEq Mistake := ⟨same⟩

/-- the fields one after another, under a heading -/
def inspect (heading : String) (m : Mistake) : String :=
  heading ++ "(name=" ++ Text.quoted m.name ++ ", default=" ++ Text.quoted m.default ++
    ", additional=" ++ m.details.written ++ ")"

/-- the parts of a mistake; empty details are none -/
def toDatum (m : Mistake) : Datum :=
  .record [("name", .text m.name), ("default", .text m.default),
    ("additional", if m.details.isVoid then .none else m.details)]

/-- a mistake can be filed unless its details can be changed -/
def canBeFiled (m : Mistake) : Bool := !m.details.isMutable

/-- filed in the same place -/
def filedAlike (m n : Mistake) : Bool := m.name == n.name && m.default == n.default && m.details == n.details

end Mistake

end TableauTutor
