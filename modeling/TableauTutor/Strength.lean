/-!
How strongly a connective binds at a place of a formula: its bracket depth plus its precedence as a part of the scale.
The reading is abstract, so that one development serves exact fractions, in which laws are stated, and binary64 numbers,
in which strengths are displayed.
-/

namespace TableauTutor

/-- a type in which binding strengths are computed and compared -/
class Strength (σ : Type) where
  /-- depth plus precedence divided by scale, for a scale that is not zero -/
  measure : (depth precedence scale : Int) → σ
  below : σ → σ → Bool
  same : σ → σ → Bool

instance : Strength Rat where
  measure depth precedence scale := (depth : Rat) + (precedence : Rat) / (scale : Rat)
  below x y := x < y
  same x y := x == y

namespace Binary64

/-- n · 2^e rounded to nearest, for an n below 2^64 whose last bit records whether anything was cut off -/
def scaled (n : Nat) (e : Int) : Float := (Float.ofNat n).scaleB e

/-- quotient of two natural numbers rounded to nearest, ties to even -/
def ofQuotientNat (p q : Nat) : Float :=
  if p == 0 || q == 0 then 0
  else
    -- shift so that the whole part of the quotient has 62 or 63 bits, and keep a sticky last bit
    let shift : Int := 62 - (Nat.log2 p : Int) + (Nat.log2 q : Int)
    let (p', q') := if 0 ≤ shift then (p <<< shift.toNat, q) else (p, q <<< (-shift).toNat)
    let whole := p' / q'
    let sticky := if p' % q' == 0 then 0 else 1
    scaled (whole ||| sticky) (-shift)

/-- quotient of two whole numbers rounded to nearest, ties to even -/
def ofQuotient (p q : Int) : Float :=
  let size := ofQuotientNat p.natAbs q.natAbs
  if (p < 0) != (q < 0) then -size else size

end Binary64

instance : Strength Float where
  measure depth precedence scale := Float.ofInt depth + Binary64.ofQuotient precedence scale
  below x y := x < y
  same x y := x == y

/-- a strength as it is handed in or computed: a whole number stays whole -/
inductive Reading where
  | whole (n : Int)
  | rounded (x : Float)

namespace Reading

def toFloat : Reading → Float
  | whole n => Float.ofInt n
  | rounded x => x

end Reading

instance : Strength Reading where
  measure depth precedence scale := .rounded (Strength.measure depth precedence scale)
  below x y := x.toFloat < y.toFloat
  same x y := x.toFloat == y.toFloat

end TableauTutor
