set_option autoImplicit false

/- A double taken apart: a sign and, when it is finite, the natural number and the power of two
   whose product is its absolute value. -/
namespace LoopDeps.Decimal

inductive Magnitude where
  | nan
  | infinite
  -- The value is `units * 2 ^ power`. The next double below is nearer than the next above exactly
  -- when `narrow` holds, at a power of two.
  | finite (units : Nat) (power : Int) (narrow : Bool)

def negative (x : Float) : Bool := x.toBits.toNat / Nat.pow 2 63 = 1

def magnitude (x : Float) : Magnitude :=
  let bits : Nat := x.toBits.toNat
  let exponent : Nat := bits / Nat.pow 2 52 % Nat.pow 2 11
  let fraction : Nat := bits % Nat.pow 2 52
  if exponent = 2047 then
    if fraction = 0 then .infinite else .nan
  else if exponent = 0 then .finite fraction (-1074) false
  else .finite (fraction + Nat.pow 2 52) ((exponent : Int) - 1075) (fraction = 0 && 1 < exponent)

-- The texts of the values without digits, and the sign in front of the others.
def signed (x : Float) (finite : Nat → Int → Bool → List Char) : String :=
  match magnitude x with
  | .nan => "NaN"
  | .infinite => if negative x then "-inf" else "inf"
  | .finite units power narrow =>
      let digits := finite units power narrow
      String.ofList (if negative x then '-' :: digits else digits)

end LoopDeps.Decimal
