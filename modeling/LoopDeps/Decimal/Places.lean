import LoopDeps.Decimal.Magnitude
set_option autoImplicit false

/- Decimal text with a fixed number of places, rounded from the exact value, a half to the even
   neighbour. -/
namespace LoopDeps.Decimal

def roundDiv (num den : Nat) : Nat :=
  let quotient := num / den
  let twice := 2 * (num % den)
  if twice < den then quotient
  else if den < twice then quotient + 1
  else quotient + quotient % 2

def withPoint (places scaled : Nat) : List Char :=
  let digits := Nat.toDigits 10 scaled
  if places = 0 then digits
  else
    let padded := List.replicate (places + 1 - digits.length) '0' ++ digits
    padded.take (padded.length - places) ++ '.' :: padded.drop (padded.length - places)

def fixed (places : Nat) (x : Float) : String :=
  signed x fun units two _ =>
    withPoint places (roundDiv (units * Nat.pow 2 two.toNat * Nat.pow 10 places) (Nat.pow 2 (-two).toNat))

end LoopDeps.Decimal
