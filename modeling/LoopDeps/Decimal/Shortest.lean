import LoopDeps.Decimal.Magnitude
set_option autoImplicit false

/- The shortest decimal text that reads back as the same double, written positionally: no exponent,
   and no fraction for a whole number. -/
namespace LoopDeps.Decimal

-- `digits * 10 ^ power`.
structure Approximation where
  digits : Nat
  power : Int

-- The nearest multiple of `10 ^ power` that reads back as `units * 2 ^ two`, if there is one.
-- Everything is scaled by one common factor, so that the comparisons are exact. The ends of the
-- interval of reals that round to the double belong to it when `units` is even.
def onGrid? (units : Nat) (two : Int) (narrow : Bool) (power : Int) : Option Approximation :=
  let scale := Nat.pow 2 (two - 2).toNat * Nat.pow 10 (-power).toNat
  let step := Nat.pow 10 power.toNat * Nat.pow 2 (2 - two).toNat
  let value := 4 * units * scale
  let low := (4 * units - if narrow then 1 else 2) * scale
  let high := (4 * units + 2) * scale
  let inside (n : Nat) : Bool :=
    if units % 2 = 0 then low ≤ n * step && n * step ≤ high else low < n * step && n * step < high
  let below := value / step
  let above := below + 1
  match inside below, inside above with
  | false, false => none
  | true, false => some ⟨below, power⟩
  | false, true => some ⟨above, power⟩
  | true, true =>
      some ⟨if value - below * step < above * step - value then below else above, power⟩

-- Grids are tried from the coarsest that can hold a digit of the value downwards.
def search (units : Nat) (two : Int) (narrow : Bool) : Nat → Int → Approximation
  | 0, power => ⟨0, power⟩
  | grids + 1, power =>
      match onGrid? units two narrow power with
      | some found => found
      | none => search units two narrow grids (power - 1)

-- Seventeen digits always suffice, and the first grid is at most two above the leading digit's.
def shortest (units : Nat) (two : Int) (narrow : Bool) : Approximation :=
  if units = 0 then ⟨0, 0⟩
  else search units two narrow 21 ((Nat.log2 units + two + 1) * 30103 / 100000 + 1)

def dropTrailingZeros (digits : List Char) : List Char :=
  (digits.reverse.dropWhile (· == '0')).reverse

def positional (a : Approximation) : List Char :=
  let digits := Nat.toDigits 10 a.digits
  if 0 ≤ a.power then digits ++ List.replicate a.power.toNat '0'
  else
    let places := a.power.natAbs
    let padded := List.replicate (places + 1 - digits.length) '0' ++ digits
    let whole := padded.take (padded.length - places)
    let fraction := dropTrailingZeros (padded.drop (padded.length - places))
    if fraction.isEmpty then whole else whole ++ '.' :: fraction

def text (x : Float) : String :=
  signed x fun units two narrow => positional (shortest units two narrow)

end LoopDeps.Decimal
