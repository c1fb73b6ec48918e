set_option autoImplicit false

/- The numbers that decimal texts denote: unsigned words for widths and lengths, and doubles for
   weights. Reading a double rounds to the nearest one, as the conversion from scientific notation
   in core does. -/
namespace LoopDeps.Decimal

def digitsValue (digits : List Char) : Nat := Nat.ofDigitChars 10 digits 0

-- Digits only, at least one of them, and a value below 2 ^ 32.
def word? (text : List Char) : Option Nat :=
  if text.isEmpty || text.any (fun c => !c.isDigit) then none
  else if digitsValue text < Nat.pow 2 32 then some (digitsValue text) else none

structure Scientific where
  negative : Bool
  mantissa : Nat
  exponent : Int
deriving DecidableEq, Repr

def signedDigits : List Char → Int
  | '-' :: digits => -digitsValue digits
  | '+' :: digits => digitsValue digits
  | digits => digitsValue digits

-- An optional sign, digits, an optional fraction and an optional exponent.
def scientific (text : List Char) : Scientific :=
  let negative := text.head? == some '-'
  let unsigned := if negative then text.tail else text
  let whole := unsigned.takeWhile Char.isDigit
  let afterWhole := unsigned.dropWhile Char.isDigit
  let hasPoint := afterWhole.head? == some '.'
  let fraction := if hasPoint then afterWhole.tail.takeWhile Char.isDigit else []
  let afterFraction := if hasPoint then afterWhole.tail.dropWhile Char.isDigit else afterWhole
  let power := match afterFraction with
    | [] => 0
    | _ :: exponent => signedDigits exponent
  ⟨negative, digitsValue (whole ++ fraction), power - fraction.length⟩

def Scientific.toFloat (s : Scientific) : Float :=
  let magnitude := Float.ofScientific s.mantissa (s.exponent < 0) s.exponent.natAbs
  if s.negative then -magnitude else magnitude

def double (text : List Char) : Float := (scientific text).toFloat

end LoopDeps.Decimal
