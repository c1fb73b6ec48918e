set_option autoImplicit false

/- Types of the values that instructions produce. -/
namespace LoopDeps

inductive Ty where
  | void
  | int (bits : Nat)
  | half
  | float
  | double
  | fp128
  | ptr
  | vector (length : Nat) (element : Ty)
deriving DecidableEq, Repr

namespace Ty

def isFloat : Ty → Bool
  | .half | .float | .double | .fp128 => true
  | _ => false

def isVector : Ty → Bool
  | .vector .. => true
  | _ => false

def text : Ty → String
  | .void => "void"
  | .int bits => "i" ++ toString bits
  | .half => "half"
  | .float => "float"
  | .double => "double"
  | .fp128 => "fp128"
  | .ptr => "ptr"
  | .vector length element => "<" ++ toString length ++ " x " ++ element.text ++ ">"

end Ty

end LoopDeps
