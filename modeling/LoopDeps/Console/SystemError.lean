set_option autoImplicit false

/- Why the system does not do what it is asked to. -/
namespace LoopDeps

inductive SystemError where
  | notFound
  | exists
  | notDirectory
  | isDirectory
  | nameTooLong
  | other (text : String)
deriving DecidableEq, Repr

namespace SystemError

def text : SystemError → String
  | .notFound => "No such file or directory (os error 2)"
  | .exists => "File exists (os error 17)"
  | .notDirectory => "Not a directory (os error 20)"
  | .isDirectory => "Is a directory (os error 21)"
  | .nameTooLong => "File name too long (os error 36)"
  | .other text => text

end SystemError

def reasonOf {α : Type} : Except SystemError α → Except String α
  | .ok value => .ok value
  | .error error => .error error.text

end LoopDeps
