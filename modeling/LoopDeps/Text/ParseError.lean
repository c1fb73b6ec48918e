import LoopDeps.Text.Mismatch
set_option autoImplicit false

/- Why a text gives no functions. -/
namespace LoopDeps.Text

inductive ParseError where
  | mismatch (found : Mismatch)
  | badNumber (text : String)
  | badType (text : String)
  | repeatedName (name : String)
  | repeatedBlock (label : String)
  | undefinedValue (name : String)
  | undefinedBlock (label : String)
deriving DecidableEq, Repr

namespace ParseError

def message : ParseError → String
  | .mismatch found => "syntax error: " ++ found.text
  | .badNumber text => "syntax error: bad number '" ++ text ++ "'"
  | .badType text => "syntax error: bad type '" ++ text ++ "'"
  | .repeatedName name => "syntax error: '%" ++ name ++ "' is defined twice"
  | .repeatedBlock label => "syntax error: block '" ++ label ++ "' is defined twice"
  | .undefinedValue name => "undefined value '%" ++ name ++ "'"
  | .undefinedBlock label => "undefined block '" ++ label ++ "'"

end ParseError

end LoopDeps.Text
