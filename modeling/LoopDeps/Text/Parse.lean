import LoopDeps.Text.Resolve
set_option autoImplicit false

/- From a text to the functions of a module. -/
namespace LoopDeps

namespace Text

-- The written functions of a text that matches the grammar as a whole.
def read (text : Chars) : Except ParseError (List WrittenFunction) :=
  match Grammar.program.read text with
  | some (functions, _) => .ok functions
  | none => .error (.mismatch (Mismatch.ofText text))

-- The functions in front of the first one that cannot be resolved, and what is wrong with it.
structure Resolved where
  functions : List Func
  error : Option ParseError

def resolveAll : List WrittenFunction → Resolved
  | [] => ⟨[], none⟩
  | written :: rest =>
      match written.resolve with
      | .error error => ⟨[], some error⟩
      | .ok func =>
          let others := resolveAll rest
          ⟨func :: others.functions, others.error⟩

def resolveText (text : String) : Resolved :=
  match read text.toList with
  | .error error => ⟨[], some error⟩
  | .ok written => resolveAll written

end Text

-- All functions of a module, or the first error in it.
def parse (text : String) : Except Text.ParseError (List Func) :=
  match Text.resolveText text with
  | ⟨functions, none⟩ => .ok functions
  | ⟨_, some error⟩ => .error error

end LoopDeps
