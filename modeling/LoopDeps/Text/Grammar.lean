import LoopDeps.Text.Matcher
import LoopDeps.Text.Rule
import LoopDeps.Text.Written
set_option autoImplicit false

/- The grammar of textual modules, from lexemes up to a whole module. -/
namespace LoopDeps.Text.Grammar

open Matcher

abbrev Part (α : Type) := Matcher Rule α

def token (rule : Rule) (scan : Scanner) : Part String := named rule (ofScanner scan)

def sign (text : String) : Part Unit := literal text

def identifier : Part String := token .identifier Text.identifier
def localName : Part String := token .localName (sigilName '%')
def globalName : Part String := token .globalName (sigilName '@')
def number : Part String := token .number Text.number
def keyword : Part String := token .keyword Text.keyword
def constant : Part String := named .constant (number.orElse keyword)
def opcode : Part String := token .opcode Text.opcode

def floatTypeOf (word : String) : WrittenType :=
  if word == "half" then .half
  else if word == "float" then .float
  else if word == "double" then .double
  else .fp128

def intType : Part WrittenType := (token .intType intWord).map .int
def floatType : Part WrittenType := (token .floatType floatWord).map floatTypeOf
def ptrType : Part WrittenType :=
  (token .ptrType (wordOf ["ptr"] Char.isAlphanum)).map fun _ => .ptr
def voidType : Part WrittenType :=
  (token .voidType (wordOf ["void"] Char.isAlphanum)).map fun _ => .void

def vectorType (element : Part WrittenType) : Part WrittenType :=
  named .vectorType <|
    (((sign "<").keepRight (number.keepLeft (sign "x"))).andThen (element.keepLeft (sign ">"))).map
      fun (length, type) => .vector length type

def typeStep (element : Part WrittenType) : Part WrittenType :=
  named .type <|
    (vectorType element).orElse <| ptrType.orElse <| voidType.orElse <| floatType.orElse intType

def type : Part WrittenType := nested typeStep

def value : Part WrittenValue :=
  named .value <|
    (localName.map .name).orElse <| (globalName.map .global).orElse (constant.map .constant)

def labelRef : Part WrittenOperand :=
  named .labelRef <| ((sign "label").keepRight localName).map .label

def incoming : Part WrittenOperand :=
  named .incoming <|
    (((sign "[").keepRight (value.keepLeft (sign ","))).andThen (localName.keepLeft (sign "]"))).map
      fun (value, block) => .incoming value block

def operand : Part WrittenOperand :=
  named .operand <| labelRef.orElse <| incoming.orElse (value.map .value)

def commaSeparated {α : Type} (item : Part α) : Part (List α) :=
  (item.andThen ((sign ",").keepRight item).many).map fun (first, others) => first :: others

def operands : Part (List WrittenOperand) := named .operands (commaSeparated operand)

def assign : Part String := named .assign (localName.keepLeft (sign "="))

def instr : Part WrittenInstr :=
  named .instr <|
    (assign.option.andThen (opcode.andThen (type.option.andThen operands.option))).map
      fun (result, opcode, type, operands) => ⟨result, opcode, type, operands.getD []⟩

def weight : Part String := named .weight <| (sign "!weight").keepRight number

def newlines : Part (List Unit) := newline.many1

def block : Part WrittenBlock :=
  named .block <|
    ((identifier.keepLeft (sign ":")).andThen
      (weight.option.andThen (newlines.keepRight (instr.keepLeft newlines).many))).map
        fun (label, weight, instrs) => ⟨label, weight, instrs⟩

def param : Part WrittenParam :=
  named .param <| ((localName.keepLeft (sign ":")).andThen type).map fun (name, type) => ⟨name, type⟩

def params : Part (List WrittenParam) := named .params (commaSeparated param)

def header : Part (String × List WrittenParam) :=
  ((sign "func").keepRight globalName).andThen <|
    (sign "(").keepRight <| (params.option.map fun params => params.getD []).keepLeft (sign ")")

def function : Part WrittenFunction :=
  named .function <|
    (header.andThen <|
      (sign "\x7b").keepRight <| newlines.keepRight <| block.many1.keepLeft (sign "\x7d")).map
        fun ((name, params), blocks) => ⟨name, params, blocks⟩

def endOfInput : Part Unit := named .endOfInput atEnd

-- Blanks may stand in front of the first line as well.
def program : Part (List WrittenFunction) :=
  named .program <|
    (done ()).keepRight <| newline.many.keepRight <|
      (function.keepLeft newline.many).many.keepLeft endOfInput

end LoopDeps.Text.Grammar
