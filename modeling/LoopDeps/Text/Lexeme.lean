set_option autoImplicit false

/- Lexemes of a textual module. A scanner splits its lexeme off the front of the text, or fails;
   it looks at nothing but the characters, and knows ASCII letters and digits only. -/
namespace LoopDeps.Text

abbrev Chars := List Char
abbrev Scanner := Chars → Option (Chars × Chars)

def isNameStart (c : Char) : Bool := c.isAlpha || c == '_' || c == '.'

def isNameChar (c : Char) : Bool := c.isAlphanum || c == '_' || c == '.'

def isOpcodeChar (c : Char) : Bool := c.isLower || c.isDigit || c == '_'

def isLineEnd (c : Char) : Bool := c == '\n' || c == '\r'

-- Drops blanks, and comments up to the end of their line. The flag tells whether a comment is open.
def skipBlanks (comment : Bool) : Chars → Chars
  | [] => []
  | c :: rest =>
      if comment then
        if isLineEnd c then c :: rest else skipBlanks true rest
      else if c == ' ' || c == '\t' then skipBlanks false rest
      else if c == ';' then skipBlanks true rest
      else c :: rest

def skip (s : Chars) : Chars := skipBlanks false s

-- What is left after a literal at the front.
def dropLiteral : Chars → Chars → Option Chars
  | [], s => some s
  | _ :: _, [] => none
  | l :: literal, c :: rest => if l = c then dropLiteral literal rest else none

-- A line ends with a line feed, a carriage return, or both in that order.
def lineEnd : Chars → Option Chars
  | '\n' :: rest => some rest
  | '\r' :: '\n' :: rest => some rest
  | '\r' :: rest => some rest
  | _ => none

-- One or more characters of a class.
def oneOrMore (member : Char → Bool) (s : Chars) : Option (Chars × Chars) :=
  match s.takeWhile member with
  | [] => none
  | taken => some (taken, s.dropWhile member)

-- One character of the first class, then any number of the second.
def startThen (start member : Char → Bool) : Scanner
  | [] => none
  | c :: rest => if start c then some (c :: rest.takeWhile member, rest.dropWhile member) else none

def identifier : Scanner := startThen isNameStart isNameChar

def opcode : Scanner := startThen Char.isLower isOpcodeChar

-- A sigil and a name of one or more characters, which is returned without the sigil.
def sigilName (sigil : Char) : Scanner
  | [] => none
  | c :: rest => if c = sigil then oneOrMore isNameChar rest else none

-- One of several words that no character of the class extends.
def wordOf (words : List String) (extends? : Char → Bool) (s : Chars) : Option (Chars × Chars) :=
  words.findSome? fun word =>
    match dropLiteral word.toList s with
    | none => none
    | some rest =>
        match rest with
        | c :: _ => if extends? c then none else some (word.toList, rest)
        | [] => some (word.toList, rest)

def keyword : Scanner :=
  wordOf ["true", "false", "null", "undef", "zeroinitializer"] fun c => c.isAlphanum || c == '_'

def floatWord : Scanner := wordOf ["half", "float", "double", "fp128"] Char.isAlphanum

def intWord : Scanner
  | 'i' :: rest => oneOrMore Char.isDigit rest
  | _ => none

def minusSign : Chars → Chars × Chars
  | '-' :: rest => (['-'], rest)
  | s => ([], s)

def anySign : Chars → Chars × Chars
  | '+' :: rest => (['+'], rest)
  | s => minusSign s

-- A point must be followed by digits to belong to the number.
def fraction : Chars → Chars × Chars
  | '.' :: rest =>
      match oneOrMore Char.isDigit rest with
      | some (digits, after) => ('.' :: digits, after)
      | none => ([], '.' :: rest)
  | s => ([], s)

-- So must the letter of an exponent, with or without a sign in between.
def exponent : Chars → Chars × Chars
  | [] => ([], [])
  | c :: rest =>
      if c == 'e' || c == 'E' then
        let (sign, unsigned) := anySign rest
        match oneOrMore Char.isDigit unsigned with
        | some (digits, after) => (c :: (sign ++ digits), after)
        | none => ([], c :: rest)
      else ([], c :: rest)

def number (s : Chars) : Option (Chars × Chars) :=
  let (sign, unsigned) := minusSign s
  match oneOrMore Char.isDigit unsigned with
  | none => none
  | some (whole, afterWhole) =>
      let (frac, afterFraction) := fraction afterWhole
      let (power, rest) := exponent afterFraction
      some (sign ++ whole ++ frac ++ power, rest)

end LoopDeps.Text
