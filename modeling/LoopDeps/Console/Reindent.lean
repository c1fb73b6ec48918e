set_option autoImplicit false

/- Leading indentation rescaled from four columns a level to another width. -/
namespace LoopDeps.Reindent

-- A line that ends in a line feed also loses one carriage return in front of it.
def endedLine : List Char → List Char
  | '\r' :: earlier => earlier.reverse
  | earlier => earlier.reverse

-- The lines of a text after the start of a line, which is given in reverse. Nothing after the last
-- line feed is no line.
def linesFrom (start : List Char) : List Char → List (List Char)
  | [] => if start.isEmpty then [] else [start.reverse]
  | c :: rest =>
      if c == '\n' then endedLine start :: linesFrom [] rest
      else linesFrom (c :: start) rest

def lines (text : List Char) : List (List Char) := linesFrom [] text

def leadingSpaces (line : List Char) : Nat := (line.takeWhile (· == ' ')).length

def line (columns : Nat) (text : List Char) : List Char :=
  List.replicate (leadingSpaces text / 4 * columns) ' ' ++ text.dropWhile (· == ' ')

def reindent (text : String) (columns : Nat) : String :=
  String.ofList ((lines text.toList).flatMap fun l => line columns l ++ ['\n'])

end LoopDeps.Reindent
