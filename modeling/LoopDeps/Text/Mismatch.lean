import LoopDeps.Text.Grammar
set_option autoImplicit false

/- Where and why a text is no module: the furthest position at which rules failed, and their names.
   Lines and columns count from one. -/
namespace LoopDeps.Text

structure Mismatch where
  line : Nat
  column : Nat
  -- The line of the position, with its end.
  source : Chars
  -- Whether the position is at a line end, which is then made visible.
  atLineEnd : Bool
  expected : List Rule
deriving DecidableEq, Repr

namespace Mismatch

-- Up to the first line feed, which is included.
def throughLineFeed : Chars → Chars
  | [] => []
  | c :: rest => if c == '\n' then [c] else c :: throughLineFeed rest

-- The part of a text after its last line feed.
def afterLineFeed (s : Chars) : Chars := (s.reverse.takeWhile (· != '\n')).reverse

def locate (text : Chars) (attempts : Attempts Rule) : Mismatch :=
  let before := text.take (text.length - attempts.left)
  let after := text.drop (text.length - attempts.left)
  { line := before.count '\n' + 1
    column := (afterLineFeed before).length + 1
    source := afterLineFeed before ++ throughLineFeed after
    atLineEnd := after.head?.any isLineEnd
    expected := Rule.all.filter fun rule => attempts.rules.contains rule }

def ofText (text : Chars) : Mismatch :=
  locate text (Grammar.program.attempt text ⟨text.length, []⟩)

def visible (c : Char) : Char :=
  if c == '\n' then '␊' else if c == '\r' then '␍' else c

def shown (m : Mismatch) : Chars :=
  if m.atLineEnd then m.source.map visible
  else m.source.filter fun c => !isLineEnd c

-- The text under the shown line up to the column, which keeps tabs.
def underline (m : Mismatch) : Chars :=
  (m.shown.take (m.column - 1)).map fun c => if c == '\t' then '\t' else ' '

def listed : List String → String
  | [] => ""
  | [a] => a
  | [a, b] => a ++ " or " ++ b
  | names => String.intercalate ", " names.dropLast ++ ", or " ++ names.getLast?.getD ""

def text (m : Mismatch) : String :=
  let line := toString m.line
  let margin := String.ofList (List.replicate line.length ' ')
  margin ++ "--> " ++ line ++ ":" ++ toString m.column ++ "\n" ++
  margin ++ " |\n" ++
  line ++ " | " ++ String.ofList m.shown ++ "\n" ++
  margin ++ " | " ++ String.ofList m.underline ++ "^---\n" ++
  margin ++ " |\n" ++
  margin ++ " = expected " ++ listed (m.expected.map Rule.name)

end Mismatch

end LoopDeps.Text
