import LoopDeps.Text.Lexeme
set_option autoImplicit false

/- Matching by ordered choice without backtracking into a success. A matcher says what it reads and,
   apart from that, which named rules it tried: the rules that failed at the furthest position are
   what a mismatch reports. Reading never depends on the attempts. -/
namespace LoopDeps.Text

universe u

-- The position is kept as the number of characters left there.
structure Attempts (ρ : Type) where
  left : Nat
  rules : List ρ

namespace Attempts

variable {ρ : Type}

def count (a : Attempts ρ) (left : Nat) : Nat := if a.left = left then a.rules.length else 0

-- Notes that `rule` failed with `left` characters left; `before` rules had failed there when it was
-- entered. A rule that failed because of exactly one rule inside it leaves that one in its place.
def fail (a : Attempts ρ) (rule : ρ) (left before : Nat) : Attempts ρ :=
  if a.count left = before + 1 then a
  else if a.left = left then { a with rules := a.rules.take before ++ [rule] }
  else if left < a.left then ⟨left, [rule]⟩
  else a

end Attempts

structure Matcher (ρ α : Type) where
  read : Chars → Option (α × Chars)
  attempt : Chars → Attempts ρ → Attempts ρ

namespace Matcher

variable {ρ α β : Type}

-- Reads nothing.
def done (value : α) : Matcher ρ α := ⟨fun s => some (value, s), fun _ a => a⟩

def ofScanner (scan : Scanner) : Matcher ρ String :=
  ⟨fun s => (scan s).map fun (lexeme, rest) => (String.ofList lexeme, rest), fun _ a => a⟩

def literal (text : String) : Matcher ρ Unit :=
  ⟨fun s => (dropLiteral text.toList s).map fun rest => ((), rest), fun _ a => a⟩

def newline : Matcher ρ Unit := ⟨fun s => (lineEnd s).map fun rest => ((), rest), fun _ a => a⟩

def atEnd : Matcher ρ Unit := ⟨fun s => if s.isEmpty then some ((), s) else none, fun _ a => a⟩

def map (f : α → β) (p : Matcher ρ α) : Matcher ρ β :=
  ⟨fun s => (p.read s).map fun (value, rest) => (f value, rest), p.attempt⟩

-- Blanks and comments may stand between two parts.
def andThen (p : Matcher ρ α) (q : Matcher ρ β) : Matcher ρ (α × β) where
  read s :=
    match p.read s with
    | none => none
    | some (first, rest) => (q.read (skip rest)).map fun (second, after) => ((first, second), after)
  attempt s a :=
    match p.read s with
    | none => p.attempt s a
    | some (_, rest) => q.attempt (skip rest) (p.attempt s a)

def keepLeft (p : Matcher ρ α) (q : Matcher ρ β) : Matcher ρ α := (p.andThen q).map Prod.fst

def keepRight (p : Matcher ρ α) (q : Matcher ρ β) : Matcher ρ β := (p.andThen q).map Prod.snd

def orElse (p q : Matcher ρ α) : Matcher ρ α where
  read s :=
    match p.read s with
    | none => q.read s
    | some result => some result
  attempt s a :=
    match p.read s with
    | none => q.attempt s (p.attempt s a)
    | some _ => p.attempt s a

def option (p : Matcher ρ α) : Matcher ρ (Option α) := (p.map some).orElse (done none)

-- Repetitions after the first one; blanks in front of one that fails are not taken.
def readMore (p : Matcher ρ α) : Nat → Chars → List α × Chars
  | 0, s => ([], s)
  | fuel + 1, s =>
      match p.read (skip s) with
      | none => ([], s)
      | some (value, rest) =>
          let (values, after) := readMore p fuel rest
          (value :: values, after)

def attemptMore (p : Matcher ρ α) : Nat → Chars → Attempts ρ → Attempts ρ
  | 0, _, a => a
  | fuel + 1, s, a =>
      match p.read (skip s) with
      | none => p.attempt (skip s) a
      | some (_, rest) => attemptMore p fuel rest (p.attempt (skip s) a)

-- Each repetition reads at least one character, so the characters left bound their number.
def many (p : Matcher ρ α) : Matcher ρ (List α) where
  read s :=
    match p.read s with
    | none => some ([], s)
    | some (value, rest) =>
        let (values, after) := readMore p rest.length rest
        some (value :: values, after)
  attempt s a :=
    match p.read s with
    | none => p.attempt s a
    | some (_, rest) => attemptMore p (rest.length + 1) rest (p.attempt s a)

-- The blanks after the first repetition are taken even when no other follows.
def many1 (p : Matcher ρ α) : Matcher ρ (List α) :=
  (p.andThen p.many).map fun (value, values) => value :: values

-- Notes the attempt when the named part fails.
def named (rule : ρ) (p : Matcher ρ α) : Matcher ρ α where
  read := p.read
  attempt s a :=
    let inner := p.attempt s a
    match p.read s with
    | some _ => inner
    | none => inner.fail rule s.length (a.count s.length)

def fail : Matcher ρ α := ⟨fun _ => none, fun _ a => a⟩

-- A part that may contain itself, unfolded to a number of levels.
def level (step : Matcher ρ α → Matcher ρ α) : Nat → Matcher ρ α
  | 0 => fail
  | n + 1 => ⟨fun s => (step (level step n)).read s, fun s a => (step (level step n)).attempt s a⟩

-- Each level reads at least one character before the next, so the text bounds their number.
def nested (step : Matcher ρ α → Matcher ρ α) : Matcher ρ α where
  read s := (level step (s.length + 1)).read s
  attempt s a := (level step (s.length + 1)).attempt s a

end Matcher

end LoopDeps.Text
