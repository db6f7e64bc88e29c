/-! Texts and byte offsets. An offset may fall inside a character, where the text cannot be cut. -/

namespace LiveEdit

abbrev Text := List Char

namespace Text

def size : Text → Nat
  | [] => 0
  | c :: t => c.utf8Size + size t

/-- Cuts a text at a byte offset. There is no cut past the end or inside a character. -/
def cut? : Nat → Text → Option (Text × Text)
  | 0, t => some ([], t)
  | _ + 1, [] => none
  | n + 1, c :: t =>
    if c.utf8Size ≤ n + 1 then (cut? (n + 1 - c.utf8Size) t).map fun p => (c :: p.1, p.2)
    else none

def isBoundary (t : Text) (n : Nat) : Bool := (cut? n t).isSome

def atMost : Nat → Text → Text
  | _, [] => []
  | n, c :: t => if c.utf8Size ≤ n then c :: atMost (n - c.utf8Size) t else []

def atLeast : Nat → Text → Text
  | _, [] => []
  | n, c :: t => if n = 0 then [] else c :: atLeast (n - c.utf8Size) t

def takeEnd (p : Char → Bool) (t : Text) : Text := (t.reverse.takeWhile p).reverse

def dropEnd (p : Char → Bool) (t : Text) : Text := (t.reverse.dropWhile p).reverse

def isSpace (c : Char) : Bool := c = ' ' || c = '\t'

def isNewline (c : Char) : Bool := c = '\n' || c = '\r'

/-- The lines of a text. A line ends at a line feed, which with one carriage return right before it
belongs to no line; what follows the last line feed is a line unless it is empty. -/
def lines : Text → List Text
  | [] => []
  | '\n' :: t => [] :: lines t
  | '\r' :: '\n' :: t => [] :: lines t
  | c :: t =>
    match lines t with
    | [] => [[c]]
    | line :: more => (c :: line) :: more

end Text

structure Span where
  start : Nat
  stop : Nat
  le : start ≤ stop
  deriving DecidableEq

namespace Span

def between? (start stop : Nat) : Option Span :=
  if h : start ≤ stop then some ⟨start, stop, h⟩ else none

def sized (start n : Nat) : Span := ⟨start, start + n, Nat.le_add_right start n⟩

def empty (n : Nat) : Span := sized n 0

def size (s : Span) : Nat := s.stop - s.start

def contains (s t : Span) : Bool := s.start ≤ t.start && t.stop ≤ s.stop

def overlaps (s t : Span) : Bool := max s.start t.start < min s.stop t.stop

def toString (s : Span) : String := s!"{s.start}..{s.stop}"

end Span

/-- A place in a text: its byte offset, and its line and column, both counted from one. -/
structure Position where
  offset : Nat
  line : Nat
  column : Nat
  deriving DecidableEq

namespace Position

def first : Position := ⟨0, 1, 1⟩

def next (p : Position) (c : Char) : Position :=
  if c = '\n' then ⟨p.offset + c.utf8Size, p.line + 1, 1⟩
  else ⟨p.offset + c.utf8Size, p.line, p.column + 1⟩

def after (p : Position) (t : Text) : Position := t.foldl next p

end Position

namespace Text

def slice? (t : Text) (s : Span) : Option Text := do
  let (_, rest) ← cut? s.start t
  let (part, _) ← cut? s.size rest
  return part

def startsLine? (t : Text) (n : Nat) : Option Bool :=
  (cut? n t).map fun p => (dropEnd isSpace p.1).getLast?.all (· == '\n')

def endsLine? (t : Text) (n : Nat) : Option Bool :=
  (cut? n t).map fun p => (p.2.dropWhile isSpace).head?.all isNewline

def indentationAt? (t : Text) (n : Nat) : Option Text :=
  (cut? n t).map fun p => (takeEnd (· != '\n') p.1 ++ p.2).takeWhile isSpace
end Text
end LiveEdit
