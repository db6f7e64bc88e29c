import LiveEdit.Settings
import LiveEdit.Text.Quoted

/-! Edits of a text, and the manipulations that are carried out as edits. -/

namespace LiveEdit

structure Edit where
  position : Nat
  removed : Nat
  inserted : Text
  deriving DecidableEq

namespace Edit

def oldSpan (e : Edit) : Span := .sized e.position e.removed

def newSpan (e : Edit) : Span := .sized e.position e.inserted.size

def delta (e : Edit) : Int := e.inserted.size - e.removed

def isEmpty (e : Edit) : Bool := e.removed = 0 && e.inserted.isEmpty

def result? (e : Edit) (t : Text) : Option Text := do
  let (front, rest) ← Text.cut? e.position t
  let (_, back) ← Text.cut? e.removed rest
  return front ++ e.inserted ++ back

end Edit

structure Snippet where
  position : Nat
  before : Text
  after : Text

namespace Snippet

def context : Nat := 30

/-- The text around an offset. An offset past the end counts as the end, and one inside a character
as the character's start. -/
def around (t : Text) (offset : Nat) : Snippet :=
  let front := Text.atMost offset t
  let position := front.size
  ⟨position, front.drop (Text.atMost (position - context) front).length,
    Text.atLeast context (t.drop front.length)⟩

def marked (s : Snippet) : Text := s.before ++ ['<', '|', '>'] ++ s.after

def message (s : Snippet) : String := s!"at offset {s.position}: {s.marked.quoted}"

end Snippet

structure Trim where
  spacesBefore : Bool := false
  newlinesBefore : Bool := false
  spacesAfter : Bool := false
  newlinesAfter : Bool := false
  deriving DecidableEq

namespace Trim
open Text

def front (trim : Trim) (t : Text) : Text :=
  let t := if trim.spacesBefore then dropEnd isSpace t else t
  if trim.newlinesBefore then dropEnd isNewline t else t

def back (trim : Trim) (t : Text) : Text :=
  let t := if trim.spacesAfter then t.dropWhile isSpace else t
  if trim.newlinesAfter then t.dropWhile isNewline else t

end Trim

structure Removal where
  span : Span
  trim : Trim
  replacement : Text := []

def Removal.edit? (r : Removal) (t : Text) : Option Edit := do
  let (before, rest) ← Text.cut? r.span.start t
  let (_, after) ← Text.cut? r.span.size rest
  let front := r.trim.front before
  let back := r.trim.back after
  let stop := r.span.stop + (after.size - back.size)
  return ⟨front.size, stop - front.size, r.replacement⟩

structure Unwrapping where
  span : Span
  body : Span
  settings : Settings

namespace Unwrapping
open Text

/-- A line without its first `width` columns of spaces and tabs; a tab fills what is left of
them. -/
def dedent : Nat → Text → Text
  | n + 1, ' ' :: t => dedent n t
  | _ + 1, '\t' :: t => t
  | _, t => t

def dropBreak : Text → Text
  | '\n' :: t => t
  | '\r' :: '\n' :: t => t
  | t => t

def bodyLines (t : Text) : List Text := lines (dropEnd isBlank (dropBreak (t.dropWhile isSpace)))

def contents (settings : Settings) (t : Text) : Text :=
  (List.intercalate settings.newline.text
    ((bodyLines t).map (dedent settings.indentation.width))).dropWhile isSpace

def edit? (u : Unwrapping) (t : Text) : Option Edit := do
  let body ← t.slice? u.body
  return ⟨u.span.start, u.span.size, contents u.settings body⟩

end Unwrapping

inductive Manipulation where
  | insertion (position replaced : Nat) (text : Text)
  | removal (removal : Removal)
  | unwrapping (unwrapping : Unwrapping)

namespace Manipulation

def insert (position : Nat) (text : Text) : Manipulation := .insertion position 0 text

def replace (span : Span) (text : Text) : Manipulation := .insertion span.start span.size text

def edit? (t : Text) : Manipulation → Option Edit
  | insertion position replaced text => some ⟨position, replaced, text⟩
  | removal r => r.edit? t
  | unwrapping u => u.edit? t

def position : Manipulation → Nat
  | insertion position _ _ => position
  | removal r => r.span.start
  | unwrapping u => u.span.start

def describe (m : Manipulation) (new : Text) : String := (Snippet.around new m.position).message

end Manipulation
end LiveEdit
