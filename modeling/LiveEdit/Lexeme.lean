import LiveEdit.Kind
import LiveEdit.Text.Classes

/-! Scanning. The first characters of a lexeme decide what it is, and it takes what its class
allows. -/

namespace LiveEdit

inductive LexicalFault where
  | unterminatedComment
  | unterminatedString
  | invalidNumber
  | unexpectedCharacter
  deriving DecidableEq

def LexicalFault.message : LexicalFault → String
  | .unterminatedComment => "unterminated block comment"
  | .unterminatedString => "unterminated string literal"
  | .invalidNumber => "invalid numeric literal"
  | .unexpectedCharacter => "unexpected character"

structure Lexeme where
  kind : Kind
  text : Text
  fault : Option LexicalFault
  deriving DecidableEq

namespace Lexeme
open Text

def isWordStart (c : Char) : Bool := isAlphabetic c || c = '_' || c = '$'

def isWordPart (c : Char) : Bool := isAlphabetic c || isNumeric c || c = '_' || c = '$'

def isDigitPart (c : Char) : Bool := c.isDigit || c = '_'

def punctuation? : Char → Option Kind
  | '{' => some .leftCurly
  | '}' => some .rightCurly
  | '(' => some .leftParenthesis
  | ')' => some .rightParenthesis
  | ';' => some .semicolon
  | ':' => some .colon
  | ',' => some .comma
  | '.' => some .dot
  | '=' => some .equals
  | '+' => some .plus
  | '-' => some .minus
  | '*' => some .star
  | '/' => some .slash
  | _ => none

inductive Leading where
  | lineComment | blockComment | punctuation (kind : Kind) | quote | word | number | blank | other
  deriving DecidableEq

def Leading.of (c : Char) (next : Option Char) : Leading :=
  if c = '/' ∧ next = some '/' then .lineComment
  else if c = '/' ∧ next = some '*' then .blockComment
  else if c = '.' ∧ next.any Char.isDigit then .number
  else match punctuation? c with
    | some k => .punctuation k
    | none =>
      if c = '"' ∨ c = '\'' then .quote
      else if isWordStart c then .word
      else if c.isDigit then .number
      else if isBlank c then .blank
      else .other

structure Cut where
  taken : Text
  closed : Bool
  rest : Text

def Cut.push (c : Char) (s : Cut) : Cut := { s with taken := c :: s.taken }

def commentBody : Text → Cut
  | [] => ⟨[], false, []⟩
  | '*' :: '/' :: t => ⟨['*', '/'], true, t⟩
  | c :: t => (commentBody t).push c

/-- The rest of a string that `quote` closes. A backslash takes the character after it along; a
line break ends the string too soon and stays outside. -/
def stringBody (quote : Char) : Text → Cut
  | [] => ⟨[], false, []⟩
  | ['\\'] => ⟨['\\'], false, []⟩
  | '\\' :: c :: t => ((stringBody quote t).push c).push '\\'
  | c :: t =>
    if c = quote then ⟨[c], true, t⟩
    else if isNewline c then ⟨[], false, c :: t⟩
    else (stringBody quote t).push c

def endsInEscape : Text → Bool
  | [] => false
  | ['\\'] => true
  | '\\' :: _ :: t => endsInEscape t
  | _ :: t => endsInEscape t

def fraction : Text → Cut
  | '.' :: d :: t =>
    if d.isDigit then ⟨'.' :: (d :: t).takeWhile isDigitPart, true, (d :: t).dropWhile isDigitPart⟩
    else ⟨[], true, '.' :: d :: t⟩
  | t => ⟨[], true, t⟩

def numberTail (t : Text) : Text := if t.head?.any isWordStart then t.takeWhile isWordPart else []

def number (t : Text) : Cut :=
  let f := fraction (t.dropWhile isDigitPart)
  let tail := numberTail f.rest
  ⟨t.takeWhile isDigitPart ++ f.taken ++ tail, tail.isEmpty, f.rest.drop tail.length⟩

def scan (c : Char) (t : Text) : Lexeme × Text :=
  match Leading.of c t.head? with
  | .lineComment =>
    (⟨.lineComment, c :: t.takeWhile (!isNewline ·), none⟩, t.dropWhile (!isNewline ·))
  | .blockComment =>
    let body := commentBody (t.drop 1)
    (⟨.blockComment, c :: t.take 1 ++ body.taken,
      if body.closed then none else some .unterminatedComment⟩, body.rest)
  | .punctuation k => (⟨k, [c], none⟩, t)
  | .quote =>
    let body := stringBody c t
    (⟨.string, c :: body.taken, if body.closed then none else some .unterminatedString⟩, body.rest)
  | .word =>
    let word := c :: t.takeWhile isWordPart
    (⟨(Kind.keyword? word).getD .identifier, word, none⟩, t.dropWhile isWordPart)
  | .number =>
    let n := number (c :: t)
    (⟨.number, n.taken, if n.closed then none else some .invalidNumber⟩, n.rest)
  | .blank => (⟨.whitespace, c :: t.takeWhile isBlank, none⟩, t.dropWhile isBlank)
  | .other => (⟨.unknown, [c], some .unexpectedCharacter⟩, t)

def scanMany : Nat → Text → List Lexeme
  | 0, _ => []
  | _ + 1, [] => []
  | n + 1, c :: t =>
    let l := scan c t
    l.1 :: scanMany n l.2

/-- The lexemes of a text. A lexeme has at least one character, so there are no more of them than
characters. -/
def ofText (t : Text) : List Lexeme := scanMany t.length t
end Lexeme
end LiveEdit
