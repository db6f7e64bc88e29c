import LiveEdit.Text.Basic

/-! JSON values. A string whose escapes leave a surrogate without its other half names no text. -/

namespace LiveEdit

inductive Json where
  | null
  | bool (value : Bool)
  | number (literal : Text)
  | string (value : Option Text)
  | list (items : List Json)
  | record (fields : List (Option Text × Json))

namespace Json

def isSpace (c : Char) : Bool := c = ' ' || c = '\t' || c = '\n' || c = '\r'

def skipSpace (t : Text) : Text := t.dropWhile isSpace

def strip? : Text → Text → Option Text
  | [], t => some t
  | _ :: _, [] => none
  | c :: word, d :: t => if c = d then strip? word t else none

inductive Piece where
  | char (c : Char)
  | unit (n : Nat)

def hexDigit? (c : Char) : Option Nat :=
  if c.isDigit then some (c.toNat - '0'.toNat)
  else if 'a' ≤ c && c ≤ 'f' then some (c.toNat - 'a'.toNat + 10)
  else if 'A' ≤ c && c ≤ 'F' then some (c.toNat - 'A'.toNat + 10)
  else none

def hexNumber? (ds : List Char) : Option Nat :=
  ds.foldlM (fun n d => (hexDigit? d).map (16 * n + ·)) 0

def escaped? : Char → Option Char
  | '"' => some '"'
  | '\\' => some '\\'
  | '/' => some '/'
  | 'b' => some '\x08'
  | 'f' => some '\x0c'
  | 'n' => some '\n'
  | 'r' => some '\r'
  | 't' => some '\t'
  | _ => none

def pieces? : Text → Option (List Piece × Text)
  | [] => none
  | '"' :: t => some ([], t)
  | '\\' :: 'u' :: a :: b :: c :: d :: t => do
    let n ← hexNumber? [a, b, c, d]
    let (ps, rest) ← pieces? t
    return (.unit n :: ps, rest)
  | '\\' :: c :: t => do
    let e ← escaped? c
    let (ps, rest) ← pieces? t
    return (.char e :: ps, rest)
  | c :: t =>
    if c.toNat < 32 || c = '\\' then none
    else (pieces? t).map fun (ps, rest) => (.char c :: ps, rest)

def isHighSurrogate (n : Nat) : Bool := 0xD800 ≤ n && n < 0xDC00

def isLowSurrogate (n : Nat) : Bool := 0xDC00 ≤ n && n < 0xE000

def join? : List Piece → Option Text
  | [] => some []
  | .char c :: ps => (join? ps).map (c :: ·)
  | .unit h :: .unit l :: ps =>
    if isHighSurrogate h then
      if isLowSurrogate l then
        (join? ps).map (Char.ofNat (0x10000 + (h - 0xD800) * 0x400 + (l - 0xDC00)) :: ·)
      else none
    else if isLowSurrogate h then none
    else (join? (.unit l :: ps)).map (Char.ofNat h :: ·)
  | .unit n :: ps =>
    if isHighSurrogate n || isLowSurrogate n then none else (join? ps).map (Char.ofNat n :: ·)

def digits? (t : Text) : Option (Text × Text) :=
  let ds := t.takeWhile Char.isDigit
  if ds.isEmpty then none else some (ds, t.dropWhile Char.isDigit)

def integer? : Text → Option (Text × Text)
  | '0' :: t => some (['0'], t)
  | t => digits? t

def fraction? : Text → Option (Text × Text)
  | '.' :: t => (digits? t).map fun (ds, rest) => ('.' :: ds, rest)
  | t => some ([], t)

def signed? : Text → Option (Text × Text)
  | '+' :: t => (digits? t).map fun (ds, rest) => ('+' :: ds, rest)
  | '-' :: t => (digits? t).map fun (ds, rest) => ('-' :: ds, rest)
  | t => digits? t

def exponent? : Text → Option (Text × Text)
  | 'e' :: t => (signed? t).map fun (ds, rest) => ('e' :: ds, rest)
  | 'E' :: t => (signed? t).map fun (ds, rest) => ('E' :: ds, rest)
  | t => some ([], t)

def unsigned? (t : Text) : Option (Text × Text) := do
  let (whole, t) ← integer? t
  let (frac, t) ← fraction? t
  let (exp, t) ← exponent? t
  return (whole ++ frac ++ exp, t)

def number? : Text → Option (Text × Text)
  | '-' :: t => (unsigned? t).map fun (ds, rest) => ('-' :: ds, rest)
  | t => unsigned? t

mutual

def value? : Nat → Text → Option (Json × Text)
  | 0, _ => none
  | n + 1, t =>
    match skipSpace t with
    | '[' :: t =>
      match skipSpace t with
      | ']' :: t => some (.list [], t)
      | t => (items? n t).map fun (vs, rest) => (.list vs, rest)
    | '{' :: t =>
      match skipSpace t with
      | '}' :: t => some (.record [], t)
      | t => (fields? n t).map fun (fs, rest) => (.record fs, rest)
    | '"' :: t => (pieces? t).map fun (ps, rest) => (.string (join? ps), rest)
    | 'n' :: t => (strip? ['u', 'l', 'l'] t).map (.null, ·)
    | 't' :: t => (strip? ['r', 'u', 'e'] t).map (.bool true, ·)
    | 'f' :: t => (strip? ['a', 'l', 's', 'e'] t).map (.bool false, ·)
    | t => (number? t).map fun (literal, rest) => (.number literal, rest)

def items? : Nat → Text → Option (List Json × Text)
  | 0, _ => none
  | n + 1, t => do
    let (v, t) ← value? n t
    match skipSpace t with
    | ',' :: t => (items? n t).map fun (vs, rest) => (v :: vs, rest)
    | ']' :: t => some ([v], t)
    | _ => none

def fields? : Nat → Text → Option (List (Option Text × Json) × Text)
  | 0, _ => none
  | n + 1, t =>
    match skipSpace t with
    | '"' :: t => do
      let (ps, t) ← pieces? t
      let t ← strip? [':'] (skipSpace t)
      let (v, t) ← value? n t
      match skipSpace t with
      | ',' :: t => (fields? n t).map fun (fs, rest) => ((join? ps, v) :: fs, rest)
      | '}' :: t => some ([(join? ps, v)], t)
      | _ => none
    | _ => none

end

/-- Reads a text that is one JSON value. Every two calls read a character. -/
def ofText? (t : Text) : Option Json := do
  let (v, rest) ← value? (2 * t.length + 2) t
  if (skipSpace rest).isEmpty then some v else none
end Json
end LiveEdit
