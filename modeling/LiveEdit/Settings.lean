import LiveEdit.Json

/-! Settings: how the text that operations write is laid out. -/

namespace LiveEdit

inductive Indentation where
  | twoSpaces | fourSpaces | eightSpaces | tab
  deriving DecidableEq

namespace Indentation

def text : Indentation → Text
  | twoSpaces => List.replicate 2 ' '
  | fourSpaces => List.replicate 4 ' '
  | eightSpaces => List.replicate 8 ' '
  | tab => ['\t']

def width : Indentation → Nat
  | twoSpaces => 2
  | fourSpaces => 4
  | eightSpaces => 8
  | tab => 4

def label : Indentation → String
  | twoSpaces => "twoSpaces"
  | fourSpaces => "fourSpaces"
  | eightSpaces => "eightSpaces"
  | tab => "tab"

def all : List Indentation := [twoSpaces, fourSpaces, eightSpaces, tab]

end Indentation

inductive Newline where
  | lineFeed | carriageReturnLineFeed
  deriving DecidableEq

namespace Newline

def text : Newline → Text
  | lineFeed => ['\n']
  | carriageReturnLineFeed => ['\r', '\n']

def label : Newline → String
  | lineFeed => "lineFeed"
  | carriageReturnLineFeed => "carriageReturnLineFeed"

def all : List Newline := [lineFeed, carriageReturnLineFeed]

end Newline

structure Settings where
  indentation : Indentation := .fourSpaces
  newline : Newline := .lineFeed
  deriving DecidableEq

namespace Settings

def choice? {α : Type} (label : α → String) (all : List α) : Json → Option α
  | .string (some t) => all.find? fun a => label a == String.ofList t
  | .record [(some t, .null)] => all.find? fun a => label a == String.ofList t
  | _ => none

def indentation? : Json → Option Indentation := choice? Indentation.label Indentation.all

def newline? : Json → Option Newline := choice? Newline.label Newline.all

/-- The value of a field that may be left out but not repeated. A field that names no text is
refused along with the record. -/
def field? {α : Type} (fields : List (Option Text × Json)) (name : String)
    (read : Json → Option α) (default : α) : Option α :=
  if fields.any (·.1.isNone) then none
  else match fields.filter fun f => f.1.map String.ofList == some name with
    | [] => some default
    | [(_, v)] => read v
    | _ => none

/-- Settings are written as a record or, in order, as a list; what is missing is as usual. -/
def ofJson? : Json → Option Settings
  | .record fields => do
    let indentation ← field? fields "indentationText" indentation? .fourSpaces
    let newline ← field? fields "newLineKind" newline? .lineFeed
    return { indentation, newline }
  | .list [] => some {}
  | .list [i] => (indentation? i).map fun indentation => { indentation }
  | .list [i, n] => do
    let indentation ← indentation? i
    let newline ← newline? n
    return { indentation, newline }
  | _ => none

def ofText? (t : Text) : Option Settings := (Json.ofText? t).bind ofJson?

end Settings
end LiveEdit
