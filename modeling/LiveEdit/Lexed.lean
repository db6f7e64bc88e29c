import LiveEdit.Lexeme

/-! A source text as tokens: its lexemes, each at its position. -/

namespace LiveEdit

structure Token extends Lexeme where
  position : Position
  deriving DecidableEq

/-- The place after a lexeme. A string that the end of the text cuts off in the middle of an escape
counts the missing character as a column. -/
def Position.past (p : Position) (l : Lexeme) : Position :=
  let q := p.after l.text
  if l.kind = .string && Lexeme.endsInEscape (l.text.drop 1) then { q with column := q.column + 1 }
  else q

def Token.place : Position → List Lexeme → List Token
  | _, [] => []
  | p, l :: ls => ⟨l, p⟩ :: place (p.past l) ls

structure Lexed where
  tokens : List Token
  stop : Position

namespace Lexed

def ofText (t : Text) : Lexed :=
  let lexemes := Lexeme.ofText t
  ⟨Token.place .first lexemes, lexemes.foldl .past .first⟩

def size (x : Lexed) : Nat := x.tokens.length

def isEmpty (x : Lexed) : Bool := x.tokens.isEmpty

def kind? (x : Lexed) (i : Nat) : Option Kind := x.tokens[i]?.map (·.kind)

def position? (x : Lexed) (i : Nat) : Option Position :=
  if i = x.size then some x.stop else x.tokens[i]?.map (·.position)

def faults (x : Lexed) : List (Nat × LexicalFault) :=
  x.tokens.zipIdx.filterMap fun (t, i) => t.fault.map (i, ·)

/-- What a list has under a number, if the numbers in it increase: the number with which the second
half starts tells in which half to go on. -/
def search? {α : Type} (i : Nat) (entries : List (Nat × α)) : Option α :=
  let half := entries.length / 2
  match entries.drop half with
  | [] => none
  | (j, a) :: _ =>
    if half = 0 then if j = i then some a else none
    else if i < j then search? i (entries.take half)
    else search? i (entries.drop half)
termination_by entries.length
decreasing_by
  · simp only [List.length_take]
    omega
  · simp only [List.length_drop]
    omega

def fault? (x : Lexed) (i : Nat) : Option LexicalFault := search? i x.faults

def textIn? (x : Lexed) (low high : Nat) : Option Text :=
  if low < high ∧ high ≤ x.size then
    some (((x.tokens.take high).drop low).flatMap (·.text))
  else none

def significant (x : Lexed) : List Kind :=
  (x.tokens.map (·.kind)).filter (!·.isTrivia)

end Lexed
end LiveEdit
