import LiveEdit.Lexed
import LiveEdit.Outline
import LiveEdit.Tree.Basic

/-! Parsing: the outline of a text is filled with its tokens. Trivia goes before whatever comes next
in the outline, into the node that is open there. -/

namespace LiveEdit

inductive Fault where
  | lexical (fault : LexicalFault)
  | grammatical (complaint : Complaint)
  deriving DecidableEq

def Fault.message : Fault → String
  | lexical fault => fault.message
  | grammatical complaint => complaint.message

structure Diagnostic where
  position : Position
  fault : Fault
  deriving DecidableEq

namespace Token

def tree (t : Token) : Tree := .token t.kind t.text

def diagnostics (t : Token) : List Diagnostic :=
  t.fault.toList.map fun fault => ⟨t.position, .lexical fault⟩

end Token

structure Woven where
  trees : List Tree
  diagnostics : List Diagnostic
  rest : List Token

namespace Woven

def trivia (ts : List Token) : Woven :=
  let taken := ts.takeWhile (·.kind.isTrivia)
  ⟨taken.map Token.tree, taken.flatMap Token.diagnostics, ts.dropWhile (·.kind.isTrivia)⟩

def next (kind : Kind) : List Token → Woven
  | [] => ⟨[.token kind []], [], []⟩
  | t :: ts => ⟨[.token kind t.text], t.diagnostics, ts⟩

def andThen (w : Woven) (f : List Token → Woven) : Woven :=
  let v := f w.rest
  ⟨w.trees ++ v.trees, w.diagnostics ++ v.diagnostics, v.rest⟩

def wrap (kind : Kind) (w : Woven) : Woven := { w with trees := [.node kind w.trees] }

def complain (stop : Position) (c : Complaint) (ts : List Token) : Woven :=
  ⟨[], [⟨(ts.head?.map (·.position)).getD stop, .grammatical c⟩], ts⟩

mutual

def fill (stop : Position) : Outline → List Token → Woven
  | .leaf kind, ts => (trivia ts).andThen (next kind)
  | .fault c, ts => (trivia ts).andThen (complain stop c)
  | .branch kind parts, ts => (trivia ts).andThen fun ts => (fillAll stop parts ts).wrap kind

def fillAll (stop : Position) : List Outline → List Token → Woven
  | [], ts => ⟨[], [], ts⟩
  | o :: os, ts => (fill stop o ts).andThen (fillAll stop os)

end

def all (ts : List Token) : Woven := ⟨ts.map Token.tree, ts.flatMap Token.diagnostics, []⟩

end Woven

structure Parse where
  tree : Tree
  diagnostics : List Diagnostic

namespace Parse

def ofLexed (x : Lexed) : Parse :=
  let w := (Woven.fillAll x.stop (Outline.ofKinds x.significant) x.tokens).andThen Woven.all
  ⟨.node .sourceFile w.trees, w.diagnostics⟩

def ofText (t : Text) : Parse := ofLexed (.ofText t)

end Parse
end LiveEdit
