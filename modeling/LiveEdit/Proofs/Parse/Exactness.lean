import LiveEdit.Proofs.Grammar.Statements
import LiveEdit.Proofs.Parse.Building

namespace LiveEdit
open List

def Diagnostic.complaint? (d : Diagnostic) : Option Complaint :=
  match d.fault with
  | .lexical _ => none
  | .grammatical c => some c

namespace Woven
open Outline

def complaints (w : Woven) : List Complaint := w.diagnostics.filterMap Diagnostic.complaint?

lemma complaints_token (t : Token) : t.diagnostics.filterMap Diagnostic.complaint? = [] := by
  cases h : t.fault <;> simp [Token.diagnostics, h, Diagnostic.complaint?]

lemma complaints_tokens (ts : List Token) :
    (ts.flatMap Token.diagnostics).filterMap Diagnostic.complaint? = [] := by
  induction ts with
  | nil => rfl
  | cons t ts ih => rw [flatMap_cons, filterMap_append, complaints_token, ih]; rfl

lemma complaints_andThen (w : Woven) (f : List Token → Woven) :
    (w.andThen f).complaints = w.complaints ++ (f w.rest).complaints :=
  filterMap_append

lemma complaints_all (ts : List Token) : (all ts).complaints = [] := complaints_tokens ts

lemma complaints_trivia (ts : List Token) : (trivia ts).complaints = [] := complaints_tokens _

lemma complaints_next (k : Kind) (ts : List Token) : (next k ts).complaints = [] := by
  cases ts with
  | nil => rfl
  | cons t ts => exact complaints_token t

mutual

lemma complaints_fill (stop : Position) : ∀ (o : Outline) (ts : List Token),
    (fill stop o ts).complaints = o.faults
  | .leaf k, ts => by rw [fill, complaints_andThen, complaints_trivia, complaints_next]; rfl
  | .fault c, ts => by rw [fill, complaints_andThen, complaints_trivia]; rfl
  | .branch k os, ts => by
    rw [fill, complaints_andThen, complaints_trivia, nil_append]
    exact complaints_fillAll stop os _

lemma complaints_fillAll (stop : Position) : ∀ (os : List Outline) (ts : List Token),
    (fillAll stop os ts).complaints = faultsAll os
  | [], ts => rfl
  | o :: os, ts => by
    rw [fillAll, complaints_andThen, complaints_fill stop o ts, complaints_fillAll stop os,
      faultsAll]

end

end Woven

namespace Outline

mutual

lemma fault_mem_events (c : Complaint) : ∀ o : Outline, .fault c ∈ o.events ↔ c ∈ o.faults
  | .leaf k => by simp [events, faults]
  | .fault d => by simp [events, faults]
  | .branch k os => by simp [events, faults, fault_mem_eventsAll c os]

lemma fault_mem_eventsAll (c : Complaint) :
    ∀ os : List Outline, .fault c ∈ eventsAll os ↔ c ∈ faultsAll os
  | [] => by simp [eventsAll, faultsAll]
  | o :: os => by simp [eventsAll, faultsAll, fault_mem_events c o, fault_mem_eventsAll c os]

end

end Outline

namespace Parse
open Outline

lemma complaints_ofText (t : Text) : (ofText t).diagnostics.filterMap Diagnostic.complaint? =
    faultsAll (ofKinds (Lexed.ofText t).significant) := by
  change ((Woven.fillAll _ _ _).andThen Woven.all).complaints = _
  rw [Woven.complaints_andThen, Woven.complaints_fillAll, Woven.complaints_all, append_nil]

lemma lexical_iff_complaint (d : Diagnostic) :
    (∃ f, d.fault = .lexical f) ↔ d.complaint? = none := by
  cases h : d.fault <;> simp [Diagnostic.complaint?, h]

/-- The grammar and nothing else is accepted: for every text, no event of its outline is a fault
just if the grammar derives its significant tokens, and this is also when every diagnostic of the
parse is lexical. -/
theorem faultless_iff_derives (t : Text) :
    ((∀ c, .fault c ∉ eventsAll (ofKinds (Lexed.ofText t).significant)) ↔
      Grammar.Derives (.part .file) (Lexed.ofText t).significant) ∧
    ((∀ d ∈ (ofText t).diagnostics, ∃ f, d.fault = .lexical f) ↔
      Grammar.Derives (.part .file) (Lexed.ofText t).significant) := by
  rw [← Grammar.faults_ofKinds_iff (Lexed.endOfFile_not_mem_significant t)]
  constructor
  · simp only [fault_mem_eventsAll, eq_nil_iff_forall_not_mem]
  · rw [← complaints_ofText, filterMap_eq_nil_iff]
    simp only [lexical_iff_complaint]

end Parse
end LiveEdit
