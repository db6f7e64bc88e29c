import LiveEdit.Proofs.Outline.Reading

/-! The grammar as phrases, without regard to how it is read. A rule accepts an input if it finds no
fault with it; what it leaves is passed on. -/

namespace LiveEdit
open List

namespace Grammar
open List

inductive Category where
  | file | statement | variableStatement | variableDeclaration | typeClause | functionDeclaration
  | signature | parameter | classDeclaration | classMember | enumDeclaration | enumMember
  | namespaceDeclaration | block | expression | atom | arguments

inductive Phrase where
  | nothing
  | one (p : Kind → Bool)
  | part (c : Category)
  | both (a b : Phrase)
  | either (a b : Phrase)
  | many (a : Phrase)

namespace Phrase

def token (k : Kind) : Phrase := one (· == k)

def maybe (a : Phrase) : Phrase := either a nothing

def seq : List Phrase → Phrase
  | [] => nothing
  | [a] => a
  | a :: as => both a (seq as)

def choice (a : Phrase) : List Phrase → Phrase
  | [] => a
  | b :: bs => either a (choice b bs)

def list (a : Phrase) : Phrase :=
  maybe (seq [a, many (seq [token .comma, a]), maybe (token .comma)])

def isOperator (k : Kind) : Bool :=
  k = .plus || k = .minus || k = .star || k = .slash || k = .dot || k = .equals

def isVariableKeyword (k : Kind) : Bool := k = .constKeyword || k = .letKeyword || k = .varKeyword

def chain : Phrase := many (seq [one isOperator, part .atom])

def semicolon : Phrase := maybe (token .semicolon)

def initialValue : Phrase := maybe (seq [token .equals, part .expression])

def declaration : Phrase :=
  choice (part .variableStatement)
    [part .functionDeclaration, part .classDeclaration, part .enumDeclaration,
     part .namespaceDeclaration]

def plain : Phrase := seq [part .expression, semicolon]

end Phrase

open Phrase

def Category.phrase : Category → Phrase
  | .file => many (part .statement)
  | .statement => choice (seq [many (one Kind.isModifierKeyword), declaration])
      [part .block,
       seq [token .returnKeyword, maybe (part .expression), semicolon],
       seq [token .ifKeyword, token .leftParenthesis, part .expression, token .rightParenthesis,
         part .statement, maybe (seq [token .elseKeyword, part .statement])],
       plain]
  | .variableStatement =>
      seq [one isVariableKeyword, part .variableDeclaration,
        many (seq [token .comma, part .variableDeclaration]), semicolon]
  | .variableDeclaration => seq [token .identifier, maybe (part .typeClause), initialValue]
  | .typeClause => seq [token .colon, token .identifier]
  | .functionDeclaration => seq [token .functionKeyword, token .identifier, part .signature]
  | .signature =>
      seq [token .leftParenthesis, list (part .parameter), token .rightParenthesis,
        maybe (part .typeClause), either (part .block) (token .semicolon)]
  | .parameter => seq [token .identifier, maybe (part .typeClause)]
  | .classDeclaration =>
      seq [token .classKeyword, token .identifier, token .leftCurly, many (part .classMember),
        token .rightCurly]
  | .classMember =>
      seq [many (one Kind.isModifierKeyword), token .identifier,
        either (part .signature) (seq [maybe (part .typeClause), initialValue, semicolon])]
  | .enumDeclaration =>
      seq [token .enumKeyword, token .identifier, token .leftCurly, list (part .enumMember),
        token .rightCurly]
  | .enumMember => seq [token .identifier, initialValue]
  | .namespaceDeclaration => seq [token .namespaceKeyword, token .identifier, part .block]
  | .block => seq [token .leftCurly, many (part .statement), token .rightCurly]
  | .expression => seq [part .atom, chain]
  | .atom => choice (token .number)
      [token .string,
       seq [token .minus, token .number],
       seq [token .identifier, maybe (part .arguments)],
       seq [token .leftParenthesis, part .expression, token .rightParenthesis]]
  | .arguments =>
      seq [token .leftParenthesis, list (part .expression), token .rightParenthesis]

inductive Derives : Phrase → List Kind → Prop where
  | nothing : Derives .nothing []
  | one {p : Kind → Bool} {k : Kind} (h : p k = true) : Derives (.one p) [k]
  | part {c : Category} {ks : List Kind} (h : Derives c.phrase ks) : Derives (.part c) ks
  | both {a b : Phrase} {ks ls : List Kind} (ha : Derives a ks) (hb : Derives b ls) :
      Derives (.both a b) (ks ++ ls)
  | left {a b : Phrase} {ks : List Kind} (h : Derives a ks) : Derives (.either a b) ks
  | right {a b : Phrase} {ks : List Kind} (h : Derives b ks) : Derives (.either a b) ks
  | none {a : Phrase} : Derives (.many a) []
  | more {a : Phrase} {ks ls : List Kind} (ha : Derives a ks) (hs : Derives (.many a) ls) :
      Derives (.many a) (ks ++ ls)

def Then (a : Phrase) (T : List Kind → Prop) (ks : List Kind) : Prop :=
  ∃ us vs, us ++ vs = ks ∧ Derives a us ∧ T vs

variable {a b : Phrase} {T U : List Kind → Prop} {ks : List Kind} {p : Kind → Bool} {k : Kind}

lemma Then.mono (hTU : ∀ ls, T ls → U ls) (h : Then a T ks) : Then a U ks := by
  obtain ⟨us, vs, hks, ha, hT⟩ := h
  exact ⟨us, vs, hks, ha, hTU vs hT⟩

lemma Then.mono_length (hTU : ∀ ls, ls.length ≤ ks.length → T ls → U ls) (h : Then a T ks) :
    Then a U ks := by
  obtain ⟨us, vs, rfl, ha, hT⟩ := h
  exact ⟨us, vs, rfl, ha, hTU vs (by simp) hT⟩

lemma then_nil_iff : Then a (· = []) ks ↔ Derives a ks := by
  constructor
  · rintro ⟨us, vs, rfl, ha, rfl⟩
    rwa [append_nil]
  · intro h
    exact ⟨ks, [], append_nil ks, h, rfl⟩

@[simp] lemma then_nothing : Then .nothing T = T := by
  funext ks
  apply propext
  constructor
  · rintro ⟨us, vs, rfl, ⟨⟩, hT⟩
    exact hT
  · intro hT
    exact ⟨[], ks, rfl, .nothing, hT⟩

@[simp] lemma then_one_nil : ¬ Then (.one p) T [] := by
  rintro ⟨us, vs, hnil, ⟨-⟩, -⟩
  exact nomatch hnil

@[simp] lemma then_one_cons : Then (.one p) T (k :: ks) ↔ p k = true ∧ T ks := by
  constructor
  · rintro ⟨us, vs, heq, h, hT⟩
    cases h with
    | one hp =>
      obtain ⟨rfl, rfl⟩ := List.cons.inj heq
      exact ⟨hp, hT⟩
  · rintro ⟨hp, hT⟩
    exact ⟨[k], ks, rfl, .one hp, hT⟩

lemma Then.mono_one (hTU : ∀ ls, ls.length < ks.length → T ls → U ls) (h : Then (.one p) T ks) :
    Then (.one p) U ks := by
  cases ks with
  | nil => exact absurd h then_one_nil
  | cons k ks =>
    obtain ⟨hk, h⟩ := then_one_cons.1 h
    exact then_one_cons.2 ⟨hk, hTU ks (Nat.lt_succ_self _) h⟩

lemma then_part {c : Category} : Then (.part c) T ks ↔ Then c.phrase T ks := by
  constructor
  · rintro ⟨us, vs, hks, h, hT⟩
    cases h with
    | part h => exact ⟨us, vs, hks, h, hT⟩
  · rintro ⟨us, vs, hks, h, hT⟩
    exact ⟨us, vs, hks, .part h, hT⟩

@[simp] lemma then_both : Then (.both a b) T = Then a (Then b T) := by
  funext ks
  apply propext
  constructor
  · rintro ⟨us, vs, rfl, h, hT⟩
    cases h with
    | both ha hb => exact ⟨_, _, (append_assoc ..).symm, ha, _, _, rfl, hb, hT⟩
  · rintro ⟨us, _, rfl, ha, vs, ws, rfl, hb, hT⟩
    exact ⟨us ++ vs, ws, append_assoc .., .both ha hb, hT⟩

@[simp] lemma then_either : Then (.either a b) T ks ↔ Then a T ks ∨ Then b T ks := by
  constructor
  · rintro ⟨us, vs, hks, h, hT⟩
    cases h with
    | left h => exact .inl ⟨us, vs, hks, h, hT⟩
    | right h => exact .inr ⟨us, vs, hks, h, hT⟩
  · rintro (⟨us, vs, hks, h, hT⟩ | ⟨us, vs, hks, h, hT⟩)
    · exact ⟨us, vs, hks, .left h, hT⟩
    · exact ⟨us, vs, hks, .right h, hT⟩

lemma then_many : Then (.many a) T ks ↔ T ks ∨ Then a (Then (.many a) T) ks := by
  constructor
  · rintro ⟨us, vs, rfl, h, hT⟩
    cases h with
    | none => exact .inl hT
    | more ha hs => exact .inr ⟨_, _, (append_assoc ..).symm, ha, _, _, rfl, hs, hT⟩
  · rintro (hT | ⟨us, _, rfl, ha, vs, ws, rfl, hs, hT⟩)
    · exact ⟨[], ks, rfl, .none, hT⟩
    · exact ⟨us ++ vs, ws, append_assoc .., .more ha hs, hT⟩

lemma then_many_one_of_dropWhile (h : T (ks.dropWhile p)) : Then (.many (.one p)) T ks := by
  induction ks with
  | nil => exact then_many.2 (.inl h)
  | cons k ks ih =>
    rw [then_many, then_one_cons]
    cases hk : p k with
    | true => exact .inr ⟨rfl, ih (by rwa [dropWhile_cons_of_pos hk] at h)⟩
    | false => exact .inl (by rwa [dropWhile_cons_of_neg (by simp [hk])] at h)

lemma then_many_one (hT : ∀ k ls, p k = true → ¬ T (k :: ls)) :
    Then (.many (.one p)) T ks ↔ T (ks.dropWhile p) := by
  refine ⟨fun h => ?_, then_many_one_of_dropWhile⟩
  induction ks with
  | nil => exact (then_many.1 h).resolve_right then_one_nil
  | cons k ks ih =>
    rw [then_many, then_one_cons] at h
    cases hk : p k with
    | true =>
      rw [dropWhile_cons_of_pos hk]
      exact ih (h.resolve_left (hT k ks hk)).2
    | false =>
      rw [dropWhile_cons_of_neg (by simp [hk])]
      exact h.resolve_right fun h => Bool.false_ne_true (hk.symm.trans h.1)

@[simp] lemma then_token_nil : ¬ Then (token k) T [] := then_one_nil

@[simp] lemma then_token_cons {l : Kind} : Then (token k) T (l :: ks) ↔ l = k ∧ T ks := by
  simp [token]

@[simp] lemma then_maybe : Then (maybe a) T ks ↔ Then a T ks ∨ T ks := by
  simp [maybe]
end Grammar

namespace Outline

mutual

def faults : Outline → List Complaint
  | leaf _ => []
  | fault c => [c]
  | branch _ os => faultsAll os

def faultsAll : List Outline → List Complaint
  | [] => []
  | o :: os => faults o ++ faultsAll os

end

@[simp] lemma faultsAll_append (os ps : List Outline) :
    faultsAll (os ++ ps) = faultsAll os ++ faultsAll ps := by
  induction os with
  | nil => rfl
  | cons o os ih => simp only [cons_append, faultsAll, ih, append_assoc]

end Outline

namespace Rule
open Outline Grammar

def Accepts (r : Rule) (T : List Kind → Prop) (ks : List Kind) : Prop :=
  faultsAll (r ks).1 = [] ∧ T (r ks).2

variable {r yes no more : Rule} {rs : List Rule} {T U : List Kind → Prop} {ks : List Kind}
  {p stop : Kind → Bool} {k kind : Kind} {a : Phrase} {n : Nat} {c : Complaint}

lemma Accepts.mono (hTU : ∀ ls, T ls → U ls) (h : Accepts r T ks) : Accepts r U ks :=
  ⟨h.1, hTU _ h.2⟩

lemma Accepts.with_length (hr : Reads r ks) (h : Accepts r T ks) :
    Accepts r (fun ls => ls.length ≤ ks.length ∧ T ls) ks :=
  ⟨h.1, hr.length_le, h.2⟩

@[simp] lemma accepts_skip : Accepts skip T = T := by
  funext ks
  simp [Accepts, skip, faultsAll]

@[simp] lemma accepts_complain : ¬ Accepts (complain c) T ks := by
  simp [Accepts, complain, faultsAll, faults]

@[simp] lemma accepts_take_cons : Accepts take T (k :: ks) ↔ T ks := by
  simp [Accepts, take, faultsAll, faults]

@[simp] lemma accepts_seq_nil : Accepts (seq []) T = T := accepts_skip

@[simp] lemma accepts_seq_cons : Accepts (seq (r :: rs)) T = Accepts r (Accepts (seq rs) T) := by
  funext ks
  simp [Accepts, seq, and_assoc]

lemma accepts_nodeFrom {first : List Outline} :
    Accepts (nodeFrom first kind r) T ks ↔ faultsAll first = [] ∧ Accepts r T ks := by
  simp [Accepts, nodeFrom, faultsAll, faults, and_assoc]

@[simp] lemma accepts_node : Accepts (node kind r) T = Accepts r T := by
  funext ks
  simp [node, accepts_nodeFrom, faultsAll]

@[simp] lemma accepts_recover : ¬ Accepts (recover c) T ks := by
  simp [recover]

lemma accepts_choose : Accepts (choose p yes no) T ks ↔
    (p (peek ks) = true ∧ Accepts yes T ks) ∨ (p (peek ks) = false ∧ Accepts no T ks) := by
  unfold Accepts choose
  cases h : p (peek ks) <;> simp

lemma accepts_choose_of (h : p (peek ks) = true) :
    Accepts (choose p yes no) T ks ↔ Accepts yes T ks := by
  simp [accepts_choose, h]

lemma accepts_choose_of_not (h : p (peek ks) = false) :
    Accepts (choose p yes no) T ks ↔ Accepts no T ks := by
  simp [accepts_choose, h]

lemma accepts_choose_node :
    Accepts (choose p (node kind yes) no) T = Accepts (choose p yes no) T := by
  funext ks
  simp [accepts_choose]

@[simp] lemma peek_cons : peek (k :: ks) = k := rfl

@[simp] lemma peek_nil : peek [] = .endOfFile := rfl

lemma accepts_option :
    Accepts (option k r) T ks ↔ (peek ks = k ∧ Accepts r T ks) ∨ (peek ks ≠ k ∧ T ks) := by
  simp [option, accepts_choose]

lemma exists_of_peek (h : peek ks = k) (hk : k ≠ .endOfFile) : ∃ ls, ks = k :: ls := by
  cases ks with
  | nil => exact absurd h.symm hk
  | cons l ls => exact ⟨ls, congrArg (· :: ls) h⟩

lemma accepts_expect (hk : k ≠ .endOfFile) : Accepts (expect k) T = Then (.token k) T := by
  funext ks
  cases ks with
  | nil => simp [expect, accepts_choose, hk.symm]
  | cons l ls => simp [expect, accepts_choose]

lemma accepts_extend : Accepts (extend kind r p more) T ks ↔ Accepts r
      (fun ls => (p (peek ls) = true ∧ Accepts more T ls) ∨ (p (peek ls) = false ∧ T ls)) ks := by
  unfold Accepts
  cases h : p (peek (r ks).2) with
  | true =>
    rw [extend_of_peek h]
    simp [nodeFrom, faultsAll, faults, h, and_assoc]
  | false =>
    rw [extend_of_not_peek h]
    simp [h]

lemma peek_of_then_token (h : Then (.token k) T ks) : peek ks = k := by
  cases ks with
  | nil => exact absurd h then_token_nil
  | cons l ls => exact (then_token_cons.1 h).1

lemma accepts_option_take (hk : k ≠ .endOfFile) : Accepts (option k take) T ks ↔
    Then (.token k) T ks ∨ (peek ks ≠ k ∧ T ks) := by
  cases ks with
  | nil => simp [accepts_option, hk.symm]
  | cons l ls => simp [accepts_option]

lemma accepts_option_seq (hk : k ≠ .endOfFile) : Accepts (option k (seq (take :: rs))) T ks ↔
    Then (.token k) (Accepts (seq rs) T) ks ∨ (peek ks ≠ k ∧ T ks) := by
  cases ks with
  | nil => simp [accepts_option, hk.symm]
  | cons l ls => simp [accepts_option]

lemma accepts_opened (hk : k ≠ .endOfFile) :
    Accepts (choose (· == k) (seq (take :: rs)) (complain c)) T =
      Then (.token k) (Accepts (seq rs) T) := by
  funext ks
  cases ks with
  | nil => simp [accepts_choose, hk.symm]
  | cons l ls => simp [accepts_choose]

lemma accepts_repeatWithin : Accepts (repeatWithin stop r (n + 1)) T ks ↔ if peek ks = .endOfFile ∨
      stop (peek ks) = true then T ks else Accepts r (Accepts (repeatWithin stop r n) T) ks := by
  rw [repeatWithin, accepts_choose, accepts_seq_cons, accepts_seq_cons, accepts_seq_nil,
    accepts_skip]
  split_ifs with hend
  · have hp : (peek ks == .endOfFile || stop (peek ks)) = true := by simpa using hend
    simp [hp]
  · have hp : (peek ks == .endOfFile || stop (peek ks)) = false := by simpa using hend
    simp [hp]

lemma repeatWithin_of_then_many (hadv : ∀ ks, ks.length ≤ n → ks ≠ [] → Advances r ks)
    (hend : ∀ ks, T ks → peek ks = .endOfFile ∨ stop (peek ks) = true)
    (hstart : ∀ ks U, Then a U ks → ¬ (peek ks = .endOfFile ∨ stop (peek ks) = true))
    (h : ∀ ks, ks.length ≤ n → Then a (Then (.many a) T) ks → Accepts r (Then (.many a) T) ks)
    (m : Nat) (ks : List Kind) (hks : ks.length ≤ n) (hm : ks.length ≤ m)
    (ha : Then (.many a) T ks) : Accepts (repeatWithin stop r m) T ks := by
  induction m generalizing ks with
  | zero =>
    obtain rfl : ks = [] := eq_nil_of_length_eq_zero (Nat.le_zero.1 hm)
    rw [repeatWithin, accepts_skip]
    exact (then_many.1 ha).resolve_right fun ha => hstart _ _ ha (.inl rfl)
  | succ m ih =>
    rw [accepts_repeatWithin]
    obtain hT | ha := then_many.1 ha
    · rwa [if_pos (hend ks hT)]
    · rw [if_neg (hstart _ _ ha)]
      have hne : ks ≠ [] := by
        rintro rfl
        exact hstart _ _ ha (.inl rfl)
      obtain ⟨hfaults, hrest⟩ := h ks hks ha
      have hlt : (r ks).2.length < ks.length := hadv ks hks hne
      exact ⟨hfaults, ih _ (by omega) (by omega) hrest⟩

end Rule

namespace Grammar
open Rule

variable {r yes no : Rule} {rs : List Rule} {T U : List Kind → Prop} {ks : List Kind}
  {p : Kind → Bool}
  {k kind : Kind} {a b : Phrase} {n : Nat}

/-- Of the inputs below a length, those that the rule accepts begin with the phrase. -/
def Obeys (n : Nat) (r : Rule) (a : Phrase) : Prop :=
  ∀ ks T, ks.length < n → Accepts r T ks → Then a T ks

namespace Obeys

variable {c : Complaint} {stop : Kind → Bool}

lemma mono {m : Nat} (h : Obeys n r a) (hm : m ≤ n) : Obeys m r a :=
  fun ks T hks => h ks T (Nat.lt_of_lt_of_le hks hm)

lemma node (h : Obeys n r a) : Obeys n (Rule.node kind r) a := by
  intro ks T hks ha
  rw [accepts_node] at ha
  exact h ks T hks ha

lemma named {c : Category} (h : Obeys n r c.phrase) : Obeys n r (.part c) :=
  fun ks T hks ha => then_part.2 (h ks T hks ha)

lemma last (h : Obeys n r a) : Obeys n (Rule.seq [r]) a := by
  intro ks T hks ha
  rw [accepts_seq_cons, accepts_seq_nil] at ha
  exact h ks T hks ha

lemma seq (h : Obeys n r a) (hs : Obeys n (Rule.seq rs) b) :
    Obeys n (Rule.seq (r :: rs)) (.both a b) := by
  intro ks T hks ha
  rw [accepts_seq_cons] at ha
  rw [then_both]
  exact (h ks _ hks ha).mono_length fun ls hls => hs ls T (Nat.lt_of_le_of_lt hls hks)

lemma seq_both {c : Phrase} (h : Obeys n r (.both a b)) (hs : Obeys n (Rule.seq rs) c) :
    Obeys n (Rule.seq (r :: rs)) (.both a (.both b c)) := by
  intro ks T hks ha
  simpa only [then_both] using h.seq hs ks T hks ha

lemma taking (h : Obeys n (Rule.seq rs) a) (hk : p k = true) (hks : ks.length < n)
    (ha : Accepts (Rule.seq (take :: rs)) T (k :: ks)) : Then (.both (.one p) a) T (k :: ks) := by
  rw [accepts_seq_cons, accepts_take_cons] at ha
  rw [then_both]
  exact then_one_cons.2 ⟨hk, h ks T hks ha⟩

lemma opened (h : Obeys n (Rule.seq rs) a) (hk : k ≠ .endOfFile) :
    Obeys n (choose (· == k) (Rule.seq (take :: rs)) (complain c)) (.both (.token k) a) := by
  intro ks T hks ha
  rw [accepts_opened hk] at ha
  rw [then_both]
  exact ha.mono_length fun ls hls => h ls T (Nat.lt_of_le_of_lt hls hks)

lemma guarded (h : Obeys n r a) : Obeys n (choose p r (complain c)) a := fun ks T hks ha =>
  h ks T hks ((accepts_choose.1 ha).resolve_right fun ha => accepts_complain ha.2).2

lemma option_seq (h : Obeys n (Rule.seq rs) a) (hk : k ≠ .endOfFile) :
    Obeys (n + 1) (option k (Rule.seq (take :: rs))) (.maybe (.both (.token k) a)) := by
  intro ks T hks ha
  rw [accepts_option_seq hk] at ha
  rw [then_maybe, then_both]
  exact ha.imp (·.mono_one fun ls hls => h ls T (by omega)) And.right

lemma choose (hyes : Obeys n yes a) (hno : Obeys n no b) :
    Obeys n (Rule.choose p yes no) (.either a b) :=
  fun ks T hks ha =>
  then_either.2 ((accepts_choose.1 ha).imp (hyes ks T hks ·.2) (hno ks T hks ·.2))

lemma repeatWithin (h : Obeys n r a) (m : Nat) :
    Obeys n (Rule.repeatWithin stop r m) (.many a) := by
  induction m with
  | zero =>
    intro ks T _ ha
    rw [Rule.repeatWithin, accepts_skip] at ha
    exact then_many.2 (.inl ha)
  | succ m ih =>
    intro ks T hks ha
    rw [accepts_repeatWithin] at ha
    split_ifs at ha
    · exact then_many.2 (.inl ha)
    · refine then_many.2 (.inr ((h ks _ hks ha).mono_length fun ls hls => ?_))
      exact ih ls T (Nat.lt_of_le_of_lt hls hks)

lemma repeatUntil (h : Obeys n r a) : Obeys n (Rule.repeatUntil stop r) (.many a) :=
  fun ks T hks ha => h.repeatWithin ks.length ks T hks ha

end Obeys

lemma obeys_expect (hk : k ≠ .endOfFile) : Obeys n (expect k) (.token k) := by
  intro ks T _ ha
  rwa [accepts_expect hk] at ha

lemma obeys_skip : Obeys n skip .nothing := by
  intro ks T _ ha
  rwa [then_nothing, ← accepts_skip (T := T)]

lemma obeys_option_take (hk : k ≠ .endOfFile) : Obeys n (option k take) (.maybe (.token k)) :=
  fun _ _ _ ha => then_maybe.2 (((accepts_option_take hk).1 ha).imp_right And.right)

def Admits (n : Nat) (F : (List Kind → Prop) → Prop) (r : Rule) (a : Phrase) : Prop :=
  ∀ ks T, ks.length < n → F T → Then a T ks → Accepts r T ks

def Avoids (k : Kind) (T : List Kind → Prop) : Prop := ∀ ks, T ks → peek ks ≠ k

lemma Avoids.or {j : Kind} (hT : Avoids k T) (hk : j ≠ k) (h : Then (.token j) U ks ∨ T ks) :
    peek ks ≠ k := by
  obtain h | h := h
  · rwa [peek_of_then_token h]
  · exact hT ks h

end Grammar
end LiveEdit
