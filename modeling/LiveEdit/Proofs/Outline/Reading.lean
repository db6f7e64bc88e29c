import LiveEdit.Outline
import Mathlib.Tactic.Common

/-! What a rule reads is a front part of its input, and the leaves of its outline are that part. -/

namespace LiveEdit
open List

namespace Outline

mutual

def leaves : Outline → List Kind
  | leaf k => [k]
  | fault _ => []
  | branch _ os => leavesAll os

def leavesAll : List Outline → List Kind
  | [] => []
  | o :: os => leaves o ++ leavesAll os

end

@[simp] lemma leavesAll_append (os ps : List Outline) :
    leavesAll (os ++ ps) = leavesAll os ++ leavesAll ps := by
  induction os with
  | nil => rfl
  | cons o os ih => simp only [cons_append, leavesAll, ih, append_assoc]

end Outline

namespace Rule
open Outline

/-- The leaves of what a rule makes of an input, and then what it leaves of it, are the input. -/
def Reads (r : Rule) (ks : List Kind) : Prop := leavesAll (r ks).1 ++ (r ks).2 = ks

def Lossless (r : Rule) : Prop := ∀ ks, Reads r ks

def LosslessAhead (r : Rule) : Prop := ∀ ks, ks ≠ [] → Reads r ks

variable {r yes no more : Rule} {rs : List Rule} {p stop : Kind → Bool} {ks : List Kind} {k : Kind}
  {l : Listing}

lemma Lossless.ahead (h : Lossless r) : LosslessAhead r := fun ks _ => h ks

lemma Reads.suffix (h : Reads r ks) : (r ks).2 <:+ ks := ⟨_, h⟩

lemma Reads.length_le (h : Reads r ks) : (r ks).2.length ≤ ks.length := h.suffix.length_le

lemma ne_nil_of_peek (h : p (peek ks) = true) (hp : p .endOfFile = false) : ks ≠ [] := by
  rintro rfl
  exact Bool.false_ne_true (hp.symm.trans h)

lemma peek_ne_endOfFile (h : Kind.endOfFile ∉ ks) (hks : ks ≠ []) : peek ks ≠ .endOfFile := by
  cases ks with
  | nil => exact absurd rfl hks
  | cons k ks => exact fun hk => h (hk ▸ mem_cons_self)

lemma lossless_skip : Lossless skip := fun _ => rfl

lemma lossless_complain (c : Complaint) : Lossless (complain c) := fun _ => rfl

lemma ahead_take : LosslessAhead take
  | [], h => absurd rfl h
  | _ :: _, _ => rfl

lemma reads_seq_cons (h : Reads r ks) (hs : Reads (seq rs) (r ks).2) :
    Reads (seq (r :: rs)) ks := by
  unfold Reads at h hs ⊢
  simp only [seq, leavesAll_append, append_assoc, hs, h]

lemma lossless_seq (h : ∀ r ∈ rs, Lossless r) : Lossless (seq rs) := by
  induction rs with
  | nil => exact lossless_skip
  | cons r rs ih =>
    intro ks
    exact reads_seq_cons (h r mem_cons_self ks) (ih (fun s hs => h s (mem_cons_of_mem r hs)) _)

lemma ahead_seq (h : LosslessAhead r) (hs : ∀ s ∈ rs, Lossless s) : LosslessAhead (seq (r :: rs)) :=
  fun ks hks => reads_seq_cons (h ks hks) (lossless_seq hs _)

lemma reads_choose (hyes : p (peek ks) = true → Reads yes ks)
    (hno : p (peek ks) = false → Reads no ks) : Reads (choose p yes no) ks := by
  unfold Reads choose
  split
  · exact hyes ‹_›
  · exact hno (Bool.eq_false_iff.2 ‹_›)

lemma lossless_choose (hp : p .endOfFile = false) (hyes : LosslessAhead yes)
    (hno : Lossless no) : Lossless (choose p yes no) :=
  fun ks => reads_choose (fun h => hyes ks (ne_nil_of_peek h hp)) (fun _ => hno ks)

lemma lossless_choose_not (hp : p .endOfFile = true) (hyes : Lossless yes)
    (hno : LosslessAhead no) : Lossless (choose p yes no) := by
  intro ks
  refine reads_choose (fun _ => hyes ks) fun h => hno ks ?_
  exact ne_nil_of_peek (p := fun k => !p k) (by rw [h]; rfl) (by rw [hp]; rfl)

lemma ahead_choose (hyes : LosslessAhead yes) (hno : LosslessAhead no) :
    LosslessAhead (choose p yes no) :=
  fun ks hks => reads_choose (fun _ => hyes ks hks) (fun _ => hno ks hks)

lemma lossless_option (hk : k ≠ .endOfFile) (h : LosslessAhead r) : Lossless (option k r) :=
  lossless_choose (by simpa using hk.symm) h lossless_skip

lemma lossless_expect (hk : k ≠ .endOfFile) : Lossless (expect k) :=
  lossless_choose (by simpa using hk.symm) ahead_take (lossless_complain _)

lemma leaves_nodeFrom (first : List Outline) (kind : Kind) (h : Reads r ks) : leavesAll
      (nodeFrom first kind r ks).1 ++ (nodeFrom first kind r ks).2 = leavesAll first ++ ks := by
  unfold Reads at h
  simp only [nodeFrom, leavesAll, leaves, leavesAll_append, append_nil, append_assoc, h]

lemma lossless_node (kind : Kind) (h : Lossless r) : Lossless (node kind r) :=
  fun ks => leaves_nodeFrom [] kind (h ks)

lemma ahead_node (kind : Kind) (h : LosslessAhead r) : LosslessAhead (node kind r) :=
  fun ks hks => leaves_nodeFrom [] kind (h ks hks)

lemma extend_of_peek {kind : Kind} (h : p (peek (r ks).2) = true) :
    extend kind r p more ks = nodeFrom (r ks).1 kind more (r ks).2 := if_pos h

lemma extend_of_not_peek {kind : Kind} (h : p (peek (r ks).2) = false) :
    extend kind r p more ks = r ks := if_neg (Bool.eq_false_iff.1 h)

lemma lossless_extend {kind : Kind} (hp : p .endOfFile = false)
    (h : Lossless r) (hmore : LosslessAhead more) : Lossless (extend kind r p more) := by
  intro ks
  unfold Reads
  cases hnext : p (peek (r ks).2) with
  | true =>
    rw [extend_of_peek hnext, leaves_nodeFrom _ _ (hmore _ (ne_nil_of_peek hnext hp))]
    exact h ks
  | false =>
    rw [extend_of_not_peek hnext]
    exact h ks

lemma ahead_recover (c : Complaint) : LosslessAhead (recover c) := by
  refine ahead_node _ fun ks hks => reads_seq_cons (lossless_complain c ks) ?_
  exact reads_seq_cons (ahead_take ks hks) (lossless_skip _)

lemma lossless_repeatWithin (h : LosslessAhead r) (n : Nat) : Lossless (repeatWithin stop r n) := by
  induction n with
  | zero => exact lossless_skip
  | succ n ih => exact lossless_choose_not rfl lossless_skip (ahead_seq h (by simpa using ih))

lemma lossless_repeatUntil (h : LosslessAhead r) : Lossless (repeatUntil stop r) :=
  fun ks => lossless_repeatWithin h ks.length ks

lemma Listing.lossless_within (h : LosslessAhead l.item) (n : Nat) : Lossless (l.within n) := by
  induction n with
  | zero => exact lossless_skip
  | succ n ih =>
    refine lossless_choose_not rfl lossless_skip (ahead_choose (ahead_seq h ?_) ?_)
    · simpa using lossless_option (by decide) (ahead_seq ahead_take (by simpa using ih))
    · exact ahead_choose lossless_skip.ahead (ahead_seq (ahead_recover _) (by simpa using ih))

lemma Listing.lossless_rule (h : LosslessAhead l.item)
    (hclose : l.close ≠ .endOfFile) : Lossless l.rule := by
  refine lossless_seq fun r hr => ?_
  simp only [mem_cons, not_mem_nil, or_false] at hr
  obtain rfl | rfl := hr
  · exact fun ks => Listing.lossless_within h ks.length ks
  · exact lossless_expect hclose

end Rule

namespace Grammar
open Outline Rule

variable {k : Kind}

lemma lossless_name : Lossless name :=
  lossless_choose rfl (ahead_node _ ahead_take) (lossless_complain _)

lemma lossless_typeClause : Lossless typeClause := by
  refine lossless_option (by decide) (ahead_node _ (ahead_seq ahead_take ?_))
  simpa using lossless_choose rfl (ahead_node _ ahead_take) (lossless_complain _)

lemma ahead_arguments {expression : Rule} (h : Lossless expression) :
    LosslessAhead (arguments expression) := by
  refine ahead_node _ (ahead_seq ahead_take ?_)
  simpa using Listing.lossless_rule h.ahead Kind.noConfusion

lemma lossless_atom {expression : Rule} (h : Lossless expression) : Lossless (atom expression) := by
  intro ks
  unfold Reads atom
  have ahead : ∀ {k : Kind}, peek ks = k → k ≠ .endOfFile → ks ≠ [] := by
    rintro k hk hne rfl
    exact hne hk.symm
  split
  case h_1 =>
    exact lossless_extend rfl (lossless_node _ lossless_name) (ahead_arguments h) ks
  case h_2 hk => exact ahead_node _ ahead_take ks (ahead hk (by decide))
  case h_3 hk => exact ahead_node _ ahead_take ks (ahead hk (by decide))
  case h_4 hk =>
    refine ahead_node _ (ahead_seq ahead_take ?_) ks (ahead hk (by decide))
    simpa using lossless_expect (by decide)
  case h_5 hk =>
    refine ahead_node _ (ahead_seq ahead_take ?_) ks (ahead hk (by decide))
    simpa using ⟨h, lossless_expect (by decide)⟩
  case h_6 => exact lossless_complain _ ks

lemma lossless_operations {operand : Rule} (h : Lossless operand) (n : Nat) :
    Lossless (operations operand n) := by
  induction n with
  | zero => exact lossless_skip
  | succ n ih =>
    refine lossless_choose rfl (ahead_seq ahead_take ?_) lossless_skip
    have hmore : Lossless (seq [operand, operations operand n]) :=
      lossless_seq (by simpa using ⟨h, ih⟩)
    simpa using lossless_choose rfl hmore.ahead (lossless_complain _)

lemma lossless_expressionOver {inner : Rule} (h : Lossless inner) :
    Lossless (expressionOver inner) := by
  have hchain : Lossless fun ks => operations (atom inner) ks.length ks :=
    fun ks => lossless_operations (lossless_atom h) ks.length ks
  exact lossless_choose rfl (lossless_extend rfl (lossless_atom h) hchain.ahead).ahead
    (lossless_complain _)

lemma lossless_expressionWithin (n : Nat) : Lossless (expressionWithin n) := by
  induction n with
  | zero => exact lossless_skip
  | succ n ih => exact lossless_expressionOver ih

lemma lossless_expression : Lossless expression := by
  intro ks
  have h := lossless_expressionWithin (ks.length + 1) ks
  unfold Reads expression
  exact h

lemma lossless_initializer : Lossless initializer :=
  lossless_option (by decide) (ahead_seq ahead_take (by simpa using lossless_expression))

lemma lossless_variableDeclaration : Lossless variableDeclaration := by
  refine lossless_node _ (lossless_seq ?_)
  simpa using ⟨lossless_name, lossless_typeClause, lossless_initializer⟩

lemma lossless_variableDeclarations (n : Nat) : Lossless (variableDeclarations n) := by
  induction n with
  | zero => exact lossless_skip
  | succ n ih =>
    have hmore : Lossless (option .comma (seq [take, variableDeclarations n])) :=
      lossless_option (by decide) (ahead_seq ahead_take (by simpa using ih))
    exact lossless_seq (by simpa using ⟨lossless_variableDeclaration, hmore⟩)

lemma lossless_semicolon : Lossless (option .semicolon take) :=
  lossless_option (by decide) ahead_take

lemma ahead_variableStatement : LosslessAhead variableStatement := by
  refine ahead_seq ahead_take ?_
  simpa using ⟨fun ks => lossless_variableDeclarations _ ks, lossless_semicolon⟩

def parameter : Rule := node .parameter (seq [name, typeClause])

def enumMember : Rule := node .enumMember (seq [name, initializer])

def parameters : Listing where
  starts := (· == .identifier)
  item := parameter
  close := .rightParenthesis
  stops := listRecovery.contains
  complaint := .unexpectedInParameters

def argumentItems : Listing where
  starts := expressionStart.contains
  item := expression
  close := .rightParenthesis
  stops := listRecovery.contains
  complaint := .unexpectedInArguments

def enumMembers : Listing where
  starts := (· == .identifier)
  item := enumMember
  close := .rightCurly
  stops := fun _ => false
  complaint := .enumMember

lemma lossless_parameter : Lossless parameter :=
  lossless_node _ (lossless_seq (by simpa using ⟨lossless_name, lossless_typeClause⟩))

lemma ahead_parameterList : LosslessAhead parameterList := by
  refine ahead_node _ (ahead_seq ahead_take ?_)
  simpa using Listing.lossless_rule lossless_parameter.ahead (by decide)

lemma lossless_parameters :
    Lossless (choose (· == .leftParenthesis) parameterList (complain .parameterList)) :=
  lossless_choose rfl ahead_parameterList (lossless_complain _)

lemma lossless_body {block : Rule} (h : LosslessAhead block) :
    Lossless (choose (· == .leftCurly) block (expect .semicolon)) :=
  lossless_choose rfl h (lossless_expect (by decide))

lemma lossless_signature {block : Rule} (h : LosslessAhead block) : Lossless (signature block) :=
  lossless_seq (by simpa using ⟨lossless_parameters, lossless_typeClause, lossless_body h⟩)

lemma ahead_functionDeclaration {block : Rule} (h : LosslessAhead block) :
    LosslessAhead (functionDeclaration block) :=
  ahead_seq ahead_take (by simpa using ⟨lossless_name, lossless_signature h⟩)

lemma lossless_method {block : Rule} (h : LosslessAhead block) : Lossless (method block) :=
  lossless_seq (by simpa using ⟨lossless_name, lossless_signature h⟩)

lemma lossless_property : Lossless property :=
  lossless_seq (by simpa using
    ⟨lossless_name, lossless_typeClause, lossless_initializer, lossless_semicolon⟩)

lemma leaves_modifiers (ks : List Kind) :
    leavesAll (modifiers ks).1 = ks.takeWhile Kind.isModifierKeyword := by
  unfold modifiers
  induction ks.takeWhile Kind.isModifierKeyword with
  | nil => rfl
  | cons k ms ih => simpa only [map_cons, leavesAll, leaves, append_nil,
      singleton_append, List.cons.injEq, true_and] using ih

lemma lossless_modifiers : Lossless modifiers := by
  intro ks
  unfold Reads
  rw [leaves_modifiers]
  exact takeWhile_append_dropWhile

lemma reads_after_modifiers {ks : List Kind}
    {kind : Kind} {r : Rule} (h : Reads r (modifiers ks).2) :
    Reads (fun ks => nodeFrom (modifiers ks).1 kind r (modifiers ks).2) ks := by
  unfold Reads
  rw [leaves_nodeFrom _ _ h]
  exact lossless_modifiers ks

lemma modifiers_of_isEmpty {ks : List Kind} (h : (modifiers ks).1.isEmpty = true) :
    (modifiers ks).2 = ks := by
  have hnil : ks.takeWhile Kind.isModifierKeyword = [] := by
    simpa [modifiers] using h
  calc (modifiers ks).2 =
    ks.takeWhile Kind.isModifierKeyword ++ (modifiers ks).2 := by rw [hnil]; rfl
    _ = ks := takeWhile_append_dropWhile

lemma ahead_classMember {block : Rule} (h : LosslessAhead block) :
    LosslessAhead (classMember block) := by
  intro ks hks
  unfold Reads classMember
  dsimp only
  split_ifs with hname hcall hnone
  · exact reads_after_modifiers (lossless_method h _)
  · exact reads_after_modifiers (lossless_property _)
  · rw [modifiers_of_isEmpty hnone]
    exact ahead_recover _ ks hks
  · exact reads_after_modifiers (lossless_complain _ _)

lemma ahead_classDeclaration {block : Rule} (h : LosslessAhead block) :
    LosslessAhead (classDeclaration block) := by
  have hbody : LosslessAhead (seq [take, repeatUntil (· == .rightCurly) (classMember block),
      expect .rightCurly]) :=
    ahead_seq ahead_take (by simpa using
      ⟨lossless_repeatUntil (ahead_classMember h), lossless_expect (by decide)⟩)
  exact ahead_seq ahead_take (by simpa using
    ⟨lossless_name, lossless_choose rfl hbody (lossless_complain _)⟩)

lemma lossless_enumMember : Lossless enumMember :=
  lossless_node _ (lossless_seq (by simpa using ⟨lossless_name, lossless_initializer⟩))

lemma ahead_enumDeclaration : LosslessAhead enumDeclaration := by
  refine ahead_seq ahead_take ?_
  simp only [mem_cons, not_mem_nil, or_false, forall_eq_or_imp, forall_eq]
  refine ⟨lossless_name, lossless_choose rfl (ahead_seq ahead_take ?_) (lossless_complain _)⟩
  simpa using Listing.lossless_rule lossless_enumMember.ahead (by decide)

lemma ahead_namespaceDeclaration {block : Rule} (h : LosslessAhead block) :
    LosslessAhead (namespaceDeclaration block) :=
  ahead_seq ahead_take (by simpa using
    ⟨lossless_name, lossless_choose rfl h (lossless_complain _)⟩)

inductive Declares (block : Rule) : Kind → Kind → Rule → Prop where
  | binding {k : Kind} (hk : k = .constKeyword ∨ k = .letKeyword ∨ k = .varKeyword) :
      Declares block k .variableStatement variableStatement
  | function : Declares block .functionKeyword .functionDeclaration (functionDeclaration block)
  | members : Declares block .classKeyword .classDeclaration (classDeclaration block)
  | enum : Declares block .enumKeyword .enumDeclaration enumDeclaration
  | space : Declares block .namespaceKeyword .namespaceDeclaration (namespaceDeclaration block)

lemma declares {block body : Rule} {kind : Kind} (hd : declaration? block k = some (kind, body)) :
    Declares block k kind body := by
  unfold declaration? at hd
  split at hd <;> simp only [Option.some.injEq, Prod.mk.injEq, reduceCtorEq] at hd <;>
    obtain ⟨rfl, rfl⟩ := hd
  · exact .binding (.inl rfl)
  · exact .binding (.inr (.inl rfl))
  · exact .binding (.inr (.inr rfl))
  · exact .function
  · exact .members
  · exact .enum
  · exact .space

lemma declaration_reads {block body : Rule} {kind : Kind}
    (h : LosslessAhead block) (hd : declaration? block k = some (kind, body)) :
    LosslessAhead body ∧ ∃ rs, body = seq (take :: rs) := by
  cases declares hd with
  | binding => exact ⟨ahead_variableStatement, _, rfl⟩
  | function => exact ⟨ahead_functionDeclaration h, _, rfl⟩
  | members => exact ⟨ahead_classDeclaration h, _, rfl⟩
  | enum => exact ⟨ahead_enumDeclaration, _, rfl⟩
  | space => exact ⟨ahead_namespaceDeclaration h, _, rfl⟩

lemma declaration_ahead {block : Rule} {ks : List Kind} {d : Kind × Rule}
    (h : declaration? block (peek ks) = some d) : ks ≠ [] := by
  rintro rfl
  exact nomatch h

lemma lossless_block {statement : Rule} (h : LosslessAhead statement) :
    Lossless (block statement) :=
  lossless_node _ (lossless_seq (by simpa using
    ⟨lossless_expect (by decide), lossless_repeatUntil h, lossless_expect (by decide)⟩))

lemma lossless_consequence {statement : Rule} (h : LosslessAhead statement) :
    Lossless (consequence statement) :=
  lossless_choose_not rfl (lossless_complain _) h

lemma lossless_else {statement : Rule} (h : LosslessAhead statement) :
    Lossless (option .elseKeyword (seq [take, consequence statement])) :=
  lossless_option (by decide) (ahead_seq ahead_take (by simpa using lossless_consequence h))

lemma ahead_ifStatement {statement : Rule} (h : LosslessAhead statement) :
    LosslessAhead (ifStatement statement) := by
  refine ahead_node _ (ahead_seq ahead_take ?_)
  simpa using ⟨lossless_expect (by decide), lossless_expression, lossless_expect (by decide),
    lossless_consequence h, lossless_else h⟩

lemma lossless_value : Lossless (choose expressionStart.contains expression skip) :=
  lossless_choose rfl lossless_expression.ahead lossless_skip

lemma ahead_returnStatement : LosslessAhead returnStatement :=
  ahead_node _ (ahead_seq ahead_take (by simpa using ⟨lossless_value, lossless_semicolon⟩))

lemma lossless_expressionStatement : Lossless expressionStatement :=
  lossless_node _ (lossless_seq (by simpa using ⟨lossless_expression, lossless_semicolon⟩))

lemma ahead_plainStatement {inner : Rule} (h : LosslessAhead inner) :
    LosslessAhead (plainStatement inner) := by
  intro ks hks
  unfold Reads plainStatement
  split
  · exact lossless_block h ks
  · exact ahead_returnStatement ks hks
  · exact ahead_ifStatement h ks hks
  · exact ahead_choose lossless_expressionStatement.ahead (ahead_recover _) ks hks

lemma ahead_statementOver {inner : Rule} (h : LosslessAhead inner) :
    LosslessAhead (statementOver inner) := by
  intro ks hks
  unfold Reads statementOver
  dsimp only
  split
  next kind body hd =>
    have hbody := (declaration_reads (lossless_block h).ahead hd).1
    exact reads_after_modifiers (hbody _ (declaration_ahead hd))
  next hd =>
    split_ifs with hnone
    · rw [modifiers_of_isEmpty hnone]
      exact ahead_plainStatement h ks hks
    · exact reads_after_modifiers (lossless_complain _ _)

lemma ahead_statementWithin (n : Nat) : LosslessAhead (statementWithin n) := by
  induction n with
  | zero => exact lossless_skip.ahead
  | succ n ih => exact ahead_statementOver ih

lemma ahead_statement : LosslessAhead statement := by
  intro ks hks
  have h := ahead_statementWithin (ks.length + 1) ks hks
  unfold Reads statement
  exact h

lemma lossless_statementBlock : Lossless (block statement) := lossless_block ahead_statement

lemma lossless_file : Lossless file := lossless_repeatUntil ahead_statement

end Grammar

namespace Rule
open Outline

def Advances (r : Rule) (ks : List Kind) : Prop := (r ks).2.length < ks.length

variable {r : Rule} {rs : List Rule} {ks : List Kind}

lemma advances_take (h : ks ≠ []) : Advances take ks := by
  cases ks with
  | nil => exact absurd rfl h
  | cons k ks => exact Nat.lt_succ_self ks.length

lemma Reads.advances (h : Reads r ks) (hl : leavesAll (r ks).1 ≠ []) : Advances r ks := by
  have hlen := congrArg List.length h
  rw [length_append] at hlen
  have hpos : 0 < (leavesAll (r ks).1).length := length_pos_iff.2 hl
  unfold Advances
  omega

lemma Reads.leaves_ne_nil (h : Reads r ks) (hadv : Advances r ks) : leavesAll (r ks).1 ≠ [] := by
  intro hnil
  rw [Reads, hnil, nil_append] at h
  rw [Advances, h] at hadv
  exact Nat.lt_irrefl _ hadv

lemma leaves_take_seq (h : ks ≠ []) : leavesAll (seq (take :: rs) ks).1 ≠ [] := by
  cases ks with
  | nil => exact absurd rfl h
  | cons k ks => simp [seq, take, leavesAll, leaves]

lemma leaves_node {kind : Kind} (h : leavesAll (r ks).1 ≠ []) :
    leavesAll (node kind r ks).1 ≠ [] := by
  simpa [node, nodeFrom, leavesAll, leaves] using h

lemma advances_seq_cons (h : Advances r ks) (hs : ∀ s ∈ rs, Lossless s) :
    Advances (seq (r :: rs)) ks :=
  Nat.lt_of_le_of_lt (lossless_seq hs (r ks).2).length_le h

lemma advances_recover (c : Complaint) (h : ks ≠ []) : Advances (recover c) ks :=
  advances_take h

lemma advances_expect {k : Kind} (hk : k ≠ .endOfFile) (h : peek ks = k) :
    Advances (expect k) ks := by
  have hp : (peek ks == k) = true := by simp [h]
  have htake : expect k ks = take ks := if_pos hp
  unfold Advances
  rw [htake]
  exact advances_take (ne_nil_of_peek (p := (· == k)) hp (by simpa using hk.symm))

lemma advances_extend {kind : Kind} {p : Kind → Bool} {more : Rule}
    (h : Advances r ks) (hp : p .endOfFile = false) (hmore : LosslessAhead more) :
    Advances (extend kind r p more) ks := by
  unfold Advances
  cases hnext : p (peek (r ks).2) with
  | true =>
    rw [extend_of_peek hnext]
    exact Nat.lt_of_le_of_lt (hmore _ (ne_nil_of_peek hnext hp)).length_le h
  | false =>
    rw [extend_of_not_peek hnext]
    exact h

lemma peek_repeatWithin {stop : Kind → Bool} (h : ∀ ks, ks ≠ [] → Advances r ks) (n : Nat)
    (ks : List Kind) (hn : ks.length ≤ n) : peek (repeatWithin stop r n ks).2 = .endOfFile ∨
      stop (peek (repeatWithin stop r n ks).2) = true := by
  induction n generalizing ks with
  | zero =>
    obtain rfl : ks = [] := eq_nil_of_length_eq_zero (Nat.le_zero.1 hn)
    exact .inl rfl
  | succ n ih =>
    cases hstop : peek ks == .endOfFile || stop (peek ks) with
    | true =>
      have heq : repeatWithin stop r (n + 1) ks = ([], ks) := if_pos hstop
      rw [heq]
      simpa only [Bool.or_eq_true, beq_iff_eq] using hstop
    | false =>
      have heq : repeatWithin stop r (n + 1) ks = seq [r, repeatWithin stop r n] ks :=
        if_neg (Bool.eq_false_iff.1 hstop)
      rw [heq]
      have hks : ks ≠ [] := by
        rintro rfl
        exact Bool.noConfusion hstop
      exact ih (r ks).2 (Nat.le_of_lt_succ (Nat.lt_of_lt_of_le (h ks hks) hn))

end Rule

namespace Grammar
open Outline Rule

variable {ks : List Kind}

lemma expressionStart_cases {k : Kind} (h : expressionStart.contains k = true) :
    k = .identifier ∨ k = .number ∨ k = .string ∨ k = .leftParenthesis ∨ k = .minus := by
  simpa [expressionStart, TokenSet.contains] using h

lemma advances_name (h : peek ks = .identifier) : Advances name ks := by
  have hp : (peek ks == .identifier) = true := by simp [h]
  have htake : name ks = node .name take ks := if_pos hp
  unfold Advances
  rw [htake]
  exact advances_take (ne_nil_of_peek (p := (· == .identifier)) hp rfl)

lemma advances_atom {inner : Rule} (h : Lossless inner)
    (hks : expressionStart.contains (peek ks) = true) : Advances (atom inner) ks := by
  have hne : ks ≠ [] := ne_nil_of_peek hks rfl
  have hreads := lossless_atom h ks
  unfold Advances Reads atom at *
  split at hreads
  case h_1 hk =>
    have hname : Advances (node .nameExpression name) ks := advances_name hk
    exact advances_extend hname rfl (ahead_arguments h)
  case h_2 => exact advances_take hne
  case h_3 => exact advances_take hne
  case h_4 => exact Reads.advances hreads (leaves_node (leaves_take_seq hne))
  case h_5 => exact Reads.advances hreads (leaves_node (leaves_take_seq hne))
  case h_6 hid hnum hstr hmin hpar =>
    obtain hk | hk | hk | hk | hk := expressionStart_cases hks
    · exact absurd hk hid
    · exact absurd hk hnum
    · exact absurd hk hstr
    · exact absurd hk hpar
    · exact absurd hk hmin

lemma expression_eq (ks : List Kind) :
    expression ks = expressionOver (expressionWithin ks.length) ks := rfl

lemma advances_expression (hks : expressionStart.contains (peek ks) = true) :
    Advances expression ks := by
  have h := lossless_expressionWithin ks.length
  unfold Advances
  rw [expression_eq]
  unfold expressionOver Rule.choose
  rw [if_pos hks]
  exact advances_extend (advances_atom h hks) rfl
    fun ls _ => lossless_operations (lossless_atom h) ls.length ls

lemma advances_plainStatement {inner : Rule} (h : LosslessAhead inner)
    (hks : ks ≠ []) : Advances (plainStatement inner) ks := by
  unfold Advances plainStatement
  split
  case h_1 hk =>
    refine advances_seq_cons (advances_expect (by decide) hk) ?_
    simpa using ⟨lossless_repeatUntil h, lossless_expect (by decide)⟩
  case h_2 => exact (ahead_returnStatement ks hks).advances (leaves_node (leaves_take_seq hks))
  case h_3 => exact (ahead_ifStatement h ks hks).advances (leaves_node (leaves_take_seq hks))
  case h_4 =>
    unfold Rule.choose
    split
    next hstart =>
      exact advances_seq_cons (advances_expression hstart) (by simpa using lossless_semicolon)
    next => exact advances_recover _ hks

lemma length_modifiers_lt (h : (modifiers ks).1.isEmpty = false) :
    (modifiers ks).2.length < ks.length := by
  refine (lossless_modifiers ks).advances ?_
  rw [leaves_modifiers]
  simpa [modifiers] using h

lemma advances_classMember {block : Rule} (h : LosslessAhead block)
    (hks : ks ≠ []) : Advances (classMember block) ks := by
  have hle := (lossless_modifiers ks).length_le
  unfold Advances classMember
  dsimp only
  split_ifs with hname hcall hnone
  · have hlt : Advances (method block) (modifiers ks).2 :=
      advances_seq_cons (advances_name hname) (by simpa using lossless_signature h)
    exact Nat.lt_of_lt_of_le hlt hle
  · have hlt : Advances property (modifiers ks).2 :=
      advances_seq_cons (advances_name hname) (by simpa using
        ⟨lossless_typeClause, lossless_initializer, lossless_semicolon⟩)
    exact Nat.lt_of_lt_of_le hlt hle
  · rw [modifiers_of_isEmpty hnone]
    exact advances_recover _ hks
  · exact length_modifiers_lt (Bool.eq_false_iff.2 hnone)

lemma advances_statementOver {inner : Rule} (h : LosslessAhead inner)
    (hks : ks ≠ []) : Advances (statementOver inner) ks := by
  unfold Advances statementOver
  dsimp only
  split
  next kind body hd =>
    have hnext := declaration_ahead hd
    obtain ⟨hbody, rs, rfl⟩ := declaration_reads (lossless_block h).ahead hd
    have hlt : Advances (seq (take :: rs)) (modifiers ks).2 :=
      (hbody _ hnext).advances (leaves_take_seq hnext)
    exact Nat.lt_of_lt_of_le hlt (lossless_modifiers ks).length_le
  next hd =>
    split_ifs with hnone
    · rw [modifiers_of_isEmpty hnone]
      exact advances_plainStatement h hks
    · exact length_modifiers_lt (Bool.eq_false_iff.2 hnone)

lemma statement_eq (ks : List Kind) :
    statement ks = statementOver (statementWithin ks.length) ks := rfl

lemma advances_statement (hks : ks ≠ []) : Advances statement ks := by
  unfold Advances
  rw [statement_eq]
  exact advances_statementOver (ahead_statementWithin _) hks

lemma file_rest (h : .endOfFile ∉ ks) : (file ks).2 = [] := by
  have hpeek : peek (file ks).2 = .endOfFile := by
    have hstop : peek (file ks).2 = .endOfFile ∨ false = true :=
      peek_repeatWithin (fun ls hls => advances_statement hls) ks.length ks (Nat.le_refl _)
    simpa using hstop
  by_contra hne
  have hmem : Kind.endOfFile ∉ (file ks).2 := fun hm => h ((lossless_file ks).suffix.subset hm)
  exact peek_ne_endOfFile hmem hne hpeek

end Grammar

namespace Outline

/-- The outline of kinds has them as its leaves, each once and in their order. -/
lemma leavesAll_ofKinds {ks : List Kind} (h : .endOfFile ∉ ks) : leavesAll (ofKinds ks) = ks := by
  have hreads : leavesAll (ofKinds ks) ++ (Grammar.file ks).2 = ks := Grammar.lossless_file ks
  rwa [Grammar.file_rest h, append_nil] at hreads

end Outline
end LiveEdit
