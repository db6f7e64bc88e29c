import LiveEdit.Proofs.Outline.Reading

namespace LiveEdit
open List

namespace Kind

def holds : Kind → Kind → Bool
  | .sourceFile, k | .block, k => k.isStatement || k == .error
  | .variableStatement, k => k == .modifier || k == .variableDeclaration
  | .variableDeclaration, k => k == .name || k == .typeClause || k.isExpression
  | .functionDeclaration, k =>
    k == .modifier || k == .name || k == .parameterList || k == .typeClause || k == .block
  | .parameterList, k => k == .parameter || k == .error
  | .parameter, k => k == .name || k == .typeClause
  | .typeClause, k => k == .typeReference
  | .classDeclaration, k => k == .modifier || k == .name || k.isClassMember || k == .error
  | .propertyDeclaration, k => k == .modifier || k == .name || k == .typeClause || k.isExpression
  | .methodDeclaration, k =>
    k == .modifier || k == .name || k == .parameterList || k == .typeClause || k == .block
  | .enumDeclaration, k => k == .modifier || k == .name || k == .enumMember || k == .error
  | .enumMember, k => k == .name || k.isExpression
  | .namespaceDeclaration, k => k == .modifier || k == .name || k == .block
  | .expressionStatement, k | .returnStatement, k => k.isExpression
  | .ifStatement, k => k.isExpression || k.isStatement || k == .error
  | .nameExpression, k => k == .name
  | .callExpression, k => k == .nameExpression || k == .argumentList
  | .argumentList, k => k.isExpression || k == .error
  | .parenthesizedExpression, k | .binaryExpression, k => k.isExpression
  | .error, k => k == .modifier
  | _, _ => false

end Kind

namespace Outline

inductive Nested : (Kind → Bool) → Outline → Prop where
  | leaf (S : Kind → Bool) (k : Kind) : Nested S (.leaf k)
  | fault (S : Kind → Bool) (c : Complaint) : Nested S (.fault c)
  | branch {S : Kind → Bool} {k : Kind} {os : List Outline} (kind : S k = true)
      (parts : ∀ o ∈ os, Nested k.holds o) : Nested S (.branch k os)

lemma Nested.mono {S T : Kind → Bool} {o : Outline} (h : o.Nested S)
    (hST : ∀ k, S k = true → T k = true) : o.Nested T := by
  cases h with
  | leaf => exact .leaf T _
  | fault => exact .fault T _
  | branch kind parts => exact .branch (hST _ kind) parts

end Outline

namespace Rule
open Outline

/-- What the rule makes is of kinds in the set, and below it everything is where it may be. -/
def Nests (S : Kind → Bool) (r : Rule) : Prop := ∀ ks, ∀ o ∈ (r ks).1, o.Nested S

variable {S T stop : Kind → Bool} {r yes no more : Rule} {rs : List Rule} {p : Kind → Bool}
  {k kind : Kind} {l : Listing}

lemma Nests.mono (h : Nests S r) (hST : ∀ k, S k = true → T k = true) : Nests T r :=
  fun ks o ho => (h ks o ho).mono hST

lemma nests_skip : Nests S skip := fun _ _ ho => absurd ho not_mem_nil

lemma nests_take : Nests S take := by
  intro ks o ho
  cases ks with
  | nil =>
    obtain rfl := mem_singleton.1 ho
    exact .leaf S _
  | cons k ks =>
    obtain rfl := mem_singleton.1 ho
    exact .leaf S _

lemma nests_complain (c : Complaint) : Nests S (complain c) := by
  intro ks o ho
  obtain rfl := mem_singleton.1 ho
  exact .fault S c

lemma nests_seq (h : ∀ r ∈ rs, Nests S r) : Nests S (seq rs) := by
  induction rs with
  | nil => exact nests_skip
  | cons r rs ih =>
    intro ks o ho
    rcases mem_append.1 ho with hfirst | hrest
    · exact h r mem_cons_self ks o hfirst
    · exact ih (fun s hs => h s (mem_cons_of_mem r hs)) _ o hrest

lemma nests_choose (hyes : Nests S yes) (hno : Nests S no) : Nests S (choose p yes no) := by
  intro ks
  unfold choose
  split
  · exact hyes ks
  · exact hno ks

lemma nests_option (h : Nests S r) : Nests S (option k r) := nests_choose h nests_skip

lemma nests_expect (k : Kind) : Nests S (expect k) := nests_choose nests_take (nests_complain _)

lemma nests_nodeFrom {first : List Outline}
    (hk : S kind = true) (hfirst : ∀ o ∈ first, o.Nested kind.holds) (h : Nests kind.holds r) :
    Nests S (nodeFrom first kind r) := by
  intro ks o ho
  obtain rfl := mem_singleton.1 ho
  refine .branch hk fun o ho => ?_
  rcases mem_append.1 ho with ho | ho
  · exact hfirst o ho
  · exact h ks o ho

lemma nests_node (hk : S kind = true) (h : Nests kind.holds r) : Nests S (node kind r) :=
  nests_nodeFrom hk (fun _ ho => absurd ho not_mem_nil) h

lemma nests_extend (h : Nests S r) (hk : S kind = true) (hfirst : Nests kind.holds r)
    (hmore : Nests kind.holds more) : Nests S (extend kind r p more) := by
  intro ks
  cases hnext : p (peek (r ks).2) with
  | true =>
    rw [extend_of_peek hnext]
    exact nests_nodeFrom hk (hfirst ks) hmore _
  | false =>
    rw [extend_of_not_peek hnext]
    exact h ks

lemma nests_recover (hk : S .error = true) (c : Complaint) : Nests S (recover c) :=
  nests_node hk (nests_seq (by simpa using ⟨nests_complain c, nests_take⟩))

lemma nests_repeatWithin (h : Nests S r) (n : Nat) : Nests S (repeatWithin stop r n) := by
  induction n with
  | zero => exact nests_skip
  | succ n ih => exact nests_choose nests_skip (nests_seq (by simpa using ⟨h, ih⟩))

lemma nests_repeatUntil (h : Nests S r) : Nests S (repeatUntil stop r) :=
  fun ks => nests_repeatWithin h ks.length ks

lemma Listing.nests_within (h : Nests S l.item) (hk : S .error = true) (n : Nat) :
    Nests S (l.within n) := by
  induction n with
  | zero => exact nests_skip
  | succ n ih =>
    have hmore : Nests S (option .comma (seq [take, l.within n])) :=
      nests_option (nests_seq (by simpa using ⟨nests_take, ih⟩))
    have hitem : Nests S (seq [l.item, option .comma (seq [take, l.within n])]) :=
      nests_seq (by simpa using ⟨h, hmore⟩)
    have hstray : Nests S (seq [recover l.complaint, l.within n]) :=
      nests_seq (by simpa using ⟨nests_recover hk _, ih⟩)
    exact nests_choose nests_skip (nests_choose hitem (nests_choose nests_skip hstray))

lemma Listing.nests_rule (h : Nests S l.item) (hk : S .error = true) : Nests S l.rule := by
  have hitems : Nests S fun ks => l.within ks.length ks :=
    fun ks => Listing.nests_within h hk ks.length ks
  exact nests_seq (by simpa using ⟨hitems, nests_expect _⟩)

end Rule

namespace Grammar
open Outline Rule

variable {S : Kind → Bool} {block inner body : Rule} {kind : Kind} {r : Rule}

lemma nests_modifiers (h : S .modifier = true) (ks : List Kind) :
    ∀ o ∈ (modifiers ks).1, o.Nested S := by
  intro o ho
  obtain ⟨k, -, rfl⟩ := mem_map.1 ho
  refine .branch h fun l hl => ?_
  obtain rfl := mem_singleton.1 hl
  exact .leaf _ k

lemma nests_name (h : S .name = true) : Nests S name :=
  nests_choose (nests_node h nests_take) (nests_complain _)

lemma nests_typeClause (h : S .typeClause = true) : Nests S typeClause := by
  refine nests_option (nests_node h (nests_seq ?_))
  simpa using ⟨nests_take, nests_choose (nests_node rfl nests_take) (nests_complain _)⟩

def Expressive (S : Kind → Bool) : Prop := ∀ k, Kind.isExpression k = true → S k = true

lemma nests_arguments {expression : Rule} (h : Nests Kind.isExpression expression)
    (hk : S .argumentList = true) : Nests S (arguments expression) := by
  have hlist : Nests (Kind.holds .argumentList) expression :=
    h.mono fun k hk => by simp [Kind.holds, hk]
  exact nests_node hk (nests_seq (by simpa using ⟨nests_take, Listing.nests_rule hlist rfl⟩))

lemma nests_atom {expression : Rule} (h : Nests Kind.isExpression expression) :
    Nests Kind.isExpression (atom expression) := by
  have hname : Nests (Kind.holds .nameExpression) name := nests_name rfl
  intro ks
  unfold atom
  split
  · exact nests_extend (nests_node rfl hname) rfl (nests_node rfl hname) (nests_arguments h rfl) ks
  · exact nests_node rfl nests_take ks
  · exact nests_node rfl nests_take ks
  · exact nests_node rfl (nests_seq (by simpa using ⟨nests_take, nests_expect _⟩)) ks
  · exact nests_node rfl (nests_seq (by simpa using ⟨nests_take, h, nests_expect _⟩)) ks
  · exact nests_complain _ ks

lemma nests_operations {operand : Rule} (h : Nests S operand) (n : Nat) :
    Nests S (operations operand n) := by
  induction n with
  | zero => exact nests_skip
  | succ n ih =>
    have hmore : Nests S (choose expressionStart.contains (seq [operand, operations operand n])
        (complain .expression)) :=
      nests_choose (nests_seq (by simpa using ⟨h, ih⟩)) (nests_complain _)
    exact nests_choose (nests_seq (by simpa using ⟨nests_take, hmore⟩)) nests_skip

lemma nests_expressionOver (h : Nests Kind.isExpression inner) :
    Nests Kind.isExpression (expressionOver inner) := by
  have hchain : Nests (Kind.holds .binaryExpression) fun ks =>
      operations (atom inner) ks.length ks := fun ks => nests_operations (nests_atom h) ks.length ks
  exact nests_choose (nests_extend (nests_atom h) rfl (nests_atom h) hchain) (nests_complain _)

lemma nests_expressionWithin (n : Nat) : Nests Kind.isExpression (expressionWithin n) := by
  induction n with
  | zero => exact nests_skip
  | succ n ih => exact nests_expressionOver ih

lemma nests_expression (h : Expressive S) : Nests S expression :=
  fun ks o ho => (nests_expressionWithin (ks.length + 1) ks o ho).mono h

lemma nests_initializer (h : Expressive S) : Nests S initializer :=
  nests_option (nests_seq (by simpa using ⟨nests_take, nests_expression h⟩))

lemma expressive_holds (h : kind ∈ [Kind.variableDeclaration, .propertyDeclaration, .enumMember,
    .expressionStatement, .returnStatement, .ifStatement]) : Expressive kind.holds := by
  intro k hk
  simp only [mem_cons, not_mem_nil, or_false] at h
  rcases h with rfl | rfl | rfl | rfl | rfl | rfl <;> simp [Kind.holds, hk]

lemma nests_variableDeclaration (h : S .variableDeclaration = true) :
    Nests S variableDeclaration := by
  refine nests_node h (nests_seq ?_)
  simpa using ⟨nests_name rfl, nests_typeClause rfl, nests_initializer (expressive_holds (by simp))⟩

lemma nests_variableDeclarations (h : S .variableDeclaration = true) (n : Nat) :
    Nests S (variableDeclarations n) := by
  induction n with
  | zero => exact nests_skip
  | succ n ih =>
    have hmore : Nests S (option .comma (seq [take, variableDeclarations n])) :=
      nests_option (nests_seq (by simpa using ⟨nests_take, ih⟩))
    exact nests_seq (by simpa using ⟨nests_variableDeclaration h, hmore⟩)

lemma nests_semicolon : Nests S (option .semicolon take) := nests_option nests_take

lemma nests_parameterList (h : S .parameterList = true) : Nests S parameterList := by
  have hitem : Nests (Kind.holds .parameterList) (node .parameter (seq [name, typeClause])) :=
    nests_node rfl (nests_seq (by simpa using ⟨nests_name rfl, nests_typeClause rfl⟩))
  exact nests_node h (nests_seq (by simpa using ⟨nests_take, Listing.nests_rule hitem rfl⟩))

lemma nests_signature (h : Nests S block) (hp : S .parameterList = true)
    (ht : S .typeClause = true) : Nests S (signature block) := by
  have hlist : Nests S (choose (· == .leftParenthesis) parameterList (complain .parameterList)) :=
    nests_choose (nests_parameterList hp) (nests_complain _)
  have hbody : Nests S (choose (· == .leftCurly) block (expect .semicolon)) :=
    nests_choose h (nests_expect _)
  exact nests_seq (by simpa using ⟨hlist, nests_typeClause ht, hbody⟩)

lemma nests_property : Nests (Kind.holds .propertyDeclaration) property := by
  refine nests_seq ?_
  simpa using ⟨nests_name rfl, nests_typeClause rfl, nests_initializer (expressive_holds (by simp)),
    nests_semicolon⟩

def NestsBlock (block : Rule) : Prop := ∀ S, S .block = true → Nests S block

lemma nests_classMember (h : NestsBlock block) (hm : ∀ k, k.isClassMember = true → S k = true)
    (hk : S .error = true) : Nests S (classMember block) := by
  have hmethod : Nests (Kind.holds .methodDeclaration) (method block) :=
    nests_seq (by simpa using ⟨nests_name rfl, nests_signature (h _ rfl) rfl rfl⟩)
  intro ks
  unfold classMember
  dsimp only
  split_ifs
  · exact nests_nodeFrom (hm _ rfl) (nests_modifiers rfl ks) hmethod _
  · exact nests_nodeFrom (hm _ rfl) (nests_modifiers rfl ks) nests_property _
  · exact nests_recover hk _ _
  · exact nests_nodeFrom hk (nests_modifiers rfl ks) (nests_complain _) _

lemma nests_classDeclaration (h : NestsBlock block)
    (hn : S .name = true) (hm : ∀ k, k.isClassMember = true → S k = true) (hk : S .error = true) :
    Nests S (classDeclaration block) := by
  have hbody : Nests S (seq [take,
      repeatUntil (· == .rightCurly) (classMember block), expect .rightCurly]) := nests_seq
      (by simpa using ⟨nests_take, nests_repeatUntil (nests_classMember h hm hk), nests_expect _⟩)
  exact nests_seq
    (by simpa using ⟨nests_take, nests_name hn, nests_choose hbody (nests_complain _)⟩)

lemma nests_enumMember (h : S .enumMember = true) :
    Nests S (node .enumMember (seq [name, initializer])) := by
  refine nests_node h (nests_seq ?_)
  simpa using ⟨nests_name rfl, nests_initializer (expressive_holds (by simp))⟩

lemma nests_enumDeclaration (hn : S .name = true) (hm : S .enumMember = true)
    (hk : S .error = true) : Nests S enumDeclaration := by
  refine nests_seq ?_
  simp only [mem_cons, not_mem_nil, or_false, forall_eq_or_imp, forall_eq]
  refine ⟨nests_take, nests_name hn, nests_choose (nests_seq ?_) (nests_complain _)⟩
  simpa using ⟨nests_take, Listing.nests_rule (nests_enumMember hm) hk⟩

lemma nests_declaration {k : Kind} (h : NestsBlock block)
    (hd : declaration? block k = some (kind, body))
    (hS : ∀ j, kind.holds j = true → j ≠ .modifier → S j = true) : Nests S body := by
  cases declares hd with
  | binding =>
    have hvariable := hS .variableDeclaration rfl (by decide)
    exact nests_seq (by simpa using
      ⟨nests_take, fun ks => nests_variableDeclarations hvariable _ ks, nests_semicolon⟩)
  | function =>
    have hsignature : Nests S (signature block) :=
      nests_signature (h _ (hS _ rfl (by decide))) (hS _ rfl (by decide)) (hS _ rfl (by decide))
    exact nests_seq (by simpa using ⟨nests_take, nests_name (hS _ rfl (by decide)), hsignature⟩)
  | members =>
    refine nests_classDeclaration h (hS _ rfl (by decide)) (fun j hj => ?_) (hS _ rfl (by decide))
    refine hS j (by simp [Kind.holds, hj]) ?_
    rintro rfl
    cases hj
  | enum =>
    exact nests_enumDeclaration (hS _ rfl (by decide)) (hS _ rfl (by decide)) (hS _ rfl (by decide))
  | space =>
    have hblock : Nests S (choose (· == .leftCurly) block (complain .namespaceBody)) :=
      nests_choose (h _ (hS _ rfl (by decide))) (nests_complain _)
    exact nests_seq (by simpa using ⟨nests_take, nests_name (hS _ rfl (by decide)), hblock⟩)

lemma holds_declaration {k : Kind} (hd : declaration? block k = some (kind, body)) :
    kind.isStatement = true ∧ kind.holds .modifier = true := by
  cases declares hd <;> decide

lemma nests_block (h : Nests (Kind.holds .block) inner) : NestsBlock (Grammar.block inner) :=
  fun _ hS => nests_node hS (nests_seq (by simpa using
    ⟨nests_expect _, nests_repeatUntil h, nests_expect _⟩))

lemma nests_ifStatement (h : Nests (Kind.holds .block) inner) (hk : S .ifStatement = true) :
    Nests S (ifStatement inner) := by
  have hinner : Nests (Kind.holds .ifStatement) inner :=
    h.mono fun k hk => by simpa [Kind.holds, or_assoc] using .inr (by simpa [Kind.holds] using hk)
  have hthen : Nests (Kind.holds .ifStatement) (consequence inner) :=
    nests_choose (nests_complain _) hinner
  have helse :
      Nests (Kind.holds .ifStatement) (option .elseKeyword (seq [take, consequence inner])) :=
      nests_option (nests_seq (by simpa using ⟨nests_take, hthen⟩))
  refine nests_node hk (nests_seq ?_)
  simpa using ⟨nests_take, nests_expect _, nests_expression (expressive_holds (by simp)),
    nests_expect _, hthen, helse⟩

lemma nests_plainStatement (h : Nests (Kind.holds .block) inner) :
    Nests (Kind.holds .block) (plainStatement inner) := by
  have hreturn : Nests (Kind.holds .block) returnStatement := by
    have hvalue : Nests (Kind.holds .returnStatement)
        (choose expressionStart.contains expression skip) :=
      nests_choose (nests_expression (expressive_holds (by simp))) nests_skip
    exact nests_node rfl (nests_seq (by simpa using ⟨nests_take, hvalue, nests_semicolon⟩))
  have hexpression : Nests (Kind.holds .block) expressionStatement :=
    nests_node rfl (nests_seq (by simpa using
      ⟨nests_expression (expressive_holds (by simp)), nests_semicolon⟩))
  intro ks
  unfold plainStatement
  split
  · exact nests_block h _ rfl ks
  · exact hreturn ks
  · exact nests_ifStatement h rfl ks
  · exact nests_choose hexpression (nests_recover rfl _) ks

lemma nests_statementOver (h : Nests (Kind.holds .block) inner) :
    Nests (Kind.holds .block) (statementOver inner) := by
  intro ks
  unfold statementOver
  dsimp only
  split
  next kind body hd =>
    obtain ⟨hstatement, hmodifier⟩ := holds_declaration hd
    have hbody : Nests kind.holds body := nests_declaration (nests_block h) hd fun _ hj _ => hj
    exact nests_nodeFrom (by simp [Kind.holds, hstatement]) (nests_modifiers hmodifier ks) hbody _
  next =>
    split_ifs
    · exact nests_plainStatement h _
    · exact nests_nodeFrom rfl (nests_modifiers rfl ks) (nests_complain _) _

lemma nests_statementWithin (n : Nat) : Nests (Kind.holds .block) (statementWithin n) := by
  induction n with
  | zero => exact nests_skip
  | succ n ih => exact nests_statementOver ih

lemma nests_statement : Nests (Kind.holds .block) statement :=
  fun ks => nests_statementWithin (ks.length + 1) ks

lemma nests_file : Nests (Kind.holds .sourceFile) file := nests_repeatUntil nests_statement

end Grammar

namespace Outline

lemma nested_ofKinds (ks : List Kind) : ∀ o ∈ ofKinds ks, o.Nested (Kind.holds .sourceFile) :=
  Grammar.nests_file ks

end Outline
end LiveEdit
