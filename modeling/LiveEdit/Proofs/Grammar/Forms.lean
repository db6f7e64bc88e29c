import LiveEdit.Proofs.Grammar.Acceptance
import LiveEdit.Proofs.Outline.Forms
import Mathlib.Data.List.Chain
import Mathlib.Data.List.TakeWhile

/-! Every rule of the grammar keeps to the forms of nodes, by induction on how deep a node is. -/

namespace LiveEdit

namespace Grammar
open Outline Rule Option

variable {n : Nat} {ks : List Kind} {inner block : Rule} {k kind : Kind} {first : List Outline}
  {rs : List Rule} {os : List Outline} {r : Rule} {l : Listing}

lemma ne_nil_of_eq (hk : k ≠ .endOfFile) (h : peek ks = k) : ks ≠ [] := by
  rintro rfl
  exact hk h.symm

lemma every_modifiers (ks rest : List Kind) (h : ∀ k ∈ ks, k.isModifierKeyword = true) (n : Nat) :
    Every Formed n (ks.map fun k => .branch .modifier [.leaf k]) rest := by
  induction ks with
  | nil => exact every_nil rest
  | cons k ks ih =>
    have hone : Formed .modifier [.leaf k]
        (leavesAll (ks.map fun k => .branch .modifier [.leaf k]) ++ rest) :=
        ⟨by decide, .inl (by simp [leavesAll, leaves]), k, h k List.mem_cons_self, rfl⟩
    have hfirst : Every Formed n [.branch .modifier [.leaf k]] _ :=
      (every_branch (every_singleton rfl _) hone).mono (Nat.le_succ n)
    exact every_append hfirst (ih fun j hj => h j (List.mem_cons_of_mem k hj))

lemma forms_modifiers : Forms n modifiers :=
  fun _ => every_modifiers _ _ (fun _ hk => List.mem_takeWhile_imp hk) n

lemma forms_name : Forms n name := by
  intro ks
  refine makes_choose (fun hk => ?_) fun _ => makes_complain _ ks
  have hk := beq_iff_eq.1 hk
  refine makes_node_all (fun n => makes_take ks) ?_ n
  cases ks with
  | nil => cases hk
  | cons k ks =>
    obtain rfl : k = .identifier := hk
    exact ⟨by decide, .inl (List.cons_ne_nil _ _), rfl⟩

lemma leaves_name (h : peek ks = .identifier) : leavesAll (name ks).1 ≠ [] :=
  (lossless_name ks).leaves_ne_nil (advances_name h)

lemma makes_typeReference (ks : List Kind) : Makes Formed n (node .typeReference take) ks := by
  refine makes_node_all (fun n => makes_take ks) (formed_plain rfl ?_) n
  cases ks <;> simp [take, leavesAll, leaves]

lemma lossless_typeName :
    Lossless (choose (· == .identifier) (node .typeReference take) (complain .type)) :=
  lossless_choose rfl (ahead_node _ ahead_take) (lossless_complain _)

lemma forms_typeClause : Forms n typeClause := by
  have htype : Forms n (choose (· == .identifier) (node .typeReference take) (complain .type)) :=
    fun ks => makes_choose (fun _ => makes_typeReference ks) fun _ => makes_complain _ ks
  intro ks
  refine makes_option fun _ => Makes.mono (makes_node_take rfl ?_ ks) (Nat.le_succ n)
  simpa using ⟨lossless_typeName, htype⟩

lemma forms_arguments (hl : Lossless inner) (h : Forms n inner) :
    Forms (n + 1) (arguments inner) := by
  intro ks
  refine makes_node_take rfl ?_ ks
  have hclose : Kind.rightParenthesis ≠ .endOfFile := by decide
  simpa using ⟨Listing.lossless_rule hl.ahead hclose,
    Listing.forms_rule hl.ahead hclose fun ls _ => h ls⟩

lemma makes_literal (h : ∀ r ∈ rs, Lossless r ∧ ∀ n, Forms n r) (ks : List Kind) :
    Makes Formed n (node .literalExpression (seq (take :: rs))) ks :=
  Makes.mono (makes_node_take rfl (fun r hr => ⟨(h r hr).1, (h r hr).2 n⟩) ks) (Nat.le_succ n)

lemma forms_atom (hl : Lossless inner) (h : Forms n inner) : Forms (n + 1) (atom inner) := by
  intro ks
  have hone : leavesAll (take ks).1 ≠ [] := by cases ks <;> simp [take, leavesAll, leaves]
  unfold Makes atom
  split
  next hk =>
    have hname : Formed .nameExpression (name ks).1 (name ks).2 := formed_plain rfl (leaves_name hk)
    have hfirst : Makes Formed (n + 1) (node .nameExpression name) ks :=
      makes_node_all (fun n => forms_name ks) hname _
    refine makes_extend hfirst (fun _ => forms_arguments hl h _) (fun hnext => ?_) fun _ =>
      formed_plain rfl ?_
    · exact ahead_arguments hl _ (ne_nil_of_eq (by decide) (beq_iff_eq.1 hnext))
    · rw [leavesAll_append]
      intro hnil
      exact leaves_name hk
        (by simpa [node, nodeFrom, leavesAll, leaves] using (List.append_eq_nil_iff.1 hnil).1)
  next => exact makes_node_all (fun n => makes_take ks) (formed_plain rfl hone) _
  next => exact makes_node_all (fun n => makes_take ks) (formed_plain rfl hone) _
  next =>
    exact makes_literal (by simpa using ⟨lossless_expect (by decide), fun _ => makes_expect _⟩) ks
  next =>
    refine makes_node_take rfl ?_ ks
    simpa using ⟨⟨hl, h⟩, lossless_expect (by decide), makes_expect _⟩
  next => exact makes_complain _ ks

lemma forms_operations {operand : Rule} (hl : Lossless operand) (h : Forms n operand) (m : Nat) :
    Forms n (operations operand m) := by
  induction m with
  | zero => exact makes_skip
  | succ m ih =>
    have hmore : Lossless (seq [operand, operations operand m]) :=
      lossless_seq (by simpa using ⟨hl, lossless_operations hl m⟩)
    have hoperand : Lossless (choose expressionStart.contains (seq [operand, operations operand m])
        (complain .expression)) := lossless_choose rfl hmore.ahead (lossless_complain _)
    intro ks
    refine makes_choose (fun _ => makes_seq_after (makes_take ks) ?_) fun _ => makes_skip ks
    simp only [List.mem_singleton, forall_eq]
    refine ⟨hoperand, fun ls => makes_choose (fun _ => ?_) fun _ => makes_complain _ ls⟩
    exact makes_seq (by simpa using ⟨⟨hl, h⟩, lossless_operations hl m, ih⟩) ls

lemma forms_expressionOver (hl : Lossless inner) (h : Forms n inner) :
    Forms (n + 1) (expressionOver inner) := by
  have hchain : Lossless fun ks => operations (atom inner) ks.length ks :=
    fun ks => lossless_operations (lossless_atom hl) ks.length ks
  intro ks
  refine makes_choose (fun hstart => ?_) fun _ => makes_complain _ ks
  refine makes_extend (forms_atom hl h ks) (fun _ => ?_) (fun _ => hchain _) fun _ =>
    formed_plain rfl ?_
  · exact forms_operations (lossless_atom hl) (forms_atom hl h) _ _
  · rw [leavesAll_append]
    have hatom := (lossless_atom hl ks).leaves_ne_nil (advances_atom hl hstart)
    exact fun hnil => hatom (List.append_eq_nil_iff.1 hnil).1

lemma forms_expression : Forms n expression := by
  induction n with
  | zero => exact fun ks => every_zero _ _
  | succ n ih =>
    rw [expression_over]
    exact forms_expressionOver lossless_expression ih

lemma forms_initializer : Forms n initializer := by
  refine fun ks => makes_option fun _ => makes_seq_after (makes_take ks) ?_
  simpa using ⟨lossless_expression, forms_expression⟩

lemma forms_semicolon : Forms n (option .semicolon take) :=
  fun ks => makes_option fun _ => makes_take ks

lemma weight_variableDeclaration (ks : List Kind) :
    leavesAll (seq [name, typeClause, initializer] ks).1 ≠ [] ∨
    ∃ c, (seq [name, typeClause, initializer] ks).1 = [.fault c] := by
  by_cases hname : peek ks = .identifier
  · exact .inl (leaves_seq_ne_nil (leaves_name hname))
  have hfault : name ks = ([.fault .name], ks) := if_neg (by simpa using hname)
  by_cases htype : peek ks = .colon
  · have hclause : typeClause ks =
        node .typeClause (seq [take, choose (· == .identifier) (node .typeReference take)
        (complain .type)]) ks := if_pos (by simpa using htype)
    have hleaves :=
      leaves_take_ne_nil [choose (· == .identifier) (node .typeReference take) (complain .type)] ks
    refine .inl fun hnil => hleaves ?_
    simp only [seq, hfault, hclause, leavesAll_append, List.append_eq_nil_iff] at hnil
    simpa [node, nodeFrom, leavesAll, leaves, seq] using hnil.2.1
  have hnone : typeClause ks = ([], ks) := if_neg (by simpa using htype)
  by_cases hvalue : peek ks = .equals
  · have hinit : initializer ks = seq [take, expression] ks := if_pos (by simpa using hvalue)
    have hleaves := leaves_take_ne_nil [expression] ks
    refine .inl fun hnil => hleaves ?_
    simp only [seq, hfault, hnone, hinit, leavesAll_append, List.append_eq_nil_iff] at hnil
    simpa [seq] using hnil.2.2.1
  have hbare : initializer ks = ([], ks) := if_neg (by simpa using hvalue)
  exact .inr ⟨.name, by simp [seq, hfault, hnone, hbare, skip]⟩

lemma forms_variableDeclaration : Forms n variableDeclaration := by
  intro ks
  refine makes_node_all (fun n => makes_seq ?_ ks) ⟨by decide, ?_, trivial⟩ n
  · simpa using ⟨⟨lossless_name, forms_name⟩, ⟨lossless_typeClause, forms_typeClause⟩,
      lossless_initializer, forms_initializer⟩
  · exact (weight_variableDeclaration ks).imp_right fun h => ⟨rfl, h⟩

lemma forms_variableDeclarations (m : Nat) : Forms n (variableDeclarations m) := by
  induction m with
  | zero => exact makes_skip
  | succ m ih =>
    have hmore : Lossless (option .comma (seq [take, variableDeclarations m])) := lossless_option
      (by decide) (ahead_seq ahead_take (by simpa using lossless_variableDeclarations m))
    refine makes_seq ?_
    simpa using ⟨⟨lossless_variableDeclaration,
      forms_variableDeclaration⟩, hmore, fun ks => makes_option fun _ =>
      makes_seq_after (makes_take ks) (by simpa using ⟨lossless_variableDeclarations m, ih⟩)⟩

lemma chain_variableDeclarations (k : Kind) (m : Nat) (ks : List Kind) :
    (.leaf k :: (variableDeclarations m ks).1).IsChain fun a b => b.isVariable = true →
    a.isLeaf = true := by
  induction m generalizing k ks with
  | zero => exact .singleton _
  | succ m ih =>
    obtain ⟨os, rest, hone⟩ :
        ∃ os rest, variableDeclaration ks = ([.branch .variableDeclaration os], rest) := ⟨_, _, rfl⟩
    have hfirst : ((.leaf k : Outline).isLeaf) = true := rfl
    simp only [variableDeclarations, seq, hone, List.singleton_append]
    refine .cons_cons (fun _ => hfirst) ?_
    unfold option choose
    split
    next hcomma =>
      obtain ⟨j, ls, rfl⟩ :=
        List.exists_cons_of_ne_nil (ne_nil_of_eq (by decide) (beq_iff_eq.1 hcomma))
      simp only [take, skip, List.singleton_append, List.append_nil]
      exact .cons_cons (fun h => by cases h) (ih j ls)
    next => exact .singleton _

lemma chain_of_none (h : ∀ o ∈ os, o.isVariable = false) :
    os.IsChain fun a b => b.isVariable = true → a.isLeaf = true := by
  induction os with
  | nil => exact .nil
  | cons o os ih =>
    refine (ih fun a ha => h a (List.mem_cons_of_mem o ha)).cons fun a ha hvariable => ?_
    rw [h a (List.mem_cons_of_mem o (List.mem_of_mem_head? ha))] at hvariable
    cases hvariable

lemma no_variable_semicolon (ks : List Kind) :
    ∀ o ∈ (option .semicolon take ks).1, o.isVariable = false := by
  unfold option choose
  split
  · cases ks <;> simp [take, isVariable]
  · simp [skip]

lemma shape_variableStatement {after : List Kind} (hfirst : ∀ o ∈ first, o.isVariable = false)
    (hks : ks ≠ []) : Shape .variableStatement (first ++ (variableStatement ks).1) after := by
  obtain ⟨k, ls, rfl⟩ := List.exists_cons_of_ne_nil hks
  have hbody :
      (variableStatement (k :: ls)).1 = .leaf k :: (variableDeclarations (ls.length + 1) ls).1 ++
      (option .semicolon take (variableDeclarations (ls.length + 1) ls).2).1 := by
    simp [variableStatement, seq, take, skip]
  have hsemicolon := no_variable_semicolon (variableDeclarations (ls.length + 1) ls).2
  have hchain := (chain_variableDeclarations k (ls.length + 1) ls).append (chain_of_none hsemicolon)
    fun a _ b hb hvariable => by
      rw [hsemicolon b (List.mem_of_mem_head? hb)] at hvariable
      cases hvariable
  rw [hbody]
  refine ⟨fun o ho => ?_, (chain_of_none hfirst).append hchain fun a _ b hb hvariable => ?_⟩
  · cases first with
    | nil =>
      obtain rfl := some.inj ho
      rfl
    | cons a first =>
      obtain rfl := some.inj ho
      exact hfirst _ List.mem_cons_self
  · obtain rfl := some.inj hb
    cases hvariable

lemma makes_parameter (h : peek ks = .identifier) :
    Makes Formed n (node .parameter (seq [name, typeClause])) ks := by
  refine makes_node_all (fun n => makes_seq ?_ ks)
    (formed_plain rfl (leaves_seq_ne_nil (leaves_name h))) n
  simpa using ⟨⟨lossless_name, forms_name⟩, lossless_typeClause, forms_typeClause⟩

lemma forms_parameterList : Forms n parameterList := by
  have hahead := lossless_parameter.ahead
  intro ks
  refine Makes.mono (makes_node_take rfl ?_ ks) (Nat.le_succ n)
  simpa using ⟨Listing.lossless_rule hahead (by decide),
    Listing.forms_rule hahead (by decide) fun ls hls => makes_parameter (beq_iff_eq.1 hls)⟩

structure FormsBlock (n : Nat) (block : Rule) : Prop where
  ahead : LosslessAhead block
  forms : ∀ ks, peek ks = .leftCurly → Makes Formed n block ks

lemma forms_signature (h : FormsBlock n block) : Forms n (signature block) := by
  refine makes_seq ?_
  simp only [List.mem_cons, List.not_mem_nil, or_false, forall_eq_or_imp, forall_eq]
  refine ⟨⟨lossless_parameters, fun ks => ?_⟩, ⟨lossless_typeClause, forms_typeClause⟩,
    lossless_body h.ahead, fun ks => ?_⟩
  · exact makes_choose (fun _ => forms_parameterList ks) fun _ => makes_complain _ ks
  · exact makes_choose (fun hk => h.forms ks (beq_iff_eq.1 hk)) fun _ => makes_expect _ ks

lemma makes_after_modifiers (h : Makes Formed n r (modifiers ks).2)
    (hreads : Reads r (modifiers ks).2)
    (hnode : Formed kind ((modifiers ks).1 ++ (r (modifiers ks).2).1) (r (modifiers ks).2).2) :
    Makes Formed (n + 1) (nodeFrom (modifiers ks).1 kind r) (modifiers ks).2 :=
  makes_nodeFrom (forms_modifiers ks) h hreads hnode

lemma leaves_right (h : leavesAll os ≠ []) (first : List Outline) :
    leavesAll (first ++ os) ≠ [] := by
  rw [leavesAll_append]
  exact fun hnil => h (List.append_eq_nil_iff.1 hnil).2

lemma leaves_modifiers_ne_nil (h : (modifiers ks).1.isEmpty = false) (os : List Outline) :
    leavesAll ((modifiers ks).1 ++ os) ≠ [] := by
  rw [leavesAll_append, leaves_modifiers]
  have hne : ks.takeWhile Kind.isModifierKeyword ≠ [] := by simpa [modifiers] using h
  exact fun hnil => hne (List.append_eq_nil_iff.1 hnil).1

lemma forms_classMember (h : FormsBlock n block) : Forms n (classMember block) := by
  have hmethod : Forms n (method block) := makes_seq
    (by simpa using ⟨⟨lossless_name, forms_name⟩, lossless_signature h.ahead, forms_signature h⟩)
  have hproperty : Forms n property :=
    makes_seq (by simpa using ⟨⟨lossless_name, forms_name⟩, ⟨lossless_typeClause, forms_typeClause⟩,
      ⟨lossless_initializer, forms_initializer⟩, lossless_semicolon, forms_semicolon⟩)
  intro ks
  unfold Makes classMember
  dsimp only
  split_ifs with hname hcall hnone
  · exact (makes_after_modifiers (hmethod _) (lossless_method h.ahead _)
      (formed_plain rfl (leaves_right (leaves_seq_ne_nil (leaves_name hname)) _))).mono
      (Nat.le_succ n)
  · exact (makes_after_modifiers (hproperty _) (lossless_property _)
      (formed_plain rfl (leaves_right (leaves_seq_ne_nil (leaves_name hname)) _))).mono
      (Nat.le_succ n)
  · exact forms_recover _ _
  · exact (makes_after_modifiers (makes_complain _ _) (lossless_complain _ _)
      (formed_plain rfl (leaves_modifiers_ne_nil (Bool.eq_false_iff.2 hnone) _))).mono
      (Nat.le_succ n)

lemma mem_repeatUntil {p : Outline → Bool}
    {stop : Kind → Bool} (h : ∀ ks, ∀ o ∈ (r ks).1, p o = true) (ks : List Kind) :
    ∀ o ∈ (repeatUntil stop r ks).1, p o = true := by
  have hwithin : ∀ m ks, ∀ o ∈ (repeatWithin stop r m ks).1, p o = true := by
    intro m
    induction m with
    | zero => exact fun _ _ ho => absurd ho List.not_mem_nil
    | succ m ih =>
      intro ks o ho
      unfold repeatWithin choose at ho
      split at ho
      · cases ho
      · simp only [seq, skip, List.append_nil, List.mem_append] at ho
        exact ho.elim (h ks o) (ih _ o)
  exact hwithin ks.length ks

lemma mem_within (h : ∀ ks, ∀ o ∈ (l.item ks).1, o.isBrace = false) (m : Nat) (ks : List Kind) :
    ∀ o ∈ (l.within m ks).1, o.isBrace = false := by
  induction m generalizing ks with
  | zero => exact fun _ ho => absurd ho List.not_mem_nil
  | succ m ih =>
    intro o ho
    simp only [Listing.within, choose] at ho
    split at ho
    · cases ho
    split at ho
    · simp only [seq, option, choose, skip, List.append_nil, List.mem_append] at ho
      rcases ho with ho | ho
      · exact h ks o ho
      split at ho
      next hcomma =>
        obtain ⟨j, ls, hls⟩ :=
          List.exists_cons_of_ne_nil (ne_nil_of_eq (by decide) (beq_iff_eq.1 hcomma))
        rw [hls] at ho hcomma
        obtain rfl : j = .comma := beq_iff_eq.1 hcomma
        simp only [take, List.singleton_append, List.mem_cons] at ho
        rcases ho with rfl | ho
        · rfl
        · exact ih ls o ho
      next => cases ho
    split at ho
    · cases ho
    · simp only [seq, skip, List.append_nil, List.mem_append] at ho
      rcases ho with ho | ho
      · obtain rfl := List.mem_singleton.1 ho
        rfl
      · exact ih _ o ho

lemma exists_close (ks : List Kind) :
    ∃ close, (expect .rightCurly ks).1 = [close] ∧ close.isClosing = true := by
  unfold expect choose
  split
  next hk =>
    obtain ⟨j, ls, rfl⟩ := List.exists_cons_of_ne_nil (ne_nil_of_eq (by decide) (beq_iff_eq.1 hk))
    exact ⟨_, rfl, hk⟩
  next => exact ⟨_, rfl, rfl⟩

lemma heading_name (ks : List Kind) : ∀ o ∈ (name ks).1, o.isHeading = true := by
  intro o ho
  unfold name choose at ho
  split at ho
  · obtain rfl := List.mem_singleton.1 ho
    rfl
  · obtain rfl := List.mem_singleton.1 ho
    rfl

lemma braced_named {c : Complaint} (hfirst : ∀ o ∈ first, o.isHeading = true)
    (hk : (Outline.leaf k).isHeading = true) (hks : peek ks = k)
    (hne : ks ≠ []) (hlist : ∀ ls, ∃ body close, (seq rs ls).1 = body ++ [close] ∧
      (∀ o ∈ body, o.isBrace = false) ∧ close.isClosing = true) : Braced (first ++
      (seq [take, name, choose (· == .leftCurly) (seq (take :: rs)) (complain c)] ks).1) := by
  obtain ⟨j, ls, rfl⟩ := List.exists_cons_of_ne_nil hne
  obtain rfl : j = k := hks
  have hhead : ∀ o ∈ first ++ .leaf j :: (name ls).1, o.isHeading = true := by
    intro o ho
    rcases List.mem_append.1 ho with ho | ho
    · exact hfirst o ho
    rcases List.mem_cons.1 ho with rfl | ho
    · exact hk
    · exact heading_name ls o ho
  have hseq (r : Rule) :
      (seq [take, name, r] (j :: ls)).1 = .leaf j :: ((name ls).1 ++ (r (name ls).2).1) := by
    simp [seq, take, skip]
  by_cases hopen : (peek (name ls).2 == .leftCurly) = true
  · obtain ⟨i, us, hus⟩ :=
      List.exists_cons_of_ne_nil (ne_nil_of_eq (by decide) (beq_iff_eq.1 hopen))
    obtain ⟨body, close, hbody, hinside, hclosing⟩ := hlist us
    obtain rfl : i = .leftCurly := by simpa [hus, peek] using hopen
    have hbraces : (choose (· == .leftCurly) (seq (take :: rs)) (complain c) (name ls).2).1 =
        .leaf .leftCurly :: (body ++ [close]) := by
      rw [hus, ← hbody]
      rfl
    rw [hseq, hbraces]
    simpa using Braced.list hhead hinside hclosing
  · have hbare : choose (· == .leftCurly) (seq (take :: rs)) (complain c) (name ls).2 =
        ([.fault c], (name ls).2) := if_neg hopen
    refine Braced.bare fun o ho => ?_
    rw [hseq, hbare] at ho
    simp only [List.mem_append, List.mem_cons, List.not_mem_nil, or_false] at ho
    rcases ho with ho | rfl | ho | rfl
    · exact hfirst o ho
    · exact hk
    · exact heading_name ls o ho
    · rfl

lemma isBranch_classMember (ks : List Kind) :
    ∀ o ∈ (classMember block ks).1, o.isBranch = true := by
  intro o ho
  unfold classMember at ho
  dsimp only at ho
  split_ifs at ho <;> obtain rfl := List.mem_singleton.1 ho <;> rfl

lemma not_brace_of_branch {o : Outline} (h : o.isBranch = true) : o.isBrace = false := by
  cases o with
  | leaf | fault => cases h
  | branch => rfl

lemma exists_classBody (ls : List Kind) : ∃ body close,
      (seq [repeatUntil (· == .rightCurly) (classMember block), expect .rightCurly] ls).1 =
      body ++ [close] ∧ (∀ o ∈ body, o.isBrace = false) ∧ close.isClosing = true := by
  obtain ⟨close, hclose, hclosing⟩ :=
    exists_close (repeatUntil (· == .rightCurly) (classMember block) ls).2
  refine ⟨(repeatUntil (· == .rightCurly) (classMember block) ls).1, close, ?_,
    fun o ho => ?_, hclosing⟩
  · simp only [seq, skip, List.append_nil, hclose]
  · exact not_brace_of_branch (mem_repeatUntil isBranch_classMember ls o ho)

lemma exists_enumBody (h : ∀ ks, ∀ o ∈ (l.item ks).1, o.isBrace = false)
    (hl : l.close = .rightCurly) (ls : List Kind) : ∃ body close, (seq [l.rule] ls).1 =
      body ++ [close] ∧ (∀ o ∈ body, o.isBrace = false) ∧ close.isClosing = true := by
  obtain ⟨close, hclose, hclosing⟩ := exists_close (l.within ls.length ls).2
  refine ⟨_, close, ?_, mem_within h ls.length ls, hclosing⟩
  simp only [seq, skip, Listing.rule, List.append_nil, hl, hclose]

lemma makes_enumMember (h : peek ks = .identifier) :
    Makes Formed n (node .enumMember (seq [name, initializer])) ks := by
  refine makes_node_all (fun n => makes_seq ?_ ks)
    (formed_plain rfl (leaves_seq_ne_nil (leaves_name h))) n
  simpa using ⟨⟨lossless_name, forms_name⟩, lossless_initializer, forms_initializer⟩

lemma makes_classDeclaration (h : FormsBlock n block) (ks : List Kind) :
    Makes Formed n (classDeclaration block) ks := by
  have hmembers : Lossless (repeatUntil (· == .rightCurly) (classMember block)) :=
    lossless_repeatUntil (ahead_classMember h.ahead)
  have hbody : LosslessAhead
      (seq [take, repeatUntil (· == .rightCurly) (classMember block), expect .rightCurly]) :=
      ahead_seq ahead_take (by simpa using ⟨hmembers, lossless_expect (by decide)⟩)
  refine makes_seq_after (makes_take ks) ?_
  simp only [List.mem_cons, List.not_mem_nil, or_false, forall_eq_or_imp, forall_eq]
  refine ⟨⟨lossless_name, forms_name⟩, lossless_choose rfl hbody (lossless_complain _),
    fun ls => ?_⟩
  refine makes_choose (fun _ => makes_seq_after (makes_take ls) ?_) fun _ => makes_complain _ ls
  simpa using ⟨⟨hmembers, makes_repeatUntil (ahead_classMember h.ahead) fun us _ =>
    forms_classMember h us⟩, lossless_expect (by decide), makes_expect _⟩

lemma makes_enumDeclaration (ks : List Kind) : Makes Formed n enumDeclaration ks := by
  have hahead := lossless_enumMember.ahead
  refine makes_seq_after (makes_take ks) ?_
  simp only [List.mem_cons, List.not_mem_nil, or_false, forall_eq_or_imp, forall_eq]
  refine ⟨⟨lossless_name, forms_name⟩,
    lossless_choose rfl (ahead_seq ahead_take ?_) (lossless_complain _), fun ls => ?_⟩
  · simpa using Listing.lossless_rule hahead (by decide)
  · refine makes_choose (fun _ => makes_seq_after (makes_take ls) ?_) fun _ => makes_complain _ ls
    simpa using ⟨Listing.lossless_rule hahead (by decide),
      Listing.forms_rule hahead (by decide) fun us hus => makes_enumMember (beq_iff_eq.1 hus)⟩

lemma formed_declaration {body : Rule}
    (h : FormsBlock n block) (hd : declaration? block (peek ks) = some (kind, body))
    (hfirst : ∀ o ∈ first, ∃ os, o = .branch .modifier os) :
    Makes Formed n body ks ∧ Formed kind (first ++ (body ks).1) (body ks).2 := by
  have hne := declaration_ahead hd
  have hheading : ∀ o ∈ first, o.isHeading = true := by
    intro o ho
    obtain ⟨os, rfl⟩ := hfirst o ho
    rfl
  have hweight : leavesAll (first ++ (body ks).1) ≠ [] := by
    obtain ⟨-, rs, rfl⟩ := declaration_reads h.ahead hd
    exact leaves_right (leaves_take_ne_nil rs ks) first
  have hvariables : Makes Formed n variableStatement ks ∧
      Shape .variableStatement (first ++ (variableStatement ks).1) (variableStatement ks).2 := by
    refine ⟨makes_seq_after (makes_take ks) ?_, shape_variableStatement (fun o ho => ?_) hne⟩
    · simpa using ⟨⟨fun ls => lossless_variableDeclarations _ ls,
        fun ls => forms_variableDeclarations _ ls⟩, lossless_semicolon, forms_semicolon⟩
    · obtain ⟨os, rfl⟩ := hfirst o ho
      rfl
  unfold declaration? at hd
  split at hd <;> simp only [Option.some.injEq, Prod.mk.injEq, reduceCtorEq]
    at hd <;> obtain ⟨rfl, rfl⟩ := hd
  · exact ⟨hvariables.1, by decide, .inl hweight, hvariables.2⟩
  · exact ⟨hvariables.1, by decide, .inl hweight, hvariables.2⟩
  · exact ⟨hvariables.1, by decide, .inl hweight, hvariables.2⟩
  · refine ⟨makes_seq_after (makes_take ks) ?_, formed_plain rfl hweight⟩
    simpa using ⟨⟨lossless_name, forms_name⟩, lossless_signature h.ahead, forms_signature h⟩
  next hk => exact ⟨makes_classDeclaration h ks, by decide, .inl hweight,
      braced_named hheading rfl hk hne exists_classBody⟩
  next hk =>
    refine ⟨makes_enumDeclaration ks, by decide, .inl hweight, braced_named hheading rfl hk hne ?_⟩
    refine exists_enumBody (fun ls o ho => ?_) rfl
    obtain rfl := List.mem_singleton.1 ho
    rfl
  · refine ⟨makes_seq_after (makes_take ks) ?_, formed_plain rfl hweight⟩
    simp only [List.mem_cons, List.not_mem_nil, or_false, forall_eq_or_imp, forall_eq]
    refine ⟨⟨lossless_name, forms_name⟩, lossless_choose rfl h.ahead (lossless_complain _),
      fun ls => ?_⟩
    exact makes_choose (fun hk => h.forms ls (beq_iff_eq.1 hk)) fun _ => makes_complain _ ls

lemma isBranch_statement (ks : List Kind) : ∀ o ∈ (statement ks).1, o.isBranch = true := by
  intro o ho
  rw [statement_eq] at ho
  unfold statementOver at ho
  dsimp only at ho
  split at ho
  · obtain rfl := List.mem_singleton.1 ho
    rfl
  split_ifs at ho
  · unfold plainStatement at ho
    split at ho
    · obtain rfl := List.mem_singleton.1 ho
      rfl
    · obtain rfl := List.mem_singleton.1 ho
      rfl
    · obtain rfl := List.mem_singleton.1 ho
      rfl
    · unfold choose at ho
      split at ho <;> obtain rfl := List.mem_singleton.1 ho <;> rfl
  · obtain rfl := List.mem_singleton.1 ho
    rfl

lemma formsBlock (h : Forms n statement) : FormsBlock (n + 1) (Grammar.block statement) := by
  refine ⟨lossless_statementBlock.ahead, fun ks hks => ?_⟩
  have hstatements : Lossless (repeatUntil (· == .rightCurly) statement) :=
    lossless_repeatUntil ahead_statement
  refine makes_node (makes_seq ?_ ks) ?_
  · simpa using ⟨⟨lossless_expect (by decide), makes_expect _⟩, ⟨hstatements,
      makes_repeatUntil ahead_statement fun us _ => h us⟩, lossless_expect (by decide),
      makes_expect _⟩
  obtain ⟨k, ls, rfl⟩ := List.exists_cons_of_ne_nil (ne_nil_of_eq (by decide) hks)
  obtain rfl : k = .leftCurly := hks
  have hopen : expect .leftCurly (.leftCurly :: ls) = ([.leaf .leftCurly], ls) := rfl
  obtain ⟨body, rest, hbody⟩ :
      ∃ body rest, repeatUntil (· == .rightCurly) statement ls = (body, rest) := ⟨_, _, rfl⟩
  have hnodes : ∀ o ∈ (repeatUntil (· == .rightCurly) statement ls).1, o.isBranch = true :=
    mem_repeatUntil isBranch_statement ls
  have hend : peek (repeatWithin (· == .rightCurly) statement ls.length ls).2 = .endOfFile ∨
      (peek (repeatWithin (· == .rightCurly) statement ls.length ls).2 == .rightCurly) = true :=
    peek_repeatWithin (fun us hus => advances_statement hus) ls.length ls le_rfl
  rw [hbody] at hnodes
  rw [show repeatWithin (· == .rightCurly) statement ls.length ls = _ from hbody] at hend
  simp only [seq, hopen, hbody, skip, List.append_nil, List.singleton_append]
  refine ⟨by decide, .inl (by simp [leavesAll, leaves]), body, ?_⟩
  unfold expect choose
  split
  next hclose =>
    obtain ⟨j, us, rfl⟩ :=
      List.exists_cons_of_ne_nil (ne_nil_of_eq (by decide) (beq_iff_eq.1 hclose))
    obtain rfl : j = .rightCurly := beq_iff_eq.1 hclose
    exact ⟨_, rfl, hnodes, .inl rfl⟩
  next hclose => exact ⟨_, rfl, hnodes, .inr ⟨rfl, hend.resolve_right hclose⟩⟩

lemma forms_consequence (h : Forms n statement) : Forms n (consequence statement) :=
  fun ks => makes_choose (fun _ => makes_complain _ ks) fun _ => h ks

lemma forms_plainStatement (h : Forms n statement) : Forms (n + 1) (plainStatement statement) := by
  intro ks
  unfold Makes plainStatement
  split
  next hk => exact (formsBlock h).forms ks hk
  next =>
    refine Makes.mono (makes_node_take (n := n + 1) rfl ?_ ks) (Nat.le_succ _)
    simp only [List.mem_cons, List.not_mem_nil, or_false, forall_eq_or_imp, forall_eq]
    refine ⟨⟨lossless_value, fun ls => ?_⟩, lossless_semicolon, forms_semicolon⟩
    exact makes_choose (fun _ => forms_expression ls) fun _ => makes_skip ls
  next =>
    have hthen := lossless_consequence ahead_statement
    refine makes_node_take rfl ?_ ks
    simp only [List.mem_cons, List.not_mem_nil, or_false, forall_eq_or_imp, forall_eq]
    refine ⟨⟨lossless_expect (by decide), makes_expect _⟩, ⟨lossless_expression, forms_expression⟩,
      ⟨lossless_expect (by decide), makes_expect _⟩, ⟨hthen, forms_consequence h⟩,
      lossless_else ahead_statement, fun ls => ?_⟩
    exact makes_option fun _ =>
      makes_seq_after (makes_take ls) (by simpa using ⟨hthen, forms_consequence h⟩)
  next =>
    refine makes_choose (fun hstart =>
      makes_node_all (fun m => makes_seq ?_ ks) (formed_plain rfl ?_) _) fun _ => forms_recover _ ks
    · simpa using ⟨⟨lossless_expression, forms_expression⟩, lossless_semicolon, forms_semicolon⟩
    · exact leaves_seq_ne_nil ((lossless_expression ks).leaves_ne_nil (advances_expression hstart))

lemma forms_statementOver (h : Forms n statement) : Forms (n + 1) (statementOver statement) := by
  intro ks
  unfold Makes statementOver
  dsimp only
  split
  next kind body hd =>
    have hmodifiers : ∀ o ∈ (modifiers ks).1, ∃ os, o = .branch .modifier os := by
      intro o ho
      obtain ⟨k, -, rfl⟩ := List.mem_map.1 ho
      exact ⟨_, rfl⟩
    obtain ⟨hbody, hnode⟩ := formed_declaration (formsBlock h) hd hmodifiers
    have hreads := (declaration_reads lossless_statementBlock.ahead hd).1 _ (declaration_ahead hd)
    exact (makes_after_modifiers hbody hreads hnode).mono (Nat.le_succ _)
  next =>
    split_ifs with hnone
    · exact forms_plainStatement h _
    · exact makes_after_modifiers (makes_complain _ _) (lossless_complain _ _)
        (formed_plain rfl (leaves_modifiers_ne_nil (Bool.eq_false_iff.2 hnone) _))

lemma forms_statement : Forms n statement := by
  induction n with
  | zero => exact fun ks => every_zero _ _
  | succ n ih =>
    rw [statement_over]
    exact forms_statementOver ih

lemma forms_file : Forms n file := makes_repeatUntil ahead_statement fun ks _ => forms_statement ks

end Grammar

open List

namespace Outline

variable {os : List Outline} {k : Kind} {o : Outline}

lemma formed_ofKinds {ks : List Kind} (h : .endOfFile ∉ ks) {P : Place} {parts : List Outline}
    (hput : ofKinds ks = P.put (.branch k parts)) : Formed k parts (leavesAll P.after) := by
  have hformed := Grammar.forms_file ks P k parts (Nat.lt_succ_self _) hput
  rwa [Grammar.file_rest h, append_nil] at hformed

lemma isBranch_ofKinds (ks : List Kind) : ∀ o ∈ ofKinds ks, o.isBranch = true :=
  Grammar.mem_repeatUntil Grammar.isBranch_statement ks

inductive Solid : Outline → Prop where
  | leaf (k : Kind) : Solid (.leaf k)
  | fault (c : Complaint) : Solid (.fault c)
  | branch {k : Kind} {os : List Outline} (parts : ∀ o ∈ os, Solid o) (ne : os ≠ [])
      (kind : k ≠ .sourceFile) : Solid (.branch k os)

lemma faultsAll_eq_nil : faultsAll os = [] ↔ ∀ o ∈ os, o.faults = [] := by
  induction os with
  | nil => simp [faultsAll]
  | cons o os ih => simp [faultsAll, ih]

lemma leavesAll_ne_nil (hne : os ≠ []) (h : ∀ o ∈ os, o.leaves ≠ []) : leavesAll os ≠ [] := by
  cases os with
  | nil => exact absurd rfl hne
  | cons o os =>
    have hfirst := h o mem_cons_self
    simp [leavesAll, hfirst]

lemma Solid.leaves_ne_nil (h : o.Solid) (hf : o.faults = []) : o.leaves ≠ [] := by
  induction h with
  | leaf k => exact cons_ne_nil _ _
  | fault c => cases hf
  | branch _ ne _ ih =>
    have hparts := faultsAll_eq_nil.1 hf
    exact leavesAll_ne_nil ne fun o ho => ih o ho (hparts o ho)

lemma Formed.ne_nil {after : List Kind} (h : Formed k os after) : os ≠ [] := by
  rintro rfl
  rcases h.weight with hleaves | ⟨-, c, hnil⟩
  · exact hleaves rfl
  · cases hnil

lemma holds_sourceFile (k : Kind) : k.holds .sourceFile = false := by
  cases k <;> rfl

lemma Nested.solid {S : Kind → Bool} (h : o.Nested S) (hS : S .sourceFile = false)
    (hne : ∀ (P : Place) (k : Kind) (parts : List Outline), [o] = P.put (.branch k parts) →
      parts ≠ []) : o.Solid := by
  induction h with
  | leaf S k => exact .leaf k
  | fault S c => exact .fault c
  | @branch S k os kind parts ih =>
    refine .branch (fun p hp => ih p hp (holds_sourceFile k) fun P j us hput => ?_)
      (hne (.here [] []) k os rfl) ?_
    · obtain ⟨as, bs, rfl⟩ := append_of_mem hp
      exact hne (.inside [] k ((P.behind as).ahead bs) []) j us (by simp [Place.put, ← hput])
    · rintro rfl
      exact Bool.false_ne_true (hS.symm.trans kind)

end Outline

lemma Grammar.solid_file (ks : List Kind) : ∀ o ∈ (file ks).1, o.Solid := by
  intro o ho
  refine (nests_file ks o ho).solid rfl fun P k parts hput => ?_
  obtain ⟨as, bs, hsplit⟩ := append_of_mem ho
  have hfile :
      (file ks).1 = ((P.behind as).ahead bs).put (.branch k parts) := by simp [hsplit, ← hput]
  exact (forms_file ks _ k parts (Nat.lt_succ_self _) hfile).ne_nil

lemma Outline.solid_ofKinds (ks : List Kind) : ∀ o ∈ ofKinds ks, o.Solid := Grammar.solid_file ks

end LiveEdit
