import LiveEdit.Proofs.Grammar.Openings

/-! Every rule of the grammar is stable, so a file is read as before up to a list that is exchanged.
-/

namespace LiveEdit.Grammar
open Outline Rule List

variable {inner block body : Rule} {rs : List Rule} {os os' : List Outline}
  {rest ks ls : List Kind} {k kind : Kind} {n : Nat} {ms : List Kind} {bs : List Outline}

def ported : List Kind :=
  [.block, .parameterList, .argumentList, .variableStatement, .classDeclaration, .enumDeclaration]

lemma no_port (h : kind ∉ ported) (s : Rule) : ¬ Port kind s := by
  intro hs
  cases hs <;> exact h (by decide)

lemma stable_name : Stable name := fun n =>
  stableTo_choose (stable_node (no_port (by decide)) (stable_take n)) (stable_complain _ n)

lemma stable_node_take (h : kind ∉ ported) (hs : StableTo n (seq rs)) :
    StableTo n (node kind (seq (take :: rs))) :=
  stable_node (no_port h) (stableTo_take_seq hs)

lemma stable_typeClause : Stable typeClause := by
  intro n
  have htype : StableTo n (choose (· == .identifier) (node .typeReference take) (complain .type)) :=
    stableTo_choose (stable_node (no_port (by decide)) (stable_take n)) (stable_complain _ n)
  exact stable_option (stable_node_take (by decide) (stableTo_seq_one htype))

lemma stable_arguments (h : StableTo n expression) :
    StableTo (n + 1) (option .leftParenthesis (arguments expression)) := by
  have hlist := Listing.stable_rule (l := argumentItems) lossless_expression rfl h
  refine stableTo_choose_node (fun s hs => ?_)
    (stableTo_take_seq (stableTo_seq_one hlist)) (stable_skip _)
  cases hs
  rfl

lemma stable_atom (h : StableTo n expression) : StableTo (n + 1) (atom expression) := by
  have hname : StableTo (n + 1) (node .nameExpression name) :=
    stable_node (no_port (by decide)) (stable_name _)
  have hcall : StableTo (n + 1) (extend .callExpression (node .nameExpression name)
      (· == .leftParenthesis) (arguments expression)) := by
    rw [extend_choose]
    exact stable_extend (no_port (by decide)) (lossless_node _ lossless_name).frugal hname
      (stable_arguments h)
  have hliteral : StableTo (n + 1) (node .literalExpression take) :=
    stable_node (no_port (by decide)) (stable_take _)
  have hminus : StableTo (n + 1) (node .literalExpression (seq [take, expect .number])) :=
    stable_node_take (by decide) (stableTo_seq_one (stable_expect _ _))
  have hparenthesized : StableTo (n + 1) (node .parenthesizedExpression
      (seq [take, expression, expect .rightParenthesis])) :=
    stableTo_node (fun s hs => absurd hs (no_port (by decide) s)) (stableTo_take_seq
      (stableTo_seq_cons lossless_expression.frugal h (stableTo_seq_one (stable_expect _ n))))
  refine stableTo_dispatch fun k => ?_
  cases k
  case identifier => exact ⟨_, hcall, fun ks hk => by rw [atom, hk]⟩
  case number => exact ⟨_, hliteral, fun ks hk => by rw [atom, hk]⟩
  case string => exact ⟨_, hliteral, fun ks hk => by rw [atom, hk]⟩
  case minus => exact ⟨_, hminus, fun ks hk => by rw [atom, hk]⟩
  case leftParenthesis => exact ⟨_, hparenthesized, fun ks hk => by rw [atom, hk]⟩
  all_goals exact ⟨_, stable_complain _ _, fun ks hk => by rw [atom, hk]⟩

lemma stable_operations {operand : Rule} (hl : Lossless operand) (h : StableTo n operand) :
    StableTo n fun ks => operations operand ks.length ks := by
  refine stableTo_of_rounds (f := operations operand) (fun m ks hks => ?_) fun m => ?_
  · exact agree_operations hl ks.length (.refl _ _) hks (Nat.le_refl _) ks (Nat.le_refl _)
  · induction m with
    | zero => exact stable_skip n
    | succ m ih =>
      have hmore : StableTo n (choose expressionStart.contains
          (seq [operand, operations operand m]) (complain .expression)) :=
        stableTo_choose (stableTo_seq_cons hl.frugal h (stableTo_seq_one ih)) (stable_complain _ n)
      exact stableTo_choose (stableTo_take_seq (stableTo_seq_one hmore)) (stable_skip n)

lemma stable_expression : Stable expression := by
  intro n
  induction n with
  | zero => exact fun os rest os' hd => absurd hd (Nat.not_lt_zero _)
  | succ n ih =>
    have hatom := stable_atom ih
    have hlossless := lossless_atom lossless_expression
    rw [expression_over]
    exact stableTo_choose (stable_extend (no_port (by decide)) hlossless.frugal hatom
      (stable_operations hlossless hatom)) (stable_complain _ _)

lemma stable_initializer : Stable initializer := fun n =>
  stable_option (stableTo_take_seq (stableTo_seq_one (stable_expression n)))

lemma stable_semicolon : Stable (option .semicolon take) := fun n => stable_option (stable_take n)

lemma stable_node_name (h : kind ∉ ported) (hs : StableTo n (seq rs)) :
    StableTo n (node kind (seq (name :: rs))) :=
  stable_node (no_port h) (stableTo_seq_cons lossless_name.frugal (stable_name n) hs)

lemma stable_typed (hs : StableTo n (seq rs)) : StableTo n (seq (typeClause :: rs)) :=
  stableTo_seq_cons lossless_typeClause.frugal (stable_typeClause n) hs

lemma stable_variableDeclaration : Stable variableDeclaration := fun n =>
  stable_node_name (by decide) (stable_typed (stableTo_seq_one (stable_initializer n)))

lemma stable_variableDeclarations : Stable fun ks => variableDeclarations (ks.length + 1) ks := by
  intro n
  refine stableTo_of_rounds (f := fun m => variableDeclarations (m + 1)) (fun m ks hks => ?_)
    fun m => ?_
  · exact agree_variableDeclarations ks.length hks (Nat.le_refl _) ks (Nat.le_refl _)
  · have hall : ∀ m, StableTo n (variableDeclarations m) := by
      intro m
      induction m with
      | zero => exact stable_skip n
      | succ m ih =>
        have hmore : StableTo n (option .comma (seq [take, variableDeclarations m])) :=
          stable_option (stableTo_take_seq (stableTo_seq_one ih))
        exact stableTo_seq_cons lossless_variableDeclaration.frugal (stable_variableDeclaration n)
          (stableTo_seq_one hmore)
    exact hall (m + 1)

lemma frugal_variableDeclarations : Frugal fun ks => variableDeclarations (ks.length + 1) ks :=
  Lossless.frugal fun ks => lossless_variableDeclarations _ ks

lemma stable_variableStatement : Stable variableStatement := fun n =>
  stableTo_take_seq (stableTo_seq_cons frugal_variableDeclarations
    (stable_variableDeclarations n) (stableTo_seq_one (stable_semicolon n)))

lemma stable_parameter : Stable parameter := fun n =>
  stable_node_name (by decide) (stableTo_seq_one (stable_typeClause n))

lemma stable_parameters :
    Stable (choose (· == .leftParenthesis) parameterList (complain .parameterList)) := by
  intro n
  have hlist := Listing.stable_rule (l := parameters) lossless_parameter rfl (stable_parameter n)
  refine (stableTo_choose_node (fun s hs => ?_) (stableTo_take_seq
    (stableTo_seq_one hlist)) (stable_complain _ _)).mono (Nat.le_succ n)
  cases hs
  rfl

lemma stable_signature (h : StableTo n block) : StableTo n (signature block) :=
  stableTo_seq_cons lossless_parameters.frugal (stable_parameters n)
    (stable_typed (stableTo_seq_one (stableTo_choose h (stable_expect _ n))))

lemma stable_property_tail :
    Stable (seq [typeClause, initializer, option .semicolon take]) := fun n =>
  stable_typed (stableTo_seq_cons lossless_initializer.frugal (stable_initializer n)
    (stableTo_seq_one (stable_semicolon n)))

lemma alike_of_leaf {o : Outline} (hk : kind ∉ ported) (h : Alike (.branch kind [.leaf k]) o) :
    o = .branch kind [.leaf k] := by
  cases h with
  | same => rfl
  | parts hparts =>
    obtain ⟨l, rfl, hl⟩ := alike_singleton hparts
    rw [hl.of_leaf]
  | exchange port => exact absurd port (no_port hk _)

lemma alike_modified (h : List.Forall₂ Alike (modified ms) os) : os = modified ms := by
  induction ms generalizing os with
  | nil => exact forall₂_nil_left_iff.1 h
  | cons k ms ih =>
    obtain ⟨o, ps, ho, hps, rfl⟩ := forall₂_cons_left_iff.1 h
    rw [ih hps, alike_of_leaf (by decide) ho]
    rfl

lemma alike_node (h : List.Forall₂ Alike [.branch kind (modified ms ++ bs)] os') :
    (∃ bs', os' = [.branch kind (modified ms ++ bs')] ∧ List.Forall₂ Alike bs bs') ∨
    ∃ s, Port kind s ∧ ∀ rest, Gives s [.branch kind (modified ms ++ bs)] rest →
    Replaces s [.branch kind (modified ms ++ bs)] os' rest := by
  obtain ⟨o, rfl, ho⟩ := alike_singleton h
  cases ho with
  | same => exact .inl ⟨bs, rfl, alike_refl bs⟩
  | parts hparts =>
    obtain ⟨ms', bs', rfl, hms, hbs⟩ := alike_append hparts
    obtain rfl := alike_modified hms
    exact .inl ⟨bs', rfl, hbs⟩
  | exchange port hexchange => exact .inr ⟨_, port, hexchange⟩

lemma alike_member {qs : List Outline} (hk : kind ∉ ported)
    (h : List.Forall₂ Alike [.branch kind (modified ms ++ named :: qs)] os') :
    ∃ qs', os' = [.branch kind (modified ms ++ named :: qs')] ∧ List.Forall₂ Alike qs qs' := by
  obtain ⟨bs, rfl, hbs⟩ := (alike_node h).resolve_right fun ⟨s, hs, _⟩ => no_port hk s hs
  obtain ⟨o, qs', ho, hqs, rfl⟩ := forall₂_cons_left_iff.1 hbs
  rw [alike_of_leaf (by decide) ho]
  exact ⟨qs', rfl, hqs⟩

lemma alike_error {c : Complaint}
    (h : List.Forall₂ Alike [.branch .error (modified ms ++ [.fault c])] os') :
    os' = [.branch .error (modified ms ++ [.fault c])] := by
  obtain ⟨bs, rfl, hbs⟩ := (alike_node h).resolve_right fun ⟨s, hs, _⟩ => no_port (by decide) s hs
  obtain ⟨o, rfl, ho⟩ := alike_singleton hbs
  rw [ho.of_fault]

lemma head_modified {bs' : List Outline} (h : (leavesAll bs').head? = (leavesAll bs).head?) :
    (leavesAll [.branch kind (modified ms ++ bs')]).head? =
      (leavesAll [.branch kind (modified ms ++ bs)]).head? := by
  simp only [leavesAll, leaves, leavesAll_append, append_nil, List.head?_append, h]

lemma stable_classMember (h : StableTo n block) : StableTo n (classMember block) := by
  have htail : StableTo n (seq [signature block]) := stableTo_seq_one (stable_signature h)
  intro os rest os' hd hg hos
  obtain ⟨ms, qs, hms, ⟨rfl, hnext, hqs⟩ | ⟨rfl, hnext, hqs⟩⟩ |
    ⟨ms, rfl, hname, hnext, hms, hfirst⟩ | ⟨hstray, hfirst, hname⟩ := classMember_cases hg
  · obtain ⟨qs', rfl, hqs'⟩ := alike_member (by decide) hos
    simp only [depthAll, depth, depthAll_append] at hd
    have hreplaces := htail qs rest qs' (by omega) hqs hqs'
    refine ⟨head_modified rfl, fun rest' hrest => ?_⟩
    exact gives_classMethod hms ((peek_append hreplaces.head hrest).trans hnext)
      (hreplaces.gives rest' hrest)
  · obtain ⟨qs', rfl, hqs'⟩ := alike_member (by decide) hos
    simp only [depthAll, depth, depthAll_append] at hd
    have hreplaces := stable_property_tail n qs rest qs' (by omega) hqs hqs'
    refine ⟨head_modified rfl, fun rest' hrest => ?_⟩
    exact gives_classProperty hms (by rwa [peek_append hreplaces.head hrest])
      (hreplaces.gives rest' hrest)
  · obtain rfl := alike_error hos
    refine ⟨rfl, fun rest' hrest => ?_⟩
    exact gives_nameless hms (by rwa [hrest]) (by rwa [hrest]) (by rwa [peek_append rfl hrest])
  · have hreplaces := stable_recover _ n os rest os' hd hstray hos
    refine ⟨hreplaces.head, fun rest' hrest => ?_⟩
    rw [← peek_append hreplaces.head hrest] at hfirst hname
    exact (classMember_stray (by rwa [modifiers_eq hfirst]) hfirst).trans
      (hreplaces.gives rest' hrest)

lemma stable_named (hs : StableTo n (seq rs)) : StableTo n (seq (take :: name :: rs)) :=
  stableTo_take_seq (stableTo_seq_cons lossless_name.frugal (stable_name n) hs)

lemma stable_classMembers (hl : Lossless block) (h : StableTo n block) :
    StableTo n (repeatUntil (· == .rightCurly) (classMember block)) :=
  stable_repeatUntil ⟨ahead_classMember hl.ahead, rfl⟩
    (fun _ hks => advances_classMember hl.ahead hks) (stable_classMember h)

lemma frugal_classMembers (hl : Lossless block) :
    Frugal (repeatUntil (· == .rightCurly) (classMember block)) :=
  Lossless.frugal (lossless_repeatUntil (ahead_classMember hl.ahead))

lemma stable_classDeclaration (hl : Lossless block) (h : StableTo n block) :
    StableTo n (classDeclaration block) := by
  have hbody : StableTo n (choose (· == .leftCurly)
      (seq [take, repeatUntil (· == .rightCurly) (classMember block), expect .rightCurly])
      (complain .classBody)) :=
    stableTo_choose (stableTo_take_seq (stableTo_seq_cons (frugal_classMembers hl)
      (stable_classMembers hl h) (stableTo_seq_one (stable_expect _ n)))) (stable_complain _ n)
  exact stable_named (stableTo_seq_one hbody)

lemma stable_enumMember : Stable enumMember := fun n =>
  stable_node_name (by decide) (stableTo_seq_one (stable_initializer n))

lemma stable_enumDeclaration : Stable enumDeclaration := by
  intro n
  have hlist := Listing.stable_rule (l := enumMembers) lossless_enumMember rfl (stable_enumMember n)
  refine stable_named (stableTo_seq_one (stableTo_choose ?_ (stable_complain _ n)))
  exact stableTo_take_seq (stableTo_seq_one hlist)

lemma stable_declaration (hl : Lossless block)
    (h : StableTo n block) (hd : declaration? block k = some (kind, body)) :
    StableTo n body ∧ ∀ s, Port kind s → s = statement := by
  refine ⟨?_, fun s hs => by cases declares hd <;> cases hs <;> rfl⟩
  cases declares hd with
  | binding => exact stable_variableStatement n
  | function => exact stable_named (stableTo_seq_one (stable_signature h))
  | members => exact stable_classDeclaration hl h
  | enum => exact stable_enumDeclaration n
  | space => exact stable_named (stableTo_seq_one (stableTo_choose h (stable_complain _ n)))

lemma frugal_statement : Frugal statement := ⟨ahead_statement, rfl⟩

lemma stableTo_statements (stop : Kind → Bool) (h : StableTo n statement) :
    StableTo n (repeatUntil stop statement) :=
  stable_repeatUntil frugal_statement (fun _ hks => advances_statement hks) h

lemma stable_block (h : StableTo n statement) : StableTo (n + 1) (Grammar.block statement) := by
  have hparts : StableTo n (repeatUntil (· == .rightCurly) statement) := stableTo_statements _ h
  refine stableTo_node (fun s hs => ?_) (stableTo_seq_cons (lossless_expect (by decide)).frugal
    (stable_expect _ n) (stableTo_seq_cons (lossless_repeatUntil ahead_statement).frugal hparts
      (stableTo_seq_one (stable_expect _ n))))
  cases hs
  rfl

lemma stable_consequence (h : StableTo n inner) : StableTo n (consequence inner) :=
  stableTo_choose (stable_complain _ n) h

lemma stable_ifStatement (hl : LosslessAhead inner) (h : StableTo n inner) :
    StableTo (n + 1) (ifStatement inner) := by
  have helse : StableTo n (option .elseKeyword (seq [take, consequence inner])) :=
    stable_option (stableTo_take_seq (stableTo_seq_one (stable_consequence h)))
  exact stableTo_node (fun s hs => absurd hs (no_port (by decide) s)) (stableTo_take_seq
    (stableTo_seq_cons (lossless_expect (by decide)).frugal (stable_expect _ n)
      (stableTo_seq_cons lossless_expression.frugal (stable_expression n) (stableTo_seq_cons
        (lossless_expect (by decide)).frugal (stable_expect _ n) (stableTo_seq_cons
          (lossless_consequence hl).frugal (stable_consequence h) (stableTo_seq_one helse))))))

lemma stable_value : Stable (choose expressionStart.contains expression skip) := fun n =>
  stableTo_choose (stable_expression n) (stable_skip n)

lemma stable_returnStatement : Stable returnStatement := fun n =>
  stable_node_take (by decide) (stableTo_seq_cons lossless_value.frugal (stable_value n)
    (stableTo_seq_one (stable_semicolon n)))

lemma stable_expressionStatement : Stable expressionStatement := fun n =>
  stable_node (no_port (by decide))
  (stableTo_seq_cons lossless_expression.frugal (stable_expression n)
    (stableTo_seq_one (stable_semicolon n)))

lemma stable_plainStatement (h : StableTo n statement) :
    StableTo (n + 1) (plainStatement statement) := by
  have hexpression : StableTo (n + 1) (choose expressionStart.contains expressionStatement
      (recover .unexpectedToken)) :=
    stableTo_choose (stable_expressionStatement _) (stable_recover _ _)
  refine stableTo_dispatch fun k => ?_
  cases k
  case leftCurly => exact ⟨_, stable_block h, fun ks hk => by rw [plainStatement, hk]⟩
  case returnKeyword => exact ⟨_, stable_returnStatement _, fun ks hk => by rw [plainStatement, hk]⟩
  case ifKeyword =>
    exact ⟨_, stable_ifStatement ahead_statement h, fun ks hk => by rw [plainStatement, hk]⟩
  all_goals exact ⟨_, hexpression, fun ks hk => by rw [plainStatement, hk]⟩

lemma stable_statementOver (h : StableTo n statement) :
    StableTo (n + 1) (statementOver statement) := by
  intro os rest os' hdepth hg hos
  obtain ⟨ms, bs, kind, body, rfl, hms, hd, hbs⟩ | ⟨ms, rfl, hnext, hd, hms, hfirst⟩ |
    ⟨hplain, hfirst, hd⟩ := statementOver_cases hg
  · obtain ⟨hbody, hport⟩ := stable_declaration lossless_statementBlock (stable_block h) hd
    rcases alike_node hos with ⟨bs', rfl, hbs'⟩ | ⟨s, hs, hexchange⟩
    · simp only [depthAll, depth, depthAll_append] at hdepth
      have hreplaces := hbody bs rest bs' (by omega) hbs hbs'
      refine ⟨head_modified hreplaces.head, fun rest' hrest => ?_⟩
      exact gives_modified_declaration hms (by rwa [peek_append hreplaces.head hrest])
        (hreplaces.gives rest' hrest)
    · obtain rfl : s = statementOver statement := (hport s hs).trans statement_over
      exact hexchange rest hg
  · obtain rfl := alike_error hos
    refine ⟨rfl, fun rest' hrest => ?_⟩
    exact gives_stray hms (by rwa [hrest]) (by rwa [hrest]) (by rwa [peek_append rfl hrest])
  · have hreplaces := stable_plainStatement h os rest os' hdepth hplain hos
    refine ⟨hreplaces.head, fun rest' hrest => ?_⟩
    rw [← peek_append hreplaces.head hrest] at hfirst hd
    exact (statementOver_plain hd hfirst).trans (hreplaces.gives rest' hrest)

lemma stable_statement : Stable statement := by
  intro n
  induction n with
  | zero => exact fun os rest os' hd => absurd hd (Nat.not_lt_zero _)
  | succ n ih =>
    rw [statement_over]
    exact stable_statementOver ih

lemma stable_statements (stop : Kind → Bool) : Stable (repeatUntil stop statement) :=
  fun n => stableTo_statements stop (stable_statement n)

lemma stable_file : Stable file := stable_statements _

end LiveEdit.Grammar
