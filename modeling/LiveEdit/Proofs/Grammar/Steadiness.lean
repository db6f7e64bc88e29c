import LiveEdit.Proofs.Grammar.Items
import LiveEdit.Proofs.Outline.Steadiness

/-! A statement leaves alone what starts a declaration, and a class member what starts the next one.
-/

namespace LiveEdit

namespace Rule
open Outline Grammar

variable {r : Rule} {m : Bool} {n : Nat}

lemma steadyTo_dispatch (h : ∀ k, ∃ s, SteadyTo m n s ∧ ∀ ks, peek ks = k → r ks = s ks)
    (hnil : ∀ os rest rest', Gives r os rest → leavesAll os = [] →
      Gap m (lacksWordAll os) (peek rest) (peek rest') → Gives r os rest') : SteadyTo m n r := by
  intro os rest rest' hd hg hgap
  by_cases hempty : leavesAll os = []
  · exact hnil os rest rest' hg hempty hgap
  · obtain ⟨s, hs, hsame⟩ := h (peek (leavesAll os ++ rest))
    have hpeek := peek_append_of_ne hempty rest' rest
    unfold Gives
    rw [hsame _ hpeek]
    exact hs os rest rest' hd ((hsame _ rfl).symm.trans hg) hgap

end Rule

namespace Grammar
open Outline Rule

variable {m : Bool} {n : Nat} {os : List Outline} {rest rest' ks : List Kind} {block body : Rule}
  {kind k : Kind} {rs : List Rule}

lemma steady_name : Steady m name := fun n =>
  steadyTo_word rfl (by decide)
  (fun ks hks => advances_take (ne_nil_of_peek (p := (· == .identifier)) hks rfl))
    (steady_node (steady_take n))

lemma steady_typeClause : Steady m typeClause := by
  intro n
  have htype : SteadyTo m n (choose (· == .identifier) (node .typeReference take)
      (complain .type)) := steadyTo_word rfl (by decide) (fun ks hks => advances_take
        (ne_nil_of_peek (p := (· == .identifier)) hks rfl)) (steady_node (steady_take n))
  exact steadyTo_option (by decide) (steady_node (steadyTo_take_seq (steadyTo_seq_one htype)))

lemma steady_arguments (h : SteadyTo m n expression) :
    SteadyTo m (n + 1) (arguments expression) := by
  have hlist := Listing.steady_rule (l := argumentItems) lossless_expression stable_expression rfl
    (fun ks hks => advances_expression hks) (by decide) (by decide) h
  exact steadyTo_node (steadyTo_take_seq (steadyTo_seq_one hlist))

lemma steady_atom (h : SteadyTo m n expression) : SteadyTo m (n + 1) (atom expression) := by
  have hcall : SteadyTo m (n + 1) (extend .callExpression (node .nameExpression name)
      (· == .leftParenthesis) (arguments expression)) :=
    steadyTo_extend (lossless_node _ lossless_name).frugal
      (fun l => stable_node (no_port (by decide)) (stable_name l)) (blind_eq (by decide))
      (steady_node (steady_name _)) (steady_arguments h)
  have hliteral : SteadyTo m (n + 1) (node .literalExpression take) := steady_node (steady_take _)
  have hminus : SteadyTo m (n + 1) (node .literalExpression (seq [take, expect .number])) :=
    steady_node (steadyTo_take_seq (steadyTo_seq_one (steady_expect (by decide) _)))
  have hparenthesized : SteadyTo m
      (n + 1) (node .parenthesizedExpression (seq [take, expression, expect .rightParenthesis])) :=
      steadyTo_node (steadyTo_take_seq (steadyTo_seq_cons lossless_expression.frugal
        stable_expression h (steadyTo_seq_one (steady_expect (by decide) n))))
  refine steadyTo_dispatch (fun k => ?_) fun os rest rest' hg hnil hgap => ?_
  · cases k
    case identifier => exact ⟨_, hcall, fun ks hk => by rw [atom, hk]⟩
    case number => exact ⟨_, hliteral, fun ks hk => by rw [atom, hk]⟩
    case string => exact ⟨_, hliteral, fun ks hk => by rw [atom, hk]⟩
    case minus => exact ⟨_, hminus, fun ks hk => by rw [atom, hk]⟩
    case leftParenthesis => exact ⟨_, hparenthesized, fun ks hk => by rw [atom, hk]⟩
    all_goals exact ⟨_, steady_complain _ _, fun ks hk => by rw [atom, hk]⟩
  · -- Nothing is read only where an expression is missing.
    cases hstart : expressionStart.contains (peek rest) with
    | true =>
      have hpeek : expressionStart.contains (peek (leavesAll os ++ rest)) =
          true := by rw [hnil]; exact hstart
      exact absurd hnil (leaves_ne_nil_of_advances (advances_atom lossless_expression hpeek) hg)
    | false =>
      have hmissing : Gives (complain .expression) os rest := by
        unfold Gives at hg ⊢
        rwa [atom_of_not_start (by rw [hnil]; exact hstart)] at hg
      obtain rfl := gives_complain.1 hmissing
      exact atom_of_not_start (hgap.not_of_lacks (by decide) hstart)

lemma steady_operations {operand : Rule} (hl : Lossless operand) (hstable : Stable operand)
    (hadv : ∀ ks, expressionStart.contains (peek ks) = true → Advances operand ks)
    (h : SteadyTo m n operand) : SteadyTo m n fun ks => operations operand ks.length ks := by
  refine steadyTo_of_rounds (f := operations operand) (fun l ks hks => ?_) fun l => ?_
  · exact agree_operations hl ks.length (.refl _ _) hks (Nat.le_refl _) ks (Nat.le_refl _)
  · induction l with
    | zero => exact steady_skip n
    | succ l ih =>
      have hoperand :
          SteadyTo m n (choose expressionStart.contains (seq [operand, operations operand l])
          (complain .expression)) := by
        refine steadyTo_word rfl (by decide) (fun ks hks => advances_seq_cons (hadv ks hks) ?_)
          (steadyTo_seq_cons hl.frugal hstable h (steadyTo_seq_one ih))
        simpa using lossless_operations hl l
      exact steadyTo_choose (blind_of_margins (by decide))
        (steadyTo_take_seq (steadyTo_seq_one hoperand)) (steady_skip n)

lemma steady_expression : Steady m expression := by
  intro n
  induction n with
  | zero => exact fun os rest rest' hd => absurd hd (Nat.not_lt_zero _)
  | succ n ih =>
    have hatom := steady_atom ih
    have hlossless := lossless_atom lossless_expression
    have hadv : ∀ ks, expressionStart.contains (peek ks) = true → Advances (atom expression) ks :=
      fun ks hks => advances_atom lossless_expression hks
    rw [expression_over]
    refine steadyTo_word rfl (by decide) (fun ks hks => ?_) (steadyTo_extend hlossless.frugal
      stable_expressionAtom (blind_of_margins (by decide)) hatom
      (steady_operations hlossless stable_expressionAtom hadv hatom))
    exact advances_extend (hadv ks hks) rfl fun ls _ => lossless_operations hlossless ls.length ls

lemma steady_initializer : Steady m initializer := fun n =>
  steadyTo_option (by decide) (steadyTo_take_seq (steadyTo_seq_one (steady_expression n)))

lemma steady_semicolon : Steady m (option .semicolon take) := fun n =>
  steadyTo_option (by decide) (steady_take n)

lemma steady_named (h : SteadyTo m n (seq rs)) : SteadyTo m n (seq (name :: rs)) :=
  steadyTo_seq_cons lossless_name.frugal stable_name (steady_name n) h

lemma steady_variableDeclarations : Steady m fun ks => variableDeclarations (ks.length + 1) ks := by
  intro n
  have hone : SteadyTo m n variableDeclaration :=
    steady_node (steady_named (steadyTo_seq_cons lossless_typeClause.frugal stable_typeClause
      (steady_typeClause n) (steadyTo_seq_one (steady_initializer n))))
  have hall : ∀ l, SteadyTo m n (variableDeclarations l) := by
    intro l
    induction l with
    | zero => exact steady_skip n
    | succ l ih =>
      exact steadyTo_seq_cons lossless_variableDeclaration.frugal stable_variableDeclaration hone
        (steadyTo_seq_one (steadyTo_option (by decide) (steadyTo_take_seq (steadyTo_seq_one ih))))
  refine steadyTo_of_rounds (f := fun l => variableDeclarations (l + 1)) (fun l ks hks => ?_)
    fun l => hall (l + 1)
  exact agree_variableDeclarations ks.length hks (Nat.le_refl _) ks (Nat.le_refl _)

lemma steady_variableStatement : Steady m variableStatement := fun n =>
  steadyTo_take_seq
    (steadyTo_seq_cons frugal_variableDeclarations stable_variableDeclarations
      (steady_variableDeclarations n) (steadyTo_seq_one (steady_semicolon n)))

lemma steady_parameters :
    Steady m (choose (· == .leftParenthesis) parameterList (complain .parameterList)) := by
  intro n
  have hadv : ∀ ks, (peek ks == .identifier) = true → Advances parameter ks := fun ks hks =>
    advances_seq_cons (advances_name (eq_of_beq hks)) (by simpa using lossless_typeClause)
  have hlist :=
    Listing.steady_rule (l := parameters) lossless_parameter stable_parameter rfl hadv (by decide)
    (by decide) (steady_node (steady_named (steadyTo_seq_one (steady_typeClause (m := m) n))))
  exact steadyTo_choose (blind_eq (by decide))
    (steady_node (steadyTo_take_seq (steadyTo_seq_one hlist))) (steady_complain _ n)

lemma steady_body : Steady m (repeatUntil (· == .rightCurly) statement) :=
  steady_repeatUntil (stable_statements _) (fun _ hks => advances_statement hks) (by decide)

lemma steady_block : Steady m (Grammar.block statement) := fun n =>
  steady_node (steadyTo_seq_cons (lossless_expect (by decide)).frugal (stable_expect _)
    (steady_expect (by decide) n) (steadyTo_seq_cons (lossless_repeatUntil ahead_statement).frugal
      (stable_statements _) (steady_body n) (steadyTo_seq_one (steady_expect (by decide) n))))

lemma steady_signature : Steady m (signature (Grammar.block statement)) := fun n =>
  steadyTo_seq_cons lossless_parameters.frugal stable_parameters (steady_parameters n)
    (steadyTo_seq_cons lossless_typeClause.frugal stable_typeClause (steady_typeClause n)
      (steadyTo_seq_one (steadyTo_choose (blind_eq (by decide)) (steady_block n)
        (steady_expect (by decide) n))))

lemma steady_property_tail :
    Steady m (seq [typeClause, initializer, option .semicolon take]) := fun n =>
  steadyTo_seq_cons lossless_typeClause.frugal stable_typeClause (steady_typeClause n)
    (steadyTo_seq_cons lossless_initializer.frugal stable_initializer (steady_initializer n)
      (steadyTo_seq_one (steady_semicolon n)))

lemma lacksWordAll_modified (ms : List Kind) : lacksWordAll (modified ms) = false := by
  induction ms with
  | nil => rfl
  | cons k ms ih =>
    rw [show modified (k :: ms) = .branch .modifier [.leaf k] :: modified ms from rfl,
      lacksWordAll, ih]
    simp [lacksWord, lacksWordAll]

lemma lacksWordAll_modifiers (ms : List Kind) (bs : List Outline) :
    lacksWordAll [.branch kind (modified ms ++ bs)] = lacksWordAll bs := by
  rw [lacksWordAll_one, lacksWord, lacksWordAll_append, lacksWordAll_modified, Bool.and_false,
    Bool.false_or]

lemma peek_gap {b : Bool} {p : Kind → Bool} (hp : Blind m p)
    (hgap : Gap m b (peek rest) (peek rest')) (os : List Outline) :
    p (peek (leavesAll os ++ rest')) = p (peek (leavesAll os ++ rest)) := by
  by_cases hnil : leavesAll os = []
  · rw [hnil]
    exact hp _ _ _ hgap
  · rw [peek_append_of_ne hnil]

lemma steady_member : Steady true member := by
  intro n os rest rest' _ hg hgap
  have hsignature : Steady true (seq [signature (Grammar.block statement)]) :=
    fun n => steadyTo_seq_one (steady_signature n)
  have hparenthesis : Blind true (· == .leftParenthesis) := blind_eq (by decide)
  obtain ⟨ms, qs, hms, ⟨rfl, hnext, hqs⟩ | ⟨rfl, hnext, hqs⟩⟩ | ⟨ms, rfl, hname, hmodifier, -⟩ |
      ⟨hstray, hfirst, hname⟩ := classMember_cases hg
  · have hsame := peek_gap hparenthesis hgap qs
    rw [lacksWordAll_modifiers, lacksWordAll] at hgap
    refine gives_classMethod hms ?_
      (hsignature.gives hqs (hgap.mono fun hlacks => by simp [hlacks]))
    rw [hnext] at hsame
    exact eq_of_beq hsame
  · have hsame := peek_gap hparenthesis hgap qs
    rw [lacksWordAll_modifiers, lacksWordAll] at hgap
    refine gives_classProperty hms (fun hparen => hnext ?_) (steady_property_tail.gives hqs
      (hgap.mono fun hlacks => by simp [hlacks]))
    rw [hparen] at hsame
    exact eq_of_beq hsame.symm
  · exact paced_member.stable.gives hg (hgap.eq_of_member hname hmodifier)
  · have hpeek := peek_append_of_ne (leaves_recover hstray) rest' rest
    rw [← hpeek] at hfirst hname
    refine (classMember_stray ?_ hfirst).trans ((steady_recover _).gives hstray hgap)
    rwa [modifiers_eq hfirst]

lemma steady_keyword (h : SteadyTo m n (seq rs)) : SteadyTo m n (seq (take :: name :: rs)) :=
  steadyTo_take_seq (steady_named h)

lemma steady_members : Steady m (repeatUntil (· == .rightCurly) member) :=
  steady_repeatUntil stable_members paced_member.advances (by decide)

lemma steady_classDeclaration : Steady m (classDeclaration (Grammar.block statement)) := by
  intro n
  refine steady_keyword
    (steadyTo_seq_one (steadyTo_choose (blind_eq (by decide)) ?_ (steady_complain _ n)))
  exact steadyTo_take_seq (steadyTo_seq_cons frugal_members stable_members
    (steady_members n) (steadyTo_seq_one (steady_expect (by decide) n)))

lemma steady_enumDeclaration : Steady m enumDeclaration := by
  intro n
  have hadv : ∀ ks, (peek ks == .identifier) = true → Advances enumMember ks := fun ks hks =>
    advances_seq_cons (advances_name (eq_of_beq hks)) (by simpa using lossless_initializer)
  have hlist := Listing.steady_rule
    (l := enumMembers) lossless_enumMember stable_enumMember rfl hadv (by decide) (fun _ _ => rfl)
    (steady_node (steady_named (steadyTo_seq_one (steady_initializer (m := m) n))))
  exact steady_keyword (steadyTo_seq_one (steadyTo_choose (blind_eq (by decide))
    (steadyTo_take_seq (steadyTo_seq_one hlist)) (steady_complain _ n)))

lemma steady_declaration (hd : declaration? (Grammar.block statement) k = some (kind, body)) :
    Steady m body := by
  intro n
  cases declares hd with
  | binding => exact steady_variableStatement n
  | function => exact steady_keyword (steadyTo_seq_one (steady_signature n))
  | members => exact steady_classDeclaration n
  | enum => exact steady_enumDeclaration n
  | space =>
    exact steady_keyword (steadyTo_seq_one (steadyTo_choose (blind_eq (by decide)) (steady_block n)
      (steady_complain _ n)))

lemma steady_consequence (h : SteadyTo m n statement) : SteadyTo m n (consequence statement) :=
  steadyTo_choose (blind_of_margins (by decide)) (steady_complain _ n) h

lemma steady_ifStatement (h : SteadyTo m n statement) :
    SteadyTo m (n + 1) (ifStatement statement) := by
  have hthen : Frugal (consequence statement) := (lossless_consequence ahead_statement).frugal
  have hstable : Stable (consequence statement) := fun l => stable_consequence (stable_statement l)
  have helse : SteadyTo m n (option .elseKeyword (seq [take, consequence statement])) :=
    steadyTo_option (by decide) (steadyTo_take_seq (steadyTo_seq_one (steady_consequence h)))
  exact steadyTo_node (steadyTo_take_seq (steadyTo_seq_cons (lossless_expect (by decide)).frugal
    (stable_expect _) (steady_expect (by decide) n) (steadyTo_seq_cons lossless_expression.frugal
      stable_expression (steady_expression n) (steadyTo_seq_cons (lossless_expect
        (by decide)).frugal (stable_expect _) (steady_expect (by decide) n)
        (steadyTo_seq_cons hthen hstable (steady_consequence h) (steadyTo_seq_one helse))))))

lemma steady_returnStatement : Steady false returnStatement := fun n =>
  steady_node (steadyTo_take_seq (steadyTo_seq_cons lossless_value.frugal stable_value
      (steadyTo_choose (blind_of_openers (by decide)) (steady_expression n) (steady_skip n))
      (steadyTo_seq_one (steady_semicolon n))))

lemma leaves_ne_nil_of_rounds {r : Rule} (hadv : ∀ ks, ks ≠ [] → Advances r ks)
    (hend : leavesAll (r []).1 ≠ []) (hg : Gives r os rest) : leavesAll os ≠ [] := by
  by_cases hne : leavesAll os ++ rest = []
  · unfold Gives at hg
    rw [hne] at hg
    rwa [hg] at hend
  · exact leaves_ne_nil_of_advances (hadv _ hne) hg

lemma steady_plainStatement (h : SteadyTo false n statement) :
    SteadyTo false (n + 1) (plainStatement statement) := by
  have hexpression : SteadyTo false (n + 1) expressionStatement :=
    steady_node (steadyTo_seq_cons lossless_expression.frugal stable_expression
      (steady_expression _) (steadyTo_seq_one (steady_semicolon _)))
  have hother : SteadyTo false (n + 1) (choose expressionStart.contains expressionStatement
      (recover .unexpectedToken)) :=
    steadyTo_choose (blind_of_openers (by decide)) hexpression (steady_recover _ _)
  refine steadyTo_dispatch (fun k => ?_) fun os rest rest' hg hnil _ => ?_
  · cases k
    case leftCurly => exact ⟨_, steady_block _, fun ks hk => by rw [plainStatement, hk]⟩
    case returnKeyword =>
      exact ⟨_, steady_returnStatement _, fun ks hk => by rw [plainStatement, hk]⟩
    case ifKeyword => exact ⟨_, steady_ifStatement h, fun ks hk => by rw [plainStatement, hk]⟩
    all_goals exact ⟨_, hother, fun ks hk => by rw [plainStatement, hk]⟩
  · refine absurd hnil
      (leaves_ne_nil_of_rounds (fun _ hks => advances_plainStatement ahead_statement hks) ?_ hg)
    decide

lemma not_opener (hmodifier : k.isModifierKeyword = false)
    (hd : declaration? (Grammar.block statement) k = none) : k ∉ openers := by
  intro hmem
  simp only [openers, List.mem_cons, List.not_mem_nil, or_false] at hmem
  rcases hmem with rfl | rfl | rfl | rfl | rfl | rfl | rfl | rfl | rfl | rfl | rfl | rfl | rfl <;>
    first | exact absurd hmodifier (by decide) | cases hd

lemma steady_statement : Steady false statement := by
  intro n
  induction n with
  | zero => exact fun os rest rest' hd => absurd hd (Nat.not_lt_zero _)
  | succ n ih =>
    rw [statement_over]
    intro os rest rest' hdepth hg hgap
    obtain ⟨ms, bs, kind, body, rfl, hms, hd, hbs⟩ | ⟨ms, rfl, hmodifier, hd, -⟩ |
      ⟨hplain, hfirst, hd⟩ := statementOver_cases hg
    · obtain ⟨j, qs, rfl⟩ := exists_keyword hd hbs
      rw [lacksWordAll_modifiers] at hgap
      exact gives_modified_declaration hms hd ((steady_declaration hd).gives hbs hgap)
    · have hstable : Stable (statementOver statement) := by
        rw [← statement_over]
        exact stable_statement
      exact hstable.gives hg (hgap.eq_of_statement (not_opener hmodifier hd))
    · have hne := leaves_ne_nil_of_rounds (fun _ hks => advances_plainStatement ahead_statement hks)
        (by decide) hplain
      have hpeek := peek_append_of_ne hne rest' rest
      rw [← hpeek] at hfirst hd
      exact (statementOver_plain hd hfirst).trans
        (steady_plainStatement ih os rest rest' hdepth hplain hgap)

end Grammar
end LiveEdit
