import LiveEdit.Proofs.Grammar.Expressions

namespace LiveEdit.Grammar
open Rule Phrase

variable {T U : List Kind → Prop} {a : Phrase} {k : Kind} {ks ls : List Kind} {n : Nat}
  {block : Rule}

lemma obeys_semicolon : Obeys n (option .semicolon take) semicolon := obeys_option_take (by decide)

lemma semicolon_of_then (hT : Avoids .semicolon T) (h : Then semicolon T ks) :
    Accepts (option .semicolon take) T ks :=
  (accepts_option_take (by decide)).2 ((then_maybe.1 h).imp_right fun h => ⟨hT ks h, h⟩)

lemma avoids_semicolon (hT : Avoids k T) (hk : .semicolon ≠ k) : Avoids k (Then semicolon T) :=
  fun _ h => hT.or hk (then_maybe.1 h)

lemma then_semicolon_of_ne (hk : k ≠ .semicolon) : Then semicolon T (k :: ks) ↔ T (k :: ks) := by
  simp [semicolon, hk]

lemma then_typeClause :
    Then (part .typeClause) T = Then (token .colon) (Then (token .identifier) T) := by
  funext ks
  rw [then_part]
  simp [Category.phrase, Phrase.seq]

lemma accepts_typeClause :
    Accepts typeClause T ks ↔ Then (part .typeClause) T ks ∨ (peek ks ≠ .colon ∧ T ks) := by
  rw [typeClause, option, accepts_choose_node, ← option, accepts_option_seq (by decide),
    accepts_seq_cons, accepts_seq_nil, accepts_word, then_typeClause]

lemma obeys_typeClause : Obeys n typeClause (maybe (part .typeClause)) :=
  fun _ _ _ ha => then_maybe.2 ((accepts_typeClause.1 ha).imp_right And.right)

lemma typeClause_of_then (hT : Avoids .colon T) (h : Then (maybe (part .typeClause)) T ks) :
    Accepts typeClause T ks :=
  accepts_typeClause.2 ((then_maybe.1 h).imp_right fun h => ⟨hT ks h, h⟩)

lemma then_initialValue :
    Then initialValue T ks ↔ Then (token .equals) (Then (part .expression) T) ks ∨ T ks := by
  simp [initialValue, Phrase.seq]

lemma avoids_initialValue (hT : Avoids k T) (hk : .equals ≠ k) : Avoids k (Then initialValue T) :=
  fun _ h => hT.or hk (then_initialValue.1 h)

lemma obeys_initializer : Obeys n initializer initialValue :=
  (obeys_expression.last.option_seq (by decide)).mono (Nat.le_succ n)

lemma initializer_of_then (hT : Absorbable T) (heq : Avoids .equals T)
    (h : Then initialValue T ks) : Accepts initializer T ks := by
  refine (accepts_option_seq (by decide)).2 ((then_initialValue.1 h).imp ?_ fun h => ⟨heq ks h, h⟩)
  rw [accepts_seq_cons, accepts_seq_nil]
  exact fun h => h.mono fun _ => expression_of_then hT

lemma then_variableDeclaration : Then (part .variableDeclaration) T =
    Then (token .identifier) (Then (maybe (part .typeClause)) (Then initialValue T)) := by
  funext ks
  rw [then_part]
  simp [Category.phrase, Phrase.seq]

lemma obeys_variableDeclaration : Obeys n variableDeclaration (part .variableDeclaration) :=
  (obeys_name.seq (obeys_typeClause.seq obeys_initializer.last)).node.named

lemma variableDeclaration_of_then (hT : Absorbable T) (heq : Avoids .equals T)
    (hcolon : Avoids .colon T) (h : Then (part .variableDeclaration) T ks) :
    Accepts variableDeclaration T ks := by
  rw [variableDeclaration, accepts_node, accepts_seq_cons, accepts_name]
  rw [then_variableDeclaration] at h
  refine h.mono fun ls h => ?_
  rw [accepts_seq_cons, accepts_seq_cons, accepts_seq_nil]
  exact (typeClause_of_then (avoids_initialValue hcolon (by decide)) h).mono fun _ =>
    initializer_of_then hT heq

/-- What may come after a statement. What looks like more of an expression is one of its own, and an
`else` is that of an `if` further out. -/
structure Follows (T : List Kind → Prop) : Prop where
  bare : ∀ ks, T ks → peek ks ≠ .semicolon ∧ peek ks ≠ .comma ∧ peek ks ≠ .colon
  expression : ∀ k ks, expressionStart.contains k = true ∨ isOperator k = true → T (k :: ks) →
    Then plain T (k :: ks)
  branch : ∀ ks, T (.elseKeyword :: ks) → Then (part .statement) T ks

lemma then_plain : Then plain T = Then (part .expression) (Then semicolon T) := by
  simp [plain, Phrase.seq]

lemma Follows.not_equals (hT : Follows T) : Avoids .equals T := by
  intro ks h hk
  obtain ⟨ls, rfl⟩ := exists_of_peek hk (by decide)
  have hplain := hT.expression _ _ (.inr rfl) h
  rw [then_plain, then_expression, then_atom_cons] at hplain
  simp at hplain

lemma Follows.absorbable (hT : Follows T) : Absorbable (Then semicolon T) := by
  constructor
  · intro k ks hk h
    have hne : k ≠ .semicolon := by rintro rfl; exact nomatch hk
    have hks := (then_semicolon_of_ne hne).1 h
    have hplain := hT.expression k ks (.inr hk) hks
    rw [then_plain, then_expression, then_atom_cons] at hplain
    obtain ⟨rfl, -⟩ | ⟨rfl, -⟩ | ⟨rfl, hnum⟩ | ⟨rfl, -⟩ | ⟨rfl, -⟩ := hplain
    · exact absurd hk (by decide)
    · exact absurd hk (by decide)
    · -- Of the operators only a minus starts an expression, and then a number comes after it.
      cases ks with
      | nil => exact absurd hnum then_token_nil
      | cons l ls => exact then_atom_cons.2 (.inl (then_token_cons.1 hnum))
    · exact absurd hk (by decide)
    · exact absurd hk (by decide)
  · intro ks h
    have hks := (then_semicolon_of_ne (by decide)).1 h
    have hplain := hT.expression _ ks (.inl rfl) hks
    rw [then_plain, then_expression, then_atom_cons] at hplain
    simp only [reduceCtorEq, false_and, true_and, false_or] at hplain
    rw [then_arguments]
    exact then_token_cons.2
      ⟨rfl, then_list.2 (.inl (hplain.mono fun ls hls => moreItems_iff.2 (.inr hls)))⟩

def MoreVariables (T : List Kind → Prop) : List Kind → Prop :=
  Then (many (Phrase.seq [token .comma, part .variableDeclaration])) T

lemma moreVariables_iff : MoreVariables T ks ↔
    Then (token .comma) (Then (part .variableDeclaration) (MoreVariables T)) ks ∨ T ks := by
  rw [MoreVariables, then_many]
  simp [Phrase.seq, or_comm]

lemma Absorbable.moreVariables (hT : Absorbable T) : Absorbable (MoreVariables T) := by
  have hmono : ∀ ls, T ls → MoreVariables T ls := fun ls h => then_many.2 (.inl h)
  have hcons : ∀ k ks, k ≠ .comma → MoreVariables T (k :: ks) → T (k :: ks) := fun k ks hk h =>
    (moreVariables_iff.1 h).resolve_left fun h => hk (then_token_cons.1 h).1
  constructor
  · intro k ks hk h
    have hne : k ≠ .comma := by rintro rfl; exact nomatch hk
    exact (hT.operator k ks hk (hcons k ks hne h)).mono fun ls hls => hls.mono hmono
  · intro ks h
    exact (hT.arguments ks (hcons _ ks (by decide) h)).mono fun ls hls => hls.mono hmono

lemma obeys_variableDeclarations (m : Nat) :
    Obeys m (variableDeclarations m) (both (part .variableDeclaration)
      (many (Phrase.seq [token .comma, part .variableDeclaration]))) := by
  induction m with
  | zero => exact fun ks T hks => absurd hks (Nat.not_lt_zero _)
  | succ m ih =>
    intro ks T hks ha
    rw [variableDeclarations, accepts_seq_cons, accepts_seq_cons, accepts_seq_nil] at ha
    rw [then_both]
    refine (obeys_variableDeclaration ks _ hks ha).mono_length fun ls hls ha =>
      moreVariables_iff.2 ?_
    refine ((accepts_option_seq (by decide)).1 ha).imp (·.mono_one fun ms hms ha => ?_) And.right
    have hmore := ih.last ms T (by omega) ha
    rwa [then_both] at hmore

lemma variableDeclarations_of_then (hT : Absorbable T) (heq : Avoids .equals T)
    (hcolon : Avoids .colon T) (hcomma : Avoids .comma T) (m : Nat) (ks : List Kind)
    (hks : ks.length < m) (h : Then (part .variableDeclaration) (MoreVariables T) ks) :
    Accepts (variableDeclarations m) T ks := by
  have hmore : ∀ {k}, Avoids k T → .comma ≠ k → Avoids k (MoreVariables T) :=
    fun hk hne ks h => hk.or hne (moreVariables_iff.1 h)
  induction m generalizing ks with
  | zero => exact absurd hks (Nat.not_lt_zero _)
  | succ m ih =>
    rw [variableDeclarations, accepts_seq_cons, accepts_seq_cons, accepts_seq_nil]
    have hfirst := variableDeclaration_of_then hT.moreVariables (hmore heq (by decide))
      (hmore hcolon (by decide)) h
    refine (hfirst.with_length (lossless_variableDeclaration ks)).mono ?_
    rintro ls ⟨hls, h⟩
    refine (accepts_option_seq (by decide)).2
      ((moreVariables_iff.1 h).imp ?_ fun h => ⟨hcomma ls h, h⟩)
    rw [accepts_seq_cons, accepts_seq_nil]
    exact fun h => h.mono_one fun ms hms => ih ms (by omega)

lemma then_variableStatement_cons :
    Then (part .variableStatement) T (k :: ks) ↔ isVariableKeyword k = true ∧
    Then (part .variableDeclaration) (MoreVariables (Then semicolon T)) ks := by
  rw [then_part]
  simp [Category.phrase, Phrase.seq, MoreVariables]

lemma accepts_variableStatement_cons : Accepts variableStatement T (k :: ks) ↔
    Accepts (variableDeclarations (ks.length + 1)) (Accepts (option .semicolon take) T) ks := by
  rw [variableStatement, accepts_seq_cons, accepts_take_cons, accepts_seq_cons, accepts_seq_cons,
    accepts_seq_nil]
  exact Iff.rfl

lemma then_of_variableStatement (hk : isVariableKeyword k = true)
    (h : Accepts variableStatement T (k :: ks)) : Then (part .variableStatement) T (k :: ks) := by
  have hvariables : Obeys (ks.length + 1) (fun ks => variableDeclarations (ks.length +
      1) ks) (both (part .variableDeclaration) (many (Phrase.seq [token .comma,
        part .variableDeclaration]))) := fun ls U _ ha =>
        obeys_variableDeclarations _ ls U (Nat.lt_succ_self _) ha
  exact then_part.2 ((hvariables.seq_both obeys_semicolon.last).taking hk (Nat.lt_succ_self _) h)

lemma variableStatement_of_then (hT : Follows T)
    (h : Then (part .variableStatement) T (k :: ks)) : Accepts variableStatement T (k :: ks) := by
  have hbare := hT.bare
  have hdecl := variableDeclarations_of_then hT.absorbable
    (avoids_semicolon hT.not_equals (by decide)) (avoids_semicolon (fun ls h =>
      (hbare ls h).2.2) (by decide)) (avoids_semicolon (fun ls h => (hbare ls h).2.1) (by decide))
      _ ks (Nat.lt_succ_self _) (then_variableStatement_cons.1 h).2
  exact accepts_variableStatement_cons.2
    (hdecl.mono fun ls => semicolon_of_then fun ls h => (hbare ls h).1)

lemma then_parameter :
    Then (part .parameter) T = Then (token .identifier) (Then (maybe (part .typeClause)) T) := by
  funext ks
  rw [then_part]
  simp [Category.phrase, Phrase.seq]

lemma accepts_parameter :
    Accepts parameter T = Then (token .identifier) (Accepts typeClause T) := by
  rw [parameter, accepts_node, accepts_seq_cons, accepts_name, accepts_seq_cons, accepts_seq_nil]

lemma obeys_parameter : Obeys n parameter (part .parameter) :=
  (obeys_name.seq obeys_typeClause.last).node.named

lemma parameters_of_then (h : Then (list (part .parameter)) (Then (token .rightParenthesis) T) ks) :
    Accepts parameters.rule T ks := by
  have hitem :
      Admits (ks.length + 1) (Bracketed .rightParenthesis) parameter (part .parameter) := by
    intro ls U _ hU h
    rw [accepts_parameter]
    rw [then_parameter] at h
    refine h.mono fun ms h => typeClause_of_then (fun us h => ?_) h
    obtain hk | hk := hU us h <;> rw [hk] <;> decide
  have hstarts : ItemStarts parameters (part .parameter) := by
    refine ⟨fun T ks h => ?_, rfl, rfl, lossless_parameter.ahead⟩
    rw [then_parameter] at h
    simp [parameters, peek_of_then_token h]
  exact Admits.listing (l := parameters) hitem hstarts (by decide) (by decide)
    (Nat.lt_succ_self _) h

def body : Phrase := either (part .block) (token .semicolon)

lemma then_signature :
    Then (part .signature) T = Then (token .leftParenthesis) (Then (list (part .parameter))
      (Then (token .rightParenthesis) (Then (maybe (part .typeClause)) (Then body T)))) := by
  funext ks
  rw [then_part]
  simp [Category.phrase, Phrase.seq, body]

lemma then_block : Then (part .block) T =
    Then (token .leftCurly) (Then (many (part .statement)) (Then (token .rightCurly) T)) := by
  funext ks
  rw [then_part]
  simp [Category.phrase, Phrase.seq]

lemma peek_of_then_block (h : Then (part .block) T ks) : peek ks = .leftCurly := by
  rw [then_block] at h
  exact peek_of_then_token h

lemma accepts_signature :
    Accepts (signature block) T = Then (token .leftParenthesis) (Accepts parameters.rule
      (Accepts (Rule.seq [typeClause, choose (· == .leftCurly) block (expect .semicolon)]) T)) := by
  rw [signature, accepts_seq_cons, parameterList, accepts_choose_node, accepts_opened (by decide),
    accepts_seq_cons, accepts_seq_nil]
  rfl

lemma obeys_signature (hblock : Obeys n block (part .block)) :
    Obeys n (signature block) (part .signature) := by
  intro ks T hks ha
  rw [accepts_signature] at ha
  rw [then_signature]
  refine ha.mono_length fun ls hls ha => ?_
  have hlist :=
    Obeys.listing (l := parameters) obeys_parameter (by decide) ls _ (Nat.lt_succ_self _) ha
  rw [then_both] at hlist
  refine hlist.mono_length fun ms hms ha => ha.mono_length fun us hus ha => ?_
  rw [← then_both (a := maybe _)]
  exact obeys_typeClause.seq (hblock.choose (obeys_expect (by decide))).last us T (by omega) ha

lemma body_of_then (hblock : Then (part .block) T ks → Accepts block T ks) (h : Then body T ks) :
    Accepts (choose (· == .leftCurly) block (expect .semicolon)) T ks := by
  obtain h | h := then_either.1 h
  · rw [accepts_choose_of (by simp [peek_of_then_block h])]
    exact hblock h
  · rw [accepts_choose_of_not (by simp [peek_of_then_token h]), accepts_expect (by decide)]
    exact h

lemma signature_of_then (hblock : Admits n (fun _ => True) block (part .block))
    (hks : ks.length < n) (h : Then (part .signature) T ks) : Accepts (signature block) T ks := by
  rw [then_signature] at h
  rw [accepts_signature, accepts_seq_cons, accepts_seq_cons, accepts_seq_nil]
  refine h.mono_length fun ls hls h => parameters_of_then ?_
  refine h.mono_length fun ms hms h => h.mono_length fun us hus h =>
    typeClause_of_then (fun vs h hk => ?_) ?_
  · rw [accepts_choose_of_not (by simp [hk]), accepts_expect (by decide)] at h
    exact nomatch hk.symm.trans (peek_of_then_token h)
  · exact h.mono_length fun vs hvs h => body_of_then (hblock vs T (by omega) trivial) h

end LiveEdit.Grammar
