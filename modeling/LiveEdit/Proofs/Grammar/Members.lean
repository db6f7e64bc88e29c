import LiveEdit.Proofs.Grammar.Declarations

namespace LiveEdit.Grammar
open Outline Rule Phrase List

variable {T U : List Kind → Prop} {k kind : Kind} {ks ls : List Kind} {n : Nat} {block : Rule}

lemma faults_modifiers (ks : List Kind) : faultsAll (modifiers ks).1 = [] := by
  unfold modifiers
  induction ks.takeWhile Kind.isModifierKeyword with
  | nil => rfl
  | cons k ms ih => simpa only [map_cons, faultsAll, faults, nil_append] using ih

lemma accepts_after_modifiers {r s : Rule}
    (h : r ks = nodeFrom (modifiers ks).1 kind s ls) : Accepts r T ks ↔ Accepts s T ls := by
  have hiff : Accepts r T ks ↔ Accepts (nodeFrom (modifiers ks).1 kind s) T ls := by
    unfold Accepts
    rw [h]
  rw [hiff, accepts_nodeFrom]
  exact and_iff_right (faults_modifiers ks)

lemma then_classMember : Then (part .classMember) T ks ↔ Then (token .identifier)
      (fun ls => Then (part .signature) T ls ∨ Then (maybe (part .typeClause))
      (Then initialValue (Then semicolon T)) ls) (ks.dropWhile Kind.isModifierKeyword) := by
  have hmember : Then (either (part .signature) (both (maybe (part .typeClause))
      (both initialValue semicolon))) T = fun ls => Then (part .signature) T ls ∨
        Then (maybe (part .typeClause)) (Then initialValue (Then semicolon T)) ls := by
    funext ls
    rw [then_either, then_both, then_both]
  rw [then_part]
  simp only [Category.phrase, Phrase.seq, then_both, hmember]
  refine then_many_one fun k ls hk h => ?_
  obtain rfl := (then_token_cons.1 h).1
  exact absurd hk (by decide)

lemma accepts_classMember : Accepts (classMember block) T ks ↔ Then (token .identifier) (fun ls =>
      (peek ls = .leftParenthesis ∧ Accepts (signature block) T ls) ∨ (peek ls ≠ .leftParenthesis ∧
        Accepts (Rule.seq [typeClause, initializer, option .semicolon take]) T ls))
      (ks.dropWhile Kind.isModifierKeyword) := by
  change _ ↔ Then _ _ (modifiers ks).2
  by_cases hname : peek (modifiers ks).2 = .identifier
  · obtain ⟨ls, hls⟩ := exists_of_peek hname (by decide)
    rw [hls, then_token_cons]
    by_cases hpar : peek ls = .leftParenthesis
    · have heq : classMember block ks =
          nodeFrom (modifiers ks).1 .methodDeclaration (method block) (.identifier :: ls) := by
        simp [classMember, hls, hpar]
      rw [accepts_after_modifiers heq, method, accepts_seq_cons, accepts_name, then_token_cons,
        accepts_seq_cons, accepts_seq_nil]
      simp [hpar]
    · have heq : classMember block ks =
          nodeFrom (modifiers ks).1 .propertyDeclaration property (.identifier :: ls) := by
        simp [classMember, hls, hpar]
      rw [accepts_after_modifiers heq, property, accepts_seq_cons, accepts_name, then_token_cons]
      simp [hpar]
  · refine iff_of_false (fun h => ?_) fun h => hname (peek_of_then_token h)
    -- Without a name there is a fault, whether modifiers were read or not.
    unfold Accepts classMember at h
    dsimp only at h
    rw [if_neg hname] at h
    split_ifs at h with hnone
    · exact accepts_recover h
    · exact accepts_complain (accepts_nodeFrom.1 h).2

def afterMember (k : Kind) : Bool := k == .identifier || k == .rightCurly || k.isModifierKeyword

def AfterMember (T : List Kind → Prop) : Prop := ∀ ks, T ks → afterMember (peek ks) = true

lemma AfterMember.avoids (hT : AfterMember T) (hk : afterMember k = false) : Avoids k T :=
  fun ks h heq => Bool.false_ne_true (hk.symm.trans (heq ▸ hT ks h))

lemma afterMember_ends (h : afterMember k = true) :
    isOperator k = false ∧ k ≠ .leftParenthesis := by
  revert h
  cases k <;> decide

lemma AfterMember.absorbable (hT : AfterMember T) : Absorbable (Then semicolon T) := by
  refine absorbable_of_peek fun ks h => ?_
  obtain h | h := then_maybe.1 h
  · rw [peek_of_then_token h]
    exact ⟨rfl, by decide⟩
  · exact afterMember_ends (hT ks h)

lemma obeys_property : Obeys n (Rule.seq [typeClause, initializer, option .semicolon take])
    (both (maybe (part .typeClause)) (both initialValue semicolon)) :=
  obeys_typeClause.seq (obeys_initializer.seq obeys_semicolon.last)

lemma property_of_then (hT : AfterMember T)
    (h : Then (maybe (part .typeClause)) (Then initialValue (Then semicolon T)) ks) :
    Accepts (Rule.seq [typeClause, initializer, option .semicolon take]) T ks := by
  rw [accepts_seq_cons, accepts_seq_cons, accepts_seq_cons, accepts_seq_nil]
  have hcolon := avoids_semicolon (hT.avoids (k := .colon) rfl) (by decide)
  have hequals := avoids_semicolon (hT.avoids (k := .equals) rfl) (by decide)
  refine (typeClause_of_then (avoids_initialValue hcolon (by decide)) h).mono fun ls h => ?_
  exact (initializer_of_then hT.absorbable hequals h).mono fun ms =>
    semicolon_of_then (hT.avoids rfl)

lemma obeys_classMember (hblock : Obeys n block (part .block)) :
    Obeys n (classMember block) (part .classMember) := by
  intro ks T hks h
  have hdrop := (dropWhile_suffix (l := ks) Kind.isModifierKeyword).length_le
  rw [accepts_classMember] at h
  refine then_classMember.2 (h.mono_length fun ls hls h => h.imp (fun h => ?_) fun h => ?_)
  · exact obeys_signature hblock ls T (by omega) h.2
  · have hproperty := obeys_property ls T (Nat.lt_succ_self _) h.2
    rwa [then_both, then_both] at hproperty

lemma classMember_of_then (hblock : Admits n (fun _ => True) block (part .block))
    (hT : AfterMember T) (hks : ks.length < n) (h : Then (part .classMember) T ks) :
    Accepts (classMember block) T ks := by
  have hdrop := (dropWhile_suffix (l := ks) Kind.isModifierKeyword).length_le
  rw [then_classMember] at h
  refine accepts_classMember.2 (h.mono_length fun ls hls h => ?_)
  obtain h | h := h
  · refine .inl ⟨?_, signature_of_then hblock (by omega) h⟩
    rw [then_signature] at h
    exact peek_of_then_token h
  · refine .inr ⟨?_, property_of_then hT h⟩
    -- A property with nothing after its name is followed by `T`, which starts otherwise.
    have hpar := avoids_semicolon (hT.avoids (k := .leftParenthesis) rfl) (by decide)
    rw [then_maybe, then_typeClause] at h
    exact (avoids_initialValue hpar (by decide)).or (by decide) h

lemma peek_of_then_classMember (h : Then (part .classMember) T ks) :
    peek ks = .identifier ∨ (peek ks).isModifierKeyword = true := by
  have hpeek := peek_of_then_token (then_classMember.1 h)
  cases ks with
  | nil => exact .inl hpeek
  | cons k ks =>
    cases hk : k.isModifierKeyword with
    | true => exact .inr hk
    | false =>
      rw [dropWhile_cons_of_neg (by simp [hk])] at hpeek
      exact .inl hpeek

lemma afterMember_many :
    AfterMember (Then (many (part .classMember)) (Then (token .rightCurly) T)) := by
  intro ks h
  obtain h | h := then_many.1 h
  · rw [peek_of_then_token h]
    rfl
  · obtain hk | hk := peek_of_then_classMember h <;> simp [afterMember, hk]

lemma then_classDeclaration_cons : Then (part .classDeclaration) T (k :: ks) ↔
    k = .classKeyword ∧ Then (token .identifier) (Then (token .leftCurly)
      (Then (many (part .classMember)) (Then (token .rightCurly) T))) ks := by
  rw [then_part]
  simp [Category.phrase, Phrase.seq]

lemma accepts_classDeclaration_cons : Accepts (classDeclaration block) T (k :: ks) ↔
    Then (token .identifier) (Then (token .leftCurly) (Accepts
      (repeatUntil (· == .rightCurly) (classMember block)) (Then (token .rightCurly) T))) ks := by
  rw [classDeclaration, accepts_seq_cons, accepts_take_cons, accepts_seq_cons,
    accepts_name, accepts_seq_cons, accepts_seq_nil, accepts_opened (by decide), accepts_seq_cons,
    accepts_seq_cons, accepts_seq_nil, accepts_expect (by decide)]

lemma classDeclaration_of_then (hb : LosslessAhead block)
    (hblock : Admits n (fun _ => True) block (part .block))
    (hks : ks.length < n) (h : Then (part .classDeclaration) T (k :: ks)) :
    Accepts (classDeclaration block) T (k :: ks) := by
  refine accepts_classDeclaration_cons.2
    ((then_classDeclaration_cons.1 h).2.mono_length fun ls hls h => ?_)
  refine h.mono_length fun ms hms h => ?_
  refine repeatWithin_of_then_many (fun _ _ => advances_classMember hb) (fun us h => .inr ?_)
    (fun us U h => ?_) (fun us hus => classMember_of_then hblock afterMember_many (by omega)) _ ms
    (Nat.le_refl _) (Nat.le_refl _) h
  · simp [peek_of_then_token h]
  · obtain hk | hk := peek_of_then_classMember h
    · simp [hk]
    · rintro (hend | hend)
      · rw [hend] at hk
        exact nomatch hk
      · rw [beq_iff_eq.1 hend] at hk
        exact nomatch hk

lemma then_enumMember :
    Then (part .enumMember) T = Then (token .identifier) (Then initialValue T) := by
  funext ks
  rw [then_part]
  simp [Category.phrase, Phrase.seq]

lemma accepts_enumMember :
    Accepts enumMember T = Then (token .identifier) (Accepts initializer T) := by
  rw [enumMember, accepts_node, accepts_seq_cons, accepts_name, accepts_seq_cons, accepts_seq_nil]

lemma obeys_enumMember : Obeys n enumMember (part .enumMember) :=
  (obeys_name.seq obeys_initializer.last).node.named

lemma then_enumDeclaration_cons : Then (part .enumDeclaration) T (k :: ks) ↔
    k = .enumKeyword ∧ Then (token .identifier) (Then (token .leftCurly)
      (Then (list (part .enumMember)) (Then (token .rightCurly) T))) ks := by
  rw [then_part]
  simp [Category.phrase, Phrase.seq]

lemma accepts_enumDeclaration_cons : Accepts enumDeclaration T (k :: ks) ↔
    Then (token .identifier) (Then (token .leftCurly) (Accepts enumMembers.rule T)) ks := by
  rw [enumDeclaration, accepts_seq_cons, accepts_take_cons, accepts_seq_cons,
    accepts_name, accepts_seq_cons, accepts_seq_nil, accepts_opened (by decide), accepts_seq_cons,
    accepts_seq_nil]
  rfl

lemma enumDeclaration_of_then (h : Then (part .enumDeclaration) T (k :: ks)) :
    Accepts enumDeclaration T (k :: ks) := by
  have hitem : Admits (ks.length + 1) (Bracketed .rightCurly) enumMember (part .enumMember) := by
    intro us U _ hU h
    rw [accepts_enumMember]
    rw [then_enumMember] at h
    refine h.mono fun vs h => initializer_of_then (hU.absorbable rfl (by decide)) (fun ws h => ?_) h
    obtain hk | hk := hU ws h <;> rw [hk] <;> decide
  have hstarts : ItemStarts enumMembers (part .enumMember) := by
    refine ⟨fun T ks h => ?_, rfl, rfl, lossless_enumMember.ahead⟩
    rw [then_enumMember] at h
    simp [enumMembers, peek_of_then_token h]
  refine accepts_enumDeclaration_cons.2
    ((then_enumDeclaration_cons.1 h).2.mono_length fun ls hls h => ?_)
  refine h.mono_length fun ms hms h => ?_
  exact Admits.listing (l := enumMembers) hitem hstarts (by decide) (by decide) (by omega) h

lemma then_namespaceDeclaration_cons : Then (part .namespaceDeclaration) T (k :: ks) ↔
    k = .namespaceKeyword ∧ Then (token .identifier) (Then (part .block) T) ks := by
  rw [then_part]
  simp [Category.phrase, Phrase.seq]

lemma accepts_namespaceDeclaration_cons : Accepts (namespaceDeclaration block) T (k :: ks) ↔
    Then (token .identifier) (fun ls => peek ls = .leftCurly ∧ Accepts block T ls) ks := by
  have hbody : Accepts (choose (· == .leftCurly) block (complain .namespaceBody)) T =
      fun ls => peek ls = .leftCurly ∧ Accepts block T ls := by
    funext ls
    simp [accepts_choose]
  rw [namespaceDeclaration, accepts_seq_cons, accepts_take_cons, accepts_seq_cons, accepts_name,
    accepts_seq_cons, accepts_seq_nil, hbody]

lemma then_functionDeclaration_cons : Then (part .functionDeclaration) T (k :: ks) ↔
    k = .functionKeyword ∧ Then (token .identifier) (Then (part .signature) T) ks := by
  rw [then_part]
  simp [Category.phrase, Phrase.seq]

lemma accepts_functionDeclaration_cons : Accepts (functionDeclaration block) T (k :: ks) ↔
    Then (token .identifier) (Accepts (signature block) T) ks := by
  rw [functionDeclaration, accepts_seq_cons, accepts_take_cons, accepts_seq_cons, accepts_name,
    accepts_seq_cons, accepts_seq_nil]

lemma then_declaration : Then declaration T ks ↔ Then (part .variableStatement) T ks ∨
    Then (part .functionDeclaration) T ks ∨ Then (part .classDeclaration) T ks ∨
    Then (part .enumDeclaration) T ks ∨ Then (part .namespaceDeclaration) T ks := by
  simp [declaration, choice]

lemma not_then_declaration_nil : ¬ Then declaration T [] := by
  rw [then_declaration, then_part, then_part, then_part, then_part, then_part]
  simp [Category.phrase, Phrase.seq]

lemma then_of_declaration {body : Rule} (hblock : Obeys n block (part .block))
    (hks : ks.length < n) (hd : declaration? block (peek ks) = some (kind, body))
    (h : Accepts body T ks) : Then declaration T ks := by
  cases ks with
  | nil => exact absurd rfl (declaration_ahead hd)
  | cons k ks =>
    have hlt : ks.length < n := Nat.lt_of_succ_lt hks
    have hmember := obeys_classMember hblock
    have hitems := Obeys.listing (l := enumMembers) (n := n) obeys_enumMember (by decide)
    rw [then_declaration]
    rw [peek_cons] at hd
    cases declares hd with
    | binding hk =>
      refine .inl (then_of_variableStatement ?_ h)
      rcases hk with rfl | rfl | rfl <;> rfl
    | function =>
      refine .inr (.inl (then_part.2 ?_))
      exact (obeys_name.seq (obeys_signature hblock).last).taking rfl hlt h
    | members =>
      refine .inr (.inr (.inl (then_part.2 ?_)))
      have hclose := (obeys_expect (k := .rightCurly) (n := n) (by decide)).last
      exact (obeys_name.seq ((hmember.repeatUntil.seq hclose).opened (by decide)).last).taking rfl
        hlt h
    | enum =>
      refine .inr (.inr (.inr (.inl (then_part.2 ?_))))
      exact (obeys_name.seq (hitems.last.opened (by decide)).last).taking rfl hlt h
    | space =>
      refine .inr (.inr (.inr (.inr (then_part.2 ?_))))
      exact (obeys_name.seq hblock.guarded.last).taking rfl hlt h

lemma declaration_of_then (hb : LosslessAhead block)
    (hblock : Admits n (fun _ => True) block (part .block))
    (hT : Follows T) (hks : ks.length < n) (h : Then declaration T ks) :
    ∃ kind body, declaration? block (peek ks) = some (kind, body) ∧ Accepts body T ks := by
  cases ks with
  | nil => exact absurd h not_then_declaration_nil
  | cons k ks =>
    have hlt : ks.length < n := Nat.lt_of_succ_lt hks
    obtain h | h | h | h | h := then_declaration.1 h
    · have hk := (then_variableStatement_cons.1 h).1
      refine ⟨.variableStatement, variableStatement, ?_, variableStatement_of_then hT h⟩
      revert hk
      cases k <;> simp [isVariableKeyword, declaration?]
    · obtain ⟨rfl, hname⟩ := then_functionDeclaration_cons.1 h
      refine ⟨_, _, rfl, accepts_functionDeclaration_cons.2 ?_⟩
      exact hname.mono_length fun ls hls => signature_of_then hblock (by omega)
    · obtain ⟨rfl, -⟩ := then_classDeclaration_cons.1 h
      exact ⟨_, _, rfl, classDeclaration_of_then hb hblock hlt h⟩
    · obtain ⟨rfl, -⟩ := then_enumDeclaration_cons.1 h
      exact ⟨_, _, rfl, enumDeclaration_of_then h⟩
    · obtain ⟨rfl, hname⟩ := then_namespaceDeclaration_cons.1 h
      refine ⟨_, _, rfl, accepts_namespaceDeclaration_cons.2 ?_⟩
      exact hname.mono_length fun ls hls h =>
        ⟨peek_of_then_block h, hblock ls T (by omega) trivial h⟩

end LiveEdit.Grammar
