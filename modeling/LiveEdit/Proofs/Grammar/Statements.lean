import LiveEdit.Proofs.Grammar.Members

/-! Statements, and so files, are accepted as the grammar derives them. An `else` is given to the
nearest `if`: a derivation that gives it to one further out can be changed. -/

namespace LiveEdit.Grammar
open Outline Rule Phrase List

variable {T U : List Kind → Prop} {k : Kind} {ks ls : List Kind} {n : Nat} {inner : Rule}

def elseBranch : Phrase := maybe (Phrase.seq [token .elseKeyword, part .statement])

lemma then_elseBranch :
    Then elseBranch T ks ↔ Then (token .elseKeyword) (Then (part .statement) T) ks ∨ T ks := by
  simp [elseBranch, Phrase.seq]

def isDeclarationKeyword (k : Kind) : Bool :=
  isVariableKeyword k || k == .functionKeyword || k == .classKeyword || k == .enumKeyword ||
    k == .namespaceKeyword

lemma peek_of_then_declaration (h : Then declaration T ks) :
    isDeclarationKeyword (peek ks) = true := by
  cases ks with
  | nil => exact absurd h not_then_declaration_nil
  | cons k ks =>
    rw [then_declaration, then_variableStatement_cons, then_functionDeclaration_cons,
      then_classDeclaration_cons, then_enumDeclaration_cons, then_namespaceDeclaration_cons] at h
    obtain ⟨hk, -⟩ | ⟨rfl, -⟩ | ⟨rfl, -⟩ | ⟨rfl, -⟩ | ⟨rfl, -⟩ := h
    · simp [isDeclarationKeyword, hk]
    all_goals rfl

lemma then_statement_cons : Then (part .statement) T (k :: ks) ↔
    Then declaration T ((k :: ks).dropWhile Kind.isModifierKeyword) ∨ Then (part .block) T
      (k :: ks) ∨ (k = .returnKeyword ∧ Then (maybe (part .expression)) (Then semicolon T) ks) ∨
    (k = .ifKeyword ∧ Then (token .leftParenthesis) (Then (part .expression)
      (Then (token .rightParenthesis) (Then (part .statement) (Then elseBranch T)))) ks) ∨
    Then plain T (k :: ks) := by
  have hmodifiers : Then (many (one Kind.isModifierKeyword)) (Then declaration T) (k :: ks) ↔
      Then declaration T ((k :: ks).dropWhile Kind.isModifierKeyword) := by
    refine then_many_one fun k ls hk h => ?_
    have hkeyword : isDeclarationKeyword k = true := peek_of_then_declaration h
    revert hk hkeyword
    cases k <;> decide
  rw [← hmodifiers, then_part]
  simp [Category.phrase, choice, Phrase.seq, elseBranch]

lemma not_then_plain_nil : ¬ Then plain T [] := by
  rw [then_plain, then_expression]
  exact not_then_atom_nil

lemma not_then_statement_nil : ¬ Then (part .statement) T [] := by
  have hmodifiers : ¬ Then (many (one Kind.isModifierKeyword)) (Then declaration T) [] := by
    rw [then_many]
    exact not_or.2 ⟨not_then_declaration_nil, then_one_nil⟩
  rw [then_part]
  simp [Category.phrase, choice, Phrase.seq, hmodifiers, not_then_plain_nil, then_block]

def startsStatement (k : Kind) : Bool :=
  k.isModifierKeyword || isDeclarationKeyword k || k == .leftCurly || k == .returnKeyword ||
    k == .ifKeyword || expressionStart.contains k

lemma peek_of_then_plain (h : Then plain T ks) : expressionStart.contains (peek ks) = true := by
  rw [then_plain, then_expression] at h
  exact peek_of_then_atom h

lemma peek_of_then_statement (h : Then (part .statement) T ks) :
    startsStatement (peek ks) = true := by
  cases ks with
  | nil => exact absurd h not_then_statement_nil
  | cons k ks =>
    obtain h | h | ⟨rfl, -⟩ | ⟨rfl, -⟩ | h := then_statement_cons.1 h
    · have hkeyword := peek_of_then_declaration h
      rw [dropWhile_cons] at hkeyword
      split_ifs at hkeyword with hk
      · simp [startsStatement, hk]
      · rw [peek_cons] at hkeyword
        simp [startsStatement, hkeyword]
    · rw [peek_of_then_block h]
      rfl
    · rfl
    · rfl
    · have hk : expressionStart.contains k = true := peek_of_then_plain h
      simp [startsStatement, hk]

lemma then_plain_of_statement (hk : expressionStart.contains k = true ∨ isOperator k = true)
    (h : Then (part .statement) T (k :: ks)) : Then plain T (k :: ks) := by
  have hkeyword : k.isModifierKeyword = false ∧ isDeclarationKeyword k = false ∧
      k ≠ .leftCurly ∧ k ≠ .returnKeyword ∧ k ≠ .ifKeyword := by
    revert hk
    cases k <;> decide
  obtain ⟨hmod, hdecl, hcurly, hret, hif⟩ := hkeyword
  obtain h | h | ⟨rfl, -⟩ | ⟨rfl, -⟩ | h := then_statement_cons.1 h
  · rw [dropWhile_cons_of_neg (by simp [hmod])] at h
    exact absurd (peek_of_then_declaration h) (Bool.eq_false_iff.1 hdecl)
  · exact absurd (peek_of_then_block h) hcurly
  · exact absurd rfl hret
  · exact absurd rfl hif
  · exact h

lemma startsStatement_bare (h : startsStatement k = true) : k ≠ .semicolon ∧ k ≠ .comma ∧
    k ≠ .colon ∧ k ≠ .elseKeyword ∧ k ≠ .rightCurly ∧ k ≠ .endOfFile := by
  revert h
  cases k <;> decide

lemma follows_many (hT : ∀ ks, T ks → ks = [] ∨ peek ks = .rightCurly) :
    Follows (Then (many (part .statement)) T) := by
  -- A token that ends the statements is not one to ask about, and the others start a statement.
  have hstatement : ∀ k ks, k ≠ .rightCurly → Then (many (part .statement)) T (k :: ks) →
      Then (part .statement) (Then (many (part .statement)) T) (k :: ks) := by
    intro k ks hk h
    refine (then_many.1 h).resolve_left fun h => ?_
    obtain hnil | hcurly := hT _ h
    · exact nomatch hnil
    · exact hk hcurly
  refine ⟨fun ks h => ?_, fun k ks hk h => ?_, fun ks h => ?_⟩
  · obtain h | h := then_many.1 h
    · obtain rfl | hcurly := hT ks h
      · decide
      · rw [hcurly]
        decide
    · obtain ⟨hsemi, hcomma, hcolon, -⟩ := startsStatement_bare (peek_of_then_statement h)
      exact ⟨hsemi, hcomma, hcolon⟩
  · have hne : k ≠ .rightCurly := by
      rintro rfl
      revert hk
      decide
    exact then_plain_of_statement hk (hstatement k ks hne h)
  · have hstart := peek_of_then_statement (hstatement _ ks (by decide) h)
    exact nomatch hstart

lemma follows_elseBranch (hT : Follows T) : Follows (Then elseBranch T) := by
  have hmono : ∀ ls, T ls → Then elseBranch T ls := fun ls h => then_maybe.2 (.inr h)
  refine ⟨fun ks h => ?_, fun k ks hk h => ?_, fun ks h => ?_⟩
  · obtain h | h := then_elseBranch.1 h
    · rw [peek_of_then_token h]
      decide
    · exact hT.bare ks h
  · have hne : k ≠ .elseKeyword := by
      rintro rfl
      revert hk
      decide
    have h := (then_elseBranch.1 h).resolve_left fun h => hne (then_token_cons.1 h).1
    exact (hT.expression k ks hk h).mono hmono
  · obtain h | h := then_elseBranch.1 h
    · exact (then_token_cons.1 h).2.mono hmono
    · exact (hT.branch ks h).mono hmono

lemma accepts_block : Accepts (block inner) T = Then (token .leftCurly)
    (Accepts (repeatUntil (· == .rightCurly) inner) (Then (token .rightCurly) T)) := by
  rw [block, accepts_node, accepts_seq_cons, accepts_expect (by decide), accepts_seq_cons,
    accepts_seq_cons, accepts_seq_nil, accepts_expect (by decide)]

lemma accepts_returnStatement_cons : Accepts returnStatement T (k :: ks) ↔ (expressionStart.contains
      (peek ks) = true ∧ Accepts expression (Accepts (option .semicolon take) T) ks) ∨
    (expressionStart.contains (peek ks) = false ∧ Accepts (option .semicolon take) T ks) := by
  rw [returnStatement, accepts_node, accepts_seq_cons, accepts_take_cons, accepts_seq_cons,
    accepts_choose, accepts_skip, accepts_seq_cons, accepts_seq_nil]

lemma accepts_consequence : Accepts (consequence inner) T ks ↔
    (peek ks ≠ .rightCurly ∧ peek ks ≠ .endOfFile) ∧ Accepts inner T ks := by
  rw [consequence, accepts_choose]
  simp

lemma accepts_ifStatement_cons : Accepts (ifStatement inner) T (k :: ks) ↔
    Then (token .leftParenthesis) (Accepts expression (Then (token .rightParenthesis) (Accepts
      (consequence inner) (Accepts (option .elseKeyword (Rule.seq [take, consequence inner])) T))))
      ks := by
  rw [ifStatement, accepts_node, accepts_seq_cons, accepts_take_cons, accepts_seq_cons,
    accepts_expect (by decide), accepts_seq_cons, accepts_seq_cons, accepts_expect (by decide),
    accepts_seq_cons, accepts_seq_cons, accepts_seq_nil]

lemma accepts_expressionStatement : Accepts expressionStatement T =
    Accepts expression (Accepts (option .semicolon take) T) := by
  rw [expressionStatement, accepts_node, accepts_seq_cons, accepts_seq_cons, accepts_seq_nil]

lemma accepts_plainStatement_cons : Accepts (plainStatement inner) T (k :: ks) ↔
    (k = .leftCurly ∧ Accepts (block inner) T (k :: ks)) ∨
    (k = .returnKeyword ∧ Accepts returnStatement T (k :: ks)) ∨
    (k = .ifKeyword ∧ Accepts (ifStatement inner) T (k :: ks)) ∨
    (expressionStart.contains k = true ∧ Accepts expressionStatement T (k :: ks)) := by
  by_cases hcurly : k = .leftCurly
  · subst hcurly
    have h : Accepts (plainStatement inner) T (.leftCurly :: ks) ↔
      Accepts (block inner) T _ := Iff.rfl
    simp [h, expressionStart, TokenSet.contains]
  by_cases hret : k = .returnKeyword
  · subst hret
    have h : Accepts (plainStatement inner) T (.returnKeyword :: ks) ↔
      Accepts returnStatement T _ := Iff.rfl
    simp [h, expressionStart, TokenSet.contains]
  by_cases hif : k = .ifKeyword
  · subst hif
    have h : Accepts (plainStatement inner) T (.ifKeyword :: ks) ↔
      Accepts (ifStatement inner) T _ := Iff.rfl
    simp [h, expressionStart, TokenSet.contains]
  -- Every other kind starts an expression or nothing at all.
  · have heq : plainStatement inner (k :: ks) = choose expressionStart.contains
        expressionStatement (recover .unexpectedToken) (k :: ks) := by
      unfold plainStatement
      simp only [peek_cons]
    have h : Accepts (plainStatement inner) T (k :: ks) ↔ Accepts (choose expressionStart.contains
        expressionStatement (recover .unexpectedToken)) T (k :: ks) := by
      unfold Accepts
      rw [heq]
    simp [h, accepts_choose, hcurly, hret, hif]

lemma isEmpty_modifiers (ks : List Kind) :
    (modifiers ks).1.isEmpty = !(peek ks).isModifierKeyword := by
  cases ks with
  | nil => rfl
  | cons k ks => cases hk : k.isModifierKeyword <;> simp [modifiers, hk]

lemma accepts_statementOver : Accepts (statementOver inner) T ks ↔
    (∃ kind body, declaration? (block inner) (peek (ks.dropWhile Kind.isModifierKeyword)) =
      some (kind, body) ∧ Accepts body T (ks.dropWhile Kind.isModifierKeyword)) ∨
    (declaration? (block inner) (peek ks) = none ∧ (peek ks).isModifierKeyword = false ∧
      Accepts (plainStatement inner) T ks) := by
  change _ ↔ (∃ kind body, declaration? _ (peek (modifiers ks).2) = _ ∧
    Accepts body T (modifiers ks).2) ∨ _
  have hnone := isEmpty_modifiers ks
  cases hd : declaration? (block inner) (peek (modifiers ks).2) with
  | some d =>
    obtain ⟨kind, body⟩ := d
    have heq : statementOver inner ks = nodeFrom (modifiers ks).1 kind body (modifiers ks).2 := by
      simp [statementOver, hd]
    rw [accepts_after_modifiers heq]
    constructor
    · exact fun h => .inl ⟨kind, body, rfl, h⟩
    · rintro (⟨kind, body, ⟨⟩, h⟩ | ⟨hd', hmod, -⟩)
      · exact h
      · rw [hmod] at hnone
        rw [modifiers_of_isEmpty hnone, hd'] at hd
        exact nomatch hd
  | none =>
    cases hmod : (peek ks).isModifierKeyword with
    | true =>
      -- Modifiers that no declaration follows are a fault, and no phrase begins with them.
      rw [hmod] at hnone
      have heq : statementOver inner ks =
          nodeFrom (modifiers ks).1 .error (complain .declaration) (modifiers ks).2 := by
        simp [statementOver, hd, hnone]
      rw [accepts_after_modifiers heq]
      simp
    | false =>
      rw [hmod] at hnone
      have hrest := modifiers_of_isEmpty hnone
      rw [hrest] at hd
      have heq : statementOver inner ks = plainStatement inner ks := by
        simp [statementOver, hd, hnone, hrest]
      unfold Accepts
      rw [heq]
      simp [hd]

lemma obeys_block (h : Obeys n inner (part .statement)) :
    Obeys (n + 1) (block inner) (part .block) := by
  intro ks T hks ha
  rw [accepts_block] at ha
  rw [then_block]
  exact ha.mono_one fun ls hls ha => h.repeatUntil ls _ (by omega) ha

lemma then_of_returnStatement (h : Accepts returnStatement T (k :: ks)) :
    Then (maybe (part .expression)) (Then semicolon T) ks := by
  rw [returnStatement, accepts_node, accepts_seq_cons, accepts_take_cons] at h
  rw [← then_both]
  exact (obeys_expression.choose obeys_skip).seq obeys_semicolon.last ks T (Nat.lt_succ_self _) h

lemma then_of_ifStatement (h : Obeys n inner (part .statement))
    (hks : ks.length < n) (ha : Accepts (ifStatement inner) T (k :: ks)) :
    Then (token .leftParenthesis) (Then (part .expression)
      (Then (token .rightParenthesis) (Then (part .statement) (Then elseBranch T)))) ks := by
  have hthen : Obeys n (consequence inner) (part .statement) :=
    fun ks T hks ha => h ks T hks (accepts_consequence.1 ha).2
  have helse : Obeys n (option .elseKeyword (Rule.seq [take, consequence inner])) elseBranch :=
    (hthen.last.option_seq (by decide)).mono (Nat.le_succ n)
  have hclose := (obeys_expect (k := .rightParenthesis) (by decide)).seq (hthen.seq helse.last)
  have hopen := (obeys_expect (k := .leftParenthesis) (by decide)).seq (obeys_expression.seq hclose)
  rw [ifStatement, accepts_node, accepts_seq_cons, accepts_take_cons] at ha
  simpa only [then_both] using hopen ks T hks ha

lemma obeys_expressionStatement : Obeys n expressionStatement plain :=
  (obeys_expression.seq obeys_semicolon.last).node

lemma obeys_statementOver (h : Obeys n inner (part .statement)) :
    Obeys (n + 1) (statementOver inner) (part .statement) := by
  intro ks T hks ha
  have hblock := obeys_block h
  cases ks with
  | nil =>
    obtain ⟨kind, body, hd, -⟩ | ⟨-, -, ha⟩ := accepts_statementOver.1 ha
    · exact nomatch hd
    · exact absurd ha accepts_recover
  | cons k ks =>
    rw [then_statement_cons]
    obtain ⟨kind, body, hd, ha⟩ | ⟨-, -, ha⟩ := accepts_statementOver.1 ha
    · have hdrop := (dropWhile_suffix (l := k :: ks) Kind.isModifierKeyword).length_le
      exact .inl (then_of_declaration hblock (Nat.lt_of_le_of_lt hdrop hks) hd ha)
    · obtain ⟨-, ha⟩ | ⟨hk, ha⟩ | ⟨hk, ha⟩ | ⟨-, ha⟩ := accepts_plainStatement_cons.1 ha
      · exact .inr (.inl (hblock _ T hks ha))
      · exact .inr (.inr (.inl ⟨hk, then_of_returnStatement ha⟩))
      · exact .inr (.inr (.inr (.inl ⟨hk, then_of_ifStatement h (Nat.lt_of_succ_lt_succ hks) ha⟩)))
      · exact .inr (.inr (.inr (.inr (obeys_expressionStatement _ T hks ha))))

lemma obeys_statementWithin (n : Nat) : Obeys n (statementWithin n) (part .statement) := by
  induction n with
  | zero => exact fun ks T hks => absurd hks (Nat.not_lt_zero _)
  | succ n ih => exact obeys_statementOver ih

lemma admits_block (hadv : ∀ ks, ks.length < n → ks ≠ [] → Advances inner ks)
    (h : Admits n Follows inner (part .statement)) :
    Admits (n + 1) (fun _ => True) (block inner) (part .block) := by
  intro ks T hks _ ha
  rw [accepts_block]
  rw [then_block] at ha
  refine ha.mono_one fun ls hls ha => ?_
  have hend : ∀ ms, Then (token .rightCurly) T ms → peek ms = .rightCurly :=
    fun ms => peek_of_then_token
  refine repeatWithin_of_then_many (fun ms hms => hadv ms (by omega)) (fun ms h =>
    .inr (by simp [hend ms h])) (fun ms U h => ?_) (fun ms hms => h ms _ (by omega)
      (follows_many fun us h => .inr (hend us h))) _ ls (Nat.le_refl _) (Nat.le_refl _) ha
  obtain ⟨-, -, -, -, hcurly, hend⟩ := startsStatement_bare (peek_of_then_statement h)
  simp [hcurly, hend]

lemma Follows.then_expression (hT : Follows T) (hk : expressionStart.contains (peek ks) = true)
    (h : Then semicolon T ks) : Then (part .expression) (Then semicolon T) ks := by
  rw [← then_plain]
  cases ks with
  | nil => exact nomatch hk
  | cons k ks =>
    refine hT.expression k ks (.inl hk) ((then_semicolon_of_ne ?_).1 h)
    rintro rfl
    exact nomatch hk

lemma Follows.semicolon_of_then (hT : Follows T) (h : Then semicolon T ks) :
    Accepts (option .semicolon take) T ks :=
  Grammar.semicolon_of_then (fun ls h => (hT.bare ls h).1) h

lemma returnStatement_of_then (hT : Follows T)
    (h : Then (maybe (part .expression)) (Then semicolon T) ks) :
    Accepts returnStatement T (k :: ks) := by
  rw [accepts_returnStatement_cons]
  cases hk : expressionStart.contains (peek ks) with
  | true =>
    have hexp := (then_maybe.1 h).elim id (hT.then_expression hk)
    exact .inl ⟨rfl, (expression_of_then hT.absorbable hexp).mono fun _ => hT.semicolon_of_then⟩
  | false =>
    refine .inr ⟨rfl, hT.semicolon_of_then ((then_maybe.1 h).resolve_left fun hexp => ?_)⟩
    exact Bool.false_ne_true (hk.symm.trans (peek_of_then_atom (Grammar.then_expression.1 hexp)))

lemma consequence_of_then (h : Admits n Follows inner (part .statement))
    (hT : Follows T) (hks : ks.length < n) (ha : Then (part .statement) T ks) :
    Accepts (consequence inner) T ks := by
  obtain ⟨-, -, -, -, hcurly, hend⟩ := startsStatement_bare (peek_of_then_statement ha)
  exact accepts_consequence.2 ⟨⟨hcurly, hend⟩, h ks T hks hT ha⟩

lemma elseBranch_of_then (h : Admits n Follows inner (part .statement)) (hT : Follows T)
    (hks : ks.length < n) (ha : Then elseBranch T ks) :
    Accepts (option .elseKeyword (Rule.seq [take, consequence inner])) T ks := by
  -- The `else` is this one's by the derivation, or it can be made this one's.
  have hown : Then (token .elseKeyword) (Then (part .statement) T) ks ∨
      (peek ks ≠ .elseKeyword ∧ T ks) := by
    refine (then_elseBranch.1 ha).elim .inl fun ha => ?_
    by_cases hk : peek ks = .elseKeyword
    · obtain ⟨ls, rfl⟩ := exists_of_peek hk (by decide)
      exact .inl (then_token_cons.2 ⟨rfl, hT.branch ls ha⟩)
    · exact .inr ⟨hk, ha⟩
  refine (accepts_option_seq (by decide)).2 (hown.imp_left fun ha => ?_)
  rw [accepts_seq_cons, accepts_seq_nil]
  exact ha.mono_one fun ls hls => consequence_of_then h hT (by omega)

lemma ifStatement_of_then (hi : LosslessAhead inner)
    (h : Admits n Follows inner (part .statement)) (hT : Follows T) (hks : ks.length < n)
    (ha : Then (token .leftParenthesis) (Then (part .expression)
      (Then (token .rightParenthesis) (Then (part .statement) (Then elseBranch T)))) ks) :
    Accepts (ifStatement inner) T (k :: ks) := by
  refine accepts_ifStatement_cons.2 (ha.mono_length fun ls hls ha => ?_)
  refine expression_of_then (absorbable_token rfl (by decide)) (ha.mono_length fun ms hms ha => ?_)
  refine ha.mono_length fun us hus ha => ?_
  have hfirst := consequence_of_then h (follows_elseBranch hT) (show us.length < n by omega) ha
  refine (hfirst.with_length (lossless_consequence hi us)).mono ?_
  rintro vs ⟨hvs, ha⟩
  exact elseBranch_of_then h hT (by omega) ha

lemma expressionStatement_of_then (hT : Follows T) (h : Then plain T ks) :
    Accepts expressionStatement T ks := by
  rw [then_plain] at h
  rw [accepts_expressionStatement]
  exact (expression_of_then hT.absorbable h).mono fun _ => hT.semicolon_of_then

lemma admits_statementOver (hi : LosslessAhead inner)
    (hadv : ∀ ks, ks.length < n → ks ≠ [] → Advances inner ks)
    (h : Admits n Follows inner (part .statement)) :
    Admits (n + 1) Follows (statementOver inner) (part .statement) := by
  intro ks T hks hT ha
  have hblock := admits_block hadv h
  cases ks with
  | nil => exact absurd ha not_then_statement_nil
  | cons k ks =>
    rw [accepts_statementOver]
    obtain hd | hb | ⟨rfl, hr⟩ | ⟨rfl, hc⟩ | hp := then_statement_cons.1 ha
    · have hdrop := (dropWhile_suffix (l := k :: ks) Kind.isModifierKeyword).length_le
      exact .inl
        (declaration_of_then (lossless_block hi).ahead hblock hT (Nat.lt_of_le_of_lt hdrop hks) hd)
    · obtain rfl : k = .leftCurly := peek_of_then_block hb
      exact .inr ⟨rfl, rfl, accepts_plainStatement_cons.2 (.inl ⟨rfl, hblock _ T hks trivial hb⟩)⟩
    · refine .inr ⟨rfl, rfl, accepts_plainStatement_cons.2 (.inr (.inl ⟨rfl, ?_⟩))⟩
      exact returnStatement_of_then hT hr
    · refine .inr ⟨rfl, rfl, accepts_plainStatement_cons.2 (.inr (.inr (.inl ⟨rfl, ?_⟩)))⟩
      exact ifStatement_of_then hi h hT (Nat.lt_of_succ_lt_succ hks) hc
    · have hk : expressionStart.contains k = true := peek_of_then_plain hp
      have hkeyword : declaration? (block inner) k = none ∧ k.isModifierKeyword = false := by
        obtain rfl | rfl | rfl | rfl | rfl := expressionStart_cases hk <;> exact ⟨rfl, rfl⟩
      refine .inr ⟨hkeyword.1, hkeyword.2, accepts_plainStatement_cons.2 ?_⟩
      exact .inr (.inr (.inr ⟨hk, expressionStatement_of_then hT hp⟩))

lemma advances_statementWithin (hn : ks.length < n) (hks : ks ≠ []) :
    Advances (statementWithin n) ks := by
  cases n with
  | zero => exact absurd hn (Nat.not_lt_zero _)
  | succ n => exact advances_statementOver (ahead_statementWithin n) hks

lemma admits_statementWithin (n : Nat) :
    Admits n Follows (statementWithin n) (part .statement) := by
  induction n with
  | zero => exact fun ks T hks => absurd hks (Nat.not_lt_zero _)
  | succ n ih =>
    exact admits_statementOver (ahead_statementWithin n) (fun ls => advances_statementWithin) ih

lemma accepts_statement_eq :
    Accepts statement T ks ↔ Accepts (statementWithin (ks.length + 1)) T ks := by
  unfold Accepts statement
  exact Iff.rfl

lemma obeys_statement : Obeys n statement (part .statement) := fun ks T _ h =>
  obeys_statementWithin _ ks T (Nat.lt_succ_self _) (accepts_statement_eq.1 h)

lemma statement_of_then (hT : Follows T) (h : Then (part .statement) T ks) :
    Accepts statement T ks :=
  accepts_statement_eq.2 (admits_statementWithin _ ks T (Nat.lt_succ_self _) hT h)

lemma obeys_file : Obeys n file (part .file) := obeys_statement.repeatUntil.named

lemma file_of_then (h : Then (part .file) (· = []) ks) : Accepts file (· = []) ks := by
  have hT : Follows (Then (many (part .statement)) (· = [])) := follows_many fun _ h => .inl h
  refine repeatWithin_of_then_many (fun ls _ => advances_statement) (fun ls h => .inl ?_)
    (fun ls U h => ?_) (fun ls _ => statement_of_then hT) _ ks (Nat.le_refl _) (Nat.le_refl _)
    (then_part.1 h)
  · rw [h]
    rfl
  · simp [(startsStatement_bare (peek_of_then_statement h)).2.2.2.2.2]

lemma faults_ofKinds_iff (h : .endOfFile ∉ ks) :
    faultsAll (ofKinds ks) = [] ↔ Derives (part .file) ks := by
  rw [← then_nil_iff]
  constructor
  · exact fun hf => obeys_file ks _ (Nat.lt_succ_self _) ⟨hf, file_rest h⟩
  · exact fun hd => (file_of_then hd).1

end LiveEdit.Grammar
