import LiveEdit.Proofs.Grammar.Acceptance

/-! Expressions are accepted as the grammar derives them, though the reader takes as much as it can.
-/

namespace LiveEdit.Grammar
open Rule Phrase List

variable {T U : List Kind → Prop} {a : Phrase} {k : Kind} {ks ls : List Kind} {n : Nat}
  {l : Listing} {e r : Rule} {c : Kind}

lemma then_expression : Then (part .expression) T ks ↔ Then (part .atom) (Then chain T) ks := by
  rw [then_part]
  simp [Category.phrase, Phrase.seq]

lemma then_chain :
    Then chain T ks ↔ T ks ∨ Then (one isOperator) (Then (part .atom) (Then chain T)) ks := by
  rw [chain, then_many]
  simp [Phrase.seq]

@[simp] lemma not_then_atom_nil : ¬ Then (part .atom) T [] := by
  rw [then_part]
  simp [Category.phrase, choice, Phrase.seq]

lemma then_atom_cons : Then (part .atom) T (k :: ks) ↔
    (k = .number ∧ T ks) ∨ (k = .string ∧ T ks) ∨ (k = .minus ∧ Then (token .number) T ks) ∨
    (k = .identifier ∧ (Then (part .arguments) T ks ∨ T ks)) ∨
    (k = .leftParenthesis ∧ Then (part .expression) (Then (token .rightParenthesis) T) ks) := by
  rw [then_part]
  simp [Category.phrase, choice, Phrase.seq]

lemma then_arguments : Then (part .arguments) T = Then (token .leftParenthesis)
    (Then (list (part .expression)) (Then (token .rightParenthesis) T)) := by
  funext ks
  rw [then_part]
  simp [Category.phrase, Phrase.seq]

lemma peek_of_then_atom (h : Then (part .atom) T ks) :
    expressionStart.contains (peek ks) = true := by
  cases ks with
  | nil => exact absurd h not_then_atom_nil
  | cons k ks =>
    rw [then_atom_cons] at h
    obtain ⟨rfl, -⟩ | ⟨rfl, -⟩ | ⟨rfl, -⟩ | ⟨rfl, -⟩ | ⟨rfl, -⟩ := h <;> rfl

def MoreItems (a : Phrase) (T : List Kind → Prop) : List Kind → Prop :=
  Then (many (Phrase.seq [token .comma, a])) (Then (maybe (token .comma)) T)

lemma then_list : Then (list a) T ks ↔ Then a (MoreItems a T) ks ∨ T ks := by
  simp [list, Phrase.seq, MoreItems]

lemma moreItems_iff : MoreItems a T ks ↔ Then (token .comma) (Then (list a) T) ks ∨ T ks := by
  have hlist : Then (list a) T = fun ls => Then a (MoreItems a T) ls ∨ T ls :=
    funext fun _ => propext then_list
  rw [MoreItems, then_many, hlist]
  cases ks with
  | nil => simp [Phrase.seq]
  | cons k ks =>
    by_cases hk : k = .comma <;> simp [Phrase.seq, MoreItems, hk, or_comm, or_left_comm, or_assoc]

def Bracketed (c : Kind) (T : List Kind → Prop) : Prop :=
  ∀ ks, T ks → peek ks = .comma ∨ peek ks = c

lemma bracketed_moreItems : Bracketed c (MoreItems a (Then (token c) T)) := by
  intro ks h
  exact (moreItems_iff.1 h).imp peek_of_then_token peek_of_then_token

lemma accepts_within : Accepts (l.within (n + 1)) T ks ↔
    if peek ks = .endOfFile ∨ peek ks = l.close then T ks
    else if l.starts (peek ks) = true then
      Accepts l.item (Accepts (option .comma (Rule.seq [take, l.within n])) T) ks
    else l.stops (peek ks) = true ∧ T ks := by
  rw [Listing.within, accepts_choose]
  split_ifs with hend hstart
  · have hp : (peek ks == .endOfFile || peek ks == l.close) = true := by simpa using hend
    simp [hp]
  · have hp : (peek ks == .endOfFile || peek ks == l.close) = false := by simpa using hend
    simp [hp, accepts_choose, hstart]
  · have hp : (peek ks == .endOfFile || peek ks == l.close) = false := by simpa using hend
    simp [hp, accepts_choose, hstart]

/-- What a list needs to know of its items to be read as the grammar derives it: with which kinds
they start, and that neither bracket nor end is one of them. -/
structure ItemStarts (l : Listing) (a : Phrase) : Prop where
  start : ∀ T ks, Then a T ks → l.starts (peek ks) = true
  not_end : l.starts .endOfFile = false
  not_close : l.starts l.close = false
  lossless : LosslessAhead l.item

lemma Obeys.within (h : Obeys n l.item a) (m : Nat) : Obeys n (l.within m) (list a) := by
  induction m with
  | zero =>
    intro ks T _ ha
    rw [Listing.within, accepts_skip] at ha
    exact then_list.2 (.inr ha)
  | succ m ih =>
    intro ks T hks ha
    rw [accepts_within] at ha
    split_ifs at ha
    · exact then_list.2 (.inr ha)
    · refine then_list.2 (.inl ((h ks _ hks ha).mono_length fun ls hls ha => moreItems_iff.2 ?_))
      refine ((accepts_option_seq (by decide)).1 ha).imp (fun ha => ?_) And.right
      exact ha.mono_one fun ms hms => ih.last ms T (by omega)
    · exact then_list.2 (.inr ha.2)

lemma Obeys.listing (h : Obeys n l.item a) (hend : l.close ≠ .endOfFile) :
    Obeys n l.rule (both (list a) (token l.close)) :=
  Obeys.seq (fun ks T hks ha => h.within ks.length ks T hks ha) (obeys_expect hend).last

lemma Admits.within (h : Admits n (Bracketed l.close) l.item a)
    (hl : ItemStarts l a) (hclose : l.close ≠ .comma) (m : Nat) (ks : List Kind)
    (hks : ks.length < n) (hm : ks.length ≤ m) (ha : Then (list a) (Then (token l.close) T) ks) :
    Accepts (l.within m) (Then (token l.close) T) ks := by
  induction m generalizing ks with
  | zero =>
    obtain rfl : ks = [] := eq_nil_of_length_eq_zero (Nat.le_zero.1 hm)
    rw [Listing.within, accepts_skip]
    refine (then_list.1 ha).resolve_left fun ha => ?_
    exact Bool.false_ne_true (hl.not_end.symm.trans (hl.start _ _ ha))
  | succ m ih =>
    rw [accepts_within]
    obtain ha | hT := then_list.1 ha
    · have hstart := hl.start _ _ ha
      have hne : ks ≠ [] := ne_nil_of_peek hstart hl.not_end
      have hend : ¬ (peek ks = .endOfFile ∨ peek ks = l.close) := by
        rintro (hk | hk) <;> rw [hk] at hstart
        · exact Bool.false_ne_true (hl.not_end.symm.trans hstart)
        · exact Bool.false_ne_true (hl.not_close.symm.trans hstart)
      rw [if_neg hend, if_pos hstart]
      refine ((h ks _ hks bracketed_moreItems ha).with_length (hl.lossless ks hne)).mono ?_
      rintro ls ⟨hlen, hmore⟩
      -- The comma is not what closes the list, so it is one between items or after the last.
      refine (accepts_option_seq (by decide)).2
        ((moreItems_iff.1 hmore).imp (fun hmore => ?_) fun hT => ⟨?_, hT⟩)
      · refine hmore.mono_one fun ms hms hlist => ?_
        rw [accepts_seq_cons, accepts_seq_nil]
        exact ih ms (by omega) (by omega) hlist
      · rwa [peek_of_then_token hT]
    · rwa [if_pos (.inr (peek_of_then_token hT))]

lemma Admits.listing (h : Admits n (Bracketed l.close) l.item a) (hl : ItemStarts l a)
    (hend : l.close ≠ .endOfFile) (hclose : l.close ≠ .comma) (hks : ks.length < n)
    (ha : Then (list a) (Then (token l.close) T) ks) : Accepts l.rule T ks := by
  rw [Listing.rule, accepts_seq_cons, accepts_seq_cons, accepts_seq_nil, accepts_expect hend]
  exact h.within hl hclose ks.length ks hks (Nat.le_refl _) ha

lemma operators_contains (k : Kind) : operators.contains k = isOperator k := by
  cases k <;> rfl

lemma accepts_word {kind : Kind} {c : Complaint} : Accepts
      (choose (· == .identifier) (node kind take) (complain c)) T = Then (token .identifier) T := by
  funext ks
  cases ks with
  | nil => simp [accepts_choose]
  | cons k ks => simp [accepts_choose]

lemma accepts_name : Accepts name T = Then (token .identifier) T := accepts_word

lemma obeys_name : Obeys n name (token .identifier) := by
  intro ks T _ ha
  rwa [accepts_name] at ha

def argumentsOver (e : Rule) : Listing :=
  ⟨expressionStart.contains, e, .rightParenthesis, listRecovery.contains, .unexpectedInArguments⟩

lemma accepts_atom_cons : Accepts (atom e) T (k :: ks) ↔
    (k = .number ∧ T ks) ∨ (k = .string ∧ T ks) ∨ (k = .minus ∧ Then (token .number) T ks) ∨
    (k = .identifier ∧ (Then (token .leftParenthesis) (Accepts (argumentsOver e).rule T) ks ∨
      (peek ks ≠ .leftParenthesis ∧ T ks))) ∨
    (k = .leftParenthesis ∧ Accepts e (Then (token .rightParenthesis) T) ks) := by
  by_cases hid : k = .identifier
  · subst hid
    have h : Accepts (atom e) T (.identifier :: ks) ↔ Accepts (extend .callExpression
      (node .nameExpression name) (· == .leftParenthesis) (arguments e)) T _ := Iff.rfl
    rw [h, accepts_extend, accepts_node, accepts_name]
    cases ks with
    | nil => simp
    | cons l ls => simp [arguments, argumentsOver]
  by_cases hnum : k = .number
  · subst hnum
    have h : Accepts (atom e) T (.number :: ks) ↔ Accepts (node .literalExpression take) T _ :=
      Iff.rfl
    simp [h]
  by_cases hstr : k = .string
  · subst hstr
    have h : Accepts (atom e) T (.string :: ks) ↔ Accepts (node .literalExpression take) T _ :=
      Iff.rfl
    simp [h]
  by_cases hmin : k = .minus
  · subst hmin
    have h : Accepts (atom e) T (.minus :: ks) ↔
      Accepts (node .literalExpression (Rule.seq [take, expect .number])) T _ := Iff.rfl
    simp [h, accepts_expect]
  by_cases hpar : k = .leftParenthesis
  · subst hpar
    have h : Accepts (atom e) T (.leftParenthesis :: ks) ↔ Accepts (node .parenthesizedExpression
      (Rule.seq [take, e, expect .rightParenthesis])) T _ := Iff.rfl
    simp [h, accepts_expect]
  · have h : atom e (k :: ks) = complain .expression (k :: ks) := by
      unfold atom
      simp only [peek_cons]
    have hno : ¬ Accepts (atom e) T (k :: ks) := by
      unfold Accepts
      rw [h]
      exact accepts_complain
    simp [hno, hid, hnum, hstr, hmin, hpar]

lemma accepts_operations_zero : Accepts (operations r 0) T = T := accepts_skip

lemma accepts_operations : Accepts (operations r (n + 1)) T ks ↔
    Then (one isOperator) (fun ls => expressionStart.contains (peek ls) = true ∧
      Accepts r (Accepts (operations r n) T) ls) ks ∨ (isOperator (peek ks) = false ∧ T ks) := by
  cases ks with
  | nil => simp [operations, accepts_choose, operators_contains, isOperator]
  | cons k ks => simp [operations, accepts_choose, operators_contains]

lemma accepts_operations_nil : Accepts (operations r n) T [] ↔ T [] := by
  cases n with
  | zero => rw [accepts_operations_zero]
  | succ n => simp [accepts_operations, isOperator]

lemma accepts_expressionOver :
    Accepts (expressionOver e) T ks ↔ expressionStart.contains (peek ks) = true ∧
    Accepts (atom e) (fun ls => Accepts (operations (atom e) ls.length) T ls) ks := by
  have hchain : (fun ls => (operators.contains (peek ls) = true ∧
      Accepts (fun ks => operations (atom e) ks.length ks) T ls) ∨
        (operators.contains (peek ls) = false ∧ T ls)) =
      fun ls => Accepts (operations (atom e) ls.length) T ls := by
    funext ls
    change ((_ ∧ Accepts (operations (atom e) ls.length) T ls) ∨ _) = _
    cases ls with
    | nil => simp [operators_contains, isOperator, accepts_operations_nil]
    | cons k ls =>
      cases hk : isOperator k <;> simp [operators_contains, accepts_operations, hk]
  rw [expressionOver, accepts_choose, accepts_extend, hchain]
  simp

structure Absorbable (T : List Kind → Prop) : Prop where
  operator : ∀ k ks, isOperator k = true → T (k :: ks) → Then (part .atom) (Then chain T) ks
  arguments : ∀ ks, T (.leftParenthesis :: ks) →
    Then (part .arguments) (Then chain T) (.leftParenthesis :: ks)

lemma absorbable_of_peek (h : ∀ ks, T ks → isOperator (peek ks) = false ∧
    peek ks ≠ .leftParenthesis) : Absorbable T where
  operator _ _ hk hT := absurd hk (Bool.eq_false_iff.1 (h _ hT).1)
  arguments _ hT := absurd rfl (h _ hT).2

lemma Bracketed.absorbable (h : Bracketed c T) (hop : isOperator c = false)
    (hpar : c ≠ .leftParenthesis) : Absorbable T := by
  refine absorbable_of_peek fun ks hT => ?_
  obtain hk | hk := h ks hT <;> rw [hk]
  · exact ⟨rfl, by decide⟩
  · exact ⟨hop, hpar⟩

lemma absorbable_token (hop : isOperator c = false) (hpar : c ≠ .leftParenthesis) :
    Absorbable (Then (token c) T) := by
  refine absorbable_of_peek fun ks hT => ?_
  rw [peek_of_then_token hT]
  exact ⟨hop, hpar⟩

lemma Obeys.atom (h : Obeys n e (part .expression)) : Obeys (n + 1) (atom e) (part .atom) := by
  intro ks T hks ha
  cases ks with
  | nil => exact absurd ha accepts_complain
  | cons k ks =>
    have hlen : ks.length < n := Nat.lt_of_succ_lt_succ hks
    rw [then_atom_cons]
    rw [accepts_atom_cons] at ha
    obtain ha | ha | ha | ⟨hk, ha⟩ | ⟨hk, ha⟩ := ha
    · exact .inl ha
    · exact .inr (.inl ha)
    · exact .inr (.inr (.inl ha))
    · refine .inr (.inr (.inr (.inl ⟨hk, ha.imp (fun ha => ?_) And.right⟩)))
      rw [then_arguments, ← then_both (a := list _)]
      exact ha.mono_one fun ls hls =>
        Obeys.listing (l := argumentsOver e) h Kind.noConfusion ls T (by omega)
    · exact .inr (.inr (.inr (.inr ⟨hk, h ks _ hlen ha⟩)))

lemma Admits.atom (he : Lossless e) (h : Admits n Absorbable e (part .expression))
    (hT : ∀ ks, T (.leftParenthesis :: ks) → Then (part .arguments) T (.leftParenthesis :: ks))
    (hks : ks.length ≤ n) (ha : Then (part .atom) T ks) : Accepts (Grammar.atom e) T ks := by
  cases ks with
  | nil => exact absurd ha not_then_atom_nil
  | cons k ks =>
    have hlen : ks.length < n := hks
    rw [accepts_atom_cons]
    rw [then_atom_cons] at ha
    obtain ha | ha | ha | ⟨hk, ha⟩ | ⟨hk, ha⟩ := ha
    · exact .inl ha
    · exact .inr (.inl ha)
    · exact .inr (.inr (.inl ha))
    · refine .inr (.inr (.inr (.inl ⟨hk, ?_⟩)))
      -- An opening parenthesis after a name starts arguments, in any derivation.
      by_cases hpar : peek ks = .leftParenthesis
      · obtain ⟨ls, rfl⟩ := exists_of_peek hpar (by decide)
        have harg := ha.elim id (hT ls)
        rw [then_arguments] at harg
        have hitem : Admits n (Bracketed .rightParenthesis) e (part .expression) :=
          fun ks U hks hU => h ks U hks (hU.absorbable rfl Kind.noConfusion)
        have hstarts : ItemStarts (argumentsOver e) (part .expression) :=
          ⟨fun T ks hexp => peek_of_then_atom (then_expression.1 hexp), rfl, rfl, he.ahead⟩
        exact .inl (harg.mono_one fun ms hms =>
          hitem.listing hstarts Kind.noConfusion Kind.noConfusion (by omega))
      · refine .inr ⟨hpar, ha.resolve_left fun harg => hpar ?_⟩
        rw [then_arguments] at harg
        exact peek_of_then_token harg
    · exact .inr (.inr (.inr (.inr ⟨hk, h ks _ hlen (absorbable_token rfl (by decide)) ha⟩)))

lemma Obeys.operations (h : Obeys n r (part .atom)) (m : Nat) : Obeys n (operations r m) chain := by
  induction m with
  | zero =>
    intro ks T _ ha
    rw [accepts_operations_zero] at ha
    exact then_many.2 (.inl ha)
  | succ m ih =>
    intro ks T hks ha
    refine then_chain.2 ((accepts_operations.1 ha).symm.imp And.right fun ha => ?_)
    refine ha.mono_one fun ls hls ha => ?_
    exact (h ls _ (by omega) ha.2).mono_length fun ms hms => ih ms T (by omega)

lemma operations_of_then_chain (hr : Lossless r) (hT : Absorbable T)
    (h : ∀ ks, ks.length ≤ n → Then (part .atom) (Then chain T) ks → Accepts r (Then chain T) ks)
    (m : Nat) (ks : List Kind) (hks : ks.length ≤ n) (hm : ks.length ≤ m)
    (ha : Then chain T ks) : Accepts (operations r m) T ks := by
  induction m generalizing ks with
  | zero =>
    obtain rfl : ks = [] := eq_nil_of_length_eq_zero (Nat.le_zero.1 hm)
    exact accepts_operations_nil.2 ((then_chain.1 ha).resolve_right then_one_nil)
  | succ m ih =>
    -- An operator that satisfies `T` starts more of the chain.
    have hchain : (isOperator (peek ks) = false ∧ T ks) ∨
        Then (one isOperator) (Then (part .atom) (Then chain T)) ks := by
      refine (then_chain.1 ha).elim (fun hks => ?_) .inr
      cases ks with
      | nil => exact .inl ⟨rfl, hks⟩
      | cons k ks =>
        cases hk : isOperator k with
        | false => exact .inl ⟨hk, hks⟩
        | true => exact .inr (then_one_cons.2 ⟨hk, hT.operator k ks hk hks⟩)
    refine accepts_operations.2 (hchain.symm.imp_left fun ha => ha.mono_one fun ls hls hatom => ?_)
    refine ⟨peek_of_then_atom hatom, ((h ls (by omega) hatom).with_length (hr ls)).mono ?_⟩
    rintro ms ⟨hms, hchain⟩
    exact ih ms (by omega) (by omega) hchain

lemma obeys_expressionWithin (n : Nat) : Obeys n (expressionWithin n) (part .expression) := by
  induction n with
  | zero => exact fun ks T hks => absurd hks (Nat.not_lt_zero _)
  | succ n ih =>
    intro ks T hks ha
    rw [then_expression]
    refine (ih.atom ks _ hks (accepts_expressionOver.1 ha).2).mono_length fun ls hls => ?_
    exact ih.atom.operations ls.length ls T (Nat.lt_of_le_of_lt hls hks)

lemma admits_expressionWithin (n : Nat) :
    Admits n Absorbable (expressionWithin n) (part .expression) := by
  induction n with
  | zero => exact fun ks T hks => absurd hks (Nat.not_lt_zero _)
  | succ n ih =>
    intro ks T hks hT h
    have he := lossless_expressionWithin n
    have hopen : ∀ ls, Then chain T (.leftParenthesis :: ls) →
        Then (part .arguments) (Then chain T) (.leftParenthesis :: ls) := by
      intro ls hls
      exact (then_chain.1 hls).elim (hT.arguments ls) fun hop => nomatch (then_one_cons.1 hop).1
    have hatom : ∀ ks, ks.length ≤ n → Then (part .atom) (Then chain T) ks →
        Accepts (atom (expressionWithin n)) (Then chain T) ks :=
      fun ks hks ha => ih.atom he hopen hks ha
    have hle : ks.length ≤ n := Nat.le_of_lt_succ hks
    rw [then_expression] at h
    refine accepts_expressionOver.2 ⟨peek_of_then_atom h, ?_⟩
    refine ((hatom ks hle h).with_length (lossless_atom he ks)).mono ?_
    rintro ls ⟨hls, hchain⟩
    exact operations_of_then_chain (lossless_atom he) hT hatom _ ls (Nat.le_trans hls hle)
      (Nat.le_refl _) hchain

lemma accepts_expression_eq :
    Accepts expression T ks ↔ Accepts (expressionWithin (ks.length + 1)) T ks := by
  unfold Accepts expression
  exact Iff.rfl

lemma obeys_expression : Obeys n expression (part .expression) := fun ks T _ h =>
  obeys_expressionWithin _ ks T (Nat.lt_succ_self _) (accepts_expression_eq.1 h)

lemma expression_of_then (hT : Absorbable T) (h : Then (part .expression) T ks) :
    Accepts expression T ks :=
  accepts_expression_eq.2 (admits_expressionWithin _ ks T (Nat.lt_succ_self _) hT h)

end LiveEdit.Grammar
