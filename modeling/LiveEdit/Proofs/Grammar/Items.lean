import LiveEdit.Proofs.Grammar.Closing
import LiveEdit.Proofs.Outline.Rounds

/-! An item that ends before a token with which it could not go on is read again before every such
token. -/

namespace LiveEdit

namespace Rule
open Outline Grammar

variable {r s yes no more : Rule} {rs : List Rule} {C D p : Kind → Bool} {kind : Kind}
  {os : List Outline} {rest : List Kind}

/-- What the rule reads without a fault before a kind outside of `C`, it reads before all of them.
-/
def Heeds (C : Kind → Bool) (r : Rule) : Prop :=
  ∀ os rest rest', Gives r os rest → faultsAll os = [] → C (peek rest) = false →
    C (peek rest') = false → Gives r os rest'

lemma Heeds.mono (h : Heeds C r) (hC : ∀ k, C k = true → D k = true) : Heeds D r := by
  intro os rest rest' hg hf hrest hrest'
  have hout : ∀ k, D k = false → C k = false := fun k hk =>
    Bool.eq_false_iff.2 fun hc => Bool.false_ne_true (hk.symm.trans (hC k hc))
  exact h os rest rest' hg hf (hout _ hrest) (hout _ hrest')

lemma Shuts.heeds (h : Shuts r) : Heeds C r :=
  fun os rest rest' hg hf _ _ => (h os rest hg hf).2 rest'

lemma heeds_skip : Heeds C skip := by
  intro os rest rest' hg _ _ _
  obtain rfl := gives_skip.1 hg
  rfl

def Fills (r : Rule) : Prop := ∀ os rest, Gives r os rest → faultsAll os = [] → leavesAll os ≠ []

lemma fills_choose {c : Complaint} (h : ∀ ks, p (peek ks) = true → Advances r ks) :
    Fills (choose p r (complain c)) := by
  intro os rest hg hf
  cases hp : p (peek (leavesAll os ++ rest)) with
  | true => exact leaves_ne_nil_of_advances (h _ hp) ((gives_choose_of hp).1 hg)
  | false =>
    obtain rfl : os = [.fault c] := (Prod.mk.inj ((gives_choose_of_not hp).1 hg)).1.symm
    cases hf

lemma heeds_dispatch (hfills : Fills r)
    (h : ∀ k, ∃ s, Heeds C s ∧ ∀ ks, peek ks = k → r ks = s ks) : Heeds C r := by
  intro os rest rest' hg hf hrest hrest'
  obtain ⟨s, hs, hsame⟩ := h (peek (leavesAll os ++ rest))
  have hpeek := peek_append_of_ne (hfills os rest hg hf) rest' rest
  unfold Gives
  rw [hsame _ hpeek]
  exact hs os rest rest' ((hsame _ rfl).symm.trans hg) hf hrest hrest'

lemma heeds_choose (hfills : Fills (choose p yes no)) (hyes : Heeds C yes) (hno : Heeds C no) :
    Heeds C (choose p yes no) := by
  refine heeds_dispatch hfills fun k => ?_
  cases hk : p k with
  | true => exact ⟨yes, hyes, fun ks hks => if_pos (by rw [hks, hk])⟩
  | false => exact ⟨no, hno, fun ks hks => if_neg (by rw [hks, hk]; decide)⟩

lemma heeds_when (hp : ∀ k, p k = true → C k = true) (h : Heeds C r) :
    Heeds C (choose p r skip) := by
  intro os rest rest' hg hf hrest hrest'
  have hstop : ∀ ls, C (peek ls) = false → p (peek ls) = false := fun ls hls =>
    Bool.eq_false_iff.2 fun hl => Bool.false_ne_true (hls.symm.trans (hp _ hl))
  cases hnext : p (peek (leavesAll os ++ rest)) with
  | true =>
    have hne : leavesAll os ≠ [] := by
      intro hnil
      rw [hnil, List.nil_append, hstop rest hrest] at hnext
      cases hnext
    refine (gives_choose_of ?_).2 (h os rest rest' ((gives_choose_of hnext).1 hg) hf hrest hrest')
    rwa [peek_append_of_ne hne]
  | false =>
    obtain rfl := gives_skip.1 ((gives_choose_of_not hnext).1 hg)
    exact (gives_choose_of_not (hstop rest' hrest')).2 rfl

lemma heeds_option {k : Kind} (hk : C k = true) (h : Heeds C r) : Heeds C (option k r) :=
  heeds_when (fun l hl => by rwa [eq_of_beq hl]) h

lemma heeds_seq_one (h : Heeds C r) : Heeds C (seq [r]) := fun os rest rest' hg hf hrest hrest' =>
  gives_seq_one.2 (h os rest rest' (gives_seq_one.1 hg) hf hrest hrest')

lemma heeds_seq_cons (hr : Frugal r) (hstable : Stable r) (h : Heeds C r) (hs : Heeds C (seq rs)) :
    Heeds C (seq (r :: rs)) := by
  intro os rest rest' hg hf hrest hrest'
  obtain ⟨ps, qs, rfl, hps, hqs⟩ := (gives_seq_cons hr).1 hg
  rw [faultsAll_append] at hf
  obtain ⟨hfp, hfq⟩ := List.append_eq_nil_iff.1 hf
  refine (gives_seq_cons hr).2 ⟨ps, qs, rfl, ?_, hs qs rest rest' hqs hfq hrest hrest'⟩
  by_cases hnil : leavesAll qs = []
  · rw [hnil, List.nil_append] at hps ⊢
    exact h ps rest rest' hps hfp hrest hrest'
  · exact hstable.gives hps (peek_append_of_ne hnil ..)

lemma heeds_node (h : Heeds C r) : Heeds C (node kind r) := by
  intro os rest rest' hg hf hrest hrest'
  obtain ⟨ps, rfl, hps⟩ := gives_node.1 hg
  exact gives_node.2
    ⟨ps, rfl, h ps rest rest' hps (by simpa [faultsAll, faults] using hf) hrest hrest'⟩

lemma heeds_extend (hr : Frugal r) (hstable : Stable r) (hp : ∀ k, p k = true → C k = true)
    (h : Heeds C r) (hmore : Heeds C more) : Heeds C (extend kind r p more) := by
  intro os rest rest' hg hf hrest hrest'
  have hstop : ∀ ls, C (peek ls) = false → p (peek ls) = false := fun ls hls =>
    Bool.eq_false_iff.2 fun hl => Bool.false_ne_true (hls.symm.trans (hp _ hl))
  obtain ⟨hfirst, -⟩ | ⟨ps, qs, rfl, hps, hqs, hnext⟩ := gives_extend_of hr hg
  · exact gives_extend_skip (h os rest rest' hfirst hf hrest hrest') (hstop rest' hrest')
  · simp only [faultsAll, faults, faultsAll_append, List.append_nil, List.append_eq_nil_iff] at hf
    have hne : leavesAll qs ≠ [] := by
      intro hnil
      rw [hnil, List.nil_append, hstop rest hrest] at hnext
      cases hnext
    have hpeek := peek_append_of_ne hne rest' rest
    exact gives_extend (hstable.gives hps hpeek) (hmore qs rest rest' hqs hf.2 hrest hrest')
      (by rwa [hpeek])

lemma heeds_of_rounds {f : Nat → Rule} (hf : ∀ m ks, ks.length ≤ m → f m ks = r ks)
    (h : ∀ m, Heeds C (f m)) : Heeds C r := by
  intro os rest rest' hg hfaults hrest hrest'
  have hg' := h (max (leavesAll os ++ rest).length (leavesAll os ++ rest').length) os rest rest'
    ((hf _ _ (Nat.le_max_left ..)).trans hg) hfaults hrest hrest'
  unfold Gives at hg' ⊢
  rwa [hf _ _ (Nat.le_max_right ..)] at hg'

end Rule

namespace Grammar
open Outline Rule

variable {C : Kind → Bool} {os : List Outline} {rest : List Kind} {block : Rule} {rs : List Rule}

def continues (k : Kind) : Bool := operators.contains k || k == .leftParenthesis || k == .colon

def prolongs (k : Kind) : Bool := continues k || k == .semicolon

lemma shuts_name : Shuts name := shuts_choose (shuts_node shuts_take) (shuts_complain _)

lemma heeds_typeClause : Heeds continues typeClause := by
  refine heeds_option rfl (Shuts.heeds (shuts_node (shuts_take_seq ?_)))
  exact shuts_seq_one (shuts_choose (shuts_node shuts_take) (shuts_complain _))

lemma shuts_arguments : Shuts (arguments expression) :=
  shuts_node (shuts_take_seq (shuts_seq_one
    (shuts_seq_cons (Listing.frugal_items lossless_expression)
      (fun n => Listing.stable_items lossless_expression rfl (stable_expression n))
      (shuts_seq_one (shuts_expect _)))))

lemma single_atom : Single (atom expression) := by
  intro ks
  unfold atom
  split
  · exact single_extend single_node _
  · exact single_node _
  · exact single_node _
  · exact single_node _
  · exact single_node _
  · exact single_complain _ _

lemma single_expression : Single expression := by
  rw [expression_over]
  exact single_choose (single_extend single_atom) (single_complain _)

lemma stable_expressionAtom : Stable (atom expression) :=
  fun n => (stable_atom (stable_expression n)).mono (Nat.le_succ n)

lemma atom_of_not_start {inner : Rule} {ks : List Kind}
    (h : expressionStart.contains (peek ks) = false) : atom inner ks = complain .expression ks := by
  unfold atom
  split
  case h_6 => rfl
  all_goals
    next hk =>
      rw [hk] at h
      exact absurd h (by decide)

lemma fills_atom : Fills (atom expression) := by
  have hchoose : atom expression =
      choose expressionStart.contains (atom expression) (complain .expression) := by
    funext ks
    unfold choose
    split
    next => rfl
    next hks => exact atom_of_not_start (Bool.eq_false_iff.2 hks)
  rw [hchoose]
  exact fills_choose fun ks hks => advances_atom lossless_expression hks

lemma heeds_atom : Heeds continues (atom expression) := by
  have hliteral : Shuts (node .literalExpression take) := shuts_node shuts_take
  have hminus : Shuts (node .literalExpression (seq [take, expect .number])) :=
    shuts_node (shuts_take_seq (shuts_seq_one (shuts_expect _)))
  have hparenthesized : Shuts (node .parenthesizedExpression (seq [take,
      expression, expect .rightParenthesis])) := shuts_node (shuts_take_seq (shuts_seq_cons
        lossless_expression.frugal stable_expression (shuts_seq_one (shuts_expect _))))
  have hcall : Heeds continues (extend .callExpression (node .nameExpression name)
      (· == .leftParenthesis) (arguments expression)) := by
    refine heeds_extend (lossless_node _ lossless_name).frugal (fun n => ?_) (fun k hk => ?_)
      (shuts_node shuts_name).heeds shuts_arguments.heeds
    · exact stable_node (no_port (by decide)) (stable_name n)
    · rw [eq_of_beq hk]
      rfl
  refine heeds_dispatch fills_atom fun k => ?_
  cases k
  case identifier => exact ⟨_, hcall, fun ks hk => by rw [atom, hk]⟩
  case number => exact ⟨_, hliteral.heeds, fun ks hk => by rw [atom, hk]⟩
  case string => exact ⟨_, hliteral.heeds, fun ks hk => by rw [atom, hk]⟩
  case minus => exact ⟨_, hminus.heeds, fun ks hk => by rw [atom, hk]⟩
  case leftParenthesis => exact ⟨_, hparenthesized.heeds, fun ks hk => by rw [atom, hk]⟩
  all_goals exact ⟨_, (shuts_complain _).heeds, fun ks hk => by rw [atom, hk]⟩

lemma continues_of_operator {k : Kind} (hk : operators.contains k = true) : continues k = true := by
  simp [continues, hk]

lemma heeds_operations : Heeds continues fun ks => operations (atom expression) ks.length ks := by
  have hl : Lossless (atom expression) := lossless_atom lossless_expression
  refine heeds_of_rounds (f := operations (atom expression)) (fun m ks hks => ?_) fun m => ?_
  · exact agree_operations hl ks.length (.refl _ _) hks (Nat.le_refl _) ks (Nat.le_refl _)
  · induction m with
    | zero => exact heeds_skip
    | succ m ih =>
      have hoperand : Heeds continues (choose expressionStart.contains
          (seq [atom expression, operations (atom expression) m]) (complain .expression)) := by
        refine heeds_choose ?_ (heeds_seq_cons hl.frugal stable_expressionAtom heeds_atom
          (heeds_seq_one ih)) (shuts_complain _).heeds
        exact fills_choose fun ks hks => advances_seq_cons (advances_atom lossless_expression hks)
          (by simpa using lossless_operations hl m)
      exact heeds_when (fun k hk => continues_of_operator hk)
        (heeds_seq_cons frugal_take stable_take shuts_take.heeds (heeds_seq_one hoperand))

lemma fills_expression : Fills expression := by
  rw [expression_over]
  refine fills_choose fun ks hks =>
    advances_extend (advances_atom lossless_expression hks) rfl fun ls _ => ?_
  exact lossless_operations (lossless_atom lossless_expression) ls.length ls

lemma heeds_expression : Heeds continues expression := by
  have hfills := fills_expression
  rw [expression_over] at hfills ⊢
  exact heeds_choose hfills (heeds_extend (lossless_atom lossless_expression).frugal
    stable_expressionAtom (fun k hk => continues_of_operator hk) heeds_atom heeds_operations)
    (shuts_complain _).heeds

lemma heeds_initializer : Heeds continues initializer :=
  heeds_option rfl (heeds_seq_cons frugal_take stable_take shuts_take.heeds
    (heeds_seq_one heeds_expression))

lemma heeds_named (h : Heeds C (seq rs)) : Heeds C (seq (name :: rs)) :=
  heeds_seq_cons lossless_name.frugal stable_name shuts_name.heeds h

lemma heeds_enumMember : Heeds continues enumMember :=
  heeds_node (heeds_named (heeds_seq_one heeds_initializer))

lemma heeds_parameter : Heeds continues parameter :=
  heeds_node (heeds_named (heeds_seq_one heeds_typeClause))

lemma heeds_variableDeclaration : Heeds continues variableDeclaration :=
  heeds_node
  (heeds_named (heeds_seq_cons lossless_typeClause.frugal stable_typeClause heeds_typeClause
    (heeds_seq_one heeds_initializer)))

lemma gives_name (hf : faultsAll os = []) : Gives name os rest ↔ os = [named] := by
  constructor
  · intro hg
    cases hnext : peek (leavesAll os ++ rest) == .identifier with
    | true =>
      obtain ⟨ps, rfl, hps⟩ := gives_node.1 ((gives_choose_of (p := (· == .identifier)) hnext).1 hg)
      obtain ⟨k, rfl⟩ := gives_take.1 hps
      obtain rfl : k = .identifier := eq_of_beq hnext
      rfl
    | false =>
      obtain rfl := gives_complain.1 ((gives_choose_of_not (p := (· == .identifier)) hnext).1 hg)
      cases hf
  · rintro rfl
    rfl

lemma exists_named (hf : faultsAll os = []) (hg : Gives (seq (name :: rs)) os rest) :
    ∃ qs, os = named :: qs ∧ faultsAll qs = [] ∧ Gives (seq rs) qs rest := by
  obtain ⟨ps, qs, rfl, hps, hqs⟩ := (gives_seq_cons lossless_name.frugal).1 hg
  rw [faultsAll_append, List.append_eq_nil_iff] at hf
  obtain rfl := (gives_name hf.1).1 hps
  exact ⟨qs, rfl, hf.2, hqs⟩

lemma gives_classMember (hf : faultsAll os = []) : Gives (classMember block) os rest ↔
    ∃ ms qs, (∀ k ∈ ms, k.isModifierKeyword = true) ∧ Membered block ms qs os rest := by
  constructor
  · intro hg
    obtain ⟨ms, qs, hms, hcase⟩ | ⟨ms, rfl, -⟩ | ⟨hstray, -⟩ := classMember_cases hg
    · exact ⟨ms, qs, hms, hcase⟩
    · simp [faultsAll, faults] at hf
    · exact absurd hf (not_gives_recover hstray)
  · rintro ⟨ms, qs, hms, ⟨rfl, hnext, hqs⟩ | ⟨rfl, hnext, hqs⟩⟩
    · exact gives_classMethod hms hnext hqs
    · exact gives_classProperty hms hnext hqs

lemma heeds_property_tail :
    Heeds prolongs (seq [typeClause, initializer, option .semicolon take]) := by
  have hmono : ∀ {r : Rule}, Heeds continues r → Heeds prolongs r :=
    fun h => h.mono fun k hk => by simp [prolongs, hk]
  exact heeds_seq_cons lossless_typeClause.frugal stable_typeClause (hmono heeds_typeClause)
    (heeds_seq_cons lossless_initializer.frugal stable_initializer (hmono heeds_initializer)
      (heeds_seq_one (heeds_option rfl shuts_take.heeds)))

abbrev member : Rule := classMember (Grammar.block statement)

lemma heeds_member : Heeds prolongs member := by
  intro os rest rest' hg hf hrest hrest'
  obtain ⟨ms, qs, hms, ⟨rfl, hnext, hqs⟩ | ⟨rfl, hnext, hqs⟩⟩ := (gives_classMember hf).1 hg
  all_goals
    have hfqs : faultsAll qs = [] := by
      simp only [faultsAll, faults, faultsAll_append, List.append_nil, List.append_eq_nil_iff] at hf
      exact hf.2.2
    refine (gives_classMember hf).2 ⟨ms, qs, hms, ?_⟩
  · obtain ⟨hne, hall⟩ := shuts_seq_one shuts_signature qs rest hqs hfqs
    exact .inl ⟨rfl, by rwa [peek_append_of_ne hne], hall rest'⟩
  · refine .inr ⟨rfl, ?_, heeds_property_tail qs rest rest' hqs hfqs hrest hrest'⟩
    by_cases hnil : leavesAll qs = []
    · rw [hnil, List.nil_append]
      intro hparenthesis
      rw [hparenthesis] at hrest'
      cases hrest'
    · rwa [peek_append_of_ne hnil]

lemma single_member : Single member := by
  intro ks
  unfold member classMember
  dsimp only
  split_ifs
  · exact .inl ⟨_, _, rfl⟩
  · exact .inl ⟨_, _, rfl⟩
  · exact .inl ⟨_, _, rfl⟩
  · exact .inl ⟨_, _, rfl⟩

lemma paced_member : Paced member :=
  ⟨⟨ahead_classMember lossless_statementBlock.ahead, rfl⟩,
    fun _ hks => advances_classMember lossless_statementBlock.ahead hks, single_member,
    fun n => stable_classMember (stable_statementBlock n)⟩

end Grammar
end LiveEdit
