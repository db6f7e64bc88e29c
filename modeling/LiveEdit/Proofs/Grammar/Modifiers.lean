import LiveEdit.Proofs.Grammar.Steadiness
import LiveEdit.Proofs.Outline.Forms

/-! With other modifiers a file is read as before but for them, also where there are faults. -/

namespace LiveEdit
open List

namespace Kind

def isModified (k : Kind) : Bool :=
  k.isClassMember || k = .variableStatement || k = .functionDeclaration || k = .classDeclaration ||
    k = .enumDeclaration || k = .namespaceDeclaration

lemma isModified_of_barren {k : Kind} (h : k ∈ Outline.barrenKinds) : k.isModified = false := by
  revert h
  cases k <;> decide

end Kind

namespace Grammar
open Outline Rule

structure Heads (k : Kind) (ps : List Outline) : Prop where
  first : if k.isClassMember then ∃ qs, ps = named :: qs
    else ∃ j qs, ps = .leaf j :: qs ∧ j ∈ openers ∧ j.isModifierKeyword = false
  bare : ∀ qs, .branch .modifier qs ∉ ps

structure Turned (r : Rule) (P : Place) (k : Kind) (ms : List Kind) (ps : List Outline)
    (rest : List Kind) :
    Prop where
  modifiers : ∀ j ∈ ms, j.isModifierKeyword = true
  head : Heads k ps
  gives : ∀ ms', (∀ j ∈ ms', j.isModifierKeyword = true) →
    Gap k.isClassMember (lacksWordAll P.before) (peek (ms ++ leavesAll ps))
    (peek (ms' ++ leavesAll ps)) →
      Gives r (P.put (.branch k (modified ms' ++ ps))) rest

end Grammar

namespace Rule
open Outline Grammar

variable {r yes no : Rule} {rs : List Rule} {P : Place} {k kind : Kind} {ms ms' : List Kind}
  {p : Kind → Bool}
  {ps os parts : List Outline} {rest : List Kind} {m b : Bool} {n : Nat}

/-- Whatever declaration or class member the rule reads, if it nests less deep than `n`, it reads
with other modifiers too. Those of one sort may come first, and before those of the other sort it
reads a token. -/
def TurnsTo (m : Bool) (n : Nat) (r : Rule) : Prop :=
  ∀ P k parts rest, depthAll (P.put (.branch k parts)) < n →
  Gives r (P.put (.branch k parts)) rest →
    k.isModified = true → (k.isClassMember ≠ m → leavesAll P.before ≠ []) ∧
      ∃ ms ps, parts = modified ms ++ ps ∧ Turned r P k ms ps rest

def Barren (r : Rule) : Prop :=
  ∀ (P : Place) (k : Kind) (parts : List Outline) (rest : List Kind), k.isModified = true →
    ¬ Gives r (P.put (.branch k parts)) rest

lemma barren_of_nests {S : Kind → Bool} (hS : ∀ j, S j = true → j ∈ barrenKinds) (h : Nests S r) :
    Barren r := by
  intro P k parts rest hk hg
  have hparts : (r (leavesAll (P.put (.branch k parts)) ++ rest)).1 = P.put (.branch k parts) :=
    congrArg Prod.fst hg
  have hnested : ∀ o ∈ P.put (.branch k parts), o.Nested S := fun o ho =>
    h (leavesAll (P.put (.branch k parts)) ++ rest) o (hparts.symm ▸ ho)
  rw [Kind.isModified_of_barren (mem_barren_of_nested hS hnested)] at hk
  cases hk

lemma Barren.turns (h : Barren r) : TurnsTo m n r :=
  fun P k parts rest _ hg hk => absurd hg (h P k parts rest hk)

lemma TurnsTo.mono {l : Nat} (h : TurnsTo m n r) (hl : l ≤ n) : TurnsTo m l r :=
  fun P k parts rest hd => h P k parts rest (Nat.lt_of_lt_of_le hd hl)

lemma leaves_heads (h : Heads k ps) : leavesAll ps ≠ [] := by
  have hfirst := h.first
  split at hfirst
  · obtain ⟨qs, rfl⟩ := hfirst
    simp [leavesAll, leaves, named]
  · obtain ⟨j, qs, rfl, -⟩ := hfirst
    simp [leavesAll, leaves]

lemma modified_inj {ps' : List Outline} (hps : Heads k ps) (hps' : Heads k ps')
    (h : modified ms ++ ps = modified ms' ++ ps') : ms = ms' ∧ ps = ps' := by
  have hhead : ∀ {qs : List Outline}, Heads k qs →
      ∀ j us, qs ≠ .branch .modifier [.leaf j] :: us := by
    rintro qs hqs j us rfl
    exact hqs.bare _ mem_cons_self
  induction ms generalizing ms' with
  | nil =>
    cases ms' with
    | nil => exact ⟨rfl, h⟩
    | cons j js => exact absurd h (hhead hps j _)
  | cons i is ih =>
    cases ms' with
    | nil => exact absurd h.symm (hhead hps' i _)
    | cons j js =>
      obtain ⟨hij, hrest⟩ := cons.inj h
      obtain ⟨rfl, rfl⟩ := ih hrest
      obtain rfl : i = j := by simpa using hij
      exact ⟨rfl, rfl⟩

lemma leaves_modified (ms : List Kind) (ps : List Outline) :
    (Outline.branch k (modified ms ++ ps)).leaves = ms ++ leavesAll ps := by
  rw [leaves, leavesAll_append, leavesAll_modified]

lemma peek_put (hps : Heads k ps) (P : Place) (ms : List Kind) (rest : List Kind) :
    (leavesAll P.before ≠ [] → ∀ ms', peek (leavesAll (P.put (.branch k (modified ms' ++ ps))) ++
      rest) = peek (leavesAll (P.put (.branch k (modified ms ++ ps))) ++ rest)) ∧
    (leavesAll P.before = [] → peek (leavesAll (P.put (.branch k (modified ms ++ ps))) ++ rest) =
      peek (ms ++ leavesAll ps)) := by
  simp only [Place.leavesAll_put, leaves_modified, append_assoc]
  constructor
  · intro hne ms'
    exact peek_append_of_ne hne ..
  · intro hnil
    rw [hnil, nil_append]
    obtain ⟨j, js, hjs⟩ := exists_cons_of_ne_nil (leaves_heads hps)
    rw [hjs]
    cases ms <;> rfl

lemma gap_put (hps : Heads k ps)
    (hgap : Gap m b (peek (ms ++ leavesAll ps)) (peek (ms' ++ leavesAll ps))) (P : Place)
    (rest : List Kind) : Gap m b (peek (leavesAll (P.put (.branch k (modified ms ++ ps))) ++ rest))
      (peek (leavesAll (P.put (.branch k (modified ms' ++ ps))) ++ rest)) := by
  by_cases hnil : leavesAll P.before = []
  · rw [(peek_put hps P ms rest).2 hnil, (peek_put hps P ms' rest).2 hnil]
    exact hgap
  · rw [(peek_put hps P ms rest).1 hnil ms']
    exact .same _ _

lemma turnsTo_seq_cons (hr : Frugal r) (hstable : Stable r) (hsteady : Steady m r)
    (h : TurnsTo m n r) (hs : TurnsTo m n (seq rs)) : TurnsTo m n (seq (r :: rs)) := by
  intro P k parts rest hd hg hk
  obtain ⟨as, bs, hput, has, hbs⟩ := (gives_seq_cons hr).1 hg
  rw [hput, depthAll_append] at hd
  rcases Place.of_append hput with ⟨Q, rfl, rfl⟩ | ⟨Q, rfl, rfl⟩
  · obtain ⟨hfront, ms, ps, rfl, hturned⟩ := h Q k parts _ (by omega) has hk
    rw [Place.before_ahead]
    refine ⟨hfront, ms, ps, rfl, hturned.modifiers, hturned.head, fun ms' hms' hgap => ?_⟩
    rw [Place.before_ahead] at hgap
    rw [Place.put_ahead]
    exact (gives_seq_cons hr).2 ⟨_, bs, rfl, hturned.gives ms' hms' hgap, hbs⟩
  · obtain ⟨hfront, ms, ps, rfl, hturned⟩ := hs Q k parts rest (by omega) hbs hk
    rw [Place.before_behind]
    refine ⟨fun hother => ?_, ms, ps, rfl, hturned.modifiers, hturned.head, fun ms' hms' hgap => ?_⟩
    · rw [leavesAll_append]
      exact append_ne_nil_of_right_ne_nil _ (hfront hother)
    · rw [Place.before_behind, lacksWordAll_append] at hgap
      have hlast := hturned.gives ms' hms' (hgap.mono fun hlacks => by simp [hlacks])
      rw [Place.put_behind]
      refine (gives_seq_cons hr).2 ⟨as, _, rfl, ?_, hlast⟩
      by_cases hnil : leavesAll Q.before = []
      · -- The node comes first in the second part, and so it is of the sort that may.
        obtain rfl : k.isClassMember = m := by
          by_contra hother
          exact hfront hother hnil
        refine hsteady.gives has (gap_put hturned.head (hgap.mono fun hlacks => ?_) Q rest)
        rw [hnil, hlacks]
        rfl
      · exact hstable.gives has ((peek_put hturned.head Q ms rest).1 hnil ms')

lemma turnsTo_seq_one (h : TurnsTo m n r) : TurnsTo m n (seq [r]) := by
  intro P k parts rest hd hg hk
  obtain ⟨hfront, ms, ps, rfl, hturned⟩ := h P k parts rest hd (gives_seq_one.1 hg) hk
  exact ⟨hfront, ms, ps, rfl, hturned.modifiers, hturned.head, fun ms' hms' hgap =>
    gives_seq_one.2 (hturned.gives ms' hms' hgap)⟩

lemma turnsTo_take (hs : TurnsTo b n (seq rs)) : TurnsTo m n (seq (take :: rs)) := by
  intro P k parts rest hd hg hk
  obtain ⟨as, bs, hput, has, hbs⟩ := (gives_seq_cons frugal_take).1 hg
  obtain ⟨j, rfl⟩ := gives_take.1 has
  rw [hput, depthAll_append] at hd
  rcases Place.of_append hput with ⟨Q, rfl, hQ⟩ | ⟨Q, rfl, rfl⟩
  · cases Q <;> simp [Place.put, append_eq_singleton_iff] at hQ
  · obtain ⟨-, ms, ps, rfl, hturned⟩ := hs Q k parts rest (by omega) hbs hk
    rw [Place.before_behind]
    refine ⟨fun _ => by simp [leavesAll, leaves], ms, ps, rfl, hturned.modifiers, hturned.head,
      fun ms' hms' hgap => ?_⟩
    rw [Place.before_behind, lacksWordAll_append] at hgap
    rw [Place.put_behind]
    exact (gives_seq_cons frugal_take).2 ⟨_, _, rfl, gives_take.2 ⟨j, rfl⟩,
      hturned.gives ms' hms' (hgap.mono fun hlacks => by simp [hlacks])⟩

lemma turnsTo_choose (hp : Blind m p) (hyes : TurnsTo m n yes) (hno : TurnsTo m n no) :
    TurnsTo m n (choose p yes no) := by
  intro P k parts rest hd hg hk
  -- The choice is made again as before.
  have hagain : ∀ ms ms' ps, parts = modified ms ++ ps → Heads k ps →
      (k.isClassMember ≠ m → leavesAll P.before ≠ []) →
      Gap k.isClassMember (lacksWordAll P.before) (peek (ms ++ leavesAll ps))
      (peek (ms' ++ leavesAll ps)) →
        p (peek (leavesAll (P.put (.branch k (modified ms' ++ ps))) ++ rest)) =
          p (peek (leavesAll (P.put (.branch k parts)) ++ rest)) := by
    rintro ms ms' ps rfl hps hfront hgap
    by_cases hnil : leavesAll P.before = []
    · obtain rfl : k.isClassMember = m := by
        by_contra hother
        exact hfront hother hnil
      exact hp _ _ _ (gap_put hps hgap P rest)
    · rw [(peek_put hps P ms rest).1 hnil ms']
  cases hnext : p (peek (leavesAll (P.put (.branch k parts)) ++ rest)) with
  | true =>
    obtain ⟨hfront, ms, ps, hparts, hturned⟩ :=
      hyes P k parts rest hd ((gives_choose_of hnext).1 hg) hk
    refine ⟨hfront, ms, ps, hparts, hturned.modifiers, hturned.head, fun ms' hms' hgap => ?_⟩
    exact (gives_choose_of (by rw [hagain ms ms' ps hparts hturned.head hfront hgap, hnext])).2
      (hturned.gives ms' hms' hgap)
  | false =>
    obtain ⟨hfront, ms, ps, hparts, hturned⟩ :=
      hno P k parts rest hd ((gives_choose_of_not hnext).1 hg) hk
    refine ⟨hfront, ms, ps, hparts, hturned.modifiers, hturned.head, fun ms' hms' hgap => ?_⟩
    exact (gives_choose_of_not (by rw [hagain ms ms' ps hparts hturned.head hfront hgap, hnext])).2
      (hturned.gives ms' hms' hgap)

lemma turnsTo_node (hkind : kind.isModified = false) (h : TurnsTo m n r) :
    TurnsTo m (n + 1) (node kind r) := by
  intro P k parts rest hd hg hk
  obtain ⟨as, hput, has⟩ := gives_node.1 hg
  rw [hput] at hd
  simp only [depthAll, depth] at hd
  rcases Place.of_singleton hput with ⟨rfl, ho⟩ | ⟨Q, rfl, rfl⟩
  · obtain ⟨rfl, rfl⟩ := Outline.branch.inj ho
    rw [hkind] at hk
    cases hk
  · obtain ⟨hfront, ms, ps, rfl, hturned⟩ := h Q k parts rest (by omega) has hk
    refine ⟨hfront, ms, ps, rfl, hturned.modifiers, hturned.head, fun ms' hms' hgap => ?_⟩
    exact gives_node.2 ⟨_, rfl, hturned.gives ms' hms' hgap⟩

lemma turnsTo_of_rounds {f : Nat → Rule} (hf : ∀ l ks, ks.length ≤ l → f l ks = r ks)
    (h : ∀ l, TurnsTo m n (f l)) : TurnsTo m n r := by
  intro P k parts rest hd hg hk
  have hround : ∀ l, (leavesAll (P.put (.branch k parts)) ++ rest).length ≤ l →
      Gives (f l) (P.put (.branch k parts)) rest := fun l hl => (hf l _ hl).trans hg
  obtain ⟨hfront, ms, ps, rfl, hturned⟩ := h _ P k parts rest hd (hround _ (Nat.le_refl _)) hk
  refine ⟨hfront, ms, ps, rfl, hturned.modifiers, hturned.head, fun ms' hms' hgap => ?_⟩
  -- Both inputs are read in the same number of rounds.
  have hboth : Gives (f (max (leavesAll (P.put (.branch k (modified ms ++ ps))) ++ rest).length
      (leavesAll (P.put (.branch k (modified ms' ++ ps))) ++ rest).length))
      (P.put (.branch k (modified ms' ++ ps))) rest := by
    obtain ⟨-, js, qs, hparts, hturned'⟩ := h _ P k _ rest hd (hround _ (Nat.le_max_left _ _)) hk
    obtain ⟨rfl, rfl⟩ := modified_inj hturned.head hturned'.head hparts
    exact hturned'.gives ms' hms' hgap
  exact (hf _ _ (Nat.le_max_right _ _)).symm.trans hboth

lemma turnsTo_repeatUntil {stop : Kind → Bool} (hr : Frugal r)
    (hstable : Stable r) (hsteady : Steady m r) (hadv : ∀ ks, ks ≠ [] → Advances r ks)
    (hstop : ∀ j ∈ margins, stop j = false) (h : TurnsTo m n r) :
    TurnsTo m n (repeatUntil stop r) := by
  have hskip : TurnsTo m n skip :=
    (barren_of_nests (S := fun _ => false) (by simp) nests_skip).turns
  have hend : Blind m fun j => j == .endOfFile || stop j := blind_of_margins fun j hj => by
    have hne : j ≠ .endOfFile := by
      rintro rfl
      exact absurd hj (by decide)
    simp [hne, hstop j hj]
  refine turnsTo_of_rounds (f := repeatWithin stop r) (fun l ks hks => ?_) fun l => ?_
  · exact agree_rounds hadv ks.length hks (Nat.le_refl _) ks (Nat.le_refl _)
  · induction l with
    | zero => exact hskip
    | succ l ih =>
      exact turnsTo_choose hend hskip (turnsTo_seq_cons hr hstable hsteady h (turnsTo_seq_one ih))

end Rule

namespace Grammar
open Outline Rule

variable {m : Bool} {n : Nat} {k kind : Kind} {body : Rule}
  {P : Place} {os qs ps parts : List Outline} {ms rest : List Kind} {b : Bool} {r : Rule}

lemma barren_complain (c : Complaint) : Barren (complain c) :=
  barren_of_nests (S := fun _ => false) (by simp) (nests_complain c)

lemma barren_expect (k : Kind) : Barren (expect k) :=
  barren_of_nests (S := fun _ => false) (by simp) (nests_expect k)

lemma barren_name : Barren name :=
  barren_of_nests (S := (· == .name)) (fun j hj => eq_of_beq hj ▸ by decide) (nests_name rfl)

lemma barren_typeClause : Barren typeClause :=
  barren_of_nests (S := (· == .typeClause)) (fun j hj => eq_of_beq hj ▸ by decide)
  (nests_typeClause rfl)

lemma barren_of_expression {j : Kind} (hj : j.isExpression = true) : j ∈ barrenKinds := by
  cases j <;> first | decide | cases hj

lemma barren_expression : Barren expression :=
  barren_of_nests (fun _ hj => barren_of_expression hj) (nests_expression fun _ hj => hj)

lemma barren_parameters :
    Barren (choose (· == .leftParenthesis) parameterList (complain .parameterList)) :=
  barren_of_nests (S := (· == .parameterList)) (fun j hj => eq_of_beq hj ▸ by decide)
    (nests_choose (nests_parameterList rfl) (nests_complain _))

lemma barren_variableStatement : Barren variableStatement := by
  refine barren_of_nests (S := (· == .variableDeclaration)) (fun j hj => eq_of_beq hj ▸ by decide)
    (nests_seq ?_)
  simpa using ⟨nests_take, fun ks => nests_variableDeclarations rfl (ks.length + 1) ks,
    nests_semicolon⟩

lemma barren_enumDeclaration : Barren enumDeclaration := by
  refine barren_of_nests (S := fun j => j == .name || j == .enumMember || j == .error)
    (fun j hj => ?_) (nests_enumDeclaration rfl rfl rfl)
  simp only [Bool.or_eq_true, beq_iff_eq, or_assoc] at hj
  rcases hj with rfl | rfl | rfl <;> decide

lemma barren_other :
    Barren (choose expressionStart.contains expressionStatement (recover .unexpectedToken)) := by
  have hstatement : Nests (fun j => j == .expressionStatement || j == .error) expressionStatement :=
    nests_node rfl (nests_seq (by simpa using ⟨nests_expression fun _ hj => hj, nests_semicolon⟩))
  refine barren_of_nests (fun j hj => ?_) (nests_choose hstatement (nests_recover rfl _))
  simp only [Bool.or_eq_true, beq_iff_eq] at hj
  rcases hj with rfl | rfl <;> decide

lemma barren_returnStatement : Barren returnStatement := by
  refine barren_of_nests (S := (· == .returnStatement)) (fun j hj => eq_of_beq hj ▸ by decide)
    (nests_node rfl (nests_seq ?_))
  simpa using ⟨nests_take, nests_choose (nests_expression fun _ hj => hj) nests_skip,
    nests_semicolon⟩

lemma barren_property_tail : Barren (seq [typeClause, initializer, option .semicolon take]) := by
  have hnests : Nests (fun j => j == .typeClause || j.isExpression)
      (seq [typeClause, initializer, option .semicolon take]) := by
    refine nests_seq ?_
    simpa using ⟨nests_typeClause rfl, nests_initializer fun j hj => by simp [hj], nests_semicolon⟩
  refine barren_of_nests (fun j hj => ?_) hnests
  simp only [Bool.or_eq_true, beq_iff_eq] at hj
  rcases hj with rfl | hj
  · decide
  · exact barren_of_expression hj

lemma nested_modified (ms : List Kind) : ∀ o ∈ modified ms, o.Nested (· == .modifier) := by
  intro o ho
  obtain ⟨j, -, rfl⟩ := mem_map.1 ho
  refine .branch rfl fun o ho => ?_
  obtain rfl := mem_singleton.1 ho
  exact .leaf _ j

lemma not_put_of_nested {S : Kind → Bool} (hk : k.isModified = true)
    (hS : ∀ j, S j = true → j ∈ barrenKinds) (hos : ∀ o ∈ os, o.Nested S) :
    P.put (.branch k parts) ≠ os := by
  rintro rfl
  rw [Kind.isModified_of_barren (mem_barren_of_nested hS hos)] at hk
  cases hk

lemma not_put_modified (hk : k.isModified = true) (ms : List Kind) :
    P.put (.branch k parts) ≠ modified ms :=
  not_put_of_nested (S := (· == .modifier)) hk (fun j hj => eq_of_beq hj ▸ by decide)
  (nested_modified ms)

lemma of_put_modified {bs : List Outline}
    (hk : k.isModified = true) (h : P.put (.branch k parts) = [.branch kind (modified ms ++ bs)]) :
    (P = .here [] [] ∧ k = kind ∧ parts = modified ms ++ bs) ∨ ∃ Q : Place,
      P = .inside [] kind (Q.behind (modified ms)) [] ∧ Q.put (.branch k parts) = bs := by
  rcases Place.of_singleton h with ⟨rfl, ho⟩ | ⟨Q, rfl, hQ⟩
  · obtain ⟨rfl, rfl⟩ := Outline.branch.inj ho
    exact .inl ⟨rfl, rfl, rfl⟩
  · rcases Place.of_append hQ with ⟨R, rfl, hR⟩ | ⟨R, rfl, hR⟩
    · exact absurd hR (not_put_modified hk ms)
    · exact .inr ⟨R, rfl, hR⟩

lemma of_put_named (hk : k.isModified = true) (h : P.put (.branch k parts) = named :: qs) :
    ∃ Q : Place, P = Q.behind [named] ∧ Q.put (.branch k parts) = qs := by
  have hnamed : ∀ o ∈ [named], o.Nested (· == .name) := fun o ho =>
    mem_singleton.1 ho ▸ .branch rfl fun o ho => mem_singleton.1 ho ▸ .leaf _ _
  rcases Place.of_append (h.trans singleton_append.symm) with ⟨Q, rfl, hQ⟩ | ⟨Q, rfl, hQ⟩
  · exact absurd hQ
      (not_put_of_nested (S := (· == .name)) hk (fun j hj => eq_of_beq hj ▸ by decide) hnamed)
  · exact ⟨Q, rfl, hQ⟩

lemma not_put_error {c : Complaint} (hk : k.isModified = true) (ms : List Kind) :
    P.put (.branch k parts) ≠ [.branch .error (modified ms ++ [.fault c])] := by
  refine not_put_of_nested (S := (· == .error)) hk (fun j hj => eq_of_beq hj ▸ by decide)
    fun o ho => ?_
  obtain rfl := mem_singleton.1 ho
  refine .branch rfl fun o ho => ?_
  rcases mem_append.1 ho with ho | ho
  · exact nested_modified ms o ho
  · obtain rfl := mem_singleton.1 ho
    exact .fault _ c

lemma turns_block (h : TurnsTo false n statement) : TurnsTo false (n + 1) (block statement) := by
  have hexpect : ∀ j, TurnsTo false n (expect j) := fun j => (barren_expect j).turns
  have hstatements : TurnsTo false n (repeatUntil (· == .rightCurly) statement) :=
    turnsTo_repeatUntil frugal_statement stable_statement steady_statement
    (fun _ hks => advances_statement hks) (by decide) h
  exact turnsTo_node rfl (turnsTo_seq_cons (lossless_expect
    (by decide)).frugal (stable_expect _) (steady_expect (by decide)) (hexpect _) (turnsTo_seq_cons
      (lossless_repeatUntil ahead_statement).frugal (stable_statements _) steady_body hstatements
      (turnsTo_seq_one (hexpect _))))

lemma turns_signature (h : TurnsTo false n (block statement)) :
    TurnsTo false n (signature (block statement)) :=
  turnsTo_seq_cons lossless_parameters.frugal stable_parameters steady_parameters
  barren_parameters.turns
    (turnsTo_seq_cons lossless_typeClause.frugal stable_typeClause steady_typeClause
      barren_typeClause.turns
      (turnsTo_seq_one (turnsTo_choose (blind_eq (by decide)) h (barren_expect _).turns)))

lemma turns_keyword {rs : List Rule} (h : TurnsTo false n (seq rs)) :
    TurnsTo m n (seq (take :: name :: rs)) :=
  turnsTo_take (turnsTo_seq_cons lossless_name.frugal stable_name steady_name barren_name.turns h)

lemma mem_margins (hms : ∀ j ∈ ms, j.isModifierKeyword = true)
    (hps : Heads k ps) : peek (ms ++ leavesAll ps) ∈ margins := by
  cases ms with
  | cons j ms => exact mem_cons_of_mem _ (mem_openers (hms j mem_cons_self))
  | nil =>
    have hfirst := hps.first
    split at hfirst
    · obtain ⟨qs, rfl⟩ := hfirst
      exact mem_cons_self
    · obtain ⟨j, qs, rfl, hj, -⟩ := hfirst
      exact mem_cons_of_mem _ hj

lemma gap_heads {ms' : List Kind} (hps : Heads k ps)
    (hms : ∀ j ∈ ms, j.isModifierKeyword = true) (hms' : ∀ j ∈ ms', j.isModifierKeyword = true)
    (h : k.isClassMember = true → ms ≠ [] → ms' = [] → b = false) :
    Gap k.isClassMember b (peek (ms ++ leavesAll ps)) (peek (ms' ++ leavesAll ps)) := by
  have hfirst := hps.first
  cases hk : k.isClassMember with
  | false =>
    rw [hk] at hfirst
    obtain ⟨j, qs, rfl, hj, -⟩ := hfirst
    have hopener : ∀ is : List Kind, (∀ i ∈ is, i.isModifierKeyword = true) →
        peek (is ++ leavesAll (.leaf j :: qs)) ∈ openers := by
      intro is his
      cases is with
      | nil => exact hj
      | cons i is => exact mem_openers (his i mem_cons_self)
    exact .opening rfl (hopener ms hms) (hopener ms' hms')
  | true =>
    rw [hk] at hfirst
    obtain ⟨qs, rfl⟩ := hfirst
    cases ms with
    | nil =>
      cases ms' with
      | nil => exact .same _ _
      | cons i is => exact .modify rfl (hms' i mem_cons_self)
    | cons j js =>
      cases ms' with
      | nil =>
        obtain rfl := h hk (cons_ne_nil _ _) rfl
        exact .unmodify rfl (hms j mem_cons_self)
      | cons i is => exact .modifiers rfl (hms j mem_cons_self) (hms' i mem_cons_self)

lemma bare_of_nests (h : Nests (· != .modifier) r)
    (hg : Gives r os rest) : ∀ qs, .branch .modifier qs ∉ os := by
  intro qs hqs
  have hos : (r (leavesAll os ++ rest)).1 = os := congrArg Prod.fst hg
  cases h _ _ (hos.symm ▸ hqs) with
  | branch kind _ => cases kind

lemma bare_signature (hg : Gives (seq [signature (block statement)]) os rest) :
    ∀ qs, .branch .modifier qs ∉ os :=
  bare_of_nests (nests_signature (nests_block nests_statement _ rfl) rfl rfl) (gives_seq_one.1 hg)

lemma bare_property (hg : Gives (seq [typeClause, initializer, option .semicolon take]) os rest) :
    ∀ qs, .branch .modifier qs ∉ os := by
  refine bare_of_nests (nests_seq ?_) hg
  have hvalue : Nests (· != .modifier) initializer := nests_initializer fun j hj => by
    cases j <;> first | rfl | cases hj
  simpa using ⟨nests_typeClause rfl, hvalue, nests_semicolon⟩

lemma heads_member (hkind : kind.isClassMember = true)
    (h : ∀ us, .branch .modifier us ∉ qs) : Heads kind (named :: qs) := by
  refine ⟨?_, fun us hus => ?_⟩
  · rw [hkind]
    exact ⟨qs, rfl⟩
  · rcases mem_cons.1 hus with hname | hus
    · cases hname
    · exact h us hus

lemma turns_member (h : TurnsTo false n (block statement)) : TurnsTo true n member := by
  intro P k parts rest hd hg hk
  obtain ⟨ms, qs, hms, ⟨hput, hnext, hqs⟩ | ⟨hput, hnext, hqs⟩⟩ | ⟨ms, hput, -⟩ | ⟨hstray, -⟩ :=
    classMember_cases hg
  · rcases of_put_modified hk hput with ⟨rfl, rfl, rfl⟩ | ⟨Q, rfl, hQ⟩
    · refine ⟨fun hother => absurd rfl hother, ms, named :: qs, rfl, hms,
        heads_member rfl (bare_signature hqs), fun ms' hms' _ => ?_⟩
      exact gives_classMethod hms' hnext hqs
    obtain ⟨R, rfl, rfl⟩ := of_put_named hk hQ
    rw [hput] at hd
    simp only [depthAll, depth, depthAll_append] at hd
    obtain ⟨-, js, ps, rfl, hturned⟩ :=
      turnsTo_seq_one (turns_signature h) R k parts rest (by omega) hqs hk
    -- A parenthesis comes after the name, so the declaration does not.
    have hfront : leavesAll R.before ≠ [] := by
      intro hnil
      rw [(peek_put hturned.head R js rest).2 hnil] at hnext
      have hmem := mem_margins hturned.modifiers hturned.head
      rw [hnext] at hmem
      exact absurd hmem (by decide)
    refine ⟨fun _ => ?_, js, ps, rfl, hturned.modifiers, hturned.head, fun ms' hms' hgap => ?_⟩
    · simp [Place.before, leavesAll, leaves, named]
    · simp only [Place.before, Place.before_behind, nil_append, lacksWordAll_append] at hgap
      have hlast := hturned.gives ms' hms' (hgap.mono fun hlacks => by simp [hlacks])
      simp only [Place.put, Place.put_behind, nil_append]
      exact gives_classMethod hms
        (((peek_put hturned.head R js rest).1 hfront ms').trans hnext) hlast
  · rcases of_put_modified hk hput with ⟨rfl, rfl, rfl⟩ | ⟨Q, rfl, hQ⟩
    · refine ⟨fun hother => absurd rfl hother, ms, named :: qs, rfl, hms,
        heads_member rfl (bare_property hqs), fun ms' hms' _ => ?_⟩
      exact gives_classProperty hms' hnext hqs
    · obtain ⟨R, rfl, rfl⟩ := of_put_named hk hQ
      exact absurd hqs (barren_property_tail R k parts rest hk)
  · exact absurd hput (not_put_error hk ms)
  · have hbarren : Barren (recover .unexpectedInClass) :=
      barren_of_nests (S := (· == .error)) (fun j hj => eq_of_beq hj ▸ by decide)
      (nests_recover rfl _)
    exact absurd hstray (hbarren P k parts rest hk)

lemma turns_classDeclaration (h : TurnsTo false n (block statement)) :
    TurnsTo m n (classDeclaration (block statement)) := by
  have hmembers : TurnsTo true n (repeatUntil (· == .rightCurly) member) :=
    turnsTo_repeatUntil paced_member.frugal paced_member.stable steady_member paced_member.advances
    (by decide) (turns_member h)
  refine turns_keyword
    (turnsTo_seq_one (turnsTo_choose (blind_eq (by decide)) ?_ (barren_complain _).turns))
  exact turnsTo_take (turnsTo_seq_cons frugal_members stable_members steady_members hmembers
    (turnsTo_seq_one (barren_expect _).turns))

lemma turns_declaration (h : TurnsTo false n (block statement))
    (hd : declaration? (block statement) k = some (kind, body)) : TurnsTo m n body := by
  cases declares hd with
  | binding => exact barren_variableStatement.turns
  | function => exact turns_keyword (turnsTo_seq_one (turns_signature h))
  | members => exact turns_classDeclaration h
  | enum => exact barren_enumDeclaration.turns
  | space =>
    exact turns_keyword
      (turnsTo_seq_one (turnsTo_choose (blind_eq (by decide)) h (barren_complain _).turns))

lemma turns_consequence (h : TurnsTo false n statement) : TurnsTo false n (consequence statement) :=
  turnsTo_choose (blind_of_margins (by decide)) (barren_complain _).turns h

lemma turns_ifStatement (h : TurnsTo false n statement) :
    TurnsTo false (n + 1) (ifStatement statement) := by
  have hthen : Frugal (consequence statement) := (lossless_consequence ahead_statement).frugal
  have hstable : Stable (consequence statement) := fun l => stable_consequence (stable_statement l)
  have hexpect : ∀ j, TurnsTo false n (expect j) := fun j => (barren_expect j).turns
  have helse : TurnsTo false n (option .elseKeyword (seq [take, consequence statement])) := by
    refine turnsTo_choose (blind_eq (by decide))
      (turnsTo_take (turnsTo_seq_one (turns_consequence h))) ?_
    exact (barren_of_nests (S := fun _ => false) (by simp) nests_skip).turns
  exact turnsTo_node rfl (turnsTo_take (turnsTo_seq_cons (lossless_expect (by decide)).frugal
    (stable_expect _) (steady_expect (by decide)) (hexpect _) (turnsTo_seq_cons
      lossless_expression.frugal stable_expression steady_expression barren_expression.turns
      (turnsTo_seq_cons (lossless_expect (by decide)).frugal (stable_expect _) (steady_expect
        (by decide)) (hexpect _) (turnsTo_seq_cons hthen hstable (fun l => steady_consequence
          (steady_statement l)) (turns_consequence h) (turnsTo_seq_one helse))))))

lemma turnsTo_dispatch (h : ∀ j, ∃ s, (Barren s ∨ j ∉ margins ∧ TurnsTo b n s) ∧ ∀ ks, peek ks = j →
      r ks = s ks) : TurnsTo m n r := by
  intro P k parts rest hd hg hk
  obtain ⟨s, hbarren | ⟨hmargins, hs⟩, hrs⟩ :=
    h (peek (leavesAll (P.put (.branch k parts)) ++ rest))
  · exact absurd ((hrs _ rfl).symm.trans hg) (hbarren P k parts rest hk)
  · obtain ⟨-, ms, ps, rfl, hturned⟩ := hs P k parts rest hd ((hrs _ rfl).symm.trans hg) hk
    have hfront : leavesAll P.before ≠ [] := by
      intro hnil
      rw [(peek_put hturned.head P ms rest).2 hnil] at hmargins
      exact hmargins (mem_margins hturned.modifiers hturned.head)
    refine ⟨fun _ => hfront, ms, ps, rfl, hturned.modifiers, hturned.head, fun ms' hms' hgap => ?_⟩
    exact (hrs _ ((peek_put hturned.head P ms rest).1 hfront ms')).trans
      (hturned.gives ms' hms' hgap)

lemma turns_plainStatement (h : TurnsTo false n statement) :
    TurnsTo m (n + 1) (plainStatement statement) := by
  refine turnsTo_dispatch (b := false) fun k => ?_
  cases k
  case leftCurly =>
    exact ⟨_, .inr ⟨by decide, turns_block h⟩, fun ks hk => by rw [plainStatement, hk]⟩
  case returnKeyword =>
    exact ⟨_, .inl barren_returnStatement, fun ks hk => by rw [plainStatement, hk]⟩
  case ifKeyword =>
    exact ⟨_, .inr ⟨by decide, turns_ifStatement h⟩, fun ks hk => by rw [plainStatement, hk]⟩
  all_goals exact ⟨_, .inl barren_other, fun ks hk => by rw [plainStatement, hk]⟩

lemma opener_of_declaration {block : Rule} (hd : declaration? block k = some (kind, body)) :
    kind.isModified = true ∧ kind.isClassMember = false ∧ k ∈ openers := by
  cases declares hd with
  | binding hk => rcases hk with rfl | rfl | rfl <;> decide
  | _ => decide

lemma turns_statementOver (h : TurnsTo false n statement) :
    TurnsTo false (n + 1) (statementOver statement) := by
  intro P k parts rest hdepth hg hk
  obtain ⟨ms, bs, kind, body, hput, hms, hd, hbs⟩ | ⟨ms, hput, -⟩ | ⟨hplain, hfirst, hd⟩ :=
    statementOver_cases hg
  · rcases of_put_modified hk hput with ⟨rfl, rfl, rfl⟩ | ⟨Q, rfl, rfl⟩
    · obtain ⟨j, qs, rfl⟩ := exists_keyword hd hbs
      obtain ⟨-, hmember, hj⟩ := opener_of_declaration hd
      have hbare := bare_of_nests (nests_declaration (nests_block nests_statement) hd fun i _ hi =>
        bne_iff_ne.2 hi) hbs
      refine ⟨fun hother => absurd hmember hother, ms, _, rfl, hms, ⟨?_, hbare⟩, fun ms' hms' _ =>
        gives_modified_declaration hms' hd hbs⟩
      rw [hmember]
      exact ⟨j, qs, rfl, hj, not_modifier_of_declaration hd⟩
    · rw [hput] at hdepth
      simp only [depthAll, depth, depthAll_append] at hdepth
      -- The keyword is before whatever is in the declaration.
      obtain ⟨hfront, js, ps, rfl, hturned⟩ := turns_declaration (m := !k.isClassMember)
        ((turns_block h).mono (Nat.le_succ n)) hd Q k parts rest (by omega) hbs hk
      replace hfront := hfront (by simp)
      refine ⟨fun _ => ?_, js, ps, rfl, hturned.modifiers, hturned.head, fun ms' hms' hgap => ?_⟩
      · simp [Place.before, leavesAll_append, hfront]
      · simp only [Place.before, Place.before_behind, nil_append, lacksWordAll_append] at hgap
        have hlast := hturned.gives ms' hms' (hgap.mono fun hlacks => by simp [hlacks])
        simp only [Place.put, Place.put_behind, nil_append]
        exact gives_modified_declaration hms
          (((peek_put hturned.head Q js rest).1 hfront ms').symm ▸ hd) hlast
  · exact absurd hput (not_put_error hk ms)
  · obtain ⟨hfront, js, ps, rfl, hturned⟩ :=
      turns_plainStatement (m := !k.isClassMember) h P k parts rest hdepth hplain hk
    replace hfront := hfront (by simp)
    refine ⟨fun _ => hfront, js, ps, rfl, hturned.modifiers, hturned.head, fun ms' hms' hgap => ?_⟩
    rw [← (peek_put hturned.head P js rest).1 hfront ms'] at hfirst hd
    exact (statementOver_plain hd hfirst).trans (hturned.gives ms' hms' hgap)

lemma turns_statement (n : Nat) : TurnsTo false n statement := by
  induction n with
  | zero => exact fun P k parts rest hd => absurd hd (Nat.not_lt_zero _)
  | succ n ih =>
    rw [statement_over]
    exact turns_statementOver ih

lemma turns_file (n : Nat) : TurnsTo false n file :=
  turnsTo_repeatUntil frugal_statement stable_statement steady_statement
  (fun _ hks => advances_statement hks) (fun _ _ => rfl) (turns_statement n)

end Grammar

namespace Outline
open Grammar Rule

/-- In a file a declaration or class member starts with its modifiers, and with others in their
place the file is read with those. -/
lemma ofKinds_turned {ks : List Kind} {P : Place} {k : Kind} {parts : List Outline}
    (hks : .endOfFile ∉ ks) (h : ofKinds ks = P.put (.branch k parts)) (hk : k.isModified = true) :
    ∃ ms ps, parts = modified ms ++ ps ∧ (∀ j ∈ ms, j.isModifierKeyword = true) ∧
    Heads k ps ∧ ∀ ms', (∀ j ∈ ms', j.isModifierKeyword = true) →
    Gap k.isClassMember (lacksWordAll P.before) (peek (ms ++ leavesAll ps))
      (peek (ms' ++ leavesAll ps)) → ofKinds (leavesAll (P.put (.branch k (modified ms' ++ ps)))) =
      P.put (.branch k (modified ms' ++ ps)) := by
  have hfile : Gives file (P.put (.branch k parts)) [] := by
    unfold Gives
    rw [append_nil, ← h, leavesAll_ofKinds hks]
    exact Prod.ext rfl (file_rest hks)
  obtain ⟨-, ms, ps, rfl, hturned⟩ := turns_file _ P k parts [] (Nat.lt_succ_self _) hfile hk
  refine ⟨ms, ps, rfl, hturned.modifiers, hturned.head, fun ms' hms' hgap => ?_⟩
  have hagain : Gives file (P.put (.branch k (modified ms' ++ ps))) [] :=
    hturned.gives ms' hms' hgap
  rw [Gives, append_nil] at hagain
  exact congrArg Prod.fst hagain

end Outline
end LiveEdit
