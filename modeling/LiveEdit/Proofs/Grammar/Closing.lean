import LiveEdit.Proofs.Grammar.Members
import LiveEdit.Proofs.Grammar.Stability

/-! A statement that ends in a semicolon or a brace is read as one whatever comes after it, save an
`else`. -/

namespace LiveEdit
open List

namespace Kind

def closes (k : Kind) : Bool := k == .semicolon || k == .rightCurly

end Kind

namespace Grammar
open Phrase

def Category.isOpen : Category → Bool
  | .variableDeclaration | .typeClause | .expression | .atom | .arguments => true
  | _ => false

def Phrase.Open : Phrase → Prop
  | nothing => True
  | one p => p .semicolon = false ∧ p .rightCurly = false
  | part c => c.isOpen = true
  | both a b => a.Open ∧ b.Open
  | either a b => a.Open ∧ b.Open
  | many a => a.Open

lemma Category.open_phrase {c : Category} (h : c.isOpen = true) : c.phrase.Open := by
  cases c with
  | variableDeclaration | typeClause | expression | atom | arguments =>
    simp [Category.phrase, Phrase.Open, Phrase.seq, choice, token, maybe, list, chain, initialValue,
      isOpen, isOperator]
  | _ => cases h

lemma Derives.not_closes {a : Phrase} {ks : List Kind} (h : Derives a ks) (ha : a.Open) :
    ∀ k ∈ ks, k.closes = false := by
  induction h with
  | nothing => exact fun k hk => absurd hk not_mem_nil
  | @one p k hp =>
    intro l hl
    obtain rfl := mem_singleton.1 hl
    have hsemicolon : l ≠ .semicolon := by
      rintro rfl
      exact Bool.false_ne_true (ha.1.symm.trans hp)
    have hcurly : l ≠ .rightCurly := by
      rintro rfl
      exact Bool.false_ne_true (ha.2.symm.trans hp)
    simp [Kind.closes, hsemicolon, hcurly]
  | part _ ih => exact ih (Category.open_phrase ha)
  | both _ _ iha ihb =>
    intro k hk
    exact (mem_append.1 hk).elim (iha ha.1 k) (ihb ha.2 k)
  | left _ ih => exact ih ha.1
  | right _ ih => exact ih ha.2
  | none => exact fun k hk => absurd hk not_mem_nil
  | more _ _ iha ihs =>
    intro k hk
    exact (mem_append.1 hk).elim (iha ha k) (ihs ha k)

end Grammar

namespace Outline

variable {os ps : List Outline}

def Closed (os : List Outline) : Prop :=
  ∃ k : Kind, (leavesAll os).getLast? = some k ∧ k.closes = true

lemma Closed.leaves_ne_nil (h : Closed os) : leavesAll os ≠ [] := by
  intro hnil
  obtain ⟨k, hk, -⟩ := h
  rw [hnil] at hk
  cases hk

lemma closed_append (hne : leavesAll ps ≠ []) : Closed (os ++ ps) ↔ Closed ps := by
  unfold Closed
  rw [leavesAll_append, List.getLast?_append_of_ne_nil _ hne]

lemma closed_append_of_nil (hnil : leavesAll ps = []) : Closed (os ++ ps) ↔ Closed os := by
  unfold Closed
  rw [leavesAll_append, hnil, append_nil]

lemma closed_branch {k : Kind} : Closed [.branch k os] ↔ Closed os := by
  unfold Closed
  simp only [leavesAll, leaves, append_nil]

lemma not_closed_of (h : ∀ k ∈ leavesAll os, k.closes = false) : ¬ Closed os := by
  rintro ⟨k, hk, hcloses⟩
  exact Bool.false_ne_true ((h k (mem_of_getLast? hk)).symm.trans hcloses)

end Outline

namespace Rule
open Outline Grammar

variable {r yes no : Rule} {rs : List Rule} {p : Kind → Bool} {k kind : Kind}
  {os : List Outline} {rest : List Kind} {n : Nat} {rest' : List Kind}

def ClosingAt (n : Nat) (r : Rule) (os : List Outline) (rest rest' : List Kind) : Prop :=
  depthAll os < n → Gives r os rest → faultsAll os = [] → Closed os → peek rest' ≠ .elseKeyword →
    Gives r os rest'

/-- What the rule reads without a fault, and ends in a token that closes, it reads again whatever
comes after, save an `else`. -/
def ClosingTo (n : Nat) (r : Rule) : Prop := ∀ os rest rest', ClosingAt n r os rest rest'

def Shuts (r : Rule) : Prop :=
  ∀ os rest, Gives r os rest → faultsAll os = [] → leavesAll os ≠ [] ∧ ∀ rest', Gives r os rest'

lemma Shuts.closing (h : Shuts r) (n : Nat) : ClosingTo n r :=
  fun os rest rest' _ hg hf _ _ => (h os rest hg hf).2 rest'

lemma shuts_take : Shuts take := by
  intro os rest hg _
  obtain ⟨k, rfl⟩ := gives_take.1 hg
  exact ⟨cons_ne_nil _ _, fun _ => rfl⟩

lemma shuts_complain (c : Complaint) : Shuts (complain c) := by
  intro os rest hg hf
  obtain rfl := gives_complain.1 hg
  cases hf

lemma shuts_choose (hyes : Shuts yes) (hno : Shuts no) : Shuts (choose p yes no) := by
  intro os rest hg hf
  cases hnext : p (peek (leavesAll os ++ rest)) with
  | true =>
    obtain ⟨hne, hall⟩ := hyes os rest ((gives_choose_of hnext).1 hg) hf
    refine ⟨hne, fun rest' => (gives_choose_of ?_).2 (hall rest')⟩
    rwa [peek_append_of_ne hne]
  | false =>
    obtain ⟨hne, hall⟩ := hno os rest ((gives_choose_of_not hnext).1 hg) hf
    refine ⟨hne, fun rest' => (gives_choose_of_not ?_).2 (hall rest')⟩
    rwa [peek_append_of_ne hne]

lemma shuts_expect (k : Kind) : Shuts (expect k) := shuts_choose shuts_take (shuts_complain _)

lemma shuts_seq_one (h : Shuts r) : Shuts (seq [r]) := by
  intro os rest hg hf
  obtain ⟨hne, hall⟩ := h os rest (gives_seq_one.1 hg) hf
  exact ⟨hne, fun rest' => gives_seq_one.2 (hall rest')⟩

lemma shuts_seq_cons (hr : Frugal r) (h : Stable r) (hs : Shuts (seq rs)) :
    Shuts (seq (r :: rs)) := by
  intro os rest hg hf
  obtain ⟨ps, qs, rfl, hps, hqs⟩ := (gives_seq_cons hr).1 hg
  rw [faultsAll_append] at hf
  obtain ⟨hne, hall⟩ := hs qs rest hqs (append_eq_nil_iff.1 hf).2
  refine ⟨by simp [hne], fun rest' => (gives_seq_cons hr).2 ⟨ps, qs, rfl, ?_, hall rest'⟩⟩
  exact h.gives hps (peek_append_of_ne hne ..)

lemma shuts_take_seq (hs : Shuts (seq rs)) : Shuts (seq (take :: rs)) :=
  shuts_seq_cons frugal_take stable_take hs

lemma shuts_node (h : Shuts r) : Shuts (node kind r) := by
  intro os rest hg hf
  obtain ⟨ps, rfl, hps⟩ := gives_node.1 hg
  obtain ⟨hne, hall⟩ := h ps rest hps (by simpa [faultsAll, faults] using hf)
  refine ⟨by simpa [leavesAll, leaves] using hne, fun rest' => gives_node.2 ⟨ps, rfl, hall rest'⟩⟩

lemma closing_node (h : ClosingTo n r) : ClosingTo (n + 1) (node kind r) := by
  intro os rest rest' hd hg hf hc hrest
  obtain ⟨ps, rfl, hps⟩ := gives_node.1 hg
  simp only [depthAll, depth] at hd
  exact gives_node.2 ⟨ps, rfl, h ps rest rest' (by omega) hps
    (by simpa [faultsAll, faults] using hf) (closed_branch.1 hc) hrest⟩

lemma closing_seq_cons (hr : Frugal r) (h : Stable r) (hs : ClosingTo n (seq rs)) (hopen : ∀ ps ls,
      Gives r ps ls → faultsAll ps = [] → leavesAll ps ++ ls = leavesAll os ++ rest → ¬ Closed ps) :
    ClosingAt n (seq (r :: rs)) os rest rest' := by
  intro hd hg hf hc hrest
  obtain ⟨ps, qs, rfl, hps, hqs⟩ := (gives_seq_cons hr).1 hg
  rw [faultsAll_append] at hf
  obtain ⟨hfp, hfq⟩ := append_eq_nil_iff.1 hf
  rw [depthAll_append] at hd
  have hne : leavesAll qs ≠ [] := by
    intro hnil
    refine hopen ps _ hps hfp ?_ ((closed_append_of_nil hnil).1 hc)
    rw [leavesAll_append, append_assoc]
  have hlast := hs qs rest rest' (by omega) hqs hfq ((closed_append hne).1 hc) hrest
  exact (gives_seq_cons hr).2 ⟨ps, qs, rfl, h.gives hps (peek_append_of_ne hne ..), hlast⟩

lemma closing_seq_open (hr : Frugal r) (h : Stable r) (hs : ClosingTo n (seq rs))
    (hopen : ∀ os rest, Gives r os rest → faultsAll os = [] → ¬ Closed os) :
    ClosingTo n (seq (r :: rs)) :=
  fun _ _ _ => closing_seq_cons hr h hs fun ps ls hps hfp _ => hopen ps ls hps hfp

lemma closing_take_seq (hs : ClosingTo n (seq rs))
    (hk : (peek (leavesAll os ++ rest)).closes = false) :
    ClosingAt n (seq (take :: rs)) os rest rest' := by
  refine closing_seq_cons frugal_take stable_take hs fun ps ls hps _ heq => ?_
  obtain ⟨k, rfl⟩ := gives_take.1 hps
  rw [← heq] at hk
  exact not_closed_of fun l hl => by rwa [mem_singleton.1 hl]

lemma closing_node_take (hs : ClosingTo n (seq rs))
    (hk : (peek (leavesAll os ++ rest)).closes = false) :
    ClosingAt (n + 1) (node kind (seq (take :: rs))) os rest rest' := by
  intro hd hg hf hc hrest
  obtain ⟨ps, rfl, hps⟩ := gives_node.1 hg
  simp only [depthAll, depth] at hd
  simp only [leavesAll, leaves, append_nil] at hk
  simp only [faultsAll, faults, append_nil] at hf
  exact gives_node.2 ⟨ps, rfl, closing_take_seq hs hk (by omega) hps hf (closed_branch.1 hc) hrest⟩

lemma closing_semicolon (hr : Frugal r) (h : Stable r)
    (hopen : ∀ os rest, Gives r os rest → faultsAll os = [] → ¬ Closed os) :
    ClosingTo n (seq [r, option .semicolon take]) := by
  have hlast : ClosingTo n (seq [option .semicolon take]) := by
    intro os rest rest' _ hg _ hc _
    have hg := gives_seq_one.1 hg
    refine gives_seq_one.2 ?_
    cases hnext : peek (leavesAll os ++ rest) == .semicolon with
    | true =>
      obtain ⟨k, rfl⟩ := gives_take.1 ((gives_choose_of (p := (· == .semicolon)) hnext).1 hg)
      have hagain : (peek (leavesAll [.leaf k] ++ rest') == .semicolon) = true := hnext
      exact (gives_choose_of (p := (· == .semicolon)) hagain).2 (gives_take.2 ⟨k, rfl⟩)
    | false =>
      obtain rfl := gives_skip.1 ((gives_choose_of_not (p := (· == .semicolon)) hnext).1 hg)
      exact absurd rfl hc.leaves_ne_nil
  exact closing_seq_open hr h hlast hopen

end Rule

namespace Grammar
open Outline Rule

variable {inner block body : Rule} {rs : List Rule} {os : List Outline} {rest rest' ks : List Kind}
  {k kind : Kind} {n : Nat}

lemma derives_of_then {a : Phrase} (h : Then a (· = rest) (ks ++ rest)) : Derives a ks := by
  obtain ⟨us, vs, heq, ha, rfl⟩ := h
  rwa [append_cancel_right heq] at ha

lemma accepts_of_gives {r : Rule} (hg : Gives r os rest) (hf : faultsAll os = []) :
    Accepts r (· = rest) (leavesAll os ++ rest) := by
  unfold Gives at hg
  unfold Accepts
  rw [hg]
  exact ⟨hf, rfl⟩

lemma not_closed_expression (hg : Gives expression os rest) (hf : faultsAll os = []) :
    ¬ Closed os :=
  not_closed_of ((derives_of_then
    (obeys_expression _ _ (Nat.lt_succ_self _) (accepts_of_gives hg hf))).not_closes rfl)

lemma not_closed_variableDeclarations
    (hg : Gives (fun ks => variableDeclarations (ks.length + 1) ks) os rest)
    (hf : faultsAll os = []) : ¬ Closed os := by
  have hthen := obeys_variableDeclarations _ (leavesAll os ++ rest) (· = rest) (Nat.lt_succ_self _)
    (accepts_of_gives hg hf)
  refine not_closed_of ((derives_of_then hthen).not_closes ⟨rfl, ?_, rfl⟩)
  exact ⟨rfl, rfl⟩

lemma shuts_named (hs : Shuts (seq rs)) : Shuts (seq (take :: name :: rs)) :=
  shuts_take_seq (shuts_seq_cons lossless_name.frugal stable_name hs)

lemma shuts_block : Shuts (Grammar.block statement) :=
  shuts_node (shuts_seq_cons (lossless_expect (by decide)).frugal (stable_expect _)
    (shuts_seq_cons (lossless_repeatUntil ahead_statement).frugal (stable_statements _)
      (shuts_seq_one (shuts_expect _))))

lemma stable_statementBlock : Stable (Grammar.block statement) :=
  fun n => (stable_block (stable_statement n)).mono (Nat.le_succ n)

lemma shuts_signature : Shuts (signature (Grammar.block statement)) :=
  shuts_seq_cons lossless_parameters.frugal stable_parameters
    (shuts_seq_cons lossless_typeClause.frugal stable_typeClause
      (shuts_seq_one (shuts_choose shuts_block (shuts_expect _))))

lemma frugal_members :
    Frugal (repeatUntil (· == .rightCurly) (classMember (Grammar.block statement))) :=
  frugal_classMembers lossless_statementBlock

lemma stable_members :
    Stable (repeatUntil (· == .rightCurly) (classMember (Grammar.block statement))) :=
  fun n => stable_classMembers lossless_statementBlock (stable_statementBlock n)

lemma shuts_declaration (hk : Phrase.isVariableKeyword k = false)
    (hd : declaration? (Grammar.block statement) k = some (kind, body)) : Shuts body := by
  have hmembers : Shuts (seq [take, repeatUntil (· ==
      .rightCurly) (classMember (Grammar.block statement)), expect .rightCurly]) := shuts_take_seq
      (shuts_seq_cons frugal_members stable_members (shuts_seq_one (shuts_expect _)))
  have hlist : Shuts enumMembers.rule :=
    shuts_seq_cons (Listing.frugal_items lossless_enumMember)
      (fun n => Listing.stable_items lossless_enumMember rfl (stable_enumMember n))
      (shuts_seq_one (shuts_expect _))
  cases declares hd with
  | binding hvariable => rcases hvariable with rfl | rfl | rfl <;> cases hk
  | function => exact shuts_named (shuts_seq_one shuts_signature)
  | members => exact shuts_named (shuts_seq_one (shuts_choose hmembers (shuts_complain _)))
  | enum =>
    exact shuts_named
      (shuts_seq_one (shuts_choose (shuts_take_seq (shuts_seq_one hlist)) (shuts_complain _)))
  | space => exact shuts_named (shuts_seq_one (shuts_choose shuts_block (shuts_complain _)))

lemma closing_declaration
    (hd : declaration? (Grammar.block statement) (peek (leavesAll os ++ rest)) = some (kind, body))
    (hg : Gives body os rest) (hf : faultsAll os = []) (hc : leavesAll os ≠ [] → Closed os)
    (hrest : peek rest' ≠ .elseKeyword) : leavesAll os ≠ [] ∧ Gives body os rest' := by
  cases hk : Phrase.isVariableKeyword (peek (leavesAll os ++ rest)) with
  | false =>
    obtain ⟨hne, hall⟩ := shuts_declaration hk hd os rest hg hf
    exact ⟨hne, hall rest'⟩
  | true =>
    have hwords : peek (leavesAll os ++ rest) = .constKeyword ∨
        peek (leavesAll os ++ rest) = .letKeyword ∨ peek (leavesAll os ++ rest) = .varKeyword := by
      simpa [Phrase.isVariableKeyword, or_assoc] using hk
    have hbody : body = variableStatement ∧ (peek (leavesAll os ++ rest)).closes = false := by
      rcases hwords with h | h | h <;> rw [h] at hd ⊢ <;> cases hd <;> exact ⟨rfl, rfl⟩
    obtain ⟨rfl, hcloses⟩ := hbody
    obtain ⟨ps, qs, rfl, hps, hqs⟩ := (gives_seq_cons frugal_take).1 hg
    obtain ⟨l, rfl⟩ := gives_take.1 hps
    have hne : leavesAll ([Outline.leaf l] ++ qs) ≠ [] := by simp [leavesAll, leaves]
    exact ⟨hne, closing_take_seq (closing_semicolon frugal_variableDeclarations
      stable_variableDeclarations fun _ _ => not_closed_variableDeclarations) hcloses
      (Nat.lt_succ_self _) hg hf (hc hne) hrest⟩

lemma gives_expect (hf : faultsAll os = []) : Gives (expect k) os rest ↔ os = [.leaf k] := by
  constructor
  · intro hg
    cases hnext : peek (leavesAll os ++ rest) == k with
    | true =>
      obtain ⟨l, rfl⟩ := gives_take.1 ((gives_choose_of (p := (· == k)) hnext).1 hg)
      obtain rfl : l = k := eq_of_beq hnext
      rfl
    | false =>
      obtain rfl := gives_complain.1 ((gives_choose_of_not (p := (· == k)) hnext).1 hg)
      cases hf
  · rintro rfl
    have hnext : (peek (leavesAll [.leaf k] ++ rest) == k) = true := beq_self_eq_true k
    exact (gives_choose_of (p := (· == k)) hnext).2 (gives_take.2 ⟨k, rfl⟩)

lemma not_closed_expect (hk : k.closes = false) (hg : Gives (expect k) os rest)
    (hf : faultsAll os = []) : ¬ Closed os := by
  obtain rfl := (gives_expect hf).1 hg
  exact not_closed_of fun m hm => by rwa [mem_singleton.1 hm]

lemma closing_consequence (h : ClosingTo n inner) : ClosingTo n (consequence inner) := by
  intro os rest rest' hd hg hf hc hrest
  have hne := hc.leaves_ne_nil
  cases hnext : (fun k : Kind => k == .rightCurly || k == .endOfFile)
      (peek (leavesAll os ++ rest)) with
  | true =>
    obtain rfl := gives_complain.1 ((gives_choose_of hnext).1 hg)
    cases hf
  | false =>
    refine (gives_choose_of_not ?_).2
      (h os rest rest' hd ((gives_choose_of_not hnext).1 hg) hf hc hrest)
    rwa [peek_append_of_ne hne]

lemma closing_branches (hl : LosslessAhead inner) (hstable : Stable inner) (h : ClosingTo n inner) :
    ClosingTo n (seq [consequence inner, option .elseKeyword (seq [take, consequence inner])]) := by
  have hthen : Frugal (consequence inner) := (lossless_consequence hl).frugal
  have hsame : Stable (consequence inner) := fun n => stable_consequence (hstable n)
  intro os rest rest' hd hg hf hc hrest
  obtain ⟨ps, qs, rfl, hps, hqs⟩ := (gives_seq_cons hthen).1 hg
  have hqs := gives_seq_one.1 hqs
  rw [faultsAll_append] at hf
  obtain ⟨hfp, hfq⟩ := append_eq_nil_iff.1 hf
  rw [depthAll_append] at hd
  cases hnext : peek (leavesAll qs ++ rest) == .elseKeyword with
  | true =>
    have helse := (gives_choose_of (p := (· == .elseKeyword)) hnext).1 hqs
    have hne : leavesAll qs ≠ [] := by
      obtain ⟨ls, ms, rfl, hls, -⟩ := (gives_seq_cons frugal_take).1 helse
      obtain ⟨l, rfl⟩ := gives_take.1 hls
      simp [leavesAll, leaves]
    have hlast : Gives (seq [take, consequence inner]) qs rest' := by
      refine closing_take_seq (n := n) (fun os rest rest' hd hg hf hc hrest => ?_) ?_ (by omega)
        helse hfq ((closed_append hne).1 hc) hrest
      · exact gives_seq_one.2
          (closing_consequence h os rest rest' hd (gives_seq_one.1 hg) hf hc hrest)
      · rw [eq_of_beq hnext]
        rfl
    have hpeek := peek_append_of_ne hne rest' rest
    refine (gives_seq_cons hthen).2 ⟨ps, qs, rfl, hsame.gives hps hpeek, gives_seq_one.2 ?_⟩
    exact (gives_choose_of (p := (· == .elseKeyword)) (by rwa [hpeek])).2 hlast
  | false =>
    obtain rfl := gives_skip.1 ((gives_choose_of_not (p := (· == .elseKeyword)) hnext).1 hqs)
    have hfirst := closing_consequence h ps _ rest' (by omega) hps hfp
      ((closed_append_of_nil rfl).1 hc) hrest
    have hagain : (peek (leavesAll [] ++ rest') == .elseKeyword) = false :=
      beq_eq_false_iff_ne.2 hrest
    refine (gives_seq_cons hthen).2 ⟨ps, [], rfl, hfirst, gives_seq_one.2 ?_⟩
    exact (gives_choose_of_not (p := (· == .elseKeyword)) hagain).2 rfl

lemma closing_ifStatement (h : ClosingTo n statement)
    (hk : peek (leavesAll os ++ rest) = .ifKeyword) :
    ClosingAt (n + 1) (ifStatement statement) os rest rest' := by
  have hbranches := closing_branches ahead_statement stable_statement h
  have hexpect : ∀ k : Kind, k ≠ .endOfFile → Frugal (expect k) :=
    fun k hk => (lossless_expect hk).frugal
  have hcondition : ClosingTo n (seq [expect .leftParenthesis, expression, expect .rightParenthesis,
      consequence statement, option .elseKeyword (seq [take, consequence statement])]) :=
    closing_seq_open (hexpect _ (by decide)) (stable_expect _)
      (closing_seq_open lossless_expression.frugal stable_expression
        (closing_seq_open (hexpect _ (by decide)) (stable_expect _) hbranches
          fun _ _ => not_closed_expect rfl)
        fun _ _ => not_closed_expression)
      fun _ _ => not_closed_expect rfl
  exact closing_node_take hcondition (by rw [hk]; rfl)

lemma closing_returnStatement (hk : peek (leavesAll os ++ rest) = .returnKeyword) :
    ClosingAt (n + 1) returnStatement os rest rest' := by
  have hopen : ∀ os rest, Gives (choose expressionStart.contains expression skip) os rest →
      faultsAll os = [] → ¬ Closed os := by
    intro os rest hg hf
    cases hnext : expressionStart.contains (peek (leavesAll os ++ rest)) with
    | true => exact not_closed_expression ((gives_choose_of hnext).1 hg) hf
    | false =>
      obtain rfl := gives_skip.1 ((gives_choose_of_not hnext).1 hg)
      exact fun hc => hc.leaves_ne_nil rfl
  exact closing_node_take (closing_semicolon lossless_value.frugal stable_value hopen)
    (by rw [hk]; rfl)

lemma not_gives_recover {c : Complaint} (hg : Gives (recover c) os rest) : faultsAll os ≠ [] := by
  obtain ⟨ps, rfl, hps⟩ := gives_node.1 hg
  obtain ⟨qs, rs, rfl, hqs, -⟩ := (gives_seq_cons (lossless_complain c).frugal).1 hps
  obtain rfl := gives_complain.1 hqs
  simp [faultsAll, faults]

lemma closing_plainStatement (h : ClosingTo n statement) :
    ClosingTo (n + 1) (plainStatement statement) := by
  intro os rest rest' hd hg hf hc hrest
  have hpeek := peek_append_of_ne hc.leaves_ne_nil rest' rest
  have hgives : plainStatement statement (leavesAll os ++ rest) = (os, rest) := hg
  show plainStatement statement (leavesAll os ++ rest') = (os, rest')
  unfold plainStatement at hgives ⊢
  rw [hpeek]
  split at hgives
  next hk => exact shuts_block.closing _ os rest rest' hd hgives hf hc hrest
  next hk => exact closing_returnStatement hk hd hgives hf hc hrest
  next hk => exact closing_ifStatement h hk hd hgives hf hc hrest
  next =>
    have hexpression : ClosingTo (n + 1) expressionStatement :=
      closing_node (closing_semicolon lossless_expression.frugal stable_expression
        fun _ _ => not_closed_expression)
    cases hstart : expressionStart.contains (peek (leavesAll os ++ rest)) with
    | true =>
      refine (gives_choose_of (by rwa [hpeek])).2 ?_
      exact hexpression os rest rest' hd ((gives_choose_of hstart).1 hgives) hf hc hrest
    | false => exact absurd hf (not_gives_recover ((gives_choose_of_not hstart).1 hgives))

lemma closing_statementOver (h : ClosingTo n statement) :
    ClosingTo (n + 1) (statementOver statement) := by
  intro os rest rest' hdepth hg hf hc hrest
  have hpeek := peek_append_of_ne hc.leaves_ne_nil rest' rest
  obtain ⟨ms, bs, kind, body, rfl, hms, hd, hbs⟩ | ⟨ms, rfl, -⟩ | ⟨hplain, hfirst, hd⟩ :=
    statementOver_cases hg
  · simp only [faultsAll, faults, faultsAll_append, append_nil, append_eq_nil_iff] at hf
    rw [closed_branch] at hc
    obtain ⟨hne, hbody⟩ :=
      closing_declaration hd hbs hf.2 (fun hne => (closed_append hne).1 hc) hrest
    exact gives_modified_declaration hms (by rwa [peek_append_of_ne hne]) hbody
  · simp [faultsAll, faults] at hf
  · rw [← hpeek] at hfirst hd
    refine (statementOver_plain hd hfirst).trans ?_
    exact closing_plainStatement h os rest rest' hdepth hplain hf hc hrest

lemma closing_statement (n : Nat) : ClosingTo n statement := by
  induction n with
  | zero => exact fun os rest rest' hd => absurd hd (Nat.not_lt_zero _)
  | succ n ih =>
    rw [statement_over]
    exact closing_statementOver ih

lemma gives_statement_of_closed (hg : Gives statement os rest) (hf : faultsAll os = [])
    (hc : Closed os) (hrest : peek rest' ≠ .elseKeyword) : Gives statement os rest' :=
  closing_statement _ os rest rest' (Nat.lt_succ_self _) hg hf hc hrest

end Grammar
end LiveEdit
