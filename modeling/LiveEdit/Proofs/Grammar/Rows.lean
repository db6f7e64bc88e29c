import LiveEdit.Proofs.Grammar.Items

/-! Rows of items with commas: how they split and join, and that a list in brackets is read as one.
-/

namespace LiveEdit
open List Option

namespace Outline

inductive Row (P : Outline → Prop) : List Outline → Prop where
  | nil : Row P []
  | one {o : Outline} (item : P o) : Row P [o]
  | more {o : Outline} {os : List Outline} (item : P o) (rest : Row P os) :
      Row P (o :: .leaf .comma :: os)

def Ready (os : List Outline) : Prop := os = [] ∨ ∃ ps, os = ps ++ [.leaf .comma]

def Ends (os : List Outline) : Prop := ∃ ps o, os = ps ++ [o] ∧ o ≠ .leaf .comma

section Row

variable {P : Outline → Prop} {o p : Outline} {os as bs : List Outline}

lemma row_cons : Row P (o :: os) ↔ P o ∧ (os = [] ∨ ∃ ps, os = .leaf .comma :: ps ∧ Row P ps) := by
  constructor
  · intro h
    cases h with
    | one item => exact ⟨item, .inl rfl⟩
    | more item rest => exact ⟨item, .inr ⟨_, rfl, rest⟩⟩
  · rintro ⟨item, rfl | ⟨ps, rfl, rest⟩⟩
    · exact .one item
    · exact .more item rest

lemma Row.ready : ∀ {as : List Outline}, Row P (as ++ o :: bs) → o ≠ .leaf .comma → Ready as
  | [], _, _ => .inl rfl
  | [a], h, ho => by
    rcases (row_cons.1 h).2 with hnil | ⟨ps, heq, -⟩
    · cases hnil
    · exact absurd (cons.inj heq).1 ho
  | a :: b :: as, h, ho => by
    rcases (row_cons.1 h).2 with hnil | ⟨ps, heq, hrest⟩
    · cases hnil
    · obtain ⟨rfl, rfl⟩ := cons.inj heq
      rcases Row.ready hrest ho with rfl | ⟨ps, rfl⟩
      · exact .inr ⟨[a], rfl⟩
      · exact .inr ⟨a :: .leaf .comma :: ps, rfl⟩

variable (hP : ∀ o, P o → o ≠ .leaf .comma)
include hP

lemma row_append_comma : ∀ as bs : List Outline,
    Row P (as ++ .leaf .comma :: bs) ↔ Row P (as ++ [.leaf .comma]) ∧ Row P bs
  | [], bs => by
    have hnot : ∀ {ps}, ¬ Row P (.leaf .comma :: ps) := fun h => hP _ (row_cons.1 h).1 rfl
    exact ⟨fun h => absurd h hnot, fun h => absurd h.1 hnot⟩
  | [a], bs => by
    constructor
    · rintro (_ | _ | ⟨item, rest⟩)
      exact ⟨.more item .nil, rest⟩
    · rintro ⟨h, rest⟩
      exact .more (row_cons.1 h).1 rest
  | a :: b :: as, bs => by
    constructor
    · rintro (_ | _ | ⟨item, rest⟩)
      obtain ⟨hleft, hright⟩ := (row_append_comma as bs).1 rest
      exact ⟨.more item hleft, hright⟩
    · rintro ⟨_ | _ | ⟨item, rest⟩, hright⟩
      exact .more item ((row_append_comma as bs).2 ⟨rest, hright⟩)

lemma Ready.row_append (h : Ready as) : Row P (as ++ bs) ↔ Row P as ∧ Row P bs := by
  rcases h with rfl | ⟨ps, rfl⟩
  · exact ⟨fun h => ⟨.nil, h⟩, fun h => h.2⟩
  · rw [append_assoc]
    exact row_append_comma hP ps bs

lemma Row.split (h : Row P (as ++ o :: bs)) (ho : o ≠ .leaf .comma) :
    Ready as ∧ Row P as ∧ P o ∧ (bs = [] ∨ ∃ ps, bs = .leaf .comma :: ps ∧ Row P ps) := by
  have hready := Row.ready h ho
  obtain ⟨hleft, hright⟩ := (Ready.row_append hP hready).1 h
  exact ⟨hready, hleft, row_cons.1 hright⟩

lemma Row.of_concat_comma : ∀ {as : List Outline}, Row P (as ++ [.leaf .comma]) → Row P as ∧ Ends as
  | [], h => absurd rfl (hP _ (row_cons.1 h).1)
  | [a], h => by
    have ha := (row_cons.1 h).1
    exact ⟨.one ha, [], a, rfl, hP a ha⟩
  | a :: b :: as, h => by
    obtain ⟨ha, hnil | ⟨ps, heq, hrest⟩⟩ := row_cons.1 h
    · cases hnil
    · obtain ⟨rfl, rfl⟩ := cons.inj heq
      obtain ⟨hrow, qs, o, rfl, ho⟩ := Row.of_concat_comma hrest
      exact ⟨.more ha hrow, a :: .leaf .comma :: qs, o, rfl, ho⟩

lemma Row.insert_behind_comma (h : Row P (as ++ .leaf .comma :: bs)) (ho : P o) :
    Row P (as ++ .leaf .comma :: o :: .leaf .comma :: bs) := by
  obtain ⟨hleft, hright⟩ := (row_append_comma hP as bs).1 h
  exact (row_append_comma hP as _).2 ⟨hleft, .more ho hright⟩

lemma Row.insert_last (h : Row P (as ++ [p])) (hp : p ≠ .leaf .comma) (ho : P o) :
    Row P (as ++ [p, .leaf .comma, o]) := by
  obtain ⟨hready, hleft, item, -⟩ := Row.split hP h hp
  exact (Ready.row_append hP hready).2 ⟨hleft, .more item (.one ho)⟩

lemma Row.remove_with_next (h : Row P (as ++ o :: .leaf .comma :: bs)) (ho : o ≠ .leaf .comma) :
    Row P (as ++ bs) := by
  obtain ⟨hready, hleft, -, hnil | ⟨ps, heq, hright⟩⟩ := Row.split hP h ho
  · cases hnil
  · obtain rfl := (cons.inj heq).2
    exact (Ready.row_append hP hready).2 ⟨hleft, hright⟩

lemma Row.remove_with_previous (h : Row P (as ++ .leaf .comma :: o :: bs))
    (hbs : ∀ ps, bs ≠ .leaf .comma :: ps) : bs = [] ∧ Row P as ∧ Ends as := by
  obtain ⟨hleft, hright⟩ := (row_append_comma hP as _).1 h
  refine ⟨?_, Row.of_concat_comma hP hleft⟩
  rcases (row_cons.1 hright).2 with hnil | ⟨ps, heq, -⟩
  · exact hnil
  · exact absurd heq (hbs ps)

end Row

end Outline

namespace Rule
open Outline Grammar

variable {l : Listing} {r : Rule} {o : Outline} {os : List Outline} {rest : List Kind} {n : Nat}

structure Item (r : Rule) (o : Outline) : Prop where
  branch : ∃ k ps, o = .branch k ps
  faultless : faultsAll [o] = []
  gives : ∀ rest, continues (peek rest) = false → Gives r [o] rest

lemma Item.ne_comma (h : Item r o) : o ≠ .leaf .comma := by
  obtain ⟨k, ps, rfl⟩ := h.branch
  exact fun heq => Outline.noConfusion heq

lemma faultsAll_of_row (h : Row (Item r) os) : faultsAll os = [] := by
  induction h with
  | nil => rfl
  | one item => exact item.faultless
  | more item _ ih => exact faultsAll_cons.2 ⟨item.faultless, ih⟩

lemma Heeds.item (h : Heeds continues r) (hs : Single r)
    (hg : Gives r os rest) (hf : faultsAll os = []) (hrest : continues (peek rest) = false) :
    ∃ o, os = [o] ∧ Item r o := by
  obtain ⟨k, ps, rfl⟩ := hs.exists_branch hg hf
  exact ⟨_, rfl, ⟨_, _, rfl⟩, hf, fun rest' hrest' => h _ rest rest' hg hf hrest hrest'⟩

lemma gives_comma {more : Rule} : Gives (option .comma (seq [take, more])) os rest ↔
    (os = [] ∧ peek rest ≠ .comma) ∨ ∃ ps, os = .leaf .comma :: ps ∧ Gives more ps rest := by
  constructor
  · intro hg
    cases hnext : peek (leavesAll os ++ rest) == .comma with
    | true =>
      have hlist := (gives_choose_of (p := (· == .comma)) hnext).1 hg
      obtain ⟨ps, qs, rfl, hps, hqs⟩ := (gives_seq_cons frugal_take).1 hlist
      obtain ⟨k, rfl⟩ := gives_take.1 hps
      obtain rfl : k = .comma := eq_of_beq hnext
      exact .inr ⟨qs, rfl, gives_seq_one.1 hqs⟩
    | false =>
      obtain rfl := gives_skip.1 ((gives_choose_of_not (p := (· == .comma)) hnext).1 hg)
      exact .inl ⟨rfl, ne_of_beq_false hnext⟩
  · rintro (⟨rfl, hrest⟩ | ⟨ps, rfl, hps⟩)
    · have hnext : (peek (leavesAll [] ++ rest) == .comma) = false := beq_false_of_ne hrest
      exact (gives_choose_of_not (p := (· == .comma)) hnext).2 rfl
    · refine (gives_choose_of (p := (· == .comma)) rfl).2 ?_
      exact (gives_seq_cons frugal_take).2 ⟨[.leaf .comma], ps, rfl, rfl, gives_seq_one.2 hps⟩

structure Listing.Orderly (l : Listing) : Prop where
  lossless : Lossless l.item
  single : Single l.item
  heeds : Heeds continues l.item
  starts : ∀ os rest, Gives l.item os rest → faultsAll os = [] →
    leavesAll os ≠ [] ∧ l.starts (peek (leavesAll os ++ rest)) = true
  start_end : l.starts .endOfFile = false
  start_close : l.starts l.close = false
  close_continues : continues l.close = false
  close_ne_comma : l.close ≠ .comma

namespace Listing.Orderly

lemma row_of_within (h : l.Orderly) (hrest : peek rest = l.close) :
    Gives (l.within n) os rest → faultsAll os = [] → Row (Item l.item) os := by
  induction n generalizing os with
  | zero =>
    intro hg _
    obtain rfl := gives_skip.1 hg
    exact .nil
  | succ n ih =>
    intro hg hf
    have hnil : Gives skip os rest → Row (Item l.item) os := by
      intro hskip
      obtain rfl := gives_skip.1 hskip
      exact .nil
    by_cases hend :
      (fun k : Kind => k == .endOfFile || k == l.close) (peek (leavesAll os ++ rest)) = true
    · exact hnil ((gives_choose_of hend).1 hg)
    have hg := (gives_choose_of_not (Bool.eq_false_iff.2 hend)).1 hg
    by_cases hstart : l.starts (peek (leavesAll os ++ rest)) = true
    · obtain ⟨ps, qs, rfl, hps, hqs⟩ :=
        (gives_seq_cons h.lossless.frugal).1 ((gives_choose_of hstart).1 hg)
      rw [faultsAll_append, append_eq_nil_iff] at hf
      rcases gives_comma.1 (gives_seq_one.1 hqs) with ⟨rfl, -⟩ | ⟨qs, rfl, hmore⟩
      · obtain ⟨o, rfl, item⟩ := h.heeds.item h.single hps hf.1 (by
          show continues (peek rest) = false
          rw [hrest]
          exact h.close_continues)
        exact .one item
      · obtain ⟨o, rfl, item⟩ := h.heeds.item h.single hps hf.1 rfl
        exact .more item (ih hmore hf.2)
    have hg := (gives_choose_of_not (Bool.eq_false_iff.2 hstart)).1 hg
    by_cases hstop : l.stops (peek (leavesAll os ++ rest)) = true
    · exact hnil ((gives_choose_of hstop).1 hg)
    obtain ⟨ps, qs, rfl, hps, -⟩ := (gives_seq_cons (frugal_recover _)).1
      ((gives_choose_of_not (Bool.eq_false_iff.2 hstop)).1 hg)
    rw [faultsAll_append, append_eq_nil_iff] at hf
    exact absurd hf.1 (not_gives_recover hps)

lemma within_nil (hrest : peek rest = l.close) (n : Nat) : Gives (l.within n) [] rest := by
  cases n with
  | zero => rfl
  | succ n => exact (gives_choose_of (by simp [leavesAll, hrest])).2 rfl

lemma within_succ (h : l.Orderly)
    (item : Item l.item o) (hnext : continues (peek (leavesAll os ++ rest)) = false)
    (hos : Gives (option .comma (seq [take, l.within n])) os rest) :
    Gives (l.within (n + 1)) (o :: os) rest := by
  have hone := item.gives _ hnext
  obtain ⟨-, hstart⟩ := h.starts [o] _ hone item.faultless
  have hpeek : l.starts (peek (leavesAll (o :: os) ++ rest)) = true := by
    rw [leavesAll_cons]
    exact hstart
  have hend : (fun k : Kind => k == .endOfFile || k == l.close)
      (peek (leavesAll (o :: os) ++ rest)) = false := by
    refine Bool.eq_false_iff.2 fun hend => ?_
    rcases Bool.or_eq_true _ _ ▸ hend with hend | hend <;> rw [eq_of_beq hend] at hpeek
    · exact Bool.false_ne_true (h.start_end.symm.trans hpeek)
    · exact Bool.false_ne_true (h.start_close.symm.trans hpeek)
  refine (gives_choose_of_not hend).2 ((gives_choose_of hpeek).2 ?_)
  exact (gives_seq_cons h.lossless.frugal).2 ⟨[o], os, rfl, hone, gives_seq_one.2 hos⟩

lemma within_of_row (h : l.Orderly) (hrest : peek rest = l.close) (hrow : Row (Item l.item) os)
    (hn : os.length ≤ n) : Gives (l.within n) os rest := by
  induction hrow generalizing n with
  | nil => exact within_nil hrest n
  | one item =>
    obtain ⟨n, rfl⟩ := Nat.exists_eq_add_of_le' hn
    refine h.within_succ item ?_ (gives_comma.2 (.inl ⟨rfl, hrest ▸ h.close_ne_comma⟩))
    show continues (peek rest) = false
    rw [hrest]
    exact h.close_continues
  | more item _ ih =>
    obtain ⟨n, rfl⟩ := Nat.exists_eq_add_of_le' (Nat.le_trans (Nat.le_add_left 1 _) hn)
    simp only [length_cons] at hn
    exact h.within_succ item rfl (gives_comma.2 (.inr ⟨_, rfl, ih (by omega)⟩))

lemma gives_items (h : l.Orderly) (hrest : peek rest = l.close) :
    (Gives (fun ks => l.within ks.length ks) os rest ∧ faultsAll os = []) ↔
    Row (Item l.item) os := by
  constructor
  · rintro ⟨hg, hf⟩
    exact h.row_of_within hrest hg hf
  · intro hrow
    refine ⟨?_, faultsAll_of_row hrow⟩
    have hlong := h.within_of_row (n := os.length + (leavesAll os ++ rest).length) hrest hrow
      (Nat.le_add_right ..)
    have hsame : AgreeTo (leavesAll os ++ rest).length l.item l.item := .refl _ _
    exact (Listing.agree_within h.lossless.ahead h.start_end _ hsame (Nat.le_refl _)
      (Nat.le_add_left ..) _ (Nat.le_refl _)).trans hlong

lemma gives_rule (h : l.Orderly) (hf : faultsAll os = []) : Gives l.rule os rest ↔
    ∃ ps, os = ps ++ [.leaf l.close] ∧ Row (Item l.item) ps := by
  have hfrugal := Listing.frugal_items h.lossless
  constructor
  · intro hg
    obtain ⟨ps, qs, rfl, hps, hqs⟩ := (gives_seq_cons hfrugal).1 hg
    rw [faultsAll_append, append_eq_nil_iff] at hf
    obtain rfl := (gives_expect hf.2).1 (gives_seq_one.1 hqs)
    exact ⟨ps, rfl, (h.gives_items rfl).1 ⟨hps, hf.1⟩⟩
  · rintro ⟨ps, rfl, hrow⟩
    refine (gives_seq_cons hfrugal).2 ⟨ps, [.leaf l.close], rfl, ((h.gives_items rfl).2 hrow).1, ?_⟩
    exact gives_seq_one.2 ((gives_expect rfl).2 rfl)

end Listing.Orderly
end Rule

namespace Grammar
open Outline Rule

variable {os : List Outline} {rest : List Kind} {n : Nat}

lemma peek_named {kind : Kind} {rs : List Rule}
    (hg : Gives (node kind (seq (name :: rs))) os rest) (hf : faultsAll os = []) :
    leavesAll os ≠ [] ∧ (peek (leavesAll os ++ rest) == .identifier) = true := by
  obtain ⟨ps, rfl, hps⟩ := gives_node.1 hg
  obtain ⟨qs, rfl, -, -⟩ := exists_named (by simpa [faultsAll, faults] using hf) hps
  exact ⟨cons_ne_nil _ _, rfl⟩

lemma orderly_parameters : parameters.Orderly where
  lossless := lossless_parameter
  single := single_node
  heeds := heeds_parameter
  starts := fun _ _ => peek_named
  start_end := rfl
  start_close := rfl
  close_continues := rfl
  close_ne_comma := by decide

lemma orderly_enumMembers : enumMembers.Orderly where
  lossless := lossless_enumMember
  single := single_node
  heeds := heeds_enumMember
  starts := fun _ _ => peek_named
  start_end := rfl
  start_close := rfl
  close_continues := rfl
  close_ne_comma := by decide

lemma orderly_arguments : argumentItems.Orderly where
  lossless := lossless_expression
  single := single_expression
  heeds := heeds_expression
  starts := by
    intro os rest hg hf
    refine ⟨fills_expression os rest hg hf, ?_⟩
    by_contra hstart
    have hover : Gives (expressionOver expression) os rest :=
      (congrFun expression_over _).symm.trans hg
    obtain rfl := gives_complain.1 ((gives_choose_of_not (Bool.eq_false_iff.2 hstart)).1 hover)
    cases hf
  start_end := rfl
  start_close := rfl
  close_continues := rfl
  close_ne_comma := by decide

lemma row_of_variables (hrest : continues (peek rest) = false) :
    Gives (variableDeclarations n) os rest → faultsAll os = [] → (leavesAll os ++ rest).length < n →
      Row (Item variableDeclaration) os ∧ Ends os := by
  induction n generalizing os with
  | zero => exact fun _ _ hn => absurd hn (Nat.not_lt_zero _)
  | succ n ih =>
    intro hg hf hn
    obtain ⟨ps, qs, rfl, hps, hqs⟩ := (gives_seq_cons lossless_variableDeclaration.frugal).1 hg
    rw [faultsAll_append, append_eq_nil_iff] at hf
    rcases gives_comma.1 (gives_seq_one.1 hqs) with ⟨rfl, -⟩ | ⟨qs, rfl, hmore⟩
    · obtain ⟨o, rfl, item⟩ := heeds_variableDeclaration.item single_node hps hf.1 hrest
      exact ⟨.one item, [], o, rfl, item.ne_comma⟩
    · obtain ⟨o, rfl, item⟩ := heeds_variableDeclaration.item single_node hps hf.1 rfl
      have hlt : (leavesAll qs ++ rest).length < n := by
        simp only [leavesAll, leaves, length_append, leavesAll_append, length_cons] at hn ⊢
        omega
      obtain ⟨hrow, ps, p, rfl, hp⟩ := ih hmore hf.2 hlt
      exact ⟨.more item hrow, o :: .leaf .comma :: ps, p, rfl, hp⟩

lemma variables_of_row (hcomma : peek rest ≠ .comma)
    (hrest : continues (peek rest) = false) (hrow : Row (Item variableDeclaration) os) :
    Ends os → os.length ≤ n → Gives (variableDeclarations n) os rest := by
  induction hrow generalizing n with
  | nil =>
    rintro ⟨ps, o, hnil, -⟩
    cases (append_eq_nil_iff.1 hnil.symm).2
  | one item =>
    intro _ hn
    obtain ⟨n, rfl⟩ := Nat.exists_eq_add_of_le' hn
    exact (gives_seq_cons lossless_variableDeclaration.frugal).2
      ⟨_, [], rfl, item.gives _ hrest, gives_seq_one.2 (gives_comma.2 (.inl ⟨rfl, hcomma⟩))⟩
  | @more o os item _ ih =>
    rintro ⟨ps, p, heq, hp⟩ hn
    obtain ⟨n, rfl⟩ := Nat.exists_eq_add_of_le' (Nat.le_trans (Nat.le_add_left 1 _) hn)
    have hends : Ends os := by
      rcases eq_nil_or_concat' os with rfl | ⟨qs, q, rfl⟩
      · obtain ⟨-, h⟩ := append_inj' (show [o] ++ [.leaf .comma] = ps ++ [p] from heq) rfl
        exact absurd (cons.inj h).1.symm hp
      · obtain ⟨-, h⟩ := append_inj'
          (show (o :: .leaf .comma :: qs) ++ [q] = ps ++ [p] by simpa using heq) rfl
        exact ⟨qs, q, rfl, (cons.inj h).1 ▸ hp⟩
    simp only [length_cons] at hn
    exact (gives_seq_cons lossless_variableDeclaration.frugal).2 ⟨_, _, rfl, item.gives _ rfl,
      gives_seq_one.2 (gives_comma.2 (.inr ⟨os, rfl, ih hends (by omega)⟩))⟩

lemma gives_variables (hcomma : peek rest ≠ .comma) (hrest : continues (peek rest) = false) :
    (Gives (fun ks => variableDeclarations (ks.length + 1) ks) os rest ∧ faultsAll os = []) ↔
      Row (Item variableDeclaration) os ∧ Ends os := by
  constructor
  · rintro ⟨hg, hf⟩
    exact row_of_variables hrest hg hf (Nat.lt_succ_self _)
  · rintro ⟨hrow, hends⟩
    refine ⟨?_, faultsAll_of_row hrow⟩
    have hlong := variables_of_row (n := os.length + ((leavesAll os ++ rest).length + 1))
      hcomma hrest hrow hends (Nat.le_add_right ..)
    exact (agree_variableDeclarations _ (Nat.le_refl _) (Nat.le_add_left ..) _
      (Nat.le_refl _)).trans hlong

end Grammar
end LiveEdit
