import LiveEdit.Proofs.Grammar.Closing
import LiveEdit.Proofs.Grammar.Forms
import LiveEdit.Proofs.Outline.Rounds

/-! Closed statements can be put at the start of a list and after every closed statement in it. -/

namespace LiveEdit
open List

namespace Grammar
open Outline Rule

variable {stop : Kind → Bool} {o : Outline} {os as bs bs' ms : List Outline}
  {rest rest' : List Kind}

abbrev statements (stop : Kind → Bool) : Rule := repeatUntil stop statement

lemma single_statement : Single statement := by
  intro ks
  rw [statement_over]
  unfold statementOver
  dsimp only
  split
  · exact .inl ⟨_, _, rfl⟩
  · split
    · unfold plainStatement
      split
      · exact .inl ⟨_, _, rfl⟩
      · exact .inl ⟨_, _, rfl⟩
      · exact .inl ⟨_, _, rfl⟩
      · exact single_choose single_node single_node _
    · exact .inl ⟨_, _, rfl⟩

lemma paced_statement : Paced statement :=
  ⟨frugal_statement, fun _ hks => advances_statement hks, single_statement, stable_statement⟩

lemma gives_statements_cons :
    Gives (statements stop) (o :: os) rest ↔ (peek (leavesAll (o :: os) ++ rest) ≠ .endOfFile ∧
      stop (peek (leavesAll (o :: os) ++ rest)) = false) ∧
    Gives statement [o] (leavesAll os ++ rest) ∧ Gives (statements stop) os rest :=
  paced_statement.gives_cons

lemma peek_of_gives_statement (hg : Gives statement os rest) (hf : faultsAll os = []) :
    peek (leavesAll os ++ rest) ≠ .rightCurly ∧ peek (leavesAll os ++ rest) ≠ .elseKeyword ∧
      peek (leavesAll os ++ rest) ≠ .endOfFile := by
  have hover : statementOver statement (leavesAll os ++ rest) = (os, rest) :=
    (congrFun statement_over _).symm.trans hg
  have hnot : ∀ k : Kind, declaration? (Grammar.block statement) k = none →
      k.isModifierKeyword = false →
      (∀ ks, peek ks = k → plainStatement statement ks = recover .unexpectedToken ks) →
      peek (leavesAll os ++ rest) ≠ k := by
    intro k hd hfirst hplain hk
    have hrecover : Gives (recover .unexpectedToken) os rest := by
      rw [statementOver_plain (by rwa [hk]) (by rwa [hk]), hplain _ hk] at hover
      exact hover
    exact not_gives_recover hrecover hf
  have hplain : ∀ k : Kind, k = .rightCurly ∨ k = .elseKeyword ∨ k = .endOfFile →
      ∀ ks, peek ks = k → plainStatement statement ks = recover .unexpectedToken ks := by
    intro k hk ks hks
    unfold plainStatement
    rcases hk with rfl | rfl | rfl <;> rw [hks] <;> exact if_neg (by rw [hks]; decide)
  exact ⟨hnot _ rfl rfl (hplain _ (.inl rfl)), hnot _ rfl rfl (hplain _ (.inr (.inl rfl))),
    hnot _ rfl rfl (hplain _ (.inr (.inr rfl)))⟩

def EndsAtBrace (stop : Kind → Bool) : Prop := ∀ k, stop k = true → k = .rightCurly

lemma peek_of_gives_statements (hstop : EndsAtBrace stop) (hg : Gives (statements stop) os rest)
    (hf : faultsAll os = []) : peek (leavesAll os ++ rest) ≠ .elseKeyword := by
  cases os with
  | nil =>
    show peek rest ≠ .elseKeyword
    rcases paced_statement.gives_nil.1 hg with hend | hend
    · rw [hend]
      decide
    · rw [hstop _ hend]
      decide
  | cons o os =>
    obtain ⟨-, hone, -⟩ := gives_statements_cons.1 hg
    rw [leavesAll_cons]
    exact (peek_of_gives_statement hone (faultsAll_cons.1 hf).1).2.1

structure Standing (o : Outline) : Prop where
  gives : ∃ rest, Gives statement [o] rest
  faultless : faultsAll [o] = []
  closed : Closed [o]

lemma Standing.gives_statement (h : Standing o) (hrest : peek rest ≠ .elseKeyword) :
    Gives statement [o] rest := by
  obtain ⟨rest', hg⟩ := h.gives
  exact gives_statement_of_closed hg h.faultless h.closed hrest

lemma gives_standing (hstop : EndsAtBrace stop) (hms : ∀ m ∈ ms, Standing m)
    (hf : faultsAll bs = []) (hg : Gives (statements stop) bs rest) :
    Gives (statements stop) (ms ++ bs) rest ∧ faultsAll (ms ++ bs) = [] := by
  induction ms with
  | nil => exact ⟨hg, hf⟩
  | cons m ms ih =>
    have hm := hms m mem_cons_self
    obtain ⟨hrest, hfrest⟩ := ih fun o ho => hms o (mem_cons_of_mem m ho)
    have hone := hm.gives_statement (peek_of_gives_statements hstop hrest hfrest)
    have hpeek := peek_of_gives_statement hone hm.faultless
    refine ⟨gives_statements_cons.2 ⟨?_, hone, hrest⟩, ?_⟩
    · rw [leavesAll_cons]
      exact ⟨hpeek.2.2, Bool.eq_false_iff.2 fun h => hpeek.1 (hstop _ h)⟩
    · exact faultsAll_cons.2 ⟨hm.faultless, hfrest⟩

lemma gives_behind_closed (hstop : EndsAtBrace stop) (hg : Gives (statements stop) (as ++ bs) rest)
    (hf : faultsAll as = []) (hlast : as = [] ∨ Closed as) (hbs : Gives (statements stop) bs' rest')
    (hfbs : faultsAll bs' = []) : Gives (statements stop) (as ++ bs') rest' := by
  refine paced_statement.gives_append hg hbs fun a ha hone => ?_
  obtain ⟨as, rfl⟩ := getLast?_eq_some_iff.1 ha
  rw [faultsAll_append] at hf
  have hfa : faultsAll [a] = [] := (append_eq_nil_iff.1 hf).2
  have hclosed : Closed (as ++ [a]) :=
    hlast.resolve_left (append_ne_nil_of_right_ne_nil _ (cons_ne_nil _ _))
  have hne : leavesAll [a] ≠ [] :=
    paced_statement.leaves_ne_nil hone (peek_of_gives_statement hone hfa).2.2
  exact gives_statement_of_closed hone hfa ((closed_append hne).1 hclosed)
    (peek_of_gives_statements hstop hbs hfbs)

lemma gives_insertion (hstop : EndsAtBrace stop) (hms : ∀ m ∈ ms, Standing m)
    (hg : Gives (statements stop) (as ++ bs) rest) (hf : faultsAll (as ++ bs) = [])
    (hlast : as = [] ∨ Closed as) : Gives (statements stop) (as ++ (ms ++ bs)) rest := by
  rw [faultsAll_append, append_eq_nil_iff] at hf
  obtain ⟨hlist, hflist⟩ := gives_standing hstop hms hf.2 (paced_statement.gives_right hg)
  exact gives_behind_closed hstop hg hf.1 hlast hlist hflist

lemma isStatement_of_gives (hg : Gives statement [o] rest) (hf : faultsAll [o] = []) :
    ∃ k ps, o = .branch k ps ∧ k.isStatement = true := by
  have hover : Gives (statementOver statement) [o] rest := (congrFun statement_over _).symm.trans hg
  obtain ⟨ms, bs, kind, body, hos, -, hd, -⟩ | ⟨ms, hos, -⟩ | ⟨hplain, -⟩ :=
    statementOver_cases hover
  · exact ⟨kind, _, (cons.inj hos).1, (holds_declaration hd).1⟩
  · rw [hos] at hf
    simp [faultsAll, faults] at hf
  · rcases plainStatement_cases hplain with ⟨k, ps, hos, hk⟩ | hstray
    · refine ⟨k, ps, (cons.inj hos).1, ?_⟩
      simp only [mem_cons, not_mem_nil, or_false] at hk
      rcases hk with rfl | rfl | rfl | rfl <;> rfl
    · exact absurd hf (not_gives_recover hstray)

lemma isStatement_of_mem (hg : Gives (statements stop) os rest) (hf : faultsAll os = []) :
    ∀ o ∈ os, ∃ k ps, o = .branch k ps ∧ k.isStatement = true := by
  induction os with
  | nil => exact fun o ho => absurd ho not_mem_nil
  | cons o os ih =>
    obtain ⟨-, hone, hrest⟩ := gives_statements_cons.1 hg
    obtain ⟨hfirst, hfrest⟩ := faultsAll_cons.1 hf
    intro p hp
    rcases mem_cons.1 hp with rfl | hp
    · exact isStatement_of_gives hone hfirst
    · exact ih hrest hfrest p hp

lemma gives_block (hf : faultsAll os = []) :
    Gives (Grammar.block statement) [.branch .block os] rest ↔
    ∃ ss, os = .leaf .leftCurly :: (ss ++ [.leaf .rightCurly]) ∧
    Gives (statements (· == .rightCurly)) ss (.rightCurly :: rest) := by
  have hexpect : ∀ k : Kind, k ≠ .endOfFile → Frugal (expect k) :=
    fun k hk => (lossless_expect hk).frugal
  have hlist : Frugal (statements (· == .rightCurly)) :=
    (lossless_repeatUntil ahead_statement).frugal
  constructor
  · intro hg
    obtain ⟨ps, hps, hparts⟩ := gives_node.1 hg
    obtain rfl : os = ps := (Outline.branch.inj (cons.inj hps).1).2
    obtain ⟨ls, qs, rfl, hls, hqs⟩ := (gives_seq_cons (hexpect _ (by decide))).1 hparts
    obtain ⟨ss, rs, rfl, hss, hrs⟩ := (gives_seq_cons hlist).1 hqs
    simp only [faultsAll_append, append_eq_nil_iff] at hf
    obtain rfl := (gives_expect hf.1).1 hls
    obtain rfl := (gives_expect hf.2.2).1 (gives_seq_one.1 hrs)
    exact ⟨ss, rfl, hss⟩
  · rintro ⟨ss, rfl, hss⟩
    refine gives_node.2 ⟨_, rfl, (gives_seq_cons (hexpect _ (by decide))).2
      ⟨[.leaf .leftCurly], _, rfl, (gives_expect rfl).2 rfl, ?_⟩⟩
    exact (gives_seq_cons hlist).2 ⟨ss, _, rfl, hss, gives_seq_one.2 ((gives_expect rfl).2 rfl)⟩

end Grammar

namespace Outline
open Rule Grammar

variable {o : Outline} {os ps : List Outline} {k : Kind} {r : Rule}

inductive Within (o : Outline) : List Outline → Prop where
  | here {os : List Outline} (mem : o ∈ os) : Within o os
  | inside {os ps : List Outline} {k : Kind} (mem : .branch k ps ∈ os) (inner : Within o ps) :
      Within o os

lemma Within.solid (h : Within o os) (hs : ∀ p ∈ os, p.Solid) : o.Solid := by
  induction h with
  | here mem => exact hs o mem
  | inside mem _ ih =>
    cases hs _ mem with
    | branch parts _ _ => exact ih parts

lemma exists_exchange (hport : Port k r) (h : Within (.branch k ps) os)
    (hno : ∀ rest, ¬ Gives r [.branch k ps] rest) :
    ∃ os', List.Forall₂ Alike os os' ∧ ¬ ∀ o ∈ os', o.Solid := by
  have hmid : ∀ {o o' : Outline} (l r : List Outline), Alike o o' →
      List.Forall₂ Alike (l ++ o :: r) (l ++ o' :: r) :=
    fun l r ho => rel_append (alike_refl l) (.cons ho (alike_refl r))
  have hmem : ∀ (l r : List Outline) (o : Outline), o ∈ l ++ o :: r :=
    fun l r o => mem_append_right l mem_cons_self
  induction h with
  | here mem =>
    obtain ⟨l, r, rfl⟩ := append_of_mem mem
    refine ⟨l ++ .branch k [] :: r, hmid l r (.exchange hport ?_), fun hs => ?_⟩
    · exact fun rest hg => absurd hg (hno rest)
    · cases hs _ (hmem l r _) with
      | branch _ ne _ => exact ne rfl
  | @inside os qs j mem _ ih =>
    obtain ⟨qs', hqs, hsolid⟩ := ih
    obtain ⟨l, r, rfl⟩ := append_of_mem mem
    refine ⟨l ++ .branch j qs' :: r, hmid l r (.parts hqs), fun hs => hsolid ?_⟩
    cases hs _ (hmem l r _) with
    | branch parts _ _ => exact parts

/-- Every block of a file is one that the rule for blocks reads, and so for the other lists: if it
were not, anything could stand in its place. -/
lemma Within.gives_port (hport : Port k r) (h : Within (.branch k ps) os)
    (hg : Gives file os []) : ∃ rest, Gives r [.branch k ps] rest := by
  by_contra hno
  rw [not_exists] at hno
  obtain ⟨os', halike, hsolid⟩ := exists_exchange hport h hno
  have hgives := (stable_file _ os [] os' (Nat.lt_succ_self _) hg halike).gives [] rfl
  refine hsolid fun o ho => ?_
  unfold Gives at hgives
  exact solid_file (leavesAll os' ++ []) o (by rwa [hgives])

end Outline
end LiveEdit
