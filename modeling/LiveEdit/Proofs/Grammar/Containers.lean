import LiveEdit.Proofs.Grammar.Insertion
import LiveEdit.Proofs.Grammar.Rows

/-! Nodes that hold a list: any list that fits may stand there instead. -/

namespace LiveEdit
open List Option

namespace Grammar
open Outline Rule

variable {k o c : Kind} {r : Rule} {os B : List Outline} {rest rest' : List Kind} {l j : Kind}
  {rs : List Rule} {complaint : Complaint}

inductive Brackets : Kind → Kind → Kind → Prop where
  | block : Brackets .block .leftCurly .rightCurly
  | members : Brackets .classDeclaration .leftCurly .rightCurly
  | enumMembers : Brackets .enumDeclaration .leftCurly .rightCurly
  | parameters : Brackets .parameterList .leftParenthesis .rightParenthesis
  | arguments : Brackets .argumentList .leftParenthesis .rightParenthesis
  | declarations {l : Kind} (keyword : Phrase.isVariableKeyword l = true) :
      Brackets .variableStatement l .semicolon

def Fits : Kind → List Outline → Prop
  | .sourceFile, os => Gives file os []
  | .block, os => Gives (statements (· == .rightCurly)) os [.rightCurly]
  | .classDeclaration, os => Gives (repeatUntil (· == .rightCurly) member) os [.rightCurly]
  | .enumDeclaration, os => Row (Item enumMember) os
  | .parameterList, os => Row (Item parameter) os
  | .argumentList, os => Row (Item expression) os
  | .variableStatement, os => Row (Item variableDeclaration) os ∧ Ends os
  | _, _ => False

inductive Heading : Outline → Prop where
  | word {k : Kind} (kind : k ≠ .leftCurly) : Heading (.leaf k)
  | node {k : Kind} {os : List Outline} (kind : k = .modifier ∨ k = .name) : Heading (.branch k os)

def around (k o c : Kind) (H B : List Outline) : Outline :=
  .branch k (H ++ .leaf o :: (B ++ [.leaf c]))

structure Contains (r : Rule) (k o c : Kind) (H B : List Outline) : Prop where
  brackets : Brackets k o c
  heading : ∀ p ∈ H, Heading p
  fits : Fits k B
  gives : ∀ B' rest, faultsAll B' = [] → Fits k B' → Gives r [around k o c H B'] rest

lemma paced_members : Stable (repeatUntil (· == .rightCurly) member) :=
  fun n => stable_repeatUntil paced_member.frugal paced_member.advances (paced_member.stable n)

lemma gives_take_seq :
    Gives (seq (take :: rs)) os rest ↔ ∃ l ps, os = .leaf l :: ps ∧ Gives (seq rs) ps rest := by
  constructor
  · intro hg
    obtain ⟨ls, ps, rfl, hls, hps⟩ := (gives_seq_cons frugal_take).1 hg
    obtain ⟨l, rfl⟩ := gives_take.1 hls
    exact ⟨l, ps, rfl, hps⟩
  · rintro ⟨l, ps, rfl, hps⟩
    exact (gives_seq_cons frugal_take).2 ⟨[.leaf l], ps, rfl, gives_take.2 ⟨l, rfl⟩, hps⟩

lemma gives_until (hr : Frugal r) (hf : faultsAll os = []) : Gives (seq [r, expect c]) os rest ↔
    ∃ ps, os = ps ++ [.leaf c] ∧ Gives r ps (c :: rest) := by
  constructor
  · intro hg
    obtain ⟨ps, qs, rfl, hps, hqs⟩ := (gives_seq_cons hr).1 hg
    rw [faultsAll_append, append_eq_nil_iff] at hf
    obtain rfl := (gives_expect hf.2).1 (gives_seq_one.1 hqs)
    exact ⟨ps, rfl, hps⟩
  · rintro ⟨ps, rfl, hps⟩
    exact (gives_seq_cons hr).2 ⟨ps, _, rfl, hps, gives_seq_one.2 ((gives_expect rfl).2 rfl)⟩

lemma gives_opened (hf : faultsAll os = []) :
    Gives (choose (· == k) (seq (take :: rs)) (complain complaint)) os rest ↔
      ∃ ps, os = .leaf k :: ps ∧ Gives (seq rs) ps rest := by
  constructor
  · intro hg
    cases hnext : peek (leavesAll os ++ rest) == k with
    | true =>
      obtain ⟨l, ps, rfl, hps⟩ := gives_take_seq.1 ((gives_choose_of (p := (· == k)) hnext).1 hg)
      obtain rfl : l = k := eq_of_beq hnext
      exact ⟨ps, rfl, hps⟩
    | false =>
      obtain rfl := gives_complain.1 ((gives_choose_of_not (p := (· == k)) hnext).1 hg)
      cases hf
  · rintro ⟨ps, rfl, hps⟩
    have hnext : (peek (leavesAll (.leaf k :: ps) ++ rest) == k) = true := beq_self_eq_true k
    exact (gives_choose_of (p := (· == k)) hnext).2 (gives_take_seq.2 ⟨k, ps, rfl, hps⟩)

lemma faultsAll_leaf_cons : faultsAll (.leaf l :: os) = faultsAll os := rfl

lemma faultsAll_concat_leaf : faultsAll (os ++ [.leaf l]) = faultsAll os := by
  simp [faultsAll, faults]

lemma gives_declaration (hk : k = .variableStatement ∨ k = .classDeclaration ∨ k = .enumDeclaration)
    (hf : faultsAll os = []) :
    Gives statement [.branch k os] rest ↔ ∃ ms l body bs, (∀ j ∈ ms, j.isModifierKeyword = true) ∧
    os = modified ms ++ .leaf l :: bs ∧ declaration? (Grammar.block statement) l = some (k, body) ∧
    Gives body (.leaf l :: bs) rest := by
  have hover : Gives statement [.branch k os] rest ↔
      Gives (statementOver statement) [.branch k os] rest := by
    rw [← statement_over]
  rw [hover]
  constructor
  · intro hg
    obtain ⟨ms, bs, kind, body, hos, hms, hd, hbs⟩ | ⟨ms, hos, -⟩ | ⟨hplain, -⟩ :=
      statementOver_cases hg
    · obtain ⟨rfl, rfl⟩ := Outline.branch.inj (cons.inj hos).1
      obtain ⟨l, ps, rfl⟩ := exists_keyword hd hbs
      exact ⟨ms, l, body, ps, hms, rfl, hd, hbs⟩
    · obtain ⟨rfl, -⟩ := Outline.branch.inj (cons.inj hos).1
      rcases hk with hk | hk | hk <;> cases hk
    · exfalso
      rcases plainStatement_cases hplain with ⟨j, ps, hos, hj⟩ | hstray
      · obtain ⟨rfl, -⟩ := Outline.branch.inj (cons.inj hos).1
        rcases hk with rfl | rfl | rfl <;> revert hj <;> decide
      · obtain ⟨ps, hps, -⟩ := gives_node.1 hstray
        obtain ⟨rfl, -⟩ := Outline.branch.inj (cons.inj hps).1
        rcases hk with hk | hk | hk <;> cases hk
  · rintro ⟨ms, l, body, bs, hms, rfl, hd, hbs⟩
    exact gives_modified_declaration hms hd hbs

lemma heading_modified (ms : List Kind) : ∀ p ∈ modified ms, Heading p := by
  intro p hp
  obtain ⟨l, -, rfl⟩ := mem_map.1 hp
  exact .node (.inl rfl)

lemma heading_named (ms : List Kind) (hl : l ≠ .leftCurly) :
    ∀ p ∈ modified ms ++ [.leaf l, named], Heading p := by
  intro p hp
  rcases mem_append.1 hp with hp | hp
  · exact heading_modified ms p hp
  · rcases mem_cons.1 hp with rfl | hp
    · exact .word hl
    · rw [mem_singleton.1 hp]
      exact .node (.inr rfl)

lemma contains_block (hg : Gives (Grammar.block statement) [.branch .block os] rest)
    (hf : faultsAll os = []) : ∃ H o c B, .branch .block os = around .block o c H B ∧
      Contains (Grammar.block statement) .block o c H B := by
  obtain ⟨ss, rfl, hss⟩ := (gives_block hf).1 hg
  refine ⟨[], _, _, ss, rfl, .block, fun p hp => absurd hp not_mem_nil, ?_, ?_⟩
  · exact (stable_statements _).gives hss rfl
  · intro B' rest' hB' hfits
    refine (gives_block ?_).2 ⟨B', rfl, (stable_statements _).gives hfits rfl⟩
    rw [nil_append, faultsAll_leaf_cons, faultsAll_concat_leaf, hB']

lemma gives_bracketed {l : Listing} (h : l.Orderly) (hf : faultsAll os = []) :
    Gives (seq [take, l.rule]) os rest ↔ ∃ o ps, os = .leaf o :: (ps ++ [.leaf l.close]) ∧
    Row (Item l.item) ps := by
  constructor
  · intro hg
    obtain ⟨o, ps, rfl, hps⟩ := gives_take_seq.1 hg
    rw [faultsAll_leaf_cons] at hf
    obtain ⟨qs, rfl, hrow⟩ := (h.gives_rule hf).1 (gives_seq_one.1 hps)
    exact ⟨o, qs, rfl, hrow⟩
  · rintro ⟨o, ps, rfl, hrow⟩
    rw [faultsAll_leaf_cons] at hf
    exact gives_take_seq.2 ⟨o, _, rfl, gives_seq_one.2 ((h.gives_rule hf).2 ⟨ps, rfl, hrow⟩)⟩

lemma contains_parentheses {l : Listing}
    {no : Rule} (h : l.Orderly) (hb : Brackets k .leftParenthesis l.close)
    (hfits : ∀ B, Fits k B ↔ Row (Item l.item) B) (hno : ∀ rest, ¬ Gives no [.branch k os] rest)
    (hg : Gives (choose (· == .leftParenthesis) (node k (seq [take, l.rule])) no)
      [.branch k os] rest) (hf : faultsAll os = []) : ∃ H o c B, .branch k os = around k o c H B ∧
    Contains (choose (· == .leftParenthesis) (node k (seq [take, l.rule])) no) k o c H B := by
  cases hnext : peek (leavesAll [.branch k os] ++ rest) == .leftParenthesis with
  | false =>
    exact absurd ((gives_choose_of_not (p := (· == .leftParenthesis)) hnext).1 hg) (hno rest)
  | true =>
    obtain ⟨ps, hps, hparts⟩ :=
      gives_node.1 ((gives_choose_of (p := (· == .leftParenthesis)) hnext).1 hg)
    obtain rfl := (Outline.branch.inj (cons.inj hps).1).2
    obtain ⟨o, B, rfl, hrow⟩ := (gives_bracketed h hf).1 hparts
    obtain rfl : o = .leftParenthesis := eq_of_beq hnext
    refine ⟨[], _, _, B, rfl, hb, fun p hp => absurd hp not_mem_nil, (hfits B).2 hrow, ?_⟩
    intro B' rest' hB' hfit
    refine (gives_choose_of (p := (· == .leftParenthesis)) rfl).2 (gives_node.2 ⟨_, rfl, ?_⟩)
    refine (gives_bracketed h ?_).2 ⟨_, B', rfl, (hfits B').1 hfit⟩
    rw [nil_append, faultsAll_leaf_cons, faultsAll_concat_leaf, hB']

lemma contains_parameters (hg : Gives (choose (· == .leftParenthesis) parameterList
      (complain .parameterList)) [.branch .parameterList os] rest) (hf : faultsAll os = []) :
    ∃ H o c B, .branch .parameterList os = around .parameterList o c H B ∧
    Contains (choose (· == .leftParenthesis) parameterList (complain .parameterList))
      .parameterList o c H B :=
  contains_parentheses orderly_parameters .parameters (fun _ => .rfl)
    (fun _ hno => by cases (Prod.mk.inj hno).1) hg hf

lemma contains_arguments
    (hg : Gives (option .leftParenthesis (arguments expression)) [.branch .argumentList os] rest)
    (hf : faultsAll os = []) : ∃ H o c B, .branch .argumentList os = around .argumentList o c H B ∧
    Contains (option .leftParenthesis (arguments expression)) .argumentList o c H B :=
  contains_parentheses orderly_arguments .arguments (fun _ => .rfl)
    (fun _ hno => by cases (Prod.mk.inj hno).1) hg hf

lemma contains_named {s : List Rule}
    (hk : k = .variableStatement ∨ k = .classDeclaration ∨ k = .enumDeclaration)
    (hb : Brackets k .leftCurly .rightCurly)
    (hl : ∀ j, (∃ body, declaration? (Grammar.block statement) j = some (k, body)) ↔ j = l)
    (hcurly : l ≠ .leftCurly) (hd : declaration? (Grammar.block statement) l =
      some (k, seq [take, name, choose (· == .leftCurly) (seq (take :: s)) (complain complaint)]))
    (hbody : ∀ os rest, faultsAll os = [] →
      (Gives (seq s) os rest ↔ ∃ B, os = B ++ [.leaf .rightCurly] ∧ Fits k B))
    (hg : Gives statement [.branch k os] rest) (hf : faultsAll os = []) :
    ∃ H o c B, .branch k os = around k o c H B ∧ Contains statement k o c H B := by
  obtain ⟨ms, j, body, bs, hms, rfl, hj, hbs⟩ := (gives_declaration hk hf).1 hg
  obtain rfl := (hl j).1 ⟨body, hj⟩
  obtain rfl : body = _ := (Prod.mk.inj (mem_unique hj hd)).2
  rw [faultsAll_append, append_eq_nil_iff, faultsAll_leaf_cons] at hf
  obtain ⟨_, ps, heq, hps⟩ := gives_take_seq.1 hbs
  obtain rfl := (cons.inj heq).2
  obtain ⟨qs, rfl, hfqs, hqs⟩ := exists_named hf.2 hps
  obtain ⟨ts, rfl, hts⟩ := (gives_opened hfqs).1 (gives_seq_one.1 hqs)
  obtain ⟨B, rfl, hB⟩ := (hbody ts rest hfqs).1 hts
  refine ⟨modified ms ++ [.leaf j, named], .leftCurly, .rightCurly, B, by simp [around], hb,
    heading_named ms hcurly, hB, ?_⟩
  intro B' rest' hB' hfit
  have hfaults : faultsAll (B' ++ [.leaf .rightCurly]) = [] := by rw [faultsAll_concat_leaf, hB']
  have hnew : faultsAll ((modified ms ++ [.leaf j, named]) ++ .leaf .leftCurly ::
      (B' ++ [.leaf .rightCurly])) = [] := by
    simp only [faultsAll_append, hf.1, faultsAll_leaf_cons, hfaults, nil_append]
    rfl
  refine (gives_declaration hk hnew).2 ⟨ms, j, _, named :: .leaf .leftCurly ::
    (B' ++ [.leaf .rightCurly]), hms, by simp, hd, ?_⟩
  refine gives_take_seq.2 ⟨j, _, rfl, gives_named (gives_seq_one.2 ?_)⟩
  have hopened : faultsAll (.leaf .leftCurly :: (B' ++ [.leaf .rightCurly])) = [] := hfaults
  exact (gives_opened hopened).2 ⟨_, rfl, (hbody _ rest' hfaults).2 ⟨B', rfl, hfit⟩⟩

lemma declaration?_class :
    (∃ body, declaration? (Grammar.block statement) j = some (.classDeclaration, body)) ↔
    j = .classKeyword := by
  constructor
  · rintro ⟨body, h⟩
    unfold declaration? at h
    split at h <;> first | rfl | cases h
  · rintro rfl
    exact ⟨_, rfl⟩

lemma declaration?_enum :
    (∃ body, declaration? (Grammar.block statement) j = some (.enumDeclaration, body)) ↔
    j = .enumKeyword := by
  constructor
  · rintro ⟨body, h⟩
    unfold declaration? at h
    split at h <;> first | rfl | cases h
  · rintro rfl
    exact ⟨_, rfl⟩

lemma contains_class (hg : Gives statement [.branch .classDeclaration os] rest)
    (hf : faultsAll os = []) : ∃ H o c B, .branch .classDeclaration os =
      around .classDeclaration o c H B ∧ Contains statement .classDeclaration o c H B := by
  refine contains_named (.inr (.inl rfl)) .members (fun j => declaration?_class) (by decide)
    rfl ?_ hg hf
  intro ps rest' hps
  have hfrugal : Frugal (repeatUntil (· == .rightCurly) member) := frugal_members
  rw [gives_until hfrugal hps]
  constructor
  · rintro ⟨B, rfl, hB⟩
    exact ⟨B, rfl, paced_members.gives hB rfl⟩
  · rintro ⟨B, rfl, hB⟩
    exact ⟨B, rfl, paced_members.gives hB rfl⟩

lemma contains_enum (hg : Gives statement [.branch .enumDeclaration os] rest)
    (hf : faultsAll os = []) : ∃ H o c B, .branch .enumDeclaration os =
      around .enumDeclaration o c H B ∧ Contains statement .enumDeclaration o c H B := by
  refine contains_named (s := [enumMembers.rule]) (.inr (.inr rfl)) .enumMembers
    (fun j => declaration?_enum) (by decide) rfl ?_ hg hf
  intro ps rest' hps
  rw [gives_seq_one, orderly_enumMembers.gives_rule hps]
  rfl

lemma declaration?_variables {body : Rule} :
    declaration? (Grammar.block statement) j = some (.variableStatement, body) ↔
      Phrase.isVariableKeyword j = true ∧ body = variableStatement := by
  constructor
  · intro h
    unfold declaration? at h
    split at h <;> cases h <;> exact ⟨rfl, rfl⟩
  · rintro ⟨hj, rfl⟩
    simp only [Phrase.isVariableKeyword, Bool.or_eq_true, decide_eq_true_eq] at hj
    rcases hj with (rfl | rfl) | rfl <;> rfl

lemma gives_variableStatement (hl : Phrase.isVariableKeyword l = true) (hf : faultsAll os = []) :
    (Gives variableStatement (.leaf l :: os) rest ∧ Closed (.leaf l :: os)) ↔
      ∃ ps, os = ps ++ [.leaf .semicolon] ∧ Row (Item variableDeclaration) ps ∧ Ends ps := by
  constructor
  · rintro ⟨hg, hclosed⟩
    obtain ⟨_, qs, heq, hqs⟩ := gives_take_seq.1 hg
    obtain rfl := (cons.inj heq).2
    obtain ⟨ps, ts, rfl, hps, hts⟩ := (gives_seq_cons frugal_variableDeclarations).1 hqs
    rw [faultsAll_append, append_eq_nil_iff] at hf
    have hts := gives_seq_one.1 hts
    cases hnext : peek (leavesAll ts ++ rest) == .semicolon with
    | true =>
      obtain ⟨k, rfl⟩ := gives_take.1 ((gives_choose_of (p := (· == .semicolon)) hnext).1 hts)
      obtain rfl : k = .semicolon := eq_of_beq hnext
      exact ⟨ps, rfl, (gives_variables Kind.noConfusion rfl).1 ⟨hps, hf.1⟩⟩
    | false =>
      obtain rfl := gives_skip.1 ((gives_choose_of_not (p := (· == .semicolon)) hnext).1 hts)
      rw [append_nil] at hclosed
      have hopen := not_closed_variableDeclarations hps hf.1
      by_cases hnil : leavesAll ps = []
      · obtain ⟨k, hk, hcloses⟩ := hclosed
        simp only [leavesAll, leaves, hnil, append_nil] at hk
        obtain rfl : l = k := some.inj hk
        simp only [Phrase.isVariableKeyword, Bool.or_eq_true, decide_eq_true_eq] at hl
        rcases hl with (rfl | rfl) | rfl <;> cases hcloses
      · have happend : Closed ([.leaf l] ++ ps) := hclosed
        exact absurd ((closed_append hnil).1 happend) hopen
  · rintro ⟨ps, rfl, hrow, hends⟩
    have hcomma : peek (.semicolon :: rest) ≠ .comma := Kind.noConfusion
    have hlist := ((gives_variables hcomma rfl).2 ⟨hrow, hends⟩).1
    constructor
    · refine gives_take_seq.2 ⟨l, _, rfl, (gives_seq_cons frugal_variableDeclarations).2
        ⟨ps, [.leaf .semicolon], rfl, hlist, gives_seq_one.2 ?_⟩⟩
      exact (gives_choose_of (p := (· == .semicolon)) rfl).2 (gives_take.2 ⟨_, rfl⟩)
    · refine ⟨.semicolon, ?_, rfl⟩
      simp only [leavesAll, leaves, leavesAll_append, append_nil]
      rw [← append_assoc]
      exact List.getLast?_concat

lemma contains_variables (hg : Gives statement [.branch .variableStatement os] rest)
    (hf : faultsAll os = []) (hclosed : Closed os) : ∃ H o c B, .branch .variableStatement os =
      around .variableStatement o c H B ∧ Contains statement .variableStatement o c H B := by
  obtain ⟨ms, l, body, bs, hms, rfl, hd, hbs⟩ := (gives_declaration (.inl rfl) hf).1 hg
  obtain ⟨hl, rfl⟩ := declaration?_variables.1 hd
  rw [faultsAll_append, append_eq_nil_iff, faultsAll_leaf_cons] at hf
  have hne : leavesAll (.leaf l :: bs) ≠ [] := cons_ne_nil _ _
  have hclosed : Closed (.leaf l :: bs) := (closed_append hne).1 hclosed
  obtain ⟨B, rfl, hB⟩ := (gives_variableStatement hl hf.2).1 ⟨hbs, hclosed⟩
  refine ⟨modified ms, l, .semicolon, B, rfl, .declarations hl, heading_modified ms, hB, ?_⟩
  intro B' rest' hB' hfit
  have hfaults : faultsAll (B' ++ [.leaf .semicolon]) = [] := by rw [faultsAll_concat_leaf, hB']
  refine (gives_declaration (.inl rfl) ?_).2 ⟨ms, l, _, _, hms, rfl, hd,
    ((gives_variableStatement hl hfaults).2 ⟨B', rfl, hfit⟩).1⟩
  rw [faultsAll_append, hf.1, faultsAll_leaf_cons, hfaults]
  rfl

lemma exists_contains (hport : Port k r) (hg : Gives r [.branch k os] rest) (hf : faultsAll os = [])
    (hclosed : k = .variableStatement → Closed os) :
    ∃ H o c B, .branch k os = around k o c H B ∧ Contains r k o c H B := by
  cases hport with
  | block => exact contains_block hg hf
  | parameters => exact contains_parameters hg hf
  | arguments => exact contains_arguments hg hf
  | declarations => exact contains_variables hg hf (hclosed rfl)
  | classes => exact contains_class hg hf
  | enums => exact contains_enum hg hf

lemma Contains.alike {H B' : List Outline} (hport : Port k r) (h : Contains r k o c H B)
    (hB' : faultsAll B' = []) (hfits : Fits k B') :
    Alike (around k o c H B) (around k o c H B') := by
  refine .exchange hport fun rest _ => ⟨?_, fun rest' _ => h.gives B' rest' hB' hfits⟩
  simp only [leavesAll, leaves, leavesAll_append, append_nil, List.head?_append]
  rfl

end Grammar
end LiveEdit
