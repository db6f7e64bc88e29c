import LiveEdit.Proofs.Grammar.Containers
import LiveEdit.Proofs.Grammar.Statements

/-! What can be put into the list of a node and taken out, and which kinds of tokens stand at its
items' ends. -/

namespace LiveEdit
open List Option

namespace Kind

def lists : Kind → Kind → Bool
  | .sourceFile | .block => isStatement
  | .classDeclaration => isClassMember
  | .enumDeclaration => (· == .enumMember)
  | .parameterList => (· == .parameter)
  | .argumentList => isExpression
  | .variableStatement => (· == .variableDeclaration)
  | _ => fun _ => false

def hasCommas (k : Kind) : Bool :=
  k == .enumDeclaration || k == .parameterList || k == .argumentList || k == .variableStatement

def ends (k : Kind) : Bool :=
  k == .identifier || k == .number || k == .string || k == .rightParenthesis || k.closes

def begins (k : Kind) : Bool := k == .identifier || k.isModifierKeyword

end Kind

namespace Grammar

variable {c : Category} {a : Phrase} {ks : List Kind}

def Phrase.full : Phrase → Bool
  | nothing => false
  | one _ => true
  | part .file => false
  | part _ => true
  | both a b => a.full || b.full
  | either a b => a.full && b.full
  | many _ => false

lemma Category.full_phrase (h : (Phrase.part c).full = true) : c.phrase.full = true := by
  cases c <;> first | rfl | cases h

lemma Derives.ne_nil (h : Derives a ks) (ha : a.full = true) : ks ≠ [] := by
  induction h with
  | nothing => cases ha
  | one _ => exact cons_ne_nil _ _
  | part _ ih => exact ih (Category.full_phrase ha)
  | both _ _ iha ihb =>
    rcases Bool.or_eq_true_iff.1 ha with ha | ha
    · exact append_ne_nil_of_left_ne_nil (iha ha) _
    · exact append_ne_nil_of_right_ne_nil _ (ihb ha)
  | left _ ih => exact ih (Bool.and_eq_true_iff.1 ha).1
  | right _ ih => exact ih (Bool.and_eq_true_iff.1 ha).2
  | none => cases ha
  | more _ _ _ _ => cases ha

def Category.isItem : Category → Bool
  | .variableDeclaration | .typeClause | .signature | .parameter | .classMember
  | .enumMember | .block
  | .expression | .atom | .arguments => true
  | _ => false

def Phrase.Ending : Phrase → Prop
  | nothing => True
  | one p => ∀ k, p k = true → k.ends = true
  | part c => c.isItem = true
  | both a b => b.Ending ∧ (b.full = true ∨ a.Ending)
  | either a b => a.Ending ∧ b.Ending
  | many a => a.Ending

lemma Category.ending_phrase (h : c.isItem = true) : c.phrase.Ending := by
  cases c with
  | variableDeclaration | typeClause | signature | parameter | classMember | enumMember | block
  | expression
  | atom | arguments =>
    simp [Category.phrase, Phrase.Ending, Phrase.seq, Phrase.choice, Phrase.token, Phrase.maybe,
      Phrase.list, Phrase.chain, Phrase.initialValue, Phrase.semicolon, Phrase.full, isItem,
      Kind.ends, Kind.closes]
  | _ => cases h

lemma Derives.ends (h : Derives a ks) (ha : a.Ending) : ∀ k ∈ ks.getLast?, k.ends = true := by
  have happend : ∀ {us vs : List Kind}, (∀ k ∈ vs.getLast?, k.ends = true) →
      (vs = [] → ∀ k ∈ us.getLast?, k.ends = true) → ∀ k ∈ (us ++ vs).getLast?, k.ends = true := by
    intro us vs hvs hus
    by_cases hnil : vs = []
    · rw [hnil, append_nil]
      exact hus hnil
    · rwa [getLast?_append_of_ne_nil _ hnil]
  induction h with
  | nothing => exact fun k hk => absurd hk (not_mem_none k)
  | one hp => exact fun k hk => some.inj hk ▸ ha _ hp
  | part _ ih => exact ih (Category.ending_phrase ha)
  | both _ hb iha ihb =>
    refine happend (ihb ha.1) fun hnil => ?_
    exact iha (ha.2.resolve_left fun hfull => hb.ne_nil hfull hnil)
  | left _ ih => exact ih ha.1
  | right _ ih => exact ih ha.2
  | none => exact fun k hk => absurd hk (not_mem_none k)
  | more _ _ iha ihs => exact happend (ihs ha) fun _ => iha ha

end Grammar

namespace Grammar
open Outline Rule

variable {k : Kind} {o : Outline} {r : Rule} {os as bs bs' B : List Outline} {rest : List Kind}
  {S : Kind → Bool}

lemma ends_of_gives {c : Category} (hr : ∀ n, Obeys (n + 1) r (.part c))
    (hc : c.isItem = true) (hg : Gives r os rest) (hf : faultsAll os = []) :
    ∀ j ∈ (leavesAll os).getLast?, j.ends = true :=
  (derives_of_then (hr _ _ _ (Nat.lt_succ_self _) (accepts_of_gives hg hf))).ends hc

lemma peek_of_gives_member (hg : Gives member os rest) (hf : faultsAll os = []) :
    leavesAll os ≠ [] ∧ (peek (leavesAll os ++ rest)).begins = true := by
  obtain ⟨ms, qs, hms, hos⟩ := (gives_classMember hf).1 hg
  have hleaves : leavesAll os = ms ++ .identifier :: leavesAll qs := by
    rcases hos with ⟨rfl, -⟩ | ⟨rfl, -⟩ <;>
      simp [leavesAll, leaves, leavesAll_append, leavesAll_modified, named]
  rw [hleaves]
  cases ms with
  | nil => exact ⟨cons_ne_nil _ _, rfl⟩
  | cons j ms =>
    refine ⟨cons_ne_nil _ _, ?_⟩
    show j.begins = true
    simp [Kind.begins, hms j mem_cons_self]

lemma not_prolongs_of_begins (h : k.begins = true) :
    prolongs k = false ∧ k ≠ .endOfFile ∧ k ≠ .rightCurly := by
  cases k <;> first | exact ⟨rfl, Kind.noConfusion, Kind.noConfusion⟩ | cases h

lemma isClassMember_of_gives (hg : Gives member [o] rest) (hf : faultsAll [o] = []) :
    ∃ j ps, o = .branch j ps ∧ j.isClassMember = true := by
  obtain ⟨ms, qs, -, ⟨hos, -⟩ | ⟨hos, -⟩⟩ := (gives_classMember hf).1 hg
  · exact ⟨_, _, (cons.inj hos).1, rfl⟩
  · exact ⟨_, _, (cons.inj hos).1, rfl⟩

lemma prolongs_members (hg : Fits .classDeclaration bs) (hf : faultsAll bs = []) :
    prolongs (peek (leavesAll bs ++ [.rightCurly])) = false := by
  cases bs with
  | nil => rfl
  | cons b bs =>
    obtain ⟨-, hone, -⟩ := paced_member.gives_cons.1 hg
    rw [leavesAll_cons]
    exact (not_prolongs_of_begins (peek_of_gives_member hone (faultsAll_cons.1 hf).1).2).1

lemma fits_members_append (hg : Fits .classDeclaration (as ++ bs))
    (hf : faultsAll (as ++ bs) = []) (hbs : Fits .classDeclaration bs') (hf' : faultsAll bs' = []) :
    Fits .classDeclaration (as ++ bs') := by
  rw [faultsAll_append, append_eq_nil_iff] at hf
  refine paced_member.gives_append hg hbs fun a ha hone => ?_
  have hfa : faultsAll [a] = [] := by
    obtain ⟨as, rfl⟩ := getLast?_eq_some_iff.1 ha
    rw [faultsAll_append, append_eq_nil_iff] at hf
    exact hf.1.2
  exact heeds_member _ _ _ hone hfa (prolongs_members (paced_member.gives_right hg) hf.2)
    (prolongs_members hbs hf')

lemma fits_members_cons (ho : Fits .classDeclaration [o])
    (hfo : faultsAll [o] = []) (hg : Fits .classDeclaration bs) (hf : faultsAll bs = []) :
    Fits .classDeclaration (o :: bs) := by
  obtain ⟨-, hone, -⟩ := paced_member.gives_cons.1 ho
  have hnew := heeds_member _ _ _ hone hfo rfl (prolongs_members hg hf)
  have hstart := not_prolongs_of_begins (peek_of_gives_member hnew hfo).2
  refine paced_member.gives_cons.2 ⟨?_, hnew, hg⟩
  rw [leavesAll_cons]
  exact ⟨hstart.2.1, beq_false_of_ne hstart.2.2⟩

lemma fits_members_insert (ho : Fits .classDeclaration [o]) (hfo : faultsAll [o] = [])
    (hg : Fits .classDeclaration (as ++ bs)) (hf : faultsAll (as ++ bs) = []) :
    Fits .classDeclaration (as ++ o :: bs) := by
  have hfbs : faultsAll bs = [] := by
    rw [faultsAll_append, append_eq_nil_iff] at hf
    exact hf.2
  exact fits_members_append hg hf (fits_members_cons ho hfo (paced_member.gives_right hg) hfbs)
    (faultsAll_cons.2 ⟨hfo, hfbs⟩)

lemma fits_members_remove (hg : Fits .classDeclaration (as ++ o :: bs))
    (hf : faultsAll (as ++ o :: bs) = []) : Fits .classDeclaration (as ++ bs) := by
  have hrest := (paced_member.gives_cons.1 (paced_member.gives_right hg)).2.2
  refine fits_members_append hg hf hrest ?_
  rw [faultsAll_append, append_eq_nil_iff] at hf
  exact (faultsAll_cons.1 hf.2).2

lemma gives_statements_remove {stop : Kind → Bool} (hstop : EndsAtBrace stop)
    (hg : Gives (statements stop) (as ++ o :: bs) rest) (hf : faultsAll (as ++ o :: bs) = [])
    (hlast : as = [] ∨ Closed as) : Gives (statements stop) (as ++ bs) rest := by
  rw [faultsAll_append, append_eq_nil_iff] at hf
  have hrest := (gives_statements_cons.1 (paced_statement.gives_right hg)).2.2
  exact gives_behind_closed hstop hg hf.1 hlast hrest (faultsAll_cons.1 hf.2).2

lemma fits_remove (hk : k = .sourceFile ∨ k = .block ∨ k = .classDeclaration)
    (hg : Fits k (as ++ o :: bs)) (hf : faultsAll (as ++ o :: bs) = [])
    (hlast : k = .classDeclaration ∨ as = [] ∨ Closed as) : Fits k (as ++ bs) := by
  rcases hk with rfl | rfl | rfl
  · exact gives_statements_remove (fun _ h => absurd h Bool.false_ne_true) hg hf
      (hlast.resolve_left Kind.noConfusion)
  · exact gives_statements_remove (fun _ h => eq_of_beq h) hg hf
      (hlast.resolve_left Kind.noConfusion)
  · exact fits_members_remove hg hf

lemma Fits.insert_statements {ms : List Outline} (hk : k = .sourceFile ∨ k = .block)
    (hms : ∀ m ∈ ms, Standing m) (hg : Fits k (as ++ bs)) (hf : faultsAll (as ++ bs) = [])
    (hlast : as = [] ∨ Closed as) : Fits k (as ++ (ms ++ bs)) := by
  rcases hk with rfl | rfl
  · exact gives_insertion (fun _ h => absurd h Bool.false_ne_true) hms hg hf hlast
  · exact gives_insertion (fun _ h => eq_of_beq h) hms hg hf hlast

lemma mem_of_row {P : Outline → Prop} (h : Row P os) : ∀ o ∈ os, o = .leaf .comma ∨ P o := by
  induction h with
  | nil => exact fun o ho => absurd ho not_mem_nil
  | one item => exact fun o ho => .inr (mem_singleton.1 ho ▸ item)
  | more item _ ih =>
    intro o ho
    rcases mem_cons.1 ho with rfl | ho
    · exact .inr item
    · exact (mem_cons.1 ho).elim .inl (ih o)

lemma kind_of_item (h : Item r o) (hr : Nests S r) : ∃ j ps, o = .branch j ps ∧ S j = true := by
  obtain ⟨j, ps, rfl⟩ := h.branch
  have hgives : Gives r [.branch j ps] [] := h.gives [] rfl
  have hnested := hr (leavesAll [.branch j ps] ++ []) (.branch j ps) (by
    unfold Gives at hgives
    rw [hgives]
    exact mem_singleton_self _)
  cases hnested with
  | branch kind _ => exact ⟨j, ps, rfl, kind⟩

lemma mem_of_items (hrow : Row (Item r) os) (hr : Nests S r) :
    ∀ o ∈ os, o = .leaf .comma ∨ ∃ j ps, o = .branch j ps ∧ S j = true :=
  fun o ho => (mem_of_row hrow o ho).imp_right fun item => kind_of_item item hr

lemma Fits.mem (h : Fits k B) (hf : faultsAll B = []) : ∀ o ∈ B,
    (o = .leaf .comma ∧ k.hasCommas = true) ∨ ∃ j ps, o = .branch j ps ∧ k.lists j = true := by
  have hrow : ∀ {P Q R : Prop}, P ∨ R → Q → (P ∧ Q) ∨ R := fun h hq => h.imp_left fun hp => ⟨hp, hq⟩
  intro o ho
  unfold Fits at h
  split at h
  · exact .inr (isStatement_of_mem h hf o ho)
  · exact .inr (isStatement_of_mem h hf o ho)
  · refine .inr ?_
    obtain ⟨as, bs, rfl⟩ := append_of_mem ho
    rw [faultsAll_append, append_eq_nil_iff] at hf
    exact isClassMember_of_gives (paced_member.gives_cons.1 (paced_member.gives_right h)).2.1
      (faultsAll_cons.1 hf.2).1
  · exact hrow (mem_of_items h (nests_enumMember rfl) o ho) rfl
  · have hnests : Nests (Kind.lists .parameterList) parameter :=
      nests_node rfl (nests_seq (by simpa using ⟨nests_name rfl, nests_typeClause rfl⟩))
    exact hrow (mem_of_items h hnests o ho) rfl
  · exact hrow (mem_of_items h (nests_expression fun _ hj => hj) o ho) rfl
  · exact hrow (mem_of_items h.1 (nests_variableDeclaration rfl) o ho) rfl
  · exact h.elim

lemma Fits.ends (h : Fits k B) (hf : faultsAll B = []) (hk : k ≠ .sourceFile ∧ k ≠ .block)
    (ho : o ∈ B) (hbranch : o ≠ .leaf .comma) : ∀ j ∈ (leavesAll [o]).getLast?, j.ends = true := by
  have hitem : ∀ {r : Rule} {c : Category}, Row (Item r) B →
      (∀ n, Obeys (n + 1) r (.part c)) → c.isItem = true →
      ∀ j ∈ (leavesAll [o]).getLast?, j.ends = true := by
    intro r c hrow hthen hc
    have item := (mem_of_row hrow o ho).resolve_left hbranch
    exact ends_of_gives hthen hc (item.gives [] rfl) item.faultless
  unfold Fits at h
  split at h
  · exact absurd rfl hk.1
  · exact absurd rfl hk.2
  · obtain ⟨as, bs, rfl⟩ := append_of_mem ho
    rw [faultsAll_append, append_eq_nil_iff] at hf
    exact ends_of_gives (fun _ => obeys_classMember (obeys_block obeys_statement)) rfl
      (paced_member.gives_cons.1 (paced_member.gives_right h)).2.1 (faultsAll_cons.1 hf.2).1
  · exact hitem h (fun _ => obeys_enumMember) rfl
  · exact hitem h (fun _ => obeys_parameter) rfl
  · exact hitem h (fun _ => obeys_expression) rfl
  · exact hitem h.1 (fun _ => obeys_variableDeclaration) rfl
  · exact h.elim

lemma Fits.begins (h : Fits k B)
    (hf : faultsAll B = []) (hk : k = .classDeclaration ∨ k = .variableStatement) (ho : o ∈ B)
    (hbranch : o ≠ .leaf .comma) : ∃ j, (leavesAll [o]).head? = some j ∧ j.begins = true := by
  have hpeek : ∀ {rest : List Kind}, leavesAll [o] ≠ [] →
      (peek (leavesAll [o] ++ rest)).begins = true →
      ∃ j, (leavesAll [o]).head? = some j ∧ j.begins = true := by
    intro rest hne hbegins
    obtain ⟨j, ks, hks⟩ := exists_cons_of_ne_nil hne
    rw [hks] at hbegins ⊢
    exact ⟨j, rfl, hbegins⟩
  rcases hk with rfl | rfl
  · obtain ⟨as, bs, rfl⟩ := append_of_mem ho
    rw [faultsAll_append, append_eq_nil_iff] at hf
    obtain ⟨hne, hbegins⟩ := peek_of_gives_member
      (paced_member.gives_cons.1 (paced_member.gives_right h)).2.1 (faultsAll_cons.1 hf.2).1
    exact hpeek hne hbegins
  · have item := (mem_of_row h.1 o ho).resolve_left hbranch
    obtain ⟨hne, hstart⟩ := peek_named (item.gives [] rfl) item.faultless
    exact hpeek hne (by rw [eq_of_beq hstart]; rfl)

lemma Fits.head (h : Fits k B) (hf : faultsAll B = []) : ∀ o ∈ B.head?, o ≠ .leaf .comma := by
  have hrow : ∀ {r : Rule}, Row (Item r) B → ∀ o ∈ B.head?, o ≠ .leaf .comma := by
    intro r hrow o ho
    obtain ⟨B, rfl⟩ := List.head?_eq_some_iff.1 ho
    exact (row_cons.1 hrow).1.ne_comma
  cases hcommas : k.hasCommas with
  | false =>
    rintro o ho rfl
    rcases h.mem hf _ (mem_of_mem_head? ho) with ⟨-, htrue⟩ | ⟨j, ps, hbranch, -⟩
    · rw [hcommas] at htrue
      cases htrue
    · cases hbranch
  | true =>
    unfold Fits at h
    split at h
    · cases hcommas
    · cases hcommas
    · cases hcommas
    · exact hrow h
    · exact hrow h
    · exact hrow h
    · exact hrow h.1
    · exact h.elim

def commas (k : Kind) : List Outline := if k.hasCommas then [.leaf .comma] else []

lemma item_of_fits (h : Fits .enumDeclaration [o]) : Item enumMember o := (row_cons.1 h).1

lemma Fits.single (h : Fits k B) (hf : faultsAll B = [])
    (hk : k = .enumDeclaration ∨ k = .classDeclaration) (ho : o ∈ B) (hbranch : o ≠ .leaf .comma) :
    Fits k [o] := by
  rcases hk with rfl | rfl
  · exact .one ((mem_of_row h o ho).resolve_left hbranch)
  · obtain ⟨as, bs, rfl⟩ := append_of_mem ho
    have hrest : Fits .classDeclaration ([o] ++ bs) := paced_member.gives_right h
    rw [faultsAll_append, append_eq_nil_iff] at hf
    exact fits_members_append hrest hf.2 rfl rfl

lemma Fits.insert_front (h : Fits k B)
    (hf : faultsAll B = []) (hk : k = .enumDeclaration ∨ k = .classDeclaration) (ho : Fits k [o])
    (hfo : faultsAll [o] = []) : Fits k (o :: (commas k ++ B)) := by
  rcases hk with rfl | rfl
  · exact .more (item_of_fits ho) h
  · exact fits_members_cons ho hfo h hf

lemma Fits.insert_behind {p : Outline} (h : Fits k (as ++ p :: bs))
    (hf : faultsAll (as ++ p :: bs) = []) (hk : k = .enumDeclaration ∨ k = .classDeclaration)
    (ho : Fits k [o]) (hfo : faultsAll [o] = []) (hp : p ≠ .leaf .comma)
    (hbs : ∀ ps, bs ≠ .leaf .comma :: ps) : Fits k (as ++ p :: (commas k ++ o :: bs)) := by
  rcases hk with rfl | rfl
  · obtain ⟨-, -, -, rfl | ⟨ps, heq, -⟩⟩ := Row.split (fun _ item => item.ne_comma) h hp
    · exact Row.insert_last (fun _ item => item.ne_comma) h hp (item_of_fits ho)
    · exact absurd heq (hbs ps)
  · have hsplit : ∀ cs : List Outline, as ++ p :: cs = (as ++ [p]) ++ cs := fun cs => by simp
    rw [hsplit] at h hf
    change Fits _ (as ++ p :: (o :: bs))
    rw [hsplit]
    exact fits_members_insert ho hfo h hf

lemma Fits.insert_behind_comma (h : Fits .enumDeclaration (as ++ .leaf .comma :: bs))
    (ho : Fits .enumDeclaration [o]) :
    Fits .enumDeclaration (as ++ .leaf .comma :: o :: .leaf .comma :: bs) :=
  Row.insert_behind_comma (fun _ item => item.ne_comma) h (item_of_fits ho)

lemma exists_row (hk : k.hasCommas = true) :
    ∃ r, ∀ B, Fits k B ↔ Row (Item r) B ∧ (k = .variableStatement → Ends B) := by
  simp only [Kind.hasCommas, Bool.or_eq_true, beq_iff_eq] at hk
  rcases hk with ((rfl | rfl) | rfl) | rfl
  · exact ⟨enumMember, fun B => ⟨fun h => ⟨h, Kind.noConfusion⟩, fun h => h.1⟩⟩
  · exact ⟨parameter, fun B => ⟨fun h => ⟨h, Kind.noConfusion⟩, fun h => h.1⟩⟩
  · exact ⟨expression, fun B => ⟨fun h => ⟨h, Kind.noConfusion⟩, fun h => h.1⟩⟩
  · exact ⟨variableDeclaration, fun B => ⟨fun h => ⟨h.1, fun _ => h.2⟩, fun h => ⟨h.1, h.2 rfl⟩⟩⟩

lemma Fits.split (hk : k.hasCommas = true) (h : Fits k (as ++ o :: bs)) (ho : o ≠ .leaf .comma) :
    Ready as ∧ (bs = [] ∨ ∃ ps, bs = .leaf .comma :: ps) := by
  obtain ⟨r, hr⟩ := exists_row hk
  obtain ⟨hready, -, -, hrest⟩ := Row.split (fun _ item => item.ne_comma) ((hr _).1 h).1 ho
  exact ⟨hready, hrest.imp_right fun ⟨ps, heq, _⟩ => ⟨ps, heq⟩⟩

lemma Fits.remove_with_next (hk : k.hasCommas = true) (h : Fits k (as ++ o :: .leaf .comma :: bs))
    (ho : o ≠ .leaf .comma) : Fits k (as ++ bs) := by
  obtain ⟨r, hr⟩ := exists_row hk
  obtain ⟨hrow, hends⟩ := (hr _).1 h
  refine (hr _).2 ⟨Row.remove_with_next (fun _ item => item.ne_comma) hrow ho, fun hvariable => ?_⟩
  obtain ⟨ps, p, heq, hp⟩ := hends hvariable
  rcases eq_nil_or_concat bs with rfl | ⟨bs, q, rfl⟩
  · have hlast : as ++ [o, .leaf .comma] = (as ++ [o]) ++ [.leaf .comma] := by simp
    rw [hlast] at heq
    exact absurd (cons.inj (append_inj' heq rfl).2).1.symm hp
  · have hlast :
        as ++ o :: .leaf .comma :: bs.concat q = (as ++ o :: .leaf .comma :: bs) ++ [q] := by simp
    rw [hlast] at heq
    obtain rfl := (cons.inj (append_inj' heq rfl).2).1
    exact ⟨as ++ bs, q, by simp, hp⟩

lemma Fits.remove_with_previous (hk : k.hasCommas = true)
    (h : Fits k (as ++ .leaf .comma :: o :: bs)) (hbs : ∀ ps, bs ≠ .leaf .comma :: ps) :
    bs = [] ∧ Fits k as := by
  obtain ⟨r, hr⟩ := exists_row hk
  obtain ⟨hnil, hrow, hends⟩ :=
    Row.remove_with_previous (fun _ item => item.ne_comma) ((hr _).1 h).1 hbs
  exact ⟨hnil, (hr _).2 ⟨hrow, fun _ => hends⟩⟩

lemma Fits.single_of_no_comma (hk : k.hasCommas = true)
    (h : Fits k (as ++ o :: bs)) (ho : o ≠ .leaf .comma) (has : ∀ ps, as ≠ ps ++ [.leaf .comma])
    (hbs : ∀ ps, bs ≠ .leaf .comma :: ps) : as = [] ∧ bs = [] := by
  obtain ⟨hready, hrest⟩ := h.split hk ho
  exact ⟨hready.resolve_right fun ⟨ps, heq⟩ => has ps heq, hrest.resolve_right fun ⟨ps, heq⟩ =>
    hbs ps heq⟩

lemma fits_nil (hk : k.hasCommas = true) (hvariable : k ≠ .variableStatement) : Fits k [] := by
  obtain ⟨r, hr⟩ := exists_row hk
  exact (hr []).2 ⟨.nil, fun heq => absurd heq hvariable⟩

end Grammar
end LiveEdit
