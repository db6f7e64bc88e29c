import LiveEdit.Proofs.Outline.Stability

namespace LiveEdit.Grammar
open List hiding take
open Outline Rule

variable {inner block body : Rule} {rs : List Rule} {os bs qs : List Outline}
  {rest ks ms : List Kind} {k kind : Kind} {p : Kind → Bool}

lemma peek_dropWhile (hp : p .endOfFile = false) (ks : List Kind) :
    p (peek (ks.dropWhile p)) = false := by
  induction ks with
  | nil => exact hp
  | cons k ks ih =>
    cases hk : p k with
    | true => rwa [dropWhile_cons_of_pos hk]
    | false =>
      rw [dropWhile_cons_of_neg (Bool.eq_false_iff.1 hk)]
      exact hk

lemma takeWhile_eq_nil (h : p (peek ks) = false) : ks.takeWhile p = [] := by
  cases ks with
  | nil => rfl
  | cons k ks => exact takeWhile_cons_of_neg (Bool.eq_false_iff.1 h)

def modified (ms : List Kind) : List Outline := ms.map fun k => .branch .modifier [.leaf k]

lemma leavesAll_modified (ms : List Kind) : leavesAll (modified ms) = ms := by
  induction ms with
  | nil => rfl
  | cons k ms ih =>
    show [k] ++ leavesAll (modified ms) = k :: ms
    rw [ih]
    rfl

lemma gives_modifiers : Gives modifiers os rest ↔
    (∃ ms : List Kind, (∀ k ∈ ms, k.isModifierKeyword = true) ∧ os = modified ms) ∧
      (peek rest).isModifierKeyword = false := by
  constructor
  · intro h
    obtain ⟨hos, hrest⟩ := Prod.mk.inj h
    refine ⟨⟨_, List.all_eq_true.1 all_takeWhile, hos.symm⟩, ?_⟩
    rw [← hrest]
    exact peek_dropWhile rfl _
  · rintro ⟨⟨ms, hms, rfl⟩, hrest⟩
    have htake : (ms ++ rest).takeWhile Kind.isModifierKeyword = ms := by
      rw [takeWhile_append_of_pos hms, takeWhile_eq_nil hrest, append_nil]
    have hdrop : (ms ++ rest).dropWhile Kind.isModifierKeyword = rest := by
      have happend := takeWhile_append_dropWhile (p := Kind.isModifierKeyword) (l := ms ++ rest)
      rw [htake] at happend
      exact append_cancel_left happend
    unfold Gives modifiers
    rw [leavesAll_modified, htake, hdrop]
    rfl

lemma nodeFrom_modifiers (ks : List Kind) : nodeFrom (modifiers ks).1 kind body (modifiers ks).2 =
      node kind (seq [modifiers, body]) ks := by
  simp only [node, nodeFrom, seq, skip, append_nil, nil_append]

lemma gives_modified :
    Gives (node kind (seq [modifiers, body])) os rest ↔ ∃ ms bs, os = [.branch kind (ms ++ bs)] ∧
    Gives modifiers ms (leavesAll bs ++ rest) ∧ Gives body bs rest := by
  constructor
  · intro h
    obtain ⟨ps, rfl, hps⟩ := gives_node.1 h
    obtain ⟨ms, bs, rfl, hms, hbs⟩ := (gives_seq_cons lossless_modifiers.frugal).1 hps
    exact ⟨ms, bs, rfl, hms, gives_seq_one.1 hbs⟩
  · rintro ⟨ms, bs, rfl, hms, hbs⟩
    refine gives_node.2
      ⟨_, rfl, (gives_seq_cons lossless_modifiers.frugal).2 ⟨ms, bs, rfl, hms, ?_⟩⟩
    exact gives_seq_one.2 hbs

lemma modifiers_rest {ms : List Outline} (h : Gives modifiers ms (leavesAll bs ++ rest)) :
    (modifiers (leavesAll [.branch kind (ms ++ bs)] ++ rest)).2 = leavesAll bs ++ rest := by
  have hleaves : leavesAll [.branch kind (ms ++ bs)] ++ rest =
      leavesAll ms ++ (leavesAll bs ++ rest) := by
    simp only [leavesAll, leaves, leavesAll_append, append_nil, append_assoc]
  unfold Gives at h
  rw [hleaves, h]

lemma modifiers_isEmpty (ks : List Kind) :
    (modifiers ks).1.isEmpty = !(peek ks).isModifierKeyword := by
  cases ks with
  | nil => rfl
  | cons k ks =>
    cases hk : k.isModifierKeyword with
    | true => simp [modifiers, peek, hk]
    | false => simp [modifiers, peek, hk]

lemma modifiers_eq (h : (peek ks).isModifierKeyword = false) : (modifiers ks).2 = ks :=
  modifiers_of_isEmpty (by rw [modifiers_isEmpty, h]; rfl)

lemma exists_modifiers (hg : Gives (node kind (seq [modifiers, body])) os rest) :
    ∃ ms bs, os = [.branch kind (modified ms ++ bs)] ∧ (∀ k ∈ ms, k.isModifierKeyword = true) ∧
    (peek (leavesAll bs ++ rest)).isModifierKeyword = false ∧ Gives body bs rest ∧
    (modifiers (leavesAll os ++ rest)).2 = leavesAll bs ++ rest := by
  obtain ⟨ms, bs, rfl, hms, hbs⟩ := gives_modified.1 hg
  have hrest : (modifiers (leavesAll [.branch kind (ms ++ bs)] ++ rest)).2 = leavesAll bs ++ rest :=
    modifiers_rest hms
  obtain ⟨⟨ks, hks, rfl⟩, hnext⟩ := gives_modifiers.1 hms
  exact ⟨ks, bs, rfl, hks, hnext, hbs, hrest⟩

lemma gives_of_modifiers (kind : Kind) (hms : ∀ k ∈ ms, k.isModifierKeyword = true)
    (hnext : (peek (leavesAll bs ++ rest)).isModifierKeyword = false) (hbs : Gives body bs rest) :
    Gives (node kind (seq [modifiers, body])) [.branch kind (modified ms ++ bs)] rest ∧
    (modifiers (leavesAll [.branch kind (modified ms ++ bs)] ++ rest)).2 =
      leavesAll bs ++ rest := by
  have hmods : Gives modifiers (modified ms) (leavesAll bs ++ rest) :=
    gives_modifiers.2 ⟨⟨ms, hms, rfl⟩, hnext⟩
  exact ⟨gives_modified.2 ⟨_, bs, rfl, hmods, hbs⟩, modifiers_rest hmods⟩

lemma classMember_method (hname : peek (modifiers ks).2 = .identifier)
    (hnext : peek ((modifiers ks).2.drop 1) = .leftParenthesis) :
    classMember block ks = node .methodDeclaration (seq [modifiers, method block]) ks := by
  unfold classMember
  dsimp only
  rw [if_pos hname, if_pos hnext, nodeFrom_modifiers]

lemma classMember_property (hname : peek (modifiers ks).2 = .identifier)
    (hnext : peek ((modifiers ks).2.drop 1) ≠ .leftParenthesis) :
    classMember block ks = node .propertyDeclaration (seq [modifiers, property]) ks := by
  unfold classMember
  dsimp only
  rw [if_pos hname, if_neg hnext, nodeFrom_modifiers]

lemma classMember_stray (hname : peek (modifiers ks).2 ≠ .identifier)
    (hfirst : (peek ks).isModifierKeyword = false) :
    classMember block ks = recover .unexpectedInClass ks := by
  have hempty : (modifiers ks).1.isEmpty = true := by rw [modifiers_isEmpty, hfirst]; rfl
  unfold classMember
  dsimp only
  rw [if_neg hname, if_pos hempty, modifiers_eq hfirst]

lemma classMember_nameless (hname : peek (modifiers ks).2 ≠ .identifier)
    (hfirst : (peek ks).isModifierKeyword = true) :
    classMember block ks = node .error (seq [modifiers, complain .memberName]) ks := by
  have hempty : (modifiers ks).1.isEmpty = false := by rw [modifiers_isEmpty, hfirst]; rfl
  unfold classMember
  dsimp only
  rw [if_neg hname, if_neg (Bool.eq_false_iff.1 hempty), nodeFrom_modifiers]

def named : Outline := .branch .name [.leaf .identifier]

lemma exists_name (hname : peek (leavesAll os ++ rest) = .identifier)
    (hg : Gives (seq (name :: rs)) os rest) : ∃ qs, os = named :: qs ∧ Gives (seq rs) qs rest := by
  obtain ⟨ps, qs, rfl, hps, hqs⟩ := (gives_seq_cons lossless_name.frugal).1 hg
  rw [leavesAll_append, append_assoc] at hname
  have hp : (peek (leavesAll ps ++ (leavesAll qs ++ rest)) == .identifier) = true :=
    beq_iff_eq.2 hname
  obtain ⟨parts, rfl, hparts⟩ := gives_node.1 ((gives_choose_of hp).1 hps)
  obtain ⟨k, rfl⟩ := gives_take.1 hparts
  obtain rfl : k = .identifier := hname
  exact ⟨qs, rfl, hqs⟩

lemma gives_named (h : Gives (seq rs) os rest) : Gives (seq (name :: rs)) (named :: os) rest :=
  (gives_seq_cons lossless_name.frugal).2 ⟨[named], os, rfl, rfl, h⟩

def Membered (block : Rule) (ms : List Kind) (qs os : List Outline) (rest : List Kind) : Prop :=
  (os = [.branch .methodDeclaration (modified ms ++ named :: qs)] ∧
    peek (leavesAll qs ++ rest) = .leftParenthesis ∧ Gives (seq [signature block]) qs rest) ∨
  (os = [.branch .propertyDeclaration (modified ms ++ named :: qs)] ∧
    peek (leavesAll qs ++ rest) ≠ .leftParenthesis ∧
    Gives (seq [typeClause, initializer, option .semicolon take]) qs rest)

lemma classMember_cases (hg : Gives (classMember block) os rest) :
    (∃ ms qs, (∀ k ∈ ms, k.isModifierKeyword = true) ∧ Membered block ms qs os rest) ∨
    (∃ ms, os = [.branch .error (modified ms ++ [.fault .memberName])] ∧ peek rest ≠ .identifier ∧
      (peek rest).isModifierKeyword = false ∧ (∀ k ∈ ms, k.isModifierKeyword = true) ∧
      (peek (leavesAll os ++ rest)).isModifierKeyword = true) ∨
    (Gives (recover .unexpectedInClass) os rest ∧
      (peek (leavesAll os ++ rest)).isModifierKeyword = false ∧
      peek (leavesAll os ++ rest) ≠ .identifier) := by
  by_cases hname : peek (modifiers (leavesAll os ++ rest)).2 = .identifier
  · by_cases hnext : peek ((modifiers (leavesAll os ++ rest)).2.drop 1) = .leftParenthesis
    · obtain ⟨ms, bs, rfl, hms, -, hbs, hrest⟩ :=
        exists_modifiers ((classMember_method hname hnext).symm.trans hg)
      rw [hrest] at hname hnext
      obtain ⟨qs, rfl, hqs⟩ := exists_name hname hbs
      exact .inl ⟨ms, qs, hms, .inl ⟨rfl, hnext, hqs⟩⟩
    · obtain ⟨ms, bs, rfl, hms, -, hbs, hrest⟩ :=
        exists_modifiers ((classMember_property hname hnext).symm.trans hg)
      rw [hrest] at hname hnext
      obtain ⟨qs, rfl, hqs⟩ := exists_name hname hbs
      exact .inl ⟨ms, qs, hms, .inr ⟨rfl, hnext, hqs⟩⟩
  · cases hfirst : (peek (leavesAll os ++ rest)).isModifierKeyword with
    | true =>
      obtain ⟨ms, bs, rfl, hms, hnext, hbs, hrest⟩ :=
        exists_modifiers ((classMember_nameless hname hfirst).symm.trans hg)
      obtain rfl := gives_complain.1 hbs
      rw [hrest] at hname
      exact .inr (.inl ⟨ms, rfl, hname, hnext, hms, rfl⟩)
    | false =>
      refine .inr (.inr ⟨(classMember_stray hname hfirst).symm.trans hg, rfl, ?_⟩)
      rwa [modifiers_eq hfirst] at hname

lemma gives_classMethod (hms : ∀ k ∈ ms, k.isModifierKeyword = true)
    (hnext : peek (leavesAll qs ++ rest) = .leftParenthesis)
    (hqs : Gives (seq [signature block]) qs rest) :
    Gives (classMember block) [.branch .methodDeclaration (modified ms ++ named :: qs)] rest := by
  obtain ⟨hg, hrest⟩ := gives_of_modifiers .methodDeclaration hms rfl (gives_named hqs)
  exact (classMember_method (by rw [hrest]; rfl) (by rw [hrest]; exact hnext)).trans hg

lemma gives_classProperty (hms : ∀ k ∈ ms, k.isModifierKeyword = true)
    (hnext : peek (leavesAll qs ++ rest) ≠ .leftParenthesis)
    (hqs : Gives (seq [typeClause, initializer, option .semicolon take]) qs rest) :
    Gives (classMember block) [.branch .propertyDeclaration (modified ms ++ named :: qs)] rest := by
  obtain ⟨hg, hrest⟩ := gives_of_modifiers .propertyDeclaration hms rfl (gives_named hqs)
  exact (classMember_property (by rw [hrest]; rfl) (by rw [hrest]; exact hnext)).trans hg

lemma gives_nameless (hms : ∀ k ∈ ms, k.isModifierKeyword = true) (hname : peek rest ≠ .identifier)
    (hnext : (peek rest).isModifierKeyword = false) (hfirst : (peek (leavesAll
      [.branch .error (modified ms ++ [.fault .memberName])] ++ rest)).isModifierKeyword = true) :
    Gives (classMember block) [.branch .error (modified ms ++ [.fault .memberName])] rest := by
  have hbody : Gives (complain .memberName) [.fault .memberName] rest := rfl
  obtain ⟨hg, hrest⟩ := gives_of_modifiers .error hms (by exact hnext) hbody
  exact (classMember_nameless (by rw [hrest]; exact hname) hfirst).trans hg

lemma statementOver_declaration
    (hd : declaration? (Grammar.block inner) (peek (modifiers ks).2) = some (kind, body)) :
    statementOver inner ks = node kind (seq [modifiers, body]) ks := by
  unfold statementOver
  dsimp only
  rw [hd]
  exact nodeFrom_modifiers ks

lemma statementOver_plain (hd : declaration? (Grammar.block inner) (peek ks) = none)
    (hfirst : (peek ks).isModifierKeyword = false) :
    statementOver inner ks = plainStatement inner ks := by
  have hempty : (modifiers ks).1.isEmpty = true := by rw [modifiers_isEmpty, hfirst]; rfl
  unfold statementOver
  dsimp only
  rw [modifiers_eq hfirst, hd]
  exact if_pos hempty

lemma statementOver_stray (hd : declaration? (Grammar.block inner) (peek (modifiers ks).2) = none)
    (hfirst : (peek ks).isModifierKeyword = true) :
    statementOver inner ks = node .error (seq [modifiers, complain .declaration]) ks := by
  have hempty : (modifiers ks).1.isEmpty = false := by rw [modifiers_isEmpty, hfirst]; rfl
  unfold statementOver
  dsimp only
  rw [hd]
  exact (if_neg (Bool.eq_false_iff.1 hempty)).trans (nodeFrom_modifiers ks)

lemma statementOver_cases (hg : Gives (statementOver inner) os rest) :
    (∃ ms bs kind body, os = [.branch kind (modified ms ++ bs)] ∧
      (∀ k ∈ ms, k.isModifierKeyword = true) ∧
      declaration? (Grammar.block inner) (peek (leavesAll bs ++ rest)) = some (kind, body) ∧
      Gives body bs rest) ∨
    (∃ ms, os = [.branch .error (modified ms ++ [.fault .declaration])] ∧
      (peek rest).isModifierKeyword = false ∧
      declaration? (Grammar.block inner) (peek rest) = none ∧
      (∀ k ∈ ms, k.isModifierKeyword = true) ∧
      (peek (leavesAll os ++ rest)).isModifierKeyword = true) ∨
    (Gives (plainStatement inner) os rest ∧
      (peek (leavesAll os ++ rest)).isModifierKeyword = false ∧
      declaration? (Grammar.block inner) (peek (leavesAll os ++ rest)) = none) := by
  cases hd : declaration? (Grammar.block inner) (peek (modifiers (leavesAll os ++ rest)).2) with
  | some d =>
    obtain ⟨kind, body⟩ := d
    obtain ⟨ms, bs, rfl, hms, -, hbs, hrest⟩ :=
      exists_modifiers ((statementOver_declaration hd).symm.trans hg)
    rw [hrest] at hd
    exact .inl ⟨ms, bs, kind, body, rfl, hms, hd, hbs⟩
  | none =>
    cases hfirst : (peek (leavesAll os ++ rest)).isModifierKeyword with
    | true =>
      obtain ⟨ms, bs, rfl, hms, hnext, hbs, hrest⟩ :=
        exists_modifiers ((statementOver_stray hd hfirst).symm.trans hg)
      obtain rfl := gives_complain.1 hbs
      rw [hrest] at hd
      exact .inr (.inl ⟨ms, rfl, hnext, hd, hms, rfl⟩)
    | false =>
      rw [modifiers_eq hfirst] at hd
      exact .inr (.inr ⟨(statementOver_plain hd hfirst).symm.trans hg, rfl, hd⟩)

lemma not_modifier_of_declaration (hd : declaration? block k = some (kind, body)) :
    k.isModifierKeyword = false := by
  cases declares hd with
  | binding hk => rcases hk with rfl | rfl | rfl <;> rfl
  | _ => rfl

lemma exists_keyword (hd : declaration? block k = some (kind, body)) (hbs : Gives body os rest) :
    ∃ j qs, os = .leaf j :: qs := by
  obtain ⟨rs, rfl⟩ : ∃ rs, body = seq (take :: rs) := by
    cases declares hd <;> exact ⟨_, rfl⟩
  obtain ⟨ps, qs, rfl, hps, -⟩ := (gives_seq_cons frugal_take).1 hbs
  obtain ⟨j, rfl⟩ := gives_take.1 hps
  exact ⟨j, qs, rfl⟩

lemma gives_modified_declaration (hms : ∀ k ∈ ms, k.isModifierKeyword = true)
    (hd : declaration? (Grammar.block inner) (peek (leavesAll bs ++ rest)) = some (kind, body))
    (hbs : Gives body bs rest) :
    Gives (statementOver inner) [.branch kind (modified ms ++ bs)] rest := by
  obtain ⟨hg, hrest⟩ := gives_of_modifiers kind hms (not_modifier_of_declaration hd) hbs
  exact (statementOver_declaration (by rw [hrest]; exact hd)).trans hg

lemma gives_stray (hms : ∀ k ∈ ms, k.isModifierKeyword = true)
    (hnext : (peek rest).isModifierKeyword = false)
    (hd : declaration? (Grammar.block inner) (peek rest) = none) (hfirst : (peek (leavesAll
      [.branch .error (modified ms ++ [.fault .declaration])] ++ rest)).isModifierKeyword = true) :
    Gives (statementOver inner) [.branch .error (modified ms ++ [.fault .declaration])] rest := by
  have hbody : Gives (complain .declaration) [.fault .declaration] rest := rfl
  obtain ⟨hg, hrest⟩ := gives_of_modifiers .error hms (by exact hnext) hbody
  exact (statementOver_stray (by rw [hrest]; exact hd) hfirst).trans hg

lemma plainStatement_cases (hg : Gives (plainStatement inner) os rest) : (∃ k ps, os =
      [.branch k ps] ∧ k ∈ [Kind.block, .returnStatement, .ifStatement, .expressionStatement]) ∨
    Gives (recover .unexpectedToken) os rest := by
  have hnode : ∀ {k : Kind} {r : Rule}, Gives (node k r) os rest →
      k ∈ [Kind.block, .returnStatement, .ifStatement, .expressionStatement] →
      ∃ k ps, os = [.branch k ps] ∧
      k ∈ [Kind.block, .returnStatement, .ifStatement, .expressionStatement] := by
    intro k r hg hk
    obtain ⟨ps, hps, -⟩ := gives_node.1 hg
    exact ⟨k, ps, hps, hk⟩
  have hplain : plainStatement inner (leavesAll os ++ rest) = (os, rest) := hg
  unfold plainStatement at hplain
  split at hplain
  · exact .inl (hnode hplain (by decide))
  · exact .inl (hnode hplain (by decide))
  · exact .inl (hnode hplain (by decide))
  · cases hstart : expressionStart.contains (peek (leavesAll os ++ rest)) with
    | true => exact .inl (hnode ((gives_choose_of hstart).1 hplain) (by decide))
    | false => exact .inr ((gives_choose_of_not hstart).1 hplain)

end LiveEdit.Grammar
