import LiveEdit.Proofs.Document.Safety
import LiveEdit.Proofs.Document.Turning

namespace LiveEdit.Document
open List
open Wrapper Rank Parse
open LiveEdit.Tree (sizeAll)
open Lexeme (spell)

variable {d : Document} {n : NodeId} {w : Wrapper} {a : Address} {k : Kind} {U R : List Lexeme}
  {L L₁ L₂ : List Rank} {Y : List Tree} {l : Rank} {p : Kind → Bool} {i : Nat} {s : Scope}
  {accepts : ModifierRole → Bool} {o : Outcome NodeId} {tag : Nat} {file : String} {text : Text}
  {settings : Settings} {ops : List Operation}

lemma isModified_of_accepts (h : k.capabilities.modifiers.any accepts = true) :
    k.isModified = true := by
  cases k <;> first | rfl | cases h

lemma accepts_of_modifiable {feature : Feature} (h : d.modifiable n feature accepts = .ok w) :
    w.kind.capabilities.modifiers.any accepts = true := by
  obtain ⟨v, -, hw⟩ := bind_eq_ok h
  split_ifs at hw with hk
  rwa [← Except.ok.inj hw]

lemma setScope_eq (hn : d.node n = .ok w)
    (hk : w.kind.capabilities.modifiers.any ModifierRole.acceptsScope = true)
    (scope : Option Scope) : d.setScope n scope = d.change n w (scopeChange w.site scope) := by
  rw [setScope, modifiable_eq hn hk]
  rfl

lemma setExported_eq (hn : d.node n = .ok w)
    (hk : w.kind.capabilities.modifiers.any ModifierRole.acceptsExport = true) (exported : Bool) :
    d.setExported n exported = d.change n w (exportChange w.site exported) := by
  rw [setExported, modifiable_eq hn hk]
  rfl

lemma isScopeKeyword_keyword (s : Scope) : s.keyword.isScopeKeyword = true ∧
    s.keyword.isModifierKeyword = true ∧ Scope.ofKeyword? s.keyword = some s := by
  cases s <;> decide

lemma ofKeyword?_eq_none_iff : Scope.ofKeyword? k = none ↔ k.isScopeKeyword = false := by
  cases k <;> decide

lemma findSome?_scope (hL : ∀ j ∈ kinds L₁, j.isScopeKeyword = false)
    (hl : Scope.ofKeyword? l.keyword.kind = some s) (L₂ : List Rank) :
    (kinds (L₁ ++ l :: L₂)).findSome? Scope.ofKeyword? = some s := by
  have hnone : (kinds L₁).findSome? Scope.ofKeyword? = none :=
    List.findSome?_eq_none_iff.2 fun j hj => ofKeyword?_eq_none_iff.2 (hL j hj)
  rw [kinds_append, findSome?_append, hnone, Option.none_or]
  exact findSome?_cons_of_isSome (by rw [hl]; rfl) |>.trans hl

lemma exists_exports (L : List Rank) : ∃ L₁ L₂, L = L₁ ++ L₂ ∧
    (∀ j ∈ kinds L₁, j = .exportKeyword) ∧ ∀ j ∈ (kinds L₂).head?, j ≠ .exportKeyword := by
  rcases exists_first_rank (· != .exportKeyword) L with hall | ⟨L₁, l, L₂, rfl, hL₁, hl⟩
  · refine ⟨L, [], (append_nil L).symm, fun j hj => ?_, by simp [kinds]⟩
    simpa using hall j hj
  · refine ⟨L₁, l :: L₂, rfl, fun j hj => by simpa using hL₁ j hj, fun j hj => ?_⟩
    obtain rfl := Option.some.inj hj
    simpa using hl

lemma find?_modifiers_eq_none (hL : ∀ l ∈ L, l.Proper)
    (hY : ∀ y ∈ Y, y.isNode = true → y.kind ≠ .modifier) (hnone : ∀ j ∈ kinds L, p j = false) :
    (⟨i, .node k (trees L ++ Y)⟩ : Site).modifiers.find? (fun m => p m.1) = none := by
  rw [modifiers_eq hL hY]
  exact find?_marks_eq_none hnone i

lemma find?_modifiers (hL : ∀ l' ∈ L₁ ++ l :: L₂, l'.Proper)
    (hY : ∀ y ∈ Y, y.isNode = true → y.kind ≠ .modifier) (hL₁ : ∀ j ∈ kinds L₁, p j = false)
    (hl : p l.keyword.kind = true) :
    (⟨i, .node k (trees (L₁ ++ l :: L₂) ++ Y)⟩ : Site).modifiers.find? (fun m => p m.1) =
      some (l.keyword.kind, .sized (i + sizeAll (trees L₁)) l.tree.size) := by
  rw [modifiers_eq hL hY]
  exact find?_marks hL₁ hl i L₂

lemma exists_scopeChange (hm : Modified d.text a k U L R Y)
    (hfree : ∀ j ∈ kinds L, j.isScopeKeyword = false) (s : Scope) :
    ∃ L₁ L₂, L = L₁ ++ L₂ ∧ (∀ j ∈ kinds L₁, j.isScopeKeyword = false) ∧
    scopeChange ⟨(spell U).size, .node k (trees L ++ Y)⟩ (some s) =
      some (addModifier ((spell U).size + sizeAll (trees L₁)) s.keyword) := by
  obtain ⟨L₁, L₂, rfl, hL₁, hL₂⟩ := exists_exports L
  refine ⟨L₁, L₂, rfl, fun j hj => hL₁ j hj ▸ rfl, ?_⟩
  unfold scopeChange
  rw [find?_modifiers_eq_none hm.proper hm.bare hfree, scopePosition_eq hm.proper hL₁ hL₂ hm.first]

lemma located_of_run (hrun : (create tag file text settings .usual).run ops = some d)
    (hn : d.node n = .ok w) : Located d n w (d.address w) w.site :=
  ⟨sound_run hrun, (moves_run hrun).fixed.2, hn, rfl, rfl⟩

lemma Located.scope_round_trip (h : Located d n w a w.site)
    (hk : w.kind.capabilities.modifiers.any ModifierRole.acceptsScope = true)
    (hnone : d.scope n = .ok none) (s : Scope) :
    ∃ new log v, d.setScope n (some s) = some ⟨.ok n, new, log⟩ ∧ new.node n = .ok v ∧
    new.scope n = .ok (some s) ∧ ∃ old log' u, new.setScope n none = some ⟨.ok n, old, log'⟩ ∧
    old.text = d.text ∧ old.node n = .ok u ∧ u.span = w.span := by
  obtain ⟨U, L, R, Y, hsite, hm⟩ := h.exists_modified (isModified_of_accepts hk)
  rw [hsite] at h
  obtain ⟨hscope, hmodifier, hread⟩ := isScopeKeyword_keyword s
  have hfree : ∀ j ∈ kinds L, j.isScopeKeyword = false := by
    intro j hj
    rw [h.scope_eq hk hm.proper hm.bare, Except.ok.injEq, findSome?_eq_none_iff] at hnone
    exact ofKeyword?_eq_none_iff.1 (hnone j hj)
  obtain ⟨L₁, L₂, rfl, hfront, hadd⟩ := exists_scopeChange hm hfree s
  obtain ⟨new, log, v, hset, hlocated, old, log', u, hclear, htext, hback⟩ :=
    h.exists_added hm hmodifier
  have hproper := proper_adds hm.proper hmodifier
  have hdrop : scopeChange v.site none = some (dropModifier
      (.sized ((spell U).size + sizeAll (trees L₁)) (added s.keyword).tree.size)) := by
    unfold scopeChange
    rw [hlocated.site, find?_modifiers hproper hm.bare hfront hscope]
  have hkind : v.kind = w.kind := hlocated.kind_eq
  refine ⟨new, log, v, ?_, hlocated.node, ?_, old, log', u, ?_, htext, hback.node, ?_⟩
  · rw [setScope_eq h.node hk, h.site, hadd, hset]
  · rw [hlocated.scope_eq hk hproper hm.bare, findSome?_scope hfront hread]
  · rw [setScope_eq hlocated.node (hkind ▸ hk), hdrop, hclear]
  · exact congrArg Site.span (hback.site.trans h.site.symm)

lemma Located.export_round_trip (h : Located d n w a w.site)
    (hk : w.kind.capabilities.modifiers.any ModifierRole.acceptsExport = true)
    (hnone : d.isExported n = .ok false) :
    ∃ new log v, d.setExported n true = some ⟨.ok n, new, log⟩ ∧ new.node n = .ok v ∧
    new.isExported n = .ok true ∧ ∃ old log' u, new.setExported n false = some ⟨.ok n, old, log'⟩ ∧
    old.text = d.text ∧ old.node n = .ok u ∧ u.span = w.span := by
  obtain ⟨U, L, R, Y, hsite, hm⟩ := h.exists_modified (isModified_of_accepts hk)
  rw [hsite] at h
  have hfree : ∀ j ∈ kinds L, (j == .exportKeyword) = false := by
    rw [h.isExported_eq hk hm.proper hm.bare, Except.ok.injEq, any_eq_false] at hnone
    exact fun j hj => Bool.eq_false_iff.2 (hnone j hj)
  -- the modifier of the export comes before all others
  have hfront : Located d n w a ⟨(spell U).size, .node w.site.kind (trees ([] ++ L) ++ Y)⟩ := h
  have hexport : Kind.isModifierKeyword .exportKeyword = true := rfl
  obtain ⟨new, log, v, hset, hlocated, old, log', u, hclear, htext, hback⟩ :=
    hfront.exists_added hm hexport
  have hproper : ∀ l ∈ [] ++ added .exportKeyword :: L, l.Proper := proper_adds hm.proper hexport
  have hadd : exportChange w.site true = some (addModifier (spell U).size .exportKeyword) := by
    unfold exportChange
    rw [h.site, find?_modifiers_eq_none hm.proper hm.bare hfree]
  have hdrop : exportChange v.site false = some (dropModifier
      (.sized ((spell U).size + 0) (added .exportKeyword).tree.size)) := by
    unfold exportChange
    rw [hlocated.site,
      find?_modifiers (p := (· == .exportKeyword)) hproper hm.bare (forall_mem_nil _) rfl]
    rfl
  refine ⟨new, log, v, ?_, hlocated.node, ?_, old, log', u, ?_, htext, hback.node, ?_⟩
  · rw [setExported_eq h.node hk, hadd]
    exact hset
  · rw [hlocated.isExported_eq hk hproper hm.bare]
    rfl
  · rw [setExported_eq hlocated.node (hlocated.kind_eq ▸ hk), hdrop]
    exact hclear
  · exact congrArg Site.span (hback.site.trans h.site.symm)

/-- What is added to a node as a modifier is read back, and when it is cleared the text is what it
was and the node where it was, also in a text with faults. -/
theorem modifier_round_trip (hrun : (create tag file text settings .usual).run ops = some d)
    (n : NodeId) :
    (∀ s, d.scope n = .ok none → ∃ new log v, d.setScope n (some s) = some ⟨.ok n, new, log⟩ ∧
      new.node n = .ok v ∧ new.scope n = .ok (some s) ∧
      ∃ old log' u w, new.setScope n none = some ⟨.ok n, old, log'⟩ ∧ old.text = d.text ∧
      old.node n = .ok u ∧ d.node n = .ok w ∧ u.span = w.span) ∧
    (d.isExported n = .ok false → ∃ new log v, d.setExported n true = some ⟨.ok n, new, log⟩ ∧
      new.node n = .ok v ∧ new.isExported n = .ok true ∧
      ∃ old log' u w, new.setExported n false = some ⟨.ok n, old, log'⟩ ∧ old.text = d.text ∧
      old.node n = .ok u ∧ d.node n = .ok w ∧ u.span = w.span) := by
  constructor
  · intro s hnone
    obtain ⟨w, hw, -⟩ := bind_eq_ok hnone
    have hnode := node_of_modifiable hw
    obtain ⟨new, log, v, hset, hv, hread, old, log', u, hclear, htext, hu, hspan⟩ :=
      (located_of_run hrun hnode).scope_round_trip (accepts_of_modifiable hw) hnone s
    exact ⟨new, log, v, hset, hv, hread, old, log', u, w, hclear, htext, hu, hnode, hspan⟩
  · intro hnone
    obtain ⟨w, hw, -⟩ := bind_eq_ok hnone
    have hnode := node_of_modifiable hw
    obtain ⟨new, log, v, hset, hv, hread, old, log', u, hclear, htext, hu, hspan⟩ :=
      (located_of_run hrun hnode).export_round_trip (accepts_of_modifiable hw) hnone
    exact ⟨new, log, v, hset, hv, hread, old, log', u, w, hclear, htext, hu, hnode, hspan⟩

theorem modifier_round_trip_unclosed : ∃ d,
    (create 0 "a.ts" "class C \x7b static x".toList {} .usual).run
      [.firstDescendant ⟨0, 0⟩ .propertyDeclaration] = some d ∧ d.diagnostics ≠ [] ∧
    (∃ new log old log', d.setScope ⟨0, 2⟩ (some .private) = some ⟨.ok ⟨0, 2⟩, new, log⟩ ∧
      new.scope ⟨0, 2⟩ = .ok (some .private) ∧
      new.setScope ⟨0, 2⟩ none = some ⟨.ok ⟨0, 2⟩, old, log'⟩ ∧ old.text = d.text) ∧
    ∃ new log old log', d.setExported ⟨0, 1⟩ true = some ⟨.ok ⟨0, 1⟩, new, log⟩ ∧
      new.isExported ⟨0, 1⟩ = .ok true ∧
      new.setExported ⟨0, 1⟩ false = some ⟨.ok ⟨0, 1⟩, old, log'⟩ ∧ old.text = d.text := by
  have hfound : ∃ d ∈ (create 0 "a.ts" "class C \x7b static x".toList {} .usual).run
      [.firstDescendant ⟨0, 0⟩ .propertyDeclaration], d.diagnostics ≠ [] ∧
      (∃ scope, d.scope ⟨0, 2⟩ = .ok scope ∧ scope = none) ∧
      ∃ b, d.isExported ⟨0, 1⟩ = .ok b ∧ b = false := by
    decide +kernel
  obtain ⟨d, hrun, hfault, ⟨_, hscope, rfl⟩, _, hexport, rfl⟩ := hfound
  obtain ⟨new, log, v, hset, -, hread, old, log', u, w, hclear, htext, -⟩ :=
    (modifier_round_trip hrun ⟨0, 2⟩).1 .private hscope
  obtain ⟨new', log₂, v', hset', -, hread', old', log₃, u', w', hclear', htext', -⟩ :=
    (modifier_round_trip hrun ⟨0, 1⟩).2 hexport
  exact ⟨d, hrun, hfault, ⟨new, log, old, log', hset, hread, hclear, htext⟩,
    new', log₂, old', log₃, hset', hread', hclear', htext'⟩

def opensSpaced (s : Site) : Bool :=
  ((s.elements.drop 1).takeWhile (·.kind.isTrivia)).all fun c => c.text.all Text.isSpace

/-- A class member can do without its only modifier: its name does not then come where a word is
missing. -/
def keepsName (d : Document) (w : Wrapper) : Bool :=
  !w.kind.isClassMember || w.site.modifiers.length != 1 ||
    d.diagnostics.all fun x => x.position.offset != w.span.start || !x.isForWord

/-- The modifiers of some kinds can be taken out of a node: there is at most one of them, and if the
node starts with it, the rest of the node is read without it as before. -/
def clears (d : Document) (n : NodeId) (p : Kind → Bool) : Bool :=
  (d.node n).toOption.all fun w =>
    let found := w.site.modifiers.filter fun m => p m.1
    decide (found.length ≤ 1) &&
      found.all fun m => m.2.start != w.span.start || opensSpaced w.site && d.keepsName w

lemma spaces_of_opensSpaced (h : opensSpaced ⟨i, .node k (trees (l :: L) ++ Y)⟩ = true)
    (hl : l.Proper) : ∀ c ∈ spell l.behind, Text.isSpace c = true := by
  have helements : (⟨i, .node k (trees (l :: L) ++ Y)⟩ : Site).elements.drop 1 =
      Site.row (i + l.tree.size) ((l.behind.map Lexeme.leaf).map Tree.ofLeaf) ++
        Site.row (i + l.tree.size + sizeAll ((l.behind.map Lexeme.leaf).map Tree.ofLeaf))
        (trees L ++ Y) := by
    rw [← Site.row_append, ← append_assoc]
    rfl
  have htrivia : ∀ c ∈ Site.row (i + l.tree.size) ((l.behind.map Lexeme.leaf).map Tree.ofLeaf),
      c.kind.isTrivia = true := by
    intro c hc
    obtain ⟨u, hu, htree⟩ := mem_map.1 (Site.tree_mem_of_row hc)
    rw [Site.kind, ← htree]
    exact trivia_behind hl u hu
  rw [opensSpaced, helements, takeWhile_append_of_pos htrivia, all_append, Bool.and_eq_true] at h
  have hall : ((l.behind.map Lexeme.leaf).map Tree.ofLeaf).all (fun t => t.text.all Text.isSpace) =
      true := by
    rw [← Site.map_tree_row (i + l.tree.size) (List.map _ _), all_map]
    exact h.1
  intro c hc
  obtain ⟨u, hu, hmem⟩ := mem_flatMap.1 hc
  have htext := all_eq_true.1 hall _ (mem_map_of_mem (mem_map_of_mem hu))
  exact all_eq_true.1 htext c hmem

lemma Located.of_clears (h : Located d n w a ⟨(spell U).size, .node k (trees (L₁ ++ l :: L₂) ++ Y)⟩)
    (hm : Modified d.text a k U (L₁ ++ l :: L₂) R Y) (hclears : d.clears n p = true)
    (hL₁ : ∀ j ∈ kinds L₁, p j = false) (hl : p l.keyword.kind = true) :
    (∀ j ∈ kinds L₂, p j = false) ∧ (L₁ = [] → ∀ c ∈ spell l.behind, Text.isSpace c = true) ∧
    (k.isClassMember = true → L₁ = [] → L₂ = [] →
      ∀ x ∈ d.diagnostics, x.position.offset = (spell U).size → x.isForWord = false) := by
  have hmodifiers : w.site.modifiers = marks (spell U).size (L₁ ++ l :: L₂) := by
    rw [h.site]
    exact modifiers_eq hm.proper hm.bare
  have hfound : (w.site.modifiers.filter fun m => p m.1) =
      (l.keyword.kind, .sized ((spell U).size + sizeAll (trees L₁)) l.tree.size) ::
        (marks ((spell U).size + sizeAll (trees L₁) + sizeAll (trees [l])) L₂).filter fun m =>
        p m.1 := by
    rw [hmodifiers, marks_append, filter_append, (filter_marks_eq_nil_iff _).2 hL₁, nil_append]
    exact filter_cons_of_pos hl
  rw [clears, h.node] at hclears
  obtain ⟨hsingle, hfirst⟩ := Bool.and_eq_true_iff.1 hclears
  rw [hfound] at hsingle hfirst
  have hstart : w.span.start = (spell U).size := congrArg Site.start h.site
  have hopens : L₁ = [] → opensSpaced w.site = true ∧ d.keepsName w = true := by
    rintro rfl
    have hplace := all_eq_true.1 hfirst _ mem_cons_self
    rw [Bool.or_eq_true, Bool.and_eq_true, bne_iff_ne, hstart] at hplace
    exact hplace.resolve_left fun hne => hne rfl
  have hlength := of_decide_eq_true hsingle
  rw [length_cons] at hlength
  have hnone := eq_nil_of_length_eq_zero (Nat.eq_zero_of_le_zero (Nat.le_of_succ_le_succ hlength))
  refine ⟨(filter_marks_eq_nil_iff _).1 hnone, fun hnil => ?_, ?_⟩
  · obtain ⟨hspaced, -⟩ := hopens hnil
    subst hnil
    rw [h.site] at hspaced
    exact spaces_of_opensSpaced hspaced (hm.proper l mem_cons_self)
  · rintro hmember hnil rfl x hx hoffset
    obtain ⟨-, hname⟩ := hopens hnil
    subst hnil
    have hkind : w.kind = k := h.kind_eq
    rw [keepsName, hmodifiers, hkind, hmember, hstart] at hname
    have hall := all_eq_true.1 hname x hx
    rw [hoffset] at hall
    simpa using hall

lemma Located.scope_of_setScope {scope : Option Scope} (h : Located d n w a w.site)
    (hk : w.kind.capabilities.modifiers.any ModifierRole.acceptsScope = true)
    (ho : d.setScope n scope = some o)
    (hclears : scope = none → d.clears n Kind.isScopeKeyword = true) :
    o.answer = .ok n ∧ o.document.scope n = .ok scope := by
  obtain ⟨U, L, R, Y, hsite, hm⟩ := h.exists_modified (isModified_of_accepts hk)
  rw [hsite] at h
  rw [setScope_eq h.node hk, h.site] at ho
  have hnothing : ∀ {ks : List Kind}, (∀ j ∈ ks, j.isScopeKeyword = false) →
      ks.findSome? Scope.ofKeyword? = none := fun hks =>
    List.findSome?_eq_none_iff.2 fun j hj => ofKeyword?_eq_none_iff.2 (hks j hj)
  rcases exists_first_rank Kind.isScopeKeyword L with hfree | ⟨L₁, l, L₂, rfl, hL₁, hl⟩
  · cases scope with
    | none =>
      have hkeep : scopeChange ⟨(spell U).size, .node w.site.kind (trees L ++ Y)⟩ none = none := by
        unfold scopeChange
        rw [find?_modifiers_eq_none hm.proper hm.bare hfree]
      rw [hkeep] at ho
      obtain rfl := Option.some.inj ho
      exact ⟨rfl, (h.scope_eq hk hm.proper hm.bare).trans (congrArg Except.ok (hnothing hfree))⟩
    | some s =>
      obtain ⟨-, hmodifier, hread⟩ := isScopeKeyword_keyword s
      obtain ⟨L₁, L₂, rfl, hfront, hadd⟩ := exists_scopeChange hm hfree s
      obtain ⟨new, log, v, hset, hlocated, -⟩ := h.exists_added hm hmodifier
      rw [hadd, hset] at ho
      obtain rfl := Option.some.inj ho
      refine ⟨rfl, (hlocated.scope_eq hk (proper_adds hm.proper hmodifier) hm.bare).trans
        (congrArg Except.ok ?_)⟩
      exact findSome?_scope hfront hread L₂
  · have hfind := find?_modifiers (i := (spell U).size) (k := w.site.kind) hm.proper hm.bare hL₁ hl
    unfold scopeChange at ho
    rw [hfind] at ho
    cases scope with
    | none =>
      obtain ⟨hL₂, hspaces, hsoft⟩ := h.of_clears hm (hclears rfl) hL₁ hl
      obtain ⟨new, log, v, L', hset, hproper, hkinds, hlocated⟩ := h.exists_dropped hm hspaces hsoft
      dsimp only at ho
      rw [hset] at ho
      obtain rfl := Option.some.inj ho
      refine ⟨rfl, (hlocated.scope_eq hk hproper hm.bare).trans (congrArg Except.ok ?_)⟩
      rw [hkinds]
      exact hnothing (forall_mem_append.2 ⟨hL₁, hL₂⟩)
    | some s =>
      obtain ⟨-, hmodifier, hread⟩ := isScopeKeyword_keyword s
      dsimp only at ho
      split_ifs at ho with hsame
      · obtain rfl := Option.some.inj ho
        refine ⟨rfl, (h.scope_eq hk hm.proper hm.bare).trans (congrArg Except.ok ?_)⟩
        exact findSome?_scope hL₁ (hsame ▸ hread) L₂
      · obtain ⟨new, log, v, hset, hlocated⟩ := h.exists_swapped hm hmodifier
        rw [hset] at ho
        obtain rfl := Option.some.inj ho
        refine ⟨rfl, (hlocated.scope_eq hk (proper_swaps hm.proper hmodifier) hm.bare).trans
          (congrArg Except.ok ?_)⟩
        exact findSome?_scope hL₁ hread L₂

lemma Located.isExported_of_setExported {exported : Bool} (h : Located d n w a w.site)
    (hk : w.kind.capabilities.modifiers.any ModifierRole.acceptsExport = true)
    (ho : d.setExported n exported = some o)
    (hclears : exported = false → d.clears n (· == .exportKeyword) = true) :
    o.answer = .ok n ∧ o.document.isExported n = .ok exported := by
  obtain ⟨U, L, R, Y, hsite, hm⟩ := h.exists_modified (isModified_of_accepts hk)
  rw [hsite] at h
  rw [setExported_eq h.node hk, h.site] at ho
  have hnothing : ∀ {ks : List Kind}, (∀ j ∈ ks, (j == .exportKeyword) = false) →
      ks.any (· == .exportKeyword) = false := fun hks =>
    any_eq_false.2 fun j hj => Bool.eq_false_iff.1 (hks j hj)
  rcases exists_first_rank (· == .exportKeyword) L with hfree | ⟨L₁, l, L₂, rfl, hL₁, hl⟩
  · have hfind :=
      find?_modifiers_eq_none (i := (spell U).size) (k := w.site.kind) hm.proper hm.bare hfree
    unfold exportChange at ho
    rw [hfind] at ho
    cases exported with
    | false =>
      obtain rfl := Option.some.inj ho
      exact ⟨rfl,
        (h.isExported_eq hk hm.proper hm.bare).trans (congrArg Except.ok (hnothing hfree))⟩
    | true =>
      have hfront : Located d n w a ⟨(spell U).size, .node w.site.kind (trees ([] ++ L) ++ Y)⟩ := h
      have hexport : Kind.isModifierKeyword .exportKeyword = true := rfl
      obtain ⟨new, log, v, hset, hlocated, -⟩ := hfront.exists_added hm hexport
      obtain rfl := Option.mem_unique hset ho
      exact ⟨rfl, hlocated.isExported_eq hk (proper_adds hm.proper hexport) hm.bare⟩
  · have hfind := find?_modifiers (i := (spell U).size) (k := w.site.kind) hm.proper hm.bare hL₁ hl
    unfold exportChange at ho
    rw [hfind] at ho
    cases exported with
    | false =>
      obtain ⟨hL₂, hspaces, hsoft⟩ := h.of_clears hm (hclears rfl) hL₁ hl
      obtain ⟨new, log, v, L', hset, hproper, hkinds, hlocated⟩ := h.exists_dropped hm hspaces hsoft
      obtain rfl := Option.mem_unique hset ho
      refine ⟨rfl, (hlocated.isExported_eq hk hproper hm.bare).trans (congrArg Except.ok ?_)⟩
      rw [hkinds]
      exact hnothing (forall_mem_append.2 ⟨hL₁, hL₂⟩)
    | true =>
      obtain rfl := Option.some.inj ho
      refine ⟨rfl, (h.isExported_eq hk hm.proper hm.bare).trans (congrArg Except.ok ?_)⟩
      rw [kinds_append]
      exact any_eq_true.2 ⟨_, mem_append_right _ mem_cons_self, hl⟩

/-- What is set is read back from the node that the answer names. To clear a modifier, the node must
be one that it can be cleared of. -/
theorem modifier_read_back (hrun : (create tag file text settings .usual).run ops = some d)
    {n m : NodeId} {o : Outcome NodeId} (hok : o.answer = .ok m) :
    (∀ scope, d.setScope n scope = some o → (scope = none → d.clears n Kind.isScopeKeyword = true) →
      (∃ v, o.document.node m = .ok v) ∧ o.document.scope m = .ok scope) ∧
    (∀ exported, d.setExported n exported = some o →
      (exported = false → d.clears n (· == .exportKeyword) = true) →
      (∃ v, o.document.node m = .ok v) ∧ o.document.isExported m = .ok exported) := by
  constructor
  · intro scope ho hclears
    cases hw : d.modifiable n .setScope ModifierRole.acceptsScope with
    | error e =>
      rw [setScope, hw] at ho
      obtain rfl := Option.some.inj ho
      cases hok
    | ok w =>
      obtain ⟨hanswer, hread⟩ := (located_of_run hrun (node_of_modifiable hw)).scope_of_setScope
        (accepts_of_modifiable hw) ho hclears
      obtain rfl := Except.ok.inj (hanswer.symm.trans hok)
      obtain ⟨v, hv, -⟩ := bind_eq_ok hread
      exact ⟨⟨v, node_of_modifiable hv⟩, hread⟩
  · intro exported ho hclears
    cases hw : d.modifiable n .setExported ModifierRole.acceptsExport with
    | error e =>
      rw [setExported, hw] at ho
      obtain rfl := Option.some.inj ho
      cases hok
    | ok w =>
      obtain ⟨hanswer, hread⟩ :=
        (located_of_run hrun (node_of_modifiable hw)).isExported_of_setExported
        (accepts_of_modifiable hw) ho hclears
      obtain rfl := Except.ok.inj (hanswer.symm.trans hok)
      obtain ⟨v, hv, -⟩ := bind_eq_ok hread
      exact ⟨⟨v, node_of_modifiable hv⟩, hread⟩

theorem modifier_read_back_cleared :
    ∃ d o o', (create 0 "a.ts" "export  class C { static private x }".toList {} .usual).run
      [.firstDescendant ⟨0, 0⟩ .propertyDeclaration] = some d ∧
    (d.setScope ⟨0, 2⟩ none = some o ∧ o.answer = .ok ⟨0, 2⟩ ∧ o.document.scope ⟨0, 2⟩ = .ok none) ∧
    d.setExported ⟨0, 1⟩ false = some o' ∧ o'.answer = .ok ⟨0, 1⟩ ∧
    o'.document.isExported ⟨0, 1⟩ = .ok false := by
  have hfound : ∃ d ∈ (create 0 "a.ts" "export  class C { static private x }".toList {} .usual).run
      [.firstDescendant ⟨0, 0⟩ .propertyDeclaration],
      (d.clears ⟨0, 2⟩ Kind.isScopeKeyword = true ∧ d.clears ⟨0, 1⟩ (· == .exportKeyword) = true) ∧
      ∃ o ∈ d.setScope ⟨0, 2⟩ none, (∃ m, o.answer = .ok m ∧ m = ⟨0, 2⟩) ∧
      ∃ o' ∈ d.setExported ⟨0, 1⟩ false, ∃ m, o'.answer = .ok m ∧ m = ⟨0, 1⟩ := by
    decide +kernel
  obtain ⟨d, hrun, ⟨hclears, hclears'⟩, o, ho, ⟨_, hok, rfl⟩, o', ho', _, hok', rfl⟩ := hfound
  exact ⟨d, o, o', hrun, ⟨ho, hok, ((modifier_read_back hrun hok).1 none ho fun _ => hclears).2⟩,
    ho', hok', ((modifier_read_back hrun hok').2 false ho' fun _ => hclears').2⟩

/-- The scope of a class member is not cleared if it has two, and the member is lost if a line break
comes behind its only modifier or if its name is then read as the type that the member before it
lacks. -/
theorem scope_stays_or_member_lost :
    (∃ d o, (create 0 "a.ts" "class C { public private x }".toList {} .usual).run
        [.firstDescendant ⟨0, 0⟩ .propertyDeclaration] = some d ∧
      d.setScope ⟨0, 2⟩ none = some o ∧ o.answer = .ok ⟨0, 2⟩ ∧
      o.document.scope ⟨0, 2⟩ = .ok (some .private)) ∧
    (∃ d o, (create 0 "a.ts" "class C \x7b public\nx \x7d".toList {} .usual).run
        [.firstDescendant ⟨0, 0⟩ .propertyDeclaration] = some d ∧
      d.setScope ⟨0, 2⟩ none = some o ∧ o.answer = .ok ⟨0, 2⟩ ∧
      o.document.isForgotten ⟨0, 2⟩ = true) ∧
    ∃ d o, (create 0 "a.ts" "class C { x: public y }".toList {} .usual).run
        [.children ⟨0, 0⟩, .children ⟨0, 1⟩] = some d ∧
      d.setScope ⟨0, 4⟩ none = some o ∧ o.answer = .ok ⟨0, 4⟩ ∧
      o.document.isForgotten ⟨0, 4⟩ = true := by
  refine ⟨?_, ?_, ?_⟩
  · have hfound : ∃ d ∈ (create 0 "a.ts" "class C { public private x }".toList {} .usual).run
        [.firstDescendant ⟨0, 0⟩ .propertyDeclaration], ∃ o ∈ d.setScope ⟨0, 2⟩ none,
        (∃ m, o.answer = .ok m ∧ m = ⟨0, 2⟩) ∧
        ∃ scope, o.document.scope ⟨0, 2⟩ = .ok scope ∧ scope = some .private := by
      decide +kernel
    obtain ⟨d, hrun, o, ho, ⟨_, hm, rfl⟩, _, hscope, rfl⟩ := hfound
    exact ⟨d, o, hrun, ho, hm, hscope⟩
  · have hfound : ∃ d ∈ (create 0 "a.ts" "class C \x7b public\nx \x7d".toList {} .usual).run
        [.firstDescendant ⟨0, 0⟩ .propertyDeclaration], ∃ o ∈ d.setScope ⟨0, 2⟩ none,
        ∃ m, o.answer = .ok m ∧ m = ⟨0, 2⟩ ∧ o.document.isForgotten ⟨0, 2⟩ = true := by
      decide +kernel
    obtain ⟨d, hrun, o, ho, _, hm, rfl, hforgotten⟩ := hfound
    exact ⟨d, o, hrun, ho, hm, hforgotten⟩
  · have hfound : ∃ d ∈ (create 0 "a.ts" "class C { x: public y }".toList {} .usual).run
        [.children ⟨0, 0⟩, .children ⟨0, 1⟩], ∃ o ∈ d.setScope ⟨0, 4⟩ none,
        ∃ m, o.answer = .ok m ∧ m = ⟨0, 4⟩ ∧ o.document.isForgotten ⟨0, 4⟩ = true := by
      decide +kernel
    obtain ⟨d, hrun, o, ho, _, hm, rfl, hforgotten⟩ := hfound
    exact ⟨d, o, hrun, ho, hm, hforgotten⟩

end LiveEdit.Document
