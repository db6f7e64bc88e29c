import LiveEdit.Proofs.Document.Shape
import LiveEdit.Proofs.Parse.Modifying

/-! The wrapper that a modifier is set on stays, and its node changes in its modifiers only. -/

namespace LiveEdit

section
open List Option Site LiveEdit.Tree

variable {n : Nat} {k : Kind} {L L₁ L₂ : List Rank} {Y Z : List Tree} {m : Rank} {p : Kind → Bool}
  {q : Site → Bool}
  {c : Site} {s : Scope}

lemma Site.map_tree_row (n : Nat) (ts : List Tree) : (row n ts).map Site.tree = ts := by
  induction ts generalizing n with
  | nil => rfl
  | cons t ts ih => exact congrArg (t :: ·) (ih _)

lemma Site.tree_mem_of_row {ts : List Tree} (h : c ∈ row n ts) : c.tree ∈ ts :=
  map_tree_row n ts ▸ mem_map_of_mem h

namespace Rank

def marks : Nat → List Rank → List (Kind × Span)
  | _, [] => []
  | n, m :: L => (m.keyword.kind, .sized n m.tree.size) :: marks (n + sizeAll (trees [m])) L

lemma kinds_marks (n : Nat) (L : List Rank) : (marks n L).map Prod.fst = kinds L := by
  induction L generalizing n with
  | nil => rfl
  | cons m L ih => exact congrArg (m.keyword.kind :: ·) (ih _)

lemma marks_append (n : Nat) (L L' : List Rank) :
    marks n (L ++ L') = marks n L ++ marks (n + sizeAll (trees L)) L' := by
  induction L generalizing n with
  | nil => rfl
  | cons m L ih =>
    have hsize : sizeAll (trees (m :: L)) = sizeAll (trees [m]) + sizeAll (trees L) := by
      rw [← sizeAll_append, ← trees_append]
      rfl
    rw [cons_append, marks, ih, marks, cons_append, hsize, Nat.add_assoc]

lemma filter_marks_eq_nil_iff (n : Nat) :
    (marks n L).filter (fun j => p j.1) = [] ↔ ∀ j ∈ kinds L, p j = false := by
  rw [← kinds_marks n L, filter_eq_nil_iff, List.forall_mem_map]
  simp only [Bool.not_eq_true]

lemma find?_marks_eq_none (hL : ∀ j ∈ kinds L, p j = false) (n : Nat) :
    (marks n L).find? (fun j => p j.1) = none := by
  rw [find?_eq_none]
  exact filter_eq_nil_iff.1 ((filter_marks_eq_nil_iff n).2 hL)

lemma find?_marks (hL : ∀ j ∈ kinds L₁, p j = false) (hm : p m.keyword.kind = true)
    (n : Nat) (L₂ : List Rank) : (marks n (L₁ ++ m :: L₂)).find? (fun j => p j.1) =
      some (m.keyword.kind, .sized (n + sizeAll (trees L₁)) m.tree.size) := by
  rw [marks_append, find?_append, find?_marks_eq_none hL, none_or, marks]
  exact find?_cons_of_pos hm

lemma exists_first_rank (p : Kind → Bool) (L : List Rank) : (∀ j ∈ kinds L, p j = false) ∨
    ∃ L₁ m L₂, L = L₁ ++ m :: L₂ ∧ (∀ j ∈ kinds L₁, p j = false) ∧ p m.keyword.kind = true := by
  induction L with
  | nil => exact .inl (forall_mem_nil _)
  | cons m L ih =>
    cases hm : p m.keyword.kind with
    | true => exact .inr ⟨[], m, L, rfl, forall_mem_nil _, hm⟩
    | false =>
      rcases ih with hnone | ⟨L₁, m', L₂, rfl, hL₁, hm'⟩
      · exact .inl (forall_mem_cons.2 ⟨hm, hnone⟩)
      · exact .inr ⟨m :: L₁, m', L₂, rfl, forall_mem_cons.2 ⟨hm, hL₁⟩, hm'⟩

lemma token?_tree (hm : m.Proper) (n : Nat) :
    (⟨n, m.tree⟩ : Site).token? Kind.isModifierKeyword = some ⟨n, ofLeaf m.keyword.leaf⟩ := by
  have htokens : (⟨n, m.tree⟩ : Site).tokens = [⟨n, ofLeaf m.keyword.leaf⟩] := rfl
  rw [token?, htokens]
  exact find?_cons_of_pos hm.keyword

lemma modifiers_eq (hL : ∀ m ∈ L, m.Proper) (hY : ∀ y ∈ Y, y.isNode = true → y.kind ≠ .modifier) :
    (⟨n, .node k (trees L ++ Y)⟩ : Site).modifiers = marks n L := by
  change ((row n (trees L ++ Y)).filter (·.tree.isNode)).filterMap _ = marks n L
  induction L generalizing n with
  | nil =>
    refine filterMap_eq_nil_iff.2 fun c hc => if_neg ?_
    obtain ⟨hmem, hnode⟩ := mem_filter.1 hc
    exact hY c.tree (tree_mem_of_row hmem) hnode
  | cons m L ih =>
    obtain ⟨hm, hL⟩ := forall_mem_cons.1 hL
    have hfirst : (⟨n, m.tree⟩ : Site).kind = .modifier := rfl
    have hsize : n + m.tree.size + sizeAll ((m.behind.map Lexeme.leaf).map ofLeaf) =
        n + sizeAll (trees [m]) := by
      rw [trees_cons, sizeAll, sizeAll_append, Nat.add_assoc]
      rfl
    rw [trees_cons, cons_append, append_assoc, row, row_append, filter_cons_of_pos rfl,
      filter_append, nodes_leaves, nil_append, filterMap_cons, if_pos hfirst, token?_tree hm, ih hL,
      hsize, marks]
    rfl

lemma scopePosition_eq (hL : ∀ m ∈ L₁ ++ L₂, m.Proper) (hL₁ : ∀ j ∈ kinds L₁, j = .exportKeyword)
    (hL₂ : ∀ j ∈ (kinds L₂).head?, j ≠ .exportKeyword)
    (hY : ∃ y ∈ Y.head?, y.kind.isTrivia = false ∧ y.kind ≠ .modifier ∧ 0 < y.size) :
    Document.scopePosition ⟨n, .node k (trees (L₁ ++ L₂) ++ Y)⟩ = n + sizeAll (trees L₁) := by
  obtain ⟨hproper₁, hproper₂⟩ := forall_mem_append.1 hL
  unfold Document.scopePosition
  extract_lets stays
  have hkeyword : ∀ {m : Rank} (i : Nat), m.Proper →
      stays ⟨i, m.tree⟩ = (m.keyword.kind == .exportKeyword) := by
    intro m i hm
    simp only [stays, token?_tree hm]
    rfl
  have hfront : (row n (trees L₁)).find? (!stays ·) = none := by
    rw [find?_eq_none]
    intro c hc
    obtain ⟨m, hm, hmem⟩ := mem_flatMap.1 (tree_mem_of_row hc)
    have hstays : stays c = true := by
      obtain ⟨i, t⟩ := c
      rcases mem_cons.1 hmem with heq | hmem
      · obtain rfl : t = m.tree := heq
        rw [hkeyword i (hproper₁ m hm), hL₁ _ (mem_map_of_mem hm)]
        rfl
      · obtain ⟨l, hl, heq⟩ := mem_map.1 hmem
        obtain rfl : ofLeaf l = t := heq
        exact Bool.or_eq_true_iff.2 (.inl (trivia_behind (hproper₁ m hm) l hl))
    rw [hstays]
    exact Bool.false_ne_true
  have hback : ∃ t ts, trees L₂ ++ Y = t :: ts ∧ ∀ i, stays ⟨i, t⟩ = false := by
    cases L₂ with
    | nil =>
      obtain ⟨y, hy, htrivia, hmodifier, -⟩ := hY
      obtain ⟨ts, rfl⟩ := List.head?_eq_some_iff.1 hy
      refine ⟨y, ts, rfl, fun i => ?_⟩
      simp only [stays, Site.kind, htrivia, hmodifier, decide_false, Bool.false_and, Bool.or_self]
    | cons m L₂ =>
      refine ⟨m.tree, _, rfl, fun i => ?_⟩
      rw [hkeyword i (hproper₂ m mem_cons_self)]
      exact beq_eq_false_iff_ne.2 (hL₂ _ rfl)
  obtain ⟨t, ts, heq, hstays⟩ := hback
  have helements : (⟨n, .node k (trees (L₁ ++ L₂) ++ Y)⟩ : Site).elements =
      row n (trees L₁) ++ ⟨n + sizeAll (trees L₁), t⟩ ::
      row (n + sizeAll (trees L₁) + t.size) ts := by
    change row n (trees (L₁ ++ L₂) ++ Y) = _
    rw [trees_append, append_assoc, row_append, heq, row]
  rw [helements, find?_append, hfront, none_or, find?_cons_of_pos (by simp [hstays])]
  rfl

end Rank
end

namespace Document
open List hiding span
open Wrapper Rank Parse
open LiveEdit.Tree (sizeAll)
open Lexeme (spell spell_append)

variable {d : Document} {n : NodeId} {w : Wrapper} {a : Address} {k kw : Kind} {U R : List Lexeme}
  {L L' L₁ L₂ : List Rank} {Y : List Tree} {t t' x r r' y : Text} {m : Manipulation} {l : Rank}
  {site : Site}
  {p : Kind → Bool} {i : Nat}

structure Located (d : Document) (n : NodeId) (w : Wrapper) (a : Address) (site : Site) : Prop where
  sound : d.Sound
  usual : d.reader = .usual
  node : d.node n = .ok w
  site : w.site = site
  address : d.address w = a

lemma Located.at? (h : Located d n w a site) : (ofText d.text).site.at? a = some site := by
  rw [← h.sound.tree_usual h.usual, ← h.address, ← h.site]
  exact (h.sound.attached (h.sound.node_eq_ok.1 h.node).2.1).node

lemma Located.kind_eq (h : Located d n w a site) : w.kind = site.kind := congrArg Site.kind h.site

lemma Located.exists_modified (h : Located d n w a site) (hk : site.kind.isModified = true) :
    ∃ U L R Y, site = ⟨(spell U).size, .node site.kind (trees L ++ Y)⟩ ∧
    Modified d.text a site.kind U L R Y :=
  Parse.exists_modified h.at? hk

lemma Located.exists_turned (h : Located d n w a ⟨(spell U).size, .node k (trees L ++ Y)⟩)
    (hturns : Turns d.text t' a k U L L' R Y x r r' y)
    (hedit : m.edit? d.text = some (Turns.edit U x r r')) :
    ∃ new log w', d.change n w (some m) = some ⟨.ok n, new, log⟩ ∧ new.text = t' ∧
    Located new n w' a ⟨(spell U).size, .node k (trees L' ++ Y)⟩ := by
  obtain ⟨hdocument, hmem, hindex⟩ := h.sound.node_eq_ok.1 h.node
  obtain ⟨l, hl⟩ := exists_trail hmem
  have hordinals : ordinals l = a := (h.sound.address_eq hl).symm.trans h.address
  have hcommit := commit_eq_advance hedit (hturns.touches []).alters.some hturns.result w.index
  rw [hl.trail? h.sound.nodup, Option.getD_some] at hcommit
  have htouches : Carrier.Touches ⟨Turns.edit U x r r', l.map Wrapper.index⟩ (0 + (spell U).size)
      (.node k (trees L ++ Y)) (.node k (trees L' ++ Y)) := by
    rw [Nat.zero_add]
    exact hturns.touches _
  obtain ⟨root, l', v, hkept, -, hl', hindex', hordinals'⟩ :=
    Carrier.exists_kept_focused hturns.replaced htouches h.sound.bound (h.sound.tree_usual h.usual)
    hl (hordinals ▸ prefix_rfl) fun u hu => mem_map_of_mem hu
  have hcarried : (d.carried (l.map Wrapper.index) (Turns.edit U x r r') t').kept = [root] := by
    rw [carried, h.usual]
    exact hkept
  have hsound := h.sound.advance (l.map Wrapper.index) m (Turns.edit U x r r') t'
  rw [← h.sound.root_advance hcarried m] at hl'
  have hat := hsound.bound.at? hl'
  rw [hordinals', hordinals] at hat
  have hnew := (Site.at?_replaced hturns.replaced rfl rfl 0).2
  rw [Nat.zero_add] at hnew
  have hsite : some v.site = some ⟨(spell U).size, .node k (trees L' ++ Y)⟩ := by
    rw [← hat, ← hnew]
    exact congrArg (Site.at? · a) (hsound.tree_usual h.usual)
  have hchange : d.change n w (some m) =
      (some (d.advance (l.map Wrapper.index) m (Turns.edit U x r r') t')).map fun c =>
      ⟨.ok n, c.1, c.2⟩ := by
    rw [change, hcommit]
    rfl
  refine ⟨_, _, v, hchange, rfl, hsound, h.usual, ?_, Option.some.inj hsite, ?_⟩
  · exact hsound.node_eq_ok.2 ⟨hdocument, hl'.mem, hindex'.trans hindex⟩
  · rw [hsound.address_eq hl', hordinals', hordinals]

lemma modifiable_eq {feature : Feature} {accepts : ModifierRole → Bool}
    (hn : d.node n = .ok w) (hk : w.kind.capabilities.modifiers.any accepts = true) :
    d.modifiable n feature accepts = .ok w := by
  rw [modifiable, hn]
  exact if_pos hk

lemma Located.scope_eq (h : Located d n w a ⟨i, .node k (trees L ++ Y)⟩)
    (hk : k.capabilities.modifiers.any ModifierRole.acceptsScope = true)
    (hL : ∀ l ∈ L, l.Proper) (hY : ∀ y ∈ Y, y.isNode = true → y.kind ≠ .modifier) :
    d.scope n = .ok ((kinds L).findSome? Scope.ofKeyword?) := by
  have hkind : w.kind = k := h.kind_eq
  rw [scope, modifiable_eq h.node (hkind ▸ hk), ← kinds_marks i L, findSome?_map,
    ← modifiers_eq hL hY, ← h.site]
  rfl

lemma Located.isExported_eq (h : Located d n w a ⟨i, .node k (trees L ++ Y)⟩)
    (hk : k.capabilities.modifiers.any ModifierRole.acceptsExport = true) (hL : ∀ l ∈ L, l.Proper)
    (hY : ∀ y ∈ Y, y.isNode = true → y.kind ≠ .modifier) :
    d.isExported n = .ok ((kinds L).any (· == .exportKeyword)) := by
  have hkind : w.kind = k := h.kind_eq
  rw [isExported, modifiable_eq h.node (hkind ▸ hk), ← kinds_marks i L, any_map,
    ← modifiers_eq hL hY, ← h.site]
  rfl

lemma edit?_dropModifier {b c z : Text}
    {span : Span} (hstart : x.size = span.start) (hsize : c.size = span.size)
    (hz : ∀ a ∈ z, Text.isSpace a = true) (hb : ∀ a ∈ b.head?, Text.isSpace a = false) :
    (dropModifier span).edit? (x ++ ((c ++ z) ++ b)) = some ⟨x.size, (c ++ z).size, []⟩ := by
  have hback : (z ++ b).dropWhile Text.isSpace = b := by
    rw [Text.dropWhile_append_of_head hb, List.dropWhile_eq_nil_iff.2 hz, nil_append]
  obtain ⟨e, hedit, hposition, hremoved, hinserted, -⟩ :=
    Removal.exists_edit? (r := ⟨span, { spacesAfter := true }, []⟩) (b := z ++ b) hstart hsize
  obtain ⟨position, removed, inserted⟩ := e
  have hfront : position = x.size := hposition
  have htotal : position + removed + Text.size ((z ++ b).dropWhile Text.isSpace) =
      (x ++ (c ++ (z ++ b))).size := hremoved
  rw [hback] at htotal
  simp only [Text.size_append] at htotal
  have hcount : removed = (c ++ z).size := by
    rw [Text.size_append]
    omega
  obtain rfl : inserted = [] := hinserted
  rw [append_assoc, ← hfront, ← hcount]
  exact hedit

lemma size_sized (start size : Nat) : (Span.sized start size).size = size :=
  Nat.add_sub_cancel_left ..

lemma edit?_drop (h : Turns t t' a k U (L₁ ++ l :: L₂)
      L' R Y (spell (lexemes L₁)) (l.keyword.text ++ (spell l.behind).takeWhile Text.isSpace)
      [] ((spell l.behind).dropWhile Text.isSpace ++ spell (lexemes L₂)))
    (hnext : ∃ u ∈ (lexemes L₂ ++ R).head?, u.kind ∈ Lexeme.words) :
    (dropModifier (.sized ((spell U).size + sizeAll (trees L₁)) l.tree.size)).edit? t =
      some (Turns.edit U (spell (lexemes L₁))
      (l.keyword.text ++ (spell l.behind).takeWhile Text.isSpace) []) := by
  have hlexed : Lexeme.ofText t = (U ++ lexemes (L₁ ++ [l])) ++ (lexemes L₂ ++ R) := by
    rw [h.old, lexemes_append, lexemes_append, lexemes_cons]
    simp [lexemes]
  obtain ⟨-, ⟨c, b, hstart, hc⟩, -⟩ := Lexeme.exists_reword hlexed hnext
  rw [spell_append] at hstart
  rw [h.text, append_assoc (dropWhile ..), hstart]
  refine edit?_dropModifier ?_ ?_ (fun a ha => mem_takeWhile_imp ha) fun a ha => ?_
  · rw [Text.size_append, ← sizeAll_trees]
    rfl
  · rw [size_sized]
    rfl
  · -- the spaces end here, or the word does not start with one
    rw [head?_append] at ha
    cases hfirst : (dropWhile Text.isSpace (spell l.behind)).head? with
    | none =>
      rw [hfirst] at ha
      obtain rfl := Option.some.inj ha
      exact Lexeme.not_space_of_start hc
    | some b =>
      rw [hfirst] at ha
      exact Lexeme.head?_dropWhile Text.isSpace _ a (hfirst.trans ha)

lemma Located.exists_added (h : Located d n w a ⟨(spell U).size, .node k (trees (L₁ ++ L₂) ++ Y)⟩)
    (hm : Modified d.text a k U (L₁ ++ L₂) R Y) (hkw : kw.isModifierKeyword = true) :
    ∃ new log w', d.change n w (some (addModifier ((spell U).size + sizeAll (trees L₁)) kw)) =
      some ⟨.ok n, new, log⟩ ∧
    Located new n w' a ⟨(spell U).size, .node k (trees (L₁ ++ added kw :: L₂) ++ Y)⟩ ∧
    ∃ new' log' w'', new.change n w'
      (some (dropModifier (.sized ((spell U).size + sizeAll (trees L₁)) (added kw).tree.size))) =
      some ⟨.ok n, new', log'⟩ ∧ new'.text = d.text ∧
    Located new' n w'' a ⟨(spell U).size, .node k (trees (L₁ ++ L₂) ++ Y)⟩ := by
  obtain ⟨t', hturns⟩ := hm.exists_adds hkw
  have hedit : (addModifier ((spell U).size + sizeAll (trees L₁)) kw).edit? d.text =
      some (Turns.edit U (spell (lexemes L₁)) [] (kw.spelling ++ [' '])) := by
    rw [Turns.edit, Text.size_append, ← sizeAll_trees]
    rfl
  obtain ⟨new, log, w', hchange, rfl, hlocated⟩ := h.exists_turned hturns hedit
  obtain ⟨new', log', w'', hback, htext, hagain⟩ :=
    hlocated.exists_turned hturns.symm (edit?_drop hturns.symm hm.exists_word_behind)
  exact ⟨new, log, w', hchange, hlocated, new', log', w'', hback, htext, hagain⟩

section

variable (h : Located d n w a ⟨(spell U).size, .node k (trees (L₁ ++ l :: L₂) ++ Y)⟩)
  (hm : Modified d.text a k U (L₁ ++ l :: L₂) R Y)
include h hm

lemma Located.exists_swapped (hkw : kw.isModifierKeyword = true) : ∃ new log w', d.change n w
      (some (.replace (.sized ((spell U).size + sizeAll (trees L₁)) l.tree.size) kw.spelling)) =
      some ⟨.ok n, new, log⟩ ∧
    Located new n w' a ⟨(spell U).size, .node k (trees (L₁ ++ l.swapped kw :: L₂) ++ Y)⟩ := by
  obtain ⟨t', hturns⟩ := hm.exists_swaps hkw
  have hedit : (Manipulation.replace (.sized ((spell U).size + sizeAll (trees L₁)) l.tree.size)
      kw.spelling).edit? d.text =
        some (Turns.edit U (spell (lexemes L₁)) l.keyword.text kw.spelling) := by
    rw [Turns.edit, Text.size_append, ← sizeAll_trees, Manipulation.replace, size_sized]
    rfl
  obtain ⟨new, log, w', hchange, -, hlocated⟩ := h.exists_turned hturns hedit
  exact ⟨new, log, w', hchange, hlocated⟩

lemma Located.exists_dropped (hspaces : L₁ = [] → ∀ c ∈ spell l.behind, Text.isSpace c = true)
    (hsoft : k.isClassMember = true → L₁ = [] → L₂ = [] → ∀ x ∈ d.diagnostics,
      x.position.offset = (spell U).size → x.isForWord = false) : ∃ new log w' L', d.change n w
      (some (dropModifier (.sized ((spell U).size + sizeAll (trees L₁)) l.tree.size))) =
      some ⟨.ok n, new, log⟩ ∧ (∀ l' ∈ L', l'.Proper) ∧ kinds L' = kinds L₁ ++ kinds L₂ ∧
    Located new n w' a ⟨(spell U).size, .node k (trees L' ++ Y)⟩ := by
  rw [h.sound.diagnostics_usual h.usual] at hsoft
  obtain ⟨t', L', hproper, hkinds, hturns⟩ := hm.exists_drops hspaces hsoft
  have hnext : ∃ u ∈ (lexemes L₂ ++ R).head?, u.kind ∈ Lexeme.words := by
    have hsplit : L₁ ++ l :: L₂ = (L₁ ++ [l]) ++ L₂ := by simp
    exact Modified.exists_word_behind (hsplit ▸ hm)
  obtain ⟨new, log, w', hchange, -, hlocated⟩ := h.exists_turned hturns (edit?_drop hturns hnext)
  exact ⟨new, log, w', L', hchange, hproper, hkinds, hlocated⟩

end
end Document
end LiveEdit
