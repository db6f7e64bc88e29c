import LiveEdit.Document.Editing
import LiveEdit.Proofs.Parse.Plots
import LiveEdit.Proofs.Wrapper.Growing

namespace LiveEdit
open Option
open List hiding count

namespace Site
open LiveEdit.Tree

variable {a : Address} {n : Nat} {k : Kind} {F M G ts : List Tree} {s list : Site}

lemma nodes_frame (hframe : Frame a k F G) (n : Nat) : (⟨n, .node k (F ++ (M ++ G))⟩ : Site).nodes =
      (row (n + sizeAll F) M).filter (·.tree.isNode) := by
  have hends : ∀ m, (row m F).filter (·.tree.isNode) = [] ∧
      (row m G).filter (·.tree.isNode) = [] := by
    intro m
    cases hframe with
    | file => exact ⟨rfl, rfl⟩
    | block x y => exact ⟨rfl, rfl⟩
  rw [nodes, elements, children, row_append, row_append, filter_append, filter_append,
    (hends _).1, (hends _).2, nil_append, append_nil]

lemma statements_frame (hframe : Frame a k F G) (hM : ∀ u ∈ M, Item u) (n : Nat) :
    (⟨n, .node k (F ++ (M ++ G))⟩ : Site).statements =
      (row (n + sizeAll F) M).filter (·.tree.isNode) := by
  rw [statements, nodes_frame hframe]
  apply filter_eq_self.2
  intro c hc
  obtain ⟨hrow, hnode⟩ := mem_filter.1 hc
  exact (hM c.tree (mem_children_of_row hrow)).isStatement hnode

lemma trivia_of_tokens {c : Site} (hM : ∀ u ∈ M, Item u)
    (hc : c ∈ (row n M).filter (!·.tree.isNode)) : c.kind.isTrivia = true := by
  obtain ⟨hrow, hnode⟩ := mem_filter.1 hc
  obtain ⟨m, u⟩ := c
  cases hM u (mem_children_of_row hrow) with
  | trivia x kind => exact kind
  | statement us kind => cases hnode

lemma braces?_file (hM : ∀ u ∈ M, Item u) (n : Nat) :
    (⟨n, .node .sourceFile M⟩ : Site).braces? = none := by
  have hnone : (⟨n, .node .sourceFile M⟩ : Site).tokens.dropWhile (·.kind != .leftCurly) = [] := by
    apply dropWhile_eq_nil_iff.2
    intro c hc
    have hkind := trivia_of_tokens hM hc
    apply bne_iff_ne.2
    intro hleft
    rw [hleft] at hkind
    cases hkind
  rw [braces?, hnone]

lemma braces?_block (hM : ∀ u ∈ M, Item u) (n : Nat) (x y : Text) :
    (⟨n, .node .block ([.token .leftCurly x] ++ (M ++ [.token .rightCurly y]))⟩ : Site).braces? =
      some (⟨n, .token .leftCurly x⟩, ⟨n + x.size + sizeAll M, .token .rightCurly y⟩) := by
  have htokens :
      (⟨n, .node .block ([.token .leftCurly x] ++ (M ++ [.token .rightCurly y]))⟩ : Site).tokens =
      ⟨n, .token .leftCurly x⟩ :: ((row (n + x.size) M).filter (!·.tree.isNode) ++
        [⟨n + x.size + sizeAll M, .token .rightCurly y⟩]) := by
    rw [tokens, elements, children, singleton_append, row, row_append, filter_cons_of_pos rfl,
      filter_append]
    rfl
  -- The tokens between the braces are trivia, so the search for the right brace passes over them.
  have hinner :
      ((row (n + x.size) M).filter (!·.tree.isNode)).find? (·.kind == .rightCurly) = none := by
    apply List.find?_eq_none.2
    intro c hc hright
    have hkind := trivia_of_tokens hM hc
    rw [eq_of_beq hright] at hkind
    cases hkind
  have hdrop : (⟨n, .node .block ([.token .leftCurly x] ++ (M ++ [.token .rightCurly y]))⟩ :
      Site).tokens.dropWhile (·.kind != .leftCurly) = ⟨n, .token .leftCurly x⟩ ::
        ((row (n + x.size) M).filter (!·.tree.isNode) ++
          [⟨n + x.size + sizeAll M, .token .rightCurly y⟩]) := by
    rw [htokens]
    rfl
  rw [braces?, hdrop]
  dsimp only
  rw [find?_append, hinner]
  rfl

lemma exists_of_find? {place : BlockPlace} (h : place.find? s = some list) :
    ∃ b, s.at? b = some list ∧ ∀ o' m u', o'.isNode = true → o'.kind = list.kind →
      Replaced list.tree o' b m s.tree u' → place.find? ⟨s.start, u'⟩ = some ⟨s.start + m, o'⟩ := by
  cases place with
  | own =>
    obtain rfl := some.inj h
    refine ⟨[], rfl, fun o' m u' _ _ hr => ?_⟩
    obtain ⟨-, rfl, rfl⟩ := hr.root
    rfl
  | inner =>
    obtain ⟨hblock, before, after, hnodes, hbefore⟩ := List.find?_eq_some_iff_append.1 h
    have hlist : s.nodes[before.length]? = some list := by
      rw [hnodes, getElem?_append_right (Nat.le_refl _), Nat.sub_self]
      rfl
    refine ⟨[before.length], by rw [at?, hlist]; rfl, fun o' m u' ho' hkind hr => ?_⟩
    have hnode : list.tree.isNode = true := (mem_filter.1 (mem_of_getElem? hlist)).2
    obtain ⟨start, tree⟩ := s
    generalize hb : [before.length] = b at hr
    cases hr with
    | here => cases hb
    | @inside a l u u'' A B k inner =>
      obtain ⟨hcount, rfl⟩ := cons.inj hb
      obtain ⟨rfl, rfl, rfl⟩ := inner.root
      rw [nodes_cons_at start k A B hnode] at hnodes
      -- The nodes before the block are the same as they were, and none of them is a block.
      obtain ⟨hA, -⟩ := append_inj hnodes ((length_nodes _ _).trans hcount.symm)
      rw [BlockPlace.find?, node?, nodes_cons_at start k A B ho', hA, find?_append,
        List.find?_eq_none.2 (fun c hc => by simpa using hbefore c hc), none_or,
        find?_cons_of_pos]
      · rfl
      · exact (congrArg (· == Kind.block) hkind).trans hblock

end Site

namespace Parse
open LiveEdit.Tree Lexeme

variable {t : Text} {a : Address} {n : Nat} {k : Kind} {g : Text} {ss : List Tree}

namespace Plot

def list (p : Plot t a n k g ss) : Site :=
  ⟨n, .node k (p.opening ++ p.before ++ (p.gap ++ (p.after ++ p.closing)))⟩

def grown (p : Plot t a n k g ss) : Site :=
  ⟨n, .node k (p.opening ++ p.before ++ (p.bed ++ (p.after ++ p.closing)))⟩

lemma item_grown (p : Plot t a n k g ss) (hs : Sowable g ss) :
    ∀ u ∈ p.before ++ (p.bed ++ p.after), Item u := by
  intro u hu
  rcases mem_append.1 hu with hu | hu
  · exact p.items u (mem_append_left _ hu)
  · rcases mem_append.1 hu with hu | hu
    · rcases mem_of_mem_laid hu with hmem | ⟨k, x, rfl, hk⟩
      · exact (hs.stands u hmem).item
      · exact .trivia x hk
    · exact p.items u (mem_append_right _ (mem_append_right _ hu))

lemma mem_grown {c : Site} (p : Plot t a n k g ss)
    (hc : c ∈ (Site.row (p.offset + p.lead.size) (strewn g ss)).filter (·.tree.isNode)) :
    c ∈ p.grown.nodes := by
  have hlead : sizeAll (pad p.lead) = p.lead.size := by rw [sizeAll_eq_text, textAll_pad]
  have hsplit : p.bed ++ (p.after ++ p.closing) =
      pad p.lead ++ (strewn g ss ++ (pad p.trail ++ (p.after ++ p.closing))) := by
    rw [bed, laid, append_assoc, append_assoc]
  rw [Site.nodes, Site.elements, grown, hsplit, children, Site.row_append, filter_append]
  apply mem_append_right
  rw [Site.row_append, filter_append, hlead]
  apply mem_append_right
  rw [Site.row_append, filter_append]
  exact mem_append_left _ hc

lemma texts_of_items (p : Plot t a n k g ss)
    {Z : List Tree} (hZ : ∀ u ∈ p.before ++ (Z ++ p.after), Item u) :
    (⟨n, .node k (p.opening ++ p.before ++ (Z ++ (p.after ++ p.closing)))⟩ : Site).statements.map
      Site.text = (p.before.filter isNode).map Tree.text ++
      ((Z.filter isNode).map Tree.text ++ (p.after.filter isNode).map Tree.text) := by
  have hsplit : p.opening ++ p.before ++ (Z ++ (p.after ++ p.closing)) =
      p.opening ++ ((p.before ++ (Z ++ p.after)) ++ p.closing) := by
    simp only [append_assoc]
  rw [hsplit, Site.statements_frame p.frame hZ, Site.texts_row, filter_append, filter_append,
    map_append, map_append]

lemma texts_grown (p : Plot t a n k g ss) (hs : Sowable g ss) :
    p.grown.statements.map Site.text = (p.list.statements.map Site.text).take (count p.before) ++
      (ss.map Tree.text ++ (p.list.statements.map Site.text).drop (count p.before)) := by
  have hgap : p.gap.filter isNode = [] := filter_eq_nil_iff.2 (countP_eq_zero.1 p.trivia)
  have hlength : count p.before = ((p.before.filter isNode).map Tree.text).length := by
    rw [length_map, count, countP_eq_length_filter]
  rw [grown, list, p.texts_of_items (p.item_grown hs), p.texts_of_items p.items, bed,
    filter_laid hs.stands, hgap, hlength, take_left, drop_left]
  rfl

end Plot

structure Plot.Sows (p : Plot t a n k g ss) (e : Edit) : Prop where
  result : e.result? t = some p.text
  alters : ∀ focus, Carrier.Alters ⟨e, focus⟩ p.offset (sizeAll p.gap) (sizeAll p.bed)

lemma Sowable.text_ne_nil (hs : Sowable g ss) : intercalate g (ss.map Tree.text) ≠ [] := by
  obtain ⟨s, ss, rfl⟩ := exists_cons_of_ne_nil hs.some
  obtain ⟨us, hus⟩ := exists_strewn g s ss
  rw [← textAll_strewn, hus]
  intro hnil
  exact (hs.stands s mem_cons_self).text_ne_nil (append_eq_nil_iff.1 hnil).1

lemma Planted.replaces {A X B Y : List Tree} {uA uX uB : List Lexeme}
    {tree : Tree} (h : Planted t a n k A X B Y uA uX uB tree) (hne : textAll Y ≠ []) :
    (⟨n + sizeAll A, sizeAll X, textAll Y⟩ : Edit).result? t = some (plant uA Y uB) ∧
    ∀ focus, Carrier.Alters ⟨⟨n + sizeAll A, sizeAll X, textAll Y⟩, focus⟩ (n + sizeAll A)
      (sizeAll X) (sizeAll Y) := by
  constructor
  · have hresult := Edit.result?_append (e := ⟨n + sizeAll A, sizeAll X, textAll Y⟩) (spell uA)
      (textAll X) (spell uB) h.place (sizeAll_eq_text _).symm
    rw [← h.text] at hresult
    exact hresult
  · intro focus
    refine ⟨le_rfl, le_rfl, ?_, ?_⟩
    · rw [sizeAll_eq_text Y]
      exact Nat.add_comm _ _
    · simp [Edit.isEmpty, hne]

lemma Plot.sows_replace (p : Plot t a n k g ss) (hs : Sowable g ss) :
    p.Sows ⟨p.offset, sizeAll p.gap, p.lead ++ (intercalate g (ss.map Tree.text) ++ p.trail)⟩ := by
  have hbed := textAll_laid p.lead g p.trail ss
  rw [← hbed]
  have hne : textAll (laid p.lead g p.trail ss) ≠ [] := by simp [hbed, hs.text_ne_nil]
  obtain ⟨hresult, halters⟩ := p.planted.replaces hne
  exact ⟨hresult, halters⟩

section

variable {F M G : List Tree} {c : Site} {i : Nat} (hs : Sowable g ss)
  (hclean : (ofText t).diagnostics = [])
  (hat : (ofText t).site.at? a = some ⟨n, .node k (F ++ (M ++ G))⟩) (hframe : Frame a k F G)
  (hM : ∀ u ∈ M, Item u) (hc : ((Site.row (n + sizeAll F) M).filter (·.tree.isNode))[i]? = some c)
include hs hclean hat hframe hM hc

omit hclean in
lemma exists_sows_behind (hcloses : c.tree.closes = true) : ∃ p : Plot t a n k g ss, p.gap = [] ∧
    count p.before = i + 1 ∧ p.offset + p.lead.size = c.span.stop + g.size ∧
    p.Sows ⟨c.span.stop, 0, g ++ intercalate g (ss.map Tree.text)⟩ := by
  have hnode : c.tree.isNode = true := (mem_filter.1 (mem_of_getElem? hc)).2
  obtain ⟨P, S, rfl, hP, hstart⟩ := Site.exists_split hc
  obtain ⟨m, hm, hmark⟩ := exists_of_closes hcloses
  obtain ⟨p, hopening, hbefore, hgap, -, hlead, htrail⟩ :=
    exists_plot_behind hs hat hframe hM hm hmark
  have hoffset : p.offset = c.span.stop := by
    rw [Plot.offset, hopening, hbefore, Site.span_stop, hstart, sizeAll_append, sizeAll_append]
    simp only [sizeAll]
    omega
  have hsows := p.sows_replace hs
  rw [hoffset, hgap, hlead, htrail, append_nil] at hsows
  refine ⟨p, hgap, ?_, by rw [hoffset, hlead], hsows⟩
  rw [hbefore, count, countP_append, countP_singleton, ← count, hP, hnode]
  rfl

lemma exists_sows_before (hended : ∀ P, P <+: M → count P = i → Ended P) :
    ∃ p : Plot t a n k g ss, p.gap = [] ∧ count p.before = i ∧ p.offset + p.lead.size = c.start ∧
      p.Sows ⟨c.start, 0, intercalate g (ss.map Tree.text) ++ g⟩ := by
  have hnode : c.tree.isNode = true := (mem_filter.1 (mem_of_getElem? hc)).2
  obtain ⟨P, S, rfl, hP, hstart⟩ := Site.exists_split hc
  obtain ⟨p, hopening, hbefore, hgap, -, hlead, htrail⟩ :=
    exists_plot_before hs hclean hat hframe hM (hended P (prefix_append _ _) hP) hnode
  have hoffset : p.offset = c.start := by
    rw [Plot.offset, hopening, hbefore, hstart, sizeAll_append, Nat.add_assoc]
  have hsows := p.sows_replace hs
  rw [hoffset, hgap, hlead, htrail, nil_append] at hsows
  exact ⟨p, hgap, hbefore ▸ hP, by rw [hoffset, hlead]; rfl, hsows⟩

end

lemma Plot.sows_append {q : Text} (p : Plot t [] n k g ss)
    (hs : Sowable g ss) (hafter : p.after = []) (hlead : p.lead = textAll p.gap ++ q) :
    p.Sows ⟨t.size, 0, q ++ (intercalate g (ss.map Tree.text) ++ p.trail)⟩ ∧
    t.size + q.size = p.offset + p.lead.size := by
  have hplace : (spell p.uA).size = p.offset := p.planted.place
  have hend : spell p.uB = [] := by
    have hplanted := p.planted
    rw [hafter, p.frame.root.2] at hplanted
    exact hplanted.spell_after
  have htext := p.planted.text
  rw [hend, append_nil] at htext
  have hbed := textAll_laid p.lead g p.trail ss
  rw [← Plot.bed] at hbed
  have hsize := congrArg Text.size htext
  rw [Text.size_append, hplace] at hsize
  have hgap := sizeAll_eq_text p.gap
  -- The edit leaves the gap as it is. The plot replaces it, by something that begins with it.
  have hnew : p.text = t ++ (q ++ (intercalate g (ss.map Tree.text) ++ p.trail)) := by
    have hsame : p.text = (spell p.uA ++ textAll p.gap) ++
        (q ++ (intercalate g (ss.map Tree.text) ++ p.trail)) := by
      rw [Plot.text, plant, hbed, hend, hlead]
      simp only [append_nil, append_assoc]
    rw [hsame, ← htext]
  have hlead' := congrArg Text.size hlead
  rw [Text.size_append] at hlead'
  refine ⟨⟨?_, fun focus => ⟨?_, ?_, ?_, ?_⟩⟩, by omega⟩
  · have hresult := Edit.result?_append
      (e := ⟨t.size, 0, q ++ (intercalate g (ss.map Tree.text) ++ p.trail)⟩) t [] [] rfl rfl
    rw [append_nil, append_nil, append_nil] at hresult
    rw [hnew]
    exact hresult
  · change p.offset ≤ t.size
    omega
  · change t.size + 0 ≤ p.offset + sizeAll p.gap
    omega
  · rw [sizeAll_eq_text p.bed, hbed]
    simp only [Text.size_append]
    omega
  · simp [Edit.isEmpty, hs.text_ne_nil]

end Parse

namespace Document
open LiveEdit.Tree Parse Text

variable {d : Document} {a : Address} {n index : Nat} {k : Kind} {lead close : Text}
  {ss cs : List Tree}

structure Places (d : Document) (cs : List Tree) (index : Nat) (close : Text)
    {a : Address} {n : Nat}
    {k : Kind} {lead : Text} {ss : List Tree} (i : Insertion) (e : Edit)
    (p : Plot d.text a n k lead ss) :
    Prop where
  insertion : d.statementInsertion ⟨n, .node k cs⟩ index lead close
    (intercalate lead (ss.map Tree.text)) = .ok i
  edit : i.manipulation.edit? d.text = some e
  sows : p.Sows e
  start : i.start = p.offset + p.lead.size
  before : count p.before = index

variable {F M G P S : List Tree} {s : Tree} {list first previous left right : Site}
  {more : List Site} {i : Nat}
  {joined : Text}

lemma statementInsertion_zero (h : list.statements = first :: more) : d.statementInsertion list 0
      lead close joined = .ok ⟨.insert first.start (joined ++ lead), 0⟩ := by
  unfold statementInsertion
  rw [h]
  rfl

lemma statementInsertion_succ (h : list.statements[i]? = some previous) : d.statementInsertion list
      (i + 1) lead close joined = .ok ⟨.insert previous.span.stop (lead ++ joined), lead.size⟩ := by
  unfold statementInsertion
  cases hlist : list.statements with
  | nil =>
    rw [hlist] at h
    cases h
  | cons first more =>
    rw [hlist] at h
    dsimp only
    rw [h]
    rfl

lemma statementInsertion_block (h : list.statements = [])
    (hbraces : list.braces? = some (left, right)) (hle : left.span.stop ≤ right.start) :
    d.statementInsertion list index lead close joined = .ok ⟨.insertion left.span.stop
      (right.start - left.span.stop) (lead ++ joined ++ close), lead.size⟩ := by
  have hspan : bodySpan (left, right) = .ok ⟨left.span.stop, right.start, hle⟩ := by
    rw [bodySpan, Span.between?, dif_pos (show left.span.stop ≤ right.span.start from hle)]
    rfl
  unfold statementInsertion
  rw [h, hbraces]
  dsimp only
  rw [hspan]
  rfl

lemma statementInsertion_file (h : list.statements = []) (hbraces : list.braces? = none)
    (d : Document) (index : Nat) (lead close joined : Text) :
    ∃ gap : Text, (gap = [] ∧ (∀ c ∈ d.text.getLast?, c = '\n') ∨ gap = d.settings.newline.text) ∧
    d.statementInsertion list index lead close joined =
      .ok ⟨.insert d.text.size (gap ++ joined ++ d.settings.newline.text), gap.size⟩ := by
  refine ⟨if d.text.getLast?.all (· == '\n') then [] else d.settings.newline.text, ?_, ?_⟩
  · split_ifs with hlast
    · refine .inl ⟨rfl, fun c hc => ?_⟩
      rw [mem_def.1 hc] at hlast
      exact eq_of_beq hlast
    · exact .inr rfl
  · unfold statementInsertion
    rw [h, hbraces]
    rfl

section

variable (hs : Sowable lead ss) (hclean : (ofText d.text).diagnostics = [])
  (hat : (ofText d.text).site.at? a = some ⟨n, .node k (F ++ (M ++ G))⟩)
  (hframe : Frame a k F G) (hM : ∀ u ∈ M, Item u)
include hs hclean hat hframe hM

lemma places_front (hnodes : (⟨n, .node k (F ++ (M ++ G))⟩ : Site).statements = first :: more) :
    ∃ i e, ∃ p : Plot d.text a n k lead ss, Places d (F ++ (M ++ G)) 0 close i e p := by
  have hrow := hnodes
  rw [Site.statements_frame hframe hM] at hrow
  have hfirst :
      ((Site.row (n + sizeAll F) M).filter (·.tree.isNode))[0]? = some first := by rw [hrow]; rfl
  obtain ⟨p, -, hbefore, hplace, hsows⟩ := exists_sows_before hs hclean hat hframe hM hfirst
    fun P _ hP => ⟨[], P, rfl, hP, .inl rfl⟩
  exact ⟨_, _, p, statementInsertion_zero hnodes, rfl, hsows, hplace.symm, hbefore⟩

omit hclean in
lemma places_behind (hprevious : (⟨n, .node k (F ++ (M ++ G))⟩ : Site).statements[i]? =
      some previous) (hcloses : previous.tree.closes = true) :
    ∃ j e, ∃ p : Plot d.text a n k lead ss, Places d (F ++ (M ++ G)) (i + 1) close j e p := by
  have hrow := hprevious
  rw [Site.statements_frame hframe hM] at hrow
  obtain ⟨p, -, hbefore, hplace, hsows⟩ := exists_sows_behind hs hat hframe hM hrow hcloses
  exact ⟨_, _, p, statementInsertion_succ hprevious, rfl, hsows, hplace.symm, hbefore⟩

end

lemma places_between {x y : Text} {j : Nat} (hs : Sowable lead ss) (hat : (ofText d.text).site.at?
      (j :: a) = some ⟨n, .node .block ([.token .leftCurly x] ++ (M ++ [.token .rightCurly y]))⟩)
    (hM : ∀ u ∈ M, Item u) (hcount : count M = 0) (hclose : close.Blank)
    (hnodes : (⟨n, .node .block ([.token .leftCurly x] ++ (M ++ [.token .rightCurly y]))⟩ :
      Site).statements = []) : ∃ i e, ∃ p : Plot d.text (j :: a) n .block lead ss,
      Places d ([.token .leftCurly x] ++ (M ++ [.token .rightCurly y])) 0 close i e p := by
  obtain ⟨p, hopening, hbefore, hgap, -, hlead, htrail⟩ :=
    exists_plot_between lead ss hat hM hcount hs.blank hclose
  have hoffset : p.offset = n + x.size := by
    rw [Plot.offset, hopening, hbefore]
    rfl
  have hsows := p.sows_replace hs
  rw [hoffset, hgap, hlead, htrail] at hsows
  refine ⟨_, _, p, statementInsertion_block hnodes (Site.braces?_block hM n x y)
    (Nat.le_add_right _ _), ?_, hsows, ?_, by rw [hbefore]; rfl⟩
  · have hsize : n + x.size + sizeAll M - (n + x.size) = sizeAll M := Nat.add_sub_cancel_left _ _
    change some (Edit.mk (n + x.size) (n + x.size + sizeAll M - (n + x.size)) _) = _
    rw [hsize, append_assoc]
  · rw [hoffset, hlead]
    rfl

lemma newline_text (w : Newline) : w.text.Blank ∧ ∃ c ∈ w.text.head?, isNewline c = true := by
  cases w with
  | lineFeed => exact ⟨all_eq_true.1 rfl, '\n', rfl, rfl⟩
  | carriageReturnLineFeed => exact ⟨all_eq_true.1 rfl, '\r', rfl, rfl⟩

lemma places_end (hs : Sowable lead ss) (hclean : (ofText d.text).diagnostics = [])
    (hat : (ofText d.text).site.at? [] = some ⟨n, .node .sourceFile M⟩) (hM : ∀ u ∈ M, Item u)
    (hcount : count M = 0) (hnodes : (⟨n, .node .sourceFile M⟩ : Site).statements = []) :
    ∃ i e, ∃ p : Plot d.text [] n .sourceFile lead ss, Places d M 0 close i e p := by
  obtain ⟨hblank, hnewline⟩ := newline_text d.settings.newline
  obtain ⟨gap, hgap, hinsertion⟩ := statementInsertion_file hnodes (Site.braces?_file hM n)
    d 0 lead close (intercalate lead (ss.map Tree.text))
  have hstart : gap.Blank ∧
      ((gap = [] ∧ ∀ c ∈ d.text.getLast?, c = '\n') ∨ ∃ c ∈ gap.head?, isNewline c = true) := by
    rcases hgap with ⟨rfl, hend⟩ | rfl
    · exact ⟨fun c hc => absurd hc not_mem_nil, .inl ⟨rfl, hend⟩⟩
    · exact ⟨hblank, .inr hnewline⟩
  obtain ⟨p, x, -, hbefore, hx, hafter, hlead, htrail⟩ :=
    exists_plot_end lead ss hclean hat hM hcount hstart.1 hblank hstart.2
  obtain ⟨hsows, hplace⟩ := p.sows_append hs hafter (hx ▸ hlead)
  rw [htrail] at hsows
  refine ⟨_, _, p, hinsertion, ?_, hsows, hplace, hbefore⟩
  rw [← append_assoc]
  rfl

lemma exists_places (hs : Sowable lead ss) (hclean : (ofText d.text).diagnostics = [])
    (hat : (ofText d.text).site.at? a = some ⟨n, .node k cs⟩) (hk : k = .sourceFile ∨ k = .block)
    (hclose : close.Blank) (hindex : index ≤ (⟨n, .node k cs⟩ : Site).statements.length)
    (hlast : ∀ s ∈ ((⟨n, .node k cs⟩ : Site).statements.take index).getLast?,
      s.tree.closes = true) :
    ∃ i e, ∃ p : Plot d.text a n k lead ss, Places d cs index close i e p := by
  obtain ⟨F, M, G, rfl, hframe, hM⟩ := exists_frame hclean hat hk
  cases index with
  | zero =>
    cases hnodes : (⟨n, .node k (F ++ (M ++ G))⟩ : Site).statements with
    | nil =>
      have hcount : count M = 0 := by
        rw [← Site.length_nodes (n + sizeAll F) M, ← Site.statements_frame hframe hM n, hnodes]
        rfl
      cases hframe with
      | file =>
        rw [nil_append, append_nil] at hat hnodes ⊢
        exact places_end hs hclean hat hM hcount hnodes
      | block x y => exact places_between hs hat hM hcount hclose hnodes
    | cons first more => exact places_front hs hclean hat hframe hM hnodes
  | succ i =>
    obtain ⟨previous, hprevious⟩ : ∃ c, (⟨n, .node k (F ++ (M ++ G))⟩ : Site).statements[i]? =
        some c := ⟨_, getElem?_eq_getElem hindex⟩
    refine places_behind hs hat hframe hM hprevious (hlast previous ?_)
    rw [take_add_one, hprevious]
    exact getLast?_concat

lemma spans_strewn (hss : ∀ s ∈ ss, s.isNode = true) (g : Text) (n : Nat) :
    ((Site.row n (strewn g ss)).filter (·.tree.isNode)).map Site.span =
      spread g.size n (ss.map Tree.text) := by
  induction ss generalizing n with
  | nil => rfl
  | cons s ss ih =>
    have hs := hss s mem_cons_self
    have hmore := ih fun u hu => hss u (mem_cons_of_mem s hu)
    have hspan : (⟨n, s⟩ : Site).span = .sized n s.text.size := by rw [Site.span, size_eq_text]
    cases ss with
    | nil =>
      have hrow : (Site.row n (strewn g [s])).filter (·.tree.isNode) = [⟨n, s⟩] :=
        filter_cons_of_pos hs
      rw [hrow, map_singleton, hspan]
      rfl
    | cons t ss =>
      rw [nodes_strewn_cons hs, map_cons, hmore, hspan, size_eq_text]
      rfl

end Document
end LiveEdit
