import LiveEdit.Proofs.Document.Grafting
import LiveEdit.Proofs.Document.Insertions
import LiveEdit.Proofs.Document.Safety

namespace LiveEdit

namespace Document
open List Option Wrapper Site LiveEdit.Tree Parse

structure Sown (d : Document) (e : Edit)
    {a : Address} {n : Nat} {k : Kind} {g : Text} {ss : List Tree}
    (p : Plot d.text a n k g ss) : Prop where
  graded : d.Graded
  usual : d.reader = .usual
  clean : d.diagnostics = []
  sowable : Sowable g ss
  sows : p.Sows e

namespace Sown

variable {d new : Document} {e : Edit} {a : Address} {n : Nat} {k : Kind} {g : Text}
  {ss : List Tree}
  {p : Plot d.text a n k g ss} {focus : List Nat} {m : Manipulation} {v : Wrapper}
  {l : List Wrapper}

lemma grafts (h : Sown d e p) :
    Grafts d e a n k (p.opening ++ p.before) p.gap (p.after ++ p.closing)
    p.bed p.uA p.uX p.uB p.tree where
  graded := h.graded
  usual := h.usual
  clean := h.clean
  planted := p.planted
  edges := by
    have hplanted := p.planted
    have hframe := p.frame
    generalize p.opening = F at hplanted hframe ⊢
    generalize p.closing = G at hplanted hframe ⊢
    cases hframe with
    | file => exact .inl rfl
    | block x y =>
      refine .inr ⟨hplanted.size_pos.1 (cons_ne_nil (Kind.leftCurly, x) _), hplanted.size_pos.2 ?_⟩
      rw [leavesAll_append]
      exact append_ne_nil_of_right_ne_nil _ (cons_ne_nil (Kind.rightCurly, y) _)
  parse := p.parse h.sowable ((h.graded.sound.diagnostics_usual h.usual).symm.trans h.clean)
  alters := h.sows.alters
  result := h.sows.result

lemma exists_list {b : Address} {place : BlockPlace}
    {i : NodeId} {w : Wrapper} {p : Plot d.text (d.address w ++ b) n k g ss}
    (h : Sown d e p) (hnew : new = (d.advance focus m e p.text).1) (hi : d.node i = .ok w)
    (hfind : ∀ o' l u', o'.isNode = true → o'.kind = p.list.kind → Replaced p.list.tree o'
      b l w.site.tree u' → place.find? ⟨w.site.start, u'⟩ = some ⟨w.site.start + l, o'⟩) :
    ∃ w', new.node i = .ok w' ∧ place.find? w'.site = some p.grown := by
  have hg := h.grafts
  obtain ⟨w', hw', hat'⟩ := hg.exists_node hnew hi (prefix_append _ _)
  rw [hg.tree_advance hnew] at hat'
  have hat : d.tree.at? (d.address w) = some w.site :=
    (hg.sound.attached (hg.sound.node_eq_ok.1 hi).2.1).node
  rw [hg.tree_eq] at hat
  obtain ⟨q, l, u, u', hway, hr, hsum⟩ := p.planted.replaced.split
  obtain ⟨hnode, hnode'⟩ := hr.isNode rfl rfl
  obtain ⟨hold, hgrown⟩ := at?_replaced hway hnode hnode' 0
  rw [Nat.zero_add] at hold hgrown
  have hsite : w.site = ⟨q, u⟩ := mem_unique hat hold
  have hsite' : w'.site = ⟨q, u'⟩ := mem_unique hat' hgrown
  rw [hsite] at hfind
  refine ⟨w', hw', ?_⟩
  have hfound : place.find? ⟨q, u'⟩ = some ⟨q + l, p.grown.tree⟩ :=
    hfind p.grown.tree l u' rfl rfl hr
  rw [hsite', hfound, ← hsum]
  rfl

section

variable (h : Sown d e p) (hnew : new = (d.advance focus m e p.text).1)
include h hnew

lemma clean_advance : new.diagnostics = [] :=
  h.grafts.clean_advance hnew

lemma not_forgotten {i : NodeId} (hi : d.node i = .ok v) : new.isForgotten i = false :=
  h.grafts.not_forgotten p.trivia hnew hi

lemma exists_at? {c : Site} (hc : c ∈ p.grown.nodes) : ∃ b, new.tree.at? b = some c := by
  obtain ⟨j, hj⟩ := mem_iff_getElem?.1 hc
  refine ⟨a ++ [j], ?_⟩
  have hlist : new.tree.at? a = some p.grown := by
    rw [h.grafts.tree_advance hnew]
    exact h.grafts.at?.2
  rw [at?_concat hlist, hj]

lemma exists_answers : ∃ done ids,
      new.standInAll Kind.isStatement (spread g.size (p.offset + p.lead.size) (ss.map Tree.text)) =
      some (done, ids) ∧ Wraps new done ∧ List.Forall₂ (fun i s => ∃ v, done.node i = .ok v ∧
      v.kind.isStatement = true ∧ done.textOf? v = some (Tree.text s)) ids ss := by
  have hgraded : new.Graded := hnew ▸ h.graded.advance focus m e p.text
  have hkeeps : Keeps new.reader := h.grafts.keeps_advance hnew
  have hnodes : ∀ s ∈ ss, s.isNode = true := fun s hs => (h.sowable.stands s hs).isNode
  have hspans := spans_strewn hnodes g (p.offset + p.lead.size)
  have htrees := (trees_row (p.offset + p.lead.size) (strewn g ss)).trans (filter_strewn hnodes g)
  generalize hsites : (row (p.offset + p.lead.size) (strewn g ss)).filter (·.tree.isNode) = cs
    at hspans htrees
  have hcs : ∀ c ∈ cs, (∃ b, new.tree.at? b = some c) ∧ c.kind.isStatement = true ∧
      c.span.start < c.span.stop := by
    intro c hc
    have hstands := h.sowable.stands c.tree (htrees ▸ mem_map_of_mem hc)
    rw [← hsites] at hc
    exact ⟨h.exists_at? hnew (p.mem_grown hc), hstands.kind,
      span_pos_of_firm hstands.firm hstands.isNode⟩
  obtain ⟨done, ids, hstand, hwraps, hids⟩ := hgraded.exists_stand_ins hkeeps hcs
  rw [hspans] at hstand
  refine ⟨done, ids, hstand, hwraps, ?_⟩
  rw [← htrees]
  exact forall₂_map_right_iff.2 hids

end

end Sown
end Document

namespace Document
open List hiding count
open Failure Text LiveEdit.Tree Parse Wrapper

variable {d : Document} {n : NodeId} {w : Wrapper} {place : BlockPlace} {list : Site} {index : Nat}
  {t u : Text} {ts : List Text}

/-- Whether a text is one statement that ends with a semicolon or a brace, and else white space. -/
def isClosedStatement (t : Text) : Bool :=
  (ofText t).diagnostics.isEmpty &&
    match (ofText t).site.nodes with
    | [c] => c.kind.isStatement && c.tree.closes &&
        decide (c.span = .sized (size (t.takeWhile isBlank)) (trimmed t).size)
    | _ => false

lemma trimmed_append (t : Text) :
    t.takeWhile isBlank ++ (trimmed t ++ takeEnd isBlank (t.dropWhile isBlank)) = t := by
  have hend : trimmed t ++ takeEnd isBlank (t.dropWhile isBlank) = t.dropWhile isBlank := by
    rw [trimmed, dropEnd, takeEnd, ← reverse_append, takeWhile_append_dropWhile, reverse_reverse]
  rw [hend, takeWhile_append_dropWhile]

lemma stands_of_slice {c : Site} (hclean : (ofText t).diagnostics = [])
    (hnodes : (ofText t).site.nodes = [c]) (hcloses : c.tree.closes = true)
    (hslice : t.slice? c.span = some u) : Stands c.tree ∧ c.tree.text = u := by
  obtain ⟨l, hl, hmark⟩ := exists_of_closes hcloses
  have hmem : c ∈ (ofText t).site.nodes := hnodes ▸ mem_singleton_self c
  have hlies : Site.Lies t (ofText t).site := by
    have hroot := Site.lies_root (ofText t).tree
    rwa [text_ofText] at hroot
  exact ⟨stands_of_nodes hclean hnodes hl hmark,
    Option.some.inj ((hlies.node hmem).slice?.symm.trans hslice)⟩

lemma exists_stands (h : isClosedStatement t = true) : ∃ s, Stands s ∧ s.text = trimmed t := by
  rw [isClosedStatement, Bool.and_eq_true] at h
  obtain ⟨hclean, hone⟩ := h
  split at hone
  next c hnodes =>
    simp only [Bool.and_eq_true, decide_eq_true_eq] at hone
    obtain ⟨⟨-, hcloses⟩, hspan⟩ := hone
    have hslice : t.slice? c.span = some (trimmed t) := by
      rw [hspan]
      exact slice?_eq_some_iff.2 ⟨_, _, trimmed_append t, rfl, rfl⟩
    exact ⟨c.tree, stands_of_slice (isEmpty_iff.1 hclean) hnodes hcloses hslice⟩
  next => cases hone

lemma exists_statements (hts : ∀ t ∈ ts, isClosedStatement t = true) :
    ∃ ss : List Tree, (∀ s ∈ ss, Stands s) ∧ ss.map Tree.text = ts.map trimmed := by
  induction ts with
  | nil => exact ⟨[], fun s hs => absurd hs not_mem_nil, rfl⟩
  | cons t ts ih =>
    obtain ⟨s, hs, htext⟩ := exists_stands (hts t mem_cons_self)
    obtain ⟨ss, hss, htexts⟩ := ih fun u hu => hts u (mem_cons_of_mem t hu)
    refine ⟨s :: ss, ?_, by rw [map_cons, map_cons, htext, htexts]⟩
    intro u hu
    rcases mem_cons.1 hu with rfl | hu
    · exact hs
    · exact hss u hu

lemma kind_of_find? (hcap : w.kind.capabilities.statements = some place)
    (hfind : place.find? w.site = some list) : list.kind = .sourceFile ∨ list.kind = .block := by
  cases place with
  | own =>
    obtain rfl := Option.some.inj hfind
    change w.kind = .sourceFile ∨ w.kind = .block
    generalize w.kind = k at hcap
    cases k <;> first | exact .inl rfl | exact .inr rfl | cases hcap
  | inner =>
    have hkind := find?_some (p := fun c : Site => c.kind == .block) hfind
    exact .inr (eq_of_beq hkind)

lemma blank_of_indentationAt? {k : Nat} (h : t.indentationAt? k = some u) : u.Blank := by
  obtain ⟨p, -, rfl⟩ := Option.map_eq_some_iff.1 h
  intro c hc
  have hspace := mem_takeWhile_imp hc
  simp only [isSpace, Bool.or_eq_true, decide_eq_true_eq] at hspace
  rcases hspace with rfl | rfl <;> decide

lemma blank_indentation (i : Indentation) : i.text.Blank := by
  cases i <;> exact all_eq_true.1 rfl

lemma exists_plan (hn : d.node n = .ok w) (hcap : w.kind.capabilities.statements = some place)
    (hfind : place.find? w.site = some list) (hlies : Site.Lies d.text list)
    (hindex : index ≤ list.statements.length) (hne : ts ≠ []) (hts : ∀ t ∈ ts, trimmed t ≠ []) :
    ∃ lead close : Text, (lead.Blank ∧ lead ≠ [] ∧ close.Blank) ∧
    ∀ i, d.statementInsertion list index lead close (intercalate lead (ts.map trimmed)) = .ok i →
    d.statementPlan n index ts =
      .ok ⟨w, i.manipulation, spread lead.size i.start (ts.map trimmed)⟩ := by
  obtain ⟨outer, houter⟩ : ∃ u, d.text.indentationAt? list.start = some u :=
    exists_indentationAt? hlies.start_isBoundary
  have hblank := blank_of_indentationAt? houter
  obtain ⟨hnewline, c, hc, -⟩ := newline_text d.settings.newline
  have hempty : ((ts.map trimmed).isEmpty || (ts.map trimmed).any List.isEmpty) = false := by
    rw [Bool.or_eq_false_iff, isEmpty_eq_false_iff, any_eq_false]
    refine ⟨fun hnil => hne (map_eq_nil_iff.1 hnil), fun u hu => ?_⟩
    obtain ⟨t, ht, rfl⟩ := mem_map.1 hu
    exact fun hnil => hts t ht (isEmpty_iff.1 hnil)
  refine ⟨d.settings.newline.text ++
    (if list.braces?.isSome then outer ++ d.settings.indentation.text else outer),
    d.settings.newline.text ++ outer, ⟨?_, ?_, ?_⟩, fun i hi => ?_⟩
  · intro c hc
    rcases mem_append.1 hc with hc | hc
    · exact hnewline c hc
    · split_ifs at hc with hbraces
      · rcases mem_append.1 hc with hc | hc
        · exact hblank c hc
        · exact blank_indentation _ c hc
      · exact hblank c hc
  · intro hnil
    rw [(append_eq_nil_iff.1 hnil).1] at hc
    exact Option.not_mem_none c hc
  · intro c hc
    rcases mem_append.1 hc with hc | hc
    · exact hnewline c hc
    · exact hblank c hc
  · unfold statementPlan
    rw [hn]
    simp only [refusing, bind, Except.bind, hcap, hfind]
    rw [if_neg (Nat.not_lt.2 hindex), hempty]
    simp only [Bool.false_eq_true, if_false, houter, within]
    rw [hi]
    rfl

structure Planned (d : Document) (n : NodeId) (w : Wrapper) (place : BlockPlace) (list : Site)
    (index : Nat) (ts : List Text) (m : Manipulation) (e : Edit)
    {b : Address} {start : Nat} {k : Kind}
    {lead : Text} {ss : List Tree} (p : Plot d.text (d.address w ++ b) start k lead ss) : Prop where
  sown : Sown d e p
  list : p.list = list
  before : count p.before = index
  texts : ss.map Tree.text = ts.map trimmed
  again : ∀ o' l u', o'.isNode = true → o'.kind = p.list.kind →
    Replaced p.list.tree o' b l w.site.tree u' →
      place.find? ⟨w.site.start, u'⟩ = some ⟨w.site.start + l, o'⟩
  edit : m.edit? d.text = some e
  plan : d.statementPlan n index ts =
    .ok ⟨w, m, spread lead.size (p.offset + p.lead.size) (ts.map trimmed)⟩

lemma Sound.exists_list (h : d.Sound) (hn : d.node n = .ok w)
    (hfind : place.find? w.site = some list) : ∃ b, d.tree.at? (d.address w ++ b) = some list ∧
    ∀ o' l u', o'.isNode = true → o'.kind = list.kind → Replaced list.tree o' b l w.site.tree u' →
    place.find? ⟨w.site.start, u'⟩ = some ⟨w.site.start + l, o'⟩ := by
  obtain ⟨b, hb, hagain⟩ := Site.exists_of_find? hfind
  have hway : d.tree.at? (d.address w) = some w.site := (h.attached (h.node_eq_ok.1 hn).2.1).node
  refine ⟨b, ?_, hagain⟩
  rw [Site.at?_append, hway, Option.bind_some, hb]

lemma exists_planned (hgraded : d.Graded) (husual : d.reader = .usual) (hclean : d.diagnostics = [])
    (hn : d.node n = .ok w) (hcap : w.kind.capabilities.statements = some place)
    (hfind : place.find? w.site = some list) (hindex : index ≤ list.statements.length)
    (hlast : ∀ s ∈ (list.statements.take index).getLast?, s.tree.closes = true) (hne : ts ≠ [])
    (hts : ∀ t ∈ ts, isClosedStatement t = true) :
    ∃ (m : Manipulation) (e : Edit) (b : Address) (start : Nat) (k : Kind)
      (lead : Text) (ss : List Tree) (p : Plot d.text (d.address w ++ b) start k lead ss),
      Planned d n w place list index ts m e p := by
  have hsound := hgraded.sound
  have hkeeps : Keeps d.reader := husual ▸ keeps_usual
  obtain ⟨ss, hss, htexts⟩ := exists_statements hts
  have htrimmed : ∀ t ∈ ts, trimmed t ≠ [] := by
    intro t ht
    have hmem : trimmed t ∈ ss.map Tree.text := htexts ▸ mem_map_of_mem ht
    obtain ⟨s, hs, htext⟩ := mem_map.1 hmem
    exact htext ▸ (hss s hs).text_ne_nil
  have hlies := lies_of_find? (hsound.node_lies hkeeps hn) hfind
  obtain ⟨lead, close, ⟨hblank, hapart, hclose⟩, hplan⟩ :=
    exists_plan hn hcap hfind hlies hindex hne htrimmed
  have hsowable : Sowable lead ss := by
    refine ⟨hss, ?_, hblank, hapart⟩
    rintro rfl
    exact hne (map_eq_nil_iff.1 htexts.symm)
  have htree := hsound.tree_usual husual
  have hclean' := (hsound.diagnostics_usual husual).symm.trans hclean
  obtain ⟨b, hat, hagain⟩ := hsound.exists_list hn hfind
  have hkind := kind_of_find? hcap hfind
  have hnode : list.tree.isNode = true :=
    Site.isNode_of_at? hat (by rw [htree, Parse.site, tree_ofText]; rfl)
  obtain ⟨start, tree⟩ := list
  cases tree with
  | token k x => cases hnode
  | node k cs =>
    have hat' := hat
    rw [htree] at hat'
    obtain ⟨i, e, p, hp⟩ := exists_places hsowable hclean' hat' hkind hclose hindex hlast
    have h : Sown d e p := ⟨hgraded, husual, hclean, hsowable, hp.sows⟩
    have hlist : p.list = ⟨start, .node k cs⟩ := Option.some.inj (h.grafts.at?.1.symm.trans hat)
    refine ⟨_, e, b, start, k, lead, ss, p, h, hlist, hp.before, htexts, hlist ▸ hagain,
      hp.edit, ?_⟩
    rw [← hp.start]
    exact hplan i (htexts ▸ hp.insertion)

/-- Closed statements that are inserted into a document without faults, at the start of a list of
statements or behind a closed one, are found where they were put. They are answered in order, by
wrappers of statements with just the trimmed texts. The new document has no faults either, its list
has the texts of the old one and between them the new ones, and no wrapper that was live is
forgotten. -/
theorem insertStatements_of_closed {tag : Nat} {file : String} {initial : Text}
    {settings : Settings} {ops : List Operation}
    (hrun : (create tag file initial settings .usual).run ops = some d)
    (hclean : d.diagnostics = []) (hn : d.node n = .ok w)
    (hcap : w.kind.capabilities.statements = some place)
    (hfind : place.find? w.site = some list) (hindex : index ≤ list.statements.length)
    (hlast : ∀ s ∈ (list.statements.take index).getLast?, s.tree.closes = true) (hne : ts ≠ [])
    (hts : ∀ t ∈ ts, isClosedStatement t = true) :
    ∃ o ids, d.insertStatements n index ts = some o ∧ o.answer = .ok ids ∧
    List.Forall₂ (fun i t => ∃ v, o.document.node i = .ok v ∧
      v.kind.isStatement = true ∧ o.document.textOf? v = some (trimmed t)) ids ts ∧
    o.document.diagnostics = [] ∧
    (∃ w' list', o.document.node n = .ok w' ∧ place.find? w'.site = some list' ∧
      list'.statements.map Site.text = (list.statements.map Site.text).take index ++
        (ts.map trimmed ++ (list.statements.map Site.text).drop index)) ∧
    ∀ m v, d.node m = .ok v → o.document.isForgotten m = false := by
  have hgraded := (graded_create tag file initial settings .usual).moves (moves_run hrun)
  obtain ⟨m, e, b, start, k, lead, ss, p, hp⟩ :=
    exists_planned hgraded (moves_run hrun).fixed.2 hclean hn hcap hfind hindex hlast hne hts
  obtain ⟨focus, new, log, hcommit, hnew⟩ := hp.sown.grafts.exists_commit hp.edit w.index
  obtain ⟨final, ids, hstand, hwraps, hids⟩ := hp.sown.exists_answers hnew
  have hgrown : new.Graded := hnew ▸ hgraded.advance focus _ e p.text
  refine ⟨⟨.ok ids, final, log⟩, ids, ?_, rfl, ?_, ?_, ?_, ?_⟩
  · rw [hp.texts] at hstand
    rw [insertStatements, hp.plan]
    simp only [attempt, hcommit, Option.bind_eq_bind, Option.bind_some, hstand]
    rfl
  · -- the answers are told of the statements, whose texts are the trimmed ones
    have htexts : List.Forall₂ (fun i u => ∃ v, final.node i = .ok v ∧ v.kind.isStatement = true ∧
        final.textOf? v = some u) ids (ss.map Tree.text) := forall₂_map_right_iff.2 hids
    rw [hp.texts] at htexts
    exact forall₂_map_right_iff.1 htexts
  · exact (hwraps.agrees hgrown le_rfl).diagnostics.trans (hp.sown.clean_advance hnew)
  · obtain ⟨w', hw', hfound⟩ := hp.sown.exists_list hnew hn hp.again
    obtain ⟨w'', hw'', hsite⟩ := hwraps.exists_node hgrown hw'
    refine ⟨w'', p.grown, hw'', hsite ▸ hfound, ?_⟩
    rw [p.texts_grown hp.sown.sowable, hp.list, hp.before, hp.texts]
  · intro i v hi
    rw [isForgotten, hwraps.lastKnown? i]
    exact hp.sown.not_forgotten hnew hi

theorem insertStatements_of_closed_block : ∃ d o ids w' list',
    (create 0 "a.ts" "{ a; }".toList {} .usual).run [.descendants ⟨0, 0⟩] = some d ∧
      d.insertStatements ⟨0, 1⟩ 1 ["b;".toList, " {} ".toList] = some o ∧ o.answer = .ok ids ∧
      ids.length = 2 ∧ o.document.diagnostics = [] ∧ o.document.node ⟨0, 1⟩ = .ok w' ∧
      BlockPlace.own.find? w'.site = some list' ∧
      list'.statements.map Site.text = ["a;".toList, "b;".toList, "{}".toList] ∧
      o.document.isForgotten ⟨0, 2⟩ = false := by
  have hfound : ∃ d ∈ (create 0 "a.ts" "{ a; }".toList {} .usual).run [.descendants ⟨0, 0⟩],
      d.diagnostics = [] ∧ ∃ statement, d.node ⟨0, 2⟩ = .ok statement ∧
      ∃ block, d.node ⟨0, 1⟩ = .ok block ∧ block.kind = .block ∧
        block.site.statements.map Site.text = ["a;".toList] ∧
        ∀ s ∈ (block.site.statements.take 1).getLast?, s.tree.closes = true := by
    decide +kernel
  obtain ⟨d, hrun, hclean, statement, hstatement, block, hblock, hkind, htexts, hclosed⟩ := hfound
  have hcap : block.kind.capabilities.statements = some .own := by
    rw [hkind]
    rfl
  have hlength : 1 ≤ block.site.statements.length := by
    rw [← length_map (f := Site.text), htexts]
    decide
  have hts : ∀ t ∈ ["b;".toList, " {} ".toList], isClosedStatement t = true := by decide +kernel
  obtain ⟨o, ids, ho, hanswer, hids, hdone, ⟨w', list', hw', hfind, hlist⟩, hkept⟩ :=
    insertStatements_of_closed hrun hclean hblock hcap rfl hlength hclosed
      (cons_ne_nil _ _) hts
  refine ⟨d, o, ids, w', list', hrun, ho, hanswer, hids.length_eq, hdone, hw', hfind, ?_, ?_⟩
  · rw [hlist, htexts]
    decide
  · exact hkept _ _ hstatement
end Document
end LiveEdit
