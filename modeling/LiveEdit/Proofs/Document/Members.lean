import LiveEdit.Proofs.Document.Seating
import LiveEdit.Proofs.Document.Statements

namespace LiveEdit.Document
open Option
open List hiding count
open Failure Text LiveEdit.Tree Parse Wrapper

variable {d new : Document} {n : NodeId} {w v : Wrapper} {l : MemberList} {index start : Nat}
  {k : Kind}
  {head t : Text} {s : Tree} {a : Address} {c : Site}

lemma exists_members_bed (hclean : (ofText t).diagnostics = [])
    (hat : (ofText t).site.at? a = some c) (hcap : c.kind.capabilities.members = some l) :
    ∃ start k F M G, c = ⟨start, .node k (F ++ (M ++ G))⟩ ∧ Bed a k F M G := by
  have hnode : c.tree.isNode = true := Site.isNode_of_at? hat (by rw [Parse.site, tree_ofText]; rfl)
  obtain ⟨start, tree⟩ := c
  cases tree with
  | token k x => cases hnode
  | node k ts =>
    have hk : (k = .sourceFile ∨ ∃ r, Grammar.Port k r) ∧ k ≠ .variableStatement := by
      rcases (Site.members_of_capabilities hcap).1 with rfl | rfl
      · exact ⟨.inr ⟨_, .enums⟩, Kind.noConfusion⟩
      · exact ⟨.inr ⟨_, .classes⟩, Kind.noConfusion⟩
    obtain ⟨F, M, G, rfl, hbed⟩ := exists_bed hclean hat hk.1 fun hvariable => absurd hvariable hk.2
    exact ⟨start, k, F, M, G, rfl, hbed⟩

/-- Whether a text that stands in a list, between `head` and a brace, is one member of it and else
white space. -/
def isMember (k : Kind) (l : MemberList) (head t : Text) : Bool :=
  let read := ofText (head ++ (t ++ " \x7d".toList))
  read.diagnostics.isEmpty &&
    match (⟨0, read.tree⟩ : Site).nodes with
    | [c] => c.kind == k && match c.members l with
      | [m] => decide (m.2.span = .sized (head.size + size (t.takeWhile isBlank)) (trimmed t).size)
      | _ => false
    | _ => false

lemma exists_joins (hcap : k.capabilities.members = some l) (h : isMember k l head t = true) :
    ∃ s, Joins k s ∧ s.text = trimmed t := by
  rw [isMember, Bool.and_eq_true, List.isEmpty_iff] at h
  obtain ⟨hclean, hone⟩ := h
  split at hone
  next c hnodes =>
    rw [Bool.and_eq_true, beq_iff_eq] at hone
    obtain ⟨rfl, hone⟩ := hone
    split at hone
    next m hmembers =>
      have hspan := of_decide_eq_true hone
      have hat : (⟨0, (ofText (head ++ (t ++ " \x7d".toList))).tree⟩ : Site).at? [0] = some c := by
        rw [Site.at?, hnodes]
        rfl
      have hlies : Site.Lies (head ++ (t ++ " \x7d".toList)) c := by
        have hroot := Site.lies_root (ofText (head ++ (t ++ " \x7d".toList))).tree
        rw [text_ofText] at hroot
        exact hroot.at? hat
      obtain ⟨start, k, F, M, G, rfl, hbed⟩ := exists_members_bed hclean hat hcap
      have hcount := Site.length_members hbed hcap start
      rw [hmembers] at hcount
      obtain ⟨P, s, S, rfl, -, hnode, hmember⟩ :=
        Site.exists_member hbed hcap (Nat.lt_of_lt_of_eq Nat.one_pos hcount)
      obtain rfl : m = (count (F ++ P), ⟨start + sizeAll F + sizeAll P, s⟩) := by
        have hget := hmember start
        rw [hmembers] at hget
        exact some.inj hget
      have hslice :
          slice? (head ++ (t ++ " \x7d".toList)) (⟨start + sizeAll F + sizeAll P, s⟩ : Site).span =
          some (trimmed t) := by
        rw [hspan]
        refine slice?_eq_some_iff.2 ⟨head ++ t.takeWhile isBlank,
          takeEnd isBlank (t.dropWhile isBlank) ++ " \x7d".toList, ?_, ?_, rfl⟩
        · nth_rewrite 4 [← trimmed_append t]
          simp only [append_assoc]
        · rw [size_append]
          rfl
      refine ⟨s,
        joins_of_bed hclean hat hbed (Site.members_of_capabilities hcap).1 (by simp) hnode, ?_⟩
      have hmem := lies_member hlies (mem_of_getElem? (hmember start))
      exact some.inj (hmem.slice?.symm.trans hslice)
    next => cases hone
  next => cases hone

lemma exists_memberPlan {braces : Site × Site} (hn : d.node n = .ok w)
    (hcap : w.kind.capabilities.members = some l) (hlies : Site.Lies d.text w.site)
    (hindex : index ≤ (w.site.members l).length) (hbraces : w.site.braces? = some braces)
    (hne : trimmed t ≠ []) : ∃ lead close : Text, (lead.Blank ∧ lead ≠ []) ∧
    (close.Blank ∧ close ≠ []) ∧
    ∀ i, memberInsertion w.site l braces index lead close (trimmed t) = .ok i → d.memberPlan n index
      t = .ok ⟨w, i.manipulation, .sized i.start (trimmed t).size, l.accepts⟩ := by
  obtain ⟨outer, houter⟩ : ∃ u, d.text.indentationAt? w.site.start = some u :=
    exists_indentationAt? hlies.start_isBoundary
  obtain ⟨hnewline, c, hc, -⟩ := newline_text d.settings.newline
  have hclose : ∀ c ∈ d.settings.newline.text ++ outer, isBlank c = true := by
    intro c hc
    rcases mem_append.1 hc with hc | hc
    · exact hnewline c hc
    · exact blank_of_indentationAt? houter c hc
  have hapart : d.settings.newline.text ++ outer ≠ [] := by
    intro hnil
    rw [(append_eq_nil_iff.1 hnil).1] at hc
    exact not_mem_none c hc
  refine ⟨d.settings.newline.text ++ outer ++ d.settings.indentation.text,
    d.settings.newline.text ++ outer, ⟨?_, append_ne_nil_of_left_ne_nil hapart _⟩,
    ⟨hclose, hapart⟩, fun i hi => ?_⟩
  · intro c hc
    rcases mem_append.1 hc with hc | hc
    · exact hclose c hc
    · exact blank_indentation _ c hc
  · unfold memberPlan
    rw [hn]
    simp only [refusing, bind, Except.bind, hcap]
    rw [if_neg (Nat.not_lt.2 hindex), if_neg (by simpa using hne), hbraces]
    simp only [houter, within]
    rw [hi]
    rfl

structure Seated (d : Document) (n : NodeId) (w : Wrapper) (l : MemberList) (index : Nat) (t : Text)
    {start : Nat} {k : Kind} {s : Tree} (p : Seat d.text (d.address w) start k s) : Prop where
  graded : d.Graded
  usual : d.reader = .usual
  clean : d.diagnostics = []
  node : d.node n = .ok w
  cap : k.capabilities.members = some l
  joins : Joins k s
  text : s.text = trimmed t
  site : w.site = p.list
  before : count p.before = index
  plan : d.memberPlan n index t = .ok ⟨w, .insertion p.edit.position p.edit.removed p.edit.inserted,
    .sized p.place s.text.size, l.accepts⟩

lemma exists_seated (hgraded : d.Graded) (husual : d.reader = .usual) (hclean : d.diagnostics = [])
    (hn : d.node n = .ok w) (hcap : w.kind.capabilities.members = some l)
    (hindex : index ≤ (w.site.members l).length) (ht : isMember w.kind l head t = true)
    (hapart : w.kind = .classDeclaration → ∀ i, index = i + 1 →
      ∀ m ∈ (w.site.members l)[i]?, runsOn d.text m.2.span.stop (trimmed t) = false) :
    ∃ (start : Nat) (k : Kind) (s : Tree) (p : Seat d.text (d.address w) start k s),
      Seated d n w l index t p := by
  have hsound := hgraded.sound
  have hkeeps : Keeps d.reader := husual ▸ keeps_usual
  have hclean' := (hsound.diagnostics_usual husual).symm.trans hclean
  have hat : (ofText d.text).site.at? (d.address w) = some w.site := by
    rw [← hsound.tree_usual husual]
    exact (hsound.attached (hsound.node_eq_ok.1 hn).2.1).node
  obtain ⟨s, hs, htext⟩ := exists_joins hcap ht
  obtain ⟨start, k, F, M, G, hsite, hbed⟩ := exists_members_bed hclean' hat hcap
  obtain rfl : w.kind = k := congrArg Site.kind hsite
  obtain ⟨left, right, hbraces, -⟩ :=
    Site.braces?_bed hbed (Site.members_of_capabilities hcap).1 start
  obtain ⟨lead, close, ⟨hlead, hlead'⟩, ⟨hclose, hclose'⟩, hplan⟩ :=
    exists_memberPlan hn hcap (hsound.node_lies hkeeps hn) hindex (hsite ▸ hbraces)
      (htext ▸ text_ne_nil_of_firm hs.firm hs.isNode)
  rw [← htext] at hapart hplan
  rw [hsite] at hat hapart hindex hplan
  rw [Site.length_members hbed hcap] at hindex
  obtain ⟨i, p, hp⟩ :=
    exists_sits hs hcap hclean' hat hbed hbraces hindex hlead hlead' hclose hclose' hapart
  refine ⟨start, _, s, p, hgraded, husual, hclean, hn, hcap, hs, htext, hsite.trans hp.list.symm,
    hp.before, ?_⟩
  rw [hplan i hp.insertion, Insertion.start, hp.manipulation, hp.offset]
  rfl

namespace Seated

variable {p : Seat d.text (d.address w) start k s} {focus : List Nat} {m : Manipulation}
  {i : NodeId}

variable (h : Seated d n w l index t p)
include h

lemma grafts : Grafts d p.edit (d.address w) start k (p.opening ++ p.before) p.gap
      (p.after ++ p.closing) (p.front ++ s :: p.back) p.uA p.uX p.uB p.tree := by
  have hne : textAll (p.front ++ s :: p.back) ≠ [] := by
    rw [textAll_append, textAll]
    exact append_ne_nil_of_right_ne_nil _
      (append_ne_nil_of_left_ne_nil (text_ne_nil_of_firm h.joins.firm h.joins.isNode) _)
  obtain ⟨hresult, halters⟩ := p.planted.replaces hne
  have hclean := (h.graded.sound.diagnostics_usual h.usual).symm.trans h.clean
  exact ⟨h.graded, h.usual, h.clean, p.planted, p.planted.edges_bed p.bed, p.parse h.joins hclean,
    halters, hresult⟩

lemma exists_grown (hnew : new = (d.advance focus m p.edit p.text).1) :
    ∃ w', new.node n = .ok w' ∧ w'.site = p.grown := by
  obtain ⟨w', hw', hat⟩ := h.grafts.exists_node hnew h.node (prefix_refl _)
  rw [h.grafts.tree_advance hnew, h.grafts.at?.2] at hat
  exact ⟨w', hw', (some.inj hat).symm⟩

lemma exists_answer (hnew : new = (d.advance focus m p.edit p.text).1) :
    ∃ a v, new.standIn l.accepts (.sized p.place s.text.size) = some (new.wrap a) ∧
    (new.wrap a).1.node (new.wrap a).2 = .ok v ∧ l.accepts v.kind = true ∧
    new.textOf? v = some (trimmed t) := by
  have hgraded : new.Graded := hnew ▸ h.graded.advance focus m p.edit p.text
  have hat : new.tree.at? (d.address w ++ [count (p.opening ++ p.before ++ p.front)]) =
      some ⟨p.place, s⟩ := by
    rw [h.grafts.tree_advance hnew, Site.at?_append, h.grafts.at?.2, bind_some, Site.at?]
    have hregroup : p.opening ++ p.before ++ ((p.front ++ s :: p.back) ++ (p.after ++ p.closing)) =
        (p.opening ++ p.before ++ p.front) ++ s :: (p.back ++ (p.after ++ p.closing)) := by simp
    rw [hregroup, Site.nodes, Site.elements, Tree.children, Site.node_at _ _ _ h.joins.isNode,
      sizeAll_append, ← add_assoc]
    rfl
  have haccept : l.accepts (⟨p.place, s⟩ : Site).kind = true := by
    rw [(Site.members_of_capabilities h.cap).2.1]
    exact h.joins.kind
  have hspan : (⟨p.place, s⟩ : Site).span = .sized p.place s.text.size := by
    rw [Site.span, size_eq_text]
  rw [← hspan, ← h.text]
  exact hgraded.exists_stand_in (h.grafts.keeps_advance hnew) hat haccept
    (Site.span_pos_of_firm h.joins.firm h.joins.isNode)

lemma texts_grown : p.grown.memberTexts l = (w.site.memberTexts l).take index ++
      trimmed t :: (w.site.memberTexts l).drop index := by
  have hlength : ((p.before.filter isNode).map Tree.text).length = index := by
    rw [length_map, ← countP_eq_length_filter]
    exact h.before
  rw [h.site, p.list_eq, p.grown_eq, Site.memberTexts_bed p.bed h.cap,
    Site.memberTexts_bed p.bed_grown h.cap, p.filter_grown h.joins.isNode, p.filter_list,
    map_append, map_append, map_cons, take_left' hlength, drop_left' hlength, h.text]

lemma endsWithComma_grown : p.grown.endsWithComma = w.site.endsWithComma := by
  have hk := (Site.members_of_capabilities h.cap).1
  rw [h.site, p.list_eq, p.grown_eq, Bool.eq_iff_iff, Site.endsWithComma_bed p.bed hk,
    Site.endsWithComma_bed p.bed_grown hk]
  exact p.comma

lemma exists_outcome :
    ∃ o i v w', d.insertMember n index t = some o ∧ o.answer = .ok i ∧ (o.document.node i = .ok v ∧
      l.accepts v.kind = true ∧ o.document.textOf? v = some (trimmed t)) ∧
    o.document.diagnostics = [] ∧ (o.document.node n = .ok w' ∧ w'.site = p.grown) ∧
    ∀ m u, d.node m = .ok u → o.document.isForgotten m = false := by
  obtain ⟨focus, new, log, hcommit, hnew⟩ := h.grafts.exists_commit
    (m := .insertion p.edit.position p.edit.removed p.edit.inserted) rfl w.index
  have hgraded : new.Graded := hnew ▸ h.graded.advance focus _ p.edit p.text
  obtain ⟨b, v, hstand, hv, hkind, htext⟩ := h.exists_answer hnew
  obtain ⟨w', hw', hgrown⟩ := h.exists_grown hnew
  obtain ⟨w'', hw'', hsite⟩ := (wraps_wrap new b).exists_node hgraded hw'
  have hagrees := hgraded.agrees_wrap (Nat.zero_le _) b
  refine ⟨⟨.ok (new.wrap b).2, (new.wrap b).1, log⟩, _, v, w'', ?_, rfl, ⟨hv, hkind, ?_⟩, ?_,
    ⟨hw'', hsite.trans hgrown⟩, fun m u hu => ?_⟩
  · rw [insertMember, h.plan]
    simp only [attempt, hcommit, bind_eq_bind, bind_some, hstand]
    rfl
  · rw [textOf?, hagrees.text]
    exact htext
  · exact hagrees.diagnostics.trans (h.grafts.clean_advance hnew)
  · rw [isForgotten, (wraps_wrap new b).lastKnown? m]
    exact h.grafts.not_forgotten p.empty hnew hu

end Seated

variable {tag : Nat} {file : String} {initial : Text} {settings : Settings} {ops : List Operation}

/-- A member that is inserted into an enum of a document without faults is found where it was put,
with just its trimmed text. The new document has no faults either, the enum has the texts of the old
members and the new one between them, it ends with a comma if it did so before, and no wrapper that
was live is forgotten. -/
theorem insertMember_enum (hrun : (create tag file initial settings .usual).run ops = some d)
    (hclean : d.diagnostics = []) (hn : d.node n = .ok w) (hkind : w.kind = .enumDeclaration)
    (hcap : w.kind.capabilities.members = some l) (hindex : index ≤ (w.site.members l).length)
    (ht : isMember .enumDeclaration l "enum E \x7b ".toList t = true) :
    ∃ o m v w', d.insertMember n index t = some o ∧ o.answer = .ok m ∧
      (o.document.node m = .ok v ∧ v.kind = .enumMember ∧ o.document.textOf? v = some (trimmed t)) ∧
      o.document.diagnostics = [] ∧ o.document.node n = .ok w' ∧
      w'.site.memberTexts l = (w.site.memberTexts l).take index ++
        trimmed t :: (w.site.memberTexts l).drop index ∧
      w'.site.endsWithComma = w.site.endsWithComma ∧
      ∀ i u, d.node i = .ok u → o.document.isForgotten i = false := by
  have hgraded := (graded_create tag file initial settings .usual).moves (moves_run hrun)
  obtain ⟨start, k, s, p, hp⟩ :=
    exists_seated hgraded (moves_run hrun).fixed.2 hclean hn hcap hindex
    (hkind ▸ ht) fun hclass => by
      rw [hkind] at hclass
      cases hclass
  obtain ⟨o, m, v, w', ho, hanswer, ⟨hv, haccept, htext⟩, hdone, ⟨hw', hsite⟩, hkept⟩ :=
    hp.exists_outcome
  have hmember : v.kind = .enumMember := by
    rw [hkind] at hcap
    obtain rfl := some.inj hcap
    exact eq_of_beq haccept
  refine ⟨o, m, v, w', ho, hanswer, ⟨hv, hmember, htext⟩, hdone, hw', ?_, ?_, hkept⟩
  · rw [hsite]
    exact hp.texts_grown
  · rw [hsite]
    exact hp.endsWithComma_grown

theorem insertMember_enum_comma : ∃ d o m v w' l,
    (create 0 "a.ts" "enum E { A /* , */, B, }".toList {} .usual).run
      [.firstDescendant ⟨0, 0⟩ .enumMember] = some d ∧
    Kind.enumDeclaration.capabilities.members = some l ∧
    d.insertMember ⟨0, 1⟩ 1 " C = 1 ".toList = some o ∧ o.answer = .ok m ∧
    o.document.node m = .ok v ∧ v.kind = .enumMember ∧ o.document.textOf? v = some "C = 1".toList ∧
    o.document.diagnostics = [] ∧ o.document.node ⟨0, 1⟩ = .ok w' ∧
    w'.site.memberTexts l = ["A".toList, "C = 1".toList, "B".toList] ∧
    w'.site.endsWithComma = true ∧ o.document.isForgotten ⟨0, 2⟩ = false := by
  have hfound : ∃ d ∈ (create 0 "a.ts" "enum E { A /* , */, B, }".toList {} .usual).run
      [.firstDescendant ⟨0, 0⟩ .enumMember], d.diagnostics = [] ∧
      ∃ member, d.node ⟨0, 2⟩ = .ok member ∧
      ∃ list, d.node ⟨0, 1⟩ = .ok list ∧ list.kind = .enumDeclaration ∧
        list.site.memberTexts ⟨(· == .enumMember), .comma⟩ = ["A".toList, "B".toList] ∧
        list.site.endsWithComma = true := by
    decide +kernel
  obtain ⟨d, hrun, hclean, member, hmember, list, hlist, hkind, htexts, hcomma⟩ := hfound
  have hlength : 1 ≤ (list.site.members ⟨(· == .enumMember), .comma⟩).length := by
    rw [← Site.length_memberTexts, htexts]
    decide
  have hcap : list.kind.capabilities.members = some ⟨(· == .enumMember), .comma⟩ := by
    rw [hkind]
    rfl
  obtain ⟨o, m, v, w', ho, hanswer, ⟨hv, hvkind, htext⟩, hdone, hw', hlist', hcomma', hkept⟩ :=
    insertMember_enum (t := " C = 1 ".toList) hrun hclean hlist hkind hcap hlength
      (by decide +kernel)
  have htrim : trimmed " C = 1 ".toList = "C = 1".toList := by decide +kernel
  rw [htrim] at htext hlist'
  rw [htexts] at hlist'
  exact ⟨d, o, m, v, w', _, hrun, rfl, ho, hanswer, hv, hvkind, htext, hdone, hw', hlist',
    hcomma'.trans hcomma, hkept _ _ hmember⟩

/-- A member that is inserted into a class of a document without faults is found where it was put,
with just its trimmed text, unless it ends with a word and the member before it is right next to
another word. The new document has no faults either, the class has the texts of the old members and
the new one between them, and no wrapper that was live is forgotten. -/
theorem insertMember_class (hrun : (create tag file initial settings .usual).run ops = some d)
    (hclean : d.diagnostics = []) (hn : d.node n = .ok w) (hkind : w.kind = .classDeclaration)
    (hcap : w.kind.capabilities.members = some l) (hindex : index ≤ (w.site.members l).length)
    (ht : isMember .classDeclaration l "class C \x7b ".toList t = true)
    (hapart : ∀ i, index = i + 1 → ∀ m ∈ (w.site.members l)[i]?,
      runsOn d.text m.2.span.stop (trimmed t) = false) :
    ∃ o m v w', d.insertMember n index t = some o ∧ o.answer = .ok m ∧
      (o.document.node m = .ok v ∧ (v.kind = .propertyDeclaration ∨ v.kind = .methodDeclaration) ∧
        o.document.textOf? v = some (trimmed t)) ∧
      o.document.diagnostics = [] ∧ o.document.node n = .ok w' ∧
      w'.site.memberTexts l = (w.site.memberTexts l).take index ++
        trimmed t :: (w.site.memberTexts l).drop index ∧
      ∀ i u, d.node i = .ok u → o.document.isForgotten i = false := by
  have hgraded := (graded_create tag file initial settings .usual).moves (moves_run hrun)
  obtain ⟨start, k, s, p, hp⟩ := exists_seated hgraded
    (moves_run hrun).fixed.2 hclean hn hcap hindex (hkind ▸ ht) fun _ => hapart
  obtain ⟨o, m, v, w', ho, hanswer, ⟨hv, haccept, htext⟩, hdone, ⟨hw', hsite⟩, hkept⟩ :=
    hp.exists_outcome
  have hmember : v.kind = .propertyDeclaration ∨ v.kind = .methodDeclaration := by
    rw [hkind] at hcap
    obtain rfl := some.inj hcap
    simpa [Kind.isClassMember] using haccept
  refine ⟨o, m, v, w', ho, hanswer, ⟨hv, hmember, htext⟩, hdone, hw', ?_, hkept⟩
  rw [hsite]
  exact hp.texts_grown

theorem insertMember_class_comment : ∃ d o m v w' l,
    (create 0 "a.ts" "class C { f(){}/**/g(){} }".toList {} .usual).run
        [.firstDescendant ⟨0, 0⟩ .methodDeclaration] = some d ∧
      Kind.classDeclaration.capabilities.members = some l ∧
      d.insertMember ⟨0, 1⟩ 1 " x".toList = some o ∧ o.answer = .ok m ∧ o.document.node m = .ok v ∧
      o.document.textOf? v = some "x".toList ∧ o.document.diagnostics = [] ∧
      o.document.node ⟨0, 1⟩ = .ok w' ∧
      w'.site.memberTexts l = ["f(){}".toList, "x".toList, "g(){}".toList] ∧
      o.document.isForgotten ⟨0, 2⟩ = false := by
  have hfound : ∃ d ∈ (create 0 "a.ts" "class C { f(){}/**/g(){} }".toList {} .usual).run
      [.firstDescendant ⟨0, 0⟩ .methodDeclaration], d.diagnostics = [] ∧
      ∃ member, d.node ⟨0, 2⟩ = .ok member ∧
      ∃ list, d.node ⟨0, 1⟩ = .ok list ∧ list.kind = .classDeclaration ∧
        list.site.memberTexts ⟨Kind.isClassMember, .newline⟩ = ["f(){}".toList, "g(){}".toList] ∧
        ∀ m ∈ (list.site.members ⟨Kind.isClassMember, .newline⟩)[0]?,
          runsOn d.text m.2.span.stop (trimmed " x".toList) = false := by
    decide +kernel
  obtain ⟨d, hrun, hclean, member, hmember, list, hlist, hkind, htexts, hruns⟩ := hfound
  have hlength : 1 ≤ (list.site.members ⟨Kind.isClassMember, .newline⟩).length := by
    rw [← Site.length_memberTexts, htexts]
    decide
  have hcap : list.kind.capabilities.members = some ⟨Kind.isClassMember, .newline⟩ := by
    rw [hkind]
    rfl
  obtain ⟨o, m, v, w', ho, hanswer, ⟨hv, -, htext⟩, hdone, hw', hlist', hkept⟩ :=
    insertMember_class (t := " x".toList) hrun hclean hlist hkind hcap hlength (by decide +kernel)
      fun i hi => Nat.succ.inj hi ▸ hruns
  have htrim : trimmed " x".toList = "x".toList := by decide +kernel
  rw [htrim] at htext hlist'
  rw [htexts] at hlist'
  exact ⟨d, o, m, v, w', _, hrun, rfl, ho, hanswer, hv, htext, hdone, hw', hlist',
    hkept _ _ hmember⟩

/-- A member that ends with a word runs into the one after it. What is answered is the name of that
one, and the class has no more members than before. -/
theorem insertMember_class_word :
    isMember .classDeclaration ⟨Kind.isClassMember, .newline⟩ "class C \x7b ".toList
      "x".toList = true ∧
    (do
      let d ← (create 0 "a.ts" "class C { f(){}g(){} }".toList {} .usual).run [.children ⟨0, 0⟩]
      let w ← (d.node ⟨0, 1⟩).toOption
      let o ← d.insertMember ⟨0, 1⟩ 1 "x".toList
      let w' ← (o.document.node ⟨0, 1⟩).toOption
      let v ← (o.document.node (← o.answer.toOption)).toOption
      return (d.diagnostics.isEmpty, w.site.memberTexts ⟨Kind.isClassMember, .newline⟩,
        w'.site.memberTexts ⟨Kind.isClassMember, .newline⟩, ← o.document.textOf? v)) =
    some (true, ["f(){}".toList, "g(){}".toList], ["f(){}".toList, "xg(){}".toList],
      "xg".toList) := by
  constructor
  · decide +kernel
  · decide +kernel

end LiveEdit.Document
