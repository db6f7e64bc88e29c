import LiveEdit.Proofs.Document.Answering
import LiveEdit.Proofs.Document.Statements

namespace LiveEdit

namespace Parse
open LiveEdit.Tree

variable {t g : Text} {a : Address} {n i : Nat} {k : Kind} {ss cs : List Tree} {c : Site}

lemma exists_plots_beside (hs : Sowable g ss) (hclean : (ofText t).diagnostics = [])
    (hat : (ofText t).site.at? a = some ⟨n, .node k cs⟩) (hk : k = .sourceFile ∨ k = .block)
    (hclosed : ∀ s ∈ (⟨n, .node k cs⟩ : Site).statements, s.tree.closes = true)
    (hc : (⟨n, .node k cs⟩ : Site).nodes[i]? = some c) :
    (∃ p : Plot t a n k g ss, p.gap = [] ∧ count p.before = i + 1 ∧
      p.Sows ⟨c.span.stop, 0, g ++ List.intercalate g (ss.map Tree.text)⟩) ∧
    ∃ p : Plot t a n k g ss, p.gap = [] ∧ count p.before = i ∧
    p.Sows ⟨c.span.start, 0, List.intercalate g (ss.map Tree.text) ++ g⟩ := by
  obtain ⟨F, M, G, rfl, hframe, hM⟩ := exists_frame hclean hat hk
  rw [Site.statements_frame hframe hM] at hclosed
  rw [Site.nodes_frame hframe] at hc
  constructor
  · obtain ⟨p, hgap, hbefore, -, hsows⟩ :=
      exists_sows_behind hs hat hframe hM hc (hclosed c (List.mem_of_getElem? hc))
    exact ⟨p, hgap, hbefore, hsows⟩
  · have hended : ∀ P, P <+: M → count P = i → Ended P := by
      refine fun P hP _ => ended_of_closes fun u hu hunode => ?_
      have hmem := List.mem_filter.2 ⟨hP.mem hu, hunode⟩
      rw [← Site.trees_row (n + sizeAll F)] at hmem
      obtain ⟨v, hv, rfl⟩ := List.mem_map.1 hmem
      exact hclosed v hv
    obtain ⟨p, hgap, hbefore, -, hsows⟩ := exists_sows_before hs hclean hat hframe hM hc hended
    exact ⟨p, hgap, hbefore, hsows⟩

end Parse

namespace Document
open LiveEdit.Tree Parse

variable {d new : Document} {n : NodeId} {w : Wrapper} {a : Address} {list c : Site}
  {i j shift start : Nat} {k : Kind}
  {t text g : Text} {s : Tree} {e : Edit} {m : Manipulation}

/-- The wrapper `n` of a statement is still there, with the same text, `shift` bytes further on and
as the node `j` of its list. The list at the address has the texts `texts`, and no wrapper is
forgotten. -/
structure Retains (d new : Document) (n : NodeId) (w : Wrapper) (a : Address) (j shift : Nat)
    (texts : List Text) :
    Prop where
  node : ∃ v, new.node n = .ok v ∧ new.address v = a ++ [j] ∧ v.kind = w.kind ∧
    v.span = .sized (w.span.start + shift) w.span.size ∧ new.textOf? v = d.textOf? w
  list : ∃ list, new.tree.at? a = some list ∧ list.statements.map Site.text = texts
  live : ∀ i v, d.node i = .ok v → new.isForgotten i = false

lemma Sown.exists_neighbour {focus : List Nat} {p : Plot d.text a start k g [s]} (h : Sown d e p)
    (hgap : p.gap = []) (hnew : new = (d.advance focus m e p.text).1) (hn : d.node n = .ok w)
    (haddress : d.address w = a ++ [i]) : ∃ v, new.node n = .ok v ∧ v.site.tree = w.site.tree ∧
    ((i < count p.before ∧ new.address v = a ++ [i] ∧ v.site.start = w.site.start) ∨
      (count p.before ≤ i ∧ new.address v = a ++ [i + 1] ∧
      v.site.start = w.site.start + sizeAll p.bed)) := by
  have hbefore : count (p.opening ++ p.before) = count p.before := by
    have hframe := p.frame
    generalize p.opening = F at hframe ⊢
    generalize p.closing = G at hframe
    cases hframe <;> rfl
  have hbed : count p.bed = 1 := by
    rw [count, List.countP_eq_length_filter, Plot.bed, filter_laid h.sowable.stands]
    rfl
  obtain ⟨v, hv, ⟨hlt, hplace, hsite⟩ | ⟨hle, hplace, htree, hstart⟩⟩ :=
    h.grafts.exists_child p.trivia hnew hn haddress
  · rw [hbefore] at hlt
    exact ⟨v, hv, by rw [hsite], .inl ⟨hlt, hplace, by rw [hsite]⟩⟩
  · rw [hbefore] at hle
    rw [hbed] at hplace
    rw [hgap] at hstart
    exact ⟨v, hv, htree, .inr ⟨hle, hplace, hstart⟩⟩

lemma Sown.exists_insertAt {offset : Nat} {p : Plot d.text a start k g [s]}
    (h : Sown d ⟨offset, 0, text⟩ p) (hgap : p.gap = []) (hn : d.node n = .ok w)
    (haddress : d.address w = a ++ [i]) (hin : w.span.contains (.empty offset) = true)
    (hboundary : d.text.isBoundary offset = true) : ∃ o, d.insertAt n offset text = some o ∧
    o.answer = .ok n ∧ Retains d o.document n w a (if i < count p.before then i else i + 1)
      (if i < count p.before then 0 else text.size) ((p.list.statements.map Site.text).take
      (count p.before) ++ s.text :: (p.list.statements.map Site.text).drop (count p.before)) := by
  have hgraded := h.graded
  have hkeeps : Keeps d.reader := h.usual ▸ keeps_usual
  have hedit :
      (Manipulation.replace (.empty offset) text).edit? d.text = some ⟨offset, 0, text⟩ := by
    simp [Manipulation.replace, Manipulation.edit?, Span.empty, Span.sized, Span.size]
  obtain ⟨focus, new, log, hcommit, hnew⟩ := h.grafts.exists_commit hedit w.index
  have hlive : ∀ i v, d.node i = .ok v → new.isForgotten i = false :=
    fun i v hi => h.not_forgotten hnew hi
  have hplan := replaceable_eq_ok hn hin hboundary hboundary
  refine ⟨⟨.ok n, new, log⟩, replaceSpan_of_live hplan hcommit (hlive n w hn), rfl, ?_, ?_, hlive⟩
  · have hsound : new.Sound := hnew ▸ hgraded.sound.advance focus _ _ p.text
    have hsize : text.size = sizeAll p.bed := by
      have hgrows := (h.sows.alters []).size
      rw [hgap] at hgrows
      change text.size + 0 = 0 + sizeAll p.bed at hgrows
      omega
    obtain ⟨v, hv, htree, hplace⟩ := h.exists_neighbour hgap hnew hn haddress
    have htext : new.textOf? v = d.textOf? w := by
      have hold := (hgraded.sound.node_lies hkeeps hn).slice?
      have hmoved := (hsound.node_lies (h.grafts.keeps_advance hnew) hv).slice?
      rw [textOf?, textOf?, Wrapper.span, Wrapper.span, hold, hmoved, Site.text, Site.text, htree]
    have hspan : ∀ shift, v.site.start = w.site.start + shift →
        v.span = .sized (w.span.start + shift) w.span.size := by
      intro shift hshift
      have hwidth : w.span.size = w.site.tree.size := Nat.add_sub_cancel_left ..
      rw [hwidth, Wrapper.span, Site.span, hshift, htree]
      rfl
    rcases hplace with ⟨hlt, hplace, hstart⟩ | ⟨hle, hplace, hstart⟩
    · rw [if_pos hlt, if_pos hlt]
      exact ⟨v, hv, hplace, congrArg Tree.kind htree, hspan 0 hstart, htext⟩
    · rw [if_neg (Nat.not_lt.2 hle), if_neg (Nat.not_lt.2 hle)]
      exact ⟨v, hv, hplace, congrArg Tree.kind htree, hspan _ (hsize ▸ hstart), htext⟩
  · refine ⟨p.grown, ?_, p.texts_grown h.sowable⟩
    rw [h.grafts.tree_advance hnew]
    exact h.grafts.at?.2

/-- In a document without faults, a closed statement is inserted on a line of its own at the end, or
at the start, of a statement in a list of closed ones. The answer is the wrapper of that statement,
which has its text, where it was or behind what was inserted. The inserted statement comes right
after it, or right before it, in the list, and no wrapper is forgotten. -/
theorem insertAt_beside_statement {tag : Nat} {file : String} {initial : Text} {settings : Settings}
    {ops : List Operation} (hrun : (create tag file initial settings .usual).run ops = some d)
    (hclean : d.diagnostics = []) (hn : d.node n = .ok w) (haddress : d.address w = a ++ [i])
    (hlist : d.tree.at? a = some list) (hkind : list.kind = .sourceFile ∨ list.kind = .block)
    (hclosed : ∀ s ∈ list.statements, s.tree.closes = true) (htext : (ofText t).diagnostics = [])
    (hone : (⟨0, (ofText t).tree⟩ : Site).nodes = [c]) (hwhole : c.span = .sized 0 t.size)
    (hcloses : c.tree.closes = true) :
    (∃ o, d.insertAt n w.span.stop ('\n' :: t) = some o ∧ o.answer = .ok n ∧
      Retains d o.document n w a i 0 ((list.statements.map Site.text).take (i + 1) ++
        t :: (list.statements.map Site.text).drop (i + 1))) ∧
    ∃ o, d.insertAt n w.span.start (t ++ ['\n']) = some o ∧ o.answer = .ok n ∧
      Retains d o.document n w a (i + 1) (t ++ ['\n']).size
      ((list.statements.map Site.text).take i ++ t :: (list.statements.map Site.text).drop i) := by
  have hgraded := (graded_create tag file initial settings .usual).moves (moves_run hrun)
  have husual : d.reader = .usual := (moves_run hrun).fixed.2
  have hsound := hgraded.sound
  have hlies := hsound.node_lies (husual ▸ keeps_usual) hn
  have hslice : t.slice? c.span = some t := by
    rw [hwhole]
    exact Text.slice?_eq_some_iff.2 ⟨[], [], List.append_nil t, rfl, rfl⟩
  obtain ⟨hstands, rfl⟩ := stands_of_slice htext hone hcloses hslice
  have hsowable : Sowable ['\n'] [c.tree] := by
    refine ⟨fun s hs => ?_, List.cons_ne_nil _ _, List.all_eq_true.1 rfl, List.cons_ne_nil _ _⟩
    rw [List.mem_singleton.1 hs]
    exact hstands
  have hnode : list.nodes[i]? = some w.site := by
    rw [← Site.at?_concat hlist, ← haddress]
    exact (hsound.attached (hsound.node_eq_ok.1 hn).2.1).node
  have hat := hlist
  rw [hsound.tree_usual husual] at hat
  have hin : w.span.contains (.empty w.span.stop) = true ∧ w.span.contains (.empty w.span.start) =
      true := ⟨Span.contains_iff.2 ⟨w.span.le, le_rfl⟩, Span.contains_iff.2 ⟨le_rfl, w.span.le⟩⟩
  obtain ⟨start, tree⟩ := list
  cases tree with
  | token k x => cases hnode
  | node k cs =>
    have hplain := (hsound.diagnostics_usual husual).symm.trans hclean
    obtain ⟨⟨p, hgap, hbefore, hsows⟩, q, hgap', hbefore', hsows'⟩ :=
      exists_plots_beside hsowable hplain hat hkind hclosed hnode
    have hjoined : List.intercalate ['\n'] ([c.tree].map Tree.text) = c.tree.text := by simp
    rw [hjoined] at hsows hsows'
    have hlisted : ∀ {e : Edit} {p : Plot d.text a start k ['\n'] [c.tree]}, Sown d e p →
        p.list = ⟨start, .node k cs⟩ := fun h => Option.some.inj (h.grafts.at?.1.symm.trans hlist)
    constructor
    · have hsown : Sown d ⟨w.span.stop, 0, '\n' :: c.tree.text⟩ p :=
        ⟨hgraded, husual, hclean, hsowable, hsows⟩
      obtain ⟨o, ho, hanswer, hretains⟩ :=
        hsown.exists_insertAt hgap hn haddress hin.1 hlies.stop_isBoundary
      rw [hbefore, if_pos (Nat.lt_succ_self i), if_pos (Nat.lt_succ_self i), hlisted hsown]
        at hretains
      exact ⟨o, ho, hanswer, hretains⟩
    · have hsown : Sown d ⟨w.span.start, 0, c.tree.text ++ ['\n']⟩ q :=
        ⟨hgraded, husual, hclean, hsowable, hsows'⟩
      obtain ⟨o, ho, hanswer, hretains⟩ :=
        hsown.exists_insertAt hgap' hn haddress hin.2 hlies.start_isBoundary
      rw [hbefore', if_neg (Nat.lt_irrefl i), if_neg (Nat.lt_irrefl i), hlisted hsown] at hretains
      exact ⟨o, ho, hanswer, hretains⟩

theorem insertAt_beside_statement_block : ∃ d w o o',
    (create 0 "a.ts" "{ a; b; }".toList {} .usual).run
      [.children ⟨0, 0⟩, .children ⟨0, 1⟩] = some d ∧ d.node ⟨0, 3⟩ = .ok w ∧
    (d.insertAt ⟨0, 3⟩ 7 "\nc;".toList = some o ∧ o.answer = .ok ⟨0, 3⟩ ∧
      Retains d o.document ⟨0, 3⟩ w [0] 1 0 ["a;".toList, "b;".toList, "c;".toList]) ∧
    d.insertAt ⟨0, 3⟩ 5 "c;\n".toList = some o' ∧ o'.answer = .ok ⟨0, 3⟩ ∧
    Retains d o'.document ⟨0, 3⟩ w [0] 2 3 ["a;".toList, "c;".toList, "b;".toList] := by
  have hfound : ∃ d ∈ (create 0 "a.ts" "{ a; b; }".toList {} .usual).run
      [.children ⟨0, 0⟩, .children ⟨0, 1⟩], d.diagnostics = [] ∧
      ∃ w, d.node ⟨0, 3⟩ = .ok w ∧ (d.address w = [0, 1] ∧ w.span = .sized 5 2) ∧
      ∃ list ∈ d.tree.at? [0], list.kind = .block ∧ (∀ s ∈ list.statements, s.tree.closes = true) ∧
        list.statements.map Site.text = ["a;".toList, "b;".toList] := by
    decide +kernel
  have hpiece : ∃ c ∈ (⟨0, (ofText "c;".toList).tree⟩ : Site).nodes.head?,
      (⟨0, (ofText "c;".toList).tree⟩ : Site).nodes = [c] ∧ (ofText "c;".toList).diagnostics = [] ∧
        c.span = .sized 0 2 ∧ c.tree.closes = true := by
    decide +kernel
  obtain ⟨d, hrun, hclean, w, hw, ⟨haddress, hspan⟩, list, hlist, hkind, hclosed, htexts⟩ := hfound
  obtain ⟨c, -, hone, htext, hwhole, hcloses⟩ := hpiece
  obtain ⟨⟨o, ho, hanswer, hretains⟩, o', ho', hanswer', hretains'⟩ := insertAt_beside_statement
    (a := [0]) hrun hclean hw haddress hlist (.inr hkind) hclosed htext hone hwhole hcloses
  rw [hspan] at ho ho'
  rw [htexts] at hretains hretains'
  exact ⟨d, w, o, o', hrun, hw, ⟨ho, hanswer, hretains⟩, ho', hanswer', hretains'⟩

end Document
end LiveEdit
