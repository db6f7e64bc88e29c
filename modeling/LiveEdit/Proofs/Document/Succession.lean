import LiveEdit.Proofs.Document.Navigating
import LiveEdit.Proofs.Document.Unwrapping
import LiveEdit.Proofs.Parse.Hollows

namespace LiveEdit
open List Option

namespace Parse

lemma substantial_ofText (t : Text) : (ofText t).site.Substantial Kind.isStatement := by
  intro b v hv hk
  by_cases hb : b = []
  · subst hb
    obtain rfl := some.inj hv
    cases hk
  · refine Nat.pos_of_ne_zero fun hsize => ?_
    have hkind := (hollow_of_size hv hb hsize).1
    rw [hkind] at hk
    cases hk

end Parse

lemma Unwrapping.oldSpan_edit? {u : Unwrapping} {t : Text} {e : Edit} (h : u.edit? t = some e) :
    e.oldSpan = u.span := by
  obtain ⟨body, -, h⟩ := bind_eq_some_iff.1 h
  obtain rfl := some.inj h
  have hstop : u.span.start + (u.span.stop - u.span.start) = u.span.stop :=
    Nat.add_sub_of_le u.span.le
  simp only [Edit.oldSpan, Span.sized, Span.size, hstop]

namespace Document
open Wrapper

variable {d new : Document} {n : NodeId} {w parent : Wrapper} {u : Unwrapping} {e : Edit} {r : Span}
  {ids : List NodeId}

structure Succeeds (d : Document) (r : Span) (ids : List NodeId) : Prop where
  live : ∀ n ∈ ids, ∃ w, d.node n = .ok w
  nodup : ids.Nodup
  statements : ∀ a s, d.tree.Topmost Kind.isStatement r a s ↔ ∃ n ∈ ids, d.place? n = some (a, s)
  ordered : ids.Pairwise fun n m => ∀ a s b t, d.place? n = some (a, s) → d.place? m = some (b, t) →
    a < b ∧ s.span.stop ≤ t.span.start

lemma succeeds_of_places {as : List Address}
    (hplaces : ids.map d.place? = (as.map d.tree.clip).map some)
    (hmem : ∀ a, a ∈ as ↔ ∃ s, d.tree.Topmost Kind.isStatement r a s)
    (hordered : as.Pairwise d.tree.Precedes) : d.Succeeds r ids := by
  have hclip : ∀ a ∈ as, ∃ s, d.tree.Topmost Kind.isStatement r a s ∧ d.tree.clip a = (a, s) := by
    intro a ha
    obtain ⟨s, hs⟩ := (hmem a).1 ha
    exact ⟨s, hs, Site.clip_of_at? hs.found⟩
  have hfrom : ∀ n ∈ ids, ∃ a ∈ as, d.place? n = some (d.tree.clip a) := by
    intro n hn
    have hin := mem_map_of_mem (f := d.place?) hn
    rw [hplaces, List.map_map] at hin
    obtain ⟨a, ha, heq⟩ := mem_map.1 hin
    exact ⟨a, ha, heq.symm⟩
  have hpairs : ids.Pairwise fun n m => ∀ a s b t, d.place? n = some (a, s) →
      d.place? m = some (b, t) → a < b ∧ s.span.stop ≤ t.span.start := by
    have hall : (ids.map d.place?).Pairwise fun x y => ∀ a s b t, x = some (a, s) →
        y = some (b, t) → a < b ∧ s.span.stop ≤ t.span.start := by
      rw [hplaces, List.map_map, List.pairwise_map]
      refine hordered.imp_of_mem fun {x y} hx hy hxy a s b t ha hb => ?_
      obtain ⟨u, hu, hclipx⟩ := hclip x hx
      obtain ⟨v, hv, hclipy⟩ := hclip y hy
      obtain ⟨rfl, rfl⟩ := Prod.mk.inj (hclipx.symm.trans (some.inj ha))
      obtain ⟨rfl, rfl⟩ := Prod.mk.inj (hclipy.symm.trans (some.inj hb))
      exact ⟨hxy.1, hxy.2 _ _ hu.found hv.found⟩
    exact pairwise_map.1 hall
  refine ⟨fun n hn => ?_, ?_, fun a s => ⟨fun hs => ?_, ?_⟩, hpairs⟩
  · obtain ⟨a, -, hplace⟩ := hfrom n hn
    exact (place?_eq_some.1 hplace).imp fun _ hw => hw.1
  · refine hpairs.imp_of_mem fun {n m} hn _ hlt heq => ?_
    subst heq
    obtain ⟨a, -, hplace⟩ := hfrom n hn
    exact lt_irrefl _ (hlt _ _ _ _ hplace hplace).1
  · have hin : some (d.tree.clip a) ∈ ids.map d.place? := by
      rw [hplaces]
      exact mem_map_of_mem (mem_map_of_mem ((hmem a).2 ⟨s, hs⟩))
    obtain ⟨n, hn, hplace⟩ := mem_map.1 hin
    rw [Site.clip_of_at? hs.found] at hplace
    exact ⟨n, hn, hplace⟩
  · rintro ⟨n, hn, hplace⟩
    obtain ⟨b, hb, hfound⟩ := hfrom n hn
    obtain ⟨t, ht, hclipb⟩ := hclip b hb
    obtain ⟨rfl, rfl⟩ := Prod.mk.inj (hclipb.symm.trans (mem_unique hfound hplace))
    exact ht

lemma Graded.succeeds (h : d.Graded) (husual : d.reader = .usual) (r : Span) :
    (d.wrapAll (d.tree.outermost Kind.isStatement r)).1.Succeeds r
      (d.wrapAll (d.tree.outermost Kind.isStatement r)).2 := by
  have hmem : ∀ a, a ∈ d.tree.outermost Kind.isStatement r ↔
      ∃ s, d.tree.Topmost Kind.isStatement r a s := by
    intro a
    rw [h.sound.tree_usual husual]
    refine Site.mem_outermost (Parse.substantial_ofText d.text) ?_
    rintro ⟨hk, -⟩
    cases hk
  have hordered : (d.tree.outermost Kind.isStatement r).Pairwise d.tree.Precedes :=
    Site.outermost_ordered _ _ _ _
  generalize d.tree.outermost Kind.isStatement r = as at hmem hordered ⊢
  have hplaces := h.places_wrapAll as
  rw [← Wraps.tree (wraps_wrapAll d as) h] at hmem hordered hplaces
  exact succeeds_of_places hplaces hmem hordered

lemma Sound.span_of_unwrapping (h : d.Sound)
    (husual : d.reader = .usual) (hu : d.unwrapping n = .ok (parent, u)) :
    ∃ w, d.node n = .ok w ∧ w ≠ d.root ∧ u.span = w.span ∧ w.span.start < w.span.stop := by
  obtain ⟨w, place, block, left, right, hw, hplace, -, -, hspan, -⟩ := exists_of_unwrapping hu
  have htree := h.tree_usual husual
  have hnode := (h.consistent.attached n w hw).node
  rw [htree] at hnode
  refine ⟨w, hw, ?_, hspan, Nat.lt_add_of_pos_right (Nat.pos_of_ne_zero fun hsize => ?_)⟩
  · rintro rfl
    rw [Wrapper.kind, show d.root.site = _ from htree] at hplace
    cases hplace
  · cases haddress : d.address w with
    | nil =>
      rw [haddress] at hnode
      rw [Wrapper.kind, ← some.inj hnode] at hplace
      cases hplace
    | cons i a =>
      rw [haddress] at hnode
      have hkind := (Parse.hollow_of_size hnode (cons_ne_nil i a) hsize).1
      rw [Wrapper.kind, hkind] at hplace
      cases hplace

lemma Sound.forgotten_of_commit (h : d.Sound)
    {m : Manipulation} {focus : Nat} {log : List Event} (hedit : m.edit? d.text = some e)
    (hcommit : d.commit focus m = some (new, log)) (hw : d.node n = .ok w)
    (hroot : w ≠ d.root) (hpos : w.span.start < w.span.stop) (hcover : e.oldSpan = w.span) :
    new.isForgotten n = true ∧ e.result? d.text = some new.text := by
  obtain ⟨e', hedit', ⟨hskip, -⟩ | ⟨-, text, hresult, hadvance⟩⟩ := exists_of_commit hcommit
  · -- what is taken out has some text
    obtain rfl := mem_unique hedit hedit'
    rw [Edit.isEmpty, Bool.and_eq_true, decide_eq_true_eq] at hskip
    rw [← hcover, Edit.oldSpan, hskip.1] at hpos
    exact absurd hpos (Nat.lt_irrefl _)
  · obtain rfl := mem_unique hedit hedit'
    obtain ⟨hdocument, hmem, hindex⟩ := h.node_eq_ok.1 hw
    have htag := (Move.commit hcommit).fixed.1
    refine ⟨?_, hadvance ▸ hresult⟩
    obtain hforgotten | ⟨w', -, hsurvives⟩ := h.forgotten_or_survives hadvance hmem
    · exact isForgotten_iff.2 ⟨hdocument.trans htag.symm, hindex ▸ hforgotten⟩
    · have hcontains : e.oldSpan.contains w.span = true := hcover ▸ Span.contains_self _
      cases hcontains.symm.trans (hsurvives.not_removed hroot hpos)

/-- A node that is unwrapped gives way to the statements in the text that is put in its place: the
answer has a wrapper for each of the outermost ones, and the node is forgotten. -/
theorem succeeds_of_unwrap {tag : Nat} {file : String} {text : Text} {settings : Settings}
    {ops : List Operation} (hrun : (create tag file text settings .usual).run ops = some d)
    {o : Outcome (List NodeId)} (ho : d.unwrap n = some o) (hok : o.answer = .ok ids) :
    ∃ parent u e w, d.unwrapping n = .ok (parent, u) ∧ u.edit? d.text = some e ∧
    d.node n = .ok w ∧ e.oldSpan = w.span ∧ e.result? d.text = some o.document.text ∧
    o.document.Succeeds e.newSpan ids ∧ o.document.isForgotten n = true := by
  have hgraded : d.Graded := (graded_create tag file text settings .usual).moves (moves_run hrun)
  have husual : d.reader = .usual := (moves_run hrun).fixed.2
  unfold unwrap attempt at ho
  split at ho
  · obtain rfl := some.inj ho
    cases hok
  · cases ho
  next plan hplan =>
    obtain ⟨parent, u⟩ := plan
    obtain ⟨e, hedit, ho⟩ := bind_eq_some_iff.1 ho
    obtain ⟨⟨new, log⟩, hcommit, ho⟩ := bind_eq_some_iff.1 ho
    obtain rfl := some.inj ho
    obtain rfl := Except.ok.inj hok
    obtain ⟨w, hw, hroot, hspan, hpos⟩ := hgraded.sound.span_of_unwrapping husual hplan
    have hplanned : (Manipulation.unwrapping u).edit? d.text = some e := hedit
    have hcover := (Unwrapping.oldSpan_edit? hedit).trans hspan
    obtain ⟨hforgotten, hresult⟩ :=
      hgraded.sound.forgotten_of_commit hplanned hcommit hw hroot hpos hcover
    have hnew : new.Graded := hgraded.move (.commit hcommit)
    have hwraps := wraps_wrapAll new (new.tree.outermost Kind.isStatement e.newSpan)
    refine ⟨parent, u, e, w, hplan, hedit, hw, hcover, ?_, hnew.succeeds ?_ e.newSpan, ?_⟩
    · rw [Wraps.text_eq hwraps, hresult]
    · exact (Move.commit hcommit).fixed.2.trans husual
    · rw [isForgotten, hwraps.lastKnown?]
      exact hforgotten

theorem succeeds_of_unwrap_namespace : ∃ d o ids,
    (create 0 "a.ts" "c; namespace N \x7b\n  a;\n  \x7b b; \x7d\n\x7d d;".toList {} .usual).run
      [.descendants ⟨0, 0⟩] = some d ∧ d.unwrap ⟨0, 4⟩ = some o ∧ o.answer = .ok ids ∧
    ids.length = 2 ∧ o.document.isForgotten ⟨0, 4⟩ = true ∧ ∃ r, o.document.Succeeds r ids := by
  have hfound : ∃ d ∈
      (create 0 "a.ts" "c; namespace N \x7b\n  a;\n  \x7b b; \x7d\n\x7d d;".toList {} .usual).run
      [.descendants ⟨0, 0⟩], ∃ o ∈ d.unwrap ⟨0, 4⟩, ∃ ids, o.answer = .ok ids ∧ ids.length = 2 := by
    decide +kernel
  obtain ⟨d, hrun, o, ho, ids, hok, hlength⟩ := hfound
  obtain ⟨parent, u, e, w, -, -, -, -, -, hsucceeds, hforgotten⟩ := succeeds_of_unwrap hrun ho hok
  exact ⟨d, o, ids, hrun, ho, hok, hlength, hforgotten, _, hsucceeds⟩

end Document
end LiveEdit
