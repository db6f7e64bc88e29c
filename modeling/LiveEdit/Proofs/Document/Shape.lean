import LiveEdit.Proofs.Document.Materialization
import LiveEdit.Proofs.Wrapper.Survival

namespace LiveEdit.Document
open Wrapper Site LiveEdit.Tree List Option

lemma exists_outermostOver? {d : Document} {p : Kind → Bool}
    {a b : Address} {c : Site} (hmem : (a, c) ∈ d.tree.lineage b) (hkind : p c.kind = true) :
    ∃ a' c', d.outermostOver? b c.span p = some a' ∧ d.tree.at? a' = some c' ∧ p c'.kind = true ∧
    c'.span = c.span := by
  have hfind : ((d.tree.lineage b).find? fun c' => p c'.2.kind && c'.2.span = c.span).isSome := by
    apply List.find?_isSome.2
    exact ⟨(a, c), hmem, by simp [hkind]⟩
  obtain ⟨⟨a', c'⟩, hfound⟩ := isSome_iff_exists.1 hfind
  have hin := mem_lineage.1 (mem_of_find?_eq_some hfound)
  have haccept := List.find?_some hfound
  rw [Bool.and_eq_true] at haccept
  exact ⟨a', c', by rw [outermostOver?, hfound]; rfl, hin.2, haccept.1, of_decide_eq_true haccept.2⟩

lemma Wraps.exists_node {d new : Document} {i : NodeId} {u : Wrapper} (h : Wraps d new)
    (hd : d.Graded) (hi : d.node i = .ok u) : ∃ u', new.node i = .ok u' ∧ u'.site = u.site := by
  obtain ⟨-, hmem, hindex⟩ := hd.sound.node_eq_ok.1 hi
  have hearlier : Earlier d.fresh d i :=
    fun _ => hindex ▸ hd.sound.lt_fresh_iff.2 (.inl (mem_indices_of_mem hmem))
  have hmatches := (h.agrees hd le_rfl).node hearlier
  rw [hi] at hmatches
  obtain ⟨u', hu', hheld⟩ := hmatches.exists_ok
  exact ⟨u', hu', hheld.site⟩

structure Reshapes (d : Document) (e : Edit) (text : Text) (U X X' V : List (Kind × Text)) :
    Prop where
  graded : d.Graded
  usual : d.reader = .usual
  clean : d.diagnostics = []
  shape : Parse.SameShape d.text text U X X' V
  edit : e = ⟨(spell U).size, (spell X).size, spell X'⟩
  filled : X ≠ [] ∨ X' ≠ []

namespace Reshapes

variable {d new : Document} {e : Edit} {text : Text} {U X X' V : List (Kind × Text)} {i n : NodeId}
  {u v w : Wrapper} {focus : List Nat} {m : Manipulation}

variable (h : Reshapes d e text U X X' V)
include h

lemma sound : d.Sound := h.graded.sound

lemma exchange : Exchange X X' := h.shape.exchange h.filled

lemma applies (focus : List Nat) : Carrier.Applies ⟨e, focus⟩ X X' := by
  have hpos : ∀ {Y : List (Kind × Text)}, Y ≠ [] → (∀ l ∈ Y, l.2 ≠ []) → 0 < (spell Y).size := by
    intro Y hne htexts
    obtain ⟨l, hl⟩ := exists_mem_of_ne_nil Y hne
    exact spell_pos hl (htexts l hl)
  have hexchange := h.exchange
  rw [h.edit]
  refine ⟨rfl, rfl, Bool.eq_false_iff.2 ?_⟩
  intro hempty
  simp only [Edit.isEmpty, Bool.and_eq_true, decide_eq_true_eq, List.isEmpty_iff] at hempty
  rcases h.filled with hX | hX'
  · exact Nat.ne_of_gt (hpos hX hexchange.old) hempty.1
  · exact Nat.ne_of_gt (hpos hX' hexchange.new) (congrArg Text.size hempty.2)

lemma position : e.position = (spell U).size := by rw [h.edit]

lemma oldSpan : e.oldSpan = .sized (spell U).size (spell X).size := by
  rw [h.edit]
  rfl

lemma tree_eq : d.tree = (Parse.ofText d.text).site :=
  h.sound.tree_usual h.usual

lemma around : Around X X' e.position d.tree (Parse.ofText text).site := by
  rw [h.tree_eq, h.position]
  exact h.shape.around

lemma firm : d.tree.FirmBelow ∧ Site.FirmBelow (Parse.ofText text).site := by
  rw [h.tree_eq]
  exact h.shape.firmBelow ((h.sound.diagnostics_usual h.usual).symm.trans h.clean)

lemma covered_of_lost : ∀ v ∈ (d.carried focus e text).lost, e.oldSpan.contains v.span = true := by
  rw [carried, h.usual]
  exact Carrier.covered_of_lost (h.applies focus)
    h.exchange h.sound.bound h.around h.firm.1 h.firm.2

lemma tree_advance (focus : List Nat) (m : Manipulation) :
    (d.advance focus m e text).1.tree = (Parse.ofText text).site :=
  (h.sound.advance focus m e text).tree_usual h.usual

lemma not_lost_root : d.root ∉ (d.carried focus e text).lost := by
  intro hlost
  have hgrown := Carrier.grownInto_of_around (h.applies focus) h.around
  have hkept : (d.carried focus e text).kept ≠ [] := by
    rw [carried, h.usual, Carrier.carryPath_eq, if_pos]
    · exact cons_ne_nil _ _
    · exact hgrown
  obtain ⟨root', hroot'⟩ := exists_mem_of_ne_nil _ hkept
  have hcarries := h.sound.carries focus e text
  have hnodup := hcarries.numbers.nodup_iff.1 h.sound.nodup
  have hindex : d.root.index ∈ indicesOf (d.carried focus e text).kept := by
    rw [← hcarries.index root' hroot']
    exact mem_indicesOf.2 ⟨root', hroot', mem_indices_of_mem (self_mem_all root')⟩
  have hdisjoint := (nodup_append.1 hnodup).2.2
  exact hdisjoint _ hindex _ (mem_map_of_mem hlost) rfl

lemma exists_twin (hw : w ∈ d.root.all) (hroot : w ≠ d.root) : Firm w.site.tree ∧
    w.site.tree.isNode = true ∧ ∃ c, Site.at? (Parse.ofText text).site (d.address w) = some c ∧
    Firm c.tree ∧ Twin X X' e.position w.site c := by
  have hat : d.tree.at? (d.address w) = some w.site := (h.sound.attached hw).node
  have hne : d.address w ≠ [] := by
    intro hnil
    have hself : d.address d.root = [] := h.sound.address_eq (.here d.root)
    exact hroot (h.sound.eq_of_address hw (self_mem_all _) (hnil.trans hself.symm))
  obtain ⟨hfirm, hnode⟩ := h.firm.1.at? hat hne
  obtain ⟨c, hc, htwin⟩ := (Twin.around h.around).at? hat
  exact ⟨hfirm, hnode, c, hc, (h.firm.2.at? hc hne).1, htwin⟩

lemma covered_iff (hw : w ∈ d.root.all) (hroot : w ≠ d.root) : e.oldSpan.contains w.span = true ↔
      (∃ l ∈ X, l.1.isTrivia = false) ∧ w.span = .sized (spell U).size (spell X).size := by
  rw [h.oldSpan]
  constructor
  · intro hcover
    obtain ⟨hfirm, hnode, c, -, hfirm', htwin⟩ := h.exists_twin hw hroot
    rw [h.position] at htwin
    obtain ⟨hsig, hspan, -⟩ := htwin.eq_of_covered h.exchange hfirm hfirm' hnode hcover
    exact ⟨hsig, hspan⟩
  · rintro ⟨-, hspan⟩
    rw [hspan]
    exact Span.contains_self _

lemma span_pos (hw : w ∈ d.root.all) (hroot : w ≠ d.root) : w.span.start < w.span.stop := by
  obtain ⟨hfirm, hnode, -⟩ := h.exists_twin hw hroot
  exact span_pos_of_firm hfirm hnode

lemma isForgotten_iff (hnew : new = (d.advance focus m e text).1) :
    new.isForgotten i = true ↔ d.isForgotten i = true ∨ ∃ u, d.node i = .ok u ∧ u ≠ d.root ∧
    (∃ l ∈ X, l.1.isTrivia = false) ∧ u.span = .sized (spell U).size (spell X).size := by
  have hloses : Loses d new (d.carried focus e text).lost :=
    hnew ▸ h.sound.loses_advance focus m e text
  constructor
  · intro hforgotten
    by_cases hbefore : d.isForgotten i = true
    · exact .inl hbefore
    · obtain ⟨known, hknown⟩ := isSome_iff_exists.1 hforgotten
      obtain ⟨u, hu, hnode, -⟩ :=
        hloses.exists_of_lastKnown? h.sound (Bool.not_eq_true _ ▸ hbefore) hknown
      have hroot : u ≠ d.root := fun heq => h.not_lost_root (heq ▸ hu)
      exact .inr
        ⟨u, hnode, hroot, (h.covered_iff (hloses.live u hu) hroot).1 (h.covered_of_lost u hu)⟩
  · rintro (hbefore | ⟨u, hnode, hroot, hexact⟩)
    · obtain ⟨known, hknown⟩ := isSome_iff_exists.1 hbefore
      exact isSome_iff_exists.2 ⟨known, hloses.lastKnown? h.sound hknown⟩
    · obtain ⟨hdocument, hu, hindex⟩ := h.sound.node_eq_ok.1 hnode
      have hcover := (h.covered_iff hu hroot).2 hexact
      rcases h.sound.forgotten_or_survives hnew hu with hforgotten | ⟨u', -, hsurvives⟩
      · exact Document.isForgotten_iff.2 ⟨hdocument.trans hloses.tag.symm, hindex ▸ hforgotten⟩
      · have hnot := hsurvives.not_removed hroot (h.span_pos hu hroot)
        exact absurd hcover (Bool.eq_false_iff.1 hnot)

lemma result : e.result? d.text = some text := by
  have hnew : text = spell U ++ (spell X' ++ spell V) := by
    rw [← Parse.spell_lex text, h.shape.new, spell_append, spell_append]
  rw [h.shape.text, hnew, h.edit]
  exact Edit.result?_append _ _ _ rfl rfl

lemma exists_of_not_forgotten (hnew : new = (d.advance focus m e text).1) (hi : d.node i = .ok u)
    (hlive : new.isForgotten i = false) : ∃ u', new.node i = .ok u' ∧ u'.kind = u.kind ∧
      e.Rebinds True (u = d.root) u.site u'.site := by
  obtain ⟨hdocument, hu, hindex⟩ := h.sound.node_eq_ok.1 hi
  have hsound : new.Sound := hnew ▸ h.sound.advance focus m e text
  have htag : new.tag = d.tag := hnew ▸ rfl
  rcases h.sound.forgotten_or_survives hnew hu with hforgotten | ⟨u', hu', hsurvives⟩
  · have hlost := Document.isForgotten_iff.2 ⟨hdocument.trans htag.symm, hindex ▸ hforgotten⟩
    exact absurd hlost (Bool.eq_false_iff.1 hlive)
  · have hindex' : u'.index = u.index := hsurvives.index
    refine ⟨u', hsound.node_eq_ok.2 ⟨hdocument.trans htag.symm, hu', hindex'.trans hindex⟩,
      hsurvives.kind, ?_⟩
    have hkeeps : Keeps d.reader := h.usual ▸ keeps_usual
    exact hsurvives.rebinds h.sound hsound (hnew ▸ h.result)
      (fun _ => ⟨hkeeps, hnew ▸ hkeeps⟩) hu hu'

lemma exists_stand_in (hw : w ∈ d.root.all) (hroot : w ≠ d.root)
    (hnew : new = (d.advance focus m e text).1) (hcover : e.oldSpan.contains w.span = true) :
    ∃ a b c, new.tree.covering? (.sized (spell U).size (spell X').size) = some b ∧
    new.outermostOver? b (.sized (spell U).size (spell X').size) (· == w.kind) = some a ∧
    new.tree.at? a = some c ∧ c.kind = w.kind := by
  obtain ⟨hfirm, hnode, c, hc, hfirm', htwin⟩ := h.exists_twin hw hroot
  have hkind : c.kind = w.kind := htwin.kind
  rw [h.oldSpan] at hcover
  rw [h.position] at htwin
  obtain ⟨-, hspan, haround⟩ := htwin.eq_of_covered h.exchange hfirm hfirm' hnode hcover
  have hover : c.span = .sized (spell U).size (spell X').size := by
    obtain ⟨-, hstart, hstop⟩ := haround.span
    have hfront : w.site.start = (spell U).size := congrArg Span.start hspan
    have hback : w.site.span.stop = (spell U).size + (spell X).size := congrArg Span.stop hspan
    apply Span.eq_of_ends
    · exact hstart.trans hfront
    · change c.span.stop = (spell U).size + (spell X').size
      omega
  have htree : new.tree = (Parse.ofText text).site := hnew ▸ h.tree_advance focus m
  rw [← htree] at hc
  have hpos := span_pos_of_firm hfirm' haround.isNode
  obtain ⟨b, hb, hmem⟩ := mem_lineage_of_contains hc (Span.contains_self _) hpos
  obtain ⟨a, c', ha, hat, haccept, -⟩ :=
    exists_outermostOver? (d := new) (p := (· == w.kind)) hmem (beq_iff_eq.2 hkind)
  rw [hover] at hb ha
  exact ⟨a, b, c', hb, ha, hat, beq_iff_eq.1 haccept⟩

lemma replaceable_eq (hn : d.node n = .ok w)
    (hin : w.span.contains (.sized (spell U).size (spell X).size) = true) :
    d.replaceable n (.sized (spell U).size (spell X).size) = .ok w := by
  have hstart : d.text.isBoundary (spell U).size = true := by
    rw [h.shape.text, Text.isBoundary, Text.cut?_append]
    rfl
  have hstop : d.text.isBoundary ((spell U).size + (spell X).size) = true := by
    rw [h.shape.text, ← Text.size_append, ← append_assoc, Text.isBoundary, Text.cut?_append]
    rfl
  rw [replaceable, hn]
  change
    (if (!w.span.contains _) = true then _ else if (!d.text.isBoundary (spell U).size) = true then _
      else if (!d.text.isBoundary ((spell U).size + (spell X).size)) = true then _ else _) = _
  rw [hin, hstart, hstop]
  rfl

lemma exists_commit (hedit : m.edit? d.text = some e) (i : Nat) : ∃ focus new log,
    d.commit i m = some (new, log) ∧ new = (d.advance focus m e text).1 :=
  ⟨_, _, _, commit_eq_advance hedit (h.applies []).some h.result i, rfl⟩

lemma exists_outcome (hn : d.node n = .ok w)
    (hin : w.span.contains (.sized (spell U).size (spell X).size) = true) : ∃ o i v new focus m,
      d.replaceSpan n (.sized (spell U).size (spell X).size) (spell X') = some o ∧ o.answer =
      .ok i ∧ o.document.node i = .ok v ∧ v.kind = w.kind ∧ new = (d.advance focus m e text).1 ∧
    Wraps new o.document ∧ (new.isForgotten n = false → i = n) := by
  have hedit : (Manipulation.replace (.sized (spell U).size (spell X).size)
      (spell X')).edit? d.text = some e := by
    rw [h.edit, Manipulation.replace, Manipulation.edit?, Span.size, Span.sized,
      Nat.add_sub_cancel_left]
  obtain ⟨focus, new, log, hcommit, hnew⟩ := h.exists_commit hedit w.index
  have hplan := h.replaceable_eq hn hin
  unfold replaceSpan
  rw [hplan]
  simp only [attempt, hcommit, bind_eq_bind, bind_some]
  cases hknown : new.lastKnown? n with
  | none =>
    have hlive : new.isForgotten n = false := by
      rw [isForgotten, hknown]
      rfl
    obtain ⟨v, hv, hkind, -⟩ := h.exists_of_not_forgotten hnew hn hlive
    exact ⟨⟨.ok n, new, log⟩, n, v, new, focus, _, rfl, rfl, hv, hkind, hnew, .refl, fun _ => rfl⟩
  | some known =>
    have hforgotten : new.isForgotten n = true := isSome_iff_exists.2 ⟨known, hknown⟩
    have hwas : d.isForgotten n ≠ true := Bool.eq_false_iff.1 (isForgotten_of_node hn)
    obtain ⟨u, hu, hroot, hexact⟩ := ((h.isForgotten_iff hnew).1 hforgotten).resolve_left hwas
    obtain rfl : u = w := Except.ok.inj (hu.symm.trans hn)
    have hmem := (h.sound.node_eq_ok.1 hn).2.1
    have hcover := (h.covered_iff hmem hroot).2 hexact
    obtain ⟨a, b, c, hb, ha, hat, hkind⟩ := h.exists_stand_in hmem hroot hnew hcover
    have hexpected : Span.sized u.span.start (u.span.size -
        (Span.sized (spell U).size (spell X).size).size + (spell X').size) =
          .sized (spell U).size (spell X').size := by
      rw [hexact.2, Nat.sub_self, Nat.zero_add]
      rfl
    have hsound : new.Sound := hnew ▸ h.sound.advance focus _ e text
    have hplace := hsound.place?_wrap a
    rw [clip_of_at? hat] at hplace
    obtain ⟨v, hv, hsite⟩ := map_eq_some_iff.1 hplace
    have hvkind : v.kind = u.kind := (congrArg (fun p => p.2.kind) hsite).trans hkind
    refine ⟨⟨.ok (new.wrap a).2, (new.wrap a).1, log⟩, (new.wrap a).2, v, new, focus, _, ?_, rfl,
      eq_ok_of_toOption hv, hvkind, hnew, wraps_wrap new a, ?_⟩
    · dsimp only
      rw [hexpected, hb, bind_some, ha]
      rfl
    · intro hlive
      exact absurd hforgotten (Bool.eq_false_iff.1 hlive)

end Reshapes

/-- An edit that puts trivia in the place of trivia, or a token in that of one of its kind, keeps
the shape of a tree without faults. It answers with a live wrapper of the kind of the one that it
was asked of. Among trivia this is the same one, and nothing is forgotten. With a token, forgotten
are just the wrappers other than the root whose nodes are exactly over it. All others stay live, and
their nodes have the text that the edit makes of theirs. -/
theorem forgotten_iff_of_same_shape {d : Document} {n : NodeId} {w : Wrapper} {tag : Nat}
    {file : String} {initial text : Text} {settings : Settings} {ops : List Operation}
    {U X X' V : List (Kind × Text)}
    (hrun : (create tag file initial settings .usual).run ops = some d)
    (hclean : d.diagnostics = []) (hold : Parse.lex d.text = U ++ (X ++ V))
    (hnew : Parse.lex (spell U ++ (text ++ spell V)) = U ++ (X' ++ V)) (hswap : Swap X X')
    (hn : d.node n = .ok w) (hin : w.span.contains (.sized (spell U).size (spell X).size) = true)
    (hsome : Edit.isEmpty ⟨(spell U).size, (spell X).size, text⟩ = false) :
    ∃ o m v, d.replaceSpan n (.sized (spell U).size (spell X).size) text = some o ∧
    o.answer = .ok m ∧ o.document.node m = .ok v ∧ v.kind = w.kind ∧
    o.document.text = spell U ++ (text ++ spell V) ∧
    ((∀ l ∈ X, l.1.isTrivia = true) → m = n ∧ ∀ i, o.document.isForgotten i = d.isForgotten i) ∧
    ((∃ l ∈ X, l.1.isTrivia = false) → ∀ i, o.document.isForgotten i = true ↔
      d.isForgotten i = true ∨
        ∃ u, d.node i = .ok u ∧ u ≠ d.root ∧ u.span = .sized (spell U).size (spell X).size) ∧
    ∀ i u, d.node i = .ok u → o.document.isForgotten i = false →
      ∃ u', o.document.node i = .ok u' ∧ u'.kind = u.kind ∧
      Edit.Rebinds ⟨(spell U).size, (spell X).size, text⟩ True (u = d.root) u.site u'.site := by
  obtain rfl : text = spell X' := by
    have hspell := Parse.spell_lex (spell U ++ (text ++ spell V))
    rw [hnew, spell_append, spell_append, append_cancel_left_eq] at hspell
    exact (append_cancel_right hspell).symm
  have hfilled : X ≠ [] ∨ X' ≠ [] := by
    by_contra hnone
    rw [not_or, not_not, not_not] at hnone
    obtain ⟨rfl, rfl⟩ := hnone
    cases hsome
  have h : Reshapes d ⟨(spell U).size, (spell X).size, spell X'⟩ _ U X X' V :=
    ⟨(graded_create tag file initial settings .usual).moves (moves_run hrun),
      (moves_run hrun).fixed.2, hclean, ⟨hold, hnew, hswap⟩, rfl, hfilled⟩
  obtain ⟨o, m, v, new, focus, manipulation, hreplace, hanswer, hv, hkind, hadvance, hwraps,
    hsame⟩ := h.exists_outcome hn hin
  have hforgotten : ∀ i, o.document.isForgotten i = new.isForgotten i :=
    fun i => congrArg Option.isSome (hwraps.lastKnown? i)
  have hgraded : new.Graded := hadvance ▸ h.graded.advance focus manipulation _ _
  refine ⟨o, m, v, hreplace, hanswer, hv, hkind, ?_, ?_, ?_, ?_⟩
  · rw [(hwraps.agrees hgraded le_rfl).text, hadvance]
    rfl
  · intro htrivia
    have hnone : ∀ i, new.isForgotten i = d.isForgotten i := by
      intro i
      apply Bool.eq_iff_iff.2
      rw [h.isForgotten_iff hadvance]
      apply or_iff_left
      rintro ⟨u, -, -, ⟨l, hl, hsig⟩, -⟩
      exact absurd (htrivia l hl) (Bool.eq_false_iff.1 hsig)
    refine ⟨hsame ((hnone n).trans (isForgotten_of_node hn)), fun i => ?_⟩
    rw [hforgotten, hnone]
  · intro hsig i
    rw [hforgotten, h.isForgotten_iff hadvance]
    simp only [hsig, true_and]
  · intro i u hi hlive
    rw [hforgotten] at hlive
    obtain ⟨u', hu', hkind', hrebinds⟩ := h.exists_of_not_forgotten hadvance hi hlive
    obtain ⟨u'', hu'', hsite⟩ := hwraps.exists_node hgraded hu'
    exact ⟨u'', hu'', (congrArg Site.kind hsite).trans hkind', hsite ▸ hrebinds⟩

theorem forgotten_iff_of_same_shape_name : ∃ d o m v,
    (create 0 "a.ts" "a; b;".toList {} .usual).run [.descendants ⟨0, 0⟩] = some d ∧
      d.replaceSpan ⟨0, 6⟩ (.sized 3 1) "cd".toList = some o ∧ o.answer = .ok m ∧
      o.document.node m = .ok v ∧ v.kind = .name ∧ o.document.text = "a; cd;".toList ∧
      o.document.isForgotten ⟨0, 5⟩ = true ∧ o.document.isForgotten ⟨0, 6⟩ = true ∧
      o.document.isForgotten ⟨0, 4⟩ = false := by
  have hfound : ∃ d ∈ (create 0 "a.ts" "a; b;".toList {} .usual).run [.descendants ⟨0, 0⟩],
      (d.text = "a; b;".toList ∧ d.diagnostics = []) ∧
      ∃ statement, d.node ⟨0, 4⟩ = .ok statement ∧ statement.span = .sized 3 2 ∧
      ∃ expression, d.node ⟨0, 5⟩ = .ok expression ∧
        (expression.span = .sized 3 1 ∧ expression.index ≠ d.root.index) ∧
      ∃ name, d.node ⟨0, 6⟩ = .ok name ∧ name.span = .sized 3 1 ∧ name.index ≠ d.root.index ∧
        name.kind = .name := by
    decide +kernel
  obtain ⟨d, hrun, ⟨htext, hclean⟩, statement, hstatement, hspan, expression, hexpression,
    ⟨hspan', hindex'⟩, name, hname, hspan'', hindex'', hkind⟩ := hfound
  have hold : Parse.lex d.text =
      [(.identifier, ['a']), (.semicolon, [';']), (.whitespace, [' '])] ++
        ([(.identifier, ['b'])] ++ [(.semicolon, [';'])]) := by
    rw [htext]
    decide +kernel
  have hnew : Parse.lex (spell [(.identifier, ['a']), (.semicolon, [';']), (.whitespace, [' '])] ++
      ("cd".toList ++ spell [(.semicolon, [';'])])) =
        [(.identifier, ['a']), (.semicolon, [';']), (.whitespace, [' '])] ++
          ([(.identifier, ['c', 'd'])] ++ [(.semicolon, [';'])]) := by
    decide +kernel
  have hswap : Swap [(.identifier, ['b'])] [(.identifier, ['c', 'd'])] :=
    .token ['b'] ['c', 'd'] (by decide)
  have hin : name.span.contains (.sized 3 1) = true := by
    rw [hspan'']
    decide
  obtain ⟨o, m, v, hreplace, hanswer, hv, hvkind, hdone, -, hforgotten, -⟩ :=
    forgotten_iff_of_same_shape hrun hclean hold hnew hswap hname hin (by decide)
  have hforgotten := hforgotten ⟨_, mem_singleton_self _, by decide⟩
  refine ⟨d, o, m, v, hrun, hreplace, hanswer, hv, hvkind.trans hkind, hdone, ?_, ?_, ?_⟩
  · refine (hforgotten _).2 (.inr ⟨expression, hexpression, ?_, hspan'⟩)
    exact fun heq => hindex' (congrArg index heq)
  · refine (hforgotten _).2 (.inr ⟨name, hname, ?_, hspan''⟩)
    exact fun heq => hindex'' (congrArg index heq)
  · apply Bool.eq_false_iff.2
    intro hlost
    rcases (hforgotten _).1 hlost with hbefore | ⟨u, hu, -, hexact⟩
    · exact absurd hbefore (Bool.eq_false_iff.1 (isForgotten_of_node hstatement))
    · obtain rfl := Except.ok.inj (hstatement.symm.trans hu)
      rw [hspan] at hexact
      exact absurd hexact (by decide)

end LiveEdit.Document
