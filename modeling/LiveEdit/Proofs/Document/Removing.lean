import LiveEdit.Proofs.Document.Clearing
import LiveEdit.Proofs.Parse.Views

namespace LiveEdit
open List hiding count

namespace Kind

variable {k j : Kind}

lemma lists_of_holds (h : k.holds j = true)
    (hj : j = .enumMember ∨ j = .parameter ∨ j = .variableDeclaration ∨ j.isClassMember = true) :
    k.lists j = true := by
  simp only [isClassMember, Bool.or_eq_true, decide_eq_true_eq] at hj
  rcases hj with rfl | rfl | rfl | rfl | rfl <;> revert h <;> cases k <;> decide

lemma hasCommas_of_lists (h : k.lists j = true)
    (hj : j = .enumMember ∨ j = .parameter ∨ j = .variableDeclaration) : k.hasCommas = true := by
  rcases hj with rfl | rfl | rfl <;> revert h <;> cases k <;> decide

lemma eq_class_of_lists (h : k.lists j = true) (hj : j.isClassMember = true) :
    k = .classDeclaration := by
  simp only [isClassMember, Bool.or_eq_true, decide_eq_true_eq] at hj
  rcases hj with rfl | rfl <;> revert h <;> cases k <;> decide

end Kind

def Site.statementBefore? (s : Site) (n : Nat) : Option Site :=
  ((s.nodes.take n).filter (·.kind.isStatement)).getLast?

lemma Site.statementBefore?_at {u : Tree} (n : Nat)
    (k : Kind) (A B : List Tree) (hnode : u.isNode = true) (hkind : u.kind.isStatement = true) :
    (⟨n, .node k (A ++ u :: B)⟩ : Site).statementBefore? (Tree.count A + 1) =
      some ⟨n + Tree.sizeAll A, u⟩ := by
  have hnodes : (⟨n, .node k (A ++ u :: B)⟩ : Site).nodes = (row n A).filter (·.tree.isNode) ++
      ⟨n + Tree.sizeAll A, u⟩ :: (row (n + Tree.sizeAll A + u.size) B).filter (·.tree.isNode) := by
    rw [nodes, elements, Tree.children, row_append, row, filter_append,
      filter_cons_of_pos (p := fun s : Site => s.tree.isNode) hnode]
  rw [statementBefore?, hnodes, ← length_nodes n A, take_length_add_append, take_succ_cons,
    take_zero, filter_append, filter_cons_of_pos (p := fun s : Site => s.kind.isStatement)
    (a := ⟨n + Tree.sizeAll A, u⟩) hkind, filter_nil, getLast?_concat]

lemma Site.Lies.isBoundary {t : Text} {n : Nat} {k : Kind} {A B : List Tree}
    (h : Lies t ⟨n, .node k (A ++ B)⟩) : t.isBoundary (n + Tree.sizeAll A) = true := by
  obtain ⟨a, b, rfl, ha⟩ := h
  refine Text.isBoundary_iff.2 ⟨a ++ Tree.textAll A, Tree.textAll B ++ b, ?_, ?_⟩
  · simp [Site.text, Tree.text, Tree.textAll_append]
  · rw [Text.size_append, ← Tree.sizeAll_eq_text, ha]

namespace Document
open Failure Text LiveEdit.Tree Parse Wrapper Grammar

variable {d : Document} {n : NodeId} {w parent : Wrapper} {start : Nat} {k : Kind}
  {F P S G C V L R : List Tree} {trim : Trim} {x : Text}

lemma not_listItem {j : Kind} (h : k.lists j = true)
    (hk : k = .sourceFile ∨ k = .block ∨ k = .classDeclaration) : isListItem k j = false := by
  rcases hk with rfl | rfl | rfl <;> revert h <;> cases j <;> decide

/-- An item of a list of a document without faults, with what stands around it. -/
structure Enlisted (d : Document) (n : NodeId) (w parent : Wrapper) (start : Nat) (k : Kind)
    (F P S G : List Tree) : Prop where
  graded : d.Graded
  usual : d.reader = .usual
  clean : d.diagnostics = []
  node : d.node n = .ok w
  above : d.root.parent? w.index = some parent
  site : parent.site = ⟨start, .node k (F ++ ((P ++ w.site.tree :: S) ++ G))⟩
  bed : Bed (d.address parent) k F (P ++ w.site.tree :: S) G
  isNode : w.site.tree.isNode = true
  ordinal : count (F ++ P) = w.ordinal
  place : w.span.start = start + sizeAll (F ++ P)

lemma exists_enlisted (hgraded : d.Graded) (husual : d.reader = .usual)
    (hclean : d.diagnostics = [])
    (hn : d.node n = .ok w) (hp : d.root.parent? w.index = some parent)
    (hport : parent.kind = .sourceFile ∨ ∃ r, Port parent.kind r)
    (hmodifier : w.kind ≠ .modifier) (hname : w.kind ≠ .name)
    (hclosed : parent.kind = .variableStatement → parent.site.tree.closes = true) :
    ∃ start F P S G, Enlisted d n w parent start parent.kind F P S G := by
  have hsound := hgraded.sound
  have hkeeps : Keeps d.reader := husual ▸ keeps_usual
  have hclean' := (hsound.diagnostics_usual husual).symm.trans hclean
  obtain ⟨-, hnode⟩ := hsound.parent_lies hkeeps hn hp
  have hat : (ofText d.text).site.at? (d.address parent) = some parent.site := by
    rw [← hsound.tree_usual husual]
    exact (hsound.attached (exists_of_parent? hp).1).node
  have hisNode : w.site.tree.isNode = true := (mem_filter.1 (mem_of_getElem? hnode)).2
  rw [Wrapper.kind] at hport hclosed ⊢
  generalize hsite : parent.site = s at hnode hat hport hclosed
  obtain ⟨start, tree⟩ := s
  cases tree with
  | token j x => cases hnode
  | node k ts =>
    obtain ⟨A, B, rfl, hordinal, hplace⟩ := Site.exists_split hnode
    obtain ⟨F, M, G, heq, hbed⟩ := exists_bed hclean' hat hport fun hk => by
      obtain ⟨l, hl, hmark⟩ := exists_of_closes (hclosed hk)
      exact closed_outlineAll hl hmark
    have hlists : k.lists w.kind = true :=
      hbed.lists_of_mem (heq ▸ mem_append_right A mem_cons_self) hisNode hmodifier hname
    obtain ⟨P, S, rfl, rfl, rfl⟩ := hbed.exists_item heq.symm hisNode hlists
    refine ⟨start, F, P, S, G, hgraded, husual, hclean, hn, hp, ?_, hbed, hisNode, hordinal, hplace⟩
    rw [hsite, heq]
    rfl

namespace Enlisted

variable (h : Enlisted d n w parent start k F P S G)
include h

lemma clean_text : (ofText d.text).diagnostics = [] :=
  (h.graded.sound.diagnostics_usual h.usual).symm.trans h.clean

lemma kind : parent.kind = k := congrArg Site.kind h.site

lemma at? : (ofText d.text).site.at? (d.address parent) =
      some ⟨start, .node k (F ++ ((P ++ w.site.tree :: S) ++ G))⟩ := by
  rw [← h.graded.sound.tree_usual h.usual, ← h.site]
  exact (h.graded.sound.attached (exists_of_parent? h.above).1).node

lemma lies : Site.Lies d.text ⟨start, .node k (F ++ ((P ++ w.site.tree :: S) ++ G))⟩ := by
  rw [← h.site]
  exact (h.graded.sound.parent_lies (h.usual ▸ keeps_usual) h.node h.above).1

lemma span : w.span = .sized (start + sizeAll (F ++ P)) w.site.tree.size := by
  rw [← h.place]
  rfl

lemma isBoundary : d.text.isBoundary w.span.start = true :=
  (h.graded.sound.node_lies (h.usual ▸ keeps_usual) h.node).start_isBoundary

lemma firm : Firm w.site.tree :=
  firm_of_at? h.clean_text h.at? _ (by simp)

lemma exists_outline : ∃ o, o ≠ .leaf .comma ∧
    outlineAll (P ++ w.site.tree :: S) = outlineAll P ++ o :: outlineAll S := by
  obtain ⟨o, -, ho, hcomma⟩ := mem_outline_of_node (mem_singleton_self w.site.tree) h.isNode
  refine ⟨o, hcomma, ?_⟩
  rw [outlineAll_append, outlineAll, ho]
  rfl

lemma exists_cleared (hlist : P ++ w.site.tree :: S = L ++ (C ++ R))
    (hcount : count L = count P) (hitem : C.filter Tree.isNode = [w.site.tree])
    (hheavy : ∃ m ∈ (leavesAll C).head?, m.1.isTrivia = false) (htrim : trim.newlinesBefore = false)
    (hremoval : d.removal parent w = .ok ⟨.sized (start + sizeAll (F ++ L)) (sizeAll C), trim, []⟩)
    (hparse : ∀ p : Clearing d.text (d.address parent) start k C trim,
      p.place = start + sizeAll (F ++ L) → outlineAll p.before = outlineAll L → outlineAll p.after =
      outlineAll R → (ofText p.text).tree = p.tree ∧ (ofText p.text).diagnostics = []) :
    ∃ p : Clearing d.text (d.address parent) start k C trim, Cleared d n w parent p := by
  obtain ⟨p, hF, hP, hS, hG⟩ := exists_clearing h.clean_text (hlist ▸ h.at?) (hlist ▸ h.bed) trim
  have hplace : p.place = start + sizeAll (F ++ L) := by
    rw [Clearing.place, hF, ← hP, sizeAll_append, sizeAll_append, sizeAll_append, size_pad]
    omega
  have hbefore : outlineAll p.before = outlineAll L := by
    rw [← hP, outlineAll_append, outlineAll_pad, append_nil]
  have hafter : outlineAll p.after = outlineAll R := by
    rw [← hS, outlineAll_append, outlineAll_pad, nil_append]
  refine ⟨p, h.graded, h.usual, h.clean, h.node, h.above, ?_, hheavy, hitem, ?_, htrim,
    hplace ▸ hremoval, hparse p hplace hbefore hafter⟩
  · rw [h.site, hlist, Clearing.list, ← hP, ← hS, hF, hG]
    simp
  · have hpad : count L = count p.before := by
      rw [← hP, count, count, countP_append, countP_eq_length_filter (l := pad p.left), filter_pad]
      rfl
    rw [← h.ordinal, hF, count, count, countP_append, countP_append]
    exact congrArg _ (hpad.symm.trans hcount)

omit h in
lemma exists_cleared_item (h : Enlisted d n w parent start k F P (V ++ R) G)
    (hV : V.filter Tree.isNode = [])
    (hremoval : ∀ trim, d.removalTrim w.span.start (w.span.start + sizeAll (w.site.tree :: V)) = .ok
      trim → d.removal parent w = .ok ⟨.sized w.span.start (sizeAll (w.site.tree :: V)), trim, []⟩)
    (hfits : Fits k (outlineAll P ++ outlineAll R))
    (hclosed : k = .sourceFile ∨ k = .block → outlineAll P = [] ∨ Outline.Closed (outlineAll P))
    (hready : k.hasCommas = true → Outline.Ready (outlineAll P)) :
    ∃ trim, ∃ p : Clearing d.text (d.address parent) start k (w.site.tree :: V) trim,
      Cleared d n w parent p := by
  have hlies := h.lies
  have hregroup : F ++ ((P ++ w.site.tree :: (V ++ R)) ++ G) =
      (F ++ P) ++ ((w.site.tree :: V) ++ (R ++ G)) := by
    simp
  rw [hregroup, ← append_assoc] at hlies
  have hstop := hlies.isBoundary
  rw [sizeAll_append, ← add_assoc, ← h.place] at hstop
  obtain ⟨trim, htrim, hnewlines, hline⟩ := exists_removalTrim h.isBoundary hstop
  obtain ⟨m, hm, hheavy⟩ := StartsHeavy.of_firm h.firm h.isNode
  refine ⟨trim, h.exists_cleared (L := P) (R := R) rfl rfl ?_ ⟨m, ?_, hheavy.1⟩ hnewlines
    (h.place ▸ hremoval trim htrim) fun p hplace hbefore hafter => ?_⟩
  · rw [filter_cons_of_pos h.isNode, hV]
  · rw [leavesAll, head?_append, Option.mem_def.1 hm]
    rfl
  · refine p.parse_item h.clean_text h.isNode hnewlines (hline _ _ _ p.text_eq ?_ ?_) ?_
      (hbefore ▸ hclosed) (hbefore ▸ hready)
    · rw [p.place_eq, hplace, h.place]
    · rw [p.place_eq, hplace, h.place, sizeAll_eq_text (w.site.tree :: V)]
    · rwa [outlineAll_append, hbefore, hafter]

omit h in
lemma exists_cleared_next (h : Enlisted d n w parent start k F P (V ++ .token .comma x :: R) G)
    (hk : k.hasCommas = true) (hitem : isListItem k w.kind = true) (hV : ∀ t ∈ V, t.IsTrivia)
    (hnext : parent.site.next? w.ordinal =
      some ⟨start + sizeAll (F ++ P) + w.site.tree.size + sizeAll V, .token .comma x⟩) :
    ∃ C trim, ∃ p : Clearing d.text (d.address parent) start k C trim, Cleared d n w parent p := by
  obtain ⟨o, ho, houtline⟩ := h.exists_outline
  have hfits := h.bed.fits
  have hbehind : outlineAll (V ++ .token .comma x :: R) = .leaf .comma :: outlineAll R := by
    rw [outlineAll_append, outlineAll_eq_nil hV]
    rfl
  rw [houtline, hbehind] at hfits
  have hregroup : V ++ Tree.token .comma x :: R = (V ++ [.token .comma x]) ++ R := by simp
  have hplain : (V ++ [Tree.token .comma x]).filter Tree.isNode = [] := by
    rw [filter_append, filter_trivia hV]
    rfl
  refine ⟨_, (hregroup ▸ h).exists_cleared_item hplain (fun trim htrim => ?_)
    (hfits.remove_with_next hk ho) (fun hstatements => ?_) fun _ => (hfits.split hk ho).1⟩
  · refine removal_next (h.kind ▸ hitem) hnext rfl ?_ htrim
    simp only [Site.span_stop, h.place, sizeAll_append, sizeAll]
    omega
  · rcases hstatements with rfl | rfl <;> cases hk

omit h in
lemma exists_cleared_previous (h : Enlisted d n w parent start k F (P ++ .token .comma x :: V) S G)
    (hk : k.hasCommas = true) (hitem : isListItem k w.kind = true)
    (hV : ∀ t ∈ V, t.IsTrivia) (hnext : ∀ z ∈ parent.site.next? w.ordinal, z.kind ≠ .comma)
    (hS : ∀ ps, outlineAll S ≠ .leaf .comma :: ps) (hprevious : parent.site.previous? w.ordinal =
      some ⟨start + sizeAll (F ++ P), .token .comma x⟩) :
    ∃ C trim, ∃ p : Clearing d.text (d.address parent) start k C trim, Cleared d n w parent p := by
  obtain ⟨o, ho, houtline⟩ := h.exists_outline
  have hfits := h.bed.fits
  have hbefore : outlineAll (P ++ .token .comma x :: V) = outlineAll P ++ [.leaf .comma] := by
    rw [outlineAll_append, outlineAll, outlineAll_eq_nil hV]
    rfl
  rw [houtline, hbefore, append_assoc] at hfits
  obtain ⟨hnil, hfits⟩ := Fits.remove_with_previous hk hfits hS
  have hlist : (P ++ .token .comma x :: V) ++ w.site.tree :: S =
      P ++ ((.token .comma x :: (V ++ [w.site.tree])) ++ S) := by simp
  refine ⟨_, {},
    h.exists_cleared hlist ?_ ?_ ⟨(.comma, x), rfl, rfl⟩ rfl ?_ fun p _ hbefore hafter => ?_⟩
  · rw [count, count, countP_append, countP_cons_of_neg (by simp [Tree.isNode]), ← count, ← count,
      count_trivia hV]
    rfl
  · rw [filter_cons_of_neg (by simp [Tree.isNode]), filter_append, filter_trivia hV, nil_append,
      filter_cons_of_pos h.isNode]
    rfl
  · have hspan : w.span.stop =
        start + sizeAll (F ++ P) + sizeAll (.token .comma x :: (V ++ [w.site.tree])) := by
      rw [h.span, Span.sized]
      simp only [sizeAll_append, sizeAll]
      omega
    exact removal_previous (h.kind ▸ hitem) hnext hprevious rfl hspan h.isBoundary
  · exact p.parse_last h.clean_text hk (hbefore ▸ hfits) (hafter.trans hnil)

lemma exists_cleared_plain (hcomma : isListItem k w.kind = true →
      (∀ z ∈ parent.site.next? w.ordinal, z.kind ≠ .comma) ∧ ∀ z ∈ parent.site.previous? w.ordinal,
      z.kind ≠ .comma) (hfits : Fits k (outlineAll P ++ outlineAll S))
    (hclosed : k = .sourceFile ∨ k = .block → outlineAll P = [] ∨ Outline.Closed (outlineAll P))
    (hready : k.hasCommas = true → Outline.Ready (outlineAll P)) :
    ∃ trim, ∃ p : Clearing d.text (d.address parent) start k [w.site.tree] trim,
      Cleared d n w parent p := by
  refine exists_cleared_item (V := []) h rfl (fun trim htrim => ?_) hfits hclosed hready
  have hsize : sizeAll [w.site.tree] = w.site.tree.size := add_zero _
  rw [hsize] at htrim ⊢
  exact removal_plain htrim (h.kind ▸ hcomma)

lemma exists_cleared_comma (hk : k.hasCommas = true) (hitem : isListItem k w.kind = true)
    (hmore : k = .variableStatement → 2 ≤ count (P ++ w.site.tree :: S)) :
    ∃ C trim, ∃ p : Clearing d.text (d.address parent) start k C trim, Cleared d n w parent p := by
  have hstatements : ¬ (k = .sourceFile ∨ k = .block) := by
    rintro (rfl | rfl) <;> cases hk
  have hsite := h.site
  rcases Site.next?_bed h.bed h.isNode start with ⟨V, x, R, rfl, hV, hnext⟩ | ⟨hS, hnext⟩
  · rw [← hsite, h.ordinal] at hnext
    exact h.exists_cleared_next hk hitem hV hnext
  · rw [← hsite, h.ordinal] at hnext
    rcases Site.previous?_bed h.bed h.isNode start
      with ⟨L, x, V, rfl, hV, hprevious⟩ | ⟨hP, hprevious⟩
    · rw [← hsite, h.ordinal] at hprevious
      exact h.exists_cleared_previous hk hitem hV hnext hS hprevious
    · rw [← hsite, h.ordinal] at hprevious
      obtain ⟨o, ho, houtline⟩ := h.exists_outline
      have hfits := h.bed.fits
      rw [houtline] at hfits
      obtain ⟨hleft, hright⟩ := hfits.single_of_no_comma hk ho hP hS
      have hvariable : k ≠ .variableStatement := by
        intro heq
        have hone : count (P ++ w.site.tree :: S) = 1 := by
          rw [count, countP_append, countP_cons_of_pos h.isNode, ← count, ← count, count_trivia
            (isTrivia_of_outlineAll hleft), count_trivia (isTrivia_of_outlineAll hright)]
        have htwo := hmore heq
        omega
      refine ⟨_, h.exists_cleared_plain (fun _ => ⟨hnext, hprevious⟩) ?_
        (fun heq => absurd heq hstatements) fun _ => .inl hleft⟩
      rw [hleft, hright]
      exact fits_nil hk hvariable

lemma count_items {j : Kind} (hj : k.lists j = true) :
    (parent.site.nodes.filter (·.kind == j)).length ≤ count (P ++ w.site.tree :: S) := by
  have hnone : ∀ L : List Tree, (∀ u ∈ L, u.isNode = true → u.kind ≠ j) →
      (L.filter Tree.isNode).filter (·.kind == j) = [] := by
    intro L hL
    simp only [filter_eq_nil_iff, mem_filter, beq_iff_eq]
    exact fun u hu => hL u hu.1 hu.2
  have hF := hnone F fun u hu hnode heq =>
    (heq ▸ h.bed.heads hu hnode).elim (ne_of_lists hj).1 (ne_of_lists hj).2.1
  have hG := hnone G fun u hu hnode => absurd hnode (Bool.eq_false_iff.1 (h.bed.tails hu).1)
  have hnodes : (parent.site.nodes.filter (·.kind == j)).length =
      (((F ++ ((P ++ w.site.tree :: S) ++ G)).filter Tree.isNode).filter (·.kind == j)).length := by
    rw [h.site, ← Site.trees_row start, filter_map, length_map]
    rfl
  rw [hnodes, filter_append, filter_append, hF, nil_append, filter_append,
    filter_append, hG, append_nil, count, countP_eq_length_filter]
  exact length_filter_le _ _

lemma closed_before (hk : k = .sourceFile ∨ k = .block)
    (hclosed : ∀ s ∈ parent.site.statementBefore? w.ordinal, s.tree.closes = true) :
    outlineAll P = [] ∨ Outline.Closed (outlineAll P) := by
  rcases exists_last_item P with htrivia | ⟨L, u, V, rfl, hV, hu⟩
  · exact .inl (outlineAll_eq_nil htrivia)
  · rcases h.bed.mem u (by simp) with htrivia | ⟨hcommas, -⟩ | ⟨j, ps, rfl, hj⟩
    · exact absurd htrivia hu
    · rcases hk with rfl | rfl <;> cases hcommas
    · have hstatement : j.isStatement = true := by
        rcases hk with rfl | rfl <;> exact hj
      have hordinal : w.ordinal = count (F ++ L) + 1 := by
        have hregroup : F ++ (L ++ .node j ps :: V) = (F ++ L) ++ .node j ps :: V := by simp
        rw [← h.ordinal, hregroup, count, countP_append, countP_cons_of_pos rfl, ← count, ← count,
          count_trivia hV]
      have hbefore : parent.site.statementBefore? w.ordinal =
          some ⟨start + sizeAll (F ++ L), .node j ps⟩ := by
        have hregroup : F ++ (((L ++ .node j ps :: V) ++ w.site.tree :: S) ++ G) =
            (F ++ L) ++ .node j ps :: (V ++ w.site.tree :: (S ++ G)) := by simp
        rw [h.site, hregroup, hordinal]
        exact Site.statementBefore?_at start k (F ++ L) _ rfl hstatement
      obtain ⟨l, hl, hmark⟩ := exists_of_closes (hclosed _ hbefore)
      have houtline : outlineAll (L ++ .node j ps :: V) = outlineAll (L ++ [.node j ps]) := by
        rw [outlineAll_append, outlineAll_append, outlineAll, outlineAll, outlineAll_eq_nil hV]
        rfl
      rw [houtline]
      refine .inr (closed_outlineAll (l := l) ?_ hmark)
      rw [leavesAll_append, leavesAll, leavesAll, append_nil, getLast?_append, hl]
      rfl

lemma exists_cleared_statement (hk : k = .sourceFile ∨ k = .block ∨ k = .classDeclaration)
    (hitem : isListItem k w.kind = false)
    (hclosed : k = .classDeclaration ∨ outlineAll P = [] ∨ Outline.Closed (outlineAll P)) :
    ∃ trim, ∃ p : Clearing d.text (d.address parent) start k [w.site.tree] trim,
      Cleared d n w parent p := by
  obtain ⟨o, -, houtline⟩ := h.exists_outline
  have hfits := h.bed.fits
  have hf := faults_outlineAll (P ++ w.site.tree :: S)
  rw [houtline] at hfits hf
  refine h.exists_cleared_plain (fun hlist => ?_) (fits_remove hk hfits hf hclosed) (fun heq => ?_)
    fun hcommas => ?_
  · rw [hitem] at hlist
    cases hlist
  · refine hclosed.resolve_left ?_
    rintro rfl
    rcases heq with heq | heq <;> cases heq
  · rcases hk with rfl | rfl | rfl <;> cases hcommas

end Enlisted

lemma Sound.exists_parent? (h : d.Sound) (husual : d.reader = .usual) (hn : d.node n = .ok w)
    (hkind : w.kind ≠ .sourceFile) : ∃ parent, d.root.parent? w.index = some parent := by
  have hne : w ≠ d.root := by
    rintro rfl
    have htree := congrArg Site.kind (h.tree_usual husual)
    rw [Site.kind, Parse.site, Site.kind, tree_ofText] at htree
    exact hkind htree
  obtain ⟨parent, hparent, hchild⟩ := exists_parent (h.node_eq_ok.1 hn).2.1 hne
  exact ⟨parent, parent?_of_child h.nodup hparent hchild⟩

lemma Sound.holds_parent (h : d.Sound) (husual : d.reader = .usual) (hclean : d.diagnostics = [])
    (hn : d.node n = .ok w) (hp : d.root.parent? w.index = some parent) :
    parent.kind.holds w.kind = true := by
  have hclean' := (h.diagnostics_usual husual).symm.trans hclean
  obtain ⟨-, hnode⟩ := h.parent_lies (husual ▸ keeps_usual) hn hp
  have hat : (ofText d.text).site.at? (d.address parent) = some parent.site := by
    rw [← h.tree_usual husual]
    exact (h.attached (exists_of_parent? hp).1).node
  have hmem := mem_filter.1 (mem_of_getElem? hnode)
  rw [Wrapper.kind, Wrapper.kind]
  generalize parent.site = s at hat hmem
  obtain ⟨start, tree⟩ := s
  cases tree with
  | token j x => cases hmem.1
  | node k ts => exact holds_of_at? hclean' hat (Site.mem_children_of_row hmem.1) hmem.2

lemma exists_enlisted_comma (hgraded : d.Graded)
    (husual : d.reader = .usual) (hclean : d.diagnostics = []) (hn : d.node n = .ok w)
    (hitem : w.kind = .enumMember ∨ w.kind = .parameter ∨ ∃ p, d.root.parent? w.index = some p ∧
      (p.kind = .argumentList ∨ (w.kind = .variableDeclaration ∧ 2 ≤
      (p.site.nodes.filter (·.kind == .variableDeclaration)).length ∧ p.site.tree.closes = true))) :
    ∃ p start F P S G, Enlisted d n w p start p.kind F P S G ∧
    p.kind.hasCommas = true ∧ isListItem p.kind w.kind = true ∧
    (p.kind = .variableStatement → 2 ≤ count (P ++ w.site.tree :: S)) := by
  have hsound := hgraded.sound
  -- The parent tells all, and only of variables more is asked.
  have hlisted : ∀ p, d.root.parent? w.index = some p → isListItem p.kind w.kind = true →
      (p.kind = .argumentList ∨ w.kind = .enumMember ∨ w.kind = .parameter ∨
        w.kind = .variableDeclaration) →
      (p.kind = .variableStatement → p.site.tree.closes = true ∧
        2 ≤ (p.site.nodes.filter (·.kind == .variableDeclaration)).length) →
      ∃ p start F P S G, Enlisted d n w p start p.kind F P S G ∧ p.kind.hasCommas = true ∧
        isListItem p.kind w.kind = true ∧
        (p.kind = .variableStatement → 2 ≤ count (P ++ w.site.tree :: S)) := by
    intro p hp hlist hkind hvariables
    have hholds := hsound.holds_parent husual hclean hn hp
    obtain ⟨hcommas, hport, hmodifier, hname⟩ : p.kind.hasCommas = true ∧ (∃ r, Port p.kind r) ∧
        w.kind ≠ .modifier ∧ w.kind ≠ .name := by
      rcases hkind with hkind | hkind
      · rw [hkind] at hholds ⊢
        refine ⟨rfl, ⟨_, .arguments⟩, ?_, ?_⟩ <;> intro heq <;> rw [heq] at hholds <;> cases hholds
      · have hlists := Kind.lists_of_holds hholds (hkind.imp_right (·.imp_right .inl))
        have hcommas := Kind.hasCommas_of_lists hlists hkind
        refine ⟨hcommas, (port_of_lists hlists).resolve_left fun heq => ?_, (ne_of_lists hlists).1,
          (ne_of_lists hlists).2.1⟩
        rw [heq] at hcommas
        cases hcommas
    obtain ⟨start, F, P, S, G, h⟩ := exists_enlisted hgraded husual hclean hn hp (.inr hport)
      hmodifier hname fun hk => (hvariables hk).1
    exact ⟨p, start, F, P, S, G, h, hcommas, hlist, fun hk =>
      Nat.le_trans (hvariables hk).2 (h.count_items (by rw [hk]; rfl))⟩
  rcases or_assoc.2 hitem with hkind | ⟨p, hp, hkind | ⟨hkind, hmore, hclosed⟩⟩
  · obtain ⟨p, hp⟩ :=
      hsound.exists_parent? husual hn (by rcases hkind with hkind | hkind <;> simp [hkind])
    refine hlisted p hp ?_ (.inr (hkind.imp_right .inl)) fun hk => ?_
    · rcases hkind with hkind | hkind <;> simp [isListItem, hkind]
    · have hholds := hsound.holds_parent husual hclean hn hp
      rw [hk] at hholds
      rcases hkind with hkind | hkind <;> rw [hkind] at hholds <;> cases hholds
  · refine hlisted p hp (by simp [isListItem, hkind]) (.inl hkind) fun hk => ?_
    rw [hkind] at hk
    cases hk
  · exact hlisted p hp (by simp [isListItem, hkind]) (.inr (.inr (.inr hkind))) fun _ =>
      ⟨hclosed, hmore⟩

lemma exists_enlisted_statement (hgraded : d.Graded) (husual : d.reader = .usual)
    (hclean : d.diagnostics = []) (hn : d.node n = .ok w) (hitem : w.kind.isClassMember = true ∨
      ∃ p, d.root.parent? w.index = some p ∧ (p.kind = .sourceFile ∨ p.kind = .block) ∧
      w.kind.isStatement = true ∧ ∀ s ∈ p.site.statementBefore? w.ordinal, s.tree.closes = true) :
    ∃ p start F P S G, Enlisted d n w p start p.kind F P S G ∧
    (p.kind = .sourceFile ∨ p.kind = .block ∨ p.kind = .classDeclaration) ∧
    isListItem p.kind w.kind = false ∧
    (p.kind = .classDeclaration ∨ outlineAll P = [] ∨ Outline.Closed (outlineAll P)) := by
  have hsound := hgraded.sound
  rcases hitem with hmember | ⟨p, hp, hk, hstatement, hclosed⟩
  · obtain ⟨p, hp⟩ := hsound.exists_parent? husual hn fun heq => by
      rw [heq] at hmember
      cases hmember
    have hlists :=
      Kind.lists_of_holds (hsound.holds_parent husual hclean hn hp) (.inr (.inr (.inr hmember)))
    have hclass : p.kind = .classDeclaration := Kind.eq_class_of_lists hlists hmember
    obtain ⟨start, F, P, S, G, h⟩ :=
      exists_enlisted hgraded husual hclean hn hp (port_of_lists hlists)
      (ne_of_lists hlists).1 (ne_of_lists hlists).2.1 fun heq => by
        rw [hclass] at heq
        cases heq
    exact ⟨p, start, F, P, S, G, h, .inr (.inr hclass), not_listItem hlists (.inr (.inr hclass)),
      .inl hclass⟩
  · have hlists : p.kind.lists w.kind = true := by
      rcases hk with hk | hk <;> rw [hk] <;> exact hstatement
    obtain ⟨start, F, P, S, G, h⟩ :=
      exists_enlisted hgraded husual hclean hn hp (port_of_lists hlists)
      (ne_of_lists hlists).1 (ne_of_lists hlists).2.1 fun heq => by
        rw [heq] at hk
        rcases hk with hk | hk <;> cases hk
    exact ⟨p, start, F, P, S, G, h, hk.imp_right .inl, not_listItem hlists (hk.imp_right .inl),
      .inr (h.closed_before hk hclosed)⟩

variable {tag : Nat} {file : String} {initial : Text} {settings : Settings} {ops : List Operation}

/-- An item that is removed from a list with commas goes with all below it, and no other wrapper is
forgotten. The new document has no faults either, and in the list are all the other nodes as they
were. Of a statement of variables a semicolon is asked, and two declarations. -/
theorem remove_item (hrun : (create tag file initial settings .usual).run ops = some d)
    (hclean : d.diagnostics = []) (hn : d.node n = .ok w)
    (hitem : w.kind = .enumMember ∨ w.kind = .parameter ∨
      ∃ p, d.root.parent? w.index = some p ∧ (p.kind = .argumentList ∨
        (w.kind = .variableDeclaration ∧
          2 ≤ (p.site.nodes.filter (·.kind == .variableDeclaration)).length ∧
          p.site.tree.closes = true))) :
    ∃ o p p', d.remove n = some o ∧ o.answer = .ok () ∧ o.document.diagnostics = [] ∧
    (∀ i v, d.node i = .ok v → (o.document.isForgotten i = true ↔ v ∈ w.all)) ∧
    d.root.parent? w.index = some p ∧ o.document.node (d.nodeId p.index) = .ok p' ∧
    p'.kind = p.kind ∧ p'.site.parts = p.site.parts.eraseIdx w.ordinal := by
  have hgraded := (graded_create tag file initial settings .usual).moves (moves_run hrun)
  have husual : d.reader = .usual := (moves_run hrun).fixed.2
  obtain ⟨p, start, F, P, S, G, h, hk, hlist, hmore⟩ :=
    exists_enlisted_comma hgraded husual hclean hn hitem
  obtain ⟨C, trim, q, hq⟩ := h.exists_cleared_comma hk hlist hmore
  obtain ⟨o, p', ho, hanswer, hdone, hforgotten, -, hp', hsite⟩ := hq.exists_outcome
  refine ⟨o, p, p', ho, hanswer, hdone, hforgotten, h.above, hp', ?_, ?_⟩
  · rw [Wrapper.kind, Wrapper.kind, hsite, hq.list]
    rfl
  · rw [hsite]
    exact hq.parts_shrunk

theorem remove_item_last : ∃ d o p',
    (create 0 "a.ts" "enum E { A, B /*c*/ }".toList {} .usual).run
      [.children ⟨0, 0⟩, .children ⟨0, 1⟩] = some d ∧ d.remove ⟨0, 4⟩ = some o ∧
    o.answer = .ok () ∧ o.document.diagnostics = [] ∧ o.document.isForgotten ⟨0, 4⟩ = true ∧
    o.document.isForgotten ⟨0, 3⟩ = false ∧ o.document.node ⟨0, 1⟩ = .ok p' ∧
    p'.site.parts = [(.name, "E".toList), (.enumMember, "A".toList)] := by
  have hfound : ∃ d ∈ (create 0 "a.ts" "enum E { A, B /*c*/ }".toList {} .usual).run
      [.children ⟨0, 0⟩, .children ⟨0, 1⟩], d.diagnostics = [] ∧
      (∃ v, d.node ⟨0, 3⟩ = .ok v ∧ v.index = 3) ∧ ∃ w, d.node ⟨0, 4⟩ = .ok w ∧
      (w.kind = .enumMember ∧ w.ordinal = 2 ∧ 3 ∉ w.indices) ∧
      ∃ p ∈ d.root.parent? w.index, d.nodeId p.index = ⟨0, 1⟩ ∧
        p.site.parts =
        [(.name, "E".toList), (.enumMember, "A".toList), (.enumMember, "B".toList)] := by
    decide +kernel
  obtain ⟨d, hrun, hclean, ⟨v, hv, hindex⟩, w, hw, ⟨hkind, hordinal, hout⟩, p, hp, hparent,
    hparts⟩ := hfound
  obtain ⟨o, q, p', ho, hanswer, hdone, hforgotten, hq, hp', -, hlist⟩ :=
    remove_item hrun hclean hw (.inl hkind)
  obtain rfl := Option.mem_unique hp hq
  rw [hparts, hordinal] at hlist
  refine ⟨d, o, p', hrun, ho, hanswer, hdone, (hforgotten _ _ hw).2 (self_mem_all w), ?_,
    hparent ▸ hp', hlist⟩
  refine Bool.eq_false_iff.2 fun hlost => hout (hindex ▸ ?_)
  exact mem_indices_of_mem ((hforgotten _ _ hv).1 hlost)

/-- A statement or a member of a class that is removed goes with all below it, and no other wrapper
is forgotten. The new document has no faults either, in the list are all the other nodes as they
were, and nothing else goes but white space next to the node. Before a statement nothing may stand
open. -/
theorem remove_statement (hrun : (create tag file initial settings .usual).run ops = some d)
    (hclean : d.diagnostics = []) (hn : d.node n = .ok w)
    (hitem : w.kind.isClassMember = true ∨ ∃ p, d.root.parent? w.index = some p ∧
      (p.kind = .sourceFile ∨ p.kind = .block) ∧ w.kind.isStatement = true ∧
      ∀ s ∈ p.site.statementBefore? w.ordinal, s.tree.closes = true) :
    ∃ o p p', d.remove n = some o ∧ o.answer = .ok () ∧ o.document.diagnostics = [] ∧
      (∀ i v, d.node i = .ok v → (o.document.isForgotten i = true ↔ v ∈ w.all)) ∧
      d.root.parent? w.index = some p ∧ o.document.node (d.nodeId p.index) = .ok p' ∧
      (p'.kind = p.kind ∧ p'.site.parts = p.site.parts.eraseIdx w.ordinal) ∧
      ∃ a x y b, d.text = a ++ (x ++ (w.site.text ++ (y ++ b))) ∧ (a ++ x).size = w.span.start ∧
        o.document.text = a ++ b ∧ ∀ c ∈ x ++ y, isSpace c = true ∨ isNewline c = true := by
  have hgraded := (graded_create tag file initial settings .usual).moves (moves_run hrun)
  have husual : d.reader = .usual := (moves_run hrun).fixed.2
  obtain ⟨p, start, F, P, S, G, h, hk, hlist, hclosed⟩ :=
    exists_enlisted_statement hgraded husual hclean hn hitem
  obtain ⟨trim, q, hq⟩ := h.exists_cleared_statement hk hlist hclosed
  obtain ⟨o, p', ho, hanswer, hdone, hforgotten, htext, hp', hsite⟩ := hq.exists_outcome
  refine ⟨o, p, p', ho, hanswer, hdone, hforgotten, h.above, hp', ⟨?_, ?_⟩, ?_⟩
  · rw [Wrapper.kind, Wrapper.kind, hsite, hq.list]
    rfl
  · rw [hsite]
    exact hq.parts_shrunk
  · rw [htext]
    exact hq.exists_removed

theorem remove_statement_line : ∃ d o p',
    (create 0 "a.ts" "\x7b\n  a;\n  b()\n\x7d".toList {} .usual).run
      [.children ⟨0, 0⟩, .children ⟨0, 1⟩] = some d ∧ d.remove ⟨0, 3⟩ = some o ∧
    o.answer = .ok () ∧ o.document.diagnostics = [] ∧ o.document.isForgotten ⟨0, 3⟩ = true ∧
    o.document.isForgotten ⟨0, 2⟩ = false ∧ o.document.node ⟨0, 1⟩ = .ok p' ∧
    p'.site.parts = [(.expressionStatement, "a;".toList)] := by
  have hfound : ∃ d ∈ (create 0 "a.ts" "\x7b\n  a;\n  b()\n\x7d".toList {} .usual).run
      [.children ⟨0, 0⟩, .children ⟨0, 1⟩], d.diagnostics = [] ∧
      (∃ v, d.node ⟨0, 2⟩ = .ok v ∧ v.index = 2) ∧ ∃ w, d.node ⟨0, 3⟩ = .ok w ∧
      (w.kind.isStatement = true ∧ w.ordinal = 1 ∧ 2 ∉ w.indices) ∧
      ∃ p ∈ d.root.parent? w.index, (d.nodeId p.index = ⟨0, 1⟩ ∧ p.kind = .block ∧
        ∀ s ∈ p.site.statementBefore? w.ordinal, s.tree.closes = true) ∧
        p.site.parts =
        [(.expressionStatement, "a;".toList), (.expressionStatement, "b()".toList)] := by
    decide +kernel
  obtain ⟨d, hrun, hclean, ⟨v, hv, hindex⟩, w, hw, ⟨hkind, hordinal, hout⟩, p, hp,
    ⟨hparent, hblock, hclosed⟩, hparts⟩ := hfound
  obtain ⟨o, q, p', ho, hanswer, hdone, hforgotten, hq, hp', ⟨-, hlist⟩, -⟩ :=
    remove_statement hrun hclean hw (.inr ⟨p, hp, .inr hblock, hkind, hclosed⟩)
  obtain rfl := Option.mem_unique hp hq
  rw [hparts, hordinal] at hlist
  refine ⟨d, o, p', hrun, ho, hanswer, hdone, (hforgotten _ _ hw).2 (self_mem_all w), ?_,
    hparent ▸ hp', hlist⟩
  refine Bool.eq_false_iff.2 fun hlost => hout (hindex ▸ ?_)
  exact mem_indices_of_mem ((hforgotten _ _ hv).1 hlost)

end Document
end LiveEdit
