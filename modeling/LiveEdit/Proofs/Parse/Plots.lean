import LiveEdit.Proofs.Parse.Standing

namespace LiveEdit.Parse
open Option
open List hiding count
open LiveEdit.Tree Lexeme

structure Sowable (g : Text) (ss : List Tree) : Prop where
  stands : ∀ s ∈ ss, Stands s
  some : ss ≠ []
  blank : g.Blank
  apart : g ≠ []

structure Plot (t : Text) (a : Address) (n : Nat) (k : Kind) (g : Text) (ss : List Tree) where
  (opening before gap after closing : List Tree)
  (lead trail : Text)
  (uA uX uB : List Lexeme)
  tree : Tree
  planted :
    Planted t a n k (opening ++ before) gap (after ++ closing) (laid lead g trail ss) uA uX uB tree
  frame : Frame a k opening closing
  items : ∀ u ∈ before ++ (gap ++ after), Item u
  trivia : count gap = 0
  last : outlineAll before = [] ∨ Outline.Closed (outlineAll before)
  apart : ∀ l ∈ uA.getLast?, l.Seals (textAll (laid lead g trail ss) ++ spell uB)
  next : trail = [] ∨ ∀ c ∈ (spell uB).head?, Text.isBlank c = false
  leads : lead.Blank
  trails : trail.Blank

variable {t x : Text} {a : Address} {n : Nat} {k : Kind} {g q r : Text}
  {ss F P X S G B Y : List Tree}
  {uA uX uB : List Lexeme} {tree s : Tree} {l : Lexeme}

namespace Plot

def bed (p : Plot t a n k g ss) : List Tree := laid p.lead g p.trail ss

def text (p : Plot t a n k g ss) : Text := plant p.uA p.bed p.uB

def offset (p : Plot t a n k g ss) : Nat := n + sizeAll (p.opening ++ p.before)

lemma gap_trivia (p : Plot t a n k g ss) : ∀ u ∈ p.gap, ∃ k x, u = .token k x ∧ k.isTrivia = true :=
  trivia_of_count (fun u hu => p.items u (mem_append_right _ (mem_append_left _ hu))) p.trivia

lemma parse (p : Plot t a n k g ss) (hs : Sowable g ss) (hclean : (ofText t).diagnostics = []) :
    (ofText p.text).tree = p.tree ∧ (ofText p.text).diagnostics = [] :=
  p.planted.parse p.frame hclean (outlineAll_eq_nil p.gap_trivia) (standing_laid hs.stands)
    (firm_laid hs.stands) p.last p.apart
    (lexes_laid hs.stands hs.some p.leads hs.blank hs.apart p.trails p.next)

end Plot

lemma firm_of_at? {ts : List Tree} (hclean : (ofText t).diagnostics = [])
    (hat : (ofText t).site.at? a = some ⟨n, .node k ts⟩) : ∀ u ∈ ts, Firm u := by
  have hbelow : Site.FirmBelow (ofText t).site := firm_ofText (diagnostics_eq_nil.1 hclean).2
  by_cases hnil : a = []
  · subst hnil
    have hroot : (ofText t).site = ⟨n, .node k ts⟩ := some.inj hat
    rw [hroot] at hbelow
    exact hbelow
  · exact Site.firmBelow (hbelow.at? hat hnil).1

lemma Planted.last_before (h : Planted t a n k (F ++ P) X B Y uA uX uB tree)
    (hF : (a = [] ∧ F = []) ∨ leavesAll F ≠ [])
    (hP : ∀ u ∈ P, ∃ k x, u = .token k x ∧ k.isTrivia = true) (hl : uA.getLast? = some l) :
    (leavesAll F).getLast? = some l.leaf ∨
    (l.kind.isTrivia = true ∧ (leavesAll P).getLast? = some l.leaf) := by
  rcases eq_nil_or_concat P with rfl | ⟨P, u, rfl⟩
  · rcases hF with ⟨rfl, rfl⟩ | hne
    · have hplace := h.place
      obtain rfl : n = 0 := h.replaced.root.2.2
      have hempty : spell uA = [] := Text.eq_nil_of_size hplace
      have hmem : l ∈ uA := mem_of_getLast? hl
      exact absurd (flatMap_eq_nil_iff.1 hempty l hmem) (h.scans.1.text_ne_nil l hmem)
    · have hlast := getLast?_eq_some_getLast hne
      rw [append_nil] at h
      obtain ⟨m, hm, hleaf⟩ := h.exists_last hlast
      obtain rfl : l = m := mem_unique hl hm
      rw [hlast, hleaf]
      exact .inl rfl
  · rw [concat_eq_append] at h hP
    obtain ⟨j, x, rfl, hj⟩ := hP u (mem_append_right P (mem_singleton_self u))
    rw [← append_assoc] at h
    obtain ⟨m, hm, hleaf⟩ := h.exists_last (leavesAll_concat (F ++ P) j x)
    obtain rfl : l = m := mem_unique hl hm
    refine .inr ⟨(congrArg (·.1.isTrivia) hleaf).trans hj, ?_⟩
    rw [concat_eq_append, hleaf]
    exact leavesAll_concat P j x

lemma Planted.kind_before (h : Planted t a n k (F ++ P) X B Y uA uX uB tree)
    (hframe : Frame a k F G)
    (hP : ∀ u ∈ P, ∃ k x, u = .token k x ∧ k.isTrivia = true) (hl : uA.getLast? = some l) :
    l.kind = .leftCurly ∨ (l.kind.isTrivia = true ∧ (leavesAll P).getLast? = some l.leaf) := by
  cases hframe with
  | file => exact (h.last_before (.inl ⟨rfl, rfl⟩) hP hl).imp_left fun hnone => by cases hnone
  | block x y =>
    refine (h.last_before (.inr (cons_ne_nil (Kind.leftCurly, x) [])) hP hl).imp_left fun hlast =>
      ?_
    exact (congrArg Prod.fst (some.inj hlast)).symm

lemma seals_of_brace (h : l.kind = .leftCurly) (r : Text) : l.Seals r :=
  seals_of_mark (by rw [h]; decide) r

lemma Planted.kind_behind {m : Kind × Text}
    (h : Planted t a n k (F ++ (S ++ P)) X B Y uA uX uB tree)
    (hlast : (leavesAll S).getLast? = some m) (hclose : m.1.closes = true)
    (hP : ∀ u ∈ P, ∃ k x, u = .token k x ∧ k.isTrivia = true) (hl : uA.getLast? = some l) :
    l.kind.closes = true ∨ l.kind.isTrivia = true := by
  have hend : (leavesAll (F ++ S)).getLast? = some m := by
    rw [leavesAll_append, getLast?_append, hlast]
    rfl
  have hne : leavesAll (F ++ S) ≠ [] := by
    intro hnil
    rw [hnil] at hend
    cases hend
  rw [← append_assoc] at h
  refine (h.last_before (.inr hne) hP hl).imp (fun hmark => ?_) And.left
  obtain rfl := mem_unique hend hmark
  exact hclose

lemma Planted.seals_before (h : Planted t a n k (F ++ P) X B Y uA uX uB tree)
    (hframe : Frame a k F G) (hclean : (ofText t).diagnostics = [])
    (hP : ∀ u ∈ P, ∃ k x, u = .token k x ∧ k.isTrivia = true) (hl : uA.getLast? = some l) :
    l.Seals (textAll X ++ spell uB) := by
  rcases h.kind_before hframe hP hl with hk | ⟨hk, -⟩
  · exact seals_of_brace hk _
  · exact h.seals_trivia hclean hl hk

def Ended (P : List Tree) : Prop :=
  ∃ Q T, P = Q ++ T ∧ count T = 0 ∧
  (Q = [] ∨ ∃ m, (leavesAll Q).getLast? = some m ∧ m.1.closes = true)

lemma Ended.outline (h : Ended P) (hitems : ∀ u ∈ P, Item u) :
    outlineAll P = [] ∨ Outline.Closed (outlineAll P) := by
  obtain ⟨Q, T, rfl, hT, hQ⟩ := h
  have htrivia := trivia_of_count (fun u hu => hitems u (mem_append_right Q hu)) hT
  rw [outlineAll_append, outlineAll_eq_nil htrivia, append_nil]
  rcases hQ with rfl | ⟨m, hlast, hclose⟩
  · exact .inl rfl
  · exact .inr (closed_outlineAll hlast hclose)

lemma Planted.sealed_or_trivia (h : Planted t a n k (F ++ P) X B Y uA uX uB tree)
    (hframe : Frame a k F G) (hended : Ended P) (hitems : ∀ u ∈ P, Item u)
    (hl : uA.getLast? = some l) : (∀ r, l.Seals r) ∨ l.kind.isTrivia = true := by
  obtain ⟨Q, T, rfl, hT, hQ⟩ := hended
  have htrivia := trivia_of_count (fun u hu => hitems u (mem_append_right Q hu)) hT
  rcases hQ with rfl | ⟨m, hlast, hclose⟩
  · exact (h.kind_before hframe htrivia hl).imp seals_of_brace And.left
  · exact (h.kind_behind hlast hclose htrivia hl).imp_left seals_of_closes

lemma ended_of_closes (h : ∀ u ∈ P, u.isNode = true → u.closes = true) : Ended P := by
  induction P using reverseRecOn with
  | nil => exact ⟨[], [], rfl, rfl, .inl rfl⟩
  | append_singleton P u ih =>
    cases hu : u.isNode with
    | false =>
      obtain ⟨Q, T, rfl, hT, hQ⟩ := ih fun v hv => h v (mem_append_left _ hv)
      refine ⟨Q, T ++ [u], append_assoc .., ?_, hQ⟩
      rw [count, countP_append, countP_singleton, hu, ← count, hT]
      rfl
    | true =>
      obtain ⟨m, hm, hclose⟩ :=
        exists_of_closes (h u (mem_append_right _ (mem_singleton_self u)) hu)
      refine ⟨P ++ [u], [], (append_nil _).symm, rfl, .inr ⟨m, ?_, hclose⟩⟩
      rw [leavesAll_append, leavesAll_singleton, getLast?_append, hm]
      rfl

section

variable (hs : Sowable g ss) (hclean : (ofText t).diagnostics = [])
  (hat : (ofText t).site.at? a = some ⟨n, .node k (F ++ ((P ++ s :: S) ++ G))⟩)
  (hframe : Frame a k F G)
  (hitems : ∀ u ∈ P ++ s :: S, Item u)
include hs hclean hat hframe hitems

lemma exists_plot_before (hended : Ended P) (hnode : s.isNode = true) : ∃ p : Plot t a n k g ss,
      p.opening = F ∧ p.before = P ∧ p.gap = [] ∧ p.after = s :: S ∧ p.lead = [] ∧ p.trail = g := by
  have hfirm : Firm s := firm_of_at? hclean hat s (by simp)
  have hsplit : F ++ ((P ++ s :: S) ++ G) = (F ++ P) ++ ([] ++ ((s :: S) ++ G)) := by simp
  rw [hsplit] at hat
  obtain ⟨uA, uX, uB, tree, h⟩ := exists_planted hat (laid [] g g ss)
  have hbefore : ∀ u ∈ P, Item u := fun u hu => hitems u (mem_append_left _ hu)
  -- What came next was a statement, and what comes next is one: both begin with no white space.
  obtain ⟨c, rest, hnext, hc⟩ : ∃ c r, spell uB = c :: r ∧ Text.isBlank c = false := by
    obtain ⟨l, hl, hheavy⟩ := StartsHeavy.of_firm hfirm hnode
    refine h.exists_next (l := l) ?_ hheavy.1
    rw [cons_append, leavesAll, head?_append, mem_def.1 hl]
    rfl
  have hhead : ∀ c ∈ (textAll (laid [] g g ss) ++ spell uB).head?, Text.isBlank c = false := by
    rw [laid, textAll_append, textAll_append, append_assoc, append_assoc]
    exact nonblank_strewn hs.stands hs.some g _
  refine ⟨⟨F, P, [], s :: S, G, [], g, uA, uX, uB, tree, h, hframe, hitems, rfl,
    hended.outline hbefore, ?_, .inr ?_, fun c hc => absurd hc not_mem_nil, hs.blank⟩, rfl, rfl,
    rfl, rfl, rfl, rfl⟩
  · intro l hl
    rcases h.sealed_or_trivia hframe hended hbefore hl with hsealed | hk
    · exact hsealed _
    · have hseals := h.seals_trivia hclean hl hk
      rw [hnext] at hseals
      exact hseals.of_nonblank hk hc hhead
  · intro b hb
    rw [hnext] at hb
    exact some.inj hb ▸ hc

omit hclean in
lemma exists_plot_behind {m : Kind × Text} (hlast : s.leaves.getLast? = some m)
    (hclose : m.1.closes = true) : ∃ p : Plot t a n k g ss, p.opening = F ∧ p.before = P ++ [s] ∧
    p.gap = [] ∧ p.after = S ∧ p.lead = g ∧ p.trail = [] := by
  have hsplit : F ++ ((P ++ s :: S) ++ G) = (F ++ (P ++ [s])) ++ ([] ++ (S ++ G)) := by simp
  rw [hsplit] at hat
  obtain ⟨uA, uX, uB, tree, h⟩ := exists_planted hat (laid g g [] ss)
  have hbefore : ∀ Z : List Tree, (leavesAll (Z ++ [s])).getLast? = some m := by
    intro Z
    rw [leavesAll_append, leavesAll_singleton, getLast?_append, hlast]
    rfl
  refine ⟨⟨F, P ++ [s], [], S, G, g, [], uA, uX, uB, tree, h, hframe, ?_, rfl,
    .inr (closed_outlineAll (hbefore P) hclose), ?_, .inl rfl, hs.blank,
    fun c hc => absurd hc not_mem_nil⟩, rfl, rfl, rfl, rfl, rfl, rfl⟩
  · simpa using hitems
  · intro l hl
    have hend := hbefore (F ++ P)
    rw [append_assoc] at hend
    obtain ⟨l', hl', rfl⟩ := h.exists_last hend
    obtain rfl : l = l' := mem_unique hl hl'
    exact seals_of_closes hclose _

end

lemma exists_plot_between (g : Text) (ss : List Tree)
    {y : Text} {i : Nat} (hat : (ofText t).site.at? (i :: a) =
      some ⟨n, .node .block ([.token .leftCurly x] ++ (X ++ [.token .rightCurly y]))⟩)
    (hitems : ∀ u ∈ X, Item u) (hX : count X = 0) (hq : q.Blank) (hr : r.Blank) :
    ∃ p : Plot t (i :: a) n .block g ss, p.opening = [.token .leftCurly x] ∧ p.before = [] ∧
    p.gap = X ∧ p.after = [] ∧ p.lead = q ∧ p.trail = r := by
  have hsplit : [.token .leftCurly x] ++ (X ++ [.token .rightCurly y]) =
      ([.token .leftCurly x] ++ []) ++ (X ++ ([] ++ [.token .rightCurly y])) := by simp
  rw [hsplit] at hat
  obtain ⟨uA, uX, uB, tree, h⟩ := exists_planted hat (laid q g r ss)
  obtain ⟨c, rest, hnext, hc⟩ := h.exists_next (l := (.rightCurly, y)) rfl rfl
  refine ⟨⟨[.token .leftCurly x], [], X, [], [.token .rightCurly y], q, r, uA, uX, uB, tree, h,
    .block x y, ?_, hX, .inl rfl, ?_, .inr ?_, hq, hr⟩, rfl, rfl, rfl, rfl, rfl, rfl⟩
  · simpa using hitems
  · intro l hl
    obtain ⟨l', hl', hleaf⟩ := h.exists_last (leavesAll_concat [] .leftCurly x)
    obtain rfl : l = l' := mem_unique hl hl'
    exact seals_of_brace (congrArg Prod.fst hleaf) _
  · intro b hb
    rw [hnext] at hb
    exact some.inj hb ▸ hc

lemma seals_of_comment (hk : l.kind.isTrivia = true)
    (hf : l.fault = none) (hw : l.kind ≠ .whitespace)
    (hline : l.kind = .lineComment → ∀ c ∈ r.head?, Text.isNewline c = true) : l.Seals r := by
  obtain ⟨k, x, f⟩ := l
  obtain rfl : f = none := hf
  simp only [Kind.isTrivia, Bool.or_eq_true, decide_eq_true_eq] at hk
  rcases hk with (rfl | rfl) | rfl
  · exact absurd rfl hw
  · exact .lineComment (hline rfl)
  · exact .blockComment

lemma Planted.spell_after (h : Planted t [] n k P X [] Y uA uX uB tree) : spell uB = [] := by
  obtain ⟨hroot, -, rfl⟩ := h.replaced.root
  have hsize := congrArg Text.size h.text
  have hall := congrArg Text.size (congrArg Tree.text hroot)
  have hplace := h.place
  rw [text_ofText, ← size_eq_text] at hall
  simp only [Text.size_append, ← sizeAll_eq_text] at hsize
  simp only [size, sizeAll_append, append_nil] at hall
  apply Text.eq_nil_of_size
  omega

lemma Planted.not_lineComment (h : Planted t [] n k P [] [] Y uA uX uB tree)
    (hl : uA.getLast? = some l) (hfault : l.fault = none) (hbreak : ∀ c ∈ t.getLast?, c = '\n') :
    l.kind ≠ .lineComment := by
  intro hline
  have hscans := h.scans.1
  have hmem : l ∈ uA := mem_of_getLast? hl
  have hlast := getLast?_eq_some_getLast (hscans.text_ne_nil l hmem)
  have htext : t.getLast? = l.text.getLast? := by
    obtain ⟨us, rfl⟩ := getLast?_eq_some_iff.1 hl
    rw [h.text, h.spell_after, textAll, append_nil, append_nil,
      Lexeme.spell_append, spell_singleton, getLast?_append, hlast]
    rfl
  have hend := hbreak _ (htext.trans hlast)
  have hnot := hscans.not_newline hl hfault hline _ (getLast_mem (hscans.text_ne_nil l hmem))
  rw [hend] at hnot
  cases hnot

lemma exists_plot_comment (g : Text) (ss : List Tree) (hclean : (ofText t).diagnostics = [])
    (hat : (ofText t).site.at? [] = some ⟨n, .node .sourceFile P⟩) (hitems : ∀ u ∈ P, Item u)
    (hP : count P = 0) (hlast : ∀ m ∈ (leavesAll P).getLast?, m.1 ≠ .whitespace)
    (hq : q.Blank) (hr : r.Blank)
    (hstart : (q = [] ∧ ∀ c ∈ t.getLast?, c = '\n') ∨ ∃ c ∈ q.head?, Text.isNewline c = true) :
    ∃ p : Plot t [] n .sourceFile g ss, p.opening = [] ∧ p.before = P ∧ p.gap = [] ∧ p.after = [] ∧
    p.lead = q ∧ p.trail = r := by
  have htrivia := trivia_of_count hitems hP
  have hsplit : P = ([] ++ P) ++ ([] ++ ([] ++ [])) := by simp
  rw [hsplit] at hat
  obtain ⟨uA, uX, uB, tree, h⟩ := exists_planted hat (laid q g r ss)
  have hafter : spell uB = [] := h.spell_after
  refine ⟨⟨[], P, [], [], [], q, r, uA, uX, uB, tree, h, .file, by simpa using hitems, rfl,
    .inl (outlineAll_eq_nil htrivia), ?_, .inr ?_, hq, hr⟩, rfl, rfl, rfl, rfl, rfl, rfl⟩
  · intro l hl
    have hmem : l ∈ Lexeme.ofText t := by
      rw [h.lexemes]
      exact mem_append_left _ (mem_of_getLast? hl)
    have hfault := (diagnostics_eq_nil.1 hclean).1 l hmem
    rcases h.kind_before .file htrivia hl with hk | ⟨hk, hleaf⟩
    · exact seals_of_brace hk _
    -- A block comment ends by itself. A line comment would take what is laid out into it.
    · refine seals_of_comment hk hfault (hlast _ hleaf) fun hline => ?_
      rcases hstart with ⟨-, hbreak⟩ | ⟨c, hc, hnewline⟩
      · exact absurd hline (h.not_lineComment hl hfault hbreak)
      · rw [textAll_laid, append_assoc, head?_append, mem_def.1 hc]
        intro b hb
        exact some.inj hb ▸ hnewline
  · rw [hafter]
    exact fun c hc => absurd hc (not_mem_none c)

lemma exists_plot_whitespace (g : Text) (ss : List Tree) (hclean : (ofText t).diagnostics = [])
    (hat : (ofText t).site.at? [] = some ⟨n, .node .sourceFile (P ++ [.token .whitespace x])⟩)
    (hitems : ∀ u ∈ P, Item u) (hP : count P = 0) (hq : q.Blank) (hr : r.Blank) :
    ∃ p : Plot t [] n .sourceFile g ss, p.opening = [] ∧ p.before = P ∧
    p.gap = [.token .whitespace x] ∧ p.after = [] ∧ p.lead = x ++ q ∧ p.trail = r := by
  have htrivia := trivia_of_count hitems hP
  have hsplit :
      P ++ [.token .whitespace x] = ([] ++ P) ++ ([.token .whitespace x] ++ ([] ++ [])) := by simp
  rw [hsplit] at hat
  -- More white space would make one token with `x`, so `x` is laid out anew together with it.
  obtain ⟨uA, uX, uB, tree, h⟩ := exists_planted hat (laid (x ++ q) g r ss)
  have hafter : spell uB = [] := h.spell_after
  obtain ⟨u, rfl, hu⟩ : ∃ u, uX = [u] ∧ u.leaf = (.whitespace, x) := map_eq_singleton_iff.1 h.inside
  have hscans := h.scans.2.1
  obtain rfl : u.text = x := congrArg Prod.snd hu
  have hfault : u.fault = none := by
    refine (diagnostics_eq_nil.1 hclean).1 u ?_
    rw [h.lexemes]
    exact mem_append_right _ (mem_append_left _ (mem_singleton_self u))
  have hblank := hscans.blank rfl hfault (congrArg Prod.fst hu)
  refine ⟨⟨[], P, [.token .whitespace u.text], [], [], u.text ++ q, r, uA, [u], uB, tree, h, .file,
    ?_, rfl, .inl (outlineAll_eq_nil htrivia), ?_, .inr ?_, ?_, hr⟩, rfl, rfl, rfl, rfl, rfl, rfl⟩
  · intro v hv
    rcases mem_append.1 hv with hv | hv
    · exact hitems v hv
    · rw [append_nil, mem_singleton] at hv
      exact hv ▸ .trivia _ rfl
  · intro l hl
    refine (h.seals_before .file hclean htrivia hl).of_head ?_
    obtain ⟨c, y, hy⟩ := exists_cons_of_ne_nil (hscans.text_ne_nil u (mem_singleton_self u))
    rw [textAll_laid, textAll_singleton, Tree.text, hy]
    rfl
  · rw [hafter]
    exact fun c hc => absurd hc (not_mem_none c)
  · intro c hc
    rcases mem_append.1 hc with hc | hc
    · exact hblank c hc
    · exact hq c hc

/-- At the end of a file without statements. What is laid out starts a line, so it goes behind a
line break that is there, or brings one. -/
lemma exists_plot_end (g : Text) (ss : List Tree) (hclean : (ofText t).diagnostics = [])
    (hat : (ofText t).site.at? [] = some ⟨n, .node .sourceFile X⟩) (hitems : ∀ u ∈ X, Item u)
    (hX : count X = 0) (hq : q.Blank) (hr : r.Blank)
    (hstart : (q = [] ∧ ∀ c ∈ t.getLast?, c = '\n') ∨ ∃ c ∈ q.head?, Text.isNewline c = true) :
    ∃ p : Plot t [] n .sourceFile g ss, ∃ x, p.opening = [] ∧ count p.before = 0 ∧
    textAll p.gap = x ∧ p.after = [] ∧ p.lead = x ++ q ∧ p.trail = r := by
  by_cases hlast : ∀ m ∈ (leavesAll X).getLast?, m.1 ≠ .whitespace
  · obtain ⟨p, hopening, hbefore, hgap, hafter, hlead, htrail⟩ :=
      exists_plot_comment g ss hclean hat hitems hX hlast hq hr hstart
    exact ⟨p, [], hopening, hbefore ▸ hX, by rw [hgap]; rfl, hafter, hlead, htrail⟩
  · have hspace : ∃ m, (leavesAll X).getLast? = some m ∧ m.1 = .whitespace := by
      simpa only [not_forall, not_not, exists_prop, mem_def] using hlast
    obtain ⟨m, hm, hkind⟩ := hspace
    rcases eq_nil_or_concat X with rfl | ⟨P, u, rfl⟩
    · cases hm
    rw [concat_eq_append] at hat hitems hX hm
    obtain ⟨j, x, rfl, -⟩ := trivia_of_count hitems hX u (mem_append_right P (mem_singleton_self u))
    obtain rfl : j = .whitespace := by
      rw [leavesAll_concat] at hm
      exact (congrArg Prod.fst (some.inj hm)).trans hkind
    have hP : count P = 0 := by
      rw [count, countP_append] at hX
      exact Nat.eq_zero_of_add_eq_zero_right hX
    obtain ⟨p, hopening, hbefore, hgap, hafter, hlead, htrail⟩ :=
      exists_plot_whitespace g ss hclean hat
        (fun v hv => hitems v (mem_append_left _ hv)) hP hq hr
    exact ⟨p, x, hopening, hbefore ▸ hP, by rw [hgap, textAll_singleton, Tree.text], hafter,
      hlead, htrail⟩

end LiveEdit.Parse
