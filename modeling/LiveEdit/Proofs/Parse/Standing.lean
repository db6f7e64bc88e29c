import LiveEdit.Proofs.Parse.Beds

/-! A closed statement can be put before any text, since its last token is a mark. -/

namespace LiveEdit
open List Option

namespace Lexeme

lemma seals_of_closes {l : Lexeme} (h : l.kind.closes = true) (r : Text) : l.Seals r := by
  simp only [Kind.closes, Bool.or_eq_true, beq_iff_eq] at h
  refine seals_of_mark ?_ r
  rcases h with hk | hk <;> rw [hk] <;> decide

end Lexeme

namespace Tree
open Lexeme

variable {s t : Tree} {ss ts : List Tree} {l : Kind × Text} {q g r x rest : Text} {n : Nat}

def closes (t : Tree) : Bool := t.leaves.getLast?.any (·.1.closes)

lemma exists_of_closes (h : t.closes = true) :
    ∃ l, t.leaves.getLast? = some l ∧ l.1.closes = true := by
  rw [closes] at h
  cases hl : t.leaves.getLast? with
  | none =>
    rw [hl] at h
    cases h
  | some l =>
    rw [hl] at h
    exact ⟨l, rfl, h⟩

lemma closed_outlineAll (hl : (leavesAll ts).getLast? = some l) (hclose : l.1.closes = true) :
    Outline.Closed (outlineAll ts) := by
  obtain ⟨ls, hls⟩ := getLast?_eq_some_iff.1 hl
  have hsig : l.1.isTrivia = false := by
    simp only [Kind.closes, Bool.or_eq_true, beq_iff_eq] at hclose
    rcases hclose with hk | hk <;> rw [hk] <;> rfl
  refine ⟨l.1, ?_, hclose⟩
  rw [leaves_outlineAll, hls, significant_append, significant_cons_of hsig]
  exact getLast?_concat

lemma Item.isStatement (h : Item t) (hnode : t.isNode = true) : t.kind.isStatement = true := by
  cases h with
  | trivia x kind => cases hnode
  | statement us kind => exact kind

lemma trivia_of_count (hitem : ∀ t ∈ ts, Item t) (hcount : count ts = 0) :
    ∀ t ∈ ts, ∃ k x, t = .token k x ∧ k.isTrivia = true := by
  intro t ht
  have hnode := countP_eq_zero.1 hcount t ht
  cases hitem t ht with
  | trivia x kind => exact ⟨_, x, rfl, kind⟩
  | statement us kind => exact absurd rfl hnode

lemma outlineAll_eq_nil (h : ∀ t ∈ ts, ∃ k x, t = .token k x ∧ k.isTrivia = true) :
    outlineAll ts = [] := by
  apply eq_nil_iff_forall_not_mem.2
  intro o ho
  obtain ⟨t, ht, ho⟩ := mem_outlineAll.1 ho
  obtain ⟨k, x, rfl, hk⟩ := h t ht
  rw [outline, if_pos hk] at ho
  exact not_mem_nil ho

structure Stands (s : Tree) : Prop where
  isNode : s.isNode = true
  kind : s.kind.isStatement = true
  firm : Firm s
  standing : ∀ o ∈ s.outline, Grammar.Standing o
  lexes : ∀ r, Lexes [s] r

lemma Stands.item (h : Stands s) : Item s := by
  have hkind := h.kind
  have hnode := h.isNode
  cases s with
  | token k x => cases hnode
  | node k us => exact .statement us hkind

lemma text_ne_nil_of_firm (h : Firm s) (hnode : s.isNode = true) : s.text ≠ [] := by
  intro hnil
  have hfirm : Firm (⟨0, s⟩ : Site).tree := h
  have hpos : 0 < 0 + s.size := Site.span_pos_of_firm hfirm hnode
  rw [size_eq_text, hnil] at hpos
  exact absurd hpos (by decide)

lemma Stands.text_ne_nil (h : Stands s) : s.text ≠ [] := text_ne_nil_of_firm h.firm h.isNode

lemma textAll_singleton (t : Tree) : textAll [t] = t.text := append_nil _

lemma StartsHeavy.of_firm (h : Firm s) (hnode : s.isNode = true) : StartsHeavy s.leaves := by
  cases h with
  | token k x => cases hnode
  | node starts _ _ => exact starts

lemma nonblank_of_firm (hfirm : Firm s) (hnode : s.isNode = true) (hlexes : Lexes (s :: ts) rest) :
    ∀ c ∈ (textAll (s :: ts) ++ rest).head?, Text.isBlank c = false := by
  obtain ⟨us, hleaves, -, hscans⟩ := hlexes
  obtain ⟨l, hl, hheavy⟩ := StartsHeavy.of_firm hfirm hnode
  obtain ⟨ls, hls⟩ := List.head?_eq_some_iff.1 hl
  rw [leavesAll, hls] at hleaves
  cases us with
  | nil => cases hleaves
  | cons u us =>
    have hu : u.leaf = l := (cons.inj hleaves).1
    exact hscans.nonblank ((congrArg (·.1.isTrivia) hu).trans hheavy.1)

lemma Stands.nonblank (h : Stands s) (r : Text) :
    ∀ c ∈ (s.text ++ r).head?, Text.isBlank c = false := by
  have hhead := nonblank_of_firm h.firm h.isNode (h.lexes r)
  rwa [textAll_singleton] at hhead

lemma stands_of_nodes {t : Text} {c : Site} (hclean : (Parse.ofText t).diagnostics = [])
    (hnodes : (Parse.ofText t).site.nodes = [c]) (hl : c.tree.leaves.getLast? = some l)
    (hclose : l.1.closes = true) : Stands c.tree := by
  obtain ⟨hnone, hf⟩ := Parse.diagnostics_eq_nil.1 hclean
  have hmem : c ∈ (Parse.ofText t).site.nodes := hnodes ▸ mem_singleton_self c
  have hnode : c.tree.isNode = true := (mem_filter.1 hmem).2
  obtain ⟨ts, htree⟩ : ∃ ts, (Parse.ofText t).tree = .node .sourceFile ts :=
    ⟨_, Parse.tree_ofText t⟩
  have hat : (Parse.ofText t).site.at? [] = some ⟨0, .node .sourceFile ts⟩ := by
    rw [Parse.site, htree]
    rfl
  have hfirst : ((Site.row 0 ts).filter (·.tree.isNode))[0]? = some c := by
    rw [Parse.site, htree] at hnodes
    exact congrArg (·[0]?) hnodes
  obtain ⟨A, B, rfl, hA, -⟩ := Site.exists_split hfirst
  have hitem : ∀ u ∈ A ++ c.tree :: B, Item u := by
    obtain ⟨F, M, G, hsplit, hframe, hM⟩ := Parse.exists_frame hclean hat (.inl rfl)
    cases hframe
    rw [hsplit, append_nil]
    exact hM
  have hB : count B = 0 := by
    have hlength := congrArg length hnodes
    rw [Parse.site, htree] at hlength
    have hcount := (Site.length_nodes 0 (A ++ c.tree :: B)).symm.trans hlength
    have hsum : count (A ++ c.tree :: B) = count A + (count B + 1) := by
      rw [count, countP_append, countP_cons_of_pos hnode]
      rfl
    have hone : count (A ++ c.tree :: B) = 1 := hcount
    omega
  -- beside the one node there is only trivia, which has no outline
  have houtline : outlineAll (A ++ c.tree :: B) = c.tree.outline := by
    have hleft := trivia_of_count (fun u hu => hitem u (mem_append_left _ hu)) hA
    have hright := trivia_of_count
      (fun u hu => hitem u (mem_append_right A (mem_cons_of_mem _ hu))) hB
    rw [outlineAll_append, outlineAll, outlineAll_eq_nil hleft, outlineAll_eq_nil hright,
      append_nil, nil_append]
  refine ⟨hnode, ?_, ?_, ?_, ?_⟩
  · exact (hitem _ (mem_append_right A mem_cons_self)).isStatement hnode
  · have hfirm := Parse.firm_ofText hf
    rw [htree] at hfirm
    exact hfirm _ (mem_append_right A mem_cons_self)
  · intro o ho
    have hg := Parse.gives_ofText hf
    rw [htree, children, houtline] at hg
    obtain ⟨o', ho'⟩ : ∃ o', c.tree.outline = [o'] := exists_outline fun k x heq => by
      rw [heq] at hnode
      cases hnode
    rw [ho'] at hg ho
    obtain rfl := mem_singleton.1 ho
    have hclosed : Outline.Closed (outlineAll [c.tree]) :=
      closed_outlineAll (by rw [leavesAll_singleton, hl]) hclose
    have hfaults := faults_outline c.tree
    rw [outlineAll, outlineAll, append_nil, ho'] at hclosed
    rw [ho'] at hfaults
    exact ⟨⟨_, (Grammar.gives_statements_cons.1 hg).2.1⟩, hfaults, hclosed⟩
  · intro r
    have hat' : (Parse.ofText t).site.at? [] =
        some ⟨0, .node .sourceFile (A ++ ([c.tree] ++ B))⟩ := hat
    obtain ⟨uA, uX, uB, new, hplanted⟩ := Parse.exists_planted hat' []
    have hleaves := hplanted.inside
    rw [leavesAll_singleton] at hleaves
    refine ⟨uX, hplanted.inside, ?_, ?_⟩
    · intro u hu
      apply hnone u
      rw [hplanted.lexemes]
      exact mem_append_right uA (mem_append_left uB hu)
    · rw [hplanted.textAll_eq]
      -- the last lexeme closes, so it is read the same way whatever follows it
      refine hplanted.scans.2.1.reseal fun u hu => seals_of_closes ?_ r
      have hlast : u.leaf = l := by
        have hmap := congrArg List.getLast? hleaves
        rw [getLast?_map, mem_def.1 hu, hl] at hmap
        exact some.inj hmap
      exact (congrArg (·.1.closes) hlast).trans hclose

def pad : Text → List Tree
  | [] => []
  | c :: x => [.token .whitespace (c :: x)]

lemma textAll_pad (x : Text) : textAll (pad x) = x := by
  cases x with
  | nil => rfl
  | cons c x => exact textAll_singleton _

lemma size_pad (x : Text) : sizeAll (pad x) = x.size := by rw [sizeAll_eq_text, textAll_pad]

lemma filter_pad (x : Text) : (pad x).filter isNode = [] := by
  cases x <;> rfl

lemma token_of_mem_pad (h : t ∈ pad x) : ∃ k y, t = .token k y ∧ k.isTrivia = true := by
  cases x with
  | nil => cases h
  | cons c x => exact ⟨_, _, mem_singleton.1 h, rfl⟩

lemma lexes_pad (hx : x.Blank)
    (hr : x = [] ∨ ∀ c ∈ r.head?, Text.isBlank c = false) : Lexes (pad x) r := by
  cases x with
  | nil => exact lexes_nil r
  | cons c x => exact lexes_blank hx (cons_ne_nil c x) (hr.resolve_left (cons_ne_nil c x))

def strewn (g : Text) (ss : List Tree) : List Tree := ss.intersperse (.token .whitespace g)

def laid (q g r : Text) (ss : List Tree) : List Tree := pad q ++ (strewn g ss ++ pad r)

lemma strewn_cons_cons (g : Text) (s t : Tree) (ss : List Tree) :
    strewn g (s :: t :: ss) = [s] ++ ([.token .whitespace g] ++ strewn g (t :: ss)) :=
  intersperse_cons_cons

lemma textAll_strewn (g : Text) (ss : List Tree) :
    textAll (strewn g ss) = intercalate g (ss.map text) := by
  induction ss with
  | nil => rfl
  | cons s ss ih =>
    cases ss with
    | nil => simp [strewn, textAll]
    | cons t ss =>
      rw [strewn_cons_cons, textAll_append, textAll_append, ih, textAll_singleton,
        textAll_singleton, text, ← append_assoc]
      exact intercalate_cons_cons.symm

lemma exists_strewn (g : Text) (s : Tree) (ss : List Tree) :
    ∃ us, strewn g (s :: ss) = s :: us := by
  cases ss with
  | nil => exact ⟨[], rfl⟩
  | cons t ss => exact ⟨_, strewn_cons_cons g s t ss⟩

lemma nonblank_strewn (hss : ∀ s ∈ ss, Stands s) (hne : ss ≠ []) (g r : Text) :
    ∀ c ∈ (textAll (strewn g ss) ++ r).head?, Text.isBlank c = false := by
  obtain ⟨s, ss, rfl⟩ := exists_cons_of_ne_nil hne
  obtain ⟨us, hus⟩ := exists_strewn g s ss
  rw [hus, textAll, append_assoc]
  exact (hss s mem_cons_self).nonblank _

lemma mem_of_mem_strewn (h : t ∈ strewn g ss) : t ∈ ss ∨ t = .token .whitespace g := by
  induction ss with
  | nil => cases h
  | cons s ss ih =>
    cases ss with
    | nil => exact .inl h
    | cons u ss =>
      rw [strewn_cons_cons, mem_append, mem_append] at h
      rcases h with hs | hg | hrest
      · exact .inl (mem_singleton.1 hs ▸ mem_cons_self)
      · exact .inr (mem_singleton.1 hg)
      · rcases ih hrest with hmem | hgap
        · exact .inl (mem_cons_of_mem s hmem)
        · exact .inr hgap

lemma lexes_strewn (hss : ∀ s ∈ ss, Stands s) (hg : g.Blank) (hne : g ≠ [])
    (r : Text) : Lexes (strewn g ss) r := by
  induction ss with
  | nil => exact lexes_nil r
  | cons s ss ih =>
    have hs := hss s mem_cons_self
    have hmore := ih fun u hu => hss u (mem_cons_of_mem s hu)
    cases ss with
    | nil => exact hs.lexes r
    | cons t ss =>
      rw [strewn_cons_cons]
      refine (hs.lexes _).append ((lexes_blank hg hne ?_).append hmore)
      exact nonblank_strewn (fun u hu => hss u (mem_cons_of_mem s hu)) (cons_ne_nil t ss) g r

lemma nodes_strewn_cons (hs : s.isNode = true) (g : Text) (t : Tree) (ss : List Tree) (n : Nat) :
    (Site.row n (strewn g (s :: t :: ss))).filter (·.tree.isNode) =
      ⟨n, s⟩ :: (Site.row (n + s.size + g.size) (strewn g (t :: ss))).filter (·.tree.isNode) := by
  rw [strewn_cons_cons, singleton_append, singleton_append, Site.row, Site.row,
    filter_cons_of_pos (by simpa using hs), filter_cons_of_neg (by simp [isNode]), size]

lemma filter_strewn (hss : ∀ s ∈ ss, s.isNode = true) (g : Text) :
    (strewn g ss).filter isNode = ss := by
  induction ss with
  | nil => rfl
  | cons s ss ih =>
    have hs := hss s mem_cons_self
    have hmore := ih fun u hu => hss u (mem_cons_of_mem s hu)
    cases ss with
    | nil => exact filter_cons_of_pos hs
    | cons t ss =>
      rw [strewn_cons_cons, singleton_append, singleton_append, filter_cons_of_pos hs,
        filter_cons_of_neg (by simp [isNode]), hmore]

lemma textAll_laid (q g r : Text) (ss : List Tree) :
    textAll (laid q g r ss) = q ++ (intercalate g (ss.map text) ++ r) := by
  rw [laid, textAll_append, textAll_append, textAll_pad, textAll_pad, textAll_strewn]

lemma mem_of_mem_laid (h : t ∈ laid q g r ss) :
    t ∈ ss ∨ ∃ k x, t = .token k x ∧ k.isTrivia = true := by
  rw [laid, mem_append, mem_append] at h
  rcases h with hq | hs | hr
  · exact .inr (token_of_mem_pad hq)
  · rcases mem_of_mem_strewn hs with hs | hg
    · exact .inl hs
    · exact .inr ⟨_, _, hg, rfl⟩
  · exact .inr (token_of_mem_pad hr)

lemma filter_laid (hss : ∀ s ∈ ss, Stands s) : (laid q g r ss).filter isNode = ss := by
  rw [laid, filter_append, filter_append, filter_pad, filter_pad, nil_append, append_nil]
  exact filter_strewn (fun s hs => (hss s hs).isNode) g

lemma firm_laid (hss : ∀ s ∈ ss, Stands s) : ∀ t ∈ laid q g r ss, Firm t := by
  intro t ht
  rcases mem_of_mem_laid ht with hs | ⟨k, x, rfl, -⟩
  · exact (hss t hs).firm
  · exact .token k x

lemma standing_laid (hss : ∀ s ∈ ss, Stands s) :
    ∀ o ∈ outlineAll (laid q g r ss), Grammar.Standing o := by
  intro o ho
  obtain ⟨t, ht, ho⟩ := mem_outlineAll.1 ho
  rcases mem_of_mem_laid ht with hs | ⟨k, x, rfl, hk⟩
  · exact (hss t hs).standing o ho
  · rw [outline, if_pos hk] at ho
    exact absurd ho not_mem_nil

lemma lexes_laid (hss : ∀ s ∈ ss, Stands s) (hne : ss ≠ []) (hq : q.Blank)
    (hg : g.Blank) (hgap : g ≠ []) (hr : r.Blank)
    (hrest : r = [] ∨ ∀ c ∈ rest.head?, Text.isBlank c = false) : Lexes (laid q g r ss) rest := by
  have hrow := (lexes_strewn hss hg hgap (textAll (pad r) ++ rest)).append (lexes_pad hr hrest)
  refine (lexes_pad hq (.inr ?_)).append hrow
  rw [textAll_append, append_assoc]
  exact nonblank_strewn hss hne g _

end Tree
end LiveEdit
