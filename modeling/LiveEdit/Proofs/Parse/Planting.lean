import LiveEdit.Proofs.Grammar.Insertion
import LiveEdit.Proofs.Lexeme.Sealing
import LiveEdit.Proofs.Tree.Replacement

namespace LiveEdit
open List

namespace Lexeme

def leaf (l : Lexeme) : Kind × Text := (l.kind, l.text)

lemma spell_leaves (us : List Lexeme) : Tree.spell (us.map leaf) = spell us := by
  rw [Tree.spell, flatMap_map]
  rfl

lemma Scans.nonblank {t r : Text} {l : Lexeme} {us : List Lexeme} (h : Scans t (l :: us) r)
    (hl : l.kind.isTrivia = false) : ∀ c ∈ t.head?, Text.isBlank c = false := by
  intro c hc
  cases h with
  | next more =>
    obtain rfl := Option.some.inj hc
    exact not_blank_of_scan hl

end Lexeme

namespace Tree
open Lexeme

def Lexes (ts : List Tree) (r : Text) : Prop :=
  ∃ us : List Lexeme, us.map leaf = leavesAll ts ∧ (∀ l ∈ us, l.fault = none) ∧
    Scans (textAll ts ++ r) us r

variable {t s : Tree} {ts us : List Tree} {x r : Text} {k : Kind} {F G : List Tree}

@[simp] lemma textAll_append (ts us : List Tree) :
    textAll (ts ++ us) = textAll ts ++ textAll us := by
  simp only [textAll_eq_leaves, leavesAll_append, flatMap_append]

lemma leavesAll_singleton (t : Tree) : leavesAll [t] = t.leaves := append_nil _

lemma lexes_nil (r : Text) : Lexes [] r :=
  ⟨[], rfl, fun _ hl => absurd hl not_mem_nil, .done r⟩

lemma Lexes.append (h : Lexes ts (textAll us ++ r)) (h' : Lexes us r) : Lexes (ts ++ us) r := by
  obtain ⟨vs, hleaves, hfaults, hscans⟩ := h
  obtain ⟨ws, hleaves', hfaults', hscans'⟩ := h'
  refine ⟨vs ++ ws, ?_, ?_, ?_⟩
  · rw [map_append, hleaves, hleaves', leavesAll_append]
  · intro l hl
    rcases mem_append.1 hl with hl | hl
    · exact hfaults l hl
    · exact hfaults' l hl
  · rw [textAll_append, append_assoc]
    exact hscans.append hscans'

lemma lexes_blank (hx : x.Blank) (hne : x ≠ [])
    (hr : ∀ c ∈ r.head?, Text.isBlank c = false) : Lexes [.token .whitespace x] r := by
  refine ⟨[⟨.whitespace, x, none⟩], rfl, ?_, ?_⟩
  · intro l hl
    obtain rfl := mem_singleton.1 hl
    rfl
  · have htext : textAll [.token .whitespace x] = x := append_nil x
    rw [htext]
    exact scans_blank hx hne hr

/-- What stands around the statements of the list at an address: nothing in a file, and braces in a
block. -/
inductive Frame : Address → Kind → List Tree → List Tree → Prop where
  | file : Frame [] .sourceFile [] []
  | block {i : Nat} {a : Address} (x y : Text) :
      Frame (i :: a) .block [.token .leftCurly x] [.token .rightCurly y]

lemma Frame.root (h : Frame [] k F G) : F = [] ∧ G = [] := by
  cases h
  exact ⟨rfl, rfl⟩

lemma Frame.kind {a : Address} (h : Frame a k F G) : k = .sourceFile ∨ k = .block := by
  cases h with
  | file => exact .inl rfl
  | block x y => exact .inr rfl

inductive Item : Tree → Prop where
  | trivia {k : Kind} (x : Text) (kind : k.isTrivia = true) : Item (.token k x)
  | statement {k : Kind} (ts : List Tree) (kind : k.isStatement = true) : Item (.node k ts)

lemma mem_outlineAll {o : Outline} : o ∈ outlineAll ts ↔ ∃ t ∈ ts, o ∈ t.outline := by
  induction ts with
  | nil => simp [outlineAll]
  | cons t ts ih => simp [outlineAll, ih]

lemma eq_token_of_outline (h : t.outline = [.leaf k]) : ∃ x, t = .token k x := by
  cases t with
  | token l x =>
    cases hl : l.isTrivia <;> simp only [outline, hl, if_true, if_false, Bool.false_eq_true] at h
    · obtain rfl := Outline.leaf.inj (cons.inj h).1
      exact ⟨x, rfl⟩
    · cases h
  | node l us => cases (cons.inj h).1

lemma exists_outline (h : ∀ k x, t = .token k x → k.isTrivia = false) : ∃ o, t.outline = [o] := by
  cases t with
  | token k x => exact ⟨.leaf k, by simp [outline, h k x rfl]⟩
  | node k us => exact ⟨_, rfl⟩

end Tree

namespace Site
open LiveEdit.Tree

variable {s c : Site} {a : Address}

lemma within_of_at? {k : Kind} {n : Nat} {ts : List Tree} (h : s.at? a = some ⟨n, .node k ts⟩)
    (hne : a ≠ []) : Outline.Within (.branch k (outlineAll ts)) (outlineAll s.tree.children) := by
  induction a generalizing s with
  | nil => exact absurd rfl hne
  | cons i a ih =>
    obtain ⟨c, hc, hrest⟩ := Option.bind_eq_some_iff.1 h
    have hmem := mem_filter.1 (mem_of_getElem? hc)
    have hin : c.tree ∈ s.tree.children := mem_children_of_row hmem.1
    obtain ⟨m, tree⟩ := c
    cases tree with
    | token l x => cases hmem.2
    | node l us =>
      have hbranch : .branch l (outlineAll us) ∈ outlineAll s.tree.children :=
        mem_outlineAll.2 ⟨_, hin, mem_singleton_self _⟩
      by_cases hnil : a = []
      · subst hnil
        obtain ⟨rfl, rfl⟩ := Tree.node.inj (congrArg Site.tree (Option.some.inj hrest))
        exact .here hbranch
      · exact .inside hbranch (ih hrest hnil)

end Site

namespace Parse
open LiveEdit.Tree

/-- Trees `Y` in the place of the children `X` of the node at an address of a text's tree, with the
lexemes of the text before, in and after that place. -/
structure Planted (t : Text) (a : Address) (n : Nat) (k : Kind) (A X B Y : List Tree)
    (uA uX uB : List Lexeme) (tree : Tree) : Prop where
  replaced : Replaced (.node k (A ++ (X ++ B))) (.node k (A ++ (Y ++ B))) a n (ofText t).tree tree
  lexemes : Lexeme.ofText t = uA ++ (uX ++ uB)
  before : ∃ L, uA.map Lexeme.leaf = L ++ leavesAll A ∧ (Tree.spell L).size = n
  inside : uX.map Lexeme.leaf = leavesAll X
  after : ∃ R, uB.map Lexeme.leaf = leavesAll B ++ R
  leaves : tree.leaves = uA.map Lexeme.leaf ++ (leavesAll Y ++ uB.map Lexeme.leaf)

lemma leavesAll_concat (ts : List Tree) (k : Kind) (x : Text) :
    (leavesAll (ts ++ [.token k x])).getLast? = some (k, x) := by
  rw [leavesAll_append, leavesAll_singleton]
  exact getLast?_concat

lemma lex_eq (t : Text) : lex t = (Lexeme.ofText t).map Lexeme.leaf := by
  rw [lex, ← Lexed.lexemes_ofText, map_map]
  rfl

variable {t : Text} {a : Address} {n : Nat} {k : Kind} {A X B Y F G P S : List Tree}
  {uA uX uB : List Lexeme} {tree : Tree}

lemma exists_planted (hat : (ofText t).site.at? a = some ⟨n, .node k (A ++ (X ++ B))⟩)
    (Y : List Tree) : ∃ uA uX uB tree, Planted t a n k A X B Y uA uX uB tree := by
  obtain ⟨h, tree, hr, hn⟩ := Site.exists_replaced hat (.node k (A ++ (Y ++ B)))
  obtain rfl : h = n := (Nat.zero_add h).symm.trans hn
  obtain ⟨L, R, hold, hnew, hsize⟩ := hr.leaves
  have hlexemes : (Lexeme.ofText t).map Lexeme.leaf =
      (L ++ leavesAll A) ++ (leavesAll X ++ (leavesAll B ++ R)) := by
    rw [← lex_eq, lex, ← leaves_ofText, hold]
    simp only [Tree.leaves, leavesAll_append, append_assoc]
  obtain ⟨uA, us, hus, hA, hrest⟩ := map_eq_append_iff.1 hlexemes
  obtain ⟨uX, uB, rfl, hX, hB⟩ := map_eq_append_iff.1 hrest
  refine ⟨uA, uX, uB, tree, hr, hus, ⟨L, hA, hsize⟩, hX, ⟨R, hB⟩, ?_⟩
  rw [hnew, hA, hB]
  simp only [Tree.leaves, leavesAll_append, append_assoc]

def plant (uA : List Lexeme) (Y : List Tree) (uB : List Lexeme) : Text :=
  Lexeme.spell uA ++ (textAll Y ++ Lexeme.spell uB)

namespace Planted

variable {l : Kind × Text}

variable (h : Planted t a n k A X B Y uA uX uB tree)
include h

lemma textAll_eq : textAll X = Lexeme.spell uX := by
  rw [← Lexeme.spell_leaves, h.inside, textAll_eq_leaves, Tree.spell]

lemma text : t = Lexeme.spell uA ++ (textAll X ++ Lexeme.spell uB) := by
  have htext := Lexeme.ofText_text t
  rw [h.lexemes, flatMap_append, flatMap_append] at htext
  rw [h.textAll_eq]
  exact htext.symm

lemma place : (Lexeme.spell uA).size = n + sizeAll A := by
  obtain ⟨L, hL, hsize⟩ := h.before
  rw [← Lexeme.spell_leaves, hL, spell_append, Text.size_append, hsize, sizeAll_eq_spell]

lemma scans : Lexeme.Scans t uA (textAll X ++ Lexeme.spell uB) ∧
    Lexeme.Scans (textAll X ++ Lexeme.spell uB) uX (Lexeme.spell uB) ∧
    Lexeme.Scans (Lexeme.spell uB) uB [] := by
  have hall := Lexeme.scans_ofText t
  rw [h.lexemes] at hall
  obtain ⟨hfirst, hrest⟩ := hall.split
  obtain ⟨hmiddle, hlast⟩ := hrest.split
  simp only [append_nil, Lexeme.spell_append] at hfirst hmiddle hlast
  rw [h.textAll_eq]
  exact ⟨hfirst, hmiddle, hlast⟩

lemma exists_last (hl : (leavesAll A).getLast? = some l) :
    ∃ u, uA.getLast? = some u ∧ u.leaf = l := by
  obtain ⟨L, hL, -⟩ := h.before
  have hlast := congrArg List.getLast? hL
  rw [getLast?_map, getLast?_append, hl, Option.some_or] at hlast
  exact Option.map_eq_some_iff.1 hlast

lemma exists_first (hl : (leavesAll B).head? = some l) : ∃ u c r, uB.head? = some u ∧ u.leaf = l ∧
    Lexeme.spell uB = c :: r ∧ (Lexeme.scan c r).1 = u := by
  obtain ⟨R, hR⟩ := h.after
  have hhead := congrArg head? hR
  rw [head?_map, head?_append, hl, Option.some_or] at hhead
  obtain ⟨u, hu, rfl⟩ := Option.map_eq_some_iff.1 hhead
  obtain ⟨us, rfl⟩ := List.head?_eq_some_iff.1 hu
  have hscans := h.scans.2.2
  generalize Lexeme.spell (u :: us) = r at hscans ⊢
  cases hscans with
  | next more => exact ⟨_, _, _, rfl, rfl, rfl, rfl⟩

lemma exists_next (hl : (leavesAll B).head? = some l) (hsig : l.1.isTrivia = false) :
    ∃ c r, Lexeme.spell uB = c :: r ∧ Text.isBlank c = false := by
  obtain ⟨u, c, r, -, rfl, hspell, rfl⟩ := h.exists_first hl
  exact ⟨c, r, hspell, Lexeme.not_blank_of_scan hsig⟩

lemma size_pos : (leavesAll A ≠ [] → 0 < sizeAll A) ∧ (leavesAll B ≠ [] → 0 < sizeAll B) := by
  have hpos : ∀ {u : List Lexeme} {ts : List Tree}, (∀ l ∈ u, l.text ≠ []) →
      (∀ m ∈ leavesAll ts, m ∈ u.map Lexeme.leaf) → leavesAll ts ≠ [] → 0 < sizeAll ts := by
    intro u ts htexts hsub hne
    obtain ⟨m, hm⟩ := exists_mem_of_ne_nil _ hne
    obtain ⟨l, hl, rfl⟩ := mem_map.1 (hsub m hm)
    rw [sizeAll_eq_spell]
    exact spell_pos hm (htexts l hl)
  obtain ⟨L, hL, -⟩ := h.before
  obtain ⟨R, hR⟩ := h.after
  obtain ⟨hfirst, -, hlast⟩ := h.scans
  exact ⟨hpos hfirst.text_ne_nil fun m hm => hL ▸ mem_append_right L hm,
    hpos hlast.text_ne_nil fun m hm => hR ▸ mem_append_left R hm⟩

lemma lex_plant (hseal : ∀ l ∈ uA.getLast?, l.Seals (textAll Y ++ Lexeme.spell uB))
    (hY : Lexes Y (Lexeme.spell uB)) (hfaults : ∀ l ∈ Lexeme.ofText t, l.fault = none) :
    lex (plant uA Y uB) = tree.leaves ∧ ∀ l ∈ Lexeme.ofText (plant uA Y uB), l.fault = none := by
  obtain ⟨uY, hleaves, hnone, hscans⟩ := hY
  obtain ⟨hfirst, -, hlast⟩ := h.scans
  have hall : Lexeme.Scans (plant uA Y uB) (uA ++ (uY ++ uB)) [] :=
    (hfirst.reseal hseal).append (hscans.append hlast)
  rw [lex_eq, hall.ofText]
  constructor
  · rw [h.leaves, map_append, map_append, hleaves]
  · rw [h.lexemes] at hfaults
    intro l hl
    rcases mem_append.1 hl with hl | hl
    · exact hfaults l (mem_append_left _ hl)
    · rcases mem_append.1 hl with hl | hl
      · exact hnone l hl
      · exact hfaults l (mem_append_right _ (mem_append_right _ hl))

lemma kind : tree.kind = .sourceFile := by
  rw [h.replaced.kind rfl, tree_ofText]
  rfl

lemma firmBelow (hedges : a = [] ∨ SameEdges (.node k (A ++ (X ++ B))) (.node k (A ++ (Y ++ B))))
    (hf : Outline.faultsAll (outlines (lex t)) = []) (hY : ∀ u ∈ Y, Firm u) :
    ∀ u ∈ tree.children, Firm u := by
  have hold := firm_ofText hf
  have hr := h.replaced
  have hparts : (∀ u ∈ A ++ (X ++ B), Firm u) → ∀ u ∈ A ++ (Y ++ B), Firm u := by
    intro hfirm u hu
    rcases mem_append.1 hu with hu | hu
    · exact hfirm u (mem_append_left _ hu)
    · rcases mem_append.1 hu with hu | hu
      · exact hY u hu
      · exact hfirm u (mem_append_right _ (mem_append_right _ hu))
  generalize (ofText t).tree = old at hold hr
  cases hr with
  | here => exact hparts hold
  | @inside a h u u' A' B' k' inner =>
    have hedges := hedges.resolve_left (cons_ne_nil _ _)
    have hinner : Firm u' := by
      refine inner.firm hedges (fun hfirm => hedges.firm hfirm (hparts ?_)) ?_
      · cases hfirm with
        | node _ _ parts => exact parts
      · exact hold u (mem_append_right A' mem_cons_self)
    intro v hv
    rcases mem_append.1 hv with hv | hv
    · exact hold v (mem_append_left _ hv)
    · rcases mem_cons.1 hv with rfl | hv
      · exact hinner
      · exact hold v (mem_append_right A' (mem_cons_of_mem u hv))

/-- Where the grammar reads the new tree and its tokens keep apart, the new text parses to it, and
without diagnostics. -/
lemma reparse (hedges : a = [] ∨ SameEdges (.node k (A ++ (X ++ B))) (.node k (A ++ (Y ++ B))))
    (hclean : (ofText t).diagnostics = [])
    (hg : Rule.Gives Grammar.file (outlineAll tree.children) [])
    (hfirm : ∀ u ∈ Y, Firm u) (hseal : ∀ l ∈ uA.getLast?, l.Seals (textAll Y ++ Lexeme.spell uB))
    (hlexes : Lexes Y (Lexeme.spell uB)) :
    (ofText (plant uA Y uB)).tree = tree ∧ (ofText (plant uA Y uB)).diagnostics = [] := by
  obtain ⟨hnone, hf⟩ := diagnostics_eq_nil.1 hclean
  obtain ⟨hlex, hfaults⟩ := h.lex_plant hseal hlexes hnone
  have hbelow := h.firmBelow hedges hf hfirm
  have hkind := h.kind
  cases tree with
  | token l x =>
    have hnode := (h.replaced.isNode rfl rfl).2
    cases hnode
  | node l ts =>
    obtain rfl : l = .sourceFile := hkind
    obtain ⟨htree, hnew⟩ := tree_of_gives hlex hbelow hg
    exact ⟨htree, diagnostics_eq_nil.2 ⟨hfaults, hnew⟩⟩

end Planted

end Parse
end LiveEdit
