import LiveEdit.Proofs.Parse.Forms
import LiveEdit.Proofs.Tree.Leaning

/-! A node takes no room only if it is a variable that lacks its name. -/

namespace LiveEdit
open Option
open List hiding count

namespace Tree

variable {os : List Outline} {A Q X Y : List Tree} {c : Tree}

lemma Grown.split_node (h : Grown os (X ++ c :: Y)) (hc : c.isNode = true) :
    ∃ before k parts after A Q us, os = before ++ .branch k parts :: after ∧ X = A ++ Q ∧
    Grown before A ∧ (∀ q ∈ Q, q.isGap = true) ∧ c = .node k us := by
  generalize hall : X ++ c :: Y = all at h
  induction h generalizing X with
  | nil => exact absurd hall (append_ne_nil_of_right_ne_nil X (cons_ne_nil c Y))
  | @cons o os Q M ts gaps suits more ih =>
    -- the node is not among the trivia
    obtain ⟨Z, rfl, hrest⟩ : ∃ Z, X = Q ++ Z ∧ M ++ ts = Z ++ c :: Y := by
      rcases append_eq_append_iff.1 hall with ⟨Z, rfl, hZ⟩ | hZ
      · cases Z with
        | nil => exact ⟨[], by simp, hZ.symm⟩
        | cons z Z =>
          obtain ⟨rfl, -⟩ := cons.inj hZ
          exact absurd hc (isNode_of_gap (gaps c (by simp)))
      · exact hZ
    obtain ⟨W, rfl, hW⟩ | ⟨W, rfl⟩ : (∃ W, Z = M ++ W ∧ ts = W ++ c :: Y) ∨
        ∃ W, M = Z ++ c :: W := by
      rcases append_eq_append_iff.1 hrest with hleft | ⟨W, rfl, hW⟩
      · exact .inl hleft
      · cases W with
        | nil => exact .inl ⟨[], by simp, hW.symm⟩
        | cons w W =>
          obtain ⟨rfl, -⟩ := cons.inj hW
          exact .inr ⟨W, rfl⟩
    · obtain ⟨before, k, parts, after, A, Q', us, rfl, rfl, hA, hQ', rfl⟩ := ih hW.symm
      exact ⟨o :: before, k, parts, after, Q ++ (M ++ A), Q', us, rfl, by simp,
        .cons gaps suits hA, hQ', rfl⟩
    · cases o with
      | leaf k =>
        obtain ⟨x, hx⟩ := suits
        obtain ⟨-, hx⟩ | ⟨-, hx⟩ := append_eq_singleton_iff.1 hx
        · obtain ⟨rfl, -⟩ := cons.inj hx
          cases hc
        · cases hx
      | fault => exact absurd suits (append_ne_nil_of_right_ne_nil Z (cons_ne_nil c W))
      | branch k parts =>
        obtain ⟨us, hus⟩ := suits
        obtain ⟨rfl, hus⟩ | ⟨-, hus⟩ := append_eq_singleton_iff.1 hus
        · obtain ⟨rfl, -⟩ := cons.inj hus
          exact ⟨[], k, parts, os, [], Q, us, rfl, by simp, .nil, gaps, rfl⟩
        · cases hus

lemma exists_last_token {before : List Outline} {j : Kind} (hA : Grown (before ++ [.leaf j]) A)
    (hQ : ∀ q ∈ Q, q.isGap = true) : ∃ C tok, A ++ Q = C ++ [tok] ∧ tok.isNode = false := by
  rcases eq_nil_or_concat' Q with rfl | ⟨Q, q, rfl⟩
  · obtain ⟨A, B, rfl, -, hB⟩ := hA.split
    cases hB with
    | @cons _ _ Q _ _ gaps suits more =>
      cases more
      obtain ⟨x, rfl⟩ := suits
      exact ⟨A ++ Q, .token j x, by simp, rfl⟩
  · exact ⟨A ++ Q, q, (append_assoc ..).symm, Bool.not_eq_true _ ▸ isNode_of_gap (hQ q (by simp))⟩

lemma isChain_of_splits {R : Tree → Tree → Prop} {ts : List Tree}
    (h : ∀ X t u Y, ts = X ++ t :: u :: Y → R t u) : ts.IsChain R := by
  induction ts with
  | nil => exact .nil
  | cons t ts ih =>
    cases ts with
    | nil => exact .singleton t
    | cons u ts =>
      exact .cons_cons (h [] t u ts rfl)
        (ih fun X v w Y hsplit => h (t :: X) v w Y (congrArg (t :: ·) hsplit))

end Tree

namespace Site
open LiveEdit.Tree

variable {q : Site} {t : Text} {parts : List Outline} {after : List Kind} {X Y : List Tree}
  {c : Tree}

lemma Grows.token_before (h : q.Grows t parts after) (hsplit : q.tree.children = X ++ c :: Y)
    (hc : c.isNode = true) (hk : c.kind = .variableDeclaration) :
    ∃ X' tok, X = X' ++ [tok] ∧ tok.isNode = false := by
  have hgrown := h.grown
  rw [hsplit] at hgrown
  obtain ⟨before, k, ps, rest, A, Q, us, rfl, rfl, hA, hQ, rfl⟩ := hgrown.split_node hc
  obtain rfl : k = .variableDeclaration := hk
  have hkind : q.kind = .variableStatement := by
    cases h.nested.2 (.branch .variableDeclaration ps) (by simp) with
    | branch hholds _ =>
      revert hholds
      cases q.kind <;> intro hholds <;> first | rfl | cases hholds
  have hshape := h.formed.shape
  rw [hkind] at hshape
  obtain ⟨hfirst, hchain⟩ := hshape
  rcases eq_nil_or_concat' before with rfl | ⟨before, o, rfl⟩
  · cases hfirst _ rfl
  · rw [append_assoc, singleton_append] at hchain
    have hleaf := (isChain_append_cons_cons.1 hchain).2.1 rfl
    cases o with
    | leaf j => exact exists_last_token hA hQ
    | fault | branch => cases hleaf

end Site

namespace Parse
open LiveEdit.Tree

variable {t : Text} {a b : Address} {s q : Site} {c : Tree}

lemma hollow_of_size (h : (ofText t).site.at? a = some s) (ha : a ≠ []) (hsize : s.tree.size = 0) :
    s.kind = .variableDeclaration ∧ s.tree.children = [] := by
  obtain ⟨i, a, rfl⟩ := exists_cons_of_ne_nil ha
  obtain ⟨parts, after, hgrows⟩ := exists_grows h
  exact hgrows.hollow hsize

lemma token_pos (h : (ofText t).site.at? a = some q) (hc : c ∈ q.tree.children)
    (htoken : c.isNode = false) : 0 < c.size := by
  obtain ⟨L, R, hleaves, -⟩ := Site.sits_of_at? h
  obtain ⟨n, tree⟩ := q
  cases tree with
  | token => cases hc
  | node k ts =>
    obtain ⟨X, Y, rfl⟩ := append_of_mem (show c ∈ ts from hc)
    cases c with
    | node => cases htoken
    | token j x =>
      have hmem : (j, x) ∈ lex t := by simp [← hleaves, Tree.leaves, leavesAll]
      exact Nat.pos_of_ne_zero fun hzero => lex_ne_nil t _ hmem (Text.eq_nil_of_size hzero)

lemma token_before_hollow (h : (ofText t).site.at? a = some q)
    {X Y : List Tree} (hsplit : q.tree.children = X ++ c :: Y) (hsize : c.size = 0) :
    ∃ X' tok, X = X' ++ [tok] ∧ tok.isNode = false := by
  have hmem : c ∈ q.tree.children := by simp [hsplit]
  cases hc : c.isNode with
  | false => exact absurd hsize (token_pos h hmem hc).ne'
  | true =>
    have hk : c.kind = .variableDeclaration := by
      have hnode : q.nodes[count X]? = some ⟨q.start + sizeAll X, c⟩ := by
        rw [Site.nodes, Site.elements, hsplit]
        exact Site.node_at q.start X Y hc
      have hat : (ofText t).site.at? (a ++ [count X]) = some ⟨q.start + sizeAll X, c⟩ := by
        rw [Site.at?_append, h, bind_some]
        exact bind_eq_some_iff.2 ⟨_, hnode, rfl⟩
      exact (hollow_of_size hat (by simp) hsize).1
    cases a with
    | nil =>
      -- a variable is no statement
      obtain rfl := some.inj h
      rcases (regular_root t).file rfl c hmem with hgap | hlisted
      · exact absurd hc (isNode_of_gap hgap)
      · rw [isListed, hk] at hlisted
        simp [Kind.isStatement] at hlisted
    | cons i a =>
      obtain ⟨parts, after, hgrows⟩ := exists_grows h
      exact hgrows.token_before hsplit hc hk

lemma tight_ofText (t : Text) : (ofText t).site.Tight := by
  intro b q hq
  refine ⟨fun c hc => token_pos hq hc, fun c hc => Nat.pos_of_ne_zero fun hzero => ?_,
    isChain_of_splits ?_⟩
  · obtain ⟨Y, hY⟩ := List.head?_eq_some_iff.1 hc
    obtain ⟨X, tok, hX, -⟩ := token_before_hollow hq (X := []) hY hzero
    exact absurd hX.symm (append_ne_nil_of_right_ne_nil X (cons_ne_nil tok []))
  · intro X c u Y hsplit hzero
    rw [← singleton_append, ← append_assoc] at hsplit
    obtain ⟨X', tok, hX, htok⟩ := token_before_hollow hq hsplit hzero
    obtain ⟨-, hlast⟩ := append_inj' hX rfl
    rwa [(cons.inj hlast).1]

/-- The tree of any text keeps to the forms of nodes, with faults or without. -/
theorem keeps_forms (t : Text) :
    (∀ (a : Address) (s : Site), (⟨0, (ofText t).tree⟩ : Site).at? a = some s → s.Regular t ∧
      (a ≠ [] → s.tree.size = 0 → s.kind = .variableDeclaration ∧ s.tree.children = [])) ∧
    ∀ (a b : Address) (s u : Site), (⟨0, (ofText t).tree⟩ : Site).at? a = some s →
      (⟨0, (ofText t).tree⟩ : Site).at? b = some u → s.tree.size = 0 → u.tree.size = 0 →
      s.start = u.start → a = b := by
  refine ⟨fun a s hs => ⟨?_, fun ha hsize => hollow_of_size hs ha hsize⟩,
    fun a b s u => (tight_ofText t).eq_of_start⟩
  cases a with
  | nil =>
    obtain rfl := some.inj hs
    exact regular_root t
  | cons i a =>
    obtain ⟨parts, after, hgrows⟩ := exists_grows hs
    exact hgrows.regular

end Parse
end LiveEdit
