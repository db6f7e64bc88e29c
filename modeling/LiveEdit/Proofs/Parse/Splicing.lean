import LiveEdit.Proofs.Parse.Building
import LiveEdit.Proofs.Tree.Twins

/-! Tokens that differ in a part of which the grammar sees the same have trees that differ in one
place. -/

namespace LiveEdit
open List

/-- Tokens `X'` in the place of `X` that the grammar cannot tell from them: both are trivia, or both
are one token of the same kind. -/
inductive Swap : List (Kind × Text) → List (Kind × Text) → Prop where
  | trivia {X X' : List (Kind × Text)} (old : ∀ l ∈ X, l.1.isTrivia = true)
      (new : ∀ l ∈ X', l.1.isTrivia = true) : Swap X X'
  | token {k : Kind} (t t' : Text) (hk : k.isTrivia = false) : Swap [(k, t)] [(k, t')]

structure Braid where
  trees : List Tree
  rest : List (Kind × Text)

namespace Braid

def trivia (ls : List (Kind × Text)) : Braid :=
  ⟨(ls.takeWhile (·.1.isTrivia)).map Tree.ofLeaf, ls.dropWhile (·.1.isTrivia)⟩

def next : List (Kind × Text) → Braid
  | [] => ⟨[], []⟩
  | l :: ls => ⟨[Tree.ofLeaf l], ls⟩

def andThen (b : Braid) (f : List (Kind × Text) → Braid) : Braid :=
  ⟨b.trees ++ (f b.rest).trees, (f b.rest).rest⟩

def wrap (kind : Kind) (b : Braid) : Braid := { b with trees := [.node kind b.trees] }

mutual

def fill : Outline → List (Kind × Text) → Braid
  | .leaf _, ls => (trivia ls).andThen next
  | .fault _, ls => (trivia ls).andThen fun ls => ⟨[], ls⟩
  | .branch kind parts, ls => (trivia ls).andThen fun ls => (fillAll parts ls).wrap kind

def fillAll : List Outline → List (Kind × Text) → Braid
  | [], ls => ⟨[], ls⟩
  | o :: os, ls => (fill o ls).andThen (fillAll os)

end

end Braid

namespace Woven
open Token

def braid (w : Woven) : Braid := ⟨w.trees, w.rest.map leaf⟩

lemma braid_trivia (ts : List Token) : (trivia ts).braid = Braid.trivia (ts.map leaf) := by
  have htake : (ts.takeWhile (·.kind.isTrivia)).map leaf =
      (ts.map leaf).takeWhile (·.1.isTrivia) := by
    rw [takeWhile_map]
    rfl
  have hdrop : (ts.dropWhile (·.kind.isTrivia)).map leaf =
      (ts.map leaf).dropWhile (·.1.isTrivia) := by
    rw [dropWhile_map]
    rfl
  rw [braid, Braid.trivia, ← htake, map_map, trivia, hdrop]
  rfl

lemma braid_andThen {w : Woven} {f : List Token → Woven} {g : List (Kind × Text) → Braid}
    (h : (f w.rest).braid = g (w.rest.map leaf)) : (w.andThen f).braid = w.braid.andThen g := by
  have htrees : (f w.rest).trees = (g (w.rest.map leaf)).trees := congrArg Braid.trees h
  have hrest : (f w.rest).rest.map leaf = (g (w.rest.map leaf)).rest := congrArg Braid.rest h
  simp only [braid, Woven.andThen, Braid.andThen, htrees, hrest]

mutual

lemma braid_fill (stop : Position) : ∀ (o : Outline) (ts : List Token) (ks : List Kind),
    significant ts = o.leaves ++ ks → (fill stop o ts).braid = Braid.fill o (ts.map leaf)
  | .leaf k, ts, ks, h => by
    obtain ⟨t, rest, hrest, rfl, -⟩ := dropWhile_of_significant h
    have hnext : (trivia ts).rest = t :: rest := hrest
    rw [fill, Braid.fill, ← braid_trivia]
    apply braid_andThen
    rw [hnext]
    rfl
  | .fault c, ts, ks, h => by
    rw [fill, Braid.fill, ← braid_trivia]
    exact braid_andThen rfl
  | .branch kind os, ts, ks, h => by
    have hks := (significant_dropWhile ts).trans h
    have hparts := braid_fillAll stop os (trivia ts).rest ks hks
    rw [fill, Braid.fill, ← braid_trivia]
    apply braid_andThen
    rw [← hparts]
    rfl

lemma braid_fillAll (stop : Position) :
    ∀ (os : List Outline) (ts : List Token) (ks : List Kind), significant ts =
      Outline.leavesAll os ++ ks → (fillAll stop os ts).braid = Braid.fillAll os (ts.map leaf)
  | [], ts, ks, h => rfl
  | o :: os, ts, ks, h => by
    have ho : significant ts = o.leaves ++ (Outline.leavesAll os ++ ks) := by
      rw [h, Outline.leavesAll, append_assoc]
    have hrest := (covers_fill stop o ts _ ho).significant
    rw [fillAll, Braid.fillAll, ← braid_fill stop o ts _ ho]
    exact braid_andThen (braid_fillAll stop os _ ks hrest)

end

end Woven

namespace Braid
open LiveEdit.Tree

variable {X X' V P : List (Kind × Text)} {b b' : Braid} {f : List (Kind × Text) → Braid}

/-- How two braids go, of the leaves `P`, then `X` or `X'`, and then `V`: they are the same as long
as they are not past `P`, and once they are past the middle they differ there only. -/
inductive Parted (X X' V P : List (Kind × Text)) : Braid → Braid → Prop where
  | before {ts : List Tree} {P' : List (Kind × Text)}
      (size : (spell P).size = sizeAll ts + (spell P').size) :
      Parted X X' V P ⟨ts, P' ++ (X ++ V)⟩ ⟨ts, P' ++ (X' ++ V)⟩
  | across {ts ts' : List Tree} {rest : List (Kind × Text)}
      (spliced : Spliced X X' (spell P).size ts ts') : Parted X X' V P ⟨ts, rest⟩ ⟨ts', rest⟩

lemma parted_before {ts : List Tree}
    {P' : List (Kind × Text)} (size : (spell P).size = sizeAll ts + (spell P').size)
    (hf : Parted X X' V P' (f (P' ++ (X ++ V))) (f (P' ++ (X' ++ V)))) :
    Parted X X' V P (andThen ⟨ts, P' ++ (X ++ V)⟩ f) (andThen ⟨ts, P' ++ (X' ++ V)⟩ f) := by
  unfold Braid.andThen
  dsimp only
  generalize f (P' ++ (X ++ V)) = c at hf ⊢
  generalize f (P' ++ (X' ++ V)) = c' at hf ⊢
  cases hf with
  | before more =>
    apply Parted.before
    rw [size, more, sizeAll_append, Nat.add_assoc]
  | across spliced =>
    apply Parted.across
    rw [size]
    exact spliced.append_left ts

lemma Parted.andThen (h : Parted X X' V P b b')
    (hf : ∀ P', Parted X X' V P' (f (P' ++ (X ++ V))) (f (P' ++ (X' ++ V)))) :
    Parted X X' V P (b.andThen f) (b'.andThen f) := by
  cases h with
  | before size => exact parted_before size (hf _)
  | across spliced => exact .across (spliced.append_right _)

lemma Parted.wrap (kind : Kind) (h : Parted X X' V P b b') :
    Parted X X' V P (b.wrap kind) (b'.wrap kind) := by
  cases h with
  | @before ts P' size =>
    apply Parted.before
    rw [size, sizeAll, sizeAll, Tree.size, Nat.add_zero]
  | across spliced =>
    have hinside := Spliced.inside [] [] kind spliced
    rw [sizeAll, Nat.zero_add] at hinside
    exact .across hinside

lemma trivia_append {Q : List (Kind × Text)}
    (hQ : ∀ l ∈ Q, l.1.isTrivia = true) (ls : List (Kind × Text)) :
    trivia (Q ++ ls) = ⟨Q.map ofLeaf ++ (trivia ls).trees, (trivia ls).rest⟩ := by
  rw [trivia, trivia, takeWhile_append_of_pos hQ, dropWhile_append_of_pos hQ, map_append]

lemma trivia_cons {l : Kind × Text} (hl : l.1.isTrivia = false) (ls : List (Kind × Text)) :
    trivia (l :: ls) = ⟨[], l :: ls⟩ := by
  simp [trivia, hl]

lemma parted_trivia (hswap : Swap X X') (hf : ∀ P', (P' = [] → ∃ l ∈ X, l.1.isTrivia = false) →
      Parted X X' V P' (f (P' ++ (X ++ V))) (f (P' ++ (X' ++ V)))) :
    Parted X X' V P ((trivia (P ++ (X ++ V))).andThen f) ((trivia (P ++ (X' ++ V))).andThen f) := by
  have hsplit : P.takeWhile (·.1.isTrivia) ++ P.dropWhile (·.1.isTrivia) = P :=
    takeWhile_append_dropWhile
  have hfront : ∀ l ∈ P.takeWhile (·.1.isTrivia), l.1.isTrivia = true :=
    fun l hl => mem_takeWhile_imp (p := fun l : Kind × Text => l.1.isTrivia) hl
  have hback : ∀ l ls, P.dropWhile (·.1.isTrivia) = l :: ls → l.1.isTrivia = false := by
    intro l ls hl
    have hhead := head?_dropWhile_not (fun l : Kind × Text => l.1.isTrivia) P
    simpa [hl] using hhead
  generalize P.takeWhile (·.1.isTrivia) = Q at hsplit hfront
  generalize P.dropWhile (·.1.isTrivia) = P' at hsplit hback
  subst hsplit
  have hsize : (spell (Q ++ P')).size = sizeAll (Q.map ofLeaf) + (spell P').size := by
    rw [spell_append, Text.size_append, sizeAll_leaves]
  simp only [append_assoc, trivia_append hfront]
  cases P' with
  | cons l ls =>
    have hl := hback l ls rfl
    simp only [cons_append, trivia_cons hl, append_nil]
    exact parted_before hsize (hf (l :: ls) fun hnil => absurd hnil (cons_ne_nil l ls))
  | nil =>
    simp only [nil_append]
    cases hswap with
    | trivia old new =>
      -- the middle is trivia as well, and so is what comes right after it
      have hhere : Spliced X X' _ _ _ := .here (Q.map ofLeaf) (trivia V).trees
      have hacross := hhere.append_right (f (trivia V).rest).trees
      simp only [trivia_append old, trivia_append new]
      exact .across (hsize ▸ hacross)
    | @token k t t' hk =>
      have hold : trivia ([(k, t)] ++ V) = ⟨[], (k, t) :: V⟩ := trivia_cons hk V
      have hnew : trivia ([(k, t')] ++ V) = ⟨[], (k, t') :: V⟩ := trivia_cons hk V
      simp only [hold, hnew, append_nil (Q.map ofLeaf)]
      exact parted_before hsize (hf [] fun _ => ⟨_, mem_singleton_self _, hk⟩)

lemma parted_next (hswap : Swap X X') (hP : P = [] → ∃ l ∈ X, l.1.isTrivia = false) :
    Parted X X' V P (next (P ++ (X ++ V))) (next (P ++ (X' ++ V))) := by
  cases P with
  | cons l P' =>
    apply Parted.before
    rw [← sizeAll_leaves, map_cons, sizeAll, sizeAll, sizeAll, sizeAll_leaves, Nat.add_zero]
  | nil =>
    obtain ⟨l, hl, hsig⟩ := hP rfl
    cases hswap with
    | trivia old new => exact absurd (old l hl) (Bool.eq_false_iff.1 hsig)
    | token t t' hk => exact .across (.here [] [])

mutual

lemma parted_fill (hswap : Swap X X') : ∀ (o : Outline) (P : List (Kind × Text)),
    Parted X X' V P (fill o (P ++ (X ++ V))) (fill o (P ++ (X' ++ V)))
  | .leaf _, P => by
    rw [fill, fill]
    exact parted_trivia hswap fun P' hP' => parted_next hswap hP'
  | .fault _, P => by
    rw [fill, fill]
    apply parted_trivia hswap
    intro P' hP'
    apply Parted.before
    rw [sizeAll, Nat.zero_add]
  | .branch kind os, P => by
    rw [fill, fill]
    exact parted_trivia hswap fun P' hP' => (parted_fillAll hswap os P').wrap kind

lemma parted_fillAll (hswap : Swap X X') : ∀ (os : List Outline) (P : List (Kind × Text)),
    Parted X X' V P (fillAll os (P ++ (X ++ V))) (fillAll os (P ++ (X' ++ V)))
  | [], P => by
    rw [fillAll, fillAll]
    apply Parted.before
    rw [sizeAll, Nat.zero_add]
  | o :: os, P => by
    rw [fillAll, fillAll]
    exact (parted_fill hswap o P).andThen (parted_fillAll hswap os)

end

def whole (os : List Outline) (ls : List (Kind × Text)) : List Tree :=
  ((fillAll os ls).andThen fun rest => ⟨rest.map ofLeaf, []⟩).trees

lemma spliced_whole (hswap : Swap X X') (os : List Outline) (U V : List (Kind × Text)) :
    Spliced X X' (spell U).size (whole os (U ++ (X ++ V))) (whole os (U ++ (X' ++ V))) := by
  have hparted : Parted X X' V U _ _ := parted_fillAll hswap os U
  unfold whole Braid.andThen
  dsimp only
  generalize fillAll os (U ++ (X ++ V)) = b at hparted ⊢
  generalize fillAll os (U ++ (X' ++ V)) = b' at hparted ⊢
  cases hparted with
  | @before ts P' size =>
    -- the outline ends before the middle
    have hhere : Spliced X X' _ _ _ := .here (ts ++ P'.map ofLeaf) (V.map ofLeaf)
    rw [sizeAll_append, sizeAll_leaves, ← size] at hhere
    simpa only [map_append, append_assoc] using hhere
  | across spliced => exact spliced.append_right _

end Braid

namespace Parse
open Token LiveEdit.Tree

def lex (t : Text) : List (Kind × Text) := (Lexed.ofText t).tokens.map leaf

def outlines (ls : List (Kind × Text)) : List Outline :=
  Outline.ofKinds ((ls.map Prod.fst).filter (!·.isTrivia))

lemma outlines_lex (t : Text) :
    outlines (lex t) = Outline.ofKinds (Lexed.ofText t).significant := by
  rw [outlines, lex, map_map]
  rfl

/-- The tree of a text depends on the kinds and texts of its tokens only. -/
lemma tree_ofText (t : Text) :
    (ofText t).tree = .node .sourceFile (Braid.whole (outlines (lex t)) (lex t)) := by
  have hkinds := Outline.leavesAll_ofKinds (Lexed.endOfFile_not_mem_significant t)
  have hbraid := Woven.braid_fillAll (Lexed.ofText t).stop
    (Outline.ofKinds (Lexed.ofText t).significant) (Lexed.ofText t).tokens []
    (by rw [hkinds, append_nil]; rfl)
  rw [ofText, ofLexed, outlines_lex, Braid.whole, lex, ← hbraid]
  simp only [Woven.andThen, Braid.andThen, Woven.braid, Woven.all, map_map]
  rfl

lemma outlines_swap {X X' : List (Kind × Text)} (hswap : Swap X X') (U V : List (Kind × Text)) :
    outlines (U ++ (X' ++ V)) = outlines (U ++ (X ++ V)) := by
  have hkinds : (X'.map Prod.fst).filter (!·.isTrivia) = (X.map Prod.fst).filter (!·.isTrivia) := by
    cases hswap with
    | trivia old new =>
      have hnone : ∀ {Y : List (Kind × Text)}, (∀ l ∈ Y, l.1.isTrivia = true) →
          (Y.map Prod.fst).filter (!·.isTrivia) = [] := by
        intro Y hY
        simpa [filter_eq_nil_iff] using fun k t hl => hY (k, t) hl
      rw [hnone old, hnone new]
    | token t t' hk => rfl
  simp only [outlines, map_append, filter_append, hkinds]

end Parse
end LiveEdit
