import Mathlib.Data.List.Induction
import LiveEdit.Proofs.Grammar.Stability
import LiveEdit.Proofs.Parse.Firmness

/-! A tree whose outline the grammar reads from the tree's tokens is the parse of its text. -/

namespace LiveEdit
open List

namespace Tree

mutual

def outline : Tree → List Outline
  | token k _ => if k.isTrivia then [] else [.leaf k]
  | node k ts => [.branch k (outlineAll ts)]

def outlineAll : List Tree → List Outline
  | [] => []
  | t :: ts => outline t ++ outlineAll ts

end

def significant (ls : List (Kind × Text)) : List Kind := (ls.map Prod.fst).filter (!·.isTrivia)

variable {t : Tree} {ts us : List Tree} {l : Kind × Text} {ls ms : List (Kind × Text)}

@[simp] lemma outlineAll_append (ts us : List Tree) :
    outlineAll (ts ++ us) = outlineAll ts ++ outlineAll us := by
  induction ts with
  | nil => rfl
  | cons t ts ih => simp only [cons_append, outlineAll, ih, append_assoc]

@[simp] lemma significant_append (ls ms : List (Kind × Text)) :
    significant (ls ++ ms) = significant ls ++ significant ms := by
  simp only [significant, map_append, filter_append]

lemma significant_eq_nil : significant ls = [] ↔ ∀ l ∈ ls, l.1.isTrivia = true := by
  simp [significant, filter_eq_nil_iff]

lemma significant_cons_of (h : l.1.isTrivia = false) :
    significant (l :: ls) = l.1 :: significant ls := by
  simp [significant, h]

mutual

lemma leaves_outline : ∀ t : Tree, Outline.leavesAll t.outline = significant t.leaves
  | token k t => by
    cases h : k.isTrivia <;>
      simp [outline, h, Outline.leavesAll, Outline.leaves, significant, leaves]
  | node k ts => by
    rw [outline, leaves, ← leaves_outlineAll ts]
    simp only [Outline.leavesAll, Outline.leaves, append_nil]

lemma leaves_outlineAll :
    ∀ ts : List Tree, Outline.leavesAll (outlineAll ts) = significant (leavesAll ts)
  | [] => rfl
  | t :: ts => by
    rw [outlineAll, Outline.leavesAll_append, leaves_outline t, leaves_outlineAll ts, leavesAll,
      significant_append]

end

mutual

lemma faults_outline : ∀ t : Tree, Outline.faultsAll t.outline = []
  | token k t => by cases h : k.isTrivia <;> simp [outline, h, Outline.faultsAll, Outline.faults]
  | node k ts => by
    simp only [outline, Outline.faultsAll, Outline.faults, faults_outlineAll ts, append_nil]

lemma faults_outlineAll : ∀ ts : List Tree, Outline.faultsAll (outlineAll ts) = []
  | [] => rfl
  | t :: ts => by
    rw [outlineAll, Outline.faultsAll_append, faults_outline t, faults_outlineAll ts]
    rfl

end

lemma outlineAll_trivia (h : ∀ l ∈ ls, l.1.isTrivia = true) : outlineAll (ls.map ofLeaf) = [] := by
  induction ls with
  | nil => rfl
  | cons l ls ih =>
    have hrest := ih fun m hm => h m (mem_cons_of_mem l hm)
    simp [outlineAll, outline, ofLeaf, h l mem_cons_self, hrest]

def Settled (ls : List (Kind × Text)) : Prop := ∀ l ∈ ls.getLast?, l.1.isTrivia = false

lemma EndsHeavy.settled (h : EndsHeavy ls) : Settled ls := by
  obtain ⟨l, hl, hheavy⟩ := h
  intro m hm
  obtain rfl : l = m := Option.some.inj ((Option.mem_def.1 hl).symm.trans hm)
  exact hheavy.1

lemma Settled.of_append (h : Settled (ls ++ ms)) : Settled ms := by
  intro l hl
  refine h l ?_
  rw [getLast?_append, Option.mem_def.1 hl]
  rfl

lemma Settled.significant_ne_nil (h : Settled ls) (hne : ls ≠ []) : significant ls ≠ [] := by
  intro hnil
  have hlast := h _ (getLast?_eq_some_getLast hne)
  exact absurd (significant_eq_nil.1 hnil _ (getLast_mem hne)) (Bool.eq_false_iff.1 hlast)

lemma Firm.leaves_ne_nil (h : Firm t) : t.leaves ≠ [] := by
  cases h with
  | token k t => exact cons_ne_nil _ _
  | node _ ends _ => exact ends.ne_nil

lemma exists_settled (h : ∀ t ∈ ts, Firm t) : ∃ (us : List Tree) (ls : List (Kind × Text)),
    ts = us ++ ls.map ofLeaf ∧ Settled (leavesAll us) ∧ ∀ l ∈ ls, l.1.isTrivia = true := by
  induction ts using reverseRecOn with
  | nil =>
    refine ⟨[], [], rfl, ?_, ?_⟩
    · intro l hl
      cases hl
    · simp
  | append_singleton ts t ih =>
    obtain ⟨us, ls, hts, hsettled, htrivia⟩ := ih fun u hu => h u (mem_append_left [t] hu)
    have hends : Settled t.leaves → ∃ (us : List Tree) (ls : List (Kind × Text)),
        ts ++ [t] = us ++ ls.map ofLeaf ∧ Settled (leavesAll us) ∧
          ∀ l ∈ ls, l.1.isTrivia = true := by
      intro ht
      refine ⟨ts ++ [t], [], (append_nil _).symm, ?_, by simp⟩
      intro l hl
      have hleaves : leavesAll (ts ++ [t]) = leavesAll ts ++ t.leaves := by
        simp only [leavesAll_append, leavesAll, append_nil]
      obtain ⟨m, hm⟩ := Option.isSome_iff_exists.1
        (getLast?_isSome.2 (h t (mem_append_right ts (mem_singleton_self t))).leaves_ne_nil)
      rw [hleaves, getLast?_append, hm] at hl
      exact ht l (hm.trans hl)
    cases h t (mem_append_right ts (mem_singleton_self t)) with
    | token k x =>
      cases hk : k.isTrivia with
      | true =>
        refine ⟨us, ls ++ [(k, x)], ?_, hsettled, ?_⟩
        · rw [hts, append_assoc, map_append]
          rfl
        · intro l hl
          rcases mem_append.1 hl with hl | hl
          · exact htrivia l hl
          · obtain rfl := mem_singleton.1 hl
            exact hk
      | false =>
        apply hends
        intro l hl
        obtain rfl := Option.some.inj hl
        exact hk
    | node _ ends _ => exact hends ends.settled

end Tree

namespace Braid
open LiveEdit.Tree

variable {os : List Outline} {l : Kind × Text} {ls ms : List (Kind × Text)}

lemma fillAll_append (os ps : List Outline) (ls : List (Kind × Text)) :
    fillAll (os ++ ps) ls = (fillAll os ls).andThen (fillAll ps) := by
  induction os generalizing ls with
  | nil => rfl
  | cons o os ih =>
    rw [cons_append, fillAll, fillAll]
    unfold Braid.andThen
    dsimp only
    rw [ih, Braid.andThen]
    simp only [append_assoc]

lemma fillAll_trivia (hl : l.1.isTrivia = true) (hne : os ≠ []) (ls : List (Kind × Text)) :
    fillAll os (l :: ls) = ⟨ofLeaf l :: (fillAll os ls).trees, (fillAll os ls).rest⟩ := by
  obtain ⟨o, os, rfl⟩ := exists_cons_of_ne_nil hne
  have htrivia : trivia (l :: ls) = ⟨ofLeaf l :: (trivia ls).trees, (trivia ls).rest⟩ :=
    trivia_append (Q := [l]) (by simpa using hl) ls
  have hfill : fill o (l :: ls) = ⟨ofLeaf l :: (fill o ls).trees, (fill o ls).rest⟩ := by
    cases o <;> rw [fill, fill, htrivia] <;> rfl
  rw [fillAll, fillAll, hfill]
  rfl

mutual

lemma fillAll_outline :
    ∀ t : Tree, Firm t → Settled t.leaves → ∀ ls, fillAll t.outline (t.leaves ++ ls) = ⟨[t], ls⟩
  | .token k x, _, hsettled, ls => by
    have hk : k.isTrivia = false := hsettled (k, x) rfl
    have hnone : trivia ((k, x) :: ls) = ⟨[], (k, x) :: ls⟩ := trivia_cons hk ls
    have hoff : (Tree.token k x).outline = [.leaf k] := by simp [outline, hk]
    rw [hoff, leaves, singleton_append, fillAll, fill, hnone]
    rfl
  | .node k ts, hfirm, _, ls => by
    cases hfirm with
    | node starts ends parts =>
      have hparts := fillAll_outlineAll ts parts ends.settled ls
      have hnone : trivia (leavesAll ts ++ ls) = ⟨[], leavesAll ts ++ ls⟩ := by
        obtain ⟨l, hl, hheavy⟩ := starts
        obtain ⟨ms, hms⟩ := List.head?_eq_some_iff.1 hl
        rw [hms]
        exact trivia_cons hheavy.1 _
      rw [outline, leaves, fillAll, fill, hnone]
      simp only [Braid.andThen, hparts]
      rfl

lemma fillAll_outlineAll : ∀ ts : List Tree, (∀ t ∈ ts, Firm t) → Settled (leavesAll ts) → ∀ ls,
    fillAll (outlineAll ts) (leavesAll ts ++ ls) = ⟨ts, ls⟩
  | [], _, _, ls => rfl
  | t :: ts, hfirm, hsettled, ls => by
    have hrest : Settled (leavesAll ts) := hsettled.of_append
    have hmore : ∀ u ∈ ts, Firm u := fun u hu => hfirm u (mem_cons_of_mem t hu)
    have hts := fillAll_outlineAll ts hmore hrest ls
    have hhere : Settled t.leaves → fillAll (outlineAll (t :: ts)) (leavesAll (t :: ts) ++ ls) =
        ⟨t :: ts, ls⟩ := by
      intro ht
      have hone := fillAll_outline t (hfirm t mem_cons_self) ht (leavesAll ts ++ ls)
      rw [outlineAll, leavesAll, fillAll_append, append_assoc, hone]
      simp only [Braid.andThen, hts]
      rfl
    cases hfirm t mem_cons_self with
    | token k x =>
      cases hk : k.isTrivia with
      | true =>
        -- some token of the grammar follows
        have hne : leavesAll ts ≠ [] := by
          intro hnil
          rw [leavesAll, hnil, append_nil] at hsettled
          exact absurd hk (Bool.eq_false_iff.1 (hsettled (k, x) rfl))
        have houtline : outlineAll ts ≠ [] := by
          intro hnil
          have hkinds := leaves_outlineAll ts
          rw [hnil] at hkinds
          exact hrest.significant_ne_nil hne hkinds.symm
        have hoff :
            outlineAll (.token k x :: ts) = outlineAll ts := by simp [outlineAll, outline, hk]
        have hfirst : leavesAll (.token k x :: ts) ++ ls = (k, x) :: (leavesAll ts ++ ls) := rfl
        rw [hoff, hfirst, fillAll_trivia hk houtline, hts]
        rfl
      | false =>
        apply hhere
        intro l hl
        obtain rfl := Option.some.inj hl
        exact hk
    | node _ ends _ => exact hhere ends.settled

end

lemma whole_outlineAll {ts : List Tree} (h : ∀ t ∈ ts, Firm t) :
    whole (outlineAll ts) (leavesAll ts) = ts := by
  obtain ⟨us, ls, rfl, hsettled, htrivia⟩ := exists_settled h
  have hus := fillAll_outlineAll us (fun t ht => h t (mem_append_left _ ht)) hsettled ls
  rw [outlineAll_append, outlineAll_trivia htrivia, append_nil, leavesAll_append, leavesAll_leaves,
    whole, hus]
  rfl

lemma outline_trivia (ls : List (Kind × Text)) : outlineAll (trivia ls).trees = [] :=
  outlineAll_trivia fun _ hl => mem_takeWhile_imp (p := fun l : Kind × Text => l.1.isTrivia) hl

lemma significant_trivia (ls : List (Kind × Text)) :
    significant (trivia ls).rest = significant ls := by
  have hsplit : ls.takeWhile (·.1.isTrivia) ++ (trivia ls).rest = ls := takeWhile_append_dropWhile
  have hnone : significant (ls.takeWhile (·.1.isTrivia)) = [] :=
    significant_eq_nil.2 fun l hl =>
      mem_takeWhile_imp (p := fun l : Kind × Text => l.1.isTrivia) hl
  rw [← nil_append (significant _), ← hnone, ← significant_append, hsplit]

lemma trivia_rest (h : (trivia ls).rest = l :: ms) : l.1.isTrivia = false := by
  have hhead := head?_dropWhile_not (fun l : Kind × Text => l.1.isTrivia) ls
  have hrest : ls.dropWhile (·.1.isTrivia) = l :: ms := h
  simpa [hrest] using hhead

mutual

lemma outline_fill : ∀ (o : Outline) (ls : List (Kind × Text)) (ks : List Kind),
    significant ls = o.leaves ++ ks → o.faults = [] →
      outlineAll (fill o ls).trees = [o] ∧ significant (fill o ls).rest = ks
  | .leaf k, ls, ks, h, hf => by
    rw [← significant_trivia] at h
    rw [fill, Braid.andThen]
    cases hnext : (trivia ls).rest with
    | nil =>
      rw [hnext] at h
      cases h
    | cons l ms =>
      have hl := trivia_rest hnext
      rw [hnext, significant_cons_of hl] at h
      obtain ⟨rfl, hks⟩ := cons.inj h
      refine ⟨?_, hks⟩
      simp [next, outline_trivia, outlineAll, outline, ofLeaf, hl]
  | .fault c, ls, ks, h, hf => by cases hf
  | .branch kind os, ls, ks, h, hf => by
    rw [← significant_trivia] at h
    obtain ⟨hparts, hks⟩ := outline_fillAll os (trivia ls).rest ks h hf
    refine ⟨?_, hks⟩
    simp [fill, Braid.andThen, Braid.wrap, outline_trivia, outlineAll, outline, hparts]

lemma outline_fillAll : ∀ (os : List Outline) (ls : List (Kind × Text)) (ks : List Kind),
    significant ls = Outline.leavesAll os ++ ks → Outline.faultsAll os = [] →
      outlineAll (fillAll os ls).trees = os ∧ significant (fillAll os ls).rest = ks
  | [], ls, ks, h, hf => ⟨rfl, h⟩
  | o :: os, ls, ks, h, hf => by
    rw [Outline.leavesAll, append_assoc] at h
    obtain ⟨hfirst, hmore⟩ := append_eq_nil_iff.1 hf
    obtain ⟨ho, hks⟩ := outline_fill o ls _ h hfirst
    obtain ⟨hos, hrest⟩ := outline_fillAll os _ ks hks hmore
    refine ⟨?_, hrest⟩
    rw [fillAll]
    simp only [Braid.andThen, outlineAll_append, ho, hos]
    rfl

end

lemma outline_whole (h : Outline.leavesAll os = significant ls) (hf : Outline.faultsAll os = []) :
    outlineAll (whole os ls) = os := by
  obtain ⟨hos, hrest⟩ := outline_fillAll os ls [] (by rw [h, append_nil]) hf
  have htrivia := outlineAll_trivia (significant_eq_nil.1 hrest)
  rw [whole, Braid.andThen, outlineAll_append, hos, htrivia, append_nil]

end Braid

def Diagnostic.lexical? (d : Diagnostic) : Option LexicalFault :=
  match d.fault with
  | .lexical f => some f
  | .grammatical _ => none

namespace Woven

variable {ts : List Token}

def lexicals (w : Woven) : List Diagnostic := w.diagnostics.filter (·.lexical?.isSome)

def flaws (ts : List Token) : List Diagnostic := ts.flatMap Token.diagnostics

lemma mem_flaws {d : Diagnostic} :
    d ∈ flaws ts ↔ ∃ t ∈ ts, ∃ f, t.fault = some f ∧ d = ⟨t.position, .lexical f⟩ := by
  simp only [flaws, Token.diagnostics, mem_flatMap, mem_map, Option.mem_toList, eq_comm]

lemma lexicals_tokens (ts : List Token) : (flaws ts).filter (·.lexical?.isSome) = flaws ts := by
  refine filter_eq_self.2 fun d hd => ?_
  obtain ⟨t, -, f, -, rfl⟩ := mem_flaws.1 hd
  rfl

lemma lexicals_andThen {w : Woven}
    {f : List Token → Woven} (hw : w.lexicals ++ flaws w.rest = flaws ts)
    (hf : (f w.rest).lexicals ++ flaws (f w.rest).rest = flaws w.rest) :
    (w.andThen f).lexicals ++ flaws (w.andThen f).rest = flaws ts := by
  rw [← hw, ← hf, ← append_assoc]
  congr 1
  exact filter_append ..

lemma lexicals_trivia (ts : List Token) :
    (trivia ts).lexicals ++ flaws (trivia ts).rest = flaws ts := by
  have hsplit : flaws ts = flaws (ts.takeWhile (·.kind.isTrivia) ++ (trivia ts).rest) :=
    congrArg flaws takeWhile_append_dropWhile.symm
  rw [hsplit, flaws, flaws, flatMap_append]
  exact congrArg (· ++ _) (lexicals_tokens _)

lemma lexicals_next (k : Kind) (ts : List Token) :
    (next k ts).lexicals ++ flaws (next k ts).rest = flaws ts := by
  cases ts with
  | nil => rfl
  | cons t ts =>
    have hone := lexicals_tokens [t]
    simp only [flaws, flatMap_cons, flatMap_nil, append_nil] at hone ⊢
    exact congrArg (· ++ _) hone

mutual

lemma lexicals_fill (stop : Position) : ∀ (o : Outline) (ts : List Token),
    (fill stop o ts).lexicals ++ flaws (fill stop o ts).rest = flaws ts
  | .leaf k, ts => by
    rw [fill]
    exact lexicals_andThen (lexicals_trivia ts) (lexicals_next k _)
  | .fault c, ts => by
    rw [fill]
    exact lexicals_andThen (lexicals_trivia ts) rfl
  | .branch k os, ts => by
    rw [fill]
    exact lexicals_andThen (lexicals_trivia ts) (lexicals_fillAll stop os _)

lemma lexicals_fillAll (stop : Position) : ∀ (os : List Outline) (ts : List Token),
    (fillAll stop os ts).lexicals ++ flaws (fillAll stop os ts).rest = flaws ts
  | [], ts => rfl
  | o :: os, ts => by
    rw [fillAll]
    exact lexicals_andThen (lexicals_fill stop o ts) (lexicals_fillAll stop os _)

end

end Woven

namespace Parse
open Outline LiveEdit.Tree

variable {t : Text}

lemma lexicals_ofText (t : Text) : (ofText t).diagnostics.filter (·.lexical?.isSome) =
    Woven.flaws (Lexed.ofText t).tokens := by
  have hfill := Woven.lexicals_fillAll (Lexed.ofText t).stop (ofKinds (Lexed.ofText t).significant)
    (Lexed.ofText t).tokens
  have hall : ∀ ts : List Token, (Woven.all ts).lexicals ++ Woven.flaws (Woven.all ts).rest =
      Woven.flaws ts := fun ts => (append_nil _).trans (Woven.lexicals_tokens ts)
  have hparse := Woven.lexicals_andThen hfill (hall _)
  exact (append_nil _).symm.trans hparse

lemma diagnostics_eq_nil : (ofText t).diagnostics = [] ↔
    (∀ l ∈ Lexeme.ofText t, l.fault = none) ∧ faultsAll (outlines (lex t)) = [] := by
  have hlexical : (ofText t).diagnostics.filter (·.lexical?.isSome) = [] ↔
      ∀ l ∈ Lexeme.ofText t, l.fault = none := by
    simp [lexicals_ofText, Woven.flaws, Token.diagnostics, ← Lexed.lexemes_ofText]
  rw [← hlexical, outlines_lex, ← complaints_ofText]
  constructor
  · intro h
    rw [h]
    exact ⟨rfl, rfl⟩
  · rintro ⟨hlex, hgram⟩
    rw [filter_eq_nil_iff] at hlex
    rw [filterMap_eq_nil_iff] at hgram
    apply eq_nil_iff_forall_not_mem.2
    intro d hd
    have hno := hlex d hd
    have hnot := hgram d hd
    unfold Diagnostic.lexical? at hno
    unfold Diagnostic.complaint? at hnot
    cases hfault : d.fault <;> simp [hfault] at hno hnot

lemma leavesAll_outlines (t : Text) : leavesAll (outlines (lex t)) = significant (lex t) := by
  rw [outlines_lex, Outline.leavesAll_ofKinds (Lexed.endOfFile_not_mem_significant t)]
  rw [significant, lex, map_map]
  rfl

lemma outline_ofText (h : faultsAll (outlines (lex t)) = []) :
    outlineAll (ofText t).tree.children = outlines (lex t) := by
  rw [tree_ofText]
  exact Braid.outline_whole (leavesAll_outlines t) h

lemma gives_ofText (h : faultsAll (outlines (lex t)) = []) :
    Rule.Gives Grammar.file (outlineAll (ofText t).tree.children) [] := by
  have hend := Lexed.endOfFile_not_mem_significant t
  unfold Rule.Gives
  rw [outline_ofText h, outlines_lex, leavesAll_ofKinds hend, append_nil]
  exact Prod.ext rfl (Grammar.file_rest hend)

/-- A tree with the tokens of a text is the one of the text if its nodes are firm and the grammar
reads its outline. -/
lemma tree_of_gives {ts : List Tree} (hlex : lex t = leavesAll ts)
    (hfirm : ∀ u ∈ ts, Firm u) (hg : Rule.Gives Grammar.file (outlineAll ts) []) :
    (ofText t).tree = .node .sourceFile ts ∧ faultsAll (outlines (lex t)) = [] := by
  have houtline : outlines (lex t) = outlineAll ts := by
    have hread := congrArg Prod.fst hg
    rw [append_nil, leaves_outlineAll, ← hlex] at hread
    exact hread
  constructor
  · rw [tree_ofText, houtline, hlex, Braid.whole_outlineAll hfirm]
  · rw [houtline, faults_outlineAll]

end Parse
end LiveEdit
