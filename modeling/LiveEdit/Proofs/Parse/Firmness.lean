import LiveEdit.Proofs.Grammar.Forms
import LiveEdit.Proofs.Parse.Exactness
import LiveEdit.Proofs.Parse.Splicing

/-! Without faults, each node below the root begins and ends with a token of the grammar. -/

namespace LiveEdit
open List Option

namespace Tree

def Heavy (l : Kind × Text) : Prop := l.1.isTrivia = false ∧ l.2 ≠ []

def StartsHeavy (ls : List (Kind × Text)) : Prop := ∃ l ∈ ls.head?, Heavy l

def EndsHeavy (ls : List (Kind × Text)) : Prop := ∃ l ∈ ls.getLast?, Heavy l

inductive Firm : Tree → Prop where
  | token (k : Kind) (t : Text) : Firm (.token k t)
  | node {k : Kind} {ts : List Tree} (starts : StartsHeavy (leavesAll ts))
      (ends : EndsHeavy (leavesAll ts)) (parts : ∀ t ∈ ts, Firm t) : Firm (.node k ts)

variable {ls ms L Y R : List (Kind × Text)} {k : Kind}

lemma EndsHeavy.append_left (h : EndsHeavy ms) (ls : List (Kind × Text)) :
    EndsHeavy (ls ++ ms) := by
  obtain ⟨l, hl, hheavy⟩ := h
  refine ⟨l, ?_, hheavy⟩
  rw [getLast?_append, mem_def.1 hl]
  rfl

lemma EndsHeavy.ne_nil (h : EndsHeavy ls) : ls ≠ [] := by
  rintro rfl
  obtain ⟨l, hl, -⟩ := h
  cases hl

lemma spell_pos {l : Kind × Text} (hl : l ∈ ls) (hne : l.2 ≠ []) : 0 < (spell ls).size := by
  apply Nat.pos_of_ne_zero
  intro hzero
  exact hne (flatMap_eq_nil_iff.1 (Text.eq_nil_of_size hzero) l hl)

lemma StartsHeavy.front_pos (h : StartsHeavy (L ++ (Y ++ R)))
    (hY : ∀ l ∈ Y, l.1.isTrivia = true) (hne : Y ≠ []) : 0 < (spell L).size := by
  obtain ⟨l, hl, hheavy⟩ := h
  cases L with
  | nil =>
    obtain ⟨y, ys, rfl⟩ := exists_cons_of_ne_nil hne
    obtain rfl := some.inj hl
    exact absurd (hY y mem_cons_self) (Bool.eq_false_iff.1 hheavy.1)
  | cons m L =>
    obtain rfl := some.inj hl
    exact spell_pos mem_cons_self hheavy.2

lemma EndsHeavy.back_pos (h : EndsHeavy (L ++ (Y ++ R)))
    (hY : ∀ l ∈ Y, l.1.isTrivia = true) (hne : Y ≠ []) : 0 < (spell R).size := by
  obtain ⟨l, hl, hheavy⟩ := h
  have hlast : ∀ (ys : List (Kind × Text)) y, y ∈ ys.concat y := by
    intro ys y
    rw [concat_eq_append]
    exact mem_append_right ys (mem_singleton_self y)
  rcases eq_nil_or_concat R with rfl | ⟨R, m, rfl⟩
  · obtain ⟨ys, y, rfl⟩ := (eq_nil_or_concat Y).resolve_left hne
    rw [concat_eq_append, append_nil, ← append_assoc, getLast?_concat] at hl
    obtain rfl := some.inj hl
    exact absurd (hY y (hlast ys y)) (Bool.eq_false_iff.1 hheavy.1)
  · rw [concat_eq_append, ← append_assoc, ← append_assoc, getLast?_concat] at hl
    obtain rfl := some.inj hl
    exact spell_pos (hlast R m) hheavy.2

lemma leavesAll_leaves (ls : List (Kind × Text)) : leavesAll (ls.map ofLeaf) = ls := by
  induction ls with
  | nil => rfl
  | cons l ls ih => rw [map_cons, leavesAll, ih, ofLeaf, leaves, singleton_append]

lemma sizeAll_eq_spell (ts : List Tree) : sizeAll ts = (spell (leavesAll ts)).size := by
  rw [sizeAll_eq_text, textAll_eq_leaves, spell]

variable {X X' : List (Kind × Text)} {h : Nat} {ts ts' : List Tree}

lemma Spliced.leaves (hs : Spliced X X' h ts ts') : ∃ L R, leavesAll ts = L ++ (X ++ R) ∧
    leavesAll ts' = L ++ (X' ++ R) ∧ (spell L).size = h := by
  induction hs with
  | here A B =>
    refine ⟨leavesAll A, leavesAll B, ?_, ?_, (sizeAll_eq_spell A).symm⟩
    · rw [leavesAll_append, leavesAll_append, leavesAll_leaves]
    · rw [leavesAll_append, leavesAll_append, leavesAll_leaves]
  | inside A B k inner ih =>
    obtain ⟨L, R, hold, hnew, hsize⟩ := ih
    refine ⟨leavesAll A ++ L, R ++ leavesAll B, ?_, ?_, ?_⟩
    · simp only [leavesAll_append, leavesAll, Tree.leaves, hold, append_assoc]
    · simp only [leavesAll_append, leavesAll, Tree.leaves, hnew, append_assoc]
    · rw [spell_append, Text.size_append, ← sizeAll_eq_spell, hsize]

lemma Spliced.strictly (hs : Spliced X X' h ts ts')
    (hold : Firm (.node k ts)) (hnew : Firm (.node k ts')) (hX : ∀ l ∈ X, l.1.isTrivia = true)
    (hX' : ∀ l ∈ X', l.1.isTrivia = true) (hne : X ≠ [] ∨ X' ≠ []) :
    0 < h ∧ h + (spell X).size < sizeAll ts := by
  obtain ⟨L, R, hleaves, hleaves', rfl⟩ := hs.leaves
  have hsides : 0 < (spell L).size ∧ 0 < (spell R).size := by
    -- the tree that has some trivia there tells
    rcases hne with hne | hne
    · cases hold with
      | node starts ends _ =>
        rw [hleaves] at starts ends
        exact ⟨starts.front_pos hX hne, ends.back_pos hX hne⟩
    · cases hnew with
      | node starts ends _ =>
        rw [hleaves'] at starts ends
        exact ⟨starts.front_pos hX' hne, ends.back_pos hX' hne⟩
  rw [sizeAll_eq_spell, hleaves, spell_append, spell_append, Text.size_append, Text.size_append]
  omega

lemma Firm.size_pos (hf : Firm (.node k ts)) : 0 < sizeAll ts := by
  cases hf with
  | node starts _ _ =>
    obtain ⟨l, hl, hheavy⟩ := starts
    rw [sizeAll_eq_spell]
    exact spell_pos (mem_of_mem_head? hl) hheavy.2

end Tree

/-- A swap of tokens as the lexing of texts gives them, of which one side at least is not empty. -/
structure Exchange (X X' : List (Kind × Text)) : Prop where
  swap : Swap X X'
  old : ∀ l ∈ X, l.2 ≠ []
  new : ∀ l ∈ X', l.2 ≠ []
  some : X ≠ [] ∨ X' ≠ []

namespace Site
open LiveEdit.Tree

variable {X X' : List (Kind × Text)} {p : Nat} {old new c : Site}

lemma Around.astride (h : Around X X' p old new) (hx : Exchange X X') (hold : Firm old.tree)
    (hnew : Firm new.tree) : old.span.start < p + (spell X).size ∧ p < old.span.stop := by
  obtain ⟨hstart, hstop⟩ := Span.contains_iff.1 h.span.1
  cases h with
  | @mk n h k ts ts' place spliced =>
    change n ≤ p at hstart
    change p + (spell X).size ≤ n + sizeAll ts at hstop
    change n < p + (spell X).size ∧ p < n + sizeAll ts
    obtain ⟨hswap, htexts, -, hne⟩ := hx
    cases hswap with
    | trivia hX hX' =>
      have hstrict := spliced.strictly hold hnew hX hX' hne
      omega
    | @token kind t t' hk =>
      have hmem := mem_singleton_self (kind, t)
      have hpos := spell_pos hmem (htexts _ hmem)
      omega

lemma span_pos_of_firm (h : Firm old.tree) (hnode : old.tree.isNode = true) :
    old.span.start < old.span.stop := by
  obtain ⟨n, tree⟩ := old
  cases tree with
  | token k t => cases hnode
  | node k ts => exact Nat.lt_add_of_pos_right h.size_pos

lemma Twin.eq_of_covered (h : Twin X X' p old new) (hx : Exchange X X')
    (hold : Firm old.tree) (hnew : Firm new.tree) (hnode : old.tree.isNode = true)
    (hcover : (Span.sized p (spell X).size).contains old.span = true) :
    (∃ l ∈ X, l.1.isTrivia = false) ∧ old.span = .sized p (spell X).size ∧
    Around X X' p old new := by
  obtain ⟨hfront, hback⟩ := Span.contains_iff.1 hcover
  change p ≤ old.span.start at hfront
  change old.span.stop ≤ p + (spell X).size at hback
  have hpos := span_pos_of_firm hold hnode
  cases h with
  | before place eq => exact absurd hpos (Nat.not_lt.2 (place.trans hfront))
  | after shifted => exact absurd hpos (Nat.not_lt.2 (hback.trans shifted.place))
  | around around =>
    obtain ⟨hstart, hstop⟩ := Span.contains_iff.1 around.span.1
    refine ⟨?_, Span.eq_of_ends (hstart.antisymm hfront) (hback.antisymm hstop), around⟩
    obtain ⟨hswap, -, -, hne⟩ := hx
    cases hswap with
    | trivia hX hX' =>
      cases around with
      | @mk n h k ts ts' place spliced =>
        have hstrict := spliced.strictly hold hnew hX hX' hne
        have hedge : p ≤ n := hfront
        omega
    | token t t' hk => exact ⟨_, mem_singleton_self _, hk⟩

def FirmBelow (s : Site) : Prop := ∀ t ∈ s.tree.children, Firm t

lemma mem_children_of_row {n : Nat} {ts : List Tree} (h : c ∈ row n ts) : c.tree ∈ ts := by
  induction ts generalizing n with
  | nil => cases h
  | cons t ts ih =>
    rcases mem_cons.1 h with rfl | hrest
    · exact mem_cons_self
    · exact mem_cons_of_mem t (ih hrest)

lemma FirmBelow.node (h : old.FirmBelow) (hc : c ∈ old.nodes) : Firm c.tree :=
  h c.tree (mem_children_of_row (mem_filter.1 hc).1)

lemma firmBelow (h : Firm old.tree) : old.FirmBelow := by
  intro t ht
  obtain ⟨n, tree⟩ := old
  cases h with
  | token => cases ht
  | node _ _ parts => exact parts t ht

lemma FirmBelow.at? {a : Address} (h : old.FirmBelow) (ha : old.at? a = some c) (hne : a ≠ []) :
    Firm c.tree ∧ c.tree.isNode = true := by
  induction a generalizing old with
  | nil => exact absurd rfl hne
  | cons i a ih =>
    obtain ⟨e, he, hrest⟩ := bind_eq_some_iff.1 ha
    have hmem := mem_of_getElem? he
    have hfirm := h.node hmem
    cases a with
    | nil =>
      obtain rfl := some.inj hrest
      exact ⟨hfirm, (mem_filter.1 hmem).2⟩
    | cons j a => exact ih (firmBelow hfirm) hrest (cons_ne_nil j a)

end Site

namespace Woven
open Token LiveEdit.Tree

variable {w : Woven} {ks : List Kind}

structure Firms (w : Woven) : Prop where
  firm : ∀ t ∈ w.trees, Firm t
  ends : EndsHeavy (leavesAll w.trees)

lemma firm_trivia (ts : List Token) : ∀ t ∈ (trivia ts).trees, Firm t := by
  intro t ht
  obtain ⟨k, -, rfl⟩ := mem_map.1 ht
  exact .token _ _

lemma Firms.andThen {f : List Token → Woven} (hw : ∀ t ∈ w.trees, Firm t)
    (hf : (f w.rest).Firms) : (w.andThen f).Firms := by
  constructor
  · intro t ht
    rcases mem_append.1 ht with hfirst | hrest
    · exact hw t hfirst
    · exact hf.firm t hrest
  · have hends := hf.ends.append_left (leavesAll w.trees)
    rwa [← leavesAll_append] at hends

lemma exists_next {ts : List Token}
    {k : Kind} (h : significant ts = k :: ks) (htexts : ∀ t ∈ ts, t.text ≠ []) :
    ∃ t rest, (trivia ts).rest = t :: rest ∧ t.kind = k ∧ Heavy t.leaf := by
  obtain ⟨t, rest, hrest, hkind, -⟩ := dropWhile_of_significant h
  have hmem : t ∈ ts := (dropWhile_suffix _).subset (hrest ▸ mem_cons_self)
  have hsig : k ∈ significant ts := h ▸ mem_cons_self
  have htrivia : t.kind.isTrivia = false := by
    rw [hkind]
    simpa using (mem_filter.1 hsig).2
  exact ⟨t, rest, hrest, hkind, htrivia, htexts t hmem⟩

lemma Firms.wrap {t : Token} {rest : List Token} (kind : Kind) (h : w.Firms)
    (hcovers : w.Covers (t :: rest) ks) (ht : Heavy t.leaf) : (w.wrap kind).Firms := by
  have hstarts : StartsHeavy (leavesAll w.trees) := by
    obtain ⟨l, ls, hl⟩ := exists_cons_of_ne_nil h.ends.ne_nil
    have hleaves := hcovers.leaves
    rw [hl, map_cons, cons_append] at hleaves
    rw [hl]
    exact ⟨l, rfl, (cons.inj hleaves).1 ▸ ht⟩
  constructor
  · intro u hu
    obtain rfl := mem_singleton.1 hu
    exact .node hstarts h.ends h.firm
  · have hends := h.ends
    simpa only [Woven.wrap, leavesAll, Tree.leaves, append_nil] using hends

mutual

lemma firms_fill (stop : Position) :
    ∀ (o : Outline) (ts : List Token) (ks : List Kind), significant ts = o.leaves ++ ks → o.Solid →
    o.faults = [] → (∀ t ∈ ts, t.text ≠ []) → (fill stop o ts).Firms
  | .leaf k, ts, ks, h, hsolid, hfaults, htexts => by
    obtain ⟨t, rest, hnext, rfl, hheavy⟩ := exists_next h htexts
    rw [fill]
    apply Firms.andThen (firm_trivia ts)
    rw [hnext]
    refine ⟨?_, t.leaf, rfl, hheavy⟩
    intro u hu
    obtain rfl := mem_singleton.1 hu
    exact .token _ _
  | .fault c, ts, ks, h, hsolid, hfaults, htexts => by cases hfaults
  | .branch kind os, ts, ks, h, hsolid, hfaults, htexts => by
    obtain ⟨k, ls, hfirst⟩ := exists_cons_of_ne_nil (hsolid.leaves_ne_nil hfaults)
    have hks : significant (trivia ts).rest = Outline.leavesAll os ++ ks :=
      (significant_dropWhile ts).trans h
    have hmore : ∀ t ∈ (trivia ts).rest, t.text ≠ [] :=
      fun t ht => htexts t ((dropWhile_suffix _).subset ht)
    rw [hfirst, cons_append] at h
    obtain ⟨t, rest, hnext, -, hheavy⟩ := exists_next h htexts
    cases hsolid with
    | branch parts ne _ =>
      have hparts := firms_fillAll stop os (trivia ts).rest ks hks parts hfaults hmore ne
      have hcovers := covers_fillAll stop os (trivia ts).rest ks hks
      rw [fill]
      apply Firms.andThen (firm_trivia ts)
      rw [hnext] at hparts hcovers ⊢
      exact hparts.wrap kind hcovers hheavy

lemma firms_fillAll (stop : Position) : ∀ (os : List Outline) (ts : List Token) (ks : List Kind),
      significant ts = Outline.leavesAll os ++ ks → (∀ o ∈ os, o.Solid) →
    Outline.faultsAll os = [] → (∀ t ∈ ts, t.text ≠ []) → os ≠ [] → (fillAll stop os ts).Firms
  | [], ts, ks, h, hsolid, hfaults, htexts, hne => absurd rfl hne
  | o :: os, ts, ks, h, hsolid, hfaults, htexts, hne => by
    have ho : significant ts = o.leaves ++ (Outline.leavesAll os ++ ks) := by
      rw [h, Outline.leavesAll, append_assoc]
    obtain ⟨hfault, hmore⟩ := append_eq_nil_iff.1 hfaults
    have hfirst := firms_fill stop o ts _ ho (hsolid o mem_cons_self) hfault htexts
    have hcovers := covers_fill stop o ts _ ho
    rw [fillAll]
    cases os with
    | nil =>
      have htrees : ((fill stop o ts).andThen (fillAll stop [])).trees = (fill stop o ts).trees :=
        append_nil _
      exact ⟨htrees ▸ hfirst.firm, htrees ▸ hfirst.ends⟩
    | cons p os =>
      apply Firms.andThen hfirst.firm
      apply firms_fillAll stop (p :: os) _ ks hcovers.significant
      · exact fun q hq => hsolid q (mem_cons_of_mem o hq)
      · exact hmore
      · exact fun t ht => htexts t (hcovers.suffix.subset ht)
      · exact cons_ne_nil p os

end

end Woven
namespace Parse
open Outline LiveEdit.Tree

variable {t : Text}

lemma firm_ofText (h : faultsAll (outlines (lex t)) = []) :
    ∀ u ∈ (ofText t).tree.children, Firm u := by
  rw [outlines_lex] at h
  have hkinds := leavesAll_ofKinds (Lexed.endOfFile_not_mem_significant t)
  have hfirms := Woven.firms_fillAll (Lexed.ofText t).stop (ofKinds (Lexed.ofText t).significant)
    (Lexed.ofText t).tokens [] (by rw [hkinds, append_nil]; rfl) (solid_ofKinds _) h
    (Lexed.text_ne_nil t)
  intro u hu
  rcases mem_append.1 hu with hfilled | hrest
  · by_cases hne : ofKinds (Lexed.ofText t).significant = []
    · rw [hne] at hfilled
      exact absurd hfilled not_mem_nil
    · exact (hfirms hne).firm u hfilled
  · obtain ⟨k, -, rfl⟩ := mem_map.1 hrest
    exact .token _ _

lemma faultsAll_outlines (h : (ofText t).diagnostics = []) : faultsAll (outlines (lex t)) = [] := by
  rw [outlines_lex, ← complaints_ofText, h]
  rfl

lemma spell_lex (t : Text) : spell (lex t) = t := by
  rw [spell, lex, flatMap_map]
  exact Lexed.tokens_text t

structure SameShape (old new : Text) (U X X' V : List (Kind × Text)) : Prop where
  old : lex old = U ++ (X ++ V)
  new : lex new = U ++ (X' ++ V)
  swap : Swap X X'

namespace SameShape

variable {old new : Text} {U X X' V : List (Kind × Text)}

lemma text (h : SameShape old new U X X' V) : old = spell U ++ (spell X ++ spell V) := by
  rw [← spell_lex old, h.old, spell_append, spell_append]

lemma exchange (h : SameShape old new U X X' V) (hne : X ≠ [] ∨ X' ≠ []) : Exchange X X' := by
  have htexts : ∀ t, ∀ l ∈ lex t, l.2 ≠ [] := by
    intro t l hl
    obtain ⟨k, hk, rfl⟩ := mem_map.1 hl
    exact Lexed.text_ne_nil t k hk
  refine ⟨h.swap, fun l hl => htexts old l ?_, fun l hl => htexts new l ?_, hne⟩
  · rw [h.old]
    exact mem_append_right U (mem_append_left V hl)
  · rw [h.new]
    exact mem_append_right U (mem_append_left V hl)

lemma around (h : SameShape old new U X X' V) :
    Site.Around X X' (spell U).size ⟨0, (ofText old).tree⟩ ⟨0, (ofText new).tree⟩ := by
  rw [tree_ofText, tree_ofText, h.old, h.new, outlines_swap h.swap]
  exact .mk (Nat.zero_add _) (Braid.spliced_whole h.swap _ U V)

lemma firmBelow (h : SameShape old new U X X' V) (hclean : (ofText old).diagnostics = []) :
    Site.FirmBelow (ofText old).site ∧ Site.FirmBelow (ofText new).site := by
  have hfaults := faultsAll_outlines hclean
  have hsame : outlines (lex new) = outlines (lex old) := by
    rw [h.old, h.new, outlines_swap h.swap]
  exact ⟨firm_ofText hfaults, firm_ofText (hsame ▸ hfaults)⟩

end SameShape

end Parse
end LiveEdit
