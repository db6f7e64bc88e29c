import LiveEdit.Proofs.Parse.Modifiers
import LiveEdit.Proofs.Wrapper.Growing

namespace LiveEdit
open List Option

variable {t t' x r r' y : Text} {a : Address} {k kw : Kind} {U R : List Lexeme}
  {L L' L₁ L₂ : List Rank}
  {Y : List Tree} {m : Rank}

namespace Rank

lemma kinds_append (L L' : List Rank) : kinds (L ++ L') = kinds L ++ kinds L' := map_append

lemma spell_lexemes (m : Rank) (L : List Rank) : Lexeme.spell (lexemes (m :: L)) =
    m.keyword.text ++ (Lexeme.spell m.behind ++ Lexeme.spell (lexemes L)) := by
  rw [lexemes_cons, Lexeme.spell, flatMap_cons, ← Lexeme.spell, Lexeme.spell_append]

lemma mem_words (h : kw.isModifierKeyword = true) : kw ∈ Lexeme.words := by
  cases kw <;> first | decide | cases h

def added (kw : Kind) : Rank := ⟨⟨kw, kw.spelling, none⟩, [⟨.whitespace, [' '], none⟩]⟩

lemma proper_adds (hL : ∀ m ∈ L₁ ++ L₂, m.Proper) (h : kw.isModifierKeyword = true) :
    ∀ m ∈ L₁ ++ added kw :: L₂, m.Proper := by
  obtain ⟨hfront, hback⟩ := forall_mem_append.1 hL
  have hnew : (added kw).Proper := ⟨h, by simp [added, Kind.isTrivia]⟩
  exact forall_mem_append.2 ⟨hfront, forall_mem_cons.2 ⟨hnew, hback⟩⟩

def swapped (m : Rank) (kw : Kind) : Rank := { m with keyword := ⟨kw, kw.spelling, none⟩ }

lemma proper_swaps (hL : ∀ m' ∈ L₁ ++ m :: L₂, m'.Proper) (h : kw.isModifierKeyword = true) :
    ∀ m' ∈ L₁ ++ m.swapped kw :: L₂, m'.Proper := by
  obtain ⟨hfront, hback⟩ := forall_mem_append.1 hL
  obtain ⟨hm, hback⟩ := forall_mem_cons.1 hback
  exact forall_mem_append.2 ⟨hfront, forall_mem_cons.2 ⟨⟨h, hm.behind⟩, hback⟩⟩

end Rank

namespace Parse
open Rank
open LiveEdit.Tree (Replaced sizeAll sizeAll_append)
open Lexeme (spell spell_append)

/-- Two texts that are read alike but for the modifiers of the node at an address, where `r` is in
the one and `r'` in the other. -/
structure Turns (t t' : Text) (a : Address) (k : Kind) (U : List Lexeme) (L L' : List Rank)
    (R : List Lexeme)
    (Y : List Tree) (x r r' y : Text) : Prop where
  old : Lexeme.ofText t = U ++ (lexemes L ++ R)
  new : Lexeme.ofText t' = U ++ (lexemes L' ++ R)
  before : spell (lexemes L) = x ++ (r ++ y)
  after : spell (lexemes L') = x ++ (r' ++ y)
  change : r ≠ [] ∨ r' ≠ []
  solid : 0 < sizeAll Y
  replaced :
    Replaced (.node k (trees L ++ Y)) (.node k (trees L' ++ Y)) a (spell U).size (ofText t).tree
    (ofText t').tree

namespace Turns

lemma symm (h : Turns t t' a k U L L' R Y x r r' y) : Turns t' t a k U L' L R Y x r' r y :=
  ⟨h.new, h.old, h.after, h.before, h.change.symm, h.solid, h.replaced.symm⟩

lemma text (h : Turns t t' a k U L L' R Y x r r' y) :
    t = spell U ++ x ++ (r ++ (y ++ spell R)) := by
  have htext := (Lexeme.scans_ofText t).text
  rw [h.old, append_nil, spell_append, spell_append, h.before] at htext
  simpa only [append_assoc] using htext

def edit (U : List Lexeme) (x r r' : Text) : Edit := ⟨(spell U ++ x).size, r.size, r'⟩

lemma result (h : Turns t t' a k U L L' R Y x r r' y) : (edit U x r r').result? t = some t' := by
  rw [h.text, h.symm.text]
  exact Edit.result?_append _ _ _ rfl rfl

lemma touches (h : Turns t t' a k U L L' R Y x r r' y) (focus : List Nat) : Carrier.Touches
      ⟨edit U x r r', focus⟩ (spell U).size (.node k (trees L ++ Y)) (.node k (trees L' ++ Y)) := by
  have hold := congrArg Text.size h.before
  have hnew := congrArg Text.size h.after
  have hsolid := h.solid
  simp only [Text.size_append] at hold hnew
  have hsome : (edit U x r r').isEmpty = false := by
    apply Bool.eq_false_iff.2
    intro hempty
    obtain ⟨hr, hr'⟩ := Bool.and_eq_true_iff.1 hempty
    rcases h.change with hne | hne
    · exact hne (Text.eq_nil_of_size (of_decide_eq_true hr))
    · exact hne (isEmpty_iff.1 hr')
  refine ⟨⟨?_, ?_, ?_, hsome⟩, ?_, rfl, rfl, rfl⟩ <;>
    simp only [edit, Tree.size, sizeAll_append, sizeAll_trees, Text.size_append] <;> omega

end Turns

namespace Modified

lemma turns (h : Modified t a k U L R Y)
    (hL' : ∀ m ∈ L', m.Proper) (hnew : Lexeme.ofText t' = U ++ (lexemes L' ++ R))
    (hbefore : spell (lexemes L) = x ++ (r ++ y)) (hafter : spell (lexemes L') = x ++ (r' ++ y))
    (hchange : r ≠ [] ∨ r' ≠ []) (hsoft : k.isClassMember = true → L ≠ [] → L' = [] →
      ∀ d ∈ (ofText t).diagnostics, d.position.offset = (spell U).size → d.isForWord = false) :
    Turns t t' a k U L L' R Y x r r' y := by
  refine ⟨h.lexed, hnew, hbefore, hafter, hchange, ?_, h.turn L' t' hL' hnew hsoft⟩
  obtain ⟨y, hy, -, -, hpos⟩ := h.first
  obtain ⟨ts, rfl⟩ := List.head?_eq_some_iff.1 hy
  exact hpos.trans_le (Nat.le_add_right ..)

lemma exists_word_behind (h : Modified t a k U (L₁ ++ L₂) R Y) :
    ∃ l ∈ (lexemes L₂ ++ R).head?, l.kind ∈ Lexeme.words := by
  cases L₂ with
  | nil => exact h.word
  | cons m L₂ =>
    exact ⟨m.keyword, rfl, mem_words (h.proper m (mem_append_right _ mem_cons_self)).keyword⟩

lemma text_ne_nil (h : Modified t a k U (L₁ ++ m :: L₂) R Y) : m.keyword.text ≠ [] := by
  refine (Lexeme.scans_ofText t).text_ne_nil m.keyword ?_
  rw [h.lexed, lexemes_append, lexemes_cons]
  simp

lemma exists_adds (h : Modified t a k U (L₁ ++ L₂) R Y) (hkw : kw.isModifierKeyword = true) :
    ∃ t', Turns t t' a k U (L₁ ++ L₂) (L₁ ++ added kw :: L₂) R Y
      (spell (lexemes L₁)) [] (kw.spelling ++ [' ']) (spell (lexemes L₂)) := by
  have hproper := proper_adds h.proper hkw
  have hlexed : Lexeme.ofText t = (U ++ lexemes L₁) ++ (lexemes L₂ ++ R) := by
    rw [h.lexed, lexemes_append]
    simp only [append_assoc]
  have hnew := Lexeme.ofText_added hlexed h.exists_word_behind hkw
  refine ⟨_, h.turns hproper (hnew.trans ?_) ?_ ?_ (.inr (by simp)) ?_⟩
  · simp only [lexemes_append, lexemes_cons, added, append_assoc, cons_append, nil_append]
  · rw [lexemes_append, spell_append, nil_append]
  · rw [lexemes_append, spell_append, spell_lexemes]
    simp [added, spell]
  · intro _ _ hnil
    exact absurd hnil (by simp)

lemma exists_swaps (h : Modified t a k U (L₁ ++ m :: L₂) R Y) (hkw : kw.isModifierKeyword = true) :
    ∃ t', Turns t t' a k U (L₁ ++ m :: L₂) (L₁ ++ m.swapped kw :: L₂) R Y (spell (lexemes L₁))
      m.keyword.text kw.spelling (spell m.behind ++ spell (lexemes L₂)) := by
  have hm := h.proper m (mem_append_right _ mem_cons_self)
  have hproper := proper_swaps h.proper hkw
  have hlexed :
      Lexeme.ofText t = (U ++ lexemes L₁) ++ m.keyword :: (m.behind ++ (lexemes L₂ ++ R)) := by
    rw [h.lexed, lexemes_append, lexemes_cons]
    simp only [append_assoc, cons_append]
  have hnew := Lexeme.ofText_swapped hlexed (mem_words hm.keyword) hkw
  refine ⟨_, h.turns hproper (hnew.trans ?_) ?_ ?_ (.inl h.text_ne_nil) ?_⟩
  · simp only [lexemes_append, lexemes_cons, swapped, append_assoc, cons_append]
  · rw [lexemes_append, spell_append, spell_lexemes]
  · rw [lexemes_append, spell_append, spell_lexemes]
    rfl
  · intro _ _ hnil
    exact absurd hnil (by simp)

/-- A modifier is taken out with the spaces behind it. Where it is the first one, nothing else may
be behind it before what comes next. -/
lemma exists_drops (h : Modified t a k U (L₁ ++ m :: L₂) R Y)
    (hspaces : L₁ = [] → ∀ c ∈ spell m.behind, Text.isSpace c = true)
    (hsoft : k.isClassMember = true → L₁ = [] → L₂ = [] → ∀ d ∈ (ofText t).diagnostics,
      d.position.offset = (spell U).size → d.isForWord = false) : ∃ t' L', (∀ m' ∈ L', m'.Proper) ∧
    kinds L' = kinds L₁ ++ kinds L₂ ∧ Turns t t' a k U (L₁ ++ m :: L₂) L' R Y
      (spell (lexemes L₁)) (m.keyword.text ++ (spell m.behind).takeWhile Text.isSpace) []
      ((spell m.behind).dropWhile Text.isSpace ++ spell (lexemes L₂)) := by
  obtain ⟨hfront, hback⟩ := forall_mem_append.1 h.proper
  obtain ⟨hm, hback⟩ := forall_mem_cons.1 hback
  have hword := mem_words hm.keyword
  have hnext : ∃ l ∈ (lexemes L₂ ++ R).head?, l.kind ∈ Lexeme.words := by
    have hsplit : L₁ ++ m :: L₂ = (L₁ ++ [m]) ++ L₂ := by simp
    exact exists_word_behind (hsplit ▸ h)
  have hbefore : spell (lexemes (L₁ ++ m :: L₂)) = spell (lexemes L₁) ++
      (m.keyword.text ++ (spell m.behind).takeWhile Text.isSpace ++
        ((spell m.behind).dropWhile Text.isSpace ++ spell (lexemes L₂))) := by
    rw [lexemes_append, spell_append, spell_lexemes]
    nth_rewrite 1 [← takeWhile_append_dropWhile (p := Text.isSpace) (l := spell m.behind)]
    simp only [append_assoc]
  have hchange : m.keyword.text ++ (spell m.behind).takeWhile Text.isSpace ≠ [] ∨
      ([] : Text) ≠ [] := .inl fun hnil => h.text_ne_nil (append_eq_nil_iff.1 hnil).1
  rcases eq_nil_or_concat' L₁ with rfl | ⟨L₀, l, rfl⟩
  · have hlexed : Lexeme.ofText t = U ++ m.keyword :: (m.behind ++ (lexemes L₂ ++ R)) := by
      rw [h.lexed, nil_append, lexemes_cons]
      simp only [append_assoc, cons_append]
    refine ⟨_, L₂, hback, rfl, h.turns hback (Lexeme.ofText_removed hlexed hword hnext) hbefore ?_
      hchange fun hmember _ hnil => hsoft hmember rfl hnil⟩
    rw [dropWhile_eq_nil_iff.2 (hspaces rfl)]
    rfl
  · obtain ⟨hfront, hl⟩ := forall_mem_append.1 hfront
    have hl := forall_mem_singleton.1 hl
    have hlexed : Lexeme.ofText t = (U ++ lexemes L₀) ++
        l.keyword :: (l.behind ++ m.keyword :: (m.behind ++ (lexemes L₂ ++ R))) := by
      rw [h.lexed]
      simp [lexemes]
    obtain ⟨z, hz, htext, hnew⟩ :=
      Lexeme.exists_ofText_closed hlexed (mem_words hl.keyword) hl.behind hword hm.behind hnext
    have hproper : ∀ m' ∈ L₀ ++ ⟨l.keyword, z⟩ :: L₂, m'.Proper :=
      forall_mem_append.2 ⟨hfront, forall_mem_cons.2 ⟨⟨hl.keyword, hz⟩, hback⟩⟩
    refine ⟨_, L₀ ++ ⟨l.keyword, z⟩ :: L₂, hproper, ?_,
      h.turns hproper (hnew.trans ?_) hbefore ?_ hchange fun _ _ hnil => absurd hnil (by simp)⟩
    · simp [kinds]
    · simp [lexemes]
    · simp only [lexemes_append, spell_append, spell_lexemes, htext]
      simp [lexemes, spell]

end Modified
end Parse
end LiveEdit
