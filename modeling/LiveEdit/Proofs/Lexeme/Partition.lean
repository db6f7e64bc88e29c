import LiveEdit.Lexed
import Mathlib.Tactic.Common

namespace LiveEdit
open List Option

namespace Lexeme
open Text

variable {c : Char} {k : Kind} {next : Option Char}

lemma commentBody_text (t : Text) : (commentBody t).taken ++ (commentBody t).rest = t := by
  fun_induction commentBody t with
  | case1 => rfl
  | case2 => rfl
  | case3 c t _ ih => simp only [Cut.push, cons_append, ih]

lemma stringBody_text (quote : Char) (t : Text) :
    (stringBody quote t).taken ++ (stringBody quote t).rest = t := by
  fun_induction stringBody quote t with
  | case1 => rfl
  | case2 => rfl
  | case3 c t ih => simp only [Cut.push, cons_append, ih]
  | case4 => rfl
  | case5 => rfl
  | case6 c t _ _ _ _ ih => simp only [Cut.push, cons_append, ih]

lemma fraction_text (t : Text) : (fraction t).taken ++ (fraction t).rest = t := by
  unfold fraction
  split
  · split
    · simp only [cons_append, takeWhile_append_dropWhile]
    · rfl
  · rfl

lemma numberTail_front (t : Text) : numberTail t <+: t := by
  unfold numberTail
  split
  · exact takeWhile_prefix _
  · exact nil_prefix

lemma number_text (t : Text) : (number t).taken ++ (number t).rest = t := by
  have htail := prefix_iff_eq_append.1 (numberTail_front (fraction (t.dropWhile isDigitPart)).rest)
  simp only [number, append_assoc, htail, fraction_text, takeWhile_append_dropWhile]

lemma leading_number (h : Leading.of c next = .number) :
    (c = '.' ∧ next.any Char.isDigit) ∨ c.isDigit := by
  grind [Leading.of]

lemma leading_punctuation (h : Leading.of c next = .punctuation k) : punctuation? c = some k := by
  grind [Leading.of]

lemma number_taken_ne_nil {t : Text} (h : Leading.of c t.head? = .number) :
    (number (c :: t)).taken ≠ [] := by
  obtain ⟨rfl, hnext⟩ | hdigit := leading_number h
  · obtain ⟨d, hd, hdigit⟩ := (any_eq_true _ _).1 hnext
    obtain ⟨t, rfl⟩ := List.head?_eq_some_iff.1 hd
    have hdot : isDigitPart '.' = false := by decide
    simp [number, fraction, hdot, hdigit]
  · have hpart : isDigitPart c = true := by simp [isDigitPart, hdigit]
    simp [number, hpart]

lemma scan_text (c : Char) (t : Text) : (scan c t).1.text ++ (scan c t).2 = c :: t := by
  unfold scan
  split
  · simp only [cons_append, takeWhile_append_dropWhile]
  · simp only [cons_append, append_assoc, commentBody_text, take_append_drop]
  · rfl
  · simp only [cons_append, stringBody_text]
  · simp only [cons_append, takeWhile_append_dropWhile]
  · exact number_text (c :: t)
  · simp only [cons_append, takeWhile_append_dropWhile]
  · rfl

lemma scan_text_ne_nil (c : Char) (t : Text) : (scan c t).1.text ≠ [] := by
  unfold scan
  split <;> try exact cons_ne_nil _ _
  exact number_taken_ne_nil ‹_›

lemma scanMany_text (n : Nat) (t : Text) (h : t.length ≤ n) :
    (scanMany n t).flatMap Lexeme.text = t := by
  induction n generalizing t with
  | zero =>
    obtain rfl : t = [] := eq_nil_of_length_eq_zero (Nat.le_zero.1 h)
    rfl
  | succ n ih =>
    cases t with
    | nil => rfl
    | cons c t =>
      have htext := scan_text c t
      have hpos : 0 < (scan c t).1.text.length := length_pos_iff.2 (scan_text_ne_nil c t)
      have hlen := congrArg length htext
      rw [length_append] at hlen
      simp only [scanMany, flatMap_cons]
      rw [ih (scan c t).2 (by omega), htext]

lemma ofText_text (t : Text) : (ofText t).flatMap Lexeme.text = t :=
  scanMany_text t.length t (Nat.le_refl _)

lemma punctuation_ne_endOfFile (h : punctuation? c = some k) : k ≠ .endOfFile := by
  rintro rfl
  unfold punctuation? at h
  split at h <;> exact nomatch h

lemma keyword_ne_endOfFile {word : Text} (h : Kind.keyword? word = some k) : k ≠ .endOfFile := by
  have hall : ∀ entry ∈ Kind.keywords, entry.2 ≠ .endOfFile := by decide
  obtain ⟨l₁, l₂, hl, -⟩ := lookup_eq_some_iff.1 h
  exact hall (word, k) (by rw [hl]; simp)

lemma scan_kind_ne (c : Char) (t : Text) : (scan c t).1.kind ≠ .endOfFile := by
  unfold scan
  split
  case h_3 k hk => exact punctuation_ne_endOfFile (leading_punctuation hk)
  case h_5 =>
    cases hword : Kind.keyword? (c :: t.takeWhile isWordPart) with
    | none => simp [hword]
    | some k => simpa [hword] using keyword_ne_endOfFile hword
  all_goals exact Kind.noConfusion

lemma kind_ne_of_mem_scanMany (n : Nat) (t : Text) : ∀ l ∈ scanMany n t, l.kind ≠ .endOfFile := by
  fun_induction scanMany n t with
  | case1 => simp
  | case2 => simp
  | case3 n c t _ ih =>
    intro l hl
    obtain rfl | hl := mem_cons.1 hl
    · exact scan_kind_ne c t
    · exact ih l hl

lemma text_ne_nil_of_mem_scanMany (n : Nat) (t : Text) : ∀ l ∈ scanMany n t, l.text ≠ [] := by
  fun_induction scanMany n t with
  | case1 => simp
  | case2 => simp
  | case3 n c t _ ih =>
    intro l hl
    rcases mem_cons.1 hl with hfirst | hrest
    · rw [hfirst]
      exact scan_text_ne_nil c t
    · exact ih l hrest

end Lexeme

lemma Token.map_place (p : Position) (ls : List Lexeme) :
    (Token.place p ls).map Token.toLexeme = ls := by
  induction ls generalizing p with
  | nil => rfl
  | cons l ls ih => simp only [Token.place, map_cons, ih]

namespace Lexed

lemma lexemes_ofText (t : Text) : (ofText t).tokens.map Token.toLexeme = Lexeme.ofText t :=
  Token.map_place _ _

lemma tokens_text (t : Text) : (ofText t).tokens.flatMap (fun k => k.text) = t := by
  have h := Lexeme.ofText_text t
  rwa [← lexemes_ofText, flatMap_map] at h

lemma text_ne_nil (t : Text) : ∀ k ∈ (ofText t).tokens, k.text ≠ [] := by
  intro k hk
  have hmem : k.toLexeme ∈ Lexeme.ofText t := lexemes_ofText t ▸ mem_map_of_mem hk
  exact Lexeme.text_ne_nil_of_mem_scanMany _ _ _ hmem

lemma endOfFile_not_mem_significant (t : Text) : .endOfFile ∉ (ofText t).significant := by
  intro h
  obtain ⟨k, hk, hkind⟩ := mem_map.1 (mem_filter.1 h).1
  have hmem : k.toLexeme ∈ Lexeme.ofText t := lexemes_ofText t ▸ mem_map_of_mem hk
  exact Lexeme.kind_ne_of_mem_scanMany _ _ _ hmem hkind

end Lexed

namespace Lexed
open List Option

variable {α : Type} {i : Nat} {a : α} {entries more : List (Nat × α)}

def Increasing (entries : List (Nat × α)) : Prop := entries.Pairwise fun e f => e.1 < f.1

lemma Increasing.halves {half j : Nat} {b : α} (h : Increasing entries)
    (hdrop : entries.drop half = (j, b) :: more) :
    (∀ e ∈ entries.take half, e.1 < j) ∧ ∀ e ∈ entries.drop half, j ≤ e.1 := by
  have hsplit := h
  rw [Increasing, ← take_append_drop half entries, hdrop, pairwise_append] at hsplit
  obtain ⟨-, hsecond, hacross⟩ := hsplit
  refine ⟨fun e he => hacross e he (j, b) mem_cons_self, fun e he => ?_⟩
  rw [hdrop] at he
  rcases mem_cons.1 he with rfl | he
  · exact Nat.le_refl j
  · exact Nat.le_of_lt ((pairwise_cons.1 hsecond).1 e he)

lemma eq_singleton_of_half {e : Nat × α} (hhalf : entries.length / 2 = 0)
    (hdrop : entries.drop (entries.length / 2) = e :: more) : entries = [e] := by
  rw [hhalf, drop_zero] at hdrop
  subst hdrop
  have hmore : more.length = 0 := by
    rw [length_cons] at hhalf
    omega
  rw [eq_nil_of_length_eq_zero hmore]

lemma search?_eq_some_iff (h : Increasing entries) :
    search? i entries = some a ↔ (i, a) ∈ entries := by
  fun_induction search? i entries with
  | case1 entries half hdrop =>
    have hlength := drop_eq_nil_iff.1 hdrop
    obtain rfl : entries = [] := eq_nil_of_length_eq_zero (by omega)
    simp
  | case2 entries half b more hhalf hdrop =>
    rw [eq_singleton_of_half hhalf hdrop, mem_singleton, Prod.mk.injEq, Option.some.injEq]
    exact ⟨fun hba => ⟨rfl, hba.symm⟩, fun hab => hab.2.symm⟩
  | case3 entries half j b more hdrop hhalf hj =>
    rw [eq_singleton_of_half hhalf hdrop, mem_singleton, Prod.mk.injEq]
    exact ⟨fun hnone => absurd hnone.symm (some_ne_none a), fun hij => absurd hij.1.symm hj⟩
  | case4 entries half j b more hdrop hhalf hlt ih =>
    obtain ⟨-, hsecond⟩ := h.halves hdrop
    have hnot : (i, a) ∉ entries.drop half := fun hmem => Nat.not_le_of_lt hlt (hsecond _ hmem)
    conv_rhs => rw [← take_append_drop half entries, mem_append, or_iff_left hnot]
    exact ih (h.sublist (take_sublist half entries))
  | case5 entries half j b more hdrop hhalf hle ih =>
    obtain ⟨hfirst, -⟩ := h.halves hdrop
    have hnot : (i, a) ∉ entries.take half := fun hmem => hle (hfirst _ hmem)
    conv_rhs => rw [← take_append_drop half entries, mem_append, or_iff_right hnot]
    exact ih (h.sublist (drop_sublist half entries))

lemma increasing_faults (x : Lexed) : Increasing x.faults := by
  have hnumbers : x.tokens.zipIdx.Pairwise fun t u => t.2 < u.2 := by
    rw [← pairwise_map (f := Prod.snd), zipIdx_map_snd]
    exact pairwise_lt_range'
  refine pairwise_filterMap.2 (hnumbers.imp fun hlt e he f hf => ?_)
  obtain ⟨g, -, rfl⟩ := map_eq_some_iff.1 he
  obtain ⟨g', -, rfl⟩ := map_eq_some_iff.1 hf
  exact hlt

lemma mem_faults {x : Lexed} {f : LexicalFault} :
    (i, f) ∈ x.faults ↔ x.tokens[i]?.bind (·.fault) = some f := by
  rw [bind_eq_some_iff]
  constructor
  · intro hmem
    obtain ⟨⟨k, j⟩, hk, hf⟩ := mem_filterMap.1 hmem
    obtain ⟨g, hg, hpair⟩ := map_eq_some_iff.1 hf
    obtain ⟨rfl, rfl⟩ := Prod.mk.inj hpair
    exact ⟨k, mem_zipIdx_iff_getElem?.1 hk, hg⟩
  · rintro ⟨k, hk, hf⟩
    exact mem_filterMap.2 ⟨(k, i), mem_zipIdx_iff_getElem?.2 hk, by simp [hf]⟩

lemma fault?_eq (x : Lexed) (i : Nat) : x.fault? i = x.tokens[i]?.bind (·.fault) := by
  ext f
  rw [fault?, search?_eq_some_iff x.increasing_faults, mem_faults]
end Lexed
end LiveEdit
