import LiveEdit.Proofs.Lexeme.Words
import Mathlib.Data.List.Sort

/-! The tokens of joined texts, unless the last lexeme of the first goes on in the second. -/

namespace LiveEdit
open List Option

namespace Lexeme
open List Option
open Text

variable {t r r' x z p q : Text} {us vs : List Lexeme} {l : Lexeme} {c : Char}

def tokens (us : List Lexeme) : List (Kind × Text) :=
  (us.filter (!·.kind.isTrivia)).map fun l => (l.kind, l.text)

lemma tokens_append (us vs : List Lexeme) : tokens (us ++ vs) = tokens us ++ tokens vs := by
  rw [tokens, filter_append, map_append]
  rfl

lemma tokens_trivia (h : ∀ l ∈ us, l.kind.isTrivia = true) : tokens us = [] := by
  rw [tokens, filter_eq_nil_iff.2 fun l hl => by simp [h l hl]]
  rfl

lemma tokens_singleton (h : l.kind.isTrivia = true) : tokens [l] = [] :=
  tokens_trivia (forall_mem_singleton.2 h)

def goesOn (l : Lexeme) (c : Char) : Bool :=
  match l.kind with
  | .number => isWordPart c || c = '.'
  | .dot => c.isDigit
  | .slash => c = '/' || c = '*'
  | k => decide (k ∈ words) && isWordPart c

lemma goesOn_word (h : l.kind ∈ words) (c : Char) : l.goesOn c = isWordPart c := by
  unfold goesOn
  split
  · next hk => exact absurd (hk ▸ h) (by decide)
  · next hk => exact absurd (hk ▸ h) (by decide)
  · next hk => exact absurd (hk ▸ h) (by decide)
  · rw [decide_eq_true h, Bool.true_and]

lemma goesOn_trivia (h : l.kind.isTrivia = true) (c : Char) : l.goesOn c = false := by
  unfold goesOn
  split
  · next hk => rw [hk] at h; cases h
  · next hk => rw [hk] at h; cases h
  · next hk => rw [hk] at h; cases h
  · have hword : l.kind ∉ words :=
      fun hword => Bool.false_ne_true ((not_trivia_of_word hword).symm.trans h)
    rw [decide_eq_false hword, Bool.false_and]

lemma goesOn_blank (l : Lexeme) (hc : isBlank c = true) : l.goesOn c = false := by
  obtain ⟨hpart, hdot⟩ := not_wordPart_of_blank hc
  unfold goesOn
  split
  · rw [hpart, decide_eq_false hdot, Bool.or_self]
  · apply Bool.eq_false_iff.2
    intro hdigit
    have hpart' := isWordPart_of_digitPart (c := c) (by rw [isDigitPart, hdigit, Bool.true_or])
    rw [hpart] at hpart'
    cases hpart'
  · have hslash : c ≠ '/' := by
      rintro rfl
      exact absurd hc (by decide)
    have hstar : c ≠ '*' := by
      rintro rfl
      exact absurd hc (by decide)
    rw [decide_eq_false hslash, decide_eq_false hstar, Bool.or_self]
  · rw [hpart, Bool.and_false]

structure Apart (l : Lexeme) (r : Text) : Prop where
  word : ∀ a ∈ r.head?, l.goesOn a = false
  comment : l.kind = .lineComment → ∀ a ∈ r.head?, isNewline a = true

lemma Apart.ends (hr : l.Apart r') (h : scan c t = (l, r)) (hf : l.fault = none)
    (hblank : l.kind ≠ .whitespace) : Ends c t r' := by
  obtain ⟨word, comment⟩ := hr
  unfold scan at h
  unfold Ends
  cases hlead : Leading.of c t.head? <;> rw [hlead] at h <;> obtain ⟨rfl, -⟩ :=
    Prod.mk.inj h <;> dsimp only at hf ⊢
  case lineComment => exact comment rfl
  case blockComment | quote => exact .inl (closed_of_fault hf)
  case punctuation k =>
    have hmark := leading_punctuation hlead
    rcases punctuation_cases hmark with hk | ⟨rfl, rfl⟩ | ⟨rfl, rfl⟩
    · exact leading_mark hmark hk _
    · have hnext : r'.head?.any Char.isDigit = false := by
        cases hhead : r'.head? with
        | none => rfl
        | some a => exact word a hhead
      simp [Leading.of, hnext, punctuation?]
    · have hnext : r'.head? ≠ some '/' ∧ r'.head? ≠ some '*' :=
        ⟨fun ha => absurd (word _ ha) (by decide), fun ha => absurd (word _ ha) (by decide)⟩
      simp [Leading.of, hnext, punctuation?]
  case word => exact fun a ha => (goesOn_word (word_mem _) a).symm.trans (word a ha)
  case number =>
    refine Stops.numberEnds (fun a ha => ?_) _
    have hnot : (isWordPart a || decide (a = '.')) = false := word a ha
    simpa using hnot
  case blank => exact absurd rfl hblank

lemma scan_of_apart (h : scan c (x ++ r) = (l, r)) (hf : l.fault = none)
    (hblank : l.kind ≠ .whitespace) (hr : l.Apart r') : scan c (x ++ r') = (l, r') :=
  scan_of_ends h (hr.ends h hf hblank)

lemma exists_dropBlank (t : Text) : ∃ us, (∀ l ∈ us, l.kind.isTrivia = true ∧ l.fault = none) ∧
    ofText t = us ++ ofText (t.dropWhile isBlank) := by
  cases t with
  | nil => exact ⟨[], forall_mem_nil _, rfl⟩
  | cons c t =>
    cases hc : isBlank c with
    | false => exact ⟨[], forall_mem_nil _, by rw [dropWhile_cons_of_neg (by simp [hc])]; rfl⟩
    | true =>
      have hone : Scans (c :: t) [(scan c t).1] (scan c t).2 := .next (.done _)
      rw [scan_blank hc] at hone
      refine ⟨[⟨.whitespace, c :: t.takeWhile isBlank, none⟩],
        forall_mem_singleton.2 ⟨rfl, rfl⟩, ?_⟩
      rw [(hone.append (scans_ofText _)).ofText, dropWhile_cons_of_pos hc]

lemma tokens_dropBlank (t : Text) : tokens (ofText (t.dropWhile isBlank)) = tokens (ofText t) := by
  obtain ⟨us, hus, htext⟩ := exists_dropBlank t
  rw [htext, tokens_append, tokens_trivia fun l hl => (hus l hl).1, nil_append]

lemma tokens_blank (hz : z.Blank) (t : Text) : tokens (ofText (z ++ t)) = tokens (ofText t) := by
  rw [← tokens_dropBlank (z ++ t), dropWhile_append_of_pos hz, tokens_dropBlank]

lemma tokens_join (h : Scans t us r)
    (hf : ∀ l ∈ us, l.fault = none) (hq : ∀ l ∈ us.getLast?, l.Apart q) :
    tokens (ofText (spell us ++ q)) = tokens us ++ tokens (ofText q) := by
  rcases eq_nil_or_concat' us with rfl | ⟨vs, l, rfl⟩
  · rfl
  by_cases hblank : l.kind = .whitespace
  · -- the white space at the end becomes one with what comes next
    have hl : (vs ++ [l]).getLast? = some l := getLast?_concat ..
    have hspaces := h.blank hl (hf l (by simp)) hblank
    obtain ⟨hvs, hone⟩ := h.split
    obtain ⟨c, x, htext, -⟩ := scans_one.1 hone
    have hagain : Scans (spell vs ++ (l.text ++ q)) vs (l.text ++ q) := by
      refine hvs.rescan fun u hu d y hscan => scan_congr hscan ?_
      rw [spell_singleton]
      refine sameAhead_of_front (by rw [htext]; exact cons_ne_nil c x) fun hdot => ?_
      exact absurd (hspaces '.' (hdot ▸ mem_singleton_self _)) (by decide)
    rw [spell_append, spell_singleton, append_assoc, (hagain.append (scans_ofText _)).ofText,
      tokens_append, tokens_append, tokens_blank hspaces, tokens_singleton (by rw [hblank]; rfl),
      append_nil]
  · have hagain : Scans (spell (vs ++ [l]) ++ q) (vs ++ [l]) q := by
      refine h.rescan fun u hu d y hscan => ?_
      obtain rfl : l = u := some.inj ((getLast?_concat ..).symm.trans hu)
      exact scan_of_apart hscan (hf l (by simp)) hblank (hq l hu)
    rw [(hagain.append (scans_ofText q)).ofText, tokens_append]

def isIdle (t : Text) : Bool := (ofText t).all fun l => l.kind.isTrivia && l.fault.isNone

lemma tokens_idle (h : isIdle (t.takeWhile (!isNewline ·)) = true) :
    tokens (ofText (t.dropWhile (!isNewline ·))) = tokens (ofText t) := by
  have hall : ∀ l ∈ ofText (t.takeWhile (!isNewline ·)), l.kind.isTrivia = true ∧
      l.fault = none := by
    intro l hl
    simpa using all_eq_true.1 h l hl
  have hscans := scans_ofText (t.takeWhile (!isNewline ·))
  have hjoin : tokens
      (ofText (spell (ofText (t.takeWhile (!isNewline ·))) ++ t.dropWhile (!isNewline ·))) = _ :=
    tokens_join hscans (fun l hl => (hall l hl).2) fun l hl =>
      ⟨fun a _ => goesOn_trivia (hall l (mem_of_getLast? hl)).1 a, fun _ a ha => by
        simpa using head?_dropWhile (!isNewline ·) t a ha⟩
  have htext := hscans.text
  rw [append_nil] at htext
  rw [← htext, takeWhile_append_dropWhile, tokens_trivia fun l hl => (hall l hl).1, nil_append]
    at hjoin
  exact hjoin.symm

lemma scan_line (h : scan c (x ++ r) = (l, r)) (hk : l.kind = .lineComment) :
    c = '/' ∧ (∃ y, x = '/' :: y) ∧ ∀ a ∈ x, isNewline a = false := by
  have hl := text_of_scan h
  have hlead : Leading.of c (x ++ r).head? = .lineComment := (leading_of_scan h).trans (hk ▸ rfl)
  obtain ⟨rfl, hnext⟩ := leading_lineComment hlead
  unfold scan at h
  rw [hlead] at h
  obtain ⟨rfl, -⟩ := Prod.mk.inj h
  have htaken : (x ++ r).takeWhile (!isNewline ·) = x := (cons.inj hl).2
  have hx : ∀ a ∈ x, isNewline a = false := by
    intro a ha
    rw [← htaken] at ha
    simpa using mem_takeWhile_imp ha
  cases x with
  | nil =>
    obtain ⟨u, rfl⟩ := List.head?_eq_some_iff.1 hnext
    cases htaken
  | cons d y => exact ⟨rfl, ⟨y, by rw [show d = '/' from some.inj hnext]⟩, hx⟩

lemma tokens_join_comment (h : Scans t (us ++ [l]) r) (hl : l.kind = .lineComment)
    (hq : isIdle (q.takeWhile (!isNewline ·)) = true) :
    tokens (ofText (spell (us ++ [l]) ++ q)) = tokens (us ++ [l]) ++ tokens (ofText q) := by
  obtain ⟨hus, hone⟩ := h.split
  obtain ⟨c, x, htext, -, hscan⟩ := scans_one.1 hone
  obtain ⟨rfl, ⟨y, rfl⟩, hx⟩ := scan_line hscan hl
  have hfront : Scans (spell us ++ (l.text ++ q)) us (l.text ++ q) := by
    refine hus.rescan fun u hu d y hscan => scan_congr hscan ?_
    rw [spell_singleton, htext]
    exact sameAhead_of_front (cons_ne_nil _ _) fun hdot => absurd hdot (by simp)
  have hline : Scans (l.text ++ q) [⟨.lineComment, l.text ++ q.takeWhile (!isNewline ·), none⟩]
      (q.dropWhile (!isNewline ·)) := by
    have hkeep : ∀ a ∈ '/' :: y, (!isNewline a) = true := fun a ha => by rw [hx a ha]; rfl
    refine scans_one.2 ⟨'/', '/' :: y ++ q.takeWhile (!isNewline ·), by rw [htext]; rfl, ?_, ?_⟩
    · rw [append_assoc, takeWhile_append_dropWhile, htext]
      rfl
    · rw [append_assoc, takeWhile_append_dropWhile, htext]
      unfold scan
      rw [show Leading.of '/' ('/' :: y ++ q).head? = .lineComment from rfl]
      dsimp only
      rw [takeWhile_append_of_pos hkeep, dropWhile_append_of_pos hkeep]
      rfl
  rw [spell_append, spell_singleton, append_assoc,
    (hfront.append (hline.append (scans_ofText _))).ofText, tokens_append, tokens_append,
    tokens_append, tokens_idle hq, tokens_singleton (l := l) (by rw [hl]; rfl), append_nil]
  rfl

/-- The last lexeme of a text ends before another one, or is a comment that takes up nothing but
trivia. -/
def isApart (x y : Text) : Bool :=
  (ofText x).getLast?.all fun l =>
    y.head?.all (!l.goesOn ·) && (l.kind != .lineComment || isIdle (y.takeWhile (!isNewline ·)))

lemma tokens_joined (hf : ∀ l ∈ ofText x, l.fault = none) (h : isApart x q = true) :
    tokens (ofText (x ++ q)) = tokens (ofText x) ++ tokens (ofText q) := by
  have hscans := scans_ofText x
  have htext := hscans.text
  rw [append_nil] at htext
  rcases eq_nil_or_concat' (ofText x) with hnil | ⟨us, l, hlast⟩
  · rw [hnil] at htext ⊢
    rw [htext]
    rfl
  rw [isApart, hlast, getLast?_concat, all_some, Bool.and_eq_true, Bool.or_eq_true] at h
  obtain ⟨hword, hcomment⟩ := h
  by_cases hk : l.kind = .lineComment
  · have hidle := hcomment.resolve_left (by simp [hk])
    have hjoin := tokens_join_comment (hlast ▸ hscans) hk hidle
    rwa [← hlast, ← htext] at hjoin
  · have hjoin := tokens_join (q := q) hscans hf fun u hu => by
      rw [hlast, getLast?_concat] at hu
      obtain rfl := some.inj hu
      refine ⟨fun a ha => ?_, fun hline => absurd hline hk⟩
      rw [mem_def.1 ha] at hword
      simpa using hword
    rwa [← htext] at hjoin
end Lexeme

namespace Lexeme
open Text

variable {t r x : Text} {us : List Lexeme} {l : Lexeme} {a c q : Char}

lemma ofText_spell (h : Scans t us r) : ofText (spell us) = us := by
  have hend := h.rescan fun _ _ _ _ hscan => scan_alone hscan
  rw [append_nil] at hend
  exact hend.ofText

lemma ofText_part (t : Text) (low high : Nat) :
    ofText (spell (((ofText t).take high).drop low)) = ((ofText t).take high).drop low := by
  have hfront := scans_take t high
  rw [← take_append_drop low ((ofText t).take high)] at hfront
  exact ofText_spell hfront.split.2

end Lexeme

namespace Lexed
open Lexeme

variable {x : Lexed} {t : Text} {low high i : Nat}

lemma Increasing.eq_of_mem_iff {α : Type} {es fs : List (Nat × α)} (hes : Increasing es)
    (hfs : Increasing fs) (h : ∀ e, e ∈ es ↔ e ∈ fs) : es = fs := by
  have hanti : Std.Antisymm fun e f : Nat × α => e.1 < f.1 :=
    ⟨fun e f hlt hgt => absurd hgt (Nat.lt_asymm hlt)⟩
  have hirrefl : Std.Irrefl fun e f : Nat × α => e.1 < f.1 := ⟨fun e => Nat.lt_irrefl e.1⟩
  exact List.Pairwise.eq_of_mem_iff hes hfs h

def faultsIn (x : Lexed) (low high : Nat) : List (Nat × LexicalFault) :=
  (x.faults.filter fun f => low ≤ f.1 && f.1 < high).map fun f => (f.1 - low, f.2)

lemma increasing_faultsIn (x : Lexed) (low high : Nat) : Increasing (x.faultsIn low high) := by
  refine pairwise_map.2 (((x.increasing_faults).filter _).imp_of_mem fun he hf hlt => ?_)
  have hlow := (mem_filter.1 he).2
  simp only [Bool.and_eq_true, decide_eq_true_eq] at hlow
  dsimp only
  omega

lemma mem_faultsIn {f : LexicalFault} :
    (i, f) ∈ x.faultsIn low high ↔ low + i < high ∧ (low + i, f) ∈ x.faults := by
  constructor
  · intro h
    obtain ⟨⟨j, g⟩, hg, hpair⟩ := mem_map.1 h
    obtain ⟨hmem, hin⟩ := mem_filter.1 hg
    simp only [Bool.and_eq_true, decide_eq_true_eq] at hin
    obtain ⟨rfl, rfl⟩ := Prod.mk.inj hpair
    have hj : low + (j - low) = j := by omega
    rw [hj]
    exact ⟨hin.2, hmem⟩
  · rintro ⟨hlt, hmem⟩
    refine mem_map.2 ⟨(low + i, f), mem_filter.2 ⟨hmem, ?_⟩, by simp⟩
    simp [hlt]

lemma fault_of_lexeme (ks : List Token) (i : Nat) :
    ks[i]?.bind (·.fault) = (ks.map Token.toLexeme)[i]?.bind (·.fault) := by
  rw [List.getElem?_map, bind_map]
  rfl

/-- A part of a text, from one token up to another, has by itself the tokens that it has within the
text: the same kinds, texts and faults, with the faults under numbers that count from the part's
first token. -/
theorem ofText_textIn (hlow : low < high) (hhigh : high ≤ (ofText t).size) :
    ∃ x, (ofText t).textIn? low high = some x ∧
    (ofText x).tokens.map Token.toLexeme =
      (((ofText t).tokens.take high).drop low).map Token.toLexeme ∧
    (ofText x).faults = (ofText t).faultsIn low high := by
  have htext : (((ofText t).tokens.take high).drop low).flatMap (·.text) =
      spell (((Lexeme.ofText t).take high).drop low) := by
    rw [spell, ← lexemes_ofText, ← map_take, ← map_drop, flatMap_map]
  have hlexemes :
      (ofText (spell (((Lexeme.ofText t).take high).drop low))).tokens.map Token.toLexeme =
      (((ofText t).tokens.take high).drop low).map Token.toLexeme := by
    rw [lexemes_ofText, ofText_part, map_drop, map_take, lexemes_ofText]
  refine ⟨_, by rw [textIn?, if_pos ⟨hlow, hhigh⟩, htext], hlexemes, ?_⟩
  refine (increasing_faults _).eq_of_mem_iff (increasing_faultsIn _ _ _) ?_
  rintro ⟨i, f⟩
  rw [mem_faultsIn, mem_faults, mem_faults, fault_of_lexeme, hlexemes, ← fault_of_lexeme,
    List.getElem?_drop, List.getElem?_take]
  split
  · next hlt => rw [and_iff_right hlt]
  · next hle => simp [hle]

theorem ofText_textIn_faulty : 1 < 4 ∧ 4 ≤ (ofText "x'b\n3y#".toList).size ∧
    (ofText "x'b\n3y#".toList).faultsIn 1 4 = [(0, .unterminatedString), (2, .invalidNumber)] ∧
    ∃ x, (ofText "x'b\n3y#".toList).textIn? 1 4 = some x ∧
      (ofText x).tokens.map Token.toLexeme =
        (((ofText "x'b\n3y#".toList).tokens.take 4).drop 1).map Token.toLexeme ∧
      (ofText x).faults = (ofText "x'b\n3y#".toList).faultsIn 1 4 := by
  have hsize : 4 ≤ (ofText "x'b\n3y#".toList).size := by decide +kernel
  exact ⟨by decide, hsize, by decide +kernel, ofText_textIn (by decide) hsize⟩

end Lexed
end LiveEdit
