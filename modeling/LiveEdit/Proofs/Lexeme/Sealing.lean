import LiveEdit.Proofs.Lexeme.Locality
import LiveEdit.Proofs.Text.Trimming

/-! Behind a sealed lexeme a text can be changed, and all lexemes up to there stay. -/

namespace LiveEdit
open List Option

namespace Lexeme
open Text

variable {t m r r' x y z : Text} {us vs : List Lexeme} {l : Lexeme} {c q : Char} {p : Char → Bool}
  {next : Option Char} {k : Kind}

lemma isWordPart_of_digitPart (h : isDigitPart c = true) : isWordPart c = true := by
  simp only [isDigitPart, Bool.or_eq_true] at h
  simp only [isWordPart, Bool.or_eq_true]
  rcases h with h | h
  · refine .inl (.inl (.inr ?_))
    have hlt : c.toNat < 128 := by
      simp only [Char.isDigit, Bool.and_eq_true, decide_eq_true_eq, UInt32.le_iff_toNat_le] at h
      exact Nat.lt_of_le_of_lt h.2 (by decide)
    rw [isNumeric, if_pos hlt]
    exact h
  · exact .inl (.inr h)

def Stops (r : Text) : Prop := ∀ a ∈ r.head?, isWordPart a = false ∧ a ≠ '.'

lemma Stops.not_digitPart (h : Stops r) : ∀ a ∈ r.head?, isDigitPart a = false :=
  fun a ha => Bool.eq_false_iff.2 fun hd =>
    Bool.false_ne_true ((h a ha).1.symm.trans (isWordPart_of_digitPart hd))

lemma Stops.numberEnds (h : Stops r) (t : Text) : NumberEnds t r where
  digits _ a ha := ⟨h.not_digitPart a ha, Bool.eq_false_iff.2 fun hstart =>
    Bool.false_ne_true ((h a ha).1.symm.trans (isWordPart_of_start hstart))⟩
  letters _ a ha := (h a ha).1
  fraction _ hstarts := absurd rfl (h '.' (of_decide_eq_true (Bool.and_eq_true_iff.1 hstarts).1)).2

def marks : List Kind :=
  [.leftCurly, .rightCurly, .leftParenthesis, .rightParenthesis, .semicolon, .colon,
    .comma, .equals,
    .plus, .minus, .star]

def words : List Kind := .identifier :: Kind.keywords.map Prod.snd

inductive Seals : Lexeme → Text → Prop where
  | mark {k : Kind} {t r : Text} {f : Option LexicalFault} (kind : k ∈ marks) : Seals ⟨k, t, f⟩ r
  | string {t r : Text} : Seals ⟨.string, t, none⟩ r
  | word {k : Kind} {t r : Text} {f : Option LexicalFault} (kind : k ∈ words)
      (stop : ∀ c ∈ r.head?, isWordPart c = false) : Seals ⟨k, t, f⟩ r
  | number {t r : Text} (stop : Stops r) : Seals ⟨.number, t, none⟩ r
  | blockComment {t r : Text} : Seals ⟨.blockComment, t, none⟩ r
  | lineComment {t r : Text} {f : Option LexicalFault} (stop : ∀ c ∈ r.head?, isNewline c = true) :
      Seals ⟨.lineComment, t, f⟩ r
  | whitespace {t r : Text} {f : Option LexicalFault} (stop : ∀ c ∈ r.head?, isBlank c = false) :
      Seals ⟨.whitespace, t, f⟩ r

lemma seals_of_mark (h : l.kind ∈ marks) (r : Text) : l.Seals r := by
  obtain ⟨k, x, f⟩ := l
  exact .mark h

def special : List Kind :=
  [.string, .number, .blockComment, .lineComment, .whitespace, .unknown, .dot, .slash]

lemma not_special_of_mark (h : k ∈ marks) : k ∉ special := by
  revert k
  decide

lemma not_special_of_word (h : k ∈ words) : k ∉ special ∧ k ∉ marks := by
  revert k
  decide

lemma word_mem (w : Text) : (Kind.keyword? w).getD .identifier ∈ words := by
  cases hw : Kind.keyword? w with
  | none => decide
  | some k =>
    obtain ⟨l₁, l₂, hl, -⟩ := lookup_eq_some_iff.1 hw
    refine mem_cons_of_mem _ (mem_map.2 ⟨(w, k), ?_, rfl⟩)
    rw [hl]
    simp

lemma punctuation_cases (h : punctuation? c = some k) :
    k ∈ marks ∨ (c = '.' ∧ k = .dot) ∨ (c = '/' ∧ k = .slash) := by
  unfold punctuation? at h
  split at h <;> cases h <;> decide

def Leading.ofKind : Kind → Leading
  | .string => .quote
  | .number => .number
  | .lineComment => .lineComment
  | .blockComment => .blockComment
  | .whitespace => .blank
  | .unknown => .other
  | k => if k ∈ words then .word else .punctuation k

lemma ofKind_word (h : k ∈ words) : Leading.ofKind k = .word := by
  revert k
  decide

lemma ofKind_mark (h : k ∈ marks) : Leading.ofKind k = .punctuation k := by
  revert k
  decide

lemma leading_of_scan (h : scan c t = (l, r)) : Leading.of c t.head? = .ofKind l.kind := by
  unfold scan at h
  cases hlead : Leading.of c t.head? <;> rw [hlead] at h <;> obtain ⟨rfl, -⟩ :=
    Prod.mk.inj h <;> dsimp only
  case punctuation k =>
    rcases punctuation_cases (leading_punctuation hlead) with hk | ⟨-, rfl⟩ | ⟨-, rfl⟩
    · exact (ofKind_mark hk).symm
    · rfl
    · rfl
  case word => exact (ofKind_word (word_mem _)).symm
  all_goals rfl

lemma Seals.of_special (h : l.Seals r) (hk : l.kind ∈ special) :
    (l.kind = .string ∧ l.fault = none) ∨
    (l.kind = .number ∧ l.fault = none ∧ Stops r) ∨ (l.kind = .blockComment ∧ l.fault = none) ∨
    (l.kind = .lineComment ∧ ∀ c ∈ r.head?, isNewline c = true) ∨
    (l.kind = .whitespace ∧ ∀ c ∈ r.head?, isBlank c = false) := by
  cases h with
  | mark kind => exact absurd hk (not_special_of_mark kind)
  | word kind => exact absurd hk (not_special_of_word kind).1
  | string => exact .inl ⟨rfl, rfl⟩
  | number stop => exact .inr (.inl ⟨rfl, rfl, stop⟩)
  | blockComment => exact .inr (.inr (.inl ⟨rfl, rfl⟩))
  | lineComment stop => exact .inr (.inr (.inr (.inl ⟨rfl, stop⟩)))
  | whitespace stop => exact .inr (.inr (.inr (.inr ⟨rfl, stop⟩)))

lemma Seals.fault (h : l.Seals r)
    (hk : l.kind = .string ∨ l.kind = .number ∨ l.kind = .blockComment) : l.fault = none := by
  have hcases := h.of_special (by rcases hk with hk | hk | hk <;> rw [hk] <;> decide)
  rcases hk with hk | hk | hk <;> rw [hk] at hcases
  · simpa using hcases
  · exact (show l.fault = none ∧ Stops r by simpa using hcases).1
  · simpa using hcases

lemma Seals.newline (h : l.Seals r) (hk : l.kind = .lineComment) :
    ∀ c ∈ r.head?, isNewline c = true := by
  have hcases := h.of_special (by rw [hk]; decide)
  rw [hk] at hcases
  simpa using hcases

lemma Seals.nonblank (h : l.Seals r) (hk : l.kind = .whitespace) :
    ∀ c ∈ r.head?, isBlank c = false := by
  have hcases := h.of_special (by rw [hk]; decide)
  rw [hk] at hcases
  simpa using hcases

lemma Seals.stops (h : l.Seals r) (hk : l.kind = .number) : Stops r := by
  have hcases := h.of_special (by rw [hk]; decide)
  rw [hk] at hcases
  exact (show l.fault = none ∧ Stops r by simpa using hcases).2

lemma Seals.not_wordPart (h : l.Seals r) (hk : l.kind ∈ words) :
    ∀ c ∈ r.head?, isWordPart c = false := by
  have hnot : l.kind ∈ special → False := (not_special_of_word hk).1
  cases h with
  | word _ stop => exact stop
  | mark kind => exact absurd kind (not_special_of_word hk).2
  | string | number | blockComment | lineComment | whitespace =>
    exact (hnot (by simp [special])).elim

lemma Seals.ne_dot (h : l.Seals r) : l.kind ≠ .dot ∧ l.kind ≠ .slash ∧ l.kind ≠ .unknown := by
  have hnot : ∀ j ∈ [Kind.dot, .slash, .unknown], l.kind ≠ j := by
    rintro j hj rfl
    have hcases := h.of_special (by revert hj; generalize l.kind = i; revert i; decide)
    rcases hcases with ⟨hk, -⟩ | ⟨hk, -⟩ | ⟨hk, -⟩ | ⟨hk, -⟩ | ⟨hk, -⟩ <;>
      exact absurd (hk ▸ hj) (by decide)
  exact ⟨hnot _ (by decide), hnot _ (by decide), hnot _ (by decide)⟩

lemma leading_mark (h : punctuation? c = some k) (hk : k ∈ marks) (next : Option Char) :
    Leading.of c next = .punctuation k := by
  have hc : c ≠ '/' ∧ c ≠ '.' := by
    constructor <;> rintro rfl <;> cases h <;> exact absurd hk (by decide)
  simp [Leading.of, hc.1, hc.2, h]

lemma not_trivia_of_word (h : k ∈ words) : k.isTrivia = false := by
  revert k
  decide

lemma Seals.ends (hs : l.Seals r') (h : scan c t = (l, r)) : Ends c t r' := by
  unfold scan at h
  unfold Ends
  cases hlead : Leading.of c t.head? <;> rw [hlead] at h <;> obtain ⟨rfl, -⟩ :=
    Prod.mk.inj h <;> dsimp only
  case lineComment => exact hs.newline rfl
  case blockComment => exact .inl (closed_of_fault (hs.fault (.inr (.inr rfl))))
  case punctuation k =>
    have hmark := leading_punctuation hlead
    rcases punctuation_cases hmark with hk | ⟨-, hk⟩ | ⟨-, hk⟩
    · exact leading_mark hmark hk _
    · exact absurd hk hs.ne_dot.1
    · exact absurd hk hs.ne_dot.2.1
  case quote => exact .inl (closed_of_fault (hs.fault (.inl rfl)))
  case word => exact hs.not_wordPart (word_mem _)
  case number => exact (hs.stops rfl).numberEnds _
  case blank => exact hs.nonblank rfl

lemma scan_of_seals (h : scan c (x ++ r) = (l, r)) (hs : l.Seals r') : scan c (x ++ r') = (l, r') :=
  scan_of_ends h (hs.ends h)

lemma spell_append (us vs : List Lexeme) : spell (us ++ vs) = spell us ++ spell vs :=
  flatMap_append

lemma spell_singleton (l : Lexeme) : spell [l] = l.text := append_nil l.text

lemma not_digit_of_dot (h : scan '.' r = (l, r)) : r.head?.any Char.isDigit = false := by
  apply Bool.eq_false_iff.2
  intro hnext
  obtain ⟨d, hd, hdigit⟩ := (any_eq_true _ _).1 hnext
  obtain ⟨u, rfl⟩ := List.head?_eq_some_iff.1 hd
  have hlead : Leading.of '.' (d :: u).head? = .number := by simp [Leading.of, hdigit]
  have hl := text_of_scan (x := []) h
  unfold scan at h
  rw [hlead] at h
  obtain ⟨rfl, -⟩ := Prod.mk.inj h
  have hlong := number_dot hdigit u
  dsimp only at hl
  rw [hl] at hlong
  exact absurd hlong (by decide)

lemma Scans.rescan (h : Scans t us r)
    (hlast : ∀ l ∈ us.getLast?, ∀ c x, scan c (x ++ r) = (l, r) → scan c (x ++ r') = (l, r')) :
    Scans (spell us ++ r') us r' := by
  induction us generalizing t with
  | nil => exact .done r'
  | cons u us ih =>
    have hsplit : Scans t ([u] ++ us) r := h
    obtain ⟨hone, hmore⟩ := hsplit.split
    obtain ⟨c, x, hu, -, hscan⟩ := scans_one.1 hone
    have htext : spell (u :: us) ++ r' = c :: (x ++ (spell us ++ r')) := by
      rw [spell, flatMap_cons, hu, append_assoc]
      rfl
    have hrest : Scans (spell us ++ r') us r' := by
      cases us with
      | nil => exact .done r'
      | cons v us => exact ih hmore hlast
    have hfirst : scan c (x ++ (spell us ++ r')) = (u, spell us ++ r') := by
      cases us with
      | nil => exact hlast u rfl c x hscan
      | cons v us =>
        refine scan_congr hscan (sameAhead_of_front ?_ fun hdot => ?_)
        · intro hnil
          exact hmore.text_ne_nil v mem_cons_self (append_eq_nil_iff.1 hnil).1
        · -- a dot alone is one lexeme, and that is scanned both times
          have hne := hmore.text_ne_nil
          obtain ⟨hv, hvs⟩ : v.text = ['.'] ∧ us = [] := by
            rw [spell, flatMap_cons, append_eq_singleton_iff] at hdot
            rcases hdot with ⟨hnil, -⟩ | ⟨hv, hnil⟩
            · exact absurd hnil (hne v mem_cons_self)
            · refine ⟨hv, eq_nil_iff_forall_not_mem.2 fun w hw => ?_⟩
              exact hne w (mem_cons_of_mem v hw) (flatMap_eq_nil_iff.1 hnil w hw)
          subst hvs
          obtain ⟨d, y, hd, -, hdscan⟩ := scans_one.1 hmore
          rw [hv] at hd
          obtain ⟨rfl, rfl⟩ := cons.inj hd
          have hagain : scan '.' r' = (v, r') := hlast v rfl '.' [] hdscan
          rw [not_digit_of_dot hagain]
          exact (not_digit_of_dot (r := r) hdscan).symm
    have hscans : Scans (c :: (x ++ (spell us ++ r'))) [u] (spell us ++ r') :=
      scans_one.2 ⟨c, x, hu, rfl, hfirst⟩
    rw [htext]
    exact hscans.append hrest

lemma Scans.reseal (h : Scans t us r) (hs : ∀ l ∈ us.getLast?, l.Seals r') :
    Scans (spell us ++ r') us r' :=
  h.rescan fun l hl _ _ hscan => scan_of_seals hscan (hs l hl)

def blanks : List Nat :=
  [9, 10, 11, 12, 13, 32, 133, 160, 5760, 8192, 8193, 8194, 8195, 8196, 8197, 8198, 8199,
    8200, 8201,
    8202, 8232, 8233, 8239, 8287, 12288]

lemma mem_blanks (h : isBlank c = true) : c.toNat ∈ blanks := by
  unfold isBlank at h
  split at h
  · rcases Bool.or_eq_true_iff.1 h with hspace | hcontrol
    · obtain rfl : c = ' ' := of_decide_eq_true hspace
      decide
    · simp only [Bool.and_eq_true, decide_eq_true_eq] at hcontrol
      simp only [blanks, mem_cons, not_mem_nil]
      omega
  · simp only [inside, blankMarks, Bool.and_eq_true, decide_eq_true_eq, Bool.not_eq_true',
      Bool.and_eq_false_iff, decide_eq_false_iff_not, Bool.not_eq_false', Bool.false_eq_true,
      or_false] at h
    simp only [blanks, mem_cons, not_mem_nil]
    omega

lemma leading_of_blank (h : isBlank c = true) (next : Option Char) :
    Leading.of c next = .blank := by
  have hall : ∀ n ∈ blanks, Leading.of (Char.ofNat n) none = .blank := by decide +kernel
  have hc := hall _ (mem_blanks h)
  rw [Char.ofNat_toNat] at hc
  obtain ⟨hslash, hdot, -⟩ := leading_blank hc
  rw [leading_congr hslash hdot, hc]

lemma not_wordPart_of_blank (h : isBlank c = true) : isWordPart c = false ∧ c ≠ '.' := by
  have hall : ∀ n ∈ blanks, isWordPart (Char.ofNat n) = false ∧
      Char.ofNat n ≠ '.' := by decide +kernel
  have hc := hall _ (mem_blanks h)
  rwa [Char.ofNat_toNat] at hc

lemma not_blank_of_scan (h : (scan c t).1.kind.isTrivia = false) : isBlank c = false := by
  apply Bool.eq_false_iff.2
  intro hblank
  unfold scan at h
  rw [leading_of_blank hblank] at h
  cases h

lemma scans_blank (hx : x.Blank) (hne : x ≠ [])
    (hr : ∀ a ∈ r.head?, isBlank a = false) : Scans (x ++ r) [⟨.whitespace, x, none⟩] r := by
  obtain ⟨c, y, rfl⟩ := exists_cons_of_ne_nil hne
  have hrun := run_append (fun a ha => hx a (mem_cons_of_mem c ha)) hr
  refine scans_one.2 ⟨c, y, rfl, rfl, ?_⟩
  unfold scan
  rw [leading_of_blank (hx c mem_cons_self)]
  dsimp only
  rw [hrun.1, hrun.2]

lemma scan_trivia (h : scan c t = (l, r)) (hk : l.kind.isTrivia = true) :
    (c = '/' ∧ l = ⟨.lineComment, c :: t.takeWhile (!isNewline ·), none⟩ ∧
      r = t.dropWhile (!isNewline ·)) ∨ l.kind = .blockComment ∨ (isBlank c = true ∧
      l = ⟨.whitespace, c :: t.takeWhile isBlank, none⟩ ∧ r = t.dropWhile isBlank) := by
  have hlead := leading_of_scan h
  unfold scan at h
  simp only [Kind.isTrivia, Bool.or_eq_true, decide_eq_true_eq] at hk
  rcases hk with (hk | hk) | hk
  · replace hlead : Leading.of c t.head? = .blank := hlead.trans (by rw [hk]; rfl)
    rw [hlead] at h
    obtain ⟨rfl, rfl⟩ := Prod.mk.inj h
    exact .inr (.inr ⟨(leading_blank hlead).2.2, rfl, rfl⟩)
  · replace hlead : Leading.of c t.head? = .lineComment := hlead.trans (by rw [hk]; rfl)
    rw [hlead] at h
    obtain ⟨rfl, rfl⟩ := Prod.mk.inj h
    exact .inl ⟨(leading_lineComment hlead).1, rfl, rfl⟩
  · exact .inr (.inl hk)

lemma seals_of_trivia (h : scan c t = (l, r)) (hk : l.kind.isTrivia = true) (hf : l.fault = none) :
    l.Seals r := by
  rcases scan_trivia h hk with ⟨-, rfl, rfl⟩ | hblock | ⟨-, rfl, rfl⟩
  · apply Seals.lineComment
    intro a ha
    simpa using head?_dropWhile _ _ a ha
  · obtain ⟨k, x, f⟩ := l
    obtain rfl : k = .blockComment := hblock
    obtain rfl : f = none := hf
    exact .blockComment
  · exact .whitespace (head?_dropWhile _ _)

lemma Seals.of_nonblank (h : l.Seals (c :: r)) (hk : l.kind.isTrivia = true)
    (hc : isBlank c = false) (hr : ∀ a ∈ r'.head?, isBlank a = false) : l.Seals r' := by
  cases h with
  | mark kind => exact .mark kind
  | word kind => exact absurd hk (Bool.eq_false_iff.1 (not_trivia_of_word kind))
  | string | number => cases hk
  | blockComment => exact .blockComment
  | lineComment stop =>
    have hnewline : isNewline c = true := stop c rfl
    simp only [isNewline, Bool.or_eq_true, decide_eq_true_eq] at hnewline
    rcases hnewline with rfl | rfl <;> cases hc
  | whitespace => exact .whitespace hr

lemma Seals.of_head (h : l.Seals r) (hr : r'.head? = r.head?) : l.Seals r' := by
  cases h with
  | mark kind => exact .mark kind
  | string => exact .string
  | word kind stop => exact .word kind (hr ▸ stop)
  | number stop => exact .number fun a ha => stop a (hr ▸ ha)
  | blockComment => exact .blockComment
  | lineComment stop => exact .lineComment (hr ▸ stop)
  | whitespace stop => exact .whitespace (hr ▸ stop)

lemma Scans.exists_scan (h : Scans t us r) (hl : us.getLast? = some l) :
    ∃ c x, l.text = c :: x ∧ scan c (x ++ r) = (l, r) := by
  obtain ⟨vs, rfl⟩ := getLast?_eq_some_iff.1 hl
  obtain ⟨c, x, htext, -, hscan⟩ := scans_one.1 h.split.2
  exact ⟨c, x, htext, hscan⟩

lemma Scans.not_newline (h : Scans t us r) (hl : us.getLast? = some l) (hf : l.fault = none)
    (hk : l.kind = .lineComment) : ∀ a ∈ l.text, isNewline a = false := by
  obtain ⟨c, x, -, hscan⟩ := h.exists_scan hl
  rcases scan_trivia hscan (by rw [hk]; rfl) with ⟨rfl, rfl, -⟩ | hblock | ⟨-, rfl, -⟩
  · intro a ha
    rcases mem_cons.1 ha with rfl | ha
    · rfl
    · simpa using all_eq_true.1 all_takeWhile a ha
  · rw [hk] at hblock
    cases hblock
  · cases hk

lemma Scans.blank (h : Scans t us r) (hl : us.getLast? = some l) (hf : l.fault = none)
    (hk : l.kind = .whitespace) : l.text.Blank := by
  obtain ⟨c, x, -, hscan⟩ := h.exists_scan hl
  rcases scan_trivia hscan (by rw [hk]; rfl) with ⟨-, rfl, -⟩ | hblock | ⟨hc, rfl, -⟩
  · cases hk
  · rw [hk] at hblock
    cases hblock
  · intro a ha
    rcases mem_cons.1 ha with rfl | ha
    · exact hc
    · exact all_eq_true.1 all_takeWhile a ha

end Lexeme

namespace Lexeme
open List Option
open Text

variable {t r x : Text} {us : List Lexeme} {l : Lexeme} {a c q : Char}

lemma getLast?_push (c : Char) {s : Cut} (h : s.taken.getLast? = some a) :
    (s.push c).taken.getLast? = some a := by
  rw [Cut.push, getLast?_cons, h]
  rfl

lemma getLast?_commentBody (h : (commentBody t).closed = true) :
    (commentBody t).taken.getLast? = some '/' := by
  fun_induction commentBody t with
  | case1 => cases h
  | case2 => rfl
  | case3 c t _ ih => exact getLast?_push c (ih h)

lemma getLast?_stringBody (h : (stringBody q t).closed = true) :
    (stringBody q t).taken.getLast? = some q := by
  fun_induction stringBody q t with
  | case1 => cases h
  | case2 => cases h
  | case3 c t ih => exact getLast?_push '\\' (getLast?_push c (ih h))
  | case4 => rfl
  | case5 => cases h
  | case6 c t _ _ _ _ ih => exact getLast?_push c (ih h)

lemma isDigitPart_last_number (h : (number t).closed = true)
    (ha : (number t).taken.getLast? = some a) : isDigitPart a = true := by
  have hdigits : ∀ u : Text, a ∈ u.takeWhile isDigitPart → isDigitPart a = true :=
    fun u hu => all_eq_true.1 all_takeWhile a hu
  have htail : numberTail (fraction (t.dropWhile isDigitPart)).rest = [] := isEmpty_iff.1 h
  simp only [number, htail, append_nil] at ha
  rcases fraction_cases (t.dropWhile isDigitPart) with ⟨-, hnil⟩ | ⟨d, u, -, hd, htaken⟩
  · rw [hnil, append_nil] at ha
    exact hdigits _ (mem_of_getLast? ha)
  · have hpart : isDigitPart d = true := by simp [isDigitPart, hd]
    have hne : (d :: u).takeWhile isDigitPart ≠ [] := by simp [hpart]
    have hlast := getLast?_eq_some_getLast hne
    rw [htaken, getLast?_append, getLast?_cons, hlast] at ha
    obtain rfl : ((d :: u).takeWhile isDigitPart).getLast hne = a := some.inj ha
    exact hdigits _ (getLast_mem hne)

def isWordy (k : Kind) : Prop := k ∈ words ∨ k = .number

lemma not_wordy_of_punctuation {k : Kind} (h : punctuation? c = some k) : ¬ isWordy k := by
  unfold punctuation? at h
  split at h <;> cases h <;> simp [isWordy, words, Kind.keywords]

lemma scan_wordy (h : scan c t = (l, r)) (hf : l.fault = none) (hk : isWordy l.kind) :
    (∀ a ∈ l.text.getLast?, isWordPart a = true) ∧ ∀ a ∈ r.head?, isWordStart a = false := by
  unfold scan at h
  cases hlead : Leading.of c t.head? <;> rw [hlead] at h <;> dsimp only at h <;>
    obtain ⟨rfl, rfl⟩ := Prod.mk.inj h <;> dsimp only at hk hf ⊢
  case lineComment | blockComment | quote | blank | other =>
    exact absurd hk (by simp [isWordy, words, Kind.keywords])
  case punctuation k => exact absurd hk (not_wordy_of_punctuation (leading_punctuation hlead))
  case word =>
    constructor
    · intro a ha
      rcases mem_cons.1 (mem_of_getLast? ha) with rfl | ha
      · exact isWordPart_of_start (leading_word hlead).2.2
      · exact all_eq_true.1 all_takeWhile a ha
    · intro a ha
      have hpart := head?_dropWhile isWordPart t a ha
      exact Bool.eq_false_iff.2 fun hstart => by simp [isWordPart_of_start hstart] at hpart
  case number =>
    have hclosed := closed_of_fault hf
    refine ⟨fun a ha => isWordPart_of_digitPart (isDigitPart_last_number hclosed ha),
      fun a ha => ?_⟩
    exact ((numberEnds_rest (c :: t)).digits hclosed a ha).2

lemma isWordStart_of_scan (h : scan c t = (l, r)) (hk : l.kind ∈ words) : isWordStart c = true :=
  (leading_word ((leading_of_scan h).trans (ofKind_word hk))).2.2

lemma not_blank_last (h : scan c t = (l, r)) (hf : l.fault = none) (hw : l.kind ≠ .whitespace)
    (hline : l.kind ≠ .lineComment) : ∀ a ∈ l.text.getLast?, isBlank a = false := by
  by_cases hk : isWordy l.kind
  · intro a ha
    apply Bool.eq_false_iff.2
    intro hblank
    have hpart := (scan_wordy h hf hk).1 a ha
    rw [(not_wordPart_of_blank hblank).1] at hpart
    cases hpart
  unfold scan at h
  cases hlead : Leading.of c t.head? <;> rw [hlead] at h <;> dsimp only at h <;>
    obtain ⟨rfl, -⟩ := Prod.mk.inj h <;> dsimp only at hk hf hw hline ⊢
  case lineComment => exact absurd rfl hline
  case blank => exact absurd rfl hw
  case number => exact absurd (.inr rfl) hk
  case word => exact absurd (.inl (word_mem _)) hk
  case other => cases hf
  case blockComment =>
    have hlast := getLast?_commentBody (closed_of_fault hf)
    intro a ha
    rw [getLast?_append, hlast] at ha
    obtain rfl := some.inj ha
    decide
  case quote =>
    intro a ha
    rw [getLast?_cons, getLast?_stringBody (closed_of_fault hf)] at ha
    obtain rfl : c = a := some.inj ha
    apply Bool.eq_false_iff.2
    intro hblank
    rw [leading_of_blank hblank] at hlead
    cases hlead
  case punctuation k =>
    intro a ha
    obtain rfl : c = a := some.inj ha
    apply Bool.eq_false_iff.2
    intro hblank
    rw [leading_of_blank hblank] at hlead
    cases hlead

def Settled (k : Kind) : Prop := k ∈ marks ∨ k = .string ∨ isWordy k

lemma seals_of_settled (hk : Settled l.kind) (hf : l.fault = none) (hr : isWordy l.kind → Stops r) :
    l.Seals r := by
  obtain ⟨k, x, f⟩ := l
  obtain rfl : f = none := hf
  rcases hk with hk | rfl | hk
  · exact .mark hk
  · exact .string
  · have hstops := hr hk
    rcases hk with hk | rfl
    · exact .word hk fun a ha => (hstops a ha).1
    · exact .number hstops

lemma stops_of_scan (h : scan c t = (l, r)) (hk : l.kind.isTrivia = true ∨ l.kind ∈ marks) :
    isWordPart c = false ∧ c ≠ '.' := by
  have hlead := leading_of_scan h
  rcases hk with hk | hk
  · rcases scan_trivia h hk with ⟨rfl, -⟩ | hblock | ⟨hblank, -⟩
    · decide
    · rw [hblock] at hlead
      rw [(leading_blockComment hlead).1]
      decide
    · exact not_wordPart_of_blank hblank
  · rw [ofKind_mark hk] at hlead
    have hmark := leading_punctuation hlead
    generalize l.kind = k at hk hmark
    unfold punctuation? at hmark
    split at hmark <;> cases hmark <;> first | decide | exact absurd hk (by decide)

lemma not_blank_of_kind (h : scan c t = (l, r)) (hk : l.kind ≠ .whitespace) :
    isBlank c = false := by
  apply Bool.eq_false_iff.2
  intro hblank
  unfold scan at h
  rw [leading_of_blank hblank] at h
  obtain ⟨rfl, -⟩ := Prod.mk.inj h
  exact hk rfl
end Lexeme
end LiveEdit
