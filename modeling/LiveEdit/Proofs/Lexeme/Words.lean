import LiveEdit.Proofs.Lexeme.Sealing

namespace LiveEdit

namespace Lexeme
open List Option
open Text

variable {t r r' x y : Text} {us : List Lexeme} {l : Lexeme} {a b c q : Char} {next : Option Char}
  {k : Kind}

lemma not_digit_of_start (h : isWordStart a = true) : a.isDigit = false := by
  have hall : ∀ n ∈ range' 48 10, isWordStart (Char.ofNat n) = false := by decide
  apply Bool.eq_false_iff.2
  intro hd
  simp only [Char.isDigit, Bool.and_eq_true, decide_eq_true_eq, UInt32.le_iff_toNat_le] at hd
  have hmem : a.toNat ∈ range' 48 10 := mem_range'_1.2 ⟨hd.1, Nat.lt_succ_of_le hd.2⟩
  have hnot := hall _ hmem
  rw [Char.ofNat_toNat, h] at hnot
  cases hnot

lemma not_blank_of_start (h : isWordStart a = true) : isBlank a = false := by
  apply Bool.eq_false_iff.2
  intro hblank
  have hpart := isWordPart_of_start h
  rw [(not_wordPart_of_blank hblank).1] at hpart
  cases hpart

lemma not_space_of_start (h : isWordStart a = true) : isSpace a = false := by
  apply Bool.eq_false_iff.2
  intro hspace
  have hblank := not_blank_of_start h
  rw [isBlank_of_space hspace] at hblank
  cases hblank

lemma not_newline_of_start (h : isWordStart a = true) : isNewline a = false := by
  apply Bool.eq_false_iff.2
  intro hnewline
  simp only [isNewline, Bool.or_eq_true, decide_eq_true_eq] at hnewline
  rcases hnewline with rfl | rfl <;> exact absurd h (by decide)

lemma ne_mark_of_start (h : isWordStart a = true) : a ≠ '/' ∧ a ≠ '*' := by
  constructor <;> rintro rfl <;> exact absurd h (by decide)

lemma leading_of_start (ha : isWordStart a = true) (hb : isWordStart b = true) :
    Leading.of c (some b) = Leading.of c (some a) := by
  obtain ⟨ha₁, ha₂⟩ := ne_mark_of_start ha
  obtain ⟨hb₁, hb₂⟩ := ne_mark_of_start hb
  simp only [Leading.of, Option.some.injEq, any_some, ha₁, ha₂, hb₁, hb₂, not_digit_of_start ha,
    not_digit_of_start hb, and_false, if_false, Bool.false_eq_true]

lemma newline_of_stringBody (h : (stringBody q t).closed = false) :
    ∀ a ∈ (stringBody q t).rest.head?, isNewline a = true := by
  fun_induction stringBody q t with
  | case1 => simp
  | case2 => simp
  | case3 c t ih => exact ih h
  | case4 => cases h
  | case5 c t _ _ _ hnew =>
    intro a ha
    obtain rfl := some.inj ha
    exact hnew
  | case6 c t _ _ _ _ ih => exact ih h

lemma Ends.of_start (h : Ends c t (a :: r)) (ha : isWordStart a = true)
    (hb : isWordStart b = true) : Ends c t (b :: r') := by
  unfold Ends at h ⊢
  cases hlead : Leading.of c t.head? <;> rw [hlead] at h <;> dsimp only at h ⊢
  case lineComment =>
    have hnewline := h a rfl
    rw [not_newline_of_start ha] at hnewline
    cases hnewline
  case blockComment => exact .inl (h.resolve_right (cons_ne_nil a r))
  case punctuation k => exact (leading_of_start ha hb).trans h
  case quote =>
    refine .inl (by_contra fun hopen => ?_)
    have hhead := (h.resolve_left hopen).resolve_left (cons_ne_nil a r)
    have hnewline := newline_of_stringBody (by simpa using hopen) a hhead.symm
    rw [not_newline_of_start ha] at hnewline
    cases hnewline
  case word =>
    have hpart := h a rfl
    rw [isWordPart_of_start ha] at hpart
    cases hpart
  case number =>
    cases hclosed : (number (c :: t)).closed with
    | true =>
      have hstart := (h.digits hclosed a rfl).2
      rw [ha] at hstart
      cases hstart
    | false =>
      have hpart := h.letters hclosed a rfl
      rw [isWordPart_of_start ha] at hpart
      cases hpart
  case blank => exact fun d hd => some.inj hd ▸ not_blank_of_start hb

lemma Scans.reword (h : Scans t us (a :: r)) (ha : isWordStart a = true)
    (hb : isWordStart b = true) : Scans (spell us ++ b :: r') us (b :: r') :=
  h.rescan fun _ _ _ _ hscan => scan_of_ends hscan ((ends_of_scan hscan).of_start ha hb)

lemma scans_modifier (hk : k.isModifierKeyword = true) (hr : ∀ c ∈ r.head?, isWordPart c = false) :
    Scans (k.spelling ++ r) [⟨k, k.spelling, none⟩] r := by
  have hspelled : ∃ c x, k.spelling = c :: x ∧ Leading.of c none = .word ∧ c ≠ '/' ∧ c ≠ '.' ∧
      (∀ a ∈ x, isWordPart a = true) ∧ Kind.keyword? (c :: x) = some k := by
    cases k <;> first
      | exact ⟨_, _, rfl, by decide, by decide, by decide, all_eq_true.1 (by decide), by decide⟩
      | cases hk
  obtain ⟨c, x, hspelling, hword, hslash, hdot, hx, hkey⟩ := hspelled
  have hrun := run_append hx hr
  rw [hspelling]
  refine scans_one.2 ⟨c, x, rfl, rfl, ?_⟩
  unfold scan
  rw [leading_congr hslash hdot, hword]
  dsimp only
  rw [hrun.1, hrun.2, hkey]
  rfl

lemma Scans.uncons (h : Scans (c :: t) us r) (hne : c :: t ≠ r) :
    ∃ vs, us = (scan c t).1 :: vs ∧ Scans (scan c t).2 vs r := by
  cases h with
  | done => exact absurd rfl hne
  | next more => exact ⟨_, rfl, more⟩

lemma fault_of_trivia (h : scan c t = (l, r)) (hk : l.kind.isTrivia = true) (hr : r ≠ []) :
    l.fault = none := by
  unfold scan at h
  cases hlead : Leading.of c t.head? <;> rw [hlead] at h <;> dsimp only at h <;>
    obtain ⟨rfl, rfl⟩ := Prod.mk.inj h <;> dsimp only at hk ⊢
  case blockComment =>
    refine if_pos ?_
    by_contra hopen
    exact hr (commentBody_rest (by simpa using hopen))
  case quote | number | other => cases hk

def Loose (x : Text) : Prop :=
  ∀ a r, isWordStart a = true → ∃ us, Scans (x ++ a :: r) us (a :: r) ∧
  ∀ l ∈ us, l.kind.isTrivia = true

lemma loose_of_scans (h : Scans t us (a :: r)) (ha : isWordStart a = true)
    (hus : ∀ l ∈ us, l.kind.isTrivia = true) : Loose (spell us) :=
  fun _ _ hb => ⟨us, h.reword ha hb, hus⟩

lemma scan_blank (h : isBlank c = true) (t : Text) :
    scan c t = (⟨.whitespace, c :: t.takeWhile isBlank, none⟩, t.dropWhile isBlank) := by
  unfold scan
  rw [leading_of_blank h]

lemma Loose.dropBlank (h : Loose x) : Loose (x.dropWhile isBlank) := by
  cases x with
  | nil => exact h
  | cons c x =>
    cases hc : isBlank c with
    | false => rwa [dropWhile_cons_of_neg (by simp [hc])]
    | true =>
      intro a r ha
      obtain ⟨us, hscans, hus⟩ := h a r ha
      have hrest : (x ++ a :: r).dropWhile isBlank = (c :: x).dropWhile isBlank ++ a :: r := by
        rw [dropWhile_cons_of_pos hc, dropWhile_append]
        split
        · next hnil =>
          rw [dropWhile_cons_of_neg (by simp [not_blank_of_start ha]), isEmpty_iff.1 hnil]
          rfl
        · rfl
      obtain ⟨vs, rfl, hmore⟩ := hscans.uncons (t := x ++ a :: r) fun heq => by
        have hlength := congrArg length heq
        simp at hlength
        omega
      rw [scan_blank hc] at hmore
      exact ⟨vs, hrest ▸ hmore, fun l hl => hus l (mem_cons_of_mem _ hl)⟩

lemma loose_blank (hx : x.Blank) (hy : Loose y) : Loose (x ++ y) := by
  intro a r ha
  obtain ⟨us, hscans, hus⟩ := hy.dropBlank a r ha
  have hw : ∀ c ∈ x ++ y.takeWhile isBlank, isBlank c = true := by
    intro c hc
    rcases mem_append.1 hc with hc | hc
    · exact hx c hc
    · exact all_eq_true.1 all_takeWhile c hc
  have hsplit : x ++ y ++ a :: r = x ++ y.takeWhile isBlank ++ (y.dropWhile isBlank ++ a :: r) := by
    conv_lhs => rw [← takeWhile_append_dropWhile (p := isBlank) (l := y)]
    simp only [append_assoc]
  rw [hsplit]
  by_cases hnil : x ++ y.takeWhile isBlank = []
  · rw [hnil]
    exact ⟨us, hscans, hus⟩
  · have hhead : ∀ c ∈ (y.dropWhile isBlank ++ a :: r).head?, isBlank c = false := by
      intro c hc
      rw [head?_append] at hc
      cases hfirst : (y.dropWhile isBlank).head? with
      | none =>
        rw [hfirst] at hc
        exact some.inj hc ▸ not_blank_of_start ha
      | some d =>
        rw [hfirst] at hc
        exact head?_dropWhile isBlank y c (hfirst.trans hc)
    refine ⟨_, (scans_blank hw hnil hhead).append hscans, fun l hl => ?_⟩
    rcases mem_cons.1 hl with rfl | hl
    · rfl
    · exact hus l hl

lemma Loose.dropSpaces (h : Loose x) : Loose (x.dropWhile isSpace) := by
  have hspace : ∀ c, isBlank c = false → isSpace c = false := by
    intro c hc
    apply Bool.eq_false_iff.2
    intro hs
    rw [isBlank_of_space hs] at hc
    cases hc
  have hdrop : (x.dropWhile isBlank).dropWhile isSpace = x.dropWhile isBlank := by
    cases hz : x.dropWhile isBlank with
    | nil => rfl
    | cons c z =>
      have hc := head?_dropWhile isBlank x c (by rw [hz]; rfl)
      exact dropWhile_cons_of_neg (by simp [hspace c hc])
  have hsplit :
      x.dropWhile isSpace = (x.takeWhile isBlank).dropWhile isSpace ++ x.dropWhile isBlank := by
    conv_lhs => rw [← takeWhile_append_dropWhile (p := isBlank) (l := x)]
    rw [dropWhile_append, hdrop]
    split
    · next hnil => rw [isEmpty_iff.1 hnil, nil_append]
    · rfl
  rw [hsplit]
  refine loose_blank (fun c hc => ?_) h.dropBlank
  exact all_eq_true.1 all_takeWhile c ((dropWhile_sublist _).subset hc)

lemma loose_cons (h : scan c (y ++ r) = (l, r)) (hl : l.text = c :: y) (hk : l.kind.isTrivia = true)
    (hx : Loose x) (hs : ∀ a r, isWordStart a = true → l.Seals (x ++ a :: r)) :
    Loose (l.text ++ x) := by
  intro a r' ha
  obtain ⟨us, hscans, hus⟩ := hx a r' ha
  have hone : Scans (l.text ++ x ++ a :: r') [l] (x ++ a :: r') :=
    scans_one.2 ⟨c, y, hl, by rw [hl, append_assoc]; rfl, scan_of_seals h (hs a r' ha)⟩
  refine ⟨_, hone.append hscans, fun m hm => ?_⟩
  rcases mem_cons.1 hm with rfl | hm
  · exact hk
  · exact hus m hm

lemma Loose.append (hx : Loose x) (hy : Loose y) : Loose (x ++ y) := by
  -- By the lexemes of the first text: only white space at its end goes on into the second one.
  obtain ⟨us, hscans, hus⟩ := hx 'a' [] (by decide)
  clear hx
  induction us generalizing x with
  | nil =>
    obtain rfl : x = [] := append_cancel_right (hscans.text.trans (nil_append _).symm)
    exact hy
  | cons l us ih =>
    have hsplit : Scans (x ++ ['a']) ([l] ++ us) ['a'] := hscans
    obtain ⟨hone, hmore⟩ := hsplit.split
    obtain ⟨c, z, hl, -, hscan⟩ := scans_one.1 hone
    obtain rfl : x = l.text ++ spell us := by
      have htext := hscans.text
      rw [spell, flatMap_cons, ← spell] at htext
      exact append_cancel_right htext
    have hrest : Loose (spell us ++ y) := ih hmore fun m hm => hus m (mem_cons_of_mem l hm)
    have hk := hus l mem_cons_self
    have hf := fault_of_trivia hscan hk (by simp)
    have hs := seals_of_trivia hscan hk hf
    rw [append_assoc]
    cases hfirst : spell us with
    | cons d w =>
      rw [hfirst] at hs hrest
      exact loose_cons hscan hl hk hrest fun a r ha => hs.of_head rfl
    | nil =>
      rw [hfirst] at hs
      rcases scan_trivia hscan hk with ⟨-, rfl, -⟩ | hblock | ⟨hc, rfl, -⟩
      · exact absurd (hs.newline rfl 'a' rfl) (by decide)
      · refine loose_cons hscan hl hk hy fun a r ha => ?_
        obtain ⟨k, u, f⟩ := l
        obtain rfl : k = .blockComment := hblock
        obtain rfl : f = none := hf
        exact .blockComment
      · refine loose_blank (fun b hb => ?_) hy
        rcases mem_cons.1 hb with rfl | hb
        · exact hc
        · exact all_eq_true.1 all_takeWhile b hb
end Lexeme

namespace Lexeme
open List Option
open Text

variable {t r : Text} {us vs z z' : List Lexeme} {l m : Lexeme} {c : Char} {k : Kind}

lemma not_wordPart_of_word (h : scan c t = (l, r)) (hk : l.kind ∈ words) :
    ∀ a ∈ r.head?, isWordPart a = false := by
  have hends := ends_of_scan h
  unfold Ends at hends
  rwa [(leading_of_scan h).trans (ofKind_word hk)] at hends

lemma Scans.exists_start (h : Scans t us []) (hus : ∃ l ∈ us.head?, l.kind ∈ words) :
    ∃ a r, t = a :: r ∧ isWordStart a = true := by
  obtain ⟨l, hl, hk⟩ := hus
  obtain ⟨vs, rfl⟩ := List.head?_eq_some_iff.1 hl
  have hone : Scans t ([l] ++ vs) [] := h
  obtain ⟨c, x, -, ht, hscan⟩ := scans_one.1 hone.split.1
  exact ⟨c, _, ht, isWordStart_of_scan hscan hk⟩

lemma exists_reword (h : ofText t = us ++ vs) (hvs : ∃ l ∈ vs.head?, l.kind ∈ words) :
    Scans (spell vs) vs [] ∧ (∃ a r, spell vs = a :: r ∧ isWordStart a = true) ∧
      ∀ b r', isWordStart b = true → Scans (spell us ++ b :: r') us (b :: r') := by
  have hscans := scans_ofText t
  rw [h] at hscans
  obtain ⟨hus, hrest⟩ := hscans.split
  rw [append_nil] at hus hrest
  obtain ⟨a, r, hstart, ha⟩ := hrest.exists_start hvs
  rw [hstart] at hus
  exact ⟨hrest, ⟨a, r, hstart, ha⟩, fun b r' hb => hus.reword ha hb⟩

lemma exists_spelling (hk : k.isModifierKeyword = true) :
    ∃ b x, k.spelling = b :: x ∧ isWordStart b = true := by
  cases k <;> first | exact ⟨_, _, rfl, by decide⟩ | cases hk

lemma ofText_added (h : ofText t = us ++ vs) (hvs : ∃ l ∈ vs.head?, l.kind ∈ words)
    (hk : k.isModifierKeyword = true) : ofText (spell us ++ (k.spelling ++ [' '] ++ spell vs)) =
      us ++ ([⟨k, k.spelling, none⟩, ⟨.whitespace, [' '], none⟩] ++ vs) := by
  obtain ⟨hrest, ⟨a, r, hstart, ha⟩, hus⟩ := exists_reword h hvs
  obtain ⟨b, x, hspelling, hb⟩ := exists_spelling hk
  have hfront : Scans (spell us ++ (k.spelling ++ [' '] ++ spell vs)) us
      (k.spelling ++ [' '] ++ spell vs) := by
    rw [hspelling]
    exact hus b _ hb
  have hkeyword :
      Scans (k.spelling ++ [' '] ++ spell vs) [⟨k, k.spelling, none⟩] ([' '] ++ spell vs) := by
    rw [append_assoc]
    refine scans_modifier hk fun c hc => ?_
    obtain rfl := some.inj hc
    decide
  have hspace : Scans ([' '] ++ spell vs) [⟨.whitespace, [' '], none⟩] (spell vs) := by
    refine scans_blank (forall_mem_singleton.2 (by decide)) (cons_ne_nil _ _) fun c hc => ?_
    rw [hstart] at hc
    exact some.inj hc ▸ not_blank_of_start ha
  exact (hfront.append (hkeyword.append (hspace.append hrest))).ofText

lemma ofText_swapped (h : ofText t = us ++ l :: vs)
    (hl : l.kind ∈ words) (hk : k.isModifierKeyword = true) :
    ofText (spell us ++ (k.spelling ++ spell vs)) = us ++ ⟨k, k.spelling, none⟩ :: vs := by
  obtain ⟨hrest, -, hus⟩ := exists_reword h ⟨l, rfl, hl⟩
  have hone : Scans (spell (l :: vs)) ([l] ++ vs) [] := hrest
  obtain ⟨hword, hvs⟩ := hone.split
  rw [append_nil] at hword hvs
  obtain ⟨c, x, -, -, hscan⟩ := scans_one.1 hword
  obtain ⟨b, y, hspelling, hb⟩ := exists_spelling hk
  have hfront : Scans (spell us ++ (k.spelling ++ spell vs)) us (k.spelling ++ spell vs) := by
    rw [hspelling]
    exact hus b _ hb
  exact (hfront.append ((scans_modifier hk (not_wordPart_of_word hscan hl)).append hvs)).ofText

lemma ofText_removed (h : ofText t = us ++ l :: (z ++ vs)) (hl : l.kind ∈ words)
    (hvs : ∃ l ∈ vs.head?, l.kind ∈ words) : ofText (spell us ++ spell vs) = us ++ vs := by
  obtain ⟨-, -, hus⟩ := exists_reword h ⟨l, rfl, hl⟩
  have hsplit : ofText t = (us ++ l :: z) ++ vs := by rw [h, append_assoc, cons_append]
  obtain ⟨hrest, ⟨a, r, hstart, ha⟩, -⟩ := exists_reword hsplit hvs
  have hfront : Scans (spell us ++ spell vs) us (spell vs) := by
    rw [hstart]
    exact hus a r ha
  exact (hfront.append hrest).ofText

lemma exists_ofText_closed (h : ofText t = us ++ m :: (z ++ l :: (z' ++ vs)))
    (hm : m.kind ∈ words) (hz : ∀ u ∈ z, u.kind.isTrivia = true) (hl : l.kind ∈ words)
    (hz' : ∀ u ∈ z', u.kind.isTrivia = true) (hvs : ∃ l ∈ vs.head?, l.kind ∈ words) : ∃ z'',
      (∀ u ∈ z'', u.kind.isTrivia = true) ∧ spell z'' = spell z ++ (spell z').dropWhile isSpace ∧
    ofText (spell us ++ (m.text ++ (spell z'' ++ spell vs))) = us ++ m :: (z'' ++ vs) := by
  have hbefore : ofText t = us ++ ([m] ++ (z ++ ([l] ++ (z' ++ vs)))) := h
  have hscans := scans_ofText t
  rw [hbefore] at hscans
  obtain ⟨hus, hscans⟩ := hscans.split
  obtain ⟨hfirst, hscans⟩ := hscans.split
  obtain ⟨htrivia, hscans⟩ := hscans.split
  obtain ⟨b, r', hword, hb⟩ := hscans.exists_start ⟨l, rfl, hl⟩
  obtain ⟨-, hscans⟩ := hscans.split
  obtain ⟨htrivia', hvs'⟩ := hscans.split
  obtain ⟨a, r, hstart, ha⟩ := hvs'.exists_start hvs
  rw [hword] at htrivia
  rw [hstart] at htrivia'
  have hloose : Loose (spell z ++ (spell z').dropWhile isSpace) :=
    (loose_of_scans htrivia hb hz).append (loose_of_scans htrivia' ha hz').dropSpaces
  obtain ⟨z'', hclosed, hz''⟩ := hloose a r ha
  have htext : spell z'' = spell z ++ (spell z').dropWhile isSpace :=
    (append_cancel_right hclosed.text).symm
  refine ⟨z'', hz'', htext, ?_⟩
  -- Trivia comes behind the first word, since no other word may.
  obtain ⟨c, x, hx, -, hscan⟩ := scans_one.1 hfirst
  have hstops := not_wordPart_of_word hscan hm
  have hhead : ∀ a ∈ (spell z'' ++ spell vs).head?, isWordPart a = false := by
    cases hspell : spell z with
    | nil =>
      rw [spell_append, hspell, nil_append, append_nil] at hstops
      rw [append_nil] at hword
      rw [hword] at hstops
      have hnot := hstops b rfl
      rw [isWordPart_of_start hb] at hnot
      cases hnot
    | cons d y =>
      rw [spell_append, hspell] at hstops
      rw [htext, hspell]
      exact hstops
  have hfront :
      Scans (spell (us ++ [m]) ++ (spell z'' ++ spell vs)) (us ++ [m]) (spell z'' ++ spell vs) := by
    refine (hus.append hfirst).reseal fun u hu => ?_
    obtain rfl : m = u := some.inj ((getLast?_concat ..).symm.trans hu)
    exact .word hm hhead
  rw [append_nil] at hstart hvs'
  have hmore : Scans (spell z'' ++ spell vs) z'' (spell vs) := by
    rw [htext, hstart]
    exact hclosed
  have hall := (hfront.append (hmore.append hvs')).ofText
  rw [spell_append, spell_singleton, append_assoc, append_assoc] at hall
  exact hall
end Lexeme
end LiveEdit
