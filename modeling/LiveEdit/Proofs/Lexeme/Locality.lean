import LiveEdit.Proofs.Lexeme.Partition

/-! A lexeme depends on its own text and on no more than two characters after it. -/

namespace LiveEdit
open List Option

namespace Lexeme
open Text

inductive Scans : Text → List Lexeme → Text → Prop where
  | done (r : Text) : Scans r [] r
  | next {c : Char} {t r : Text} {us : List Lexeme} (more : Scans (scan c t).2 us r) :
      Scans (c :: t) ((scan c t).1 :: us) r

def spell (us : List Lexeme) : Text := us.flatMap text

variable {t m r r' x y z : Text} {us vs : List Lexeme} {l : Lexeme} {c q d : Char} {p : Char → Bool}
  {next : Option Char} {k : Kind}

lemma scan_rest_lt (c : Char) (t : Text) : (scan c t).2.length < (c :: t).length := by
  have htext := congrArg length (scan_text c t)
  have hpos : 0 < (scan c t).1.text.length := length_pos_iff.2 (scan_text_ne_nil c t)
  rw [length_append] at htext
  omega

lemma scans_scanMany (n : Nat) (t : Text) (h : t.length ≤ n) : Scans t (scanMany n t) [] := by
  induction n generalizing t with
  | zero =>
    obtain rfl : t = [] := eq_nil_of_length_eq_zero (Nat.le_zero.1 h)
    exact .done []
  | succ n ih =>
    cases t with
    | nil => exact .done []
    | cons c t =>
      have hlt := scan_rest_lt c t
      exact .next (ih _ (by omega))

lemma scans_ofText (t : Text) : Scans t (ofText t) [] := scans_scanMany t.length t (Nat.le_refl _)

lemma Scans.eq_of_end (h : Scans t us []) (h' : Scans t vs []) : us = vs := by
  induction us generalizing t vs with
  | nil =>
    cases h
    cases h'
    rfl
  | cons u us ih =>
    cases h with
    | next more =>
      cases h' with
      | next more' => rw [ih more more']

lemma Scans.ofText (h : Scans t us []) : ofText t = us := (scans_ofText t).eq_of_end h

lemma Scans.append (h : Scans t us m) (h' : Scans m vs r) : Scans t (us ++ vs) r := by
  induction h with
  | done => exact h'
  | next _ ih => exact .next (ih h')

lemma Scans.text (h : Scans t us r) : t = spell us ++ r := by
  induction h with
  | done => rfl
  | @next c t r us _ ih =>
    rw [spell, flatMap_cons, append_assoc, ← spell, ← ih, scan_text]

lemma Scans.split (h : Scans t (us ++ vs) r) :
    Scans t us (spell vs ++ r) ∧ Scans (spell vs ++ r) vs r := by
  induction us generalizing t with
  | nil =>
    have htext := h.text
    rw [nil_append] at h htext
    rw [← htext]
    exact ⟨.done t, h⟩
  | cons u us ih =>
    cases h with
    | next more =>
      obtain ⟨hfirst, hlast⟩ := ih more
      exact ⟨.next hfirst, hlast⟩

lemma scans_take (t : Text) (i : Nat) :
    Scans t ((ofText t).take i) (spell ((ofText t).drop i)) := by
  have hscans := scans_ofText t
  rw [← take_append_drop i (ofText t)] at hscans
  rw [← append_nil (spell _)]
  exact hscans.split.1

lemma Scans.text_ne_nil (h : Scans t us r) : ∀ u ∈ us, u.text ≠ [] := by
  induction h with
  | done => simp
  | @next c t r us _ ih =>
    intro u hu
    rcases mem_cons.1 hu with rfl | hu
    · exact scan_text_ne_nil c t
    · exact ih u hu

lemma scans_one :
    Scans t [l] r ↔ ∃ c x, l.text = c :: x ∧ t = c :: (x ++ r) ∧ scan c (x ++ r) = (l, r) := by
  constructor
  · intro h
    cases h with
    | @next c t _ _ more =>
      have hrest : (scan c t).2 = r := more.text
      have htext := scan_text c t
      obtain ⟨d, x, hx⟩ := exists_cons_of_ne_nil (scan_text_ne_nil c t)
      rw [hx, cons_append] at htext
      obtain ⟨rfl, ht⟩ := cons.inj htext
      rw [hrest] at ht
      exact ⟨d, x, hx, by rw [ht], by rw [ht, ← hrest]⟩
  · rintro ⟨c, x, -, rfl, hscan⟩
    have hnext : Scans (c :: (x ++ r)) ((scan c (x ++ r)).1 :: []) r := by
      apply Scans.next
      rw [hscan]
      exact .done r
    rwa [hscan] at hnext

/-- The texts start with the same character, and after a dot both go on with a digit or neither
does. -/
structure SameAhead (r r' : Text) : Prop where
  head : r'.head? = r.head?
  dot : r.head? = some '.' → r'.tail.head?.any Char.isDigit = r.tail.head?.any Char.isDigit

lemma sameAhead_of_front (hz : z ≠ [])
    (hdot : z = ['.'] → r'.head?.any Char.isDigit = r.head?.any Char.isDigit) :
    SameAhead (z ++ r) (z ++ r') := by
  obtain ⟨a, z, rfl⟩ := exists_cons_of_ne_nil hz
  refine ⟨rfl, fun ha => ?_⟩
  obtain rfl := some.inj ha
  cases z with
  | nil => exact hdot rfl
  | cons b z => rfl

lemma SameAhead.nil (h : SameAhead [] r') : r' = [] := List.head?_eq_none_iff.1 h.head

lemma head?_dropWhile (p : Char → Bool) (x : Text) : ∀ c ∈ (x.dropWhile p).head?, p c = false := by
  intro c hc
  have hhead := head?_dropWhile_not p x
  rw [mem_def.1 hc] at hhead
  simpa using hhead

lemma run_append (hx : ∀ a ∈ x, p a = true) (hr : ∀ a ∈ r.head?, p a = false) :
    (x ++ r).takeWhile p = x ∧ (x ++ r).dropWhile p = r := by
  have hstop : r.dropWhile p = r ∧ r.takeWhile p = [] := by
    cases r with
    | nil => exact ⟨rfl, rfl⟩
    | cons a r => simp [hr a rfl]
  rw [takeWhile_append_of_pos hx, dropWhile_append_of_pos hx, hstop.1, hstop.2, append_nil]
  exact ⟨rfl, rfl⟩

lemma run_again (h : t.takeWhile p = x) (hr : ∀ a ∈ r.head?, p a = false) :
    (x ++ r).takeWhile p = x ∧ (x ++ r).dropWhile p = r :=
  run_append (fun a ha => all_eq_true.1 all_takeWhile a (h ▸ ha)) hr

lemma commentBody_taken_ne_nil (h : (commentBody t).closed = true) :
    (commentBody t).taken ≠ [] := by
  fun_cases commentBody t with
  | case1 => cases h
  | case2 t => exact cons_ne_nil _ _
  | case3 c t _ => exact cons_ne_nil _ _

lemma commentBody_congr (h : (commentBody t).closed = true) (r' : Text) :
    commentBody ((commentBody t).taken ++ r') = ⟨(commentBody t).taken, true, r'⟩ := by
  fun_induction commentBody t with
  | case1 => cases h
  | case2 t => rfl
  | case3 c t hclose ih =>
    have hmore := ih h
    have hne := commentBody_taken_ne_nil (t := t) h
    have htext := commentBody_text t
    change commentBody (c :: ((commentBody t).taken ++ r')) = ⟨c :: (commentBody t).taken, true, r'⟩
    generalize (commentBody t).taken = y at hmore hne htext ⊢
    have hrest : commentBody (c :: (y ++ r')) = (commentBody (y ++ r')).push c := by
      rw [commentBody]
      rintro u rfl hu
      obtain ⟨a, y, rfl⟩ := exists_cons_of_ne_nil hne
      obtain ⟨rfl, -⟩ := cons.inj hu
      exact hclose _ rfl htext.symm
    rw [hrest, hmore]
    rfl

lemma commentBody_rest (h : (commentBody t).closed = false) : (commentBody t).rest = [] := by
  fun_induction commentBody t with
  | case1 => rfl
  | case2 t => cases h
  | case3 c t _ ih => exact ih h

lemma commentBody_again (h : (commentBody t).closed = true ∨ r' = []) : commentBody
      ((commentBody t).taken ++ r') = ⟨(commentBody t).taken, (commentBody t).closed, r'⟩ := by
  cases hclosed : (commentBody t).closed with
  | true => exact commentBody_congr hclosed r'
  | false =>
    obtain rfl := h.resolve_left (Bool.eq_false_iff.1 hclosed)
    have hrest := commentBody_rest hclosed
    have htaken : (commentBody t).taken = t := by
      have htext := commentBody_text t
      rwa [hrest, append_nil] at htext
    rw [← hclosed, ← hrest, hrest, append_nil, htaken, ← hrest]
    exact congrArg (fun u => (⟨u, _, _⟩ : Cut)) htaken

lemma escape_of (hlast : c = '\\' → t = [] → False)
    (hescape : ∀ d s, c = '\\' → t = d :: s → False) : c ≠ '\\' := by
  intro hc
  cases t with
  | nil => exact hlast hc rfl
  | cons d t => exact hescape d t hc rfl

lemma stringBody_cons (h : c ≠ '\\') (t : Text) : stringBody q (c :: t) = if c = q then ⟨[c], true,
      t⟩ else if isNewline c then ⟨[], false, c :: t⟩ else (stringBody q t).push c :=
  stringBody.eq_4 q c t (fun hc _ => h hc) (fun _ _ hc _ => h hc)

lemma stringBody_again (hr : (stringBody q t).closed = true ∨ r' = [] ∨
      r'.head? = (stringBody q t).rest.head?) : stringBody q ((stringBody q t).taken ++ r') =
      ⟨(stringBody q t).taken, (stringBody q t).closed, r'⟩ := by
  fun_induction stringBody q t with
  | case1 | case2 =>
    obtain rfl : r' = [] := (hr.resolve_left Bool.false_ne_true).elim id List.head?_eq_none_iff.1
    rfl
  | case3 c t ih =>
    change stringBody q ('\\' :: c :: ((stringBody q t).taken ++ r')) = _
    rw [stringBody, ih hr]
    rfl
  | case4 t hlast hescape =>
    have hq : q ≠ '\\' := escape_of hlast hescape
    exact (stringBody_cons hq r').trans (if_pos rfl)
  | case5 c t hlast hescape hq hnew =>
    rcases hr.resolve_left Bool.false_ne_true with rfl | hhead
    · rfl
    · have hc : c ≠ '\\' := escape_of hlast hescape
      obtain ⟨r, rfl⟩ := List.head?_eq_some_iff.1 hhead
      exact (stringBody_cons hc r).trans ((if_neg hq).trans (if_pos hnew))
  | case6 c t hlast hescape hq hnew ih =>
    have hc : c ≠ '\\' := escape_of hlast hescape
    have hmore := ih hr
    refine (stringBody_cons hc _).trans ((if_neg hq).trans ((if_neg hnew).trans ?_))
    change (stringBody q ((stringBody q t).taken ++ r')).push c = _
    rw [hmore]
    rfl

lemma isWordPart_of_start (h : isWordStart c = true) : isWordPart c = true := by
  simp only [isWordStart, Bool.or_eq_true] at h
  simp only [isWordPart, Bool.or_eq_true]
  tauto

def startsFraction (t : Text) : Bool := t.head? = some '.' && t.tail.head?.any Char.isDigit

lemma SameAhead.startsFraction (h : SameAhead r r') : startsFraction r' = startsFraction r := by
  by_cases hdot : r.head? = some '.'
  · rw [Lexeme.startsFraction, h.head, h.dot hdot, Lexeme.startsFraction]
  · simp [Lexeme.startsFraction, h.head, hdot]

lemma fraction_digits (hd : d.isDigit = true) (t : Text) : fraction ('.' :: d :: t) =
    ⟨'.' :: (d :: t).takeWhile isDigitPart, true, (d :: t).dropWhile isDigitPart⟩ := if_pos hd

lemma fraction_of_not (h : startsFraction t = false) : fraction t = ⟨[], true, t⟩ := by
  unfold fraction
  split
  · next d u =>
    have hd : d.isDigit = false := h
    rw [hd, if_neg Bool.false_ne_true]
  · rfl

lemma fraction_cases (t : Text) :
    (startsFraction t = false ∧ (fraction t).taken = []) ∨ ∃ d u, t = '.' :: d :: u ∧
    d.isDigit = true ∧ (fraction t).taken = '.' :: (d :: u).takeWhile isDigitPart := by
  cases hstarts : startsFraction t with
  | false =>
    rw [fraction_of_not hstarts]
    exact .inl ⟨rfl, rfl⟩
  | true =>
    obtain ⟨hdot, hdigit⟩ : t.head? = some '.' ∧ t.tail.head?.any Char.isDigit = true := by
      simpa [startsFraction] using hstarts
    obtain ⟨v, rfl⟩ := List.head?_eq_some_iff.1 hdot
    obtain ⟨d, hd, hdigit⟩ := (any_eq_true _ _).1 hdigit
    obtain ⟨u, rfl⟩ := List.head?_eq_some_iff.1 hd
    exact .inr ⟨d, u, rfl, hdigit, by rw [fraction_digits hdigit]⟩

lemma fraction_again (hdigit : ∀ a ∈ r'.head?, isDigitPart a = false)
    (hr : startsFraction r' = true → (fraction t).taken ≠ []) :
    fraction ((fraction t).taken ++ r') = ⟨(fraction t).taken, true, r'⟩ := by
  rcases fraction_cases t with ⟨-, hnil⟩ | ⟨d, u, rfl, hd, htaken⟩
  · rw [hnil, nil_append]
    exact fraction_of_not (Bool.eq_false_iff.2 fun hstarts => hr hstarts hnil)
  · have hpart : isDigitPart d = true := by simp [isDigitPart, hd]
    have hrun := run_again (t := d :: u) rfl hdigit
    rw [htaken]
    rw [takeWhile_cons_of_pos hpart] at hrun ⊢
    simp only [cons_append] at hrun ⊢
    rw [fraction_digits hd, hrun.1, hrun.2]

lemma not_digitPart_of_fraction (t : Text) :
    ∀ a ∈ (fraction (t.dropWhile isDigitPart)).rest.head?, isDigitPart a = false := by
  have htext := fraction_text (t.dropWhile isDigitPart)
  rcases fraction_cases (t.dropWhile isDigitPart) with ⟨-, hnil⟩ | ⟨d, u, hdigits, hd, -⟩
  · rw [hnil, nil_append] at htext
    rw [htext]
    exact head?_dropWhile isDigitPart t
  · rw [hdigits, fraction_digits hd]
    exact head?_dropWhile isDigitPart (d :: u)

lemma numberTail_cases (t : Text) : (numberTail t = [] ∧ ∀ a ∈ t.head?, isWordStart a = false) ∨
    ∃ a u, t = a :: u ∧ isWordStart a = true ∧ numberTail t = a :: u.takeWhile isWordPart := by
  cases t with
  | nil => exact .inl ⟨rfl, by simp⟩
  | cons a u =>
    cases ha : isWordStart a with
    | false =>
      refine .inl ⟨if_neg (Bool.eq_false_iff.1 ha), fun b hb => ?_⟩
      rwa [← some.inj hb]
    | true =>
      refine .inr ⟨a, u, rfl, ha, (if_pos ha).trans ?_⟩
      rw [takeWhile_cons_of_pos (isWordPart_of_start ha)]

structure NumberEnds (t r : Text) : Prop where
  digits : (number t).closed = true → ∀ a ∈ r.head?, isDigitPart a = false ∧ isWordStart a = false
  letters : (number t).closed = false → ∀ a ∈ r.head?, isWordPart a = false
  fraction : (number t).closed = true → startsFraction r = true →
    (fraction (t.dropWhile isDigitPart)).taken ≠ []

lemma number_of_parts (hdigit : ∀ a ∈
      (numberTail (fraction (t.dropWhile isDigitPart)).rest ++ r').head?, isDigitPart a = false)
    (hfraction : startsFraction (numberTail (fraction (t.dropWhile isDigitPart)).rest ++ r') =
      true → (fraction (t.dropWhile isDigitPart)).taken ≠ [])
    (htail : numberTail (numberTail (fraction (t.dropWhile isDigitPart)).rest ++ r') =
      numberTail (fraction (t.dropWhile isDigitPart)).rest) :
    number ((number t).taken ++ r') = ⟨(number t).taken, (number t).closed, r'⟩ := by
  have hmiddle := fraction_again hdigit hfraction
  have hhead : ∀ a ∈ ((fraction (t.dropWhile isDigitPart)).taken ++
      (numberTail (fraction (t.dropWhile isDigitPart)).rest ++ r')).head?,
      isDigitPart a = false := by
    rcases fraction_cases (t.dropWhile isDigitPart) with ⟨-, hnil⟩ | ⟨d, u, -, -, htaken⟩
    · rw [hnil]
      exact hdigit
    · rw [htaken]
      exact fun a ha => some.inj ha ▸ rfl
  have hdigits := run_again (t := t) rfl hhead
  unfold number
  dsimp only
  simp only [append_assoc, hdigits.1, hdigits.2, hmiddle, htail, drop_left]

lemma number_again (h : NumberEnds t r') :
    number ((number t).taken ++ r') = ⟨(number t).taken, (number t).closed, r'⟩ := by
  have hbehind := not_digitPart_of_fraction t
  rcases numberTail_cases (fraction (t.dropWhile isDigitPart)).rest
    with ⟨hnil, -⟩ | ⟨a, u, hrest, ha, htail⟩
  · have hclosed : (number t).closed = true := isEmpty_iff.2 hnil
    apply number_of_parts <;> rw [hnil, nil_append]
    · exact fun a ha => (h.digits hclosed a ha).1
    · exact h.fraction hclosed
    · rcases numberTail_cases r' with ⟨hnone, -⟩ | ⟨a, u, rfl, ha, -⟩
      · exact hnone
      · exact absurd ha (Bool.eq_false_iff.1 (h.digits hclosed a rfl).2)
  · have hopen : (number t).closed = false := by
      simp only [number, htail, isEmpty_cons]
    apply number_of_parts <;> rw [htail]
    · intro b hb
      exact hbehind b (hrest ▸ hb)
    · intro hstarts
      obtain rfl : a = '.' := by simpa [startsFraction] using (Bool.and_eq_true_iff.1 hstarts).1
      cases ha
    · have hrun := run_again (t := u) rfl (h.letters hopen)
      have hpart := isWordPart_of_start ha
      rw [cons_append, numberTail, head?_cons, any_some, if_pos ha,
        takeWhile_cons_of_pos hpart, hrun.1]

lemma numberEnds_rest (t : Text) : NumberEnds t (number t).rest := by
  have hbehind := not_digitPart_of_fraction t
  rcases numberTail_cases (fraction (t.dropWhile isDigitPart)).rest
    with ⟨hnil, hnot⟩ | ⟨a, u, hrest, ha, htail⟩
  · have hclosed : (number t).closed = true := isEmpty_iff.2 hnil
    have hrest : (number t).rest = (fraction (t.dropWhile isDigitPart)).rest := by
      simp only [number, hnil, length_nil, drop_zero]
    rw [hrest]
    refine ⟨fun _ a ha => ⟨hbehind a ha, hnot a ha⟩, fun hopen => ?_, fun _ hstarts hnone => ?_⟩
    · rw [hclosed] at hopen
      cases hopen
    · -- what goes on as a fraction was taken as one
      have htext := fraction_text (t.dropWhile isDigitPart)
      rw [hnone, nil_append] at htext
      rw [htext] at hstarts
      rcases fraction_cases (t.dropWhile isDigitPart) with ⟨hnot, -⟩ | ⟨d, u, -, -, htaken⟩
      · exact Bool.false_ne_true (hnot.symm.trans hstarts)
      · exact cons_ne_nil _ _ (htaken.symm.trans hnone)
  · have hopen : (number t).closed = false := by
      simp only [number, htail, isEmpty_cons]
    have hrest : (number t).rest = u.dropWhile isWordPart := by
      change (fraction (t.dropWhile isDigitPart)).rest.drop (numberTail _).length = _
      rw [htail, hrest, length_cons, drop_succ_cons]
      exact (congrArg (drop _) takeWhile_append_dropWhile.symm).trans drop_left
    refine ⟨fun hclosed => ?_, fun _ => ?_, fun hclosed => ?_⟩
    · rw [hopen] at hclosed
      cases hclosed
    · rw [hrest]
      exact head?_dropWhile isWordPart u
    · rw [hopen] at hclosed
      cases hclosed

lemma NumberEnds.of_same (h : NumberEnds t r) (hr : SameAhead r r') : NumberEnds t r' where
  digits hclosed := hr.head ▸ h.digits hclosed
  letters hopen := hr.head ▸ h.letters hopen
  fraction hclosed hstarts := h.fraction hclosed (hr.startsFraction ▸ hstarts)

lemma leading_congr {n n' : Option Char} (hslash : c ≠ '/') (hdot : c ≠ '.') :
    Leading.of c n = Leading.of c n' := by
  simp only [Leading.of, hslash, hdot, false_and, if_false]

lemma leading_lineComment (h : Leading.of c next = .lineComment) : c = '/' ∧ next = some '/' := by
  grind [Leading.of]

lemma leading_blockComment (h : Leading.of c next = .blockComment) : c = '/' ∧ next = some '*' := by
  grind [Leading.of]

lemma leading_blank (h : Leading.of c next = .blank) : c ≠ '/' ∧ c ≠ '.' ∧ isBlank c = true := by
  unfold Leading.of at h
  grind [punctuation?]

lemma leading_quote (h : Leading.of c next = .quote) : c ≠ '/' ∧ c ≠ '.' := by
  unfold Leading.of at h
  grind [punctuation?]

lemma leading_word (h : Leading.of c next = .word) : c ≠ '/' ∧ c ≠ '.' ∧ isWordStart c = true := by
  unfold Leading.of at h
  grind [punctuation?]

lemma leading_digit (h : Leading.of c next = .number) :
    c ≠ '/' ∧ (c = '.' → next.any Char.isDigit = true) := by
  unfold Leading.of at h
  grind [punctuation?]

lemma leading_other (h : Leading.of c next = .other) : c ≠ '/' ∧ c ≠ '.' := by
  unfold Leading.of at h
  grind [punctuation?]

lemma leading_alone (h : Leading.of c next = .punctuation k) :
    Leading.of c none = .punctuation k := by
  unfold Leading.of at h ⊢
  grind

lemma number_dot (hd : d.isDigit = true) (t : Text) :
    2 ≤ (number ('.' :: d :: t)).taken.length := by
  have hpart : isDigitPart d = true := by simp [isDigitPart, hd]
  have hdot : isDigitPart '.' = false := by decide
  simp only [number, dropWhile_cons_of_neg (Bool.eq_false_iff.1 hdot),
    takeWhile_cons_of_neg (Bool.eq_false_iff.1 hdot), fraction_digits hd,
    takeWhile_cons_of_pos hpart, nil_append, length_append, length_cons]
  omega

lemma text_of_scan (h : scan c (x ++ r) = (l, r)) : l.text = c :: x := by
  have htext := scan_text c (x ++ r)
  rw [h] at htext
  exact append_cancel_right (htext.trans (cons_append ..).symm)

lemma closed_of_fault {b : Bool} {f : LexicalFault}
    (h : (if b = true then none else some f) = none) : b = true := by
  by_contra hopen
  rw [if_neg hopen] at h
  cases h

def Ends (c : Char) (t r : Text) : Prop :=
  match Leading.of c t.head? with
  | .lineComment => ∀ a ∈ r.head?, isNewline a = true
  | .blockComment => (commentBody (t.drop 1)).closed = true ∨ r = []
  | .punctuation k => Leading.of c r.head? = .punctuation k
  | .quote => (stringBody c t).closed = true ∨ r = [] ∨ r.head? = (stringBody c t).rest.head?
  | .word => ∀ a ∈ r.head?, isWordPart a = false
  | .number => NumberEnds (c :: t) r
  | .blank => ∀ a ∈ r.head?, isBlank a = false
  | .other => True

lemma leading_of_ends (h : scan c (x ++ r) = (l, r)) (he : Ends c (x ++ r) r') :
    Leading.of c (x ++ r').head? = Leading.of c (x ++ r).head? := by
  cases x with
  | cons a x => rfl
  | nil =>
    by_cases hfree : c ≠ '/' ∧ c ≠ '.'
    · exact leading_congr hfree.1 hfree.2
    have hl := text_of_scan h
    simp only [nil_append] at h he ⊢
    unfold scan at h
    unfold Ends at he
    cases hlead : Leading.of c r.head? <;> rw [hlead] at h he <;> obtain ⟨rfl, -⟩ :=
      Prod.mk.inj h <;> dsimp only at hl he
    case punctuation k => exact he
    case lineComment =>
      obtain ⟨u, rfl⟩ := List.head?_eq_some_iff.1 (leading_lineComment hlead).2
      cases hl
    case blockComment =>
      obtain ⟨u, rfl⟩ := List.head?_eq_some_iff.1 (leading_blockComment hlead).2
      cases hl
    case quote => exact absurd (leading_quote hlead) hfree
    case word => exact absurd ⟨(leading_word hlead).1, (leading_word hlead).2.1⟩ hfree
    case blank => exact absurd ⟨(leading_blank hlead).1, (leading_blank hlead).2.1⟩ hfree
    case other => exact absurd (leading_other hlead) hfree
    case number =>
      obtain ⟨hslash, hdot⟩ := leading_digit hlead
      obtain rfl : c = '.' := by
        by_contra hc
        exact hfree ⟨hslash, hc⟩
      obtain ⟨d, hd, hdigit⟩ := (any_eq_true _ _).1 (hdot rfl)
      obtain ⟨u, rfl⟩ := List.head?_eq_some_iff.1 hd
      have hlong := number_dot hdigit u
      rw [hl] at hlong
      exact absurd hlong (by decide)

/-- A lexeme is scanned again where it ends. -/
lemma scan_of_ends (h : scan c (x ++ r) = (l, r)) (he : Ends c (x ++ r) r') :
    scan c (x ++ r') = (l, r') := by
  have hl := text_of_scan h
  have hleading := leading_of_ends h he
  unfold scan at h ⊢
  unfold Ends at he
  rw [hleading]
  cases hlead : Leading.of c (x ++ r).head? <;> rw [hlead] at h he <;> dsimp only at h he ⊢ <;>
    obtain ⟨rfl, -⟩ := Prod.mk.inj h <;> dsimp only at hl
  case lineComment =>
    have hrun := run_again (cons.inj hl).2 fun a ha => by rw [he a ha]; rfl
    rw [hrun.1, hrun.2, hl]
  case blockComment =>
    obtain ⟨u, hu⟩ := List.head?_eq_some_iff.1 (leading_blockComment hlead).2
    have hbody := commentBody_again he
    rw [hu] at hl hbody ⊢
    obtain rfl : '*' :: (commentBody u).taken = x := (cons.inj hl).2
    have hdrop : ('*' :: (commentBody u).taken ++ r').drop 1 = (commentBody u).taken ++ r' := rfl
    rw [hdrop, show commentBody ((commentBody u).taken ++ r') = _ from hbody]
    rfl
  case punctuation k =>
    obtain rfl : [] = x := (cons.inj hl).2
    rfl
  case quote =>
    have hbody := stringBody_again he
    rw [(cons.inj hl).2] at hbody
    rw [hbody, hl]
  case word =>
    have hrun := run_again (cons.inj hl).2 he
    rw [hrun.1, hrun.2, hl]
  case number =>
    have hnumber := number_again he
    rw [hl, cons_append] at hnumber
    rw [hnumber, hl]
  case blank =>
    have hrun := run_again (cons.inj hl).2 he
    rw [hrun.1, hrun.2, hl]
  case other =>
    obtain rfl : [] = x := (cons.inj hl).2
    rfl

lemma ends_of_scan (h : scan c t = (l, r)) : Ends c t r := by
  unfold scan at h
  unfold Ends
  cases hlead : Leading.of c t.head? <;> rw [hlead] at h <;> obtain ⟨-, rfl⟩ :=
    Prod.mk.inj h <;> dsimp only
  case lineComment =>
    intro a ha
    simpa using head?_dropWhile (!isNewline ·) t a ha
  case blockComment =>
    cases hclosed : (commentBody (t.drop 1)).closed with
    | true => exact .inl rfl
    | false => exact .inr (commentBody_rest hclosed)
  case punctuation k => exact hlead
  case quote => exact .inr (.inr rfl)
  case word => exact head?_dropWhile isWordPart t
  case number => exact numberEnds_rest (c :: t)
  case blank => exact head?_dropWhile isBlank t

lemma ends_nil (c : Char) (t : Text) : Ends c t [] := by
  unfold Ends
  cases hlead : Leading.of c t.head? <;> dsimp only
  case punctuation k => exact leading_alone hlead
  case number => exact ⟨fun _ => by simp, fun _ => by simp, fun _ hstarts => by cases hstarts⟩
  case blockComment => exact .inr rfl
  case quote => exact .inr (.inl rfl)
  all_goals simp

lemma Ends.of_same (h : Ends c t r) (hr : SameAhead r r') : Ends c t r' := by
  unfold Ends at h ⊢
  cases hlead : Leading.of c t.head? <;> rw [hlead] at h <;> dsimp only at h ⊢
  case number => exact h.of_same hr
  case blockComment => exact h.imp_right fun hnil => (hnil ▸ hr).nil
  case quote => exact h.imp_right (Or.imp (fun hnil => (hnil ▸ hr).nil) hr.head.trans)
  all_goals rwa [hr.head]

lemma scan_congr (h : scan c (x ++ r) = (l, r)) (hr : SameAhead r r') :
    scan c (x ++ r') = (l, r') :=
  scan_of_ends h ((ends_of_scan h).of_same hr)

lemma scan_alone (h : scan c (x ++ r) = (l, r)) : scan c (x ++ []) = (l, []) :=
  scan_of_ends h (ends_nil ..)

lemma scan_comment (u : Text) :
    scan '/' ('*' :: u) = (⟨.blockComment, '/' :: '*' :: (commentBody u).taken,
    if (commentBody u).closed then none else some .unterminatedComment⟩,
    (commentBody u).rest) := rfl

lemma exists_commentBody (h : scan c (x ++ r) = (l, r))
    (hlead : Leading.of c (x ++ r).head? = .blockComment) (hl : l.fault = none) :
    c = '/' ∧ ∃ u, (commentBody u).closed = true ∧ x = '*' :: (commentBody u).taken ∧
    l = ⟨.blockComment, '/' :: '*' :: (commentBody u).taken, none⟩ := by
  have htext := text_of_scan h
  obtain ⟨rfl, hstar⟩ := leading_blockComment hlead
  obtain ⟨u, hu⟩ := List.head?_eq_some_iff.1 hstar
  rw [hu, scan_comment] at h
  obtain ⟨rfl, -⟩ := Prod.mk.inj h
  have hclosed := closed_of_fault hl
  exact ⟨rfl, u, hclosed, (cons.inj htext).2.symm, by rw [if_pos hclosed]⟩

end Lexeme
end LiveEdit
