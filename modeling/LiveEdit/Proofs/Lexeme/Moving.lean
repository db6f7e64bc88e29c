import LiveEdit.Proofs.Lexeme.Joining
import LiveEdit.Proofs.Text.Moving

/-! Moving a text out keeps its tokens, as long as no line break in a string is written anew. -/

namespace LiveEdit.Unwrapping
open List Option
open Text Lexeme

variable {t r r' x y : Text} {us : List Lexeme} {l : Lexeme} {c : Char} {n : Nat} {s : Settings}

lemma moved_nil (s : Settings) : moved s [] = [] := rfl

lemma moved_cons (hc : isBlank c = false) (s : Settings) (t : Text) :
    moved s (c :: t) = c :: moved s t :=
  move_cons hc t

lemma exists_moved (hc : isBlank c = true) (s : Settings) (t : Text) : ∃ d u,
      moved s (c :: t) = d :: u ∧ isBlank d = true ∧ (isNewline c = true → isNewline d = true) := by
  have hbreak : ∀ u, ∃ d v, s.newline.text ++ u = d :: v ∧ isBlank d = true ∧
      isNewline d = true := by
    intro u
    cases s.newline
    · exact ⟨'\n', u, rfl, by decide, by decide⟩
    · exact ⟨'\r', '\n' :: u, rfl, by decide, by decide⟩
  unfold moved
  generalize hn : (0 : Nat) = n
  generalize hu : c :: t = u
  fun_cases move s.newline.text s.indentation.width n u with
  | case1 => cases hu
  | case2 n u =>
    obtain ⟨d, v, heq, hd, hline⟩ :=
      hbreak (move s.newline.text s.indentation.width s.indentation.width u)
    exact ⟨d, v, heq, hd, fun _ => hline⟩
  | case3 n u =>
    obtain ⟨d, v, heq, hd, hline⟩ :=
      hbreak (move s.newline.text s.indentation.width s.indentation.width u)
    exact ⟨d, v, heq, hd, fun _ => hline⟩
  | case4 => cases hn
  | case5 => cases hn
  | case6 n d u =>
    obtain ⟨rfl, rfl⟩ := cons.inj hu
    exact ⟨c, _, rfl, hc, id⟩

lemma head?_moved (hr : ∀ a ∈ r.head?, isBlank a = false) (s : Settings) :
    (moved s r).head? = r.head? := by
  cases r with
  | nil => rfl
  | cons c r => rw [moved_cons (hr c rfl)]; rfl

lemma sameAhead_moved (hr : ∀ a ∈ r.head?, isBlank a = false) (s : Settings) :
    SameAhead r (moved s r) := by
  refine ⟨head?_moved hr s, fun hdot => ?_⟩
  obtain ⟨u, rfl⟩ := List.head?_eq_some_iff.1 hdot
  rw [moved_cons (by decide)]
  change (moved s u).head?.any Char.isDigit = u.head?.any Char.isDigit
  cases u with
  | nil => rfl
  | cons c u =>
    cases hc : isBlank c with
    | false => rw [moved_cons hc]; rfl
    | true =>
      have hdigit : ∀ a, isBlank a = true → a.isDigit = false := by
        intro a ha
        exact (goesOn_blank ⟨.dot, ['.'], none⟩ ha : _)
      obtain ⟨d, v, heq, hd, -⟩ := exists_moved hc s u
      rw [heq]
      exact (hdigit d hd).trans (hdigit c hc).symm

lemma scan_moved (h : scan c (x ++ r) = (l, r)) (hf : l.fault = none)
    (hblank : l.kind ≠ .whitespace) (s : Settings) : scan c (x ++ moved s r) = (l, moved s r) := by
  cases r with
  | nil => exact h
  | cons d r =>
    cases hd : isBlank d with
    | false => exact scan_congr h (sameAhead_moved (by simpa using hd) s)
    | true =>
      obtain ⟨a, u, heq, ha, hline⟩ := exists_moved hd s r
      rw [heq]
      refine scan_of_apart h hf hblank ⟨fun b hb => ?_, fun hk b hb => ?_⟩
      · obtain rfl := some.inj hb
        exact goesOn_blank l ha
      · obtain rfl := some.inj hb
        exact hline ((seals_of_trivia h (by rw [hk]; rfl) hf).newline hk d rfl)

lemma commentBody_cons (hc : c = '*' → t.head? ≠ some '/') :
    commentBody (c :: t) = (commentBody t).push c := by
  rw [commentBody]
  rintro u rfl rfl
  exact hc rfl rfl

lemma commentBody_newline (s : Settings) (t : Text) : commentBody (s.newline.text ++ t) =
    ⟨s.newline.text ++ (commentBody t).taken, (commentBody t).closed, (commentBody t).rest⟩ := by
  cases s.newline <;> rfl

lemma commentBody_move (h : (commentBody t).closed = true) (s : Settings) (n : Nat) (r : Text) :
    commentBody (move s.newline.text s.indentation.width n (commentBody t).taken ++ r) =
      ⟨move s.newline.text s.indentation.width n (commentBody t).taken, true, r⟩ := by
  fun_induction commentBody t generalizing n with
  | case1 => cases h
  | case2 t => rw [move_cons (by decide), move_cons (by decide)]; rfl
  | case3 c t hclose ih =>
    have htext := commentBody_text t
    have hne := commentBody_taken_ne_nil h
    have hmore := ih h
    change commentBody (move _ _ n (c :: (commentBody t).taken) ++ r) =
      ⟨move _ _ n (c :: (commentBody t).taken), true, r⟩
    generalize hu : c :: (commentBody t).taken = u
    generalize (commentBody t).taken = y at hmore hne htext hu
    fun_cases move s.newline.text s.indentation.width n u with
    | case1 => cases hu
    | case2 n u =>
      obtain ⟨rfl, rfl⟩ := cons.inj hu
      rw [append_assoc, commentBody_newline, hmore]
    | case3 n u =>
      obtain ⟨rfl, rfl⟩ := cons.inj hu
      exact hmore 0
    | case4 n u =>
      obtain ⟨rfl, rfl⟩ := cons.inj hu
      exact hmore n
    | case5 n u =>
      obtain ⟨rfl, rfl⟩ := cons.inj hu
      exact hmore 0
    | case6 n d u =>
      obtain ⟨rfl, rfl⟩ := cons.inj hu
      -- no white space is lost between a star and a slash
      have hstar : c = '*' → (moved s y ++ r).head? ≠ some '/' := by
        rintro rfl
        obtain ⟨a, z, rfl⟩ := exists_cons_of_ne_nil hne
        cases ha : isBlank a with
        | false =>
          rw [moved_cons ha]
          intro hslash
          obtain rfl : a = '/' := some.inj hslash
          exact hclose _ rfl htext.symm
        | true =>
          obtain ⟨b, v, heq, hb, -⟩ := exists_moved ha s z
          rw [heq]
          intro hslash
          obtain rfl : b = '/' := some.inj hslash
          exact absurd hb (by decide)
      refine (commentBody_cons hstar).trans ?_
      rw [moved, hmore]
      rfl

lemma not_newline_of_wordPart (hc : isWordPart c = true) : isNewline c = false := by
  apply Bool.eq_false_iff.2
  intro hline
  simp only [isNewline, Bool.or_eq_true, decide_eq_true_eq] at hline
  rcases hline with rfl | rfl <;> exact absurd hc (by decide)

lemma not_newline_of_number (h : (number t).closed = true) :
    ∀ a ∈ (number t).taken, isNewline a = false := by
  have hdigits : ∀ u : Text, ∀ a ∈ u.takeWhile isDigitPart, isNewline a = false := fun u a ha =>
    not_newline_of_wordPart (isWordPart_of_digitPart (mem_takeWhile_imp ha))
  have htail : numberTail (fraction (t.dropWhile isDigitPart)).rest = [] := isEmpty_iff.1 h
  have hfraction : ∀ a ∈ (fraction (t.dropWhile isDigitPart)).taken, isNewline a = false := by
    rcases fraction_cases (t.dropWhile isDigitPart) with ⟨-, hnil⟩ | ⟨d, u, -, -, htaken⟩
    · rw [hnil]
      exact forall_mem_nil _
    · rw [htaken]
      exact forall_mem_cons.2 ⟨by decide, hdigits _⟩
  intro a ha
  simp only [number, htail, append_nil, mem_append] at ha
  exact ha.elim (hdigits t a) (hfraction a)

lemma not_newline_of_scan (h : scan c t = (l, r)) (hf : l.fault = none)
    (hk : l.kind ∉ [.whitespace, .blockComment, .string]) : ∀ a ∈ l.text, isNewline a = false := by
  unfold scan at h
  cases hlead : Leading.of c t.head? <;> rw [hlead] at h <;> dsimp only at h <;>
    obtain ⟨rfl, rfl⟩ := Prod.mk.inj h <;> dsimp only at hk hf ⊢
  case lineComment =>
    obtain ⟨rfl, -⟩ := leading_lineComment hlead
    refine forall_mem_cons.2 ⟨by decide, fun a ha => ?_⟩
    simpa using mem_takeWhile_imp ha
  case punctuation k =>
    refine forall_mem_singleton.2 ?_
    have hmark := leading_punctuation hlead
    unfold punctuation? at hmark
    split at hmark <;> first | rfl | cases hmark
  case word =>
    refine forall_mem_cons.2 ⟨not_newline_of_start (leading_word hlead).2.2, fun a ha => ?_⟩
    exact not_newline_of_wordPart (mem_takeWhile_imp ha)
  case number =>
    exact not_newline_of_number (closed_of_fault hf)
  case other => cases hf
  all_goals exact absurd (by decide) hk

lemma moved_line (hx : ∀ a ∈ x, isNewline a = false) (s : Settings) (r : Text) :
    moved s (x ++ r) = x ++ moved s r :=
  move_line hx r

lemma moved_self (hx : ∀ a ∈ x, isNewline a = false) (s : Settings) : moved s x = x := by
  have hself := moved_line hx s []
  rwa [append_nil, moved_nil, append_nil] at hself

def shift (s : Settings) (l : Lexeme) : Lexeme := { l with text := moved s l.text }

lemma shift_eq (h : scan c t = (l, r)) (hf : l.fault = none) (hspace : l.kind ≠ .whitespace)
    (hcomment : l.kind ≠ .blockComment) (hkept : l.kind = .string → moved s l.text = l.text) :
    shift s l = l := by
  have hself : moved s l.text = l.text := by
    by_cases hstring : l.kind = .string
    · exact hkept hstring
    · exact moved_self (not_newline_of_scan h hf (by simp [hspace, hcomment, hstring])) s
  rw [shift, hself]

lemma moved_append (h : scan c (x ++ r) = (l, r)) (hl : l.text = c :: x) (hf : l.fault = none)
    (s : Settings) : moved s (l.text ++ r) = moved s l.text ++ moved s r := by
  by_cases hspace : l.kind = .whitespace
  · exact move_append_of_head ((seals_of_trivia h (by rw [hspace]; rfl) hf).nonblank hspace)
  by_cases hline : l.kind = .lineComment
  · have hnone := not_newline_of_scan h hf (by rw [hline]; decide)
    rw [moved_line hnone, moved_self hnone]
  · refine move_append_of_last
      ⟨_, getLast?_eq_some_getLast (by rw [hl]; exact cons_ne_nil c x), ?_⟩ r
    exact not_blank_last h hf hspace hline _ (getLast?_eq_some_getLast _)

lemma scans_shift (h : scan c (x ++ r) = (l, r)) (hl : l.text = c :: x)
    (hf : l.fault = none) (hkept : l.kind = .string → moved s l.text = l.text) :
    Scans (moved s (l.text ++ r)) [shift s l] (moved s r) := by
  rw [moved_append h hl hf]
  by_cases hspace : l.kind = .whitespace
  · have hnonblank := (seals_of_trivia h (by rw [hspace]; rfl) hf).nonblank hspace
    have hscans : Scans (c :: (x ++ r)) [l] r := scans_one.2 ⟨c, x, hl, rfl, h⟩
    have hblank : l.text.Blank := hscans.blank rfl hf hspace
    have hone : shift s l = ⟨.whitespace, moved s l.text, none⟩ := by rw [shift, hspace, hf]
    rw [hone]
    refine scans_blank (isBlank_move (isBlank_newline s) hblank) ?_ ?_
    · obtain ⟨d, u, heq, -⟩ := exists_moved (hblank c (by rw [hl]; exact mem_cons_self)) s x
      rw [hl]
      rw [heq]
      exact cons_ne_nil d u
    · rw [head?_moved hnonblank]
      exact hnonblank
  by_cases hcomment : l.kind = .blockComment
  · obtain ⟨rfl, u, hclosed, rfl, rfl⟩ :=
      exists_commentBody h ((leading_of_scan h).trans (hcomment ▸ rfl)) hf
    have htext : moved s ('/' :: '*' :: (commentBody u).taken) =
        '/' :: '*' :: moved s (commentBody u).taken := by
      rw [moved_cons (by decide), moved_cons (by decide)]
    refine scans_one.2
      ⟨'/', '*' :: moved s (commentBody u).taken, htext, congrArg (· ++ moved s r) htext, ?_⟩
    rw [cons_append, scan_comment, moved, commentBody_move hclosed, shift, htext, if_pos rfl]
    rfl
  · have hself := shift_eq h hf hspace hcomment hkept
    have htext : moved s l.text = l.text := congrArg Lexeme.text hself
    rw [hself, htext, hl]
    exact scans_one.2 ⟨c, x, hl, rfl, scan_moved h hf hspace s⟩

lemma scans_shifts (h : Scans t us r) (hf : ∀ l ∈ us, l.fault = none)
    (hkept : ∀ l ∈ us, l.kind = .string → moved s l.text = l.text) :
    Scans (moved s t) (us.map (shift s)) (moved s r) ∧ tokens (us.map (shift s)) = tokens us := by
  induction us generalizing t with
  | nil =>
    cases h
    exact ⟨.done _, rfl⟩
  | cons l us ih =>
    have hsplit : Scans t ([l] ++ us) r := h
    obtain ⟨hone, hmore⟩ := hsplit.split
    obtain ⟨c, x, hl, rfl, hscan⟩ := scans_one.1 hone
    obtain ⟨hfirst, hf⟩ := forall_mem_cons.1 hf
    obtain ⟨hkept', hkept⟩ := forall_mem_cons.1 hkept
    obtain ⟨hscans, htokens⟩ := ih hmore hf hkept
    have hstep := scans_shift hscan hl hfirst hkept'
    rw [hl] at hstep
    refine ⟨hstep.append hscans, ?_⟩
    have htoken : tokens [shift s l] = tokens [l] := by
      cases htrivia : l.kind.isTrivia with
      | true => rw [tokens_singleton htrivia, tokens_singleton (l := shift s l) htrivia]
      | false =>
        rw [shift_eq hscan hfirst _ _ hkept']
        all_goals rintro hk; rw [hk] at htrivia; cases htrivia
    calc tokens ([shift s l] ++ us.map (shift s)) =
      tokens [shift s l] ++ tokens (us.map (shift s)) := tokens_append ..
      _ = tokens [l] ++ tokens us := by rw [htoken, htokens]
      _ = tokens ([l] ++ us) := (tokens_append ..).symm

lemma dropEnd_of_last (ht : ∀ a ∈ t.getLast?, isBlank a = false) : dropEnd isBlank t = t := by
  have hself := dropEnd_append (p := isBlank) (x := t) (w := []) fun _ => ht
  rwa [append_nil, show dropEnd isBlank [] = [] from rfl, append_nil] at hself

lemma dropEnd_blank (hx : x.Blank) (t : Text) : dropEnd isBlank (t ++ x) = dropEnd isBlank t := by
  rw [dropEnd, reverse_append, dropWhile_append_of_pos fun a ha => hx a (mem_reverse.1 ha), dropEnd]

lemma exists_dropEnd_line (h : scan c (x ++ []) = (l, [])) (hl : l.text = c :: x)
    (hk : l.kind = .lineComment) :
    ∃ y, l.text = '/' :: y ∧ dropEnd isBlank l.text = '/' :: dropEnd isBlank y ∧
    Scans ('/' :: dropEnd isBlank y) [⟨.lineComment, '/' :: dropEnd isBlank y, none⟩] [] := by
  obtain ⟨rfl, ⟨y, rfl⟩, hx⟩ := scan_line h hk
  refine ⟨'/' :: y, hl, by rw [hl, dropEnd_cons (by decide)], ?_⟩
  rw [dropEnd_cons (by decide)]
  have hkeep : ∀ a ∈ '/' :: dropEnd isBlank y, (!isNewline a) = true := by
    refine forall_mem_cons.2 ⟨by decide, fun a ha => ?_⟩
    have hmem : a ∈ y := mem_reverse.1 ((dropWhile_sublist _).subset (mem_reverse.1 ha))
    rw [hx a (mem_cons_of_mem _ hmem)]
    rfl
  have hrun := run_append hkeep (r := []) (by simp)
  rw [append_nil] at hrun
  refine scans_one.2 ⟨'/', '/' :: dropEnd isBlank y, rfl, (append_nil _).symm, ?_⟩
  rw [append_nil]
  unfold scan
  rw [show Leading.of '/' ('/' :: dropEnd isBlank y).head? = .lineComment from rfl]
  dsimp only
  rw [hrun.1, hrun.2]

lemma exists_dropEnd (h : Scans t us []) (hf : ∀ l ∈ us, l.fault = none) :
    ∃ vs, Scans (dropEnd isBlank t) vs [] ∧ tokens vs = tokens us ∧ (∀ l ∈ vs, l.fault = none) ∧
      ∀ l ∈ vs, l.kind = .string → l ∈ us := by
  induction us using reverseRecOn generalizing t with
  | nil =>
    cases h
    exact ⟨[], .done _, rfl, forall_mem_nil _, by simp⟩
  | append_singleton us l ih =>
    obtain ⟨hus, hone⟩ := h.split
    obtain ⟨hf', hl⟩ := forall_mem_append.1 hf
    rw [forall_mem_singleton] at hl
    have htext := h.text
    rw [append_nil, spell_append, spell_singleton] at htext
    obtain ⟨c, x, hcons, -, hscan⟩ := scans_one.1 hone
    by_cases hspace : l.kind = .whitespace
    · have hblank : l.text.Blank := hone.blank rfl hl hspace
      have hfront : Scans (spell us ++ []) us [] := hus.rescan fun _ _ _ _ hscan => scan_alone hscan
      rw [append_nil] at hfront
      obtain ⟨vs, hscans, htokens, hfault, hmem⟩ := ih hfront hf'
      refine ⟨vs, by rwa [htext, dropEnd_blank hblank], ?_, hfault,
        fun u hu hk => mem_append_left _ (hmem u hu hk)⟩
      rw [htokens, tokens_append, tokens_singleton (by rw [hspace]; rfl), append_nil]
    by_cases hline : l.kind = .lineComment
    · obtain ⟨y, hy, hdrop, hscans⟩ := exists_dropEnd_line hscan hcons hline
      have hfront : Scans (spell us ++ '/' :: dropEnd isBlank y) us ('/' :: dropEnd isBlank y) := by
        refine hus.rescan fun u hu d z hscan => scan_congr hscan ?_
        rw [spell_singleton, hy]
        exact ⟨rfl, fun hdot => absurd hdot (by simp)⟩
      refine ⟨us ++ [⟨.lineComment, '/' :: dropEnd isBlank y, none⟩], ?_, ?_, ?_, ?_⟩
      · rw [htext, dropEnd_append fun hall => ?_, hdrop]
        · exact hfront.append hscans
        · have hslash := hall '/' (by rw [hy]; exact mem_cons_self)
          exact absurd hslash (by decide)
      · rw [tokens_append, tokens_append, tokens_singleton rfl,
          tokens_singleton (by rw [hline]; rfl)]
      · exact forall_mem_append.2 ⟨hf', forall_mem_singleton.2 rfl⟩
      · intro u hu hk
        rcases mem_append.1 hu with hu | hu
        · exact mem_append_left _ hu
        · rw [mem_singleton.1 hu] at hk
          cases hk
    · refine ⟨us ++ [l], ?_, rfl, hf, fun u hu _ => hu⟩
      rwa [dropEnd_of_last]
      intro a ha
      rw [htext, hcons, List.getLast?_append_cons] at ha
      exact not_blank_last hscan hl hspace hline a (by rwa [hcons])

lemma head?_dropEnd (ht : ∀ a ∈ t.head?, isBlank a = false) :
    ∀ a ∈ (dropEnd isBlank t).head?, isBlank a = false := by
  intro a ha
  obtain ⟨u, hu⟩ := List.head?_eq_some_iff.1 ha
  refine ht a ?_
  rw [← dropEnd_append_takeEnd isBlank t, hu]
  rfl

lemma tokens_contents (hf : ∀ l ∈ ofText t, l.fault = none)
    (hkept : ∀ l ∈ ofText t, l.kind = .string → moved s l.text = l.text) :
    (∀ l ∈ ofText (contents s t), l.fault = none) ∧
    tokens (ofText (contents s t)) = tokens (ofText t) := by
  obtain ⟨ws, -, hfront⟩ := exists_dropBlank t
  have hsub : ∀ l ∈ ofText (t.dropWhile isBlank), l ∈ ofText t := fun l hl => by
    rw [hfront]
    exact mem_append_right _ hl
  obtain ⟨vs, hvs, htokens, hfault, hmem⟩ :=
    exists_dropEnd (scans_ofText (t.dropWhile isBlank)) fun l hl => hf l (hsub l hl)
  obtain ⟨hscans, hshift⟩ :=
    scans_shifts hvs hfault fun l hl hk => hkept l (hsub l (hmem l hl hk)) hk
  have hcore := hscans.ofText
  have hhead := head?_dropEnd (head?_dropWhile isBlank t)
  obtain ⟨z, hz, heq⟩ := contents_eq s t
  rw [heq]
  constructor
  · have hdrop : (z ++ moved s (dropEnd isBlank (t.dropWhile isBlank))).dropWhile isBlank =
        moved s (dropEnd isBlank (t.dropWhile isBlank)) :=
      (run_append hz (by rwa [head?_moved hhead])).2
    obtain ⟨us, hus, htext⟩ :=
      exists_dropBlank (z ++ moved s (dropEnd isBlank (t.dropWhile isBlank)))
    rw [htext, hdrop, hcore]
    refine forall_mem_append.2 ⟨fun l hl => (hus l hl).2, fun l hl => ?_⟩
    obtain ⟨u, hu, rfl⟩ := mem_map.1 hl
    exact hfault u hu
  · rw [tokens_blank hz, hcore, hshift, htokens, tokens_dropBlank]

end LiveEdit.Unwrapping
