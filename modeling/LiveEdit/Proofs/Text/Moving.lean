import LiveEdit.Proofs.Text.Trimming

namespace LiveEdit.Unwrapping
open List Option
open Text

def move (newline : Text) (width : Nat) : Nat → Text → Text
  | _, [] => []
  | _, '\n' :: t => newline ++ move newline width width t
  | _, '\r' :: '\n' :: t => newline ++ move newline width width t
  | n + 1, ' ' :: t => move newline width n t
  | _ + 1, '\t' :: t => move newline width 0 t
  | _, c :: t => c :: move newline width 0 t

variable {newline t u v : Text} {width n : Nat} {c : Char}

lemma move_feed :
    move newline width n ('\n' :: t) = newline ++ move newline width width t := by cases n <;> rfl

lemma move_return :
    move newline width n ('\r' :: '\n' :: t) = newline ++ move newline width width t := by
  cases n <;> rfl

structure Stays (n : Nat) (c : Char) (t : Text) : Prop where
  feed : c ≠ '\n'
  pair : ∀ u, t = '\n' :: u → c ≠ '\r'
  space : n ≠ 0 → c ≠ ' ' ∧ c ≠ '\t'

lemma move_stays (h : Stays n c t) :
    move newline width n (c :: t) = c :: move newline width 0 t := by
  rw [move]
  · exact h.feed
  · exact fun u hc ht => h.pair u ht hc
  · exact fun k hn => (h.space (hn ▸ Nat.succ_ne_zero k)).1
  · exact fun k hn => (h.space (hn ▸ Nat.succ_ne_zero k)).2

lemma move_induction (width : Nat) {motive : Nat → Text → Prop}
    (nil : ∀ n, motive n []) (feed : ∀ n t, motive width t → motive n ('\n' :: t))
    (pair : ∀ n t, motive width t → motive n ('\r' :: '\n' :: t))
    (space : ∀ n t, motive n t → motive (n + 1) (' ' :: t))
    (tab : ∀ n t, motive 0 t → motive (n + 1) ('\t' :: t))
    (stays : ∀ n c t, Stays n c t → motive 0 t → motive n (c :: t)) (n : Nat) (t : Text) :
    motive n t := by
  induction n, t using move.induct width with
  | case1 n => exact nil n
  | case2 n t ih => exact feed n t ih
  | case3 n t ih => exact pair n t ih
  | case4 n t ih => exact space n t ih
  | case5 n t ih => exact tab n t ih
  | case6 n c t hfeed hreturn hspace htab ih =>
    refine stays n c t ⟨hfeed, fun u ht hc => hreturn u hc ht, fun hn => ?_⟩ ih
    obtain ⟨k, hk⟩ := Nat.exists_eq_succ_of_ne_zero hn
    exact ⟨hspace k hk, htab k hk⟩

def outdent (width n : Nat) : List Text → List Text
  | [] => []
  | line :: more => dedent n line :: more.map (dedent width)

lemma lines_cons (hc : c ≠ '\n') (hbreak : ∀ u, t = '\n' :: u → c ≠ '\r') :
    lines (c :: t) = match lines t with
      | [] => [[c]]
      | line :: more => (c :: line) :: more :=
  lines.eq_4 c t hc fun u hreturn hfeed => hbreak u hfeed hreturn

lemma lines_ne_nil (ht : t ≠ []) : lines t ≠ [] := by
  fun_cases lines t <;> simp_all

lemma getLast?_ne_of_cons (h : (c :: t).getLast? ≠ some '\n') : t.getLast? ≠ some '\n' := by
  cases t with
  | nil => simp
  | cons d t => rwa [getLast?_cons_cons] at h

lemma intercalate_cons (c : Char) (line : Text) (more : List Text) :
    intercalate newline ((c :: line) :: more) = c :: intercalate newline (line :: more) := by
  cases more <;> rfl

lemma dedent_cons (hc : n ≠ 0 → c ≠ ' ' ∧ c ≠ '\t') (line : Text) :
    dedent n (c :: line) = c :: line := by
  rw [dedent]
  · exact fun k u hn heq => (hc (hn ▸ Nat.succ_ne_zero k)).1 (cons.inj heq).1
  · exact fun k u hn heq => (hc (hn ▸ Nat.succ_ne_zero k)).2 (cons.inj heq).1

lemma intercalate_outdent (ht : t.getLast? ≠ some '\n') :
    intercalate newline (outdent width n (lines t)) = move newline width n t := by
  have hbreak : ∀ {t : Text}, t ≠ [] → intercalate newline ([] :: (lines t).map (dedent width)) =
      newline ++ intercalate newline (outdent width width (lines t)) := by
    intro t hne
    obtain ⟨line, more, hlines⟩ := exists_cons_of_ne_nil (lines_ne_nil hne)
    rw [hlines, map_cons, intercalate_cons_cons]
    rfl
  induction n, t using move_induction width with
  | nil n => rfl
  | feed n t ih =>
    have hne : t ≠ [] := by
      rintro rfl
      exact ht rfl
    rw [move_feed, ← ih (getLast?_ne_of_cons ht), ← hbreak hne, lines, outdent]
    cases n <;> rfl
  | pair n t ih =>
    have hne : t ≠ [] := by
      rintro rfl
      exact ht rfl
    rw [move_return, ← ih (getLast?_ne_of_cons (getLast?_ne_of_cons ht)), ← hbreak hne,
      lines, outdent]
    cases n <;> rfl
  | space n t ih =>
    refine Eq.trans ?_ (ih (getLast?_ne_of_cons ht))
    rw [lines_cons (by decide) fun _ _ => by decide]
    cases lines t <;> cases n <;> rfl
  | tab n t ih =>
    refine Eq.trans ?_ (ih (getLast?_ne_of_cons ht))
    rw [lines_cons (by decide) fun _ _ => by decide]
    cases lines t <;> cases n <;> rfl
  | stays n c t hc ih =>
    have hkeep : ∀ line, dedent n (c :: line) = c :: line := fun line => dedent_cons hc.space line
    rw [move_stays hc, ← ih (getLast?_ne_of_cons ht), lines_cons hc.feed hc.pair]
    cases hlines : lines t with
    | nil => exact congrArg (intercalate newline [·]) (hkeep [])
    | cons line more =>
      have hstart : dedent 0 line = line := by rw [dedent] <;> simp
      rw [outdent, outdent, hkeep, hstart, intercalate_cons]

lemma ne_of_not_blank (hc : isBlank c = false) : c ≠ '\n' ∧ c ≠ '\r' ∧ c ≠ ' ' ∧ c ≠ '\t' := by
  refine ⟨?_, ?_, ?_, ?_⟩ <;> rintro rfl <;> exact absurd hc (by decide)

lemma move_cons (hc : isBlank c = false) (t : Text) :
    move newline width n (c :: t) = c :: move newline width 0 t := by
  obtain ⟨hfeed, hreturn, hspace⟩ := ne_of_not_blank hc
  exact move_stays ⟨hfeed, fun _ _ => hreturn, fun _ => hspace⟩

lemma move_append_of_head (hv : ∀ c ∈ v.head?, isBlank c = false) :
    move newline width n (u ++ v) = move newline width n u ++ move newline width 0 v := by
  induction n, u using move_induction width with
  | nil n =>
    cases v with
    | nil => cases n <;> rfl
    | cons c v =>
      rw [nil_append, move_cons (hv c rfl), move_cons (hv c rfl)]
      cases n <;> rfl
  | feed n u ih => rw [cons_append, move_feed, move_feed, ih, append_assoc]
  | pair n u ih => rw [cons_append, cons_append, move_return, move_return, ih, append_assoc]
  | space n u ih => exact ih
  | tab n u ih => exact ih
  | stays n c u hc ih =>
    have hstays : Stays n c (u ++ v) := by
      refine ⟨hc.feed, fun w hw => ?_, hc.space⟩
      cases u with
      | nil => exact absurd rfl (ne_of_not_blank (hv '\n' (by rw [show v = _ from hw]; rfl))).1
      | cons d u => exact hc.pair u (by rw [(cons.inj hw).1])
    rw [cons_append, move_stays hstays, move_stays hc, ih, cons_append]

lemma exists_last_of_cons {p : Char → Prop} (hu : ∃ a ∈ (c :: u).getLast?, p a) (hc : ¬ p c) :
    ∃ a ∈ u.getLast?, p a := by
  obtain ⟨a, ha, hp⟩ := hu
  cases u with
  | nil =>
    obtain rfl := some.inj ha
    exact absurd hp hc
  | cons d u => exact ⟨a, by rwa [getLast?_cons_cons] at ha, hp⟩

lemma move_append_of_last (hu : ∃ a ∈ u.getLast?, isBlank a = false) (v : Text) :
    move newline width n (u ++ v) = move newline width n u ++ move newline width 0 v := by
  induction n, u using move_induction width with
  | nil n =>
    obtain ⟨a, ha, -⟩ := hu
    cases ha
  | feed n u ih =>
    rw [cons_append, move_feed, move_feed, ih (exists_last_of_cons hu (by decide)), append_assoc]
  | pair n u ih =>
    have hlast := exists_last_of_cons (exists_last_of_cons hu (by decide)) (by decide)
    rw [cons_append, cons_append, move_return, move_return, ih hlast, append_assoc]
  | space n u ih => exact ih (exists_last_of_cons hu (by decide))
  | tab n u ih => exact ih (exists_last_of_cons hu (by decide))
  | stays n c u hc ih =>
    cases u with
    | nil =>
      obtain ⟨a, ha, hnot⟩ := hu
      obtain rfl : c = a := some.inj ha
      rw [singleton_append, move_cons hnot, move_cons hnot]
      rfl
    | cons d u =>
      obtain ⟨a, ha, hnot⟩ := hu
      rw [getLast?_cons_cons] at ha
      have hstays : Stays n c (d :: u ++ v) :=
        ⟨hc.feed, fun w hw => hc.pair u (by rw [(cons.inj hw).1]), hc.space⟩
      rw [cons_append, move_stays hstays, move_stays hc, ih ⟨a, ha, hnot⟩, cons_append]

lemma move_line (hu : ∀ a ∈ u, isNewline a = false) (v : Text) :
    move newline width 0 (u ++ v) = u ++ move newline width 0 v := by
  induction u with
  | nil => rfl
  | cons c u ih =>
    obtain ⟨hc, hu⟩ := forall_mem_cons.1 hu
    have hstays : Stays 0 c (u ++ v) := by
      refine ⟨?_, fun _ _ => ?_, fun h => absurd rfl h⟩
      all_goals
        rintro rfl
        cases hc
    rw [cons_append, move_stays hstays, ih hu, cons_append]

lemma isBlank_move (hnewline : newline.Blank) (ht : t.Blank) :
    ∀ a ∈ move newline width n t, isBlank a = true := by
  induction n, t using move_induction width with
  | nil n => cases n <;> exact forall_mem_nil _
  | feed n t ih =>
    rw [move_feed]
    exact forall_mem_append.2 ⟨hnewline, ih (forall_mem_cons.1 ht).2⟩
  | pair n t ih =>
    rw [move_return]
    exact forall_mem_append.2 ⟨hnewline, ih (forall_mem_cons.1 (forall_mem_cons.1 ht).2).2⟩
  | space n t ih => exact ih (forall_mem_cons.1 ht).2
  | tab n t ih => exact ih (forall_mem_cons.1 ht).2
  | stays n c t hstays ih =>
    obtain ⟨hc, ht⟩ := forall_mem_cons.1 ht
    rw [move_stays hstays]
    exact forall_mem_cons.2 ⟨hc, ih ht⟩

lemma isBlank_newline (settings : Settings) : settings.newline.text.Blank := by
  cases settings.newline <;> exact all_eq_true.1 (by decide)

def moved (settings : Settings) (t : Text) : Text :=
  move settings.newline.text settings.indentation.width 0 t

lemma exists_cons_of_blank (hv : ∀ a ∈ v.head?, isBlank a = false) (hc : isBlank c = true)
    (h : u ++ v = c :: t) : ∃ w, u = c :: w ∧ t = w ++ v := by
  cases u with
  | nil =>
    have hnot := hv c (by rw [show v = _ from h]; rfl)
    rw [hc] at hnot
    cases hnot
  | cons d w =>
    obtain ⟨rfl, rfl⟩ := cons.inj h
    exact ⟨w, rfl, rfl⟩

lemma exists_dropBreak (hu : u.Blank) (hv : ∀ a ∈ v.head?, isBlank a = false) :
    ∃ w, w.Blank ∧ dropBreak (u ++ v) = w ++ v := by
  unfold dropBreak
  split
  · next t heq =>
    obtain ⟨w, rfl, rfl⟩ := exists_cons_of_blank hv (by decide) heq
    exact ⟨w, (forall_mem_cons.1 hu).2, rfl⟩
  · next t heq =>
    obtain ⟨w, rfl, hw⟩ := exists_cons_of_blank hv (by decide) heq
    obtain ⟨w, rfl, rfl⟩ := exists_cons_of_blank hv (by decide) hw.symm
    exact ⟨w, (forall_mem_cons.1 (forall_mem_cons.1 hu).2).2, rfl⟩
  · exact ⟨u, hu, rfl⟩

lemma dropEnd_cons (hc : isBlank c = false) (t : Text) :
    dropEnd isBlank (c :: t) = c :: dropEnd isBlank t :=
  dropEnd_append (x := [c]) fun _ _ ha => some.inj ha ▸ hc

lemma contents_eq_move (settings : Settings) (body : Text) : contents settings body =
    (move settings.newline.text settings.indentation.width settings.indentation.width
      (dropEnd isBlank (dropBreak (body.dropWhile isSpace)))).dropWhile isSpace := by
  obtain ⟨tail, -, htail⟩ := exists_runBefore isBlank true (dropBreak (body.dropWhile isSpace))
  have hlast : (dropEnd isBlank (dropBreak (body.dropWhile isSpace))).getLast? ≠ some '\n' :=
    fun hfeed => absurd (htail.2 '\n' hfeed) (by decide)
  rw [contents, bodyLines, ← intercalate_outdent hlast]
  cases lines (dropEnd isBlank (dropBreak (body.dropWhile isSpace))) <;> rfl

lemma contents_eq (settings : Settings) (t : Text) : ∃ z, z.Blank ∧
    contents settings t = z ++ moved settings (dropEnd isBlank (t.dropWhile isBlank)) := by
  have hsplit : t.takeWhile isBlank ++ t.dropWhile isBlank = t := takeWhile_append_dropWhile
  have hhead : ∀ a ∈ (t.dropWhile isBlank).head?, isBlank a = false := by
    intro a ha
    have hnot := head?_dropWhile_not isBlank t
    rw [mem_def.1 ha] at hnot
    simpa using hnot
  generalize t.dropWhile isBlank = v at hsplit hhead ⊢
  have hspace : ∀ a ∈ v.head?, isSpace a = false := fun a ha =>
    Bool.eq_false_iff.2 fun hs => Bool.false_ne_true ((hhead a ha).symm.trans (isBlank_of_space hs))
  obtain ⟨w, hw, hbreak⟩ : ∃ w, w.Blank ∧
      dropBreak (t.dropWhile isSpace) = w ++ v := by
    rw [← hsplit, dropWhile_append_of_head hspace]
    refine exists_dropBreak (fun a ha => ?_) hhead
    exact mem_takeWhile_imp ((dropWhile_sublist _).subset ha)
  rw [contents_eq_move, hbreak]
  cases v with
  | nil =>
    have hnone : dropEnd isBlank (w ++ []) = [] := by
      rw [dropEnd, append_nil, dropWhile_eq_nil_iff.2 fun a ha => hw a (mem_reverse.1 ha)]
      rfl
    rw [hnone]
    exact ⟨[], forall_mem_nil _, rfl⟩
  | cons c v =>
    have hc := hhead c rfl
    have hfront : dropEnd isBlank (w ++ c :: v) = w ++ c :: dropEnd isBlank v := by
      rw [← dropEnd_cons hc]
      refine dropEnd_append fun hall => ?_
      rw [hall c mem_cons_self] at hc
      cases hc
    rw [hfront, dropEnd_cons hc]
    refine ⟨(move settings.newline.text
      settings.indentation.width settings.indentation.width w).dropWhile isSpace, fun a ha =>
      isBlank_move (isBlank_newline settings) hw a ((dropWhile_sublist _).subset ha), ?_⟩
    have hcore : ∀ a ∈ (c :: dropEnd isBlank v).head?, isBlank a = false :=
      fun _ ha => some.inj ha ▸ hc
    rw [move_append_of_head hcore, moved, move_cons hc]
    exact dropWhile_append_of_head (fun _ ha => some.inj ha ▸ hspace c rfl) _

end LiveEdit.Unwrapping
