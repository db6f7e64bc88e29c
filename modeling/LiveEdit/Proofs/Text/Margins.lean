import Mathlib.Data.List.Forall2
import LiveEdit.Proofs.Text.Moving

namespace LiveEdit
open List Option

namespace Text

variable {t : Text}

lemma dense_dropWhile_isSpace (t : Text) : dense (t.dropWhile isSpace) = dense t := by
  have hfront : dense (t.takeWhile isSpace) = [] := dense_of_blank fun c hc =>
    isBlank_of_space (mem_takeWhile_imp hc)
  have hparts := congrArg dense (takeWhile_append_dropWhile (p := isSpace) (l := t))
  rwa [dense_append, hfront, nil_append] at hparts

lemma flatMap_dense_lines (t : Text) : (lines t).flatMap dense = dense t := by
  fun_induction lines t with
  | case1 => rfl
  | case2 t ih => exact ih
  | case3 t ih => exact ih
  | case4 c t _ _ hlines ih =>
    rw [hlines] at ih
    exact (congrArg (dense [c] ++ ·) ih).trans (dense_append [c] t).symm
  | case5 c t _ _ line more hlines ih =>
    rw [hlines, flatMap_cons] at ih
    rw [flatMap_cons, show dense (c :: line) = dense [c] ++ dense line from dense_append [c] line,
      append_assoc, ih]
    exact (dense_append [c] t).symm

end Text

namespace Unwrapping
open Text

variable {width : Nat} {t line margin kept newline : Text}

def Fills (width : Nat) (margin : Text) : Prop := width ≤ margin.length ∨ '\t' ∈ margin

/-- A line loses the shortest margin that fills one level, or all the spaces and tabs at its start.
-/
structure Outdents (width : Nat) (line kept margin : Text) : Prop where
  line : line = margin ++ kept
  space : ∀ c ∈ margin, isSpace c = true
  shortest : ∀ m, m <+: margin → Fills width m → m = margin
  filled : Fills width margin ∨ ∀ c ∈ kept.head?, isSpace c = false

lemma Outdents.of_not_space (h : ∀ c ∈ line.head?, isSpace c = false) :
    Outdents width line line [] :=
  ⟨rfl, forall_mem_nil _, fun _ hm _ => prefix_nil.1 hm, .inr h⟩

lemma exists_outdents (width : Nat) (line : Text) :
    ∃ margin, Outdents width line (dedent width line) margin := by
  induction width generalizing line with
  | zero =>
    exact ⟨[], (by cases line <;> rfl), forall_mem_nil _, fun _ hm _ => prefix_nil.1 hm,
      .inl (.inl (Nat.zero_le _))⟩
  | succ n ih =>
    have hnil : ¬ Fills (n + 1) [] := by
      rintro (hle | hmem)
      · exact Nat.not_succ_le_zero n hle
      · cases hmem
    cases line with
    | nil => exact ⟨[], .of_not_space (by simp)⟩
    | cons c t =>
      by_cases hspace : c = ' '
      · subst hspace
        obtain ⟨margin, hline, hmargin, hshort, hfilled⟩ := ih t
        have hstep : ∀ m, Fills (n + 1) (' ' :: m) ↔ Fills n m := by
          intro m
          simp [Fills]
        refine ⟨' ' :: margin, congrArg (' ' :: ·) hline, forall_mem_cons.2 ⟨by decide, hmargin⟩,
          ?_, hfilled.imp_left (hstep margin).2⟩
        intro m hm hfills
        obtain rfl | ⟨m, rfl, hrest⟩ := prefix_cons_iff.1 hm
        · exact absurd hfills hnil
        · rw [hshort m hrest ((hstep m).1 hfills)]
      · by_cases htab : c = '\t'
        · subst htab
          refine ⟨['\t'], rfl, forall_mem_singleton.2 rfl, ?_, .inl (.inr mem_cons_self)⟩
          intro m hm hfills
          obtain rfl | ⟨m, rfl, hrest⟩ := prefix_cons_iff.1 hm
          · exact absurd hfills hnil
          · rw [prefix_nil.1 hrest]
        · rw [dedent_cons fun _ => ⟨hspace, htab⟩]
          refine ⟨[], .of_not_space fun d hd => ?_⟩
          obtain rfl := some.inj hd
          simp [isSpace, hspace, htab]

lemma dense_dedent (width : Nat) (line : Text) : dense (dedent width line) = dense line := by
  obtain ⟨margin, hline, hmargin, -, -⟩ := exists_outdents width line
  have hparts := congrArg dense hline
  rw [dense_append, dense_of_blank fun c hc => isBlank_of_space (hmargin c hc)] at hparts
  exact hparts.symm

structure Core (body lead feed core tail : Text) : Prop where
  text : body = lead ++ (feed ++ (core ++ tail))
  lead : IsRun isSpace true lead (feed ++ (core ++ tail)).head?
  feed : feed = ['\n'] ∨ feed = ['\r', '\n'] ∨
    feed = [] ∧ ∀ t, core ++ tail ≠ '\n' :: t ∧ core ++ tail ≠ '\r' :: '\n' :: t
  tail : IsRun isBlank true tail core.getLast?

lemma exists_feed (t : Text) :
    ∃ feed, t = feed ++ dropBreak t ∧ (feed = ['\n'] ∨ feed = ['\r', '\n'] ∨ feed = [] ∧
      ∀ u, dropBreak t ≠ '\n' :: u ∧ dropBreak t ≠ '\r' :: '\n' :: u) := by
  unfold dropBreak
  split
  · exact ⟨['\n'], rfl, .inl rfl⟩
  · exact ⟨['\r', '\n'], rfl, .inr (.inl rfl)⟩
  · next hfeed hreturn => exact ⟨[], rfl, .inr (.inr ⟨rfl, fun u => ⟨hfeed u, hreturn u⟩⟩)⟩

lemma exists_core (body : Text) : ∃ lead feed core tail, Core body lead feed core tail ∧
    dropEnd isBlank (dropBreak (body.dropWhile isSpace)) = core := by
  obtain ⟨lead, hbody, hlead⟩ := exists_runAfter isSpace true body
  obtain ⟨tail, hrest, htail⟩ := exists_runBefore isBlank true (dropBreak (body.dropWhile isSpace))
  obtain ⟨feed, hbreak, hfeed⟩ := exists_feed (body.dropWhile isSpace)
  simp only [if_true] at hbody hlead hrest htail
  refine ⟨lead, feed, _, tail, ⟨?_, ?_, ?_, htail⟩, rfl⟩
  · rw [← hrest, ← hbreak]
    exact hbody
  · rw [← hrest, ← hbreak]
    exact hlead
  · rw [← hrest]
    exact hfeed

/-- Lines moved out by one level and laid out anew. The first one loses all the spaces and tabs at
its start. -/
def Lays (settings : Settings) : List Text → Text → Prop
  | [], t => t = []
  | first :: more, t => ∃ rest,
    t = intercalate settings.newline.text (first.dropWhile isSpace :: rest) ∧
    List.Forall₂
    (fun line kept => ∃ margin, Outdents settings.indentation.width line kept margin) more rest

lemma dropWhile_dedent (width : Nat) (line : Text) :
    (dedent width line).dropWhile isSpace = line.dropWhile isSpace := by
  obtain ⟨margin, hline, hmargin, -, -⟩ := exists_outdents width line
  conv_rhs => rw [hline, dropWhile_append_of_pos hmargin]

lemma dropWhile_intercalate (settings : Settings) (first : Text) (more : List Text) :
    (intercalate settings.newline.text (first :: more)).dropWhile isSpace =
      intercalate settings.newline.text (first.dropWhile isSpace :: more) := by
  cases more with
  | nil => simp
  | cons line more =>
    rw [intercalate_cons_cons, intercalate_cons_cons, append_assoc, append_assoc]
    refine dropWhile_append_of_head (fun c hc => ?_) first
    cases hnewline : settings.newline <;> rw [hnewline] at hc <;> obtain rfl := some.inj hc <;> rfl

lemma lays_contents (settings : Settings) (body : Text) :
    Lays settings (bodyLines body) (contents settings body) := by
  rw [contents]
  cases bodyLines body with
  | nil => rfl
  | cons first more =>
    refine ⟨more.map (dedent settings.indentation.width), ?_, ?_⟩
    · rw [map_cons, dropWhile_intercalate, dropWhile_dedent]
    · exact forall₂_map_right_iff.2 (forall₂_same.2 fun line _ => exists_outdents _ line)

lemma dense_contents (settings : Settings) (body : Text) :
    dense (contents settings body) = dense body := by
  obtain ⟨lead, feed, core, tail, hcore, hlines⟩ := exists_core body
  have hbody : dense body = dense core := by
    have hfeed : dense feed = [] := by
      obtain rfl | rfl | ⟨rfl, -⟩ := hcore.feed <;> rfl
    rw [hcore.text, dense_append, dense_append, dense_append, hfeed,
      dense_of_blank fun c hc => isBlank_of_space (hcore.lead.1 c hc), dense_of_blank hcore.tail.1]
    simp
  rw [contents, dense_dropWhile_isSpace,
    dense_intercalate (dense_of_blank (isBlank_newline settings)), bodyLines, hlines, flatMap_map,
    hbody, ← flatMap_dense_lines core]
  exact flatMap_congr fun line _ => dense_dedent _ line

lemma isBlank_last_contents (settings : Settings) (body : Text) :
    ∀ c ∈ (contents settings body).getLast?, isBlank c = false := by
  obtain ⟨lead, feed, core, tail, hcore, heq⟩ := exists_core body
  rw [contents_eq_move, heq]
  rcases eq_nil_or_concat core with rfl | ⟨core, c, rfl⟩
  · intro c hc
    cases hc
  · have hc : isBlank c = false := hcore.tail.2 c (by simp)
    have hhead : ∀ d ∈ [c].head?, isBlank d = false := fun d hd => some.inj hd ▸ hc
    have hspace : ∀ d ∈ [c].head?, isSpace d = false := fun d hd => Bool.eq_false_iff.2 fun hs =>
      Bool.false_ne_true ((hhead d hd).symm.trans (isBlank_of_space hs))
    intro d hd
    rw [concat_eq_append, move_append_of_head hhead, move_cons hc, show move _ _ 0 [] = [] from rfl,
      dropWhile_append_of_head hspace, getLast?_concat] at hd
    exact some.inj hd ▸ hc

/-- What takes the place of a construct has all of its body but white space. It is laid out from the
lines of the core, and starts with no space and ends with no white space. -/
theorem edit?_lays {u : Unwrapping} {t : Text} (hstart : t.isBoundary u.body.start = true)
    (hstop : t.isBoundary u.body.stop = true) :
    ∃ e body lead feed core tail, t.slice? u.body = some body ∧ u.edit? t = some e ∧
    e.oldSpan = u.span ∧ dense e.inserted = dense body ∧
    (∀ c ∈ e.inserted.head?, isSpace c = false) ∧ (∀ c ∈ e.inserted.getLast?, isBlank c = false) ∧
    Core body lead feed core tail ∧ Lays u.settings (lines core) e.inserted := by
  obtain ⟨body, hbody⟩ := exists_slice? hstart hstop
  obtain ⟨lead, feed, core, tail, hcore, heq⟩ := exists_core body
  obtain ⟨_, -, hhead⟩ := exists_runAfter isSpace true (List.intercalate u.settings.newline.text
    ((bodyLines body).map (dedent u.settings.indentation.width)))
  have hlays := lays_contents u.settings body
  rw [bodyLines, heq] at hlays
  refine ⟨⟨u.span.start, u.span.size, contents u.settings body⟩, body, lead, feed, core, tail,
    hbody, ?_, ?_, dense_contents _ _, hhead.2, isBlank_last_contents _ _, hcore, hlays⟩
  · rw [edit?, hbody]
    rfl
  · exact Span.eq_of_ends rfl (Nat.add_sub_cancel' u.span.le)

theorem edit?_lays_mixed :
    isBoundary ['{', '\r', '\n', '\t', 'é', '\n', ' ', ' ', ' ', 'b', ' ', '}'] 1 = true ∧
    isBoundary ['{', '\r', '\n', '\t', 'é', '\n', ' ', ' ', ' ', 'b', ' ', '}'] 12 = true ∧
    ∃ e, edit? ⟨⟨0, 13, by decide⟩, ⟨1, 12, by decide⟩, ⟨.twoSpaces, .lineFeed⟩⟩
      ['{', '\r', '\n', '\t', 'é', '\n', ' ', ' ', ' ', 'b', ' ', '}'] = some e ∧
      e.inserted = ['é', '\n', ' ', 'b'] ∧ dense e.inserted = ['é', 'b'] := by
  obtain ⟨e, body, _, _, _, _, hbody, hedit, -, hdense, -⟩ := edit?_lays
    (u := ⟨⟨0, 13, by decide⟩, ⟨1, 12, by decide⟩, ⟨.twoSpaces, .lineFeed⟩⟩)
    (t := ['{', '\r', '\n', '\t', 'é', '\n', ' ', ' ', ' ', 'b', ' ', '}']) (by decide) (by decide)
  obtain rfl := some.inj hbody
  obtain rfl := some.inj hedit
  exact ⟨by decide, by decide, _, rfl, by decide, hdense⟩

end Unwrapping
end LiveEdit
