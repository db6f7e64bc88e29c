import LiveEdit.Proofs.Text.Cutting
import Mathlib.Data.List.DropRight

namespace LiveEdit
open List Option

namespace Text

variable {c : Char} {p : Char → Bool} {wanted : Bool} {t w x r : Text}

abbrev Blank (t : Text) : Prop := ∀ c ∈ t, isBlank c = true

lemma isBlank_of_space (h : isSpace c = true) : isBlank c = true := by
  simp only [isSpace, Bool.or_eq_true, decide_eq_true_eq] at h
  rcases h with rfl | rfl <;> decide

lemma isBlank_of_newline (h : isNewline c = true) : isBlank c = true := by
  simp only [isNewline, Bool.or_eq_true, decide_eq_true_eq] at h
  rcases h with rfl | rfl <;> decide

lemma not_space_of_newline (h : isNewline c = true) : isSpace c = false := by
  simp only [isNewline, Bool.or_eq_true, decide_eq_true_eq] at h
  rcases h with rfl | rfl <;> decide

lemma dropWhile_append_of_head (hr : ∀ c ∈ r.head?, p c = false) (w : Text) :
    (w ++ r).dropWhile p = w.dropWhile p ++ r := by
  rw [dropWhile_append]
  split_ifs with hnil
  · rw [isEmpty_iff.1 hnil, nil_append]
    cases r with
    | nil => rfl
    | cons c r => rw [dropWhile_cons_of_neg (Bool.eq_false_iff.1 (hr c rfl))]
  · rfl

lemma dropEnd_append (hx : (∀ c ∈ w, p c = true) → ∀ c ∈ x.getLast?, p c = false) :
    dropEnd p (x ++ w) = x ++ dropEnd p w := by
  rw [dropEnd, dropEnd, reverse_append, dropWhile_append]
  split_ifs with hnil
  · have hall : ∀ c ∈ w, p c = true := fun c hc =>
      dropWhile_eq_nil_iff.1 (isEmpty_iff.1 hnil) c (mem_reverse.2 hc)
    have hdrop := dropWhile_append_of_head (p := p) (r := x.reverse)
      (fun c hc => hx hall c (head?_reverse ▸ hc)) []
    rw [isEmpty_iff.1 hnil]
    simpa using congrArg reverse hdrop
  · rw [reverse_append, reverse_reverse]

lemma dropEnd_append_takeEnd (p : Char → Bool) (t : Text) : dropEnd p t ++ takeEnd p t = t := by
  rw [dropEnd, takeEnd, ← reverse_append, takeWhile_append_dropWhile, reverse_reverse]

lemma mem_takeEnd (h : c ∈ takeEnd p w) : p c = true :=
  mem_takeWhile_imp (mem_reverse.1 h)

def IsRun (p : Char → Bool) (wanted : Bool) (run : Text) (next : Option Char) : Prop :=
  if wanted then (∀ c ∈ run, p c = true) ∧ ∀ c ∈ next, p c = false else run = []

lemma IsRun.mem {next : Option Char} (h : IsRun p wanted w next) (hc : c ∈ w) : p c = true := by
  cases wanted with
  | false => exact absurd hc (h ▸ not_mem_nil)
  | true => exact h.1 c hc

lemma exists_runAfter (p : Char → Bool) (wanted : Bool) (t : Text) : ∃ run,
    t = run ++ (if wanted then t.dropWhile p else t) ∧
      IsRun p wanted run (if wanted then t.dropWhile p else t).head? := by
  cases wanted with
  | false => exact ⟨[], rfl, rfl⟩
  | true =>
    refine ⟨t.takeWhile p, takeWhile_append_dropWhile.symm, fun c => mem_takeWhile_imp,
      fun c hc => ?_⟩
    have hnot := head?_dropWhile_not p t
    rw [if_pos rfl] at hc
    rw [mem_def.1 hc] at hnot
    exact hnot

lemma exists_runBefore (p : Char → Bool) (wanted : Bool) (t : Text) : ∃ run,
    t = (if wanted then dropEnd p t else t) ++ run ∧
      IsRun p wanted run (if wanted then dropEnd p t else t).getLast? := by
  obtain ⟨run, htext, hrun⟩ := exists_runAfter p wanted t.reverse
  cases wanted with
  | false => exact ⟨[], (append_nil t).symm, rfl⟩
  | true =>
    refine ⟨run.reverse, ?_, fun c hc => hrun.1 c (mem_reverse.1 hc), fun c hc => hrun.2 c ?_⟩
    · simpa [dropEnd] using congrArg reverse htext
    · simpa [dropEnd] using hc

def dense (t : Text) : Text := t.filter (!isBlank ·)

@[simp]
lemma dense_append (t u : Text) : dense (t ++ u) = dense t ++ dense u := filter_append t u

lemma dense_of_blank (h : t.Blank) : dense t = [] := by
  refine filter_eq_nil_iff.2 fun c hc => ?_
  rw [h c hc]
  exact Bool.false_ne_true

lemma dense_intercalate (h : dense t = []) (ts : List Text) :
    dense (intercalate t ts) = ts.flatMap dense := by
  induction ts with
  | nil => rfl
  | cons u ts ih =>
    cases ts with
    | nil => simp [intercalate]
    | cons v ts =>
      rw [intercalate_cons_cons, dense_append, dense_append, h, append_nil, ih]
      rfl

end Text

namespace Trim
open Text

variable {trim : Trim} {w x r : Text}

lemma front_append (htrim : trim.newlinesBefore = false)
    (hx : (∀ c ∈ w, isSpace c = true) → ∀ c ∈ x.getLast?, isSpace c = false) :
    trim.front (x ++ w) = x ++ trim.front w := by
  unfold front
  rw [htrim]
  cases trim.spacesBefore with
  | false => rfl
  | true => exact dropEnd_append hx

lemma back_append (hr : ∀ c ∈ r.head?, isBlank c = false) (w : Text) :
    trim.back (w ++ r) = trim.back w ++ r := by
  have hspace : ∀ c ∈ r.head?, isSpace c = false := fun c hc =>
    Bool.eq_false_iff.2 fun hc' => Bool.false_ne_true ((hr c hc).symm.trans (isBlank_of_space hc'))
  have hnewline : ∀ c ∈ r.head?, isNewline c = false := fun c hc => Bool.eq_false_iff.2 fun hc' =>
    Bool.false_ne_true ((hr c hc).symm.trans (isBlank_of_newline hc'))
  unfold back
  dsimp only
  split_ifs
  · rw [dropWhile_append_of_head hspace, dropWhile_append_of_head hnewline]
  · exact dropWhile_append_of_head hnewline w
  · exact dropWhile_append_of_head hspace w
  · rfl

/-- The runs beside a removed span: the spaces next to it and the line breaks beyond them, with what
is kept. -/
structure Runs (trim : Trim) (a n s s' n' b : Text) : Prop where
  spacesBefore : IsRun isSpace trim.spacesBefore s (a ++ n).getLast?
  newlinesBefore : IsRun isNewline trim.newlinesBefore n a.getLast?
  spacesAfter : IsRun isSpace trim.spacesAfter s' (n' ++ b).head?
  newlinesAfter : IsRun isNewline trim.newlinesAfter n' b.head?

lemma exists_runs (trim : Trim) (t u : Text) : ∃ n s s' n', t = trim.front t ++ (n ++ s) ∧
    u = s' ++ (n' ++ trim.back u) ∧ trim.Runs (trim.front t) n s s' n' (trim.back u) := by
  obtain ⟨s, hs, hspace⟩ := exists_runBefore isSpace trim.spacesBefore t
  obtain ⟨n, hn, hnewline⟩ := exists_runBefore isNewline trim.newlinesBefore
    (if trim.spacesBefore then dropEnd isSpace t else t)
  obtain ⟨s', hs', hspace'⟩ := exists_runAfter isSpace trim.spacesAfter u
  obtain ⟨n', hn', hnewline'⟩ := exists_runAfter isNewline trim.newlinesAfter
    (if trim.spacesAfter then u.dropWhile isSpace else u)
  change _ = trim.front t ++ n at hn
  change _ = n' ++ trim.back u at hn'
  rw [hn] at hspace hs
  rw [hn'] at hspace' hs'
  exact ⟨n, s, s', n', hs.trans (append_assoc ..), hs', hspace, hnewline, hspace', hnewline'⟩

lemma exists_front (trim : Trim) (t : Text) :
    ∃ x, t = trim.front t ++ x ∧ ∀ c ∈ x, isSpace c = true ∨ isNewline c = true := by
  obtain ⟨n, s, _, _, htext, -, hruns⟩ := trim.exists_runs t []
  refine ⟨n ++ s, htext, fun c hc => ?_⟩
  exact (mem_append.1 hc).elim (.inr ∘ hruns.newlinesBefore.mem) (.inl ∘ hruns.spacesBefore.mem)

lemma exists_back (trim : Trim) (t : Text) :
    ∃ y, t = y ++ trim.back t ∧ ∀ c ∈ y, isSpace c = true ∨ isNewline c = true := by
  obtain ⟨_, _, s, n, -, htext, hruns⟩ := trim.exists_runs [] t
  refine ⟨s ++ n, htext.trans (append_assoc ..).symm, fun c hc => ?_⟩
  exact (mem_append.1 hc).elim (.inl ∘ hruns.spacesAfter.mem) (.inr ∘ hruns.newlinesAfter.mem)

end Trim

lemma Removal.exists_edit? {r : Removal} {a c b : Text} (ha : a.size = r.span.start)
    (hc : c.size = r.span.size) : ∃ e, r.edit? (a ++ (c ++ b)) = some e ∧
    e.position = (r.trim.front a).size ∧ e.position + e.removed + (r.trim.back b).size =
      (a ++ (c ++ b)).size ∧ e.inserted = r.replacement ∧
    e.result? (a ++ (c ++ b)) = some (r.trim.front a ++ (r.replacement ++ r.trim.back b)) := by
  have hedit : r.edit? (a ++ (c ++ b)) = some ⟨(r.trim.front a).size,
      r.span.stop + (b.size - (r.trim.back b).size) - (r.trim.front a).size, r.replacement⟩ := by
    rw [Removal.edit?, ← ha, Text.cut?_append]
    simp only [bind_eq_bind, bind_some, ← hc, Text.cut?_append]
    rfl
  obtain ⟨x, hx, -⟩ := r.trim.exists_front a
  obtain ⟨y, hy, -⟩ := r.trim.exists_back b
  have hxsize := congrArg Text.size hx
  have hysize := congrArg Text.size hy
  have hstop : r.span.start + r.span.size = r.span.stop := Nat.add_sub_cancel' r.span.le
  rw [Text.size_append] at hxsize hysize
  -- the text is the front, what is taken out, and the back
  have htext : r.trim.front a ++ ((x ++ c ++ y) ++ r.trim.back b) = a ++ (c ++ b) :=
    calc
      _ = (r.trim.front a ++ x) ++ (c ++ (y ++ r.trim.back b)) := by simp
      _ = a ++ (c ++ b) := by rw [← hx, ← hy]
  refine ⟨_, hedit, rfl, ?_, rfl, ?_⟩
  · simp only [Text.size_append]
    omega
  · rw [← htext]
    refine Edit.result?_append _ _ _ rfl ?_
    simp only [Text.size_append]
    omega

end LiveEdit
