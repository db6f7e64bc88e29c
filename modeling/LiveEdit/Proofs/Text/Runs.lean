import LiveEdit.Proofs.Text.Trimming

/-! The steps over the bytes of spaces and line breaks never end inside a character. -/

namespace LiveEdit
open List Option

namespace Text

variable {p : Char → Bool} {wanted : Bool} {a b t u w : Text} {c : Char} {k n : Nat}

def bytes (t : Text) : List UInt8 := t.flatMap String.utf8EncodeChar

def standsFor (p : Char → Bool) (b : UInt8) : Bool := b.toNat < 128 && p (Char.ofNat b.toNat)

def retreat? (p : Char → Bool) (bs : List UInt8) : Nat → Option Nat
  | 0 => some 0
  | n + 1 => do if standsFor p (← bs[n]?) then retreat? p bs n else return n + 1

def advance (p : Char → Bool) : List UInt8 → Nat → Nat
  | [], n => n
  | b :: bs, n => if standsFor p b then advance p bs (n + 1) else n

lemma bytes_append (t u : Text) : bytes (t ++ u) = t.bytes ++ u.bytes := flatMap_append

lemma bytes_cons (c : Char) (t : Text) : bytes (c :: t) = String.utf8EncodeChar c ++ t.bytes := rfl

lemma length_bytes (t : Text) : t.bytes.length = t.size := by
  induction t with
  | nil => rfl
  | cons c t ih => rw [bytes_cons, length_append, String.length_utf8EncodeChar, ih, size]

lemma le_of_mem_utf8EncodeChar {b : UInt8} (hc : 128 ≤ c.toNat) (hb : b ∈ String.utf8EncodeChar c) :
    128 ≤ b.toNat := by
  have hwide : ¬ c.val.toNat ≤ 127 := Nat.not_le.2 hc
  simp only [String.utf8EncodeChar, if_neg hwide] at hb
  split_ifs at hb <;> simp only [mem_cons, not_mem_nil, or_false] at hb
  · rcases hb with rfl | rfl <;> rw [UInt8.toNat_ofNat'] <;> omega
  · rcases hb with rfl | rfl | rfl <;> rw [UInt8.toNat_ofNat'] <;> omega
  · rcases hb with rfl | rfl | rfl | rfl <;> rw [UInt8.toNat_ofNat'] <;> omega

lemma standsFor_eq (hp : ∀ c, p c = true → c.toNat < 128) {b : UInt8}
    (hb : b ∈ String.utf8EncodeChar c) : standsFor p b = p c := by
  rw [standsFor]
  by_cases hc : c.toNat < 128
  · have hle : c.val.toNat ≤ 127 := Nat.le_of_lt_succ hc
    simp only [String.utf8EncodeChar, if_pos hle, mem_singleton] at hb
    have hbyte : b.toNat = c.toNat := by
      rw [hb, UInt8.toNat_ofNat', Nat.mod_eq_of_lt (by omega)]
      rfl
    rw [hbyte, decide_eq_true hc, Char.ofNat_toNat, Bool.true_and]
  · have hwide := le_of_mem_utf8EncodeChar (Nat.le_of_not_lt hc) hb
    rw [decide_eq_false (Nat.not_lt.2 hwide), Bool.false_and, Bool.eq_false_iff.2 (mt (hp c) hc)]

lemma getElem?_bytes (a b : Text) (c : Char) : ∃ x ∈ String.utf8EncodeChar c,
    (bytes (a ++ c :: b))[a.size + (c.utf8Size - 1)]? = some x := by
  have hpos := c.utf8Size_pos
  have hlt : c.utf8Size - 1 < (String.utf8EncodeChar c).length := by
    rw [String.length_utf8EncodeChar]
    omega
  refine ⟨_, getElem_mem hlt, ?_⟩
  rw [bytes_append, bytes_cons, getElem?_append_right (by rw [length_bytes]; omega), length_bytes,
    Nat.add_sub_cancel_left, getElem?_append_left hlt, getElem?_eq_getElem hlt]

section

variable (hp : ∀ c, p c = true → c.toNat < 128)
include hp

lemma retreat?_append (hrun : IsRun p true w a.getLast?) (b : Text) :
    retreat? p (bytes (a ++ w ++ b)) (a ++ w).size = some a.size := by
  -- from the end of the run: each step moves a character of it to the text behind
  induction w using reverseRecOn generalizing b with
  | nil =>
    rw [append_nil]
    rcases eq_nil_or_concat a with rfl | ⟨a, c, rfl⟩
    · rfl
    · have hc : p c = false := hrun.2 c (by simp)
      have hpos := c.utf8Size_pos
      obtain ⟨x, hx, hbyte⟩ := getElem?_bytes a b c
      have hsize : size (a.concat c) = size a + (c.utf8Size - 1) + 1 := by
        rw [concat_eq_append, size_append, size, size]
        omega
      rw [hsize, retreat?, concat_append, hbyte]
      simp only [bind_eq_bind, bind_some, standsFor_eq hp hx, hc]
      rfl
  | append_singleton w c ih =>
    have hc : p c = true := hrun.1 c (by simp)
    have hone := Char.utf8Size_eq_one_iff.2 (Nat.le_of_lt_succ (hp c hc))
    obtain ⟨x, hx, hbyte⟩ := getElem?_bytes (a ++ w) b c
    have hsize : size (a ++ (w ++ [c])) = (a ++ w).size + 1 := by
      rw [← append_assoc, size_append _ [c], size, size, hone]
    have htext : a ++ (w ++ [c]) ++ b = a ++ w ++ c :: b := by simp
    rw [hone, Nat.sub_self, Nat.add_zero] at hbyte
    rw [hsize, retreat?, htext, hbyte]
    simp only [bind_eq_bind, bind_some, standsFor_eq hp hx, hc]
    exact ih ⟨fun d hd => hrun.1 d (mem_append_left _ hd), hrun.2⟩ (c :: b)

lemma advance_append (hrun : IsRun p true w b.head?) (n : Nat) :
    advance p (bytes (w ++ b)) n = n + w.size := by
  induction w generalizing n with
  | nil =>
    cases b with
    | nil => rfl
    | cons c b =>
      obtain ⟨x, bs, hbytes⟩ := exists_cons_of_length_pos (l := String.utf8EncodeChar c)
        (String.length_utf8EncodeChar c ▸ c.utf8Size_pos)
      have hx := standsFor_eq hp (c := c) (b := x) (hbytes ▸ mem_cons_self)
      rw [nil_append, bytes_cons, hbytes, cons_append, advance, hx, hrun.2 c rfl]
      rfl
  | cons c w ih =>
    have hc := hrun.1 c mem_cons_self
    have hone := Char.utf8Size_eq_one_iff.2 (Nat.le_of_lt_succ (hp c hc))
    obtain ⟨x, hbytes⟩ := length_eq_one_iff.1 ((String.length_utf8EncodeChar c).trans hone)
    have hx := standsFor_eq hp (c := c) (b := x) (hbytes ▸ mem_cons_self)
    rw [cons_append, bytes_cons, hbytes, singleton_append, advance, if_pos (hx.trans hc),
      ih ⟨fun d hd => hrun.1 d (mem_cons_of_mem _ hd), hrun.2⟩, size, hone, Nat.add_assoc]

lemma retreat?_run (hrun : IsRun p wanted w a.getLast?) (b : Text) :
    (if wanted then retreat? p (bytes (a ++ (w ++ b))) (a ++ w).size else some (a ++ w).size) =
      some a.size := by
  cases wanted with
  | false => rw [if_neg Bool.false_ne_true, show w = [] from hrun, append_nil]
  | true => rw [if_pos rfl, ← append_assoc, retreat?_append hp hrun]

lemma advance_run (hrun : IsRun p wanted w b.head?) (a : Text) :
    (if wanted then advance p ((bytes (a ++ (w ++ b))).drop a.size) a.size else a.size) =
      (a ++ w).size := by
  cases wanted with
  | false => rw [if_neg Bool.false_ne_true, show w = [] from hrun, append_nil]
  | true => rw [if_pos rfl, bytes_append, ← length_bytes, drop_left, advance_append hp hrun,
    length_bytes, size_append]

end

lemma toNat_lt_of_space (c : Char) (h : isSpace c = true) : c.toNat < 128 := by
  simp only [isSpace, Bool.or_eq_true, decide_eq_true_eq] at h
  rcases h with rfl | rfl <;> decide

lemma toNat_lt_of_newline (c : Char) (h : isNewline c = true) : c.toNat < 128 := by
  simp only [isNewline, Bool.or_eq_true, decide_eq_true_eq] at h
  rcases h with rfl | rfl <;> decide

end Text

open Text

def Removal.trimmed? (r : Removal) (t : Text) : Option Span := do
  let start
    ← (if r.trim.spacesBefore then retreat? isSpace t.bytes r.span.start else some r.span.start)
  let start ← (if r.trim.newlinesBefore then retreat? isNewline t.bytes start else some start)
  let stop := if r.trim.spacesAfter then advance isSpace (t.bytes.drop r.span.stop)
    r.span.stop else r.span.stop
  let stop := if r.trim.newlinesAfter then advance isNewline (t.bytes.drop stop) stop else stop
  Span.between? start stop

lemma Removal.trimmed?_append {r : Removal} {a n s c s' n' b : Text}
    (hruns : r.trim.Runs a n s s' n' b) (hstart : (a ++ (n ++ s)).size = r.span.start)
    (hsize : c.size = r.span.size) : ∃ h, r.trimmed? (a ++ (n ++ (s ++ (c ++ (s' ++ (n' ++ b)))))) =
      some ⟨a.size, r.span.stop + (s' ++ n').size, h⟩ := by
  have hle := r.span.le
  have hstop : size (a ++ (n ++ (s ++ c))) = r.span.stop := by
    rw [Span.size] at hsize
    simp only [size_append] at hstart ⊢
    omega
  have hspace := retreat?_run toNat_lt_of_space hruns.spacesBefore (c ++ (s' ++ (n' ++ b)))
  have hnewline :=
    retreat?_run toNat_lt_of_newline hruns.newlinesBefore (s ++ (c ++ (s' ++ (n' ++ b))))
  have hspace' := advance_run toNat_lt_of_space hruns.spacesAfter (a ++ (n ++ (s ++ c)))
  have hnewline' :=
    advance_run toNat_lt_of_newline hruns.newlinesAfter (a ++ (n ++ (s ++ (c ++ s'))))
  simp only [append_assoc, hstart, hstop] at hspace hnewline hspace' hnewline'
  have hend : size (a ++ (n ++ (s ++ (c ++ (s' ++ n'))))) = r.span.stop + (s' ++ n').size := by
    simp only [size_append] at hstop ⊢
    omega
  have horder : a.size ≤ r.span.stop + (s' ++ n').size := by
    simp only [size_append] at hstart ⊢
    omega
  refine ⟨horder, ?_⟩
  simp only [trimmed?, hspace, hnewline, hspace', hnewline', hend, bind_eq_bind, bind_some,
    Span.between?, dif_pos horder]

/-- A removal takes along exactly the runs beside its span for which it is asked. -/
theorem Removal.edit?_runs {r : Removal} {t : Text} (hstart : t.isBoundary r.span.start = true)
    (hstop : t.isBoundary r.span.stop = true) : ∃ e a n s c s' n' b, r.edit? t = some e ∧
      r.trimmed? t = some e.oldSpan ∧ e.oldSpan.contains r.span = true ∧
      t.isBoundary e.oldSpan.start = true ∧ t.isBoundary e.oldSpan.stop = true ∧
      t = a ++ (n ++ (s ++ (c ++ (s' ++ (n' ++ b))))) ∧ a.size = e.oldSpan.start ∧
      (a ++ (n ++ s)).size = r.span.start ∧ r.span.start + c.size = r.span.stop ∧
      r.span.stop + (s' ++ n').size = e.oldSpan.stop ∧ r.trim.Runs a n s s' n' b ∧
      e.result? t = some (a ++ (r.replacement ++ b)) := by
  obtain ⟨c, hslice⟩ := exists_slice? hstart hstop
  obtain ⟨x, y, rfl, hx, hc⟩ := slice?_eq_some_iff.1 hslice
  obtain ⟨n, s, s', n', hxruns, hyruns, hruns⟩ := r.trim.exists_runs x y
  have hsize : c.size = r.span.size := (Nat.sub_eq_of_eq_add' hc.symm).symm
  obtain ⟨e, hedit, hposition, hremoved, -, hresult⟩ := Removal.exists_edit? (b := y) hx hsize
  have htext : x ++ (c ++ y) =
      r.trim.front x ++ (n ++ (s ++ (c ++ (s' ++ (n' ++ r.trim.back y))))) := by
    conv_lhs => rw [hxruns, hyruns]
    simp only [append_assoc]
  have hxsize := congrArg size hxruns
  have hysize := congrArg size hyruns
  obtain ⟨horder, htrimmed⟩ := Removal.trimmed?_append (c := c) hruns (hxruns ▸ hx) hsize
  have hends : e.oldSpan = ⟨_, _, horder⟩ := by
    refine Span.eq_of_ends hposition ?_
    simp only [size_append, Edit.oldSpan, Span.sized] at *
    omega
  have hcontains : e.oldSpan.contains r.span = true := by
    rw [Span.contains_iff, hends]
    rw [size_append, hx] at hxsize
    exact ⟨hxsize ▸ Nat.le_add_right _ _, Nat.le_add_right _ _⟩
  have hfirst : isBoundary (x ++ (c ++ y)) e.oldSpan.start = true :=
    isBoundary_iff.2 ⟨_, _, htext.symm, by rw [hends]⟩
  have hlast : isBoundary (x ++ (c ++ y)) e.oldSpan.stop = true := by
    refine isBoundary_iff.2 ⟨x ++ (c ++ (s' ++ n')), r.trim.back y, ?_, ?_⟩
    · conv_rhs => rw [hyruns]
      simp only [append_assoc]
    · have hend := congrArg Span.stop hends
      simp only [size_append] at hend ⊢
      omega
  exact ⟨e, _, n, s, c, s', n', _, hedit, by rw [htext, htrimmed, hends], hcontains, hfirst, hlast,
    htext, by rw [hends], hxruns ▸ hx, hc, by rw [hends], hruns, hresult⟩

theorem Removal.edit?_runs_wide :
    isBoundary ['ü', '\n', ' ', 'x', 'é', '\t', '\r', '\n', 'ü'] 4 = true ∧
    isBoundary ['ü', '\n', ' ', 'x', 'é', '\t', '\r', '\n', 'ü'] 7 = true ∧
    Removal.trimmed? ⟨⟨4, 7, by decide⟩, ⟨true, true, true, true⟩, ['-']⟩
      ['ü', '\n', ' ', 'x', 'é', '\t', '\r', '\n', 'ü'] = some ⟨2, 10, by decide⟩ ∧
    Edit.result? ⟨2, 8, ['-']⟩ ['ü', '\n', ' ', 'x', 'é', '\t', '\r', '\n', 'ü'] =
    some ['ü', '-', 'ü'] := by
  obtain ⟨e, _, _, _, _, _, _, _, hedit, htrimmed, -⟩ := Removal.edit?_runs
    (r := ⟨⟨4, 7, by decide⟩, ⟨true, true, true, true⟩, ['-']⟩)
    (t := ['ü', '\n', ' ', 'x', 'é', '\t', '\r', '\n', 'ü']) (by decide) (by decide)
  obtain rfl : ⟨2, 8, ['-']⟩ = e := some.inj hedit
  exact ⟨by decide, by decide, htrimmed, by decide⟩

end LiveEdit
