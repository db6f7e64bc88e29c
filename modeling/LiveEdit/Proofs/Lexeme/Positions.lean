import LiveEdit.Proofs.Lexeme.Sealing

namespace LiveEdit
open List Option

namespace Text

variable {c : Char} {p : Char → Bool} {t : Text}

lemma takeEnd_concat (p : Char → Bool) (t : Text) (c : Char) :
    takeEnd p (t ++ [c]) = if p c then takeEnd p t ++ [c] else [] :=
  rtakeWhile_concat p t c

lemma takeEnd_cons (p : Char → Bool) (c : Char) (t : Text) :
    takeEnd p (c :: t) = if t.all p then if p c then c :: t else t else takeEnd p t := by
  rw [takeEnd, reverse_cons]
  by_cases hall : t.all p = true
  · have hrun : ∀ a ∈ t.reverse, p a = true := fun a ha => all_eq_true.1 hall a (mem_reverse.1 ha)
    rw [takeWhile_append_of_pos hrun, if_pos hall, reverse_append, reverse_reverse, takeWhile_cons]
    split <;> rfl
  · have hshort : (t.reverse.takeWhile p).length ≠ t.reverse.length := by
      intro hlength
      have hself := List.IsPrefix.eq_of_length ( takeWhile_prefix p (l := t.reverse)) hlength
      refine hall (all_eq_true.2 fun a ha => ?_)
      exact takeWhile_eq_self_iff.1 hself a (mem_reverse.2 ha)
    rw [takeWhile_append, if_neg hshort, if_neg hall, takeEnd]

lemma takeEnd_cons_of_not (h : p c = false) (t : Text) : takeEnd p (c :: t) = takeEnd p t := by
  rw [takeEnd_cons, h]
  split
  · next hall => exact (rtakeWhile_eq_self_iff.2 (all_eq_true.1 hall)).symm
  · rfl

end Text

namespace Position
open Text

/-- The place behind a front part of a text: the line counts the line feeds in it, the column the
characters behind the last of them. -/
def behind (front : Text) : Position :=
  ⟨front.size, 1 + front.count '\n', 1 + (takeEnd (· ≠ '\n') front).length⟩

lemma behind_concat (front : Text) (c : Char) : behind (front ++ [c]) = (behind front).next c := by
  by_cases hc : c = '\n'
  · simp [behind, next, hc, takeEnd_concat, size_append, size, Nat.add_assoc]
  · simp [behind, next, hc, takeEnd_concat, size_append, size, Nat.add_assoc]

lemma after_append (p : Position) (x y : Text) : p.after (x ++ y) = (p.after x).after y :=
  foldl_append

lemma after_first (front : Text) : first.after front = behind front := by
  induction front using reverseRecOn with
  | nil => rfl
  | append_singleton front c ih =>
    rw [after_append, ih, behind_concat]
    rfl

lemma offset_after (p : Position) (x : Text) : (p.after x).offset = p.offset + x.size := by
  induction x generalizing p with
  | nil => rfl
  | cons c x ih =>
    have hnext : (p.next c).offset = p.offset + c.utf8Size := by
      unfold Position.next
      split <;> rfl
    rw [Position.after, foldl_cons, ← Position.after, ih, hnext, Text.size, Nat.add_assoc]

lemma offset_past (p : Position) (l : Lexeme) : (p.past l).offset = p.offset + l.text.size := by
  rw [← offset_after]
  unfold Position.past
  dsimp only
  split <;> rfl

lemma offset_pasts (p : Position) (us : List Lexeme) :
    (us.foldl past p).offset = p.offset + (Lexeme.spell us).size := by
  induction us generalizing p with
  | nil => rfl
  | cons u us ih =>
    rw [foldl_cons, ih, offset_past, Lexeme.spell, Lexeme.spell, flatMap_cons, size_append,
      Nat.add_assoc]

end Position

namespace Token

lemma place_append (p : Position) (us vs : List Lexeme) :
    place p (us ++ vs) = place p us ++ place (us.foldl .past p) vs := by
  induction us generalizing p with
  | nil => rfl
  | cons u us ih => rw [cons_append, place, place, ih, foldl_cons, cons_append]

lemma getElem?_place (p : Position) (us : List Lexeme) (i : Nat) :
    (place p us)[i]? = us[i]?.map fun l => ⟨l, (us.take i).foldl .past p⟩ := by
  induction us generalizing p i with
  | nil => rfl
  | cons u us ih =>
    cases i with
    | zero => rfl
    | succ i => rw [place, getElem?_cons_succ, ih, getElem?_cons_succ, take_succ_cons, foldl_cons]

end Token

namespace Lexeme
open Text

variable {t r x : Text} {us : List Lexeme} {l : Lexeme} {c q : Char} {p : Position}

def isCutOff (l : Lexeme) : Bool := l.kind = .string && (takeEnd (· = '\\') l.text).length % 2 = 1

lemma endsInEscape_eq (x : Text) :
    endsInEscape x = decide ((takeEnd (· = '\\') x).length % 2 = 1) := by
  fun_induction endsInEscape x with
  | case1 => rfl
  | case2 => rfl
  | case3 c t ih =>
    -- a pair changes the number by two or not at all
    rw [ih, takeEnd_cons, takeEnd_cons _ c]
    by_cases hall : t.all (· = '\\') = true
    · have hself : takeEnd (· = '\\') t = t := rtakeWhile_eq_self_iff.2 (all_eq_true.1 hall)
      by_cases hc : c = '\\'
      · simp [hall, hself, hc]
        omega
      · simp [hall, hself, hc]
    · simp [hall]
  | case4 c t hlast hescape ih =>
    rw [ih, takeEnd_cons_of_not (decide_eq_false (escape_of hlast hescape))]

lemma endsInEscape_cons (h : c ≠ '\\') (t : Text) : endsInEscape (c :: t) = endsInEscape t := by
  rw [endsInEscape]
  · intro hc _
    exact h hc
  · intro _ _ hc _
    exact h hc

lemma rest_of_endsInEscape (h : endsInEscape (stringBody q t).taken = true) :
    (stringBody q t).rest = [] := by
  fun_induction stringBody q t with
  | case1 => rfl
  | case2 => rfl
  | case3 c t ih => exact ih h
  | case4 t hlast hescape =>
    rw [endsInEscape_cons (escape_of hlast hescape)] at h
    cases h
  | case5 => cases h
  | case6 c t hlast hescape hq hnew ih =>
    rw [Cut.push, endsInEscape_cons (escape_of hlast hescape)] at h
    exact ih h

lemma ne_backslash_of_quote {next : Option Char} (h : Leading.of c next = .quote) : c ≠ '\\' := by
  rintro rfl
  unfold Leading.of at h
  grind [punctuation?]

lemma leading_of_string (h : scan c t = (l, r)) (hk : l.kind = .string) :
    Leading.of c t.head? = .quote :=
  (leading_of_scan h).trans (hk ▸ rfl)

lemma isCutOff_of_scan (h : scan c t = (l, r)) :
    l.isCutOff = (l.kind = .string && endsInEscape (l.text.drop 1)) := by
  by_cases hk : l.kind = .string
  · have hlead := leading_of_string h hk
    unfold scan at h
    rw [hlead] at h
    obtain ⟨rfl, -⟩ := Prod.mk.inj h
    rw [isCutOff, takeEnd_cons_of_not (decide_eq_false (ne_backslash_of_quote hlead)), drop_one,
      tail_cons, endsInEscape_eq]
  · simp [isCutOff, hk]

lemma rest_of_isCutOff (h : scan c t = (l, r)) (hl : l.isCutOff = true) : r = [] := by
  rw [isCutOff_of_scan h, Bool.and_eq_true, decide_eq_true_eq] at hl
  have hlead := leading_of_string h hl.1
  unfold scan at h
  rw [hlead] at h
  obtain ⟨rfl, rfl⟩ := Prod.mk.inj h
  exact rest_of_endsInEscape hl.2

lemma past_of_scan (h : scan c t = (l, r)) (p : Position) : p.past l =
    { p.after l.text with column := (p.after l.text).column + if l.isCutOff then 1 else 0 } := by
  rw [isCutOff_of_scan h, Position.past]
  dsimp only
  split <;> rfl

lemma Scans.pasts (h : Scans t us r) (p : Position) : us.foldl .past p = { p.after (spell us)
      with column := (p.after (spell us)).column + if us.getLast?.any isCutOff then 1 else 0 } := by
  induction h generalizing p with
  | done => rfl
  | @next c t r us more ih =>
    have hscan : scan c t = ((scan c t).1, (scan c t).2) := rfl
    have hpast := past_of_scan hscan p
    have hspell : spell ((scan c t).1 :: us) = (scan c t).1.text ++ spell us := flatMap_cons
    rw [foldl_cons, hspell, Position.after_append]
    generalize hrest : (scan c t).2 = rest at more
    cases more with
    | done => exact hpast
    | @next d u _ us more =>
      -- more is scanned behind the lexeme, so it is not cut off
      have hwhole : (scan c t).1.isCutOff = false := by
        apply Bool.eq_false_iff.2
        intro hcut
        have hnil := rest_of_isCutOff hscan hcut
        rw [hrest] at hnil
        cases hnil
      rw [hwhole] at hpast
      rw [ih, hpast]
      rfl

lemma Scans.not_cutOff (h : Scans t us r) (hr : r ≠ []) : us.getLast?.any isCutOff = false := by
  apply Bool.eq_false_iff.2
  intro hany
  obtain ⟨l, hl, hcut⟩ := (any_eq_true _ _).1 hany
  obtain ⟨c, x, -, hscan⟩ := h.exists_scan hl
  exact hr (rest_of_isCutOff hscan hcut)

end Lexeme

namespace Lexed
open Text Lexeme

variable {t : Text} {i : Nat}

lemma text_take (t : Text) (i : Nat) :
    spell ((Lexeme.ofText t).take i) = ((ofText t).tokens.take i).flatMap (·.text) := by
  rw [spell, ← lexemes_ofText, ← map_take, flatMap_map]

lemma size_ofText (t : Text) : (ofText t).size = (Lexeme.ofText t).length := by
  rw [size, ← lexemes_ofText, length_map]

lemma position?_ofText (h : i ≤ (ofText t).size) :
    (ofText t).position? i = some (((Lexeme.ofText t).take i).foldl .past .first) := by
  rw [position?]
  split
  · next hi =>
    rw [take_of_length_le (by rw [← size_ofText, hi])]
    rfl
  · next hi =>
    have hlt : i < (Lexeme.ofText t).length := by
      rw [← size_ofText]
      omega
    show (Token.place .first (Lexeme.ofText t))[i]?.map _ = _
    rw [Token.getElem?_place, getElem?_eq_getElem hlt]
    rfl

lemma offset_take (t : Text) (i : Nat) :
    (((Lexeme.ofText t).take i).foldl Position.past Position.first).offset =
      (spell ((Lexeme.ofText t).take i)).size :=
  (Position.offset_pasts _ _).trans (Nat.zero_add _)

def isCutOff (x : Lexed) : Bool := x.tokens.getLast?.any (·.isCutOff)

lemma cutOff_take (h : i ≤ (ofText t).size) : ((Lexeme.ofText t).take i).getLast?.any
      Lexeme.isCutOff = decide (i = (ofText t).size ∧ (ofText t).isCutOff = true) := by
  by_cases hi : i = (ofText t).size
  · have hlast : (Lexeme.ofText t).getLast?.any Lexeme.isCutOff = (ofText t).isCutOff := by
      rw [isCutOff, ← lexemes_ofText, getLast?_map, Option.any_map]
    rw [take_of_length_le (by rw [← size_ofText, hi]), hlast]
    simp [hi]
  · have hlt : i < (Lexeme.ofText t).length := by
      rw [← size_ofText]
      omega
    have hrest : spell ((Lexeme.ofText t).drop i) ≠ [] := by
      rw [drop_eq_getElem_cons hlt, spell, flatMap_cons]
      refine append_ne_nil_of_left_ne_nil ?_ _
      exact (scans_ofText t).text_ne_nil _ (getElem_mem hlt)
    rw [(scans_take t i).not_cutOff hrest]
    simp [hi]

/-- Positions are true. The text can be cut at the position of a token or of the end; the part in
front of it is that of the tokens before, the line counts the line feeds in this part, and the
column the characters behind the last of them. Just at the end of a text that cuts off an escape the
column is one too far. -/
theorem position?_counts (h : i ≤ (ofText t).size) :
    ∃ p front rest, (ofText t).position? i = some p ∧ t.cut? p.offset = some (front, rest) ∧
    front = ((ofText t).tokens.take i).flatMap (·.text) ∧ p.line = 1 + front.count '\n' ∧
    p.column = 1 + (takeEnd (· ≠ '\n') front).length +
      if i = (ofText t).size ∧ (ofText t).isCutOff = true then 1 else 0 := by
  have hscans := scans_take t i
  have hcut := cut?_append (spell ((Lexeme.ofText t).take i)) (spell ((Lexeme.ofText t).drop i))
  rw [← hscans.text, ← offset_take] at hcut
  refine ⟨_, _, _, position?_ofText h, hcut, text_take t i, ?_⟩
  rw [hscans.pasts, Position.after_first, cutOff_take h]
  simp [Position.behind]

theorem position?_counts_line : 2 ≤ (ofText "é\n'\\".toList).size ∧
    ∃ p front rest, (ofText "é\n'\\".toList).position? 2 = some p ∧
    cut? p.offset "é\n'\\".toList = some (front, rest) ∧
    front = ((ofText "é\n'\\".toList).tokens.take 2).flatMap (·.text) ∧
    p.line = 1 + front.count '\n' ∧ p.column = 1 + (takeEnd (· ≠ '\n') front).length +
      if 2 = (ofText "é\n'\\".toList).size ∧ (ofText "é\n'\\".toList).isCutOff = true
      then 1 else 0 := by
  have hsize : 2 ≤ (ofText "é\n'\\".toList).size := by decide +kernel
  exact ⟨hsize, position?_counts hsize⟩

/-- A quote and a backslash are two characters, and the end behind them is said to be in the fourth
column. -/
theorem stop_of_escape : (ofText "'\\".toList).size = 1 ∧
    (ofText "'\\".toList).position? 1 = some ⟨2, 1, 4⟩ ∧
    cut? 2 "'\\".toList = some ("'\\".toList, []) ∧
    1 + (takeEnd (· ≠ '\n') "'\\".toList).length = 3 := by
  decide +kernel

end Lexed

namespace Lexed
open Text Lexeme List Option

variable {t : Text} {i low high : Nat}

structure Indexes (x : Lexed) (t : Text) : Prop where
  scanned : Scans t (x.tokens.map Token.toLexeme) []
  nonempty : ∀ k ∈ x.tokens, k.text ≠ []
  text : x.tokens.flatMap (·.text) = t
  boundary : ∀ i ≤ x.size, ∃ p, x.position? i = some p ∧ t.isBoundary p.offset = true
  stop : ∃ p, x.position? x.size = some p ∧ p.offset = t.size
  increasing : Increasing x.faults
  bounded : ∀ f ∈ x.faults, f.1 < x.size
  /-- The search by number tells of a token what was told when it was scanned. -/
  found : ∀ i < x.size, ∀ m, (x.fault? i).map LexicalFault.message = some m ↔
    ∃ k, x.tokens[i]? = some k ∧ k.fault.map LexicalFault.message = some m
  sliced : ∀ low high, low < high → high ≤ x.size → ∃ p q s, x.position? low = some p ∧
    x.position? high = some q ∧
    Span.between? p.offset q.offset = some s ∧ x.textIn? low high = t.slice? s ∧
    t.slice? s = some (((x.tokens.take high).drop low).flatMap (·.text))

lemma exists_position (h : i ≤ (ofText t).size) : ∃ p, (ofText t).position? i = some p ∧
    p.offset = Text.size (((ofText t).tokens.take i).flatMap (·.text)) :=
  ⟨_, position?_ofText h, by rw [offset_take, text_take]⟩

lemma text_parts (t : Text) (h : low ≤ high) : ((ofText t).tokens.take low).flatMap (·.text) ++
    ((((ofText t).tokens.take high).drop low).flatMap (·.text) ++
      ((ofText t).tokens.drop high).flatMap (·.text)) = t := by
  conv_rhs => rw [← tokens_text t, ← take_append_drop high (ofText t).tokens,
    ← take_append_drop low ((ofText t).tokens.take high), take_take, Nat.min_eq_left h]
  simp only [flatMap_append, append_assoc]

lemma isBoundary_position (h : i ≤ (ofText t).size) :
    ∃ p, (ofText t).position? i = some p ∧ t.isBoundary p.offset = true := by
  obtain ⟨p, hp, hoffset⟩ := exists_position h
  exact ⟨p, hp, isBoundary_iff.2 ⟨_, _, text_parts t le_rfl, hoffset.symm⟩⟩

lemma slice?_between (hlow : low < high) (hhigh : high ≤ (ofText t).size) :
    ∃ p q s, (ofText t).position? low = some p ∧
    (ofText t).position? high = some q ∧ Span.between? p.offset q.offset = some s ∧
    t.slice? s = some ((((ofText t).tokens.take high).drop low).flatMap (·.text)) := by
  obtain ⟨p, hp, hstart⟩ := exists_position (hlow.le.trans hhigh)
  obtain ⟨q, hq, hstop⟩ := exists_position hhigh
  have hsize : p.offset + Text.size ((((ofText t).tokens.take high).drop low).flatMap (·.text)) =
      q.offset := by
    rw [hstart, hstop, ← size_append, ← flatMap_append]
    conv_rhs => rw [← take_append_drop low ((ofText t).tokens.take high), take_take,
      Nat.min_eq_left hlow.le]
  have hle : p.offset ≤ q.offset := by omega
  refine ⟨p, q, ⟨p.offset, q.offset, hle⟩, hp, hq, dif_pos hle, ?_⟩
  exact slice?_eq_some_iff.2 ⟨_, _, text_parts t hlow.le, hstart.symm, hsize⟩

/-- Lexing gives an index of the text. -/
theorem indexes_ofText (t : Text) : (ofText t).Indexes t where
  scanned := lexemes_ofText t ▸ scans_ofText t
  nonempty := text_ne_nil t
  text := tokens_text t
  boundary i h := isBoundary_position h
  stop := by
    obtain ⟨p, hp, hoffset⟩ := exists_position (Nat.le_refl (ofText t).size)
    refine ⟨p, hp, ?_⟩
    rw [hoffset, Lexed.size, take_length, tokens_text]
  increasing := increasing_faults _
  bounded f hf := by
    obtain ⟨k, hk, -⟩ := bind_eq_some_iff.1 (mem_faults.1 hf)
    exact (List.getElem?_eq_some_iff.1 hk).1
  found i h m := by
    rw [fault?_eq, map_bind, bind_eq_some_iff]
    rfl
  sliced low high hlow hhigh := by
    obtain ⟨p, q, s, hp, hq, hs, hslice⟩ := slice?_between hlow hhigh
    exact ⟨p, q, s, hp, hq, hs, by rw [hslice, textIn?, if_pos ⟨hlow, hhigh⟩], hslice⟩
end Lexed
end LiveEdit
