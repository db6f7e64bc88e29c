import LiveEdit.Proofs.Lexeme.Joining
import LiveEdit.Proofs.Parse.Missing
import LiveEdit.Proofs.Parse.Planting

namespace LiveEdit
open List

namespace Site
open LiveEdit.Tree

variable {ls : List (Kind × Text)} {ts : List Tree} {s c : Site} {n : Nat} {a : Address}

def Sits (ls : List (Kind × Text)) (s : Site) : Prop :=
  ∃ L R, L ++ (s.tree.leaves ++ R) = ls ∧ (spell L).size = s.start

lemma sits_row (h : s ∈ row n ts) :
    ∃ L R, L ++ (s.tree.leaves ++ R) = leavesAll ts ∧ n + (spell L).size = s.start := by
  induction ts generalizing n with
  | nil => cases h
  | cons t ts ih =>
    rcases mem_cons.1 h with rfl | h
    · exact ⟨[], leavesAll ts, rfl, rfl⟩
    · obtain ⟨L, R, hleaves, hstart⟩ := ih h
      refine ⟨t.leaves ++ L, R, ?_, ?_⟩
      · rw [leavesAll, ← hleaves, append_assoc]
      · rw [spell_append, Text.size_append, ← hstart, size_eq_text, text_eq_leaves]
        exact (Nat.add_assoc ..).symm

lemma Sits.element (h : Sits ls s) (hc : c ∈ s.elements) : Sits ls c := by
  obtain ⟨L, R, rfl, hL⟩ := h
  obtain ⟨start, tree⟩ := s
  cases tree with
  | token k t => cases hc
  | node k ts =>
    obtain ⟨L', R', hleaves, hstart⟩ := sits_row hc
    refine ⟨L ++ L', R' ++ R, ?_, ?_⟩
    · rw [leaves, ← show _ = leavesAll ts from hleaves]
      simp
    · rw [spell_append, Text.size_append, hL]
      exact hstart

lemma Sits.at? (h : Sits ls s) (ha : s.at? a = some c) : Sits ls c := by
  induction a generalizing s with
  | nil => exact Option.some.inj ha ▸ h
  | cons i a ih =>
    obtain ⟨e, he, hrest⟩ := Option.bind_eq_some_iff.1 ha
    exact ih (h.element (mem_filter.1 (mem_of_getElem? he)).1) hrest

lemma sits_of_at? {t : Text} (h : (Parse.ofText t).site.at? a = some s) : Sits (Parse.lex t) s := by
  refine Sits.at? ⟨[], [], ?_, rfl⟩ h
  rw [Parse.leaves_ofText, append_nil]
  rfl

end Site

namespace Lexeme
open Text

variable {t : Text} {us ms vs : List Lexeme} {n m p q : Nat}

def IsCut (t : Text) (n : Nat) : Prop := ∃ us vs, ofText t = us ++ vs ∧ (spell us).size = n

lemma IsCut.isBoundary (h : IsCut t n) : t.isBoundary n = true := by
  obtain ⟨us, vs, hparts, rfl⟩ := h
  have htext := (scans_ofText t).text
  rw [hparts, spell_append, append_nil] at htext
  exact isBoundary_iff.2 ⟨spell us, spell vs, htext.symm, rfl⟩

lemma isCut_of_sits {s : Site} (h : s.Sits (Parse.lex t)) :
    IsCut t s.start ∧ IsCut t s.span.stop := by
  obtain ⟨L, R, hlex, hstart⟩ := h
  rw [Parse.lex_eq] at hlex
  obtain ⟨us, rest, hus, rfl, hrest⟩ := map_eq_append_iff.1 hlex.symm
  obtain ⟨ms, vs, rfl, hms, rfl⟩ := map_eq_append_iff.1 hrest
  rw [spell_leaves] at hstart
  refine ⟨⟨us, ms ++ vs, hus, hstart⟩, us ++ ms, vs, by rw [hus, append_assoc], ?_⟩
  rw [spell_append, size_append, hstart, Site.span_stop, Tree.size_eq_text,
    Tree.text_eq_leaves, ← hms]
  exact congrArg _ (congrArg size (spell_leaves ms).symm)

lemma spell_eq_nil (h : ∀ l ∈ us, l.text ≠ []) (hnil : spell us = []) : us = [] := by
  cases us with
  | nil => rfl
  | cons l us => exact absurd (append_eq_nil_iff.1 hnil).1 (h l mem_cons_self)

lemma exists_part {us' vs' : List Lexeme} (h : ofText t = us ++ vs) (h' : ofText t = us' ++ vs')
    (hle : (spell us).size ≤ (spell us').size) : ∃ ms, us' = us ++ ms ∧ vs = ms ++ vs' := by
  rcases append_eq_append_iff.1 (h.symm.trans h') with hpart | ⟨ms, rfl, rfl⟩
  · exact hpart
  · rw [spell_append, size_append] at hle
    have hnil : spell ms = [] := eq_nil_of_size (by omega)
    have htexts : ∀ l ∈ ms, l.text ≠ [] := fun l hl =>
      text_ne_nil_of_mem_scanMany _ _ l (show l ∈ ofText t by rw [h]; simp [hl])
    obtain rfl := spell_eq_nil htexts hnil
    exact ⟨[], by simp, rfl⟩

end Lexeme

namespace Token

variable {l : Token} {ls : List Lexeme} {p : Position} {start stop : Nat}

lemma place_bounds (h : l ∈ place p ls) : p.offset ≤ l.position.offset ∧
    l.position.offset + l.text.size ≤ p.offset + (Lexeme.spell ls).size := by
  induction ls generalizing p with
  | nil => cases h
  | cons u ls ih =>
    have hspell : (Lexeme.spell (u :: ls)).size = u.text.size + (Lexeme.spell ls).size :=
      Text.size_append ..
    rcases mem_cons.1 h with rfl | h
    · exact ⟨le_rfl, by rw [hspell]; exact Nat.add_le_add_left (Nat.le_add_right ..) _⟩
    · obtain ⟨hstart, hstop⟩ := ih h
      rw [Position.offset_past] at hstart hstop
      omega

def isWithin (start stop : Nat) (l : Token) : Bool :=
  decide (start ≤ l.position.offset) && decide (l.position.offset + l.text.size ≤ stop)

lemma within_of_place (h : l ∈ place p ls) (hstart : start ≤ p.offset)
    (hstop : p.offset + (Lexeme.spell ls).size ≤ stop) : l.isWithin start stop = true := by
  have hbounds := place_bounds h
  rw [isWithin, decide_eq_true (by omega), decide_eq_true (by omega), Bool.and_self]

lemma not_within_of_place (h : l ∈ place p ls)
    (hl : l.text ≠ []) (hout : p.offset + (Lexeme.spell ls).size ≤ start ∨ stop ≤ p.offset) :
    l.isWithin start stop = false := by
  have hbounds := place_bounds h
  have hpos : 0 < l.text.size := Nat.pos_of_ne_zero fun hzero => hl (Text.eq_nil_of_size hzero)
  rw [isWithin, Bool.and_eq_false_iff, decide_eq_false_iff_not, decide_eq_false_iff_not]
  omega

end Token

namespace Lexed
open Lexeme

variable {t : Text} {us ms vs : List Lexeme}

def between (x : Lexed) (start stop : Nat) : List (Kind × Text) :=
  (x.tokens.filter fun l => !l.kind.isTrivia && l.isWithin start stop).map Token.leaf

lemma between_eq {start stop : Nat} (h : Lexeme.ofText t = us ++ (ms ++ vs))
    (hstart : (spell us).size = start) (hstop : (spell (us ++ ms)).size = stop) :
    (ofText t).between start stop = Lexeme.tokens ms := by
  have htexts := text_ne_nil t
  obtain ⟨p, hp, hstart'⟩ := Token.exists_place .first us (ms ++ vs)
  obtain ⟨q, hq, hstop'⟩ := Token.exists_place p ms vs
  have htokens :
      (ofText t).tokens = Token.place .first us ++ (Token.place p ms ++ Token.place q vs) := by
    rw [← hq, ← hp, ← h]
    rfl
  rw [htokens] at htexts
  rw [spell_append, Text.size_append] at hstop
  rw [show Position.first.offset = 0 from rfl] at hstart'
  have hbefore :
      (Token.place .first us).filter (fun l => !l.kind.isTrivia && l.isWithin start stop) = [] := by
    refine filter_eq_nil_iff.2 fun l hl => ?_
    rw [Token.not_within_of_place hl (htexts l (by simp [hl]))
        (.inl (by rw [← hstart]; exact Nat.le_of_eq (Nat.zero_add _))),
      Bool.and_false]
    exact Bool.false_ne_true
  have hafter :
      (Token.place q vs).filter (fun l => !l.kind.isTrivia && l.isWithin start stop) = [] := by
    refine filter_eq_nil_iff.2 fun l hl => ?_
    rw [Token.not_within_of_place hl (htexts l (by simp [hl])) (.inr (by omega)), Bool.and_false]
    exact Bool.false_ne_true
  have hinside : (Token.place p ms).filter (fun l => !l.kind.isTrivia && l.isWithin start stop) =
      (Token.place p ms).filter (!·.kind.isTrivia) := by
    refine filter_congr fun l hl => ?_
    rw [Token.within_of_place hl (by omega) (by omega), Bool.and_true]
  rw [between, htokens, filter_append, filter_append, hbefore, hafter, hinside, nil_append,
    append_nil, Lexeme.tokens]
  conv_rhs => rw [← Token.map_place p ms]
  rw [filter_map, map_map]
  rfl

structure Segment (t : Text) (start stop : Nat) (x : Text) : Prop where
  tokens : (ofText t).between start stop = Lexeme.tokens (Lexeme.ofText x)
  faultless : ∀ l ∈ Lexeme.ofText x, l.fault = none

lemma segment_of_part (h : Lexeme.ofText t = us ++ (ms ++ vs))
    (hf : ∀ l ∈ Lexeme.ofText t, l.fault = none) :
    Segment t (spell us).size (spell (us ++ ms)).size (spell ms) := by
  have hscans := scans_ofText t
  rw [h] at hscans hf
  have hms : ∀ l ∈ ms, l.fault = none := fun l hl => hf l (by simp [hl])
  have hself := ofText_spell hscans.split.2.split.1
  exact ⟨by rw [between_eq h rfl rfl, hself], by rwa [hself]⟩

lemma between_all (t : Text) : (ofText t).between 0 t.size = Lexeme.tokens (Lexeme.ofText t) := by
  have hspell := (scans_ofText t).text
  rw [append_nil] at hspell
  have hall : Lexeme.ofText t = [] ++ (Lexeme.ofText t ++ []) := by rw [append_nil, nil_append]
  exact between_eq hall rfl (by rw [nil_append, ← hspell])

lemma exists_segments {n m p q : Nat} (hf : ∀ l ∈ Lexeme.ofText t, l.fault = none) (hn : IsCut t n)
    (hm : IsCut t m) (hp : IsCut t p) (hq : IsCut t q) (hnm : n ≤ m) (hmp : m ≤ p) (hpq : p ≤ q) :
    ∃ a b c d e, t = a ++ (b ++ (c ++ (d ++ e))) ∧ a.size = n ∧ (a ++ b).size = m ∧
    (a ++ (b ++ c)).size = p ∧ (a ++ (b ++ (c ++ d))).size = q ∧ Segment t 0 n a ∧ Segment t m p c ∧
    Segment t q t.size e := by
  obtain ⟨as, more, hone, rfl⟩ := hn
  obtain ⟨_, _, htwo, rfl⟩ := hm
  obtain ⟨_, _, hthree, rfl⟩ := hp
  obtain ⟨_, es, hfour, rfl⟩ := hq
  obtain ⟨ds, rfl, rfl⟩ := exists_part hthree hfour hpq
  obtain ⟨cs, rfl, rfl⟩ := exists_part htwo hthree hmp
  obtain ⟨bs, rfl, rfl⟩ := exists_part hone htwo hnm
  have hspell := (scans_ofText t).text
  rw [append_nil] at hspell
  have hstart : Lexeme.ofText t = [] ++ (as ++ (bs ++ (cs ++ (ds ++ es)))) := hone
  have hend : Lexeme.ofText t = (as ++ bs ++ cs ++ ds) ++ (es ++ []) := by rw [append_nil, hfour]
  refine ⟨spell as, spell bs, spell cs, spell ds, spell es, ?_, rfl, ?_, ?_, ?_, ?_, ?_, ?_⟩
  · conv_lhs => rw [hspell, hone]
    simp only [spell_append]
  · rw [spell_append]
  · simp only [spell_append, append_assoc]
  · simp only [spell_append, append_assoc]
  · exact segment_of_part hstart hf
  · exact segment_of_part htwo hf
  · have hsegment := segment_of_part hend hf
    rwa [← hfour, ← hspell] at hsegment

end Lexed
end LiveEdit
