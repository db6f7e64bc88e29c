import LiveEdit.Document.Editing
import LiveEdit.Proofs.Parse.Seats
import LiveEdit.Proofs.Parse.Views

namespace LiveEdit
open Option
open List hiding count

namespace Parse.Seat
open LiveEdit.Tree

variable {t : Text} {a : Address} {n : Nat} {k : Kind} {s : Tree}

def text (p : Seat t a n k s) : Text := plant p.uA (p.front ++ s :: p.back) p.uB

def edit (p : Seat t a n k s) : Edit :=
  ⟨n + sizeAll (p.opening ++ p.before), sizeAll p.gap, textAll (p.front ++ s :: p.back)⟩

def place (p : Seat t a n k s) : Nat := n + sizeAll (p.opening ++ p.before) + sizeAll p.front

end Parse.Seat

namespace Document
open Failure Text LiveEdit.Tree Parse Wrapper

variable {d : Document} {n index : Nat} {k : Kind} {a : Address} {l : MemberList}
  {t lead close : Text}
  {F M G cs : List Tree} {s : Tree} {first previous c : Site} {braces : Site × Site} {i j : Nat}

def comma (l : MemberList) : Text := if l.separator = .comma then [','] else []

lemma memberInsertion_nil {s left right : Site}
    (h : s.members l = []) (hle : left.span.stop ≤ right.span.start) :
    memberInsertion s l (left, right) index lead close t = .ok ⟨.insertion left.span.stop
      (right.span.start - left.span.stop) (lead ++ t ++ close), lead.size⟩ := by
  have hspan : bodySpan (left, right) = .ok ⟨left.span.stop, right.span.start, hle⟩ := by
    rw [bodySpan, Span.between?, dif_pos hle]
    rfl
  unfold memberInsertion
  rw [h]
  dsimp only
  rw [hspan]
  rfl

lemma memberInsertion_zero {s : Site} (h : (s.members l)[0]? = some (j, first)) : memberInsertion s
      l braces 0 lead close t = .ok ⟨.insert first.start (t ++ comma l ++ lead), 0⟩ := by
  obtain ⟨more, hmore⟩ := List.head?_eq_some_iff.1 (head?_eq_getElem? ▸ h)
  unfold memberInsertion
  rw [hmore]
  rfl

lemma memberInsertion_succ {s : Site} (h : (s.members l)[i]? = some (j, previous)) :
    memberInsertion s l braces (i + 1) lead close t =
      match (s.next? j).filter fun c => l.separator = .comma && c.kind == .comma with
      | some c => .ok ⟨.insert c.span.stop (lead ++ t ++ comma l), lead.size⟩
      | none =>
        .ok ⟨.insert previous.span.stop (comma l ++ lead ++ t), (comma l).size + lead.size⟩ := by
  obtain ⟨m, more, hmore⟩ : ∃ m more, s.members l = m :: more := by
    refine exists_cons_of_ne_nil fun hnil => ?_
    rw [hnil] at h
    cases h
  unfold memberInsertion
  rw [hmore] at h ⊢
  dsimp only
  rw [h]
  rfl

lemma textAll_separators (hcap : k.capabilities.members = some l) :
    textAll (separators k) = comma l := by
  have hcommas := (Site.members_of_capabilities hcap).2.2
  unfold comma separators
  by_cases hk : k.hasCommas = true
  · rw [if_pos hk, if_pos (hcommas.2 hk)]
    rfl
  · rw [if_neg hk, if_neg fun hl => hk (hcommas.1 hl)]
    rfl

def runsOn (t : Text) (offset : Nat) (u : Text) : Bool :=
  (t.cut? offset).any (fun p => p.2.head?.any Lexeme.isWordPart) && u.getLast?.any Lexeme.isWordPart

lemma apart_of_runsOn {x y u : Text} {offset : Nat} (h : runsOn t offset u = false)
    (hxy : t = x ++ y) (hx : x.size = offset) : (∀ b ∈ y.head?, Lexeme.isWordPart b = false) ∨
    ∀ b ∈ u.getLast?, Lexeme.isWordPart b = false := by
  have hcut : t.cut? offset = some (x, y) := by
    rw [hxy, ← hx]
    exact cut?_append x y
  rw [runsOn, hcut, Bool.and_eq_false_iff] at h
  rcases h with h | h
  · refine .inl fun b hb => ?_
    rw [any_some, mem_def.1 hb] at h
    exact h
  · refine .inr fun b hb => ?_
    rw [mem_def.1 hb] at h
    exact h

structure Sits (l : MemberList) (cs : List Tree) (braces : Site × Site) (index : Nat)
    (lead close : Text)
    {t : Text} {a : Address} {n : Nat} {k : Kind} {s : Tree} (i : Insertion) (p : Seat t a n k s) :
    Prop where
  insertion : memberInsertion ⟨n, .node k cs⟩ l braces index lead close s.text = .ok i
  manipulation : i.manipulation = .insertion p.edit.position p.edit.removed p.edit.inserted
  offset : i.offset = sizeAll p.front
  before : count p.before = index
  list : p.list = ⟨n, .node k cs⟩

section

variable (hs : Joins k s) (hcap : k.capabilities.members = some l)
  (hclean : (ofText t).diagnostics = [])
  (hat : (ofText t).site.at? a = some ⟨n, .node k (F ++ (M ++ G))⟩) (hbed : Bed a k F M G)
include hs hcap hclean hat hbed

omit hclean in
lemma exists_sits_between (hbraces : (⟨n, .node k (F ++ (M ++ G))⟩ : Site).braces? = some braces)
    (hM : count M = 0) (hlead : lead.Blank) (hclose : close.Blank) (hne : close ≠ []) :
    ∃ i, ∃ p : Seat t a n k s, Sits l (F ++ (M ++ G)) braces 0 lead close i p := by
  have hk := (Site.members_of_capabilities hcap).1
  obtain ⟨p, hopening, hbefore, hgap, hafter, hclosing, hfront, hback⟩ :=
    exists_seat_between hs hk hat hbed hM hlead hclose hne
  obtain ⟨left, right, hfound, hleft, hright⟩ := Site.braces?_bed hbed hk n
  obtain rfl : braces = (left, right) := mem_unique hbraces hfound
  have hmembers : (⟨n, .node k (F ++ (M ++ G))⟩ : Site).members l = [] :=
    eq_nil_of_length_eq_zero ((Site.length_members hbed hcap n).trans hM)
  refine ⟨_, p, memberInsertion_nil hmembers (by omega), ?_, ?_, ?_, ?_⟩
  · rw [hleft, hright, Seat.edit, hopening, hbefore, hgap, hfront, hback, Nat.add_sub_cancel_left,
      append_nil, textAll_append, textAll, textAll_pad, textAll_pad, append_assoc]
  · rw [hfront, size_pad]
  · rw [hbefore]
    rfl
  · rw [Seat.list, hopening, hbefore, hgap, hafter, hclosing, append_nil, nil_append]

lemma exists_sits_front (hM : 0 < count M) (hlead : lead.Blank) (hne : lead ≠ []) :
    ∃ i, ∃ p : Seat t a n k s, Sits l (F ++ (M ++ G)) braces 0 lead close i p := by
  have hk := (Site.members_of_capabilities hcap).1
  obtain ⟨P, c, S, rfl, hP, hnode, hmember⟩ := Site.exists_member hbed hcap hM
  obtain ⟨p, hopening, hbefore, hgap, hafter, hclosing, hfront, hback⟩ :=
    exists_seat_front hs hk hclean hat hbed hP hnode hlead hne
  refine ⟨_, p, memberInsertion_zero (hmember n), ?_, ?_, ?_, ?_⟩
  · rw [Seat.edit, hopening, hbefore, hgap, hfront, hback, nil_append, textAll, textAll_append,
      textAll_pad, textAll_separators hcap, sizeAll_append, ← Nat.add_assoc, append_assoc]
    rfl
  · rw [hfront]
    rfl
  · rw [hbefore, hP]
  · simp [Seat.list, hopening, hbefore, hgap, hafter, hclosing]

lemma exists_sits_behind (hi : i < count M) (hlead : lead.Blank) (hne : lead ≠ [])
    (hapart : k = .classDeclaration → ∀ m ∈ ((⟨n, .node k (F ++ (M ++ G))⟩ : Site).members l)[i]?,
      runsOn t m.2.span.stop s.text = false) :
    ∃ j, ∃ p : Seat t a n k s, Sits l (F ++ (M ++ G)) braces (i + 1) lead close j p := by
  obtain ⟨hk, -, hseparator⟩ := Site.members_of_capabilities hcap
  obtain ⟨P, c, S, rfl, hP, hnode, hmember⟩ := Site.exists_member hbed hcap hi
  have hcount : ∀ V : List Tree, count (P ++ c :: V) = i + 1 + count V := by
    intro V
    rw [← hP, count, countP_append, countP_cons_of_pos hnode]
    simp only [count]
    omega
  rcases Site.next?_bed hbed hnode n with ⟨V, x, S, rfl, hV, hnext⟩ | ⟨hS, hnext⟩
  · obtain rfl : k = .enumDeclaration := hk.resolve_right fun hclass => by
      rcases hbed.mem (.token .comma x) (by simp)
        with ⟨j, z, heq, hj⟩ | ⟨hcommas, -⟩ | ⟨j, ps, heq, -⟩
      · cases heq
        cases hj
      · rw [hclass] at hcommas
        cases hcommas
      · cases heq
    have hregroup :
        P ++ c :: (V ++ .token .comma x :: S) = (P ++ c :: V) ++ .token .comma x :: S := by simp
    rw [hregroup] at hat hbed
    obtain ⟨p, hopening, hbefore, hgap, hafter, hclosing, hfront, hback⟩ :=
      exists_seat_comma hs hat hbed hlead
    refine ⟨_, p, (memberInsertion_succ (hmember n)).trans (by
      rw [hnext, filter_some, hseparator.2 rfl]
      rfl), ?_, ?_, ?_, ?_⟩
    · rw [Seat.edit, hopening, hbefore, hgap, hfront, hback, textAll_append, textAll, textAll_pad,
        textAll_separators hcap]
      simp only [Manipulation.insert, Site.span_stop, sizeAll_append, sizeAll, append_assoc,
        Tree.size]
      congr 1
      omega
    · rw [hfront, size_pad]
    · rw [hbefore, count, countP_append, ← count, hcount V, count, countP_eq_zero.2 fun v hv =>
        by simp [(hV v hv).isNode]]
      rfl
    · simp [Seat.list, hopening, hbefore, hgap, hafter, hclosing]
  · have hnone : (((⟨n, .node k (F ++ ((P ++ c :: S) ++ G))⟩ : Site).next? (count (F ++ P))).filter
        fun z => l.separator = .comma && z.kind == .comma) = none := by
      rw [filter_eq_none_iff]
      intro z hz
      simp [hnext z hz]
    obtain ⟨p, hopening, hbefore, hgap, hafter, hclosing, hfront, hback⟩ :=
      exists_seat_behind hs hk hclean hat hbed hnode hS hlead hne fun hclass x y hxy hsize => by
        have hstop : x.size = (⟨n + sizeAll F + sizeAll P, c⟩ : Site).span.stop := by
          rw [hsize, Site.span_stop, sizeAll_append, sizeAll_append]
          simp only [sizeAll]
          omega
        exact apart_of_runsOn (hapart hclass _ (hmember n)) hxy hstop
    refine ⟨_, p, (memberInsertion_succ (hmember n)).trans (by rw [hnone]), ?_, ?_, ?_, ?_⟩
    · rw [Seat.edit, hopening, hbefore, hgap, hfront, hback, textAll_append, textAll_append,
        textAll_pad,
        textAll_singleton, textAll_separators hcap, Site.span_stop, sizeAll_append, sizeAll_append]
      simp only [sizeAll, Manipulation.insert, Nat.add_assoc, Nat.add_zero]
    · rw [hfront, sizeAll_append, size_pad, sizeAll_eq_text (separators k), textAll_separators hcap]
    · rw [hbefore]
      exact hcount []
    · simp [Seat.list, hopening, hbefore, hgap, hafter, hclosing]

lemma exists_sits (hbraces : (⟨n, .node k (F ++ (M ++ G))⟩ : Site).braces? = some braces)
    (hindex : index ≤ count M) (hlead : lead.Blank) (hne : lead ≠ []) (hclose : close.Blank)
    (hne' : close ≠ []) (hapart : k = .classDeclaration → ∀ i, index = i + 1 →
      ∀ m ∈ ((⟨n, .node k (F ++ (M ++ G))⟩ : Site).members l)[i]?,
      runsOn t m.2.span.stop s.text = false) :
    ∃ i, ∃ p : Seat t a n k s, Sits l (F ++ (M ++ G)) braces index lead close i p := by
  cases index with
  | zero =>
    rcases Nat.eq_zero_or_pos (count M) with hM | hM
    · exact exists_sits_between hs hcap hat hbed hbraces hM hlead hclose hne'
    · exact exists_sits_front hs hcap hclean hat hbed hM hlead hne
  | succ i =>
    exact exists_sits_behind hs hcap hclean hat hbed hindex hlead hne fun hclass m hm =>
      hapart hclass i rfl m hm

end

end Document
end LiveEdit
