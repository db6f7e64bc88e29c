import LiveEdit.Proofs.Text.Cutting
import LiveEdit.Tree.Basic

namespace LiveEdit
open List Option

namespace Tree

mutual

lemma size_eq_text : ∀ t : Tree, t.size = t.text.size
  | token _ _ => by rw [size, text]
  | node _ ts => by rw [size, text, sizeAll_eq_text ts]

lemma sizeAll_eq_text : ∀ ts : List Tree, sizeAll ts = (textAll ts).size
  | [] => rfl
  | t :: ts => by
    rw [sizeAll, textAll, Text.size_append, size_eq_text t, sizeAll_eq_text ts]

end

end Tree

namespace Site

variable {s c : Site} {t : Text} {n : Nat} {e : Site} {a : Address} {ts : List Tree}
  {sites : List Site}

@[simp] lemma span_start (s : Site) : s.span.start = s.start := rfl

lemma span_stop (s : Site) : s.span.stop = s.start + s.tree.size := rfl

lemma row_bounds (h : s ∈ row n ts) : n ≤ s.start ∧ s.span.stop ≤ n + Tree.sizeAll ts := by
  induction ts generalizing n with
  | nil => exact nomatch h
  | cons t ts ih =>
    simp only [row, mem_cons] at h
    simp only [Tree.sizeAll]
    obtain rfl | h := h
    · simp only [span_stop]
      omega
    · have hrest := ih h
      omega

lemma row_ordered (n : Nat) (ts : List Tree) :
    (row n ts).Pairwise fun a b => a.span.stop ≤ b.start := by
  induction ts generalizing n with
  | nil => exact .nil
  | cons t ts ih => exact .cons (fun s hs => (row_bounds hs).1) (ih _)

lemma trees_row (n : Nat) (ts : List Tree) :
    ((row n ts).filter (·.tree.isNode)).map Site.tree = ts.filter Tree.isNode := by
  induction ts generalizing n with
  | nil => rfl
  | cons t ts ih =>
    cases ht : t.isNode <;> simp [row, ht, ih]

lemma nodes_ordered (s : Site) : s.nodes.Pairwise fun a b => a.span.stop ≤ b.start :=
  (row_ordered s.start s.tree.children).filter _

lemma stop_le_start_of_lt {a b : Site} {i j : Nat} (hi : s.nodes[i]? = some a)
    (hj : s.nodes[j]? = some b) (h : i < j) : a.span.stop ≤ b.start := by
  obtain ⟨hi', rfl⟩ := List.getElem?_eq_some_iff.1 hi
  obtain ⟨hj', rfl⟩ := List.getElem?_eq_some_iff.1 hj
  exact pairwise_iff_getElem.1 s.nodes_ordered i j hi' hj' h

lemma splitRow_eq (h : (sites.filter (·.tree.isNode))[n]? = some c) :
    sites = (splitRow n sites).1 ++ c :: (splitRow n sites).2 := by
  induction sites generalizing n with
  | nil => cases h
  | cons s sites ih =>
    rw [filter_cons] at h
    cases hnode : s.tree.isNode with
    | true =>
      rw [hnode, if_pos rfl] at h
      cases n with
      | zero =>
        obtain rfl := some.inj h
        simp [splitRow, hnode]
      | succ n =>
        have hrest := ih h
        simp [splitRow, hnode, ← hrest]
    | false =>
      rw [hnode, if_neg Bool.false_ne_true] at h
      have hrest := ih h
      cases n <;> simp [splitRow, hnode, ← hrest]

lemma stop_le_next? (h : s.nodes[n]? = some c) (he : s.next? n = some e) :
    c.span.stop ≤ e.start := by
  have hsplit := splitRow_eq h
  have hordered : s.elements.Pairwise fun a b => a.span.stop ≤ b.start := row_ordered _ _
  rw [hsplit] at hordered
  have hmem : e ∈ (splitRow n s.elements).2 := mem_of_find?_eq_some he
  exact (pairwise_cons.1 (pairwise_append.1 hordered).2.1).1 e hmem

lemma previous?_stop_le (h : s.nodes[n]? = some c) (he : s.previous? n = some e) :
    e.span.stop ≤ c.start := by
  have hsplit := splitRow_eq h
  have hordered : s.elements.Pairwise fun a b => a.span.stop ≤ b.start := row_ordered _ _
  rw [hsplit] at hordered
  have hmem : e ∈ (splitRow n s.elements).1 := mem_reverse.1 (mem_of_find?_eq_some he)
  exact (pairwise_append.1 hordered).2.2 e hmem c mem_cons_self

lemma braces?_ordered {l r : Site} (h : s.braces? = some (l, r)) :
    l ∈ s.elements ∧ r ∈ s.elements ∧ l.span.stop ≤ r.start := by
  have hordered : (s.tokens.dropWhile (·.kind != .leftCurly)).Pairwise
      fun a b => a.span.stop ≤ b.start :=
    ((row_ordered s.start s.tree.children).filter _).sublist (dropWhile_sublist _)
  have hmem : ∀ e ∈ s.tokens.dropWhile (·.kind != .leftCurly), e ∈ s.elements :=
    fun e he => (mem_filter.1 ((dropWhile_sublist _).mem he)).1
  unfold braces? at h
  split at h
  · exact absurd h (by simp)
  next left more heq =>
    rw [heq] at hordered hmem
    obtain ⟨right, hright, hpair⟩ := map_eq_some_iff.1 h
    obtain ⟨rfl, rfl⟩ := Prod.mk.inj hpair
    have hin := mem_of_find?_eq_some hright
    exact ⟨hmem left mem_cons_self, hmem right (mem_cons_of_mem _ hin),
      (pairwise_cons.1 hordered).1 right hin⟩

def Lies (t : Text) (s : Site) : Prop := ∃ a b, a ++ (s.text ++ b) = t ∧ a.size = s.start

lemma lies_row (h : s ∈ row n ts) :
    ∃ a b, a ++ (s.text ++ b) = Tree.textAll ts ∧ n + a.size = s.start := by
  induction ts generalizing n with
  | nil => exact nomatch h
  | cons t ts ih =>
    simp only [row, mem_cons] at h
    rw [Tree.textAll]
    obtain rfl | h := h
    · exact ⟨[], Tree.textAll ts, rfl, rfl⟩
    · obtain ⟨a, b, htext, hstart⟩ := ih h
      refine ⟨t.text ++ a, b, ?_, ?_⟩
      · rw [← htext, append_assoc]
      · rw [Text.size_append, ← Tree.size_eq_text]
        omega

lemma mem_elements (h : c ∈ s.elements) : (s.start ≤ c.start ∧ c.span.stop ≤ s.span.stop) ∧
    ∃ a b, a ++ (c.text ++ b) = s.text ∧ s.start + a.size = c.start := by
  obtain ⟨start, tree⟩ := s
  cases tree with
  | token k t => exact nomatch h
  | node k ts => exact ⟨row_bounds h, lies_row h⟩

lemma mem_nodes (h : c ∈ s.nodes) : (s.start ≤ c.start ∧ c.span.stop ≤ s.span.stop) ∧
    ∃ a b, a ++ (c.text ++ b) = s.text ∧ s.start + a.size = c.start :=
  mem_elements (mem_filter.1 h).1

lemma contains_of_mem_nodes (h : c ∈ s.nodes) : s.span.contains c.span = true :=
  Span.contains_iff.2 (mem_nodes h).1

lemma lies_root (t : Tree) : Lies t.text ⟨0, t⟩ := ⟨[], [], append_nil _, rfl⟩

lemma Lies.element (h : Lies t s) (hc : c ∈ s.elements) : Lies t c := by
  obtain ⟨a, b, rfl, ha⟩ := h
  obtain ⟨-, a', b', htext, hstart⟩ := mem_elements hc
  refine ⟨a ++ a', b' ++ b, ?_, ?_⟩
  · simp [← htext]
  · rw [Text.size_append, ha, hstart]

lemma Lies.node (h : Lies t s) (hc : c ∈ s.nodes) : Lies t c :=
  h.element (mem_filter.1 hc).1

lemma at?_append (s : Site) (a b : Address) : s.at? (a ++ b) = (s.at? a).bind (·.at? b) := by
  induction a generalizing s with
  | nil => rfl
  | cons i a ih =>
    rw [cons_append, at?, at?, bind_assoc]
    exact congrArg _ (funext fun c => ih c)

lemma at?_concat (h : s.at? a = some c) (j : Nat) : s.at? (a ++ [j]) = c.nodes[j]? := by
  rw [at?_append, h, bind_some, at?]
  cases c.nodes[j]? <;> rfl

lemma isNode_of_at? (h : s.at? a = some c) (hs : s.tree.isNode = true) : c.tree.isNode = true := by
  induction a generalizing s with
  | nil => exact some.inj h ▸ hs
  | cons i a ih =>
    obtain ⟨e, he, hrest⟩ := bind_eq_some_iff.1 h
    exact ih hrest (mem_filter.1 (mem_of_getElem? he)).2

lemma Lies.at? (h : Lies t s) (ha : s.at? a = some c) : Lies t c := by
  induction a generalizing s with
  | nil => exact some.inj ha ▸ h
  | cons i a ih =>
    obtain ⟨e, he, hrest⟩ := bind_eq_some_iff.1 ha
    exact ih (h.node (mem_of_getElem? he)) hrest

lemma Lies.slice? (h : Lies t s) : t.slice? s.span = some s.text := by
  obtain ⟨a, b, htext, ha⟩ := h
  exact Text.slice?_eq_some_iff.2 ⟨a, b, htext, ha, by rw [text, ← Tree.size_eq_text]; rfl⟩

end Site

namespace Tree

variable {r : Span} {c : Site} {t : Tree} {ts : List Tree} {start n i : Nat}

lemma coveringAll_here (ht : t.isNode = true) (hin : (Span.sized start t.size).contains r = true)
    (hne : r.start < r.stop) : coveringAll r start n (t :: ts) = n :: covering r start t := by
  have hnot : ¬start + t.size ≤ r.start := by
    have hend : r.stop ≤ start + t.size := (Span.contains_iff.1 hin).2
    omega
  rw [coveringAll.eq_def]
  dsimp only
  rw [decide_eq_false hnot, Bool.false_and, if_neg Bool.false_ne_true, ht, hin]
  rfl

lemma coveringAll_past (hts : ts ≠ []) (hbefore : start + t.size ≤ r.start)
    (hne : r.start < r.stop) : coveringAll r start n (t :: ts) =
      coveringAll r (start + t.size) (if t.isNode then n + 1 else n) ts := by
  cases ts with
  | nil => exact absurd rfl hts
  | cons u us =>
    have hnot : ¬r.stop ≤ start + t.size := by omega
    rw [coveringAll.eq_def]
    dsimp only
    simp only [hbefore, hnot, decide_true, decide_false, Bool.and_false, Bool.not_false,
      Bool.and_true, if_true]

lemma coveringAll_of_contains (hc : ((Site.row start ts).filter (·.tree.isNode))[i]? = some c)
    (hin : c.span.contains r = true) (hne : r.start < r.stop) :
    coveringAll r start n ts = (n + i) :: covering r c.start c.tree := by
  induction ts generalizing start n i with
  | nil => cases hc
  | cons t ts ih =>
    -- what comes after the first tree makes the way pass it
    have hpast : c ∈ Site.row (start + t.size) ts → coveringAll r start n (t :: ts) =
        coveringAll r (start + t.size) (if t.isNode then n + 1 else n) ts := by
      intro hmem
      apply coveringAll_past
      · rintro rfl
        cases hmem
      · exact Nat.le_trans (Site.row_bounds hmem).1 (Span.contains_iff.1 hin).1
      · exact hne
    rw [Site.row, filter_cons] at hc
    cases ht : t.isNode with
    | false =>
      rw [ht, if_neg Bool.false_ne_true] at hc
      rw [hpast (mem_filter.1 (mem_of_getElem? hc)).1, ih hc, ht, if_neg Bool.false_ne_true]
    | true =>
      rw [ht, if_pos rfl] at hc
      cases i with
      | zero =>
        obtain rfl := some.inj hc
        exact coveringAll_here ht hin hne
      | succ i =>
        rw [List.getElem?_cons_succ] at hc
        rw [hpast (mem_filter.1 (mem_of_getElem? hc)).1, ih hc, ht, if_pos rfl,
          Nat.add_right_comm, Nat.add_assoc]

end Tree

namespace Site

variable {s c : Site} {r : Span} {a : Address}

lemma contains_of_at? (h : s.at? a = some c) : s.span.contains c.span = true := by
  induction a generalizing s with
  | nil =>
    obtain rfl := some.inj h
    exact Span.contains_self _
  | cons i a ih =>
    obtain ⟨e, he, hrest⟩ := bind_eq_some_iff.1 h
    exact Span.contains_trans (contains_of_mem_nodes (mem_of_getElem? he)) (ih hrest)

lemma covering_of_at? (h : s.at? a = some c) (hin : c.span.contains r = true)
    (hne : r.start < r.stop) : s.tree.covering r s.start = a ++ c.tree.covering r c.start := by
  induction a generalizing s with
  | nil =>
    obtain rfl := some.inj h
    rfl
  | cons i a ih =>
    obtain ⟨e, he, hrest⟩ := bind_eq_some_iff.1 h
    have hdown : e.span.contains r = true := Span.contains_trans (contains_of_at? hrest) hin
    obtain ⟨start, tree⟩ := s
    cases tree with
    | token k t => cases he
    | node k ts =>
      have hway : Tree.coveringAll r start 0 ts = (0 + i) :: e.tree.covering r e.start :=
        Tree.coveringAll_of_contains he hdown hne
      rw [Tree.covering, hway, ih hrest, Nat.zero_add, cons_append]

lemma mem_lineage {b : Address} : (a, c) ∈ s.lineage b ↔ a <+: b ∧ s.at? a = some c := by
  rw [lineage, mem_filterMap]
  constructor
  · rintro ⟨n, -, hn⟩
    obtain ⟨e, he, heq⟩ := map_eq_some_iff.1 hn
    obtain ⟨rfl, rfl⟩ := Prod.mk.inj heq
    refine ⟨?_, he⟩
    exact take_prefix n b
  · rintro ⟨hfront, hat⟩
    refine ⟨a.length, mem_range.2 (Nat.lt_succ_of_le hfront.length_le), ?_⟩
    rw [← prefix_iff_eq_take.1 hfront, hat]
    rfl

lemma mem_lineage_of_contains (h : s.at? a = some c) (hin : c.span.contains r = true)
    (hne : r.start < r.stop) : ∃ b, s.covering? r = some b ∧ (a, c) ∈ s.lineage b := by
  have hall : s.span.contains r = true := Span.contains_trans (contains_of_at? h) hin
  refine ⟨a ++ c.tree.covering r c.start, ?_, ?_⟩
  · rw [covering?, if_pos hall, covering_of_at? h hin hne]
  · exact mem_lineage.2 ⟨prefix_append _ _, h⟩

end Site
end LiveEdit
