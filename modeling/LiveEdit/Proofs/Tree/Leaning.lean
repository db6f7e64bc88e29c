import LiveEdit.Proofs.Tree.Replacement

/-! Between two trees the search for an offset takes the one on the left. -/

namespace LiveEdit
open Option
open List hiding count

namespace Tree

/-- Trees in a row of which only nodes right behind a token may be without text. -/
structure Packed (ts : List Tree) : Prop where
  token : ∀ t ∈ ts, t.isNode = false → 0 < t.size
  first : ∀ t ∈ ts.head?, 0 < t.size
  chain : ts.IsChain fun t u => u.size = 0 → t.isNode = false

lemma Packed.behind {ts : List Tree} {n i : Nat} {u : Site} (h : Packed ts)
    (hu : ((Site.row n ts).filter (·.tree.isNode))[i]? = some u) (hsize : u.tree.size = 0) :
    ∃ A tok B, ts = A ++ tok :: u.tree :: B ∧ count A = i ∧ u.start = n + sizeAll A + tok.size ∧
    0 < tok.size := by
  obtain ⟨A, B, rfl, hi, hstart⟩ := Site.exists_split hu
  rcases eq_nil_or_concat' A with rfl | ⟨A, tok, rfl⟩
  · exact absurd hsize (h.first _ rfl).ne'
  · have hchain := h.chain
    rw [append_assoc, singleton_append] at hchain
    have htok := (isChain_append_cons_cons.1 hchain).2.1 hsize
    refine ⟨A, tok, B, by rw [append_assoc]; rfl, ?_, ?_, h.token tok (by simp) htok⟩
    · rw [← hi, count, count, countP_append, countP_singleton, htok, if_neg Bool.false_ne_true,
        Nat.add_zero]
    · rw [hstart, sizeAll_append, ← Nat.add_assoc]
      rfl

end Tree

namespace Site
open LiveEdit.Tree

variable {s c u : Site} {a b : Address} {i j o n : Nat}

def Tight (s : Site) : Prop := ∀ (b : Address) (q : Site), s.at? b = some q → Packed q.tree.children

lemma Tight.node (h : s.Tight) (hc : s.nodes[i]? = some c) : c.Tight :=
  fun b q hq => h (i :: b) q (bind_eq_some_iff.2 ⟨c, hc, hq⟩)

lemma Tight.packed (h : s.Tight) : Packed s.tree.children := h [] s rfl

lemma Tight.start_lt (h : s.Tight) (hu : s.at? (i :: b) = some u) (hsize : u.tree.size = 0) :
    s.start < u.start := by
  induction b generalizing s i with
  | nil =>
    obtain ⟨c, hc, hcu⟩ := bind_eq_some_iff.1 hu
    obtain rfl := some.inj hcu
    obtain ⟨A, tok, B, -, -, hstart, hpos⟩ := h.packed.behind hc hsize
    omega
  | cons j b ih =>
    obtain ⟨c, hc, hcu⟩ := bind_eq_some_iff.1 hu
    have hbelow := ih (h.node hc) hcu
    have hinside := (mem_nodes (mem_of_getElem? hc)).1.1
    omega

lemma Tight.stop_lt (h : s.Tight) (hu : s.at? (j :: b) = some u) (hsize : u.tree.size = 0)
    (hc : s.nodes[i]? = some c) (hij : i < j) : c.span.stop < u.start := by
  obtain ⟨e, he, heu⟩ := bind_eq_some_iff.1 hu
  cases b with
  | nil =>
    obtain rfl := some.inj heu
    obtain ⟨A, tok, B, hchildren, rfl, hstart, hpos⟩ := h.packed.behind he hsize
    rw [nodes, elements, hchildren, row_append, filter_append,
      getElem?_append_left (by rwa [length_nodes])] at hc
    have hbound := (row_bounds (mem_filter.1 (mem_of_getElem? hc)).1).2
    omega
  | cons k b =>
    exact (stop_le_start_of_lt hc he hij).trans_lt ((h.node he).start_lt heu hsize)

lemma Tight.eq_of_start (h : s.Tight) {v : Site} (hu : s.at? a = some u) (hv : s.at? b = some v)
    (husize : u.tree.size = 0) (hvsize : v.tree.size = 0) (hstart : u.start = v.start) : a = b := by
  induction a generalizing s b with
  | nil =>
    cases b with
    | nil => rfl
    | cons j b =>
      obtain rfl := some.inj hu
      exact absurd hstart (h.start_lt hv hvsize).ne
  | cons i a ih =>
    cases b with
    | nil =>
      obtain rfl := some.inj hv
      exact absurd hstart (h.start_lt hu husize).ne'
    | cons j b =>
      obtain ⟨c, hc, hcu⟩ := bind_eq_some_iff.1 hu
      obtain ⟨e, he, hev⟩ := bind_eq_some_iff.1 hv
      -- what is in a node begins before the end of it
      have hleft : u.start ≤ c.span.stop :=
        (Nat.le_add_right _ _).trans (Span.contains_iff.1 (contains_of_at? hcu)).2
      have hright : v.start ≤ e.span.stop :=
        (Nat.le_add_right _ _).trans (Span.contains_iff.1 (contains_of_at? hev)).2
      rcases Nat.lt_trichotomy i j with hij | rfl | hij
      · have hlt := h.stop_lt hv hvsize hc hij
        omega
      · obtain rfl := mem_unique hc he
        rw [ih (h.node hc) hcu hev]
      · have hlt := h.stop_lt hu husize he hij
        omega

def Leans (o : Nat) (s : Site) : Prop :=
  s.start < o ∧ o ≤ s.span.stop ∨ s.start = o ∧ s.tree.size = 0

lemma Leans.bounds (h : s.Leans o) : s.start ≤ o ∧ o ≤ s.span.stop := by
  rw [span_stop]
  unfold Leans at h
  rw [span_stop] at h
  omega

lemma Tight.leans (h : s.Tight) (hu : s.at? a = some u) (hl : u.Leans o) : s.Leans o := by
  cases a with
  | nil => exact some.inj hu ▸ hl
  | cons i a =>
    have hinside := Span.contains_iff.1 (contains_of_at? hu)
    have hbounds := hl.bounds
    rcases hl with ⟨hstart, -⟩ | ⟨rfl, hsize⟩
    · exact .inl ⟨hinside.1.trans_lt hstart, hbounds.2.trans hinside.2⟩
    · exact .inl ⟨h.start_lt hu hsize, hbounds.2.trans hinside.2⟩

end Site

namespace Tree

variable {t : Tree} {ts : List Tree} {c : Site} {o start n i : Nat}

lemma coveringAll_stop (hle : start ≤ o)
    (h : o < start + t.size ∨ start + t.size = o ∧ ∀ u ∈ ts.head?, 0 < u.size) : coveringAll
      (.empty o) start n (t :: ts) = if t.isNode then n :: covering (.empty o) start t else [] := by
  have hin : (Span.sized start t.size).contains (.empty o) = true :=
    Span.contains_iff.2 ⟨hle, show o + 0 ≤ start + t.size by omega⟩
  rw [coveringAll.eq_def]
  dsimp only
  rw [hin, Bool.and_true, if_neg]
  rw [show (Span.empty o).start = o from rfl, show (Span.empty o).stop = o from rfl]
  rcases h with hlt | ⟨hstop, hnext⟩
  · simp [hlt]
  · cases ts with
    | nil => simp
    | cons u us =>
      have hpos := hnext u rfl
      simp [hstop, hpos]

lemma coveringAll_pass {u : Tree} (h : start + t.size < o ∨ start + t.size = o ∧ u.size = 0) :
    coveringAll (.empty o) start n (t :: u :: ts) =
      coveringAll (.empty o) (start + t.size) (if t.isNode then n + 1 else n) (u :: ts) := by
  rw [coveringAll.eq_def]
  dsimp only
  rw [if_pos]
  rw [show (Span.empty o).start = o from rfl, show (Span.empty o).stop = o from rfl]
  simp only [Bool.and_eq_true, Bool.not_eq_true', decide_eq_true_eq, Bool.and_eq_false_iff,
    decide_eq_false_iff_not]
  omega

lemma coveringAll_append {A B : List Tree} (hl : (⟨start + sizeAll A, t⟩ : Site).Leans o)
    (hnext : o < start + sizeAll A + t.size ∨ ∀ u ∈ B.head?, 0 < u.size) :
    coveringAll (.empty o) start n (A ++ t :: B) =
      if t.isNode then (n + count A) :: covering (.empty o) (start + sizeAll A) t else [] := by
  induction A generalizing start n with
  | nil =>
    have hbounds := hl.bounds
    rw [Site.span_stop] at hbounds
    refine coveringAll_stop hbounds.1 ?_
    rcases Nat.lt_or_eq_of_le hbounds.2 with hlt | heq
    · exact .inl hlt
    · exact hnext.imp_right fun hnext => ⟨heq.symm, hnext⟩
  | cons x A ih =>
    rw [sizeAll, ← Nat.add_assoc] at hl hnext ⊢
    -- what stands before a tree that leans ends before the offset or has only trees without text
    -- behind it
    have hpass : coveringAll (.empty o) start n (x :: (A ++ t :: B)) =
        coveringAll (.empty o) (start + x.size) (if x.isNode then n + 1 else n) (A ++ t :: B) := by
      unfold Site.Leans at hl
      rw [Site.span_stop] at hl
      dsimp only at hl
      cases A with
      | nil =>
        rw [sizeAll] at hl
        exact coveringAll_pass (by omega)
      | cons u A =>
        rw [sizeAll] at hl
        exact coveringAll_pass (by omega)
    rw [cons_append, hpass, ih hl hnext]
    cases hx : x.isNode with
    | false => rw [if_neg Bool.false_ne_true, count, count, countP_cons_of_neg (by simp [hx])]
    | true => rw [if_pos rfl, count, count, countP_cons_of_pos hx, Nat.add_assoc, Nat.add_comm 1]

lemma exists_leaning (htoken : ∀ t ∈ ts, t.isNode = false → 0 < t.size)
    (hchain : ts.IsChain fun t u => u.size = 0 → t.isNode = false)
    (hstart : start < o) (hstop : o ≤ start + sizeAll ts) :
    ∃ A t B, ts = A ++ t :: B ∧ (⟨start + sizeAll A, t⟩ : Site).Leans o ∧
    (o < start + sizeAll A + t.size ∨ ∀ u ∈ B.head?, 0 < u.size) := by
  induction ts generalizing start with
  | nil =>
    rw [sizeAll] at hstop
    omega
  | cons t ts ih =>
    rw [sizeAll] at hstop
    have hhere (hle : o ≤ start + t.size) : (⟨start + sizeAll [], t⟩ : Site).Leans o :=
      .inl ⟨hstart, hle⟩
    rcases Nat.lt_trichotomy o (start + t.size) with hlt | heq | hgt
    · exact ⟨[], t, ts, rfl, hhere hlt.le, .inl hlt⟩
    · by_cases hnext : ∀ u ∈ ts.head?, 0 < u.size
      · exact ⟨[], t, ts, rfl, hhere heq.le, .inr hnext⟩
      · -- behind a tree without text there is text
        obtain ⟨u, hu, hzero⟩ :
            ∃ u ∈ ts.head?, u.size = 0 := by simpa [Nat.pos_iff_ne_zero] using hnext
        obtain ⟨us, rfl⟩ := List.head?_eq_some_iff.1 hu
        refine ⟨[t], u, us, rfl, .inr ⟨?_, hzero⟩,
          .inr fun v hv => Nat.pos_of_ne_zero fun hvzero => ?_⟩
        · simp [sizeAll, heq]
        · obtain ⟨vs, rfl⟩ := List.head?_eq_some_iff.1 hv
          have hunode := (isChain_cons_cons.1 hchain.tail).1 hvzero
          exact absurd hzero (htoken u (by simp) hunode).ne'
    · obtain ⟨A, v, B, rfl, hl, hnext⟩ :=
        ih (fun u hu => htoken u (mem_cons_of_mem t hu)) hchain.tail hgt (by omega)
      rw [Nat.add_assoc start, ← sizeAll] at hl hnext
      exact ⟨t :: A, v, B, rfl, hl, hnext⟩

end Tree

namespace Site
open LiveEdit.Tree

variable {s u : Site} {a b : Address} {o : Nat}

lemma Tight.covering_of_leans (h : s.Tight) (hu : s.at? b = some u) (hl : u.Leans o) :
    s.tree.covering (.empty o) s.start = b ++ u.tree.covering (.empty o) u.start := by
  induction b generalizing s with
  | nil => exact some.inj hu ▸ rfl
  | cons i b ih =>
    obtain ⟨c, hc, hcu⟩ := bind_eq_some_iff.1 hu
    have hlc := (h.node hc).leans hcu hl
    have hnode : c.tree.isNode = true := (mem_filter.1 (mem_of_getElem? hc)).2
    obtain ⟨n, tree⟩ := s
    cases tree with
    | token => cases hc
    | node k ts =>
      obtain ⟨A, B, hts, rfl, hstart⟩ := exists_split hc
      obtain rfl : ts = A ++ c.tree :: B := hts
      have hnext : ∀ v ∈ B.head?, 0 < v.size := by
        intro v hv
        obtain ⟨B, rfl⟩ := List.head?_eq_some_iff.1 hv
        refine Nat.pos_of_ne_zero fun hzero => ?_
        have htoken := (isChain_append_cons_cons.1 h.packed.chain).2.1 hzero
        rw [hnode] at htoken
        cases htoken
      have hsite : (⟨n + sizeAll A, c.tree⟩ : Site).Leans o := by rwa [← hstart]
      have hway := coveringAll_append (n := 0) hsite (.inr hnext)
      rw [hnode, if_pos rfl, Nat.zero_add, ← hstart] at hway
      rw [Tree.covering, hway, ih (h.node hc) hcu, cons_append]

lemma Tight.exists_found (h : s.Tight) (hl : s.Leans o) :
    ∃ u, s.at? (s.tree.covering (.empty o) s.start) = some u ∧ u.Leans o := by
  generalize hway : s.tree.covering (.empty o) s.start = a
  induction a generalizing s with
  | nil => exact ⟨s, rfl, hl⟩
  | cons i a ih =>
    obtain ⟨n, tree⟩ := s
    cases tree with
    | token => cases hway
    | node k ts =>
      rw [Tree.covering] at hway
      have hp : Packed ts := h.packed
      -- a node without text has nothing below it
      have hbefore : n < o ∧ o ≤ n + sizeAll ts := by
        refine hl.resolve_right fun hempty => ?_
        have hsize := hempty.2
        cases ts with
        | nil => cases hway
        | cons t ts =>
          have hpos := hp.first t rfl
          rw [show (⟨n, .node k (t :: ts)⟩ : Site).tree.size = t.size + sizeAll ts from rfl]
            at hsize
          omega
      obtain ⟨A, t, B, rfl, hlt, hnext⟩ := exists_leaning hp.token hp.chain hbefore.1 hbefore.2
      rw [coveringAll_append hlt hnext] at hway
      cases ht : t.isNode with
      | false =>
        rw [ht, if_neg Bool.false_ne_true] at hway
        cases hway
      | true =>
        rw [ht, if_pos rfl, Nat.zero_add] at hway
        obtain ⟨rfl, hrest⟩ := cons.inj hway
        have hc : (⟨n, .node k (A ++ t :: B)⟩ : Site).nodes[count A]? = some ⟨n + sizeAll A, t⟩ :=
          node_at n A B ht
        obtain ⟨u, hu, hlu⟩ := ih (h.node hc) hlt hrest
        exact ⟨u, bind_eq_some_iff.2 ⟨_, hc, hu⟩, hlu⟩

structure Innermost (s : Site) (p : Site → Prop) (a : Address) : Prop where
  found : ∃ u, s.at? a = some u ∧ p u
  around : ∀ b u, s.at? b = some u → p u → b <+: a

lemma Tight.innermost_leans (h : s.Tight) (hl : s.Leans o) :
    s.Innermost (Leans o) (s.tree.covering (.empty o) s.start) := by
  refine ⟨h.exists_found hl, fun b u hu hlu => ?_⟩
  rw [h.covering_of_leans hu hlu]
  exact prefix_append _ _

lemma Tight.covering_of_edge (h : s.Tight) (hu : s.at? b = some u) (hstart : u.start = s.start)
    (hpos : 0 < u.tree.size) :
    s.tree.covering (.empty s.start) s.start = b ++ u.tree.covering (.empty u.start) u.start := by
  induction b generalizing s with
  | nil => exact some.inj hu ▸ rfl
  | cons i b ih =>
    obtain ⟨c, hc, hcu⟩ := bind_eq_some_iff.1 hu
    have hnode : c.tree.isNode = true := (mem_filter.1 (mem_of_getElem? hc)).2
    have hinside := Span.contains_iff.1 (contains_of_at? hcu)
    rw [span_start, span_start, span_stop, span_stop] at hinside
    obtain ⟨n, tree⟩ := s
    cases tree with
    | token => cases hc
    | node k ts =>
      obtain ⟨A, B, hts, rfl, hplace⟩ := exists_split hc
      obtain rfl : ts = A ++ c.tree :: B := hts
      dsimp only at hstart hplace ⊢
      cases A with
      | nil =>
        rw [sizeAll, Nat.add_zero] at hplace
        have hway : coveringAll (.empty n) n 0 (c.tree :: B) = 0 :: c.tree.covering (.empty n) n :=
          (coveringAll_stop le_rfl (.inl (by omega))).trans (if_pos hnode)
        have hrest := ih (h.node hc) hcu (hstart.trans hplace.symm)
        rw [hplace] at hrest
        rw [Tree.covering, nil_append, hway, hrest]
        rfl
      | cons t A =>
        have hfirst := h.packed.first t rfl
        rw [sizeAll] at hplace
        omega

lemma Tight.exists_edge (h : s.Tight) (hpos : 0 < s.tree.size) :
    ∃ u, s.at? (s.tree.covering (.empty s.start) s.start) = some u ∧ u.start = s.start ∧
    0 < u.tree.size := by
  generalize hway : s.tree.covering (.empty s.start) s.start = a
  induction a generalizing s with
  | nil => exact ⟨s, rfl, rfl, hpos⟩
  | cons i a ih =>
    obtain ⟨n, tree⟩ := s
    cases tree with
    | token => cases hway
    | node k ts =>
      cases ts with
      | nil => cases hway
      | cons t ts =>
        have hfirst : 0 < t.size := h.packed.first t rfl
        rw [Tree.covering, coveringAll_stop le_rfl (.inl (Nat.lt_add_of_pos_right hfirst))] at hway
        cases ht : t.isNode with
        | false =>
          rw [ht, if_neg Bool.false_ne_true] at hway
          cases hway
        | true =>
          rw [ht, if_pos rfl] at hway
          obtain ⟨rfl, hrest⟩ := cons.inj hway
          have hc : (⟨n, .node k (t :: ts)⟩ : Site).nodes[0]? = some ⟨n, t⟩ := node_at n [] ts ht
          obtain ⟨u, hu, hstart, hsize⟩ := ih (h.node hc) hfirst hrest
          exact ⟨u, bind_eq_some_iff.2 ⟨_, hc, hu⟩, hstart, hsize⟩

def Holds (o : Nat) (s : Site) : Prop := s.start ≤ o ∧ o < s.span.stop

lemma Tight.innermost_edge (h : s.Tight) (hpos : 0 < s.tree.size) :
    s.Innermost (Holds s.start) (s.tree.covering (.empty s.start) s.start) := by
  obtain ⟨u, hu, hstart, hsize⟩ := h.exists_edge hpos
  refine ⟨⟨u, hu, Nat.le_of_eq hstart, ?_⟩, fun b v hv hholds => ?_⟩
  · rw [span_stop, hstart]
    exact Nat.lt_add_of_pos_right hsize
  · have hinside : s.start ≤ v.start := (Span.contains_iff.1 (contains_of_at? hv)).1
    obtain ⟨hle, hlt⟩ := hholds
    rw [span_stop] at hlt
    rw [h.covering_of_edge hv (hle.antisymm hinside) (by omega)]
    exact prefix_append _ _

/-- The search finds the innermost node that has the byte at the offset just if the offset is where
the whole begins or no node begins or ends there. -/
lemma Tight.innermost_holds_iff (h : s.Tight) (hs : s.Holds o) :
    s.Innermost (Holds o) (s.tree.covering (.empty o) s.start) ↔
      o = s.start ∨ ∀ b u, s.at? b = some u → u.start ≠ o ∧ u.span.stop ≠ o := by
  rcases Nat.eq_or_lt_of_le hs.1 with rfl | hlt
  · have hpos : 0 < s.tree.size := Nat.lt_add_right_iff_pos.1 hs.2
    exact ⟨fun _ => .inl rfl, fun _ => h.innermost_edge hpos⟩
  obtain ⟨⟨u, hu, hlu⟩, haround⟩ := h.innermost_leans (.inl ⟨hlt, hs.2.le⟩)
  -- a node on the way to what was found contains it
  have hway : ∀ b v, s.at? b = some v → b <+: s.tree.covering (.empty o) s.start →
      v.start ≤ u.start ∧ u.span.stop ≤ v.span.stop := by
    rintro b v hv ⟨c, hc⟩
    rw [← hc, at?_append, hv, bind_some] at hu
    exact Span.contains_iff.1 (contains_of_at? hu)
  constructor
  · rintro ⟨⟨u', hu', hholds⟩, hall⟩
    obtain rfl := mem_unique hu hu'
    obtain ⟨-, hstop⟩ := hholds
    have hstart : u.start < o := by
      refine (hlu.resolve_right fun ⟨heq, hsize⟩ => ?_).1
      rw [span_stop] at hstop
      omega
    refine .inr fun b v hv => ⟨fun heq => ?_, fun heq => ?_⟩
    · rcases Nat.eq_zero_or_pos v.tree.size with hzero | hpos
      · have hin := hway b v hv (haround b v hv (.inr ⟨heq, hzero⟩))
        rw [span_stop v] at hin
        omega
      · have hin := hway b v hv (hall b v hv ⟨Nat.le_of_eq heq, by rw [span_stop]; omega⟩)
        omega
    · have hlv : v.Leans o := by
        rw [span_stop] at heq
        rcases Nat.eq_zero_or_pos v.tree.size with hzero | hpos
        · exact .inr ⟨by omega, hzero⟩
        · exact .inl ⟨by omega, by rw [span_stop]; omega⟩
      have hin := hway b v hv (haround b v hv hlv)
      omega
  · rintro (rfl | hnone)
    · exact absurd hlt (Nat.lt_irrefl _)
    refine ⟨⟨u, hu, hlu.bounds.1, ?_⟩, fun b v hv hholds => haround b v hv ?_⟩
    · exact Nat.lt_of_le_of_ne hlu.bounds.2 (hnone _ u hu).2.symm
    · exact .inl ⟨Nat.lt_of_le_of_ne hholds.1 (hnone b v hv).1, hholds.2.le⟩

structure Outermost (s : Site) (p : Site → Prop) (a : Address) : Prop where
  found : ∃ u, s.at? a = some u ∧ p u
  inside : ∀ b u, s.at? b = some u → p u → a <+: b

lemma Tight.mem_lineage_of_at? (h : s.Tight) (hu : s.at? b = some u) :
    ∃ a, s.covering? u.span = some a ∧ (b, u) ∈ s.lineage a := by
  rcases Nat.eq_zero_or_pos u.tree.size with hzero | hpos
  · have hspan : u.span = .empty u.start := by rw [span, hzero, Span.empty]
    rw [hspan, covering?, if_pos (hspan ▸ contains_of_at? hu)]
    refine ⟨_, rfl, mem_lineage.2 ⟨?_, hu⟩⟩
    rw [h.covering_of_leans hu (.inr ⟨rfl, hzero⟩)]
    exact prefix_append _ _
  · exact mem_lineage_of_contains hu (Span.contains_self _) (Nat.lt_add_of_pos_right hpos)

lemma lineage_ordered (s : Site) (a : Address) :
    (s.lineage a).Pairwise fun x y => x.1.length < y.1.length := by
  have hrange : (range (a.length + 1)).Pairwise fun n m => n < m ∧ m ≤ a.length :=
    pairwise_lt_range.imp_of_mem fun _ hm hlt => ⟨hlt, Nat.le_of_lt_succ (mem_range.1 hm)⟩
  refine hrange.filterMap _ ?_
  intro n m hnm x hx y hy
  obtain ⟨u, -, rfl⟩ := map_eq_some_iff.1 hx
  obtain ⟨v, -, rfl⟩ := map_eq_some_iff.1 hy
  rw [length_take, length_take]
  omega

lemma outermost_of_find? {p : Site → Bool} (h : (s.lineage a).find? (fun x => p x.2) = some (b, u))
    (hall : ∀ c v, s.at? c = some v → p v = true → (c, v) ∈ s.lineage a) :
    s.Outermost (p · = true) b := by
  obtain ⟨hp, before, after, hsplit, hnone⟩ := List.find?_eq_some_iff_append.1 h
  have hmem : (b, u) ∈ s.lineage a := by simp [hsplit]
  obtain ⟨hfront, hu⟩ := mem_lineage.1 hmem
  refine ⟨⟨u, hu, hp⟩, fun c v hv hpv => ?_⟩
  have hcv := hall c v hv hpv
  refine prefix_of_prefix_length_le hfront (mem_lineage.1 hcv).1 ?_
  have hordered := lineage_ordered s a
  rw [hsplit] at hcv hordered
  rcases mem_append.1 hcv with hbefore | hrest
  · have hnot := hnone _ hbefore
    rw [hpv] at hnot
    cases hnot
  rcases mem_cons.1 hrest with heq | hafter
  · rw [(Prod.mk.inj heq).1]
  · exact ((pairwise_cons.1 (pairwise_append.1 hordered).2.1).1 _ hafter).le

end Site
end LiveEdit
