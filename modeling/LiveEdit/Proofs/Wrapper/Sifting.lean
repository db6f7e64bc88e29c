import LiveEdit.Proofs.Wrapper.Carrying
import LiveEdit.Proofs.Wrapper.Reaching

/-! What becomes of a wrapper depends on those above it, so other numbers may be sifted out before.
-/

namespace LiveEdit
open List
namespace Wrapper

mutual

def sift (q : Nat → Bool) : Wrapper → Wrapper
  | mk i n s ws => mk i n s (siftAll q ws)

def siftAll (q : Nat → Bool) : List Wrapper → List Wrapper
  | [] => []
  | w :: ws => if q w.index then sift q w :: siftAll q ws else siftAll q ws

end

def bare (w : Wrapper) : Wrapper := mk w.index w.ordinal w.site []

variable {q r : Nat → Bool} {v w c p : Wrapper} {ws us l : List Wrapper} {i fresh : Nat}
  {a : Address}

lemma siftAll_eq (q : Nat → Bool) (ws : List Wrapper) :
    siftAll q ws = (ws.filter (q ·.index)).map (sift q) := by
  induction ws with
  | nil => rfl
  | cons w ws ih =>
    rw [siftAll, ih]
    by_cases h : q w.index = true <;> simp [h]

lemma siftAll_append (q : Nat → Bool) (us ws : List Wrapper) :
    siftAll q (us ++ ws) = siftAll q us ++ siftAll q ws := by
  simp only [siftAll_eq, filter_append, map_append]

lemma siftAll_of_not (h : ∀ w ∈ ws, q w.index = false) : siftAll q ws = [] := by
  have hnone : ws.filter (q ·.index) = [] := by
    rw [filter_eq_nil_iff]
    intro w hw
    simp [h w hw]
  rw [siftAll_eq, hnone, map_nil]

lemma siftAll_singleton (h : q w.index = true) : siftAll q [w] = [sift q w] := by
  rw [siftAll, if_pos h, siftAll]

@[simp] lemma index_sift (q : Nat → Bool) (w : Wrapper) : (sift q w).index = w.index := by
  cases w
  rw [sift, index, index]

@[simp] lemma ordinal_sift (q : Nat → Bool) (w : Wrapper) : (sift q w).ordinal = w.ordinal := by
  cases w
  rw [sift, ordinal, ordinal]

@[simp] lemma site_sift (q : Nat → Bool) (w : Wrapper) : (sift q w).site = w.site := by
  cases w
  rw [sift, site, site]

@[simp] lemma children_sift (q : Nat → Bool) (w : Wrapper) :
    (sift q w).children = siftAll q w.children := by
  cases w
  rw [sift, children, children]

lemma sift_eq (q : Nat → Bool) (w : Wrapper) :
    sift q w = mk w.index w.ordinal w.site (siftAll q w.children) := by
  cases w
  rw [sift]
  rfl

@[simp] lemma bare_sift (q : Nat → Bool) (w : Wrapper) : (sift q w).bare = w.bare := by
  simp only [bare, index_sift, ordinal_sift, site_sift]

lemma mem_all_sift (h : v ∈ (sift q w).all) : ∃ u ∈ w.all, v = sift q u := by
  induction w with
  | mk j n s ws ih =>
    rcases mem_all.1 h with rfl | ⟨c', hc', hv⟩
    · exact ⟨_, self_mem_all _, rfl⟩
    · rw [children_sift, siftAll_eq] at hc'
      obtain ⟨c, hc, rfl⟩ := mem_map.1 hc'
      have hchild : c ∈ ws := (mem_filter.1 hc).1
      obtain ⟨u, hu, rfl⟩ := ih c hchild hv
      exact ⟨u, mem_all.2 (.inr ⟨c, hchild, hu⟩), rfl⟩

def Links (v w : Wrapper) : Prop := ∀ p ∈ v.all, ∀ c ∈ p.children,
  ∃ p' ∈ w.all, ∃ c' ∈ p'.children, p'.index = p.index ∧ c'.index = c.index

lemma Links.mem (h : v.Links w) (hd : w.indices.Nodup) {u u' c' : Wrapper}
    (hu : u ∈ w.all) (hu' : u' ∈ v.all) (hindex : u'.index = u.index) (hc' : c' ∈ u'.all) :
    ∃ c ∈ u.all, c.index = c'.index := by
  induction u' generalizing u with
  | mk j n s ws ih =>
    rcases mem_all.1 hc' with rfl | ⟨e', he', hc'⟩
    · exact ⟨u, self_mem_all u, hindex.symm⟩
    · obtain ⟨p, hp, e, he, hparent, hchild⟩ := h _ hu' e' he'
      obtain rfl : p = u := eq_of_index_eq hd hp hu (hparent.trans hindex)
      have hbelow := ih e' he' (mem_all_of_child hp he) (mem_all_of_child hu' he') hchild.symm hc'
      obtain ⟨c, hc, hsame⟩ := hbelow
      exact ⟨c, mem_all.2 (.inr ⟨e, he, hc⟩), hsame⟩

lemma links_sift (q : Nat → Bool) (w : Wrapper) : (sift q w).Links w := by
  intro p hp c hc
  obtain ⟨p', hp', rfl⟩ := mem_all_sift hp
  rw [children_sift, siftAll_eq] at hc
  obtain ⟨c', hc', rfl⟩ := mem_map.1 hc
  exact ⟨p', hp', c', (mem_filter.1 hc').1, (index_sift q p').symm, (index_sift q c').symm⟩

lemma sift_of_all (h : ∀ i ∈ w.indices, q i = true) : sift q w = w := by
  induction w with
  | mk j n s ws ih =>
    have hws : ∀ c ∈ ws, ∀ i ∈ c.indices, q i = true := by
      intro c hc i hi
      apply h
      rw [indices_eq]
      exact mem_cons_of_mem _ (mem_indicesOf.2 ⟨c, hc, hi⟩)
    have hfilter : ws.filter (q ·.index) = ws :=
      filter_eq_self.2 fun c hc => hws c hc _ (mem_indices_of_mem (self_mem_all c))
    have hmap : ws.map (sift q) = ws.map id := map_congr_left fun c hc => ih c hc (hws c hc)
    rw [sift, siftAll_eq, hfilter, hmap, map_id]

lemma sift_sift (q r : Nat → Bool) (w : Wrapper) :
    sift q (sift r w) = sift (fun i => q i && r i) w := by
  induction w with
  | mk j n s ws ih =>
    rw [sift, sift, sift, siftAll_eq, siftAll_eq, siftAll_eq, filter_map, map_map, filter_filter]
    have hindex : ((q ·.index) ∘ sift r) = fun c => q c.index := by
      funext c
      show q (sift r c).index = q c.index
      rw [index_sift]
    rw [hindex]
    apply congrArg (mk j n s)
    exact map_congr_left fun c hc => ih c (mem_filter.1 hc).1

lemma prune_eq_sift (i : Nat) (w : Wrapper) : prune i w = sift (· ≠ i) w := by
  induction w with
  | mk j n s ws ih =>
    rw [prune, sift, pruneAll_eq, siftAll_eq]
    apply congrArg (mk j n s)
    exact map_congr_left fun c hc => ih c (mem_filter.1 hc).1

lemma sift_prune (q : Nat → Bool) (i : Nat) (w : Wrapper) :
    sift q (prune i w) = prune i (sift q w) := by
  rw [prune_eq_sift, prune_eq_sift, sift_sift, sift_sift]
  simp only [Bool.and_comm]

lemma siftAll_prune (q : Nat → Bool) (i : Nat) (w : Wrapper) :
    siftAll q [w.prune i] = (siftAll q [w]).map (prune i) := by
  have hindex : (w.prune i).index = w.index := by rw [prune_eq, index]
  rw [siftAll, siftAll, hindex, sift_prune, siftAll]
  split_ifs <;> rfl

@[simp] lemma index_clear (i : Nat) (w : Wrapper) : (clear i w).index = w.index := by
  rw [clear_eq, index]

lemma links_clear (i : Nat) (w : Wrapper) : (clear i w).Links w := by
  induction w with
  | mk j n s ws ih =>
    intro p hp c hc
    rw [clear] at hp
    split_ifs at hp with hi
    · rcases mem_all.1 hp with rfl | ⟨u, hu, -⟩
      · cases hc
      · cases hu
    · rw [clearAll_eq] at hp
      rcases mem_all.1 hp with rfl | ⟨u, hu, hp⟩
      · obtain ⟨c', hc', rfl⟩ := mem_map.1 hc
        exact ⟨_, self_mem_all _, c', hc', rfl, (index_clear i c').symm⟩
      · obtain ⟨u', hu', rfl⟩ := mem_map.1 hu
        obtain ⟨p', hp', hlink⟩ := ih u' hu' p hp c hc
        exact ⟨p', mem_all.2 (.inr ⟨u', hu', hp'⟩), hlink⟩

lemma sift_clear (q : Nat → Bool) (i : Nat) (w : Wrapper) :
    sift q (clear i w) = clear i (sift q w) := by
  induction w with
  | mk j n s ws ih =>
    have hws : siftAll q (clearAll i ws) = clearAll i (siftAll q ws) := by
      have hindex : ((q ·.index) ∘ clear i) = fun c => q c.index := by
        funext c
        show q (clear i c).index = q c.index
        rw [index_clear]
      rw [siftAll_eq, siftAll_eq, clearAll_eq, clearAll_eq, filter_map, map_map, map_map, hindex]
      exact map_congr_left fun c hc => ih c (mem_filter.1 hc).1
    rw [sift, clear, clear]
    split_ifs with hi
    · rw [sift, siftAll]
    · rw [sift, hws]

lemma siftAll_clear (q : Nat → Bool) (i : Nat) (w : Wrapper) :
    siftAll q [w.clear i] = (siftAll q [w]).map (clear i) := by
  rw [siftAll, siftAll, index_clear, sift_clear, siftAll]
  split_ifs <;> rfl

lemma sift_setChild (h : siftAll q [c] = siftAll q (w.slots.get? c.ordinal).toList) :
    sift q (w.setChild c) = sift q w := by
  have hitems : w.slots.before c.ordinal ++ ((w.slots.get? c.ordinal).toList ++
      w.slots.after c.ordinal) = w.children := OrderedIndex.before_append_after w.slots c.ordinal
  have hset : (w.setChild c).children =
      w.slots.before c.ordinal ++ ([c] ++ w.slots.after c.ordinal) := rfl
  have hchildren : siftAll q (w.setChild c).children = siftAll q w.children := by
    rw [hset, ← hitems, siftAll_append, siftAll_append, h, siftAll_append, siftAll_append]
  rw [sift_eq q (w.setChild c), hchildren, sift_eq q w]
  rfl

/-- Wrappers that are made on the way to a node have new numbers, and are not there after sifting
for old ones. -/
lemma sift_reach (hb : w.Bound) (hq : ∀ i, fresh ≤ i → q i = false) :
    sift q (reach fresh a w).wrapper = sift q w := by
  fun_induction reach fresh a w with
  | case1 | case4 => rfl
  | case2 fresh n a w c hget r ih =>
    obtain ⟨hc, rfl⟩ := (get?_slots hb).1 hget
    have hreach : Extends fresh c r := extends_reach (hb.child c hc)
    apply sift_setChild
    rw [hreach.ordinal, hget]
    simp only [Option.toList, siftAll, hreach.index, ih (hb.child c hc) hq, r]
  | case3 fresh n a w hget s hnode r ih =>
    have hreach : Extends (fresh + 1) (mk fresh n s []) r := extends_reach (bound_leaf fresh n s)
    have hget' : w.slots.get? (mk fresh n s []).ordinal = none := hget
    apply sift_setChild
    rw [hreach.ordinal, hget', Option.toList, siftAll, siftAll, hreach.index]
    exact if_neg (Bool.eq_false_iff.1 (hq fresh le_rfl))

def Rising (w : Wrapper) : Prop := ∀ v ∈ w.all, ∀ c ∈ v.children, v.index < c.index

lemma Rising.child (h : w.Rising) (hc : c ∈ w.children) : c.Rising :=
  fun v hv => h v (mem_all.2 (.inr ⟨c, hc, hv⟩))

lemma rising_leaf (i n : Nat) (s : Site) : (mk i n s []).Rising := by
  intro v hv c hc
  rcases mem_all.1 hv with rfl | ⟨u, hu, -⟩
  · cases hc
  · cases hu

lemma rising_mk {n : Nat} {s : Site} (hlt : ∀ c ∈ ws, i < c.index) (h : ∀ c ∈ ws, c.Rising) :
    (mk i n s ws).Rising := by
  intro v hv c hc
  rcases mem_all.1 hv with rfl | ⟨u, hu, hv⟩
  · exact hlt c hc
  · exact h u hu v hv c hc

lemma Rising.of_links (h : w.Rising) (hv : v.Links w) : v.Rising := by
  intro p hp c hc
  obtain ⟨p', hp', c', hc', hparent, hchild⟩ := hv p hp c hc
  rw [← hparent, ← hchild]
  exact h p' hp' c' hc'

lemma Rising.sift (h : w.Rising) (q : Nat → Bool) : (w.sift q).Rising :=
  h.of_links (links_sift q w)

lemma Rising.setChild (hb : w.Bound) (h : w.Rising) (hc : c.Rising) (hlt : w.index < c.index) :
    (w.setChild c).Rising := by
  have hmem : ∀ u ∈ (w.slots.set c).items, u = c ∨ u ∈ w.children := by
    intro u hu
    exact ((OrderedIndex.mem_set (sorted_slots hb)).1 hu).imp_right And.left
  apply rising_mk
  · intro u hu
    rcases hmem u hu with rfl | hu
    · exact hlt
    · exact h w (self_mem_all w) u hu
  · intro u hu
    rcases hmem u hu with rfl | hu
    · exact hc
    · exact h.child hu

lemma Rising.reach (hb : w.Bound) (h : w.Rising) (hlt : ∀ i ∈ w.indices, i < fresh) :
    (reach fresh a w).wrapper.Rising := by
  fun_induction Wrapper.reach fresh a w with
  | case1 | case4 => exact h
  | case2 fresh n a w c hget r ih =>
    obtain ⟨hc, rfl⟩ := (get?_slots hb).1 hget
    have hindices : ∀ i ∈ c.indices, i < fresh := by
      intro i hi
      apply hlt
      rw [indices_eq]
      exact mem_cons_of_mem _ (mem_indicesOf.2 ⟨c, hc, hi⟩)
    refine Rising.setChild hb h (ih (hb.child c hc) (h.child hc) hindices) ?_
    rw [(extends_reach (hb.child c hc)).index]
    exact h w (self_mem_all w) c hc
  | case3 fresh n a w hget s hnode r ih =>
    have hone : ∀ i ∈ (mk fresh n s []).indices, i < fresh + 1 := by
      intro i hi
      rw [indices_mk, mem_cons] at hi
      rcases hi with rfl | hi
      · exact Nat.lt_succ_self _
      · cases hi
    refine Rising.setChild hb h (ih (bound_leaf fresh n s) (rising_leaf fresh n s) hone) ?_
    rw [(extends_reach (bound_leaf fresh n s)).index]
    exact hlt _ (mem_indices_of_mem (self_mem_all w))

def Closed (q : Nat → Bool) (w : Wrapper) : Prop :=
  ∀ v ∈ w.all, ∀ c ∈ v.children, q c.index = true → q v.index = true

lemma Rising.closed (h : w.Rising) (b : Nat) : w.Closed (· < b) := by
  intro v hv c hc hlt
  have hrise := h v hv c hc
  simp only [decide_eq_true_eq] at hlt ⊢
  exact hrise.trans hlt

lemma Closed.child (h : w.Closed q) (hc : c ∈ w.children) : c.Closed q :=
  fun v hv => h v (mem_all.2 (.inr ⟨c, hc, hv⟩))

lemma Closed.not_of_mem (h : w.Closed q) (hw : q w.index = false) (hi : i ∈ w.indices) :
    q i = false := by
  obtain ⟨v, hv, rfl⟩ := mem_map.1 hi
  clear hi
  induction w with
  | mk j n s ws ih =>
    rcases mem_all.1 hv with rfl | ⟨c, hc, hv⟩
    · exact hw
    · have hfalse : q c.index = false := by
        by_contra hne
        exact Bool.eq_false_iff.1 hw (h _ (self_mem_all _) c hc (Bool.not_eq_false _ ▸ hne))
      exact ih c hc (h.child hc) hfalse hv

lemma trailIn?_siftAll (h : ∀ c ∈ ws, q c.index = false → trail? i c = none)
    (hws : ∀ c ∈ ws, trail? i (sift q c) = (trail? i c).map (List.map (sift q))) :
    trailIn? i (siftAll q ws) = (trailIn? i ws).map (List.map (sift q)) := by
  induction ws with
  | nil => rfl
  | cons c ws ih =>
    have hrest := ih (fun u hu => h u (mem_cons_of_mem c hu))
      fun u hu => hws u (mem_cons_of_mem c hu)
    cases hc : q c.index with
    | true =>
      rw [siftAll, if_pos hc, trailIn?, trailIn?, hws c mem_cons_self, hrest, Option.map_or]
    | false =>
      rw [siftAll, if_neg (Bool.eq_false_iff.1 hc), trailIn?, h c mem_cons_self hc,
        Option.none_or, hrest]

lemma trail?_sift (h : w.Closed q) (hi : q i = true) :
    trail? i (sift q w) = (trail? i w).map (List.map (sift q)) := by
  induction w with
  | mk j n s ws ih =>
    have hrest : trailIn? i (siftAll q ws) = (trailIn? i ws).map (List.map (sift q)) := by
      refine trailIn?_siftAll (fun c hc hfalse => ?_) fun c hc => ih c hc (h.child hc)
      apply trail?_eq_none
      intro hmem
      exact Bool.eq_false_iff.1 ((h.child hc).not_of_mem hfalse hmem) hi
    rw [sift, trail?, trail?, hrest]
    split_ifs with hj
    · simp [sift]
    · cases trailIn? i ws <;> simp [sift]

lemma all_sift (h : w.Closed q) (hw : q w.index = true) :
    (sift q w).all.map bare = (w.all.filter (q ·.index)).map bare := by
  induction w with
  | mk j n s ws ih =>
    have hws : ∀ us : List Wrapper, (∀ c ∈ us, c ∈ ws) →
        (allOf (siftAll q us)).map bare = ((allOf us).filter (q ·.index)).map bare := by
      intro us
      induction us with
      | nil => exact fun _ => rfl
      | cons c us ihus =>
        intro hsub
        have hc : c ∈ ws := hsub c mem_cons_self
        have hrest := ihus fun u hu => hsub u (mem_cons_of_mem c hu)
        rw [allOf, filter_append, map_append, ← hrest]
        cases hcq : q c.index with
        | true =>
          rw [siftAll, if_pos hcq, allOf, map_append, ih c hc (h.child hc) hcq]
        | false =>
          -- with a wrapper, all those below it go
          have hnone : c.all.filter (q ·.index) = [] := by
            rw [filter_eq_nil_iff]
            intro v hv
            rw [(h.child hc).not_of_mem hcq (mem_indices_of_mem hv)]
            exact Bool.false_ne_true
          rw [siftAll, if_neg (Bool.eq_false_iff.1 hcq), hnone, map_nil, nil_append]
    have hhead : (mk j n s ws).all.filter (q ·.index) =
        mk j n s ws :: (allOf ws).filter (q ·.index) := by
      rw [all]
      exact filter_cons_of_pos hw
    rw [hhead, map_cons, ← hws ws fun _ hc => hc, sift, all, map_cons]
    rfl

end Wrapper

namespace Carried
open Wrapper

structure Sifts (q : Nat → Bool) (r r' : Carried) : Prop where
  kept : siftAll q r.kept = r'.kept
  lost : (r.lost.filter (q ·.index)).map bare = r'.lost.map bare

variable {q : Nat → Bool} {w : Wrapper} {ws : List Wrapper} {r r' s s' : Carried}

lemma Sifts.append (h : Sifts q r r') (hs : Sifts q s s') :
    Sifts q (r.append s) (r'.append s') := by
  refine ⟨?_, ?_⟩
  · rw [Carried.append, siftAll_append, h.kept, hs.kept, Carried.append]
  · rw [Carried.append, filter_append, map_append, h.lost, hs.lost, Carried.append, map_append]

lemma sifts_collect {f : Wrapper → Carried}
    (hyes : ∀ c ∈ ws, q c.index = true → Sifts q (f c) (f (sift q c)))
    (hno : ∀ c ∈ ws, q c.index = false → Sifts q (f c) {}) :
    Sifts q (collect f ws) (collect f (siftAll q ws)) := by
  induction ws with
  | nil => exact ⟨rfl, rfl⟩
  | cons c ws ih =>
    have hrest := ih (fun u hu => hyes u (mem_cons_of_mem c hu))
      fun u hu => hno u (mem_cons_of_mem c hu)
    rw [collect, siftAll]
    cases hc : q c.index with
    | true =>
      rw [if_pos rfl, collect]
      exact (hyes c mem_cons_self hc).append hrest
    | false =>
      rw [if_neg Bool.false_ne_true]
      exact (hno c mem_cons_self hc).append hrest

lemma sifts_lose (h : w.Closed q) (hw : q w.index = true) :
    Sifts q (.lose w) (.lose (sift q w)) := ⟨rfl, (all_sift h hw).symm⟩

lemma sifts_mismatch (h : w.Closed q) (hw : q w.index = true) :
    Sifts q (.mismatch w) (.mismatch (sift q w)) := ⟨rfl, (all_sift h hw).symm⟩

lemma Sifts.keep {i : Nat} (h : Sifts q r r') (hi : q i = true) (ordinal : Nat) (site : Site) :
    Sifts q (r.keep i ordinal site) (r'.keep i ordinal site) := by
  refine ⟨?_, h.lost⟩
  have hone : q (Wrapper.mk i ordinal site r.kept).index = true := hi
  rw [Carried.keep, siftAll_singleton hone, sift, h.kept, Carried.keep]

end Carried

namespace Carrier
open Wrapper Carried

variable {q : Nat → Bool} {x : Carrier} {w : Wrapper} {r : Carried} {shifted : Bool}
  {ordinal : Nat} {new : Site} {nodes : List Site}

lemma Carries.sifts_nothing (h : x.Carries w r) (hw : w.Closed q) (hq : q w.index = false) :
    Sifts q r {} := by
  have hlost : r.lost.filter (q ·.index) = [] := by
    rw [filter_eq_nil_iff]
    intro v hv
    have hmem : v.index ∈ w.indices := by
      rw [h.numbers.mem_iff]
      exact mem_append_right _ (mem_map_of_mem hv)
    rw [hw.not_of_mem hq hmem]
    exact Bool.false_ne_true
  refine ⟨siftAll_of_not fun w' hw' => ?_, ?_⟩
  · rw [h.index w' hw', hq]
  · rw [hlost]

lemma carries_beside (hb : w.Bound)
    (hfits : x.Fits w.span (sideOf shifted)) : x.Carries w (x.beside shifted nodes w) := by
  unfold beside
  split
  · exact carries_unchanged hb hfits
  · exact carries_mismatch x w

lemma carries_within {oldCount : Nat} (hb : w.Bound) : x.Carries w (x.within oldCount nodes w) := by
  unfold within
  split
  · exact carries_lose x w
  · exact carries_mismatch x w
  · exact carries_path hb
  next hverdict => exact carries_unchanged hb (verdict_unchanged hverdict).2.1

lemma span_sift (q : Nat → Bool) (w : Wrapper) : (sift q w).span = w.span := by
  rw [Wrapper.span, site_sift, Wrapper.span]

lemma sifts_unchanged (hb : w.Bound) (hfits : x.Fits w.span (sideOf shifted))
    (hw : w.Closed q) (hq : q w.index = true) : Sifts q (x.carryUnchanged shifted ordinal new w)
      (x.carryUnchanged shifted ordinal new (sift q w)) := by
  induction w generalizing ordinal new with
  | mk i n s ws ih =>
    rw [carryUnchanged_eq, carryUnchanged_eq, site_sift]
    split_ifs
    · rw [children_sift, index_sift]
      refine Sifts.keep (sifts_collect (fun c hc hcq => ?_) fun c hc hcq => ?_) hq _ _
      · have hchild : x.Fits c.span (sideOf shifted) :=
          fits_of_mem_nodes (mem_of_getElem? (hb.nodes c hc)) hfits
        unfold beside
        rw [ordinal_sift]
        split
        · exact ih c hc (hb.child c hc) hchild (hw.child hc) hcq
        · exact sifts_mismatch (hw.child hc) hcq
      · have hchild : x.Fits c.span (sideOf shifted) :=
          fits_of_mem_nodes (mem_of_getElem? (hb.nodes c hc)) hfits
        exact (carries_beside (hb.child c hc) hchild).sifts_nothing (hw.child hc) hcq
    · exact sifts_mismatch hw hq

lemma verdict_sift (oldCount : Nat) (nodes : List Site) :
    x.verdict oldCount nodes (sift q w) = x.verdict oldCount nodes w := by
  rw [verdict, verdict, settle_eq, settle_eq]
  simp only [span_sift, index_sift, ordinal_sift, site_sift]

lemma sifts_path (hb : w.Bound) (hw : w.Closed q) (hq : q w.index = true) :
    Sifts q (x.carryPath ordinal new w) (x.carryPath ordinal new (sift q w)) := by
  induction w generalizing ordinal new with
  | mk i n s ws ih =>
    rw [carryPath_eq, carryPath_eq, site_sift]
    split_ifs
    · rw [children_sift, index_sift]
      refine Sifts.keep (sifts_collect (fun c hc hcq => ?_) fun c hc hcq => ?_) hq _ _
      · unfold within
        rw [verdict_sift]
        split
        · exact sifts_lose (hw.child hc) hcq
        · exact sifts_mismatch (hw.child hc) hcq
        · exact ih c hc (hb.child c hc) (hw.child hc) hcq
        next hverdict =>
          exact sifts_unchanged (hb.child c hc) (verdict_unchanged hverdict).2.1 (hw.child hc) hcq
      · exact (carries_within (hb.child c hc)).sifts_nothing (hw.child hc) hcq
    · exact sifts_lose hw hq

end Carrier
end LiveEdit
