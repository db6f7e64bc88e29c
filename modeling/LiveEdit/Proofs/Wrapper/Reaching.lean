import LiveEdit.Proofs.Wrapper.Bound

/-! Dropping wrappers leaves all others as they were, and to reach a node in steps is to go all the
way from the top. -/

namespace LiveEdit
open List

namespace Wrapper
open List

variable {v w c : Wrapper} {ws l : List Wrapper} {i : Nat}

lemma pruneAll_eq (i : Nat) (ws : List Wrapper) :
    pruneAll i ws = (ws.filter (·.index ≠ i)).map (prune i) := by
  induction ws with
  | nil => rfl
  | cons w ws ih =>
    rw [pruneAll, ih]
    by_cases h : w.index = i <;> simp [h]

lemma pruneAll_append (i : Nat) (us ws : List Wrapper) :
    pruneAll i (us ++ ws) = pruneAll i us ++ pruneAll i ws := by
  simp only [pruneAll_eq, filter_append, map_append]

lemma clearAll_eq (i : Nat) (ws : List Wrapper) : clearAll i ws = ws.map (clear i) := by
  induction ws with
  | nil => rfl
  | cons w ws ih => rw [clearAll, ih, map_cons]

lemma clearAll_append (i : Nat) (us ws : List Wrapper) :
    clearAll i (us ++ ws) = clearAll i us ++ clearAll i ws := by
  simp only [clearAll_eq, map_append]

lemma prune_eq (i : Nat) (w : Wrapper) :
    prune i w = .mk w.index w.ordinal w.site (pruneAll i w.children) := by
  cases w
  rw [prune]
  rfl

lemma clear_eq (i : Nat) (w : Wrapper) : clear i w = .mk w.index w.ordinal w.site
    (if i = w.index then [] else clearAll i w.children) := by
  cases w
  rw [clear]
  split_ifs with h h' h'
  · rfl
  · exact absurd h h'
  · exact absurd h' h
  · rfl

@[simp] lemma ordinal_prune (i : Nat) (w : Wrapper) : (prune i w).ordinal = w.ordinal := by
  rw [prune_eq, ordinal]

@[simp] lemma site_prune (i : Nat) (w : Wrapper) : (prune i w).site = w.site := by
  rw [prune_eq, site]

@[simp] lemma ordinal_clear (i : Nat) (w : Wrapper) : (clear i w).ordinal = w.ordinal := by
  rw [clear_eq, ordinal]

@[simp] lemma site_clear (i : Nat) (w : Wrapper) : (clear i w).site = w.site := by
  rw [clear_eq, site]

lemma Bound.map_children {f : Wrapper → Wrapper}
    {us : List Wrapper} {j n : Nat} (hb : w.Bound) (hsub : us.Sublist w.children)
    (hf : ∀ c ∈ us, (f c).Bound) (hsame : ∀ c, (f c).ordinal = c.ordinal ∧ (f c).site = c.site) :
    Bound (.mk j n w.site (us.map f)) := by
  refine .mk (fun u hu => ?_) ?_ fun u hu => ?_
  · obtain ⟨c, hc, rfl⟩ := mem_map.1 hu
    rw [(hsame c).1, (hsame c).2]
    exact hb.nodes c (hsub.subset hc)
  · rw [pairwise_map]
    exact (hb.ordered.sublist hsub).imp fun hlt => by rwa [(hsame _).1, (hsame _).1]
  · obtain ⟨c, hc, rfl⟩ := mem_map.1 hu
    exact hf c hc

lemma Bound.prune (hb : w.Bound) (i : Nat) : (w.prune i).Bound := by
  induction w with
  | mk j n s ws ih =>
    rw [prune_eq, pruneAll_eq]
    refine hb.map_children filter_sublist (fun c hc => ?_) fun c => by simp
    have hmem : c ∈ ws := (mem_filter.1 hc).1
    exact ih c hmem (hb.child c hmem)

lemma Bound.clear (hb : w.Bound) (i : Nat) : (w.clear i).Bound := by
  induction w with
  | mk j n s ws ih =>
    rw [clear_eq]
    split_ifs with hi
    · exact bound_leaf _ _ _
    · rw [clearAll_eq]
      exact hb.map_children (List.Sublist.refl _) (fun c hc => ih c hc (hb.child c hc))
        fun c => by simp

lemma not_mem_child (h : i ∉ indicesOf ws) (hc : c ∈ ws) : i ∉ c.indices :=
  fun hi => h (mem_indicesOf.2 ⟨c, hc, hi⟩)

lemma pruneAll_eq_self (h : i ∉ indicesOf ws) (hp : ∀ c ∈ ws, c.prune i = c) :
    pruneAll i ws = ws := by
  have hfilter : ws.filter (·.index ≠ i) = ws := by
    refine filter_eq_self.2 fun c hc => ?_
    have hne : c.index ≠ i :=
      fun heq => not_mem_child h hc (heq ▸ mem_indices_of_mem (self_mem_all c))
    simpa using hne
  rw [pruneAll_eq, hfilter, map_congr_left hp, map_id']

lemma prune_of_not_mem (h : i ∉ w.indices) : w.prune i = w := by
  induction w with
  | mk j n s ws ih =>
    rw [indices_eq, mem_cons, not_or] at h
    have hrest : pruneAll i ws = ws :=
      pruneAll_eq_self h.2 fun c hc => ih c hc (not_mem_child h.2 hc)
    rw [prune, hrest]

lemma pruneAll_of_not_mem (h : i ∉ indicesOf ws) : pruneAll i ws = ws :=
  pruneAll_eq_self h fun _ hc => prune_of_not_mem (not_mem_child h hc)

lemma clear_of_not_mem (h : i ∉ w.indices) : w.clear i = w := by
  induction w with
  | mk j n s ws ih =>
    rw [indices_eq, mem_cons, not_or] at h
    have hne : i ≠ j := h.1
    have hmap : ws.map (Wrapper.clear i) = ws.map id :=
      map_congr_left fun c hc => ih c hc (not_mem_child h.2 hc)
    rw [clear, if_neg hne, clearAll_eq, hmap, map_id]

lemma clearAll_of_not_mem (h : i ∉ indicesOf ws) : clearAll i ws = ws := by
  have hmap : ws.map (Wrapper.clear i) = ws.map id :=
    map_congr_left fun c hc => clear_of_not_mem (not_mem_child h hc)
  rw [clearAll_eq, hmap, map_id]

lemma split_children (hd : (indicesOf ws).Nodup) (hc : c ∈ ws) (hi : i ∈ c.indices) :
    ∃ us vs, ws = us ++ c :: vs ∧ i ∉ indicesOf us ∧ i ∉ indicesOf vs := by
  obtain ⟨us, vs, rfl⟩ := append_of_mem hc
  refine ⟨us, vs, rfl, fun hus => ?_, fun hvs => ?_⟩
  · rw [indicesOf_append, indicesOf_cons] at hd
    exact (nodup_append.1 hd).2.2 i hus i (mem_append_left _ hi) rfl
  · rw [indicesOf_append, indicesOf_cons] at hd
    exact (nodup_append.1 (nodup_append.1 hd).2.1).2.2 i hi i hvs rfl

lemma indices_prune (hd : w.indices.Nodup) (h : Trail w l v) (hne : v.index ≠ w.index) :
    w.indices.Perm ((w.prune v.index).indices ++ v.indices) := by
  induction h with
  | here w => exact absurd rfl hne
  | @step w c v l hc h ih =>
    have hall := hd
    rw [indices_eq, nodup_cons] at hd
    obtain ⟨us, vs, hws, hus, hvs⟩ := split_children hd.2 hc (mem_indices_of_mem h.mem)
    have hprune : pruneAll v.index w.children =
        us ++ (if c.index = v.index then vs else c.prune v.index :: vs) := by
      rw [hws, pruneAll_append, pruneAll_of_not_mem hus, pruneAll, pruneAll_of_not_mem hvs]
    rw [prune_eq, indices_mk, indices_eq w, hprune, hws]
    split_ifs with hindex
    · obtain rfl : c = v := eq_of_index_eq hall (mem_all_of_child (self_mem_all w) hc)
        (mem_all.2 (.inr ⟨c, hc, h.mem⟩)) hindex
      simp only [indicesOf_append, indicesOf_cons, perm_iff_count, count_append, count_cons]
      intro j
      omega
    · have hchild := ih (nodup_of_mem hd.2 hc) (Ne.symm hindex)
      simp only [indicesOf_append, indicesOf_cons, perm_iff_count, count_append, count_cons]
        at hchild ⊢
      intro j
      have hcount := hchild j
      omega

lemma indices_clear (hd : w.indices.Nodup) (h : Trail w l v) :
    w.indices.Perm ((w.clear v.index).indices ++ indicesOf v.children) := by
  induction h with
  | here w =>
    rw [clear_eq, if_pos rfl, indices_mk, indices_eq w]
    exact List.Perm.refl _
  | @step w c v l hc h ih =>
    rw [indices_eq, nodup_cons] at hd
    have hmem := mem_indices_of_mem h.mem
    have hne : v.index ≠ w.index := fun heq => hd.1 (heq ▸ mem_indicesOf.2 ⟨c, hc, hmem⟩)
    obtain ⟨us, vs, hws, hus, hvs⟩ := split_children hd.2 hc hmem
    have hclear : clearAll v.index w.children = us ++ c.clear v.index :: vs := by
      rw [hws, clearAll_append, clearAll_of_not_mem hus, clearAll, clearAll_of_not_mem hvs]
    have hchild := ih (nodup_of_mem hd.2 hc)
    rw [clear_eq, if_neg hne, indices_mk, indices_eq w, hclear, hws]
    simp only [indicesOf_append, indicesOf_cons, perm_iff_count, count_append, count_cons]
      at hchild ⊢
    intro j
    have hcount := hchild j
    omega
end Wrapper

lemma OrderedIndex.set_set {κ ν : Type} {x : OrderedIndex κ ν} [Std.ReflCmp x.order] {u v : ν}
    (h : x.key u = x.key v) : (x.set u).set v = x.set v := by
  have hself : x.order (x.key u) (x.key u) = .eq := Std.ReflCmp.compare_self
  have hstop : ¬ x.precedes (x.key u) u = true := by simp [precedes, hself]
  have hbefore : ∀ w ∈ x.before (x.key u), x.precedes (x.key u) w = true :=
    fun w hw => mem_takeWhile_imp hw
  have hitems : (x.set u).items = x.before (x.key u) ++ u :: x.after (x.key u) := rfl
  have hfront : (x.set u).before (x.key u) = x.before (x.key u) := by
    change takeWhile (x.precedes (x.key u)) (x.set u).items = _
    rw [hitems, takeWhile_append_of_pos hbefore, takeWhile_cons_of_neg hstop, append_nil]
  have hback : (x.set u).upFrom (x.key u) = u :: x.after (x.key u) := by
    change dropWhile (x.precedes (x.key u)) (x.set u).items = _
    rw [hitems, dropWhile_append_of_pos hbefore, dropWhile_cons_of_neg hstop]
  have hafter : (x.set u).after (x.key u) = x.after (x.key u) := by
    have hkey : (x.set u).hasKey (x.key u) u = true := by
      change (x.order (x.key u) (x.key u) == .eq) = true
      rw [hself]
      rfl
    rw [after, containsKey, get?, hback, head?_cons, Option.filter_some, if_pos hkey]
    rfl
  change OrderedIndex.mk x.key x.order
    ((x.set u).before (x.key v) ++ v :: (x.set u).after (x.key v)) = x.set v
  rw [← h, hfront, hafter, h]
  rfl

namespace Wrapper

variable {v w c r u : Wrapper} {ws l : List Wrapper} {i n fresh : Nat} {a b : Address}

lemma replaceAll_eq (ws : List Wrapper) (c : Wrapper) : replaceAll ws c = ws.map (·.replace c) := by
  induction ws with
  | nil => rfl
  | cons w ws ih => rw [replaceAll, ih, map_cons]

lemma replace_eq (w c : Wrapper) : w.replace c = if w.index = c.index then c else mk w.index
      w.ordinal w.site (w.children.map (·.replace c)) := by
  cases w
  rw [replace, replaceAll_eq]
  rfl

lemma replace_of_not_mem (h : c.index ∉ w.indices) : w.replace c = w := by
  induction w with
  | mk j n s ws ih =>
    rw [indices_eq, mem_cons, not_or] at h
    have hmap : ws.map (·.replace c) = ws.map id :=
      map_congr_left fun u hu => ih u hu (not_mem_child h.2 hu)
    rw [replace_eq, if_neg (Ne.symm h.1)]
    exact congrArg (mk j n s) (hmap.trans (map_id ws))

lemma setChild_replace (hb : w.Bound) (hd : w.indices.Nodup) (hc : c ∈ w.children)
    (hr : r.index ∈ c.indices) (hordinal : (c.replace r).ordinal = c.ordinal) :
    w.setChild (c.replace r) = w.replace r := by
  have hitems := OrderedIndex.before_append_after w.slots c.ordinal
  rw [(get?_slots hb).2 ⟨hc, rfl⟩] at hitems
  change w.slots.before c.ordinal ++ c :: w.slots.after c.ordinal = w.children at hitems
  rw [indices_eq, nodup_cons] at hd
  have hne : w.index ≠ r.index := fun heq => hd.1 (heq ▸ mem_indicesOf.2 ⟨c, hc, hr⟩)
  have hset : (w.setChild (c.replace r)).children =
      w.slots.before c.ordinal ++ c.replace r :: w.slots.after c.ordinal := by
    rw [← hordinal]
    rfl
  have hothers : ∀ us : List Wrapper, r.index ∉ indicesOf us → us.map (·.replace r) = us := by
    intro us hus
    have hmap : us.map (·.replace r) = us.map id :=
      map_congr_left fun u hu => replace_of_not_mem (not_mem_child hus hu)
    rw [hmap, map_id]
  have hsame : w.children.map (·.replace r) = (w.setChild (c.replace r)).children := by
    rw [hset, ← hitems, map_append, map_cons]
    rw [← hitems, indicesOf_append, indicesOf_cons] at hd
    obtain ⟨-, hrest, hbefore⟩ := nodup_append.1 hd.2
    obtain ⟨-, -, hafter⟩ := nodup_append.1 hrest
    rw [hothers _ fun hmem => hbefore _ hmem _ (mem_append_left _ hr) rfl,
      hothers _ fun hmem => hafter _ hr _ hmem rfl]
  rw [replace_eq w, if_neg hne, hsame]
  rfl

lemma reach_append_trail (hb : w.Bound) (hd : w.indices.Nodup) (h : Trail w l v) (a : Address) :
    reach fresh (ordinals l ++ a) w =
      { reach fresh a v with wrapper := w.replace (reach fresh a v).wrapper } := by
  induction h with
  | here w =>
    have hindex : (reach fresh a w).wrapper.index = w.index := (extends_reach hb).index
    rw [replace_eq, if_pos hindex.symm]
    rfl
  | @step w c v l hc h ih =>
    have hchild := hb.child c hc
    have hbelow : c.indices.Nodup := by
      rw [indices_eq, nodup_cons] at hd
      exact nodup_of_mem hd.2 hc
    have hreach : Extends fresh v (reach fresh a v) := extends_reach (hchild.of_mem h.mem)
    have hwhole : Extends fresh c (reach fresh (ordinals l ++ a) c) := extends_reach hchild
    rw [ih hchild hbelow] at hwhole
    rw [ordinals_step h, cons_append, reach, (get?_slots hb).2 ⟨hc, rfl⟩]
    dsimp only
    rw [ih hchild hbelow]
    dsimp only
    rw [setChild_replace hb hd hc _ hwhole.ordinal]
    rw [hreach.index]
    exact mem_indices_of_mem h.mem

lemma setChild_setChild (w : Wrapper) (h : u.ordinal = c.ordinal) :
    (w.setChild u).setChild c = w.setChild c := by
  exact congrArg (mk w.index w.ordinal w.site ·.items) (OrderedIndex.set_set (x := w.slots) h)

lemma reach_setChild {r : Reached} {m : Nat} (hb : w.Bound)
    (hr : Extends m u r) (hnode : w.site.nodes[u.ordinal]? = some u.site) (a : Address) :
    reach r.fresh (u.ordinal :: a) (w.setChild r.wrapper) = { reach r.fresh a r.wrapper
      with wrapper := w.setChild (reach r.fresh a r.wrapper).wrapper } := by
  rw [← hr.ordinal, ← hr.site] at hnode
  have hfind : (w.setChild r.wrapper).slots.get? r.wrapper.ordinal = some r.wrapper :=
    (get?_slots (hb.setChild hr.bound hnode)).2 ⟨mem_setChild hb _, rfl⟩
  have hlater : Extends r.fresh r.wrapper (reach r.fresh a r.wrapper) := extends_reach hr.bound
  rw [← hr.ordinal, reach, hfind]
  dsimp only
  rw [setChild_setChild w hlater.ordinal.symm]

/-- To go on from where a part of the way led is to go the whole way. -/
lemma reach_reach (hb : w.Bound) (b c : Address) :
    reach (reach fresh b w).fresh (b ++ c) (reach fresh b w).wrapper = reach fresh (b ++ c) w := by
  fun_induction reach fresh b w with
  | case1 | case4 => rfl
  | case2 fresh n b w e hget r ih =>
    obtain ⟨he, rfl⟩ := (get?_slots hb).1 hget
    have hchild := hb.child e he
    rw [cons_append, reach_setChild hb (extends_reach hchild) (hb.nodes e he), reach, hget]
    dsimp only
    rw [ih hchild]
  | case3 fresh n b w hget s hnode r ih =>
    have hleaf := bound_leaf fresh n s
    have hr : Extends (fresh + 1) (mk fresh n s []) r := extends_reach hleaf
    refine (reach_setChild hb hr hnode (b ++ c)).trans ?_
    rw [cons_append, reach, hget, hnode]
    dsimp only
    rw [ih hleaf]

end Wrapper
end LiveEdit
