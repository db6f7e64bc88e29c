import LiveEdit.Proofs.Parse.Hollows
import LiveEdit.Proofs.Registry.Representation

/-! Every move of a document is a move of its ledger, with the same notes, and the other way round.
-/

namespace LiveEdit
open List

namespace Site

variable {s : Site}

lemma sizeOf_lt_of_at? {c : Site} {i : Nat} {a : Address} (h : s.at? (i :: a) = some c) :
    sizeOf c.tree < sizeOf s.tree := by
  induction a generalizing s i with
  | nil =>
    obtain ⟨e, he, hrest⟩ := Option.bind_eq_some_iff.1 h
    obtain rfl := Option.some.inj hrest
    exact sizeOf_lt (mem_of_getElem? he)
  | cons j a ih =>
    obtain ⟨e, he, hrest⟩ := Option.bind_eq_some_iff.1 h
    exact (ih hrest).trans (sizeOf_lt (mem_of_getElem? he))

/-- Nodes without text are not together with others at one offset, and nodes with text overlap. -/
lemma Tight.apart (h : s.Tight) : s.Apart := by
  intro a b c ha hb
  rcases Nat.eq_zero_or_pos c.tree.size with hzero | hpos
  · exact h.eq_of_start ha hb hzero hzero rfl
  induction a generalizing s b with
  | nil =>
    obtain rfl := Option.some.inj ha
    cases b with
    | nil => rfl
    | cons j b => exact absurd (sizeOf_lt_of_at? hb) (Nat.lt_irrefl _)
  | cons i a ih =>
    cases b with
    | nil =>
      obtain rfl := Option.some.inj hb
      exact absurd (sizeOf_lt_of_at? ha) (Nat.lt_irrefl _)
    | cons j b =>
      obtain ⟨u, hu, hcu⟩ := Option.bind_eq_some_iff.1 ha
      obtain ⟨v, hv, hcv⟩ := Option.bind_eq_some_iff.1 hb
      have hleft := Span.contains_iff.1 (contains_of_at? hcu)
      have hright := Span.contains_iff.1 (contains_of_at? hcv)
      rw [span_stop c] at hleft hright
      change u.start ≤ c.start ∧ _ at hleft
      change v.start ≤ c.start ∧ _ at hright
      rcases Nat.lt_trichotomy i j with hij | rfl | hij
      · have hle := stop_le_start_of_lt hu hv hij
        omega
      · obtain rfl := Option.mem_unique hu hv
        rw [ih (h.node hu) b hcu hcv]
      · have hle := stop_le_start_of_lt hv hu hij
        omega

end Site

lemma apart_usual : Reader.Apart .usual := fun _ text => (Parse.tight_ofText text).apart

namespace Registry
open Wrapper Document

variable {r r' : Registry} {d new : Document} {u v w : Wrapper} {l : List Wrapper} {i : Nat}
  {c : Cursor}
  {p : Option Nat}

lemma Held.lineage (hw : Held r p c w) (hl : Trail w l v) (bound : Nat) :
    r.lineage (l.length + bound) v.index = p.elim [] (r.lineage bound) ++ l.map index := by
  have hself : ∀ {p c w}, Held r p c w → ∀ bound,
      r.lineage (bound + 1) w.index = p.elim [] (r.lineage bound) ++ [w.index] := by
    intro p c w hw bound
    rw [Registry.lineage, hw.entry]
    cases p <;> rfl
  induction hl generalizing p c bound with
  | here w => exact (congrArg (r.lineage · w.index) (Nat.add_comm 1 bound)).trans (hself hw bound)
  | @step w e v l he hl ih =>
    have hbelow := ih (hw.child he) (bound + 1)
    rw [Option.elim_some, hself hw] at hbelow
    rw [length_cons, Nat.add_assoc, Nat.add_comm 1, hbelow, append_assoc]
    rfl

lemma length_trail_le (hl : Trail w l v) : l.length ≤ w.indices.length := by
  induction hl with
  | here w => exact indices_eq w ▸ Nat.le_add_left 1 _
  | @step w e v l he _ ih =>
    obtain ⟨us, vs, hws⟩ := append_of_mem he
    rw [indices_eq, hws, indicesOf_append, indicesOf_cons]
    simp only [length_cons, length_append]
    omega

lemma Represents.lineage (h : Represents r d) (i : Nat) :
    r.lineage r.entries.length i = ((d.root.trail? i).getD []).map index := by
  by_cases hi : i ∈ d.root.indices
  · obtain ⟨w, hw, rfl⟩ := mem_map.1 hi
    obtain ⟨l, hl⟩ := exists_trail hw
    have hcount := h.sound.numbers.length_eq
    rw [length_append, length_range] at hcount
    have hle := length_trail_le hl
    obtain ⟨bound, hbound⟩ := Nat.exists_eq_add_of_le (show l.length ≤ r.entries.length by
      rw [h.size]
      omega)
    rw [hl.trail? h.sound.nodup, hbound, h.held.lineage hl]
    rfl
  · rw [trail?_eq_none hi]
    have hstale := h.stale i hi
    rw [site?, Option.bind_eq_none_iff] at hstale
    cases r.entries.length with
    | zero => rfl
    | succ n =>
      rw [Registry.lineage]
      split
      next he => cases hstale _ he
      next => rfl

lemma mem_bindings {s : Site} : (s, i) ∈ bindings [w] ↔ ∃ v ∈ w.all, v.index = i ∧ v.site = s := by
  simp only [bindings, allOf, append_nil, mem_map, Prod.mk.injEq]
  exact exists_congr fun v => and_congr_right fun _ => and_comm

lemma keyed_of_walk {version : Nat} {root : Wrapper} {c : Carried} {top : Cursor} (hb : root.Bound)
    (hroot : root.site.Apart) (hheld : Held r' none top root)
    (hkept : c.kept = [root]) (hs : Settles version none (fun _ => top) [w] c r r')
    (hnone : ∀ s, r.nodes (version + 1) s = none) (hstale : ∀ i ∉ root.indices, r'.site? i = none) :
    r'.Keyed (version + 1) := by
  have hsite : ∀ v ∈ root.all, r'.site? v.index = some v.site := by
    intro v hv
    obtain ⟨l, hl⟩ := exists_trail hv
    obtain ⟨q, hq, -⟩ := hheld.trail hb hl
    exact hq.site?_eq
  have hfound : ∀ s i, r'.nodes (version + 1) s = some i → ∃ v ∈ root.all, v.index = i ∧
      v.site = s := by
    intro s i h
    rcases hs.sound s i h with hold | hnew
    · cases (hnone s).symm.trans hold
    · exact mem_bindings.1 (hkept ▸ hnew)
  intro s i
  constructor
  · intro h
    obtain ⟨v, hv, rfl, rfl⟩ := hfound s i h
    exact hsite v hv
  · intro h
    by_cases hi : i ∈ root.indices
    · obtain ⟨v, hv, rfl⟩ := mem_map.1 hi
      obtain rfl := Option.some.inj ((hsite v hv).symm.trans h)
      cases hnode : r'.nodes (version + 1) v.site with
      | none =>
        have hnot := (hs.total _ hnode).2 v.index
        exact absurd (hkept ▸ mem_bindings.2 ⟨v, hv, rfl, rfl⟩) hnot
      | some j =>
        -- two wrappers of one node have the same address
        obtain ⟨u, hu, rfl, heq⟩ := hfound _ j hnode
        obtain ⟨l, hl⟩ := exists_trail hv
        obtain ⟨l', hl'⟩ := exists_trail hu
        have haddress := hroot _ _ _ (hb.at? hl') (heq ▸ hb.at? hl)
        have hreach : root.reach 0 _ = _ := reach_trail hb hl'
        exact congrArg (fun r : Reached => some r.index)
          (hreach.symm.trans (haddress ▸ reach_trail hb hl))
    · cases (hstale i hi).symm.trans h

section
variable {focus : List Nat} {e : Edit} {text : Text} {root : Wrapper} (h : Represents r d)
  (hs : Settles d.version none (fun _ => .root ⟨0, (d.reader (d.version + 1) text).tree⟩) [d.root]
    (d.carried focus e text) r r')
include h hs

lemma later_walked (k : Nat) (hk : d.version + 1 < k) (s : Site) :
    (r'.dropVersion d.version).nodes k s = none := by
  refine (if_neg (by omega)).trans ?_
  rw [hs.later k hk]
  exact h.later k (by omega) s

lemma stale_walked (hi : i ∉ indicesOf (d.carried focus e text).kept) : r'.site? i = none :=
  hs.stale hi fun hmem => h.stale i (indicesOf_singleton d.root ▸ hmem)

lemma represents_kept (hkept : (d.carried focus e text).kept = [root]) (hsound : new.Sound)
    (hnew : new = (d.renew text root d.fresh).record (d.carried focus e text).lost) :
    r'.known d.root.index = none ∧ Represents (r'.dropVersion d.version) new := by
  subst hnew
  have hcarries := h.sound.carries focus e text
  have hroot : root ∈ (d.carried focus e text).kept := hkept ▸ mem_cons_self
  obtain ⟨hordinal, hsite, -⟩ := Carrier.kept_carryPath hroot
  have hindices : indicesOf (d.carried focus e text).kept = root.indices := by
    rw [hkept, indicesOf_singleton]
  have hstale : ∀ i ∉ root.indices, r'.site? i = none := fun i hi =>
    stale_walked h hs (hindices ▸ hi)
  have hheld := hs.held root hroot
  refine ⟨?_, hsound, h.apart, hordinal, ?_, hs.length.trans h.size, hs.known h.known, hstale,
    fun s i => ?_, later_walked h hs⟩
  · refine (hs.others _ fun hmem => ?_).trans h.held.live
    have hd := (nodup_append.1 (hcarries.numbers.nodup_iff.1 h.sound.nodup)).2.2
    rw [← hcarries.index root hroot] at hmem
    exact hd _ (hindices ▸ mem_indices_of_mem (self_mem_all root)) _ hmem rfl
  · rw [← hsite] at hheld
    exact hheld.congr fun i _ => ⟨rfl, rfl⟩
  · have hkeyed := keyed_of_walk (hcarries.bound root hroot) (hsite ▸ h.apart _ text) hheld hkept hs
      (h.later _ (Nat.lt_succ_self _)) hstale
    refine Iff.trans ?_ (hkeyed s i)
    exact iff_of_eq (congrArg (· = some i) (if_neg (Nat.succ_ne_self _)))

/-- All wrappers are lost, and the registry gets a new root. -/
lemma represents_lost (hkept : (d.carried focus e text).kept = []) (hsound : new.Sound)
    (hnew : new = (d.renew text (.mk d.fresh 0 ⟨0, (d.reader (d.version + 1) text).tree⟩ [])
      (d.fresh + 1)).record (d.carried focus e text).lost) : (r'.known d.root.index).isSome ∧
    (∀ s, (r'.dropVersion d.version).nodes (d.version + 1) s = none) ∧ Represents
      ((r'.dropVersion d.version).create new.version (.root new.root.site) none 0) new := by
  subst hnew
  have hempty : ∀ v, d.version + 1 ≤ v → ∀ s, (r'.dropVersion d.version).nodes v s = none := by
    intro v hv s
    rcases Nat.eq_or_lt_of_le hv with rfl | hv
    · refine (if_neg (Nat.succ_ne_self _)).trans
        (Option.eq_none_iff_forall_ne_some.2 fun i hi => ?_)
      rcases hs.sound s i hi with hold | hnew
      · cases (h.later _ (Nat.lt_succ_self _) s).symm.trans hold
      · rw [hkept] at hnew
        cases hnew
    · exact later_walked h hs v hv s
  have hlength : (r'.dropVersion d.version).entries.length = d.fresh := hs.length.trans h.size
  refine ⟨?_, hempty _ le_rfl, ?_⟩
  · have hmem := (h.sound.carries focus e text).numbers.mem_iff.1
      (mem_indices_of_mem (self_mem_all d.root))
    rw [hkept, indicesOf, allOf, map_nil, nil_append] at hmem
    obtain ⟨w, hw, hindex⟩ := mem_map.1 hmem
    rw [← hindex, hs.noted w hw]
    rfl
  · have hstale : ∀ i, r'.site? i = none := fun i =>
      stale_walked h hs (by rw [hkept]; exact not_mem_nil)
    exact represents_root hsound h.apart (by rw [hlength]; rfl) (by rw [hlength]; rfl)
      (hs.known h.known) hstale hempty

end

lemma Represents.advance (h : Represents r d) (focus : List Nat) (m : Manipulation) (e : Edit)
    (text : Text) : ∃ r', Represents r' (d.advance focus m e text).1 ∧ (d.ledger r).advance focus m
      e text = ((d.advance focus m e text).1.ledger r', (d.advance focus m e text).2) := by
  have hturn := (Turn.turns_path (x := ⟨e, focus⟩) (t := { toRegistry := r }) h.sound.bound h.held
    h.sound.nodup (by simp) d.version (.root ⟨0, (d.reader (d.version + 1) text).tree⟩)).1
  rw [h.first] at hturn
  change Turn.Turns _ _ _ _ (d.carried focus e text) _ _ at hturn
  have hsound := h.sound.advance focus m e text
  unfold Ledger.advance
  dsimp only [ledger]
  generalize Turn.visitPath _ _ _ _ _ = t at hturn ⊢
  obtain ⟨hs, hrebound, hforgotten, hmismatched⟩ := hturn
  have hlog : t.1.mismatched.map (fun k => Event.mismatch (.around text m.position) k.1 k.2) ++
      [.committed (d.version + 1) e.delta t.1.rebound t.1.forgotten] =
        (d.advance focus m e text).2 := by
    rw [hrebound, hforgotten, hmismatched]
    simp only [nil_append, map_map, Nat.zero_add]
    rfl
  rw [hlog]
  obtain ⟨root, hkept, hnew⟩ | ⟨hkept, hnew⟩ := h.sound.advance_cases focus m e text
  · have hroot : root ∈ (d.carried focus e text).kept := hkept ▸ mem_cons_self
    obtain ⟨hlive, hwalked⟩ := represents_kept h hs hkept hsound hnew
    refine ⟨_, hwalked, ?_⟩
    rw [hnew, show (t.1.dropVersion d.version).known d.root.index = none from hlive]
    simp only [record, renew, (h.sound.carries focus e text).index root hroot,
      (Carrier.kept_carryPath hroot).2.1]
  · obtain ⟨hknown, hempty, hrenewed⟩ := represents_lost h hs hkept hsound hnew
    refine ⟨_, hrenewed, ?_⟩
    rw [hnew]
    obtain ⟨known, hknown⟩ := Option.isSome_iff_exists.1 hknown
    rw [show (t.1.dropVersion d.version).known d.root.index = some known from hknown]
    simp only [getOrCreate, Cursor.site, hempty]
    rw [show (t.1.dropVersion d.version).entries.length = d.fresh from hs.length.trans h.size]
    rfl

lemma Represents.commit (h : Represents r d) (focus : Nat) (m : Manipulation) :
    (d.commit focus m = none ∧ (d.ledger r).commit focus m = none) ∨
    ∃ new log r', d.commit focus m = some (new, log) ∧ Represents r' new ∧
      (d.ledger r).commit focus m = some (new.ledger r', log) := by
  cases hedit : m.edit? d.text with
  | none => exact .inl ⟨by simp [Document.commit, hedit], by simp [Ledger.commit, ledger, hedit]⟩
  | some e =>
    cases hempty : e.isEmpty with
    | true =>
      refine .inr ⟨d, [.skipped], r, ?_, h, ?_⟩
      · simp [Document.commit, hedit, hempty]
      · simp [Ledger.commit, ledger, hedit, hempty]
    | false =>
      cases hresult : e.result? d.text with
      | none =>
        refine .inl ⟨?_, ?_⟩
        · simp [Document.commit, hedit, hempty, hresult]
        · simp [Ledger.commit, ledger, hedit, hempty, hresult]
      | some text =>
        obtain ⟨r', h', heq⟩ := h.advance (((d.root.trail? focus).getD []).map index) m e text
        refine .inr ⟨_, _, r', commit_eq_advance hedit hempty hresult focus, h', ?_⟩
        refine Eq.trans ?_ (congrArg some heq)
        simp [Ledger.commit, ledger, hedit, hempty, hresult, h.lineage]

end Registry

inductive Ledger.Move : Ledger → Ledger → Prop where
  | wrap {l new : Ledger} {a : Address} {n : NodeId} (h : l.wrap a = (new, n)) : Move l new
  | adopt {l new : Ledger} {i n : Nat} {m : NodeId} (h : l.adopt i n = (new, m)) : Move l new
  | forget {l new : Ledger} {n : NodeId} {log : List Event} (h : l.forget n = .ok (new, log)) :
      Move l new
  | forgetDescendants {l new : Ledger} {n : NodeId} (h : l.forgetDescendants n = .ok new) :
    Move l new
  | commit {l new : Ledger} {focus : Nat} {m : Manipulation} {log : List Event}
      (h : l.commit focus m = some (new, log)) : Move l new

namespace Registry
open Wrapper Document Relation

variable {r : Registry} {d new : Document} {w : Wrapper} {l : List Wrapper} {ledger : Ledger}
  {reader : Reader} {tag : Nat} {text : Text}

lemma Represents.move (h : Represents r d) (hm : Document.Move d new) :
    ∃ r', Represents r' new ∧ ReflTransGen Ledger.Move (d.ledger r) (new.ledger r') := by
  cases hm with
  | configure settings => exact ⟨r, { h with sound := h.sound.configure settings }, .refl⟩
  | make hm =>
    cases hm with
    | wrap a =>
      obtain ⟨r', h', heq⟩ := h.wrap a
      exact ⟨r', h', .single (.wrap heq)⟩
    | adopt i n =>
      obtain ⟨r', h', heq⟩ := h.adopt i n
      exact ⟨r', h', .single (.adopt heq)⟩
  | forget n =>
    rcases h.forget n with ⟨e, hd, -⟩ | ⟨new, log, r', hd, h', heq⟩
    · exact ⟨r, by rw [hd]; exact ⟨h, .refl⟩⟩
    · exact ⟨r', by rw [hd]; exact ⟨h', .single (.forget heq)⟩⟩
  | forgetDescendants n =>
    rcases h.forgetDescendants n with ⟨e, hd, -⟩ | ⟨new, r', hd, h', heq⟩
    · exact ⟨r, by rw [hd]; exact ⟨h, .refl⟩⟩
    · exact ⟨r', by rw [hd]; exact ⟨h', .single (.forgetDescendants heq)⟩⟩
  | commit hc =>
    rcases h.commit _ _ with ⟨hnone, -⟩ | ⟨new, log, r', hsome, h', heq⟩
    · cases hnone.symm.trans hc
    · obtain ⟨rfl, -⟩ := Prod.mk.inj (Option.mem_unique hsome hc)
      exact ⟨r', h', .single (.commit heq)⟩

lemma Represents.exists_move (h : Represents r d) (hm : Ledger.Move (d.ledger r) ledger) :
    ∃ new r', Represents r' new ∧ ledger = new.ledger r' ∧ Document.Move d new := by
  cases hm with
  | @wrap a _ hm =>
    obtain ⟨r', h', heq⟩ := h.wrap a
    exact ⟨_, r', h', (Prod.mk.inj (hm.symm.trans heq)).1, .make (.wrap d a)⟩
  | @adopt i n _ hm =>
    obtain ⟨r', h', heq⟩ := h.adopt i n
    exact ⟨_, r', h', (Prod.mk.inj (hm.symm.trans heq)).1, .make (.adopt d i n)⟩
  | @forget n _ hm =>
    rcases h.forget n with ⟨e, -, heq⟩ | ⟨new, log, r', hd, h', heq⟩
    · cases heq.symm.trans hm
    · refine ⟨new, r', h', ?_, by simpa [hd] using Document.Move.forget d n⟩
      exact (Prod.mk.inj (Except.ok.inj (hm.symm.trans heq))).1
  | @forgetDescendants n hm =>
    rcases h.forgetDescendants n with ⟨e, -, heq⟩ | ⟨new, r', hd, h', heq⟩
    · cases heq.symm.trans hm
    · exact ⟨new, r', h', Except.ok.inj (hm.symm.trans heq),
        by simpa [hd] using Document.Move.forgetDescendants d n⟩
  | @commit focus m _ hm =>
    rcases h.commit focus m with ⟨-, hnone⟩ | ⟨new, log, r', hd, h', heq⟩
    · cases hnone.symm.trans hm
    · exact ⟨new, r', h', (Prod.mk.inj (Option.mem_unique hm heq)).1, .commit hd⟩

lemma represents_create (hapart : reader.Apart) (tag : Nat) (file : String) (text : Text)
    (settings : Settings) : ∃ r, Represents r (Document.create tag file text settings reader) ∧
    Ledger.create tag text reader = (Document.create tag file text settings reader).ledger r := by
  refine ⟨_, represents_root (r := {}) (sound_create tag file text settings reader) hapart rfl rfl
    (fun _ => rfl) (fun _ => rfl) fun _ _ _ => rfl, rfl⟩

/-- What operations do to a document, moves do to its ledger. -/
theorem moves_of_run {file : String}
    {settings : Settings} {ops : List Operation} (hapart : reader.Apart)
    (hrun : (Document.create tag file text settings reader).run ops = some d) : ∃ r,
      Represents r d ∧ ReflTransGen Ledger.Move (Ledger.create tag text reader) (d.ledger r) := by
  obtain ⟨r, h, heq⟩ := represents_create hapart tag file text settings
  have hm := moves_run hrun
  rw [heq]
  clear hrun heq
  induction hm with
  | refl => exact ⟨r, h, .refl⟩
  | tail _ hm ih =>
    obtain ⟨r₁, h₁, hmoves⟩ := ih
    obtain ⟨r₂, h₂, hmore⟩ := h₁.move hm
    exact ⟨r₂, h₂, hmoves.trans hmore⟩

lemma top_down (s : Site) (a : Address) : ((Cursor.root s).down a).top = s := by
  have hdown : ∀ (a : Address) (c : Cursor), (c.down a).top = c.top := by
    intro a
    induction a with
    | nil => exact fun _ => rfl
    | cons n a ih =>
      intro c
      rw [Cursor.down, Cursor.child?]
      cases c.site.nodes[n]? with
      | none => rfl
      | some s => exact ih _
  exact hdown a _

lemma Represents.above (h : Represents r d) (hl : Trail d.root l w) :
    ((d.root.parent? w.index).map index).map r.site? =
      ((Cursor.root d.root.site).down (ordinals l)).parent?.map (some ·.site) := by
  rcases hl.unsnoc with ⟨rfl, rfl⟩ | ⟨l', p, rfl, hl', hw⟩
  · rw [parent?_self h.sound.nodup]
    rfl
  · have hnode := (h.sound.bound.of_mem hl'.mem).nodes w hw
    have hparent := h.trail hl'
    rw [parent?_of_child h.sound.nodup hl'.mem hw, ordinals_snoc hl',
      down_snoc (c := .root d.root.site) (h.sound.bound.at? hl') hnode]
    exact congrArg some (hparent.site?_eq.trans (congrArg some hparent.site.symm))

lemma Represents.disagreements (h : Represents r d) (hk : Keeps d.reader) (hl : Trail d.root l w) :
    (d.ledger r).disagreements w.index
      (.of ((d.root.parent? w.index).map index) ((Cursor.root d.root.site).down (ordinals l)) w)
      ((Cursor.root d.root.site).down (ordinals l)) = [] := by
  have hheld := h.trail hl
  have hb := h.sound.bound.of_mem hl.mem
  have hslots : ∀ v ∈ w.children, r.entries[v.index]?.map Entry.ordinal = some v.ordinal ∧
      r.site? v.index = w.site.nodes[v.ordinal]? ∧ r.site? v.index = some v.site := by
    intro v hv
    have hchild := hheld.child hv
    refine ⟨by rw [hchild.entry]; rfl, ?_, hchild.site?_eq⟩
    rw [hchild.site?_eq, hb.nodes v hv]
  have hnode := (h.keyed _ _).2 hheld.site?_eq
  have htext : d.text.slice? w.site.span = some w.site.text := (h.sound.lies hk hl.mem).slice?
  have hslot : (slotsOf w.children).items.filter (fun slot => decide
      (r.entries[slot.index]?.map Entry.ordinal ≠ some slot.ordinal ∨ (r.site? slot.index).isNone ∨
        r.site? slot.index ≠ w.site.nodes[slot.ordinal]?)) = [] := by
    refine filter_eq_nil_iff.2 fun slot hslot => ?_
    obtain ⟨v, hv, rfl⟩ := mem_map.1 hslot
    obtain ⟨hordinal, hsame, hsome⟩ := hslots v hv
    simp [Slot.of, hordinal, ← hsame, hsome]
  simp only [Ledger.disagreements, Document.ledger, Entry.of, hheld.site, hnode, top_down, htext,
    h.above hl, hslot, Wrapper.kind, Wrapper.span, ne_eq, not_true_eq_false, if_true, if_false,
    append_nil, map_nil]

lemma Represents.problems (h : Represents r d) (hk : Keeps d.reader) :
    (d.ledger r).problems = [] := by
  refine flatMap_eq_nil_iff.2 fun ⟨e, i⟩ hmem => ?_
  rw [mem_zipIdx_iff_getElem?] at hmem
  change r.entries[i]? = some e at hmem
  dsimp only
  rw [map_eq_nil_iff]
  by_cases hi : i ∈ d.root.indices
  · obtain ⟨w, hw, rfl⟩ := mem_map.1 hi
    obtain ⟨l, hl⟩ := exists_trail hw
    have hheld := h.trail hl
    obtain rfl := Option.some.inj (hmem.symm.trans hheld.entry)
    rw [show (d.ledger r).registry.known w.index = none from hheld.live]
    exact h.disagreements hk hl
  · have hstale := h.stale i hi
    rw [site?, hmem, Option.bind_some, Option.map_eq_none_iff] at hstale
    have hlt : i < d.fresh := by
      rw [← h.size]
      exact (List.getElem?_eq_some_iff.1 hmem).1
    have hknown : ∃ k, r.known i = some k := by
      rw [← Option.ne_none_iff_exists', h.known, Ne, lookup_eq_none, not_not]
      exact (h.sound.lt_fresh_iff.1 hlt).resolve_left hi
    obtain ⟨k, hk⟩ := hknown
    rw [show (d.ledger r).registry.known i = some k from hk, hstale]

/-- Whatever is asked of a ledger, its wrappers agree with the tree. -/
lemma problems_of_moves (hapart : reader.Apart)
    (hk : Keeps reader) (hm : ReflTransGen Ledger.Move (Ledger.create tag text reader) ledger) :
    ledger.problems = [] := by
  obtain ⟨r, h, heq⟩ := represents_create hapart tag "" text {}
  rw [heq] at hm
  have hreach : ∃ d r, Represents r d ∧ ledger = d.ledger r ∧ d.reader = reader := by
    induction hm with
    | refl => exact ⟨_, r, h, rfl, rfl⟩
    | tail _ hm ih =>
      obtain ⟨d, r₁, h₁, rfl, hreader⟩ := ih
      obtain ⟨new, r₂, h₂, rfl, hmove⟩ := h₁.exists_move hm
      exact ⟨new, r₂, h₂, rfl, hmove.fixed.2.trans hreader⟩
  obtain ⟨d, r, hd, rfl, rfl⟩ := hreach
  exact hd.problems hk

theorem problems_usual (hm : ReflTransGen Ledger.Move (Ledger.create tag text .usual) ledger) :
    ledger.problems = [] :=
  problems_of_moves apart_usual keeps_usual hm

end Registry
end LiveEdit
