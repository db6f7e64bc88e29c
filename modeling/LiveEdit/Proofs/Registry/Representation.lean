import LiveEdit.Proofs.Document.Forgetting
import LiveEdit.Proofs.Registry.Walking

/-! What is asked of wrappers in a registry goes as it does in the nested wrappers, where no two
nodes of a tree are equal and at one place: the registry could not tell them apart. -/

namespace LiveEdit
open List Option

/-- No two addresses lead to equal nodes. -/
def Site.Apart (s : Site) : Prop := ∀ a b c, s.at? a = some c → s.at? b = some c → a = b

def Reader.Apart (reader : Reader) : Prop :=
  ∀ version text, Site.Apart ⟨0, (reader version text).tree⟩

def Document.ledger (d : Document) (r : Registry) : Ledger :=
  ⟨d.tag, d.text, d.version, d.root.index, d.root.site, d.reader, r⟩

lemma Cursor.down_clip (c : Cursor) (a : Address) : c.down (c.site.clip a).1 = c.down a := by
  induction a generalizing c with
  | nil => rfl
  | cons n a ih =>
    rw [down, Site.clip, child?]
    cases hnode : c.site.nodes[n]? with
    | none => rfl
    | some s =>
      refine Eq.trans ?_ (ih (.under c n s))
      simp only [down, child?, hnode, map_some]
      rfl

lemma Wrapper.reach_clip {w : Wrapper} {fresh : Nat} (hb : w.Bound) (a : Address) :
    reach fresh (w.site.clip a).1 w = reach fresh a w := by
  fun_induction reach fresh a w with
  | case1 => rfl
  | case2 fresh n a w c hget r ih =>
    obtain ⟨hc, rfl⟩ := (get?_slots hb).1 hget
    rw [Site.clip, hb.nodes c hc]
    dsimp only
    rw [reach, hget]
    dsimp only
    rw [ih (hb.child c hc)]
  | case3 fresh n a w hget s hnode r ih =>
    rw [Site.clip, hnode]
    dsimp only
    rw [reach, hget, hnode]
    exact congrArg (fun r => Reached.mk (w.setChild r.wrapper) r.index r.fresh)
      (ih (bound_leaf fresh n s))
  | case4 fresh n a w hget hnode =>
    rw [Site.clip, hnode]
    rfl

namespace Registry
open Wrapper Document

variable {r r' : Registry} {d new : Document} {u v w w' : Wrapper} {ws l lost : List Wrapper}
  {n : NodeId}
  {i j k version ordinal : Nat} {c : Cursor} {s : Site} {a : Address} {p q : Option Nat}
  {cur : Wrapper → Cursor}

/-- The registry holds the live wrappers, and of the others it knows what they were. -/
structure Represents (r : Registry) (d : Document) : Prop where
  sound : d.Sound
  apart : d.reader.Apart
  first : d.root.ordinal = 0
  held : Held r none (.root d.root.site) d.root
  size : r.entries.length = d.fresh
  known : ∀ i, r.known i = d.forgotten.lookup i
  stale : ∀ i ∉ d.root.indices, r.site? i = none
  keyed : r.Keyed d.version
  later : ∀ v, d.version < v → ∀ s, r.nodes v s = none

lemma Held.site?_eq (h : Held r q c w) : r.site? w.index = some w.site := by
  rw [site?, h.entry]
  exact congrArg some h.site

lemma Represents.trail (h : Represents r d) (hl : Trail d.root l w) : Held r
      ((d.root.parent? w.index).map index) ((Cursor.root d.root.site).down (ordinals l)) w := by
  obtain ⟨q, hq, ⟨rfl, rfl⟩ | ⟨u, hu, hw, rfl⟩⟩ := h.held.trail h.sound.bound hl
  · rw [parent?_self h.sound.nodup]
    exact hq
  · rw [parent?_of_child h.sound.nodup hu hw]
    exact hq

lemma Represents.site?_iff (h : Represents r d) :
    r.site? i = some s ↔ ∃ w ∈ d.root.all, w.index = i ∧ w.site = s := by
  constructor
  · intro hs
    by_cases hi : i ∈ d.root.indices
    · obtain ⟨w, hw, rfl⟩ := mem_map.1 hi
      obtain ⟨l, hl⟩ := exists_trail hw
      exact ⟨w, hw, rfl, some.inj ((h.trail hl).site?_eq.symm.trans hs)⟩
    · cases (h.stale i hi).symm.trans hs
  · rintro ⟨w, hw, rfl, rfl⟩
    obtain ⟨l, hl⟩ := exists_trail hw
    exact (h.trail hl).site?_eq

lemma Represents.unknown (h : Represents r d) (hi : d.fresh ≤ i) : r.known i = none := by
  rw [h.known, lookup_eq_none]
  intro hmem
  have hlt := h.sound.lt_fresh_iff.2 (.inr hmem)
  omega

lemma Represents.absent (h : Represents r d) (hi : i ∉ d.root.indices) (hknown : r.known i = none) :
    r.entries[i]? = none := by
  rw [h.known, lookup_eq_none] at hknown
  refine getElem?_eq_none (h.size ▸ Nat.le_of_not_lt fun hlt => ?_)
  exact (h.sound.lt_fresh_iff.1 hlt).elim hi hknown

/-- The node that an address leads to has no other wrapper than the one that is asked for. -/
lemma Represents.wrap_eq (h : Represents r d) (hat : d.root.site.at? a = some s)
    (hs : r.nodes d.version s = some i) : d.wrap a = (d, d.nodeId i) := by
  obtain ⟨w, hw, rfl, rfl⟩ := h.site?_iff.1 ((h.keyed _ _).1 hs)
  obtain ⟨l, hl⟩ := exists_trail hw
  have hroot : d.root.site.Apart := h.sound.tree ▸ h.apart d.version d.text
  rw [hroot a _ _ hat (h.sound.bound.at? hl), Document.wrap, reach_trail h.sound.bound hl]

lemma Represents.node (h : Represents r d) (n : NodeId) :
    (∃ e, d.node n = .error e ∧ (d.ledger r).node n = .error e) ∨
    ∃ w l, d.node n = .ok w ∧ w.index = n.index ∧ Trail d.root l w ∧ (d.ledger r).node n = .ok (.of
      ((d.root.parent? w.index).map index) ((Cursor.root d.root.site).down (ordinals l)) w) := by
  cases hn : d.node n with
  | ok w =>
    obtain ⟨htag, hw, hindex⟩ := h.sound.node_eq_ok.1 hn
    obtain ⟨l, hl⟩ := exists_trail hw
    have hheld := h.trail hl
    refine .inr ⟨w, l, rfl, hindex, hl, ?_⟩
    rw [Ledger.node, if_pos (show n.document = (d.ledger r).tag from htag), ← hindex]
    simp only [ledger, hheld.live, hheld.entry]
  | error e =>
    refine .inl ⟨e, rfl, ?_⟩
    unfold Document.node at hn
    unfold Ledger.node
    simp only [ledger, h.known]
    split_ifs at hn ⊢ with htag
    · cases hknown : d.forgotten.lookup n.index with
      | some known => simpa [hknown] using hn
      | none =>
        cases hfind : d.root.find? n.index with
        | some w => simp [hknown, hfind] at hn
        | none =>
          have hout := (find?_eq_none_iff h.sound.nodup).1 hfind
          simpa [hknown, hfind, h.absent hout ((h.known _).trans hknown)] using hn
    · rw [Except.error.inj hn]

lemma Represents.parent (h : Represents r d) (n : NodeId) : (d.ledger r).parent n = d.parent n := by
  rcases h.node n with ⟨e, hd, hr⟩ | ⟨w, l, hd, -, -, hr⟩
  · rw [Ledger.parent, Document.parent, hd, hr]
    rfl
  · rw [Ledger.parent, Document.parent, hd, hr]
    exact congrArg Except.ok (map_map ..)

lemma getElem?_create (r : Registry) (version : Nat)
    (c : Cursor) (p : Option Nat) (ordinal j : Nat) (hp : p ≠ some r.entries.length) :
    (r.create version c p ordinal).entries[j]? = if j = r.entries.length then some ⟨c.site.kind,
      c.site.span, some c, p, ordinal, noSlots⟩ else if p = some j then r.entries[j]?.map fun e =>
      { e with slots := e.slots.set ⟨ordinal, r.entries.length⟩ } else r.entries[j]? := by
  have hmade : ∀ e : Entry, (r.entries ++ [e])[j]? =
      if j = r.entries.length then some e else r.entries[j]? := by
    intro e
    split_ifs with hj
    · rw [hj, getElem?_concat_length]
    · rcases Nat.lt_or_gt_of_ne hj with hlt | hgt
      · exact getElem?_append_left hlt
      · rw [getElem?_eq_none hgt.le, getElem?_eq_none]
        rw [length_append, length_singleton]
        exact hgt
  unfold create
  cases p with
  | none => exact hmade _
  | some p =>
    refine (getElem?_update _ p j _).trans ?_
    rw [bind, hmade]
    rw [Ne, some_inj] at hp
    split_ifs with hpj hj
    · exact absurd (hpj.trans hj) hp
    all_goals simp_all

lemma rest_create (r : Registry) (version : Nat) (c : Cursor) (p : Option Nat) (ordinal : Nat) :
    (r.create version c p ordinal).entries.length = r.entries.length + 1 ∧
    (r.create version c p ordinal).known = r.known ∧ (r.create version c p ordinal).nodes =
      fun v s => if v = version ∧ s = c.site then some r.entries.length else r.nodes v s := by
  unfold create
  cases p with
  | none => exact ⟨length_append, rfl, rfl⟩
  | some p => exact ⟨(length_modify ..).trans length_append, rfl, rfl⟩

lemma site?_create (hp : p ≠ some r.entries.length) (j : Nat) : (r.create version c p ordinal).site?
      j = if j = r.entries.length then some c.site else r.site? j := by
  rw [site?, site?, getElem?_create r version c p ordinal j hp]
  split_ifs
  · rfl
  · cases r.entries[j]? <;> rfl
  · rfl

lemma Keyed.create (h : r.Keyed version) (hp : p ≠ some r.entries.length)
    (hnew : r.nodes version c.site = none) : (r.create version c p ordinal).Keyed version := by
  have hlast : r.site? r.entries.length = none := by
    rw [site?, getElem?_eq_none le_rfl]
    rfl
  intro s j
  rw [site?_create hp, (rest_create r version c p ordinal).2.2]
  dsimp only
  split_ifs with hs hj hj
  · exact iff_of_true (hj ▸ rfl) (congrArg some hs.2.symm)
  · refine iff_of_false (fun heq => hj (some.inj heq).symm) fun heq => ?_
    cases hnew.symm.trans ((h _ j).2 (hs.2 ▸ heq))
  · refine iff_of_false (fun heq => ?_) fun heq => hs ⟨rfl, (some.inj heq).symm⟩
    rw [h, hj, hlast] at heq
    cases heq
  · exact h s j

lemma getElem?_create_of_ne (hi : i < r.entries.length) (hj : j < r.entries.length) (hne : i ≠ j) :
    (r.create version c (some j) ordinal).entries[i]? = r.entries[i]? := by
  rw [getElem?_create _ _ _ _ _ _ (by simpa using hj.ne), if_neg hi.ne]
  exact if_neg (by simpa using hne.symm)

lemma held_create (hw : Held r q c w) (hb : w.Bound) (hd : w.indices.Nodup)
    (hlt : ∀ i ∈ w.indices, i < r.entries.length) (hnew : r.known r.entries.length = none)
    (version n : Nat) (s : Site) : Held (r.create version (.under c n s) (some w.index) n) q c
      (w.setChild (.mk r.entries.length n s [])) := by
  have hself := hlt _ (mem_indices_of_mem (self_mem_all w))
  have hp : some w.index ≠ some r.entries.length := by simpa using hself.ne
  have hentries := fun j => getElem?_create r version (.under c n s) (some w.index) n j hp
  have hknown := (rest_create r version (.under c n s) (some w.index) n).2.1
  refine .mk hw.site ?_ (by rw [hknown]; exact hw.live) fun v hv => ?_
  · have hslots := set_slotsOf w (.mk r.entries.length n s [])
    refine (hentries w.index).trans ?_
    rw [if_neg hself.ne, if_pos rfl, hw.entry]
    exact congrArg (fun slots => some { Entry.of q c w with slots }) hslots
  · rcases (OrderedIndex.mem_set (sorted_slots hb)).1 hv with rfl | ⟨hv, -⟩
    · refine .mk rfl ?_ (by rw [hknown]; exact hnew) (forall_mem_nil _)
      exact (hentries _).trans (if_pos rfl)
    · refine (hw.child hv).congr fun i hi =>
        ⟨getElem?_create_of_ne (hlt i ?_) hself ?_, by rw [hknown]⟩
      · rw [indices_eq]
        exact mem_cons_of_mem _ (mem_indicesOf.2 ⟨v, hv, hi⟩)
      · exact fun heq => (child_apart hd hv).2 i hi (congrArg some heq.symm)

lemma represents_root (hd : d.Sound) (hapart : d.reader.Apart)
    (hroot : d.root = .mk r.entries.length 0 s []) (hfresh : d.fresh = r.entries.length + 1)
    (hknown : ∀ i, r.known i = d.forgotten.lookup i) (hnone : ∀ i, r.site? i = none)
    (hnodes : ∀ v, d.version ≤ v → ∀ s, r.nodes v s = none) :
    Represents (r.create d.version (.root s) none 0) d := by
  obtain ⟨hlength, hsame, htable⟩ := rest_create r d.version (.root s) none 0
  have hkeyed : r.Keyed d.version := fun s i => by
    rw [hnodes _ le_rfl, hnone]
    simp
  have hp : none ≠ some r.entries.length := by simp
  refine ⟨hd, hapart, by rw [hroot]; rfl, ?_, hlength.trans hfresh.symm, fun i => ?_,
    fun i hi => ?_, hkeyed.create hp (hnodes _ le_rfl _), fun v hv s => ?_⟩
  · rw [hroot]
    refine .mk rfl ?_ ?_ (forall_mem_nil _)
    · rw [getElem?_create _ _ _ _ _ _ hp]
      exact if_pos rfl
    · rw [hsame, hknown]
      refine lookup_eq_none.2 (hd.not_forgotten ?_)
      rw [hroot]
      exact mem_cons_self
  · rw [hsame, hknown]
  · rw [site?_create hp, hnone]
    rw [hroot, indices_eq, mem_cons, not_or] at hi
    exact if_neg hi.1
  · rw [htable]
    dsimp only
    rw [if_neg fun heq => Nat.ne_of_gt hv heq.1]
    exact hnodes v hv.le s

lemma ledger_wrap (h : d.Sound) (a : Address) (r r' : Registry) :
    (d.wrap a).1.ledger r' = { d.ledger r with registry := r' } := by
  have hreach : Extends d.fresh d.root (d.root.reach d.fresh a) := extends_reach h.bound
  simp only [ledger, Document.wrap, hreach.index, hreach.site]

lemma Represents.create (h : Represents r d) (hl : Trail d.root l w) {n : Nat}
    (hnode : w.site.nodes[n]? = some s) (hget : w.slots.get? n = none)
    (hkey : r.nodes d.version s = none) :
    Represents (r.create d.version (.under ((Cursor.root d.root.site).down (ordinals l)) n s)
      (some w.index) n) (d.adopt w.index n).1 ∧
    (d.adopt w.index n).2 = d.nodeId r.entries.length := by
  have hmade : w.reach d.fresh [n] = ⟨w.setChild (.mk d.fresh n s []), d.fresh, d.fresh + 1⟩ := by
    rw [reach, hget, hnode]
    rfl
  have hadopt : d.adopt w.index n = ({ d with
      root := d.root.replace (w.setChild (.mk d.fresh n s [])), fresh := d.fresh + 1 },
      d.nodeId d.fresh) := by
    rw [Document.adopt, (find?_eq_some_iff h.sound.nodup).2 ⟨hl.mem, rfl⟩]
    dsimp only
    rw [hmade]
  have hsound := h.sound.wrap (ordinals l ++ [n])
  rw [← h.sound.adopt_eq hl] at hsound
  have hb := h.sound.bound.of_mem hl.mem
  have hextends : Extends d.fresh w (w.reach d.fresh [n]) := extends_reach hb
  have hswap : Swap w (w.setChild (.mk d.fresh n s [])) _ _ := swap_replace h.sound.nodup hl rfl
  have hlive : ∀ i ∈ d.root.indices, i < r.entries.length := fun i hi =>
    h.size ▸ h.sound.lt_fresh_iff.2 (.inl hi)
  have hself := hlive _ (mem_indices_of_mem hl.mem)
  have hp : some w.index ≠ some r.entries.length := by simpa using hself.ne
  generalize hc : (Cursor.root d.root.site).down (ordinals l) = e
  obtain ⟨hlength, hknown, htable⟩ := rest_create r d.version (.under e n s) (some w.index) n
  rw [hadopt] at hsound ⊢
  rw [h.size]
  refine ⟨⟨hsound, h.apart, ?_, ?_, hlength.trans (congrArg (· + 1) h.size), fun i => ?_,
    fun i hi => ?_, h.keyed.create hp hkey, fun v hv s' => ?_⟩, rfl⟩
  · exact (congrArg Slot.ordinal (hswap.slot rfl rfl).1).trans h.first
  · have hsame : (d.root.replace (w.setChild (.mk d.fresh n s []))).site = d.root.site :=
      (hswap.slot rfl rfl).2
    dsimp only
    rw [hsame]
    refine hswap.held h.held h.sound.nodup rfl rfl (fun q e' hw => ?_) fun i hi hout =>
      ⟨getElem?_create_of_ne (hlive i hi) hself ?_, by rw [hknown]⟩
    · obtain rfl : e' = e := by
        have heq := (h.trail hl).entry.symm.trans hw.entry
        rw [hc] at heq
        exact (some.inj (congrArg Entry.node? (some.inj heq))).symm
      have hheld := held_create hw hb (nodup_of_trail h.sound.nodup hl)
        (fun i hi => hlive i (hswap.subset hi)) (h.unknown h.size.ge) d.version n s
      rwa [h.size] at hheld
    · exact fun heq => hout (heq ▸ mem_indices_of_mem (self_mem_all w))
  · rw [hknown]
    exact h.known i
  · have hnew : ∀ j, j ∈ w.indices ∨ j = d.fresh →
        j ∈ (d.root.replace (w.setChild (.mk d.fresh n s []))).indices := by
      intro j hj
      refine hswap.mem_indices.1 ?_
      have hindices := hextends.indices
      rw [hmade] at hindices
      refine hindices.mem_iff.2 (mem_append.2 (hj.imp id ?_))
      rintro rfl
      simp
    rw [site?_create hp, h.size, if_neg fun heq => hi (hnew i (.inr heq))]
    refine h.stale i fun hmem => hi ?_
    exact (hswap.mem_indices.2 hmem).elim (fun hw => hnew i (.inl hw)) id
  · rw [htable]
    dsimp only
    rw [if_neg fun heq => Nat.ne_of_gt hv heq.1]
    exact h.later v hv s'

lemma Represents.child?_eq (h : Represents r d) (hl : Trail d.root l w) (n : Nat) :
    ((d.ledger r).registry.entries[w.index]?.bind Entry.node?).bind (·.child? n) =
      w.site.nodes[n]?.map (.under ((Cursor.root d.root.site).down (ordinals l)) n) := by
  have hheld := h.trail hl
  rw [← hheld.site]
  change (r.entries[w.index]?.bind Entry.node?).bind _ = _
  rw [hheld.entry]
  rfl

lemma Represents.adopt (h : Represents r d) (i n : Nat) : ∃ r', Represents r' (d.adopt i n).1 ∧
    (d.ledger r).adopt i n = ((d.adopt i n).1.ledger r', (d.adopt i n).2) := by
  by_cases hi : i ∈ d.root.indices
  · obtain ⟨w, hw, rfl⟩ := mem_map.1 hi
    obtain ⟨l, hl⟩ := exists_trail hw
    have hb := h.sound.bound.of_mem hw
    rw [Ledger.adopt, h.child?_eq hl]
    cases hnode : w.site.nodes[n]? with
    | none =>
      -- neither is there a node nor a wrapper, and nothing is made
      have hget : w.slots.get? n = none := by
        refine eq_none_iff_forall_ne_some.2 fun v hv => ?_
        obtain ⟨hmem, rfl⟩ := (get?_slots hb).1 hv
        cases hnode.symm.trans (hb.nodes v hmem)
      have hstay : d.adopt w.index n = (d, d.nodeId w.index) := by
        have hself : d.root.reach d.fresh _ = _ :=
          reach_append_trail h.sound.bound h.sound.nodup hl []
        rw [append_nil, reach_trail h.sound.bound hl] at hself
        rw [Document.adopt, (find?_eq_some_iff h.sound.nodup).2 ⟨hw, rfl⟩]
        dsimp only
        rw [reach, hget, hnode]
        dsimp only
        rw [← show d.root = d.root.replace w from congrArg Reached.wrapper hself]
      rw [hstay]
      exact ⟨r, h, rfl⟩
    | some s =>
      cases hkey : r.nodes d.version s with
      | some i =>
        have hat := Site.at?_concat (h.sound.bound.at? hl) n
        have hadopt := (h.sound.adopt_eq hl n).trans (h.wrap_eq (hat.trans hnode) hkey)
        rw [hadopt]
        refine ⟨r, h, ?_⟩
        rw [map_some]
        dsimp only [getOrCreate, ledger, Cursor.site]
        rw [hkey]
        rfl
      | none =>
        have hget : w.slots.get? n = none := by
          refine eq_none_iff_forall_ne_some.2 fun v hv => ?_
          obtain ⟨hmem, rfl⟩ := (get?_slots hb).1 hv
          have hsite := (h.trail (hl.snoc hmem)).site?_eq
          rw [some.inj ((hb.nodes v hmem).symm.trans hnode)] at hsite
          cases hkey.symm.trans ((h.keyed _ _).2 hsite)
        obtain ⟨hnew, hanswer⟩ := h.create hl hnode hget hkey
        refine ⟨_, hnew, ?_⟩
        rw [hanswer, map_some, h.sound.adopt_eq hl, ledger_wrap h.sound _ r]
        dsimp only [getOrCreate, ledger, Cursor.site]
        rw [hkey]
        rfl
  · have hnone : ((d.ledger r).registry.entries[i]?.bind Entry.node?) = none := by
      have hstale := h.stale i hi
      rw [site?, bind_eq_none_iff] at hstale
      exact bind_eq_none_iff.2 fun e he => map_eq_none_iff.1 (hstale e he)
    have hfind := (find?_eq_none_iff h.sound.nodup).2 hi
    refine ⟨r, ?_, ?_⟩
    · rw [Document.adopt, hfind]
      exact h
    · rw [Ledger.adopt, Document.adopt, hfind, hnone]
      rfl

lemma Represents.adoptAll (h : Represents r d) (i : Nat) (ns : List Nat) :
    ∃ r', Represents r' (d.adoptAll i ns).1 ∧
      (d.ledger r).adoptAll i ns = ((d.adoptAll i ns).1.ledger r', (d.adoptAll i ns).2) := by
  induction ns generalizing d r with
  | nil => exact ⟨r, h, rfl⟩
  | cons n ns ih =>
    obtain ⟨r₁, h₁, hone⟩ := h.adopt i n
    obtain ⟨r₂, h₂, hmore⟩ := ih h₁
    refine ⟨r₂, h₂, ?_⟩
    rw [Ledger.adoptAll, hone, hmore]
    rfl

lemma Represents.children (h : Represents r d) (n : NodeId) :
    ∃ r', Represents r' (d.children n).document ∧ (d.ledger r).children n =
      (d.children n).answer.map ((d.children n).document.ledger r', ·) := by
  rcases h.node n with ⟨e, hd, hr⟩ | ⟨w, l, hd, hindex, hl, hr⟩
  · rw [Document.children, hd]
    exact ⟨r, h, by rw [Ledger.children, hr]; rfl⟩
  · obtain ⟨r', h', heq⟩ := h.adoptAll w.index (range w.site.nodes.length)
    rw [Document.children, hd]
    refine ⟨r', h', ?_⟩
    rw [Ledger.children, hr, ← hindex]
    change Except.ok ((d.ledger r).adoptAll w.index
      (range ((Cursor.root d.root.site).down (ordinals l)).site.nodes.length)) = _
    rw [(h.trail hl).site, heq]
    rfl

lemma at?_clip (s : Site) (a : Address) : s.at? (s.clip a).1 = some (s.clip a).2 := by
  induction a generalizing s with
  | nil => rfl
  | cons n a ih =>
    rw [Site.clip]
    cases hnode : s.nodes[n]? with
    | none => rfl
    | some c =>
      rw [Site.at?, hnode]
      exact ih c

lemma wrap_snoc (h : d.Sound) (hat : d.root.site.at? a = some s) (n : Nat) :
    (d.wrap a).1.adopt (d.wrap a).2.index n = d.wrap (a ++ [n]) := by
  obtain ⟨l, v, hl, hindex, hclip⟩ := trail_reach h.bound d.fresh a
  rw [Site.clip_of_at? hat] at hclip
  have hadopt := (h.wrap a).adopt_eq hl n
  rw [hindex, (Prod.mk.inj hclip).1] at hadopt
  refine hadopt.trans ?_
  exact congrArg (fun r : Reached => ({ d with root := r.wrapper, fresh := r.fresh },
    d.nodeId r.index)) (reach_reach h.bound a [n])

lemma down_snoc (hat : c.site.at? a = some s) {n : Nat} {e : Site} (hnode : s.nodes[n]? = some e) :
    c.down (a ++ [n]) = .under (c.down a) n e := by
  induction a generalizing c with
  | nil =>
    obtain rfl := some.inj hat
    simp only [nil_append, Cursor.down, Cursor.child?, hnode, map_some]
  | cons m a ih =>
    obtain ⟨t, ht, hrest⟩ := bind_eq_some_iff.1 hat
    simp only [cons_append, Cursor.down, Cursor.child?, ht, map_some]
    exact ih hrest

lemma Represents.wrap_of_at? (h : Represents r d) (hat : d.root.site.at? a = some s) :
    ∃ r', Represents r' (d.wrap a).1 ∧
      Registry.wrap d.version r ((Cursor.root d.root.site).down a) = (r', (d.wrap a).2.index) := by
  induction a using List.reverseRecOn generalizing s with
  | nil =>
    refine ⟨r, h, ?_⟩
    have hkey := (h.keyed _ _).2 h.held.site?_eq
    simp only [Cursor.down, Registry.wrap, getOrCreate, Cursor.site, hkey]
    rfl
  | append_singleton b n ih =>
    obtain ⟨t, ht, hlast⟩ := bind_eq_some_iff.1 ((Site.at?_append _ b [n]).symm.trans hat)
    have hnode := (Site.at?_concat ht n).symm.trans hat
    rw [down_snoc (c := .root d.root.site) ht hnode, Registry.wrap]
    cases hkey : r.nodes d.version s with
    | some i => exact ⟨r, by rw [h.wrap_eq hat hkey]; exact ⟨h, rfl⟩⟩
    | none =>
      obtain ⟨r₁, h₁, habove⟩ := ih ht
      obtain ⟨r₂, h₂, heq⟩ := h₁.adopt (d.wrap b).2.index n
      rw [wrap_snoc h.sound ht] at h₂ heq
      refine ⟨r₂, h₂, ?_⟩
      dsimp only
      rw [habove]
      -- the wrapper that was made above is at the node above
      obtain ⟨l, v, hl, hindex, hclip⟩ := trail_reach h.sound.bound d.fresh b
      rw [Site.clip_of_at? ht] at hclip
      obtain ⟨hordinals, hsite⟩ := Prod.mk.inj hclip
      have hroot : (d.wrap b).1.root.site = d.root.site := (extends_reach h.sound.bound).site
      have hchild := h₁.child?_eq hl n
      rw [show v.index = (d.wrap b).2.index from hindex, hordinals, hroot, hsite, hnode] at hchild
      rw [Ledger.adopt, hchild] at heq
      exact congrArg (fun p : Ledger × NodeId => (p.1.registry, p.2.index)) heq

lemma Represents.wrap (h : Represents r d) (a : Address) : ∃ r', Represents r' (d.wrap a).1 ∧
    (d.ledger r).wrap a = ((d.wrap a).1.ledger r', (d.wrap a).2) := by
  have hclip : d.wrap (d.root.site.clip a).1 = d.wrap a := by
    rw [Document.wrap, reach_clip h.sound.bound, Document.wrap]
  obtain ⟨r', h', heq⟩ := h.wrap_of_at? (at?_clip d.root.site a)
  have hdown : (Cursor.root d.root.site).down (d.root.site.clip a).1 = _ := Cursor.down_clip _ a
  rw [hclip] at h'
  rw [hclip, hdown] at heq
  refine ⟨r', h', ?_⟩
  rw [ledger_wrap h.sound a r]
  exact congrArg (fun p : Registry × Nat => ({ d.ledger r with registry := p.1 }, d.nodeId p.2)) heq

lemma Settles.known {c : Carried} {known : List (Nat × LastKnown)}
    (hs : Settles version p cur ws c r r') (hold : ∀ i, r.known i = known.lookup i) (i : Nat) :
    r'.known i = (c.lost.map (fun w => (w.index, w.lastKnown)) ++ known).lookup i := by
  rw [lookup_append]
  cases hlost : (c.lost.map fun w => (w.index, w.lastKnown)).lookup i with
  | some k =>
    obtain ⟨w, hw, rfl, rfl⟩ := lookup_lost hlost
    exact hs.noted w hw
  | none =>
    refine (hs.others i fun hi => ?_).trans (hold i)
    obtain ⟨w, hw, rfl⟩ := mem_map.1 hi
    have hall := lookup_eq_none_iff.1 hlost _ (mem_map_of_mem hw)
    simp at hall

lemma Settles.stale {c : Carried} (hs : Settles version p cur ws c r r') (hi : i ∉ indicesOf c.kept)
    (hold : i ∉ indicesOf ws → r.site? i = none) : r'.site? i = none := by
  by_cases hmem : i ∈ indicesOf ws
  · rcases mem_append.1 (hs.numbers.mem_iff.1 hmem) with hkept | hlost
    · exact absurd hkept hi
    · obtain ⟨w, hw, rfl⟩ := mem_map.1 hlost
      exact hs.blank w hw
  · exact (hs.site?_eq hmem).trans (hold hmem)

lemma Represents.shed {root : Wrapper} (h : Represents r d)
    (hs : Settles d.version (some w.index) cur ws { lost } r r')
    (hkeyed : r'.Keyed d.version) (hws : ws ⊆ w.children)
    (hswap : Swap w w' d.root root) (hslot : Slot.of w' = .of w) (hsite : w'.site = w.site)
    (hb : root.Bound) (hlost : d.root.indices.Perm (root.indices ++ lost.map index))
    (hnew : ∀ q e, Held r q e w → Held r' q e w') : Represents r' ({ d with root }.record lost) ∧
    { d.ledger r with registry := r' } = ({ d with root }.record lost).ledger r' := by
  obtain ⟨hroot, hsame⟩ := hswap.slot hslot hsite
  have hbelow : indicesOf ws ⊆ w.indices := by
    intro i hi
    obtain ⟨v, hv, hi⟩ := mem_indicesOf.1 hi
    rw [indices_eq]
    exact mem_cons_of_mem _ (mem_indicesOf.2 ⟨v, hws hv, hi⟩)
  refine ⟨⟨h.sound.record hb hsame hlost, h.apart, (congrArg Slot.ordinal hroot).trans h.first, ?_,
    hs.length.trans h.size, hs.known h.known, fun i hi => ?_, hkeyed, fun v hv s => ?_⟩, ?_⟩
  · change Held r' none (.root root.site) root
    rw [hsame]
    refine hswap.held h.held h.sound.nodup hslot hsite hnew fun i _ hi =>
      ⟨hs.frame i ?_ ?_, hs.unknown ?_⟩
    · exact fun hmem => hi (hbelow hmem)
    · exact fun heq => hi (some.inj heq ▸ mem_indices_of_mem (self_mem_all w))
    · exact fun hmem => hi (hbelow hmem)
  · refine hs.stale not_mem_nil fun hmem => h.stale i fun hold => ?_
    exact (mem_append.1 (hlost.mem_iff.1 hold)).elim hi (hs.not_lost hmem)
  · change d.version < v at hv
    rcases Nat.eq_or_lt_of_le hv with rfl | hv'
    · refine eq_none_iff_forall_ne_some.2 fun i hnode => ?_
      rcases hs.sound s i hnode with hold | hold
      · cases (h.later _ hv s).symm.trans hold
      · exact absurd hold not_mem_nil
    · rw [hs.later v hv']
      exact h.later v hv s
  · have hindex : root.index = d.root.index := congrArg Slot.index hroot
    simp only [ledger, record, hsame, hindex]

lemma prune_child (hb : w.Bound) (hd : w.indices.Nodup) (hv : v ∈ w.children) :
    w.prune v.index = .mk w.index w.ordinal w.site (w.slots.eraseKey v.ordinal).items ∧
    ∀ u ∈ (w.slots.eraseKey v.ordinal).items, u ∈ w.children ∧ ∀ i ∈ u.indices, i ∉ v.indices := by
  have hitems := OrderedIndex.before_append_after w.slots v.ordinal
  rw [(get?_slots hb).2 ⟨hv, rfl⟩] at hitems
  change w.slots.before v.ordinal ++ v :: w.slots.after v.ordinal = w.children at hitems
  change _ = Wrapper.mk _ _ _ (w.slots.before v.ordinal ++ w.slots.after v.ordinal) ∧
    ∀ u ∈ w.slots.before v.ordinal ++ w.slots.after v.ordinal, _
  rw [prune_eq]
  rw [indices_eq, nodup_cons] at hd
  generalize w.slots.before v.ordinal = us at *
  generalize w.slots.after v.ordinal = vs at *
  rw [← hitems] at hd ⊢
  simp only [indicesOf_append, indicesOf_cons, nodup_append, mem_append] at hd
  obtain ⟨-, -, ⟨-, -, hvs⟩, hus⟩ := hd
  have hself : v.index ∈ v.indices := mem_indices_of_mem (self_mem_all v)
  constructor
  · rw [pruneAll_append, pruneAll, if_pos rfl, pruneAll_of_not_mem, pruneAll_of_not_mem]
    · exact fun hmem => hvs _ hself _ hmem rfl
    · exact fun hmem => hus _ hmem _ (.inl hself) rfl
  · intro u hu
    rcases mem_append.1 hu with hu | hu
    · exact ⟨mem_append_left _ hu, fun i hi hmem =>
        hus i (mem_indicesOf.2 ⟨u, hu, hi⟩) i (.inl hmem) rfl⟩
    · exact ⟨mem_append_right _ (mem_cons_of_mem _ hu), fun i hi hmem =>
        hvs i hmem i (mem_indicesOf.2 ⟨u, hu, hi⟩) rfl⟩

/-- The slot of a wrapper that is forgotten is found by its ordinal, and it goes. -/
lemma held_forget (hw : Held r q c w) (hb : w.Bound) (hd : w.indices.Nodup) (hv : v ∈ w.children)
    (version : Nat) : Held (r.forget version v.index).1 q c (w.prune v.index) := by
  obtain ⟨hbelow, habove⟩ := child_apart hd hv
  have hchild := hw.child hv
  obtain ⟨hs, -, hout⟩ := settles_forget version (fun _ => c) hchild hbelow habove
  obtain ⟨hprune, hothers⟩ := prune_child hb hd hv
  have hself : w.index ∉ v.indices := fun hmem => habove _ hmem rfl
  have hone := indicesOf_singleton v
  rw [hprune]
  refine .mk hw.site ?_ ?_ fun u hu => ?_
  · have hslot : (slotsOf w.children).get? v.ordinal = some (.of v) := by
      rw [get?_slotsOf, (get?_slots hb).2 ⟨hv, rfl⟩]
      rfl
    refine (hout w.index hself).trans ?_
    rw [detach, hchild.entry]
    refine (getElem?_update ..).trans ?_
    rw [if_pos rfl, hw.entry, map_some]
    refine congrArg some ((if_pos hslot).trans ?_)
    exact congrArg (fun slots => { Entry.of q c w with slots }) (eraseLike_slotsOf w v)
  · exact (hs.unknown (hone ▸ hself)).trans hw.live
  · obtain ⟨hu, happart⟩ := hothers u hu
    refine (hw.child hu).congr fun i hi =>
      ⟨hs.frame i (hone ▸ happart i hi) ?_, hs.unknown (hone ▸ happart i hi)⟩
    exact (child_apart hd hu).2 i hi

lemma Represents.forget_of_not_mem (h : Represents r d) (hi : i ∉ d.root.indices) :
    r.forget d.version i = (r, 0) := by
  rw [Registry.forget]
  split_ifs with hknown
  · rfl
  · have hnone := h.absent hi (not_isSome_iff_eq_none.1 hknown)
    rw [detach, hnone]
    dsimp only
    rw [forgetAll]
    split
    · exact forgetAll.eq_1 ..
    next e he => cases hnone.symm.trans he

lemma Represents.forget_of_mem (h : Represents r d) (hv : v ∈ d.root.all) (htop : v ≠ d.root) :
    Represents (r.forget d.version v.index).1
      ({ d with root := d.root.prune v.index }.record v.all) ∧
    { d.ledger r with registry := (r.forget d.version v.index).1 } =
      ({ d with root := d.root.prune v.index }.record v.all).ledger
        (r.forget d.version v.index).1 ∧ (r.forget d.version v.index).2 = v.all.length := by
  obtain ⟨w, hw, hvw⟩ := exists_parent hv htop
  obtain ⟨l, hl⟩ := exists_trail hw
  have hb := h.sound.bound.of_mem hw
  have hd := nodup_of_trail h.sound.nodup hl
  obtain ⟨hbelow, habove⟩ := child_apart hd hvw
  obtain ⟨hs, hcount, -⟩ :=
    settles_forget d.version (fun _ => .root d.root.site) ((h.trail hl).child hvw) hbelow habove
  have hne : v.index ≠ d.root.index := fun heq =>
    htop (eq_of_index_eq h.sound.nodup hv (self_mem_all _) heq)
  obtain ⟨hnew, hledger⟩ := h.shed (show Settles _ _ _ [v] { lost := v.all } r _ from hs)
    (h.keyed.forget v.index) (by simpa using hvw) (swap_prune h.sound.nodup hl hvw)
    (by rw [prune_eq]; rfl) (site_prune ..) (h.sound.bound.prune _)
    (indices_prune h.sound.nodup (hl.snoc hvw) hne)
    fun q e hheld => held_forget hheld hb hd hvw d.version
  exact ⟨hnew, hledger, hcount⟩

lemma Represents.forget (h : Represents r d) (n : NodeId) :
    (∃ e, d.forget n = d.refuse e ∧ (d.ledger r).forget n = .error e) ∨
    ∃ new log r', d.forget n = ⟨.ok (), new, log⟩ ∧ Represents r' new ∧
      (d.ledger r).forget n = .ok (new.ledger r', log) := by
  unfold Document.forget Ledger.forget
  by_cases hroot : n = d.rootId
  · rw [if_pos hroot, if_pos (show n = (d.ledger r).nodeId (d.ledger r).root from hroot)]
    exact .inl ⟨_, rfl, rfl⟩
  rw [if_neg hroot, if_neg (show ¬ n = (d.ledger r).nodeId (d.ledger r).root from hroot)]
  by_cases htag : n.document ≠ d.tag
  · rw [if_pos htag, if_pos (show n.document ≠ (d.ledger r).tag from htag)]
    exact .inl ⟨_, rfl, rfl⟩
  rw [if_neg htag, if_neg (show ¬ n.document ≠ (d.ledger r).tag from htag)]
  cases hfind : d.root.find? n.index with
  | none =>
    have hnot := (find?_eq_none_iff h.sound.nodup).1 hfind
    refine .inr ⟨d, [.forgot 0], r, ?_, h, ?_⟩
    · rw [prune_of_not_mem hnot]
      rfl
    · change Except.ok ({ d.ledger r with registry := (r.forget d.version n.index).1 },
        [Event.forgot (r.forget d.version n.index).2]) = _
      rw [h.forget_of_not_mem hnot]
      rfl
  | some v =>
    obtain ⟨hv, hindex⟩ := (find?_eq_some_iff h.sound.nodup).1 hfind
    have htop : v ≠ d.root := by
      rintro rfl
      exact hroot (by rw [rootId, hindex, nodeId_eq (not_not.1 htag)])
    obtain ⟨hnew, hledger, hcount⟩ := h.forget_of_mem hv htop
    rw [← hindex]
    refine .inr ⟨_, _, _, rfl, hnew, ?_⟩
    change Except.ok ({ d.ledger r with registry := (r.forget d.version v.index).1 },
      [Event.forgot (r.forget d.version v.index).2]) = _
    rw [hledger, hcount]
    rfl

lemma forget_each (version : Nat) (cur : Wrapper → Cursor)
    {m : Nat} (hw : Held r q c (.mk i m s ws)) (hb : (Wrapper.mk i m s ws).Bound)
    (hd : (Wrapper.mk i m s ws).indices.Nodup) : Settles version (some i)
      cur ws { lost := allOf ws } r ((ws.map index).foldl (fun r i => (r.forget version i).1) r) ∧
    Held ((ws.map index).foldl (fun r i => (r.forget version i).1) r) q c (.mk i m s []) := by
  induction ws generalizing r with
  | nil => exact ⟨settles_nil version (some i) cur r, hw⟩
  | cons v ws ih =>
    have hv : v ∈ (Wrapper.mk i m s (v :: ws)).children := mem_cons_self
    obtain ⟨hbelow, habove⟩ := child_apart hd hv
    obtain ⟨hs, -⟩ := settles_forget version cur (hw.child hv) hbelow habove
    rw [indices_eq, nodup_cons] at hd
    have hall : (indicesOf ([v] ++ ws)).Nodup := hd.2
    have hnot : v.index ∉ indicesOf ws := by
      rw [indicesOf_append, nodup_append] at hall
      refine fun hmem => hall.2.2 v.index ?_ _ hmem rfl
      exact mem_indicesOf.2 ⟨v, mem_cons_self, mem_indices_of_mem (self_mem_all v)⟩
    have hprune : (Wrapper.mk i m s (v :: ws)).prune v.index = .mk i m s ws := by
      rw [Wrapper.prune, pruneAll, if_pos rfl, pruneAll_of_not_mem hnot]
    have hheld := held_forget hw hb (indices_eq _ ▸ nodup_cons.2 hd) hv version
    have hbound := hb.prune v.index
    rw [hprune] at hheld hbound
    have hrest : (Wrapper.mk i m s ws).indices.Nodup := by
      rw [indices_mk, nodup_cons]
      rw [indicesOf_append, nodup_append] at hall
      refine ⟨fun hmem => hd.1 ?_, hall.2.1⟩
      exact (indicesOf_cons v ws).symm ▸ mem_append_right v.indices hmem
    obtain ⟨hs', hheld'⟩ := ih hheld hbound hrest
    refine ⟨hs.append hs' hall fun j hj => ?_, hheld'⟩
    rw [indicesOf_cons] at hj
    exact habove j ((append_nil v.indices) ▸ hj)

lemma Represents.forgetDescendants (h : Represents r d) (n : NodeId) :
    (∃ e, d.forgetDescendants n = d.refuse e ∧ (d.ledger r).forgetDescendants n = .error e) ∨
    ∃ new r', d.forgetDescendants n = ⟨.ok (), new, []⟩ ∧ Represents r' new ∧
      (d.ledger r).forgetDescendants n = .ok (new.ledger r') := by
  rcases h.node n with ⟨e, hd, hr⟩ | ⟨w, l, hd, hindex, hl, hr⟩
  · rw [Document.forgetDescendants, hd]
    exact .inl ⟨e, rfl, by rw [Ledger.forgetDescendants, hr]; rfl⟩
  · have hb := h.sound.bound.of_mem hl.mem
    have hnodup := nodup_of_trail h.sound.nodup hl
    have hclear : w.clear w.index = .mk w.index w.ordinal w.site [] := by
      rw [clear_eq, if_pos rfl]
    have heach := fun q e (hw : Held r q e w) => forget_each d.version
      (fun _ => .root d.root.site) (m := w.ordinal)
      (show Held r q e (.mk w.index _ w.site w.children) by cases w; exact hw)
      (by cases w; exact hb) (by cases w; exact hnodup)
    have hkeyed : ∀ (is : List Nat) (r : Registry), r.Keyed d.version →
        (is.foldl (fun r i => (r.forget d.version i).1) r).Keyed d.version := by
      intro is
      induction is with
      | nil => exact fun _ hr => hr
      | cons i is ih => exact fun r hr => ih _ (hr.forget i)
    obtain ⟨hnew, hledger⟩ := h.shed (heach _ _ (h.trail hl)).1 (hkeyed _ r h.keyed)
      (List.Subset.refl _) (swap_clear h.sound.nodup hl) (by rw [hclear]; rfl) (by rw [hclear]; rfl)
      (h.sound.bound.clear _) (indices_clear h.sound.nodup hl)
      fun q e hheld => hclear ▸ (heach q e hheld).2
    rw [Document.forgetDescendants, hd]
    refine .inr ⟨_, _, rfl, hnew, ?_⟩
    rw [Ledger.forgetDescendants, hr]
    refine Eq.trans (congrArg Except.ok ?_) (congrArg Except.ok hledger)
    rw [show ∀ p c, (Entry.of p c w).below = w.children.map index from fun _ _ => map_map ..]
    rfl

end Registry
end LiveEdit
