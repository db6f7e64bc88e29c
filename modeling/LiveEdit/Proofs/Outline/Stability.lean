import Mathlib.Data.List.Forall2
import LiveEdit.Proofs.Outline.Unfolding

/-! What a rule makes depends on the tokens that it reads and on the kind of the next one. -/

namespace LiveEdit
open List Option

namespace Rule
open Outline

/-- The rule makes just `os` of the leaves of `os`, where `rest` comes after them. -/
def Gives (r : Rule) (os : List Outline) (rest : List Kind) : Prop :=
  r (leavesAll os ++ rest) = (os, rest)

/-- The rule makes `os'` of the leaves of `os'`, which start like those of `os`, where what comes
after starts like `rest`. -/
structure Replaces (r : Rule) (os os' : List Outline) (rest : List Kind) : Prop where
  head : (leavesAll os').head? = (leavesAll os).head?
  gives : ∀ rest', peek rest' = peek rest → Gives r os' rest'

end Rule

namespace Grammar
open Rule

inductive Port : Kind → Rule → Prop where
  | block : Port .block (block statement)
  | parameters : Port .parameterList
      (choose (· == .leftParenthesis) parameterList (complain .parameterList))
  | arguments : Port .argumentList (option .leftParenthesis (arguments expression))
  | declarations : Port .variableStatement statement
  | classes : Port .classDeclaration statement
  | enums : Port .enumDeclaration statement

end Grammar

namespace Outline
open Rule Grammar

variable {o : Outline} {os : List Outline}

inductive Alike : Outline → Outline → Prop where
  | same (o : Outline) : Alike o o
  | parts {k : Kind} {os os' : List Outline} (h : List.Forall₂ Alike os os') :
      Alike (.branch k os) (.branch k os')
  | exchange {k : Kind} {r : Rule} {os os' : List Outline} (port : Port k r)
      (h : ∀ rest, Gives r [.branch k os] rest →
        Replaces r [.branch k os] [.branch k os'] rest) : Alike (.branch k os) (.branch k os')

lemma alike_refl (os : List Outline) : List.Forall₂ Alike os os :=
  forall₂_same.2 fun o _ => .same o

lemma Alike.of_leaf {k : Kind} (h : Alike (.leaf k) o) : o = .leaf k := by
  cases h with
  | same => rfl

lemma Alike.of_fault {c : Complaint} (h : Alike (.fault c) o) : o = .fault c := by
  cases h with
  | same => rfl

lemma alike_singleton (h : List.Forall₂ Alike [o] os) : ∃ o', os = [o'] ∧ Alike o o' := by
  obtain ⟨o', ps, ho, hps, rfl⟩ := forall₂_cons_left_iff.1 h
  obtain rfl := forall₂_nil_left_iff.1 hps
  exact ⟨o', rfl, ho⟩

lemma alike_append {ps qs : List Outline} (h : List.Forall₂ Alike (os ++ ps) qs) :
    ∃ os' ps', qs = os' ++ ps' ∧ List.Forall₂ Alike os os' ∧ List.Forall₂ Alike ps ps' := by
  induction os generalizing qs with
  | nil => exact ⟨[], qs, rfl, .nil, h⟩
  | cons o os ih =>
    obtain ⟨o', rs, ho, hrs, rfl⟩ := forall₂_cons_left_iff.1 h
    obtain ⟨os', ps', rfl, hos, hps⟩ := ih hrs
    exact ⟨o' :: os', ps', rfl, .cons ho hos, hps⟩

mutual

def depth : Outline → Nat
  | leaf _ => 0
  | fault _ => 0
  | branch _ os => depthAll os + 1

def depthAll : List Outline → Nat
  | [] => 0
  | o :: os => max (depth o) (depthAll os)

end

@[simp] lemma depthAll_append (os ps : List Outline) :
    depthAll (os ++ ps) = max (depthAll os) (depthAll ps) := by
  induction os with
  | nil => simp [depthAll]
  | cons o os ih => simp [depthAll, ih, Nat.max_assoc]

end Outline

namespace Rule
open Outline Grammar

variable {r s yes no more : Rule} {rs : List Rule} {p stop : Kind → Bool} {kind : Kind}
  {os os' ps ps' : List Outline} {rest rest' ks : List Kind} {n : Nat} {l : Listing}

def StableTo (n : Nat) (r : Rule) : Prop :=
  ∀ os rest os', depthAll os < n → Gives r os rest → List.Forall₂ Alike os os' →
    Replaces r os os' rest

def Stable (r : Rule) : Prop := ∀ n, StableTo n r

lemma StableTo.mono {m : Nat} (h : StableTo n r) (hm : m ≤ n) : StableTo m r :=
  fun os rest os' hd => h os rest os' (Nat.lt_of_lt_of_le hd hm)

lemma Stable.gives (h : Stable r) (hg : Gives r os rest) (hrest : peek rest' = peek rest) :
    Gives r os rest' :=
  (h _ os rest os (Nat.lt_succ_self _) hg (alike_refl os)).gives rest' hrest

lemma peek_eq_head (ks : List Kind) : peek ks = ks.head?.getD .endOfFile := by
  cases ks with
  | nil => rfl
  | cons k ks => rfl

lemma peek_append (h : (leavesAll os').head? = (leavesAll os).head?)
    (hrest : peek rest' = peek rest) :
    peek (leavesAll os' ++ rest') = peek (leavesAll os ++ rest) := by
  rw [peek_eq_head, peek_eq_head, List.head?_append, List.head?_append, h]
  cases (leavesAll os).head? with
  | none => simpa only [peek_eq_head, none_or] using hrest
  | some k => rfl

lemma peek_append_of_ne (h : leavesAll os ≠ []) (rest' rest : List Kind) :
    peek (leavesAll os ++ rest') = peek (leavesAll os ++ rest) := by
  obtain ⟨k, ks, hks⟩ := exists_cons_of_ne_nil h
  rw [hks]
  rfl

structure Frugal (r : Rule) : Prop where
  ahead : LosslessAhead r
  nil : (r []).2 = []

lemma Lossless.frugal (h : Lossless r) : Frugal r :=
  ⟨h.ahead, (append_eq_nil_iff.1 (h [])).2⟩

lemma frugal_take : Frugal take := ⟨ahead_take, rfl⟩

lemma frugal_recover (c : Complaint) : Frugal (recover c) := ⟨ahead_recover c, rfl⟩

lemma gives_seq_cons (hr : Frugal r) : Gives (seq (r :: rs)) os rest ↔
    ∃ ps qs, os = ps ++ qs ∧ Gives r ps (leavesAll qs ++ rest) ∧ Gives (seq rs) qs rest := by
  constructor
  · intro h
    obtain ⟨hos, hrest⟩ := Prod.mk.inj h
    refine ⟨(r (leavesAll os ++ rest)).1, (seq rs (r (leavesAll os ++ rest)).2).1, hos.symm, ?_⟩
    set ks := leavesAll os ++ rest with hks
    have hmid : leavesAll (seq rs (r ks).2).1 ++ rest = (r ks).2 ∧
        leavesAll (r ks).1 ++ (r ks).2 = ks := by
      have hsplit : leavesAll (r ks).1 ++ (leavesAll (seq rs (r ks).2).1 ++ rest) = ks := by
        rw [← append_assoc, ← leavesAll_append]
        exact (congrArg (fun ps => leavesAll ps ++ rest) hos).trans hks.symm
      by_cases hnil : ks = []
      · rw [hnil] at hsplit
        obtain ⟨hfirst, hlast⟩ := append_eq_nil_iff.1 hsplit
        have hend : (r ks).2 = [] := by rw [hnil]; exact hr.nil
        rw [hnil] at hend ⊢
        rw [hfirst, hlast, hend]
        exact ⟨rfl, rfl⟩
      · have hreads : leavesAll (r ks).1 ++ (r ks).2 = ks := hr.ahead ks hnil
        exact ⟨append_cancel_left (hsplit.trans hreads.symm), hreads⟩
    have hlast : seq rs (r ks).2 = ((seq rs (r ks).2).1, rest) := Prod.ext rfl hrest
    constructor
    · unfold Gives
      rw [hmid.1, hmid.2]
    · unfold Gives
      rw [hmid.1]
      exact hlast
  · rintro ⟨ps, qs, rfl, hps, hqs⟩
    unfold Gives at hps hqs ⊢
    rw [leavesAll_append, append_assoc]
    simp only [seq, hps, hqs]

lemma gives_seq_one : Gives (seq [r]) os rest ↔ Gives r os rest := by
  simp only [Gives, seq, skip, append_nil]

lemma gives_node :
    Gives (node kind r) os rest ↔ ∃ ps, os = [.branch kind ps] ∧ Gives r ps rest := by
  constructor
  · intro h
    obtain ⟨hos, hrest⟩ := Prod.mk.inj h
    refine ⟨(r (leavesAll os ++ rest)).1, hos.symm, ?_⟩
    have hleaves : leavesAll (r (leavesAll os ++ rest)).1 = leavesAll os := by
      have := congrArg leavesAll hos
      simpa [leavesAll, leaves] using this
    unfold Gives
    rw [hleaves]
    exact Prod.ext rfl hrest
  · rintro ⟨ps, rfl, hps⟩
    unfold Gives at hps ⊢
    simp only [leavesAll, leaves, append_nil, node, nodeFrom, hps, nil_append]

lemma gives_choose_of (h : p (peek (leavesAll os ++ rest)) = true) :
    Gives (choose p yes no) os rest ↔ Gives yes os rest := by
  unfold Gives choose
  rw [if_pos h]

lemma gives_choose_of_not (h : p (peek (leavesAll os ++ rest)) = false) :
    Gives (choose p yes no) os rest ↔ Gives no os rest := by
  unfold Gives choose
  rw [if_neg (Bool.eq_false_iff.1 h)]

lemma gives_take : Gives take os rest ↔ ∃ k, os = [.leaf k] := by
  constructor
  · intro h
    unfold Gives at h
    cases hks : leavesAll os ++ rest with
    | nil =>
      rw [hks] at h
      obtain ⟨rfl, -⟩ := Prod.mk.inj h
      cases hks
    | cons k ks =>
      rw [hks] at h
      exact ⟨k, (Prod.mk.inj h).1.symm⟩
  · rintro ⟨k, rfl⟩
    rfl

lemma leaves_ne_nil_of_advances (hadv : Advances r (leavesAll os ++ rest)) (hg : Gives r os rest) :
    leavesAll os ≠ [] := by
  intro hnil
  unfold Advances at hadv
  unfold Gives at hg
  rw [hg, hnil] at hadv
  exact Nat.lt_irrefl _ hadv

lemma gives_skip : Gives skip os rest ↔ os = [] := by
  refine ⟨fun h => (Prod.mk.inj h).1.symm, ?_⟩
  rintro rfl
  rfl

lemma gives_complain {c : Complaint} : Gives (complain c) os rest ↔ os = [.fault c] := by
  refine ⟨fun h => (Prod.mk.inj h).1.symm, ?_⟩
  rintro rfl
  rfl

lemma stable_skip : Stable skip := by
  intro n os rest os' _ hg hos
  obtain rfl := gives_skip.1 hg
  obtain rfl := forall₂_nil_left_iff.1 hos
  exact ⟨rfl, fun _ _ => rfl⟩

lemma stable_complain (c : Complaint) : Stable (complain c) := by
  intro n os rest os' _ hg hos
  obtain rfl := gives_complain.1 hg
  obtain ⟨o, rfl, ho⟩ := alike_singleton hos
  obtain rfl := ho.of_fault
  exact ⟨rfl, fun _ _ => rfl⟩

lemma stable_take : Stable take := by
  intro n os rest os' _ hg hos
  obtain ⟨k, rfl⟩ := gives_take.1 hg
  obtain ⟨o, rfl, ho⟩ := alike_singleton hos
  obtain rfl := ho.of_leaf
  exact ⟨rfl, fun _ _ => rfl⟩

lemma stableTo_seq_cons (hr : Frugal r) (h : StableTo n r) (hs : StableTo n (seq rs)) :
    StableTo n (seq (r :: rs)) := by
  intro os rest os' hd hg hos
  obtain ⟨ps, qs, rfl, hps, hqs⟩ := (gives_seq_cons hr).1 hg
  obtain ⟨ps', qs', rfl, hps', hqs'⟩ := alike_append hos
  rw [depthAll_append] at hd
  have hfirst := h ps _ ps' (by omega) hps hps'
  have hrest := hs qs rest qs' (by omega) hqs hqs'
  constructor
  · rw [leavesAll_append, leavesAll_append, List.head?_append, List.head?_append, hfirst.head,
      hrest.head]
  · intro rest' hnext
    exact (gives_seq_cons hr).2
      ⟨ps', qs', rfl, hfirst.gives _ (peek_append hrest.head hnext), hrest.gives rest' hnext⟩

lemma stableTo_take_seq (hs : StableTo n (seq rs)) : StableTo n (seq (take :: rs)) :=
  stableTo_seq_cons frugal_take (stable_take n) hs

lemma stableTo_seq_one (h : StableTo n r) : StableTo n (seq [r]) := by
  intro os rest os' hd hg hos
  have hone := h os rest os' hd (gives_seq_one.1 hg) hos
  exact ⟨hone.head, fun rest' hrest => gives_seq_one.2 (hone.gives rest' hrest)⟩

lemma stableTo_choose (hyes : StableTo n yes) (hno : StableTo n no) :
    StableTo n (choose p yes no) := by
  intro os rest os' hd hg hos
  cases hnext : p (peek (leavesAll os ++ rest)) with
  | true =>
    have h := hyes os rest os' hd ((gives_choose_of hnext).1 hg) hos
    refine ⟨h.head, fun rest' hrest => ?_⟩
    exact (gives_choose_of (by rwa [peek_append h.head hrest])).2 (h.gives rest' hrest)
  | false =>
    have h := hno os rest os' hd ((gives_choose_of_not hnext).1 hg) hos
    refine ⟨h.head, fun rest' hrest => ?_⟩
    exact (gives_choose_of_not (by rwa [peek_append h.head hrest])).2 (h.gives rest' hrest)

lemma stableTo_dispatch (h : ∀ k, ∃ s, StableTo n s ∧ ∀ ks, peek ks = k → r ks = s ks) :
    StableTo n r := by
  intro os rest os' hd hg hos
  obtain ⟨s, hs, hsame⟩ := h (peek (leavesAll os ++ rest))
  have hone := hs os rest os' hd ((hsame _ rfl).symm.trans hg) hos
  refine ⟨hone.head, fun rest' hrest => ?_⟩
  show r (leavesAll os' ++ rest') = (os', rest')
  rw [hsame _ (peek_append hone.head hrest)]
  exact hone.gives rest' hrest

lemma stable_option {k : Kind} (h : StableTo n r) : StableTo n (option k r) :=
  stableTo_choose h (stable_skip n)

lemma stable_expect (k : Kind) : Stable (expect k) :=
  fun n => stableTo_choose (stable_take n) (stable_complain _ n)

/-- A rule that by what it sees ahead makes a node. The node is replaced if its parts are, and if
there is nothing else that it is exchanged for. -/
lemma replaces_node (hport : ∀ t, Port kind t → t = s)
    (hs : ∀ ls, peek ls = peek (leavesAll os ++ rest) → s ls = node kind r ls) (h : StableTo n r)
    (hd : depthAll os < n + 1) (hg : Gives s os rest) (hos : List.Forall₂ Alike os os') :
    Replaces s os os' rest := by
  obtain ⟨ps, rfl, hps⟩ := gives_node.1 ((hs _ rfl).symm.trans hg)
  obtain ⟨o, rfl, ho⟩ := alike_singleton hos
  have hparts : ∀ ps', List.Forall₂ Alike ps ps' →
      Replaces s [.branch kind ps] [.branch kind ps'] rest := by
    intro ps' hps'
    simp only [depthAll, depth] at hd
    have hinner := h ps rest ps' (by omega) hps hps'
    have hhead : (leavesAll [.branch kind ps']).head? = (leavesAll [.branch kind ps]).head? := by
      simpa only [leavesAll, leaves, append_nil] using hinner.head
    refine ⟨hhead, fun rest' hrest => ?_⟩
    exact (hs _ (peek_append hhead hrest)).trans (gives_node.2 ⟨ps', rfl, hinner.gives rest' hrest⟩)
  cases ho with
  | same => exact hparts ps (alike_refl ps)
  | parts hps' => exact hparts _ hps'
  | exchange port hexchange =>
    obtain rfl := hport _ port
    exact hexchange rest hg

lemma stableTo_node (hport : ∀ s, Port kind s → s = node kind r) (h : StableTo n r) :
    StableTo (n + 1) (node kind r) :=
  fun _ _ _ hd hg hos => replaces_node hport (fun _ _ => rfl) h hd hg hos

lemma stableTo_choose_node (hport : ∀ s, Port kind s → s = choose p (node kind r) no)
    (h : StableTo n r) (hno : StableTo (n + 1) no) :
    StableTo (n + 1) (choose p (node kind r) no) := by
  intro os rest os' hd hg hos
  cases hnext : p (peek (leavesAll os ++ rest)) with
  | true =>
    refine replaces_node hport (fun ls hls => ?_) h hd hg hos
    exact if_pos (by rw [hls, hnext])
  | false =>
    have hone := hno os rest os' hd ((gives_choose_of_not hnext).1 hg) hos
    refine ⟨hone.head, fun rest' hrest => ?_⟩
    exact (gives_choose_of_not (by rwa [peek_append hone.head hrest])).2 (hone.gives rest' hrest)

lemma stable_node (hport : ∀ s, ¬ Port kind s) (h : StableTo n r) : StableTo n (node kind r) :=
  (stableTo_node (fun s hs => absurd hs (hport s)) h).mono (Nat.le_succ n)

lemma extend_choose : extend kind r p more = extend kind r p (choose p more skip) := by
  funext ks
  unfold extend
  dsimp only
  split
  · next hnext => simp only [nodeFrom, choose, if_pos hnext]
  · rfl

lemma gives_extend_of (hr : Frugal r) (hg : Gives (extend kind r p more) os rest) :
    (Gives r os rest ∧ p (peek rest) = false) ∨ ∃ ps qs, os = [.branch kind (ps ++ qs)] ∧
    Gives r ps (leavesAll qs ++ rest) ∧ Gives more qs rest ∧
    p (peek (leavesAll qs ++ rest)) = true := by
  cases hnext : p (peek (r (leavesAll os ++ rest)).2) with
  | false =>
    unfold Gives at hg
    rw [extend_of_not_peek hnext] at hg
    refine .inl ⟨hg, ?_⟩
    rwa [hg] at hnext
  | true =>
    have hnode : Gives (node kind (seq [r, more])) os rest := by
      unfold Gives at hg ⊢
      rw [extend_of_peek hnext] at hg
      simpa only [node, nodeFrom, seq, skip, append_nil, nil_append] using hg
    obtain ⟨parts, rfl, hparts⟩ := gives_node.1 hnode
    obtain ⟨ps, qs, rfl, hps, hqs⟩ := (gives_seq_cons hr).1 hparts
    refine .inr ⟨ps, qs, rfl, hps, gives_seq_one.1 hqs, ?_⟩
    have hleaves : leavesAll [.branch kind (ps ++ qs)] ++ rest =
        leavesAll ps ++ (leavesAll qs ++ rest) := by
      simp only [leavesAll, leaves, leavesAll_append, append_nil, append_assoc]
    unfold Gives at hps
    rwa [hleaves, hps] at hnext

lemma gives_extend (hps : Gives r ps (leavesAll os ++ rest))
    (hos : Gives more os rest) (hnext : p (peek (leavesAll os ++ rest)) = true) :
    Gives (extend kind r p more) [.branch kind (ps ++ os)] rest := by
  unfold Gives at hps hos ⊢
  have hleaves : leavesAll [.branch kind (ps ++ os)] ++ rest =
      leavesAll ps ++ (leavesAll os ++ rest) := by
    simp only [leavesAll, leaves, leavesAll_append, append_nil, append_assoc]
  have hpeek : p (peek (r (leavesAll ps ++ (leavesAll os ++ rest))).2) = true := by rwa [hps]
  rw [hleaves, extend_of_peek hpeek, hps]
  simp only [nodeFrom, hos]

lemma gives_extend_skip (hg : Gives r os rest) (hnext : p (peek rest) = false) :
    Gives (extend kind r p more) os rest := by
  unfold Gives at hg ⊢
  have hpeek : p (peek (r (leavesAll os ++ rest)).2) = false := by rwa [hg]
  rw [extend_of_not_peek hpeek, hg]

lemma stable_extend (hport : ∀ s, ¬ Port kind s) (hr : Frugal r) (h : StableTo n r)
    (hmore : StableTo n more) : StableTo n (extend kind r p more) := by
  intro os rest os' hd hg hos
  obtain ⟨hfirst, hnext⟩ | ⟨ps, qs, rfl, hps, hqs, hnext⟩ := gives_extend_of hr hg
  · have hone := h os rest os' hd hfirst hos
    refine ⟨hone.head, fun rest' hrest => ?_⟩
    exact gives_extend_skip (hone.gives rest' hrest) (by rwa [hrest])
  · obtain ⟨o, rfl, ho⟩ := alike_singleton hos
    obtain ⟨os', rfl, hos'⟩ : ∃ os', o = .branch kind os' ∧ List.Forall₂ Alike (ps ++ qs) os' := by
      cases ho with
      | same => exact ⟨_, rfl, alike_refl _⟩
      | parts hos' => exact ⟨_, rfl, hos'⟩
      | exchange port => exact absurd port (hport _)
    obtain ⟨ps', qs', rfl, hps', hqs'⟩ := alike_append hos'
    simp only [depthAll, depth, depthAll_append] at hd
    have hone := h ps _ ps' (by omega) hps hps'
    have htwo := hmore qs rest qs' (by omega) hqs hqs'
    constructor
    · simp only [leavesAll, leaves, leavesAll_append, append_nil, List.head?_append, hone.head,
        htwo.head]
    · intro rest' hrest
      have hpeek := peek_append htwo.head hrest
      exact gives_extend (hone.gives _ hpeek) (htwo.gives rest' hrest) (by rwa [hpeek])

lemma stable_recover (c : Complaint) : Stable (recover c) := by
  intro n
  refine stable_node (fun s hs => ?_) (stableTo_seq_cons (lossless_complain c).frugal
    (stable_complain c n) (stableTo_seq_one (stable_take n)))
  cases hs

lemma stableTo_of_rounds {f : Nat → Rule} (hf : ∀ m ks, ks.length ≤ m → f m ks = r ks)
    (h : ∀ m, StableTo n (f m)) : StableTo n r := by
  intro os rest os' hd hg hos
  have hround : ∀ m, (leavesAll os ++ rest).length ≤ m → Replaces (f m) os os' rest := by
    intro m hm
    refine h m os rest os' hd ?_ hos
    unfold Gives at hg ⊢
    rw [hf m _ hm, hg]
  refine ⟨(hround _ (Nat.le_refl _)).head, fun rest' hrest => ?_⟩
  have hg' := (hround (max (leavesAll os ++ rest).length (leavesAll os' ++ rest').length)
    (Nat.le_max_left ..)).gives rest' hrest
  unfold Gives at hg' ⊢
  rwa [hf _ _ (Nat.le_max_right ..)] at hg'

lemma stable_repeatUntil (hr : Frugal r) (hadv : ∀ ks, ks ≠ [] → Advances r ks)
    (h : StableTo n r) : StableTo n (repeatUntil stop r) := by
  refine stableTo_of_rounds (f := repeatWithin stop r) (fun m ks hks => ?_) fun m => ?_
  · exact agree_rounds hadv ks.length hks (Nat.le_refl _) ks (Nat.le_refl _)
  · induction m with
    | zero => exact stable_skip n
    | succ m ih =>
      exact stableTo_choose (stable_skip n) (stableTo_seq_cons hr h (stableTo_seq_one ih))

lemma Listing.frugal_items (hl : Lossless l.item) : Frugal fun ks => l.within ks.length ks :=
  Lossless.frugal fun ks => Listing.lossless_within hl.ahead ks.length ks

lemma Listing.stable_items (hl : Lossless l.item) (hstart : l.starts .endOfFile = false)
    (h : StableTo n l.item) : StableTo n fun ks => l.within ks.length ks := by
  refine stableTo_of_rounds (f := l.within) (fun m ks hks => ?_) fun m => ?_
  · have hsame : AgreeTo ks.length l.item l.item := .refl _ _
    exact Listing.agree_within hl.ahead hstart ks.length hsame hks (Nat.le_refl _) ks
      (Nat.le_refl _)
  · induction m with
    | zero => exact stable_skip n
    | succ m ih =>
      have hcomma : StableTo n (option .comma (seq [take, l.within m])) :=
        stable_option (stableTo_take_seq (stableTo_seq_one ih))
      have hstray : StableTo n (seq [recover l.complaint, l.within m]) :=
        stableTo_seq_cons (frugal_recover _) (stable_recover _ n) (stableTo_seq_one ih)
      exact stableTo_choose (stable_skip n) (stableTo_choose (stableTo_seq_cons hl.frugal h
        (stableTo_seq_one hcomma)) (stableTo_choose (stable_skip n) hstray))

lemma Listing.stable_rule (hl : Lossless l.item)
    (hstart : l.starts .endOfFile = false) (h : StableTo n l.item) : StableTo n l.rule :=
  stableTo_seq_cons (Listing.frugal_items hl) (Listing.stable_items hl hstart h)
    (stableTo_seq_one (stable_expect l.close n))

end Rule
end LiveEdit
