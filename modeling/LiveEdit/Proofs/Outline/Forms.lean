import LiveEdit.Proofs.Outline.Schema
import LiveEdit.Proofs.Outline.Stability

/-! The forms of nodes, which hold also where the grammar has to recover from an error. -/

namespace LiveEdit
open List

namespace Outline
open List

variable {k : Kind}

def isBranch : Outline → Bool
  | branch _ _ => true
  | _ => false

inductive Place where
  | here (before after : List Outline)
  | inside (before : List Outline) (kind : Kind) (inner : Place) (after : List Outline)

namespace Place

def put : Place → Outline → List Outline
  | here before after, o => before ++ o :: after
  | inside before kind inner after, o => before ++ .branch kind (inner.put o) :: after

def before : Place → List Outline
  | here before _ => before
  | inside before _ inner _ => before ++ inner.before

def after : Place → List Outline
  | here _ after => after
  | inside _ _ inner after => inner.after ++ after

def behind (os : List Outline) : Place → Place
  | here before after => here (os ++ before) after
  | inside before kind inner after => inside (os ++ before) kind inner after

def ahead (os : List Outline) : Place → Place
  | here before after => here before (after ++ os)
  | inside before kind inner after => inside before kind inner (after ++ os)

variable {P : Place} {o : Outline} {os ps : List Outline} {k kind : Kind}

@[simp] lemma put_behind (os : List Outline) (P : Place) (o : Outline) :
    (P.behind os).put o = os ++ P.put o := by
  cases P <;> simp [behind, put]

@[simp] lemma before_behind (os : List Outline) (P : Place) :
    (P.behind os).before = os ++ P.before := by
  cases P <;> simp [behind, before]

@[simp] lemma put_ahead (os : List Outline) (P : Place) (o : Outline) :
    (P.ahead os).put o = P.put o ++ os := by
  cases P <;> simp [ahead, put]

@[simp] lemma before_ahead (os : List Outline) (P : Place) : (P.ahead os).before = P.before := by
  cases P <;> rfl

lemma leavesAll_put (P : Place) (o : Outline) :
    leavesAll (P.put o) = leavesAll P.before ++ (o.leaves ++ leavesAll P.after) := by
  induction P with
  | here before after => simp [put, Place.before, Place.after, leavesAll]
  | inside before kind inner after ih =>
    simp [put, Place.before, Place.after, leavesAll, leaves, ih]

lemma put_ne_nil (P : Place) (o : Outline) : P.put o ≠ [] := by
  cases P <;> simp [put]

lemma of_append (h : P.put o = os ++ ps) : (∃ Q : Place, P = Q.ahead ps ∧ Q.put o = os) ∨
    (∃ Q : Place, P = Q.behind os ∧ Q.put o = ps) := by
  -- The node in which the place is, or which is in it, is in one of the lists.
  have hsplit : ∀ (as bs : List Outline) (x : Outline), as ++ x :: bs = os ++ ps →
      (∃ cs, os = as ++ x :: cs ∧ bs = cs ++ ps) ∨ (∃ cs, ps = cs ++ x :: bs ∧ as = os ++ cs) := by
    intro as bs x heq
    rcases append_eq_append_iff.1 heq with ⟨cs, hos, hcs⟩ | ⟨cs, has, hps⟩
    · cases cs with
      | nil =>
        rw [nil_append] at hcs
        rw [append_nil] at hos
        exact .inr ⟨[], hcs.symm, by rw [hos, append_nil]⟩
      | cons c cs =>
        obtain ⟨rfl, rfl⟩ := cons.inj hcs
        exact .inl ⟨cs, hos, rfl⟩
    · exact .inr ⟨cs, hps, has⟩
  cases P with
  | here as bs =>
    rcases hsplit as bs o h with ⟨cs, rfl, rfl⟩ | ⟨cs, rfl, rfl⟩
    · exact .inl ⟨.here as cs, rfl, rfl⟩
    · exact .inr ⟨.here cs bs, rfl, rfl⟩
  | inside as j inner bs =>
    rcases hsplit as bs (.branch j (inner.put o)) h with ⟨cs, rfl, rfl⟩ | ⟨cs, rfl, rfl⟩
    · exact .inl ⟨.inside as j inner cs, rfl, rfl⟩
    · exact .inr ⟨.inside cs j inner bs, rfl, rfl⟩

lemma of_singleton (h : P.put o = [.branch kind ps]) : (P = .here [] [] ∧ o = .branch kind ps) ∨
    ∃ Q : Place, P = .inside [] kind Q [] ∧ Q.put o = ps := by
  cases P with
  | here as bs =>
    obtain ⟨rfl, ho⟩ | ⟨-, hnil⟩ := append_eq_singleton_iff.1 h
    · obtain ⟨rfl, rfl⟩ := cons.inj ho
      exact .inl ⟨rfl, rfl⟩
    · cases hnil
  | inside as j inner bs =>
    obtain ⟨rfl, ho⟩ | ⟨-, hnil⟩ := append_eq_singleton_iff.1 h
    · obtain ⟨hbranch, rfl⟩ := cons.inj ho
      obtain ⟨rfl, rfl⟩ := Outline.branch.inj hbranch
      exact .inr ⟨inner, rfl, rfl⟩
    · cases hnil

end Place

def barrenKinds : List Kind :=
  [.modifier, .name, .typeClause, .typeReference, .variableDeclaration, .parameterList, .parameter,
    .enumMember, .expressionStatement, .returnStatement, .nameExpression, .literalExpression,
    .callExpression,
    .argumentList, .parenthesizedExpression, .binaryExpression, .error]

lemma barren_of_holds {j : Kind} (hk : k ∈ barrenKinds) (hj : k.holds j = true) :
    j ∈ barrenKinds := by
  simp only [barrenKinds, mem_cons, not_mem_nil, or_false] at hk
  rcases hk with rfl | rfl | rfl | rfl | rfl | rfl | rfl | rfl | rfl | rfl | rfl | rfl | rfl | rfl |
    rfl | rfl | rfl <;> cases j <;> first | decide | cases hj

lemma mem_barren_of_nested {S : Kind → Bool} {P : Place} {parts : List Outline}
    (hS : ∀ j, S j = true → j ∈ barrenKinds) (h : ∀ o ∈ P.put (.branch k parts), o.Nested S) :
    k ∈ barrenKinds := by
  induction P generalizing S with
  | here as bs =>
    cases h (.branch k parts) (by simp [Place.put]) with
    | branch kind _ => exact hS k kind
  | inside as j inner bs ih =>
    cases h (.branch j (inner.put (.branch k parts))) (by simp [Place.put]) with
    | branch kind parts => exact ih (fun i hi => barren_of_holds (hS j kind) hi) parts
end Outline

namespace Outline

def isLeaf : Outline → Bool
  | leaf _ => true
  | _ => false

def isVariable : Outline → Bool
  | branch .variableDeclaration _ => true
  | _ => false

def isBrace : Outline → Bool
  | leaf .leftCurly | leaf .rightCurly => true
  | _ => false

def isHeading : Outline → Bool
  | leaf k => k != .leftCurly && k != .rightCurly
  | fault _ => true
  | branch k _ => k == .modifier || k == .name

def isClosing : Outline → Bool
  | leaf k => k == .rightCurly
  | fault _ => true
  | branch _ _ => false

inductive Braced : List Outline → Prop where
  | bare {head : List Outline} (heading : ∀ o ∈ head, o.isHeading = true) : Braced head
  | list {head body : List Outline} {close : Outline} (heading : ∀ o ∈ head, o.isHeading = true)
      (inside : ∀ o ∈ body, o.isBrace = false) (closing : close.isClosing = true) :
      Braced (head ++ .leaf .leftCurly :: (body ++ [close]))

def Shape : Kind → List Outline → List Kind → Prop
  | .modifier, os, _ => ∃ k, k.isModifierKeyword = true ∧ os = [.leaf k]
  | .name, os, _ => os = [.leaf .identifier]
  | .block, os, after => ∃ body close, os = .leaf .leftCurly :: (body ++ [close]) ∧
      (∀ o ∈ body, o.isBranch = true) ∧
      (close = .leaf .rightCurly ∨ close.isClosing = true ∧ Rule.peek after = .endOfFile)
  | .classDeclaration, os, _ | .enumDeclaration, os, _ => Braced os
  | .variableStatement, os, _ => (∀ o ∈ os.head?, o.isVariable = false) ∧
      os.IsChain fun a b => b.isVariable = true → a.isLeaf = true
  | _, _, _ => True

def isPlain : Kind → Bool
  | .placeholder | .modifier | .name | .block | .classDeclaration | .enumDeclaration
  | .variableStatement => false
  | _ => true

structure Formed (k : Kind) (os : List Outline) (after : List Kind) : Prop where
  kind : k ≠ .placeholder
  weight : leavesAll os ≠ [] ∨ k = .variableDeclaration ∧ ∃ c, os = [.fault c]
  shape : Shape k os after

namespace Place

def depth : Place → Nat
  | here _ _ => 0
  | inside _ _ inner _ => inner.depth + 1

variable {P : Place} {o : Outline}

@[simp] lemma depth_ahead (os : List Outline) (P : Place) : (P.ahead os).depth = P.depth := by
  cases P <;> rfl

@[simp] lemma depth_behind (os : List Outline) (P : Place) : (P.behind os).depth = P.depth := by
  cases P <;> rfl

@[simp] lemma after_ahead (os : List Outline) (P : Place) : (P.ahead os).after = P.after ++ os := by
  cases P with
  | here before after => rfl
  | inside before kind inner after => exact (append_assoc ..).symm

@[simp] lemma after_behind (os : List Outline) (P : Place) : (P.behind os).after = P.after := by
  cases P <;> rfl

lemma put_ne_singleton {k : Kind} {parts : List Outline} (ho : o.isBranch = false) :
    [o] ≠ P.put (.branch k parts) := by
  intro h
  cases P with
  | here before after =>
    obtain ⟨-, hcons⟩ | ⟨-, hnil⟩ := append_eq_singleton_iff.1 h.symm
    · obtain ⟨rfl, -⟩ := cons.inj hcons
      cases ho
    · cases hnil
  | inside before kind inner after =>
    obtain ⟨-, hcons⟩ | ⟨-, hnil⟩ := append_eq_singleton_iff.1 h.symm
    · obtain ⟨rfl, -⟩ := cons.inj hcons
      cases ho
    · cases hnil

end Place

/-- Every node that is less deep than `n` in some outlines is as `Q` says of its kind, its parts and
the kinds after it, where `rest` comes after all of them. -/
def Every (Q : Kind → List Outline → List Kind → Prop) (n : Nat) (os : List Outline)
    (rest : List Kind) : Prop :=
  ∀ (P : Place) (k : Kind) (parts : List Outline), P.depth < n → os = P.put (.branch k parts) →
    Q k parts (leavesAll P.after ++ rest)

variable {Q : Kind → List Outline → List Kind → Prop} {n : Nat} {os ps : List Outline}
  {rest : List Kind} {o : Outline}
  {k : Kind}

lemma Every.mono {m : Nat} (h : Every Q n os rest) (hm : m ≤ n) : Every Q m os rest :=
  fun P k parts hdepth => h P k parts (Nat.lt_of_lt_of_le hdepth hm)

lemma every_zero (os : List Outline) (rest : List Kind) : Every Q 0 os rest :=
  fun _ _ _ hdepth => absurd hdepth (Nat.not_lt_zero _)

lemma every_nil (rest : List Kind) : Every Q n [] rest :=
  fun P _ _ _ h => absurd h.symm (P.put_ne_nil _)

lemma every_singleton (ho : o.isBranch = false) (rest : List Kind) : Every Q n [o] rest :=
  fun _ _ _ _ h => absurd h (Place.put_ne_singleton ho)

lemma every_append (h : Every Q n os (leavesAll ps ++ rest)) (hs : Every Q n ps rest) :
    Every Q n (os ++ ps) rest := by
  intro P k parts hdepth hput
  rcases Place.of_append hput.symm with ⟨P, rfl, hpart⟩ | ⟨P, rfl, hpart⟩
  · rw [Place.depth_ahead] at hdepth
    rw [Place.after_ahead, leavesAll_append, append_assoc]
    exact h P k parts hdepth hpart.symm
  · rw [Place.depth_behind] at hdepth
    rw [Place.after_behind]
    exact hs P k parts hdepth hpart.symm

lemma every_branch (h : Every Q n os rest) (hnode : Q k os rest) :
    Every Q (n + 1) [.branch k os] rest := by
  intro P j parts hdepth hput
  rcases Place.of_singleton hput.symm with ⟨rfl, hsame⟩ | ⟨P, rfl, hpart⟩
  · obtain ⟨rfl, rfl⟩ := Outline.branch.inj hsame
    exact hnode
  · rw [Place.after, append_nil]
    exact h P j parts (Nat.lt_of_succ_lt_succ hdepth) hpart.symm

end Outline

namespace Rule
open Outline

def Makes (Q : Kind → List Outline → List Kind → Prop) (n : Nat) (r : Rule) (ks : List Kind) :
    Prop :=
  Every Q n (r ks).1 (r ks).2

variable {Q : Kind → List Outline → List Kind → Prop} {n : Nat} {r yes no more : Rule}
  {rs : List Rule} {ks : List Kind}
  {p stop : Kind → Bool} {k kind : Kind} {first : List Outline} {l : Listing}

lemma Makes.mono {m : Nat} (h : Makes Q n r ks) (hm : m ≤ n) : Makes Q m r ks := Every.mono h hm

lemma makes_skip (ks : List Kind) : Makes Q n skip ks := every_nil ks

lemma makes_take (ks : List Kind) : Makes Q n take ks := by
  cases ks <;> exact every_singleton rfl _

lemma makes_complain (c : Complaint) (ks : List Kind) : Makes Q n (complain c) ks :=
  every_singleton rfl _

lemma makes_seq_cons (h : Makes Q n r ks) (hs : Makes Q n (seq rs) (r ks).2)
    (hreads : Reads (seq rs) (r ks).2) : Makes Q n (seq (r :: rs)) ks :=
  every_append (hreads.symm ▸ h) hs

lemma makes_seq (h : ∀ r ∈ rs, Lossless r ∧ ∀ ks, Makes Q n r ks) (ks : List Kind) :
    Makes Q n (seq rs) ks := by
  induction rs generalizing ks with
  | nil => exact makes_skip ks
  | cons r rs ih =>
    have hrest : ∀ s ∈ rs, Lossless s ∧ ∀ ks, Makes Q n s ks :=
      fun s hs => h s (mem_cons_of_mem r hs)
    exact makes_seq_cons ((h r mem_cons_self).2 ks) (ih hrest _)
      (lossless_seq (fun s hs => (hrest s hs).1) _)

lemma makes_seq_after (h : Makes Q n r ks) (hs : ∀ s ∈ rs, Lossless s ∧ ∀ ks, Makes Q n s ks) :
    Makes Q n (seq (r :: rs)) ks :=
  makes_seq_cons h (makes_seq hs _) (lossless_seq (fun s hr => (hs s hr).1) _)

lemma makes_choose (hyes : p (peek ks) = true → Makes Q n yes ks)
    (hno : p (peek ks) = false → Makes Q n no ks) : Makes Q n (choose p yes no) ks := by
  unfold Makes choose
  split
  next h => exact hyes h
  next h => exact hno (Bool.eq_false_iff.2 h)

lemma makes_option (h : peek ks = k → Makes Q n r ks) : Makes Q n (option k r) ks :=
  makes_choose (fun hk => h (beq_iff_eq.1 hk)) fun _ => makes_skip ks

lemma makes_expect (k : Kind) (ks : List Kind) : Makes Q n (expect k) ks :=
  makes_choose (fun _ => makes_take ks) fun _ => makes_complain _ ks

lemma makes_nodeFrom (hfirst : Every Q n first ks) (h : Makes Q n r ks) (hreads : Reads r ks)
    (hnode : Q kind (first ++ (r ks).1) (r ks).2) : Makes Q (n + 1) (nodeFrom first kind r) ks := by
  have hfirst : Every Q n first (leavesAll (r ks).1 ++ (r ks).2) := by rwa [show _ = ks from hreads]
  exact every_branch (every_append hfirst h) hnode

lemma makes_node (h : Makes Q n r ks) (hnode : Q kind (r ks).1 (r ks).2) :
    Makes Q (n + 1) (node kind r) ks :=
  every_branch h hnode

lemma makes_node_all (h : ∀ n, Makes Q n r ks) (hnode : Q kind (r ks).1 (r ks).2) (n : Nat) :
    Makes Q n (node kind r) ks :=
  (makes_node (h n) hnode).mono (Nat.le_succ n)

lemma makes_extend (h : Makes Q n r ks) (hmore : p (peek (r ks).2) = true → Makes Q n more (r ks).2)
    (hreads : p (peek (r ks).2) = true → Reads more (r ks).2)
    (hnode : p (peek (r ks).2) = true → Q kind ((r ks).1 ++ (more (r ks).2).1) (more (r ks).2).2) :
    Makes Q n (extend kind r p more) ks := by
  unfold Makes
  cases hnext : p (peek (r ks).2) with
  | true =>
    rw [extend_of_peek hnext]
    exact (makes_nodeFrom h (hmore hnext) (hreads hnext) (hnode hnext)).mono (Nat.le_succ n)
  | false =>
    rw [extend_of_not_peek hnext]
    exact h

lemma makes_repeatWithin (hl : LosslessAhead r) (h : ∀ ks, ks ≠ [] → Makes Q n r ks) (m : Nat)
    (ks : List Kind) : Makes Q n (repeatWithin stop r m) ks := by
  induction m generalizing ks with
  | zero => exact makes_skip ks
  | succ m ih =>
    refine makes_choose (fun _ => makes_skip ks) fun hnext => ?_
    have hks : ks ≠ [] := by
      rintro rfl
      cases hnext
    refine makes_seq_after (h ks hks) ?_
    simpa using ⟨lossless_repeatWithin hl m, ih⟩

lemma makes_repeatUntil (hl : LosslessAhead r) (h : ∀ ks, ks ≠ [] → Makes Q n r ks)
    (ks : List Kind) :
    Makes Q n (repeatUntil stop r) ks := makes_repeatWithin hl h ks.length ks

def Forms (n : Nat) (r : Rule) : Prop := ∀ ks, Makes Formed n r ks

lemma leaves_take_ne_nil (rs : List Rule) (ks : List Kind) :
    leavesAll (seq (take :: rs) ks).1 ≠ [] := by
  cases ks <;> simp [seq, take, leavesAll, leaves]

lemma leaves_seq_ne_nil (h : leavesAll (r ks).1 ≠ []) : leavesAll (seq (r :: rs) ks).1 ≠ [] := by
  intro hnil
  rw [seq, leavesAll_append] at hnil
  exact h (append_eq_nil_iff.1 hnil).1

lemma formed_plain {os : List Outline} {after : List Kind} (hk : isPlain kind = true)
    (h : leavesAll os ≠ []) : Formed kind os after := by
  refine ⟨?_, .inl h, ?_⟩
  · rintro rfl
    cases hk
  · unfold Shape
    split <;> first | cases hk | trivial

lemma makes_node_take (hk : isPlain kind = true) (h : ∀ r ∈ rs, Lossless r ∧ Forms n r)
    (ks : List Kind) : Makes Formed (n + 1) (node kind (seq (take :: rs))) ks :=
  makes_node (makes_seq_after (makes_take ks) h) (formed_plain hk (leaves_take_ne_nil rs ks))

lemma forms_recover (c : Complaint) : Forms n (recover c) := by
  intro ks
  have hone : ∀ n, Every Formed n (seq [complain c, take] ks).1 (seq [complain c, take] ks).2 :=
    fun n => every_append (every_singleton rfl _) (makes_seq_after (makes_take ks) (by simp))
  refine makes_node_all hone (formed_plain rfl ?_) n
  cases ks <;> simp [seq, complain, take, leavesAll, leaves]

lemma Listing.forms_within (hl : LosslessAhead l.item)
    (h : ∀ ks, l.starts (peek ks) = true → Makes Formed n l.item ks) (m : Nat) :
    Forms n (l.within m) := by
  induction m with
  | zero => exact makes_skip
  | succ m ih =>
    intro ks
    have hwithin := Listing.lossless_within hl m
    refine makes_choose (fun _ => makes_skip ks) fun _ => ?_
    refine makes_choose (fun hstart => ?_) fun _ =>
      makes_choose (fun _ => makes_skip ks) fun _ => ?_
    · have hmore : Lossless (option .comma (seq [take, l.within m])) :=
        lossless_option (by decide) (ahead_seq ahead_take (by simpa using hwithin))
      refine makes_seq_after (h ks hstart) ?_
      simp only [mem_singleton, forall_eq]
      refine ⟨hmore, fun ls => makes_option fun _ => makes_seq_after (makes_take ls) ?_⟩
      simpa using ⟨hwithin, ih⟩
    · exact makes_seq_after (forms_recover _ ks) (by simpa using ⟨hwithin, ih⟩)

lemma Listing.forms_rule (hl : LosslessAhead l.item) (hclose : l.close ≠ .endOfFile)
    (h : ∀ ks, l.starts (peek ks) = true → Makes Formed n l.item ks) : Forms n l.rule := by
  refine makes_seq fun r hr => ?_
  simp only [mem_cons, not_mem_nil, or_false] at hr
  obtain rfl | rfl := hr
  · exact ⟨fun ks => Listing.lossless_within hl ks.length ks,
      fun ks => Listing.forms_within hl h ks.length ks⟩
  · exact ⟨lossless_expect hclose, makes_expect _⟩

end Rule
end LiveEdit
