import LiveEdit.Proofs.Grammar.Acceptance
import LiveEdit.Proofs.Outline.Stability

/-! Each round makes one node and reads a token, so a list that was read splits into its rounds. -/

namespace LiveEdit
open List Option

namespace Outline

lemma leavesAll_cons (o : Outline) (os : List Outline) (rest : List Kind) :
    leavesAll (o :: os) ++ rest = leavesAll [o] ++ (leavesAll os ++ rest) := by
  simp only [leavesAll, append_nil, append_assoc]

lemma faultsAll_cons {o : Outline} {os : List Outline} :
    faultsAll (o :: os) = [] ↔ faultsAll [o] = [] ∧ faultsAll os = [] := by
  simp only [faultsAll, append_eq_nil_iff, and_true]

end Outline

namespace Rule
open Outline

variable {r yes no more : Rule} {stop p : Kind → Bool} {o : Outline} {os as bs bs' : List Outline}
  {rest rest' ks : List Kind} {kind : Kind}

def Single (r : Rule) : Prop :=
  ∀ ks, (∃ k os, (r ks).1 = [.branch k os]) ∨ ∃ c, (r ks).1 = [.fault c]

lemma Single.exists_branch (h : Single r) (hg : Gives r os rest) (hf : faultsAll os = []) :
    ∃ k ps, os = [.branch k ps] := by
  have hone := h (leavesAll os ++ rest)
  unfold Gives at hg
  rw [hg] at hone
  rcases hone with hbranch | ⟨c, rfl⟩
  · exact hbranch
  · cases hf

lemma Single.exists_one (h : Single r) (hg : Gives r os rest) : ∃ o, os = [o] := by
  have hone := h (leavesAll os ++ rest)
  unfold Gives at hg
  rw [hg] at hone
  rcases hone with ⟨k, ps, rfl⟩ | ⟨c, rfl⟩
  · exact ⟨_, rfl⟩
  · exact ⟨_, rfl⟩

lemma single_node : Single (node kind r) := fun _ => .inl ⟨_, _, rfl⟩

lemma single_complain (c : Complaint) : Single (complain c) := fun _ => .inr ⟨c, rfl⟩

lemma single_choose (hyes : Single yes) (hno : Single no) : Single (choose p yes no) := by
  intro ks
  unfold choose
  split
  · exact hyes ks
  · exact hno ks

lemma single_extend (h : Single r) : Single (extend kind r p more) := by
  intro ks
  unfold extend
  dsimp only
  split
  · exact .inl ⟨_, _, rfl⟩
  · exact h ks

lemma repeatUntil_eq (hadv : ∀ ks, ks ≠ [] → Advances r ks) (ks : List Kind) : repeatUntil stop r
      ks = choose (fun k => k == .endOfFile || stop k) skip (seq [r, repeatUntil stop r]) ks := by
  have hround : repeatUntil stop r ks = repeatWithin stop r (ks.length + 1) ks :=
    agree_rounds hadv ks.length (Nat.le_refl _) (Nat.le_succ _) ks (Nat.le_refl _)
  rw [hround]
  simp only [repeatWithin, choose]
  split
  · rfl
  · next hend =>
    have hne : ks ≠ [] := by
      rintro rfl
      exact hend rfl
    have hle : (r ks).2.length ≤ ks.length := Nat.le_of_lt (hadv ks hne)
    exact seq_congr rfl (agree_seq_one (n := (r ks).2.length)
      (fun ls hls => agree_rounds hadv ls.length (Nat.le_trans hls hle) (Nat.le_refl _) ls
        (Nat.le_refl _)) _ (Nat.le_refl _))

structure Paced (r : Rule) : Prop where
  frugal : Frugal r
  advances : ∀ ks, ks ≠ [] → Advances r ks
  single : Single r
  stable : Stable r

namespace Paced

lemma leaves_ne_nil (h : Paced r) (hg : Gives r os rest)
    (hend : peek (leavesAll os ++ rest) ≠ .endOfFile) : leavesAll os ≠ [] := by
  intro hnil
  have hne : leavesAll os ++ rest ≠ [] := by
    intro hempty
    rw [hempty] at hend
    exact hend rfl
  have hlt : (r (leavesAll os ++ rest)).2.length < (leavesAll os ++ rest).length := h.advances _ hne
  unfold Gives at hg
  rw [hg, hnil] at hlt
  exact Nat.lt_irrefl _ hlt

lemma gives_nil (h : Paced r) :
    Gives (repeatUntil stop r) [] rest ↔ peek rest = .endOfFile ∨ stop (peek rest) = true := by
  unfold Gives
  rw [repeatUntil_eq h.advances]
  constructor
  · intro hg
    by_contra hend
    have hp : (peek ([] ++ rest) == .endOfFile || stop (peek ([] ++ rest))) = false := by
      simpa using hend
    have hlist : Gives (seq [r, repeatUntil stop r]) [] rest := (gives_choose_of_not hp).1 hg
    obtain ⟨ps, qs, hnil, hps, -⟩ := (gives_seq_cons h.frugal).1 hlist
    obtain ⟨rfl, rfl⟩ := append_eq_nil_iff.1 hnil.symm
    obtain ⟨o, ho⟩ := h.single.exists_one hps
    cases ho
  · intro hend
    exact if_pos (by simpa [leavesAll] using hend)

lemma gives_cons (h : Paced r) :
    Gives (repeatUntil stop r) (o :: os) rest ↔ (peek (leavesAll (o :: os) ++ rest) ≠ .endOfFile ∧
      stop (peek (leavesAll (o :: os) ++ rest)) = false) ∧ Gives r [o] (leavesAll os ++ rest) ∧
    Gives (repeatUntil stop r) os rest := by
  have hunfold : Gives (repeatUntil stop r) (o :: os) rest ↔
      Gives (choose (fun k => k == .endOfFile || stop k) skip
        (seq [r, repeatUntil stop r])) (o :: os) rest := by
    unfold Gives
    rw [repeatUntil_eq h.advances]
  rw [hunfold]
  constructor
  · intro hg
    cases hend :
      (fun k : Kind => k == .endOfFile || stop k) (peek (leavesAll (o :: os) ++ rest)) with
    | true =>
      have hskip : Gives skip (o :: os) rest := (gives_choose_of hend).1 hg
      cases (Prod.mk.inj hskip).1
    | false =>
      refine ⟨by simpa using hend, ?_⟩
      have hlist := (gives_choose_of_not hend).1 hg
      obtain ⟨ps, qs, heq, hps, hqs⟩ := (gives_seq_cons h.frugal).1 hlist
      obtain ⟨p, rfl⟩ := h.single.exists_one hps
      obtain ⟨rfl, rfl⟩ := cons.inj heq
      exact ⟨hps, gives_seq_one.1 hqs⟩
  · rintro ⟨hend, hone, hrest⟩
    refine (gives_choose_of_not (by simpa using hend)).2 ?_
    exact (gives_seq_cons h.frugal).2 ⟨[o], os, rfl, hone, gives_seq_one.2 hrest⟩

lemma gives_right (h : Paced r) (hg : Gives (repeatUntil stop r) (as ++ bs) rest) :
    Gives (repeatUntil stop r) bs rest := by
  induction as with
  | nil => exact hg
  | cons a as ih => exact ih (h.gives_cons.1 hg).2.2

lemma gives_append (h : Paced r) (hg : Gives (repeatUntil stop r) (as ++ bs) rest)
    (hbs : Gives (repeatUntil stop r) bs' rest') (hlast : ∀ a ∈ as.getLast?,
      Gives r [a] (leavesAll bs ++ rest) → Gives r [a] (leavesAll bs' ++ rest')) :
    Gives (repeatUntil stop r) (as ++ bs') rest' := by
  induction as with
  | nil => exact hbs
  | cons a as ih =>
    rw [cons_append] at hg ⊢
    obtain ⟨hstart, hone, hrest⟩ := h.gives_cons.1 hg
    rw [leavesAll_cons] at hstart
    -- What comes next changes for the last round only.
    have hnext : Gives r [a] (leavesAll (as ++ bs') ++ rest') := by
      cases as with
      | nil => exact hlast a rfl hone
      | cons b as =>
        rw [cons_append] at hrest
        obtain ⟨⟨hend, -⟩, hb, -⟩ := h.gives_cons.1 hrest
        rw [leavesAll_cons] at hend
        have hne := h.leaves_ne_nil hb hend
        refine h.stable.gives hone ?_
        rw [cons_append, cons_append, leavesAll_cons b (as ++ bs'), leavesAll_cons b (as ++ bs)]
        exact peek_append_of_ne hne ..
    have hmore : Gives (repeatUntil stop r) (as ++ bs') rest' := by
      refine ih hrest fun b hb => hlast b ?_
      rw [List.getLast?_cons, mem_def.1 hb]
      rfl
    have hsame := peek_append_of_ne (h.leaves_ne_nil hone hstart.1)
      (leavesAll (as ++ bs') ++ rest') (leavesAll (as ++ bs) ++ rest)
    refine h.gives_cons.2 ⟨?_, hnext, hmore⟩
    rw [leavesAll_cons, hsame]
    exact hstart

end Paced
end Rule
end LiveEdit
