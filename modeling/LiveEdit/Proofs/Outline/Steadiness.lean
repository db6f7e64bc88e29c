import LiveEdit.Proofs.Outline.Rounds

/-! Rules that leave alone what starts a declaration or a class member, whichever it is. -/

namespace LiveEdit
open List

def Complaint.isForWord : Complaint → Bool
  | name | type | expression => true
  | _ => false

namespace Outline

mutual

def lacksWord : Outline → Bool
  | leaf _ => false
  | fault c => c.isForWord
  | branch _ os => lacksWordAll os

def lacksWordAll : List Outline → Bool
  | [] => false
  | o :: os => (leavesAll os).isEmpty && lacksWord o || lacksWordAll os

end

variable {os ps : List Outline}

lemma lacksWordAll_append (os ps : List Outline) :
    lacksWordAll (os ++ ps) = ((leavesAll ps).isEmpty && lacksWordAll os || lacksWordAll ps) := by
  induction os with
  | nil => simp [lacksWordAll]
  | cons o os ih =>
    have hempty :
        (leavesAll (os ++ ps)).isEmpty = ((leavesAll os).isEmpty && (leavesAll ps).isEmpty) := by
      rw [leavesAll_append]
      cases leavesAll os <;> rfl
    rw [cons_append, lacksWordAll, lacksWordAll, ih, hempty]
    cases (leavesAll os).isEmpty <;> cases (leavesAll ps).isEmpty <;> cases lacksWord o <;> simp

lemma lacksWordAll_one (o : Outline) : lacksWordAll [o] = lacksWord o := by
  simp [lacksWordAll, leavesAll]

end Outline

namespace Grammar

def openers : List Kind :=
  [.exportKeyword, .publicKeyword, .protectedKeyword, .privateKeyword, .readonlyKeyword,
    .staticKeyword,
    .constKeyword, .letKeyword, .varKeyword, .functionKeyword, .classKeyword, .enumKeyword,
    .namespaceKeyword]

def margins : List Kind := .identifier :: openers

/-- One kind in the place of another one that comes next: both start a declaration, or, if it is
about the members of a class, both are modifiers, or one is a modifier and the other one a name.
Where a word is missing, there is no name in the place of a modifier. -/
inductive Gap (member : Bool) : Bool → Kind → Kind → Prop where
  | same (lacks : Bool) (k : Kind) : Gap member lacks k k
  | opening {lacks : Bool} {k k' : Kind} (about : member = false) (old : k ∈ openers)
    (new : k' ∈ openers) :
      Gap member lacks k k'
  | modifiers {lacks : Bool} {k k' : Kind} (about : member = true)
    (old : k.isModifierKeyword = true)
      (new : k'.isModifierKeyword = true) : Gap member lacks k k'
  | modify {lacks : Bool} {k : Kind} (about : member = true) (new : k.isModifierKeyword = true) :
      Gap member lacks .identifier k
  | unmodify {k : Kind} (about : member = true) (old : k.isModifierKeyword = true) :
      Gap member false k .identifier

variable {m b b' : Bool} {k k' : Kind} {p : Kind → Bool}

lemma mem_openers (h : k.isModifierKeyword = true) : k ∈ openers := by
  cases k <;> first | decide | cases h

lemma Gap.mono (h : Gap m b k k') (hb : b' = true → b = true) : Gap m b' k k' := by
  cases h with
  | same => exact .same _ _
  | opening about old new => exact .opening about old new
  | modifiers about old new => exact .modifiers about old new
  | modify about new => exact .modify about new
  | unmodify about old =>
    obtain rfl : b' = false := Bool.eq_false_iff.2 fun h => Bool.false_ne_true (hb h)
    exact .unmodify about old

lemma Gap.eq_or (h : Gap m b k k') : k' = k ∨ (k ∈ margins ∧ k' ∈ margins) := by
  cases h with
  | same => exact .inl rfl
  | opening _ old new => exact .inr ⟨mem_cons_of_mem _ old, mem_cons_of_mem _ new⟩
  | modifiers _ old new =>
    exact .inr ⟨mem_cons_of_mem _ (mem_openers old), mem_cons_of_mem _ (mem_openers new)⟩
  | modify _ new => exact .inr ⟨mem_cons_self, mem_cons_of_mem _ (mem_openers new)⟩
  | unmodify _ old => exact .inr ⟨mem_cons_of_mem _ (mem_openers old), mem_cons_self⟩

lemma Gap.eq_of_not_mem (h : Gap m b k k') (hk : k ∉ margins) : k' = k :=
  h.eq_or.resolve_right fun hmem => hk hmem.1

lemma Gap.eq_of_member (h : Gap true b k k') (hname : k ≠ .identifier)
    (hmodifier : k.isModifierKeyword = false) : k' = k := by
  cases h with
  | same => rfl
  | opening about => cases about
  | modifiers _ old => exact absurd (hmodifier.symm.trans old) Bool.false_ne_true
  | modify => exact absurd rfl hname
  | unmodify _ old => exact absurd (hmodifier.symm.trans old) Bool.false_ne_true

lemma Gap.eq_of_statement (h : Gap false b k k') (hk : k ∉ openers) : k' = k := by
  cases h with
  | same => rfl
  | opening _ old => exact absurd old hk
  | modifiers about => cases about
  | modify about => cases about
  | unmodify about => cases about

lemma Gap.not_of_lacks (h : Gap m true k k') (hp : ∀ j ∈ openers, p j = false) (hk : p k = false) :
    p k' = false := by
  cases h with
  | same => exact hk
  | opening _ _ new => exact hp k' new
  | modifiers _ _ new => exact hp k' (mem_openers new)
  | modify _ new => exact hp k' (mem_openers new)

def Blind (m : Bool) (p : Kind → Bool) : Prop := ∀ b k k', Gap m b k k' → p k' = p k

lemma blind_of_margins (h : ∀ k ∈ margins, p k = false) : Blind m p := by
  intro b k k' hgap
  rcases hgap.eq_or with rfl | ⟨hk, hk'⟩
  · rfl
  · rw [h k hk, h k' hk']

lemma blind_eq (h : k ∉ margins) : Blind m (· == k) := by
  refine blind_of_margins fun j hj => beq_eq_false_iff_ne.2 ?_
  rintro rfl
  exact h hj

lemma blind_of_openers (h : ∀ k ∈ openers, p k = false) : Blind false p := by
  intro b k k' hgap
  cases hgap with
  | same => rfl
  | opening _ old new => rw [h k old, h k' new]
  | modifiers about => cases about
  | modify about => cases about
  | unmodify about => cases about

end Grammar

namespace Rule
open Outline Grammar

variable {r s yes no more : Rule} {rs : List Rule} {p stop : Kind → Bool} {kind k : Kind}
  {m : Bool} {n : Nat}
  {os : List Outline} {rest rest' : List Kind} {c : Complaint}

def SteadyTo (m : Bool) (n : Nat) (r : Rule) : Prop :=
  ∀ os rest rest', depthAll os < n → Gives r os rest →
  Gap m (lacksWordAll os) (peek rest) (peek rest') →
    Gives r os rest'

def Steady (m : Bool) (r : Rule) : Prop := ∀ n, SteadyTo m n r

lemma Steady.gives (h : Steady m r) (hg : Gives r os rest)
    (hgap : Gap m (lacksWordAll os) (peek rest) (peek rest')) : Gives r os rest' :=
  h _ os rest rest' (Nat.lt_succ_self _) hg hgap

lemma SteadyTo.mono {l : Nat} (h : SteadyTo m n r) (hl : l ≤ n) : SteadyTo m l r :=
  fun os rest rest' hd => h os rest rest' (Nat.lt_of_lt_of_le hd hl)

lemma steady_skip : Steady m skip := by
  intro n os rest rest' _ hg _
  obtain rfl := gives_skip.1 hg
  rfl

lemma steady_complain (c : Complaint) : Steady m (complain c) := by
  intro n os rest rest' _ hg _
  obtain rfl := gives_complain.1 hg
  rfl

lemma steady_take : Steady m take := by
  intro n os rest rest' _ hg _
  obtain ⟨k, rfl⟩ := gives_take.1 hg
  rfl

lemma steadyTo_seq_cons (hr : Frugal r) (hstable : Stable r) (h : SteadyTo m n r)
    (hs : SteadyTo m n (seq rs)) : SteadyTo m n (seq (r :: rs)) := by
  intro os rest rest' hd hg hgap
  obtain ⟨ps, qs, rfl, hps, hqs⟩ := (gives_seq_cons hr).1 hg
  rw [depthAll_append] at hd
  rw [lacksWordAll_append] at hgap
  have hlast := hs qs rest rest' (by omega) hqs (hgap.mono fun hlacks => by simp [hlacks])
  refine (gives_seq_cons hr).2 ⟨ps, qs, rfl, ?_, hlast⟩
  by_cases hnil : leavesAll qs = []
  · rw [hnil, nil_append] at hps ⊢
    refine h ps rest rest' (by omega) hps (hgap.mono fun hlacks => ?_)
    rw [hnil, hlacks]
    rfl
  · exact hstable.gives hps (peek_append_of_ne hnil ..)

lemma steadyTo_take_seq (hs : SteadyTo m n (seq rs)) : SteadyTo m n (seq (take :: rs)) :=
  steadyTo_seq_cons frugal_take stable_take (steady_take n) hs

lemma steadyTo_seq_one (h : SteadyTo m n r) : SteadyTo m n (seq [r]) :=
  fun os rest rest' hd hg hgap =>
  gives_seq_one.2 (h os rest rest' hd (gives_seq_one.1 hg) hgap)

lemma steadyTo_choose_of (hyes : SteadyTo m n yes) (hno : SteadyTo m n no)
    (hp : ∀ os rest rest', Gives (choose p yes no) os rest → leavesAll os = [] →
      Gap m (lacksWordAll os) (peek rest) (peek rest') → p (peek rest') = p (peek rest)) :
    SteadyTo m n (choose p yes no) := by
  intro os rest rest' hd hg hgap
  have hpeek : p (peek (leavesAll os ++ rest')) = p (peek (leavesAll os ++ rest)) := by
    by_cases hnil : leavesAll os = []
    · rw [hnil, nil_append, nil_append]
      exact hp os rest rest' hg hnil hgap
    · rw [peek_append_of_ne hnil]
  cases hnext : p (peek (leavesAll os ++ rest)) with
  | true =>
    exact (gives_choose_of (by rw [hpeek, hnext])).2
      (hyes os rest rest' hd ((gives_choose_of hnext).1 hg) hgap)
  | false =>
    exact (gives_choose_of_not (by rw [hpeek, hnext])).2
      (hno os rest rest' hd ((gives_choose_of_not hnext).1 hg) hgap)

lemma steadyTo_choose (hp : Blind m p) (hyes : SteadyTo m n yes) (hno : SteadyTo m n no) :
    SteadyTo m n (choose p yes no) :=
  steadyTo_choose_of hyes hno fun _ _ _ _ _ hgap => hp _ _ _ hgap

lemma steadyTo_word (hc : c.isForWord = true) (hp : ∀ k ∈ openers, p k = false)
    (hadv : ∀ ks, p (peek ks) = true → Advances yes ks) (hyes : SteadyTo m n yes) :
    SteadyTo m n (choose p yes (complain c)) := by
  refine steadyTo_choose_of hyes (steady_complain c n) fun os rest rest' hg hnil hgap => ?_
  cases hnext : p (peek rest) with
  | true =>
    have hpeek : p (peek (leavesAll os ++ rest)) = true := by rw [hnil]; exact hnext
    exact absurd hnil (leaves_ne_nil_of_advances (hadv _ hpeek) ((gives_choose_of hpeek).1 hg))
  | false =>
    obtain rfl := gives_complain.1 ((gives_choose_of_not (by rw [hnil]; exact hnext)).1 hg)
    rw [lacksWordAll_one, lacksWord, hc] at hgap
    exact hgap.not_of_lacks hp hnext

lemma steadyTo_option (hk : k ∉ margins) (h : SteadyTo m n r) : SteadyTo m n (option k r) :=
  steadyTo_choose (blind_eq hk) h (steady_skip n)

lemma steady_expect (hk : k ∉ margins) : Steady m (expect k) :=
  fun n => steadyTo_choose (blind_eq hk) (steady_take n) (steady_complain _ n)

lemma steadyTo_node (h : SteadyTo m n r) : SteadyTo m (n + 1) (node kind r) := by
  intro os rest rest' hd hg hgap
  obtain ⟨ps, rfl, hps⟩ := gives_node.1 hg
  simp only [depthAll, depth] at hd
  rw [lacksWordAll_one, lacksWord] at hgap
  exact gives_node.2 ⟨ps, rfl, h ps rest rest' (by omega) hps hgap⟩

lemma steady_node (h : SteadyTo m n r) : SteadyTo m n (node kind r) :=
  (steadyTo_node h).mono (Nat.le_succ n)

lemma steadyTo_extend (hr : Frugal r) (hstable : Stable r) (hp : Blind m p) (h : SteadyTo m n r)
    (hmore : SteadyTo m n more) : SteadyTo m n (extend kind r p more) := by
  intro os rest rest' hd hg hgap
  obtain ⟨hfirst, hnext⟩ | ⟨ps, qs, rfl, hps, hqs, hnext⟩ := gives_extend_of hr hg
  · exact gives_extend_skip (h os rest rest' hd hfirst hgap) (by rw [hp _ _ _ hgap, hnext])
  · rw [lacksWordAll_one, lacksWord] at hgap
    simp only [depthAll, depth, depthAll_append] at hd
    rw [lacksWordAll_append] at hgap
    have hlast := hmore qs rest rest' (by omega) hqs (hgap.mono fun hlacks => by simp [hlacks])
    by_cases hnil : leavesAll qs = []
    · rw [hnil, nil_append] at hps hnext
      refine gives_extend ?_ hlast ?_
      · rw [hnil, nil_append]
        refine h ps rest rest' (by omega) hps (hgap.mono fun hlacks => ?_)
        rw [hnil, hlacks]
        rfl
      · rw [hnil, nil_append, hp _ _ _ hgap, hnext]
    · have hpeek := peek_append_of_ne hnil rest' rest
      exact gives_extend (hstable.gives hps hpeek) hlast (by rwa [hpeek])

lemma leaves_recover (hg : Gives (recover c) os rest) : leavesAll os ≠ [] := by
  obtain ⟨ps, rfl, hps⟩ := gives_node.1 hg
  obtain ⟨qs, us, rfl, hqs, hus⟩ := (gives_seq_cons (lossless_complain c).frugal).1 hps
  obtain ⟨k, rfl⟩ := gives_take.1 (gives_seq_one.1 hus)
  simp [leavesAll, leaves]

lemma steady_recover (c : Complaint) : Steady m (recover c) := fun n =>
  steady_node
  (steadyTo_seq_cons (lossless_complain c).frugal (stable_complain c) (steady_complain c n)
    (steadyTo_seq_one (steady_take n)))

lemma steadyTo_of_rounds {f : Nat → Rule} (hf : ∀ l ks, ks.length ≤ l → f l ks = r ks)
    (h : ∀ l, SteadyTo m n (f l)) : SteadyTo m n r := by
  intro os rest rest' hd hg hgap
  have hg' := h (max (leavesAll os ++ rest).length (leavesAll os ++ rest').length) os rest rest' hd
    ((hf _ _ (Nat.le_max_left ..)).trans hg) hgap
  unfold Gives at hg' ⊢
  rwa [hf _ _ (Nat.le_max_right ..)] at hg'

lemma steady_repeatUntil (hstable : Stable (repeatUntil stop r))
    (hadv : ∀ ks, ks ≠ [] → Advances r ks) (hstop : ∀ k ∈ margins, stop k = false) :
    Steady m (repeatUntil stop r) := by
  intro n os rest rest' _ hg hgap
  have hend : peek (repeatUntil stop r (leavesAll os ++ rest)).2 = .endOfFile ∨
      stop (peek (repeatUntil stop r (leavesAll os ++ rest)).2) = true :=
    peek_repeatWithin hadv (leavesAll os ++ rest).length _ (Nat.le_refl _)
  rw [show repeatUntil stop r (leavesAll os ++ rest) = (os, rest) from hg] at hend
  refine hstable.gives hg (hgap.eq_of_not_mem fun hmem => ?_)
  rcases hend with hend | hend
  · exact absurd (hend ▸ hmem : Kind.endOfFile ∈ margins) (by decide)
  · exact Bool.false_ne_true ((hstop _ hmem).symm.trans hend)

lemma Listing.steady_rule {l : Listing}
    (hl : Lossless l.item) (hstable : Stable l.item) (hstart : l.starts .endOfFile = false)
    (hadv : ∀ ks, l.starts (peek ks) = true → Advances l.item ks) (hclose : l.close ∉ margins)
    (hstops : ∀ k ∈ margins, l.stops k = false) (h : SteadyTo m n l.item) :
    SteadyTo m n l.rule := by
  have hend : Blind m fun k => k == .endOfFile || k == l.close := by
    intro b k k' hgap
    have hfile := blind_eq (m := m) (k := .endOfFile) (by decide) b k k' hgap
    have hmark := blind_eq hclose b k k' hgap
    dsimp only at hfile hmark ⊢
    rw [hfile, hmark]
  have hitems : SteadyTo m n fun ks => l.within ks.length ks := by
    refine steadyTo_of_rounds (f := l.within) (fun j ks hks => ?_) fun j => ?_
    · have hsame : AgreeTo ks.length l.item l.item := .refl _ _
      exact Listing.agree_within hl.ahead hstart ks.length hsame hks (Nat.le_refl _) ks
        (Nat.le_refl _)
    · induction j with
      | zero => exact steady_skip n
      | succ j ih =>
        have hcomma : SteadyTo m n (option .comma (seq [take, l.within j])) :=
          steadyTo_option (by decide) (steadyTo_take_seq (steadyTo_seq_one ih))
        have hstray : SteadyTo m n (seq [recover l.complaint, l.within j]) := steadyTo_seq_cons
          (frugal_recover _) (stable_recover _) (steady_recover _ n) (steadyTo_seq_one ih)
        refine steadyTo_choose hend (steady_skip n) (steadyTo_choose_of
          (steadyTo_seq_cons hl.frugal hstable h (steadyTo_seq_one hcomma))
          (steadyTo_choose (blind_of_margins hstops) (steady_skip n) hstray) ?_)
        -- Nothing is read only where the list is given up.
        intro os rest rest' hg hnil hgap
        cases hnext : l.starts (peek rest) with
        | true =>
          have hpeek : l.starts (peek (leavesAll os ++ rest)) = true := by rw [hnil]; exact hnext
          obtain ⟨ps, qs, rfl, hps, -⟩ :=
            (gives_seq_cons hl.frugal).1 ((gives_choose_of hpeek).1 hg)
          rw [leavesAll_append, append_assoc] at hpeek
          rw [leavesAll_append] at hnil
          exact absurd (append_eq_nil_iff.1 hnil).1 (leaves_ne_nil_of_advances (hadv _ hpeek) hps)
        | false =>
          have hpeek : l.starts (peek (leavesAll os ++ rest)) = false := by rw [hnil]; exact hnext
          have hlater := (gives_choose_of_not hpeek).1 hg
          cases hstop : l.stops (peek rest) with
          | true =>
            have hsame : peek rest' = peek rest := hgap.eq_of_not_mem fun hmem =>
              Bool.false_ne_true ((hstops _ hmem).symm.trans hstop)
            rw [hsame, hnext]
          | false =>
            have hread := (gives_choose_of_not (by rw [hnil]; exact hstop)).1 hlater
            obtain ⟨ps, qs, rfl, hps, -⟩ := (gives_seq_cons (frugal_recover _)).1 hread
            rw [leavesAll_append] at hnil
            exact absurd (append_eq_nil_iff.1 hnil).1 (leaves_recover hps)
  exact steadyTo_seq_cons (Listing.frugal_items hl) (fun n =>
    Listing.stable_items hl hstart (hstable n)) hitems (steadyTo_seq_one (steady_expect hclose n))

end Rule
end LiveEdit
