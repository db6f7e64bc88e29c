import LiveEdit.Proofs.Outline.Scribe
import LiveEdit.Proofs.Outline.Unfolding

namespace LiveEdit
open List Option

namespace Outline

variable {es fs : List Event}

lemma shown_append (es fs : List Event) : shown (es ++ fs) = shown es ++ shown fs :=
  filter_append ..

lemma tokens_shown (es : List Event) : tokens (shown es) = tokens es := by
  induction es with
  | nil => rfl
  | cons e es ih =>
    cases e with
    | start k =>
      cases hk : k == .placeholder <;> simpa [shown, tokens, Event.isPlaceholder, hk] using ih
    | token k => simpa [shown, tokens, Event.isPlaceholder] using ih
    | fault c => simpa [shown, tokens, Event.isPlaceholder] using ih
    | finish => simpa [shown, tokens, Event.isPlaceholder] using ih

mutual

lemma tokens_events : ∀ o : Outline, tokens o.events = o.leaves
  | .leaf _ => rfl
  | .fault _ => rfl
  | .branch _ os => by simpa [tokens, events, leaves] using tokens_eventsAll os

lemma tokens_eventsAll : ∀ os : List Outline, tokens (eventsAll os) = leavesAll os
  | [] => rfl
  | o :: os => by
    rw [eventsAll, leavesAll, ← tokens_events o, ← tokens_eventsAll os]
    exact filterMap_append

end

mutual

lemma depth?_events :
    ∀ (o : Outline) (es : List Event) (d : Nat), depth? (o.events ++ es) d = depth? es d
  | .leaf _, _, _ => rfl
  | .fault _, _, _ => rfl
  | .branch _ os, es, d => by
    rw [events, cons_append, depth?, append_assoc, depth?_eventsAll os]
    rfl

lemma depth?_eventsAll : ∀ (os : List Outline) (es : List Event) (d : Nat),
    depth? (eventsAll os ++ es) d = depth? es d
  | [], _, _ => rfl
  | o :: os, es, d => by rw [eventsAll, append_assoc, depth?_events o, depth?_eventsAll os]

end

lemma eventsAll_append (os ps : List Outline) :
    eventsAll (os ++ ps) = eventsAll os ++ eventsAll ps := by
  induction os with
  | nil => rfl
  | cons o os ih => rw [cons_append, eventsAll, eventsAll, ih, append_assoc]

end Outline

namespace Scribe
open Outline Rule

/-- The routine comes to its end on an input and writes down what the rule makes of it, behind
whatever the log holds. -/
def Follows (r : Rule) (s : Routine) (ks : List Kind) : Prop :=
  (r ks).2.length ≤ ks.length ∧
    ∀ log, ∃ es, shown es = eventsAll (r ks).1 ∧ s ⟨ks, log⟩ = some ⟨(r ks).2, log ++ es⟩

def FollowsBelow (n : Nat) (r : Rule) (s : Routine) : Prop := ∀ ks, ks.length < n → Follows r s ks

def FollowsAhead (n : Nat) (r : Rule) (s : Routine) : Prop :=
  ∀ ks, ks ≠ [] → ks.length < n → Follows r s ks

variable {r yes no more : Rule} {s yes' no' more' inner' : Routine} {rs : List Rule}
  {ss : List Routine} {q : Kind → Bool}
  {ks : List Kind} {k : Kind} {n : Nat}

lemma FollowsBelow.ahead (h : FollowsBelow n r s) : FollowsAhead n r s := fun ks _ => h ks

lemma follows_skip (n : Nat) : FollowsBelow n Rule.skip skip := fun ks _ =>
  ⟨le_rfl, fun log => ⟨[], rfl, by rw [append_nil]; rfl⟩⟩

lemma follows_complain (n : Nat) (c : Complaint) : FollowsBelow n (Rule.complain c) (complain c) :=
  fun _ _ =>
  ⟨le_rfl, fun _ => ⟨[.fault c], rfl, rfl⟩⟩

lemma follows_take (n : Nat) : FollowsAhead n Rule.take take
  | [], h, _ => absurd rfl h
  | k :: _, _, _ => ⟨Nat.le_succ _, fun _ => ⟨[.token k], rfl, rfl⟩⟩

lemma follows_seq_cons (h : Follows r s ks) (hs : Follows (Rule.seq rs) (seq ss) (r ks).2) :
    Follows (Rule.seq (r :: rs)) (seq (s :: ss)) ks := by
  refine ⟨hs.1.trans h.1, fun log => ?_⟩
  obtain ⟨es, hes, hrun⟩ := h.2 log
  obtain ⟨fs, hfs, hrest⟩ := hs.2 (log ++ es)
  refine ⟨es ++ fs, ?_, ?_⟩
  · rw [shown_append, hes, hfs]
    exact (eventsAll_append _ _).symm
  · rw [← append_assoc]
    exact (congrArg (· >>= seq ss) hrun).trans hrest

lemma below_seq (h : List.Forall₂ (FollowsBelow n) rs ss) :
    FollowsBelow n (Rule.seq rs) (seq ss) := by
  induction h with
  | nil => exact follows_skip n
  | cons h _ ih =>
    exact fun ks hks => follows_seq_cons (h ks hks) (ih _ (Nat.lt_of_le_of_lt (h ks hks).1 hks))

lemma ahead_seq (h : FollowsAhead n r s) (hs : List.Forall₂ (FollowsBelow n) rs ss) :
    FollowsAhead n (Rule.seq (r :: rs)) (seq (s :: ss)) := fun ks hne hks =>
  follows_seq_cons (h ks hne hks) (below_seq hs _ (Nat.lt_of_le_of_lt (h ks hne hks).1 hks))

lemma take_seq (hs : List.Forall₂ (FollowsBelow n) rs ss) :
    FollowsAhead (n + 1) (Rule.seq (Rule.take :: rs)) (seq (take :: ss))
  | [], hne, _ => absurd rfl hne
  | _ :: ks, hne, hks =>
    follows_seq_cons (follows_take (n + 1) _ hne hks) (below_seq hs ks (Nat.lt_of_succ_lt_succ hks))

lemma follows_choose (hyes : q (peek ks) = true → Follows yes yes' ks)
    (hno : q (peek ks) = false → Follows no no' ks) :
    Follows (Rule.choose q yes no) (choose q yes' no') ks := by
  unfold Follows choose next Rule.choose
  split
  · exact hyes ‹_›
  · exact hno (Bool.eq_false_iff.2 ‹_›)

lemma below_choose (hq : q .endOfFile = false) (hyes : FollowsAhead n yes yes')
    (hno : FollowsBelow n no no') :
    FollowsBelow n (Rule.choose q yes no) (choose q yes' no') := fun ks hks =>
  follows_choose (fun h => hyes ks (ne_nil_of_peek h hq) hks) fun _ => hno ks hks

lemma below_choose_not (hq : q .endOfFile = true) (hyes : FollowsBelow n yes yes')
    (hno : FollowsAhead n no no') :
    FollowsBelow n (Rule.choose q yes no) (choose q yes' no') := fun ks hks =>
  follows_choose (fun _ => hyes ks hks) fun h =>
    hno ks (ne_nil_of_peek (p := fun k => !q k) (by rw [h]; rfl) (by rw [hq]; rfl)) hks

lemma below_option (hk : k ≠ .endOfFile) (h : FollowsAhead n r s) :
    FollowsBelow n (Rule.option k r) (option k s) :=
  below_choose (by simpa using hk.symm) h (follows_skip n)

lemma below_expect (hk : k ≠ .endOfFile) : FollowsBelow n (Rule.expect k) (expect k) :=
  below_choose (by simpa using hk.symm) (follows_take n) (follows_complain n _)

/-- The routine goes on behind a placeholder with something after it, and what it leaves is what the
rule gives. -/
def Completes (r : Rule) (s : Routine) (ks : List Kind) (log es : List Event) : Prop :=
  ∃ fs, shown fs = eventsAll (r ks).1 ∧
  s ⟨ks, log ++ .start .placeholder :: es⟩ = some ⟨(r ks).2, log ++ fs⟩

variable {es : List Event}

lemma completes_finish (hk : k ≠ .placeholder) (h : Follows r s ks) {os : List Outline}
    (hes : shown es = eventsAll os) (log : List Event) :
    Completes (nodeFrom os k r) (fun p => s p >>= finish log.length k) ks log es := by
  -- the rest is recorded behind a placeholder, which `finish` then turns into the start of the node
  obtain ⟨fs, hfs, hrun⟩ := h.2 (log ++ .start .placeholder :: es)
  refine ⟨.start k :: (es ++ fs ++ [.finish]), ?_, ?_⟩
  · have hshown :
        shown (.start k :: (es ++ fs ++ [.finish])) = .start k :: shown (es ++ fs ++ [.finish]) :=
      filter_cons_of_pos (by simpa [Event.isPlaceholder] using hk)
    rw [hshown, shown_append, shown_append, hes, hfs, nodeFrom, eventsAll, events, eventsAll_append]
    simp [shown, Event.isPlaceholder, eventsAll]
  · simp [hrun, finish, nodeFrom]

lemma exists_cancel (ks : List Kind) (log es : List Event) : ∃ fs, shown fs = shown es ∧
    cancel log.length ⟨ks, log ++ .start .placeholder :: es⟩ = some ⟨ks, log ++ fs⟩ := by
  cases es with
  | nil => exact ⟨[], rfl, by simp [cancel, Event.isPlaceholder]⟩
  | cons e es =>
    refine ⟨.start .placeholder :: e :: es, filter_cons_of_neg (by decide), ?_⟩
    have hlast := getLast?_eq_some_getLast (cons_ne_nil e es)
    simp [cancel, hlast]

lemma completes_cancel (h : Follows r s ks) (hes : shown es = []) (log : List Event) :
    Completes r (fun p => cancel log.length p >>= s) ks log es := by
  obtain ⟨fs, hfs, hcancel⟩ := exists_cancel ks log es
  obtain ⟨gs, hgs, hrun⟩ := h.2 (log ++ fs)
  refine ⟨fs ++ gs, by rw [shown_append, hfs, hes, hgs, nil_append], ?_⟩
  rw [← append_assoc]
  exact (congrArg (· >>= s) hcancel).trans hrun

lemma follows_node (hk : k ≠ .placeholder) (h : Follows r s ks) :
    Follows (Rule.node k r) (node k s) ks :=
  ⟨h.1, fun log => completes_finish hk h (show shown [] = eventsAll [] from rfl) log⟩

lemma below_node (hk : k ≠ .placeholder) (h : FollowsBelow n r s) :
    FollowsBelow n (Rule.node k r) (node k s) := fun ks hks => follows_node hk (h ks hks)

lemma ahead_node (hk : k ≠ .placeholder) (h : FollowsAhead n r s) :
    FollowsAhead n (Rule.node k r) (node k s) := fun ks hne hks => follows_node hk (h ks hne hks)

lemma ahead_recover (c : Complaint) : FollowsAhead n (Rule.recover c) (recover c) :=
  ahead_node (by decide) fun _ hne hks => follows_seq_cons (follows_complain n c _ hks)
    (ahead_seq (follows_take n) .nil _ hne hks)

lemma below_extend (hk : k ≠ .placeholder)
    (hq : q .endOfFile = false) (h : FollowsBelow n r s) (hmore : FollowsAhead n more more') :
    FollowsBelow n (Rule.extend k r q more) (extend k s q more') := by
  intro ks hks
  have hle := (h ks hks).1
  have hrest : q (peek (r ks).2) = true → Follows more more' (r ks).2 := fun hnext =>
    hmore _ (ne_nil_of_peek hnext hq) (hle.trans_lt hks)
  refine ⟨?_, fun log => ?_⟩
  · cases hnext : q (peek (r ks).2) with
    | true =>
      rw [extend_of_peek hnext]
      exact Nat.le_trans (hrest hnext).1 hle
    | false =>
      rw [extend_of_not_peek hnext]
      exact hle
  · obtain ⟨es, hes, hrun⟩ := (h ks hks).2 (log ++ [.start .placeholder])
    rw [append_assoc] at hrun
    have hext : extend k s q more' ⟨ks, log⟩ = if q (peek (r ks).2) then
        more' ⟨(r ks).2, log ++ .start .placeholder :: es⟩ >>= finish log.length k
        else cancel log.length ⟨(r ks).2, log ++ .start .placeholder :: es⟩ :=
      congrArg (· >>= _) hrun
    rw [hext]
    cases hnext : q (peek (r ks).2) with
    | true =>
      rw [extend_of_peek hnext]
      exact completes_finish hk (hrest hnext) hes log
    | false =>
      rw [extend_of_not_peek hnext, ← hes]
      exact exists_cancel _ log es

lemma below_bounded {f : Nat → Rule} {g : Nat → Routine}
    (hempty : ∀ m k, Follows (f m) (g (k + 1)) []) (n : Nat) (hround : ∀ j < n,
      ∀ m k, FollowsBelow j (f m) (g k) → FollowsAhead (j + 1) (f (m + 1)) (g (k + 1))) {m k : Nat}
    (hm : n ≤ m + 1) (hk : n ≤ k) : FollowsBelow n (f m) (g k) := by
  induction n generalizing m k with
  | zero => exact fun _ hks => absurd hks (Nat.not_lt_zero _)
  | succ n ih =>
    obtain ⟨k, rfl⟩ := Nat.exists_eq_add_of_le' ((Nat.le_add_left 1 n).trans hk)
    intro ks hks
    by_cases hne : ks = []
    · exact hne ▸ hempty m k
    · have hpos := length_pos_iff.2 hne
      obtain ⟨m, rfl⟩ : ∃ m', m = m' + 1 := Nat.exists_eq_add_of_le' (by omega)
      have hfirst :=
        ih (fun j hj => hround j (Nat.lt_succ_of_lt hj)) (m := m) (k := k) (by omega) (by omega)
      exact hround n (Nat.lt_succ_self n) m k hfirst ks hne hks

lemma follows_loop {f : Nat → Routine} (h : Follows r (f (ks.length + 1)) ks) :
    Follows r (loop f) ks :=
  ⟨h.1, h.2⟩

lemma below_loop {f : Nat → Rule} {g : Nat → Routine}
    (hempty : ∀ m k, Follows (f m) (g (k + 1)) []) (hround : ∀ j < n, ∀ m k,
      FollowsBelow j (f m) (g k) → FollowsAhead (j + 1) (f (m + 1)) (g (k + 1))) :
    FollowsBelow n (fun ks => f ks.length ks) (loop g) := fun ks hks =>
  below_bounded hempty (ks.length + 1) (fun j hj => hround j (by omega)) (Nat.le_refl _)
    (Nat.le_refl _) ks (Nat.lt_succ_self _)

lemma below_repeated (hadv : ∀ ks, ks ≠ [] → Advances r ks) (h : FollowsAhead n r s) :
    FollowsBelow n (repeatUntil q r) (loop (repeated q s)) := by
  refine below_loop (f := repeatWithin q r) (fun m k => ?_) fun j hj m k hrest => ?_
  · cases m <;> exact follows_skip 1 [] Nat.zero_lt_one
  · intro ls hne hls
    refine follows_choose (fun _ => follows_skip _ ls hls) fun _ => ?_
    have hlt : (r ls).2.length < ls.length := hadv ls hne
    refine follows_seq_cons (h ls hne (by omega)) (follows_seq_cons (hrest _ (by omega)) ?_)
    exact follows_skip _ _ (Nat.lt_succ_self _)

lemma below_list {l : Listing}
    {item : Routine} (hclose : l.close ≠ .endOfFile) (h : FollowsAhead n l.item item) :
    FollowsBelow n l.rule (list l.starts item l.close l.stops l.complaint) := by
  have hitems : FollowsBelow n (fun ks => l.within ks.length ks)
      (loop (items l.starts item l.close l.stops l.complaint)) := by
    refine below_loop (fun m k => ?_) fun j hj m k hrest => ?_
    · cases m <;> exact follows_skip 1 [] Nat.zero_lt_one
    · have hmore : FollowsBelow (j + 1) (Rule.option .comma (Rule.seq [Rule.take, l.within m]))
          (option .comma (seq [take, items l.starts item l.close l.stops l.complaint k])) :=
        below_option (by decide) (take_seq (.cons hrest .nil))
      intro ls hne hls
      refine follows_choose (fun _ => follows_skip _ ls hls) fun _ =>
        follows_choose (fun _ => ?_) fun _ => ?_
      · exact ahead_seq (fun ms hms hlt => h ms hms (by omega)) (.cons hmore .nil) ls hne hls
      · refine follows_choose (fun _ => follows_skip _ ls hls) fun _ => ?_
        obtain ⟨k, ls, rfl⟩ := exists_cons_of_ne_nil hne
        refine follows_seq_cons (ahead_recover _ _ hne hls)
          (follows_seq_cons (hrest ls (Nat.lt_of_succ_lt_succ hls)) ?_)
        exact follows_skip _ _ (Nat.lt_succ_self _)
  exact below_seq (.cons hitems (.cons (below_expect hclose) .nil))

lemma below_name : FollowsBelow n Grammar.name name :=
  below_choose rfl (ahead_node (by decide) (follows_take n)) (follows_complain n _)

lemma below_typeClause : FollowsBelow n Grammar.typeClause typeClause := by
  refine below_option (by decide)
    (ahead_node (by decide) (ahead_seq (follows_take n) (.cons ?_ .nil)))
  exact below_choose rfl (ahead_node (by decide) (follows_take n)) (follows_complain n _)

lemma ahead_arguments {inner : Rule} (h : FollowsBelow n inner inner') :
    FollowsAhead (n + 1) (Grammar.arguments inner) (arguments inner') :=
  ahead_node (by decide) (take_seq (.cons (below_list Kind.noConfusion h.ahead) .nil))

lemma below_atom {inner : Rule} (h : FollowsBelow n inner inner') :
    FollowsBelow (n + 1) (Grammar.atom inner) (atom inner') := by
  intro ks hks
  have ahead : ∀ {k : Kind}, peek ks = k → k ≠ .endOfFile → ks ≠ [] := by
    rintro k hk hne rfl
    exact hne hk.symm
  change Follows _ (fun p => atomOf inner' (peek ks) p) ks
  unfold Follows Grammar.atom
  split
  case h_1 hk =>
    rw [hk]
    exact below_extend (by decide) rfl (below_node (by decide) below_name)
      (ahead_arguments h) ks hks
  case h_2 hk =>
    rw [hk]
    exact ahead_node (by decide) (follows_take _) ks (ahead hk (by decide)) hks
  case h_3 hk =>
    rw [hk]
    exact ahead_node (by decide) (follows_take _) ks (ahead hk (by decide)) hks
  case h_4 hk =>
    rw [hk]
    exact ahead_node (by decide) (take_seq (.cons (below_expect (by decide)) .nil)) ks
      (ahead hk (by decide)) hks
  case h_5 hk =>
    rw [hk]
    exact ahead_node (by decide) (take_seq (.cons h (.cons (below_expect (by decide)) .nil))) ks
      (ahead hk (by decide)) hks
  case h_6 =>
    have hother : atomOf inner' (peek ks) = complain .expression := by
      unfold atomOf
      split <;> first | rfl | contradiction
    rw [hother]
    exact follows_complain _ _ ks hks

lemma below_operations {operand : Rule} {operand' : Routine} (h : FollowsBelow n operand operand') :
    FollowsBelow n (fun ks => Grammar.operations operand ks.length ks)
      (loop (operations operand')) := by
  refine below_loop (fun m k => ?_) fun j hj m k hrest => ?_
  · cases m <;> exact follows_skip 1 [] Nat.zero_lt_one
  · have hoperand : FollowsBelow j operand operand' := fun ls hls => h ls (by omega)
    have hnext := below_choose (q := Grammar.expressionStart.contains) rfl
      (below_seq (.cons hoperand (.cons hrest .nil))).ahead (follows_complain j .expression)
    exact (below_choose rfl (take_seq (.cons hnext .nil)) (follows_skip _)).ahead

lemma below_expressionOver {inner : Rule} (h : FollowsBelow n inner inner') :
    FollowsBelow (n + 1) (Grammar.expressionOver inner) (expressionOver inner') :=
  below_choose rfl
  (below_extend (by decide) rfl (below_atom h) (below_operations (below_atom h)).ahead).ahead
    (follows_complain _ _)

lemma below_expressionWithin (n : Nat) :
    FollowsBelow n Grammar.expression (expressionWithin n) := by
  induction n with
  | zero => exact fun _ hks => absurd hks (Nat.not_lt_zero _)
  | succ n ih =>
    rw [Grammar.expression_over]
    exact below_expressionOver ih

lemma below_expression : FollowsBelow n Grammar.expression expression := fun ks _ =>
  follows_loop <| below_expressionWithin (ks.length + 1) ks (Nat.lt_succ_self _)

lemma below_initializer : FollowsBelow n Grammar.initializer initializer :=
  below_option (by decide) (ahead_seq (follows_take n) (.cons below_expression .nil))

lemma below_variableDeclaration : FollowsBelow n Grammar.variableDeclaration variableDeclaration :=
  below_node (by decide)
  (below_seq (.cons below_name (.cons below_typeClause (.cons below_initializer .nil))))

lemma below_semicolon :
    FollowsBelow n (Rule.option .semicolon Rule.take) (option .semicolon take) :=
  below_option (by decide) (follows_take n)

lemma below_variableDeclarations : FollowsBelow n
      (fun ks => Grammar.variableDeclarations (ks.length + 1) ks) (loop variableDeclarations) := by
  refine below_loop (f := fun m => Grammar.variableDeclarations (m + 1)) (fun m k => ?_)
    fun j _ m k hrest => ?_
  · refine follows_seq_cons (below_variableDeclaration (n := 1) [] Nat.zero_lt_one) ?_
    exact follows_seq_cons (follows_skip 1 [] Nat.zero_lt_one) (follows_skip 1 [] Nat.zero_lt_one)
  · have hmore := below_option (k := .comma) (by decide) (take_seq (.cons hrest .nil))
    exact (below_seq (.cons below_variableDeclaration (.cons hmore .nil))).ahead

variable {block : Rule} {block' : Routine}

def FollowsOpen (n : Nat) (r : Rule) (s : Routine) : Prop :=
  ∀ ks, peek ks = .leftCurly → ks.length < n → Follows r s ks

lemma below_braced (h : FollowsOpen n yes yes') (hno : FollowsBelow n no no') :
    FollowsBelow n (Rule.choose (· == .leftCurly) yes no) (choose (· == .leftCurly) yes' no') :=
    fun ks hks =>
  follows_choose (fun hopen => h ks (by simpa using hopen) hks) fun _ => hno ks hks

lemma below_signature (h : FollowsOpen n block block') :
    FollowsBelow n (Grammar.signature block) (signature block') := by
  have hparameter := below_node (k := .parameter) (by decide)
    (below_seq (.cons (below_name (n := n)) (.cons below_typeClause .nil)))
  have hlist : FollowsAhead n Grammar.parameterList parameterList := ahead_node (by decide)
    (ahead_seq (follows_take n) (.cons (below_list (by decide) hparameter.ahead) .nil))
  exact below_seq (.cons (below_choose rfl hlist (follows_complain n _))
    (.cons below_typeClause (.cons (below_braced h (below_expect (by decide))) .nil)))

lemma exists_modifiers (ks : List Kind) (log : List Event) :
    ∃ es, shown es = eventsAll (Grammar.modifiers ks).1 ∧ modifiers ⟨ks, log⟩ =
      some (!(Grammar.modifiers ks).1.isEmpty, ⟨(Grammar.modifiers ks).2, log ++ es⟩) := by
  have hwithin : ∀ (k : Nat) (ks : List Kind) (log : List Event), ks.length < k →
      ∃ es, shown es = eventsAll (Grammar.modifiers ks).1 ∧ modifiersWithin k ⟨ks, log⟩ =
        some (!(Grammar.modifiers ks).1.isEmpty, ⟨(Grammar.modifiers ks).2, log ++ es⟩) := by
    intro k
    induction k with
    | zero => exact fun _ _ hk => absurd hk (Nat.not_lt_zero _)
    | succ k ih =>
      intro ks log hk
      cases ks with
      | nil => exact ⟨[], rfl, by rw [append_nil]; rfl⟩
      | cons c ks =>
        cases hc : c.isModifierKeyword with
        | false =>
          refine ⟨[], ?_, ?_⟩ <;>
            simp [Grammar.modifiers, hc, modifiersWithin, next, peek, shown, eventsAll]
        | true =>
          obtain ⟨fs, hfs, hnode⟩ := (ahead_node (k := .modifier) (by decide) (follows_take _)
            (c :: ks) (cons_ne_nil c ks) (Nat.lt_succ_self _)).2 log
          obtain ⟨es, hes, hmore⟩ := ih ks (log ++ fs) (Nat.lt_of_succ_lt_succ hk)
          have hfirst : Grammar.modifiers (c :: ks) =
              (.branch .modifier [.leaf c] :: (Grammar.modifiers ks).1,
                (Grammar.modifiers ks).2) := by
            simp [Grammar.modifiers, hc]
          refine ⟨fs ++ es, ?_, ?_⟩
          · rw [shown_append, hfs, hes, hfirst]
            rfl
          · have hnext : (next ⟨c :: ks, log⟩).isModifierKeyword = true := hc
            rw [modifiersWithin, if_pos hnext, hnode, hfirst, ← append_assoc]
            exact congrArg (· >>= fun p => some (true, p.2)) hmore
  exact hwithin (ks.length + 1) ks log (Nat.lt_succ_self _)

lemma nodeFrom_seq_cons (os : List Outline)
    (k : Kind) (r : Rule) (rs : List Rule) (ks : List Kind) :
    nodeFrom os k (Rule.seq (r :: rs)) ks = nodeFrom (os ++ (r ks).1) k (Rule.seq rs) (r ks).2 := by
  simp [nodeFrom, Rule.seq]

lemma ahead_classMember (hread : LosslessAhead block) (h : FollowsOpen n block block') :
    FollowsAhead n (Grammar.classMember block) (classMember block') := by
  intro ks hne hks
  refine ⟨(Grammar.ahead_classMember hread ks hne).length_le, fun log => ?_⟩
  obtain ⟨es, hes, hmodifiers⟩ := exists_modifiers ks (log ++ [.start .placeholder])
  rw [append_assoc] at hmodifiers
  have hrest : (Grammar.modifiers ks).2.length < n :=
    Nat.lt_of_le_of_lt (Grammar.lossless_modifiers ks).length_le hks
  unfold classMember start Grammar.classMember
  simp only [hmodifiers, bind_eq_bind, bind_some, next]
  by_cases hname : peek (Grammar.modifiers ks).2 = .identifier
  · rw [if_pos hname, if_pos hname]
    have hnamed : (Grammar.name (Grammar.modifiers ks).2).2 = (Grammar.modifiers ks).2.drop 1 := by
      generalize (Grammar.modifiers ks).2 = ls at hname
      cases ls with
      | nil => cases hname
      | cons k ls =>
        obtain rfl : k = .identifier := hname
        rfl
    obtain ⟨hle, hwrite⟩ := below_name _ hrest
    obtain ⟨fs, hfs, hrun⟩ := hwrite (log ++ .start .placeholder :: es)
    have hparts : shown (es ++ fs) =
        eventsAll ((Grammar.modifiers ks).1 ++ (Grammar.name (Grammar.modifiers ks).2).1) := by
      rw [shown_append, hes, hfs, eventsAll_append]
    have hlt := hle.trans_lt hrest
    rw [append_assoc, cons_append] at hrun
    simp only [singleton_append, hrun, bind_some, ← hnamed]
    by_cases hcall : peek (Grammar.name (Grammar.modifiers ks).2).2 = .leftParenthesis
    · rw [if_pos hcall, if_pos hcall, Grammar.method, nodeFrom_seq_cons]
      exact completes_finish (k := .methodDeclaration) (by decide)
        (below_seq (.cons (below_signature h) .nil) _ hlt) hparts
        log
    · rw [if_neg hcall, if_neg hcall, Grammar.property, nodeFrom_seq_cons]
      refine completes_finish (k := .propertyDeclaration) (by decide) (below_seq ?_ _ hlt)
        hparts log
      exact .cons below_typeClause (.cons below_initializer (.cons below_semicolon .nil))
  · rw [if_neg hname, if_neg hname]
    cases hnone : (Grammar.modifiers ks).1.isEmpty with
    | true =>
      rw [isEmpty_iff.1 hnone] at hes
      have hahead := Grammar.modifiers_of_isEmpty hnone
      rw [hahead] at hrest ⊢
      exact completes_cancel (ahead_recover _ ks hne hrest) hes log
    | false => exact completes_finish (by decide) (follows_complain n _ _ hrest) hes log

lemma rel_declaration (hread : LosslessAhead block) (h : FollowsOpen n block block') (k : Kind) :
    Option.Rel (fun d e => d.1 = e.1 ∧ d.1 ≠ .placeholder ∧ FollowsAhead n d.2 e.2)
      (Grammar.declaration? block k) (declaration? block' k) := by
  have hvariable : FollowsAhead n Grammar.variableStatement variableStatement :=
    ahead_seq (follows_take n) (.cons below_variableDeclarations (.cons below_semicolon .nil))
  have hfunction :
      FollowsAhead n (Grammar.functionDeclaration block) (functionDeclaration block') :=
      ahead_seq (follows_take n) (.cons below_name (.cons (below_signature h) .nil))
  have hmembers := below_repeated (q := (· == .rightCurly))
    (fun ks hks => Grammar.advances_classMember hread hks) (ahead_classMember hread h)
  have hclass : FollowsAhead n (Grammar.classDeclaration block) (classDeclaration block') :=
    ahead_seq (follows_take n) (.cons below_name (.cons (below_choose rfl
      (ahead_seq (follows_take n) (.cons hmembers (.cons (below_expect (by decide)) .nil)))
      (follows_complain n _)) .nil))
  have hmember := below_node (k := .enumMember) (by decide)
    (below_seq (.cons (below_name (n := n)) (.cons below_initializer .nil)))
  have henum : FollowsAhead n Grammar.enumDeclaration enumDeclaration :=
    ahead_seq (follows_take n) (.cons below_name (.cons (below_choose rfl (ahead_seq
      (follows_take n) (.cons (below_list (by decide) hmember.ahead) .nil)) (follows_complain n _))
      .nil))
  have hnamespace :
      FollowsAhead n (Grammar.namespaceDeclaration block) (namespaceDeclaration block') := ahead_seq
      (follows_take n) (.cons below_name (.cons (below_braced h (follows_complain n _)) .nil))
  unfold Grammar.declaration?
  split
  · exact .some ⟨rfl, by decide, hvariable⟩
  · exact .some ⟨rfl, by decide, hvariable⟩
  · exact .some ⟨rfl, by decide, hvariable⟩
  · exact .some ⟨rfl, Kind.noConfusion, hfunction⟩
  · exact .some ⟨rfl, Kind.noConfusion, hclass⟩
  · exact .some ⟨rfl, by decide, henum⟩
  · exact .some ⟨rfl, Kind.noConfusion, hnamespace⟩
  · have hother : declaration? block' k = none := by
      unfold declaration?
      split <;> first | rfl | contradiction
    rw [hother]
    exact .none

variable {inner : Routine}

section

variable (h : FollowsAhead n Grammar.statement inner)
include h

lemma open_block : FollowsOpen (n + 1) (Grammar.block Grammar.statement) (Scribe.block inner)
  | [], hopen, _ => absurd hopen (by decide)
  | k :: ks, hopen, hks => by
    obtain rfl : k = .leftCurly := hopen
    refine follows_node (by decide) (follows_seq_cons (below_expect (by decide) _ hks) ?_)
    have hstatements :=
      below_repeated (q := (· == .rightCurly)) (fun _ hls => Grammar.advances_statement hls) h
    exact below_seq (.cons hstatements (.cons (below_expect (by decide)) .nil)) ks
      (Nat.lt_of_succ_lt_succ hks)

lemma ahead_ifParts :
    FollowsAhead (n + 1) (Rule.seq [Rule.take, Rule.expect .leftParenthesis, Grammar.expression,
      Rule.expect .rightParenthesis, Grammar.consequence Grammar.statement, Rule.option .elseKeyword
      (Rule.seq [Rule.take, Grammar.consequence Grammar.statement])]) (ifParts inner) := by
  have hthen : FollowsBelow n (Grammar.consequence Grammar.statement) (consequence inner) :=
    below_choose_not rfl (follows_complain n _) h
  have helse :=
    below_option (k := .elseKeyword) (by decide) (ahead_seq (follows_take n) (.cons hthen .nil))
  exact take_seq (.cons (below_expect (by decide))
    (.cons below_expression (.cons (below_expect (by decide)) (.cons hthen (.cons helse .nil)))))

lemma completes_plain (hne : ks ≠ []) (hks : ks.length < n + 1)
    (hes : shown es = []) (log : List Event) : Completes (Grammar.plainStatement Grammar.statement)
      (plainOf inner log.length (peek ks)) ks log es := by
  unfold Completes Grammar.plainStatement
  split
  case h_1 hopen =>
    rw [hopen]
    exact completes_cancel (open_block h ks hopen hks) hes log
  case h_2 hk =>
    rw [hk]
    have hvalue := below_choose (q := Grammar.expressionStart.contains) rfl below_expression.ahead
      (follows_skip (n + 1))
    exact completes_finish (by decide)
      (ahead_seq (follows_take _) (.cons hvalue (.cons below_semicolon .nil)) ks hne hks)
      hes log
  case h_3 hk =>
    rw [hk]
    exact completes_finish (by decide) (ahead_ifParts h ks hne hks) hes log
  case h_4 =>
    have hother : plainOf inner log.length (peek ks) =
        if Grammar.expressionStart.contains (peek ks) then fun p =>
        seq [expression, option .semicolon take] p >>= finish log.length .expressionStatement
        else fun p => cancel log.length p >>= recover .unexpectedToken := by
      rw [plainOf] <;> assumption
    rw [hother, Rule.choose]
    split
    · exact completes_finish (by decide)
        (below_seq (.cons below_expression (.cons below_semicolon .nil)) ks hks) hes log
    · exact completes_cancel (ahead_recover _ ks hne hks) hes log

lemma ahead_statementOver :
    FollowsAhead (n + 1) (Grammar.statementOver Grammar.statement) (statementOver inner) := by
  intro ks hne hks
  refine ⟨(Grammar.ahead_statementOver Grammar.ahead_statement ks hne).length_le, fun log => ?_⟩
  obtain ⟨es, hes, hmodifiers⟩ := exists_modifiers ks (log ++ [.start .placeholder])
  rw [append_assoc] at hmodifiers
  have hrest := Nat.lt_of_le_of_lt (Grammar.lossless_modifiers ks).length_le hks
  have hd := rel_declaration Grammar.lossless_statementBlock.ahead (open_block h)
    (peek (Grammar.modifiers ks).2)
  unfold statementOver start Grammar.statementOver
  simp only [hmodifiers, bind_eq_bind, bind_some, next]
  generalize hrule : Grammar.declaration? (Grammar.block Grammar.statement)
    (peek (Grammar.modifiers ks).2) = d at hd ⊢
  generalize declaration? (Scribe.block inner) (peek (Grammar.modifiers ks).2) = e at hd ⊢
  cases hd with
  | @some d e hsame =>
    obtain ⟨k, body⟩ := d
    obtain ⟨k', body'⟩ := e
    obtain ⟨rfl, hnode, hbody⟩ := hsame
    exact completes_finish hnode (hbody _ (Grammar.declaration_ahead hrule) hrest) hes log
  | none =>
    dsimp only
    cases hnone : (Grammar.modifiers ks).1.isEmpty with
    | true =>
      rw [isEmpty_iff.1 hnone] at hes
      have hahead := Grammar.modifiers_of_isEmpty hnone
      rw [hahead]
      exact completes_plain h hne hks hes log
    | false => exact completes_finish (by decide) (follows_complain _ _ _ hrest) hes log

end

lemma ahead_statementWithin (n : Nat) : FollowsAhead n Grammar.statement (statementWithin n) := by
  induction n with
  | zero => exact fun _ _ hks => absurd hks (Nat.not_lt_zero _)
  | succ n ih =>
    rw [Grammar.statement_over]
    exact ahead_statementOver ih

lemma ahead_statement : FollowsAhead n Grammar.statement statement := fun ks hne _ =>
  follows_loop <| ahead_statementWithin (ks.length + 1) ks hne (Nat.lt_succ_self _)

lemma follows_file (ks : List Kind) : Follows Grammar.file file ks :=
  below_repeated (fun _ hls => Grammar.advances_statement hls) ahead_statement ks
  (Nat.lt_succ_self _)

def Advances (s : Routine) : Prop :=
  ∀ p : Scribe, p.rest ≠ [] → ∃ p', s p = some p' ∧ p'.rest.length < p.rest.length

lemma advances_of_follows (hadv : ∀ ks, ks ≠ [] → Rule.Advances r ks)
    (h : ∀ n, FollowsAhead n r s) : Advances s := by
  rintro ⟨ks, log⟩ hne
  obtain ⟨es, -, hrun⟩ := (h _ ks hne (Nat.lt_succ_self _)).2 log
  exact ⟨_, hrun, hadv ks hne⟩

/-- A file is read to its end, whatever kinds it is made of. The scribe is never stuck: it takes no
token after the last one, finds each node that it finishes or gives up under the number it had, and
no loop uses up its rounds. The tokens in its log are the kinds in their order. Without the
placeholders that stayed behind the log is the list of events of the outline, in which nodes are
properly nested and none is left open. And wherever a statement or a member of a class is read
before the end, it takes a token. -/
theorem file_recorded {ks : List Kind} (h : .endOfFile ∉ ks) :
    (∃ log, file ⟨ks, []⟩ = some ⟨[], log⟩ ∧ tokens log = ks ∧ depth? (shown log) 0 = some 0 ∧
      shown log = eventsAll (ofKinds ks)) ∧
    Advances statement ∧ Advances (classMember (Scribe.block statement)) := by
  obtain ⟨log, hlog, hrun⟩ := (follows_file ks).2 []
  rw [Grammar.file_rest h, nil_append] at hrun
  have hshown : shown log = eventsAll (ofKinds ks) := hlog
  have hdepth := depth?_eventsAll (ofKinds ks) [] 0
  rw [append_nil] at hdepth
  refine ⟨⟨log, hrun, ?_, hshown ▸ hdepth, hshown⟩, ?_, ?_⟩
  · rw [← tokens_shown, hshown, tokens_eventsAll, leavesAll_ofKinds h]
  · exact advances_of_follows (fun _ => Grammar.advances_statement) fun _ => ahead_statement
  · have hread := Grammar.lossless_statementBlock.ahead
    refine advances_of_follows (fun _ => Grammar.advances_classMember hread) fun n =>
      ahead_classMember hread ?_
    exact fun ks hopen hks => open_block (ahead_statement (n := n)) ks hopen (Nat.lt_succ_of_lt hks)

theorem file_recorded_broken :
    .endOfFile ∉ [Kind.classKeyword, .identifier, .leftCurly, .staticKeyword,
      .rightCurly, .comma, .identifier, .leftParenthesis, .colon, .rightParenthesis, .plus] ∧
    ∃ log, file ⟨[.classKeyword, .identifier, .leftCurly, .staticKeyword, .rightCurly, .comma,
      .identifier, .leftParenthesis, .colon, .rightParenthesis, .plus], []⟩ = some ⟨[], log⟩ ∧
    tokens log = [.classKeyword, .identifier, .leftCurly, .staticKeyword, .rightCurly, .comma,
      .identifier, .leftParenthesis, .colon, .rightParenthesis, .plus] := by
  have h : .endOfFile ∉ [Kind.classKeyword, .identifier, .leftCurly, .staticKeyword, .rightCurly,
      .comma, .identifier, .leftParenthesis, .colon, .rightParenthesis, .plus] := by decide
  obtain ⟨log, hrun, htokens, -⟩ := (file_recorded h).1
  exact ⟨h, log, hrun, htokens⟩

end Scribe
end LiveEdit
