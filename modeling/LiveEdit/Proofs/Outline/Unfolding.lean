import LiveEdit.Proofs.Outline.Reading

/-! The bounds on repetition and nesting are large enough for every input. -/

namespace LiveEdit

namespace Rule
open Outline

def AgreeTo (n : Nat) (r s : Rule) : Prop := ∀ ks, ks.length ≤ n → r ks = s ks

variable {r s yes no yes' no' more more' item : Rule} {rs ss : List Rule} {p stop : Kind → Bool}
  {kind : Kind} {n m : Nat} {l : Listing} {f : Nat → Rule}

lemma AgreeTo.refl (n : Nat) (r : Rule) : AgreeTo n r r := fun _ _ => rfl

lemma AgreeTo.mono (h : AgreeTo n r s) (hm : m ≤ n) : AgreeTo m r s :=
  fun ks hks => h ks (Nat.le_trans hks hm)

lemma seq_congr {ks : List Kind} (h : r ks = s ks)
    (hs : seq rs (r ks).2 = seq ss (r ks).2) : seq (r :: rs) ks = seq (s :: ss) ks := by
  simp only [seq, ← h, hs]

lemma agree_seq (hr : ∀ ks, ks.length ≤ n → (r ks).2.length ≤ m) (h : AgreeTo n r s)
    (hs : AgreeTo m (seq rs) (seq ss)) : AgreeTo n (seq (r :: rs)) (seq (s :: ss)) :=
  fun ks hks => seq_congr (h ks hks) (hs _ (hr ks hks))

lemma agree_seq_cons (hr : Lossless r) (h : AgreeTo n r s)
    (hs : AgreeTo n (seq rs) (seq ss)) : AgreeTo n (seq (r :: rs)) (seq (s :: ss)) :=
  agree_seq (fun ks hks => Nat.le_trans (hr ks).length_le hks) h hs

lemma agree_take_seq (hs : AgreeTo n (seq rs) (seq ss)) :
    AgreeTo (n + 1) (seq (take :: rs)) (seq (take :: ss)) := by
  refine agree_seq (fun ks hks => ?_) (.refl _ take) hs
  cases ks with
  | nil => exact Nat.zero_le n
  | cons k ks => exact Nat.le_of_succ_le_succ hks

lemma agree_recover_seq {c : Complaint} (hs : AgreeTo n (seq rs) (seq ss)) :
    AgreeTo (n + 1) (seq (recover c :: rs)) (seq (recover c :: ss)) := by
  refine agree_seq (fun ks hks => ?_) (.refl _ (recover c)) hs
  cases ks with
  | nil => exact Nat.zero_le n
  | cons k ks => exact Nat.le_of_succ_le_succ hks

lemma agree_seq_one (h : AgreeTo n r s) : AgreeTo n (seq [r]) (seq [s]) :=
  fun ks hks => seq_congr (h ks hks) rfl

lemma agree_choose (hyes : AgreeTo n yes yes') (hno : AgreeTo n no no') :
    AgreeTo n (choose p yes no) (choose p yes' no') := by
  intro ks hks
  simp only [choose, hyes ks hks, hno ks hks]

lemma agree_option {k : Kind} (h : AgreeTo n r s) : AgreeTo n (option k r) (option k s) :=
  agree_choose h (.refl n skip)

lemma agree_node (h : AgreeTo n r s) : AgreeTo n (node kind r) (node kind s) := by
  intro ks hks
  simp only [node, nodeFrom, h ks hks]

lemma agree_extend (hr : Lossless r) (h : AgreeTo n r s) (hmore : AgreeTo n more more') :
    AgreeTo n (extend kind r p more) (extend kind s p more') := by
  intro ks hks
  have hrest := hmore (r ks).2 (Nat.le_trans (hr ks).length_le hks)
  simp only [extend, nodeFrom, ← h ks hks, hrest]

lemma agree_repeatWithin (hr : LosslessAhead r) (h : AgreeTo n r s) (m : Nat) :
    AgreeTo n (repeatWithin stop r m) (repeatWithin stop s m) := by
  induction m with
  | zero => exact .refl n skip
  | succ m ih =>
    intro ks hks
    simp only [repeatWithin, choose]
    split
    · rfl
    · next hend =>
      have hne : ks ≠ [] := by
        rintro rfl
        exact hend rfl
      have hle : (r ks).2.length ≤ n := Nat.le_trans (hr ks hne).length_le hks
      exact seq_congr (h ks hks) (agree_seq_one ih _ hle)

lemma agree_repeatUntil (hr : LosslessAhead r) (h : AgreeTo n r s) :
    AgreeTo n (repeatUntil stop r) (repeatUntil stop s) :=
  fun ks hks => agree_repeatWithin hr h ks.length ks hks

lemma agree_bounded {g : Nat → Rule} (hempty : ∀ n m, f n [] = g m []) (k : Nat)
    (hround : ∀ j < k, ∀ n m, AgreeTo j (f n) (g m) → AgreeTo (j + 1) (f (n + 1)) (g (m + 1)))
    (hn : k ≤ n) (hm : k ≤ m) : AgreeTo k (f n) (g m) := by
  induction k generalizing n m with
  | zero =>
    intro ks hks
    obtain rfl : ks = [] := List.eq_nil_of_length_eq_zero (Nat.le_zero.1 hks)
    exact hempty n m
  | succ k ih =>
    obtain ⟨n, rfl⟩ := Nat.exists_eq_add_of_le' (Nat.le_trans (Nat.le_add_left 1 k) hn)
    obtain ⟨m, rfl⟩ := Nat.exists_eq_add_of_le' (Nat.le_trans (Nat.le_add_left 1 k) hm)
    exact hround k (Nat.lt_succ_self k) n m (ih (fun j hj => hround j (Nat.lt_succ_of_lt hj))
      (Nat.le_of_succ_le_succ hn) (Nat.le_of_succ_le_succ hm))

/-- Rounds enough for an input are as good as more of them. -/
lemma agree_rounds (hadv : ∀ ks, ks ≠ [] → Advances r ks) (k : Nat) (hn : k ≤ n)
    (hm : k ≤ m) : AgreeTo k (repeatWithin stop r n) (repeatWithin stop r m) := by
  refine agree_bounded (fun n m => by cases n <;> cases m <;> rfl) k
    (fun j _ n m ih ks hks => ?_) hn hm
  simp only [repeatWithin, choose]
  split
  · rfl
  · next hend =>
    have hne : ks ≠ [] := by
      rintro rfl
      exact hend rfl
    have hlt : (r ks).2.length < ks.length := hadv ks hne
    exact seq_congr rfl (agree_seq_one ih _ (by omega))

lemma Listing.agree_round (hl : LosslessAhead l.item)
    (hstart : l.starts .endOfFile = false) {k : Nat} (h : AgreeTo (k + 1) l.item item)
    (hs : AgreeTo k (l.within n) (Listing.within { l with item } m)) :
    AgreeTo (k + 1) (l.within (n + 1)) (Listing.within { l with item } (m + 1)) := by
  have hmore : AgreeTo (k + 1) (option .comma (seq [take, l.within n]))
      (option .comma (seq [take, Listing.within { l with item } m])) :=
    agree_option (agree_take_seq (agree_seq_one hs))
  refine agree_choose (.refl _ skip) fun ks hks => ?_
  simp only [choose]
  split
  · next hfirst =>
    have hle := (hl ks (ne_nil_of_peek hfirst hstart)).length_le
    exact seq_congr (h ks hks) (agree_seq_one hmore _ (Nat.le_trans hle hks))
  · exact agree_choose (.refl _ skip) (agree_recover_seq (agree_seq_one hs)) ks hks

lemma Listing.within_empty (l : Listing) (n : Nat) : l.within n [] = ([], []) := by
  cases n <;> rfl

lemma Listing.agree_within (hl : LosslessAhead l.item)
    (hstart : l.starts .endOfFile = false) (k : Nat) (h : AgreeTo k l.item item)
    (hn : k ≤ n) (hm : k ≤ m) : AgreeTo k (l.within n) (Listing.within { l with item } m) :=
  agree_bounded (fun n m => by rw [Listing.within_empty, Listing.within_empty]) k
    (fun _ hj _ _ => Listing.agree_round hl hstart (h.mono hj)) hn hm

lemma Listing.agree_rule (hl : LosslessAhead l.item) (hstart : l.starts .endOfFile = false)
    (h : AgreeTo n l.item item) : AgreeTo n l.rule (Listing.rule { l with item }) := by
  refine agree_seq_cons (fun ks => Listing.lossless_within hl ks.length ks) (fun ks hks => ?_)
    (.refl n _)
  exact Listing.agree_within hl hstart ks.length (h.mono hks) (Nat.le_refl _) (Nat.le_refl _) ks
    (Nat.le_refl _)

lemma eq_over_of_bounded {nest : Rule → Rule} (hf : ∀ n, f (n + 1) = nest (f n))
    (hempty : ∀ r s, nest r [] = nest s [])
    (hlevel : ∀ n k s, AgreeTo k (f n) s → AgreeTo (k + 1) (nest (f n)) (nest s)) (ks : List Kind) :
    f (ks.length + 1) ks = nest (fun ls => f (ls.length + 1) ls) ks := by
  have hdepth : ∀ {n m : Nat} (k : Nat), k ≤ n → k ≤ m → AgreeTo k (f (n + 1)) (f (m + 1)) :=
    fun k => agree_bounded (f := fun n => f (n + 1)) (g := fun m => f (m + 1))
      (fun n m => by rw [hf, hf, hempty]) k fun j _ n m h => by
        rw [hf (n + 1), hf (m + 1)]
        exact hlevel _ _ _ h
  rw [hf]
  cases ks with
  | nil => exact hempty _ _
  | cons k ks =>
    refine hlevel _ _ _ (fun ls hls => ?_) _ (Nat.le_refl _)
    exact hdepth ls.length hls (Nat.le_refl _) ls (Nat.le_refl _)

end Rule

namespace Grammar
open Outline Rule

variable {inner inner' block' : Rule} {rs ss : List Rule} {n m : Nat}

lemma agree_arguments (hl : Lossless inner) (h : AgreeTo n inner inner') :
    AgreeTo (n + 1) (arguments inner) (arguments inner') :=
  agree_node (agree_take_seq (agree_seq_one (Listing.agree_rule hl.ahead rfl h)))

lemma agree_atom (hl : Lossless inner) (h : AgreeTo n inner inner') :
    AgreeTo (n + 1) (atom inner) (atom inner') := by
  intro ks hks
  unfold atom
  split
  · exact agree_extend (lossless_node _ lossless_name) (.refl _ _) (agree_arguments hl h) ks hks
  · rfl
  · rfl
  · rfl
  · have hparts : AgreeTo n (seq [inner, expect .rightParenthesis])
        (seq [inner', expect .rightParenthesis]) :=
      agree_seq_cons hl h (.refl n _)
    exact agree_node (agree_take_seq hparts) ks hks
  · rfl

lemma operations_empty (operand : Rule) (n : Nat) : operations operand n [] = ([], []) := by
  cases n <;> rfl

lemma agree_operations {operand operand' : Rule} (hl : Lossless operand) (k : Nat)
    (h : AgreeTo k operand operand') (hn : k ≤ n) (hm : k ≤ m) :
    AgreeTo k (operations operand n) (operations operand' m) := by
  refine agree_bounded (fun n m => by rw [operations_empty, operations_empty]) k
    (fun j hj n m hrest => ?_) hn hm
  have hnext := agree_choose (p := expressionStart.contains) (agree_seq_cons hl
    (h.mono (Nat.le_of_lt hj)) (agree_seq_one hrest)) (.refl j (complain .expression))
  exact agree_choose (agree_take_seq (agree_seq_one hnext)) (.refl _ _)

lemma agree_expressionOver (hl : Lossless inner) (h : AgreeTo n inner inner') :
    AgreeTo (n + 1) (expressionOver inner) (expressionOver inner') :=
  agree_choose (agree_extend (lossless_atom hl) (agree_atom hl h) fun ks hks =>
    agree_operations (lossless_atom hl) ks.length ((agree_atom hl h).mono hks) (Nat.le_refl _)
      (Nat.le_refl _) ks (Nat.le_refl _)) (.refl _ _)

lemma expressionOver_nil (inner : Rule) : expressionOver inner [] = ([.fault .expression], []) := by
  unfold expressionOver choose
  exact if_neg (by decide)

lemma expression_over : expression = expressionOver expression :=
  funext
  (eq_over_of_bounded (fun _ => rfl) (fun r s => by rw [expressionOver_nil, expressionOver_nil])
    fun n _ _ h => agree_expressionOver (lossless_expressionWithin n) h)

lemma agree_variableDeclarations (k : Nat) (hn : k ≤ n) (hm : k ≤ m) :
    AgreeTo k (variableDeclarations (n + 1)) (variableDeclarations (m + 1)) :=
  agree_bounded (f := fun n => variableDeclarations (n + 1))
  (g := fun m => variableDeclarations (m + 1))
    (fun _ _ => rfl) k (fun _ _ _ _ hrest => agree_seq_cons lossless_variableDeclaration (.refl _ _)
      (agree_seq_one (agree_option (agree_take_seq (agree_seq_one hrest))))) hn hm

lemma agree_signature {block : Rule} (h : AgreeTo n block block') :
    AgreeTo n (signature block) (signature block') :=
  agree_seq_cons lossless_parameters (.refl n _) (agree_seq_cons lossless_typeClause (.refl n _)
    (agree_seq_one (agree_choose h (.refl n _))))

lemma agree_classMember {block : Rule} (h : AgreeTo n block block') :
    AgreeTo n (classMember block) (classMember block') := by
  have hmethod : AgreeTo n (method block) (method block') :=
    agree_seq_cons lossless_name (.refl n _)
      (agree_seq_one (agree_signature h))
  intro ks hks
  have hrest := hmethod (modifiers ks).2 (Nat.le_trans (lossless_modifiers ks).length_le hks)
  simp only [classMember, nodeFrom, hrest]

lemma agree_named (h : AgreeTo n (seq rs) (seq ss)) :
    AgreeTo (n + 1) (seq (take :: name :: rs)) (seq (take :: name :: ss)) :=
  agree_take_seq (agree_seq_cons lossless_name (.refl n _) h)

lemma agree_declaration {block : Rule} (hl : LosslessAhead block) (h : AgreeTo n block block')
    (k : Kind) : Option.Rel (fun d e => d.1 = e.1 ∧ AgreeTo (n + 1) d.2 e.2) (declaration? block k)
      (declaration? block' k) := by
  have hfunction : AgreeTo (n + 1) (functionDeclaration block) (functionDeclaration block') :=
    agree_named (agree_seq_one (agree_signature h))
  have hclass : AgreeTo (n + 1) (classDeclaration block) (classDeclaration block') := by
    have hmembers : AgreeTo n
        (seq [repeatUntil (· == .rightCurly) (classMember block), expect .rightCurly])
        (seq [repeatUntil (· == .rightCurly) (classMember block'), expect .rightCurly]) :=
      agree_seq_cons (lossless_repeatUntil (ahead_classMember hl))
        (agree_repeatUntil (ahead_classMember hl) (agree_classMember h)) (.refl n _)
    exact agree_named (agree_seq_one (agree_choose
      ((agree_take_seq hmembers).mono (Nat.le_succ n)) (.refl n _)))
  have hnamespace : AgreeTo (n + 1) (namespaceDeclaration block) (namespaceDeclaration block') :=
    agree_named (agree_seq_one (agree_choose h (.refl n _)))
  unfold declaration?
  split
  · exact .some ⟨rfl, .refl _ _⟩
  · exact .some ⟨rfl, .refl _ _⟩
  · exact .some ⟨rfl, .refl _ _⟩
  · exact .some ⟨rfl, hfunction⟩
  · exact .some ⟨rfl, hclass⟩
  · exact .some ⟨rfl, .refl _ _⟩
  · exact .some ⟨rfl, hnamespace⟩
  · exact .none

section

variable (hl : LosslessAhead inner) (h : AgreeTo n inner inner')
include hl h

lemma agree_block : AgreeTo n (block inner) (block inner') := by
  refine agree_node (agree_seq_cons (lossless_expect (by decide)) (.refl n _) ?_)
  exact agree_seq_cons (lossless_repeatUntil hl) (agree_repeatUntil hl h) (.refl n _)

lemma block_congr {ks : List Kind} (hks : ks.length ≤ n + 1) (hfirst : peek ks = .leftCurly) :
    block inner ks = block inner' ks := by
  cases ks with
  | nil => rfl
  | cons k ks =>
    obtain rfl : k = .leftCurly := hfirst
    have hrest : repeatUntil (· == .rightCurly) inner ks = repeatUntil (· == .rightCurly)
        inner' ks := agree_repeatUntil hl h ks (Nat.le_of_succ_le_succ hks)
    have hopen : expect .leftCurly (.leftCurly :: ks) = ([.leaf .leftCurly], ks) := rfl
    simp only [block, node, nodeFrom, seq, hopen, hrest]

lemma agree_ifStatement : AgreeTo (n + 1) (ifStatement inner) (ifStatement inner') := by
  have hthen : AgreeTo n (consequence inner) (consequence inner') := agree_choose (.refl n _) h
  refine agree_node (agree_take_seq ?_)
  refine agree_seq_cons (lossless_expect (by decide)) (.refl n _) ?_
  refine agree_seq_cons lossless_expression (.refl n _) ?_
  refine agree_seq_cons (lossless_expect (by decide)) (.refl n _) ?_
  refine agree_seq_cons (lossless_consequence hl) hthen ?_
  exact agree_seq_one (agree_option ((agree_take_seq (agree_seq_one hthen)).mono (Nat.le_succ n)))

lemma agree_plainStatement : AgreeTo (n + 1) (plainStatement inner) (plainStatement inner') := by
  intro ks hks
  unfold plainStatement
  split
  next hfirst => exact block_congr hl h hks hfirst
  · rfl
  · exact agree_ifStatement hl h ks hks
  · rfl

lemma agree_statementOver : AgreeTo (n + 1) (statementOver inner) (statementOver inner') := by
  intro ks hks
  have hrest : (modifiers ks).2.length ≤ n + 1 := Nat.le_trans (lossless_modifiers ks).length_le hks
  have hd := agree_declaration (lossless_block hl).ahead (agree_block hl h) (peek (modifiers ks).2)
  have hplain := agree_plainStatement hl h _ hrest
  simp only [statementOver]
  generalize declaration? (block inner) (peek (modifiers ks).2) = d at hd ⊢
  generalize declaration? (block inner') (peek (modifiers ks).2) = e at hd ⊢
  cases hd with
  | some hsame =>
    obtain ⟨hkind, hbody⟩ := hsame
    simp only [nodeFrom, hkind, hbody _ hrest]
  | none => simp only [hplain]

end

lemma statement_over : statement = statementOver statement :=
  funext (eq_over_of_bounded (fun _ => rfl) (fun _ _ => rfl)
    fun n _ _ h => agree_statementOver (ahead_statementWithin n) h)

end Grammar
end LiveEdit
