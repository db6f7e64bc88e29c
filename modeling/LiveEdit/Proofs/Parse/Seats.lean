import LiveEdit.Proofs.Parse.Plots

namespace LiveEdit.Parse
open Option
open List hiding count
open LiveEdit.Tree Lexeme Grammar

lemma settled_of_ends {k : Kind} (h : k.ends = true) : Settled k := by
  simp only [Kind.ends, Kind.closes, Bool.or_eq_true, beq_iff_eq] at h
  rcases h with (((rfl | rfl) | rfl) | rfl) | rfl | rfl
  · exact .inr (.inr (.inl (by decide)))
  · exact .inr (.inr (.inr rfl))
  · exact .inr (.inl rfl)
  · exact .inl (by decide)
  · exact .inl (by decide)
  · exact .inl (by decide)

lemma words_of_begins {k : Kind} (h : k.begins = true) : k ∈ words := by
  revert h
  cases k <;> decide

structure Joins (k : Kind) (s : Tree) : Prop where
  isNode : s.isNode = true
  kind : k.lists s.kind = true
  firm : Firm s
  fits : Fits k s.outline
  lexes : ∀ r, Stops r ∨ (∀ c ∈ s.text.getLast?, isWordPart c = false) → Lexes [s] r

variable {t : Text} {a : Address} {n : Nat} {k : Kind} {F P X S G M B Y V : List Tree}
  {uA uX uB : List Lexeme} {tree s c u : Tree} {l : Lexeme} {r lead close : Text}

lemma joins_of_bed (hclean : (ofText t).diagnostics = [])
    (hat : (ofText t).site.at? a = some ⟨n, .node k (F ++ (M ++ G))⟩) (hbed : Bed a k F M G)
    (hk : k = .enumDeclaration ∨ k = .classDeclaration) (hs : s ∈ M) (hnode : s.isNode = true) :
    Joins k s := by
  have hfirm : Firm s := firm_of_at? hclean hat s (by simp [hs])
  obtain ⟨o, hmem, ho, hne⟩ := mem_outline_of_node hs hnode
  refine ⟨hnode, ?_, hfirm, ?_, ?_⟩
  · rcases hbed.mem s hs with ⟨l, x, rfl, -⟩ | ⟨-, x, rfl⟩ | ⟨j, ps, rfl, hj⟩
    · cases hnode
    · cases hnode
    · exact hj
  · rw [ho]
    exact hbed.fits.single (faults_outlineAll M) hk hmem hne
  · intro r hr
    obtain ⟨P, S, rfl⟩ := append_of_mem hs
    have hat' : (ofText t).site.at? a = some ⟨n, .node k ((F ++ P) ++ ([s] ++ (S ++ G)))⟩ := by
      simpa using hat
    obtain ⟨uA, uX, uB, tree, h⟩ := exists_planted hat' []
    have hleaves := h.inside
    have htext := h.textAll_eq
    rw [leavesAll_singleton] at hleaves
    rw [textAll_singleton] at htext
    have hnone : ∀ u ∈ uX, u.fault = none := fun u hu => h.fault_none hclean (.inr (.inl hu))
    refine ⟨uX, h.inside, hnone, ?_⟩
    rw [h.textAll_eq]
    refine h.scans.2.1.reseal fun u hu => ?_
    obtain ⟨c, x, -, hscan⟩ := h.scans.2.1.exists_scan hu
    have hfault := hnone u (mem_of_getLast? hu)
    obtain ⟨m, hm, hends⟩ := hbed.ends
      (by rcases hk with rfl | rfl <;> exact ⟨Kind.noConfusion, Kind.noConfusion⟩) hs hnode hfirm
    obtain rfl : u.leaf = m := by
      have hlast := congrArg List.getLast? hleaves
      rw [getLast?_map, mem_def.1 hu, hm] at hlast
      exact some.inj hlast
    refine seals_of_settled (settled_of_ends hends) hfault fun hwordy =>
      hr.resolve_right fun hlast => ?_
    -- a word or a number ends with a part of a word
    obtain ⟨us, rfl⟩ := getLast?_eq_some_iff.1 hu
    have hend := getLast?_eq_some_getLast (h.scans.2.1.text_ne_nil u (by simp))
    rw [htext, Lexeme.spell_append, spell_singleton, getLast?_append, hend] at hlast
    have hpart := (scan_wordy hscan hfault hwordy).1 _ hend
    rw [hlast _ rfl] at hpart
    cases hpart

def separators (k : Kind) : List Tree := if k.hasCommas then [.token .comma [',']] else []

lemma outlineAll_separators (k : Kind) : outlineAll (separators k) = commas k := by
  unfold separators commas
  split <;> rfl

lemma lexes_comma (r : Text) : Lexes [.token .comma [',']] r := by
  refine ⟨[⟨.comma, [','], none⟩], rfl, fun l hl => ?_, scans_one.2 ⟨',', [], rfl, rfl, rfl⟩⟩
  obtain rfl := mem_singleton.1 hl
  rfl

lemma lexes_separators (k : Kind) (r : Text) : Lexes (separators k) r := by
  unfold separators
  split
  · exact lexes_comma r
  · exact lexes_nil r

lemma outlineAll_pad (x : Text) : outlineAll (pad x) = [] :=
  outlineAll_eq_nil fun _ hu => token_of_mem_pad hu

lemma stops_of_blank (hx : lead.Blank) (hne : lead ≠ []) (r : Text) : Stops (lead ++ r) := by
  obtain ⟨c, x, rfl⟩ := exists_cons_of_ne_nil hne
  rintro b hb
  obtain rfl : c = b := some.inj hb
  exact not_wordPart_of_blank (hx c mem_cons_self)

lemma stops_separators (k : Kind) (hx : lead.Blank) (hne : lead ≠ [])
    (r : Text) : Stops (textAll (separators k) ++ (lead ++ r)) := by
  unfold separators
  split
  · rintro b hb
    obtain rfl : ',' = b := some.inj hb
    decide
  · exact stops_of_blank hx hne r

structure Seat (t : Text) (a : Address) (n : Nat) (k : Kind) (s : Tree) where
  (opening before gap after closing front back : List Tree)
  (uA uX uB : List Lexeme)
  tree : Tree
  planted :
    Planted t a n k (opening ++ before) gap (after ++ closing) (front ++ s :: back) uA uX uB tree
  bed : Bed a k opening (before ++ (gap ++ after)) closing
  empty : count gap = 0
  plain : ∀ u ∈ front ++ back, u.isNode = false
  fits : Fits k (outlineAll (before ++ ((front ++ s :: back) ++ after)))
  comma : (outlineAll (before ++ ((front ++ s :: back) ++ after))).getLast? = some (.leaf .comma) ↔
    (outlineAll (before ++ (gap ++ after))).getLast? = some (.leaf .comma)
  apart : ∀ l ∈ uA.getLast?, l.Seals (textAll (front ++ s :: back) ++ spell uB)
  lexes : Lexes (front ++ s :: back) (spell uB)

namespace Seat

def list (p : Seat t a n k s) : Site :=
  ⟨n, .node k (p.opening ++ p.before ++ (p.gap ++ (p.after ++ p.closing)))⟩

def grown (p : Seat t a n k s) : Site :=
  ⟨n, .node k (p.opening ++ p.before ++ ((p.front ++ s :: p.back) ++ (p.after ++ p.closing)))⟩

lemma list_eq (p : Seat t a n k s) :
    p.list = ⟨n, .node k (p.opening ++ ((p.before ++ (p.gap ++ p.after)) ++ p.closing))⟩ := by
  simp [list]

lemma grown_eq (p : Seat t a n k s) : p.grown = ⟨n, .node k
      (p.opening ++ ((p.before ++ ((p.front ++ s :: p.back) ++ p.after)) ++ p.closing))⟩ := by
  simp [grown]

lemma bed_grown (p : Seat t a n k s) :
    Bed a k p.opening (p.before ++ ((p.front ++ s :: p.back) ++ p.after)) p.closing :=
  p.bed.replace p.fits

lemma filter_grown (p : Seat t a n k s) (hs : s.isNode = true) :
    (p.before ++ ((p.front ++ s :: p.back) ++ p.after)).filter isNode =
      p.before.filter isNode ++ s :: p.after.filter isNode := by
  have hfront : p.front.filter isNode = [] :=
    filter_eq_nil_iff.2 fun u hu => by simp [p.plain u (mem_append_left _ hu)]
  have hback : p.back.filter isNode = [] :=
    filter_eq_nil_iff.2 fun u hu => by simp [p.plain u (mem_append_right _ hu)]
  rw [filter_append, filter_append, filter_append, filter_cons_of_pos hs, hfront, hback]
  rfl

lemma filter_list (p : Seat t a n k s) : (p.before ++ (p.gap ++ p.after)).filter isNode =
      p.before.filter isNode ++ p.after.filter isNode := by
  have hgap : p.gap.filter isNode = [] := filter_eq_nil_iff.2 (countP_eq_zero.1 p.empty)
  rw [filter_append, filter_append, hgap, nil_append]

lemma parse (p : Seat t a n k s) (hs : Joins k s) (hclean : (ofText t).diagnostics = []) :
    (ofText (plant p.uA (p.front ++ s :: p.back) p.uB)).tree = p.tree ∧
      (ofText (plant p.uA (p.front ++ s :: p.back) p.uB)).diagnostics = [] := by
  refine p.planted.parse_bed p.bed hclean p.fits (fun u hu => ?_) p.apart p.lexes
  have hmem : u = s ∨ u ∈ p.front ++ p.back := by
    simp only [mem_append, mem_cons] at hu ⊢
    tauto
  rcases hmem with rfl | hu
  · exact hs.firm
  · have hplain := p.plain u hu
    cases u with
    | token l x => exact .token l x
    | node j ps => cases hplain

end Seat

lemma getLast?_append_cons {α : Type} (xs ys : List α) (x : α) :
    (xs ++ x :: ys).getLast? = some (ys.getLast?.getD x) := by
  rw [getLast?_append, getLast?_cons, some_or]

lemma ends_with_comma {o p : Outline} {A B C : List Outline} (ho : o ≠ .leaf .comma)
    (hp : p ≠ .leaf .comma) : (A ++ o :: C).getLast? = some (.leaf .comma) ↔
      (B ++ p :: C).getLast? = some (.leaf .comma) := by
  rw [getLast?_append_cons, getLast?_append_cons]
  cases C.getLast? with
  | none => exact ⟨fun h => absurd (some.inj h) ho, fun h => absurd (some.inj h) hp⟩
  | some b => exact .rfl

lemma Joins.exists_outline (hs : Joins k s) :
    ∃ o, s.outline = [o] ∧ o ≠ .leaf .comma ∧ Fits k [o] ∧ Outline.faultsAll [o] = [] := by
  obtain ⟨o, -, ho, hne⟩ := mem_outline_of_node (mem_singleton_self s) hs.isNode
  have hfits := hs.fits
  have hfaults := faults_outline s
  rw [ho] at hfits hfaults
  exact ⟨o, ho, hne, hfits, hfaults⟩

lemma Joins.lexes_cons (hs : Joins k s)
    (hnext : Stops (textAll V ++ r) ∨ ∀ c ∈ s.text.getLast?, isWordPart c = false)
    (hV : Lexes V r) : Lexes (s :: V) r :=
  (hs.lexes (textAll V ++ r) hnext).append hV

lemma Joins.nonblank (hs : Joins k s) (hlexes : Lexes (s :: V) r) :
    ∀ c ∈ (textAll (s :: V) ++ r).head?, Text.isBlank c = false :=
  nonblank_of_firm hs.firm hs.isNode hlexes

lemma plain_pad (hu : u ∈ pad lead) : u.isNode = false := by
  obtain ⟨j, z, rfl, -⟩ := token_of_mem_pad hu
  rfl

lemma plain_separators (hu : u ∈ separators k ++ pad lead) : u.isNode = false := by
  rcases mem_append.1 hu with hu | hu
  · unfold separators at hu
    split at hu
    · rw [mem_singleton.1 hu]
      rfl
    · exact absurd hu not_mem_nil
  · exact plain_pad hu

lemma exists_seat_between (hs : Joins k s) (hk : k = .enumDeclaration ∨ k = .classDeclaration)
    (hat : (ofText t).site.at? a = some ⟨n, .node k (F ++ (M ++ G))⟩) (hbed : Bed a k F M G)
    (hM : count M = 0) (hlead : lead.Blank) (hclose : close.Blank) (hne : close ≠ []) :
    ∃ p : Seat t a n k s, p.opening = F ∧ p.before = [] ∧ p.gap = M ∧ p.after = [] ∧ p.closing = G ∧
    p.front = pad lead ∧ p.back = pad close := by
  obtain ⟨H, x, y, rfl, rfl, -⟩ := hbed.braces hk
  have htrivia : outlineAll M = [] := by
    rw [← append_nil M] at hbed
    exact outlineAll_eq_nil (hbed.trivia_front hM)
  have hat' : (ofText t).site.at? a = some ⟨n, .node k ((H ++ [.token .leftCurly x] ++ []) ++
      (M ++ ([] ++ [.token .rightCurly y])))⟩ := by
    simpa using hat
  obtain ⟨uA, uX, uB, tree, h⟩ := exists_planted hat' (pad lead ++ s :: pad close)
  obtain ⟨b, rest, hnext, hb⟩ := h.exists_next (l := (.rightCurly, y)) rfl rfl
  obtain ⟨o, ho, hcomma, hfits, -⟩ := hs.exists_outline
  have houtline : outlineAll ([] ++ ((pad lead ++ s :: pad close) ++ [])) = [o] := by
    simp only [outlineAll_append, outlineAll, outlineAll_pad, ho, append_nil, nil_append]
  have hmember : Lexes (s :: pad close) (spell uB) := by
    refine hs.lexes_cons (.inl ?_) (lexes_pad hclose (.inr ?_))
    · rw [textAll_pad]
      exact stops_of_blank hclose hne _
    · intro c hc
      rw [hnext] at hc
      exact some.inj hc ▸ hb
  refine ⟨⟨H ++ [.token .leftCurly x], [], M, [], [.token .rightCurly y], pad lead, pad close,
    uA, uX, uB, tree, h, by simpa using hbed, hM, ?_, ?_, ?_, ?_, ?_⟩, rfl, rfl, rfl, rfl,
    rfl, rfl, rfl⟩
  · exact fun u hu => (mem_append.1 hu).elim plain_pad plain_pad
  · rw [houtline]
    exact hfits
  · rw [houtline, nil_append, append_nil, htrivia]
    exact ⟨fun h => absurd (some.inj h) hcomma, fun h => by cases h⟩
  · intro l hl
    obtain ⟨l', hl', hleaf⟩ := h.exists_last (l := (.leftCurly, x)) (by
      rw [append_nil]
      exact leavesAll_concat H .leftCurly x)
    obtain rfl : l = l' := mem_unique hl hl'
    exact seals_of_brace (congrArg Prod.fst hleaf) _
  · exact (lexes_pad hlead (.inr (hs.nonblank hmember))).append hmember

lemma exists_seat_comma (hs : Joins .enumDeclaration s) (hat : (ofText t).site.at? a =
      some ⟨n, .node .enumDeclaration (F ++ ((P ++ .token .comma r :: S) ++ G))⟩)
    (hbed : Bed a .enumDeclaration F (P ++ .token .comma r :: S) G) (hlead : lead.Blank) :
    ∃ p : Seat t a n .enumDeclaration s, p.opening = F ∧ p.before = P ++ [.token .comma r] ∧
    p.gap = [] ∧ p.after = S ∧ p.closing = G ∧ p.front = pad lead ∧
    p.back = separators .enumDeclaration := by
  have hsplit : F ++ ((P ++ .token .comma r :: S) ++ G) =
      (F ++ (P ++ [.token .comma r])) ++ ([] ++ (S ++ G)) := by simp
  rw [hsplit] at hat
  obtain ⟨uA, uX, uB, tree, h⟩ := exists_planted hat (pad lead ++ s :: separators .enumDeclaration)
  obtain ⟨o, ho, -, hfits, -⟩ := hs.exists_outline
  have hregroup : P ++ [.token .comma r] ++ ([] ++ S) = P ++ .token .comma r :: S := by simp
  have hold :
      outlineAll (P ++ .token .comma r :: S) = outlineAll P ++ .leaf .comma :: outlineAll S := by
    rw [outlineAll_append]
    rfl
  have houtline :
      outlineAll (P ++ [.token .comma r] ++ ((pad lead ++ s :: separators .enumDeclaration) ++ S)) =
      outlineAll P ++ .leaf .comma :: o :: .leaf .comma :: outlineAll S := by
    simp only [outlineAll_append, outlineAll, outlineAll_pad, outlineAll_separators, ho,
      append_assoc, nil_append, append_nil]
    rfl
  have hmember : Lexes (s :: separators .enumDeclaration) (spell uB) := by
    refine hs.lexes_cons (.inl ?_) (lexes_separators _ _)
    rintro b hb
    obtain rfl : ',' = b := some.inj hb
    decide
  refine ⟨⟨F, P ++ [.token .comma r],
    [], S, G, pad lead, separators .enumDeclaration, uA, uX, uB, tree, h, hregroup ▸ hbed, rfl, ?_,
    ?_, ?_, ?_, (lexes_pad hlead (.inr (hs.nonblank hmember))).append hmember⟩, rfl, rfl, rfl, rfl,
    rfl, rfl, rfl⟩
  · intro u hu
    rcases mem_append.1 hu with hu | hu
    · exact plain_pad hu
    · exact plain_separators (mem_append_left (pad []) hu)
  · rw [houtline]
    have hrow := hbed.fits
    rw [hold] at hrow
    exact hrow.insert_behind_comma hfits
  · rw [houtline, hregroup, hold]
    have hregroup : outlineAll P ++ .leaf .comma :: o :: .leaf .comma :: outlineAll S =
        (outlineAll P ++ [.leaf .comma, o]) ++ .leaf .comma :: outlineAll S := by simp
    rw [hregroup, getLast?_append_cons, getLast?_append_cons]
  · intro l hl
    obtain ⟨l', hl', hleaf⟩ := h.exists_last (l := (.comma, r)) (by
      rw [← append_assoc]
      exact leavesAll_concat (F ++ P) .comma r)
    obtain rfl : l = l' := mem_unique hl hl'
    have hkind : l.kind = .comma := congrArg Prod.fst hleaf
    exact seals_of_mark (by rw [hkind]; decide) _

lemma outlineAll_after (hbed : Bed a .enumDeclaration F (P ++ c :: S) G) (hnode : c.isNode = true)
    (hS : ∀ ps, outlineAll S ≠ .leaf .comma :: ps) : outlineAll S = [] := by
  obtain ⟨q, -, hq, hcomma⟩ := mem_outline_of_node (mem_singleton_self c) hnode
  have hrow := hbed.fits
  rw [outlineAll_append, outlineAll, hq] at hrow
  obtain ⟨-, -, -, hnil | ⟨ps, heq, -⟩⟩ :=
    Outline.Row.split (fun _ item => item.ne_comma) hrow hcomma
  · exact hnil
  · exact absurd heq (hS ps)

lemma Planted.stops_next {m : Kind × Text} (h : Planted t a n k A X B Y uA uX uB tree)
    (hclean : (ofText t).diagnostics = []) (hm : (leavesAll B).head? = some m)
    (hk : m.1.isTrivia = true ∨ m.1 ∈ marks) : Stops (spell uB) := by
  obtain ⟨u, c, rest, hu, rfl, hspell, hscan⟩ := h.exists_first hm
  have hfault := h.fault_none hclean (.inr (.inr (mem_of_mem_head? hu)))
  rw [hspell]
  intro b hb
  obtain rfl : c = b := some.inj hb
  exact stops_of_scan (Prod.ext hscan rfl) hk

lemma Planted.stops_behind (h : Planted t a n k A X (S ++ G) Y uA uX uB tree)
    (hbed : Bed a k F (P ++ c :: S) G) (hk : k = .enumDeclaration ∨ k = .classDeclaration)
    (hclean : (ofText t).diagnostics = []) (hfirm : ∀ u ∈ S, Firm u) (hnode : c.isNode = true)
    (hS : ∀ ps, outlineAll S ≠ .leaf .comma :: ps) :
    Stops (spell uB) ∨ (k = .classDeclaration ∧ ∃ b ∈ (spell uB).head?, isWordPart b = true) := by
  obtain ⟨H, x, y, rfl, rfl, -⟩ := hbed.braces hk
  cases S with
  | nil => exact .inl (h.stops_next hclean (m := (.rightCurly, y)) rfl
    (.inr (show Kind.rightCurly ∈ marks by decide)))
  | cons u S =>
    have hmem : u ∈ P ++ c :: u :: S := by simp
    rcases hbed.mem u hmem with ⟨j, z, rfl, hj⟩ | ⟨-, z, rfl⟩ | ⟨j, ps, rfl, -⟩
    · exact .inl (h.stops_next hclean (m := (j, z)) rfl (.inl hj))
    · exact .inl
        (h.stops_next hclean (m := (.comma, z)) rfl (.inr (show Kind.comma ∈ marks by decide)))
    · rcases hk with rfl | rfl
      · have hnil := outlineAll_after hbed hnode hS
        cases hnil
      · obtain ⟨m, hm, hbegins⟩ := hbed.begins (.inl rfl) hmem rfl (hfirm _ mem_cons_self)
        have hhead : (leavesAll (.node j ps :: S ++ [.token .rightCurly y])).head? = some m := by
          rw [cons_append, leavesAll, head?_append, hm]
          rfl
        obtain ⟨u, b, rest, -, rfl, hspell, hscan⟩ := h.exists_first hhead
        refine .inr ⟨rfl, b, by rw [hspell]; rfl, isWordPart_of_start ?_⟩
        exact isWordStart_of_scan (Prod.ext hscan rfl) (words_of_begins hbegins)

section

variable (hs : Joins k s) (hk : k = .enumDeclaration ∨ k = .classDeclaration)
  (hclean : (ofText t).diagnostics = [])
  (hat : (ofText t).site.at? a = some ⟨n, .node k (F ++ ((P ++ c :: S) ++ G))⟩)
  (hbed : Bed a k F (P ++ c :: S) G)
include hs hk hclean hat hbed

lemma exists_seat_front (hP : count P = 0) (hnode : c.isNode = true) (hlead : lead.Blank)
    (hne : lead ≠ []) : ∃ p : Seat t a n k s, p.opening = F ∧ p.before = P ∧ p.gap = [] ∧
    p.after = c :: S ∧ p.closing = G ∧ p.front = [] ∧ p.back = separators k ++ pad lead := by
  have hfirm : Firm c := firm_of_at? hclean hat c (by simp)
  obtain ⟨H, x, y, rfl, rfl, -⟩ := hbed.braces hk
  have hsplit : H ++ [.token .leftCurly x] ++ ((P ++ c :: S) ++ [.token .rightCurly y]) =
      (H ++ [.token .leftCurly x] ++ P) ++ ([] ++ ((c :: S) ++ [.token .rightCurly y])) := by simp
  rw [hsplit] at hat
  obtain ⟨uA, uX, uB, tree, h⟩ := exists_planted hat ([] ++ s :: (separators k ++ pad lead))
  have htrivia := hbed.trivia_front hP
  -- What came next was a member, and what comes next is one: both begin with no white space.
  obtain ⟨b, rest, hnext, hb⟩ : ∃ c r, spell uB = c :: r ∧ Text.isBlank c = false := by
    obtain ⟨m, hm, hheavy⟩ := StartsHeavy.of_firm hfirm hnode
    refine h.exists_next (l := m) ?_ hheavy.1
    rw [cons_append, leavesAll, head?_append, mem_def.1 hm]
    rfl
  obtain ⟨o, ho, -, hfits, hfaults⟩ := hs.exists_outline
  obtain ⟨q, -, hq, hcomma⟩ := mem_outline_of_node (mem_singleton_self c) hnode
  have hold : outlineAll (P ++ c :: S) = q :: outlineAll S := by
    rw [outlineAll_append, outlineAll_eq_nil htrivia, outlineAll, hq]
    rfl
  have houtline : outlineAll (P ++ (([] ++ s :: (separators k ++ pad lead)) ++ c :: S)) =
      o :: (commas k ++ q :: outlineAll S) := by
    simp only [outlineAll_append, outlineAll, outlineAll_pad, outlineAll_separators,
      outlineAll_eq_nil htrivia, ho, hq, nil_append, append_assoc, cons_append]
  have hmember : Lexes (s :: (separators k ++ pad lead)) (spell uB) := by
    refine hs.lexes_cons (.inl ?_) ((lexes_separators k _).append (lexes_pad hlead (.inr ?_)))
    · rw [textAll_append, textAll_pad, append_assoc]
      exact stops_separators k hlead hne _
    · intro c' hc'
      rw [hnext] at hc'
      exact some.inj hc' ▸ hb
  refine ⟨⟨H ++ [.token .leftCurly x], P, [], c :: S, [.token .rightCurly y], [], separators k ++
    pad lead, uA, uX, uB, tree, h, hbed, rfl, fun u hu => plain_separators hu, ?_, ?_, ?_, hmember⟩,
    rfl, rfl, rfl, rfl, rfl, rfl, rfl⟩
  · rw [houtline, ← hold]
    exact hbed.fits.insert_front (faults_outlineAll _) hk hfits hfaults
  · rw [houtline, nil_append, hold]
    exact ends_with_comma (A := o :: commas k) (B := []) hcomma hcomma
  · intro l hl
    have hleaves :
        leavesAll (H ++ [.token .leftCurly x]) ≠ [] := by simp [leavesAll_append, leavesAll, leaves]
    rcases h.last_before (.inr hleaves) htrivia hl with hlast | ⟨htrivial, -⟩
    · rw [leavesAll_concat] at hlast
      exact seals_of_brace (congrArg Prod.fst (some.inj hlast)).symm _
    · have hseals := h.seals_trivia hclean hl htrivial
      rw [hnext] at hseals
      exact hseals.of_nonblank htrivial hb (hs.nonblank hmember)

/-- Behind a member without a comma after it. In a class the next member must not be right there, if
the new one ends with a word. -/
lemma exists_seat_behind (hnode : c.isNode = true)
    (hS : ∀ ps, outlineAll S ≠ .leaf .comma :: ps) (hlead : lead.Blank) (hne : lead ≠ [])
    (hapart : k = .classDeclaration → ∀ x y, t = x ++ y → x.size = n + sizeAll (F ++ (P ++ [c])) →
      (∀ b ∈ y.head?, isWordPart b = false) ∨ ∀ b ∈ s.text.getLast?, isWordPart b = false) :
    ∃ p : Seat t a n k s, p.opening = F ∧ p.before = P ++ [c] ∧ p.gap = [] ∧ p.after = S ∧
    p.closing = G ∧ p.front = separators k ++ pad lead ∧ p.back = [] := by
  have hfirms := firm_of_at? hclean hat
  have hsplit : F ++ ((P ++ c :: S) ++ G) = (F ++ (P ++ [c])) ++ ([] ++ (S ++ G)) := by simp
  rw [hsplit] at hat
  obtain ⟨uA, uX, uB, tree, h⟩ := exists_planted hat ((separators k ++ pad lead) ++ [s])
  obtain ⟨o, ho, hcomma, hfits, hfaults⟩ := hs.exists_outline
  obtain ⟨q, -, hq, hcomma'⟩ := mem_outline_of_node (mem_singleton_self c) hnode
  have hregroup : P ++ [c] ++ ([] ++ S) = P ++ c :: S := by simp
  have hold : outlineAll (P ++ c :: S) = outlineAll P ++ q :: outlineAll S := by
    rw [outlineAll_append, outlineAll, hq]
    rfl
  have houtline : outlineAll (P ++ [c] ++ ((separators k ++ pad lead ++ [s]) ++ S)) =
      outlineAll P ++ q :: (commas k ++ o :: outlineAll S) := by
    simp only [outlineAll_append, outlineAll, outlineAll_pad, outlineAll_separators, ho, hq,
      append_assoc, nil_append, cons_append]
  have hmember : Lexes [s] (spell uB) := by
    refine hs.lexes _ ?_
    rcases h.stops_behind hbed hk hclean (fun u hu => hfirms u (by simp [hu])) hnode hS with
      hstops | ⟨hclass, b, hb, hpart⟩
    · exact .inl hstops
    · refine .inr ((hapart hclass _ _ h.text h.place).resolve_left fun hnext => ?_)
      rw [hnext b hb] at hpart
      cases hpart
  refine ⟨⟨F, P ++ [c], [], S, G, separators k ++ pad lead, [], uA, uX, uB, tree,
    h, hregroup ▸ hbed, rfl, fun u hu => plain_separators (by simpa using hu), ?_, ?_, ?_, ?_⟩, rfl,
    rfl, rfl, rfl, rfl, rfl, rfl⟩
  · rw [houtline]
    have hlist := hbed.fits
    have hfaultless := faults_outlineAll (P ++ c :: S)
    rw [hold] at hlist hfaultless
    exact hlist.insert_behind hfaultless hk hfits hfaults hcomma' hS
  · rw [houtline, hregroup, hold]
    have hlast := ends_with_comma (A := outlineAll P ++ q :: commas k) (B := outlineAll P)
      (C := outlineAll S) hcomma hcomma'
    simpa using hlast
  · intro l hl
    obtain ⟨m, hm, hends⟩ := hbed.ends
      (by rcases hk with rfl | rfl <;> exact ⟨Kind.noConfusion, Kind.noConfusion⟩)
      (t := c) (by simp) hnode (hfirms c (by simp))
    obtain ⟨l', hl', rfl⟩ := h.exists_last (l := m) (by
      rw [← append_assoc, leavesAll_append, leavesAll_singleton, getLast?_append, hm]
      rfl)
    obtain rfl : l = l' := mem_unique hl hl'
    refine seals_of_settled (settled_of_ends hends)
      (h.fault_none hclean (.inl (mem_of_getLast? hl))) fun _ => ?_
    rw [textAll_append, textAll_append, textAll_pad, append_assoc, append_assoc]
    exact stops_separators k hlead hne _
  · refine ((lexes_separators k _).append (lexes_pad hlead (.inr ?_))).append hmember
    exact hs.nonblank hmember

end

end LiveEdit.Parse
