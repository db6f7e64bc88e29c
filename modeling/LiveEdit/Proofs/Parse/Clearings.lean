import LiveEdit.Proofs.Parse.Seats
import LiveEdit.Proofs.Text.Trimming

/-! Taking something out of a list, with some of the white space on both sides. -/

namespace LiveEdit
open List Option

namespace Tree
open Grammar Lexeme

variable {a : Address} {k o c : Kind} {F P S G : List Tree} {m : Kind × Text}

lemma Bed.last_leaf (h : Bed a k F (P ++ S) G) (hfirm : ∀ u ∈ P, Firm u)
    (hm : (leavesAll (F ++ P)).getLast? = some m) : (∃ P', P = P' ++ [.token m.1 m.2]) ∨
    (∃ P' u, P = P' ++ [u] ∧ u.isNode = true ∧ Heavy m ∧ u.leaves.getLast? = some m) ∨
    (P = [] ∧ ∃ c, Brackets k m.1 c) := by
  rcases eq_nil_or_concat P with rfl | ⟨P, u, rfl⟩
  · cases h with
    | file => cases hm
    | list x y port contains =>
      rw [append_nil, Parse.leavesAll_concat] at hm
      obtain rfl := some.inj hm
      exact .inr (.inr ⟨rfl, _, contains.brackets⟩)
  · rw [concat_eq_append] at hfirm hm ⊢
    cases u with
    | token j x =>
      rw [← append_assoc, Parse.leavesAll_concat] at hm
      obtain rfl := some.inj hm
      exact .inl ⟨P, rfl⟩
    | node j ps =>
      cases hfirm (.node j ps) (by simp) with
      | node _ ends _ =>
        obtain ⟨l, hl, hheavy⟩ := ends
        rw [← append_assoc, leavesAll_append, leavesAll_singleton, leaves, getLast?_append,
          mem_def.1 hl, some_or] at hm
        obtain rfl := some.inj hm
        exact .inr (.inl ⟨P, _, rfl, rfl, hheavy, hl⟩)

lemma Bed.first_leaf (h : Bed a k F (P ++ S) G) (hfirm : ∀ u ∈ S, Firm u)
    (hm : (leavesAll (S ++ G)).head? = some m) (htrivia : m.1.isTrivia = true) :
    ∃ S', S = .token m.1 m.2 :: S' := by
  have hnot : m.1.isTrivia ≠ false := fun hfalse => Bool.false_ne_true (hfalse.symm.trans htrivia)
  cases S with
  | nil =>
    cases h with
    | file => cases hm
    | list x y port contains =>
      obtain rfl := some.inj hm
      exact absurd contains.brackets.not_trivia.2 hnot
  | cons u S =>
    cases u with
    | token j x =>
      obtain rfl := some.inj hm
      exact ⟨S, rfl⟩
    | node j ps =>
      cases hfirm (.node j ps) mem_cons_self with
      | node starts _ _ =>
        obtain ⟨l, hl, hheavy⟩ := starts
        rw [cons_append, leavesAll, leaves, head?_append, mem_def.1 hl, some_or] at hm
        obtain rfl := some.inj hm
        exact absurd hheavy.1 hnot

lemma settled_of_brackets (h : Brackets k o c) : Lexeme.Settled o := by
  cases h with
  | declarations keyword =>
    simp only [Phrase.isVariableKeyword, Bool.or_eq_true, decide_eq_true_eq] at keyword
    refine .inr (.inr (.inl ?_))
    rcases keyword with (rfl | rfl) | rfl <;> decide
  | _ => exact .inl (by decide)

lemma mark_of_brackets (h : Brackets k o c) : c ∈ marks := by
  cases h <;> decide

lemma mark_of_closes (h : k.closes = true) : k ∈ marks := by
  simp only [Kind.closes, Bool.or_eq_true, beq_iff_eq] at h
  rcases h with rfl | rfl <;> decide

lemma outlineAll_concat (P : List Tree) (u : Tree) :
    outlineAll (P ++ [u]) = outlineAll P ++ u.outline := by
  rw [outlineAll_append, outlineAll, outlineAll, append_nil]

lemma closes_of_closed {u : Tree}
    (hfirm : Firm u) (hnode : u.isNode = true) (hlast : u.leaves.getLast? = some m)
    (hclosed : outlineAll (P ++ [u]) = [] ∨ Outline.Closed (outlineAll (P ++ [u]))) :
    m.1.closes = true := by
  obtain ⟨-, l, -, hl, -, hend⟩ := exists_edges hfirm hnode
  obtain rfl : l = m := mem_unique hl hlast
  rw [outlineAll_concat] at hclosed
  rcases hclosed with hnil | ⟨j, hj, hcloses⟩
  · rw [(append_eq_nil_iff.1 hnil).2] at hend
    cases hend
  · rw [Outline.leavesAll_append, getLast?_append, hend, some_or] at hj
    rwa [some.inj hj]

lemma Bed.settled (h : Bed a k F (P ++ S) G) (hfirm : ∀ u ∈ P, Firm u)
    (hclosed : k = .sourceFile ∨ k = .block → outlineAll P = [] ∨ Outline.Closed (outlineAll P))
    (hm : (leavesAll (F ++ P)).getLast? = some m) : m.1.isTrivia = true ∨ Lexeme.Settled m.1 := by
  rcases h.last_leaf hfirm hm with ⟨P, rfl⟩ | ⟨P, u, rfl, hnode, hheavy, hlast⟩ | ⟨-, c, hbrackets⟩
  · rcases h.mem (.token m.1 m.2) (by simp) with ⟨j, x, heq, hj⟩ | ⟨-, x, heq⟩ | ⟨j, ps, heq, -⟩
    · rw [(Tree.token.inj heq).1]
      exact .inl hj
    · rw [(Tree.token.inj heq).1]
      exact .inr (.inl (by decide))
    · cases heq
  · refine .inr ?_
    have hu : u ∈ P ++ [u] := by simp
    by_cases hk : k = .sourceFile ∨ k = .block
    · exact .inl (mark_of_closes (closes_of_closed (hfirm u hu) hnode hlast (hclosed hk)))
    · rw [not_or] at hk
      obtain ⟨l, hl, hends⟩ := h.ends hk (mem_append_left S hu) hnode (hfirm u hu)
      obtain rfl : l = m := mem_unique hl hlast
      exact Parse.settled_of_ends hends
  · exact .inr (settled_of_brackets hbrackets)

lemma Bed.kind {M : List Tree} (h : Bed a k F M G) :
    (k = .sourceFile ∨ k = .block) ∨ k = .classDeclaration ∨ k.hasCommas = true := by
  cases h with
  | file => exact .inl (.inl rfl)
  | list x y port contains =>
    cases contains.brackets with
    | block => exact .inl (.inr rfl)
    | members => exact .inr (.inl rfl)
    | enumMembers | parameters | arguments | declarations => exact .inr (.inr rfl)

lemma not_wordy_of_mark (h : k ∈ marks) : ¬ isWordy k := by
  rintro (hword | rfl)
  · exact (not_special_of_word hword).2 h
  · exact absurd h (by decide)

lemma not_wordy_of_trivia (h : k.isTrivia = true) : ¬ isWordy k := by
  rintro (hword | rfl)
  · rw [not_trivia_of_word hword] at h
    cases h
  · cases h

lemma Bed.wordy (h : Bed a k F (P ++ S) G) (hfirm : ∀ u ∈ P, Firm u)
    (hclosed : k = .sourceFile ∨ k = .block → outlineAll P = [] ∨ Outline.Closed (outlineAll P))
    (hready : k.hasCommas = true → Outline.Ready (outlineAll P))
    (hm : (leavesAll (F ++ P)).getLast? = some m) (hwordy : isWordy m.1) :
    k = .classDeclaration ∨ k = .variableStatement := by
  rcases h.last_leaf hfirm hm with ⟨P, rfl⟩ | ⟨P, u, rfl, hnode, -, hlast⟩ | ⟨-, c, hbrackets⟩
  · rcases h.mem (.token m.1 m.2) (by simp) with ⟨j, x, heq, hj⟩ | ⟨-, x, heq⟩ | ⟨j, ps, heq, -⟩
    · rw [(Tree.token.inj heq).1] at hwordy
      exact absurd hwordy (not_wordy_of_trivia hj)
    · rw [(Tree.token.inj heq).1] at hwordy
      exact absurd hwordy (not_wordy_of_mark (by decide))
    · cases heq
  · rcases h.kind with hk | hk | hk
    · have hcloses := closes_of_closed (hfirm u (by simp)) hnode hlast (hclosed hk)
      exact absurd hwordy (not_wordy_of_mark (mark_of_closes hcloses))
    · exact .inl hk
    · -- Before an item of a list with commas comes a comma or none.
      obtain ⟨o, -, ho, hcomma⟩ := mem_outline_of_node (mem_singleton_self u) hnode
      have hend := hready hk
      rw [outlineAll_concat, ho] at hend
      rcases hend with hnil | ⟨ps, heq⟩
      · cases (append_eq_nil_iff.1 hnil).2
      · exact absurd (append_inj' heq rfl).2 fun hone => hcomma (cons.inj hone).1
  · generalize m.1 = o at hwordy hbrackets
    cases hbrackets with
    | declarations => exact .inr rfl
    | _ => exact absurd hwordy (not_wordy_of_mark (by decide))

end Tree

namespace Parse
open LiveEdit.Tree Lexeme Grammar

variable {t : Text} {a : Address} {n : Nat} {k : Kind} {A X B Y F P C S G M V ts : List Tree}
  {uA uX uB : List Lexeme} {tree s c : Tree} {l : Lexeme} {x w r : Text} {trim : Trim}

lemma eq_nil_of_spell {ls : List (Kind × Text)} (h : (Tree.spell ls).size = 0)
    (hne : ∀ m ∈ ls, m.2 ≠ []) : ls = [] := by
  cases ls with
  | nil => rfl
  | cons m ls =>
    have hpos := spell_pos (mem_cons_self (a := m) (l := ls)) (hne m mem_cons_self)
    exact absurd h hpos.ne'

namespace Planted

lemma last_leaf (h : Planted t a n k A X B Y uA uX uB tree) (hA : a = [] ∨ leavesAll A ≠ [])
    (hl : uA.getLast? = some l) : (leavesAll A).getLast? = some l.leaf := by
  obtain ⟨L, hL, hsize⟩ := h.before
  have hlast : (L ++ leavesAll A).getLast? = some l.leaf := by
    rw [← hL, getLast?_map, hl]
    rfl
  rcases hA with rfl | hne
  · -- nothing stands before the root
    obtain rfl : n = 0 := h.replaced.root.2.2
    have hnil : L = [] := eq_nil_of_spell hsize fun m hm => by
      obtain ⟨u, hu, rfl⟩ := mem_map.1 (hL ▸ mem_append_left _ hm : m ∈ uA.map Lexeme.leaf)
      exact h.scans.1.text_ne_nil u hu
    rwa [hnil] at hlast
  · rwa [getLast?_append_of_ne_nil _ hne] at hlast

lemma first_leaf (h : Planted t a n k A X B Y uA uX uB tree) (hB : a = [] ∨ leavesAll B ≠ [])
    (hl : uB.head? = some l) : (leavesAll B).head? = some l.leaf := by
  obtain ⟨R, hR⟩ := h.after
  have hhead : (leavesAll B ++ R).head? = some l.leaf := by
    rw [← hR, head?_map, hl]
    rfl
  rcases hB with rfl | hne
  · -- nothing stands behind the root
    have hsize : (Tree.spell R).size = 0 := by
      obtain ⟨hroot, -, rfl⟩ := h.replaced.root
      have hall := congrArg Text.size (congrArg Tree.text hroot)
      have hparts := congrArg Text.size h.text
      have hplace := h.place
      rw [text_ofText, ← size_eq_text] at hall
      rw [← Lexeme.spell_leaves uB, hR, Tree.spell_append] at hparts
      simp only [Text.size_append, ← sizeAll_eq_text, ← sizeAll_eq_spell] at hparts
      simp only [size, sizeAll_append] at hall
      omega
    have hnil : R = [] := eq_nil_of_spell hsize fun m hm => by
      obtain ⟨u, hu, rfl⟩ := mem_map.1 (hR ▸ mem_append_right _ hm : m ∈ uB.map Lexeme.leaf)
      exact h.scans.2.2.text_ne_nil u hu
    rwa [hnil, append_nil] at hhead
  · obtain ⟨m, ms, hms⟩ := exists_cons_of_ne_nil hne
    rw [hms] at hhead ⊢
    exact hhead

end Planted

lemma Planted.exists_inside {m : Kind × Text} (h : Planted t a n k A X B Y uA uX uB tree)
    (hm : (leavesAll X).head? = some m) :
    ∃ u c r, u ∈ uX ∧ u.leaf = m ∧ textAll X ++ spell uB = c :: r ∧ (scan c r).1 = u := by
  have hhead := congrArg head? h.inside
  rw [head?_map, hm] at hhead
  obtain ⟨u, hu, rfl⟩ := map_eq_some_iff.1 hhead
  obtain ⟨us, rfl⟩ := List.head?_eq_some_iff.1 hu
  have hscans := h.scans.2.1
  generalize textAll X ++ spell uB = r at hscans ⊢
  cases hscans with
  | next more => exact ⟨_, _, _, mem_cons_self, rfl, rfl, rfl⟩

lemma getLast?_spell {us : List Lexeme} (hl : us.getLast? = some l) (hne : l.text ≠ []) :
    (spell us).getLast? = l.text.getLast? := by
  obtain ⟨vs, rfl⟩ := getLast?_eq_some_iff.1 hl
  rw [Lexeme.spell_append, spell_singleton, getLast?_append_of_ne_nil _ hne]

lemma blank_of_token (hclean : (ofText t).diagnostics = [])
    (hat : (ofText t).site.at? a = some ⟨n, .node k ts⟩) (hx : .token .whitespace x ∈ ts) :
    x ≠ [] ∧ x.Blank := by
  obtain ⟨A, B, rfl⟩ := append_of_mem hx
  obtain ⟨uA, uX, uB, tree, h⟩ := exists_planted (X := [.token .whitespace x]) hat []
  obtain ⟨u, rfl, hu⟩ : ∃ u, uX = [u] ∧ u.leaf = (.whitespace, x) := map_eq_singleton_iff.1 h.inside
  obtain rfl : u.text = x := congrArg Prod.snd hu
  have hfault := h.fault_none hclean (.inr (.inl (mem_singleton_self u)))
  exact ⟨h.scans.2.1.text_ne_nil u (mem_singleton_self u),
    h.scans.2.1.blank rfl hfault (congrArg Prod.fst hu)⟩

lemma pad_of_ne_nil (hw : w ≠ []) : pad w = [.token .whitespace w] := by
  cases w with
  | nil => exact absurd rfl hw
  | cons c w => rfl

lemma exists_pad_end (P : List Tree) (hP : ∀ x, .token .whitespace x ∈ P → x ≠ []) :
    ∃ P₀ w, P = P₀ ++ pad w ∧ (w = [] → ∀ x P', P ≠ P' ++ [.token .whitespace x]) := by
  by_cases h : ∃ x P', P = P' ++ [.token .whitespace x]
  · obtain ⟨x, P', rfl⟩ := h
    have hx := hP x (by simp)
    exact ⟨P', x, by rw [pad_of_ne_nil hx], fun hnil => absurd hnil hx⟩
  · exact ⟨P, [], (append_nil P).symm, fun _ x P' hxP => h ⟨x, P', hxP⟩⟩

lemma exists_pad_front (S : List Tree) (hS : ∀ x, .token .whitespace x ∈ S → x ≠ []) :
    ∃ w S₀, S = pad w ++ S₀ ∧ (w = [] → ∀ x S', S ≠ .token .whitespace x :: S') := by
  by_cases h : ∃ x S', S = .token .whitespace x :: S'
  · obtain ⟨x, S', rfl⟩ := h
    have hx := hS x (by simp)
    exact ⟨x, S', by rw [pad_of_ne_nil hx]; rfl, fun hnil => absurd hnil hx⟩
  · exact ⟨[], S, rfl, fun _ x S' hxS => h ⟨x, S', hxS⟩⟩

lemma Planted.last_not_whitespace (h : Planted t a n k (F ++ P) (pad w ++ X) B Y uA uX uB tree)
    (hclean : (ofText t).diagnostics = []) (hbed : Bed a k F (P ++ S) G) (hfirm : ∀ u ∈ P, Firm u)
    (hw : w.Blank) (hend : w = [] → ∀ x P', P ≠ P' ++ [.token .whitespace x])
    (hl : uA.getLast? = some l) : l.kind ≠ .whitespace := by
  intro hkind
  have htrivia : l.leaf.1.isTrivia = true := by
    change l.kind.isTrivia = true
    rw [hkind]
    rfl
  have hnot : l.leaf.1.isTrivia ≠ false :=
    fun hfalse => Bool.false_ne_true (hfalse.symm.trans htrivia)
  by_cases hnil : w = []
  · have hleaf := h.last_leaf ((Planted.leaves_bed hbed P S).imp_right (·.1)) hl
    rcases hbed.last_leaf hfirm hleaf with ⟨P', hP⟩ | ⟨-, -, -, -, hheavy, -⟩ | ⟨-, c, hbrackets⟩
    · rw [show l.leaf.1 = .whitespace from hkind] at hP
      exact hend hnil _ _ hP
    · exact hnot hheavy.1
    · exact hnot hbrackets.not_trivia.1
  · have hseals := h.seals_trivia hclean hl htrivia
    obtain ⟨b, w, rfl⟩ := exists_cons_of_ne_nil hnil
    have hblank := hseals.nonblank hkind b (by rw [textAll_append, textAll_pad]; rfl)
    rw [hw b mem_cons_self] at hblank
    cases hblank

lemma Planted.next_not_blank (h : Planted t a n k A (X ++ pad w) (S ++ G) Y uA uX uB tree)
    (hclean : (ofText t).diagnostics = []) (hbed : Bed a k F (P ++ S) G)
    (hfirm : ∀ u ∈ S, Firm u) (hend : w = [] → ∀ x S', S ≠ .token .whitespace x :: S') :
    ∀ c ∈ (spell uB).head?, Text.isBlank c = false := by
  by_cases hnil : w = []
  · cases uB with
    | nil => exact fun c hc => absurd hc (not_mem_none c)
    | cons u uB =>
      have hleaf := h.first_leaf ((Planted.leaves_bed hbed P S).imp_right (·.2)) rfl
      have hkind : u.kind ≠ .whitespace := by
        intro hkind
        obtain ⟨S', hS⟩ :=
          hbed.first_leaf hfirm hleaf (by rw [show u.leaf.1 = .whitespace from hkind]; rfl)
        rw [show u.leaf.1 = .whitespace from hkind] at hS
        exact hend hnil _ _ hS
      obtain ⟨v, c, r, hv, -, hspell, hscan⟩ := h.exists_first hleaf
      obtain rfl : u = v := some.inj hv
      rw [hspell]
      intro b hb
      obtain rfl : c = b := some.inj hb
      exact not_blank_of_kind (Prod.ext hscan rfl) hkind
  · have hlast := congrArg List.getLast? h.inside
    rw [pad_of_ne_nil hnil, leavesAll_concat, getLast?_map] at hlast
    obtain ⟨u, hu, hleaf⟩ := map_eq_some_iff.1 hlast
    have hkind : u.kind = .whitespace := congrArg Prod.fst hleaf
    obtain ⟨c, x, -, hscan⟩ := h.scans.2.1.exists_scan hu
    have hfault := h.fault_none hclean (.inr (.inl (mem_of_getLast? hu)))
    exact (seals_of_trivia hscan (by rw [hkind]; rfl) hfault).nonblank hkind

/-- A part of the list at an address, with the white space right before it and right behind it, of
which some is trimmed. -/
structure Clearing (t : Text) (a : Address) (n : Nat) (k : Kind) (C : List Tree) (trim : Trim) where
  (opening before after closing : List Tree)
  (left right : Text)
  (uA uX uB : List Lexeme)
  tree : Tree
  planted : Planted t a n k (opening ++ before) (pad left ++ (C ++ pad right)) (after ++ closing)
    (pad (trim.front left ++ trim.back right)) uA uX uB tree
  bed : Bed a k opening (before ++ ((pad left ++ (C ++ pad right)) ++ after)) closing
  blank : ∀ c ∈ left ++ right, Text.isBlank c = true
  last : ∀ l ∈ uA.getLast?, l.kind ≠ .whitespace
  next : ∀ c ∈ (spell uB).head?, Text.isBlank c = false

lemma exists_clearing (hclean : (ofText t).diagnostics = [])
    (hat : (ofText t).site.at? a = some ⟨n, .node k (F ++ ((P ++ (C ++ S)) ++ G))⟩)
    (hbed : Bed a k F (P ++ (C ++ S)) G) (trim : Trim) : ∃ p : Clearing t a n k C trim,
      p.opening = F ∧ p.before ++ pad p.left = P ∧ pad p.right ++ p.after = S ∧ p.closing = G := by
  have hfirm : ∀ u ∈ F ++ ((P ++ (C ++ S)) ++ G), Firm u := firm_of_at? hclean hat
  have hblank : ∀ x, .token .whitespace x ∈ F ++ ((P ++ (C ++ S)) ++ G) →
      x ≠ [] ∧ Text.Blank x := fun x hx => blank_of_token hclean hat hx
  have hpad : ∀ w, (∀ u ∈ pad w, u ∈ F ++ ((P ++ (C ++ S)) ++ G)) →
      w.Blank := by
    intro w hw c hc
    have hne : w ≠ [] := ne_nil_of_mem hc
    rw [pad_of_ne_nil hne] at hw
    exact (hblank w (hw _ (mem_singleton_self _))).2 c hc
  obtain ⟨P₀, left, rfl, hleft⟩ := exists_pad_end P fun x hx => (hblank x (by simp [hx])).1
  obtain ⟨right, S₀, rfl, hright⟩ := exists_pad_front S fun x hx => (hblank x (by simp [hx])).1
  have hregroup : F ++ (((P₀ ++ pad left) ++ (C ++ (pad right ++ S₀))) ++ G) =
      (F ++ P₀) ++ ((pad left ++ (C ++ pad right)) ++ (S₀ ++ G)) := by simp
  have hregroup' : (P₀ ++ pad left) ++ (C ++ (pad right ++ S₀)) =
      P₀ ++ ((pad left ++ (C ++ pad right)) ++ S₀) := by simp
  obtain ⟨uA, uX, uB, tree, h⟩ :=
    exists_planted (hregroup ▸ hat) (pad (trim.front left ++ trim.back right))
  refine ⟨⟨F, P₀, S₀, G, left, right, uA, uX, uB, tree, h, hregroup' ▸ hbed, ?_, ?_, ?_⟩, rfl,
    rfl, rfl, rfl⟩
  · intro c hc
    rcases mem_append.1 hc with hc | hc
    · exact hpad left (fun u hu => by simp [hu]) c hc
    · exact hpad right (fun u hu => by simp [hu]) c hc
  · intro l hl
    refine h.last_not_whitespace hclean (hregroup' ▸ hbed) (fun u hu => hfirm u (by simp [hu]))
      (hpad left fun u hu => by simp [hu]) (fun hnil x P' hP => ?_) hl
    refine hleft hnil x P' ?_
    rw [hnil, hP]
    exact append_nil _
  · have hplanted := h
    rw [← append_assoc] at hplanted
    have hbehind : Bed a k F (((P₀ ++ pad left) ++ (C ++ pad right)) ++ S₀) G := by simpa using hbed
    refine hplanted.next_not_blank hclean hbehind (fun u hu => hfirm u (by simp [hu]))
      fun hnil x S' hS => ?_
    refine hright hnil x S' ?_
    rw [hnil, hS]
    rfl

namespace Clearing

def room (p : Clearing t a n k C trim) : Text := trim.front p.left ++ trim.back p.right

def text (p : Clearing t a n k C trim) : Text := plant p.uA (pad p.room) p.uB

def place (p : Clearing t a n k C trim) : Nat := n + sizeAll (p.opening ++ p.before) + p.left.size

def list (p : Clearing t a n k C trim) : Site :=
  ⟨n, .node k
    (p.opening ++ p.before ++ ((pad p.left ++ (C ++ pad p.right)) ++ (p.after ++ p.closing)))⟩

def shrunk (p : Clearing t a n k C trim) : Site :=
  ⟨n, .node k (p.opening ++ p.before ++ (pad p.room ++ (p.after ++ p.closing)))⟩

section

variable (p : Clearing t a n k C trim)
include p

lemma place_eq : (spell p.uA ++ p.left).size = p.place := by
  rw [Text.size_append, p.planted.place]
  rfl

lemma text_eq : t = (spell p.uA ++ p.left) ++ (textAll C ++ (p.right ++ spell p.uB)) := by
  have htext := p.planted.text
  simp only [textAll_append, textAll_pad] at htext
  simpa using htext

lemma room_blank : p.room.Blank := by
  obtain ⟨x, hx, -⟩ := trim.exists_front p.left
  obtain ⟨y, hy, -⟩ := trim.exists_back p.right
  intro c hc
  apply p.blank c
  rw [hx, hy]
  rcases mem_append.1 (show c ∈ trim.front p.left ++ trim.back p.right from hc) with hc | hc
  · exact mem_append_left _ (mem_append_left x hc)
  · exact mem_append_right _ (mem_append_right y hc)

lemma back_eq : trim.back (p.right ++ spell p.uB) = trim.back p.right ++ spell p.uB :=
  Trim.back_append p.next p.right

lemma size_pos (hC : ∃ m ∈ (leavesAll C).head?, m.1.isTrivia = false) : 0 < sizeAll C := by
  obtain ⟨m, hm, -⟩ := hC
  have hmem : m ∈ leavesAll C := mem_of_mem_head? hm
  have hleaf : m ∈ p.uX.map Lexeme.leaf := by
    rw [p.planted.inside, leavesAll_append, leavesAll_append]
    exact mem_append_right _ (mem_append_left _ hmem)
  obtain ⟨u, hu, rfl⟩ := mem_map.1 hleaf
  rw [sizeAll_eq_spell]
  exact spell_pos hmem (p.planted.scans.2.1.text_ne_nil u hu)

variable (hclean : (ofText t).diagnostics = [])
include hclean

lemma firm : ∀ u ∈ p.before ++ (C ++ p.after), Firm u := by
  obtain ⟨hat, -⟩ := Site.at?_replaced p.planted.replaced rfl rfl 0
  rw [Nat.zero_add] at hat
  intro u hu
  refine firm_of_at? hclean hat u ?_
  simp only [mem_append] at hu ⊢
  tauto

lemma left_ne_nil {m : Kind × Text} (hm : (leavesAll C).head? = some m) (hword : m.1 ∈ words)
    (hl : p.uA.getLast? = some l) (hwordy : isWordy l.kind) : p.left ≠ [] := by
  obtain ⟨b, y, -, hfault, hscan⟩ := p.planted.scan_last hclean hl
  have hnext := (scan_wordy hscan hfault hwordy).2
  have hplanted := p.planted
  intro hnil
  rw [hnil, pad, nil_append] at hplanted hnext
  obtain ⟨u, c, r, -, rfl, htext, hfirst⟩ := hplanted.exists_inside (m := m) (by
    rw [leavesAll_append, head?_append, hm]
    rfl)
  rw [htext] at hnext
  have hstart := isWordStart_of_scan (Prod.ext hfirst rfl) hword
  rw [hnext c rfl] at hstart
  cases hstart

lemma parse (hfits : Fits k (outlineAll (p.before ++ p.after)))
    (hapart : ∀ l ∈ p.uA.getLast?, l.Seals (textAll (pad p.room) ++ spell p.uB)) :
    (ofText p.text).tree = p.tree ∧ (ofText p.text).diagnostics = [] := by
  refine p.planted.parse_bed p.bed hclean ?_ (fun u hu => ?_) hapart
    (lexes_pad p.room_blank (.inr p.next))
  · rwa [outlineAll_append, outlineAll_append, outlineAll_pad, nil_append, ← outlineAll_append]
  · obtain ⟨j, x, rfl, -⟩ := token_of_mem_pad hu
    exact .token j x

variable (hC : ∃ m ∈ (leavesAll C).head?, m.1.isTrivia = false)
include hC

lemma newline_of_comment (hl : p.uA.getLast? = some l) (hk : l.kind = .lineComment) :
    ∃ c x, p.left = c :: x ∧ Text.isNewline c = true := by
  have hnewline := (p.planted.seals_trivia hclean hl (by rw [hk]; rfl)).newline hk
  have hplanted := p.planted
  generalize p.left = left at hplanted hnewline ⊢
  cases left with
  | nil =>
    obtain ⟨m, hm, hsig⟩ := hC
    obtain ⟨u, c, r, -, rfl, htext, hfirst⟩ := hplanted.exists_inside (m := m) (by
      rw [pad, nil_append, leavesAll_append, head?_append, mem_def.1 hm]
      rfl)
    have hblank : Text.isBlank c = false := by
      rw [← hfirst] at hsig
      exact not_blank_of_scan hsig
    rw [htext] at hnewline
    rw [Text.isBlank_of_newline (hnewline c rfl)] at hblank
    cases hblank
  | cons c x => exact ⟨c, x, rfl, hnewline c rfl⟩

variable (htrim : trim.newlinesBefore = false)
include htrim

lemma front_eq : trim.front (spell p.uA ++ p.left) = spell p.uA ++ trim.front p.left := by
  refine Trim.front_append htrim fun hspaces c hc => ?_
  apply Bool.eq_false_iff.2
  intro hspace
  obtain ⟨l, hl⟩ : ∃ l, p.uA.getLast? = some l := by
    apply isSome_iff_exists.1
    rw [getLast?_isSome]
    rintro hnil
    rw [hnil] at hc
    cases hc
  rw [getLast?_spell hl (p.planted.scans.1.text_ne_nil l (mem_of_getLast? hl))] at hc
  by_cases hk : l.kind = .lineComment
  · obtain ⟨b, x, hleft, hnewline⟩ := p.newline_of_comment hclean hC hl hk
    have hb := hspaces b (by rw [hleft]; exact mem_cons_self)
    rw [Text.not_space_of_newline hnewline] at hb
    cases hb
  · obtain ⟨b, y, -, hfault, hscan⟩ := p.planted.scan_last hclean hl
    have hblank := not_blank_last hscan hfault (p.last l hl) hk c hc
    rw [Text.isBlank_of_space hspace] at hblank
    cases hblank

lemma text_trimmed :
    p.text = trim.front (spell p.uA ++ p.left) ++ trim.back (p.right ++ spell p.uB) := by
  rw [p.front_eq hclean hC htrim, p.back_eq, text, plant, textAll_pad, room]
  simp only [append_assoc]

lemma apart (hclosed : k = .sourceFile ∨
      k = .block → outlineAll p.before = [] ∨ Outline.Closed (outlineAll p.before))
    (hstops : ∀ l ∈ p.uA.getLast?, isWordy l.kind → Stops (p.room ++ spell p.uB)) :
    ∀ l ∈ p.uA.getLast?, l.Seals (textAll (pad p.room) ++ spell p.uB) := by
  intro l hl
  have hfault := p.planted.fault_none hclean (.inl (mem_of_getLast? hl))
  have hleaf := p.planted.last_leaf ((Planted.leaves_bed p.bed p.before p.after).imp_right (·.1)) hl
  rw [textAll_pad]
  by_cases hk : l.kind.isTrivia = true
  · refine seals_of_comment hk hfault (p.last l hl) fun hline => ?_
    obtain ⟨c, x, hleft, hnewline⟩ := p.newline_of_comment hclean hC hl hline
    have hfront : trim.front (c :: x) = c :: trim.front x :=
      Trim.front_append (x := [c]) htrim fun _ b hb =>
        some.inj (mem_def.1 hb) ▸ Text.not_space_of_newline hnewline
    rw [room, hleft, hfront]
    intro b hb
    exact some.inj (mem_def.1 hb) ▸ hnewline
  · have hfirm : ∀ u ∈ p.before, Firm u := fun u hu => p.firm hclean u (mem_append_left _ hu)
    have hsettled := (p.bed.settled hfirm hclosed hleaf).resolve_left hk
    exact seals_of_settled hsettled hfault (hstops l hl)

lemma stops_of_left (hl : p.uA.getLast? = some l) (hwordy : isWordy l.kind)
    (hleft : p.left ≠ []) (hline : (∀ c ∈ (trim.front (spell p.uA ++ p.left)).getLast?, c = '\n') ∨
      trim.spacesBefore = false ∨ ∀ c ∈ (trim.back (p.right ++ spell p.uB)).head?,
      Text.isNewline c = true) : Stops (p.room ++ spell p.uB) := by
  obtain ⟨x, hx, -⟩ := trim.exists_front p.left
  rw [room, append_assoc]
  by_cases hnil : trim.front p.left = []
  · rw [hnil, nil_append, ← p.back_eq]
    rcases hline with hstarts | hspaces | hends
    · -- the line starts right after the word
      obtain ⟨b, y, htext, hfault, hscan⟩ := p.planted.scan_last hclean hl
      have hne : l.text ≠ [] := htext ▸ cons_ne_nil b y
      have hlast := getLast?_eq_some_getLast hne
      have hbreak := hstarts (l.text.getLast hne) (by
        rw [p.front_eq hclean hC htrim, hnil, append_nil, getLast?_spell hl hne]
        exact hlast)
      have hpart := (scan_wordy hscan hfault hwordy).1 _ hlast
      rw [hbreak] at hpart
      exact absurd hpart (by decide)
    · -- nothing is trimmed before the place
      have hkept : trim.front p.left = p.left := by
        rw [Trim.front, hspaces, htrim]
        rfl
      exact absurd (hkept.symm.trans hnil) hleft
    · intro c hc
      exact not_wordPart_of_blank (Text.isBlank_of_newline (hends c hc))
  · refine stops_of_blank (fun c hc => ?_) hnil _
    apply p.blank c
    rw [hx]
    exact mem_append_left _ (mem_append_left x hc)

end

lemma parse_item (p : Clearing t a n k (c :: V) trim) (hclean : (ofText t).diagnostics = [])
    (hnode : c.isNode = true) (htrim : trim.newlinesBefore = false)
    (hline : (∀ c ∈ (trim.front (spell p.uA ++ p.left)).getLast?, c = '\n') ∨
      trim.spacesBefore = false ∨ ∀ c ∈ (trim.back (p.right ++ spell p.uB)).head?,
      Text.isNewline c = true) (hfits : Fits k (outlineAll (p.before ++ p.after))) (hclosed : k =
      .sourceFile ∨ k = .block → outlineAll p.before = [] ∨ Outline.Closed (outlineAll p.before))
    (hready : k.hasCommas = true → Outline.Ready (outlineAll p.before)) :
    (ofText p.text).tree = p.tree ∧ (ofText p.text).diagnostics = [] := by
  have hfirm : Firm c := p.firm hclean c (by simp)
  obtain ⟨m, hm, hheavy⟩ := StartsHeavy.of_firm hfirm hnode
  have hhead : (leavesAll (c :: V)).head? = some m := by
    rw [leavesAll, head?_append, mem_def.1 hm]
    rfl
  have hC : ∃ m ∈ (leavesAll (c :: V)).head?, m.1.isTrivia = false := ⟨m, hhead, hheavy.1⟩
  refine p.parse hclean hfits (p.apart hclean hC htrim hclosed fun l hl hwordy => ?_)
  -- A word before an item that begins with no word would be one of the grammar's own.
  have hbefore : ∀ u ∈ p.before, Firm u := fun u hu => p.firm hclean u (mem_append_left _ hu)
  have hleaf := p.planted.last_leaf ((Planted.leaves_bed p.bed p.before p.after).imp_right (·.1)) hl
  have hk := p.bed.wordy hbefore hclosed hready hleaf hwordy
  obtain ⟨m', hm', hbegins⟩ := p.bed.begins hk (t := c) (by simp) hnode hfirm
  obtain rfl : m = m' := some.inj ((mem_def.1 hm).symm.trans hm')
  exact p.stops_of_left hclean hC htrim hl hwordy
    (p.left_ne_nil hclean hhead (words_of_begins hbegins) hl hwordy) hline

lemma parse_last (p : Clearing t a n k (.token .comma x :: V) {})
    (hclean : (ofText t).diagnostics = []) (hk : k.hasCommas = true)
    (hfits : Fits k (outlineAll p.before)) (hafter : outlineAll p.after = []) :
    (ofText p.text).tree = p.tree ∧ (ofText p.text).diagnostics = [] := by
  have hlist : k ≠ .sourceFile ∧ k ≠ .block := by
    constructor <;> rintro rfl <;> cases hk
  have hfits' : Fits k (outlineAll (p.before ++ p.after)) := by
    rwa [outlineAll_append, hafter, append_nil]
  refine p.parse hclean hfits' (p.apart hclean ⟨(.comma, x), rfl, rfl⟩ rfl
    (fun hstatements => absurd hstatements (not_or.2 hlist)) fun l hl hwordy => ?_)
  by_cases hnil : p.room = []
  · -- What comes next is a comment, or the token that closes the list.
    rw [hnil, nil_append]
    have hclosing : ∃ m ∈ (leavesAll (p.after ++ p.closing)).head?, m.1.isTrivia = true ∨
        m.1 ∈ marks := by
      have hbed := p.bed
      generalize p.after = S at hafter hbed ⊢
      generalize p.closing = G at hbed ⊢
      generalize p.opening = F at hbed
      cases S with
      | nil =>
        cases hbed with
        | file => exact absurd rfl hlist.1
        | list x y port contains => exact ⟨_, rfl, .inr (mark_of_brackets contains.brackets)⟩
      | cons u S =>
        obtain ⟨j, z, rfl, hj⟩ := isTrivia_of_outlineAll hafter u mem_cons_self
        exact ⟨(j, z), rfl, .inl hj⟩
    obtain ⟨m, hm, hkind⟩ := hclosing
    exact p.planted.stops_next hclean hm hkind
  · exact stops_of_blank p.room_blank hnil _

end Clearing
end Parse
end LiveEdit
