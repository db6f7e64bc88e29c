import LiveEdit.Proofs.Document.Statements

namespace LiveEdit
open List hiding span

namespace Text

variable {t u : Text}

lemma dense_trimmed (t : Text) : dense (Document.trimmed t) = dense t := by
  have hfront : dense (t.takeWhile isBlank) = [] := dense_of_blank fun c hc => mem_takeWhile_imp hc
  have hback : dense (takeEnd isBlank (t.dropWhile isBlank)) = [] :=
    dense_of_blank fun c hc => mem_takeEnd hc
  have hparts := congrArg dense (Document.trimmed_append t)
  rw [dense_append, dense_append, hfront, hback, nil_append, append_nil] at hparts
  exact hparts

/-- One text is another with a piece put in, up to white space. -/
def Adds (piece t u : Text) : Prop := ∃ P Q, dense t = P ++ Q ∧ dense u = P ++ (piece ++ Q)

lemma Adds.length_le {piece : Text} (h : Adds piece t u) : (dense t).length ≤ (dense u).length := by
  obtain ⟨P, Q, ht, hu⟩ := h
  rw [ht, hu]
  simp only [length_append]
  omega

end Text

def Site.enclosed? (t : Text) (s : Site) : Option Text :=
  s.braces?.bind fun b => (Span.between? b.1.span.stop b.2.span.start).bind t.slice?

structure ItemList where
  site : Site
  items : List Site

/-- There are no items, and yet there is more than white space between the braces. -/
def ItemList.isLittered (t : Text) (l : ItemList) : Bool :=
  l.items.isEmpty && (l.site.enclosed? t).any fun x => x.any (!Text.isBlank ·)

namespace Document
open Failure Text

variable {d new : Document} {n : NodeId} {w : Wrapper} {index focus offset : Nat}
  {text lead close piece t : Text}
  {texts : List Text} {log : List Event} {l : MemberList} {s list : Site} {braces : Site × Site}
  {i : Insertion}

def memberList? (d : Document) (n : NodeId) : Option ItemList := do
  let w ← (d.node n).toOption
  let l ← w.kind.capabilities.members
  return ⟨w.site, (w.site.members l).map Prod.snd⟩

def statementList? (d : Document) (n : NodeId) : Option ItemList := do
  let w ← (d.node n).toOption
  let place ← w.kind.capabilities.statements
  let list ← place.find? w.site
  return ⟨list, list.statements⟩

def Sparing (t : Text) (i : Insertion) (piece : Text) : Prop :=
  ∃ position removed text, i.manipulation = .insertion position removed text ∧ text ≠ [] ∧
    dense text = piece ∧ ∀ a x b, a ++ (x ++ b) = t → a.size = position → x.size = removed →
    dense x = []

lemma sparing_insert {position : Nat} (hne : text ≠ []) (hpiece : dense text = piece) :
    Sparing t ⟨.insert position text, offset⟩ piece := by
  refine ⟨position, 0, text, rfl, hne, hpiece, fun a x b _ _ hx => ?_⟩
  rw [eq_nil_of_size hx]
  rfl

lemma sparing_replace {span : Span} (hspan : bodySpan braces = .ok span)
    (hbraces : s.braces? = some braces) (hclear : (ItemList.mk s []).isLittered t = false)
    (hne : text ≠ []) (hpiece : dense text = piece) :
    Sparing t ⟨.replace span text, offset⟩ piece := by
  refine ⟨span.start, span.size, text, rfl, hne, hpiece, fun a x b ht ha hx => ?_⟩
  have hbetween : Span.between? braces.1.span.stop braces.2.span.start = some span :=
    within_eq_ok hspan
  have hslice : t.slice? span = some x :=
    slice?_eq_some_iff.2 ⟨a, b, ht, ha, by rw [hx]; exact Nat.add_sub_cancel' span.le⟩
  have hinside : s.enclosed? t = some x := by
    rw [Site.enclosed?, hbraces, Option.bind_some, hbetween, Option.bind_some, hslice]
  rw [ItemList.isLittered, hinside] at hclear
  refine dense_of_blank fun c hc => ?_
  simpa using (any_eq_false.1 hclear) c hc

lemma Sparing.adds (h : Sparing d.text i piece)
    (hc : d.commit focus i.manipulation = some (new, log)) : Adds piece d.text new.text := by
  obtain ⟨position, removed, text, hform, hne, hpiece, hblank⟩ := h
  rw [hform] at hc
  obtain ⟨e, he, hcases⟩ := exists_of_commit hc
  obtain rfl : Edit.mk position removed text = e := Option.some.inj he
  rcases hcases with ⟨hempty, -⟩ | ⟨-, u, hresult, rfl⟩
  · simp only [Edit.isEmpty, Bool.and_eq_true, List.isEmpty_iff] at hempty
    exact absurd hempty.2 hne
  · obtain ⟨a, x, b, ht, hu, ha, hx⟩ := Edit.exists_of_result? hresult
    refine ⟨dense a, dense b, ?_, ?_⟩
    · rw [← ht, dense_append, dense_append, hblank a x b ht ha hx, nil_append]
    · change dense u = _
      rw [← hu, dense_append, dense_append, hpiece]

lemma Wraps.text_eq (h : Wraps d new) : new.text = d.text := by
  induction h with
  | refl => rfl
  | tail _ hstep ih =>
    obtain ⟨root, fresh, rfl⟩ := hstep.exists_eq
    exact ih

def memberPieces (text : Text) : List Text := [dense text, dense text ++ [','], ',' :: dense text]

lemma exists_memberPiece (hlead : dense lead = []) (hclose : dense close = [])
    (hne : text ≠ []) (hbraces : s.braces? = some braces)
    (hclear : (ItemList.mk s ((s.members l).map Prod.snd)).isLittered d.text = false)
    (h : memberInsertion s l braces index lead close text = .ok i) :
    ∃ piece ∈ memberPieces text, Sparing d.text i piece := by
  have hcomma : dense (if l.separator = .comma then [','] else []) = [] ∨
      dense (if l.separator = .comma then [','] else []) = [','] := by
    split
    · exact .inr rfl
    · exact .inl rfl
  unfold memberInsertion at h
  dsimp only at h
  generalize (if l.separator = .comma then [','] else [] : Text) = comma at h hcomma
  split at h
  next hnone =>
    obtain ⟨span, hspan, h⟩ := bind_eq_ok h
    obtain rfl := Except.ok.inj h
    rw [hnone] at hclear
    refine ⟨dense text, mem_cons_self, sparing_replace hspan hbraces hclear ?_ ?_⟩
    · exact append_ne_nil_of_left_ne_nil (append_ne_nil_of_right_ne_nil _ hne) _
    · rw [dense_append, dense_append, hlead, hclose, nil_append, append_nil]
  next =>
    obtain rfl := Except.ok.inj h
    refine ⟨dense text ++ dense comma, ?_, sparing_insert ?_ ?_⟩
    · rcases hcomma with hcomma | hcomma <;> simp [hcomma, memberPieces]
    · exact append_ne_nil_of_left_ne_nil (append_ne_nil_of_left_ne_nil hne _) _
    · rw [dense_append, dense_append, hlead, append_nil]
  next =>
    split at h
    · cases h
    · split at h <;> obtain rfl := Except.ok.inj h
      · refine ⟨dense text ++ dense comma, ?_, sparing_insert ?_ ?_⟩
        · rcases hcomma with hcomma | hcomma <;> simp [hcomma, memberPieces]
        · exact append_ne_nil_of_left_ne_nil (append_ne_nil_of_right_ne_nil _ hne) _
        · rw [dense_append, dense_append, hlead, nil_append]
      · refine ⟨dense comma ++ dense text, ?_, sparing_insert ?_ ?_⟩
        · rcases hcomma with hcomma | hcomma <;> simp [hcomma, memberPieces]
        · exact append_ne_nil_of_right_ne_nil _ hne
        · rw [dense_append, dense_append, hlead, append_nil]

lemma dense_line {outer : Text} (h : within (d.text.indentationAt? offset) = .ok outer) :
    dense (d.settings.newline.text ++ outer) = [] := by
  rw [dense_append, dense_of_blank (newline_text d.settings.newline).1,
    dense_of_blank (blank_of_indentationAt? (within_eq_ok h))]
  rfl

lemma adds_member {p : MemberPlan} (hplan : d.memberPlan n index text = .ok p)
    (hclear : (d.memberList? n).any (·.isLittered d.text) = false)
    (hc : d.commit focus p.manipulation = some (new, log)) :
    ∃ piece ∈ memberPieces text, Adds piece d.text new.text := by
  obtain ⟨w, hw, h⟩ := bind_eq_ok hplan
  cases hcap : w.kind.capabilities.members with
  | none => rw [hcap] at h; cases h
  | some l =>
    simp only [hcap, object] at h
    split_ifs at h with hcount hempty
    cases hbraces : w.site.braces? with
    | none => rw [hbraces] at h; cases h
    | some braces =>
      rw [hbraces] at h
      obtain ⟨outer, houter, h⟩ := bind_eq_ok h
      obtain ⟨i, hi, h⟩ := bind_eq_ok h
      obtain rfl := Except.ok.inj h
      have hclose := dense_line houter
      have hlead :
          dense (d.settings.newline.text ++ outer ++ d.settings.indentation.text) = [] := by
        rw [dense_append, hclose, dense_of_blank (blank_indentation _)]
        rfl
      have hlist : d.memberList? n = some ⟨w.site, (w.site.members l).map Prod.snd⟩ := by
        simp [memberList?, refusing_eq_ok hw, Except.toOption, hcap]
      rw [hlist] at hclear
      obtain ⟨piece, hpiece, hsparing⟩ :=
        exists_memberPiece hlead hclose (by simpa using hempty) hbraces hclear hi
      rw [memberPieces, dense_trimmed] at hpiece
      exact ⟨piece, hpiece, hsparing.adds hc⟩

lemma sparing_statements {joined : Text} (hlead : dense lead = []) (hclose : dense close = [])
    (hne : joined ≠ []) (hclear : (ItemList.mk list list.statements).isLittered d.text = false)
    (h : d.statementInsertion list index lead close joined = .ok i) :
    Sparing d.text i (dense joined) := by
  unfold statementInsertion at h
  split at h
  next hnone =>
    rw [hnone] at hclear
    split at h
    next braces hbraces =>
      obtain ⟨span, hspan, h⟩ := bind_eq_ok h
      obtain rfl := Except.ok.inj h
      refine sparing_replace hspan hbraces hclear ?_ ?_
      · exact append_ne_nil_of_left_ne_nil (append_ne_nil_of_right_ne_nil _ hne) _
      · rw [dense_append, dense_append, hlead, hclose, nil_append, append_nil]
    next =>
      obtain rfl := Except.ok.inj h
      have hnewline : dense d.settings.newline.text = [] :=
        dense_of_blank (newline_text d.settings.newline).1
      have hgap :
          dense (if d.text.getLast?.all (· == '\n') then [] else d.settings.newline.text) = [] := by
        split
        · rfl
        · exact hnewline
      refine sparing_insert ?_ ?_
      · exact append_ne_nil_of_left_ne_nil (append_ne_nil_of_right_ne_nil _ hne) _
      · rw [dense_append, dense_append, hgap, hnewline, nil_append, append_nil]
  next =>
    obtain rfl := Except.ok.inj h
    refine sparing_insert (append_ne_nil_of_left_ne_nil hne _) ?_
    rw [dense_append, hlead, append_nil]
  next =>
    split at h
    · cases h
    · obtain rfl := Except.ok.inj h
      refine sparing_insert (append_ne_nil_of_right_ne_nil _ hne) ?_
      rw [dense_append, hlead, nil_append]

lemma intercalate_ne_nil (hne : texts ≠ []) (htexts : ∀ t ∈ texts, t ≠ []) :
    intercalate lead texts ≠ [] := by
  cases texts with
  | nil => exact absurd rfl hne
  | cons t ts =>
    have ht := htexts t mem_cons_self
    cases ts with
    | nil => simpa [intercalate] using ht
    | cons u us =>
      rw [intercalate_cons_cons]
      exact append_ne_nil_of_left_ne_nil (append_ne_nil_of_left_ne_nil ht _) _

lemma adds_statements {p : StatementPlan} (hplan : d.statementPlan n index texts = .ok p)
    (hclear : (d.statementList? n).any (·.isLittered d.text) = false)
    (hc : d.commit focus p.manipulation = some (new, log)) :
    Adds (texts.flatMap dense) d.text new.text := by
  obtain ⟨w, hw, h⟩ := bind_eq_ok hplan
  cases hcap : w.kind.capabilities.statements with
  | none => rw [hcap] at h; cases h
  | some place =>
    rw [hcap] at h
    dsimp only at h
    cases hfind : place.find? w.site with
    | none => rw [hfind] at h; cases h
    | some list =>
      rw [hfind] at h
      dsimp only at h
      split at h
      · cases h
      split at h
      · cases h
      rename_i hempty
      obtain ⟨outer, houter, h⟩ := bind_eq_ok h
      obtain ⟨i, hi, h⟩ := bind_eq_ok h
      obtain rfl := Except.ok.inj h
      have hclose := dense_line houter
      have hlead : dense (d.settings.newline.text ++
          if list.braces?.isSome = true then outer ++ d.settings.indentation.text else outer) =
          [] := by
        split
        · rw [← append_assoc, dense_append, hclose, dense_of_blank (blank_indentation _)]
          rfl
        · exact hclose
      have hlist : d.statementList? n = some ⟨list, list.statements⟩ := by
        simp [statementList?, refusing_eq_ok hw, Except.toOption, hcap, hfind]
      rw [hlist] at hclear
      simp only [Bool.or_eq_true, List.isEmpty_iff, any_eq_true, not_or, not_exists, not_and]
        at hempty
      have hsparing :=
        sparing_statements hlead hclose (intercalate_ne_nil hempty.1 hempty.2) hclear hi
      rw [dense_intercalate hlead, flatMap_map] at hsparing
      simp only [dense_trimmed] at hsparing
      exact hsparing.adds hc

/-- An insertion that succeeds adds one piece to the text, up to white space, and leaves all else
there: a member, perhaps with a comma, or statements. Only a list without items must not have more
than white space between its braces. -/
theorem insertion_adds_piece (d : Document) (n : NodeId) (index : Nat) :
    (∀ text o m, d.insertMember n index text = some o → o.answer = .ok m →
      (d.memberList? n).any (·.isLittered d.text) = false →
      ∃ piece ∈ memberPieces text, Adds piece d.text o.document.text) ∧
    (∀ texts o ms, d.insertStatements n index texts = some o → o.answer = .ok ms →
      (d.statementList? n).any (·.isLittered d.text) = false →
      Adds (texts.flatMap dense) d.text o.document.text) := by
  constructor
  · intro text o m h hok hclear
    unfold insertMember attempt at h
    split at h
    · obtain rfl := Option.some.inj h
      cases hok
    · cases h
    next p hplan =>
      obtain ⟨⟨new, log⟩, hcommit, h⟩ := Option.bind_eq_some_iff.1 h
      obtain ⟨⟨found, m'⟩, hfound, h⟩ := Option.bind_eq_some_iff.1 h
      obtain rfl := Option.some.inj h
      rw [(wraps_standIn hfound).text_eq]
      exact adds_member hplan hclear hcommit
  · intro texts o ms h hok hclear
    unfold insertStatements attempt at h
    split at h
    · obtain rfl := Option.some.inj h
      cases hok
    · cases h
    next p hplan =>
      obtain ⟨⟨new, log⟩, hcommit, h⟩ := Option.bind_eq_some_iff.1 h
      obtain ⟨⟨found, ms'⟩, hfound, h⟩ := Option.bind_eq_some_iff.1 h
      obtain rfl := Option.some.inj h
      rw [(wraps_standInAll hfound).text_eq]
      exact adds_statements hplan hclear hcommit

theorem insertion_adds_piece_comments :
    (∃ d o m, (create 0 "a.ts" "class C \x7b /*c*/ x // d\n \x7d".toList {} .usual).run
        [.children ⟨0, 0⟩] = some d ∧
      d.insertMember ⟨0, 1⟩ 1 "y".toList = some o ∧ o.answer = .ok m ∧
      ∃ piece ∈ memberPieces "y".toList, Adds piece d.text o.document.text) ∧
    (∃ d o ms, (create 0 "a.ts" "/*c*/ \x7b \n \x7d // d".toList {} .usual).run
        [.children ⟨0, 0⟩] = some d ∧
      d.insertStatements ⟨0, 1⟩ 0 ["y;".toList, " z; ".toList] = some o ∧
      o.answer = .ok ms ∧ Adds "y;z;".toList d.text o.document.text) := by
  constructor
  · have hfound : ∃ d ∈ (create 0 "a.ts" "class C \x7b /*c*/ x // d\n \x7d".toList {} .usual).run
        [.children ⟨0, 0⟩], ∃ o ∈ d.insertMember ⟨0, 1⟩ 1 "y".toList, ∃ m, o.answer = .ok m ∧
        (d.memberList? ⟨0, 1⟩).any (ItemList.isLittered d.text) = false := by
      decide +kernel
    obtain ⟨d, hrun, o, ho, m, hm, hclear⟩ := hfound
    exact ⟨d, o, m, hrun, ho, hm, (insertion_adds_piece d ⟨0, 1⟩ 1).1 _ o m ho hm hclear⟩
  · have hfound : ∃ d ∈ (create 0 "a.ts" "/*c*/ \x7b \n \x7d // d".toList {} .usual).run
        [.children ⟨0, 0⟩], ∃ o ∈ d.insertStatements ⟨0, 1⟩ 0 ["y;".toList, " z; ".toList],
        ∃ ms, o.answer = .ok ms ∧
        (d.statementList? ⟨0, 1⟩).any (ItemList.isLittered d.text) = false := by
      decide +kernel
    obtain ⟨d, hrun, o, ho, ms, hms, hclear⟩ := hfound
    exact ⟨d, o, ms, hrun, ho, hms, (insertion_adds_piece d ⟨0, 1⟩ 0).2 _ o ms ho hms hclear⟩

/-- In a class without members and in a block without statements, a comment gives way. -/
theorem insertion_takes_comment :
    (∃ d o m, (create 0 "a.ts" "class C { /*c*/ }".toList {} .usual).run
        [.children ⟨0, 0⟩] = some d ∧
      d.insertMember ⟨0, 1⟩ 0 "x".toList = some o ∧ o.answer = .ok m ∧
      ∀ piece, ¬ Adds piece d.text o.document.text) ∧
    (∃ d o ms, (create 0 "a.ts" "{ /*c*/ }".toList {} .usual).run [.children ⟨0, 0⟩] = some d ∧
      d.insertStatements ⟨0, 1⟩ 0 ["x;".toList] = some o ∧ o.answer = .ok ms ∧
      ∀ piece, ¬ Adds piece d.text o.document.text) := by
  constructor
  · have hfound :
        ∃ d ∈ (create 0 "a.ts" "class C { /*c*/ }".toList {} .usual).run [.children ⟨0, 0⟩],
        ∃ o ∈ d.insertMember ⟨0, 1⟩ 0 "x".toList, ∃ m, o.answer = .ok m ∧
        (dense o.document.text).length < (dense d.text).length := by
      decide +kernel
    obtain ⟨d, hrun, o, ho, m, hm, hshorter⟩ := hfound
    exact ⟨d, o, m, hrun, ho, hm, fun _ hadds => Nat.not_lt.2 hadds.length_le hshorter⟩
  · have hfound : ∃ d ∈ (create 0 "a.ts" "{ /*c*/ }".toList {} .usual).run [.children ⟨0, 0⟩],
        ∃ o ∈ d.insertStatements ⟨0, 1⟩ 0 ["x;".toList], ∃ ms, o.answer = .ok ms ∧
        (dense o.document.text).length < (dense d.text).length := by
      decide +kernel
    obtain ⟨d, hrun, o, ho, ms, hms, hshorter⟩ := hfound
    exact ⟨d, o, ms, hrun, ho, hms, fun _ hadds => Nat.not_lt.2 hadds.length_le hshorter⟩

end Document
end LiveEdit
