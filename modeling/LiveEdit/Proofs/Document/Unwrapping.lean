import LiveEdit.Proofs.Document.Retention
import LiveEdit.Proofs.Lexeme.Moving
import LiveEdit.Proofs.Parse.Cuts

/-! Unwrapping keeps the tokens of a program, unless two lexemes run together where the braces were,
a comment takes up what comes after it, or a line break in a string is written anew. -/

namespace LiveEdit
open List Option

namespace Unwrapping
open Text Lexeme

variable {u : Unwrapping} {e : Edit} {t t' : Text}

/-- What is left keeps apart, and no string of the body changes when it is moved. -/
def isSafe (u : Unwrapping) (t : Text) : Bool :=
  match t.cut? u.span.start, t.slice? u.body, t.cut? u.span.stop with
  | some (before, _), some body, some (_, after) =>
    isApart before (contents u.settings body ++ after) && isApart
    (contents u.settings body) after &&
      (Lexeme.ofText body).all fun l => l.kind != .string || moved u.settings l.text == l.text
  | _, _, _ => false

lemma isSafe_iff {a m b body : Text} (ht : t = a ++ (m ++ b)) (hstart : a.size = u.span.start)
    (hstop : (a ++ m).size = u.span.stop) (hbody : t.slice? u.body = some body) :
    u.isSafe t = true ↔ isApart a (contents u.settings body ++ b) = true ∧
    isApart (contents u.settings body) b = true ∧ ∀ l ∈ Lexeme.ofText body, l.kind = .string →
    moved u.settings l.text = l.text := by
  have hbefore : t.cut? u.span.start = some (a, m ++ b) := by rw [ht, ← hstart, cut?_append]
  have hafter :
      t.cut? u.span.stop = some (a ++ m, b) := by rw [ht, ← hstop, ← List.append_assoc, cut?_append]
  rw [isSafe, hbefore, hbody, hafter]
  simp only [Bool.and_eq_true, List.all_eq_true, Bool.or_eq_true, bne_iff_ne, beq_iff_eq, ne_eq,
    and_assoc, imp_iff_not_or]

lemma between_result (hf : ∀ l ∈ Lexeme.ofText t, l.fault = none) (hstart : IsCut t u.span.start)
    (hbody : IsCut t u.body.start) (hbody' : IsCut t u.body.stop) (hstop : IsCut t u.span.stop)
    (hle : u.span.start ≤ u.body.start) (hle' : u.body.stop ≤ u.span.stop)
    (hsafe : u.isSafe t = true) (he : u.edit? t = some e) (hr : e.result? t = some t') :
    (Lexed.ofText t').between 0 t'.size = (Lexed.ofText t).between 0 u.span.start ++ ((Lexed.ofText
      t).between u.body.start u.body.stop ++ (Lexed.ofText t).between u.span.stop t.size) := by
  obtain ⟨a, x, c, y, b, htext, hn, hm, hp, hq, before, inside, after⟩ :=
    Lexed.exists_segments hf hstart hbody hbody' hstop hle u.body.le hle'
  have hparts : t = a ++ ((x ++ (c ++ y)) ++ b) := by simp only [htext, append_assoc]
  have hslice : t.slice? u.body = some c := by
    refine slice?_eq_some_iff.2 ⟨a ++ x, y ++ b, by simp only [htext, append_assoc], hm, ?_⟩
    rw [← hm, ← hp, ← size_append, append_assoc]
  have hsize : (x ++ (c ++ y)).size = u.span.size := by
    rw [size_append, hn] at hq
    rw [Span.size]
    omega
  obtain ⟨hfront, hback, hkept⟩ := (isSafe_iff hparts hn hq hslice).1 hsafe
  obtain ⟨hfault, htokens⟩ := tokens_contents inside.faultless hkept
  rw [edit?, hslice] at he
  obtain rfl : Edit.mk u.span.start u.span.size (contents u.settings c) = e := some.inj he
  rw [hparts, Edit.result?_append a (x ++ (c ++ y)) b hn hsize] at hr
  obtain rfl : a ++ (contents u.settings c ++ b) = t' := some.inj hr
  rw [Lexed.between_all, tokens_joined before.faultless hfront, tokens_joined hfault hback, htokens,
    before.tokens, inside.tokens, after.tokens]

end Unwrapping

namespace Document
open Text Lexeme

variable {d : Document} {n : NodeId} {w parent : Wrapper} {u : Unwrapping}

lemma exists_of_unwrapping (h : d.unwrapping n = .ok (parent, u)) :
    ∃ w place block left right, d.node n = .ok w ∧ w.kind.capabilities.body = some place ∧
    place.find? w.site = some block ∧ block.braces? = some (left, right) ∧ u.span = w.span ∧
    u.body.start = left.span.stop ∧ u.body.stop = right.start ∧ u.settings = d.settings := by
  obtain ⟨w, hw, h⟩ := bind_eq_ok h
  have hw := refusing_eq_ok hw
  split at h
  · cases h
  · cases h
  next p place hp hplace =>
    split at h
    · cases h
    next block hblock =>
      split at h
      · cases h
      next braces hbraces =>
        obtain ⟨body, hbody, h⟩ := bind_eq_ok h
        obtain ⟨rfl, rfl⟩ := Prod.mk.inj (Except.ok.inj h)
        obtain ⟨hstart, hstop⟩ := between?_eq_some (within_eq_ok hbody)
        exact ⟨w, place, block, braces.1, braces.2, hw, hplace, hblock, hbraces, rfl, hstart,
          hstop, rfl⟩

lemma find?_inside {s block : Site} {place : BlockPlace} (h : place.find? s = some block) :
    (s.start ≤ block.start ∧ block.span.stop ≤ s.span.stop) ∧ ∀ ls, s.Sits ls → block.Sits ls := by
  cases place with
  | own =>
    obtain rfl := some.inj h
    exact ⟨⟨le_rfl, le_rfl⟩, fun _ => id⟩
  | inner =>
    have hmem : block ∈ s.nodes := mem_of_find?_eq_some h
    exact ⟨(Site.mem_nodes hmem).1, fun ls hs => hs.element (mem_filter.1 hmem).1⟩

lemma Sound.cuts_of_unwrapping (h : d.Sound)
    (husual : d.reader = .usual) (hu : d.unwrapping n = .ok (parent, u)) :
    IsCut d.text u.span.start ∧ IsCut d.text u.body.start ∧ IsCut d.text u.body.stop ∧
    IsCut d.text u.span.stop ∧ u.span.start ≤ u.body.start ∧ u.body.stop ≤ u.span.stop := by
  obtain ⟨w, place, block, left, right, hw, -, hblock, hbraces, hspan, hstart, hstop, -⟩ :=
    exists_of_unwrapping hu
  have hsits : w.site.Sits (Parse.lex d.text) := by
    refine Site.sits_of_at? (a := d.address w) ?_
    rw [← h.tree_usual husual]
    exact (h.attached (h.node_eq_ok.1 hw).2.1).node
  obtain ⟨hinside, hblock⟩ := find?_inside hblock
  obtain ⟨hleft, hright, -⟩ := Site.braces?_ordered hbraces
  have hwhole := isCut_of_sits hsits
  have hopen := isCut_of_sits ((hblock _ hsits).element hleft)
  have hclose := isCut_of_sits ((hblock _ hsits).element hright)
  have hfirst := (Site.mem_elements hleft).1
  have hlast := (Site.mem_elements hright).1
  rw [hspan, hstart, hstop]
  refine ⟨hwhole.1, hopen.2, hclose.1, hwhole.2, ?_, ?_⟩
  · exact hinside.1.trans (hfirst.1.trans left.span.le)
  · exact right.span.le.trans (hlast.2.trans hinside.2)

def unwrapsSafely (d : Document) (n : NodeId) : Bool :=
  match d.unwrapping n with
  | .ok (_, u) => u.isSafe d.text
  | .error _ => false

/-- The tokens that unwrapping a node should leave: those before it, those between the braces of its
body, and those after it. -/
def tokensUnwrapped? (d : Document) (n : NodeId) : Option (List (Kind × Text)) := do
  let w ← (d.node n).toOption
  let place ← w.kind.capabilities.body
  let block ← place.find? w.site
  let (left, right) ← block.braces?
  let x := Lexed.ofText d.text
  return x.between 0 w.span.start ++
    (x.between left.span.stop right.span.start ++ x.between w.span.stop d.text.size)

/-- A node of a document without faults that can be unwrapped, and safely so, leaves the tokens
around it and those of its body. -/
theorem unwrap_keeps_tokens {tag : Nat} {file : String} {text : Text} {settings : Settings}
    {ops : List Operation} (hrun : (create tag file text settings .usual).run ops = some d)
    (hclean : d.diagnostics = []) {o : Outcome (List NodeId)} {found : List NodeId}
    (ho : d.unwrap n = some o) (hok : o.answer = .ok found) (hsafe : d.unwrapsSafely n = true) :
    d.tokensUnwrapped? n =
      some ((Lexed.ofText o.document.text).between 0 o.document.text.size) := by
  have hsound := sound_run hrun
  have husual : d.reader = .usual := (moves_run hrun).fixed.2
  have hfaults :=
    (Parse.diagnostics_eq_nil.1 ((hsound.diagnostics_usual husual).symm.trans hclean)).1
  unfold unwrap attempt at ho
  split at ho
  · obtain rfl := some.inj ho
    cases hok
  · cases ho
  next plan hplan =>
    obtain ⟨parent, u⟩ := plan
    obtain ⟨edit, -, ho⟩ := bind_eq_some_iff.1 ho
    obtain ⟨⟨new, log⟩, hcommit, ho⟩ := bind_eq_some_iff.1 ho
    obtain rfl := some.inj ho
    rw [unwrapsSafely, hplan] at hsafe
    obtain ⟨hstart, hbody, hbody', hstop, hle, hle'⟩ := hsound.cuts_of_unwrapping husual hplan
    obtain ⟨e, new', log', he, hresult, hcommit'⟩ := exists_commit (Manipulation.fits_unwrapping
      hstart.isBoundary hstop.isBoundary hbody.isBoundary hbody'.isBoundary) parent.index
    obtain ⟨rfl, rfl⟩ := Prod.mk.inj (mem_unique hcommit' hcommit)
    have hkept := u.between_result hfaults hstart hbody hbody' hstop hle hle' hsafe he hresult
    obtain ⟨w, place, block, left, right, hw, hplace, hblock, hbraces, hspan, hfirst, hlast, -⟩ :=
      exists_of_unwrapping hplan
    rw [hspan, hfirst, hlast] at hkept
    rw [(wraps_wrapAll new' _).text_eq, hkept]
    simp only [tokensUnwrapped?, hw, Except.toOption, hplace, hblock, hbraces, bind_eq_bind,
      bind_some]
    rfl

theorem unwrap_keeps_tokens_string : ∃ d o found,
    (create 0 "a.ts" "namespace N \x7b // c\n  let s = '\\\nx'; \x7d\nb;".toList {} .usual).run
      [.children ⟨0, 0⟩] = some d ∧ d.diagnostics = [] ∧ d.unwrap ⟨0, 1⟩ = some o ∧
    o.answer = .ok found ∧ d.unwrapsSafely ⟨0, 1⟩ = true ∧
    d.tokensUnwrapped? ⟨0, 1⟩ =
      some ((Lexed.ofText o.document.text).between 0 o.document.text.size) := by
  have hfound : ∃ d ∈
      (create 0 "a.ts" "namespace N \x7b // c\n  let s = '\\\nx'; \x7d\nb;".toList {} .usual).run
      [.children ⟨0, 0⟩], ∃ o ∈ d.unwrap ⟨0, 1⟩, ∃ found, o.answer = .ok found ∧
      d.diagnostics = [] ∧ d.unwrapsSafely ⟨0, 1⟩ = true := by
    decide +kernel
  obtain ⟨d, hrun, o, ho, found, hok, hclean, hsafe⟩ := hfound
  exact ⟨d, o, found, hrun, hclean, ho, hok, hsafe, unwrap_keeps_tokens hrun hclean ho hok hsafe⟩

/-- A comment at the end of a body takes up what comes behind the brace. -/
theorem unwrap_loses_tokens : ∃ d o found,
    (create 0 "a.ts" "\x7b a; // c\n\x7d b;".toList {} .usual).run [.children ⟨0, 0⟩] = some d ∧
    d.diagnostics = [] ∧ d.unwrap ⟨0, 1⟩ = some o ∧ o.answer = .ok found ∧
    d.tokensUnwrapped? ⟨0, 1⟩ ≠
      some ((Lexed.ofText o.document.text).between 0 o.document.text.size) := by
  have hfound :
      ∃ d ∈ (create 0 "a.ts" "\x7b a; // c\n\x7d b;".toList {} .usual).run [.children ⟨0, 0⟩],
      ∃ o ∈ d.unwrap ⟨0, 1⟩, ∃ found, o.answer = .ok found ∧ d.diagnostics = [] ∧
      ∃ tokens ∈ d.tokensUnwrapped? ⟨0, 1⟩,
        tokens.length ≠ ((Lexed.ofText o.document.text).between 0 o.document.text.size).length := by
    decide +kernel
  obtain ⟨d, hrun, o, ho, found, hok, hclean, tokens, htokens, hlost⟩ := hfound
  refine ⟨d, o, found, hrun, hclean, ho, hok, fun hkept => hlost ?_⟩
  rw [mem_unique htokens hkept]

end Document
end LiveEdit
