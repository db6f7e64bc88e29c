import LiveEdit.Proofs.Parse.Missing
import LiveEdit.Proofs.Parse.Placing

namespace LiveEdit
open List

namespace Token

variable {ts R S : List Token}

def Leads (ts : List Token) : Prop := ∀ t ∈ ts.head?, t.kind.isTrivia = false

lemma leads_dropWhile (ts : List Token) : Leads (ts.dropWhile (·.kind.isTrivia)) := by
  intro t ht
  have hhead := head?_dropWhile_not (fun t : Token => t.kind.isTrivia) ts
  rw [Option.mem_def.1 ht] at hhead
  simpa using hhead

lemma suffix_of_leads (hS : S <:+ ts) (hfront : Leads S) (hR : R <:+ ts)
    (h : significant S <:+ significant R) : S <:+ R := by
  cases S with
  | nil => exact nil_suffix
  | cons t S => exact suffix_of_significant hS (hfront t rfl) hR h

lemma eq_of_leads (hS : S <:+ ts) (hfront : Leads S) (hR : R <:+ ts) (hfront' : Leads R)
    (h : significant S = significant R) : S = R := by
  have hle := suffix_of_leads hS hfront hR (h ▸ suffix_refl _)
  have hge := suffix_of_leads hR hfront' hS (h ▸ suffix_refl _)
  exact hle.eq_of_length (hle.length_le.antisymm hge.length_le)

lemma significant_leaves (ts : List Token) : Tree.significant (ts.map leaf) = significant ts := by
  rw [Tree.significant, map_map]
  rfl

lemma spell_leaves (ts : List Token) : Tree.spell (ts.map leaf) = ts.flatMap (·.text) := by
  rw [Tree.spell, flatMap_map]
  rfl

end Token

namespace Outline

lemma solid_of_put {P : Place} {o : Outline} (h : ∀ p ∈ P.put o, p.Solid) : o.Solid := by
  induction P with
  | here before after => exact h o (by simp [Place.put])
  | inside before kind inner after ih =>
    cases h (.branch kind (inner.put o)) (by simp [Place.put]) with
    | branch parts _ _ => exact ih parts

end Outline

namespace Woven
open Token Outline

variable {ts S : List Token} {ks : List Kind} {k : Kind} {parts : List Outline} {stop : Position}
  {d : Diagnostic}

def place (stop : Position) (w : Woven) : Position := (w.rest.head?.map (·.position)).getD stop

def Ends (stop : Position) (w : Woven) : Prop :=
  (∃ l ∈ (Tree.leavesAll w.trees).getLast?, l.1.isTrivia = false) ∨
    ∃ d ∈ w.diagnostics, d.complaint?.isSome = true ∧ d.position = w.place stop

lemma Ends.andThen (w : Woven) {f : List Token → Woven} (h : (f w.rest).Ends stop) :
    (w.andThen f).Ends stop := by
  rcases h with ⟨l, hl, htrivia⟩ | ⟨d, hd, hc, hplace⟩
  · refine .inl ⟨l, ?_, htrivia⟩
    rw [Woven.andThen, Tree.leavesAll_append, getLast?_append, Option.mem_def.1 hl]
    rfl
  · exact .inr ⟨d, mem_append_right _ hd, hc, hplace⟩

lemma Ends.wrap {w : Woven} (kind : Kind) (h : w.Ends stop) : (w.wrap kind).Ends stop := by
  have hleaves : Tree.leavesAll (w.wrap kind).trees = Tree.leavesAll w.trees := by
    simp [Woven.wrap, Tree.leavesAll, Tree.leaves]
  exact h.imp_left fun hlast => hleaves ▸ hlast

mutual

lemma ends_fill (stop : Position) : ∀ (o : Outline) (ts : List Token) (ks : List Kind),
    significant ts = o.leaves ++ ks → o.Solid → (fill stop o ts).Ends stop
  | .leaf k, ts, ks, h, hsolid => by
    obtain ⟨t, rest, hrest, rfl, -⟩ := dropWhile_of_significant h
    have hnext : (trivia ts).rest = t :: rest := hrest
    rw [fill]
    refine Ends.andThen _ (.inl ⟨t.leaf, ?_, ?_⟩)
    · rw [hnext]
      rfl
    · exact leads_dropWhile ts t (by rw [hrest]; rfl)
  | .fault c, ts, ks, h, hsolid => by
    rw [fill]
    exact Ends.andThen _ (.inr ⟨_, mem_singleton_self _, rfl, rfl⟩)
  | .branch kind os, ts, ks, h, hsolid => by
    cases hsolid with
    | branch hparts hne _ =>
      rw [fill]
      exact Ends.andThen _
        (.wrap kind (ends_fillAll stop os _ ks ((significant_dropWhile ts).trans h) hparts hne))

lemma ends_fillAll (stop : Position) :
    ∀ (os : List Outline) (ts : List Token) (ks : List Kind), significant ts = leavesAll os ++ ks →
    (∀ o ∈ os, o.Solid) → os ≠ [] → (fillAll stop os ts).Ends stop
  | [], ts, ks, h, hsolid, hne => absurd rfl hne
  | o :: os, ts, ks, h, hsolid, hne => by
    rw [leavesAll, append_assoc] at h
    have hfirst := ends_fill stop o ts _ h (hsolid o mem_cons_self)
    rw [fillAll]
    cases os with
    | nil =>
      have hsame : (fill stop o ts).andThen (fillAll stop []) =
          fill stop o ts := by simp [Woven.andThen, fillAll]
      rwa [hsame]
    | cons p os =>
      exact Ends.andThen _ (ends_fillAll stop (p :: os) _ ks (covers_fill stop o ts _ h).significant
        (fun q hq => hsolid q (mem_cons_of_mem o hq)) (cons_ne_nil p os))

end

lemma mem_branch {before after : List Outline}
    (hd : d ∈ (fillAll stop parts (trivia (fillAll stop before ts).rest).rest).diagnostics) :
    d ∈ (fillAll stop (before ++ .branch k parts :: after) ts).diagnostics := by
  rw [fillAll_append]
  refine mem_append_right _ ?_
  rw [fillAll, fill]
  exact mem_append_left _ (mem_append_right _ hd)

lemma diagnostics_put (P : Place) (h : significant ts = leavesAll (P.put (.branch k parts)) ++ ks)
    (hS : S <:+ ts)
    (hfront : Leads S) (hsig : significant S = leavesAll parts ++ (leavesAll P.after ++ ks))
    (hd : d ∈ (fillAll stop parts S).diagnostics) :
    d ∈ (fillAll stop (P.put (.branch k parts)) ts).diagnostics := by
  induction P generalizing ts ks with
  | here before after =>
    rw [Place.put, leavesAll_append, append_assoc] at h
    have hcovers := covers_fillAll stop before ts _ h
    have hrest : (trivia (fillAll stop before ts).rest).rest = S := by
      refine eq_of_leads ((dropWhile_suffix _).trans hcovers.suffix) (leads_dropWhile _)
        hS hfront ?_
      rw [hsig]
      refine (significant_dropWhile _).trans (hcovers.significant.trans ?_)
      rw [leavesAll, leaves, Place.after, append_assoc]
    exact mem_branch (hrest ▸ hd)
  | inside before kind inner after ih =>
    rw [Place.put, leavesAll_append, append_assoc] at h
    have hcovers := covers_fillAll stop before ts _ h
    rw [Place.after, leavesAll_append, append_assoc] at hsig
    have hinner : significant (trivia (fillAll stop before ts).rest).rest =
        leavesAll (inner.put (.branch k parts)) ++ (leavesAll after ++ ks) := by
      refine (significant_dropWhile _).trans (hcovers.significant.trans ?_)
      rw [leavesAll, leaves, append_assoc]
    have hsuffix : S <:+ (trivia (fillAll stop before ts).rest).rest := by
      refine suffix_of_leads hS hfront ((dropWhile_suffix _).trans hcovers.suffix) ?_
      rw [hinner, hsig, Place.leavesAll_put, leaves, append_assoc, append_assoc]
      exact suffix_append _ _
    exact mem_branch (ih hinner hsuffix hsig)

end Woven

namespace Parse
open Token Outline

variable {t : Text} {a : Address} {s : Site} {P : Place} {o : Outline}

lemma significant_put (hput : outlines (lex t) = P.put o) :
    significant (Lexed.ofText t).tokens = leavesAll (P.put o) ++ [] := by
  rw [← hput, leavesAll_outlines, lex, significant_leaves, append_nil]

lemma solid_of_outlines (hput : outlines (lex t) = P.put o) : o.Solid := by
  have hsolid := solid_ofKinds (Lexed.ofText t).significant
  rw [← outlines_lex, hput] at hsolid
  exact solid_of_put hsolid

lemma offset_rest {B R : List Token} (h : (Lexed.ofText t).tokens = B ++ R) :
    ((R.head?.map (·.position)).getD (Lexed.ofText t).stop).offset =
      Text.size (B.flatMap (·.text)) := by
  have hrest : R <:+ (Lexed.ofText t).tokens := ⟨B, h.symm⟩
  have hplace : (Lexed.ofText t).place R = B.length := by
    rw [Lexed.place, Lexed.size, h, length_append, Nat.add_sub_cancel]
  have hle : B.length ≤ (Lexed.ofText t).size := by
    rw [Lexed.size, h, length_append]
    exact Nat.le_add_right _ _
  obtain ⟨p, hp, hoffset⟩ := Lexed.exists_position hle
  have hposition := Lexed.position?_place hrest
  rw [hplace, hp] at hposition
  rw [← Option.some.inj hposition, hoffset, h, take_left]

lemma exists_woven (h : (ofText t).site.at? a = some s) (ha : a ≠ []) :
    ∃ (A S : List Token) (w : Woven) (k : Kind), (Lexed.ofText t).tokens = A ++ S ∧
    Leads S ∧ w.rest <:+ S ∧ Tree.leavesAll w.trees ++ w.rest.map Token.leaf = S.map Token.leaf ∧
    w.Ends (Lexed.ofText t).stop ∧ w.diagnostics ⊆ (ofText t).diagnostics ∧
    s = ⟨Text.size (A.flatMap (·.text)), .node k w.trees⟩ := by
  obtain ⟨i, a, rfl⟩ := exists_cons_of_ne_nil ha
  obtain ⟨P, k, parts, U, V, hput, hlex, hU, hV, rfl, -⟩ := exists_place h
  obtain ⟨A, S, htokens, rfl, rfl⟩ := map_eq_append_iff.1 hlex
  have hkinds := significant_put hput
  have hsig : significant S = leavesAll parts ++ (leavesAll P.after ++ []) := by
    rw [htokens, significant_append, ← significant_leaves A, hU, Place.leavesAll_put, append_assoc,
      append_assoc] at hkinds
    exact append_cancel_left hkinds
  have hleads : Leads S := by
    intro u hu
    refine hV u.leaf ?_
    rw [head?_map, Option.mem_def.1 hu]
    rfl
  have hbraid := Woven.braid_fillAll (Lexed.ofText t).stop parts S _ hsig
  have hcovers := Woven.covers_fillAll (Lexed.ofText t).stop parts S _ hsig
  refine ⟨A, S, Woven.fillAll (Lexed.ofText t).stop parts S, k, htokens, hleads, hcovers.suffix,
    hcovers.leaves, ?_, ?_, ?_⟩
  · cases solid_of_outlines hput with
    | branch hparts hne _ => exact Woven.ends_fillAll _ parts S _ hsig hparts hne
  · intro d hd
    have hin := Woven.diagnostics_put P hkinds ⟨A, htokens.symm⟩ hleads hsig hd
    rw [← hput, outlines_lex] at hin
    exact mem_append_left _ hin
  · rw [spell_leaves, ← hbraid]
    rfl

lemma opens_of_node (h : (ofText t).site.at? a = some s) (ha : a ≠ []) :
    Tree.Opens s.tree.leaves := by
  obtain ⟨A, S, w, k, -, hleads, -, hleaves, -, -, rfl⟩ := exists_woven h ha
  intro l hl
  have hhead : (S.map Token.leaf).head? = some l := by
    have hl' : (Tree.leavesAll w.trees).head? = some l := hl
    rw [← hleaves, head?_append, hl']
    rfl
  obtain ⟨u, hu, rfl⟩ := Option.map_eq_some_iff.1 (List.head?_map.symm.trans hhead)
  exact hleads u hu

lemma ends_of_node (h : (ofText t).site.at? a = some s) (ha : a ≠ []) :
    (∃ l ∈ s.tree.leaves.getLast?, l.1.isTrivia = false) ∨
    ∃ d ∈ (ofText t).diagnostics, d.complaint?.isSome = true ∧ d.position.offset = s.span.stop := by
  obtain ⟨A, S, w, k, htokens, -, ⟨M, hM⟩, hleaves, hends, hreported, rfl⟩ := exists_woven h ha
  refine hends.imp id fun ⟨d, hd, hcomplaint, hplace⟩ => ⟨d, hreported hd, hcomplaint, ?_⟩
  have hnode : Tree.leavesAll w.trees = M.map Token.leaf := by
    rw [← hM, map_append] at hleaves
    exact append_cancel_right hleaves
  have hsplit : (Lexed.ofText t).tokens = (A ++ M) ++ w.rest := by rw [htokens, ← hM, append_assoc]
  have hsize : Tree.sizeAll w.trees = Text.size (M.flatMap (·.text)) := by
    rw [Tree.sizeAll_eq_spell, hnode, spell_leaves]
  rw [hplace, Woven.place, offset_rest hsplit, Site.span_stop, Tree.size, hsize, flatMap_append,
    Text.size_append]

/-- No node below the root starts with trivia, and where one ends in trivia a complaint stands at
its end. In a text without complaints each of them reaches from a token of the grammar to a token of
the grammar. -/
theorem extents_ofText (h : (⟨0, (ofText t).tree⟩ : Site).at? a = some s) (ha : a ≠ []) :
    (∀ l ∈ s.tree.leaves.head?, l.1.isTrivia = false) ∧
    (∀ l ∈ s.tree.leaves.getLast?, l.1.isTrivia = true →
      ∃ d ∈ (ofText t).diagnostics, d.complaint?.isSome = true ∧ d.position.offset = s.span.stop) ∧
    ((∀ d ∈ (ofText t).diagnostics, d.complaint? = none) →
      ∃ first ∈ s.tree.leaves.head?, ∃ last ∈ s.tree.leaves.getLast?,
        first.1.isTrivia = false ∧ last.1.isTrivia = false) := by
  have hopens := opens_of_node h ha
  refine ⟨hopens, fun l hl htrivia => ?_, fun hclean => ?_⟩
  · refine (ends_of_node h ha).resolve_left ?_
    rintro ⟨m, hm, hmtrivia⟩
    rw [Option.mem_unique hl hm, hmtrivia] at htrivia
    exact Bool.false_ne_true htrivia
  · rcases ends_of_node h ha with ⟨last, hlast, hlasttrivia⟩ | ⟨d, hd, hcomplaint, -⟩
    · obtain ⟨first, hfirst⟩ := Option.isSome_iff_exists.1
        (isSome_head?.2 (ne_nil_of_mem (mem_of_getLast? hlast)))
      exact ⟨first, hfirst, last, hlast, hopens first hfirst, hlasttrivia⟩
    · rw [hclean d hd] at hcomplaint
      exact absurd hcomplaint Bool.false_ne_true

theorem extents_of_nameless : ∃ s, (⟨0, (ofText "var // c".toList).tree⟩ : Site).at? [0] = some s ∧
    (∃ l ∈ s.tree.leaves.getLast?, l.1.isTrivia = true) ∧
    (∀ l ∈ s.tree.leaves.head?, l.1.isTrivia = false) ∧
    ∃ d ∈ (ofText "var // c".toList).diagnostics, d.complaint?.isSome = true ∧
    d.position.offset = s.span.stop := by
  obtain ⟨s, hs⟩ : ∃ s, (⟨0, (ofText "var // c".toList).tree⟩ : Site).at? [0] = some s :=
    Option.isSome_iff_exists.1 (by decide +kernel)
  have hlast : ((⟨0, (ofText "var // c".toList).tree⟩ : Site).at? [0]).bind
      (·.tree.leaves.getLast?) = some (.lineComment, "// c".toList) := by decide +kernel
  rw [hs] at hlast
  have hextents := extents_ofText hs (cons_ne_nil 0 [])
  exact ⟨s, hs, ⟨_, hlast, rfl⟩, hextents.1, hextents.2.1 _ hlast rfl⟩

end Parse
end LiveEdit
