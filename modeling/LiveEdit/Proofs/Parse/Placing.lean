import LiveEdit.Proofs.Tree.Replacement

namespace LiveEdit
open Option
open List hiding count count_append

namespace Outline

def Place.address : Place → Address
  | here before _ => [before.countP isBranch]
  | inside before _ inner _ => before.countP isBranch :: inner.address

end Outline

namespace Tree

def Opens (ls : List (Kind × Text)) : Prop := ∀ l ∈ ls.head?, l.1.isTrivia = false

end Tree

namespace Tree

lemma count_leaves (ls : List (Kind × Text)) : count (ls.map ofLeaf) = 0 := by
  rw [count, countP_eq_zero]
  intro t ht
  obtain ⟨l, -, rfl⟩ := mem_map.1 ht
  exact Bool.false_ne_true

lemma count_append (ts us : List Tree) : count (ts ++ us) = count ts + count us := countP_append

end Tree

namespace Braid
open LiveEdit.Tree
open Outline (isBranch Place)

variable {U V V' ls : List (Kind × Text)} {k : Kind} {parts parts' os : List Outline} {P : Place}
  {n i : Nat}
  {c s : Site} {a : Address} {ks : List Kind}

lemma trivia_opens (h : Opens ls) : trivia ls = ⟨[], ls⟩ := by
  cases ls with
  | nil => rfl
  | cons l ls => exact trivia_cons (h l rfl) ls

lemma opens_append (hU : Opens U) (hV : Opens V) : Opens (U ++ V) := by
  cases U with
  | nil => exact hV
  | cons l U => exact hU

lemma exists_trivia (U : List (Kind × Text)) : ∃ Q U', U = Q ++ U' ∧
    (∀ l ∈ Q, l.1.isTrivia = true) ∧ Opens U' ∧ significant U' = significant U ∧ ∀ ls, Opens ls →
    trivia (U ++ ls) = ⟨Q.map ofLeaf, U' ++ ls⟩ := by
  have hsplit : U.takeWhile (·.1.isTrivia) ++ U.dropWhile (·.1.isTrivia) = U :=
    takeWhile_append_dropWhile
  have hQ : ∀ l ∈ U.takeWhile (·.1.isTrivia), l.1.isTrivia = true := fun l hl =>
    mem_takeWhile_imp (p := fun l : Kind × Text => l.1.isTrivia) hl
  have hopens : Opens (U.dropWhile (·.1.isTrivia)) := by
    intro l hl
    have hhead := head?_dropWhile_not (fun l : Kind × Text => l.1.isTrivia) U
    rw [mem_def.1 hl] at hhead
    simpa using hhead
  refine ⟨_, _, hsplit.symm, hQ, hopens, significant_trivia U, fun ls hls => ?_⟩
  have htrivia := trivia_append hQ (U.dropWhile (·.1.isTrivia) ++ ls)
  rwa [← append_assoc, hsplit, trivia_opens (opens_append hopens hls), append_nil] at htrivia

mutual

lemma exists_fill : ∀ (o : Outline) (U : List (Kind × Text)) (ks : List Kind),
    significant U = o.leaves ++ ks → ∃ ts U', leavesAll ts ++ U' = U ∧ significant U' = ks ∧
      count ts = [o].countP isBranch ∧ ∀ ls, Opens ls → fill o (U ++ ls) = ⟨ts, U' ++ ls⟩
  | .leaf k, U, ks, h => by
    obtain ⟨Q, U', rfl, hQ, hU', hsig, htrivia⟩ := exists_trivia U
    rw [← hsig] at h
    cases U' with
    | nil => cases h
    | cons l U' =>
      rw [significant_cons_of (hU' l rfl)] at h
      refine ⟨Q.map ofLeaf ++ [ofLeaf l], U', ?_, (cons.inj h).2, ?_, fun ls hls => ?_⟩
      · rw [leavesAll_append, leavesAll_leaves, append_assoc]
        rfl
      · rw [count_append, count_leaves]
        rfl
      · rw [fill, htrivia ls hls]
        rfl
  | .fault c, U, ks, h => by
    obtain ⟨Q, U', rfl, hQ, hU', hsig, htrivia⟩ := exists_trivia U
    refine ⟨Q.map ofLeaf, U', ?_, hsig.trans h, count_leaves Q, fun ls hls => ?_⟩
    · rw [leavesAll_leaves]
    · rw [fill, htrivia ls hls, Braid.andThen, append_nil]
  | .branch kind parts, U, ks, h => by
    obtain ⟨Q, U', rfl, hQ, hU', hsig, htrivia⟩ := exists_trivia U
    obtain ⟨ts, U'', hleaves, hks, -, hfill⟩ := exists_fillAll parts U' ks (hsig.trans h)
    refine ⟨Q.map ofLeaf ++ [.node kind ts], U'', ?_, hks, ?_, fun ls hls => ?_⟩
    · simp only [leavesAll_append, leavesAll_leaves, leavesAll, Tree.leaves, append_nil,
        append_assoc, hleaves]
    · rw [count_append, count_leaves]
      rfl
    · rw [fill, htrivia ls hls, Braid.andThen]
      dsimp only
      rw [hfill ls hls]
      rfl

lemma exists_fillAll : ∀ (os : List Outline) (U : List (Kind × Text)) (ks : List Kind), significant
      U = Outline.leavesAll os ++ ks → ∃ ts U', leavesAll ts ++ U' = U ∧ significant U' = ks ∧
    count ts = os.countP isBranch ∧ ∀ ls, Opens ls → fillAll os (U ++ ls) = ⟨ts, U' ++ ls⟩
  | [], U, ks, h => ⟨[], U, rfl, h, rfl, fun _ _ => rfl⟩
  | o :: os, U, ks, h => by
    rw [Outline.leavesAll, append_assoc] at h
    obtain ⟨ts, U', rfl, hrest, hcount, hfill⟩ := exists_fill o U _ h
    obtain ⟨us, U'', rfl, hks, hcounts, hfills⟩ := exists_fillAll os U' ks hrest
    refine ⟨ts ++ us, U'', ?_, hks, ?_, fun ls hls => ?_⟩
    · rw [leavesAll_append, append_assoc]
    · rw [count_append, hcount, hcounts, ← countP_append]
      rfl
    · rw [fillAll, hfill ls hls, Braid.andThen]
      dsimp only
      rw [hfills ls hls]

end

lemma fill_branch (kind : Kind) (hU : ∀ l ∈ U, l.1.isTrivia = true) (hV : Opens V) :
    fill (.branch kind parts) (U ++ V) =
      ⟨U.map ofLeaf ++ [.node kind (fillAll parts V).trees], (fillAll parts V).rest⟩ := by
  rw [fill, trivia_append hU, trivia_opens hV, append_nil]
  rfl

lemma count_size_front {ts : List Tree}
    {before : List Outline} (hcount : count ts = before.countP isBranch) (Q : List (Kind × Text)) :
    count (ts ++ Q.map ofLeaf) = before.countP isBranch ∧
    sizeAll (ts ++ Q.map ofLeaf) = (spell (leavesAll ts ++ Q)).size := by
  rw [count_append, count_leaves, hcount, sizeAll_append, sizeAll_leaves, spell_append,
    Text.size_append, ← sizeAll_eq_spell]
  exact ⟨rfl, rfl⟩

lemma replaced_put (P : Place) (hU : significant U = Outline.leavesAll P.before)
    (hV : Opens V) (hV' : Opens V') (hrest : (fillAll parts' V').rest = (fillAll parts V).rest) :
    (fillAll (P.put (.branch k parts')) (U ++ V')).rest =
      (fillAll (P.put (.branch k parts)) (U ++ V)).rest ∧ ∀ kind W,
      Replaced (.node k (fillAll parts V).trees) (.node k (fillAll parts' V').trees) P.address
      (spell U).size (.node kind ((fillAll (P.put (.branch k parts)) (U ++ V)).trees ++ W))
      (.node kind ((fillAll (P.put (.branch k parts')) (U ++ V')).trees ++ W)) := by
  induction P generalizing U with
  | here before after =>
    obtain ⟨ts, Q, rfl, hQ, hcount, hfill⟩ :=
      exists_fillAll before U [] (by rw [hU, append_nil]; rfl)
    have hput : ∀ ps ls, Opens ls →
        fillAll ((Place.here before after).put (.branch k ps)) (leavesAll ts ++ Q ++ ls) =
        ⟨ts ++ Q.map ofLeaf ++ .node k (fillAll ps ls).trees ::
          (fillAll after (fillAll ps ls).rest).trees,
          (fillAll after (fillAll ps ls).rest).rest⟩ := by
      intro ps ls hls
      rw [Place.put, fillAll_append, hfill ls hls, Braid.andThen]
      dsimp only
      rw [fillAll, fill_branch k (significant_eq_nil.1 hQ) hls]
      simp [Braid.andThen]
    rw [hput _ _ hV, hput _ _ hV', hrest]
    refine ⟨rfl, fun kind W => ?_⟩
    have hhere : Replaced (.node k (fillAll parts V).trees) (.node k (fillAll parts' V').trees) []
        0 _ _ := .here
    have hreplaced := Replaced.inside (ts ++ Q.map ofLeaf)
      ((fillAll after (fillAll parts V).rest).trees ++ W) kind hhere
    obtain ⟨hfront, hsize⟩ := count_size_front hcount Q
    rw [hfront, Nat.add_zero, hsize] at hreplaced
    simpa only [append_assoc, cons_append, Place.address] using hreplaced
  | inside before j inner after ih =>
    obtain ⟨ts, U', rfl, hU', hcount, hfill⟩ := exists_fillAll before U
      (Outline.leavesAll inner.before) (by rw [hU, Place.before, Outline.leavesAll_append])
    obtain ⟨Q, U'', rfl, hQ, hopens, hsig, htrivia⟩ := exists_trivia U'
    obtain ⟨hsame, hinner⟩ := ih (hsig.trans hU')
    have hput : ∀ ps ls, Opens ls →
        fillAll ((Place.inside before j inner after).put (.branch k ps))
        (leavesAll ts ++ (Q ++ U'') ++ ls) =
          ⟨ts ++ Q.map ofLeaf ++ .node j (fillAll (inner.put (.branch k ps)) (U'' ++ ls)).trees ::
            (fillAll after (fillAll (inner.put (.branch k ps)) (U'' ++ ls)).rest).trees,
            (fillAll after (fillAll (inner.put (.branch k ps)) (U'' ++ ls)).rest).rest⟩ := by
      intro ps ls hls
      rw [Place.put, fillAll_append, hfill ls hls, Braid.andThen]
      dsimp only
      rw [fillAll, append_assoc, fill_branch j hQ (opens_append hopens hls)]
      simp [Braid.andThen]
    rw [hput _ _ hV, hput _ _ hV', hsame]
    refine ⟨rfl, fun kind W => ?_⟩
    have hreplaced := Replaced.inside (ts ++ Q.map ofLeaf)
      ((fillAll after (fillAll (inner.put (.branch k parts)) (U'' ++ V)).rest).trees ++ W) kind
      (hinner j [])
    obtain ⟨hfront, hsize⟩ := count_size_front hcount Q
    have htotal : (spell (leavesAll ts ++ Q)).size + (spell U'').size =
        (spell (leavesAll ts ++ (Q ++ U''))).size := by
      rw [← append_assoc, spell_append _ U'', Text.size_append]
    rw [hfront, hsize, htotal, append_nil, append_nil] at hreplaced
    simpa only [append_assoc, cons_append, Place.address] using hreplaced

lemma exists_branch (h : significant ls = Outline.leavesAll os ++ ks)
    (hc : ((Site.row n (fillAll os ls).trees).filter (·.tree.isNode))[i]? = some c) :
    ∃ before k parts after U V, os = before ++ .branch k parts :: after ∧
    ls = U ++ V ∧ significant U = Outline.leavesAll before ∧
    significant V = Outline.leavesAll (.branch k parts :: after) ++ ks ∧ Opens V ∧
    c = ⟨n + (spell U).size, .node k (fillAll parts V).trees⟩ ∧ before.countP isBranch = i := by
  induction os generalizing ls n i with
  | nil => cases hc
  | cons o os ih =>
    have ho : significant ls = o.leaves ++ (Outline.leavesAll os ++ ks) := by
      rw [h, Outline.leavesAll, append_assoc]
    obtain ⟨ts, U', rfl, hU', hcount, hfill⟩ := exists_fill o ls _ ho
    have hone := hfill [] fun l hl => by cases hl
    simp only [append_nil] at hone
    rw [fillAll, hone, Braid.andThen, Site.row_append, filter_append] at hc
    dsimp only at hc
    rcases Nat.lt_or_ge i (count ts) with hlt | hge
    · rw [getElem?_append_left (by rwa [Site.length_nodes])] at hc
      rw [hcount] at hlt
      cases o with
      | leaf | fault => exact absurd hlt (Nat.not_lt_zero i)
      | branch k parts =>
        obtain rfl : i = 0 := Nat.lt_one_iff.1 hlt
        obtain ⟨Q, V, hQV, hQ, hV, hsig, -⟩ := exists_trivia (leavesAll ts ++ U')
        rw [hQV, fill_branch k hQ hV] at hone
        obtain ⟨rfl, -⟩ := Braid.mk.inj hone
        have hnode := Site.node_at n (Q.map ofLeaf) [] (t := .node k (fillAll parts V).trees) rfl
        rw [count_leaves, hc, sizeAll_leaves] at hnode
        exact ⟨[], k, parts, os, Q, V, rfl, hQV, significant_eq_nil.2 hQ, hsig.trans h, hV,
          some.inj hnode, rfl⟩
    · rw [getElem?_append_right (by rwa [Site.length_nodes]), Site.length_nodes] at hc
      obtain ⟨before, k, parts, after, U, V, rfl, rfl, hU, hV, hopens, rfl, hi⟩ := ih hU' hc
      refine ⟨o :: before, k, parts, after, leavesAll ts ++ U, V, rfl, (append_assoc ..).symm, ?_,
        hV, hopens, ?_, ?_⟩
      · have hfront : significant (leavesAll ts) = o.leaves := by
          rw [significant_append, hU'] at ho
          exact append_cancel_right ho
        rw [significant_append, hfront, hU, Outline.leavesAll]
      · rw [spell_append, Text.size_append, ← sizeAll_eq_spell, Nat.add_assoc]
      · have hsum :
            (o :: before).countP isBranch = [o].countP isBranch + before.countP isBranch := by
          rw [← countP_append, singleton_append]
        omega

lemma exists_place (h : significant ls = Outline.leavesAll os ++ ks)
    (hc : ((Site.row n (fillAll os ls).trees).filter (·.tree.isNode))[i]? = some c)
    (hat : c.at? a = some s) :
    ∃ (P : Place) (k : Kind) (parts : List Outline) (U V : List (Kind × Text)),
      os = P.put (.branch k parts) ∧ ls = U ++ V ∧ significant U = Outline.leavesAll P.before ∧
    Opens V ∧ s = ⟨n + (spell U).size, .node k (fillAll parts V).trees⟩ ∧ P.address = i :: a := by
  induction a generalizing os ls n i c ks with
  | nil =>
    obtain ⟨before, k, parts, after, U, V, rfl, rfl, hU, -, hV, rfl, hi⟩ := exists_branch h hc
    obtain rfl := some.inj hat
    exact ⟨.here before after, k, parts, U, V, rfl, rfl, hU, hV, rfl, by rw [Place.address, hi]⟩
  | cons j a ih =>
    obtain ⟨before, kind, inner, after, U, V, rfl, rfl, hU, hsig, hV, rfl, hi⟩ := exists_branch h hc
    obtain ⟨c', hc', hat'⟩ := bind_eq_some_iff.1 hat
    rw [Outline.leavesAll, append_assoc, Outline.leaves] at hsig
    obtain ⟨P, k, parts, U', V', rfl, rfl, hU', hV', rfl, haddress⟩ := ih hsig hc' hat'
    refine ⟨.inside before kind P after, k, parts, U ++ U', V', rfl, (append_assoc ..).symm, ?_,
      hV', ?_, ?_⟩
    · rw [significant_append, hU, hU', Place.before, Outline.leavesAll_append]
    · rw [spell_append, Text.size_append, Nat.add_assoc]
    · rw [Place.address, hi, haddress]

end Braid

namespace Parse
open LiveEdit.Tree
open Outline (Place)

variable {t t' : Text} {a : Address} {i : Nat} {s : Site} {k : Kind} {P : Place}
  {parts parts' : List Outline}
  {U V V' : List (Kind × Text)}

lemma exists_place (h : (ofText t).site.at? (i :: a) = some s) :
    ∃ (P : Place) (k : Kind) (parts : List Outline) (U V : List (Kind × Text)), outlines (lex t) =
      P.put (.branch k parts) ∧ lex t = U ++ V ∧ significant U = Outline.leavesAll P.before ∧
    Opens V ∧ s = ⟨(spell U).size, .node k (Braid.fillAll parts V).trees⟩ ∧ P.address = i :: a := by
  obtain ⟨c, hc, hat⟩ := bind_eq_some_iff.1 h
  have hleaves : significant (lex t) = Outline.leavesAll (outlines (lex t)) ++ [] := by
    rw [append_nil, leavesAll_outlines]
  have hnodes :
      ((Site.row 0 (Braid.fillAll (outlines (lex t)) (lex t)).trees).filter (·.tree.isNode))[i]? =
      some c := by
    rw [Parse.site, tree_ofText] at hc
    have htail : ∀ (n : Nat) (ls : List (Kind × Text)),
        (Site.row n (ls.map ofLeaf)).filter (·.tree.isNode) = [] :=
        fun n ls => eq_nil_of_length_eq_zero ((Site.length_nodes n _).trans (count_leaves ls))
    rwa [Site.nodes, Site.elements, children, Braid.whole, Braid.andThen, Site.row_append,
      filter_append, htail, append_nil] at hc
  obtain ⟨P, k, parts, U, V, hput, hlex, hU, hV, rfl, haddress⟩ :=
    Braid.exists_place hleaves hnodes hat
  exact ⟨P, k, parts, U, V, hput, hlex, hU, hV, by rw [Nat.zero_add], haddress⟩

lemma replaced_put (hput : outlines (lex t) = P.put (.branch k parts))
    (hput' : outlines (lex t') = P.put (.branch k parts')) (hlex : lex t = U ++ V)
    (hlex' : lex t' = U ++ V') (hU : significant U = Outline.leavesAll P.before) (hV : Opens V)
    (hV' : Opens V') (hrest : (Braid.fillAll parts' V').rest = (Braid.fillAll parts V).rest) :
    Replaced (.node k (Braid.fillAll parts V).trees) (.node k (Braid.fillAll parts' V').trees)
      P.address (spell U).size (ofText t).tree (ofText t').tree := by
  obtain ⟨hsame, hreplaced⟩ := Braid.replaced_put (k := k) P hU hV hV' hrest
  have hwhole :=
    hreplaced .sourceFile ((Braid.fillAll (P.put (.branch k parts)) (U ++ V)).rest.map ofLeaf)
  rw [tree_ofText, tree_ofText, hput, hput', hlex, hlex', Braid.whole, Braid.whole, Braid.andThen,
    Braid.andThen, hsame]
  exact hwhole

end Parse
end LiveEdit
