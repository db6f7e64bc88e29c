import LiveEdit.Proofs.Document.Forgetting

/-! Documents that agree on the wrappers issued before some time, and what keeps them so. -/

namespace LiveEdit
open List hiding all_eq

inductive Matches {ε α β : Type} (R : α → β → Prop) : Except ε α → Except ε β → Prop where
  | error (e : ε) : Matches R (.error e) (.error e)
  | ok {a : α} {b : β} (h : R a b) : Matches R (.ok a) (.ok b)

lemma matches_refl {ε α : Type} (x : Except ε α) : Matches Eq x x := by
  cases x with
  | error e => exact .error e
  | ok a => exact .ok rfl

lemma Matches.bind {ε α β γ δ : Type} {R : α → β → Prop} {S : γ → δ → Prop} {x : Except ε α}
    {y : Except ε β} {f : α → Except ε γ} {g : β → Except ε δ} (h : Matches R x y)
    (hfg : ∀ a b, R a b → Matches S (f a) (g b)) : Matches S (x >>= f) (y >>= g) := by
  cases h with
  | error e => exact .error e
  | ok hab => exact hfg _ _ hab

lemma Matches.map {ε α β γ δ : Type} {R : α → β → Prop} {S : γ → δ → Prop} {x : Except ε α}
    {y : Except ε β} {f : α → γ} {g : β → δ} (h : Matches R x y)
    (hfg : ∀ a b, R a b → S (f a) (g b)) : Matches S (x.map f) (y.map g) := by
  cases h with
  | error e => exact .error e
  | ok hab => exact .ok (hfg _ _ hab)

lemma Matches.eq_error {ε α β : Type} {R : α → β → Prop} {e : ε} {y : Except ε β}
    (h : Matches R (.error e) y) : y = .error e := by
  cases h
  rfl

lemma Matches.exists_ok {ε α β : Type} {R : α → β → Prop} {a : α} {y : Except ε β}
    (h : Matches R (.ok a) y) : ∃ b, y = .ok b ∧ R a b := by
  cases h with
  | ok hab => exact ⟨_, rfl, hab⟩

lemma Matches.refusing {α β : Type}
    {R : α → β → Prop} {x : Except EditError α} {y : Except EditError β} (h : Matches R x y) :
    Matches R (Failure.refusing x) (Failure.refusing y) := by
  cases h with
  | error e => exact .error _
  | ok hab => exact .ok hab

namespace Document
open Wrapper

variable {b c i : Nat} {d d' e new : Document} {n : NodeId} {w w' : Wrapper} {a : Address}

structure Graded (d : Document) : Prop where
  sound : d.Sound
  rising : d.root.Rising

lemma graded_create (tag : Nat) (file : String) (text : Text) (settings : Settings)
    (reader : Reader) : (create tag file text settings reader).Graded :=
  ⟨sound_create tag file text settings reader, rising_leaf _ _ _⟩

lemma Graded.move (h : d.Graded) (hm : Move d new) : new.Graded := by
  refine ⟨h.sound.move hm, ?_⟩
  cases hm with
  | configure settings => exact h.rising
  | make hm =>
    obtain ⟨a, rfl⟩ := h.sound.exists_wrap hm
    exact h.rising.reach h.sound.bound fun i hi => h.sound.lt_fresh_iff.2 (.inl hi)
  | forget n =>
    unfold Document.forget
    split_ifs
    · exact h.rising
    · exact h.rising
    · show (d.root.prune n.index).Rising
      rw [prune_eq_sift]
      exact h.rising.sift _
  | forgetDescendants n =>
    unfold Document.forgetDescendants
    split
    · exact h.rising
    · exact h.rising.of_links (links_clear _ _)
  | commit hc =>
    obtain ⟨e, -, ⟨-, rfl⟩ | ⟨-, text, -, hadvance⟩⟩ := exists_of_commit hc
    · exact h.rising
    · exact h.rising.of_links (h.sound.links_advance hadvance)

lemma Graded.moves (h : d.Graded) (hm : Moves d new) : new.Graded := by
  induction hm with
  | refl => exact h
  | tail _ hm ih => exact ih.move hm

structure Agrees (b : Nat) (d d' : Document) : Prop where
  tag : d'.tag = d.tag
  text : d'.text = d.text
  version : d'.version = d.version
  tree : d'.tree = d.tree
  diagnostics : d'.diagnostics = d.diagnostics
  settings : d'.settings = d.settings
  reader : d'.reader = d.reader
  wrappers : siftAll (· < b) [d'.root] = siftAll (· < b) [d.root]
  forgotten : d'.forgotten.filter (·.1 < b) = d.forgotten.filter (·.1 < b)
  graded : d.Graded
  graded' : d'.Graded
  le : b ≤ d.fresh
  le' : b ≤ d'.fresh

lemma Graded.agrees (h : d.Graded) (hb : b ≤ d.fresh) : Agrees b d d :=
  ⟨rfl, rfl, rfl, rfl, rfl, rfl, rfl, rfl, rfl, h, h, hb, hb⟩

lemma Agrees.trans (h : Agrees b d d') (h' : Agrees b d' e) : Agrees b d e where
  tag := h'.tag.trans h.tag
  text := h'.text.trans h.text
  version := h'.version.trans h.version
  tree := h'.tree.trans h.tree
  diagnostics := h'.diagnostics.trans h.diagnostics
  settings := h'.settings.trans h.settings
  reader := h'.reader.trans h.reader
  wrappers := h'.wrappers.trans h.wrappers
  forgotten := h'.forgotten.trans h.forgotten
  graded := h.graded
  graded' := h'.graded'
  le := h.le
  le' := h'.le'

lemma Agrees.symm (h : Agrees b d d') : Agrees b d' d where
  tag := h.tag.symm
  text := h.text.symm
  version := h.version.symm
  tree := h.tree.symm
  diagnostics := h.diagnostics.symm
  settings := h.settings.symm
  reader := h.reader.symm
  wrappers := h.wrappers.symm
  forgotten := h.forgotten.symm
  graded := h.graded'
  graded' := h.graded
  le := h.le'
  le' := h.le

lemma Graded.agrees_wrap (h : d.Graded) (hb : b ≤ d.fresh) (a : Address) :
    Agrees b d (d.wrap a).1 where
  tag := rfl
  text := rfl
  version := rfl
  tree := (extends_reach h.sound.bound).site
  diagnostics := rfl
  settings := rfl
  reader := rfl
  wrappers := by
    have hindex : (d.wrap a).1.root.index = d.root.index := (extends_reach h.sound.bound).index
    have hsift : sift (· < b) (d.wrap a).1.root = sift (· < b) d.root :=
      sift_reach h.sound.bound fun i hi => decide_eq_false (Nat.not_lt.2 (hb.trans hi))
    simp only [siftAll, hindex, hsift]
  forgotten := rfl
  graded := h
  graded' := h.move (.make (.wrap d a))
  le := hb
  le' := hb.trans (extends_reach h.sound.bound).le

lemma Wraps.agrees (hw : Wraps d new) (h : d.Graded) (hb : b ≤ d.fresh) : Agrees b d new := by
  induction hw with
  | refl => exact h.agrees hb
  | tail _ hstep ih =>
    obtain ⟨a, rfl⟩ := ih.graded'.sound.exists_wrap hstep
    exact ih.trans (ih.graded'.agrees_wrap ih.le' a)

lemma Graded.trailIn? (h : d.Graded) (hi : i < b) : trailIn? i (siftAll (· < b) [d.root]) =
    (d.root.trail? i).map (List.map (sift (· < b))) := by
  have hclosed := h.rising.closed b
  have htrail : Wrapper.trailIn? i [d.root] = d.root.trail? i := by
    rw [Wrapper.trailIn?, Wrapper.trailIn?, Option.or_none]
  rw [← htrail]
  apply trailIn?_siftAll
  · intro c hc hfalse
    obtain rfl := mem_singleton.1 hc
    apply trail?_eq_none
    intro hmem
    have hnot := hclosed.not_of_mem hfalse hmem
    exact of_decide_eq_false hnot hi
  · intro c hc
    obtain rfl := mem_singleton.1 hc
    exact trail?_sift hclosed (decide_eq_true hi)

lemma Agrees.trail? (h : Agrees b d d') (hi : i < b) : (d'.root.trail? i).map
      (List.map (sift (· < b))) = (d.root.trail? i).map (List.map (sift (· < b))) := by
  rw [← h.graded'.trailIn? hi, ← h.graded.trailIn? hi, h.wrappers]

def Same (b : Nat) (w w' : Wrapper) : Prop := sift (· < b) w' = sift (· < b) w

lemma Same.bare (h : Same b w w') : w'.bare = w.bare := by
  rw [← bare_sift (· < b) w', h, bare_sift]

lemma Same.index (h : Same b w w') : w'.index = w.index := by
  have hbare := congrArg Wrapper.index h.bare
  exact hbare

lemma Same.ordinal (h : Same b w w') : w'.ordinal = w.ordinal := by
  have hbare := congrArg Wrapper.ordinal h.bare
  exact hbare

lemma Same.site (h : Same b w w') : w'.site = w.site := by
  have hbare := congrArg Wrapper.site h.bare
  exact hbare

structure Held (b : Nat) (w w' : Wrapper) : Prop where
  same : Same b w w'
  lt : w.index < b

lemma Held.site (h : Held b w w') : w'.site = w.site := h.same.site

lemma Held.span (h : Held b w w') : w'.span = w.span := congrArg Site.span h.site

lemma Held.kind (h : Held b w w') : w'.kind = w.kind := congrArg Site.kind h.site

lemma rel_of_map_eq {α β : Type} {f : α → β} {x y : Option α} (h : y.map f = x.map f) :
    Option.Rel (fun a b => f b = f a) x y := by
  cases x with
  | none =>
    rw [Option.map_none, Option.map_eq_none_iff] at h
    rw [h]
    exact .none
  | some a =>
    obtain ⟨b, rfl, hb⟩ := Option.map_eq_some_iff.1 h
    exact .some hb

lemma map_find? (f : Wrapper → Wrapper) (i : Nat) (w : Wrapper) :
    (w.find? i).map f = ((w.trail? i).map (List.map f)).bind List.getLast? := by
  rw [Wrapper.find?]
  cases w.trail? i with
  | none => rfl
  | some l => exact getLast?_map.symm

lemma map_parent? (f : Wrapper → Wrapper) (i : Nat) (w : Wrapper) :
    (w.parent? i).map f = ((w.trail? i).map (List.map f)).bind (·.dropLast.getLast?) := by
  rw [Wrapper.parent?]
  cases w.trail? i with
  | none => rfl
  | some l =>
    simp only [Option.bind_some, Option.map_some]
    rw [← map_dropLast, getLast?_map]

lemma Agrees.find? (h : Agrees b d d') (hi : i < b) :
    Option.Rel (Same b) (d.root.find? i) (d'.root.find? i) := by
  apply rel_of_map_eq
  rw [map_find?, map_find?, h.trail? hi]

lemma Agrees.parent? (h : Agrees b d d') (hi : i < b) :
    Option.Rel (Held b) (d.root.parent? i) (d'.root.parent? i) := by
  have hrel : Option.Rel (Same b) (d.root.parent? i) (d'.root.parent? i) := by
    apply rel_of_map_eq
    rw [map_parent?, map_parent?, h.trail? hi]
  cases hp : d.root.parent? i with
  | none =>
    rw [hp] at hrel
    generalize d'.root.parent? i = x' at hrel ⊢
    cases hrel
    exact .none
  | some p =>
    -- a parent is earlier still
    obtain ⟨hmem, c, hc, hindex⟩ := exists_of_parent? hp
    have hlt : p.index < c.index := h.graded.rising p hmem c hc
    rw [hp] at hrel
    generalize d'.root.parent? i = x' at hrel ⊢
    cases hrel with
    | some hsame => exact .some ⟨hsame, by omega⟩

lemma Agrees.bare_trail (h : Agrees b d d') (hi : i < b) :
    ((d'.root.trail? i).getD []).map bare = ((d.root.trail? i).getD []).map bare := by
  have hbare : bare ∘ sift (· < b) = bare := funext fun w => bare_sift _ w
  have hmap : ∀ o : Option (List Wrapper),
      (o.getD []).map bare = ((o.map (List.map (sift (· < b)))).getD []).map bare := by
    intro o
    cases o with
    | none => rfl
    | some l =>
      simp only [Option.getD_some, Option.map_some, map_map, hbare]
  rw [hmap, h.trail? hi, ← hmap]

lemma Agrees.focus (h : Agrees b d d') (hi : i < b) : ((d'.root.trail? i).getD []).map
      Wrapper.index = ((d.root.trail? i).getD []).map Wrapper.index := by
  have hmap := congrArg (List.map Wrapper.index) (h.bare_trail hi)
  rw [map_map, map_map] at hmap
  exact hmap

lemma Agrees.address (h : Agrees b d d') (hw : Same b w w') (hi : w.index < b) :
    d'.address w' = d.address w := by
  have hmap := congrArg (List.map Wrapper.ordinal) (h.bare_trail hi)
  rw [map_map, map_map] at hmap
  have hdrop := congrArg (drop 1) hmap
  rw [← map_drop, ← map_drop] at hdrop
  rw [Document.address, Document.address, hw.index]
  exact hdrop

lemma lookup_filter {α : Type} {l : List (Nat × α)} (hi : i < b) :
    (l.filter (·.1 < b)).lookup i = l.lookup i := by
  induction l with
  | nil => rfl
  | cons p l ih =>
    rw [filter_cons, lookup_cons]
    by_cases hp : p.1 < b
    · rw [if_pos (decide_eq_true hp), lookup_cons, ih]
    · have hne : (i == p.1) = false := by
        rw [beq_eq_false_iff_ne]
        omega
      rw [if_neg (by simpa using hp), hne, ih]

def Earlier (b : Nat) (d : Document) (n : NodeId) : Prop := n.document = d.tag → n.index < b

section

variable (h : Agrees b d d') (hn : Earlier b d n)
include h hn

lemma Agrees.lastKnown? : d'.lastKnown? n = d.lastKnown? n := by
  unfold Document.lastKnown?
  rw [h.tag]
  split_ifs with htag
  · rw [← lookup_filter (hn htag), h.forgotten, lookup_filter (hn htag)]
  · rfl

lemma Agrees.node : Matches (Held b) (d.node n) (d'.node n) := by
  have hknown := h.lastKnown? hn
  unfold Document.lastKnown? at hknown
  unfold Document.node
  rw [h.tag] at hknown ⊢
  split_ifs at hknown ⊢ with htag
  · rw [hknown]
    cases d.forgotten.lookup n.index with
    | some known => exact .error _
    | none =>
      have hfind := h.find? (hn htag)
      cases hw : d.root.find? n.index with
      | none =>
        rw [hw] at hfind
        generalize d'.root.find? n.index = x' at hfind ⊢
        cases hfind
        exact .error _
      | some w =>
        have hindex := ((find?_eq_some_iff h.graded.sound.nodup).1 hw).2
        rw [hw] at hfind
        generalize d'.root.find? n.index = x' at hfind ⊢
        cases hfind with
        | some hsame => exact .ok ⟨hsame, hindex ▸ hn htag⟩
  · exact .error _

def place? (d : Document) (n : NodeId) : Option (Address × Site) :=
  (d.node n).toOption.map fun w => (d.address w, w.site)

lemma Agrees.place? : d'.place? n = d.place? n := by
  have hnode := h.node hn
  unfold Document.place?
  cases hw : d.node n with
  | error e =>
    rw [hw] at hnode
    rw [hnode.eq_error]
    rfl
  | ok w =>
    rw [hw] at hnode
    obtain ⟨w', hw', hsame, hlt⟩ := hnode.exists_ok
    have haddress := h.address hsame hlt
    rw [hw']
    simp only [Except.toOption, Option.map_some, haddress, hsame.site]

lemma Agrees.parent : d'.parent n = d.parent n := by
  have hnode := h.node hn
  unfold Document.parent
  cases hw : d.node n with
  | error e =>
    rw [hw] at hnode
    rw [hnode.eq_error]
    rfl
  | ok w =>
    rw [hw] at hnode
    obtain ⟨w', hw', hsame, hlt⟩ := hnode.exists_ok
    have hparent := h.parent? hlt
    have hmap : (d'.root.parent? w'.index).map (fun p => d'.nodeId p.index) =
        (d.root.parent? w.index).map fun p => d.nodeId p.index := by
      rw [hsame.index]
      generalize d.root.parent? w.index = x at hparent ⊢
      generalize d'.root.parent? w.index = x' at hparent ⊢
      cases hparent with
      | none => rfl
      | some hp => rw [Option.map_some, Option.map_some, hp.same.index, nodeId, h.tag, nodeId]
    rw [hw']
    exact congrArg Except.ok hmap

end

lemma filter_recorded {lost lost' : List Wrapper} {old old' : List (Nat × LastKnown)}
    (hlost : (lost'.filter (·.index < b)).map bare = (lost.filter (·.index < b)).map bare)
    (hold : old'.filter (·.1 < b) = old.filter (·.1 < b)) :
    (lost'.map (fun w => (w.index, w.lastKnown)) ++ old').filter (·.1 < b) =
      (lost.map (fun w => (w.index, w.lastKnown)) ++ old).filter (·.1 < b) := by
  have hmap : ∀ ws : List Wrapper,
      (ws.map fun w => (w.index, w.lastKnown)).filter (·.1 < b) =
        ((ws.filter (·.index < b)).map bare).map fun w => (w.index, w.lastKnown) := by
    intro ws
    rw [filter_map, map_map]
    rfl
  rw [filter_append, filter_append, hold, hmap, hmap, hlost]

lemma Graded.sifts (h : d.Graded) (focus : List Nat) (e : Edit) (text : Text) :
    Carried.Sifts (· < b) (d.carried focus e text) (.collect (Carrier.carryPath ⟨e, focus⟩ 0
      ⟨0, (d.reader (d.version + 1) text).tree⟩) (siftAll (· < b) [d.root])) := by
  have hclosed := h.rising.closed b
  have hone : Carried.collect
      (Carrier.carryPath ⟨e, focus⟩ 0 ⟨0, (d.reader (d.version + 1) text).tree⟩) [d.root] =
        d.carried focus e text := by
    simp only [Carried.collect, Carried.append, append_nil]
    rfl
  rw [← hone]
  apply Carried.sifts_collect
  · intro c hc hq
    obtain rfl := mem_singleton.1 hc
    exact Carrier.sifts_path h.sound.bound hclosed hq
  · intro c hc hq
    obtain rfl := mem_singleton.1 hc
    exact (h.sound.carries focus e text).sifts_nothing hclosed hq

lemma Graded.wrappers_advance (h : d.Graded) (hb : b ≤ d.fresh)
    (focus : List Nat) (m : Manipulation) (e : Edit) (text : Text) : siftAll (· < b)
      [(d.advance focus m e text).1.root] = siftAll (· < b) (d.carried focus e text).kept := by
  rcases h.sound.advance_cases focus m e text with ⟨root, hkept, hnew⟩ | ⟨hkept, hnew⟩
  · rw [hnew, hkept]
    rfl
  · -- a new root is a later wrapper
    rw [hnew, hkept]
    apply siftAll_of_not
    intro w hw
    obtain rfl := mem_singleton.1 hw
    exact decide_eq_false (Nat.not_lt.2 hb)

lemma Agrees.of_reading (htag : d'.tag = d.tag) (htext : d'.text = d.text)
    (hversion : d'.version = d.version) (hsettings : d'.settings = d.settings)
    (hreader : d'.reader = d.reader)
    (hwrappers : siftAll (· < b) [d'.root] = siftAll (· < b) [d.root])
    (hforgotten : d'.forgotten.filter (·.1 < b) = d.forgotten.filter (·.1 < b))
    (hd : d.Graded) (hd' : d'.Graded) (hle : b ≤ d.fresh) (hle' : b ≤ d'.fresh) :
    Agrees b d d' where
  tag := htag
  text := htext
  version := hversion
  tree := by
    rw [Document.tree, Document.tree, hd'.sound.tree, hd.sound.tree, hreader, hversion, htext]
  diagnostics := by
    rw [hd'.sound.diagnostics, hd.sound.diagnostics, hreader, hversion, htext]
  settings := hsettings
  reader := hreader
  wrappers := hwrappers
  forgotten := hforgotten
  graded := hd
  graded' := hd'
  le := hle
  le' := hle'

lemma Graded.advance (h : d.Graded) (focus : List Nat) (m : Manipulation) (e : Edit)
    (text : Text) : (d.advance focus m e text).1.Graded :=
  ⟨h.sound.advance focus m e text, h.rising.of_links (h.sound.links_advance rfl)⟩

lemma Agrees.advance (h : Agrees b d d') (focus : List Nat) (m : Manipulation) (e : Edit)
    (text : Text) : Agrees b (d.advance focus m e text).1 (d'.advance focus m e text).1 := by
  have hsifts := h.graded.sifts (b := b) focus e text
  have hsifts' := h.graded'.sifts (b := b) focus e text
  rw [h.wrappers, h.reader, h.version] at hsifts'
  have hloses := h.graded.sound.loses_advance focus m e text
  have hloses' := h.graded'.sound.loses_advance focus m e text
  refine .of_reading h.tag rfl (congrArg (· + 1) h.version) h.settings h.reader ?_ ?_
    (h.graded.advance focus m e text) (h.graded'.advance focus m e text)
    (h.le.trans hloses.fresh) (h.le'.trans hloses'.fresh)
  · rw [h.graded.wrappers_advance h.le, h.graded'.wrappers_advance h.le', hsifts.kept, hsifts'.kept]
  · rw [hloses.forgotten, hloses'.forgotten]
    exact filter_recorded (hsifts'.lost.trans hsifts.lost.symm) h.forgotten

lemma Agrees.commit (h : Agrees b d d') {focus : Nat} (hfocus : focus < b) (m : Manipulation) :
    Option.Rel (fun c c' => Agrees b c.1 c'.1 ∧ c.1.tag = d.tag) (d.commit focus m)
      (d'.commit focus m) := by
  unfold Document.commit
  rw [h.text, h.focus hfocus]
  cases m.edit? d.text with
  | none => exact .none
  | some e =>
    simp only [Option.bind_eq_bind, Option.bind_some]
    split_ifs
    · exact .some ⟨h, rfl⟩
    · cases e.result? d.text with
      | none => exact .none
      | some text => exact .some ⟨h.advance _ m e text, rfl⟩

lemma Agrees.root (h : Agrees b d d') (hroot : d.root.index < b) : Same b d.root d'.root := by
  have hwrappers := h.wrappers
  rw [siftAll_singleton (w := d.root) (decide_eq_true hroot)] at hwrappers
  by_cases hroot' : d'.root.index < b
  · rw [siftAll_singleton (decide_eq_true hroot')] at hwrappers
    exact (cons.inj hwrappers).1
  · rw [siftAll, if_neg (by simpa using hroot'), siftAll] at hwrappers
    cases hwrappers

lemma Agrees.rootId_of_eq (h : Agrees b d d') (hn : Earlier b d n) (heq : n = d.rootId) :
    n = d'.rootId := by
  have hroot : d.root.index < b := by
    have hindex : n.index < b := hn (by rw [heq]; rfl)
    rwa [heq] at hindex
  rw [heq, rootId, nodeId, rootId, nodeId, h.tag, (h.root hroot).index]

lemma Agrees.earlier (h : Agrees b d d') (hn : Earlier b d n) : Earlier b d' n :=
  fun htag => hn (htag.trans h.tag)

lemma Same.all (h : Same b w w') (hw : w.Closed (· < b)) (hw' : w'.Closed (· < b))
    (hi : w.index < b) : (w'.all.filter (·.index < b)).map Wrapper.bare =
      (w.all.filter (·.index < b)).map Wrapper.bare := by
  have hi' : w'.index < b := h.index ▸ hi
  rw [← all_sift hw (decide_eq_true hi), ← all_sift hw' (decide_eq_true hi'), h]

lemma Same.below (h : Same b w w') (hw : w.Closed (· < b)) (hw' : w'.Closed (· < b))
    (hi : w.index < b) : ((allOf w'.children).filter (·.index < b)).map Wrapper.bare =
      ((allOf w.children).filter (·.index < b)).map Wrapper.bare := by
  have hi' : w'.index < b := h.index ▸ hi
  have hall := h.all hw hw' hi
  rw [all_eq, all_eq w, filter_cons, filter_cons, if_pos (decide_eq_true hi),
    if_pos (decide_eq_true hi')] at hall
  exact (cons.inj hall).2

lemma Graded.closed (h : d.Graded) (hw : w ∈ d.root.all) (b : Nat) : w.Closed (· < b) :=
  fun v hv => h.rising.closed b v (mem_all_trans hw hv)

lemma Agrees.record {root root' : Wrapper} {lost lost' : List Wrapper}
    (h : Agrees b d d') (hroot : siftAll (· < b) [root'] = siftAll (· < b) [root])
    (hlost : (lost'.filter (·.index < b)).map bare = (lost.filter (·.index < b)).map bare)
    (hd : ({ d with root }.record lost).Graded)
    (hd' : ({ d' with root := root' }.record lost').Graded) :
    Agrees b ({ d with root }.record lost) ({ d' with root := root' }.record lost') :=
  .of_reading h.tag h.text h.version h.settings h.reader hroot
    (filter_recorded hlost h.forgotten) hd hd' h.le h.le'

lemma Agrees.lost (h : Agrees b d d') (hi : i < b) :
    ((((d'.root.find? i).map Wrapper.all).getD []).filter (·.index < b)).map bare =
      ((((d.root.find? i).map Wrapper.all).getD []).filter (·.index < b)).map bare := by
  have hfind := h.find? hi
  cases hw : d.root.find? i with
  | none =>
    rw [hw] at hfind
    generalize d'.root.find? i = x' at hfind
    cases hfind
    rfl
  | some w =>
    cases hw' : d'.root.find? i with
    | none =>
      rw [hw, hw'] at hfind
      cases hfind
    | some w' =>
      rw [hw, hw'] at hfind
      cases hfind with
      | some hsame =>
        obtain ⟨hmem, rfl⟩ := (find?_eq_some_iff h.graded.sound.nodup).1 hw
        have hmem' := ((find?_eq_some_iff h.graded'.sound.nodup).1 hw').1
        exact hsame.all (h.graded.closed hmem b) (h.graded'.closed hmem' b) hi

lemma Agrees.forget (h : Agrees b d d') (hn : Earlier b d n) :
    Agrees b (d.forget n).document (d'.forget n).document ∧
    (d'.forget n).answer = (d.forget n).answer := by
  have hgraded := h.graded.move (.forget d n)
  have hgraded' := h.graded'.move (.forget d' n)
  unfold Document.forget at hgraded hgraded' ⊢
  by_cases hroot : n = d.rootId
  · rw [if_pos hroot, if_pos (h.rootId_of_eq hn hroot)]
    exact ⟨h, rfl⟩
  · have hroot' : n ≠ d'.rootId := fun heq => hroot (h.symm.rootId_of_eq (h.earlier hn) heq)
    rw [if_neg hroot] at hgraded ⊢
    rw [if_neg hroot'] at hgraded' ⊢
    by_cases htag : n.document ≠ d.tag
    · have htag' : n.document ≠ d'.tag := h.tag ▸ htag
      rw [if_pos htag, if_pos htag']
      exact ⟨h, rfl⟩
    · have htag' : ¬ n.document ≠ d'.tag := h.tag ▸ htag
      rw [if_neg htag] at hgraded ⊢
      rw [if_neg htag'] at hgraded' ⊢
      refine ⟨h.record ?_ (h.lost (hn (not_not.1 htag))) hgraded hgraded', rfl⟩
      rw [siftAll_prune, siftAll_prune, h.wrappers]

lemma Agrees.forgetDescendants (h : Agrees b d d') (hn : Earlier b d n) :
    Agrees b (d.forgetDescendants n).document (d'.forgetDescendants n).document ∧
      (d'.forgetDescendants n).answer = (d.forgetDescendants n).answer := by
  have hgraded := h.graded.move (.forgetDescendants d n)
  have hgraded' := h.graded'.move (.forgetDescendants d' n)
  have hnode := h.node hn
  unfold Document.forgetDescendants at hgraded hgraded' ⊢
  cases hw : d.node n with
  | error e =>
    rw [hw] at hnode
    rw [hnode.eq_error]
    exact ⟨h, rfl⟩
  | ok w =>
    rw [hw] at hnode hgraded
    obtain ⟨w', hw', hsame, hlt⟩ := hnode.exists_ok
    rw [hw'] at hgraded' ⊢
    have hmem := (h.graded.sound.node_eq_ok.1 hw).2.1
    have hmem' := (h.graded'.sound.node_eq_ok.1 hw').2.1
    refine ⟨h.record ?_ ?_ hgraded hgraded', rfl⟩
    · rw [siftAll_clear, siftAll_clear, h.wrappers, hsame.index]
    · exact hsame.below (h.graded.closed hmem b) (h.graded'.closed hmem' b) hlt

end Document
end LiveEdit
