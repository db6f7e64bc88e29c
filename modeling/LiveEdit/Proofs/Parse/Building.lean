import LiveEdit.Parse
import LiveEdit.Proofs.Lexeme.Partition
import LiveEdit.Proofs.Outline.Reading
import Mathlib.Data.List.TakeWhile

/-! Weaving takes up each token once, in order, and under its own kind. -/

namespace LiveEdit
open List
open List Option

namespace Token

variable {t : Token}

def leaf (t : Token) : Kind × Text := (t.kind, t.text)

def significant (ts : List Token) : List Kind := (ts.map (·.kind)).filter (!·.isTrivia)

lemma leaves_tree (t : Token) : t.tree.leaves = [t.leaf] := rfl

lemma significant_cons_trivia (ts : List Token) (h : t.kind.isTrivia = true) :
    significant (t :: ts) = significant ts := by
  simp [significant, h]

lemma significant_cons (ts : List Token) (h : t.kind.isTrivia = false) :
    significant (t :: ts) = t.kind :: significant ts := by
  simp [significant, h]

lemma significant_dropWhile (ts : List Token) :
    significant (ts.dropWhile (·.kind.isTrivia)) = significant ts := by
  induction ts with
  | nil => rfl
  | cons t ts ih =>
    cases h : t.kind.isTrivia with
    | true => simp only [dropWhile_cons, h, if_true, ih, significant_cons_trivia ts h]
    | false => simp [h]

lemma dropWhile_of_significant {ts : List Token}
    {k : Kind} {ks : List Kind} (h : significant ts = k :: ks) :
    ∃ t rest, ts.dropWhile (·.kind.isTrivia) = t :: rest ∧ t.kind = k ∧ significant rest = ks := by
  induction ts with
  | nil => exact nomatch h
  | cons t ts ih =>
    cases ht : t.kind.isTrivia with
    | true =>
      simp only [dropWhile_cons, ht, if_true]
      exact ih (significant_cons_trivia ts ht ▸ h)
    | false =>
      rw [significant_cons ts ht] at h
      obtain ⟨hk, hks⟩ := List.cons.inj h
      exact ⟨t, ts, by simp [ht], hk, hks⟩

end Token

namespace Tree

@[simp] lemma leavesAll_append (ts us : List Tree) :
    leavesAll (ts ++ us) = leavesAll ts ++ leavesAll us := by
  induction ts with
  | nil => rfl
  | cons t ts ih => simp only [cons_append, leavesAll, ih, append_assoc]

lemma leavesAll_tokens (ts : List Token) : leavesAll (ts.map Token.tree) = ts.map Token.leaf := by
  induction ts with
  | nil => rfl
  | cons t ts ih =>
    simp only [map_cons, leavesAll, Token.leaves_tree, ih, singleton_append]

mutual

lemma text_eq_leaves : ∀ t : Tree, t.text = t.leaves.flatMap Prod.snd
  | token k t => by simp [text, leaves]
  | node k ts => by rw [text, leaves, textAll_eq_leaves ts]

lemma textAll_eq_leaves : ∀ ts : List Tree, textAll ts = (leavesAll ts).flatMap Prod.snd
  | [] => rfl
  | t :: ts => by
    rw [textAll, leavesAll, flatMap_append, text_eq_leaves t, textAll_eq_leaves ts]

end

end Tree

namespace Woven
open Token LiveEdit.Tree

structure Covers (w : Woven) (ts : List Token) (ks : List Kind) : Prop where
  leaves : leavesAll w.trees ++ w.rest.map leaf = ts.map leaf
  suffix : w.rest <:+ ts
  significant : significant w.rest = ks

variable {w : Woven} {ts : List Token} {ks ls : List Kind}

lemma Covers.andThen {f : List Token → Woven} (h : w.Covers ts ks)
    (hf : (f w.rest).Covers w.rest ls) : (w.andThen f).Covers ts ls := by
  refine ⟨?_, hf.suffix.trans h.suffix, hf.significant⟩
  simp only [Woven.andThen, leavesAll_append, append_assoc, hf.leaves, h.leaves]

lemma Covers.wrap (kind : Kind) (h : w.Covers ts ks) : (w.wrap kind).Covers ts ks := by
  refine ⟨?_, h.suffix, h.significant⟩
  simpa only [Woven.wrap, leavesAll, Tree.leaves, append_nil] using h.leaves

lemma covers_trivia (h : significant ts = ks) : (trivia ts).Covers ts ks := by
  refine ⟨?_, dropWhile_suffix _, (significant_dropWhile ts).trans h⟩
  simp only [trivia, leavesAll_tokens, ← map_append, takeWhile_append_dropWhile]

lemma covers_leaf {k : Kind} (h : significant ts = k :: ks) :
    ((trivia ts).andThen (next k)).Covers ts ks := by
  obtain ⟨t, rest, hrest, rfl, hks⟩ := dropWhile_of_significant h
  refine (covers_trivia h).andThen ?_
  have hnext : (trivia ts).rest = t :: rest := hrest
  rw [hnext]
  exact ⟨rfl, suffix_cons t rest, hks⟩

mutual

lemma covers_fill (stop : Position) : ∀ (o : Outline) (ts : List Token) (ks : List Kind),
    significant ts = o.leaves ++ ks → (fill stop o ts).Covers ts ks
  | .leaf k, ts, ks, h => by
    rw [fill]
    exact covers_leaf h
  | .fault c, ts, ks, h => by
    rw [fill]
    have hks := (significant_dropWhile ts).trans h
    exact (covers_trivia h).andThen ⟨rfl, suffix_refl _, hks⟩
  | .branch kind os, ts, ks, h => by
    rw [fill]
    have hks := (significant_dropWhile ts).trans h
    exact (covers_trivia h).andThen ((covers_fillAll stop os _ ks hks).wrap kind)

lemma covers_fillAll (stop : Position) : ∀ (os : List Outline) (ts : List Token) (ks : List Kind),
      significant ts = Outline.leavesAll os ++ ks → (fillAll stop os ts).Covers ts ks
  | [], ts, ks, h => ⟨rfl, suffix_refl _, h⟩
  | o :: os, ts, ks, h => by
    rw [fillAll]
    have ho := covers_fill stop o ts (Outline.leavesAll os ++ ks)
      (by rw [h, Outline.leavesAll, append_assoc])
    exact ho.andThen (covers_fillAll stop os _ ks ho.significant)

end

end Woven

namespace Parse
open Token LiveEdit.Tree

protected abbrev site (p : Parse) : Site := ⟨0, p.tree⟩

lemma leaves_ofText (t : Text) :
    (ofText t).tree.leaves = (Lexed.ofText t).tokens.map Token.leaf := by
  have hkinds := Outline.leavesAll_ofKinds (Lexed.endOfFile_not_mem_significant t)
  have h := Woven.covers_fillAll (Lexed.ofText t).stop
    (Outline.ofKinds (Lexed.ofText t).significant) (Lexed.ofText t).tokens []
    (by rw [hkinds, append_nil]; rfl)
  simp only [ofText, ofLexed, Tree.leaves, Woven.andThen, Woven.all, leavesAll_append,
    leavesAll_tokens]
  exact h.leaves

lemma text_ofText (t : Text) : (ofText t).tree.text = t := by
  rw [text_eq_leaves, leaves_ofText, flatMap_map]
  exact Lexed.tokens_text t

end Parse

inductive Outline.Event where
  | start (kind : Kind)
  | token (kind : Kind)
  | fault (complaint : Complaint)
  | finish

namespace Outline

mutual

def events : Outline → List Event
  | leaf k => [.token k]
  | fault c => [.fault c]
  | branch k os => .start k :: (eventsAll os ++ [.finish])

def eventsAll : List Outline → List Event
  | [] => []
  | o :: os => events o ++ eventsAll os

end

end Outline

namespace Lexed

def place (x : Lexed) (rest : List Token) : Nat := x.size - rest.length

variable {x : Lexed} {t : Token} {rest : List Token}

lemma drop_place (h : rest <:+ x.tokens) : x.tokens.drop (x.place rest) = rest :=
  (suffix_iff_eq_drop.1 h).symm

lemma getElem?_place (h : t :: rest <:+ x.tokens) : x.tokens[x.place (t :: rest)]? = some t := by
  have hhead := congrArg head? (drop_place h)
  rwa [head?_drop] at hhead

lemma place_succ (h : t :: rest <:+ x.tokens) : x.place (t :: rest) + 1 = x.place rest := by
  have hle := h.length_le
  simp only [place, size, length_cons] at hle ⊢
  omega

lemma place_lt (h : t :: rest <:+ x.tokens) : x.place (t :: rest) < x.size := by
  have hle := h.length_le
  simp only [place, size, length_cons] at hle ⊢
  omega

lemma kind?_place (h : t :: rest <:+ x.tokens) : x.kind? (x.place (t :: rest)) = some t.kind := by
  rw [kind?, getElem?_place h, map_some]

lemma position?_place (h : rest <:+ x.tokens) :
    x.position? (x.place rest) = some ((rest.head?.map (·.position)).getD x.stop) := by
  cases rest with
  | nil => simp [position?, place]
  | cons t rest =>
    rw [position?, if_neg (place_lt h).ne, getElem?_place h]
    rfl

lemma textIn?_place (h : t :: rest <:+ x.tokens) :
    x.textIn? (x.place (t :: rest)) (x.place (t :: rest) + 1) = some t.text := by
  have hlt := place_lt h
  have hone : (x.tokens.take (x.place (t :: rest) + 1)).drop (x.place (t :: rest)) = [t] := by
    rw [drop_take, drop_place h]
    simp
  rw [textIn?, if_pos ⟨Nat.lt_succ_self _, hlt⟩, hone]
  simp

lemma fault?_place (h : t :: rest <:+ x.tokens) : x.fault? (x.place (t :: rest)) = t.fault := by
  rw [fault?_eq, getElem?_place h, bind_some]

end Lexed

structure Builder where
  frames : List (Kind × List Tree)
  diagnostics : List Diagnostic
  index : Nat

namespace Builder
open Outline Token

def push (b : Builder) (t : Tree) : Option Builder :=
  match b.frames with
  | [] => none
  | (k, ts) :: fs => some { b with frames := (k, ts ++ [t]) :: fs }

def report (x : Lexed) (f : Fault) (b : Builder) : Option Builder := do
  let position ← x.position? b.index
  return { b with diagnostics := b.diagnostics ++ [⟨position, f⟩] }

def eat (x : Lexed) (k : Kind) (b : Builder) : Option Builder := do
  let b ← match x.fault? b.index with
    | some f => b.report x (.lexical f)
    | none => some b
  let text ← x.textIn? b.index (b.index + 1)
  let b ← b.push (.token k text)
  return { b with index := b.index + 1 }

def eatWhile (x : Lexed) (p : Kind → Bool) : Nat → Builder → Option Builder
  | 0, b => some b
  | n + 1, b =>
    if b.index < x.size then do
      let k ← x.kind? b.index
      if p k then b.eat x k >>= eatWhile x p n else some b
    else some b

def step (x : Lexed) (b : Builder) : Event → Option Builder
  | .start k => do
    let b ← b.eatWhile x Kind.isTrivia x.size
    return { b with frames := (k, []) :: b.frames }
  | .token k => do
    let b ← b.eatWhile x Kind.isTrivia x.size
    let l ← x.kind? b.index
    if l = k then b.eat x k else none
  | .fault c => do
    let b ← b.eatWhile x Kind.isTrivia x.size
    b.report x (.grammatical c)
  | .finish =>
    match b.frames with
    | (k, ts) :: (l, us) :: fs => some { b with frames := (l, us ++ [.node k ts]) :: fs }
    | _ => none

def build (x : Lexed) (es : List Event) : Option Parse := do
  let b ← es.foldlM (step x) ⟨[(.sourceFile, [])], [], 0⟩
  let b ← b.eatWhile x (fun _ => true) x.size
  match b.frames with
  | [(k, ts)] => some ⟨.node k ts, b.diagnostics⟩
  | _ => none

variable {x : Lexed} {t : Token} {rest : List Token}

def holding (x : Lexed) (k : Kind) (ts : List Tree) (fs : List (Kind × List Tree))
    (ds : List Diagnostic) (w : Woven) : Builder :=
  ⟨(k, ts ++ w.trees) :: fs, ds ++ w.diagnostics, x.place w.rest⟩

variable {k : Kind} {ts : List Tree} {fs : List (Kind × List Tree)} {ds : List Diagnostic}

lemma holding_andThen (w : Woven) (f : List Token → Woven) :
    holding x k (ts ++ w.trees) fs (ds ++ w.diagnostics) (f w.rest) =
      holding x k ts fs ds (w.andThen f) := by
  simp [holding, Woven.andThen]

lemma eat_place (l : Kind) (h : t :: rest <:+ x.tokens) :
    eat x l ⟨(k, ts) :: fs, ds, x.place (t :: rest)⟩ =
      some (holding x k ts fs ds (Woven.next l (t :: rest))) := by
  have hpos := Lexed.position?_place h
  have htext := Lexed.textIn?_place h
  have hfault := Lexed.fault?_place h
  rw [Lexed.place_succ h] at htext
  cases hf : t.fault <;> simp [eat, report, push, holding, Woven.next, hpos, htext, hfault, hf,
    Token.diagnostics, Lexed.place_succ h]

def taken (p : Kind → Bool) (ts : List Token) : Woven :=
  ⟨(ts.takeWhile (p ·.kind)).map Token.tree, (ts.takeWhile (p ·.kind)).flatMap Token.diagnostics,
    ts.dropWhile (p ·.kind)⟩

lemma eatWhile_place (p : Kind → Bool) {n : Nat} (hn : rest.length ≤ n) (h : rest <:+ x.tokens) :
    eatWhile x p n ⟨(k, ts) :: fs, ds, x.place rest⟩ =
      some (holding x k ts fs ds (taken p rest)) := by
  induction n generalizing ts ds rest with
  | zero =>
    obtain rfl : rest = [] := eq_nil_of_length_eq_zero (Nat.le_zero.1 hn)
    simp [eatWhile, holding, taken]
  | succ n ih =>
    cases rest with
    | nil =>
      have hend : ¬ x.place [] < x.size := by simp [Lexed.place]
      simp [eatWhile, holding, taken, hend]
    | cons t rest =>
      have hrest : rest <:+ x.tokens := (suffix_cons t rest).trans h
      rw [eatWhile, if_pos (Lexed.place_lt h), Lexed.kind?_place h, bind_eq_bind, bind_some]
      cases hp : p t.kind with
      | true =>
        rw [if_pos rfl, eat_place _ h, bind_eq_bind, bind_some]
        have hmore : eatWhile x p n ⟨(k, ts ++ [t.tree]) :: fs, ds ++ t.diagnostics, _⟩ = _ :=
          ih (Nat.le_of_succ_le_succ hn) hrest
        simpa [holding, taken, Woven.next, hp, Token.tree] using hmore
      | false => simp [holding, taken, hp]

lemma eatWhile_trivia (h : rest <:+ x.tokens) :
    eatWhile x Kind.isTrivia x.size ⟨(k, ts) :: fs, ds, x.place rest⟩ =
      some (holding x k ts fs ds (Woven.trivia rest)) :=
  eatWhile_place Kind.isTrivia h.length_le h

mutual

lemma run_events : ∀ (o : Outline) (k : Kind) (ts : List Tree) (fs : List (Kind × List Tree))
      (ds : List Diagnostic) (rest : List Token) (ks : List Kind), rest <:+ x.tokens →
    significant rest = o.leaves ++ ks → o.events.foldlM (step x) ⟨(k, ts) :: fs, ds, x.place rest⟩ =
      some (holding x k ts fs ds (Woven.fill x.stop o rest))
  | .leaf l, k, ts, fs, ds, rest, ks, hx, h => by
    obtain ⟨t, more, hrest, rfl, -⟩ := dropWhile_of_significant h
    have hnext : (Woven.trivia rest).rest = t :: more := hrest
    have hmore : t :: more <:+ x.tokens := hrest ▸ (dropWhile_suffix _).trans hx
    have hkind := Lexed.kind?_place hmore
    rw [Woven.fill, ← holding_andThen, hnext, ← eat_place _ hmore]
    simp [events, step, eatWhile_trivia hx, holding, hnext, hkind]
  | .fault c, k, ts, fs, ds, rest, ks, hx, h => by
    have hrest : (Woven.trivia rest).rest <:+ x.tokens := (dropWhile_suffix _).trans hx
    have hpos := Lexed.position?_place hrest
    rw [Woven.fill, ← holding_andThen]
    simp [events, step, eatWhile_trivia hx, holding, report, hpos, Woven.complain]
  | .branch l os, k, ts, fs, ds, rest, ks, hx, h => by
    have hks := (significant_dropWhile rest).trans h
    have hrun := run_eventsAll os l [] ((k, ts ++ (Woven.trivia rest).trees) :: fs)
      (ds ++ (Woven.trivia rest).diagnostics) (Woven.trivia rest).rest ks
      ((dropWhile_suffix _).trans hx) hks
    rw [Woven.fill, ← holding_andThen]
    simp [events, step, eatWhile_trivia hx, holding, hrun, Woven.wrap]

lemma run_eventsAll : ∀ (os : List Outline) (k : Kind) (ts : List Tree)
      (fs : List (Kind × List Tree)) (ds : List Diagnostic) (rest : List Token) (ks : List Kind),
      rest <:+ x.tokens → significant rest = leavesAll os ++ ks → (eventsAll os).foldlM (step x)
      ⟨(k, ts) :: fs, ds, x.place rest⟩ = some (holding x k ts fs ds (Woven.fillAll x.stop os rest))
  | [], k, ts, fs, ds, rest, ks, hx, h => by simp [eventsAll, Woven.fillAll, holding]
  | o :: os, k, ts, fs, ds, rest, ks, hx, h => by
    have ho : significant rest = o.leaves ++ (leavesAll os ++ ks) := by
      rw [h, leavesAll, append_assoc]
    have hrun := run_events o k ts fs ds rest _ hx ho
    have hcovers := Woven.covers_fill x.stop o rest _ ho
    rw [eventsAll, foldlM_append, hrun, Woven.fillAll, ← holding_andThen]
    exact run_eventsAll os _ _ _ _ _ ks (hcovers.suffix.trans hx) hcovers.significant

end

lemma taken_all (ts : List Token) : taken (fun _ => true) ts = Woven.all ts := by
  have htake : ts.takeWhile (fun _ => true) = ts := takeWhile_eq_self_iff.2 fun _ _ => rfl
  have hdrop : ts.dropWhile (fun _ => true) = [] := dropWhile_eq_nil_iff.2 fun _ _ => rfl
  simp [taken, Woven.all, htake, hdrop]

lemma eatWhile_all (h : rest <:+ x.tokens) :
    eatWhile x (fun _ => true) x.size ⟨[(k, ts)], ds, x.place rest⟩ =
      some (holding x k ts [] ds (Woven.all rest)) := by
  rw [eatWhile_place _ (n := x.size) h.length_le h, taken_all]

lemma build_ofText (t : Text) : build (Lexed.ofText t)
      (eventsAll (ofKinds (Lexed.ofText t).significant)) = some (Parse.ofText t) := by
  have hkinds := leavesAll_ofKinds (Lexed.endOfFile_not_mem_significant t)
  have hks : significant (Lexed.ofText t).tokens =
      leavesAll (ofKinds (Lexed.ofText t).significant) ++ [] := by
    rw [hkinds, append_nil]
    rfl
  have hstart : (Lexed.ofText t).place (Lexed.ofText t).tokens = 0 := Nat.sub_self _
  have hrun := run_eventsAll (ofKinds (Lexed.ofText t).significant) .sourceFile [] [] []
    (Lexed.ofText t).tokens [] (suffix_refl _) hks
  have hcovers := Woven.covers_fillAll (Lexed.ofText t).stop _ _ _ hks
  rw [hstart] at hrun
  unfold build
  rw [hrun]
  simp [holding, eatWhile_all hcovers.suffix, Parse.ofText, Parse.ofLexed, Woven.andThen]

end Builder

/-- Parsing is total and lossless. The rules read each significant kind of a text once; one that
read on after the last would leave an `endOfFile` among the leaves. The builder, which takes all its
tokens by number, comes to the end of the events. The leaves of the tree, below a root of kind
`sourceFile`, are the tokens of the text with the trivia among them. -/
theorem Parse.ofText_lossless (t : Text) :
    .endOfFile ∉ (Lexed.ofText t).significant ∧
    Outline.leavesAll (Outline.ofKinds (Lexed.ofText t).significant) =
      (Lexed.ofText t).significant ∧
    Builder.build (Lexed.ofText t)
      (Outline.eventsAll (Outline.ofKinds (Lexed.ofText t).significant)) = some (ofText t) ∧
    (ofText t).tree.isNode = true ∧ (ofText t).tree.kind = .sourceFile ∧
    (ofText t).tree.leaves = (Lexed.ofText t).tokens.map (fun k => (k.kind, k.text)) ∧
    (ofText t).tree.text = t :=
  ⟨Lexed.endOfFile_not_mem_significant t,
    Outline.leavesAll_ofKinds (Lexed.endOfFile_not_mem_significant t),
    Builder.build_ofText t, rfl, rfl, leaves_ofText t, text_ofText t⟩

end LiveEdit
