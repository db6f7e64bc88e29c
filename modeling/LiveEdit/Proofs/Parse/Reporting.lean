import LiveEdit.Proofs.Lexeme.Positions
import LiveEdit.Proofs.Parse.Outlining
import Mathlib.Data.List.Nodup

namespace LiveEdit
open List

namespace Token

variable {stop : Position} {ts R : List Token} {t u : Token}

def Rising (stop : Position) (ts : List Token) : Prop :=
  (ts.map (·.position.offset) ++ [stop.offset]).Pairwise (· < ·)

def front (stop : Position) (ts : List Token) : Position := (ts.head?.map (·.position)).getD stop

def spot (stop : Position) (ts : List Token) (n : Nat) : Position :=
  ((ts.filter (!·.kind.isTrivia))[n]?.map (·.position)).getD stop

lemma le_of_place (p : Position) (ls : List Lexeme) :
    ∀ t ∈ place p ls, p.offset ≤ t.position.offset := by
  induction ls generalizing p with
  | nil => exact fun _ ht => absurd ht not_mem_nil
  | cons l ls ih =>
    intro t ht
    rcases mem_cons.1 ht with rfl | ht
    · exact le_rfl
    · have hle := ih (p.past l) t ht
      rw [Position.offset_past] at hle
      omega

lemma rising_place (p : Position) {ls : List Lexeme} (h : ∀ l ∈ ls, l.text ≠ []) :
    Rising (ls.foldl .past p) (place p ls) := by
  induction ls generalizing p with
  | nil => exact pairwise_singleton _ _
  | cons l ls ih =>
    have hrest := ih (p.past l) fun m hm => h m (mem_cons_of_mem _ hm)
    refine pairwise_cons.2 ⟨fun n hn => ?_, hrest⟩
    -- what comes behind a lexeme starts behind its text
    have hbehind : (p.past l).offset ≤ n := by
      rcases mem_append.1 hn with hn | hn
      · obtain ⟨t, ht, rfl⟩ := mem_map.1 hn
        exact le_of_place _ _ t ht
      · rw [mem_singleton.1 hn, foldl_cons, Position.offset_pasts]
        exact Nat.le_add_right _ _
    have hsize : l.text.size ≠ 0 := fun hzero => h l mem_cons_self (Text.eq_nil_of_size hzero)
    rw [Position.offset_past] at hbehind
    show p.offset < n
    omega

lemma Rising.of_suffix (h : Rising stop ts) (hR : R <:+ ts) : Rising stop R := by
  obtain ⟨A, rfl⟩ := hR
  rw [Rising, map_append, append_assoc] at h
  exact (pairwise_append.1 h).2.1

lemma Rising.front_lt (h : Rising stop (t :: ts)) : t.position.offset < (front stop ts).offset := by
  refine (pairwise_cons.1 h).1 _ ?_
  cases ts with
  | nil => exact mem_singleton_self _
  | cons u ts => exact mem_cons_self

lemma Rising.front_le (h : Rising stop ts) (hR : R <:+ ts) :
    (front stop ts).offset ≤ (front stop R).offset := by
  induction ts with
  | nil =>
    rw [suffix_nil.1 hR]
  | cons t ts ih =>
    rcases suffix_cons_iff.1 hR with rfl | hR
    · exact le_rfl
    · exact h.front_lt.le.trans (ih (h.of_suffix (suffix_cons t ts)) hR)

lemma Rising.lt_stop (h : Rising stop ts) (ht : t ∈ ts) : t.position.offset < stop.offset :=
  (pairwise_append.1 h).2.2 _ (mem_map_of_mem ht) _ (mem_singleton_self _)

lemma Rising.pairwise (h : Rising stop ts) :
    ts.Pairwise fun t u => t.position.offset < u.position.offset :=
  pairwise_map.1 (pairwise_append.1 h).1

lemma Rising.eq_of_offset (h : Rising stop ts) (ht : t ∈ ts) (hu : u ∈ ts)
    (heq : t.position.offset = u.position.offset) : t = u := by
  have hoffsets : (ts.map (·.position.offset)).Nodup := (pairwise_append.1 h).1.imp Nat.ne_of_lt
  exact inj_on_of_nodup_map hoffsets ht hu heq

lemma spot_cases (stop : Position) (ts : List Token) (n : Nat) :
    (∃ t ∈ ts, t.kind.isTrivia = false ∧ spot stop ts n = t.position) ∨ spot stop ts n = stop := by
  rw [spot]
  cases ht : (ts.filter (!·.kind.isTrivia))[n]? with
  | none => exact .inr rfl
  | some t =>
    obtain ⟨hmem, hkind⟩ := mem_filter.1 (mem_of_getElem? ht)
    exact .inl ⟨t, hmem, by simpa using hkind, rfl⟩

lemma front_dropWhile (stop : Position) (ts : List Token) :
    front stop (ts.dropWhile (·.kind.isTrivia)) = spot stop ts 0 := by
  induction ts with
  | nil => rfl
  | cons t ts ih =>
    cases ht : t.kind.isTrivia with
    | true => simpa [spot, ht] using ih
    | false => simp [front, spot, ht]

lemma filter_dropWhile (ts : List Token) :
    (ts.dropWhile (·.kind.isTrivia)).filter (!·.kind.isTrivia) = ts.filter (!·.kind.isTrivia) := by
  induction ts with
  | nil => rfl
  | cons t ts ih =>
    cases ht : t.kind.isTrivia with
    | true => simp [ht, ih]
    | false => simp [ht]

lemma length_significant (ts : List Token) :
    (significant ts).length = (ts.filter (!·.kind.isTrivia)).length := by
  rw [significant, filter_map, length_map]
  rfl

lemma filter_rest {ks ls : List Kind}
    (hR : R <:+ ts) (hts : significant ts = ks ++ ls) (hks : significant R = ls) :
    R.filter (!·.kind.isTrivia) = (ts.filter (!·.kind.isTrivia)).drop ks.length := by
  rw [suffix_iff_eq_drop.1 (hR.filter _), ← length_significant, ← length_significant, hts, hks,
    length_append, Nat.add_sub_cancel]

end Token

namespace Outline

namespace Event

def complaint? : Event → Option Complaint
  | .fault c => some c
  | .start _ | .token _ | .finish => none

def faultsFrom (n : Nat) : List Event → List (Nat × Complaint)
  | [] => []
  | .fault c :: es => (n, c) :: faultsFrom n es
  | .token _ :: es => faultsFrom (n + 1) es
  | .start _ :: es | .finish :: es => faultsFrom n es

def isToken : Event → Bool
  | .token _ => true
  | .start _ | .fault _ | .finish => false

lemma faultsFrom_append (n : Nat) (es fs : List Event) :
    faultsFrom n (es ++ fs) = faultsFrom n es ++ faultsFrom (n + es.countP isToken) fs := by
  induction es generalizing n with
  | nil => rfl
  | cons e es ih =>
    cases e with
    | start k => simp [faultsFrom, isToken, ih]
    | token k =>
      rw [cons_append, faultsFrom, faultsFrom, ih, countP_cons_of_pos rfl, Nat.add_assoc,
        Nat.add_comm 1]
    | fault c => simp [faultsFrom, isToken, ih]
    | finish => simp [faultsFrom, isToken, ih]

lemma snd_faultsFrom (n : Nat) (es : List Event) :
    (faultsFrom n es).map Prod.snd = es.filterMap complaint? := by
  induction es generalizing n with
  | nil => rfl
  | cons e es ih =>
    cases e with
    | start k => exact ih n
    | token k => exact ih (n + 1)
    | fault c => exact congrArg (c :: ·) (ih n)
    | finish => exact ih n

end Event

open Event

mutual

lemma countP_events : ∀ o : Outline, o.events.countP isToken = o.leaves.length
  | .leaf k => rfl
  | .fault c => rfl
  | .branch k os => by simp [events, leaves, isToken, countP_eventsAll os]

lemma countP_eventsAll : ∀ os : List Outline, (eventsAll os).countP isToken = (leavesAll os).length
  | [] => rfl
  | o :: os => by simp [eventsAll, leavesAll, countP_events o, countP_eventsAll os]

end

end Outline

namespace Woven
open Token Outline Event

variable {w : Woven} {f : List Token → Woven} {stop : Position} {ts T A R : List Token}
  {ks : List Kind} {n : Nat}

/-- What is reported on the way from `ts` to the rest, in the order of the text. -/
structure Orderly (stop : Position) (ts : List Token) (w : Woven) : Prop where
  suffix : w.rest <:+ ts
  ordered : w.diagnostics.Pairwise fun d e => d.position.offset ≤ e.position.offset
  within : ∀ d ∈ w.diagnostics,
    (front stop ts).offset ≤ d.position.offset ∧ d.position.offset ≤ (front stop w.rest).offset

lemma Orderly.andThen (h : w.Orderly stop ts) (hf : (f w.rest).Orderly stop w.rest)
    (hts : Rising stop ts) : (w.andThen f).Orderly stop ts := by
  have hfirst := hts.front_le h.suffix
  have hsecond := (hts.of_suffix h.suffix).front_le hf.suffix
  refine ⟨hf.suffix.trans h.suffix,
    pairwise_append.2 ⟨h.ordered, hf.ordered, fun d hd e he => ?_⟩, ?_⟩
  · exact Nat.le_trans (h.within d hd).2 (hf.within e he).1
  · intro d hd
    show (front stop ts).offset ≤ _ ∧ _ ≤ (front stop (f w.rest).rest).offset
    rcases mem_append.1 hd with hd | hd
    · exact ⟨(h.within d hd).1, Nat.le_trans (h.within d hd).2 hsecond⟩
    · exact ⟨hfirst.trans (hf.within d hd).1, (hf.within d hd).2⟩

lemma orderly_taken (trees : List Tree) (hts : Rising stop (A ++ R)) :
    Orderly stop (A ++ R) ⟨trees, flaws A, R⟩ := by
  refine ⟨suffix_append A R, ?_, fun d hd => ?_⟩
  · have hA : A.Pairwise fun t u => t.position.offset < u.position.offset :=
      (pairwise_append.1 hts.pairwise).1
    refine pairwise_flatMap.2 ⟨fun t _ => ?_, hA.imp fun hlt d hd e he => ?_⟩
    · cases hfault : t.fault <;> simp [Token.diagnostics, hfault]
    · obtain ⟨f, -, rfl⟩ := mem_map.1 hd
      obtain ⟨g, -, rfl⟩ := mem_map.1 he
      exact hlt.le
  · obtain ⟨t, ht, f, -, rfl⟩ := mem_flaws.1 hd
    obtain ⟨B, C, rfl⟩ := append_of_mem ht
    rw [append_assoc] at hts ⊢
    have hat : Rising stop (t :: (C ++ R)) := hts.of_suffix (suffix_append _ _)
    refine ⟨hts.front_le (suffix_append B _), hat.front_lt.le.trans ?_⟩
    exact (hat.of_suffix (suffix_cons _ _)).front_le (suffix_append C R)

lemma orderly_trivia (hts : Rising stop ts) : (trivia ts).Orderly stop ts := by
  have hsplit : ts.takeWhile (·.kind.isTrivia) ++ ts.dropWhile (·.kind.isTrivia) = ts :=
    takeWhile_append_dropWhile
  have hrising : Rising stop (ts.takeWhile (·.kind.isTrivia) ++ ts.dropWhile (·.kind.isTrivia)) :=
    hsplit.symm ▸ hts
  have htaken := orderly_taken (trivia ts).trees hrising
  rwa [hsplit] at htaken

lemma orderly_next (k : Kind) (hts : Rising stop ts) : (next k ts).Orderly stop ts := by
  cases ts with
  | nil => exact orderly_taken (A := []) _ hts
  | cons t ts =>
    have htaken := orderly_taken (A := [t]) [.token k t.text] hts
    rwa [flaws, flatMap_singleton] at htaken

lemma orderly_all (hts : Rising stop ts) : (all ts).Orderly stop ts := by
  have htaken := orderly_taken (R := []) (ts.map Token.tree) ((append_nil ts).symm ▸ hts)
  rwa [append_nil] at htaken

lemma orderly_complain (c : Complaint) (ts : List Token) :
    (complain stop c ts).Orderly stop ts := by
  refine ⟨suffix_refl ts, pairwise_singleton _ _, fun d hd => ?_⟩
  obtain rfl := mem_singleton.1 hd
  exact ⟨le_rfl, le_rfl⟩

mutual

lemma orderly_fill :
    ∀ (o : Outline) (ts : List Token), Rising stop ts → (fill stop o ts).Orderly stop ts
  | .leaf k, ts, hts => by
    rw [fill]
    exact (orderly_trivia hts).andThen (orderly_next k (hts.of_suffix (dropWhile_suffix _))) hts
  | .fault c, ts, hts => by
    rw [fill]
    exact (orderly_trivia hts).andThen (orderly_complain c _) hts
  | .branch k os, ts, hts => by
    have hparts := orderly_fillAll os _ (hts.of_suffix (orderly_trivia hts).suffix)
    rw [fill]
    exact (orderly_trivia hts).andThen ⟨hparts.suffix, hparts.ordered, hparts.within⟩ hts

lemma orderly_fillAll :
    ∀ (os : List Outline) (ts : List Token), Rising stop ts → (fillAll stop os ts).Orderly stop ts
  | [], ts, hts => orderly_taken (A := []) [] hts
  | o :: os, ts, hts => by
    have hfirst := orderly_fill o ts hts
    rw [fillAll]
    exact hfirst.andThen (orderly_fillAll os _ (hts.of_suffix hfirst.suffix)) hts

end

def grammaticals (w : Woven) : List Diagnostic := w.diagnostics.filter (·.lexical?.isNone)

lemma grammaticals_andThen (w : Woven) (f : List Token → Woven) :
    (w.andThen f).grammaticals = w.grammaticals ++ (f w.rest).grammaticals := filter_append ..

lemma grammaticals_flaws (ts : List Token) : (flaws ts).filter (·.lexical?.isNone) = [] := by
  refine filter_eq_nil_iff.2 fun d hd => ?_
  obtain ⟨t, -, f, -, rfl⟩ := mem_flaws.1 hd
  exact Bool.false_ne_true

lemma grammaticals_all (ts : List Token) : (all ts).grammaticals = [] := grammaticals_flaws ts

lemma grammaticals_trivia (ts : List Token) : (trivia ts).grammaticals = [] := grammaticals_flaws _

lemma grammaticals_next (k : Kind) (ts : List Token) : (next k ts).grammaticals = [] := by
  cases ts with
  | nil => rfl
  | cons t ts =>
    have hflaws := grammaticals_flaws [t]
    rwa [flaws, flatMap_singleton] at hflaws

def complaint (stop : Position) (T : List Token) (e : Nat × Complaint) : Diagnostic :=
  ⟨spot stop T e.1, .grammatical e.2⟩

lemma complaint_zero (c : Complaint)
    (hT : (T.filter (!·.kind.isTrivia)).drop n = ts.filter (!·.kind.isTrivia)) :
    (complain stop c (trivia ts).rest).diagnostics = [complaint stop T (n, c)] := by
  have hspot :
      spot stop T n = spot stop ts 0 := by rw [spot, spot, ← hT, getElem?_drop, Nat.add_zero]
  rw [complaint, hspot, ← front_dropWhile]
  rfl

mutual

lemma grammaticals_fill :
    ∀ (o : Outline) (ts : List Token) (ks : List Kind) (n : Nat), significant ts = o.leaves ++ ks →
    (T.filter (!·.kind.isTrivia)).drop n = ts.filter (!·.kind.isTrivia) →
    (fill stop o ts).grammaticals = (faultsFrom n o.events).map (complaint stop T)
  | .leaf k, ts, ks, n, h, hT => by
    rw [fill, grammaticals_andThen, grammaticals_trivia, grammaticals_next]
    rfl
  | .fault c, ts, ks, n, h, hT => by
    rw [fill, grammaticals_andThen, grammaticals_trivia, grammaticals, complaint_zero c hT]
    rfl
  | .branch k os, ts, ks, n, h, hT => by
    have hrest : significant (trivia ts).rest = leavesAll os ++ ks :=
      (significant_dropWhile ts).trans h
    have hparts := grammaticals_fillAll os _ ks n hrest (hT.trans (filter_dropWhile ts).symm)
    have hfinish : faultsFrom n (events (.branch k os)) = faultsFrom n (eventsAll os) := by
      rw [events, faultsFrom, faultsFrom_append]
      exact append_nil _
    rw [fill, grammaticals_andThen, grammaticals_trivia, hfinish, ← hparts]
    rfl

lemma grammaticals_fillAll :
    ∀ (os : List Outline) (ts : List Token) (ks : List Kind) (n : Nat), significant ts =
      leavesAll os ++ ks → (T.filter (!·.kind.isTrivia)).drop n = ts.filter (!·.kind.isTrivia) →
    (fillAll stop os ts).grammaticals = (faultsFrom n (eventsAll os)).map (complaint stop T)
  | [], ts, ks, n, h, hT => rfl
  | o :: os, ts, ks, n, h, hT => by
    rw [leavesAll, append_assoc] at h
    have hcovers := covers_fill stop o ts _ h
    have hrest : (T.filter (!·.kind.isTrivia)).drop (n + o.leaves.length) =
        (fill stop o ts).rest.filter (!·.kind.isTrivia) := by
      rw [filter_rest hcovers.suffix h hcovers.significant, ← hT, drop_drop]
    rw [fillAll, grammaticals_andThen, grammaticals_fill o ts _ n h hT, grammaticals_fillAll os _ ks
      _ hcovers.significant hrest, eventsAll, faultsFrom_append, countP_events, map_append]

end

end Woven

namespace Lexed
open Outline

structure Reports (x : Lexed) (es : List Event) (ds : List Diagnostic) : Prop where
  ordered : ds.Pairwise fun d e => d.position.offset ≤ e.position.offset
  anchored : ∀ d ∈ ds, ∃ i ≤ x.size, x.position? i = some d.position
  trivia : ∀ d ∈ ds, ∀ k ∈ x.tokens, k.kind.isTrivia = true →
    k.position.offset = d.position.offset →
    ∃ f, k.fault = some f ∧ d = ⟨k.position, .lexical f⟩
  lexical : ds.filter (·.lexical?.isSome) = x.faults.filterMap fun e =>
    (x.position? e.1).map (⟨·, .lexical e.2⟩)
  once : ∀ e ∈ x.faults, ∃ p, x.position? e.1 = some p ∧ ds.count ⟨p, .lexical e.2⟩ = 1
  grammatical :
    (ds.filter (·.lexical?.isNone)).map (·.fault) = (es.filterMap Event.complaint?).map .grammatical
  /-- They stand at the token of the grammar that comes next. -/
  placed : ds.filter (·.lexical?.isNone) = (Event.faultsFrom 0 es).map fun e =>
    ⟨Token.spot x.stop x.tokens e.1, .grammatical e.2⟩

variable {x : Lexed} {k : Token}

lemma rising_ofText (t : Text) : Token.Rising (ofText t).stop (ofText t).tokens :=
  Token.rising_place .first fun l hl => Lexeme.text_ne_nil_of_mem_scanMany _ _ l hl

lemma exists_position_of_mem (hk : k ∈ x.tokens) :
    ∃ i ≤ x.size, x.position? i = some k.position := by
  obtain ⟨i, hi, rfl⟩ := mem_iff_getElem.1 hk
  refine ⟨i, hi.le, ?_⟩
  rw [position?, size, if_neg hi.ne, getElem?_eq_getElem hi]
  rfl

lemma faults_placed (x : Lexed) : x.faults.filterMap
      (fun e => (x.position? e.1).map (⟨·, .lexical e.2⟩)) = Woven.flaws x.tokens := by
  have hsame : ∀ e ∈ x.tokens.zipIdx, ((e.1.fault.map (e.2, ·)).bind fun e =>
      (x.position? e.1).map (Diagnostic.mk · (.lexical e.2))) =
      e.1.fault.map (⟨e.1.position, .lexical ·⟩) := by
    rintro ⟨k, i⟩ he
    have hk := mem_zipIdx_iff_getElem?.1 he
    have hi := (List.getElem?_eq_some_iff.1 hk).1
    cases hfault : k.fault with
    | none => rfl
    | some f => simp [position?, size, Nat.ne_of_lt hi, hk]
  rw [faults, filterMap_filterMap, filterMap_congr hsame]
  have hfirst : x.tokens = x.tokens.zipIdx.map Prod.fst := (zipIdx_map_fst 0 x.tokens).symm
  conv_rhs => rw [hfirst, Woven.flaws, flatMap_map]
  rw [filterMap_eq_flatMap_toList]
  exact flatMap_congr fun e _ => by rw [Token.diagnostics, Option.toList_map]

end Lexed

namespace Parse
open Token Outline

variable {t : Text} {d : Diagnostic}

lemma nodup_flaws {stop : Position} {ts : List Token} (h : Rising stop ts) :
    (Woven.flaws ts).Nodup := by
  refine pairwise_flatMap.2 ⟨fun t _ => ?_, h.pairwise.imp fun hlt d hd e he heq => ?_⟩
  · cases hfault : t.fault <;> simp [Token.diagnostics, hfault]
  · obtain ⟨f, -, rfl⟩ := mem_map.1 hd
    obtain ⟨g, -, rfl⟩ := mem_map.1 he
    rw [(Diagnostic.mk.inj heq).1] at hlt
    exact Nat.lt_irrefl _ hlt

lemma orderly_ofText (t : Text) :
    (ofText t).diagnostics.Pairwise fun d e => d.position.offset ≤ e.position.offset := by
  have hrising := Lexed.rising_ofText t
  have hfill := Woven.orderly_fillAll (ofKinds (Lexed.ofText t).significant) _ hrising
  exact (hfill.andThen (Woven.orderly_all (hrising.of_suffix hfill.suffix)) hrising).ordered

lemma grammaticals_ofText (t : Text) : (ofText t).diagnostics.filter (·.lexical?.isNone) =
    (Event.faultsFrom 0 (eventsAll (ofKinds (Lexed.ofText t).significant))).map
      (Woven.complaint (Lexed.ofText t).stop (Lexed.ofText t).tokens) := by
  have hkinds : significant (Lexed.ofText t).tokens =
      leavesAll (ofKinds (Lexed.ofText t).significant) ++ [] := by
    rw [leavesAll_ofKinds (Lexed.endOfFile_not_mem_significant t), append_nil]
    rfl
  change ((Woven.fillAll _ _ _).andThen Woven.all).grammaticals = _
  rw [Woven.grammaticals_andThen, Woven.grammaticals_all, append_nil,
    Woven.grammaticals_fillAll _ _ [] 0 hkinds rfl]

lemma diagnostics_cases (hd : d ∈ (ofText t).diagnostics) :
    (∃ k ∈ (Lexed.ofText t).tokens, ∃ f, k.fault = some f ∧ d = ⟨k.position, .lexical f⟩) ∨
    (∃ k ∈ (Lexed.ofText t).tokens, k.kind.isTrivia = false ∧ d.position = k.position) ∨
    d.position = (Lexed.ofText t).stop := by
  cases hlexical : d.lexical? with
  | some f =>
    have hmem : d ∈ Woven.flaws (Lexed.ofText t).tokens := by
      rw [← lexicals_ofText]
      exact mem_filter.2 ⟨hd, by rw [hlexical]; rfl⟩
    exact .inl (Woven.mem_flaws.1 hmem)
  | none =>
    have hmem : d ∈ (ofText t).diagnostics.filter (·.lexical?.isNone) :=
      mem_filter.2 ⟨hd, by rw [hlexical]; rfl⟩
    rw [grammaticals_ofText] at hmem
    obtain ⟨e, -, rfl⟩ := mem_map.1 hmem
    exact .inr (spot_cases _ _ _)

/-- Whatever a text holds, its diagnostics come in the order of the text and each stands at a token
or at the end. They are the faults of its tokens, each once and at its token, and the faults that
the grammar finds, in order and each at the token of the grammar that comes next, so that no fault
of the grammar stands at trivia. -/
theorem reports_ofText (t : Text) : (Lexed.ofText t).Reports
    (eventsAll (ofKinds (Lexed.ofText t).significant)) (ofText t).diagnostics where
  ordered := orderly_ofText t
  anchored d hd := by
    rcases diagnostics_cases hd with ⟨k, hk, f, -, rfl⟩ | ⟨k, hk, -, hposition⟩ | hstop
    · exact Lexed.exists_position_of_mem hk
    · rw [hposition]
      exact Lexed.exists_position_of_mem hk
    · exact ⟨_, le_rfl, by rw [hstop, Lexed.position?, if_pos rfl]⟩
  trivia d hd k hk htrivia hoffset := by
    have hrising := Lexed.rising_ofText t
    rcases diagnostics_cases hd with ⟨l, hl, f, hf, rfl⟩ | ⟨l, hl, hkind, hposition⟩ | hstop
    · obtain rfl := hrising.eq_of_offset hk hl hoffset
      exact ⟨f, hf, rfl⟩
    · rw [hposition] at hoffset
      rw [hrising.eq_of_offset hk hl hoffset, hkind] at htrivia
      exact absurd htrivia Bool.false_ne_true
    · rw [hstop] at hoffset
      exact absurd hoffset (hrising.lt_stop hk).ne
  lexical := by rw [lexicals_ofText, Lexed.faults_placed]
  once e he := by
    obtain ⟨k, hk, hfault⟩ := Option.bind_eq_some_iff.1 (Lexed.mem_faults.1 he)
    have hi : e.1 < (Lexed.ofText t).size := (List.getElem?_eq_some_iff.1 hk).1
    refine ⟨k.position, by rw [Lexed.position?, if_neg hi.ne, hk]; rfl, ?_⟩
    rw [← count_filter (p := (·.lexical?.isSome)) rfl, lexicals_ofText]
    exact count_eq_one_of_mem (nodup_flaws (Lexed.rising_ofText t))
      (Woven.mem_flaws.2 ⟨k, mem_of_getElem? hk, e.2, hfault, rfl⟩)
  grammatical := by
    rw [grammaticals_ofText, ← Event.snd_faultsFrom 0, map_map, map_map]
    rfl
  placed := grammaticals_ofText t

end Parse
end LiveEdit
