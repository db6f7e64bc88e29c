import LiveEdit.Proofs.Lexeme.Positions
import LiveEdit.Proofs.Outline.Forms
import LiveEdit.Proofs.Outline.Steadiness
import LiveEdit.Proofs.Parse.Exactness

/-! A name, type or expression that is missing right before a node is reported at its first token.
-/

namespace LiveEdit
open List

def Diagnostic.isForWord (d : Diagnostic) : Bool := d.complaint?.any Complaint.isForWord

namespace Token

variable {ts R S : List Token} {t : Token}

lemma significant_append (ts us : List Token) :
    significant (ts ++ us) = significant ts ++ significant us := by
  simp only [significant, map_append, filter_append]

lemma suffix_of_significant (hS : t :: S <:+ ts) (ht : t.kind.isTrivia = false) (hR : R <:+ ts)
    (h : significant (t :: S) <:+ significant R) : t :: S <:+ R := by
  rcases suffix_or_suffix_of_suffix hS hR with hle | ⟨C, hC⟩
  · exact hle
  · cases C with
    | nil =>
      rw [← hC]
      exact suffix_refl _
    | cons u C =>
      obtain ⟨rfl, rfl⟩ := cons.inj hC
      -- the token in front would be one more
      have hlength := h.length_le
      rw [significant_cons _ ht] at hlength
      simp only [append_eq, significant_append, length_append, length_cons] at hlength
      omega

lemma dropWhile_eq (hS : t :: S <:+ ts) (ht : t.kind.isTrivia = false)
    (h : significant ts = significant (t :: S)) : ts.dropWhile (·.kind.isTrivia) = t :: S := by
  have hsame : significant (ts.dropWhile (·.kind.isTrivia)) = significant (t :: S) :=
    (significant_dropWhile ts).trans h
  obtain ⟨u, rest, hrest, hu, -⟩ := dropWhile_of_significant (h.trans (significant_cons S ht))
  have hback : t :: S <:+ ts.dropWhile (·.kind.isTrivia) :=
    suffix_of_significant hS ht (dropWhile_suffix _) (hsame ▸ suffix_refl _)
  have hfront : u :: rest <:+ t :: S := by
    have hboth : significant (u :: rest) = significant (t :: S) := hrest ▸ hsame
    exact suffix_of_significant (hrest ▸ dropWhile_suffix _) (hu ▸ ht) hS (hboth ▸ suffix_refl _)
  rw [hrest] at hback ⊢
  exact hfront.eq_of_length (hfront.length_le.antisymm hback.length_le)

lemma exists_place (p : Position) (us vs : List Lexeme) : ∃ q, place p (us ++ vs) =
      place p us ++ place q vs ∧ q.offset = p.offset + (Lexeme.spell us).size :=
  ⟨_, place_append p us vs, Position.offset_pasts p us⟩

end Token

namespace Woven
open Token Outline

variable {ts S : List Token} {t : Token} {ks : List Kind} {w : Woven} {f : List Token → Woven}

def Misses (w : Woven) (t : Token) : Prop :=
  ∃ d ∈ w.diagnostics, d.position = t.position ∧ d.isForWord = true

lemma Misses.left (h : w.Misses t) (f : List Token → Woven) : (w.andThen f).Misses t := by
  obtain ⟨d, hd, hfault⟩ := h
  exact ⟨d, mem_append_left _ hd, hfault⟩

lemma Misses.right (h : (f w.rest).Misses t) : (w.andThen f).Misses t := by
  obtain ⟨d, hd, hfault⟩ := h
  exact ⟨d, mem_append_right _ hd, hfault⟩

mutual

lemma misses_fill (stop : Position) :
    ∀ (o : Outline) (ts : List Token), significant ts = o.leaves ++ ks → o.lacksWord = true →
    t :: S <:+ ts → significant (t :: S) = ks → t.kind.isTrivia = false → (fill stop o ts).Misses t
  | .leaf k, ts, h, hlacks, hS, hks, ht => by cases hlacks
  | .fault c, ts, h, hlacks, hS, hks, ht => by
    rw [fill]
    refine Misses.right ⟨_, mem_singleton_self _, ?_, hlacks⟩
    have hrest : (trivia ts).rest = t :: S := dropWhile_eq hS ht (h.trans hks.symm)
    rw [hrest]
    rfl
  | .branch kind os, ts, h, hlacks, hS, hks, ht => by
    rw [fill]
    have hrest : significant (trivia ts).rest = leavesAll os ++ ks :=
      (significant_dropWhile ts).trans h
    have hsuffix : t :: S <:+ (trivia ts).rest :=
      suffix_of_significant hS ht (dropWhile_suffix _) (by rw [hrest, hks]; exact suffix_append _ _)
    exact Misses.right (misses_fillAll stop os _ hrest hlacks hsuffix hks ht)

lemma misses_fillAll (stop : Position) : ∀ (os : List Outline) (ts : List Token),
    significant ts = leavesAll os ++ ks → lacksWordAll os = true → t :: S <:+ ts →
      significant (t :: S) = ks → t.kind.isTrivia = false → (fillAll stop os ts).Misses t
  | [], ts, h, hlacks, hS, hks, ht => by cases hlacks
  | o :: os, ts, h, hlacks, hS, hks, ht => by
    rw [leavesAll, append_assoc] at h
    rw [fillAll]
    simp only [lacksWordAll, Bool.or_eq_true, Bool.and_eq_true, List.isEmpty_iff] at hlacks
    rcases hlacks with ⟨hnil, hlacks⟩ | hlacks
    · rw [hnil, nil_append] at h
      exact (misses_fill stop o ts h hlacks hS hks ht).left _
    · have hcovers := covers_fill stop o ts _ h
      have hsuffix : t :: S <:+ (fill stop o ts).rest := suffix_of_significant hS ht hcovers.suffix
        (by rw [hcovers.significant, hks]; exact suffix_append _ _)
      exact Misses.right (misses_fillAll stop os _ hcovers.significant hlacks hsuffix hks ht)

end

lemma fillAll_append (stop : Position) (os ps : List Outline) (ts : List Token) :
    fillAll stop (os ++ ps) ts = (fillAll stop os ts).andThen (fillAll stop ps) := by
  induction os generalizing ts with
  | nil => rfl
  | cons o os ih =>
    rw [cons_append, fillAll, fillAll]
    simp only [Woven.andThen, ih, append_assoc]

lemma misses_put (stop : Position) {o : Outline} (P : Place)
    (h : significant ts = leavesAll (P.put o) ++ ks) (hlacks : lacksWordAll P.before = true)
    (hS : t :: S <:+ ts) (hks : significant (t :: S) = o.leaves ++ (leavesAll P.after ++ ks))
    (ht : t.kind.isTrivia = false) : (fillAll stop (P.put o) ts).Misses t := by
  induction P generalizing ts ks with
  | here before after =>
    rw [Place.put, leavesAll_append, append_assoc] at h
    rw [Place.put, fillAll_append]
    refine (misses_fillAll stop before ts h hlacks hS ?_ ht).left _
    rw [hks, leavesAll, Place.after, append_assoc]
  | inside before kind inner after ih =>
    rw [Place.put, leavesAll_append, append_assoc] at h
    rw [Place.put, fillAll_append]
    have hinner : leavesAll (.branch kind (inner.put o) :: after) ++ ks =
        leavesAll (inner.put o) ++ (leavesAll after ++ ks) := by
      rw [leavesAll, leaves, append_assoc]
    have hlast :
        significant (t :: S) = o.leaves ++ (leavesAll inner.after ++ (leavesAll after ++ ks)) := by
      rw [hks, Place.after, leavesAll_append, append_assoc]
    rw [Place.before, lacksWordAll_append, Bool.or_eq_true, Bool.and_eq_true, List.isEmpty_iff]
      at hlacks
    rcases hlacks with ⟨hnil, hlacks⟩ | hlacks
    · refine (misses_fillAll stop before ts h hlacks hS ?_ ht).left _
      rw [hlast, hinner, Place.leavesAll_put, hnil]
      simp only [nil_append, append_assoc]
    · have hcovers := covers_fillAll stop before ts _ h
      rw [hinner] at hcovers
      have hrest : significant (trivia (fillAll stop before ts).rest).rest =
          leavesAll (inner.put o) ++ (leavesAll after ++ ks) :=
        (significant_dropWhile _).trans hcovers.significant
      have hsuffix : t :: S <:+ (trivia (fillAll stop before ts).rest).rest := by
        refine suffix_of_significant hS ht ((dropWhile_suffix _).trans hcovers.suffix) ?_
        rw [hrest, Place.leavesAll_put, hlast, append_assoc, append_assoc]
        exact suffix_append _ _
      refine Misses.right ?_
      rw [fillAll, fill]
      exact Misses.left (Misses.right (ih hrest hlacks hsuffix hlast)) _

end Woven

namespace Parse
open Outline

lemma exists_missing {t : Text} {U R : List Lexeme} {l : Lexeme} {P : Place} {o : Outline}
    (hput : ofKinds (Lexed.ofText t).significant = P.put o)
    (hlex : Lexeme.ofText t = U ++ l :: R) (hl : l.kind.isTrivia = false)
    (hU : (U.map Lexeme.kind).filter (!·.isTrivia) = leavesAll P.before)
    (hlacks : lacksWordAll P.before = true) : ∃ d ∈ (ofText t).diagnostics,
      d.position.offset = (Lexeme.spell U).size ∧ d.isForWord = true := by
  obtain ⟨q, htokens, hoffset⟩ := Token.exists_place .first U (l :: R)
  rw [← hlex] at htokens
  have hkinds : Token.significant (Lexed.ofText t).tokens = leavesAll (P.put o) ++ [] := by
    rw [← hput, append_nil, leavesAll_ofKinds (Lexed.endOfFile_not_mem_significant t)]
    rfl
  have hplace : ∀ (p : Position) (us : List Lexeme), Token.significant (Token.place p us) =
      (us.map Lexeme.kind).filter (!·.isTrivia) := by
    intro p us
    have hkind : (Token.place p us).map (fun t => t.kind) = us.map Lexeme.kind := by
      conv_rhs => rw [← Token.map_place p us]
      rw [map_map]
      rfl
    rw [Token.significant, hkind]
  have hrest :
      Token.significant (Token.place q (l :: R)) = o.leaves ++ (leavesAll P.after ++ []) := by
    have hall :
        Token.significant (Token.place .first U) ++ Token.significant (Token.place q (l :: R)) =
        leavesAll P.before ++ (o.leaves ++ (leavesAll P.after ++ [])) := by
      rw [← Token.significant_append, ← htokens, append_nil, ← Place.leavesAll_put,
        ← append_nil (leavesAll _)]
      exact hkinds
    rw [hplace, hU] at hall
    exact append_cancel_left hall
  obtain ⟨d, hd, hposition, hword⟩ := Woven.misses_put (Lexed.ofText t).stop P hkinds hlacks
    (t := ⟨l, q⟩) (S := Token.place (q.past l) R) ⟨Token.place .first U, htokens.symm⟩ hrest hl
  refine ⟨d, mem_append_left _ (hput ▸ hd), ?_, hword⟩
  rw [hposition, hoffset]
  exact Nat.zero_add _

end Parse
end LiveEdit
