import LiveEdit.Proofs.Document.Materialization
import LiveEdit.Proofs.Document.Safety
import LiveEdit.Proofs.Parse.Hollows

namespace LiveEdit

namespace Document

variable {d : Document} {offset : Nat}

lemma Sound.tight (h : d.Sound) (husual : d.reader = .usual) : d.tree.Tight := by
  rw [h.tree_usual husual]
  exact Parse.tight_ofText d.text

/-- A document finds for an offset in its text the innermost node that begins before the offset and
reaches it. It is the innermost of the nodes with the byte there just if the offset is zero or no
node begins or ends at it. -/
theorem descendantAt_innermost {tag : Nat} {file : String} {initial : Text} {settings : Settings}
    {ops : List Operation} (hrun : (create tag file initial settings .usual).run ops = some d)
    (hoffset : offset < d.text.size) :
    ∃ n a s, (d.descendantAt offset).answer = .ok n ∧
    (d.descendantAt offset).document.place? n = some (a, s) ∧ d.tree.at? a = some s ∧
    (0 < offset → d.tree.Innermost (Site.Leans offset) a) ∧
    (d.tree.Innermost (Site.Holds offset) a ↔
      offset = 0 ∨ ∀ b u, d.tree.at? b = some u → u.start ≠ offset ∧ u.span.stop ≠ offset) := by
  have hsound := sound_run hrun
  have husual : d.reader = .usual := (moves_run hrun).fixed.2
  have htight := hsound.tight husual
  have hspan := hsound.tree_span (husual ▸ keeps_usual)
  have hstart : d.tree.start = 0 := congrArg Span.start hspan
  have hstop : d.tree.span.stop = d.text.size := by
    rw [hspan]
    exact zero_add _
  have hholds : d.tree.Holds offset := ⟨hstart ▸ Nat.zero_le _, hstop ▸ hoffset⟩
  have hiff := htight.innermost_holds_iff hholds
  have hleans (hpos : 0 < offset) :=
    htight.innermost_leans (.inl ⟨hstart ▸ hpos, hstop ▸ hoffset.le⟩)
  have hcovering : d.tree.covering? (.empty offset) =
      some (d.tree.tree.covering (.empty offset) d.tree.start) := by
    refine if_pos (Span.contains_iff.2 ⟨?_, ?_⟩)
    · exact hholds.1
    · exact hholds.2.le
  have hfound :
      d.descendantAt offset = ⟨.ok (d.wrap (d.tree.tree.covering (.empty offset) d.tree.start)).2,
      (d.wrap (d.tree.tree.covering (.empty offset) d.tree.start)).1, []⟩ := by
    rw [descendantAt, hcovering]
  obtain ⟨s, hs⟩ :
      ∃ s, d.tree.at? (d.tree.tree.covering (.empty offset) d.tree.start) = some s := by
    rcases Nat.eq_zero_or_pos offset with rfl | hpos
    · obtain ⟨⟨s, hs, -⟩, -⟩ := hiff.2 (.inl hstart.symm)
      exact ⟨s, hs⟩
    · obtain ⟨⟨s, hs, -⟩, -⟩ := hleans hpos
      exact ⟨s, hs⟩
  rw [hstart] at hiff
  refine ⟨_, _, s, congrArg Outcome.answer hfound, ?_, hs, ?_, ?_⟩
  · rw [hfound, hsound.place?_wrap, Site.clip_of_at? hs]
  · exact hleans
  · rwa [hstart]

theorem descendantAt_innermost_between : ∃ d n a s,
    (create 0 "a.ts" "a;b;".toList {} .usual).run [] = some d ∧ (d.descendantAt 2).answer = .ok n ∧
      (d.descendantAt 2).document.place? n = some (a, s) ∧ d.tree.Innermost (Site.Leans 2) a ∧
      ¬d.tree.Innermost (Site.Holds 2) a := by
  have hrun : (create 0 "a.ts" "a;b;".toList {} .usual).run [] =
      some (create 0 "a.ts" "a;b;".toList {} .usual) := rfl
  have hnext : ((create 0 "a.ts" "a;b;".toList {} .usual).tree.at? [1]).map Site.start =
      some 2 := by decide +kernel
  obtain ⟨u, hu, hstart⟩ := Option.map_eq_some_iff.1 hnext
  have hoffset : 2 < (create 0 "a.ts" "a;b;".toList {} .usual).text.size := by decide
  obtain ⟨n, a, s, hanswer, hplace, -, hleans, hiff⟩ := descendantAt_innermost hrun hoffset
  refine ⟨_, n, a, s, hrun, hanswer, hplace, hleans (by decide), fun hholds => ?_⟩
  rcases hiff.1 hholds with hzero | hnone
  · cases hzero
  · exact (hnone [1] u hu).1 hstart

/-- Where a statement begins right behind another one, the node that is found ends there, and a name
that begins there is not found. -/
theorem descendantAt_left : ∃ d n w s,
    (create 0 "a.ts" "a;b;".toList {} .usual).run [] = some d ∧ (d.descendantAt 2).answer = .ok n ∧
      (d.descendantAt 2).document.node n = .ok w ∧ w.span.stop = 2 ∧ d.tree.at? [1, 0, 0] = some s ∧
      s.kind = .name ∧ s.start = 2 ∧ s.span.stop = 3 := by
  have hfound : ∃ d ∈ (create 0 "a.ts" "a;b;".toList {} .usual).run [], ∃ n,
      (d.descendantAt 2).answer = .ok n ∧
      ∃ w, (d.descendantAt 2).document.node n = .ok w ∧ w.span.stop = 2 ∧
      ∃ s ∈ d.tree.at? [1, 0, 0], s.kind = .name ∧ s.start = 2 ∧ s.span.stop = 3 := by
    decide +kernel
  obtain ⟨d, hrun, n, hn, w, hw, hstop, s, hs⟩ := hfound
  exact ⟨d, n, w, s, hrun, hn, hw, hstop, hs⟩

end Document
end LiveEdit
