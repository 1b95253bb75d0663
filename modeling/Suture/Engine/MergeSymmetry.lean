import Suture.Engine.DisjointMerge

/-!
# The merge with its sides exchanged

Where both sides insert the same lines at one place, the merge moves on by what the first side
deletes there. As long as the two sides delete the same number of lines at such places, the loop
does the same with the sides exchanged.
-/

namespace Suture.Engine
set_option autoImplicit false
open Foundation

variable {base ours theirs : List String}

/-- Where the walk comes to a place at which both insert the same lines, both delete as many. -/
def Level (H H' : Hunks String) : Prop :=
  ∀ s a b, Reached H H' s → H s = some a → H' s = some b → a.inserted = b.inserted →
    a.deleted = b.deleted

/-- Both orders of the sides are clean or none, with as many conflicts, and where they are clean
the lines are the same. -/
def SidesSwap (base ours theirs : List String) : Prop :=
  ∀ labels labels',
    (threeWayMergeLines base ours theirs labels).isClean =
        (threeWayMergeLines base theirs ours labels').isClean ∧
      (threeWayMergeLines base ours theirs labels).conflicts =
        (threeWayMergeLines base theirs ours labels').conflicts ∧
      ((threeWayMergeLines base ours theirs labels).isClean = true →
        (threeWayMergeLines base ours theirs labels).lines =
          (threeWayMergeLines base theirs ours labels').lines)

def Segment.swap : Segment → Segment
  | .kept i => .kept i
  | .ours i a => .theirs i a
  | .theirs i b => .ours i b
  | .same i a b => .same i b a
  | .conflict i a b => .conflict i b a

/-! ### The loop with its sides exchanged -/

section Trace
variable {n : Nat} {oursMap theirsMap : ChangeMap}

theorem taken_swap (oursMap theirsMap : ChangeMap) (i : Nat) :
    taken theirsMap oursMap i = (taken oursMap theirsMap i).map Segment.swap := by
  unfold taken
  cases oursMap i with
  | none => cases theirsMap i <;> rfl
  | some a =>
    cases theirsMap i with
    | none => rfl
    | some b =>
      dsimp only
      by_cases h : a.outputLines = b.outputLines
      · rw [if_pos h, if_pos h.symm]
        rfl
      · rw [if_neg h, if_neg (Ne.symm h)]
        rfl

theorem Level.span_swap (h : Level oursMap.hunks theirsMap.hunks) {i : Nat}
    (hi : Reached oursMap.hunks theirsMap.hunks i) :
    span theirsMap.hunks oursMap.hunks i = span oursMap.hunks theirsMap.hunks i := by
  have hlevel := h i
  unfold span
  cases ha : oursMap.hunks i with
  | none => cases theirsMap.hunks i <;> rfl
  | some a =>
    cases hb : theirsMap.hunks i with
    | none => rfl
    | some b =>
      dsimp only
      by_cases heq : a.inserted = b.inserted
      · rw [if_pos heq, if_pos heq.symm, hlevel a b hi ha hb heq]
      · rw [if_neg heq, if_neg (Ne.symm heq), max_comm]

theorem outputLines_of_same {s i : Nat} {a b : SideAction}
    (h : taken oursMap theirsMap s = some (.same i a b)) : a.outputLines = b.outputLines := by
  unfold taken at h
  cases ha : oursMap s with
  | none => cases hb : theirsMap s <;> rw [ha, hb] at h <;> cases h
  | some a' =>
    cases hb : theirsMap s with
    | none =>
      rw [ha, hb] at h
      cases h
    | some b' =>
      rw [ha, hb] at h
      dsimp only at h
      split_ifs at h with heq
      · cases h
        exact heq
      · cases h

theorem trace_swap (hbound : ∀ s, s < n → s + span oursMap.hunks theirsMap.hunks s ≤ n)
    (hlevel : Level oursMap.hunks theirsMap.hunks) (d : Nat) :
    ∀ i, i + d = n → Reached oursMap.hunks theirsMap.hunks i →
      trace n theirsMap oursMap i = (trace n oursMap theirsMap i).map Segment.swap := by
  induction d using Nat.strong_induction_on with
  | _ d ih =>
    intro i hid hi
    rcases Nat.eq_zero_or_pos d with rfl | hpos
    · obtain rfl : i = n := hid
      rw [trace_of_ge _ _ (Nat.le_refl _), trace_of_ge _ _ (Nat.le_refl _), taken_swap oursMap]
      cases taken oursMap theirsMap i <;> rfl
    · have hlt : i < n := by omega
      have hnext := hbound i hlt
      have hrest := ih (d - max 1 (span oursMap.hunks theirsMap.hunks i)) (by omega)
        (i + max 1 (span oursMap.hunks theirsMap.hunks i)) (by omega) (reached_next hi)
      rw [trace_next hlt, trace_next hlt, hlevel.span_swap hi, hrest, taken_swap oursMap,
        List.map_append, List.map_append]
      congr 1
      · cases taken oursMap theirsMap i <;> rfl
      · congr 1
        split_ifs <;> rfl

end Trace

theorem Segment.isConflict_swap (seg : Segment) : seg.swap.isConflict = seg.isConflict := by
  cases seg <;> rfl

/-! ### The two outputs -/

theorem threeWayMergeLines_record (labels : MergeLabels) (h : ¬ Trivial base ours theirs) :
    (threeWayMergeLines base ours theirs labels).lines =
        (mergeTrace base ours theirs).flatMap (·.render labels base) ∧
      (threeWayMergeLines base ours theirs labels).isClean =
        (mergeTrace base ours theirs).all (!·.isConflict) ∧
      (threeWayMergeLines base ours theirs labels).conflicts =
        ((mergeTrace base ours theirs).filter (·.isConflict)).length := by
  simp only [Trivial, not_or] at h
  unfold threeWayMergeLines
  rw [if_neg h.1, if_neg h.2.1, if_neg h.2.2]
  obtain ⟨hlines, hclean, hconflicts⟩ := mergeLoop_trace labels base
    (buildChangeMap (diffLines base ours)) (buildChangeMap (diffLines base theirs)) 0 ⟨[], true, 0, 0⟩
  rw [Bool.true_and] at hclean
  rw [Nat.zero_add] at hconflicts
  exact ⟨hlines, hclean, hconflicts⟩

theorem Trivial.swap (h : Trivial base ours theirs) : Trivial base theirs ours := by
  rcases h with h | h | h
  · exact .inl h.symm
  · exact .inr (.inr h)
  · exact .inr (.inl h)

theorem trivial_sidesSwap (h : Trivial base ours theirs) : SidesSwap base ours theirs := by
  intro labels labels'
  unfold threeWayMergeLines
  rcases h with rfl | rfl | rfl
  · simp
  · by_cases heq : base = theirs <;> simp [heq, Ne.symm]
  · by_cases heq : base = ours <;> simp [heq, Ne.symm]

/-- Off the conflicts both orders render the same. -/
theorem render_swap {seg : Segment} (hseg : seg ∈ mergeTrace base ours theirs)
    (hclean : seg.isConflict = false) (labels labels' : MergeLabels) :
    seg.swap.render labels' base = seg.render labels base := by
  cases seg with
  | conflict i a b => cases hclean
  | same i a b =>
    obtain ⟨s, -, -, h | ⟨-, -, h⟩⟩ := (mem_trace_zero bounded_ours bounded_ours _).mp hseg
    · exact (outputLines_of_same h).symm
    · cases h
  | _ => rfl

theorem level_sidesSwap (hlevel : Level (sideHunks base ours) (sideHunks base theirs)) :
    SidesSwap base ours theirs := by
  by_cases htriv : Trivial base ours theirs
  · exact trivial_sidesSwap htriv
  · intro labels labels'
    have hswap : mergeTrace base theirs ours = (mergeTrace base ours theirs).map Segment.swap :=
      trace_swap (fun s hs => span_le bounded_ours bounded_ours (Nat.le_of_lt hs)) hlevel base.length 0
        (Nat.zero_add _) reached_zero
    obtain ⟨hlines, hclean, hconflicts⟩ := threeWayMergeLines_record labels htriv
    obtain ⟨hlines', hclean', hconflicts'⟩ :=
      threeWayMergeLines_record labels' fun h => htriv (Trivial.swap h)
    have hall : ((mergeTrace base ours theirs).map Segment.swap).all (!·.isConflict) =
        (mergeTrace base ours theirs).all (!·.isConflict) := by
      rw [List.all_map]
      congr 1
      funext seg
      exact congrArg _ seg.isConflict_swap
    have hfilter : (((mergeTrace base ours theirs).map Segment.swap).filter (·.isConflict)).length =
        ((mergeTrace base ours theirs).filter (·.isConflict)).length := by
      rw [List.filter_map, List.length_map]
      congr 2
      funext seg
      exact seg.isConflict_swap
    rw [hswap] at hlines' hclean' hconflicts'
    refine ⟨hclean.trans (hclean'.trans hall).symm, hconflicts.trans (hconflicts'.trans hfilter).symm, ?_⟩
    intro htrue
    rw [hclean, List.all_eq_true] at htrue
    rw [hlines, hlines', List.flatMap_map]
    apply List.flatMap_congr
    intro seg hseg
    have hnot := htrue seg hseg
    rw [Bool.not_eq_true'] at hnot
    exact (render_swap hseg hnot labels labels').symm

theorem level_of_actions {changes changes' : List LineChange} (htidy : Tidy changes)
    (htidy' : Tidy changes') (h : ∀ x ∈ sideActions 0 changes, ∀ y ∈ sideActions 0 changes',
      x.1 = y.1 → x.2.outputLines = y.2.outputLines → x.2.advance = y.2.advance) :
    Level (hunksOf changes) (hunksOf changes') := by
  intro s a b _ ha hb heq
  obtain ⟨x, hx, rfl⟩ := mem_of_hunksOf htidy ha
  obtain ⟨y, hy, rfl⟩ := mem_of_hunksOf htidy' hb
  exact h (s, x) hx (s, y) hy rfl heq

/-- Both sides put the same line in place of the first one, and conflict at the last one. -/
theorem level_sidesSwap_example : SidesSwap ["a", "b", "c"] ["n", "b", "x"] ["n", "b", "y"] := by
  have hours : sideActions 0 (diffLines ["a", "b", "c"] ["n", "b", "x"]) =
      [(0, .deleteInsert 1 ["n"]), (2, .deleteInsert 1 ["x"])] := by decide +kernel
  have htheirs : sideActions 0 (diffLines ["a", "b", "c"] ["n", "b", "y"]) =
      [(0, .deleteInsert 1 ["n"]), (2, .deleteInsert 1 ["y"])] := by decide +kernel
  apply level_sidesSwap
  rw [sideHunks_eq, sideHunks_eq]
  apply level_of_actions (diffLines_ok _ _).tidy (diffLines_ok _ _).tidy
  rw [hours, htheirs]
  decide

/-- Ours inserts a line that theirs puts in place of another one. -/
theorem insertion_against_replacement : ¬ ∀ base ours theirs : List String, SidesSwap base ours theirs := by
  intro h
  have hlines := (h ["k", "a", "m"] ["k", "n", "a", "m"] ["k", "n", "m"] ⟨"ours", "theirs"⟩
    ⟨"theirs", "ours"⟩).2.2 (by decide +kernel)
  exact absurd hlines (by decide +kernel)

end Suture.Engine
