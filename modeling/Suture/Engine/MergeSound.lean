import Suture.Engine.ChangeMap
import Suture.Engine.MergeTrace

/-!
# When a line merge loses no edit

`NoEditLost` is about the output: every inserted chunk of either diff is in it, and a
clean output keeps no base line that a side deletes. `no_edit_lost_iff` gives the
condition on the hunks of the two diffs.
-/

namespace Suture.Engine
set_option autoImplicit false
open Foundation

/-- The hunks of a side, as the merge looks them up. -/
def sideHunks (base side : List String) : Hunks String :=
  (buildChangeMap (diffLines base side)).hunks

/-- The loop's record for three lists that are not a trivial case. -/
def mergeTrace (base ours theirs : List String) : List Segment :=
  trace base.length (buildChangeMap (diffLines base ours)) (buildChangeMap (diffLines base theirs)) 0

/-- In a trivial case the merge returns one side as it is. -/
def Trivial (base ours theirs : List String) : Prop := ours = theirs ∨ base = ours ∨ base = theirs

/-- Every inserted chunk of a diff is carried by a segment, at its place in the base. -/
def Emits (action : Segment → Option (Nat × SideAction)) (segs : List Segment)
    (diff : List LineChange) : Prop :=
  ∀ p lines, (p, .inserted lines) ∈ chunksAt 0 diff →
    ∃ seg ∈ segs, ∃ s a, action seg = some (s, a) ∧ s + a.advance = p ∧ a.outputLines = lines

def NoEditLost (base ours theirs : List String) (labels : MergeLabels) : Prop :=
  let out := threeWayMergeLines base ours theirs labels
  let oursDiff := diffLines base ours
  let theirsDiff := diffLines base theirs
  (Trivial base ours theirs → ∀ lines, .inserted lines ∈ oursDiff ∨ .inserted lines ∈ theirsDiff →
    ∀ l ∈ lines, l ∈ out.lines) ∧
  (¬ Trivial base ours theirs →
    let segs := mergeTrace base ours theirs
    out.lines = segs.flatMap (·.render labels base) ∧
    Emits Segment.oursAction segs oursDiff ∧ Emits Segment.theirsAction segs theirsDiff ∧
    (out.isClean = true → ∀ i, .kept i ∈ segs → ¬ DeletedAt oursDiff i ∧ ¬ DeletedAt theirsDiff i))

theorem trivial_emits {base ours theirs : List String} (labels : MergeLabels)
    (h : Trivial base ours theirs) {lines : List String}
    (hl : .inserted lines ∈ diffLines base ours ∨ .inserted lines ∈ diffLines base theirs) :
    ∀ l ∈ lines, l ∈ (threeWayMergeLines base ours theirs labels).lines := by
  have hours := (diffLines_ok base ours).inserts lines
  have htheirs := (diffLines_ok base theirs).inserts lines
  have hsame : .inserted lines ∉ diffLines base base := fun hmem => by
    obtain ⟨_, heq⟩ := diffLines_same base _ hmem
    exact absurd heq nofun
  unfold threeWayMergeLines
  split
  · rename_i heq
    subst heq
    exact hl.elim hours hours
  split
  · rename_i heq
    subst heq
    exact htheirs (hl.resolve_left hsame)
  split
  · rename_i heq
    subst heq
    exact hours (hl.resolve_right hsame)
  · rename_i h1 h2 h3
    exact absurd h (by simp [Trivial, h1, h2, h3])

/-! ### From the output to the walk -/

section Walk
variable {base ours theirs : List String}

theorem bounded_ours : Bounded base.length (buildChangeMap (diffLines base ours)) :=
  fun _ _ => (diffLines_ok base ours).bounded

/-- All inserted chunks of a side are emitted iff the walk reaches its inserting hunks. -/
theorem emits_iff {side : List String} {action : Segment → Option (Nat × SideAction)}
    (haction : ∀ s a, (∃ seg ∈ mergeTrace base ours theirs, action seg = some (s, a)) ↔
      buildChangeMap (diffLines base side) s = some a ∧
        Reached (sideHunks base ours) (sideHunks base theirs) s) :
    Emits action (mergeTrace base ours theirs) (diffLines base side) ↔
      ∀ s x, sideHunks base side s = some x → x.inserted ≠ [] →
        Reached (sideHunks base ours) (sideHunks base theirs) s := by
  have hok := diffLines_ok base side
  constructor
  · intro h s x hx hne
    obtain ⟨a, ha, rfl⟩ := Option.map_eq_some_iff.mp hx
    obtain ⟨seg, hseg, s', a', hact, hend, _⟩ :=
      h _ a.outputLines (hok.inserted_iff.mpr ⟨s, a, ha, rfl, rfl, hne⟩)
    obtain ⟨ha', hr⟩ := (haction s' a').mp ⟨seg, hseg, hact⟩
    have hx' : sideHunks base side s' = some a'.toHunk := by
      rw [sideHunks, ChangeMap.hunks, ha']
      rfl
    rcases Nat.lt_trichotomy s' s with hlt | rfl | hgt
    · have : s' + a'.advance < s := hok.separated s' _ s _ hx' hx hlt
      omega
    · exact hr
    · have : s + a.advance < s' := hok.separated s _ s' _ hx hx' hgt
      omega
  · intro h p lines hmem
    obtain ⟨s, a, ha, hend, rfl, hne⟩ := hok.inserted_iff.mp hmem
    have hx : sideHunks base side s = some a.toHunk := by
      rw [sideHunks, ChangeMap.hunks, ha]
      rfl
    obtain ⟨seg, hseg, hact⟩ := (haction s a).mpr ⟨ha, h s _ hx hne⟩
    exact ⟨seg, hseg, s, a, hact, hend, rfl⟩

theorem emits_both_iff :
    (Emits Segment.oursAction (mergeTrace base ours theirs) (diffLines base ours) ∧
        Emits Segment.theirsAction (mergeTrace base ours theirs) (diffLines base theirs)) ↔
      AllReached (sideHunks base ours) (sideHunks base theirs) := by
  rw [emits_iff fun s a => action_mem_trace bounded_ours bounded_ours (.inl rfl)
      (fun i seg => taken_oursAction) fun i => rfl,
    emits_iff fun s a => action_mem_trace bounded_ours bounded_ours (.inr rfl)
      (fun i seg => taken_theirsAction) fun i => rfl]
  constructor
  · rintro ⟨ho, ht⟩ s x (hx | hx) hne
    · exact ho s x hx hne
    · exact ht s x hx hne
  · exact fun h => ⟨fun s x hx => h s x (.inl hx), fun s x hx => h s x (.inr hx)⟩

theorem keeps_iff :
    (∀ i, .kept i ∈ mergeTrace base ours theirs →
        ¬ DeletedAt (diffLines base ours) i ∧ ¬ DeletedAt (diffLines base theirs) i) ↔
      KeepsNoDeleted (sideHunks base ours) (sideHunks base theirs) := by
  have hinside : ∀ {side : List String} {i : Nat}, Deletes (sideHunks base side) i →
      i < base.length := by
    rintro side i ⟨s, x, hx, _, hi⟩
    obtain ⟨a, ha, rfl⟩ := Option.map_eq_some_iff.mp hx
    exact hi.trans_le ((diffLines_ok base side).bounded ha)
  constructor
  · intro h i hr h0
    by_cases hi : i < base.length
    · have := h i ((kept_mem_trace bounded_ours bounded_ours).mpr ⟨hr, hi, h0⟩)
      rwa [(diffLines_ok base ours).deletedAt_iff, (diffLines_ok base theirs).deletedAt_iff] at this
    · exact ⟨fun hd => hi (hinside hd), fun hd => hi (hinside hd)⟩
  · intro h i hmem
    obtain ⟨hr, _, h0⟩ := (kept_mem_trace bounded_ours bounded_ours).mp hmem
    rw [(diffLines_ok base ours).deletedAt_iff, (diffLines_ok base theirs).deletedAt_iff]
    exact h i hr h0

theorem threeWayMergeLines_trace (labels : MergeLabels) (h : ¬ Trivial base ours theirs) :
    let out := threeWayMergeLines base ours theirs labels
    out.lines = (mergeTrace base ours theirs).flatMap (·.render labels base) ∧
      (out.isClean = true ↔ ¬ Clash (sideHunks base ours) (sideHunks base theirs)) := by
  simp only [Trivial, not_or] at h
  unfold threeWayMergeLines
  rw [if_neg h.1, if_neg h.2.1, if_neg h.2.2]
  obtain ⟨hlines, hclean, _⟩ := mergeLoop_trace labels base (buildChangeMap (diffLines base ours))
    (buildChangeMap (diffLines base theirs)) 0 ⟨[], true, 0, 0⟩
  refine ⟨hlines, ?_⟩
  rw [hclean, sideHunks, sideHunks, ← conflict_mem_trace bounded_ours bounded_ours]
  simp

end Walk

/-! ### The condition -/

theorem sideHunks_same (base : List String) (i : Nat) : sideHunks base base i = none := by
  have hall := diffLines_same base
  have hok := diffLines_ok base base
  cases h : sideHunks base base i with
  | none => rfl
  | some x =>
    obtain ⟨a, ha, rfl⟩ := Option.map_eq_some_iff.mp h
    have hmem := (buildChangeMap_eq_some hok.tidy).mp ha
    have hnil : ∀ (changes : List LineChange) (b : Nat), AllUnchanged changes →
        sideActions b changes = [] := by
      intro changes
      induction changes with
      | nil => exact fun _ _ => rfl
      | cons c cs ih =>
        intro b hc
        obtain ⟨lines, rfl⟩ := hc c (List.mem_cons_self ..)
        exact ih _ fun d hd => hc d (List.mem_cons_of_mem _ hd)
    rw [hnil _ _ hall] at hmem
    exact absurd hmem List.not_mem_nil

theorem trivial_nested {base ours theirs : List String} (h : Trivial base ours theirs) :
    Nested (sideHunks base ours) (sideHunks base theirs) := by
  rcases h with rfl | rfl | rfl
  · have hinside : Inside (sideHunks base ours) (sideHunks base ours) := by
      intro s x s' y hx hy hlt hin
      have := (diffLines_ok base ours).separated s x s' y hx hy hlt
      omega
    refine ⟨hinside, hinside, fun s x y hx hy _ => ?_⟩
    rw [hx] at hy
    exact (Option.some.inj hy) ▸ Nat.le_refl _
  · refine ⟨fun s x s' y hx => ?_, fun s x s' y _ hy => ?_, fun s x y hx => ?_⟩
    · exact absurd hx (by simp [sideHunks_same])
    · exact absurd hy (by simp [sideHunks_same])
    · exact absurd hx (by simp [sideHunks_same])
  · refine ⟨fun s x s' y _ hy => ?_, fun s x s' y hx => ?_, fun s x y _ hy => ?_⟩
    · exact absurd hy (by simp [sideHunks_same])
    · exact absurd hx (by simp [sideHunks_same])
    · exact absurd hy (by simp [sideHunks_same])

/-- The merge loses no edit iff its hunks overlap harmlessly or, with a conflict
reported, at least no inserting hunk is jumped over. -/
theorem no_edit_lost_iff (base ours theirs : List String) (labels : MergeLabels) :
    NoEditLost base ours theirs labels ↔
      (Clash (sideHunks base ours) (sideHunks base theirs) →
        AllReached (sideHunks base ours) (sideHunks base theirs)) ∧
      (¬ Clash (sideHunks base ours) (sideHunks base theirs) →
        Nested (sideHunks base ours) (sideHunks base theirs)) := by
  have ho : Separated (sideHunks base ours) := (diffLines_ok base ours).separated
  have ht : Separated (sideHunks base theirs) := (diffLines_ok base theirs).separated
  by_cases htriv : Trivial base ours theirs
  · have hnested := trivial_nested htriv
    constructor
    · exact fun _ => ⟨fun _ => hnested.allReached ho ht, fun _ => hnested⟩
    · exact fun _ => ⟨fun h lines hl => trivial_emits labels h hl, fun h => absurd htriv h⟩
  · rw [← nothing_lost_iff ho ht]
    obtain ⟨hlines, hclean⟩ := threeWayMergeLines_trace labels htriv
    unfold NoEditLost
    simp only [htriv, false_implies, true_and, not_false_eq_true, true_implies]
    rw [hclean, keeps_iff, ← emits_both_iff, and_assoc]
    exact ⟨fun h => h.2, fun h => ⟨hlines, h⟩⟩

/-- Ours replaces three lines, theirs inserts a line between them: it is gone, and the
merge is reported clean. -/
theorem edit_lost :
    let base := ["a", "b", "c"]
    let ours := ["z"]
    let theirs := ["a", "b", "N", "c"]
    let out := threeWayMergeLines base ours theirs ⟨"ours", "theirs"⟩
    .inserted ["N"] ∈ diffLines base theirs ∧ "N" ∉ out.lines ∧ out.isClean = true ∧
      ¬ NoEditLost base ours theirs ⟨"ours", "theirs"⟩ := by
  refine ⟨by decide +kernel, by decide +kernel, by decide +kernel, fun h => ?_⟩
  have hsegs : mergeTrace ["a", "b", "c"] ["z"] ["a", "b", "N", "c"] =
      [.ours 0 (.deleteInsert 3 ["z"])] := by decide +kernel
  obtain ⟨_, _, hemits, _⟩ := h.2 (by rintro (h | h | h) <;> exact absurd h (by decide))
  obtain ⟨seg, hseg, s, a, hact, _⟩ := hemits 2 ["N"] (by decide +kernel)
  rw [hsegs] at hseg
  obtain rfl := List.mem_singleton.mp hseg
  exact absurd hact nofun

end Suture.Engine
