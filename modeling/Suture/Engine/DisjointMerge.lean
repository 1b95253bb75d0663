import Suture.Engine.SideHunks

/-!
# Merges of edits that stay apart

Where no line that one side deletes is the start of a hunk of the other side, the merge applies
the hunks of both sides at once. Insertions of both sides at one point are the same, or they
conflict.
-/

namespace Suture.Engine
set_option autoImplicit false
open Foundation

variable {base ours theirs : List String}

/-- No hunk of `H'` starts at a line that `H` deletes. -/
def Clear (H H' : Hunks String) : Prop :=
  ∀ s a s' b, H s = some a → H' s' = some b → ¬ (s ≤ s' ∧ s' < s + a.deleted)

/-- Where both start a hunk they insert the same lines. -/
def Agree (H H' : Hunks String) : Prop :=
  ∀ s a b, H s = some a → H' s = some b → a.inserted = b.inserted

/-- The hunks of both sides, one that both have taken once. -/
def joint (H H' : Hunks String) : Hunks String := fun s => (H s).orElse fun _ => H' s

/-! ### A walk that applies hunks -/

/-- A loop that emits at each line it reaches what `H` inserts there, and moves on by what `H`
deletes, applies `H`. -/
theorem trace_applied {n : Nat} {H : Hunks String} {emit : Segment → List String}
    {oursMap theirsMap : ChangeMap} (hn : n = base.length)
    (hbound : ∀ s, s < n → s + span oursMap.hunks theirsMap.hunks s ≤ n)
    (hkept : ∀ i, emit (.kept i) = [base.getD i ""])
    (htaken : ∀ i, Reached oursMap.hunks theirsMap.hunks i →
      (taken oursMap theirsMap i).toList.flatMap emit = insertedAt H i)
    (hspan : ∀ i, Reached oursMap.hunks theirsMap.hunks i →
      span oursMap.hunks theirsMap.hunks i = deletedAt H i)
    (hinside : ∀ i k, i < k → k < i + deletedAt H i → H k = none) (d : Nat) :
    ∀ i, i + d = n → Reached oursMap.hunks theirsMap.hunks i → FreeAt H i →
      (trace n oursMap theirsMap i).flatMap emit = appliedFrom H base i := by
  subst hn
  induction d using Nat.strong_induction_on with
  | _ d ih =>
    intro i hid hi hfree
    rcases Nat.eq_zero_or_pos d with rfl | hpos
    · obtain rfl : i = base.length := hid
      rw [trace_of_ge _ _ (Nat.le_refl _), appliedFrom_of_ge base (Nat.le_refl _), htaken _ hi]
    · have hlt : i < base.length := by omega
      have hnext := reached_next hi
      have hfree' := hfree.next (hinside i)
      have hend := hbound i hlt
      rw [hspan i hi] at hnext hend
      have hrest := ih (d - max 1 (deletedAt H i)) (by omega) (i + max 1 (deletedAt H i)) (by omega)
        hnext hfree'
      rw [trace_next hlt, appliedFrom_next base hlt hfree (hinside i) hend, List.flatMap_append,
        List.flatMap_append, htaken i hi, hspan i hi, hrest]
      congr 2
      split_ifs with h0
      · rw [List.flatMap_cons, hkept, List.getD_eq_getElem?_getD, List.getElem?_eq_getElem hlt]
        rfl
      · rfl

/-! ### The hunks of both sides -/

section Joint
variable {H H' : Hunks String}

theorem joint_of_some {s : Nat} {a : Hunk String} (h : H s = some a) : joint H H' s = some a := by
  rw [joint, h]
  rfl

theorem joint_of_none {s : Nat} (h : H s = none) : joint H H' s = H' s := by
  rw [joint, h]
  rfl

/-- Inside a hunk of either side no other one starts. -/
theorem joint_inside (hH : Separated H) (hH' : Separated H') (hclear : Clear H H')
    (hclear' : Clear H' H) (i k : Nat) (hik : i < k) (hk : k < i + deletedAt (joint H H') i) :
    joint H H' k = none := by
  have hnone : ∀ {G G' : Hunks String}, Separated G → Clear G G' → ∀ a, G i = some a →
      k < i + a.deleted → G k = none ∧ G' k = none := by
    intro G G' hG hGG' a ha hka
    constructor
    · exact hG.none_at_end ha hik (Nat.le_of_lt hka)
    · cases hb : G' k with
      | none => rfl
      | some b => exact absurd ⟨Nat.le_of_lt hik, hka⟩ (hGG' i a k b ha hb)
  unfold deletedAt at hk
  cases ha : H i with
  | some a =>
    rw [joint_of_some ha, Option.elim_some] at hk
    obtain ⟨hself, hother⟩ := hnone hH hclear a ha hk
    rw [joint_of_none hself, hother]
  | none =>
    rw [joint_of_none ha] at hk
    cases hb : H' i with
    | none =>
      rw [hb, Option.elim_none] at hk
      omega
    | some b =>
      rw [hb, Option.elim_some] at hk
      obtain ⟨hself, hother⟩ := hnone hH' hclear' b hb hk
      rw [joint_of_none hother, hself]

theorem joint_self (H : Hunks String) : joint H H = H := by
  funext s
  unfold joint
  cases H s <;> rfl

end Joint

/-! ### The merge -/

theorem joint_taken {oursMap theirsMap : ChangeMap} (base : List String) (labels : MergeLabels)
    (hagree : Agree oursMap.hunks theirsMap.hunks) (i : Nat) :
    (taken oursMap theirsMap i).toList.flatMap (·.render labels base) =
        insertedAt (joint oursMap.hunks theirsMap.hunks) i ∧
      span oursMap.hunks theirsMap.hunks i =
        deletedAt (joint oursMap.hunks theirsMap.hunks) i := by
  rw [span_of_taken]
  unfold taken insertedAt deletedAt joint ChangeMap.hunks
  cases ha : oursMap i with
  | none =>
    cases hb : theirsMap i with
    | none => simp
    | some b => simp [Segment.render, Segment.advance, SideAction.toHunk]
  | some a =>
    cases hb : theirsMap i with
    | none => simp [Segment.render, Segment.advance, SideAction.toHunk]
    | some b =>
      have heq : a.outputLines = b.outputLines := by
        apply hagree i a.toHunk b.toHunk
        · rw [ChangeMap.hunks, ha]
          rfl
        · rw [ChangeMap.hunks, hb]
          rfl
      simp [heq, Segment.render, Segment.advance, SideAction.toHunk]

theorem threeWayMergeLines_of_trivial (labels : MergeLabels) (h : Trivial base ours theirs) :
    (threeWayMergeLines base ours theirs labels).isClean = true ∧
      (threeWayMergeLines base ours theirs labels).lines = if base = ours then theirs else ours := by
  unfold threeWayMergeLines
  rcases h with rfl | rfl | rfl
  · simp
  · by_cases h : base = theirs <;> simp [h]
  · by_cases h : ours = base
    · simp [h]
    · simp [h, Ne.symm h]

theorem merge_applied (labels : MergeLabels) (hours : Exact base ours)
    (htheirs : Exact base theirs)
    (hclear : Clear (sideHunks base ours) (sideHunks base theirs))
    (hclear' : Clear (sideHunks base theirs) (sideHunks base ours))
    (hagree : Agree (sideHunks base ours) (sideHunks base theirs)) :
    (threeWayMergeLines base ours theirs labels).isClean = true ∧
      (threeWayMergeLines base ours theirs labels).lines =
        applied (joint (sideHunks base ours) (sideHunks base theirs)) base := by
  by_cases htriv : Trivial base ours theirs
  · obtain ⟨hclean, hlines⟩ := threeWayMergeLines_of_trivial labels htriv
    refine ⟨hclean, hlines.trans ?_⟩
    have hnone : sideHunks base base = fun _ => none := funext (sideHunks_same base)
    split_ifs with hbase
    · subst hbase
      have hjoint : joint (sideHunks base base) (sideHunks base theirs) = sideHunks base theirs := by
        funext s
        rw [joint_of_none (sideHunks_same base s)]
      rw [hjoint, htheirs.applied]
    · rcases htriv with rfl | rfl | rfl
      · rw [joint_self, hours.applied]
      · exact absurd rfl hbase
      · have hjoint : joint (sideHunks base ours) (sideHunks base base) = sideHunks base ours := by
          funext s
          unfold joint
          rw [sideHunks_same]
          cases sideHunks base ours s <;> rfl
        rw [hjoint, hours.applied]
  · obtain ⟨hlines, hclean⟩ := threeWayMergeLines_trace labels htriv
    constructor
    · apply hclean.mpr
      intro hclash
      obtain ⟨s, a, b, -, ha, hb, hne⟩ := hclash
      exact hne (hagree s a b ha hb)
    · rw [hlines]
      have hsep : Separated (sideHunks base ours) := (diffLines_ok base ours).separated
      have hsep' : Separated (sideHunks base theirs) := (diffLines_ok base theirs).separated
      exact trace_applied rfl (fun s hs => span_le bounded_ours bounded_ours (Nat.le_of_lt hs))
        (fun _ => rfl) (fun i _ => (joint_taken base labels hagree i).1)
        (fun i _ => (joint_taken base labels hagree i).2) (joint_inside hsep hsep' hclear hclear')
        base.length 0 (Nat.zero_add _) reached_zero freeAt_zero

/-- Edits of up to the bound that stay apart merge without a conflict, to the base with the hunks
of both sides applied. -/
theorem disjoint_edits_merge (labels : MergeLabels) (hbase : base.length ≤ lcsDpThreshold)
    (hours : ours.length ≤ lcsDpThreshold) (htheirs : theirs.length ≤ lcsDpThreshold)
    (hclear : Clear (hunksOf (diffLinesDp base ours)) (hunksOf (diffLinesDp base theirs)))
    (hclear' : Clear (hunksOf (diffLinesDp base theirs)) (hunksOf (diffLinesDp base ours)))
    (hagree : Agree (hunksOf (diffLinesDp base ours)) (hunksOf (diffLinesDp base theirs))) :
    (threeWayMergeLines base ours theirs labels).isClean = true ∧
      (threeWayMergeLines base ours theirs labels).lines =
        applied (joint (hunksOf (diffLinesDp base ours)) (hunksOf (diffLinesDp base theirs))) base := by
  rw [← diffLines_eq_dp hbase hours, ← diffLines_eq_dp hbase htheirs, ← sideHunks_eq,
    ← sideHunks_eq] at *
  exact merge_applied labels (exact_of_length hbase hours) (exact_of_length hbase htheirs)
    hclear hclear' hagree

/-! ### Examples -/

section Actions
variable {changes changes' : List LineChange}

theorem mem_of_hunksOf (htidy : Tidy changes) {s : Nat} {a : Hunk String}
    (ha : hunksOf changes s = some a) : ∃ x, (s, x) ∈ sideActions 0 changes ∧ x.toHunk = a :=
  (hunksFrom_hunksOf htidy s a (Nat.zero_le s)).mp ha

theorem clear_of_actions (htidy : Tidy changes) (htidy' : Tidy changes')
    (h : ∀ x ∈ sideActions 0 changes, ∀ y ∈ sideActions 0 changes',
      ¬ (x.1 ≤ y.1 ∧ y.1 < x.1 + x.2.advance)) : Clear (hunksOf changes) (hunksOf changes') := by
  intro s a s' b ha hb
  obtain ⟨x, hx, rfl⟩ := mem_of_hunksOf htidy ha
  obtain ⟨y, hy, rfl⟩ := mem_of_hunksOf htidy' hb
  exact h (s, x) hx (s', y) hy

theorem agree_of_actions (htidy : Tidy changes) (htidy' : Tidy changes')
    (h : ∀ x ∈ sideActions 0 changes, ∀ y ∈ sideActions 0 changes',
      x.1 = y.1 → x.2.outputLines = y.2.outputLines) : Agree (hunksOf changes) (hunksOf changes') := by
  intro s a b ha hb
  obtain ⟨x, hx, rfl⟩ := mem_of_hunksOf htidy ha
  obtain ⟨y, hy, rfl⟩ := mem_of_hunksOf htidy' hb
  exact h (s, x) hx (s, y) hy rfl

end Actions

/-- Ours replaces the first line, theirs adds a last one, and both insert the same line between. -/
theorem disjoint_edits_merge_example :
    let base := ["a", "b", "c"]
    let ours := ["A", "b", "N", "c"]
    let theirs := ["a", "b", "N", "c", "d"]
    let out := threeWayMergeLines base ours theirs ⟨"ours", "theirs"⟩
    out.lines = ["A", "b", "N", "c", "d"] ∧ out.isClean = true ∧
      out.lines =
        applied (joint (hunksOf (diffLinesDp base ours)) (hunksOf (diffLinesDp base theirs))) base := by
  have hours : sideActions 0 (diffLinesDp ["a", "b", "c"] ["A", "b", "N", "c"]) =
      [(0, .deleteInsert 1 ["A"]), (2, .insert ["N"])] := by decide +kernel
  have htheirs : sideActions 0 (diffLinesDp ["a", "b", "c"] ["a", "b", "N", "c", "d"]) =
      [(2, .insert ["N"]), (3, .insert ["d"])] := by decide +kernel
  have htidy := (diffLinesDp_ok ["a", "b", "c"] ["A", "b", "N", "c"]).tidy
  have htidy' := (diffLinesDp_ok ["a", "b", "c"] ["a", "b", "N", "c", "d"]).tidy
  refine ⟨by decide +kernel, ?_⟩
  apply disjoint_edits_merge _ (by decide) (by decide) (by decide)
  · apply clear_of_actions htidy htidy'
    rw [hours, htheirs]
    decide
  · apply clear_of_actions htidy' htidy
    rw [hours, htheirs]
    decide
  · apply agree_of_actions htidy htidy'
    rw [hours, htheirs]
    decide

/-- Two insertions at one point delete nothing and still conflict. -/
theorem insertions_conflict : ¬ ∀ (base ours theirs : List String) (labels : MergeLabels),
    base.length ≤ lcsDpThreshold → ours.length ≤ lcsDpThreshold → theirs.length ≤ lcsDpThreshold →
      Clear (hunksOf (diffLinesDp base ours)) (hunksOf (diffLinesDp base theirs)) →
      Clear (hunksOf (diffLinesDp base theirs)) (hunksOf (diffLinesDp base ours)) →
        (threeWayMergeLines base ours theirs labels).isClean = true ∧
          (threeWayMergeLines base ours theirs labels).lines = applied
            (joint (hunksOf (diffLinesDp base ours)) (hunksOf (diffLinesDp base theirs))) base := by
  intro h
  have hours : sideActions 0 (diffLinesDp ["a"] ["x", "a"]) = [(0, .insert ["x"])] := by decide +kernel
  have htheirs : sideActions 0 (diffLinesDp ["a"] ["y", "a"]) = [(0, .insert ["y"])] := by
    decide +kernel
  have htidy := (diffLinesDp_ok ["a"] ["x", "a"]).tidy
  have htidy' := (diffLinesDp_ok ["a"] ["y", "a"]).tidy
  have hclean := (h ["a"] ["x", "a"] ["y", "a"] ⟨"ours", "theirs"⟩ (by decide) (by decide) (by decide)
    (clear_of_actions htidy htidy' (by rw [hours, htheirs]; decide))
    (clear_of_actions htidy' htidy (by rw [hours, htheirs]; decide))).1
  exact absurd hclean (by decide +kernel)

end Suture.Engine
