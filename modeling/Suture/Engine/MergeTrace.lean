import Suture.Engine.LineMerge

/-!
# What a three-way merge does with each hunk

`trace` is the merge loop recording which base line it keeps and which action it
takes. It renders to the output of the merge, and what it visits is what the walk
over the two sets of hunks reaches.
-/

namespace Suture.Engine
set_option autoImplicit false
open Foundation

inductive Segment where
  | kept (i : Nat)
  | ours (i : Nat) (a : SideAction)
  | theirs (i : Nat) (b : SideAction)
  | same (i : Nat) (a b : SideAction)
  | conflict (i : Nat) (a b : SideAction)
deriving DecidableEq, Repr

namespace Segment

def advance : Segment → Nat
  | .kept _ => 1
  | .ours _ a | .theirs _ a | .same _ a _ => a.advance
  | .conflict _ a b => max a.advance b.advance

/-- The action of our side that the segment carries, with its base line. -/
def oursAction : Segment → Option (Nat × SideAction)
  | .ours i a | .same i a _ | .conflict i a _ => some (i, a)
  | .kept _ | .theirs _ _ => none

def theirsAction : Segment → Option (Nat × SideAction)
  | .theirs i b | .same i _ b | .conflict i _ b => some (i, b)
  | .kept _ | .ours _ _ => none

def isConflict : Segment → Bool
  | .conflict _ _ _ => true
  | _ => false

def render (labels : MergeLabels) (base : List String) : Segment → List String
  | .kept i => [base.getD i ""]
  | .ours _ a | .theirs _ a | .same _ a _ => a.outputLines
  | .conflict _ a b => labels.conflict a.outputLines b.outputLines

end Segment

/-- What the loop does with the actions at a line. -/
def taken (ours theirs : ChangeMap) (i : Nat) : Option Segment :=
  match ours i, theirs i with
  | none, none => none
  | some a, none => some (.ours i a)
  | none, some b => some (.theirs i b)
  | some a, some b =>
    if a.outputLines = b.outputLines then some (.same i a b) else some (.conflict i a b)

theorem pending_of_taken {ours theirs : ChangeMap} {i : Nat} {seg : Segment}
    (h : taken ours theirs i = some seg) : pending ours theirs i = 1 := by
  unfold taken at h
  unfold pending
  split at h <;> simp_all

def trace (n : Nat) (ours theirs : ChangeMap) (i : Nat) : List Segment :=
  if _hi : i < n then
    match h : taken ours theirs i with
    | none => .kept i :: trace n ours theirs (i + 1)
    | some seg =>
      seg :: trace n (Function.update ours i none) (Function.update theirs i none) (i + seg.advance)
  else (taken ours theirs n).toList
termination_by 2 * (n - i) + pending ours theirs i
decreasing_by
  · have := pending_le_one ours theirs (i + 1)
    omega
  · exact remove_decreases ours theirs _hi (pending_of_taken h)

theorem trace_of_lt {n i : Nat} (ours theirs : ChangeMap) (h : i < n) :
    trace n ours theirs i =
      match taken ours theirs i with
      | none => .kept i :: trace n ours theirs (i + 1)
      | some seg =>
        seg :: trace n (Function.update ours i none) (Function.update theirs i none)
          (i + seg.advance) := by
  rw [trace, dif_pos h]
  split <;> simp_all

theorem trace_of_ge {n i : Nat} (ours theirs : ChangeMap) (h : n ≤ i) :
    trace n ours theirs i = (taken ours theirs n).toList := by
  rw [trace, dif_neg (Nat.not_lt_of_le h)]

/-- The merge emits its trace. -/
theorem mergeLoop_trace (labels : MergeLabels) (base : List String) (ours theirs : ChangeMap)
    (i : Nat) (out : MergeOutput) :
    let result := mergeLoop labels base ours theirs i out
    let segs := trace base.length ours theirs i
    result.lines = out.lines ++ segs.flatMap (·.render labels base) ∧
      result.isClean = (out.isClean && segs.all (!·.isConflict)) ∧
      result.conflicts = out.conflicts + (segs.filter (·.isConflict)).length := by
  fun_induction mergeLoop labels base ours theirs i out with
  | case1 ours theirs i out hi ho ht ih =>
    rw [trace_of_lt _ _ hi, taken, ho, ht]
    simpa [MergeOutput.push, Segment.render, Segment.isConflict] using ih
  | case2 ours theirs i out hi a ho ht ih =>
    rw [trace_of_lt _ _ hi, taken, ho, ht]
    simpa [MergeOutput.push, Segment.render, Segment.isConflict, Segment.advance] using ih
  | case3 ours theirs i out hi b ho ht ih =>
    rw [trace_of_lt _ _ hi, taken, ho, ht]
    simpa [MergeOutput.push, Segment.render, Segment.isConflict, Segment.advance] using ih
  | case4 ours theirs i out hi a b ho ht heq ih =>
    rw [trace_of_lt _ _ hi, taken, ho, ht]
    simpa [MergeOutput.push, Segment.render, Segment.isConflict, Segment.advance, heq] using ih
  | case5 ours theirs i out hi a b ho ht hne ih =>
    rw [trace_of_lt _ _ hi, taken, ho, ht]
    simpa [MergeOutput.pushConflict, Segment.render, Segment.isConflict, Segment.advance, hne,
      Nat.add_assoc, Nat.add_comm] using ih
  | case6 ours theirs i out hi ho ht =>
    rw [trace_of_ge _ _ (Nat.le_of_not_lt hi), taken, ho, ht]
    simp
  | case7 ours theirs i out hi a ho ht =>
    rw [trace_of_ge _ _ (Nat.le_of_not_lt hi), taken, ho, ht]
    simp [MergeOutput.push, Segment.render, Segment.isConflict]
  | case8 ours theirs i out hi b ho ht =>
    rw [trace_of_ge _ _ (Nat.le_of_not_lt hi), taken, ho, ht]
    simp [MergeOutput.push, Segment.render, Segment.isConflict]
  | case9 ours theirs i out hi a b ho ht heq =>
    rw [trace_of_ge _ _ (Nat.le_of_not_lt hi), taken, ho, ht]
    simp [MergeOutput.push, Segment.render, Segment.isConflict, heq]
  | case10 ours theirs i out hi a b ho ht hne =>
    rw [trace_of_ge _ _ (Nat.le_of_not_lt hi), taken, ho, ht]
    simp [MergeOutput.pushConflict, Segment.render, Segment.isConflict, hne]

/-! ### The walk -/

section Walk
variable {n : Nat} {ours theirs : ChangeMap}

theorem span_of_taken {i : Nat} :
    span ours.hunks theirs.hunks i = ((taken ours theirs i).map Segment.advance).getD 0 := by
  unfold span taken ChangeMap.hunks
  cases ours i with
  | none => cases theirs i <;> rfl
  | some a =>
    cases theirs i with
    | none => rfl
    | some b =>
      simp only [Option.map_some, SideAction.toHunk]
      by_cases heq : a.outputLines = b.outputLines <;> simp [heq, Segment.advance]

theorem taken_congr {ours' theirs' : ChangeMap} {i : Nat} (ho : ours i = ours' i)
    (ht : theirs i = theirs' i) : taken ours theirs i = taken ours' theirs' i := by
  rw [taken, taken, ho, ht]

/-- The loop looks at no line before `i`. -/
theorem trace_congr {ours' theirs' : ChangeMap} {i : Nat}
    (ho : ∀ k, min i n ≤ k → ours k = ours' k) (ht : ∀ k, min i n ≤ k → theirs k = theirs' k) :
    trace n ours theirs i = trace n ours' theirs' i := by
  fun_induction trace n ours theirs i generalizing ours' theirs' with
  | case1 ours theirs i hi hnone ih =>
    rw [trace_of_lt _ _ hi, ← taken_congr (ho i (by omega)) (ht i (by omega)), hnone]
    exact congrArg _ (ih (fun k hk => ho k (by omega)) fun k hk => ht k (by omega))
  | case2 ours theirs i hi seg hsome ih =>
    rw [trace_of_lt _ _ hi, ← taken_congr (ho i (by omega)) (ht i (by omega)), hsome]
    refine congrArg _ (ih (fun k hk => ?_) fun k hk => ?_)
    · by_cases hki : k = i
      · simp [hki]
      · simpa [hki] using ho k (by omega)
    · by_cases hki : k = i
      · simp [hki]
      · simpa [hki] using ht k (by omega)
  | case3 ours theirs i hi =>
    rw [trace_of_ge _ _ (Nat.le_of_not_lt hi), taken_congr (ho n (by omega)) (ht n (by omega))]

/-- Removed actions at a passed line do not matter any more. -/
theorem trace_remove {i j : Nat} (hi : i < n) (hij : i < j) :
    trace n (Function.update ours i none) (Function.update theirs i none) j =
      trace n ours theirs j := by
  refine trace_congr (fun k hk => ?_) fun k hk => ?_ <;>
    exact Function.update_of_ne (by omega) _ _

/-- From a line whose actions are still there the loop comes to the next line the walk
reaches with the maps as good as untouched. -/
theorem trace_next {i : Nat} (hi : i < n) :
    trace n ours theirs i =
      (taken ours theirs i).toList ++
        ((if span ours.hunks theirs.hunks i = 0 then [.kept i] else []) ++
        trace n ours theirs (i + max 1 (span ours.hunks theirs.hunks i))) := by
  rw [trace_of_lt _ _ hi, span_of_taken]
  cases h : taken ours theirs i with
  | none => simp
  | some seg =>
    simp only [Option.map_some, Option.getD_some, Option.toList_some, List.singleton_append]
    refine congrArg _ ?_
    rcases Nat.eq_zero_or_pos seg.advance with h0 | hpos
    · have hremoved : taken (Function.update ours i none) (Function.update theirs i none) i =
          none := by simp [taken]
      simp only [h0, Nat.add_zero, trace_of_lt _ _ hi, hremoved]
      simp [trace_remove hi (Nat.lt_succ_self i)]
    · have hmax : max 1 seg.advance = seg.advance := max_eq_right hpos
      simp only [Nat.ne_of_gt hpos, if_false, hmax, List.nil_append]
      exact trace_remove hi (by omega)

/-- What a segment of the trace comes from: an action or a kept line the walk reaches. -/
theorem mem_trace {seg : Segment}
    (hbound : ∀ s, s < n → s + span ours.hunks theirs.hunks s ≤ n) (d : Nat) :
    ∀ i, i + d = n → Reached ours.hunks theirs.hunks i →
      (seg ∈ trace n ours theirs i ↔ ∃ s, i ≤ s ∧ s ≤ n ∧ Reached ours.hunks theirs.hunks s ∧
        (taken ours theirs s = some seg ∨
          (s < n ∧ span ours.hunks theirs.hunks s = 0 ∧ seg = .kept s))) := by
  induction d using Nat.strong_induction_on with
  | _ d ih =>
    intro i hid hi
    rcases Nat.eq_zero_or_pos d with rfl | hpos
    · obtain rfl : i = n := hid
      rw [trace_of_ge _ _ (Nat.le_refl _), Option.mem_toList]
      constructor
      · exact fun h => ⟨i, Nat.le_refl _, Nat.le_refl _, hi, .inl h⟩
      · rintro ⟨s, his, hsi, _, h | h⟩
        · obtain rfl := Nat.le_antisymm his hsi
          exact h
        · omega
    · have hlt : i < n := by omega
      have hnext := hbound i hlt
      rw [trace_next hlt]
      generalize hk : max 1 (span ours.hunks theirs.hunks i) = k
      have hih := ih (d - k) (by omega) (i + k) (by omega) (hk ▸ reached_next hi)
      rw [List.mem_append, List.mem_append, hih, Option.mem_toList]
      constructor
      · rintro (h | h | ⟨s, his, hsn, hs, h⟩)
        · exact ⟨i, Nat.le_refl _, by omega, hi, .inl h⟩
        · split at h
          · rename_i h0
            exact ⟨i, Nat.le_refl _, by omega, hi, .inr ⟨hlt, h0, List.mem_singleton.mp h⟩⟩
          · exact absurd h (List.not_mem_nil)
        · exact ⟨s, by omega, hsn, hs, h⟩
      · rintro ⟨s, his, hsn, hs, h⟩
        rcases Nat.lt_or_ge s (i + k) with hsk | hsk
        · have hsi : s = i := by
            by_contra hne
            exact not_reached_of_jump hi (by omega) (by omega) hs
          subst s
          rcases h with h | ⟨_, h0, rfl⟩
          · exact .inl h
          · right
            left
            simp [h0]
        · exact .inr (.inr ⟨s, hsk, hsn, hs, h⟩)

theorem taken_oursAction {i : Nat} {seg : Segment} (h : taken ours theirs i = some seg) :
    seg.oursAction = (ours i).map (Prod.mk i) := by
  unfold taken at h
  cases ho : ours i <;> cases ht : theirs i <;> rw [ho, ht] at h
  · cases h
  · cases h
    rfl
  · cases h
    rfl
  · simp only at h
    split at h <;> cases h <;> rfl

theorem taken_theirsAction {i : Nat} {seg : Segment} (h : taken ours theirs i = some seg) :
    seg.theirsAction = (theirs i).map (Prod.mk i) := by
  unfold taken at h
  cases ho : ours i <;> cases ht : theirs i <;> rw [ho, ht] at h
  · cases h
  · cases h
    rfl
  · cases h
    rfl
  · simp only at h
    split at h <;> cases h <;> rfl

theorem taken_ne_kept {i k : Nat} : taken ours theirs i ≠ some (.kept k) := by
  unfold taken
  cases ours i with
  | none => cases theirs i <;> simp
  | some a =>
    cases theirs i with
    | none => simp
    | some b =>
      dsimp only
      split <;> simp

theorem taken_conflict_iff {i : Nat} :
    (∃ seg, taken ours theirs i = some seg ∧ seg.isConflict = true) ↔
      ∃ a b, ours i = some a ∧ theirs i = some b ∧ a.outputLines ≠ b.outputLines := by
  unfold taken
  cases ho : ours i with
  | none => cases theirs i <;> simp [Segment.isConflict]
  | some a =>
    cases ht : theirs i with
    | none => simp [Segment.isConflict]
    | some b =>
      by_cases heq : a.outputLines = b.outputLines <;> simp [heq, Segment.isConflict]

/-- The actions of a side end inside a base of `n` lines. -/
def Bounded (n : Nat) (map : ChangeMap) : Prop := ∀ s a, map s = some a → s + a.advance ≤ n

theorem span_le (ho : Bounded n ours) (ht : Bounded n theirs) {s : Nat} (hs : s ≤ n) :
    s + span ours.hunks theirs.hunks s ≤ n := by
  rw [span_of_taken]
  unfold taken
  cases ha : ours s with
  | none =>
    cases hb : theirs s with
    | none => simpa using hs
    | some b => exact ht s b hb
  | some a =>
    have := ho s a ha
    cases hb : theirs s with
    | none => exact this
    | some b =>
      have := ht s b hb
      by_cases heq : a.outputLines = b.outputLines <;> simp [heq, Segment.advance] <;> omega

/-! ### Reading the whole trace -/

theorem mem_trace_zero (ho : Bounded n ours) (ht : Bounded n theirs) (seg : Segment) :
    seg ∈ trace n ours theirs 0 ↔ ∃ s, s ≤ n ∧ Reached ours.hunks theirs.hunks s ∧
      (taken ours theirs s = some seg ∨
        (s < n ∧ span ours.hunks theirs.hunks s = 0 ∧ seg = .kept s)) := by
  rw [mem_trace (fun s hs => span_le ho ht (Nat.le_of_lt hs)) n 0 (Nat.zero_add n) reached_zero]
  simp only [Nat.zero_le, true_and]

theorem kept_mem_trace (ho : Bounded n ours) (ht : Bounded n theirs) {i : Nat} :
    .kept i ∈ trace n ours theirs 0 ↔
      Reached ours.hunks theirs.hunks i ∧ i < n ∧ span ours.hunks theirs.hunks i = 0 := by
  rw [mem_trace_zero ho ht]
  constructor
  · rintro ⟨s, _, hs, h | ⟨hlt, h0, heq⟩⟩
    · exact absurd h taken_ne_kept
    · obtain rfl := Segment.kept.inj heq
      exact ⟨hs, hlt, h0⟩
  · rintro ⟨hs, hlt, h0⟩
    exact ⟨i, Nat.le_of_lt hlt, hs, .inr ⟨hlt, h0, rfl⟩⟩

/-- A side's action is carried by the trace exactly where the walk reaches it. -/
theorem action_mem_trace (ho : Bounded n ours) (ht : Bounded n theirs)
    {action : Segment → Option (Nat × SideAction)} {map : ChangeMap}
    (hmap : map = ours ∨ map = theirs)
    (haction : ∀ i seg, taken ours theirs i = some seg → action seg = (map i).map (Prod.mk i))
    (hkept : ∀ i, action (.kept i) = none) {s : Nat} {a : SideAction} :
    (∃ seg ∈ trace n ours theirs 0, action seg = some (s, a)) ↔
      map s = some a ∧ Reached ours.hunks theirs.hunks s := by
  constructor
  · rintro ⟨seg, hseg, hact⟩
    obtain ⟨r, _, hr, h | ⟨_, _, rfl⟩⟩ := (mem_trace_zero ho ht seg).mp hseg
    · rw [haction r seg h] at hact
      obtain ⟨x, hx, heq⟩ := Option.map_eq_some_iff.mp hact
      obtain ⟨rfl, rfl⟩ := Prod.mk.inj heq
      exact ⟨hx, hr⟩
    · rw [hkept] at hact
      exact absurd hact nofun
  · rintro ⟨ha, hs⟩
    have hle : s ≤ n := by
      rcases hmap with rfl | rfl
      · exact (Nat.le_add_right _ _).trans (ho s a ha)
      · exact (Nat.le_add_right _ _).trans (ht s a ha)
    obtain ⟨seg, hseg⟩ : ∃ seg, taken ours theirs s = some seg := by
      unfold taken
      rcases hmap with rfl | rfl
      · rw [ha]
        cases theirs s with
        | none => exact ⟨_, rfl⟩
        | some b => by_cases heq : a.outputLines = b.outputLines <;> simp [heq]
      · rw [ha]
        cases ours s with
        | none => exact ⟨_, rfl⟩
        | some b => by_cases heq : b.outputLines = a.outputLines <;> simp [heq]
    refine ⟨seg, (mem_trace_zero ho ht seg).mpr ⟨s, hle, hs, .inl hseg⟩, ?_⟩
    rw [haction s seg hseg, ha]
    rfl

theorem conflict_mem_trace (ho : Bounded n ours) (ht : Bounded n theirs) :
    (∃ seg ∈ trace n ours theirs 0, seg.isConflict = true) ↔ Clash ours.hunks theirs.hunks := by
  constructor
  · rintro ⟨seg, hseg, hconf⟩
    obtain ⟨s, _, hs, h | ⟨_, _, rfl⟩⟩ := (mem_trace_zero ho ht seg).mp hseg
    · obtain ⟨a, b, ha, hb, hne⟩ := taken_conflict_iff.mp ⟨seg, h, hconf⟩
      exact ⟨s, a.toHunk, b.toHunk, hs, by simp [ChangeMap.hunks, ha],
        by simp [ChangeMap.hunks, hb], hne⟩
    · exact absurd hconf nofun
  · rintro ⟨s, x, y, hs, hx, hy, hne⟩
    obtain ⟨a, ha, rfl⟩ := Option.map_eq_some_iff.mp hx
    obtain ⟨b, hb, rfl⟩ := Option.map_eq_some_iff.mp hy
    obtain ⟨seg, hseg, hconf⟩ := taken_conflict_iff.mpr ⟨a, b, ha, hb, hne⟩
    have hle := (Nat.le_add_right s a.advance).trans (ho s a ha)
    exact ⟨seg, (mem_trace_zero ho ht seg).mpr ⟨s, hle, hs, .inl hseg⟩, hconf⟩

end Walk
end Suture.Engine
