import Mathlib.Data.List.Range
import Mathlib.Logic.Function.Basic
import Suture.Foundation.Hunks

/-!
# Lines with hunks applied

Applying a set of hunks puts the lines it inserts in front of the line they start at and leaves
out the lines it deletes, all of them at once.
-/

namespace Suture.Foundation
set_option autoImplicit false

universe u
variable {α : Type u} (H : Hunks α) (lines : List α)

def insertedAt (i : Nat) : List α := (H i).elim [] Hunk.inserted

def deletedAt (i : Nat) : Nat := (H i).elim 0 Hunk.deleted

def deletesLine (i : Nat) : Bool := (List.range (i + 1)).any fun s => decide (i < s + deletedAt H s)

/-- What stands for line `i`. -/
def lineAt (i : Nat) : List α := insertedAt H i ++ if deletesLine H i then [] else lines[i]?.toList

def appliedFrom (i : Nat) : List α :=
  (List.range' i (lines.length - i)).flatMap (lineAt H lines) ++ insertedAt H lines.length

/-- The lines with all hunks applied. -/
def applied : List α := appliedFrom H lines 0

/-- No hunk before line `i` reaches past it. -/
def FreeAt (i : Nat) : Prop := ∀ s, s < i → s + deletedAt H s ≤ i

variable {H}

theorem deletesLine_iff {i : Nat} : deletesLine H i = true ↔ Deletes H i := by
  unfold deletesLine Deletes
  rw [List.any_eq_true]
  constructor
  · intro h
    obtain ⟨s, hs, hi⟩ := h
    have hs := List.mem_range.mp hs
    have hi : i < s + deletedAt H s := of_decide_eq_true hi
    cases ha : H s with
    | none =>
      rw [deletedAt, ha, Option.elim_none] at hi
      omega
    | some a =>
      rw [deletedAt, ha, Option.elim_some] at hi
      exact ⟨s, a, ha, by omega, hi⟩
  · intro h
    obtain ⟨s, a, ha, hsi, hi⟩ := h
    refine ⟨s, List.mem_range.mpr (by omega), ?_⟩
    rw [decide_eq_true_eq, deletedAt, ha]
    exact hi

theorem freeAt_zero : FreeAt H 0 := fun s hs => absurd hs (Nat.not_lt_zero s)

theorem FreeAt.deletesLine {i : Nat} (h : FreeAt H i) :
    Foundation.deletesLine H i = decide (0 < deletedAt H i) := by
  unfold Foundation.deletesLine
  rw [Bool.eq_iff_iff, List.any_eq_true, decide_eq_true_eq]
  constructor
  · intro hany
    obtain ⟨s, hs, hi⟩ := hany
    have hs := List.mem_range.mp hs
    have hi : i < s + deletedAt H s := of_decide_eq_true hi
    rcases Nat.lt_or_ge s i with hlt | hge
    · have hfree := h s hlt
      omega
    · obtain rfl : s = i := by omega
      omega
  · intro hpos
    refine ⟨i, List.mem_range.mpr (Nat.lt_succ_self i), decide_eq_true ?_⟩
    omega

/-- Behind a hunk with none inside it, no hunk reaches past its end. -/
theorem FreeAt.next {i : Nat} (h : FreeAt H i)
    (hnone : ∀ k, i < k → k < i + deletedAt H i → H k = none) :
    FreeAt H (i + max 1 (deletedAt H i)) := by
  intro s hs
  rcases Nat.lt_trichotomy s i with hlt | rfl | hgt
  · have hfree := h s hlt
    omega
  · omega
  · have hinside : H s = none := hnone s hgt (by omega)
    rw [deletedAt, hinside, Option.elim_none]
    omega

theorem appliedFrom_of_ge {i : Nat} (hi : lines.length ≤ i) :
    appliedFrom H lines i = insertedAt H lines.length := by
  unfold appliedFrom
  rw [Nat.sub_eq_zero_of_le hi]
  rfl

theorem appliedFrom_of_lt {i : Nat} (hi : i < lines.length) :
    appliedFrom H lines i = lineAt H lines i ++ appliedFrom H lines (i + 1) := by
  have hlen : lines.length - i = lines.length - (i + 1) + 1 := by omega
  unfold appliedFrom
  rw [hlen, List.range'_succ, List.flatMap_cons, List.append_assoc]

/-- Lines that a hunk deletes add nothing. -/
theorem appliedFrom_inside {i k : Nat} (hk : i + k ≤ lines.length)
    (hdeleted : ∀ j, i ≤ j → j < i + k → Deletes H j ∧ H j = none) :
    appliedFrom H lines i = appliedFrom H lines (i + k) := by
  induction k generalizing i with
  | zero => rfl
  | succ k ih =>
    obtain ⟨hdel, hnone⟩ := hdeleted i (Nat.le_refl i) (by omega)
    have hempty : lineAt H lines i = [] := by
      rw [lineAt, insertedAt, hnone, deletesLine_iff.mpr hdel]
      rfl
    rw [appliedFrom_of_lt lines (by omega), hempty, List.nil_append,
      ih (by omega) fun j hij hj => hdeleted j (by omega) (by omega)]
    congr 1
    omega

/-- Applied from a line that no earlier hunk reaches past: the hunk there, the line if it stays,
and what comes behind. -/
theorem appliedFrom_next {i : Nat} (hi : i < lines.length) (h : FreeAt H i)
    (hnone : ∀ k, i < k → k < i + deletedAt H i → H k = none)
    (hend : i + deletedAt H i ≤ lines.length) :
    appliedFrom H lines i = insertedAt H i ++
      ((if deletedAt H i = 0 then lines[i]?.toList else []) ++
        appliedFrom H lines (i + max 1 (deletedAt H i))) := by
  rw [appliedFrom_of_lt lines hi, lineAt, h.deletesLine, List.append_assoc]
  congr 1
  rcases Nat.eq_zero_or_pos (deletedAt H i) with h0 | hpos
  · simp [h0]
  · rw [if_neg (Nat.ne_of_gt hpos), decide_eq_true hpos, if_pos rfl, max_eq_right hpos,
      List.nil_append, List.nil_append]
    have hdeleted : ∀ j, i + 1 ≤ j → j < i + 1 + (deletedAt H i - 1) → Deletes H j ∧ H j = none := by
      intro j hij hj
      refine ⟨?_, hnone j (by omega) (by omega)⟩
      cases ha : H i with
      | none =>
        rw [deletedAt, ha, Option.elim_none] at hpos
        omega
      | some a =>
        have hd : deletedAt H i = a.deleted := by rw [deletedAt, ha, Option.elim_some]
        exact ⟨i, a, ha, by omega, by omega⟩
    rw [appliedFrom_inside lines (by omega) hdeleted]
    congr 1
    omega

/-- Lines without hunks stay. -/
theorem appliedFrom_run {i k : Nat} (hk : i + k ≤ lines.length) (h : FreeAt H i)
    (hnone : ∀ j, i ≤ j → j < i + k → H j = none) :
    appliedFrom H lines i = (lines.drop i).take k ++ appliedFrom H lines (i + k) ∧
      FreeAt H (i + k) := by
  induction k generalizing i with
  | zero => exact ⟨by rw [List.take_zero]; rfl, h⟩
  | succ k ih =>
    have hhere : H i = none := hnone i (Nat.le_refl i) (by omega)
    have hins : insertedAt H i = [] := by rw [insertedAt, hhere, Option.elim_none]
    have hdel : deletedAt H i = 0 := by rw [deletedAt, hhere, Option.elim_none]
    have hnext := h.next fun j hij hj => by omega
    rw [hdel] at hnext
    obtain ⟨hrest, hfree⟩ := ih (i := i + 1) (by omega) hnext
      fun j hij hj => hnone j (by omega) (by omega)
    have hplus : i + 1 + k = i + (k + 1) := by omega
    rw [hplus] at hrest hfree
    refine ⟨?_, hfree⟩
    have hi : i < lines.length := by omega
    rw [appliedFrom_next lines hi h (fun j hij hj => by omega) (by omega), hins, hdel, List.nil_append,
      if_pos rfl, List.drop_eq_getElem_cons hi, List.getElem?_eq_getElem hi]
    change _ ++ appliedFrom H lines (i + 1) = _
    rw [hrest, List.take_succ_cons]
    rfl

/-- A hunk that deletes nothing may be taken out first. -/
theorem appliedFrom_insert {i : Nat} {ins : List α} (hi : i ≤ lines.length)
    (h : H i = some ⟨0, ins⟩) :
    appliedFrom H lines i = ins ++ appliedFrom (Function.update H i none) lines i := by
  have hdel : deletedAt (Function.update H i none) = deletedAt H := by
    funext s
    by_cases hs : s = i
    · subst hs
      simp [deletedAt, h]
    · simp [deletedAt, hs]
  have hdeletes : ∀ k, deletesLine (Function.update H i none) k = deletesLine H k := by
    intro k
    unfold deletesLine
    rw [hdel]
  have hlater : ∀ k, i < k → insertedAt (Function.update H i none) k = insertedAt H k := by
    intro k hk
    have hne : k ≠ i := by omega
    simp [insertedAt, hne]
  have hhere : insertedAt H i = ins := by simp [insertedAt, h]
  have hgone : insertedAt (Function.update H i none) i = [] := by simp [insertedAt]
  rcases Nat.eq_or_lt_of_le hi with rfl | hlt
  · rw [appliedFrom_of_ge lines (Nat.le_refl _), appliedFrom_of_ge lines (Nat.le_refl _), hhere, hgone,
      List.append_nil]
  · rw [appliedFrom_of_lt lines hlt, appliedFrom_of_lt lines hlt, lineAt, lineAt, hhere, hgone, hdeletes,
      List.nil_append, List.append_assoc]
    congr 2
    unfold appliedFrom
    rw [hlater _ hlt]
    congr 1
    apply List.flatMap_congr
    intro k hk
    have hk := (List.mem_range'_1.mp hk).1
    rw [lineAt, lineAt, hlater k (by omega), hdeletes]

theorem applied_none : applied (fun _ => none) lines = lines := by
  obtain ⟨hrun, -⟩ := @appliedFrom_run α (fun _ => none) lines 0 lines.length (by omega) freeAt_zero
    fun _ _ _ => rfl
  rw [applied, hrun, Nat.zero_add, appliedFrom_of_ge lines (Nat.le_refl _), List.drop_zero,
    List.take_length]
  exact List.append_nil lines

/-! ### Lengths -/

theorem length_appliedFrom_le {i j : Nat} (hij : i ≤ j) (hj : j ≤ lines.length) :
    (appliedFrom H lines j).length ≤ (appliedFrom H lines i).length := by
  induction hij with
  | refl => exact Nat.le_refl _
  | @step j _ ih =>
    have hhere := congrArg List.length (@appliedFrom_of_lt α H lines j hj)
    have hrest := ih (Nat.le_of_lt hj)
    rw [List.length_append] at hhere
    rw [Nat.succ_eq_add_one]
    omega

/-- A walk that passes over more than a hunk deletes loses a line that stays behind the hunk. -/
theorem length_appliedFrom_lt {i j : Nat} (hj : j ≤ lines.length) (h : FreeAt H i)
    (hdel : i + deletedAt H i < j) (hnone : ∀ k, i < k → k ≤ i + deletedAt H i → H k = none) :
    (insertedAt H i).length + (appliedFrom H lines j).length < (appliedFrom H lines i).length := by
  have hinside : ∀ k, i < k → k < i + deletedAt H i → H k = none :=
    fun k hik hk => hnone k hik (Nat.le_of_lt hk)
  have hnext := congrArg List.length
    (appliedFrom_next lines (by omega) h hinside (by omega))
  rcases Nat.eq_zero_or_pos (deletedAt H i) with h0 | hpos
  · have hle := @length_appliedFrom_le α H lines (i + 1) j (by omega) hj
    rw [h0, if_pos rfl, List.getElem?_eq_getElem (by omega)] at hnext
    change _ = (insertedAt H i ++ ([_] ++ appliedFrom H lines (i + 1))).length at hnext
    simp only [List.length_append, List.length_singleton] at hnext
    omega
  · have hfree := h.next hinside
    rw [if_neg (Nat.ne_of_gt hpos), List.nil_append, max_eq_right hpos, List.length_append] at hnext
    rw [max_eq_right hpos] at hfree
    -- the line behind the hunk
    have hhere : ∀ k, i + deletedAt H i ≤ k → k < i + deletedAt H i + 1 → H k = none :=
      fun k hik hk => hnone k (by omega) (by omega)
    obtain ⟨hrun, -⟩ := appliedFrom_run lines (by omega) hfree hhere
    have hlen := congrArg List.length hrun
    have hle := @length_appliedFrom_le α H lines (i + deletedAt H i + 1) j (by omega) hj
    rw [List.length_append, List.length_take, List.length_drop] at hlen
    omega

end Suture.Foundation
