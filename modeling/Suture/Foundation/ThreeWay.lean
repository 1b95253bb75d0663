import Mathlib.Data.List.Basic
import Mathlib.Tactic.SplitIfs

/-!
# Three-way merges

What becomes of one value that two sides may have changed, and of values that are merged one
after the other until there is a conflict.
-/

namespace Suture.Foundation
set_option autoImplicit false

universe u v
variable {α : Type u} {β : Type v}

/-- What one side changed, `none` where both changed it differently. -/
def threeWay [DecidableEq α] (base ours theirs : α) : Option α :=
  if ours = theirs then some ours
  else if ours = base then some theirs
  else if theirs = base then some ours
  else none

section
variable [DecidableEq α] (base ours theirs : α)

@[simp] theorem threeWay_same : threeWay base ours ours = some ours := if_pos rfl

@[simp] theorem threeWay_base_left : threeWay base base theirs = some theirs := by
  unfold threeWay
  split
  · rename_i h
    rw [h]
  · exact if_pos rfl

@[simp] theorem threeWay_base_right : threeWay base ours base = some ours := by
  unfold threeWay
  split
  · rfl
  · exact if_pos rfl

end

/-- Something that is there or not is never in conflict. -/
theorem threeWay_bool (base ours theirs : Bool) :
    threeWay base ours theirs = some (if base then ours && theirs else ours || theirs) := by
  cases base <;> cases ours <;> cases theirs <;> rfl

/-! ### Entries that may be missing -/

/-- An entry that one side has is kept, whatever the base has. `both` is for entries of both
sides; `none` is a conflict. -/
def mergeEntry (both : (base : Option α) → (ours theirs : α) → Option α) :
    (base ours theirs : Option α) → Option (Option α)
  | base, some o, some t => (both base o t).map some
  | _, some o, none => some (some o)
  | _, none, some t => some (some t)
  | _, none, none => some none

/-- What one side changed; an entry that the base does not have was changed by both. -/
def settle [DecidableEq α] (base : Option α) (ours theirs : α) : Option α :=
  if ours = theirs then some ours
  else match base with
    | some b => if ours = b then some theirs else if theirs = b then some ours else none
    | none => none

section
variable {both : (base : Option α) → (ours theirs : α) → Option α}

theorem mergeEntry_same (h : ∀ base x, both base x x = some x) (base x : Option α) :
    mergeEntry both base x x = some x := by
  cases x with
  | none => rfl
  | some v => exact congrArg (Option.map some) (h base v)

/-- What is merged is one of the two. -/
theorem mergeEntry_mem (h : ∀ base o t v, both base o t = some v → v = o ∨ v = t)
    {base ours theirs : Option α} {v : α} (hv : mergeEntry both base ours theirs = some (some v)) :
    ours = some v ∨ theirs = some v := by
  cases ours with
  | none =>
    cases theirs with
    | none => cases hv
    | some t => exact .inr (Option.some.inj hv)
  | some o =>
    cases theirs with
    | none => exact .inl (Option.some.inj hv)
    | some t =>
      obtain ⟨w, hw, hwv⟩ := Option.map_eq_some_iff.mp hv
      rw [Option.some.injEq] at hwv
      subst hwv
      exact (h base o t w hw).imp (fun heq => congrArg some heq.symm) fun heq =>
        congrArg some heq.symm

theorem mergeEntry_ours {x : Option α} {base : Option α}
    (h : ∀ b v, base = some b → x = some v → both base b v = some v) :
    mergeEntry both base base x = some (x.or base) := by
  cases base with
  | none => cases x <;> rfl
  | some b =>
    cases x with
    | none => rfl
    | some v => exact congrArg (Option.map some) (h b v rfl rfl)

theorem mergeEntry_theirs {x : Option α} {base : Option α}
    (h : ∀ b v, base = some b → x = some v → both base v b = some v) :
    mergeEntry both base x base = some (x.or base) := by
  cases base with
  | none => cases x <;> rfl
  | some b =>
    cases x with
    | none => rfl
    | some v => exact congrArg (Option.map some) (h b v rfl rfl)

end

theorem settle_same [DecidableEq α] (base : Option α) (x : α) : settle base x x = some x := if_pos rfl

theorem settle_mem [DecidableEq α] (base : Option α) (ours theirs v : α)
    (h : settle base ours theirs = some v) : v = ours ∨ v = theirs := by
  unfold settle at h
  split at h
  · exact .inl (Option.some.inj h).symm
  · cases base with
    | none => cases h
    | some b =>
      simp only at h
      split at h
      · exact .inr (Option.some.inj h).symm
      · split at h
        · exact .inl (Option.some.inj h).symm
        · cases h

theorem settle_ours [DecidableEq α] (base x : α) : settle (some base) base x = some x := by
  unfold settle
  split
  · rename_i h
    rw [h]
  · exact if_pos rfl

theorem settle_theirs [DecidableEq α] (base x : α) : settle (some base) x base = some x := by
  unfold settle
  split
  · rfl
  · rename_i h
    simp only [h, if_false, if_true]

/-! ### Until there is a conflict -/

theorem mapM_eq_some_iff {f : α → Option β} {l : List α} {results : List β} :
    l.mapM f = some results ↔ l.map f = results.map some := by
  induction l generalizing results with
  | nil =>
    rw [List.mapM_nil, List.map_nil, eq_comm (a := []), List.map_eq_nil_iff]
    exact Option.some_inj.trans eq_comm
  | cons a l ih =>
    rw [List.mapM_cons]
    cases hf : f a with
    | none => cases results <;> simp [hf]
    | some b =>
      cases results with
      | nil => cases l.mapM f <;> simp
      | cons c results =>
        cases hrest : l.mapM f with
        | none => simp [hf, ← ih, hrest]
        | some cs => simp [hf, ← ih, hrest]

theorem mapM_eq_none_iff {f : α → Option β} {l : List α} :
    l.mapM f = none ↔ ∃ a ∈ l, f a = none := by
  induction l with
  | nil => simp
  | cons a l ih =>
    have hcons : (∃ x ∈ a :: l, f x = none) ↔ f a = none ∨ ∃ x ∈ l, f x = none := by simp
    rw [List.mapM_cons, hcons, ← ih]
    cases hf : f a with
    | none => simp
    | some b => cases hrest : l.mapM f <;> simp

/-- Without a conflict, what is there is merged. -/
theorem mapM_reduceOption {f : α → Option (Option β)} {g : α → Option β}
    (h : ∀ a, f a = some (g a)) (l : List α) :
    (l.mapM f).map List.reduceOption = some (l.filterMap g) := by
  have hmapM : l.mapM f = some (l.map g) := by
    rw [mapM_eq_some_iff, List.map_map]
    exact List.map_congr_left fun a _ => h a
  rw [hmapM, Option.map_some]
  unfold List.reduceOption
  rw [List.filterMap_map]
  rfl

end Suture.Foundation
