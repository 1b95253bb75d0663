import Suture.Patches.Detection

/-!
# The order of the branches

`merge` looks up every patch that only branch A has, and of branch B those alone that are there.
With the branches the other way round the result is the mirror image, unless one branch lists an
unknown patch and the other one does not.
-/

namespace Suture.Patches
set_option autoImplicit false
open Foundation

variable {H : Type} [LinearOrder H] (allPatches : H → Option (Patch H))

def Conflict.swap (c : Conflict H) : Conflict H := ⟨c.patchBId, c.patchAId, c.conflictAddresses⟩

/-- `r'` is the result with the branches the other way round. -/
structure Mirror (r r' : MergeResult H) : Prop where
  common : r'.commonPatches = r.commonPatches
  aOnly : r'.patchesAOnly = r.patchesBOnly
  bOnly : r'.patchesBOnly = r.patchesAOnly
  conflicts : ∀ c, c ∈ r'.conflicts ↔ c.swap ∈ r.conflicts
  once : r.patchesAOnly.Nodup → r.patchesBOnly.Nodup →
    (r.conflicts.map Conflict.swap).Perm r'.conflicts
  isClean : r'.isClean = r.isClean

/-- Both orders of the branches succeed or none, with mirror images as results. -/
def OrderIndependent (basePatches branchAPatches branchBPatches : List H) : Prop :=
  ((∃ r, merge allPatches basePatches branchAPatches branchBPatches = .ok r) ↔
    ∃ r, merge allPatches basePatches branchBPatches branchAPatches = .ok r) ∧
  ∀ r r', merge allPatches basePatches branchAPatches branchBPatches = .ok r →
    merge allPatches basePatches branchBPatches branchAPatches = .ok r' → Mirror r r'

/-- The patches that only this branch has are all known. -/
def OnlyKnown (basePatches branchPatches : List H) : Prop :=
  ∀ i ∈ onlyOn basePatches branchPatches, (allPatches i).isSome = true

omit [LinearOrder H] in
theorem swap_swap (c : Conflict H) : c.swap.swap = c := rfl

omit [LinearOrder H] in
theorem swap_injective : Function.Injective (Conflict.swap : Conflict H → Conflict H) :=
  Function.LeftInverse.injective swap_swap

theorem inter_comm (s t : TouchSet) : s.inter t = t.inter s := by
  apply SortedSet.ext
  intro a
  rw [SortedSet.mem_inter, SortedSet.mem_inter]
  exact and_comm

omit [LinearOrder H] in
theorem Clash.symm {a b : Patch H} (h : Clash a b) : Clash b a := by
  obtain ⟨ha, hb, addr, haddr, haddr'⟩ := h
  exact ⟨hb, ha, addr, haddr', haddr⟩

omit [LinearOrder H] in
theorem ConflictOf.swap {c : Conflict H} {i j : H} (h : ConflictOf allPatches c i j) :
    ConflictOf allPatches c.swap j i := by
  obtain ⟨a, b, ha, hb, hclash, rfl⟩ := h
  refine ⟨b, a, hb, ha, hclash.symm, ?_⟩
  rw [new_inter, new_inter, inter_comm]
  rfl

theorem mem_listedConflicts_swap {l m : List H} {c : Conflict H} :
    c ∈ listedConflicts allPatches m l ↔ c.swap ∈ listedConflicts allPatches l m := by
  rw [mem_listedConflicts, mem_listedConflicts]
  constructor
  · intro h
    obtain ⟨j, hj, i, hi, hc⟩ := h
    exact ⟨i, hi, j, hj, hc.swap⟩
  · intro h
    obtain ⟨i, hi, j, hj, hc⟩ := h
    exact ⟨j, hj, i, hi, hc.swap⟩

theorem merged_mirror (basePatches branchAPatches branchBPatches : List H) :
    Mirror (merged allPatches basePatches branchAPatches branchBPatches)
      (merged allPatches basePatches branchBPatches branchAPatches) where
  common := by
    unfold merged
    dsimp only
    apply List.filter_congr
    intro p _
    exact Bool.and_comm ..
  aOnly := rfl
  bOnly := rfl
  conflicts := fun _ => mem_listedConflicts_swap allPatches
  once := by
    intro hA hB
    have hnodup := (listedConflicts_nodup allPatches (onlyOn basePatches branchBPatches) hA).of_map
    have hnodup' := (listedConflicts_nodup allPatches (onlyOn basePatches branchAPatches) hB).of_map
    apply (List.perm_ext_iff_of_nodup (hnodup.map swap_injective) hnodup').mpr
    intro c
    rw [mem_listedConflicts_swap, List.mem_map]
    constructor
    · intro h
      obtain ⟨c', hc', rfl⟩ := h
      exact hc'
    · intro h
      exact ⟨c.swap, h, rfl⟩
  isClean := by
    unfold merged
    dsimp only
    rw [Bool.eq_iff_iff, List.isEmpty_iff, List.isEmpty_iff, List.eq_nil_iff_forall_not_mem,
      List.eq_nil_iff_forall_not_mem]
    constructor
    · intro h c hc
      exact h c.swap ((mem_listedConflicts_swap allPatches).mpr hc)
    · intro h c hc
      exact h c.swap ((mem_listedConflicts_swap allPatches).mp hc)

/-! ### When a merge succeeds -/

theorem ok_of_mapM_ok {ε α β : Type} {f : α → Except ε β} {l : List α} :
    ∀ {ys}, l.mapM f = .ok ys → ∀ x ∈ l, ∃ y, f x = .ok y := by
  induction l with
  | nil => exact fun _ _ hx => absurd hx List.not_mem_nil
  | cons x l ih =>
    intro ys h z hz
    rw [List.mapM_cons] at h
    cases hx : f x with
    | error e =>
      rw [hx] at h
      cases h
    | ok y =>
      rcases List.mem_cons.mp hz with rfl | hz
      · exact ⟨y, hx⟩
      · rw [hx] at h
        cases hl : l.mapM f with
        | error e =>
          simp only [hl, bind, Except.bind] at h
          cases h
        | ok zs => exact ih hl z hz

theorem merge_succeeds_iff (basePatches branchAPatches branchBPatches : List H) :
    (∃ r, merge allPatches basePatches branchAPatches branchBPatches = .ok r) ↔
      OnlyKnown allPatches basePatches branchAPatches := by
  constructor
  · intro h i hi
    obtain ⟨r, hr⟩ := h
    cases hm : (onlyOn basePatches branchAPatches).mapM (conflictsOf allPatches
        (buildIndex allPatches (onlyOn basePatches branchBPatches))) with
    | error e =>
      unfold onlyOn at hm
      unfold merge at hr
      simp only [hm] at hr
      cases hr
    | ok lists =>
      obtain ⟨found, hfound⟩ := ok_of_mapM_ok hm i hi
      cases ha : allPatches i with
      | none =>
        unfold conflictsOf at hfound
        simp only [ha] at hfound
        cases hfound
      | some a => rfl
  · intro h
    exact ⟨_, merge_eq_ok allPatches branchBPatches h⟩

/-- The order of the branches does not matter exactly when both list unknown patches of their own
or neither does. -/
theorem merge_order_independent_iff (basePatches branchAPatches branchBPatches : List H) :
    OrderIndependent allPatches basePatches branchAPatches branchBPatches ↔
      (OnlyKnown allPatches basePatches branchAPatches ↔
        OnlyKnown allPatches basePatches branchBPatches) := by
  unfold OrderIndependent
  rw [merge_succeeds_iff, merge_succeeds_iff]
  apply and_iff_left_of_imp
  intro hiff r r' hr hr'
  have hA := (merge_succeeds_iff allPatches basePatches branchAPatches branchBPatches).mp ⟨r, hr⟩
  have hB := hiff.mp hA
  rw [merge_eq_ok allPatches _ hA, Except.ok.injEq] at hr
  rw [merge_eq_ok allPatches _ hB, Except.ok.injEq] at hr'
  rw [← hr, ← hr']
  exact merged_mirror allPatches basePatches branchAPatches branchBPatches

/-- A patch missing on one branch fails the merge in one order only. -/
theorem missing_patch_order_matters : ¬ ∀ (patches : List (Patch Nat))
    (basePatches branchAPatches branchBPatches : List Nat),
      OrderIndependent (listed patches) basePatches branchAPatches branchBPatches := by
  intro h
  have hiff := (merge_order_independent_iff (listed [touching 1 ["a"]]) [] [1] [2]).mp (h _ _ _ _)
  have hA : OnlyKnown (listed [touching 1 ["a"]]) [] [1] := by
    intro i hi
    obtain rfl := List.mem_singleton.mp hi
    rfl
  have hB := hiff.mp hA 2 (List.mem_singleton_self 2)
  cases hB

end Suture.Patches
