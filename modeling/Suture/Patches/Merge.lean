import Mathlib.Data.List.Basic
import Suture.Foundation.SortedMap
import Suture.Patches.Types

/-!
# Merging patch sets

`merge` pairs the patches of two branches that touch a common address.
-/

namespace Suture.Patches
set_option autoImplicit false
open Foundation

inductive CommuteResult where
  | commutes
  | doesNotCommute (conflictAddresses : List String)
deriving DecidableEq, Repr

def TouchSet.intersects (s t : TouchSet) : Bool := !(s.inter t).elems.isEmpty

def commute {H : Type} (p₁ p₂ : Patch H) : CommuteResult :=
  if p₁.isIdentity || p₂.isIdentity then .commutes
  else if TouchSet.intersects p₁.touchSet p₂.touchSet then
    .doesNotCommute (p₁.touchSet.inter p₂.touchSet).elems
  else .commutes

structure Conflict (H : Type) where
  patchAId : H
  patchBId : H
  conflictAddresses : List String
deriving DecidableEq, Repr

def Conflict.new {H : Type} (patchAId patchBId : H) (conflictAddresses : List String) : Conflict H :=
  ⟨patchAId, patchBId, conflictAddresses.mergeSort fun x y => decide (x ≤ y)⟩

inductive MergeError (H : Type) where
  | patchNotFound (id : H)
deriving DecidableEq, Repr

structure MergeResult (H : Type) where
  commonPatches : List H
  patchesAOnly : List H
  patchesBOnly : List H
  conflicts : List (Conflict H)
  isClean : Bool
deriving DecidableEq, Repr

section Merge
variable {H : Type} [LinearOrder H] (allPatches : H → Option (Patch H))

local instance lawfulBEq : LawfulBEq H := inferInstance

def addToIndex (id : H) (index : List (String × List H)) (addr : String) : List (String × List H) :=
  Assoc.insert addr ((Assoc.get index addr).getD [] ++ [id]) index

def indexPatch (index : List (String × List H)) (patchBId : H) : List (String × List H) :=
  match allPatches patchBId with
  | none => index
  | some patchB =>
    if patchB.isIdentity then index else patchB.touchSet.elems.foldl (addToIndex patchBId) index

/-- For every address the patches of branch B that touch it. -/
def buildIndex (patchesBOnly : List H) : List (String × List H) :=
  patchesBOnly.foldl (indexPatch allPatches) []

def candidates (index : List (String × List H)) (patchA : Patch H) : SortedSet H :=
  .ofList (patchA.touchSet.elems.flatMap fun addr => (Assoc.get index addr).getD [])

/-- The conflict of one pair, if it has one. -/
def pairConflict (patchAId : H) (patchA : Patch H) (patchBId : H) :
    Except (MergeError H) (Option (Conflict H)) :=
  match allPatches patchBId with
  | none => .error (.patchNotFound patchBId)
  | some patchB =>
    match commute patchA patchB with
    | .doesNotCommute conflictAddresses => .ok (some (.new patchAId patchBId conflictAddresses))
    | .commutes => .ok none

def conflictsOf (index : List (String × List H)) (patchAId : H) :
    Except (MergeError H) (List (Conflict H)) :=
  match allPatches patchAId with
  | none => .error (.patchNotFound patchAId)
  | some patchA =>
    if patchA.isIdentity then .ok []
    else do
      let found ← (candidates index patchA).elems.mapM (pairConflict allPatches patchAId patchA)
      return found.filterMap id

def merge (basePatches branchAPatches branchBPatches : List H) :
    Except (MergeError H) (MergeResult H) := do
  let patchesAOnly := branchAPatches.filter fun p => decide (p ∉ basePatches)
  let patchesBOnly := branchBPatches.filter fun p => decide (p ∉ basePatches)
  let commonPatches := basePatches.filter fun p =>
    decide (p ∈ branchAPatches) && decide (p ∈ branchBPatches)
  let conflicts ← patchesAOnly.mapM (conflictsOf allPatches (buildIndex allPatches patchesBOnly))
  let conflicts := conflicts.flatten
  return ⟨commonPatches, patchesAOnly, patchesBOnly, conflicts, conflicts.isEmpty⟩

/-- A patch that is not the identity touches `addr`. -/
def Touches (id : H) (addr : String) : Prop :=
  ∃ p, allPatches id = some p ∧ p.isIdentity = false ∧ addr ∈ p.touchSet

omit [LinearOrder H] in
theorem mem_addToIndex {id j : H} {index : List (String × List H)} {addr x : String} :
    j ∈ (Assoc.get (addToIndex id index addr) x).getD [] ↔
      j ∈ (Assoc.get index x).getD [] ∨ (x = addr ∧ j = id) := by
  rw [addToIndex, Assoc.get_insert]
  split
  · rename_i hx
    simp [hx]
  · rename_i hx
    simp [hx]

omit [LinearOrder H] in
theorem mem_foldl_addToIndex {id j : H} {addrs : List String} {index : List (String × List H)}
    {x : String} : j ∈ (Assoc.get (addrs.foldl (addToIndex id) index) x).getD [] ↔
      j ∈ (Assoc.get index x).getD [] ∨ (x ∈ addrs ∧ j = id) := by
  induction addrs generalizing index with
  | nil => simp
  | cons addr addrs ih =>
    rw [List.foldl_cons, ih, mem_addToIndex, List.mem_cons, or_assoc, ← or_and_right]

omit [LinearOrder H] in
theorem mem_indexPatch {id j : H} {index : List (String × List H)} {addr : String} :
    j ∈ (Assoc.get (indexPatch allPatches index id) addr).getD [] ↔
      j ∈ (Assoc.get index addr).getD [] ∨ (j = id ∧ Touches allPatches id addr) := by
  unfold indexPatch Touches
  cases hid : allPatches id with
  | none => simp
  | some patchB =>
    by_cases hident : patchB.isIdentity = true
    · simp [hident]
    · simp only [hident, Bool.false_eq_true, if_false, mem_foldl_addToIndex, Option.some.injEq,
        exists_eq_left', true_and, SortedSet.mem_def]
      rw [and_comm]

omit [LinearOrder H] in
theorem mem_buildIndex {patchesBOnly : List H} {addr : String} {j : H} :
    j ∈ (Assoc.get (buildIndex allPatches patchesBOnly) addr).getD [] ↔
      j ∈ patchesBOnly ∧ Touches allPatches j addr := by
  have hfold : ∀ (ids : List H) (index : List (String × List H)),
      j ∈ (Assoc.get (ids.foldl (indexPatch allPatches) index) addr).getD [] ↔
        j ∈ (Assoc.get index addr).getD [] ∨ (j ∈ ids ∧ Touches allPatches j addr) := by
    intro ids
    induction ids with
    | nil => simp
    | cons id ids ih =>
      intro index
      rw [List.foldl_cons, ih, mem_indexPatch, List.mem_cons, or_assoc, or_and_right]
      refine or_congr_right (or_congr_left (and_congr_right ?_))
      rintro rfl
      rfl
  rw [buildIndex, hfold]
  simp

theorem mem_candidates {patchesBOnly : List H} {patchA : Patch H} {j : H} :
    j ∈ candidates (buildIndex allPatches patchesBOnly) patchA ↔
      j ∈ patchesBOnly ∧ ∃ addr ∈ patchA.touchSet, Touches allPatches j addr := by
  rw [candidates, SortedSet.mem_ofList, List.mem_flatMap]
  simp only [mem_buildIndex]
  constructor
  · rintro ⟨addr, haddr, hmem, htouch⟩
    exact ⟨hmem, addr, haddr, htouch⟩
  · rintro ⟨hmem, addr, haddr, htouch⟩
    exact ⟨addr, haddr, hmem, htouch⟩

/-- Neither patch is the identity, and they touch a common address. -/
def Clash (a b : Patch H) : Prop :=
  a.isIdentity = false ∧ b.isIdentity = false ∧ ∃ addr ∈ a.touchSet, addr ∈ b.touchSet

omit [LinearOrder H] in
theorem commute_of_clash {a b : Patch H} (h : Clash a b) :
    commute a b = .doesNotCommute (a.touchSet.inter b.touchSet).elems := by
  obtain ⟨ha, hb, addr, haddr, haddr'⟩ := h
  have hmem : addr ∈ (a.touchSet.inter b.touchSet).elems := SortedSet.mem_inter.mpr ⟨haddr, haddr'⟩
  have hinter : TouchSet.intersects a.touchSet b.touchSet = true := by
    rw [TouchSet.intersects, Bool.not_eq_true', List.isEmpty_eq_false_iff]
    exact List.ne_nil_of_mem hmem
  simp [commute, ha, hb, hinter]

omit [LinearOrder H] in
theorem commute_of_not_clash {a b : Patch H} (h : ¬ Clash a b) : commute a b = .commutes := by
  unfold commute
  split
  · rfl
  rename_i hident
  rw [Bool.or_eq_true, not_or, Bool.not_eq_true, Bool.not_eq_true] at hident
  refine if_neg fun hinter => h ⟨hident.1, hident.2, ?_⟩
  rw [TouchSet.intersects, Bool.not_eq_true', List.isEmpty_eq_false_iff] at hinter
  obtain ⟨addr, haddr⟩ := List.exists_mem_of_ne_nil _ hinter
  exact ⟨addr, SortedSet.mem_inter.mp haddr⟩

/-- A `mapM` all of whose calls succeed collects one result for each. -/
theorem mapM_ok {ε α β : Type} {f : α → Except ε β} {P : α → β → Prop} {l : List α}
    (h : ∀ x ∈ l, ∃ y, f x = .ok y ∧ P x y) :
    ∃ ys, l.mapM f = .ok ys ∧ (∀ x ∈ l, ∃ y ∈ ys, P x y) ∧ ∀ y ∈ ys, ∃ x ∈ l, P x y := by
  induction l with
  | nil => exact ⟨[], rfl, by simp, by simp⟩
  | cons x l ih =>
    obtain ⟨y, hy, hxy⟩ := h x (List.mem_cons_self ..)
    obtain ⟨ys, hys, hto, hfrom⟩ := ih fun z hz => h z (List.mem_cons_of_mem _ hz)
    refine ⟨y :: ys, ?_, ?_, ?_⟩
    · rw [List.mapM_cons, hy, hys]
      rfl
    · simp only [List.forall_mem_cons, List.exists_mem_cons_iff]
      exact ⟨.inl hxy, fun z hz => .inr (hto z hz)⟩
    · simp only [List.forall_mem_cons, List.exists_mem_cons_iff]
      exact ⟨.inl hxy, fun z hz => .inr (hfrom z hz)⟩

/-- `c` is the conflict of the patches `i` and `j`. -/
def ConflictOf (c : Conflict H) (i j : H) : Prop :=
  ∃ a b, allPatches i = some a ∧ allPatches j = some b ∧ Clash a b ∧
    c = .new i j (a.touchSet.inter b.touchSet).elems

omit [LinearOrder H] in
theorem pairConflict_ok {i j : H} {a b : Patch H} (ha : allPatches i = some a)
    (hb : allPatches j = some b) :
    ∃ r, pairConflict allPatches i a j = .ok r ∧ ∀ c, r = some c ↔ ConflictOf allPatches c i j := by
  unfold pairConflict ConflictOf
  simp only [hb, ha, Option.some.injEq, exists_and_left, exists_eq_left']
  by_cases hclash : Clash a b
  · rw [commute_of_clash hclash]
    exact ⟨_, rfl, fun c => by simp [hclash, eq_comm]⟩
  · rw [commute_of_not_clash hclash]
    exact ⟨_, rfl, fun c => by simp [hclash]⟩

theorem conflictsOf_ok {patchesBOnly : List H} {i : H} (hi : ∃ a, allPatches i = some a)
    (hb : ∀ j ∈ patchesBOnly, ∃ b, allPatches j = some b) :
    ∃ found, conflictsOf allPatches (buildIndex allPatches patchesBOnly) i = .ok found ∧
      ∀ c, c ∈ found ↔ ∃ j ∈ patchesBOnly, ConflictOf allPatches c i j := by
  obtain ⟨a, ha⟩ := hi
  unfold conflictsOf
  simp only [ha]
  split
  · rename_i hident
    refine ⟨[], rfl, fun c => ?_⟩
    simp [ConflictOf, Clash, ha, hident]
  · obtain ⟨found, hfound, hto, hfrom⟩ := mapM_ok (f := pairConflict allPatches i a)
      (P := fun j r => ∀ c, r = some c ↔ ConflictOf allPatches c i j)
      (l := (candidates (buildIndex allPatches patchesBOnly) a).elems) fun j hj => by
        obtain ⟨b, hb⟩ := hb j ((mem_candidates allPatches).mp hj).1
        exact pairConflict_ok allPatches ha hb
    rw [hfound]
    refine ⟨found.filterMap id, rfl, fun c => ?_⟩
    rw [List.mem_filterMap]
    constructor
    · rintro ⟨r, hr, rfl⟩
      obtain ⟨j, hj, hspec⟩ := hfrom _ hr
      exact ⟨j, ((mem_candidates allPatches).mp hj).1, (hspec c).mp rfl⟩
    · rintro ⟨j, hj, a', b, ha', hb', hclash, hc⟩
      rw [ha] at ha'
      cases ha'
      have ⟨_, hident', addr, haddr, haddr'⟩ := hclash
      obtain ⟨r, hr, hspec⟩ := hto j ((mem_candidates allPatches).mpr
        ⟨hj, addr, haddr, b, hb', hident', haddr'⟩)
      exact ⟨r, hr, (hspec c).mpr ⟨a, b, ha, hb', hclash, hc⟩⟩

/-- With all patches there the merge succeeds; its conflicts are the clashing pairs. -/
theorem merge_ok (basePatches : List H) {branchAPatches branchBPatches : List H}
    (ha : ∀ i ∈ branchAPatches, ∃ a, allPatches i = some a)
    (hb : ∀ j ∈ branchBPatches, ∃ b, allPatches j = some b) :
    ∃ r, merge allPatches basePatches branchAPatches branchBPatches = .ok r ∧
      r.patchesAOnly = branchAPatches.filter (fun p => decide (p ∉ basePatches)) ∧
      r.patchesBOnly = branchBPatches.filter (fun p => decide (p ∉ basePatches)) ∧
      r.isClean = r.conflicts.isEmpty ∧
      ∀ c, c ∈ r.conflicts ↔
        ∃ i ∈ r.patchesAOnly, ∃ j ∈ r.patchesBOnly, ConflictOf allPatches c i j := by
  obtain ⟨lists, hlists, hto, hfrom⟩ := mapM_ok
    (P := fun i found => ∀ c, c ∈ found ↔
      ∃ j ∈ branchBPatches.filter (fun p => decide (p ∉ basePatches)), ConflictOf allPatches c i j)
    (l := branchAPatches.filter fun p => decide (p ∉ basePatches)) fun i hi =>
      conflictsOf_ok allPatches (ha i (List.mem_of_mem_filter hi)) fun j hj =>
        hb j (List.mem_of_mem_filter hj)
  unfold merge
  simp only [hlists]
  refine ⟨_, rfl, rfl, rfl, rfl, fun c => ?_⟩
  rw [List.mem_flatten]
  constructor
  · rintro ⟨found, hmem, hc⟩
    obtain ⟨i, hi, hspec⟩ := hfrom found hmem
    exact ⟨i, hi, (hspec c).mp hc⟩
  · rintro ⟨i, hi, hc⟩
    obtain ⟨found, hmem, hspec⟩ := hto i hi
    exact ⟨found, hmem, (hspec c).mpr hc⟩

end Merge
end Suture.Patches
