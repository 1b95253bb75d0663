import Mathlib.Data.List.Nodup
import Suture.Patches.Merge

/-!
# Detected conflicts

`merge` and `detectConflicts` look up by address which patches of branch B may conflict with a
patch of branch A. Each finds every pair that does not commute, and each of them once.
-/

namespace Suture.Patches
set_option autoImplicit false
open Foundation

section Detect
variable {H : Type}

/-- The places of the patches of branch B, by address. -/
def indexPlace (index : List (String × List Nat)) (e : Patch H × Nat) : List (String × List Nat) :=
  if e.1.isIdentity then index else e.1.touchSet.elems.foldl (addToIndex e.2) index

def candidatePlaces (index : List (String × List Nat)) (patchA : Patch H) : SortedSet Nat :=
  .ofList (patchA.touchSet.elems.flatMap fun addr => (Assoc.get index addr).getD [])

def conflictBetween (patchA patchB : Patch H) : Option (Conflict H) :=
  match commute patchA patchB with
  | .doesNotCommute conflictAddresses => some (.new patchA.id patchB.id conflictAddresses)
  | .commutes => none

def detectConflicts (patchesA patchesB : List (Patch H)) : List (Conflict H) :=
  let bIndex := patchesB.zipIdx.foldl indexPlace []
  patchesA.flatMap fun patchA =>
    if patchA.isIdentity then []
    else (candidatePlaces bIndex patchA).elems.filterMap fun idx =>
      patchesB[idx]?.bind (conflictBetween patchA)

/-! ### Pairs found once -/

/-- What is found for different pairs is different. -/
theorem nodup_found {α β γ κ κ' : Type} {l : List α} {near : α → List β} {find : α → β → Option γ}
    {key : α → κ} {key' : β → κ'} {pair : γ → κ × κ'} (hl : (l.map key).Nodup)
    (hnear : ∀ a ∈ l, ((near a).map key').Nodup)
    (hfind : ∀ a b c, find a b = some c → pair c = (key a, key' b)) :
    ((l.flatMap fun a => (near a).filterMap (find a)).map pair).Nodup := by
  induction l with
  | nil => exact List.nodup_nil
  | cons a l ih =>
    rw [List.map_cons, List.nodup_cons] at hl
    rw [List.flatMap_cons, List.map_append, List.nodup_append]
    refine ⟨?_, ih hl.2 fun b hb => hnear b (List.mem_cons_of_mem _ hb), ?_⟩
    · have hsub : (((near a).filterMap (find a)).map pair).Sublist
          ((near a).map fun b => (key a, key' b)) := by
        induction near a with
        | nil => exact .slnil
        | cons b bs ihb =>
          rw [List.filterMap_cons, List.map_cons]
          cases hc : find a b with
          | none => exact ihb.cons _
          | some c =>
            rw [List.map_cons, hfind a b c hc]
            exact ihb.cons_cons _
      apply hsub.nodup
      have hpair : ((near a).map fun b => (key a, key' b)) =
          ((near a).map key').map (Prod.mk (key a)) := by
        rw [List.map_map]
        rfl
      rw [hpair]
      exact (hnear a (List.mem_cons_self ..)).map (Prod.mk_right_injective (key a))
    · intro p hp q hq heq
      obtain ⟨c, hc, rfl⟩ := List.mem_map.mp hp
      obtain ⟨b, -, hc⟩ := List.mem_filterMap.mp hc
      obtain ⟨c', hc', rfl⟩ := List.mem_map.mp hq
      obtain ⟨a', ha', hc'⟩ := List.mem_flatMap.mp hc'
      obtain ⟨b', -, hc'⟩ := List.mem_filterMap.mp hc'
      rw [hfind a b c hc, hfind a' b' c' hc', Prod.mk.injEq] at heq
      apply hl.1
      rw [heq.1]
      exact List.mem_map_of_mem ha'

/-! ### The conflicts of two lists of patches -/

/-- Addresses in common are sorted already. -/
theorem new_inter (i j : H) (s t : TouchSet) :
    Conflict.new i j (s.inter t).elems = ⟨i, j, (s.inter t).elems⟩ := by
  unfold Conflict.new
  rw [List.mergeSort_of_pairwise]
  apply (s.inter t).sorted.imp
  intro x y hxy
  exact decide_eq_true hxy.le

theorem conflictBetween_eq_some {a b : Patch H} {c : Conflict H} :
    conflictBetween a b = some c ↔
      Clash a b ∧ c = .new a.id b.id (a.touchSet.inter b.touchSet).elems := by
  unfold conflictBetween
  by_cases hclash : Clash a b
  · rw [commute_of_clash hclash]
    simp [hclash, eq_comm]
  · rw [commute_of_not_clash hclash]
    simp [hclash]

theorem mem_foldl_indexPlace {addr : String} {idx : Nat} (es : List (Patch H × Nat)) :
    ∀ index, idx ∈ (Assoc.get (es.foldl indexPlace index) addr).getD [] ↔
      idx ∈ (Assoc.get index addr).getD [] ∨
        ∃ b, (b, idx) ∈ es ∧ b.isIdentity = false ∧ addr ∈ b.touchSet := by
  induction es with
  | nil => simp
  | cons e es ih =>
    intro index
    obtain ⟨b, place⟩ := e
    rw [List.foldl_cons, ih]
    by_cases hident : b.isIdentity = true
    · rw [indexPlace, if_pos hident]
      apply or_congr_right
      constructor
      · intro ⟨b', hmem, h⟩
        exact ⟨b', List.mem_cons_of_mem _ hmem, h⟩
      · intro ⟨b', hmem, h⟩
        rcases List.mem_cons.mp hmem with heq | hmem
        · cases heq
          rw [hident] at h
          cases h.1
        · exact ⟨b', hmem, h⟩
    · rw [indexPlace, if_neg hident, mem_foldl_addToIndex, or_assoc]
      rw [Bool.not_eq_true] at hident
      apply or_congr_right
      constructor
      · intro h
        rcases h with ⟨haddr, heq⟩ | ⟨b', hmem, h⟩
        · rw [heq]
          exact ⟨b, List.mem_cons_self .., hident, haddr⟩
        · exact ⟨b', List.mem_cons_of_mem _ hmem, h⟩
      · intro ⟨b', hmem, h⟩
        rcases List.mem_cons.mp hmem with heq | hmem
        · cases heq
          exact .inl ⟨h.2, rfl⟩
        · exact .inr ⟨b', hmem, h⟩

theorem mem_candidatePlaces {patchesB : List (Patch H)} {a : Patch H} {idx : Nat} :
    idx ∈ candidatePlaces (patchesB.zipIdx.foldl indexPlace []) a ↔
      ∃ b, patchesB[idx]? = some b ∧ b.isIdentity = false ∧
        ∃ addr ∈ a.touchSet, addr ∈ b.touchSet := by
  rw [candidatePlaces, SortedSet.mem_ofList, List.mem_flatMap]
  constructor
  · intro ⟨addr, haddr, hidx⟩
    rw [mem_foldl_indexPlace] at hidx
    rcases hidx with hidx | ⟨b, hmem, hident, haddr'⟩
    · cases hidx
    · exact ⟨b, List.mk_mem_zipIdx_iff_getElem?.mp hmem, hident, addr, haddr, haddr'⟩
  · intro ⟨b, hb, hident, addr, haddr, haddr'⟩
    refine ⟨addr, haddr, ?_⟩
    rw [mem_foldl_indexPlace]
    exact .inr ⟨b, List.mk_mem_zipIdx_iff_getElem?.mpr hb, hident, haddr'⟩

theorem mem_detectConflicts {patchesA patchesB : List (Patch H)} {c : Conflict H} :
    c ∈ detectConflicts patchesA patchesB ↔ ∃ a ∈ patchesA, ∃ b ∈ patchesB, Clash a b ∧
      c = .new a.id b.id (a.touchSet.inter b.touchSet).elems := by
  unfold detectConflicts
  rw [List.mem_flatMap]
  apply exists_congr
  intro a
  apply and_congr_right
  intro _
  by_cases hident : a.isIdentity = true
  · rw [if_pos hident]
    apply iff_of_false List.not_mem_nil
    intro ⟨b, _, hclash, _⟩
    have hnot := hclash.1
    rw [hident] at hnot
    cases hnot
  · rw [if_neg hident, List.mem_filterMap]
    constructor
    · intro ⟨idx, _, hc⟩
      obtain ⟨b, hb, hc⟩ := Option.bind_eq_some_iff.mp hc
      exact ⟨b, List.mem_of_getElem? hb, conflictBetween_eq_some.mp hc⟩
    · intro ⟨b, hb, hclash, hc⟩
      obtain ⟨idx, hidx⟩ := List.getElem?_of_mem hb
      refine ⟨idx, mem_candidatePlaces.mpr ⟨b, hidx, hclash.2.1, hclash.2.2⟩, ?_⟩
      rw [hidx]
      exact conflictBetween_eq_some.mpr ⟨hclash, hc⟩

/-- The two patches of a conflict. -/
def Conflict.pair (c : Conflict H) : H × H := (c.patchAId, c.patchBId)

theorem detectConflicts_nodup {patchesA patchesB : List (Patch H)}
    (ha : (patchesA.map Patch.id).Nodup) (hb : (patchesB.map Patch.id).Nodup) :
    ((detectConflicts patchesA patchesB).map Conflict.pair).Nodup := by
  let near := fun a : Patch H => if a.isIdentity then []
    else (candidatePlaces (patchesB.zipIdx.foldl indexPlace []) a).elems
  let idAt := fun idx : Nat => patchesB[idx]?.map Patch.id
  have hnear : ∀ a ∈ patchesA, ((near a).map idAt).Nodup := by
    intro a _
    by_cases hident : a.isIdentity = true
    · simp [near, hident]
    · simp only [near, if_neg hident]
      apply List.Nodup.map_on _ (SortedSet.nodup _)
      intro idx hidx idx' hidx' heq
      obtain ⟨b, hbidx, -⟩ := mem_candidatePlaces.mp (SortedSet.mem_def.mpr hidx)
      have hlt := (List.getElem?_eq_some_iff.mp hbidx).1
      have hids : (patchesB.map Patch.id)[idx]? = (patchesB.map Patch.id)[idx']? := by
        rw [List.getElem?_map, List.getElem?_map]
        exact heq
      exact (List.getElem?_inj (by rwa [List.length_map]) hb).mp hids
  have hfind : ∀ (a : Patch H) (idx : Nat) (c : Conflict H),
      patchesB[idx]?.bind (conflictBetween a) = some c →
        (c.patchAId, some c.patchBId) = (a.id, idAt idx) := by
    intro a idx c hc
    obtain ⟨b, hbidx, hc⟩ := Option.bind_eq_some_iff.mp hc
    obtain ⟨-, rfl⟩ := conflictBetween_eq_some.mp hc
    simp only [idAt, hbidx, Option.map_some]
    rfl
  have hnodup := nodup_found ha hnear hfind
  have hfound : (patchesA.flatMap fun a => (near a).filterMap fun idx =>
      patchesB[idx]?.bind (conflictBetween a)) = detectConflicts patchesA patchesB := by
    unfold detectConflicts
    congr 1
    funext a
    by_cases hident : a.isIdentity = true
    · simp [near, hident]
    · simp [near, hident]
  rw [hfound] at hnodup
  apply List.Nodup.of_map (Prod.map id some)
  rw [List.map_map]
  exact hnodup

end Detect

/-! ### The conflicts of a merge -/

section Merge
variable {H : Type} [LinearOrder H] (allPatches : H → Option (Patch H))

attribute [local instance] lawfulBEq

/-- The conflict of two listed patches. -/
def listedConflict (i j : H) : Option (Conflict H) :=
  (allPatches i).bind fun a => (allPatches j).bind fun b =>
    match commute a b with
    | .doesNotCommute conflictAddresses => some (.new i j conflictAddresses)
    | .commutes => none

/-- The listed patches of branch B that touch an address of patch `i`. -/
def near (patchesBOnly : List H) (i : H) : List H :=
  (allPatches i).elim [] fun a => (candidates (buildIndex allPatches patchesBOnly) a).elems

def listedConflicts (patchesAOnly patchesBOnly : List H) : List (Conflict H) :=
  patchesAOnly.flatMap fun i => (near allPatches patchesBOnly i).filterMap (listedConflict allPatches i)

omit [LinearOrder H] in
theorem listedConflict_eq_some {i j : H} {c : Conflict H} :
    listedConflict allPatches i j = some c ↔ ConflictOf allPatches c i j := by
  unfold listedConflict ConflictOf
  cases ha : allPatches i with
  | none => simp
  | some a =>
    cases hb : allPatches j with
    | none => simp
    | some b =>
      by_cases hclash : Clash a b
      · simp [commute_of_clash hclash, hclash, eq_comm]
      · simp [commute_of_not_clash hclash, hclash]

theorem mem_near {patchesBOnly : List H} {i j : H} : j ∈ near allPatches patchesBOnly i ↔
    ∃ a, allPatches i = some a ∧ j ∈ patchesBOnly ∧ ∃ addr ∈ a.touchSet, Touches allPatches j addr := by
  unfold near
  cases ha : allPatches i with
  | none => simp
  | some a =>
    rw [Option.elim_some, ← SortedSet.mem_def, mem_candidates]
    simp

theorem mem_listedConflicts {patchesAOnly patchesBOnly : List H} {c : Conflict H} :
    c ∈ listedConflicts allPatches patchesAOnly patchesBOnly ↔
      ∃ i ∈ patchesAOnly, ∃ j ∈ patchesBOnly, ConflictOf allPatches c i j := by
  unfold listedConflicts
  rw [List.mem_flatMap]
  apply exists_congr
  intro i
  apply and_congr_right
  intro _
  rw [List.mem_filterMap]
  apply exists_congr
  intro j
  rw [listedConflict_eq_some, mem_near]
  apply and_congr_left
  intro ⟨a, b, ha, hb, hclash, _⟩
  constructor
  · intro ⟨_, _, hj, _⟩
    exact hj
  · intro hj
    obtain ⟨-, hident, addr, haddr, haddr'⟩ := hclash
    exact ⟨a, ha, hj, addr, haddr, b, hb, hident, haddr'⟩

theorem listedConflicts_nodup {patchesAOnly : List H} (patchesBOnly : List H)
    (ha : patchesAOnly.Nodup) :
    ((listedConflicts allPatches patchesAOnly patchesBOnly).map Conflict.pair).Nodup := by
  unfold listedConflicts
  apply nodup_found
  · rwa [List.map_id]
  · intro i _
    rw [List.map_id]
    unfold near
    cases allPatches i with
    | none => exact List.nodup_nil
    | some a => exact SortedSet.nodup _
  · intro i j c hc
    obtain ⟨a, b, -, -, -, rfl⟩ := (listedConflict_eq_some allPatches).mp hc
    rfl

omit [LinearOrder H] in
theorem mapM_eq_map {ε α β : Type} {f : α → Except ε β} {g : α → β} {l : List α}
    (h : ∀ x ∈ l, f x = .ok (g x)) : l.mapM f = .ok (l.map g) := by
  induction l with
  | nil => rfl
  | cons x l ih =>
    rw [List.mapM_cons, h x (List.mem_cons_self ..), ih fun y hy => h y (List.mem_cons_of_mem _ hy)]
    rfl

theorem conflictsOf_eq (patchesBOnly : List H) {i : H} {a : Patch H} (ha : allPatches i = some a) :
    conflictsOf allPatches (buildIndex allPatches patchesBOnly) i =
      .ok ((near allPatches patchesBOnly i).filterMap (listedConflict allPatches i)) := by
  unfold conflictsOf near
  simp only [ha, Option.elim_some]
  by_cases hident : a.isIdentity = true
  · rw [if_pos hident]
    have hnone : ∀ j, listedConflict allPatches i j = none := by
      intro j
      unfold listedConflict
      rw [ha, Option.bind_some]
      cases allPatches j with
      | none => rfl
      | some b => simp [commute, hident]
    simp [funext hnone]
  · rw [if_neg hident, mapM_eq_map (g := listedConflict allPatches i)]
    · simp [bind, pure, Except.bind, Except.pure, List.filterMap_map]
    · intro j hj
      -- the index has known patches only
      obtain ⟨-, addr, -, b, hb, -⟩ := (mem_candidates allPatches).mp (SortedSet.mem_def.mpr hj)
      unfold pairConflict listedConflict
      simp only [ha, hb, Option.bind_some]
      cases commute a b <;> rfl

/-- The patches of a branch that are not in the base. -/
def onlyOn (basePatches branchPatches : List H) : List H :=
  branchPatches.filter fun p => decide (p ∉ basePatches)

def merged (basePatches branchAPatches branchBPatches : List H) : MergeResult H :=
  let conflicts := listedConflicts allPatches (onlyOn basePatches branchAPatches)
    (onlyOn basePatches branchBPatches)
  ⟨basePatches.filter fun p => decide (p ∈ branchAPatches) && decide (p ∈ branchBPatches),
    onlyOn basePatches branchAPatches, onlyOn basePatches branchBPatches, conflicts, conflicts.isEmpty⟩

/-- A merge looks up the patches of branch A only; those of branch B may be missing. -/
theorem merge_eq_ok {basePatches branchAPatches : List H} (branchBPatches : List H)
    (h : ∀ i ∈ onlyOn basePatches branchAPatches, (allPatches i).isSome = true) :
    merge allPatches basePatches branchAPatches branchBPatches =
      .ok (merged allPatches basePatches branchAPatches branchBPatches) := by
  have hlists : (onlyOn basePatches branchAPatches).mapM (conflictsOf allPatches
      (buildIndex allPatches (onlyOn basePatches branchBPatches))) =
        .ok ((onlyOn basePatches branchAPatches).map fun i =>
          (near allPatches (onlyOn basePatches branchBPatches) i).filterMap
            (listedConflict allPatches i)) := by
    apply mapM_eq_map
    intro i hi
    obtain ⟨a, ha⟩ := Option.isSome_iff_exists.mp (h i hi)
    exact conflictsOf_eq allPatches _ ha
  unfold onlyOn at hlists
  unfold merge
  simp only [hlists]
  simp only [bind, pure, Except.bind, Except.pure, ← List.flatMap_def]
  rfl

omit [LinearOrder H] in
theorem conflictOf_iff {c : Conflict H} {i j : H} : ConflictOf allPatches c i j ↔
    ∃ a b conflictAddresses, allPatches i = some a ∧ allPatches j = some b ∧
      commute a b = .doesNotCommute conflictAddresses ∧
      c = ⟨i, j, (a.touchSet.inter b.touchSet).elems⟩ := by
  unfold ConflictOf
  constructor
  · intro h
    obtain ⟨a, b, ha, hb, hclash, hc⟩ := h
    rw [new_inter] at hc
    exact ⟨a, b, _, ha, hb, commute_of_clash hclash, hc⟩
  · intro h
    obtain ⟨a, b, conflictAddresses, ha, hb, hcommute, hc⟩ := h
    refine ⟨a, b, ha, hb, ?_, ?_⟩
    · by_contra hclash
      rw [commute_of_not_clash hclash] at hcommute
      cases hcommute
    · rw [new_inter]
      exact hc

omit [LinearOrder H] in
theorem ids_of_listed {l : List H} (h : ∀ i ∈ l, ∃ p, allPatches i = some p ∧ p.id = i) :
    (l.filterMap allPatches).map Patch.id = l := by
  induction l with
  | nil => rfl
  | cons i l ih =>
    obtain ⟨p, hp, hid⟩ := h i (List.mem_cons_self ..)
    rw [List.filterMap_cons, hp]
    simp only [List.map_cons]
    rw [hid, ih fun j hj => h j (List.mem_cons_of_mem _ hj)]

omit [LinearOrder H] in
theorem mem_detectConflicts_listed {l m : List H} {c : Conflict H}
    (hl : ∀ i ∈ l, ∃ p, allPatches i = some p ∧ p.id = i)
    (hm : ∀ j ∈ m, ∃ p, allPatches j = some p ∧ p.id = j) :
    c ∈ detectConflicts (l.filterMap allPatches) (m.filterMap allPatches) ↔
      ∃ i ∈ l, ∃ j ∈ m, ConflictOf allPatches c i j := by
  rw [mem_detectConflicts]
  constructor
  · intro h
    obtain ⟨a, ha, b, hb, hclash, hc⟩ := h
    obtain ⟨i, hi, ha⟩ := List.mem_filterMap.mp ha
    obtain ⟨j, hj, hb⟩ := List.mem_filterMap.mp hb
    obtain ⟨a', ha', hid⟩ := hl i hi
    obtain ⟨b', hb', hid'⟩ := hm j hj
    obtain rfl : a' = a := Option.some.inj (ha'.symm.trans ha)
    obtain rfl : b' = b := Option.some.inj (hb'.symm.trans hb)
    refine ⟨i, hi, j, hj, a', b', ha, hb, hclash, ?_⟩
    rw [hc, hid, hid']
  · intro h
    obtain ⟨i, hi, j, hj, a, b, ha, hb, hclash, hc⟩ := h
    obtain ⟨a', ha', hid⟩ := hl i hi
    obtain ⟨b', hb', hid'⟩ := hm j hj
    obtain rfl : a' = a := Option.some.inj (ha'.symm.trans ha)
    obtain rfl : b' = b := Option.some.inj (hb'.symm.trans hb)
    refine ⟨a', List.mem_filterMap.mpr ⟨i, hi, ha⟩, b', List.mem_filterMap.mpr ⟨j, hj, hb⟩, hclash, ?_⟩
    rw [hc, hid, hid']

/-- `merge` reports each pair that does not commute once, under the sorted addresses in common,
and `detect_conflicts` on the patches of the two sides reports the same conflicts. -/
theorem merge_detects (basePatches : List H) {branchAPatches branchBPatches : List H}
    (ha : branchAPatches.Nodup) (hb : branchBPatches.Nodup)
    (hknown : ∀ i, i ∈ basePatches ∨ i ∈ branchAPatches ∨ i ∈ branchBPatches →
      ∃ p, allPatches i = some p ∧ p.id = i) :
    ∃ r, merge allPatches basePatches branchAPatches branchBPatches = .ok r ∧
      r.patchesAOnly = onlyOn basePatches branchAPatches ∧
      r.patchesBOnly = onlyOn basePatches branchBPatches ∧
      (∀ c, c ∈ r.conflicts ↔ ∃ i ∈ r.patchesAOnly, ∃ j ∈ r.patchesBOnly,
        ∃ a b conflictAddresses, allPatches i = some a ∧ allPatches j = some b ∧
          commute a b = .doesNotCommute conflictAddresses ∧
          c = ⟨i, j, (a.touchSet.inter b.touchSet).elems⟩) ∧
      (r.conflicts.map Conflict.pair).Nodup ∧
      (detectConflicts (r.patchesAOnly.filterMap allPatches)
        (r.patchesBOnly.filterMap allPatches)).Perm r.conflicts := by
  have hknownA : ∀ i ∈ onlyOn basePatches branchAPatches, ∃ p, allPatches i = some p ∧ p.id = i :=
    fun i hi => hknown i (.inr (.inl (List.mem_of_mem_filter hi)))
  have hknownB : ∀ j ∈ onlyOn basePatches branchBPatches, ∃ p, allPatches j = some p ∧ p.id = j :=
    fun j hj => hknown j (.inr (.inr (List.mem_of_mem_filter hj)))
  have hok := merge_eq_ok allPatches branchBPatches fun i hi => by
    obtain ⟨p, hp, -⟩ := hknownA i hi
    rw [hp]
    rfl
  have hnodupA : (onlyOn basePatches branchAPatches).Nodup := ha.filter _
  have hnodupB : (onlyOn basePatches branchBPatches).Nodup := hb.filter _
  have hpairs := listedConflicts_nodup allPatches (onlyOn basePatches branchBPatches) hnodupA
  refine ⟨_, hok, rfl, rfl, ?_, hpairs, ?_⟩
  · intro c
    simp only [← conflictOf_iff]
    exact mem_listedConflicts allPatches
  · have hdetected := detectConflicts_nodup
      (by rwa [ids_of_listed allPatches hknownA] :
        (((onlyOn basePatches branchAPatches).filterMap allPatches).map Patch.id).Nodup)
      (by rwa [ids_of_listed allPatches hknownB] :
        (((onlyOn basePatches branchBPatches).filterMap allPatches).map Patch.id).Nodup)
    apply (List.perm_ext_iff_of_nodup hdetected.of_map hpairs.of_map).mpr
    intro c
    rw [mem_detectConflicts_listed allPatches hknownA hknownB]
    exact (mem_listedConflicts allPatches).symm

/-- A small edit, for examples. -/
def touching (id : Nat) (addrs : List String) : Patch Nat where
  id := id
  parentIds := []
  operationType := .modify
  touchSet := .ofList addrs
  targetPath := addrs.head?
  payload := .text .empty
  timestamp := 0
  author := "test"
  message := "edit"

def listed (patches : List (Patch Nat)) (id : Nat) : Option (Patch Nat) :=
  patches.find? fun p => p.id = id

/-- Two patches with two addresses in common. -/
def twoShared : List (Patch Nat) := [touching 1 ["a"], touching 2 ["a", "b"], touching 3 ["b", "a"]]

theorem merge_detects_twoShared :
    ∃ r, merge (listed twoShared) [1] [1, 2] [1, 3] = .ok r ∧
      r.patchesAOnly = onlyOn [1] [1, 2] ∧ r.patchesBOnly = onlyOn [1] [1, 3] ∧
      (∀ c, c ∈ r.conflicts ↔ ∃ i ∈ r.patchesAOnly, ∃ j ∈ r.patchesBOnly,
        ∃ a b conflictAddresses, listed twoShared i = some a ∧ listed twoShared j = some b ∧
          commute a b = .doesNotCommute conflictAddresses ∧
          c = ⟨i, j, (a.touchSet.inter b.touchSet).elems⟩) ∧
      (r.conflicts.map Conflict.pair).Nodup ∧
      (detectConflicts (r.patchesAOnly.filterMap (listed twoShared))
        (r.patchesBOnly.filterMap (listed twoShared))).Perm r.conflicts := by
  apply merge_detects (listed twoShared) [1] (by decide) (by decide)
  intro i hi
  simp only [List.mem_cons, List.not_mem_nil, or_false] at hi
  rcases hi with rfl | ⟨rfl | rfl⟩ | rfl | rfl
  · exact ⟨touching 1 ["a"], rfl, rfl⟩
  · exact ⟨touching 1 ["a"], rfl, rfl⟩
  · exact ⟨touching 2 ["a", "b"], rfl, rfl⟩
  · exact ⟨touching 1 ["a"], rfl, rfl⟩
  · exact ⟨touching 3 ["b", "a"], rfl, rfl⟩

end Merge
end Suture.Patches
