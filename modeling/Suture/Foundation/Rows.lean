import Mathlib.Data.List.Nodup
import Suture.Foundation.SortedMap
import Suture.Foundation.SortedSet

/-!
# Rows written to a table

A table takes rows one after the other: over the row of the same key, or only where the key
has none. When nothing changes, every row was there already.
-/

namespace Suture.Foundation
set_option autoImplicit false

universe u v
variable {κ : Type u} {α : Type v} [LinearOrder κ]

/-- The value that the last row of a key gives. -/
def lastRow : List (κ × α) → κ → Option α
  | [], _ => none
  | (k, v) :: rest, j => (lastRow rest j).or (if j = k then some v else none)

theorem lastRow_mem {rows : List (κ × α)} {k : κ} {v : α} (h : lastRow rows k = some v) :
    (k, v) ∈ rows := by
  induction rows with
  | nil => cases h
  | cons row rows ih =>
    rw [lastRow] at h
    cases hrest : lastRow rows k with
    | some w =>
      rw [hrest, Option.some_or] at h
      exact List.mem_cons_of_mem _ (ih (hrest.trans h))
    | none =>
      rw [hrest, Option.none_or] at h
      split_ifs at h with hk
      rw [hk, ← Option.some.inj h]
      exact List.mem_cons_self ..

theorem lastRow_eq_none_iff {rows : List (κ × α)} {k : κ} :
    lastRow rows k = none ↔ ∀ row ∈ rows, row.1 ≠ k := by
  induction rows with
  | nil => simp [lastRow]
  | cons row rows ih =>
    have hhead : (if k = row.1 then some row.2 else none) = none ↔ row.1 ≠ k := by
      simp [eq_comm]
    rw [lastRow, Option.or_eq_none_iff, ih, hhead, List.forall_mem_cons, and_comm]

theorem lastRow_append (rows rows' : List (κ × α)) (k : κ) :
    lastRow (rows ++ rows') k = (lastRow rows' k).or (lastRow rows k) := by
  induction rows with
  | nil => exact Option.or_none.symm
  | cons row rows ih => rw [List.cons_append, lastRow, lastRow, ih, Option.or_assoc]

/-- A key that has rows from one item only. -/
theorem lastRow_flatMap {ι : Type u} {rows : ι → List (κ × α)} {items : List ι} {i : ι} (hi : i ∈ items)
    {k : κ} (h : ∀ j ∈ items, j ≠ i → lastRow (rows j) k = none) :
    lastRow (items.flatMap rows) k = lastRow (rows i) k := by
  induction items with
  | nil => cases hi
  | cons j items ih =>
    have htail : ∀ j' ∈ items, j' ≠ i → lastRow (rows j') k = none :=
      fun j' hj' => h j' (List.mem_cons_of_mem _ hj')
    rw [List.flatMap_cons, lastRow_append]
    by_cases hin : i ∈ items
    · rw [ih hin htail]
      by_cases hj : j = i
      · rw [hj, Option.or_self]
      · rw [h j (List.mem_cons_self ..) hj, Option.or_none]
    · obtain rfl : i = j := (List.mem_cons.mp hi).resolve_right hin
      have hnone : lastRow (items.flatMap rows) k = none := by
        refine lastRow_eq_none_iff.mpr fun row hrow => ?_
        obtain ⟨j', hj', hrow⟩ := List.mem_flatMap.mp hrow
        exact lastRow_eq_none_iff.mp (htail j' hj' (ne_of_mem_of_not_mem hj' hin)) row hrow
      rw [hnone, Option.none_or]

/-- When no key has two rows, every row counts. -/
theorem lastRow_eq_some_iff {l : List (κ × α)} (h : (l.map Prod.fst).Nodup) {k : κ} {v : α} :
    lastRow l k = some v ↔ (k, v) ∈ l := by
  induction l with
  | nil => exact ⟨nofun, nofun⟩
  | cons a l ih =>
    rw [List.map_cons, List.nodup_cons] at h
    rw [lastRow, Option.or_eq_some_iff, ih h.2, List.mem_cons]
    constructor
    · rintro (hmem | ⟨-, hv⟩)
      · exact .inr hmem
      · split_ifs at hv with hk
        rw [hk, ← Option.some.inj hv]
        exact .inl rfl
    · rintro (heq | hmem)
      · refine .inr ⟨?_, by rw [← heq, if_pos rfl]⟩
        rw [lastRow_eq_none_iff]
        rintro row hrow hk
        refine h.1 (List.mem_map.mpr ⟨row, hrow, ?_⟩)
        rw [hk, ← heq]
      · exact .inl hmem

/-- Rows that are looked up by their keys are all rows, in the order of the keys. -/
theorem filterMap_lastRow_perm {keys : List κ} (hkeys : keys.Nodup) {l : List (κ × α)}
    (hl : (l.map Prod.fst).Nodup) (hsub : ∀ a ∈ l, a.1 ∈ keys) :
    (keys.filterMap fun k => (lastRow l k).map fun v => (k, v)).Perm l := by
  have hnodup : (keys.filterMap fun k => (lastRow l k).map fun v => (k, v)).Nodup := by
    refine hkeys.filterMap fun k k' a hk hk' => ?_
    obtain ⟨v, -, rfl⟩ := Option.map_eq_some_iff.mp hk
    obtain ⟨v', -, heq⟩ := Option.map_eq_some_iff.mp hk'
    exact (Prod.mk.inj heq).1.symm
  rw [List.perm_ext_iff_of_nodup hnodup (hl.of_map _)]
  rintro ⟨k, v⟩
  rw [List.mem_filterMap]
  constructor
  · rintro ⟨j, -, hj⟩
    obtain ⟨w, hw, heq⟩ := Option.map_eq_some_iff.mp hj
    rw [← heq]
    exact (lastRow_eq_some_iff hl).mp hw
  · intro hmem
    refine ⟨k, hsub _ hmem, ?_⟩
    rw [(lastRow_eq_some_iff hl).mpr hmem]
    rfl

/-- Items filed under their keys: the last item of a key stands. -/
theorem lastRow_keyed (key : α → Option κ) (items : List α) (k : κ) :
    lastRow (items.filterMap fun a => (key a).map fun j => (j, a)) k =
      (items.filter fun a => decide (key a = some k)).getLast? := by
  induction items with
  | nil => rfl
  | cons a items ih =>
    cases hkey : key a with
    | none =>
      rw [List.filterMap_cons_none (by rw [hkey]; rfl), ih, List.filter_cons_of_neg]
      simp [hkey]
    | some j =>
      rw [List.filterMap_cons_some (b := (j, a)) (by rw [hkey]; rfl), lastRow, ih]
      by_cases hj : k = j
      · rw [List.filter_cons_of_pos (by simp [hkey, hj]), List.getLast?_cons, if_pos hj]
        cases (items.filter fun a => decide (key a = some k)).getLast? <;> rfl
      · rw [List.filter_cons_of_neg (by simpa [hkey] using Ne.symm hj), if_neg hj, Option.or_none]

namespace SortedMap

/-- Writes rows over those of the same key. -/
def putRows (m : SortedMap κ α) (rows : List (κ × α)) : SortedMap κ α :=
  rows.foldl (fun m row => m.insert row.1 row.2) m

/-- Writes the rows whose key has none. -/
def addRows (m : SortedMap κ α) (rows : List (κ × α)) : SortedMap κ α :=
  rows.foldl (fun m row => if m.contains row.1 then m else m.insert row.1 row.2) m

theorem putRows_append (m : SortedMap κ α) (rows rows' : List (κ × α)) :
    m.putRows (rows ++ rows') = (m.putRows rows).putRows rows' := List.foldl_append ..

theorem addRows_append (m : SortedMap κ α) (rows rows' : List (κ × α)) :
    m.addRows (rows ++ rows') = (m.addRows rows).addRows rows' := List.foldl_append ..

theorem get_putRows (m : SortedMap κ α) (rows : List (κ × α)) (k : κ) :
    (m.putRows rows).get k = (lastRow rows k).or (m.get k) := by
  induction rows generalizing m with
  | nil => rfl
  | cons row rows ih =>
    change ((m.insert row.1 row.2).putRows rows).get k = _
    rw [ih, get_insert, lastRow, Option.or_assoc]
    by_cases h : k = row.1
    · rw [if_pos h, if_pos h]
      rfl
    · rw [if_neg h, if_neg h]
      rfl

theorem putRows_eq_self_iff {m : SortedMap κ α} {rows : List (κ × α)} :
    m.putRows rows = m ↔ ∀ k v, lastRow rows k = some v → m.get k = some v := by
  constructor
  · intro h k v hv
    rw [← h, get_putRows, hv]
    rfl
  · intro h
    refine ext fun k => ?_
    rw [get_putRows]
    cases hlast : lastRow rows k with
    | none => rfl
    | some v => exact (h k v hlast).symm

/-- A key that has a row keeps it. -/
theorem get_addRows_of_some {m : SortedMap κ α} {k : κ} {v : α} (h : m.get k = some v)
    (rows : List (κ × α)) : (m.addRows rows).get k = some v := by
  induction rows generalizing m with
  | nil => exact h
  | cons row rows ih =>
    change (addRows (if m.contains row.1 then m else m.insert row.1 row.2) rows).get k = _
    split
    · exact ih h
    · rename_i hnew
      refine ih ?_
      rw [get_insert, if_neg, h]
      rintro rfl
      rw [contains_eq, h] at hnew
      exact hnew rfl

theorem contains_addRows {m : SortedMap κ α} {rows : List (κ × α)} {row : κ × α} (h : row ∈ rows) :
    (m.addRows rows).contains row.1 = true := by
  induction rows generalizing m with
  | nil => cases h
  | cons first rows ih =>
    rcases List.mem_cons.mp h with rfl | h
    · obtain ⟨v, hv⟩ : ∃ v, SortedMap.get (if m.contains row.1 then m else m.insert row.1 row.2)
          row.1 = some v := by
        split
        · rename_i hin
          exact Option.isSome_iff_exists.mp hin
        · exact ⟨row.2, by rw [get_insert, if_pos rfl]⟩
      exact Option.isSome_iff_exists.mpr ⟨v, get_addRows_of_some hv rows⟩
    · exact ih h

theorem addRows_eq_self_iff {m : SortedMap κ α} {rows : List (κ × α)} :
    m.addRows rows = m ↔ ∀ row ∈ rows, m.contains row.1 = true := by
  constructor
  · intro h row hrow
    rw [← h]
    exact contains_addRows hrow
  · intro h
    induction rows with
    | nil => rfl
    | cons row rows ih =>
      change addRows (if m.contains row.1 then m else m.insert row.1 row.2) rows = m
      rw [if_pos (h row (List.mem_cons_self ..))]
      exact ih fun row' hrow' => h row' (List.mem_cons_of_mem _ hrow')

/-! ### Rows of one table -/

section Agree
variable {g : κ → Option α} {rows : List (κ × α)}

/-- When all rows of a key are the same, the last one is that. -/
theorem lastRow_of_agree (h : ∀ row ∈ rows, g row.1 = some row.2) (k : κ) :
    lastRow rows k = if k ∈ rows.map Prod.fst then g k else none := by
  induction rows with
  | nil => rfl
  | cons row rows ih =>
    have hrow := h row (List.mem_cons_self ..)
    rw [lastRow, ih fun row' hrow' => h row' (List.mem_cons_of_mem _ hrow')]
    by_cases hin : k ∈ rows.map Prod.fst
    · obtain ⟨row', hrow', rfl⟩ := List.mem_map.mp hin
      rw [if_pos hin, h row' (List.mem_cons_of_mem _ hrow'), Option.some_or, if_pos]
      exact List.mem_cons_of_mem _ hin
    · rw [if_neg hin, Option.none_or, List.map_cons]
      by_cases hk : k = row.1
      · rw [if_pos hk, if_pos (hk ▸ List.mem_cons_self ..), hk, hrow]
      · rw [if_neg hk, if_neg fun hmem => (List.mem_cons.mp hmem).elim hk hin]

theorem get_addRows_of_agree (h : ∀ row ∈ rows, g row.1 = some row.2) (m : SortedMap κ α) (k : κ) :
    (m.addRows rows).get k = (m.get k).or (if k ∈ rows.map Prod.fst then g k else none) := by
  induction rows generalizing m with
  | nil => exact (Option.or_none).symm
  | cons row rows ih =>
    have hrow := h row (List.mem_cons_self ..)
    change (addRows (if m.contains row.1 then m else m.insert row.1 row.2) rows).get k = _
    rw [ih fun row' hrow' => h row' (List.mem_cons_of_mem _ hrow')]
    by_cases hk : k = row.1
    · subst hk
      rw [List.map_cons, if_pos (List.mem_cons_self ..), hrow]
      cases hget : m.get row.1 with
      | none =>
        rw [contains_eq, hget, Option.isSome_none, if_neg Bool.false_ne_true, get_insert, if_pos rfl]
        rfl
      | some v =>
        rw [contains_eq, hget, Option.isSome_some, if_pos rfl, hget]
        rfl
    · have hskip : SortedMap.get (if m.contains row.1 then m else m.insert row.1 row.2) k =
          m.get k := by
        split
        · rfl
        · rw [get_insert, if_neg hk]
      rw [hskip, List.map_cons]
      simp only [List.mem_cons, hk, false_or]

end Agree

def mapValues {β : Type v} (f : κ → α → β) (m : SortedMap κ α) : SortedMap κ β where
  entries := m.entries.map fun e => (e.1, f e.1 e.2)
  sorted := by
    refine List.pairwise_map.mpr ?_
    exact m.sorted

theorem get_mapValues {β : Type v} (f : κ → α → β) (m : SortedMap κ α) (k : κ) :
    (m.mapValues f).get k = (m.get k).map (f k) := by
  refine Option.ext fun b => ?_
  rw [← mem_entries, Option.map_eq_some_iff]
  constructor
  · intro hb
    obtain ⟨⟨k', v⟩, he, heq⟩ := List.mem_map.mp hb
    cases heq
    exact ⟨v, mem_entries.mp he, rfl⟩
  · rintro ⟨v, hv, rfl⟩
    exact List.mem_map.mpr ⟨(k, v), mem_entries.mpr hv, rfl⟩

/-! ### Maps made key by key -/

section Keys
variable {merge : κ → Option (Option α)} {keys : List κ}

/-- What each key gets is merged; a conflict at one key is a conflict. -/
def mergeKeys (merge : κ → Option (Option α)) (keys : List κ) : Option (SortedMap κ α) :=
  keys.foldlM (fun m k => (merge k).map fun r => r.elim m fun v => m.insert k v) empty

theorem get_foldlM_merge {m₀ m : SortedMap κ α}
    (h : keys.foldlM (fun m k => (merge k).map fun r => r.elim m fun v => m.insert k v) m₀ = some m) :
    (∀ k ∈ keys, (merge k).isSome = true) ∧
      ∀ k, m.get k = if k ∈ keys then (merge k).join.or (m₀.get k) else m₀.get k := by
  induction keys generalizing m₀ with
  | nil =>
    obtain rfl := Option.some.inj h
    exact ⟨fun _ hk => absurd hk List.not_mem_nil, fun k => (if_neg List.not_mem_nil).symm⟩
  | cons j keys ih =>
    rw [List.foldlM_cons, Option.bind_eq_bind, Option.bind_eq_some_iff] at h
    obtain ⟨m₁, hm₁, h⟩ := h
    obtain ⟨r, hr, rfl⟩ := Option.map_eq_some_iff.mp hm₁
    obtain ⟨hall, hget⟩ := ih h
    refine ⟨List.forall_mem_cons.mpr ⟨by rw [hr]; rfl, hall⟩, fun k => ?_⟩
    have hfirst : SortedMap.get (r.elim m₀ fun v => m₀.insert j v) k =
        if k = j then r.or (m₀.get k) else m₀.get k := by
      cases r with
      | none =>
        rw [Option.none_or]
        exact (ite_self _).symm
      | some v =>
        rw [Option.elim_some, get_insert]
        rfl
    rw [hget, hfirst]
    by_cases hk : k = j
    · subst hk
      rw [if_pos rfl, if_pos (List.mem_cons_self ..), hr, Option.join_some]
      split
      · rw [← Option.or_assoc, Option.or_self]
      · rfl
    · simp only [List.mem_cons, hk, false_or, if_false]

theorem mergeKeys_isSome (h : ∀ k ∈ keys, (merge k).isSome = true) (m₀ : SortedMap κ α) :
    (keys.foldlM (fun m k => (merge k).map fun r => r.elim m fun v => m.insert k v) m₀).isSome =
      true := by
  induction keys generalizing m₀ with
  | nil => rfl
  | cons j keys ih =>
    obtain ⟨r, hr⟩ := Option.isSome_iff_exists.mp (h j (List.mem_cons_self ..))
    rw [List.foldlM_cons, hr]
    exact ih (fun k hk => h k (List.mem_cons_of_mem _ hk)) _

theorem mergeKeys_eq_some_iff {m : SortedMap κ α} : mergeKeys merge keys = some m ↔
    (∀ k ∈ keys, merge k = some (m.get k)) ∧ ∀ k, k ∉ keys → m.get k = none := by
  unfold mergeKeys
  constructor
  · intro h
    obtain ⟨hall, hget⟩ := get_foldlM_merge h
    refine ⟨fun k hk => ?_, fun k hk => ?_⟩
    · obtain ⟨r, hr⟩ := Option.isSome_iff_exists.mp (hall k hk)
      rw [hget, if_pos hk, hr, Option.join_some, get_empty, Option.or_none]
    · rw [hget, if_neg hk, get_empty]
  · rintro ⟨hall, hnone⟩
    obtain ⟨m', hm'⟩ := Option.isSome_iff_exists.mp
      (@mergeKeys_isSome _ _ _ merge _ (fun k hk => by rw [hall k hk]; rfl) empty)
    obtain ⟨-, hget⟩ := get_foldlM_merge hm'
    rw [hm']
    refine congrArg some (ext fun k => ?_)
    rw [hget, get_empty, Option.or_none]
    split
    · rename_i hk
      rw [hall k hk, Option.join_some]
    · rename_i hk
      exact (hnone k hk).symm

/-- Keys that nothing is known of may be left out. -/
theorem mergeKeys_eq_some_iff_forall {m : SortedMap κ α} (h : ∀ k, k ∉ keys → merge k = some none) :
    mergeKeys merge keys = some m ↔ ∀ k, merge k = some (m.get k) := by
  rw [mergeKeys_eq_some_iff]
  constructor
  · rintro ⟨hin, hout⟩ k
    by_cases hk : k ∈ keys
    · exact hin k hk
    · rw [hout k hk, h k hk]
  · intro hall
    exact ⟨fun k _ => hall k, fun k hk => Option.some.inj ((hall k).symm.trans (h k hk))⟩

end Keys

theorem get_addRows_entries (m m' : SortedMap κ α) (k : κ) :
    (m.addRows m'.entries).get k = (m.get k).or (m'.get k) := by
  rw [get_addRows_of_agree (g := m'.get) fun row hrow => mem_entries.mp hrow]
  split
  · rfl
  · rename_i hk
    rw [← not_not.mp (mt mem_keys.mpr hk)]

end SortedMap

end Suture.Foundation
