import Suture.Foundation.Rows

/-!
# Numbered rows

A table whose rows are numbered as they come, and a copy of it that takes the rows past a number
where it has none. No row is taken away.
-/

namespace Suture.Foundation
set_option autoImplicit false

universe v
variable {α : Type v}

theorem SortedMap.le_of_getLast? {table : SortedMap Int α} {last k : Int}
    (hlast : table.keys.getLast? = some last) (hk : table.get k ≠ none) : k ≤ last := by
  obtain ⟨before, hkeys⟩ := List.getLast?_eq_some_iff.mp hlast
  have hsorted : table.keys.Pairwise (· < ·) := List.pairwise_map.mpr table.sorted
  have hmem := SortedMap.mem_keys.mpr hk
  rw [hkeys] at hmem hsorted
  rcases List.mem_append.mp hmem with hbefore | hend
  · exact le_of_lt ((List.pairwise_append.mp hsorted).2.2 k hbefore last (List.mem_singleton_self last))
  · exact le_of_eq (List.mem_singleton.mp hend)

namespace Numbered

/-- The number above the last, and at least one. -/
def next (table : SortedMap Int α) : Int := max 0 (table.keys.getLast?.getD 0) + 1

/-- Nothing is appended past the limit. -/
def append (limit : Int) (a : α) (table : SortedMap Int α) : SortedMap Int α :=
  if next table ≤ limit then table.insert (next table) a else table

def since (seq : Int) (table : SortedMap Int α) : List (Int × α) :=
  table.entries.filter fun row => seq < row.1

variable {table copy : SortedMap Int α} {limit seq k : Int} {a : α}

theorem lt_next (h : table.get k ≠ none) : k < next table := by
  unfold next
  cases hlast : table.keys.getLast? with
  | none =>
    have hmem := SortedMap.mem_keys.mpr h
    rw [List.getLast?_eq_none_iff.mp hlast] at hmem
    cases hmem
  | some last =>
    have hle := SortedMap.le_of_getLast? hlast h
    rw [Option.getD_some]
    omega

theorem get_next (table : SortedMap Int α) : table.get (next table) = none := by
  by_contra h
  exact lt_irrefl _ (lt_next h)

theorem get_append : (append limit a table).get k =
    if next table ≤ limit ∧ k = next table then some a else table.get k := by
  unfold append
  by_cases hroom : next table ≤ limit
  · rw [if_pos hroom, SortedMap.get_insert]
    simp only [hroom, true_and]
  · rw [if_neg hroom, if_neg fun hand => hroom hand.1]

/-- A row that is there stays. -/
theorem get_append_of_some (h : table.get k = some a) (b : α) :
    (append limit b table).get k = some a := by
  rw [get_append, if_neg, h]
  rintro ⟨-, rfl⟩
  rw [get_next] at h
  cases h

/-- What holds of all rows, and of the new one if there is a number for it. -/
theorem forall_append_iff {P : Int → α → Prop} (b : α) :
    (∀ k a, (append limit b table).get k = some a → P k a) ↔
      (∀ k a, table.get k = some a → P k a) ∧ (next table ≤ limit → P (next table) b) := by
  constructor
  · intro hall
    refine ⟨fun k a ha => hall k a (get_append_of_some ha b), fun hroom => hall _ b ?_⟩
    rw [get_append, if_pos ⟨hroom, rfl⟩]
  · rintro ⟨hall, hnew⟩ k a ha
    rw [get_append] at ha
    split at ha
    · rename_i hand
      obtain ⟨hroom, rfl⟩ := hand
      rw [← Option.some.inj ha]
      exact hnew hroom
    · exact hall k a ha

theorem mem_since {row : Int × α} :
    row ∈ since seq table ↔ seq < row.1 ∧ table.get row.1 = some row.2 := by
  rw [since, List.mem_filter, SortedMap.mem_entries, decide_eq_true_eq, and_comm]

theorem mem_keys_since : k ∈ (since seq table).map Prod.fst ↔ seq < k ∧ table.get k ≠ none := by
  constructor
  · intro h
    obtain ⟨row, hrow, rfl⟩ := List.mem_map.mp h
    obtain ⟨hlt, hget⟩ := mem_since.mp hrow
    exact ⟨hlt, by rw [hget]; exact Option.some_ne_none _⟩
  · rintro ⟨hlt, hget⟩
    obtain ⟨a, ha⟩ := Option.ne_none_iff_exists'.mp hget
    exact List.mem_map.mpr ⟨(k, a), mem_since.mpr ⟨hlt, ha⟩, rfl⟩

/-- The copy keeps what it has, and has the rest from the table. -/
theorem get_addRows_since : (copy.addRows (since seq table)).get k =
    (copy.get k).or (if seq < k then table.get k else none) := by
  rw [SortedMap.get_addRows_of_agree fun row hrow => (mem_since.mp hrow).2]
  congr 1
  by_cases hlt : seq < k
  · rw [if_pos hlt]
    split
    · rfl
    · rename_i hmem
      exact (not_not.mp fun hget => hmem (mem_keys_since.mpr ⟨hlt, hget⟩)).symm
  · rw [if_neg hlt, if_neg fun hmem => hlt (mem_keys_since.mp hmem).1]

theorem addRows_again (rows : List (Int × α)) :
    (copy.addRows rows).addRows rows = copy.addRows rows :=
  SortedMap.addRows_eq_self_iff.mpr fun _ hrow => SortedMap.contains_addRows hrow

end Numbered
end Suture.Foundation
