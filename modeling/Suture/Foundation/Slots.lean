import Mathlib.Data.List.InsertIdx
import Suture.Foundation.SortedMap

/-!
# Numbered slots

Values under natural numbers, listed in the order of their numbers. Where no number below
a slot is free, the number of the slot is its place in the list.
-/

namespace Suture.Foundation
set_option autoImplicit false

universe u
variable {α : Type u}

namespace SortedMap

def values (m : SortedMap Nat α) : List α := m.entries.map Prod.snd

/-- No number below `n` is free. -/
def Filled (m : SortedMap Nat α) (n : Nat) : Prop := ∀ i < n, m.contains i = true

variable {m : SortedMap Nat α}

@[simp] theorem values_empty : (empty : SortedMap Nat α).values = [] := rfl

theorem length_values (m : SortedMap Nat α) : m.values.length = m.entries.length :=
  List.length_map _

theorem entries_lt {i j : Nat} (hi : i < m.entries.length) (hj : j < m.entries.length)
    (hij : i < j) : m.entries[i].1 < m.entries[j].1 :=
  List.pairwise_iff_getElem.mp m.sorted i j hi hj hij

/-- The numbers ascend, so none is below its place. -/
theorem place_le {p : Nat} (hp : p < m.entries.length) : p ≤ m.entries[p].1 := by
  induction p with
  | zero => exact Nat.zero_le _
  | succ p ih =>
    have hprev := ih (by omega)
    have hlt : m.entries[p].1 < m.entries[p + 1].1 := entries_lt _ hp (Nat.lt_succ_self p)
    omega

theorem exists_place {k : Nat} (h : m.contains k = true) :
    ∃ p, ∃ hp : p < m.entries.length, m.entries[p].1 = k := by
  obtain ⟨v, hv⟩ := Option.isSome_iff_exists.mp h
  obtain ⟨p, hp, he⟩ := List.getElem_of_mem (mem_entries.mpr hv)
  exact ⟨p, hp, by rw [he]⟩

/-- Below a number with no gap under it every number is its own place. -/
theorem Filled.place {n i : Nat} (h : m.Filled n) (hi : i < n) :
    ∃ hp : i < m.entries.length, m.entries[i].1 = i := by
  induction i using Nat.strong_induction_on with
  | h i ih =>
    obtain ⟨p, hp, hpi⟩ := exists_place (h i hi)
    have hle := place_le hp
    rcases Nat.lt_or_ge p i with hlt | hge
    · obtain ⟨_, hq⟩ := ih p hlt (by omega)
      omega
    · obtain rfl : p = i := by omega
      exact ⟨hp, hpi⟩

/-- A map of `n` values with no gap below `n` has no other numbers. -/
theorem Filled.lt_length (h : m.Filled m.entries.length) {k : Nat} (hk : m.contains k = true) :
    k < m.entries.length := by
  obtain ⟨p, hp, hpk⟩ := exists_place hk
  obtain ⟨_, hpp⟩ := h.place hp
  omega

theorem insert_above {l : List (Nat × α)} {k : Nat} {v : α} (h : ∀ e ∈ l, e.1 < k) :
    Assoc.insert k v l = l ++ [(k, v)] := by
  induction l with
  | nil => rfl
  | cons e rest ih =>
    have he := h e (List.mem_cons_self ..)
    obtain ⟨k', v'⟩ := e
    rw [Assoc.insert, if_neg (by omega), if_neg (by omega), List.cons_append,
      ih fun d hd => h d (List.mem_cons_of_mem _ hd)]

theorem values_insert_above {k : Nat} (v : α) (h : ∀ j, m.contains j = true → j < k) :
    (m.insert k v).values = m.values ++ [v] := by
  have hlt : ∀ e ∈ m.entries, e.1 < k := by
    intro e he
    apply h
    rw [contains_eq, mem_entries.mp he]
    rfl
  change (Assoc.insert k v m.entries).map Prod.snd = _
  rw [insert_above hlt, List.map_append]
  rfl

/-- With no gap, the count of the values is the next number. -/
theorem Filled.values_insert (h : m.Filled m.entries.length) (v : α) :
    (m.insert m.entries.length v).values = m.values ++ [v] :=
  values_insert_above v fun _ => h.lt_length

theorem erase_cons (k : Nat) (e : Nat × α) (l : List (Nat × α)) :
    Assoc.erase k (e :: l) = if e.1 = k then Assoc.erase k l else e :: Assoc.erase k l := by
  by_cases h : e.1 = k <;> simp [Assoc.erase, h]

theorem erase_place {l : List (Nat × α)} (hl : Assoc.Sorted l) {p : Nat} (hp : p < l.length) :
    Assoc.erase l[p].1 l = l.eraseIdx p := by
  induction hl generalizing p with
  | nil => cases hp
  | @cons e rest hhead _ ih =>
    cases p with
    | zero =>
      have hkeep : Assoc.erase e.1 rest = rest :=
        List.filter_eq_self.mpr fun d hd => decide_eq_true (hhead d hd).ne'
      rw [List.getElem_cons_zero, erase_cons, if_pos rfl, hkeep]
      rfl
    | succ p =>
      have hp : p < rest.length := by simpa using hp
      have hne : e.1 ≠ rest[p].1 := (hhead _ (List.getElem_mem hp)).ne
      rw [List.getElem_cons_succ, erase_cons, if_neg hne, ih hp]
      rfl

/-- The entry of the highest number goes from the end. -/
theorem erase_getLast {e : Nat × α} (h : m.entries.getLast? = some e) :
    (m.erase e.1).entries = m.entries.dropLast := by
  have hne : m.entries ≠ [] := by
    intro hnil
    rw [hnil] at h
    cases h
  have hpos := List.length_pos_of_ne_nil hne
  rw [List.getLast?_eq_some_getLast hne, Option.some.injEq, List.getLast_eq_getElem] at h
  have hlast : m.entries.length - 1 + 1 = m.entries.length := by omega
  rw [← h, ← List.eraseIdx_eq_dropLast hlast]
  exact erase_place m.sorted (by omega)

theorem values_erase_place {p : Nat} (hp : p < m.entries.length) :
    (m.erase m.entries[p].1).values = m.values.eraseIdx p := by
  change (Assoc.erase _ m.entries).map Prod.snd = _
  rw [erase_place m.sorted hp, values, List.eraseIdx_map]

/-- With no gap up to a number, it is the place of the value it drops. -/
theorem Filled.values_erase {i : Nat} (h : m.Filled (i + 1)) :
    (m.erase i).values = m.values.eraseIdx i := by
  obtain ⟨hp, hi⟩ := h.place (Nat.lt_succ_self i)
  have := values_erase_place hp
  rwa [hi] at this

end SortedMap
end Suture.Foundation
