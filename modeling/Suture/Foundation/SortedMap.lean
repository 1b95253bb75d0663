import Mathlib.Order.Lattice
import Mathlib.Data.List.Basic

/-!
# Association lists in key order

Finite maps as lists of entries with strictly ascending keys. The operations work
on any list; what they promise of lookups needs no order, that two lists with the
same lookups are equal does.
-/

namespace Suture.Foundation
set_option autoImplicit false

universe u v
variable {κ : Type u} {α : Type v} [LinearOrder κ]

namespace Assoc

def get : List (κ × α) → κ → Option α
  | [], _ => none
  | (k', v) :: rest, k => if k = k' then some v else get rest k

/-- Puts an entry in its place, over an entry of the same key. -/
def insert (k : κ) (v : α) : List (κ × α) → List (κ × α)
  | [] => [(k, v)]
  | (k', v') :: rest =>
    if k < k' then (k, v) :: (k', v') :: rest
    else if k = k' then (k, v) :: rest
    else (k', v') :: insert k v rest

def erase (k : κ) (l : List (κ × α)) : List (κ × α) := l.filter fun e => decide (e.1 ≠ k)

def Sorted (l : List (κ × α)) : Prop := l.Pairwise fun x y => x.1 < y.1

@[simp] theorem get_nil (k : κ) : get ([] : List (κ × α)) k = none := rfl

theorem get_cons (k' k : κ) (v : α) (rest : List (κ × α)) :
    get ((k', v) :: rest) k = if k = k' then some v else get rest k := rfl

theorem mem_of_get {l : List (κ × α)} {k : κ} {v : α} (h : get l k = some v) : (k, v) ∈ l := by
  induction l with
  | nil => cases h
  | cons e rest ih =>
    obtain ⟨k', v'⟩ := e
    rw [get_cons] at h
    split at h
    · rename_i hk
      rw [hk, Option.some.inj h]
      exact List.mem_cons_self ..
    · exact List.mem_cons_of_mem _ (ih h)

theorem get_eq_none_iff {l : List (κ × α)} {k : κ} : get l k = none ↔ k ∉ l.map Prod.fst := by
  induction l with
  | nil => simp
  | cons e rest ih =>
    obtain ⟨k', v'⟩ := e
    rw [get_cons]
    by_cases hk : k = k' <;> simp [hk, ih]

theorem get_insert (l : List (κ × α)) (k j : κ) (v : α) :
    get (insert k v l) j = if j = k then some v else get l j := by
  induction l with
  | nil => rfl
  | cons e rest ih =>
    obtain ⟨k', v'⟩ := e
    rw [insert]
    split
    · rw [get_cons, get_cons]
    split
    · rename_i hk
      subst k'
      rw [get_cons, get_cons]
      split <;> rfl
    · rename_i hne
      rw [get_cons, get_cons, ih]
      split
      · rename_i hj
        rw [if_neg]
        rw [hj]
        exact fun h => hne h.symm
      · rfl

theorem get_erase (l : List (κ × α)) (k j : κ) :
    get (erase k l) j = if j = k then none else get l j := by
  induction l with
  | nil => simp [erase]
  | cons e rest ih =>
    obtain ⟨k', v'⟩ := e
    by_cases hk : k' = k
    · have herase : erase k ((k', v') :: rest) = erase k rest := by simp [erase, hk]
      rw [herase, ih, get_cons, hk]
      split <;> rfl
    · have herase : erase k ((k', v') :: rest) = (k', v') :: erase k rest := by simp [erase, hk]
      rw [herase, get_cons, get_cons, ih]
      split
      · rename_i hj
        rw [if_neg (hj ▸ hk)]
      · rfl

theorem keys_insert {l : List (κ × α)} {k : κ} {v : α} {e : κ × α} (h : e ∈ insert k v l) :
    e.1 = k ∨ e ∈ l := by
  induction l with
  | nil =>
    rw [List.mem_singleton.mp h]
    exact .inl rfl
  | cons d rest ih =>
    obtain ⟨k', v'⟩ := d
    rw [insert] at h
    split at h
    · rcases List.mem_cons.mp h with rfl | h
      · exact .inl rfl
      · exact .inr h
    split at h
    · rcases List.mem_cons.mp h with rfl | h
      · exact .inl rfl
      · exact .inr (List.mem_cons_of_mem _ h)
    · rcases List.mem_cons.mp h with rfl | h
      · exact .inr (List.mem_cons_self ..)
      · exact (ih h).imp_right (List.mem_cons_of_mem _)

theorem Sorted.insert {l : List (κ × α)} (h : Sorted l) (k : κ) (v : α) :
    Sorted (insert k v l) := by
  induction h with
  | nil => exact .cons (by simp) .nil
  | @cons e rest hhead hrest ih =>
    obtain ⟨k', v'⟩ := e
    rw [Assoc.insert]
    split
    · rename_i hlt
      refine .cons (fun d hd => ?_) (.cons hhead hrest)
      rcases List.mem_cons.mp hd with rfl | hd
      · exact hlt
      · exact hlt.trans (hhead d hd)
    split
    · rename_i heq
      subst k'
      exact .cons hhead hrest
    · rename_i hnlt hne
      refine .cons (fun d hd => ?_) ih
      rcases keys_insert hd with hk | hd
      · rw [hk]
        exact lt_of_le_of_ne (le_of_not_gt hnlt) fun h => hne h.symm
      · exact hhead d hd

theorem Sorted.erase {l : List (κ × α)} (h : Sorted l) (k : κ) : Sorted (erase k l) :=
  h.filter _

theorem Sorted.get_of_mem {l : List (κ × α)} (h : Sorted l) {k : κ} {v : α} (hm : (k, v) ∈ l) :
    get l k = some v := by
  induction h with
  | nil => cases hm
  | @cons e rest hhead _ ih =>
    obtain ⟨k', v'⟩ := e
    rw [get_cons]
    rcases List.mem_cons.mp hm with heq | hm
    · obtain ⟨rfl, rfl⟩ := Prod.mk.inj heq
      rw [if_pos rfl]
    · rw [if_neg (hhead _ hm).ne', ih hm]

theorem Sorted.get_cons_head {k : κ} {v : α} {rest : List (κ × α)}
    (h : Sorted ((k, v) :: rest)) {j : κ} (hj : j ≤ k) : get rest j = none := by
  rw [get_eq_none_iff]
  intro hmem
  obtain ⟨e, he, rfl⟩ := List.mem_map.mp hmem
  exact absurd ((List.pairwise_cons.mp h).1 e he) (not_lt_of_ge hj)

/-- Lists in key order with the same lookups are equal. -/
theorem Sorted.ext {l l' : List (κ × α)} (h : Sorted l) (h' : Sorted l')
    (hget : ∀ k, get l k = get l' k) : l = l' := by
  induction l generalizing l' with
  | nil =>
    cases l' with
    | nil => rfl
    | cons e rest =>
      have := hget e.1
      rw [get_cons, if_pos rfl] at this
      cases this
  | cons e rest ih =>
    obtain ⟨k, v⟩ := e
    cases l' with
    | nil =>
      have := hget k
      rw [get_cons, if_pos rfl] at this
      cases this
    | cons e' rest' =>
      obtain ⟨k', v'⟩ := e'
      have hkk : k = k' := by
        rcases lt_trichotomy k k' with hlt | heq | hgt
        · have := hget k
          rw [get_cons, if_pos rfl, get_cons, if_neg hlt.ne, h'.get_cons_head hlt.le] at this
          cases this
        · exact heq
        · have := hget k'
          rw [get_cons, if_neg hgt.ne, get_cons, if_pos rfl, h.get_cons_head hgt.le] at this
          cases this
      subst k'
      have hv : v = v' := by
        have := hget k
        rw [get_cons, get_cons, if_pos rfl, if_pos rfl] at this
        exact Option.some.inj this
      rw [hv, ih (List.pairwise_cons.mp h).2 (List.pairwise_cons.mp h').2 fun j => ?_]
      by_cases hj : j = k
      · subst j
        rw [h.get_cons_head le_rfl, h'.get_cons_head le_rfl]
      · have := hget j
        rwa [get_cons, get_cons, if_neg hj, if_neg hj] at this

theorem insert_insert (l : List (κ × α)) (k : κ) (u v : α) :
    insert k v (insert k u l) = insert k v l := by
  induction l with
  | nil => simp [insert]
  | cons e rest ih =>
    obtain ⟨k', v'⟩ := e
    by_cases hlt : k < k'
    · simp [insert, hlt]
    · by_cases heq : k = k'
      · simp [insert, heq]
      · simp [insert, hlt, heq, ih]

theorem Sorted.insert_of_get {l : List (κ × α)} (h : Sorted l) {k : κ} {v : α}
    (hget : get l k = some v) : Assoc.insert k v l = l := by
  refine (h.insert k v).ext h fun j => ?_
  rw [get_insert]
  split_ifs with hj
  · rw [hj, hget]
  · rfl

theorem get_filter {l : List (κ × α)} (h : Sorted l) (p : κ × α → Bool) (k : κ) :
    get (l.filter p) k = (get l k).filter fun v => p (k, v) := by
  induction l with
  | nil => rfl
  | cons e rest ih =>
    obtain ⟨k', v⟩ := e
    obtain ⟨hhead, hrest⟩ := List.pairwise_cons.mp h
    by_cases hk : k = k'
    · subst hk
      rw [get_cons, if_pos rfl, Option.filter_some]
      cases hp : p (k, v) with
      | true => simp [hp, get_cons]
      | false =>
        have hgone : get rest k = none := Sorted.get_cons_head h le_rfl
        simp [hp, ih hrest, hgone]
    · cases hp : p (k', v) with
      | true => simp [hp, get_cons, hk, ih hrest]
      | false => simp [hp, get_cons, hk, ih hrest]

end Assoc

/-- A finite map, kept as its entries in key order. -/
structure SortedMap (κ : Type u) (α : Type v) [LinearOrder κ] where
  entries : List (κ × α)
  sorted : Assoc.Sorted entries
deriving DecidableEq

namespace SortedMap

def empty : SortedMap κ α := ⟨[], .nil⟩

def get (m : SortedMap κ α) (k : κ) : Option α := Assoc.get m.entries k

def contains (m : SortedMap κ α) (k : κ) : Bool := (m.get k).isSome

def insert (k : κ) (v : α) (m : SortedMap κ α) : SortedMap κ α :=
  ⟨Assoc.insert k v m.entries, m.sorted.insert k v⟩

def erase (k : κ) (m : SortedMap κ α) : SortedMap κ α := ⟨Assoc.erase k m.entries, m.sorted.erase k⟩

def keys (m : SortedMap κ α) : List κ := m.entries.map Prod.fst

@[simp] theorem get_empty (k : κ) : (empty : SortedMap κ α).get k = none := rfl

@[simp] theorem get_insert (m : SortedMap κ α) (k j : κ) (v : α) :
    (m.insert k v).get j = if j = k then some v else m.get j := Assoc.get_insert m.entries k j v

@[simp] theorem get_erase (m : SortedMap κ α) (k j : κ) :
    (m.erase k).get j = if j = k then none else m.get j := Assoc.get_erase m.entries k j

theorem get_foldl_erase_eq_some {m : SortedMap κ α} {ks : List κ} {j : κ} {v : α} :
    (ks.foldl (fun m k => m.erase k) m).get j = some v ↔ m.get j = some v ∧ j ∉ ks := by
  induction ks generalizing m with
  | nil => simp
  | cons k ks ih =>
    rw [List.foldl_cons, ih, get_erase, List.mem_cons, not_or]
    by_cases hj : j = k
    · simp [hj]
    · simp [hj]

theorem mem_entries {m : SortedMap κ α} {k : κ} {v : α} : (k, v) ∈ m.entries ↔ m.get k = some v :=
  ⟨m.sorted.get_of_mem, Assoc.mem_of_get⟩

theorem mem_keys {m : SortedMap κ α} {k : κ} : k ∈ m.keys ↔ m.get k ≠ none :=
  (not_congr Assoc.get_eq_none_iff).trans not_not |>.symm

theorem contains_eq (m : SortedMap κ α) (k : κ) : m.contains k = (m.get k).isSome := rfl

theorem contains_eq_false_iff {m : SortedMap κ α} {k : κ} : m.contains k = false ↔ m.get k = none := by
  rw [contains_eq, Option.isSome_eq_false_iff, Option.isNone_iff_eq_none]

theorem contains_insert {m : SortedMap κ α} {k j : κ} {v : α} (h : m.contains j = true) :
    (m.insert k v).contains j = true := by
  rw [contains_eq, get_insert]
  split
  · rfl
  · exact h

theorem ext {m m' : SortedMap κ α} (h : ∀ k, m.get k = m'.get k) : m = m' := by
  obtain ⟨l, hl⟩ := m
  obtain ⟨l', hl'⟩ := m'
  congr
  exact hl.ext hl' h

/-! ### Parts of a map -/

/-- Keeps the entries that satisfy the condition. -/
def retain (p : κ → α → Bool) (m : SortedMap κ α) : SortedMap κ α :=
  ⟨m.entries.filter fun e => p e.1 e.2, m.sorted.filter _⟩

@[simp] theorem get_retain (p : κ → α → Bool) (m : SortedMap κ α) (k : κ) :
    (m.retain p).get k = (m.get k).filter fun v => p k v := Assoc.get_filter m.sorted _ k

/-- Tables that agree on the keys that are kept. -/
theorem retain_congr {m m' : SortedMap κ α} {keep : κ → Bool}
    (h : ∀ k, keep k = true → m.get k = m'.get k) :
    m.retain (fun k _ => keep k) = m'.retain fun k _ => keep k := by
  refine ext fun k => ?_
  rw [get_retain, get_retain]
  cases hkeep : keep k with
  | true => rw [h k hkeep]
  | false => cases m.get k <;> cases m'.get k <;> rfl

theorem erase_eq_self_iff {k : κ} {m : SortedMap κ α} : m.erase k = m ↔ m.get k = none := by
  constructor
  · intro h
    rw [← h, get_erase, if_pos rfl]
  · intro h
    refine ext fun j => ?_
    rw [get_erase]
    split
    · rename_i hj
      rw [hj, h]
    · rfl

end SortedMap
end Suture.Foundation
