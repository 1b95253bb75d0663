import Mathlib.Order.Lattice
import Mathlib.Data.List.Basic

/-!
# Sets as ascending lists
-/

namespace Suture.Foundation
set_option autoImplicit false

universe u
variable {α : Type u} [LinearOrder α]

/-- A finite set, kept as the list of its elements in ascending order. -/
structure SortedSet (α : Type u) [LinearOrder α] where
  elems : List α
  sorted : elems.Pairwise (· < ·)
deriving DecidableEq

namespace SortedSet

instance : Membership α (SortedSet α) := ⟨fun s a => a ∈ s.elems⟩

instance (a : α) (s : SortedSet α) : Decidable (a ∈ s) := inferInstanceAs (Decidable (a ∈ s.elems))

theorem mem_def {a : α} {s : SortedSet α} : a ∈ s ↔ a ∈ s.elems := Iff.rfl

def empty : SortedSet α := ⟨[], .nil⟩

def insertElem (a : α) : List α → List α
  | [] => [a]
  | b :: rest => if a < b then a :: b :: rest else if a = b then b :: rest else b :: insertElem a rest

theorem mem_insertElem {a b : α} {l : List α} : b ∈ insertElem a l ↔ b = a ∨ b ∈ l := by
  induction l with
  | nil => simp [insertElem]
  | cons c rest ih =>
    rw [insertElem]
    split
    · exact List.mem_cons
    split
    · rename_i hac
      rw [hac]
      simp
    · rw [List.mem_cons, ih, List.mem_cons]
      exact or_left_comm

theorem sorted_insertElem {a : α} {l : List α} (h : l.Pairwise (· < ·)) :
    (insertElem a l).Pairwise (· < ·) := by
  induction h with
  | nil => exact .cons (by simp) .nil
  | @cons b rest hhead hrest ih =>
    rw [insertElem]
    split
    · rename_i hlt
      refine .cons (fun c hc => ?_) (.cons hhead hrest)
      rcases List.mem_cons.mp hc with rfl | hc
      · exact hlt
      · exact hlt.trans (hhead c hc)
    split
    · exact .cons hhead hrest
    · rename_i hnlt hne
      refine .cons (fun c hc => ?_) ih
      rcases mem_insertElem.mp hc with rfl | hc
      · exact lt_of_le_of_ne (le_of_not_gt hnlt) (Ne.symm hne)
      · exact hhead c hc

def insert (a : α) (s : SortedSet α) : SortedSet α := ⟨insertElem a s.elems, sorted_insertElem s.sorted⟩

def ofList (l : List α) : SortedSet α := l.foldl (fun s a => s.insert a) empty

def inter (s t : SortedSet α) : SortedSet α :=
  ⟨s.elems.filter fun a => decide (a ∈ t), s.sorted.filter _⟩

@[simp] theorem not_mem_empty (a : α) : a ∉ (empty : SortedSet α) := List.not_mem_nil

@[simp] theorem mem_insert {a b : α} {s : SortedSet α} : b ∈ s.insert a ↔ b = a ∨ b ∈ s :=
  mem_insertElem

@[simp] theorem mem_inter {a : α} {s t : SortedSet α} : a ∈ s.inter t ↔ a ∈ s ∧ a ∈ t := by
  rw [mem_def, inter, List.mem_filter, decide_eq_true_eq]
  rfl

theorem mem_foldl_insert {a : α} {l : List α} {s : SortedSet α} :
    a ∈ l.foldl (fun s a => s.insert a) s ↔ a ∈ l ∨ a ∈ s := by
  induction l generalizing s with
  | nil => simp
  | cons b l ih => rw [List.foldl_cons, ih, mem_insert, List.mem_cons, or_left_comm, or_assoc]

@[simp] theorem mem_ofList {a : α} {l : List α} : a ∈ ofList l ↔ a ∈ l := by
  simp [ofList, mem_foldl_insert]

theorem nodup (s : SortedSet α) : s.elems.Nodup := s.sorted.imp ne_of_lt

/-- Sets with the same elements are the same list. -/
theorem ext {s t : SortedSet α} (h : ∀ a, a ∈ s ↔ a ∈ t) : s = t := by
  obtain ⟨l, hl⟩ := s
  obtain ⟨m, hm⟩ := t
  congr
  have hperm : l.Perm m := (List.perm_ext_iff_of_nodup (hl.imp ne_of_lt) (hm.imp ne_of_lt)).mpr h
  exact hperm.eq_of_pairwise (fun a b _ _ hab hba => absurd hab (lt_asymm hba)) hl hm

def erase (a : α) (s : SortedSet α) : SortedSet α :=
  ⟨s.elems.filter fun b => decide (b ≠ a), s.sorted.filter _⟩

@[simp] theorem mem_erase {a b : α} {s : SortedSet α} : b ∈ s.erase a ↔ b ∈ s ∧ b ≠ a := by
  rw [mem_def, erase, List.mem_filter, decide_eq_true_eq]
  rfl

end SortedSet
end Suture.Foundation
