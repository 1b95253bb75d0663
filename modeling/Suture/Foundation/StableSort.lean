import Mathlib.Order.Lattice
import Mathlib.Data.List.Sort

/-!
# Stable sorting

An ascending list, sorted again by a key, is in the lexicographic order of key and
element. Two such lists with the same elements are equal. A fold over a list is that over the
sorted list when its step does not mind the pairs that change places.
-/

namespace Suture.Foundation
set_option autoImplicit false

universe u
variable {α : Type u} [LinearOrder α] {key : α → Nat}

/-- Smaller key, or the same key and a smaller element. -/
def LexLt (key : α → Nat) (a b : α) : Prop := key a < key b ∨ (key a = key b ∧ a < b)

theorem LexLt.asymm {a b : α} (h : LexLt key a b) : ¬ LexLt key b a := by
  rintro (h' | ⟨heq', h'⟩) <;> rcases h with h | ⟨heq, h⟩
  · omega
  · omega
  · omega
  · exact lt_asymm h h'

theorem pair_sublist {l : List α} (hl : l.Pairwise (· < ·)) {a b : α} (hab : a < b) (ha : a ∈ l)
    (hb : b ∈ l) : [a, b].Sublist l := by
  induction hl with
  | nil => cases ha
  | @cons c l hhead _ ih =>
    rcases List.mem_cons.mp ha with rfl | ha
    · have hb := (List.mem_cons.mp hb).resolve_left hab.ne'
      exact .cons_cons _ (List.singleton_sublist.mpr hb)
    · have hb := (List.mem_cons.mp hb).resolve_left fun h => lt_asymm hab (h ▸ hhead a ha)
      exact .cons _ (ih ha hb)

omit [LinearOrder α] in
theorem not_pair_swap {l : List α} (hl : l.Nodup) {a b : α} (hab : [a, b].Sublist l) :
    ¬ [b, a].Sublist l := by
  induction l with
  | nil => cases hab
  | cons c l ih =>
    obtain ⟨hc, hl⟩ := List.nodup_cons.mp hl
    intro hba
    have hmem : ∀ {x y : α}, [x, y].Sublist l → x ∈ l ∧ y ∈ l := fun h =>
      ⟨h.subset (by simp), h.subset (by simp)⟩
    cases hab with
    | cons _ hab =>
      cases hba with
      | cons _ hba => exact ih hl hab hba
      | cons_cons _ _ => exact hc (hmem hab).2
    | cons_cons _ hb =>
      have hb := List.singleton_sublist.mp hb
      cases hba with
      | cons _ hba => exact hc (hmem hba).2
      | cons_cons _ _ => exact hc hb

theorem insertionSort_lex {l : List α} (hl : l.Pairwise (· < ·)) :
    (l.insertionSort fun x y => key x ≤ key y).Pairwise (LexLt key) := by
  have htotal : Std.Total fun x y : α => key x ≤ key y := ⟨fun _ _ => Nat.le_total _ _⟩
  have htrans : IsTrans α fun x y => key x ≤ key y := ⟨fun _ _ _ => Nat.le_trans⟩
  have hperm := List.perm_insertionSort (fun x y => key x ≤ key y) l
  have hnodup := hperm.nodup_iff.mpr (hl.imp ne_of_lt)
  rw [List.pairwise_iff_forall_sublist]
  intro a b hab
  have hle := List.pairwise_iff_forall_sublist.mp (List.pairwise_insertionSort _ l) hab
  rcases Nat.lt_or_eq_of_le hle with hlt | heq
  · exact .inl hlt
  · have ha : a ∈ l := hperm.mem_iff.mp (hab.subset (by simp))
    have hb : b ∈ l := hperm.mem_iff.mp (hab.subset (by simp))
    rcases lt_trichotomy a b with hlt | rfl | hgt
    · exact .inr ⟨heq, hlt⟩
    · exact absurd hab (not_pair_swap hnodup hab)
    · have hsub := List.pair_sublist_insertionSort (r := fun x y => key x ≤ key y)
        (Nat.le_of_eq heq.symm) (pair_sublist hl hgt hb ha)
      exact absurd hsub (not_pair_swap hnodup hab)

theorem lex_ext {l m : List α} (hl : l.Pairwise (LexLt key)) (hm : m.Pairwise (LexLt key))
    (h : ∀ a, a ∈ l ↔ a ∈ m) : l = m := by
  have hnodup : ∀ {k : List α}, k.Pairwise (LexLt key) → k.Nodup := fun hk =>
    hk.imp fun {a b} hab => by
      rintro rfl
      exact hab.asymm hab
  have hperm : l.Perm m := (List.perm_ext_iff_of_nodup (hnodup hl) (hnodup hm)).mpr h
  exact hperm.eq_of_pairwise (fun a b _ _ hab hba => absurd hba hab.asymm) hl hm

/-! ### Folds -/

section Fold
variable {β γ : Type u} {f : γ → β → γ} {r : β → β → Prop} [DecidableRel r]

theorem foldl_orderedInsert {a : β} {l : List β}
    (h : ∀ b ∈ l, ¬ r a b → ∀ s, f (f s a) b = f (f s b) a) (s : γ) :
    (l.orderedInsert r a).foldl f s = l.foldl f (f s a) := by
  induction l generalizing s with
  | nil => rfl
  | cons b l ih =>
    rw [List.orderedInsert_cons]
    split
    · rfl
    · rename_i hab
      rw [List.foldl_cons, ih fun c hc => h c (List.mem_cons_of_mem _ hc), List.foldl_cons,
        h b (List.mem_cons_self ..) hab]

/-- Only pairs in the wrong order change places. -/
theorem foldl_insertionSort {l : List β}
    (h : l.Pairwise fun a b => ¬ r a b → ∀ s, f (f s a) b = f (f s b) a) (s : γ) :
    (l.insertionSort r).foldl f s = l.foldl f s := by
  induction h generalizing s with
  | nil => rfl
  | @cons a l hhead _ ih =>
    rw [List.insertionSort_cons, foldl_orderedInsert, ih, List.foldl_cons]
    intro b hb
    exact hhead b (List.mem_insertionSort r |>.mp hb)

end Fold
end Suture.Foundation
