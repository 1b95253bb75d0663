import Mathlib.Data.Finset.Card

/-!
# Majorities

More than half of one finite set, as `|N| / 2 + 1` counts it, and how many of one set are sure
to be in any choice from another.
-/

namespace Suture.Foundation
set_option autoImplicit false

universe u
variable {ν : Type u} [DecidableEq ν]

structure IsQuorum (N V : Finset ν) : Prop where
  subset : V ⊆ N
  majority : N.card / 2 + 1 ≤ V.card

theorem IsQuorum.meet {N V W : Finset ν} (hV : IsQuorum N V) (hW : IsQuorum N W) :
    ∃ v, v ∈ V ∧ v ∈ W := by
  by_contra hno
  have hdisj : Disjoint V W := by
    rw [Finset.disjoint_left]
    exact fun v hv hw => hno ⟨v, hv, hw⟩
  have hunion : (V ∪ W).card ≤ N.card :=
    Finset.card_le_card (Finset.union_subset hV.subset hW.subset)
  rw [Finset.card_union_of_disjoint hdisj] at hunion
  have := hV.majority
  have := hW.majority
  omega

/-- `V` has more than half of `N`, and maybe others. -/
def Majority (N : Finset ν) (V : ν → Prop) [DecidablePred V] : Prop :=
  N.card / 2 + 1 ≤ (N.filter V).card

instance (N : Finset ν) (V : ν → Prop) [DecidablePred V] : Decidable (Majority N V) :=
  inferInstanceAs (Decidable (_ ≤ _))

omit [DecidableEq ν] in
theorem Majority.mono {N : Finset ν} {V W : ν → Prop} [DecidablePred V] [DecidablePred W]
    (h : Majority N V) (himp : ∀ v ∈ N, V v → W v) : Majority N W := by
  refine Nat.le_trans h (Finset.card_le_card fun v hv => ?_)
  obtain ⟨hv, hV⟩ := Finset.mem_filter.mp hv
  exact Finset.mem_filter.mpr ⟨hv, himp v hv hV⟩

/-- Of every choice of `a` members of `P` at least `m` are in `X` just when the rest of `P` is
too small to be chosen instead. -/
theorem forall_le_card_inter_iff {P X : Finset ν} {a m : Nat} (ha : a ≤ P.card) :
    (∀ A ⊆ P, a ≤ A.card → m ≤ (A ∩ X).card) ↔ m ≤ a - (P \ X).card := by
  have hsplit : (P \ X).card + (P ∩ X).card = P.card := Finset.card_sdiff_add_card_inter P X
  constructor
  · intro h
    rcases Nat.le_total a (P \ X).card with hle | hge
    · obtain ⟨A, hA, hcard⟩ := Finset.exists_subset_card_eq hle
      have hm := h A (hA.trans Finset.sdiff_subset) (by omega)
      have hnone : A ∩ X = ∅ := by
        ext v
        simp only [Finset.mem_inter, Finset.notMem_empty, iff_false, not_and]
        exact fun hv => (Finset.mem_sdiff.mp (hA hv)).2
      rw [hnone, Finset.card_empty] at hm
      omega
    · obtain ⟨B, hB, hcard⟩ := Finset.exists_subset_card_eq
        (show a - (P \ X).card ≤ (P ∩ X).card by omega)
      have hBX : B ⊆ X := hB.trans Finset.inter_subset_right
      have hdisj : Disjoint (P \ X) B := Finset.sdiff_disjoint.mono_right hBX
      have hm := h (P \ X ∪ B)
        (Finset.union_subset Finset.sdiff_subset (hB.trans Finset.inter_subset_left))
        (by rw [Finset.card_union_of_disjoint hdisj]; omega)
      have hinter : (P \ X ∪ B) ∩ X = B := by
        rw [Finset.union_inter_distrib_right, Finset.sdiff_inter_self, Finset.empty_union]
        exact Finset.inter_eq_left.mpr hBX
      rwa [hinter, hcard] at hm
  · intro hm A hA hcard
    have hout : (A \ X).card ≤ (P \ X).card :=
      Finset.card_le_card (Finset.sdiff_subset_sdiff hA (Finset.Subset.refl X))
    have hsum : (A \ X).card + (A ∩ X).card = A.card := Finset.card_sdiff_add_card_inter A X
    omega

end Suture.Foundation
