import Mathlib.Data.Finset.Card
import Mathlib.Data.Finset.Range
import Mathlib.Tactic.Choose

/-!
# Pairing two lists by equal keys

Each place on the right goes, one after the other, to the first free place on the left that
has the same key. So the places of a key are paired in their order until one side has no more
of them. A place without a key is never paired.
-/

namespace Suture.Foundation
set_option autoImplicit false

universe u
variable {κ : Type u} {left right : List (Option κ)} {M : Nat → Nat → Prop}

/-- What the pairing of two lists of keys has paired. -/
structure Pairing (left right : List (Option κ)) (M : Nat → Nat → Prop) : Prop where
  keys : ∀ {i j}, M i j → ∃ k, left[i]? = some (some k) ∧ right[j]? = some (some k)
  left_unique : ∀ {i i' j}, M i j → M i' j → i = i'
  right_unique : ∀ {i j j'}, M i j → M i j' → j = j'
  mono : ∀ {i i' j j'}, M i j → M i' j' → left[i]? = left[i']? → j < j' → i < i'
  /-- A place on the right that is not paired came too late. -/
  late : ∀ {i j k}, left[i]? = some (some k) → right[j]? = some (some k) → (∀ i', ¬ M i' j) →
    ∃ j', j' < j ∧ M i j'
  /-- The first free place was taken. -/
  first : ∀ {i i' j}, M i' j → i < i' → left[i]? = left[i']? → ∃ j', M i j'

namespace Pairing

theorem nil (left : List (Option κ)) : Pairing left [] fun _ _ => False where
  keys := False.elim
  left_unique := False.elim
  right_unique := False.elim
  mono := False.elim
  late _ hj := nomatch hj
  first := False.elim

theorem lt_right (h : Pairing left right M) {i j : Nat} (hM : M i j) : j < right.length := by
  obtain ⟨k, -, hj⟩ := h.keys hM
  exact (List.getElem?_eq_some_iff.mp hj).1

/-- One place more on the right, and no free place for it. -/
theorem skip (h : Pairing left right M) {key : Option κ}
    (hfull : ∀ i k, left[i]? = some (some k) → key = some k → ∃ j, M i j) :
    Pairing left (right ++ [key]) M where
  keys hM := by
    obtain ⟨k, hi, hj⟩ := h.keys hM
    exact ⟨k, hi, (List.getElem?_append_left (h.lt_right hM)).trans hj⟩
  left_unique := h.left_unique
  right_unique := h.right_unique
  mono := h.mono
  late {i j k} hi hj hno := by
    have hlen := (List.getElem?_eq_some_iff.mp hj).1
    rw [List.length_append, List.length_singleton] at hlen
    rcases Nat.lt_or_ge j right.length with hlt | hge
    · exact h.late hi ((List.getElem?_append_left hlt).symm.trans hj) hno
    · obtain rfl : j = right.length := by omega
      rw [List.getElem?_concat_length, Option.some.injEq] at hj
      obtain ⟨j', hM⟩ := hfull i k hi hj
      exact ⟨j', h.lt_right hM, hM⟩
  first := h.first

/-- One place more on the right, and the first free place goes to it. -/
theorem add (h : Pairing left right M) {idx : Nat} {k : κ} (hidx : left[idx]? = some (some k))
    (hfree : ∀ j, ¬ M idx j) (hbefore : ∀ i < idx, left[i]? = left[idx]? → ∃ j, M i j) :
    Pairing left (right ++ [some k]) fun i j => M i j ∨ i = idx ∧ j = right.length where
  keys hM := by
    rcases hM with hM | ⟨rfl, rfl⟩
    · obtain ⟨k', hi, hj⟩ := h.keys hM
      exact ⟨k', hi, (List.getElem?_append_left (h.lt_right hM)).trans hj⟩
    · exact ⟨k, hidx, List.getElem?_concat_length ..⟩
  left_unique hM hM' := by
    rcases hM with hM | ⟨rfl, rfl⟩ <;> rcases hM' with hM' | ⟨rfl, hj⟩
    · exact h.left_unique hM hM'
    · have := h.lt_right hM
      omega
    · have := h.lt_right hM'
      omega
    · rfl
  right_unique hM hM' := by
    rcases hM with hM | ⟨rfl, rfl⟩ <;> rcases hM' with hM' | ⟨hi, rfl⟩
    · exact h.right_unique hM hM'
    · exact absurd (hi ▸ hM) (hfree _)
    · exact absurd hM' (hfree _)
    · rfl
  mono {i i' j j'} hM hM' hkey hlt := by
    rcases hM with hM | ⟨rfl, rfl⟩ <;> rcases hM' with hM' | ⟨rfl, rfl⟩
    · exact h.mono hM hM' hkey hlt
    · rcases Nat.lt_trichotomy i i' with hii | rfl | hii
      · exact hii
      · exact absurd hM (hfree _)
      · obtain ⟨j'', hM''⟩ := h.first hM hii hkey.symm
        exact absurd hM'' (hfree _)
    · have := h.lt_right hM'
      omega
    · omega
  late {i j k'} hi hj hno := by
    have hlen := (List.getElem?_eq_some_iff.mp hj).1
    rw [List.length_append, List.length_singleton] at hlen
    rcases Nat.lt_or_ge j right.length with hlt | hge
    · obtain ⟨j', hlt', hM⟩ := h.late hi ((List.getElem?_append_left hlt).symm.trans hj) fun i' hM =>
        hno i' (.inl hM)
      exact ⟨j', hlt', .inl hM⟩
    · obtain rfl : j = right.length := by omega
      exact absurd (.inr ⟨rfl, rfl⟩) (hno idx)
  first {i i' j} hM hlt hkey := by
    rcases hM with hM | ⟨rfl, rfl⟩
    · obtain ⟨j', hM'⟩ := h.first hM hlt hkey
      exact ⟨j', .inl hM'⟩
    · obtain ⟨j', hM'⟩ := hbefore i hlt hkey
      exact ⟨j', .inl hM'⟩

theorem paired_before (h : Pairing left right M) {i j j' : Nat} (hj : right[j]? = right[j']?)
    (hlt : j < j') (hM : M i j') : ∃ i', i' < i ∧ M i' j := by
  obtain ⟨k, hi, hj'⟩ := h.keys hM
  by_contra hno
  have hnone : ∀ i', ¬ M i' j := by
    intro i' hM'
    obtain ⟨k', hi', hk'⟩ := h.keys hM'
    have hkk : left[i']? = left[i]? := by rw [hi, hi', ← hk', hj, hj']
    exact hno ⟨i', h.mono hM' hM hkk hlt, hM'⟩
  obtain ⟨j'', hlt', hM''⟩ := h.late hi (hj.trans hj') hnone
  have := h.right_unique hM hM''
  omega

/-- When the keys on the left are the first ones on the right, each place is paired with
the same place. -/
theorem diagonal (h : Pairing left right M) (hstart : left <+: right) {i : Nat} {k : κ}
    (hi : left[i]? = some (some k)) : M i i := by
  have hsame : ∀ {n : Nat}, n < left.length → right[n]? = left[n]? := by
    intro n hn
    obtain ⟨rest, rfl⟩ := hstart
    exact List.getElem?_append_left hn
  have hlt : ∀ {n : Nat} {v : Option κ}, left[n]? = some v → n < left.length :=
    fun hn => (List.getElem?_eq_some_iff.mp hn).1
  induction i using Nat.strongRecOn generalizing k with
  | ind i ih =>
    have hright := (hsame (hlt hi)).trans hi
    -- an earlier place of this key is paired with the same place, so not with this one
    have hearlier : ∀ {j}, j < i → M i j → False := by
      intro j hji hM
      obtain ⟨k', hk', hj⟩ := h.keys hM
      have hj' := (hsame (Nat.lt_trans hji (hlt hi))).symm.trans hj
      have := h.left_unique hM (ih j hji hj')
      omega
    by_contra hno
    obtain ⟨i', hM⟩ : ∃ i', M i' i := by
      by_contra hnone
      obtain ⟨j, hji, hM⟩ := h.late hi hright fun i' hM => hnone ⟨i', hM⟩
      exact hearlier hji hM
    obtain ⟨k', hk', hj⟩ := h.keys hM
    obtain rfl : k' = k := by simpa [hright] using hj.symm
    rcases Nat.lt_trichotomy i' i with hlt' | rfl | hgt
    · have := h.right_unique hM (ih i' hlt' hk')
      omega
    · exact hno hM
    · obtain ⟨j, hM'⟩ := h.first hM hgt (hi.trans hk'.symm)
      rcases Nat.lt_trichotomy j i with hji | rfl | hij
      · exact hearlier hji hM'
      · exact hno hM'
      · have := h.mono hM hM' (hk'.trans hi.symm) hij
        omega

/-! ### The places on the right, rearranged -/

section
variable {partner : Nat → Option Nat} {rest : List Nat}

/-- The places on the right in the order of their partners, then those that have none. -/
def arranged (left : List (Option κ)) (partner : Nat → Option Nat) (rest : List Nat) : List Nat :=
  (List.range left.length).filterMap partner ++ rest

theorem mem_paired (h : Pairing left right M) (hpartner : ∀ i j, partner i = some j ↔ M i j)
    {j : Nat} : j ∈ (List.range left.length).filterMap partner ↔ ∃ i, M i j := by
  rw [List.mem_filterMap]
  constructor
  · rintro ⟨i, -, hij⟩
    exact ⟨i, (hpartner i j).mp hij⟩
  · rintro ⟨i, hM⟩
    obtain ⟨k, hi, -⟩ := h.keys hM
    exact ⟨i, List.mem_range.mpr (List.getElem?_eq_some_iff.mp hi).1, (hpartner i j).mpr hM⟩

/-- Places of one key keep their order. -/
theorem arranged_pairwise (h : Pairing left right M) (hpartner : ∀ i j, partner i = some j ↔ M i j)
    (hrest : rest.Pairwise (· < ·)) (hmem : ∀ j, j ∈ rest ↔ j < right.length ∧ ∀ i, ¬ M i j) :
    (arranged left partner rest).Pairwise fun j j' =>
      ∀ k, right[j]? = some (some k) → right[j']? = some (some k) → j < j' := by
  refine List.pairwise_append.mpr ⟨?_, ?_, ?_⟩
  · rw [List.pairwise_filterMap]
    apply List.pairwise_lt_range.imp
    intro i i' hlt j hj j' hj' k hk hk'
    have hM := (hpartner i j).mp hj
    have hM' := (hpartner i' j').mp hj'
    obtain ⟨v, hi, hv⟩ := h.keys hM
    obtain ⟨v', hi', hv'⟩ := h.keys hM'
    have hsame : left[i']? = left[i]? := by rw [hi, hi', ← hv, ← hv', hk, hk']
    rcases Nat.lt_trichotomy j j' with hjj | rfl | hjj
    · exact hjj
    · have := h.left_unique hM hM'
      omega
    · have := h.mono hM' hM hsame hjj
      omega
  · exact hrest.imp fun hlt _ _ _ => hlt
  · intro j hj j' hj' k hk hk'
    obtain ⟨i, hM⟩ := (h.mem_paired hpartner).mp hj
    rcases Nat.lt_trichotomy j j' with hjj | rfl | hjj
    · exact hjj
    · exact absurd hM (((hmem j).mp hj').2 i)
    · obtain ⟨i', -, hM'⟩ := h.paired_before (hk'.trans hk.symm) hjj hM
      exact absurd hM' (((hmem j').mp hj').2 i')

theorem arranged_nodup (h : Pairing left right M) (hpartner : ∀ i j, partner i = some j ↔ M i j)
    (hrest : rest.Pairwise (· < ·)) (hmem : ∀ j, j ∈ rest ↔ j < right.length ∧ ∀ i, ¬ M i j) :
    (arranged left partner rest).Nodup := by
  refine List.nodup_append.mpr ⟨?_, hrest.imp Nat.ne_of_lt, ?_⟩
  · rw [List.Nodup, List.pairwise_filterMap]
    apply List.pairwise_lt_range.imp
    rintro i i' hlt j hij _ hij' rfl
    have := h.left_unique ((hpartner i j).mp hij) ((hpartner i' j).mp hij')
    omega
  · rintro j hj j' hj' rfl
    obtain ⟨i, hM⟩ := (h.mem_paired hpartner).mp hj
    exact ((hmem j).mp hj').2 i hM

/-- Each place on the right is there once. -/
theorem arranged_perm (h : Pairing left right M) (hpartner : ∀ i j, partner i = some j ↔ M i j)
    (hrest : rest.Pairwise (· < ·)) (hmem : ∀ j, j ∈ rest ↔ j < right.length ∧ ∀ i, ¬ M i j) :
    (arranged left partner rest).Perm (List.range right.length) := by
  refine (List.perm_ext_iff_of_nodup (h.arranged_nodup hpartner hrest hmem) List.nodup_range).mpr ?_
  intro j
  unfold arranged
  rw [List.mem_append, h.mem_paired hpartner, hmem, List.mem_range]
  constructor
  · rintro (⟨i, hM⟩ | ⟨hj, -⟩)
    · obtain ⟨k, -, hk⟩ := h.keys hM
      exact (List.getElem?_eq_some_iff.mp hk).1
    · exact hj
  · intro hj
    by_cases hpaired : ∃ i, M i j
    · exact .inl hpaired
    · exact .inr ⟨hj, fun i hM => hpaired ⟨i, hM⟩⟩

end

/-! ### Equal keys in their order -/

section
variable [DecidableEq κ]

/-- How often the key comes before the place. -/
def rank (keys : List (Option κ)) (k : κ) (i : Nat) : Nat := (keys.take i).count (some k)

theorem rank_succ {keys : List (Option κ)} {k : κ} {i : Nat} (hi : keys[i]? = some (some k)) :
    rank keys k (i + 1) = rank keys k i + 1 := by
  unfold rank
  rw [List.take_add_one, hi, List.count_append]
  simp

theorem rank_mono (keys : List (Option κ)) (k : κ) {i j : Nat} (h : i ≤ j) :
    rank keys k i ≤ rank keys k j :=
  (List.take_sublist_take_left h).count_le _

theorem rank_inj {keys : List (Option κ)} {k : κ} {i j : Nat} (hi : keys[i]? = some (some k))
    (hj : keys[j]? = some (some k)) (h : rank keys k i = rank keys k j) : i = j := by
  rcases Nat.lt_trichotomy i j with hlt | heq | hgt
  · have := rank_mono keys k hlt
    rw [rank_succ hi] at this
    omega
  · exact heq
  · have := rank_mono keys k hgt
    rw [rank_succ hj] at this
    omega

theorem rank_eq_card (keys : List (Option κ)) (k : κ) (i : Nat) :
    rank keys k i = ((Finset.range i).filter fun n => keys[n]? = some (some k)).card := by
  induction i with
  | zero => rfl
  | succ i ih =>
    rw [Finset.range_add_one, Finset.filter_insert]
    by_cases hi : keys[i]? = some (some k)
    · rw [if_pos hi, Finset.card_insert_of_notMem (by simp), rank_succ hi, ih]
    · rw [if_neg hi, ← ih]
      unfold rank
      rw [List.take_add_one, List.count_append]
      cases hkey : keys[i]? with
      | none => simp
      | some key =>
        rw [hkey, Option.some.injEq] at hi
        simp [hi]

/-- What is paired has come equally often. -/
theorem rank_eq (h : Pairing left right M) {i j : Nat} {k : κ} (hM : M i j)
    (hi : left[i]? = some (some k)) (hj : right[j]? = some (some k)) :
    rank left k i = rank right k j := by
  have hex : ∀ n, n < i ∧ left[n]? = some (some k) → ∃ m, M n m ∧ m < j := by
    rintro n ⟨hn, hkey⟩
    obtain ⟨m, hm⟩ := h.first hM hn (hkey.trans hi.symm)
    refine ⟨m, hm, ?_⟩
    rcases Nat.lt_trichotomy m j with hlt | rfl | hgt
    · exact hlt
    · have := h.left_unique hm hM
      omega
    · have := h.mono hM hm (hi.trans hkey.symm) hgt
      omega
  choose! f hf using hex
  rw [rank_eq_card, rank_eq_card]
  refine Finset.card_nbij f ?_ ?_ ?_
  · intro n hn
    simp only [Finset.coe_filter, Finset.mem_range, Set.mem_ofPred_eq] at hn ⊢
    obtain ⟨hM', hlt⟩ := hf n hn
    obtain ⟨k', hk, hk'⟩ := h.keys hM'
    obtain rfl : k' = k := by simpa [hn.2] using hk.symm
    exact ⟨hlt, hk'⟩
  · intro n hn n' hn' heq
    simp only [Finset.coe_filter, Finset.mem_range, Set.mem_ofPred_eq] at hn hn'
    have hn'' := (hf n hn).1
    rw [heq] at hn''
    exact h.left_unique hn'' (hf n' hn').1
  · intro m hm
    simp only [Finset.coe_filter, Finset.mem_range, Set.mem_ofPred_eq] at hm
    obtain ⟨n, hn, hM'⟩ := h.paired_before (hm.2.trans hj.symm) hm.1 hM
    obtain ⟨k', hk, hk'⟩ := h.keys hM'
    obtain rfl : k' = k := by simpa [hm.2] using hk'.symm
    refine ⟨n, by simpa using ⟨hn, hk⟩, ?_⟩
    exact h.right_unique (hf n ⟨hn, hk⟩).1 hM'

/-- The places of a key are paired in their order. -/
theorem iff_rank (h : Pairing left right M) (i j : Nat) : M i j ↔
    ∃ k, left[i]? = some (some k) ∧ right[j]? = some (some k) ∧
      rank left k i = rank right k j := by
  constructor
  · intro hM
    obtain ⟨k, hi, hj⟩ := h.keys hM
    exact ⟨k, hi, hj, h.rank_eq hM hi hj⟩
  · rintro ⟨k, hi, hj, hrank⟩
    by_cases hpaired : ∃ i', M i' j
    · obtain ⟨i', hM⟩ := hpaired
      obtain ⟨k', hi', hj'⟩ := h.keys hM
      obtain rfl : k' = k := by simpa [hj] using hj'.symm
      rwa [rank_inj hi hi' (hrank.trans (h.rank_eq hM hi' hj).symm)]
    · obtain ⟨j', hlt, hM⟩ := h.late hi hj fun i' hM => hpaired ⟨i', hM⟩
      obtain ⟨k', hi', hj'⟩ := h.keys hM
      obtain rfl : k' = k := by simpa [hi] using hi'.symm
      have := rank_inj hj hj' (hrank.symm.trans (h.rank_eq hM hi hj'))
      omega

end

end Pairing

theorem eq_range_of_step {l : List Nat} {n : Nat} (hlen : l.length = n)
    (hstep : ∀ i j, l.take i = List.range i → l[i]? = some j → j = i) : l = List.range n := by
  have htake : ∀ i, i ≤ n → l.take i = List.range i := by
    intro i hi
    induction i with
    | zero => rfl
    | succ i ih =>
      have hprev := ih (Nat.le_of_succ_le hi)
      have hget : l[i]? = some l[i] := List.getElem?_eq_getElem (hlen ▸ hi)
      rw [List.take_add_one, hprev, hget, hstep i _ hprev hget, List.range_succ]
      rfl
  rw [← htake n (Nat.le_refl n), ← hlen, List.take_length]

end Suture.Foundation
