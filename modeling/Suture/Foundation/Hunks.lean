import Mathlib.Order.Lattice
import Mathlib.Tactic.ByContra

/-!
# Two sets of hunks over one base

Each side edits a base of numbered lines by hunks, kept by the line they start at.
A walk over the base takes the hunks of both sides where they start together and
jumps over the lines a taken hunk deletes; a hunk of the other side that starts
inside is never met. `Nested` says when nothing is lost that way.
-/

namespace Suture.Foundation
set_option autoImplicit false

universe u
variable {α : Type u}

structure Hunk (α : Type u) where
  deleted : Nat
  inserted : List α
deriving DecidableEq

abbrev Hunks (α : Type u) := Nat → Option (Hunk α)

/-- Between two hunks of one side a line is kept. -/
def Separated (H : Hunks α) : Prop :=
  ∀ s a s' b, H s = some a → H s' = some b → s < s' → s + a.deleted < s'

/-- Line `i` is deleted by a hunk of `H`. -/
def Deletes (H : Hunks α) (i : Nat) : Prop :=
  ∃ s a, H s = some a ∧ s ≤ i ∧ i < s + a.deleted

section Walk
variable [DecidableEq α] (ours theirs : Hunks α)

/-- How far the walk jumps at a line; where both sides insert the same, ours decides. -/
def span (s : Nat) : Nat :=
  match ours s, theirs s with
  | none, none => 0
  | some a, none => a.deleted
  | none, some b => b.deleted
  | some a, some b => if a.inserted = b.inserted then a.deleted else max a.deleted b.deleted

/-- A line is reached unless the walk jumps over it from an earlier line it reached. -/
def Reached (p : Nat) : Prop := ∀ s, s < p → Reached s → s + span ours theirs s ≤ p
termination_by p

/-- Both sides insert at a reached line, and not the same. -/
def Clash : Prop :=
  ∃ s a b, Reached ours theirs s ∧ ours s = some a ∧ theirs s = some b ∧ a.inserted ≠ b.inserted

/-- No hunk with inserted lines is jumped over. -/
def AllReached : Prop :=
  ∀ s a, ours s = some a ∨ theirs s = some a → a.inserted ≠ [] → Reached ours theirs s

/-- No line that the walk keeps is deleted by either side. -/
def KeepsNoDeleted : Prop :=
  ∀ i, Reached ours theirs i → span ours theirs i = 0 → ¬ Deletes ours i ∧ ¬ Deletes theirs i

/-- A hunk `b` that starts inside `a` inserts nothing and ends inside it. -/
def Inside (H H' : Hunks α) : Prop :=
  ∀ s a s' b, H s = some a → H' s' = some b → s < s' → s' < s + a.deleted →
    b.inserted = [] ∧ s' + b.deleted ≤ s + a.deleted

/-- Hunks of the two sides overlap only where that is harmless. -/
structure Nested : Prop where
  oursInside : Inside ours theirs
  theirsInside : Inside theirs ours
  same : ∀ s a b, ours s = some a → theirs s = some b → a.inserted = b.inserted →
    b.deleted ≤ a.deleted

variable {ours theirs}

theorem reached_iff (p : Nat) :
    Reached ours theirs p ↔
      ∀ s, s < p → Reached ours theirs s → s + span ours theirs s ≤ p := by
  rw [Reached]

theorem reached_zero : Reached ours theirs 0 := by
  rw [reached_iff]
  exact fun s hs => absurd hs (Nat.not_lt_zero s)

/-- From a reached line the walk comes next to the end of its jump, or one line on. -/
theorem reached_next {i : Nat} (hi : Reached ours theirs i) :
    Reached ours theirs (i + max 1 (span ours theirs i)) := by
  rw [reached_iff]
  intro s hs hr
  rcases Nat.lt_trichotomy s i with hlt | rfl | hgt
  · have := (reached_iff i).mp hi s hlt hr
    omega
  · omega
  · have := (reached_iff s).mp hr i hgt hi
    omega

theorem not_reached_of_jump {i s : Nat} (hi : Reached ours theirs i) (his : i < s)
    (hs : s < i + span ours theirs i) : ¬ Reached ours theirs s := by
  intro hr
  have := (reached_iff s).mp hr i his hi
  omega

/-- What is not reached lies inside a hunk taken at a reached line. -/
theorem exists_jump {s : Nat} (hs : ¬ Reached ours theirs s) :
    ∃ r c, Reached ours theirs r ∧ (ours r = some c ∨ theirs r = some c) ∧ r < s ∧
      s < r + c.deleted ∧ r + c.deleted = r + span ours theirs r := by
  rw [reached_iff] at hs
  push Not at hs
  obtain ⟨r, hrs, hr, hlt⟩ := hs
  unfold span at hlt
  split at hlt
  · omega
  · rename_i a ha hb
    exact ⟨r, a, hr, .inl ha, hrs, hlt, by rw [span, ha, hb]⟩
  · rename_i b ha hb
    exact ⟨r, b, hr, .inr hb, hrs, hlt, by rw [span, ha, hb]⟩
  · rename_i a b ha hb
    split at hlt
    · rename_i heq
      exact ⟨r, a, hr, .inl ha, hrs, hlt, by rw [span, ha, hb]; simp [heq]⟩
    · rename_i hne
      rcases Nat.le_total a.deleted b.deleted with hle | hle
      · rw [max_eq_right hle] at hlt
        exact ⟨r, b, hr, .inr hb, hrs, hlt, by rw [span, ha, hb]; simp [hne, hle]⟩
      · rw [max_eq_left hle] at hlt
        exact ⟨r, a, hr, .inl ha, hrs, hlt, by rw [span, ha, hb]; simp [hne, hle]⟩

theorem le_span_ours {s : Nat} {a : Hunk α} (ha : ours s = some a) :
    a.deleted ≤ span ours theirs s := by
  unfold span
  rw [ha]
  cases theirs s with
  | none => exact Nat.le_refl _
  | some b =>
    simp only
    split
    · exact Nat.le_refl _
    · exact le_max_left _ _

theorem Nested.le_span_theirs (h : Nested ours theirs) {s : Nat} {b : Hunk α}
    (hb : theirs s = some b) : b.deleted ≤ span ours theirs s := by
  unfold span
  rw [hb]
  cases ha : ours s with
  | none => exact Nat.le_refl _
  | some a =>
    simp only
    split
    · rename_i heq
      exact h.same s a b ha hb heq
    · exact le_max_right _ _

theorem Nested.allReached (h : Nested ours theirs) (ho : Separated ours) (ht : Separated theirs) :
    AllReached ours theirs := by
  intro s b hb hne
  by_contra hs
  obtain ⟨r, c, _, hc, hrs, hlt, _⟩ := exists_jump hs
  rcases hb with hb | hb <;> rcases hc with hc | hc
  · have := ho r c s b hc hb hrs
    omega
  · exact hne (h.theirsInside r c s b hc hb hrs hlt).1
  · exact hne (h.oursInside r c s b hc hb hrs hlt).1
  · have := ht r c s b hc hb hrs
    omega

/-- A side whose hunks the walk takes in full loses no deletion. -/
theorem not_deletes_of_span {H : Hunks α} (hspan : ∀ s a, H s = some a →
    a.deleted ≤ span ours theirs s)
    (hjump : ∀ r c s a, ours r = some c ∨ theirs r = some c → H s = some a → r < s →
      s < r + c.deleted → s + a.deleted ≤ r + c.deleted)
    {i : Nat} (hi : Reached ours theirs i) (h0 : span ours theirs i = 0) : ¬ Deletes H i := by
  rintro ⟨s, a, ha, hsi, hia⟩
  have hle := hspan s a ha
  by_cases hs : Reached ours theirs s
  · rcases Nat.eq_or_lt_of_le hsi with rfl | hlt
    · omega
    · have := (reached_iff i).mp hi s hlt hs
      omega
  · obtain ⟨r, c, hr, hc, hrs, hlt, heq⟩ := exists_jump hs
    have := hjump r c s a hc ha hrs hlt
    exact not_reached_of_jump hr (by omega) (by omega) hi

theorem Nested.keepsNoDeleted (h : Nested ours theirs) (ho : Separated ours)
    (ht : Separated theirs) : KeepsNoDeleted ours theirs := by
  intro i hi h0
  constructor
  · refine not_deletes_of_span (fun s a ha => le_span_ours ha) (fun r c s a hc ha hrs hlt => ?_)
      hi h0
    rcases hc with hc | hc
    · have := ho r c s a hc ha hrs
      omega
    · exact (h.theirsInside r c s a hc ha hrs hlt).2
  · refine not_deletes_of_span (fun s a ha => h.le_span_theirs ha) (fun r c s a hc ha hrs hlt => ?_)
      hi h0
    rcases hc with hc | hc
    · exact (h.oursInside r c s a hc ha hrs hlt).2
    · have := ht r c s a hc ha hrs
      omega

omit [DecidableEq α] in
/-- Where a jump ends no hunk of its side starts. -/
theorem Separated.none_at_end {H : Hunks α} (h : Separated H) {s : Nat} {a : Hunk α}
    (ha : H s = some a) {e : Nat} (hse : s < e) (he : e ≤ s + a.deleted) : H e = none := by
  cases hb : H e with
  | none => rfl
  | some b =>
    have := h s a e b ha hb hse
    omega

theorem KeepsNoDeleted.no_hunk (h : KeepsNoDeleted ours theirs) {e : Nat}
    (he : Reached ours theirs e) (ho : ours e = none) (ht : theirs e = none) :
    ¬ Deletes ours e ∧ ¬ Deletes theirs e := h e he (by rw [span, ho, ht])

theorem span_of_not_clash (h : ¬ Clash ours theirs) {s : Nat} {a : Hunk α}
    (hs : Reached ours theirs s) (ha : ours s = some a) : span ours theirs s = a.deleted := by
  unfold span
  rw [ha]
  cases hb : theirs s with
  | none => rfl
  | some b =>
    have heq : a.inserted = b.inserted := by
      by_contra hne
      exact h ⟨s, a, b, hs, ha, hb, hne⟩
    simp [heq]

theorem reached_end {s d : Nat} (hs : Reached ours theirs s) (hd : span ours theirs s = d)
    (hpos : 0 < d) : Reached ours theirs (s + d) := by
  have := reached_next hs
  rwa [hd, max_eq_right hpos] at this

/-- A hunk that is jumped over ends inside the jump, or the rest of it would be kept. -/
theorem jumped_end (hk : KeepsNoDeleted ours theirs) (ho : Separated ours) (ht : Separated theirs)
    {r s : Nat} {c a : Hunk α} (hr : Reached ours theirs r)
    (hca : (ours r = some c ∧ theirs s = some a) ∨ (theirs r = some c ∧ ours s = some a))
    (hc : span ours theirs r = c.deleted) (hrs : r < s) (hs : s < r + c.deleted) :
    s + a.deleted ≤ r + c.deleted := by
  by_contra hlt
  have he := reached_end hr hc (by omega)
  rcases hca with ⟨hc, ha⟩ | ⟨hc, ha⟩
  · exact (hk.no_hunk he (ho.none_at_end hc (by omega) (by omega))
      (ht.none_at_end ha (by omega) (by omega))).2 ⟨s, a, ha, by omega, by omega⟩
  · exact (hk.no_hunk he (ho.none_at_end ha (by omega) (by omega))
      (ht.none_at_end hc (by omega) (by omega))).1 ⟨s, a, ha, by omega, by omega⟩

/-- Where the other side has a hunk inside, a hunk starts at a reached line. -/
theorem reached_of_inside (hk : KeepsNoDeleted ours theirs) (ho : Separated ours)
    (ht : Separated theirs) {s s' : Nat} {a b : Hunk α}
    (hab : (ours s = some a ∧ theirs s' = some b) ∨ (theirs s = some a ∧ ours s' = some b))
    (hss : s < s') (hs' : s' < s + a.deleted) : Reached ours theirs s := by
  by_contra hs
  obtain ⟨r, c, hr, hc, hrs, hlt, heq⟩ := exists_jump hs
  have hspan : span ours theirs r = c.deleted := by omega
  rcases hab with ⟨ha, hb⟩ | ⟨ha, hb⟩ <;> rcases hc with hc | hc
  · have := ho r c s a hc ha hrs
    omega
  · have := jumped_end hk ho ht hr (.inr ⟨hc, ha⟩) hspan hrs hlt
    have := ht r c s' b hc hb (by omega)
    omega
  · have := jumped_end hk ho ht hr (.inl ⟨hc, ha⟩) hspan hrs hlt
    have := ho r c s' b hc hb (by omega)
    omega
  · have := ht r c s a hc ha hrs
    omega

theorem same_deleted_le (hclash : ¬ Clash ours theirs) (hk : KeepsNoDeleted ours theirs)
    (ho : Separated ours) (ht : Separated theirs) {s : Nat} {a b : Hunk α}
    (hs : Reached ours theirs s) (ha : ours s = some a) (hb : theirs s = some b) :
    b.deleted ≤ a.deleted := by
  by_contra hlt
  have hspan := span_of_not_clash hclash hs ha
  rcases Nat.eq_zero_or_pos a.deleted with h0 | hpos
  · exact (hk s hs (hspan.trans h0)).2 ⟨s, b, hb, Nat.le_refl _, by omega⟩
  · exact (hk.no_hunk (reached_end hs hspan hpos) (ho.none_at_end ha (by omega) (by omega))
      (ht.none_at_end hb (by omega) (by omega))).2 ⟨s, b, hb, by omega, by omega⟩

theorem nested_of_keeps (hclash : ¬ Clash ours theirs) (hall : AllReached ours theirs)
    (hk : KeepsNoDeleted ours theirs) (ho : Separated ours) (ht : Separated theirs) :
    Nested ours theirs where
  oursInside s a s' b ha hb hss hs' := by
    have hs := reached_of_inside hk ho ht (.inl ⟨ha, hb⟩) hss hs'
    have hspan := span_of_not_clash hclash hs ha
    refine ⟨?_, jumped_end hk ho ht hs (.inl ⟨ha, hb⟩) hspan hss hs'⟩
    by_contra hne
    exact not_reached_of_jump hs hss (hspan ▸ hs') (hall s' b (.inr hb) hne)
  theirsInside s a s' b ha hb hss hs' := by
    have hs := reached_of_inside hk ho ht (.inr ⟨ha, hb⟩) hss hs'
    cases hc : ours s with
    | none =>
      have hspan : span ours theirs s = a.deleted := by rw [span, hc, ha]
      refine ⟨?_, jumped_end hk ho ht hs (.inr ⟨ha, hb⟩) hspan hss hs'⟩
      by_contra hne
      exact not_reached_of_jump hs hss (hspan ▸ hs') (hall s' b (.inl hb) hne)
    | some c =>
      have hle := same_deleted_le hclash hk ho ht hs hc ha
      have := ho s c s' b hc hb hss
      omega
  same s a b ha hb _ := by
    refine same_deleted_le hclash hk ho ht ?_ ha hb
    by_contra hs
    obtain ⟨r, c, _, hc, hrs, hlt, _⟩ := exists_jump hs
    rcases hc with hc | hc
    · have := ho r c s a hc ha hrs
      omega
    · have := ht r c s b hc hb hrs
      omega

/-- What the walk loses, in terms of the hunks alone. With a clash only inserted lines count. -/
theorem nothing_lost_iff (ho : Separated ours) (ht : Separated theirs) :
    (AllReached ours theirs ∧ (¬ Clash ours theirs → KeepsNoDeleted ours theirs)) ↔
      ((Clash ours theirs → AllReached ours theirs) ∧
        (¬ Clash ours theirs → Nested ours theirs)) := by
  constructor
  · rintro ⟨hall, hk⟩
    exact ⟨fun _ => hall, fun hclash => nested_of_keeps hclash hall (hk hclash) ho ht⟩
  · rintro ⟨hall, hn⟩
    refine ⟨?_, fun hclash => (hn hclash).keepsNoDeleted ho ht⟩
    by_cases hclash : Clash ours theirs
    · exact hall hclash
    · exact (hn hclash).allReached ho ht

end Walk
end Suture.Foundation
