import Mathlib.Data.List.Basic

/-!
# Lists read page by page

A page is some items and, where there are more, the place to go on from. A list that stands
still is cut into windows: `fetch` rows are looked at, `keep` of them are given out, and the
next window starts `step` further.
-/

namespace Suture.Foundation
set_option autoImplicit false

variable {α κ ι : Type}

/-- The pages from a place on come to an end, and these are their items. -/
inductive Followed (page : κ → List α × Option κ) : κ → List α → Prop where
  | last {k : κ} {items : List α} (h : page k = (items, none)) : Followed page k items
  | next {k k' : κ} {items rest : List α} (h : page k = (items, some k'))
    (hrest : Followed page k' rest) : Followed page k (items ++ rest)

namespace Followed
variable {page : κ → List α × Option κ} {k : κ} {items items' : List α}

theorem unique (h : Followed page k items) (h' : Followed page k items') : items = items' := by
  induction h generalizing items' with
  | last hpage =>
    cases h' with
    | last hpage' => exact congrArg Prod.fst (hpage.symm.trans hpage')
    | next hpage' _ => cases hpage.symm.trans hpage'
  | next hpage _ ih =>
    cases h' with
    | last hpage' => cases hpage.symm.trans hpage'
    | next hpage' hrest' =>
      cases hpage.symm.trans hpage'
      rw [ih hrest']

/-- Pages that all point to one more have no end. -/
theorem absurd_of_endless (P : κ → Prop) (hP : ∀ k, P k → ∃ k', (page k).2 = some k' ∧ P k')
    (h : Followed page k items) (hk : P k) : False := by
  induction h with
  | last hpage =>
    obtain ⟨k', hnext, -⟩ := hP _ hk
    rw [hpage] at hnext
    cases hnext
  | next hpage _ ih =>
    obtain ⟨k', hnext, hk'⟩ := hP _ hk
    rw [hpage] at hnext
    cases hnext
    exact ih hk'

/-- Places that are written down and read back, as far as they are met. -/
theorem of_read {window : ι → List α × Option ι} {read : κ → ι} {write : ι → κ} (P : ι → Prop)
    (hpage : ∀ k, P (read k) → page k = ((window (read k)).1, (window (read k)).2.map write))
    (hread : ∀ i, P i → read (write i) = i)
    (hP : ∀ i j, P i → (window i).2 = some j → P j) (hk : P (read k)) :
    Followed page k items ↔ Followed window (read k) items := by
  constructor
  · intro h
    induction h with
    | @last k items h =>
      rw [hpage _ hk] at h
      obtain ⟨hitems, hnext⟩ := Prod.mk.inj h
      exact .last (Prod.ext hitems (Option.map_eq_none_iff.mp hnext))
    | @next k k' items rest h _ ih =>
      rw [hpage _ hk] at h
      obtain ⟨hitems, hnext⟩ := Prod.mk.inj h
      obtain ⟨i, hi, rfl⟩ := Option.map_eq_some_iff.mp hnext
      have hplace := hP _ _ hk hi
      rw [hread i hplace] at ih
      exact .next (Prod.ext hitems hi) (ih hplace)
  · intro h
    generalize hi : read k = i at h hk
    induction h generalizing k with
    | last h =>
      apply Followed.last
      rw [hpage k (by rwa [hi]), hi, h, Option.map_none]
    | @next i i' items rest h _ ih =>
      have hplace := hP _ _ hk (congrArg Prod.snd h)
      have hstep : page k = (items, some (write i')) := by
        rw [hpage k (by rwa [hi]), hi, h, Option.map_some]
      exact .next hstep (ih (hread i' hplace) hplace)

end Followed

/-- The rows from a place on. -/
def window (items : List α) (fetch keep step place : Nat) : List α × Option Nat :=
  let rows := (items.drop place).take fetch
  (rows.take keep, if keep < rows.length then some (place + step) else none)

section Windows
variable {items all : List α} {fetch keep step place : Nat}

theorem length_rows : ((items.drop place).take fetch).length = min fetch (items.length - place) := by
  rw [List.length_take, List.length_drop]

theorem window_more (h : keep < min fetch (items.length - place)) :
    window items fetch keep step place =
      (((items.drop place).take fetch).take keep, some (place + step)) := by
  rw [window, if_pos (by rwa [length_rows])]

theorem window_last (h : min fetch (items.length - place) ≤ keep) :
    window items fetch keep step place = ((items.drop place).take fetch, none) := by
  rw [window, if_neg (by rw [length_rows]; omega), List.take_of_length_le]
  rwa [length_rows]

theorem next_of_window {place' : Nat} (h : (window items fetch keep step place).2 = some place') :
    place < items.length ∧ place' = place + step := by
  by_cases hmore : keep < min fetch (items.length - place)
  · rw [window_more hmore] at h
    exact ⟨by omega, (Option.some.inj h).symm⟩
  · rw [window_last (Nat.le_of_not_lt hmore)] at h
    cases h

/-- Windows that look one row ahead, one after the other. -/
theorem followed_tiles (hkeep : 0 < keep) (place : Nat) :
    Followed (window items (keep + 1) keep keep) place (items.drop place) := by
  by_cases hmore : keep < items.length - place
  · have hpage : window items (keep + 1) keep keep place =
        ((items.drop place).take keep, some (place + keep)) := by
      rw [window_more (by omega), List.take_take, Nat.min_eq_left (Nat.le_succ keep)]
    have hrest := followed_tiles hkeep (place + keep)
    rw [← List.drop_drop] at hrest
    have hall := Followed.next hpage hrest
    rwa [List.take_append_drop] at hall
  · apply Followed.last
    rw [window_last (by omega), List.take_of_length_le]
    rw [List.length_drop]
    omega
termination_by items.length - place
decreasing_by
  omega

/-- A window that looks no row ahead is the only one. -/
theorem followed_short (h : fetch ≤ keep) :
    Followed (window items fetch keep step) place all ↔ all = (items.drop place).take fetch := by
  have hfew : min fetch (items.length - place) ≤ keep := Nat.le_trans (Nat.min_le_left ..) h
  have hpage : window items fetch keep step place = ((items.drop place).take fetch, none) :=
    window_last hfew
  constructor
  · intro hall
    exact hall.unique (.last hpage)
  · rintro rfl
    exact .last hpage

/-- Windows that do not move on have no end. -/
theorem not_followed_of_stuck (hmore : keep < min fetch (items.length - place)) :
    ¬ Followed (window items fetch keep 0) place all := by
  intro h
  refine h.absurd_of_endless (fun o => o = place) ?_ rfl
  rintro o rfl
  refine ⟨o, ?_, rfl⟩
  rw [window_more hmore, Nat.add_zero]

/-- Steps longer than a page leave rows out. -/
theorem length_lt_of_skipped (hskip : keep < step)
    (h : Followed (window items (keep + 1) keep step) place all) :
    all.length ≤ items.length - place ∧
      (keep < items.length - place → all.length < items.length - place) := by
  induction h with
  | @last o rows hpage =>
    by_cases hmore : keep < min (keep + 1) (items.length - o)
    · rw [window_more hmore] at hpage
      cases hpage
    · rw [window_last (Nat.le_of_not_lt hmore)] at hpage
      obtain rfl := (Prod.mk.inj hpage).1
      rw [length_rows]
      omega
  | @next o o' rows rest hpage _ ih =>
    by_cases hmore : keep < min (keep + 1) (items.length - o)
    · rw [window_more hmore] at hpage
      obtain ⟨rfl, hnext⟩ := Prod.mk.inj hpage
      obtain rfl := Option.some.inj hnext
      have hkept : (((items.drop o).take (keep + 1)).take keep).length ≤ keep :=
        List.length_take_le ..
      rw [List.length_append]
      omega
    · rw [window_last (Nat.le_of_not_lt hmore)] at hpage
      cases hpage

end Windows
end Suture.Foundation
