import Mathlib.Logic.Relation
import Suture.Foundation.SortedSet

/-!
# Breadth-first search

A search from a queue over a successor function with finitely many targets: each
target is queued when it is first seen. What it collects from a start is what can
be reached in one or more steps. So is what lies within a number of links.
-/

namespace Suture.Foundation
set_option autoImplicit false

universe u

/-- A successor function whose values all lie in one list. -/
structure Successors (α : Type u) where
  next : α → List α
  targets : List α
  next_mem : ∀ x, ∀ y ∈ next x, y ∈ targets

namespace Successors
variable {α : Type u}

def Step (g : Successors α) (x y : α) : Prop := y ∈ g.next x

/-- One or more steps lead from `x` to `y`. -/
def Reaches (g : Successors α) : α → α → Prop := Relation.TransGen g.Step

variable [LinearOrder α]

/-- Queues what is seen for the first time. -/
def visit (seen : SortedSet α) (queue : List α) : List α → SortedSet α × List α
  | [] => (seen, queue)
  | y :: ys => if y ∈ seen then visit seen queue ys else visit (seen.insert y) (queue ++ [y]) ys

theorem mem_visit_seen {seen : SortedSet α} {queue ys : List α} {z : α} :
    z ∈ (visit seen queue ys).1 ↔ z ∈ ys ∨ z ∈ seen := by
  induction ys generalizing seen queue with
  | nil => simp [visit]
  | cons y ys ih =>
    rw [visit]
    split
    · rename_i hy
      rw [ih, List.mem_cons]
      constructor
      · exact Or.imp_left .inr
      · rintro ((rfl | hz) | hz)
        · exact .inr hy
        · exact .inl hz
        · exact .inr hz
    · rw [ih, SortedSet.mem_insert, List.mem_cons, or_left_comm, or_assoc]

theorem mem_visit_queue {seen : SortedSet α} {queue ys : List α} {z : α} :
    z ∈ (visit seen queue ys).2 ↔ z ∈ queue ∨ (z ∈ ys ∧ z ∉ seen) := by
  induction ys generalizing seen queue with
  | nil => simp [visit]
  | cons y ys ih =>
    rw [visit]
    split
    · rename_i hy
      rw [ih, List.mem_cons]
      refine or_congr_right (and_congr_left fun hz => ⟨.inr, ?_⟩)
      rintro (rfl | h)
      · exact absurd hy hz
      · exact h
    · rename_i hy
      rw [ih]
      by_cases hzy : z = y
      · subst z
        simp [hy]
      · simp [hzy]

variable (g : Successors α)

/-- How many entries of the target list have not been seen. -/
def unseen (seen : SortedSet α) : Nat := g.targets.countP fun y => decide (y ∉ seen)

theorem countP_insert_le (seen : SortedSet α) (y : α) (ts : List α) :
    ts.countP (fun t => decide (t ∉ seen.insert y)) ≤ ts.countP (fun t => decide (t ∉ seen)) := by
  refine List.countP_mono_left fun t _ ht => ?_
  simp only [SortedSet.mem_insert, decide_eq_true_eq, not_or] at ht ⊢
  exact ht.2

theorem countP_insert_lt {seen : SortedSet α} {y : α} (hnew : y ∉ seen) {ts : List α} (hy : y ∈ ts) :
    ts.countP (fun t => decide (t ∉ seen.insert y)) < ts.countP (fun t => decide (t ∉ seen)) := by
  induction ts with
  | nil => cases hy
  | cons t ts ih =>
    rw [List.countP_cons, List.countP_cons]
    by_cases hty : t = y
    · subst t
      have hle := countP_insert_le seen y ts
      rw [if_neg (by simp), if_pos (by simpa using hnew)]
      omega
    · have hlt := ih ((List.mem_cons.mp hy).resolve_left (Ne.symm hty))
      have hsame : decide (t ∉ seen.insert y) = decide (t ∉ seen) := by simp [hty]
      rw [hsame]
      omega

theorem unseen_insert {seen : SortedSet α} {y : α} (hy : y ∈ g.targets) (hnew : y ∉ seen) :
    g.unseen (seen.insert y) < g.unseen seen := countP_insert_lt hnew hy

theorem visit_measure {seen : SortedSet α} {queue ys : List α} (hys : ∀ y ∈ ys, y ∈ g.targets) :
    (visit seen queue ys).2.length + g.unseen (visit seen queue ys).1 ≤
      queue.length + g.unseen seen := by
  induction ys generalizing seen queue with
  | nil => exact Nat.le_refl _
  | cons y ys ih =>
    have hrest : ∀ y' ∈ ys, y' ∈ g.targets := fun y' hy' => hys y' (List.mem_cons_of_mem _ hy')
    rw [visit]
    split
    · exact ih hrest
    · rename_i hnew
      have hlt := g.unseen_insert (hys y (List.mem_cons_self ..)) hnew
      have := @ih (seen.insert y) (queue ++ [y]) hrest
      simp only [List.length_append, List.length_singleton] at this
      omega

def walk (seen : SortedSet α) : List α → SortedSet α
  | [] => seen
  | x :: rest => walk (visit seen rest (g.next x)).1 (visit seen rest (g.next x)).2
termination_by queue => queue.length + g.unseen seen
decreasing_by
  have := @visit_measure α _ g seen rest _ (g.next_mem x)
  simp only [List.length_cons]
  omega

/-- All that is reached from `x`. -/
def closure (x : α) : SortedSet α :=
  g.walk (visit .empty [] (g.next x)).1 (visit .empty [] (g.next x)).2

theorem walk_of_closed {P : α → Prop} (hP : ∀ x y, P x → g.Step x y → P y) {seen : SortedSet α}
    {queue : List α} (hseen : ∀ z ∈ seen, P z) (hqueue : ∀ z ∈ queue, P z) :
    ∀ z ∈ g.walk seen queue, P z := by
  fun_induction walk g seen queue with
  | case1 seen => exact hseen
  | case2 seen x rest ih =>
    have hnext : ∀ y ∈ g.next x, P y := fun y hy => hP x y (hqueue x (List.mem_cons_self ..)) hy
    refine ih (fun z hz => ?_) fun z hz => ?_
    · exact (mem_visit_seen.mp hz).elim (hnext z) (hseen z)
    · exact (mem_visit_queue.mp hz).elim (fun h => hqueue z (List.mem_cons_of_mem _ h))
        fun h => hnext z h.1

/-- What is seen is waiting or has all its successors seen; at the end nothing waits. -/
theorem walk_spec {seen : SortedSet α} {queue : List α}
    (hfront : ∀ z ∈ seen, z ∈ queue ∨ ∀ y, g.Step z y → y ∈ seen) :
    (∀ z ∈ seen, z ∈ g.walk seen queue) ∧
      ∀ z ∈ g.walk seen queue, ∀ y, g.Step z y → y ∈ g.walk seen queue := by
  fun_induction walk g seen queue with
  | case1 seen => exact ⟨fun z hz => hz, fun z hz => (hfront z hz).resolve_left List.not_mem_nil⟩
  | case2 seen x rest ih =>
    have hgrow : ∀ z ∈ seen, z ∈ (visit seen rest (g.next x)).1 := fun z hz =>
      mem_visit_seen.mpr (.inr hz)
    have hfront' : ∀ z ∈ (visit seen rest (g.next x)).1,
        z ∈ (visit seen rest (g.next x)).2 ∨
          ∀ y, g.Step z y → y ∈ (visit seen rest (g.next x)).1 := by
      intro z hz
      by_cases hseen : z ∈ seen
      · rcases hfront z hseen with hmem | hnext
        · rcases List.mem_cons.mp hmem with rfl | hmem
          · exact .inr fun y hy => mem_visit_seen.mpr (.inl hy)
          · exact .inl (mem_visit_queue.mpr (.inl hmem))
        · exact .inr fun y hy => hgrow y (hnext y hy)
      · have hz := (mem_visit_seen.mp hz).resolve_right hseen
        exact .inl (mem_visit_queue.mpr (.inr ⟨hz, hseen⟩))
    obtain ⟨hsub, hclosed⟩ := ih hfront'
    exact ⟨fun z hz => hsub z (hgrow z hz), hclosed⟩

/-- The search finds exactly what one or more steps lead to. -/
theorem mem_closure {x y : α} : y ∈ g.closure x ↔ g.Reaches x y := by
  constructor
  · refine g.walk_of_closed (P := g.Reaches x) (fun z y hz hzy => hz.tail hzy) (fun z hz => ?_)
      (fun z hz => ?_) y
    · exact .single ((mem_visit_seen.mp hz).resolve_right (SortedSet.not_mem_empty z))
    · exact .single ((mem_visit_queue.mp hz).resolve_left List.not_mem_nil).1
  · have hfront : ∀ z ∈ (visit .empty [] (g.next x)).1,
        z ∈ (visit .empty [] (g.next x)).2 ∨
          ∀ y, g.Step z y → y ∈ (visit .empty [] (g.next x)).1 := by
      intro z hz
      have hz := (mem_visit_seen.mp hz).resolve_right (SortedSet.not_mem_empty z)
      exact .inl (mem_visit_queue.mpr (.inr ⟨hz, SortedSet.not_mem_empty z⟩))
    obtain ⟨hsub, hclosed⟩ := g.walk_spec hfront
    intro h
    induction h with
    | single h => exact hsub _ (mem_visit_seen.mpr (.inl h))
    | tail _ h ih => exact hclosed _ ih _ h

end Successors

/-! ### Within so many links -/

section Balls
variable {α : Type u} [LinearOrder α] (next : α → List α) (start : α)

/-- What lies within `i` links of the start. -/
def ball : Nat → SortedSet α
  | 0 => .ofList [start]
  | i + 1 => ((ball i).elems.flatMap next).foldl (fun s a => s.insert a) (ball i)

variable {next start} {i j : Nat} {a b : α}

theorem mem_ball_zero : a ∈ ball next start 0 ↔ a = start := by
  rw [ball, SortedSet.mem_ofList, List.mem_singleton]

theorem mem_ball_succ : a ∈ ball next start (i + 1) ↔
    (∃ b ∈ ball next start i, a ∈ next b) ∨ a ∈ ball next start i := by
  rw [ball, SortedSet.mem_foldl_insert, List.mem_flatMap]
  rfl

theorem ball_mono (h : i ≤ j) (ha : a ∈ ball next start i) : a ∈ ball next start j := by
  induction h with
  | refl => exact ha
  | step _ ih => exact mem_ball_succ.mpr (.inr ih)

/-- A ball that no link leaves is the last. -/
theorem mem_ball_of_closed
    (hclosed : ∀ b ∈ ball next start i, ∀ c ∈ next b, c ∈ ball next start i)
    (ha : a ∈ ball next start j) : a ∈ ball next start i := by
  induction j generalizing a with
  | zero => exact ball_mono (Nat.zero_le i) ha
  | succ j ih =>
    rcases mem_ball_succ.mp ha with ⟨b, hb, hab⟩ | ha
    · exact hclosed b (ih hb) a hab
    · exact ih ha

theorem exists_mem_ball_iff : (∃ i, a ∈ ball next start i) ↔
    Relation.ReflTransGen (fun x y => y ∈ next x) start a := by
  constructor
  · rintro ⟨i, ha⟩
    induction i generalizing a with
    | zero =>
      rw [mem_ball_zero.mp ha]
    | succ i ih =>
      rcases mem_ball_succ.mp ha with ⟨b, hb, hab⟩ | ha
      · exact (ih hb).tail hab
      · exact ih ha
  · intro h
    induction h with
    | refl => exact ⟨0, mem_ball_zero.mpr rfl⟩
    | tail _ hlink ih =>
      obtain ⟨i, hi⟩ := ih
      exact ⟨i + 1, mem_ball_succ.mpr (.inl ⟨_, hi, hlink⟩)⟩

/-- One or more links, the last of them from a ball. -/
theorem exists_link_iff : (∃ i, ∃ b ∈ ball next start i, a ∈ next b) ↔
    Relation.TransGen (fun x y => y ∈ next x) start a := by
  rw [Relation.TransGen.tail'_iff]
  constructor
  · rintro ⟨i, b, hb, hab⟩
    exact ⟨b, exists_mem_ball_iff.mp ⟨i, hb⟩, hab⟩
  · rintro ⟨b, hb, hab⟩
    obtain ⟨i, hi⟩ := exists_mem_ball_iff.mpr hb
    exact ⟨i, b, hi, hab⟩

end Balls

end Suture.Foundation
