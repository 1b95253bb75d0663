import Mathlib.Algebra.Ring.Nat
import Mathlib.Logic.Relation
import Suture.Foundation.SortedSet

/-!
# Depth-first walks

A walk from a stack over a successor function. What comes off the stack for the first time
puts those of its successors on it that have not come off yet, so one may be on the stack
several times, and come off as often.
-/

namespace Suture.Foundation
set_option autoImplicit false

universe u

/-- What the entries weigh that are not closed. -/
def openWeight {β : Type u} (weight : β → Nat) (closed : β → Bool) (l : List β) : Nat :=
  (l.map fun e => if closed e then 0 else weight e).sum

theorem openWeight_le {β : Type u} {weight : β → Nat} {closed closed' : β → Bool} {l : List β}
    (h : ∀ e, closed e = true → closed' e = true) :
    openWeight weight closed' l ≤ openWeight weight closed l := by
  induction l with
  | nil => exact Nat.le_refl _
  | cons e l ih =>
    simp only [openWeight, List.map_cons, List.sum_cons] at ih ⊢
    by_cases he : closed e = true
    · rw [if_pos he, if_pos (h e he)]
      omega
    · rw [if_neg he]
      split <;> omega

/-- Closing an entry takes at least its weight away. -/
theorem openWeight_add_le {β : Type u} {weight : β → Nat} {closed closed' : β → Bool} {l : List β}
    (h : ∀ e, closed e = true → closed' e = true) {e : β} (he : e ∈ l) (hopen : closed e = false)
    (hclosed : closed' e = true) :
    openWeight weight closed' l + weight e ≤ openWeight weight closed l := by
  obtain ⟨before, after, rfl⟩ := List.append_of_mem he
  have hbefore : openWeight weight closed' before ≤ openWeight weight closed before :=
    openWeight_le h
  have hafter : openWeight weight closed' after ≤ openWeight weight closed after := openWeight_le h
  simp only [openWeight, List.map_append, List.map_cons, List.sum_append, List.sum_cons, hopen,
    hclosed, if_true, Bool.false_eq_true, if_false] at hbefore hafter ⊢
  omega

/-- A successor function that leads on from finitely many elements. -/
structure Edges (α : Type u) where
  next : α → List α
  sources : List α
  mem_sources : ∀ x, ∀ y ∈ next x, x ∈ sources

namespace Edges
variable {α : Type u}

def Step (g : Edges α) (x y : α) : Prop := y ∈ g.next x

variable [LinearOrder α] (g : Edges α)

/-- The successors that have not come off the stack. -/
def fresh (seen : SortedSet α) (x : α) : List α := (g.next x).filter fun y => decide (y ∉ seen)

/-- What comes off the stack, one after the other; the top is the head. -/
def taken (seen : SortedSet α) : List α → List α
  | [] => []
  | x :: stack =>
    if _hseen : x ∈ seen then x :: taken seen stack
    else x :: taken (seen.insert x) ((g.fresh (seen.insert x) x).reverse ++ stack)
termination_by stack =>
  openWeight (fun x => (g.next x).length + 1) (fun x => decide (x ∈ seen)) g.sources + stack.length
decreasing_by
  · simp only [List.length_cons]
    omega
  · have hgrow : ∀ y, decide (y ∈ seen) = true → decide (y ∈ seen.insert x) = true := by
      intro y hy
      rw [decide_eq_true_eq] at hy ⊢
      exact SortedSet.mem_insert.mpr (.inr hy)
    by_cases hsource : x ∈ g.sources
    · have hle : openWeight (fun x => (g.next x).length + 1) (fun y => decide (y ∈ seen.insert x))
          g.sources + ((g.next x).length + 1) ≤
            openWeight (fun x => (g.next x).length + 1) (fun y => decide (y ∈ seen)) g.sources :=
        openWeight_add_le hgrow hsource (decide_eq_false _hseen)
          (decide_eq_true (SortedSet.mem_insert.mpr (.inl rfl)))
      have hfresh : (g.fresh (seen.insert x) x).length ≤ (g.next x).length :=
        List.length_filter_le ..
      simp only [List.length_append, List.length_reverse, List.length_cons]
      omega
    · have hnil : g.next x = [] :=
        List.eq_nil_iff_forall_not_mem.mpr fun y hy => hsource (g.mem_sources x y hy)
      have hle : openWeight (fun x => (g.next x).length + 1) (fun y => decide (y ∈ seen.insert x))
          g.sources ≤
            openWeight (fun x => (g.next x).length + 1) (fun y => decide (y ∈ seen)) g.sources :=
        openWeight_le hgrow
      simp only [fresh, hnil, List.filter_nil, List.reverse_nil, List.nil_append, List.length_cons]
      omega

variable {g} {seen : SortedSet α} {stack : List α} {x y z : α}

theorem taken_seen (h : x ∈ seen) : g.taken seen (x :: stack) = x :: g.taken seen stack := by
  rw [taken, dif_pos h]

theorem taken_new (h : x ∉ seen) : g.taken seen (x :: stack) =
    x :: g.taken (seen.insert x) ((g.fresh (seen.insert x) x).reverse ++ stack) := by
  rw [taken, dif_neg h]

/-- What a closed set holds of the stack, it holds of what comes off. -/
theorem taken_of_closed {P : α → Prop} (hP : ∀ x y, P x → g.Step x y → P y)
    (hstack : ∀ z ∈ stack, P z) : ∀ z ∈ g.taken seen stack, P z := by
  fun_induction taken g seen stack with
  | case1 => exact fun z hz => absurd hz List.not_mem_nil
  | case2 seen x stack hseen ih =>
    intro z hz
    rcases List.mem_cons.mp hz with rfl | hz
    · exact hstack _ (List.mem_cons_self ..)
    · exact ih (fun y hy => hstack y (List.mem_cons_of_mem _ hy)) z hz
  | case3 seen x stack hseen ih =>
    have hx := hstack x (List.mem_cons_self ..)
    intro z hz
    rcases List.mem_cons.mp hz with rfl | hz
    · exact hx
    · refine ih (fun y hy => ?_) z hz
      rcases List.mem_append.mp hy with hy | hy
      · exact hP x y hx (List.mem_filter.mp (List.mem_reverse.mp hy)).1
      · exact hstack y (List.mem_cons_of_mem _ hy)

/-- All of the stack comes off, and of what is new there also its successors, unless they
came off before. -/
theorem taken_spec : (∀ z ∈ stack, z ∈ g.taken seen stack) ∧
    ∀ z ∈ g.taken seen stack, z ∉ seen → ∀ y, g.Step z y → y ∈ g.taken seen stack ∨ y ∈ seen := by
  fun_induction taken g seen stack with
  | case1 => exact ⟨fun z hz => hz, fun z hz => absurd hz List.not_mem_nil⟩
  | case2 seen x stack hseen ih =>
    refine ⟨fun z hz => ?_, fun z hz hnew y hy => ?_⟩
    · rcases List.mem_cons.mp hz with rfl | hz
      · exact List.mem_cons_self ..
      · exact List.mem_cons_of_mem _ (ih.1 z hz)
    · rcases List.mem_cons.mp hz with rfl | hz
      · exact absurd hseen hnew
      · exact (ih.2 z hz hnew y hy).imp_left (List.mem_cons_of_mem _)
  | case3 seen x stack hseen ih =>
    have hold : ∀ {y}, y ∈ seen.insert x →
        y ∈ x :: g.taken (seen.insert x) ((g.fresh (seen.insert x) x).reverse ++ stack) ∨
          y ∈ seen := by
      intro y hy
      rcases SortedSet.mem_insert.mp hy with rfl | hy
      · exact .inl (List.mem_cons_self ..)
      · exact .inr hy
    refine ⟨fun z hz => ?_, fun z hz hnew y hy => ?_⟩
    · rcases List.mem_cons.mp hz with rfl | hz
      · exact List.mem_cons_self ..
      · exact List.mem_cons_of_mem _ (ih.1 z (List.mem_append_right _ hz))
    · by_cases hyold : y ∈ seen.insert x
      · exact hold hyold
      by_cases hzx : z = x
      · subst hzx
        have hpushed : y ∈ g.fresh (seen.insert z) z := List.mem_filter.mpr ⟨hy, decide_eq_true hyold⟩
        have hstack := List.mem_append_left stack (List.mem_reverse.mpr hpushed)
        exact .inl (List.mem_cons_of_mem _ (ih.1 y hstack))
      · have hz := (List.mem_cons.mp hz).resolve_left hzx
        have hznew : z ∉ seen.insert x := fun h =>
          (SortedSet.mem_insert.mp h).elim hzx hnew
        exact .inl (List.mem_cons_of_mem _ ((ih.2 z hz hznew y hy).resolve_right hyold))

/-- From the start, what is reached from the stack comes off. -/
theorem mem_taken : z ∈ g.taken .empty stack ↔ ∃ x ∈ stack, Relation.ReflTransGen g.Step x z := by
  constructor
  · have hclosed : ∀ x y, (∃ w ∈ stack, Relation.ReflTransGen g.Step w x) → g.Step x y →
        ∃ w ∈ stack, Relation.ReflTransGen g.Step w y := fun x y h hxy =>
      h.imp fun w hw => ⟨hw.1, hw.2.tail hxy⟩
    exact taken_of_closed hclosed (fun z hz => ⟨z, hz, .refl⟩) z
  · intro ⟨x, hx, h⟩
    obtain ⟨hsub, hnext⟩ : (∀ z ∈ stack, z ∈ g.taken .empty stack) ∧ ∀ z ∈ g.taken .empty stack,
        z ∉ SortedSet.empty → ∀ y, g.Step z y → y ∈ g.taken .empty stack ∨ y ∈ SortedSet.empty :=
      taken_spec
    induction h with
    | refl => exact hsub x hx
    | tail _ hstep ih =>
      exact (hnext _ ih (SortedSet.not_mem_empty _) _ hstep).resolve_right
        (SortedSet.not_mem_empty _)

end Edges
end Suture.Foundation
