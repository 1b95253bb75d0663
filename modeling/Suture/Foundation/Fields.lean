import Mathlib.Data.List.DropRight

/-!
# Trimmed lines and their fields

A line loses its blanks at both ends. It is cut at a separator into so many fields at most, the
last one keeping the separators that are left.
-/

namespace Suture.Foundation
set_option autoImplicit false

variable {α : Type} [DecidableEq α] {blank : α → Bool} {sep : α}

/-! ### Trimming -/

/-- The characters that `str::trim` takes off. -/
def isWhiteSpace (c : Char) : Bool :=
  c.toNat ∈ [0x09, 0x0a, 0x0b, 0x0c, 0x0d, 0x20, 0x85, 0xa0, 0x1680, 0x2028, 0x2029, 0x202f, 0x205f,
    0x3000] || (0x2000 ≤ c.toNat && c.toNat ≤ 0x200a)

def trimBy (blank : α → Bool) (l : List α) : List α := (l.dropWhile blank).rdropWhile blank

omit [DecidableEq α] in
theorem rdropWhile_append_of_solid {l : List α} {c : α} (hc : blank c = false) (rest : List α) :
    (l ++ c :: rest).rdropWhile blank = l ++ c :: rest.rdropWhile blank := by
  induction rest using List.reverseRecOn with
  | nil => exact List.rdropWhile_concat_neg _ _ _ (by simp [hc])
  | append_singleton rest x ih =>
    rw [← List.cons_append, ← List.append_assoc, List.rdropWhile_concat, List.rdropWhile_concat]
    split
    · exact ih
    · simp

omit [DecidableEq α] in
/-- A line that starts solid is trimmed at its end. -/
theorem trimBy_of_solid {c : α} (hc : blank c = false) (rest : List α) :
    trimBy blank (c :: rest) = c :: rest.rdropWhile blank := by
  unfold trimBy
  rw [List.dropWhile_cons_of_neg (by simp [hc])]
  exact rdropWhile_append_of_solid (l := []) hc rest

omit [DecidableEq α] in
theorem trimBy_concat_blank {c : α} (hc : blank c = true) (l : List α) :
    trimBy blank (l ++ [c]) = trimBy blank l := by
  unfold trimBy
  by_cases hall : ∀ x ∈ l, blank x = true
  · have hnil : l.dropWhile blank = [] := List.dropWhile_eq_nil_iff.mpr hall
    have hnil' : (l ++ [c]).dropWhile blank = [] := by
      rw [List.dropWhile_eq_nil_iff]
      intro x hx
      rcases List.mem_append.mp hx with hx | hx
      · exact hall x hx
      · rw [List.mem_singleton.mp hx]
        exact hc
    rw [hnil, hnil']
  · have hne : l.dropWhile blank ≠ [] := fun h => hall (List.dropWhile_eq_nil_iff.mp h)
    rw [List.dropWhile_append, if_neg (by simpa using hne), List.rdropWhile_concat_pos _ _ _ hc]

omit [DecidableEq α] in
theorem trimBy_append_blank {a b : List α} (ha : ∀ c ∈ a, blank c = true)
    (hb : ∀ c ∈ b, blank c = true) (l : List α) : trimBy blank (a ++ l ++ b) = trimBy blank l := by
  induction b using List.reverseRecOn with
  | nil =>
    unfold trimBy
    rw [List.append_nil, List.dropWhile_append_of_pos ha]
  | append_singleton b c ih =>
    rw [← List.append_assoc, trimBy_concat_blank (hb c (by simp)),
      ih fun d hd => hb d (List.mem_append_left _ hd)]

omit [DecidableEq α] in
theorem trimBy_sublist (blank : α → Bool) (l : List α) : (trimBy blank l).Sublist l :=
  (List.rdropWhile_prefix blank _).sublist.trans (List.dropWhile_sublist blank)

omit [DecidableEq α] in
theorem infix_trimBy (blank : α → Bool) (l : List α) : trimBy blank l <:+: l :=
  (List.rdropWhile_prefix blank _).isInfix.trans (List.dropWhile_suffix blank).isInfix

omit [DecidableEq α] in
theorem trimBy_trimBy (blank : α → Bool) (l : List α) :
    trimBy blank (trimBy blank l) = trimBy blank l := by
  cases h : l.dropWhile blank with
  | nil =>
    unfold trimBy
    rw [h]
    rfl
  | cons c rest =>
    have hc := List.head_dropWhile_not blank (l := l) (by rw [h]; exact List.cons_ne_nil _ _)
    simp only [h, List.head_cons] at hc
    have hl : trimBy blank l = c :: rest.rdropWhile blank := by
      rw [← trimBy_of_solid hc rest]
      unfold trimBy
      rw [h, List.dropWhile_cons_of_neg (by simp [hc])]
    rw [hl, trimBy_of_solid hc, List.rdropWhile_idempotent]

/-! ### Fields -/

/-- At most `n` fields. -/
def splitN (sep : α) : Nat → List α → List (List α)
  | 0, _ => []
  | 1, l => [l]
  | n + 2, l =>
    match l.dropWhile fun c => decide (c ≠ sep) with
    | [] => [l]
    | _ :: rest => (l.takeWhile fun c => decide (c ≠ sep)) :: splitN sep (n + 1) rest

theorem splitN_of_notMem {l : List α} (h : sep ∉ l) (n : Nat) : splitN sep (n + 1) l = [l] := by
  have hnil : l.dropWhile (fun c => decide (c ≠ sep)) = [] := by
    rw [List.dropWhile_eq_nil_iff]
    intro c hc
    exact decide_eq_true fun heq => h (heq ▸ hc)
  cases n with
  | zero => rfl
  | succ n => rw [splitN, hnil]

theorem splitN_append {field : List α} (h : sep ∉ field) (rest : List α) (n : Nat) :
    splitN sep (n + 2) (field ++ sep :: rest) = field :: splitN sep (n + 1) rest := by
  have hfield : ∀ c ∈ field, decide (c ≠ sep) = true := fun c hc =>
    decide_eq_true fun heq => h (heq ▸ hc)
  rw [splitN, List.dropWhile_append_of_pos hfield, List.takeWhile_append_of_pos hfield]
  simp

end Suture.Foundation
