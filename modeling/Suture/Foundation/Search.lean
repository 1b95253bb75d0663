import Mathlib.Data.List.Basic

/-!
# Searching in lists

The first place at which a list has a part, and patterns in which a star stands for any list.
That parts occur in their order is found by taking each at its first place.
-/

namespace Suture.Foundation
set_option autoImplicit false

universe u
variable {α : Type u} [DecidableEq α]

/-! ### The first place of a part -/

/-- What is before the first place of the part, and what is after it. -/
def find (part : List α) : List α → Option (List α × List α)
  | [] => if part = [] then some ([], []) else none
  | c :: l =>
    if part <+: c :: l then some ([], (c :: l).drop part.length)
    else (find part l).map fun found => (c :: found.1, found.2)

theorem find_of_prefix {part l : List α} (h : part <+: l) : find part l = some ([], l.drop part.length) := by
  cases l with
  | nil =>
    obtain rfl := List.prefix_nil.mp h
    rfl
  | cons c l => rw [find, if_pos h]

theorem eq_of_find {part l : List α} {found : List α × List α} (h : find part l = some found) :
    l = found.1 ++ (part ++ found.2) := by
  induction l generalizing found with
  | nil =>
    rw [find] at h
    split at h
    · rename_i hnil
      cases h
      rw [hnil]
      rfl
    · cases h
  | cons c l ih =>
    rw [find] at h
    split at h
    · rename_i hprefix
      cases h
      obtain ⟨rest, hrest⟩ := hprefix
      rw [List.nil_append, ← hrest, List.drop_left]
    · obtain ⟨found', hfound, rfl⟩ := Option.map_eq_some_iff.mp h
      rw [List.cons_append, ← ih hfound]

/-- The place that is found is not behind another one. -/
theorem find_append (part before after : List α) : ∃ found, find part (before ++ (part ++ after)) =
    some found ∧ found.1 <+: before := by
  induction before with
  | nil => exact ⟨_, find_of_prefix (List.prefix_append ..), List.nil_prefix⟩
  | cons c before ih =>
    by_cases hprefix : part <+: c :: (before ++ (part ++ after))
    · exact ⟨_, find_of_prefix hprefix, List.nil_prefix⟩
    · obtain ⟨found, hfound, hbefore⟩ := ih
      refine ⟨(c :: found.1, found.2), ?_, List.cons_prefix_cons.mpr ⟨rfl, hbefore⟩⟩
      rw [List.cons_append, find, if_neg hprefix, hfound]
      rfl

/-- What is after the place that is found ends with what is after another one. -/
theorem suffix_of_find {part before after : List α} {found : List α × List α}
    (h : find part (before ++ (part ++ after)) = some found) : after <:+ found.2 := by
  obtain ⟨found', hfound, rest, hrest⟩ := find_append part before after
  obtain rfl := Option.some.inj (h.symm.trans hfound)
  have hsplit := eq_of_find h
  rw [← hrest, List.append_assoc, List.append_cancel_left_eq] at hsplit
  have hlength := congrArg List.length hsplit
  simp only [List.length_append] at hlength
  refine List.suffix_of_suffix_length_le ⟨rest ++ part, ?_⟩ ⟨part, rfl⟩ (by omega)
  rw [← hsplit, List.append_assoc]

theorem find_eq_none_iff {part l : List α} : find part l = none ↔ ¬ part <:+: l := by
  constructor
  · rintro hnone ⟨before, after, rfl⟩
    obtain ⟨found, hfound, -⟩ := find_append part before after
    rw [List.append_assoc, hfound] at hnone
    cases hnone
  · intro h
    cases hfound : find part l with
    | none => rfl
    | some found =>
      refine absurd ⟨found.1, found.2, ?_⟩ h
      rw [List.append_assoc]
      exact (eq_of_find hfound).symm

theorem exists_find {part l : List α} (h : part <:+: l) : ∃ found, find part l = some found :=
  Option.ne_none_iff_exists'.mp fun hnone => find_eq_none_iff.mp hnone h

/-- A part that can only start with its first element is found where it is. -/
theorem find_cons_append {c : α} {part before : List α} (hc : c ∉ part)
    (hbefore : ¬ c :: part <:+: before) (after : List α) :
    find (c :: part) (before ++ (c :: part ++ after)) = some (before, after) := by
  obtain ⟨found, hfound, rest, rfl⟩ := find_append (c :: part) before after
  have hsplit := eq_of_find hfound
  rw [List.append_assoc, List.append_cancel_left_eq] at hsplit
  cases rest with
  | nil =>
    rw [List.nil_append, List.append_cancel_left_eq] at hsplit
    rw [hfound, List.append_nil, hsplit]
  | cons d rest =>
    refine absurd ?_ hbefore
    simp only [List.cons_append, List.cons.injEq] at hsplit
    obtain ⟨rfl, hsplit⟩ := hsplit
    rcases List.append_eq_append_iff.mp hsplit with ⟨middle, hpart, hmiddle⟩ | ⟨middle, hrest, -⟩
    · cases middle with
      | nil => exact ⟨found.1, [], by rw [hpart, List.append_nil, List.append_nil]⟩
      | cons e middle =>
        simp only [List.cons_append, List.cons.injEq] at hmiddle
        exact absurd (by simp [hpart, hmiddle.1]) hc
    · exact ⟨found.1, middle, by rw [hrest, List.append_assoc, List.cons_append]⟩

omit [DecidableEq α] in
/-- A part that can only start with its first element does not reach over such an element. -/
theorem infix_append_cons {c : α} {part a b : List α} (hc : c ∉ part) (h : c :: part <:+: a ++ c :: b) :
    c :: part <:+: a ∨ c :: part <:+: c :: b := by
  obtain ⟨before, after, h⟩ := h
  rw [List.append_assoc] at h
  rcases List.append_eq_append_iff.mp h with ⟨middle, rfl, hmiddle⟩ | ⟨middle, rfl, hmiddle⟩
  · cases middle with
    | nil => exact .inr ⟨[], after, hmiddle⟩
    | cons d middle =>
      simp only [List.cons_append, List.cons.injEq] at hmiddle
      obtain ⟨rfl, hmiddle⟩ := hmiddle
      rcases List.append_eq_append_iff.mp hmiddle with ⟨rest, rfl, -⟩ | ⟨rest, rfl, hrest⟩
      · exact .inl ⟨before, rest, by simp⟩
      · cases rest with
        | nil => exact .inl ⟨before, [], by simp⟩
        | cons e rest =>
          simp only [List.cons_append, List.cons.injEq] at hrest
          exact absurd (by simp [hrest.1]) hc
  · exact .inr ⟨middle, after, by rw [List.append_assoc, hmiddle]⟩

omit [DecidableEq α] in
theorem infix_append_of_notMem {c : α} {part a b : List α} (ha : c ∉ a) (h : c :: part <:+: a ++ b) :
    c :: part <:+: b := by
  induction a with
  | nil => exact h
  | cons d a ih =>
    rw [List.mem_cons, not_or] at ha
    rw [List.cons_append, List.infix_cons_iff] at h
    rcases h with h | h
    · exact absurd (List.cons_prefix_cons.mp h).1 ha.1
    · exact ih ha.2 h

/-- The last place of a part. -/
def rfind (part l : List α) : Option (List α × List α) :=
  (find part.reverse l.reverse).map fun found => (found.2.reverse, found.1.reverse)

/-! ### Reading one piece after the other -/

section Pieces
variable {β : Type u}

/-- What a step that may stop finds in a list and in what it leaves of it. -/
def piecesUpTo (step : List α → Option (List β × List α)) : Nat → List α → List β
  | 0, _ => []
  | n + 1, l =>
    match step l with
    | none => []
    | some (items, rest) => items ++ piecesUpTo step n rest

/-- A step leaves less than there was. -/
def pieces (step : List α → Option (List β × List α)) (l : List α) : List β :=
  piecesUpTo step (l.length + 1) l

variable {step : List α → Option (List β × List α)}

omit [DecidableEq α] in
theorem piecesUpTo_of_length_lt (hstep : ∀ l x, step l = some x → x.2.length < l.length) {n : Nat}
    {l : List α} (h : l.length < n) : piecesUpTo step n l = pieces step l := by
  unfold pieces
  induction n using Nat.strongRecOn generalizing l with
  | _ n ih =>
    obtain ⟨n, rfl⟩ := Nat.exists_eq_succ_of_ne_zero (Nat.ne_zero_of_lt h)
    rw [piecesUpTo, piecesUpTo]
    cases hl : step l with
    | none => rfl
    | some x =>
      have hlt := hstep l x hl
      change x.1 ++ piecesUpTo step n x.2 = x.1 ++ piecesUpTo step l.length x.2
      rcases Nat.lt_or_eq_of_le (Nat.le_of_lt_succ h) with hn | hn
      · rw [ih n (Nat.lt_succ_self n) (by omega), ih l.length (by omega) hlt]
      · rw [hn]

omit [DecidableEq α] in
theorem pieces_eq (hstep : ∀ l x, step l = some x → x.2.length < l.length) (l : List α) :
    pieces step l = match step l with
      | none => []
      | some x => x.1 ++ pieces step x.2 := by
  rw [pieces, piecesUpTo]
  cases hl : step l with
  | none => rfl
  | some x => exact congrArg _ (piecesUpTo_of_length_lt hstep (hstep l x hl))

end Pieces

/-! ### Parts in their order -/

/-- The parts occur one after the other, with anything around them. -/
def InOrder : List (List α) → List α → Prop
  | [], _ => True
  | part :: parts, l => ∃ before after, l = before ++ (part ++ after) ∧ InOrder parts after

def scan : List (List α) → List α → Bool
  | [], _ => true
  | part :: parts, l =>
    match find part l with
    | some found => scan parts found.2
    | none => false

omit [DecidableEq α] in
theorem InOrder.append {parts : List (List α)} {l : List α} (h : InOrder parts l) (front : List α) :
    InOrder parts (front ++ l) := by
  cases parts with
  | nil => trivial
  | cons part parts =>
    obtain ⟨before, after, rfl, hafter⟩ := h
    exact ⟨front ++ before, after, (List.append_assoc ..).symm, hafter⟩

theorem scan_iff {parts : List (List α)} {l : List α} : scan parts l = true ↔ InOrder parts l := by
  induction parts generalizing l with
  | nil => simp [scan, InOrder]
  | cons part parts ih =>
    rw [scan]
    constructor
    · intro h
      split at h
      · rename_i found hfound
        exact ⟨found.1, found.2, eq_of_find hfound, ih.mp h⟩
      · cases h
    · rintro ⟨before, after, rfl, hafter⟩
      obtain ⟨found, hfound, -⟩ := find_append part before after
      obtain ⟨front, hfront⟩ := suffix_of_find hfound
      rw [hfound]
      exact ih.mpr (hfront ▸ hafter.append front)

/-! ### Stars -/

/-- The list is the pattern with a list for each star. -/
def Matches (star : α) : (pattern l : List α) → Prop
  | [], l => l = []
  | c :: pattern, l =>
    if c = star then ∃ front rest, l = front ++ rest ∧ Matches star pattern rest
    else ∃ rest, l = c :: rest ∧ Matches star pattern rest

section Stars
variable {star : α} {pattern l : List α}

theorem matches_star : Matches star (star :: pattern) l ↔
    ∃ front rest, l = front ++ rest ∧ Matches star pattern rest := by
  rw [Matches, if_pos rfl]

theorem matches_append_of_notMem {part : List α} (h : star ∉ part) :
    Matches star (part ++ pattern) l ↔ ∃ rest, l = part ++ rest ∧ Matches star pattern rest := by
  induction part generalizing l with
  | nil => simp
  | cons c part ih =>
    have hc : c ≠ star := fun heq => h (heq ▸ List.mem_cons_self ..)
    rw [List.cons_append, Matches, if_neg hc]
    constructor
    · rintro ⟨rest, rfl, hrest⟩
      obtain ⟨rest', rfl, hmatches⟩ := (ih fun hmem => h (List.mem_cons_of_mem _ hmem)).mp hrest
      exact ⟨rest', rfl, hmatches⟩
    · rintro ⟨rest, rfl, hmatches⟩
      exact ⟨part ++ rest, rfl, (ih fun hmem => h (List.mem_cons_of_mem _ hmem)).mpr ⟨rest, rfl, hmatches⟩⟩

/-- A star at the end stands for anything. -/
theorem matches_concat_star : Matches star (pattern ++ [star]) l ↔
    ∃ front, front <+: l ∧ Matches star pattern front := by
  induction pattern generalizing l with
  | nil =>
    rw [List.nil_append, matches_star]
    simp [Matches]
  | cons c pattern ih =>
    rw [List.cons_append]
    by_cases hc : c = star
    · subst hc
      rw [matches_star]
      simp only [ih, matches_star]
      constructor
      · rintro ⟨front, rest, rfl, part, ⟨rest', rfl⟩, hmatches⟩
        refine ⟨front ++ part, ⟨rest', List.append_assoc ..⟩, front, part, rfl, hmatches⟩
      · rintro ⟨part, ⟨rest', rfl⟩, front, rest, rfl, hmatches⟩
        exact ⟨front, rest ++ rest', List.append_assoc .., rest, ⟨rest', rfl⟩, hmatches⟩
    · simp only [Matches, if_neg hc, ih]
      constructor
      · rintro ⟨rest, rfl, front, hfront, hmatches⟩
        exact ⟨c :: front, List.cons_prefix_cons.mpr ⟨rfl, hfront⟩, front, rfl, hmatches⟩
      · rintro ⟨part, ⟨rest', rfl⟩, rest, rfl, hmatches⟩
        exact ⟨rest ++ rest', rfl, rest, ⟨rest', rfl⟩, hmatches⟩

theorem matches_singleton : Matches star [star] l := by
  rw [matches_star]
  exact ⟨l, [], (List.append_nil l).symm, rfl⟩

/-- Between two stars the parts of the pattern occur in their order. -/
theorem matches_stars_iff : Matches star (star :: (pattern ++ [star])) l ↔
    InOrder (pattern.splitOn star) l := by
  induction hlength : pattern.length using Nat.strongRecOn generalizing pattern l with
  | _ n ih =>
    rw [matches_star]
    by_cases hmem : star ∈ pattern
    · obtain ⟨part, rest, rfl, hpart⟩ := List.eq_append_cons_of_mem hmem
      have hlt : rest.length < n := by
        rw [← hlength, List.length_append, List.length_cons]
        omega
      rw [List.splitOn_append_cons_self_of_not_mem hpart, List.append_assoc]
      simp only [List.cons_append, matches_append_of_notMem hpart, ih _ hlt rfl, InOrder]
      constructor
      · rintro ⟨front, _, rfl, after, rfl, hafter⟩
        exact ⟨front, after, rfl, hafter⟩
      · rintro ⟨front, after, rfl, hafter⟩
        exact ⟨front, _, rfl, after, rfl, hafter⟩
    · rw [List.splitOn_eq_singleton hmem]
      simp only [matches_append_of_notMem hmem, InOrder, and_true]
      constructor
      · rintro ⟨front, _, rfl, after, rfl, -⟩
        exact ⟨front, after, rfl⟩
      · rintro ⟨front, after, rfl⟩
        exact ⟨front, _, rfl, after, rfl, matches_singleton⟩

/-- A list that matches ends as the pattern does. -/
theorem Matches.getLast? {c : α} (hc : c ≠ star) (h : Matches star (pattern ++ [c]) l) :
    l.getLast? = some c := by
  induction pattern generalizing l with
  | nil =>
    rw [List.nil_append, Matches, if_neg hc] at h
    obtain ⟨rest, rfl, rfl⟩ := h
    rfl
  | cons d pattern ih =>
    rw [List.cons_append, Matches] at h
    split at h
    · obtain ⟨front, rest, rfl, hrest⟩ := h
      rw [List.getLast?_append, ih hrest]
      rfl
    · obtain ⟨rest, rfl, hrest⟩ := h
      rw [← List.singleton_append, List.getLast?_append, ih hrest]
      rfl

/-- A star may stand for nothing. -/
theorem matches_filter (pattern : List α) :
    Matches star pattern (pattern.filter fun c => decide (c ≠ star)) := by
  induction pattern with
  | nil => rfl
  | cons c pattern ih =>
    rw [Matches]
    split
    · rename_i hc
      exact ⟨[], _, by simp [hc], ih⟩
    · rename_i hc
      exact ⟨_, by simp [hc], ih⟩

end Stars

end Suture.Foundation
