import Suture.Engine.TextBytes

/-!
# Joined lines read again

Lines that are joined with newlines are read back without a carriage return at the end of each
but the last, and without the last one when it is empty.
-/

namespace Suture.Engine
set_option autoImplicit false

variable {line : String} {lines : List String}

/-- A line without a carriage return at its end. -/
def bareLine (line : String) : String :=
  if line.toList.getLast? = some '\r' then String.ofList line.toList.dropLast else line

def reread : List String → List String
  | [] => []
  | [line] => if line = "" then [] else [line]
  | line :: next :: rest => bareLine line :: reread (next :: rest)

theorem splitLines_line {l : List Char} (h : '\n' ∉ l) (rest : List Char) :
    splitLines (l ++ '\n' :: rest) [] = bareLine (String.ofList l) :: splitLines rest [] := by
  have hread : ∀ (l current : List Char), '\n' ∉ l →
      splitLines (l ++ '\n' :: rest) current = splitLines ('\n' :: rest) (l.reverse ++ current) := by
    intro l current hl
    induction l generalizing current with
    | nil => rfl
    | cons c l ih =>
      rw [List.mem_cons, not_or] at hl
      rw [List.cons_append, splitLines_cons_of_ne (Ne.symm hl.1), ih _ hl.2, List.reverse_cons,
        List.append_assoc]
      rfl
  rw [hread l [] h, List.append_nil]
  unfold bareLine
  rw [String.toList_ofList]
  cases hrev : l.reverse with
  | nil =>
    obtain rfl := List.reverse_eq_nil_iff.mp hrev
    rfl
  | cons c current =>
    obtain rfl : l = current.reverse ++ [c] := by
      rw [← List.reverse_reverse l, hrev, List.reverse_cons]
    rw [List.getLast?_concat, List.dropLast_concat]
    by_cases hc : c = '\r'
    · rw [if_pos (by rw [hc]), hc]
      rfl
    · rw [if_neg fun h => hc (Option.some.inj h), splitLines]
      · rw [List.reverse_cons]
      · intro current' h
        exact hc (List.cons.inj h).1

theorem textLines_intercalate (h : ∀ line ∈ lines, '\n' ∉ line.toList) :
    textLines ("\n".intercalate lines) = reread lines := by
  induction lines with
  | nil => rfl
  | cons line lines ih =>
    have hline := h line (List.mem_cons_self ..)
    cases lines with
    | nil =>
      unfold textLines
      rw [String.intercalate_singleton, splitLines_of_notMem hline, reread]
      by_cases hempty : line = ""
      · rw [if_pos hempty, hempty]
        rfl
      · rw [if_neg hempty, if_neg fun h => hempty (String.toList_inj.mp h.2)]
        simp
    | cons next rest =>
      have hrest := ih fun l hl => h l (List.mem_cons_of_mem _ hl)
      have htext : ("\n".intercalate (line :: next :: rest)).toList =
          line.toList ++ '\n' :: ("\n".intercalate (next :: rest)).toList :=
        joined_cons line (List.cons_ne_nil _ _)
      unfold textLines at hrest ⊢
      rw [htext, splitLines_line hline, hrest, reread, String.ofList_toList]

/-- Lines that each end with a newline. -/
theorem textLines_join (h : ∀ line ∈ lines, '\n' ∉ line.toList) :
    textLines (String.join (lines.map (· ++ "\n"))) = lines.map bareLine := by
  induction lines with
  | nil => rfl
  | cons line lines ih =>
    have hrest := ih fun l hl => h l (List.mem_cons_of_mem _ hl)
    have htext : (String.join ((line :: lines).map (· ++ "\n"))).toList =
        line.toList ++ '\n' :: (String.join (lines.map (· ++ "\n"))).toList := by
      simp
    unfold textLines at hrest ⊢
    rw [htext, splitLines_line (h line (List.mem_cons_self ..)), hrest, String.ofList_toList]
    rfl

theorem newline_notMem_splitLines {a current : List Char} (hcurrent : '\n' ∉ current)
    (h : line ∈ splitLines a current) : '\n' ∉ line.toList := by
  fun_induction splitLines a current with
  | case1 => cases h
  | case2 current _ =>
    rw [List.mem_singleton.mp h, String.toList_ofList, List.mem_reverse]
    exact hcurrent
  | case3 rest current ih =>
    rcases List.mem_cons.mp h with rfl | h
    · rw [String.toList_ofList, List.mem_reverse]
      exact fun hmem => hcurrent (List.mem_cons_of_mem _ hmem)
    · exact ih List.not_mem_nil h
  | case4 rest current _ ih =>
    rcases List.mem_cons.mp h with rfl | h
    · rwa [String.toList_ofList, List.mem_reverse]
    · exact ih List.not_mem_nil h
  | case5 c rest current _ hc ih =>
    refine ih (fun hmem => ?_) h
    rcases List.mem_cons.mp hmem with heq | hmem
    · exact hc heq.symm
    · exact hcurrent hmem

theorem newline_notMem_of_mem_textLines {text : String} (h : line ∈ textLines text) :
    '\n' ∉ line.toList :=
  newline_notMem_splitLines List.not_mem_nil h

end Suture.Engine
