import Mathlib.Data.List.Infix
import Suture.Engine.TextLines

/-!
# The bytes of a merged text

The merge splits texts at their line ends and joins what it chose with newlines. A version
that is taken over whole keeps its bytes exactly when no line of it ends in a carriage return
and a newline and the last one ends without a newline.
-/

namespace Suture.Engine
set_option autoImplicit false

variable {a current : List Char}

/-- No line ends in a carriage return and a newline, and the last one ends in nothing. -/
structure PlainEnds (text : List Char) : Prop where
  noReturn : ¬ ['\r', '\n'] <:+: text
  noLast : text.getLast? ≠ some '\n'

/-! ### Lines joined again -/

def joined (lines : List String) : List Char := ("\n".intercalate lines).toList

theorem joined_singleton (l : String) : joined [l] = l.toList := by
  unfold joined
  rw [String.intercalate_singleton]

theorem joined_cons (l : String) {lines : List String} (h : lines ≠ []) :
    joined (l :: lines) = l.toList ++ '\n' :: joined lines := by
  obtain ⟨m, lines, rfl⟩ := List.exists_cons_of_ne_nil h
  unfold joined
  rw [String.intercalate_cons_cons]
  simp

theorem length_joined_cons (l : String) (lines : List String) :
    (joined (l :: lines)).length ≤ l.toList.length + 1 + (joined lines).length := by
  cases lines with
  | nil =>
    rw [joined_singleton]
    omega
  | cons m lines =>
    rw [joined_cons l (List.cons_ne_nil m lines)]
    simp only [List.length_append, List.length_cons]
    omega

theorem splitLines_ne_nil (h : current ≠ [] ∨ a ≠ []) : splitLines a current ≠ [] := by
  fun_induction splitLines a current with
  | case1 => simp at h
  | case2 current hcurrent => exact List.cons_ne_nil _ _
  | case3 rest current => exact List.cons_ne_nil _ _
  | case4 rest current => exact List.cons_ne_nil _ _
  | case5 c rest current _ _ ih => exact ih (.inl (List.cons_ne_nil c current))

/-- Splitting adds no characters. -/
theorem length_joined_splitLines (a current : List Char) :
    (joined (splitLines a current)).length ≤ current.length + a.length := by
  fun_induction splitLines a current with
  | case1 => exact Nat.zero_le _
  | case2 current hcurrent =>
    rw [joined_singleton, String.toList_ofList, List.length_reverse]
    omega
  | case3 rest current ih =>
    have hle := length_joined_cons (String.ofList current.reverse) (splitLines rest [])
    rw [String.toList_ofList, List.length_reverse] at hle
    simp only [List.length_cons, List.length_nil] at ih ⊢
    omega
  | case4 rest current _ ih =>
    have hle := length_joined_cons (String.ofList current.reverse) (splitLines rest [])
    rw [String.toList_ofList, List.length_reverse] at hle
    simp only [List.length_cons, List.length_nil] at ih ⊢
    omega
  | case5 c rest current _ _ ih =>
    simp only [List.length_cons] at ih ⊢
    omega

/-! ### Plain ends -/

theorem plainEnds_of_notMem (h : '\n' ∉ a) : PlainEnds a where
  noReturn := fun hin => h (hin.subset (List.mem_cons_of_mem _ (List.mem_singleton_self _)))
  noLast := fun hlast => h (List.mem_of_getLast? hlast)

/-- A line that does not end in a carriage return does not matter. -/
theorem infix_newline {line rest : List Char} (hline : '\n' ∉ line)
    (hend : line.getLast? ≠ some '\r') :
    ['\r', '\n'] <:+: line ++ '\n' :: rest ↔ ['\r', '\n'] <:+: rest := by
  induction line with
  | nil =>
    rw [List.nil_append, List.infix_cons_iff]
    apply or_iff_right
    intro hpre
    have hhead := (List.cons_prefix_cons.mp hpre).1
    exact absurd hhead (by decide)
  | cons c line ih =>
    rw [List.mem_cons, not_or] at hline
    rw [List.cons_append, List.infix_cons_iff]
    cases line with
    | nil =>
      rw [ih hline.2 (by simp)]
      apply or_iff_right
      intro hpre
      have hhead := (List.cons_prefix_cons.mp hpre).1
      apply hend
      rw [← hhead]
      rfl
    | cons c' line =>
      rw [List.getLast?_cons_cons] at hend
      rw [ih hline.2 hend]
      apply or_iff_right
      intro hpre
      have htail := (List.cons_prefix_cons.mp hpre).2
      have hhead := (List.cons_prefix_cons.mp htail).1
      apply hline.2
      rw [← hhead]
      exact List.mem_cons_self ..

theorem plainEnds_newline {line rest : List Char} (hline : '\n' ∉ line)
    (hend : line.getLast? ≠ some '\r') (hrest : rest ≠ []) :
    PlainEnds (line ++ '\n' :: rest) ↔ PlainEnds rest := by
  have hlast : (line ++ '\n' :: rest).getLast? = rest.getLast? := by
    obtain ⟨c, rest, rfl⟩ := List.exists_cons_of_ne_nil hrest
    rw [List.getLast?_append, List.getLast?_cons_cons, List.getLast?_cons, Option.some_or]
  constructor
  · intro h
    exact ⟨fun hin => h.noReturn ((infix_newline hline hend).mpr hin), hlast ▸ h.noLast⟩
  · intro h
    exact ⟨fun hin => h.noReturn ((infix_newline hline hend).mp hin), hlast ▸ h.noLast⟩

/-- Joining the lines gives the text back exactly when its ends are plain. -/
theorem joined_splitLines_iff (a current : List Char) (hcurrent : '\n' ∉ current) :
    joined (splitLines a current) = current.reverse ++ a ↔ PlainEnds (current.reverse ++ a) := by
  fun_induction splitLines a current with
  | case1 => exact iff_of_true rfl (plainEnds_of_notMem List.not_mem_nil)
  | case2 current hne =>
    rw [joined_singleton, String.toList_ofList, List.append_nil]
    exact iff_of_true rfl (plainEnds_of_notMem (by rwa [List.mem_reverse]))
  | case3 rest current ih =>
    -- the carriage return is lost, so what is joined is too short
    apply iff_of_false
    · intro heq
      have hle := length_joined_cons (String.ofList current.reverse) (splitLines rest [])
      have hrest := length_joined_splitLines rest []
      rw [heq, String.toList_ofList] at hle
      simp only [List.length_append, List.length_reverse, List.length_cons, List.length_nil] at hle hrest
      omega
    · intro h
      apply h.noReturn
      refine ⟨current.reverse, rest, ?_⟩
      simp
  | case4 rest current hreturn ih =>
    have hline : '\n' ∉ current.reverse := by rwa [List.mem_reverse]
    have hend : current.reverse.getLast? ≠ some '\r' := by
      rw [List.getLast?_reverse]
      intro hhead
      obtain ⟨tail, htail⟩ := List.head?_eq_some_iff.mp hhead
      exact hreturn tail htail
    by_cases hrest : rest = []
    · subst hrest
      apply iff_of_false
      · intro heq
        have hlen := congrArg List.length heq
        simp [splitLines, joined_singleton] at hlen
      · intro h
        exact h.noLast (by simp)
    · rw [joined_cons _ (splitLines_ne_nil (.inr hrest)), String.toList_ofList,
        plainEnds_newline hline hend hrest, List.append_cancel_left_eq, List.cons_inj_right]
      exact ih List.not_mem_nil
  | case5 c rest current _ hnewline ih =>
    have hc : '\n' ∉ c :: current := by
      rw [List.mem_cons, not_or]
      exact ⟨fun heq => hnewline heq.symm, hcurrent⟩
    have ih := ih hc
    rwa [List.reverse_cons, List.append_assoc, List.singleton_append] at ih

/-! ### Versions taken over whole -/

theorem joined_textLines_iff (text : String) :
    "\n".intercalate (textLines text) = text ↔ PlainEnds text.toList := by
  rw [← String.toList_inj]
  exact joined_splitLines_iff text.toList [] List.not_mem_nil

/-- The three merges that take `text` over whole. -/
structure TakesOver (base text : String) (result : Except (List String) String)
    (headBranch sourceBranch : String) : Prop where
  agreed : threeWayMerge (some base) text text headBranch sourceBranch = result
  theirs : threeWayMerge (some base) base text headBranch sourceBranch = result
  ours : threeWayMerge (some base) text base headBranch sourceBranch = result

theorem threeWayMerge_takesOver (base text headBranch sourceBranch : String) :
    TakesOver base text (.ok ("\n".intercalate (textLines text))) headBranch sourceBranch where
  agreed := by simp [threeWayMerge, threeWayMergeLines]
  theirs := by
    unfold threeWayMerge threeWayMergeLines
    by_cases h : textLines base = textLines text <;> simp [h]
  ours := by
    unfold threeWayMerge threeWayMergeLines
    by_cases h : textLines text = textLines base
    · simp [h]
    · simp [h, Ne.symm h]

theorem threeWayMerge_keeps_bytes_iff (base text headBranch sourceBranch : String) :
    (threeWayMerge (some base) text text headBranch sourceBranch = .ok text ∧
      threeWayMerge (some base) base text headBranch sourceBranch = .ok text ∧
      threeWayMerge (some base) text base headBranch sourceBranch = .ok text) ↔
    PlainEnds text.toList := by
  obtain ⟨hagreed, htheirs, hours⟩ := threeWayMerge_takesOver base text headBranch sourceBranch
  rw [hagreed, htheirs, hours, ← joined_textLines_iff, and_self, and_self, Except.ok.injEq]

/-- A file that ends with a newline loses it. -/
theorem last_newline_lost : ¬ ∀ base text headBranch sourceBranch : String,
    threeWayMerge (some base) text text headBranch sourceBranch = .ok text ∧
      threeWayMerge (some base) base text headBranch sourceBranch = .ok text ∧
      threeWayMerge (some base) text base headBranch sourceBranch = .ok text := by
  intro h
  have hagreed := (h "a\n" "a\n" "" "").1
  rw [(threeWayMerge_takesOver "a\n" "a\n" "" "").agreed, Except.ok.injEq, joined_textLines_iff] at hagreed
  exact hagreed.noLast (by decide)

end Suture.Engine
