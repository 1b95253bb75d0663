import Mathlib.Data.List.TakeWhile
import Suture.Engine.LineMerge

/-!
# What is read off the lines of a text

A reader of lines that passes over an empty line and a carriage return at the end of one reads
a text with a newline in it like the two texts around the newline.
-/

namespace Suture.Engine
set_option autoImplicit false

/-- The first line, without its end. -/
def firstLine (text : String) : String := String.ofList (text.toList.takeWhile fun c => c ≠ '\n')

/-- What comes after the first newline. -/
def laterText (text : String) : String :=
  String.ofList ((text.toList.dropWhile fun c => c ≠ '\n').drop 1)

/-- A reader that passes over empty lines, and carriage returns at their ends. -/
structure Lenient {β : Type} (read : String → Option β) : Prop where
  empty : read "" = none
  ended : ∀ l, read (String.ofList (l ++ ['\r'])) = read (String.ofList l)

variable {β : Type} {read : String → Option β} {a b current : List Char}

theorem splitLines_cons_of_ne {c : Char} (hc : c ≠ '\n') (a current : List Char) :
    splitLines (c :: a) current = splitLines a (c :: current) := by
  rw [splitLines]
  · exact hc
  · exact fun _ _ h => absurd h hc

theorem splitLines_of_notMem (h : '\n' ∉ a) (current : List Char) : splitLines a current =
    if current = [] ∧ a = [] then [] else [String.ofList (current.reverse ++ a)] := by
  induction a generalizing current with
  | nil => simp [splitLines]
  | cons c a ih =>
    rw [List.mem_cons, not_or] at h
    rw [splitLines_cons_of_ne (Ne.symm h.1), ih h.2]
    simp

theorem splitLines_newline (read : String → Option β) (current : List Char) :
    ∃ line, (∀ rest, splitLines ('\n' :: rest) current = line :: splitLines rest []) ∧
      (Lenient read → read line = read (String.ofList current.reverse)) := by
  cases current with
  | nil => exact ⟨_, fun _ => rfl, fun _ => rfl⟩
  | cons c current =>
    by_cases hc : c = '\r'
    · subst hc
      refine ⟨_, fun _ => rfl, fun hread => ?_⟩
      rw [List.reverse_cons, hread.ended]
    · refine ⟨String.ofList (c :: current).reverse, fun rest => ?_, fun _ => rfl⟩
      rw [splitLines]
      intro _ h
      exact absurd (List.cons.inj h).1 hc

theorem infix_of_mem_splitLines {line : String} (h : line ∈ splitLines a current) :
    line.toList <:+: current.reverse ++ a := by
  induction a, current using splitLines.induct with
  | case1 => simp [splitLines] at h
  | case2 current hcurrent =>
    rw [splitLines, if_neg hcurrent, List.mem_singleton] at h
    rw [h, String.toList_ofList]
    exact ⟨[], [], by simp⟩
  | case3 rest current ih =>
    rcases List.mem_cons.mp h with rfl | h
    · rw [String.toList_ofList]
      exact ⟨[], '\r' :: '\n' :: rest, by simp⟩
    · refine (ih h).trans ⟨current.reverse ++ ['\r', '\n'], [], by simp⟩
  | case4 rest current hcurrent ih =>
    rw [splitLines] at h
    rcases List.mem_cons.mp h with rfl | h
    · rw [String.toList_ofList]
      exact ⟨[], '\n' :: rest, by simp⟩
    · exact (ih h).trans ⟨current.reverse ++ ['\n'], [], by simp⟩
    · exact hcurrent
  | case5 c rest current hreturn hnewline ih =>
    rw [splitLines] at h
    · simpa using ih h
    · exact hnewline
    · exact hreturn

theorem read_splitLines_append (hread : Lenient read) (a b current : List Char) :
    (splitLines (a ++ '\n' :: b) current).filterMap read =
      (splitLines a current).filterMap read ++ (splitLines b []).filterMap read := by
  induction a generalizing current with
  | nil =>
    obtain ⟨line, hlines, hline⟩ := splitLines_newline read current
    rw [List.nil_append, hlines, List.filterMap_cons, hline hread]
    by_cases hcurrent : current = []
    · rw [hcurrent]
      simp [splitLines, hread.empty]
    · rw [splitLines, if_neg hcurrent]
      cases hfound : read (String.ofList current.reverse) <;> simp [hfound]
  | cons c a ih =>
    by_cases hc : c = '\n'
    · subst hc
      obtain ⟨line, hlines, -⟩ := splitLines_newline read current
      rw [List.cons_append, hlines, hlines, List.filterMap_cons, List.filterMap_cons, ih]
      cases read line <;> simp
    · rw [List.cons_append, splitLines_cons_of_ne hc, splitLines_cons_of_ne hc, ih]

/-- What is read off the lines of a text. -/
def readLines (read : String → Option β) (text : String) : List β := (textLines text).filterMap read

theorem readLines_newline (hread : Lenient read) (a b : String) :
    readLines read (a ++ "\n" ++ b) = readLines read a ++ readLines read b := by
  have htext : (a ++ "\n" ++ b).toList = a.toList ++ '\n' :: b.toList := by simp
  unfold readLines textLines
  rw [htext, read_splitLines_append hread]

theorem readLines_intercalate (hread : Lenient read) (texts : List String) :
    readLines read ("\n".intercalate texts) = texts.flatMap (readLines read) := by
  induction texts with
  | nil => rfl
  | cons text texts ih =>
    cases texts with
    | nil => simp
    | cons text' texts =>
      rw [String.intercalate_cons_cons, readLines_newline hread, ih, ← List.flatMap_cons]

/-- The lines of a text are its first line and those of the later text. -/
theorem readLines_eq (hread : Lenient read) (text : String) :
    readLines read text = (read (firstLine text)).toList ++ readLines read (laterText text) := by
  have hline : ∀ l : List Char, '\n' ∉ l →
      (splitLines l []).filterMap read = (read (String.ofList l)).toList := by
    intro l hl
    rw [splitLines_of_notMem hl]
    split
    · rename_i hempty
      rw [hempty.2]
      have hnone : read (String.ofList []) = none := hread.empty
      rw [hnone]
      rfl
    · cases hfound : read (String.ofList l) <;> simp [hfound]
  have hfirst : '\n' ∉ text.toList.takeWhile fun c => c ≠ '\n' := by
    intro hmem
    have hne := List.mem_takeWhile_imp hmem
    simp at hne
  unfold readLines textLines firstLine laterText
  rw [String.toList_ofList]
  conv_lhs => rw [← List.takeWhile_append_dropWhile (p := fun c => decide (c ≠ '\n')) (l := text.toList)]
  cases hrest : text.toList.dropWhile fun c => decide (c ≠ '\n') with
  | nil =>
    rw [List.append_nil, hline _ hfirst]
    simp [splitLines]
  | cons c rest =>
    have hc := List.head_dropWhile_not (fun c => decide (c ≠ '\n')) (l := text.toList)
      (by rw [hrest]; exact List.cons_ne_nil _ _)
    simp only [hrest, List.head_cons] at hc
    obtain rfl : c = '\n' := by simpa using hc
    rw [read_splitLines_append hread, hline _ hfirst]
    rfl

end Suture.Engine
