import Suture.Foundation.Search

/-!
# Sparse patterns

The paths of a sparse checkout are those that match a pattern. The parts between the stars of a
pattern are searched for from left to right; nothing asks that the last one ends the path.
-/

namespace Suture.Repo
set_option autoImplicit false
open Foundation

/-- The parts from the `i`-th on, in what is left of the path. -/
def globParts : Nat → List (List Char) → List Char → Bool
  | _, [], _ => true
  | i, part :: parts, rest =>
    if part = [] then globParts (i + 1) parts rest
    else if i = 0 then
      if part <+: rest then globParts (i + 1) parts (rest.drop part.length) else false
    else
      match find part rest with
      | some found => globParts (i + 1) parts found.2
      | none => false

def globMatch (pattern path : String) : Bool :=
  if pattern = "*" ∨ pattern = "**" then true
  else
    let parts := pattern.toList.splitOn '*'
    if parts.length = 1 then path = pattern ∨ (pattern ++ "/").toList <+: path.toList
    else globParts 0 parts path.toList

def matchesSparsePattern (path : String) (patterns : List String) : Bool :=
  if patterns = [] then true else patterns.any fun pattern => globMatch pattern path

structure StarPattern (pattern : String) : Prop where
  star : '*' ∈ pattern.toList
  ne_star : pattern ≠ "*"
  ne_stars : pattern ≠ "**"

/-- The path is the pattern with a text for each star. -/
def Globs (pattern : String) (path : List Char) : Prop := Matches '*' pattern.toList path

/-! ### A prefix of the path is matched -/

theorem globParts_eq_scan {i : Nat} (hi : i ≠ 0) (parts : List (List Char)) (rest : List Char) :
    globParts i parts rest = scan parts rest := by
  induction parts generalizing i rest with
  | nil => rfl
  | cons part parts ih =>
    rw [globParts, scan]
    split
    · rename_i hempty
      rw [hempty, find_of_prefix List.nil_prefix]
      exact ih (Nat.succ_ne_zero i) _
    · cases find part rest with
      | none => rfl
      | some found => exact ih (Nat.succ_ne_zero i) _

theorem globParts_zero (part : List Char) (parts : List (List Char)) (path : List Char) :
    globParts 0 (part :: parts) path = true ↔
      ∃ rest, path = part ++ rest ∧ InOrder parts rest := by
  rw [globParts]
  split
  · rename_i hempty
    subst hempty
    rw [globParts_eq_scan (Nat.succ_ne_zero 0), scan_iff]
    simp
  · rw [if_pos rfl]
    split
    · rename_i hprefix
      obtain ⟨rest, rfl⟩ := hprefix
      rw [List.drop_left, globParts_eq_scan (Nat.succ_ne_zero 0), scan_iff]
      simp
    · rename_i hprefix
      simp only [Bool.false_eq_true, false_iff]
      rintro ⟨rest, rfl, -⟩
      exact hprefix (List.prefix_append ..)

theorem globMatch_iff {pattern : String} (h : StarPattern pattern) (path : String) :
    globMatch pattern path = true ↔ ∃ front, front <+: path.toList ∧ Globs pattern front := by
  obtain ⟨part, rest, hsplit, hpart⟩ := List.eq_append_cons_of_mem h.star
  have hparts : pattern.toList.splitOn '*' = part :: rest.splitOn '*' := by
    rw [hsplit, List.splitOn_append_cons_self_of_not_mem hpart]
  have hmany : (part :: rest.splitOn '*').length ≠ 1 := by
    have hpos := List.length_pos_of_ne_nil (List.splitOn_ne_nil '*' rest)
    rw [List.length_cons]
    omega
  rw [globMatch, if_neg (not_or.mpr ⟨h.ne_star, h.ne_stars⟩), hparts]
  simp only
  rw [if_neg hmany, globParts_zero]
  unfold Globs
  rw [← matches_concat_star, hsplit, List.append_assoc]
  simp only [List.cons_append, matches_append_of_notMem hpart, matches_stars_iff]

/-! ### The whole path -/

/-- A path is taken by mistake when only a part of it, from the first character on, matches. -/
theorem globMatch_path_iff {pattern : String} (h : StarPattern pattern) (path : String) :
    (globMatch pattern path = true ↔ Globs pattern path.toList) ↔
      ∀ front, front <+: path.toList → Globs pattern front → Globs pattern path.toList := by
  rw [globMatch_iff h]
  constructor
  · intro hwhole front hfront hglobs
    exact hwhole.mp ⟨front, hfront, hglobs⟩
  · intro hwhole
    exact ⟨fun ⟨front, hfront, hglobs⟩ => hwhole front hfront hglobs,
      fun hglobs => ⟨path.toList, List.prefix_refl _, hglobs⟩⟩

theorem exists_extended {pattern : String} {c : Char} (hlast : pattern.toList.getLast? = some c)
    (hc : c ≠ '*') : ∃ path : String, ∃ front, front <+: path.toList ∧ Globs pattern front ∧
      ¬ Globs pattern path.toList := by
  obtain ⟨d, hd⟩ : ∃ d : Char, d ≠ c := by
    by_cases ha : c = 'a'
    · exact ⟨'b', by rw [ha]; decide⟩
    · exact ⟨'a', Ne.symm ha⟩
  let front := pattern.toList.filter fun c => decide (c ≠ '*')
  refine ⟨String.ofList (front ++ [d]), front, ?_, matches_filter _, fun hglobs => ?_⟩
  · rw [String.toList_ofList]
    exact List.prefix_append ..
  · obtain ⟨before, hbefore⟩ := List.getLast?_eq_some_iff.mp hlast
    unfold Globs at hglobs
    rw [hbefore, String.toList_ofList] at hglobs
    have hend := hglobs.getLast? hc
    rw [List.getLast?_concat, Option.some.injEq] at hend
    exact hd hend

/-- A pattern is matched with whole paths exactly when it ends with a star; with another one, a
path is taken by mistake when it goes on after a text that matches. -/
theorem globMatch_whole_iff {pattern : String} (h : StarPattern pattern) :
    ((∀ path : String, globMatch pattern path = true ↔ Globs pattern path.toList) ↔
      pattern.toList.getLast? = some '*') ∧
    ∀ path : String, (globMatch pattern path = true ↔ Globs pattern path.toList) ↔
      ∀ front, front <+: path.toList → Globs pattern front → Globs pattern path.toList := by
  refine ⟨⟨fun hwhole => ?_, fun hlast path => ?_⟩, globMatch_path_iff h⟩
  · obtain ⟨c, hlast⟩ : ∃ c, pattern.toList.getLast? = some c :=
      Option.ne_none_iff_exists'.mp fun hnone =>
        List.ne_nil_of_mem h.star (List.getLast?_eq_none_iff.mp hnone)
    by_contra hstar
    obtain ⟨path, front, hfront, hglobs, hno⟩ :=
      exists_extended hlast fun hc => hstar (hc ▸ hlast)
    exact hno ((globMatch_path_iff h path).mp (hwhole path) front hfront hglobs)
  · refine (globMatch_path_iff h path).mpr fun front hfront hglobs => ?_
    obtain ⟨before, hbefore⟩ := List.getLast?_eq_some_iff.mp hlast
    unfold Globs at hglobs ⊢
    rw [hbefore, matches_concat_star] at hglobs ⊢
    obtain ⟨part, hpart, hmatches⟩ := hglobs
    exact ⟨part, hpart.trans hfront, hmatches⟩

/-- A file below a directory. -/
theorem globMatch_whole_source :
    globMatch "src/**" "src/lib.rs" = true ↔ Globs "src/**" "src/lib.rs".toList :=
  (globMatch_whole_iff ⟨by decide, by decide, by decide⟩).1.mpr (by decide) "src/lib.rs"

/-- A backup of a source file is taken for one. -/
theorem backup_globbed : StarPattern "*.rs" ∧ globMatch "*.rs" "main.rs.bak" = true ∧
    ¬ Globs "*.rs" "main.rs.bak".toList := by
  refine ⟨⟨by decide, by decide, by decide⟩, by decide, fun hglobs => ?_⟩
  have hlast := @Matches.getLast? _ _ '*' ['*', '.', 'r'] _ 's' (by decide) hglobs
  exact absurd hlast (by decide)

end Suture.Repo
