import Suture.Engine.LineDiff

/-!
# The two sides of a diff

The unchanged and the deleted lines of a diff are the base, whichever algorithm made it. The
unchanged and the inserted ones are the modified side if the lines that were matched stand in
one order on both sides, as they always do with the LCS table.
-/

namespace Suture.Engine
set_option autoImplicit false

def LineChange.oldLines : LineChange → List String
  | .unchanged lines | .deleted lines => lines
  | .inserted _ => []

def LineChange.newLines : LineChange → List String
  | .unchanged lines | .inserted lines => lines
  | .deleted _ => []

def oldSide (changes : List LineChange) : List String := changes.flatMap LineChange.oldLines

def newSide (changes : List LineChange) : List String := changes.flatMap LineChange.newLines

variable {base modified : List String}

@[simp] theorem oldSide_nil : oldSide [] = [] := rfl

@[simp] theorem newSide_nil : newSide [] = [] := rfl

@[simp] theorem oldSide_cons (c : LineChange) (cs : List LineChange) :
    oldSide (c :: cs) = c.oldLines ++ oldSide cs := List.flatMap_cons

@[simp] theorem newSide_cons (c : LineChange) (cs : List LineChange) :
    newSide (c :: cs) = c.newLines ++ newSide cs := List.flatMap_cons

@[simp] theorem oldSide_append (cs ds : List LineChange) :
    oldSide (cs ++ ds) = oldSide cs ++ oldSide ds := List.flatMap_append

@[simp] theorem newSide_append (cs ds : List LineChange) :
    newSide (cs ++ ds) = newSide cs ++ newSide ds := List.flatMap_append

/-! ### Coalescing -/

theorem extendBy_sides {x c y : LineChange} (h : extendBy x c = some y) :
    y.oldLines = x.oldLines ++ c.oldLines ∧ y.newLines = x.newLines ++ c.newLines := by
  cases x with
  | unchanged v =>
    cases c with
    | unchanged new =>
      cases h
      exact ⟨rfl, rfl⟩
    | deleted new | inserted new => cases h
  | deleted v =>
    cases c with
    | deleted new =>
      cases h
      exact ⟨rfl, rfl⟩
    | unchanged new | inserted new => cases h
  | inserted v =>
    cases c with
    | inserted new =>
      cases h
      exact ⟨rfl, rfl⟩
    | unchanged new | deleted new => cases h

theorem absorb_sides (x : LineChange) (cs : List LineChange) :
    oldSide (absorb x cs) = oldSide (x :: cs) ∧ newSide (absorb x cs) = newSide (x :: cs) := by
  induction cs generalizing x with
  | nil => exact ⟨rfl, rfl⟩
  | cons c cs ih =>
    rw [absorb]
    cases hext : extendBy x c with
    | none =>
      obtain ⟨hold, hnew⟩ := ih c
      simp [hold, hnew]
    | some y =>
      obtain ⟨hold, hnew⟩ := ih y
      obtain ⟨hy, hy'⟩ := extendBy_sides hext
      simp [hold, hnew, hy, hy']

theorem coalesceChanges_sides (changes : List LineChange) :
    oldSide (coalesceChanges changes) = oldSide changes ∧
      newSide (coalesceChanges changes) = newSide changes := by
  cases changes with
  | nil => exact ⟨rfl, rfl⟩
  | cons c cs =>
    rw [coalesceChanges_cons]
    exact absorb_sides c cs

/-! ### The LCS table -/

theorem getD_cons_drop {lines : List String} {i : Nat} (h : i < lines.length) :
    lines.getD i "" :: lines.drop (i + 1) = lines.drop i := by
  rw [List.getD_eq_getElem?_getD, List.getElem?_eq_getElem h]
  exact (List.drop_eq_getElem_cons h).symm

/-- Backtracking gathers both sides from their ends. -/
theorem backtrack_sides {i j : Nat} {acc : List LineChange} (hi : i ≤ base.length)
    (hj : j ≤ modified.length) (hold : oldSide acc = base.drop i)
    (hnew : newSide acc = modified.drop j) :
    oldSide (backtrack base modified i j acc) = base ∧
      newSide (backtrack base modified i j acc) = modified := by
  fun_induction backtrack base modified i j acc with
  | case1 acc => exact ⟨hold, hnew⟩
  | case2 j acc ih =>
    apply ih hi (by omega)
    · rw [oldSide_cons, hold]
      rfl
    · rw [newSide_cons, hnew]
      exact getD_cons_drop (by omega)
  | case3 i acc ih =>
    apply ih (by omega) hj
    · rw [oldSide_cons, hold]
      exact getD_cons_drop (by omega)
    · rw [newSide_cons, hnew]
      rfl
  | case4 i j acc heq ih =>
    apply ih (by omega) (by omega)
    · rw [oldSide_cons, hold]
      exact getD_cons_drop (by omega)
    · rw [newSide_cons, hnew, List.getD_eq_getElem?_getD, heq, ← List.getD_eq_getElem?_getD]
      exact getD_cons_drop (by omega)
  | case5 i j acc hne hle ih =>
    apply ih hi (by omega)
    · rw [oldSide_cons, hold]
      rfl
    · rw [newSide_cons, hnew]
      exact getD_cons_drop (by omega)
  | case6 i j acc hne hlt ih =>
    apply ih (by omega) hj
    · rw [oldSide_cons, hold]
      exact getD_cons_drop (by omega)
    · rw [newSide_cons, hnew]
      rfl

theorem diffLinesDp_sides (base modified : List String) :
    oldSide (diffLinesDp base modified) = base ∧ newSide (diffLinesDp base modified) = modified := by
  obtain ⟨hold, hnew⟩ := coalesceChanges_sides (backtrack base modified base.length modified.length [])
  unfold diffLinesDp
  rw [hold, hnew]
  exact backtrack_sides (Nat.le_refl _) (Nat.le_refl _) (by simp) (by simp)

/-! ### Matched positions -/

theorem oldSide_deleteAll (lines : List String) :
    oldSide (lines.map fun l => .deleted [l]) = lines := by
  induction lines with
  | nil => rfl
  | cons l lines ih => simp [ih, LineChange.oldLines]

theorem oldSide_insertAll (lines : List String) :
    oldSide (lines.map fun l => .inserted [l]) = [] := by
  induction lines with
  | nil => rfl
  | cons l lines ih => simp [ih, LineChange.oldLines]

theorem newSide_deleteAll (lines : List String) :
    newSide (lines.map fun l => .deleted [l]) = [] := by
  induction lines with
  | nil => rfl
  | cons l lines ih => simp [ih, LineChange.newLines]

theorem newSide_insertAll (lines : List String) :
    newSide (lines.map fun l => .inserted [l]) = lines := by
  induction lines with
  | nil => rfl
  | cons l lines ih => simp [ih, LineChange.newLines]

theorem slice_append_drop {lines : List String} {lo hi : Nat} (h : lo ≤ hi) :
    slice lines lo hi ++ lines.drop hi = lines.drop lo := by
  have hdrop : lines.drop hi = (lines.drop lo).drop (hi - lo) := by
    rw [List.drop_drop]
    congr 1
    omega
  rw [slice, hdrop, List.take_append_drop]

theorem slice_length (lines : List String) (lo : Nat) : slice lines lo lines.length = lines.drop lo := by
  rw [slice, List.take_of_length_le]
  rw [List.length_drop]

theorem emitChanges_oldSide (pairs : List (Nat × Nat)) : ∀ bi mi, bi ≤ base.length →
    Ascends base.length bi pairs → oldSide (emitChanges base modified pairs bi mi) = base.drop bi := by
  induction pairs with
  | nil =>
    intro bi mi _ _
    simp only [emitChanges, oldSide_append, oldSide_deleteAll, oldSide_insertAll, List.append_nil,
      slice_length]
  | cons p rest ih =>
    intro bi mi _ hasc
    obtain ⟨basePos, modPos⟩ := p
    obtain ⟨hle, hlt, hrest⟩ := hasc
    rw [emitChanges, max_eq_right hle]
    simp only [oldSide_append, oldSide_deleteAll, oldSide_insertAll, List.append_nil, oldSide_cons,
      ih (basePos + 1) _ hlt hrest]
    rw [← slice_append_drop hle]
    exact congrArg _ (getD_cons_drop hlt)

theorem diffLinesLinear_oldSide (base modified : List String) :
    oldSide (diffLinesLinear base modified) = base := by
  have hasc := matchedPairs_ascends modified base 0 []
  rw [Nat.zero_add] at hasc
  unfold diffLinesLinear
  rw [(coalesceChanges_sides _).1, emitChanges_oldSide _ 0 0 (Nat.zero_le _) hasc, List.drop_zero]

/-- The unchanged and the deleted lines are the base. -/
theorem diffLines_oldSide (base modified : List String) : oldSide (diffLines base modified) = base := by
  unfold diffLines
  split_ifs with hempty hbase hmodified
  · rw [hempty.1]
    rfl
  · rw [hbase]
    rfl
  · simp [LineChange.oldLines]
  · exact (diffLinesDp_sides base modified).1
  · exact diffLinesLinear_oldSide base modified

/-- The unchanged and the inserted lines are the modified side. -/
def Exact (base modified : List String) : Prop := newSide (diffLines base modified) = modified

theorem exact_nil (modified : List String) : Exact [] modified := by
  unfold Exact diffLines
  by_cases hempty : modified = []
  · rw [if_pos ⟨rfl, hempty⟩, hempty]
    rfl
  · rw [if_neg fun h => hempty h.2, if_pos rfl]
    simp [LineChange.newLines]

theorem exact_to_nil (base : List String) : Exact base [] := by
  unfold Exact diffLines
  by_cases hbase : base = []
  · rw [if_pos ⟨hbase, rfl⟩]
    rfl
  · rw [if_neg fun h => hbase h.1, if_neg hbase, if_pos rfl]
    rfl

/-- Up to the bound of the table, diffs are exact. -/
theorem exact_of_length (hbase : base.length ≤ lcsDpThreshold)
    (hmodified : modified.length ≤ lcsDpThreshold) : Exact base modified := by
  by_cases hnil : base = []
  · rw [hnil]
    exact exact_nil modified
  · unfold Exact diffLines
    split_ifs with hempty hnil'
    · exact absurd hempty.1 hnil
    · rw [hnil']
      rfl
    · exact (diffLinesDp_sides base modified).2
    · rename_i hlong
      exact absurd ⟨hbase, hmodified⟩ hlong

/-- A matched line is the same on both sides. -/
theorem matchedPairs_same_line (modified rest : List String) : ∀ bi usedMod,
    ∀ p ∈ matchedPairs modified bi rest usedMod, bi ≤ p.1 ∧
      ∃ line, rest[p.1 - bi]? = some line ∧ modified[p.2]? = some line := by
  induction rest with
  | nil => exact fun _ _ p hp => absurd hp List.not_mem_nil
  | cons line rest ih =>
    intro bi usedMod p hp
    have hlater : ∀ usedMod, p ∈ matchedPairs modified (bi + 1) rest usedMod → bi ≤ p.1 ∧
        ∃ line', (line :: rest)[p.1 - bi]? = some line' ∧ modified[p.2]? = some line' := by
      intro usedMod hp
      obtain ⟨hle, line', hrest, hmod⟩ := ih (bi + 1) usedMod p hp
      have hsucc : p.1 - bi = p.1 - (bi + 1) + 1 := by omega
      refine ⟨by omega, line', ?_, hmod⟩
      rw [hsucc, List.getElem?_cons_succ, hrest]
    rw [matchedPairs] at hp
    split at hp
    · rename_i mi hfind
      rcases List.mem_cons.mp hp with rfl | hp
      · have hmem := List.mem_filter.mp (List.mem_of_find?_eq_some hfind)
        refine ⟨Nat.le_refl _, line, ?_, of_decide_eq_true hmem.2⟩
        simp
      · exact hlater _ hp
    · exact hlater _ hp

end Suture.Engine
