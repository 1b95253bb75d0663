import Suture.Patches.Types

/-!
# Bisecting

`bisect run` halves the positions between a good and a bad commit. The log is newest first, so the
good commit has the higher index. A midpoint that was tested is left out of the half that is kept,
also when it is the first bad commit or the last good one.
-/

namespace Suture.Cli
set_option autoImplicit false
open Patches

section Bisect
variable {H : Type}

inductive BisectEnd (H : Type) where
  | firstBad (id : H) (steps : Nat)
  | aborted
deriving DecidableEq, Repr

/-- `none` is a panic. The test of a commit is `none` when the command cannot be executed. -/
def bisectLoop (orderedLog : List (Patch H)) (test : H → Option Bool)
    (currentGood currentBad step : Nat) : Option (BisectEnd H) :=
  let step := step + 1
  let remaining := currentGood - (currentBad + 1)
  if _hremaining : remaining = 0 then
    -- the index below 0 and the index after the last one
    if currentGood = 0 then none
    else orderedLog[currentGood - 1]?.map fun firstBad => .firstBad firstBad.id step
  else
    let midpointIdx := (currentGood + currentBad) / 2
    match orderedLog[midpointIdx]? with
    | none => none
    | some midpoint =>
      match test midpoint.id with
      | none => some .aborted
      | some true =>
        if midpointIdx = 0 then none
        else bisectLoop orderedLog test (midpointIdx - 1) currentBad step
      | some false => bisectLoop orderedLog test currentGood (midpointIdx + 1) step
termination_by currentGood - currentBad

def notFound (ref : String) : String := "'" ++ ref ++ "' not found in history"

variable [DecidableEq H]

/-- `cmd_bisect` for `Run`, after the two references are resolved. -/
def bisectRun (cmd : List String) (log : List (Patch H)) (goodRef badRef : String)
    (goodPatch badPatch : H) (badAncestors : List H) (test : H → Option Bool) :
    Except String (Option (BisectEnd H)) :=
  if cmd = [] then .error "bisect run requires a command to execute"
  else match log.findIdx? fun p => p.id = goodPatch, log.findIdx? fun p => p.id = badPatch with
    | none, _ => .error (notFound goodRef)
    | some _, none => .error (notFound badRef)
    | some goodIdx, some badIdx =>
      if goodPatch ∉ badAncestors ∧ goodPatch ≠ badPatch then
        .error "'good' must be an ancestor of 'bad'"
      else
        let (olderIdx, newerIdx) :=
          if goodIdx > badIdx then (goodIdx, badIdx) else (badIdx, goodIdx)
        .ok (bisectLoop log test olderIdx newerIdx 0)

/-! ### The intervals that are left -/

/-- The halving of an interval, whatever the tests say, can end with one whose good end is the
position after `firstBad`. -/
inductive Ends (firstBad : Nat) : (good bad : Nat) → Prop
  | stop {bad : Nat} : firstBad ≤ bad → Ends firstBad (firstBad + 1) bad
  | good {good bad : Nat} : bad + 1 < good → Ends firstBad ((good + bad) / 2 - 1) bad →
      Ends firstBad good bad
  | bad {good bad : Nat} : bad + 1 < good → Ends firstBad good ((good + bad) / 2 + 1) →
      Ends firstBad good bad

/-- A log with a good commit, a newer bad one, and a test that fails from `firstBad` on. -/
structure Bisection (log : List (Patch H)) (test : H → Option Bool) (good bad firstBad : Nat) :
    Prop where
  distinct : (log.map Patch.id).Nodup
  good_lt : good < log.length
  bad_le : bad ≤ firstBad
  first_lt : firstBad < good
  passes : ∀ i p, log[i]? = some p → firstBad < i → i ≤ good → test p.id = some true
  fails : ∀ i p, log[i]? = some p → bad ≤ i → i ≤ firstBad → test p.id = some false

omit [DecidableEq H] in
/-- Where the halving ends lies in the interval. -/
theorem Ends.bounds {firstBad good bad : Nat} (h : Ends firstBad good bad) (hle : bad ≤ good) :
    bad ≤ firstBad + 1 ∧ firstBad + 1 ≤ good := by
  induction h with
  | stop => exact ⟨hle, le_rfl⟩
  | good hlt _ ih =>
    have := ih (by omega)
    omega
  | bad hlt _ ih =>
    have := ih (by omega)
    omega

omit [DecidableEq H] in
theorem Ends.stop_iff {firstBad good bad : Nat} (hstop : good ≤ bad + 1) :
    Ends firstBad good bad ↔ good = firstBad + 1 := by
  constructor
  · intro h
    cases h with
    | stop => rfl
    | good hlt => omega
    | bad hlt => omega
  · rintro rfl
    exact .stop (Nat.le_of_succ_le_succ hstop)

omit [DecidableEq H] in
/-- A test tells in which half the halving can still end at `firstBad`. -/
theorem Ends.half_iff {firstBad good bad : Nat} (hlt : bad + 1 < good) :
    Ends firstBad good bad ↔ if firstBad < (good + bad) / 2 then Ends firstBad ((good + bad) / 2 - 1) bad
      else Ends firstBad good ((good + bad) / 2 + 1) := by
  constructor
  · intro h
    split
    · cases h with
      | stop => omega
      | good _ h => exact h
      | bad _ h =>
        have := h.bounds (by omega)
        omega
    · cases h with
      | stop => omega
      | good _ h =>
        have := h.bounds (by omega)
        omega
      | bad _ h => exact h
  · split
    · exact .good hlt
    · exact .bad hlt

/-! ### The run -/

section Run
variable {log : List (Patch H)} {test : H → Option Bool} {good bad firstBad : Nat}

omit [DecidableEq H] in
theorem Bisection.id_eq_iff (h : Bisection log test good bad firstBad) {i j : Nat} {p q : Patch H}
    (hp : log[i]? = some p) (hq : log[j]? = some q) : p.id = q.id ↔ i = j := by
  constructor
  · intro heq
    have hpi : (log.map Patch.id)[i]? = some p.id := by rw [List.getElem?_map, hp]; rfl
    have hqj : (log.map Patch.id)[j]? = some p.id := by rw [List.getElem?_map, hq, heq]; rfl
    exact (List.getElem?_inj (List.getElem?_eq_some_iff.mp hpi).1 h.distinct).mp (hpi.trans hqj.symm)
  · rintro rfl
    exact congrArg Patch.id (Option.some.inj (hp.symm.trans hq))

omit [DecidableEq H] in
/-- The loop on an interval that the first bad commit, or the commit after it, is in. -/
theorem Bisection.bisectLoop_iff (h : Bisection log test good bad firstBad) {p : Patch H}
    (hp : log[firstBad]? = some p) (g b step : Nat) (hb : bad ≤ b) (hbg : b ≤ g) (hg : g ≤ good)
    (hfirst : b ≤ firstBad + 1) (hle : firstBad ≤ g) :
    (∃ steps, bisectLoop log test g b step = some (.firstBad p.id steps)) ↔ Ends firstBad g b := by
  have hlog := h.good_lt
  fun_induction bisectLoop log test g b step with
  | case1 b step _ hremaining =>
    rw [Ends.stop_iff (by omega)]
    simp
  | case2 g b step _ _ hremaining hpos =>
    obtain ⟨q, hq⟩ : ∃ q, log[g - 1]? = some q :=
      ⟨_, List.getElem?_eq_getElem (by omega)⟩
    rw [Ends.stop_iff (by omega), hq]
    have hid := h.id_eq_iff hq hp
    simp only [Option.map_some, Option.some.injEq, BisectEnd.firstBad.injEq, exists_and_left,
      exists_eq', and_true, hid]
    omega
  | case3 g b step _ _ hremaining hnone =>
    rw [List.getElem?_eq_none_iff] at hnone
    omega
  | case4 g b step _ _ hremaining q hq hnone =>
    rcases Nat.lt_or_ge firstBad ((g + b) / 2) with hlt | hge
    · rw [h.passes _ q hq hlt (by omega)] at hnone
      cases hnone
    · rw [h.fails _ q hq (by omega) hge] at hnone
      cases hnone
  | case5 g b step _ _ hremaining q hq htest hzero =>
    omega
  | case6 g b step _ _ hremaining mid q hq htest hzero ih =>
    have hlt : firstBad < mid := by
      by_contra hge
      rw [h.fails mid q hq (by omega) (by omega)] at htest
      cases htest
    rw [Ends.half_iff (by omega), if_pos hlt]
    exact ih (by omega) (by omega) (by omega) (by omega) (by omega)
  | case7 g b step _ _ hremaining mid q hq htest ih =>
    have hge : ¬ firstBad < mid := by
      intro hlt
      rw [h.passes mid q hq hlt (by omega)] at htest
      cases htest
    rw [Ends.half_iff (by omega), if_neg hge]
    exact ih (by omega) (by omega) (by omega) (by omega) (by omega)

omit [DecidableEq H] in
theorem Bisection.bad_lt_good (h : Bisection log test good bad firstBad) : bad < good :=
  Nat.lt_of_le_of_lt h.bad_le h.first_lt

/-- The position of a commit of the log. -/
theorem Bisection.findIdx? (h : Bisection log test good bad firstBad) {i : Nat} {p : Patch H}
    (hp : log[i]? = some p) : (log.findIdx? fun q => q.id = p.id) = some i := by
  rw [List.findIdx?_eq_some_iff_getElem]
  obtain ⟨hi, hget⟩ := List.getElem?_eq_some_iff.mp hp
  refine ⟨hi, by simp [hget], fun j hj => ?_⟩
  have hjlt : j < log.length := Nat.lt_trans hj hi
  simp only [decide_eq_true_eq]
  rw [h.id_eq_iff (List.getElem?_eq_getElem hjlt) hp]
  omega

/-- The run ends, and reports the first bad commit exactly when the halving can end at it. -/
theorem bisectRun_reports_iff {cmd : List String} (hcmd : cmd ≠ []) (goodRef badRef : String)
    {badAncestors : List H} (h : Bisection log test good bad firstBad) {goodPatch badPatch first : Patch H}
    (hgood : log[good]? = some goodPatch) (hbad : log[bad]? = some badPatch)
    (hfirst : log[firstBad]? = some first) (hancestor : goodPatch.id ∈ badAncestors) :
    (∃ steps, bisectRun cmd log goodRef badRef goodPatch.id badPatch.id badAncestors test =
      .ok (some (.firstBad first.id steps))) ↔ Ends firstBad good bad := by
  have hlt := h.bad_lt_good
  have hrun : bisectRun cmd log goodRef badRef goodPatch.id badPatch.id badAncestors test =
      .ok (bisectLoop log test good bad 0) := by
    rw [bisectRun, if_neg hcmd, h.findIdx? hgood, h.findIdx? hbad]
    simp only
    rw [if_neg fun hno => hno.1 hancestor, if_pos hlt]
  rw [hrun]
  simp only [Except.ok.injEq]
  exact h.bisectLoop_iff hfirst good bad 0 le_rfl hlt.le le_rfl (Nat.le_succ_of_le h.bad_le)
    h.first_lt.le

end Run

/-! ### Three commits -/

section Sample

def commit (id : Nat) : Patch Nat :=
  ⟨id, [], .modify, .empty, some "a.txt", .text .empty, 0, "ann", "work"⟩

/-- Commits up to `last` pass. -/
def passesUpTo (last : Nat) (id : Nat) : Option Bool := some (decide (id ≤ last))

theorem bisection_three (firstBad : Nat) (h : firstBad < 2) :
    Bisection [commit 3, commit 2, commit 1] (passesUpTo (2 - firstBad)) 2 0 firstBad := by
  have hid : ∀ i p, [commit 3, commit 2, commit 1][i]? = some p → p.id = 3 - i := by
    intro i p hp
    match i with
    | 0 | 1 | 2 => exact Option.some.inj hp ▸ rfl
  refine ⟨by decide, by decide, Nat.zero_le _, h, fun i p hp hi hle => ?_, fun i p hp _ hle => ?_⟩
  · rw [passesUpTo, hid i p hp, decide_eq_true (by omega)]
  · rw [passesUpTo, hid i p hp, decide_eq_false (by omega)]

/-- The commit in the middle is the first bad one. -/
theorem bisectRun_reports_middle : ∃ steps, bisectRun ["make", "test"]
    [commit 3, commit 2, commit 1] "HEAD~2" "HEAD" 1 3 [1, 2] (passesUpTo 1) =
      .ok (some (.firstBad 2 steps)) := by
  have h : Bisection [commit 3, commit 2, commit 1] (passesUpTo 1) 2 0 1 :=
    bisection_three 1 (by decide)
  exact (bisectRun_reports_iff (by decide) "HEAD~2" "HEAD" h rfl rfl rfl (by decide)).mpr
    (.bad (by decide) (.stop (by decide)))

/-- The commit in the middle passes, and the index below the bad one is taken. -/
theorem bisectRun_underflow :
    Bisection [commit 3, commit 2, commit 1] (passesUpTo 2) 2 0 0 ∧
      bisectRun ["make", "test"] [commit 3, commit 2, commit 1] "HEAD~2" "HEAD" 1 3 [1, 2]
        (passesUpTo 2) = .ok none := by
  refine ⟨bisection_three 0 (by decide), ?_⟩
  have hlast : bisectLoop [commit 3, commit 2, commit 1] (passesUpTo 2) 0 0 1 = none := by
    rw [bisectLoop]
    rfl
  have hloop : bisectLoop [commit 3, commit 2, commit 1] (passesUpTo 2) 2 0 0 = none := by
    rw [bisectLoop]
    exact hlast
  exact congrArg Except.ok hloop

end Sample

end Bisect
end Suture.Cli
