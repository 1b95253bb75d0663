import Suture.Engine.DiffTwins
import Suture.Engine.MergeSound
import Suture.Foundation.Applied

/-!
# The hunks of one side

Read off a diff and applied to the base, the hunks of a side give the side back.
-/

namespace Suture.Engine
set_option autoImplicit false
open Foundation

/-- The hunks of a diff: deleted lines, inserted lines, or both where they stand together. -/
def hunksOf (changes : List LineChange) : Hunks String :=
  fun s => ((sideActions 0 changes).lookup s).map SideAction.toHunk

section Changes
variable {changes : List LineChange}

theorem lookup_eq_some {l : List (Nat × SideAction)} (h : l.Pairwise fun x y => x.1 < y.1)
    {s : Nat} {a : SideAction} : l.lookup s = some a ↔ (s, a) ∈ l := by
  induction l with
  | nil => simp
  | cons x l ih =>
    obtain ⟨hx, hl⟩ := List.pairwise_cons.mp h
    obtain ⟨s', a'⟩ := x
    rw [List.lookup_cons, List.mem_cons, Prod.mk.injEq]
    by_cases hs : s = s'
    · subst hs
      have hnot : (s, a) ∉ l := fun hmem => Nat.lt_irrefl s (hx _ hmem)
      simp [hnot, eq_comm]
    · have hbeq : (s == s') = false := beq_eq_false_iff_ne.mpr hs
      simp [hbeq, hs, ih hl]

theorem sideActions_sorted (htidy : Tidy changes) (b : Nat) :
    (sideActions b changes).Pairwise fun x y => x.1 < y.1 :=
  (sideActions_apart htidy).imp fun h => by omega

/-- The merge looks up exactly the hunks of the diff. -/
theorem hunks_buildChangeMap (htidy : Tidy changes) :
    (buildChangeMap changes).hunks = hunksOf changes := by
  funext s
  unfold ChangeMap.hunks hunksOf
  congr 1
  apply Option.ext
  intro a
  rw [buildChangeMap_eq_some htidy, lookup_eq_some (sideActions_sorted htidy 0)]

/-- `H` has the hunks of `changes` from line `b` on. -/
def HunksFrom (H : Hunks String) (b : Nat) (changes : List LineChange) : Prop :=
  ∀ s a, b ≤ s → (H s = some a ↔ ∃ x, (s, x) ∈ sideActions b changes ∧ x.toHunk = a)

theorem hunksFrom_hunksOf (htidy : Tidy changes) : HunksFrom (hunksOf changes) 0 changes := by
  intro s a _
  unfold hunksOf
  rw [Option.map_eq_some_iff]
  simp only [lookup_eq_some (sideActions_sorted htidy 0)]

theorem HunksFrom.none_of {H : Hunks String} {b s : Nat} (h : HunksFrom H b changes) (hs : b ≤ s)
    (hnot : ∀ x, (s, x) ∉ sideActions b changes) : H s = none := by
  cases ha : H s with
  | none => rfl
  | some a =>
    obtain ⟨x, hx, -⟩ := (h s a hs).mp ha
    exact absurd hx (hnot x)

/-- Behind its first action the rest of a diff has the hunks that are left. -/
theorem HunksFrom.later {H : Hunks String} {b c : Nat} {x : SideAction} {rest : List LineChange}
    (h : HunksFrom H b changes) (hbc : b < c)
    (hactions : sideActions b changes = (b, x) :: sideActions c rest) :
    H b = some x.toHunk ∧ (∀ k, b < k → k < c → H k = none) ∧ HunksFrom H c rest := by
  refine ⟨?_, ?_, ?_⟩
  · apply (h b x.toHunk (Nat.le_refl b)).mpr
    rw [hactions]
    exact ⟨x, List.mem_cons_self .., rfl⟩
  · intro k hk hk'
    apply h.none_of (by omega)
    intro y hy
    rw [hactions, List.mem_cons, Prod.mk.injEq] at hy
    rcases hy with ⟨heq, -⟩ | hy
    · omega
    · have hle := le_of_mem_sideActions hy
      omega
  · intro s a hs
    rw [h s a (by omega), hactions]
    apply exists_congr
    intro y
    rw [List.mem_cons, Prod.mk.injEq]
    have hne : s ≠ b := by omega
    simp [hne]

theorem applied_replace {H : Hunks String} {lines : List String} {b d : Nat} {ins : List String}
    (hd : 0 < d) (hb : b + d ≤ lines.length) (hfree : FreeAt H b) (hhunk : H b = some ⟨d, ins⟩)
    (hnone : ∀ k, b < k → k < b + d → H k = none) :
    appliedFrom H lines b = ins ++ appliedFrom H lines (b + d) ∧ FreeAt H (b + d) := by
  have hdel : deletedAt H b = d := by rw [deletedAt, hhunk, Option.elim_some]
  have hins : insertedAt H b = ins := by rw [insertedAt, hhunk, Option.elim_some]
  have hnext := appliedFrom_next lines (by omega) hfree (by rwa [hdel]) (by rwa [hdel])
  have hfree' := hfree.next (by rwa [hdel])
  rw [hdel, hins, if_neg (Nat.ne_of_gt hd), List.nil_append, max_eq_right hd] at hnext
  rw [hdel, max_eq_right hd] at hfree'
  exact ⟨hnext, hfree'⟩

theorem drop_split {lines l rest : List String} {b : Nat} (hb : b ≤ lines.length)
    (h : lines.drop b = l ++ rest) : b + l.length ≤ lines.length ∧
      (lines.drop b).take l.length = l ∧ lines.drop (b + l.length) = rest := by
  refine ⟨?_, ?_, ?_⟩
  · have hlen := congrArg List.length h
    rw [List.length_drop, List.length_append] at hlen
    omega
  · rw [h, List.take_left]
  · rw [← List.drop_drop, h, List.drop_left]

theorem appliedFrom_changes (htidy : Tidy changes) (lines : List String) (b : Nat) :
    ∀ H, b ≤ lines.length → lines.drop b = oldSide changes → HunksFrom H b changes → FreeAt H b →
      appliedFrom H lines b = newSide changes := by
  fun_induction sideActions b changes with
  | case1 b =>
    intro H hb hold hH _
    have hlen : lines.length ≤ b := List.drop_eq_nil_iff.mp hold
    have hnone : H lines.length = none := by
      obtain rfl : b = lines.length := by omega
      exact hH.none_of (Nat.le_refl _) fun x hx => absurd hx List.not_mem_nil
    rw [appliedFrom_of_ge lines hlen, insertedAt, hnone]
    rfl
  | case2 b kept cs ih =>
    intro H hb hold hH hfree
    have hold : lines.drop b = kept ++ oldSide cs := hold
    obtain ⟨hle, htake, hdrop⟩ := drop_split hb hold
    have hnone : ∀ j, b ≤ j → j < b + kept.length → H j = none := by
      intro j hbj hj
      apply hH.none_of hbj
      intro x hx
      have hge := le_of_mem_sideActions (b := b + kept.length) hx
      omega
    obtain ⟨hrun, hfree'⟩ := appliedFrom_run lines hle hfree hnone
    have hH' : HunksFrom H (b + kept.length) cs := fun s a hs => hH s a (by omega)
    rw [hrun, htake, ih htidy.tail H hle hdrop hH' hfree']
    rfl
  | case3 b deleted new cs ih =>
    intro H hb hold hH hfree
    have hold : lines.drop b = deleted ++ oldSide cs := hold
    obtain ⟨hle, -, hdrop⟩ := drop_split hb hold
    have hpos : 0 < deleted.length := htidy.length_pos
    obtain ⟨hhunk, hnone, hH'⟩ := hH.later (c := b + deleted.length) (by omega) rfl
    obtain ⟨hnext, hfree'⟩ := applied_replace hpos hle hfree hhunk hnone
    rw [hnext, ih htidy.tail.tail H hle hdrop hH' hfree']
    rfl
  | case4 b deleted cs hno ih =>
    intro H hb hold hH hfree
    have hold : lines.drop b = deleted ++ oldSide cs := hold
    obtain ⟨hle, -, hdrop⟩ := drop_split hb hold
    have hpos : 0 < deleted.length := htidy.length_pos
    have hactions : sideActions b (.deleted deleted :: cs) =
        (b, .deleteInsert deleted.length []) :: sideActions (b + deleted.length) cs := by
      rw [sideActions]
      exact hno
    obtain ⟨hhunk, hnone, hH'⟩ := hH.later (c := b + deleted.length) (by omega) hactions
    obtain ⟨hnext, hfree'⟩ := applied_replace hpos hle hfree hhunk hnone
    rw [hnext, ih htidy.tail H hle hdrop hH' hfree']
    rfl
  | case5 b new cs ih =>
    intro H hb hold hH hfree
    have hhunk : H b = some ⟨0, new⟩ :=
      (hH b ⟨0, new⟩ (Nat.le_refl b)).mpr ⟨.insert new, List.mem_cons_self .., rfl⟩
    have hH' : HunksFrom (Function.update H b none) b cs := by
      intro s a hs
      by_cases hsb : s = b
      · subst hsb
        rw [Function.update_self]
        apply iff_of_false (Option.some_ne_none a).symm
        intro hx
        obtain ⟨x, hx, -⟩ := hx
        have hlt := lt_of_mem_sideActions htidy.tail htidy.pauses_inserted hx
        omega
      · rw [Function.update_of_ne hsb, hH s a hs, sideActions]
        simp [hsb]
    have hfree' : FreeAt (Function.update H b none) b := by
      intro s hs
      have hne : s ≠ b := by omega
      have hle := hfree s hs
      rwa [deletedAt, Function.update_of_ne hne]
    rw [appliedFrom_insert lines hb hhunk, ih htidy.tail _ hb hold hH' hfree']
    rfl

/-- The hunks of a diff turn its old side into its new side. -/
theorem applied_hunksOf (htidy : Tidy changes) :
    applied (hunksOf changes) (oldSide changes) = newSide changes :=
  appliedFrom_changes htidy _ 0 _ (Nat.zero_le _) rfl (hunksFrom_hunksOf htidy) freeAt_zero

end Changes

/-! ### Sides of a merge -/

section Sides
variable {base side : List String}

theorem sideHunks_eq (base side : List String) : sideHunks base side = hunksOf (diffLines base side) :=
  hunks_buildChangeMap (diffLines_ok base side).tidy

theorem applied_sideHunks (base side : List String) :
    applied (sideHunks base side) base = newSide (diffLines base side) := by
  have happlied := applied_hunksOf (diffLines_ok base side).tidy
  rwa [diffLines_oldSide, ← sideHunks_eq] at happlied

theorem Exact.applied (h : Exact base side) : applied (sideHunks base side) base = side :=
  (applied_sideHunks base side).trans h

theorem Tidy.of_oldSide_nil {changes : List LineChange} (h : Tidy changes)
    (hold : oldSide changes = []) (hnew : newSide changes ≠ []) :
    changes = [.inserted (newSide changes)] := by
  cases changes with
  | nil => exact absurd rfl hnew
  | cons c cs =>
    have hc := h.nonempty c (List.mem_cons_self ..)
    obtain ⟨hcold, hcsold⟩ := List.append_eq_nil_iff.mp hold
    cases c with
    | unchanged l => exact absurd hcold hc
    | deleted l => exact absurd hcold hc
    | inserted l =>
      cases cs with
      | nil => simp [LineChange.newLines]
      | cons d ds =>
        obtain ⟨m, rfl⟩ := h.pauses_inserted d ds rfl
        have hm := h.tail.nonempty _ (List.mem_cons_self ..)
        exact absurd (List.append_eq_nil_iff.mp hcsold).1 hm

theorem Tidy.of_newSide_nil {changes : List LineChange} (h : Tidy changes)
    (hnew : newSide changes = []) (hold : oldSide changes ≠ []) :
    changes = [.deleted (oldSide changes)] := by
  cases changes with
  | nil => exact absurd rfl hold
  | cons c cs =>
    have hc := h.nonempty c (List.mem_cons_self ..)
    obtain ⟨hcnew, hcsnew⟩ := List.append_eq_nil_iff.mp hnew
    cases c with
    | unchanged l => exact absurd hcnew hc
    | inserted l => exact absurd hcnew hc
    | deleted l =>
      cases cs with
      | nil => simp [LineChange.oldLines]
      | cons d ds =>
        have hd := h.tail.nonempty d (List.mem_cons_self ..)
        have hdnew := (List.append_eq_nil_iff.mp hcsnew).1
        have hfollows := (List.isChain_cons_cons.mp h.chain).1
        cases d with
        | unchanged m => exact absurd hdnew hd
        | inserted m => exact absurd hdnew hd
        | deleted m => exact hfollows.elim

/-- Up to the bound every diff is the one of the table. -/
theorem diffLines_eq_dp (hbase : base.length ≤ lcsDpThreshold)
    (hside : side.length ≤ lcsDpThreshold) : diffLines base side = diffLinesDp base side := by
  have htidy := (diffLinesDp_ok base side).tidy
  obtain ⟨hold, hnew⟩ := diffLinesDp_sides base side
  unfold diffLines
  split_ifs with hempty hnil hnil'
  · obtain ⟨rfl, rfl⟩ := hempty
    simp [diffLinesDp, backtrack, coalesceChanges]
  · have hne : side ≠ [] := fun h => hempty ⟨hnil, h⟩
    have hinserted := htidy.of_oldSide_nil (hold.trans hnil) (by rwa [hnew])
    rw [hinserted, hnew]
  · have hdeleted := htidy.of_newSide_nil (hnew.trans hnil') (by rwa [hold])
    rw [hdeleted, hold]
  · rfl
  · rename_i hlong
    exact absurd ⟨hbase, hside⟩ hlong

end Sides
end Suture.Engine
