import Mathlib.Data.List.Count
import Suture.Engine.DiffSides

/-!
# Twins of base lines

Above the bound of the table a base line is matched with its twin: the same line with as many
equal ones before it. The twins of later lines may stand before those of earlier ones, and the
diff then gives the modified side back only where the passed line stands again.
-/

namespace Suture.Engine
set_option autoImplicit false

variable {base modified : List String}

/-- The place in `modified` of the line `bi` of `base`: the same line with as many equal ones
before it. -/
def twin (base modified : List String) (bi : Nat) : Option Nat :=
  base[bi]?.bind fun line => (modPositions modified line)[(base.take bi).count line]?

def twins (base modified : List String) : List Nat :=
  (List.range base.length).filterMap (twin base modified)

/-- From place `mi` on, a line matched before the place stands at the place as well. -/
def InStep (modified : List String) : Nat → List Nat → Prop
  | _, [] => True
  | mi, modPos :: rest =>
    (modPos < mi → modified[mi]? = modified[modPos]?) ∧ InStep modified (max mi modPos + 1) rest

/-! ### The matching takes twins -/

/-- The first element from index `c` on is at index `c`. -/
theorem find?_eq_getElem? {α : Type} {p : α → Bool} {l : List α} {c : Nat}
    (h : ∀ k x, l[k]? = some x → (p x = true ↔ c ≤ k)) : l.find? p = l[c]? := by
  induction l generalizing c with
  | nil => rfl
  | cons x l ih =>
    have hx := h 0 x rfl
    cases c with
    | zero =>
      have hpx : p x = true := hx.mpr (Nat.zero_le 0)
      rw [List.find?_cons_of_pos hpx]
      rfl
    | succ c =>
      have hpx : ¬ p x = true := by
        intro hpx
        have hle := hx.mp hpx
        omega
      rw [List.find?_cons_of_neg hpx, List.getElem?_cons_succ]
      apply ih
      intro k y hy
      rw [h (k + 1) y hy]
      omega

theorem line_of_modPositions {line : String} {k mi : Nat}
    (h : (modPositions modified line)[k]? = some mi) : modified[mi]? = some line :=
  of_decide_eq_true (List.mem_filter.mp (List.mem_of_getElem? h)).2

theorem modPositions_inj {line : String} {k k' mi : Nat}
    (h : (modPositions modified line)[k]? = some mi)
    (h' : (modPositions modified line)[k']? = some mi) : k = k' := by
  have hnodup : (modPositions modified line).Nodup := List.nodup_range.filter _
  have hk := (List.getElem?_eq_some_iff.mp h).1
  exact (List.getElem?_inj hk hnodup).mp (h.trans h'.symm)

/-- The places taken after the lines of `pre`: of each line as many as `pre` has of it. -/
def TakenBy (modified pre : List String) (usedMod : List Nat) : Prop :=
  ∀ line k mi, (modPositions modified line)[k]? = some mi → (mi ∈ usedMod ↔ k < pre.count line)

theorem takenBy_nil : TakenBy modified [] [] := by
  intro line k mi _
  simp

theorem TakenBy.find {pre : List String} {usedMod : List Nat} (h : TakenBy modified pre usedMod)
    (line : String) : (modPositions modified line).find? (fun mi => decide (mi ∉ usedMod)) =
      (modPositions modified line)[pre.count line]? := by
  apply find?_eq_getElem?
  intro k mi hmi
  rw [decide_eq_true_eq, h line k mi hmi]
  omega

theorem TakenBy.take {pre : List String} {usedMod : List Nat} (h : TakenBy modified pre usedMod)
    {line : String} {mi : Nat}
    (hmi : (modPositions modified line)[pre.count line]? = some mi) :
    TakenBy modified (pre ++ [line]) (mi :: usedMod) := by
  intro line' k mi' hmi'
  rw [List.mem_cons, h line' k mi' hmi', List.count_append]
  by_cases hline : line' = line
  · subst hline
    rw [List.count_singleton_self]
    constructor
    · intro hk
      rcases hk with heq | hk
      · subst heq
        have hk := modPositions_inj hmi' hmi
        omega
      · omega
    · intro hk
      rcases Nat.lt_or_ge k (pre.count line') with hlt | hge
      · exact .inr hlt
      · have heq : k = pre.count line' := by omega
        subst heq
        exact .inl (Option.some.inj (hmi'.symm.trans hmi))
  · have hcount : [line].count line' = 0 := List.count_eq_zero.mpr (by simpa using hline)
    rw [hcount, Nat.add_zero, or_iff_right]
    intro heq
    subst heq
    have hsame := (line_of_modPositions hmi').symm.trans (line_of_modPositions hmi)
    exact hline (Option.some.inj hsame)

theorem TakenBy.skip {pre : List String} {usedMod : List Nat} (h : TakenBy modified pre usedMod)
    {line : String} (hnone : (modPositions modified line)[pre.count line]? = none) :
    TakenBy modified (pre ++ [line]) usedMod := by
  intro line' k mi' hmi'
  rw [h line' k mi' hmi', List.count_append]
  by_cases hline : line' = line
  · subst hline
    have hlen := List.getElem?_eq_none_iff.mp hnone
    have hk := (List.getElem?_eq_some_iff.mp hmi').1
    omega
  · have hcount : [line].count line' = 0 := List.count_eq_zero.mpr (by simpa using hline)
    rw [hcount, Nat.add_zero]

theorem twin_append (pre : List String) (line : String) (rest : List String) :
    twin (pre ++ line :: rest) modified pre.length =
      (modPositions modified line)[pre.count line]? := by
  unfold twin
  rw [List.getElem?_append_right (Nat.le_refl _), Nat.sub_self, List.getElem?_cons_zero,
    Option.bind_some, List.take_left]

theorem matchedPairs_twins (modified rest : List String) : ∀ pre usedMod,
    TakenBy modified pre usedMod →
      (matchedPairs modified pre.length rest usedMod).map Prod.snd =
        (List.range' pre.length rest.length).filterMap (twin (pre ++ rest) modified) := by
  induction rest with
  | nil => exact fun _ _ _ => rfl
  | cons line rest ih =>
    intro pre usedMod h
    have hpre : pre ++ line :: rest = (pre ++ [line]) ++ rest := by simp
    have hlen : (pre ++ [line]).length = pre.length + 1 := by simp
    rw [matchedPairs, h.find line, List.length_cons, List.range'_succ, List.filterMap_cons,
      twin_append]
    cases hmi : (modPositions modified line)[pre.count line]? with
    | none =>
      have hrest := ih (pre ++ [line]) usedMod (h.skip hmi)
      rw [hlen, ← hpre] at hrest
      exact hrest
    | some mi =>
      have hrest := ih (pre ++ [line]) (mi :: usedMod) (h.take hmi)
      rw [hlen, ← hpre] at hrest
      exact congrArg (mi :: ·) hrest

theorem matchedPairs_eq_twins (base modified : List String) :
    (matchedPairs modified 0 base []).map Prod.snd = twins base modified := by
  unfold twins
  rw [List.range_eq_range']
  exact matchedPairs_twins modified base [] [] takenBy_nil

/-! ### The modified side -/

theorem emitChanges_newSide_iff (pairs : List (Nat × Nat)) : ∀ bi mi, mi ≤ modified.length →
    (∀ p ∈ pairs, ∃ line, base[p.1]? = some line ∧ modified[p.2]? = some line) →
      (newSide (emitChanges base modified pairs bi mi) = modified.drop mi ↔
        InStep modified mi (pairs.map Prod.snd)) := by
  induction pairs with
  | nil =>
    intro bi mi _ _
    simp only [emitChanges, newSide_append, newSide_deleteAll, newSide_insertAll, List.nil_append,
      slice_length, List.map_nil, InStep]
  | cons p rest ih =>
    intro bi mi hmi hpairs
    obtain ⟨basePos, modPos⟩ := p
    obtain ⟨line, hold, hnew⟩ := hpairs _ (List.mem_cons_self ..)
    have hlater := fun q hq => hpairs q (List.mem_cons_of_mem _ hq)
    have hlt : modPos < modified.length := (List.getElem?_eq_some_iff.mp hnew).1
    have hline : base.getD basePos "" = line := by
      rw [List.getD_eq_getElem?_getD, hold]
      rfl
    rw [emitChanges, List.map_cons, InStep]
    simp only [newSide_append, newSide_deleteAll, newSide_insertAll, List.nil_append, newSide_cons,
      LineChange.newLines, hline]
    rcases Nat.lt_or_ge modPos mi with hpassed | hahead
    · -- the place was passed: nothing is inserted, and the line stands for the one at `mi`
      have hslice : slice modified mi modPos = [] := by
        rw [slice, Nat.sub_eq_zero_of_le hpassed.le, List.take_zero]
      rw [hslice, max_eq_left hpassed.le, List.nil_append, List.singleton_append]
      rcases Nat.lt_or_ge mi modified.length with hin | hout
      · rw [List.drop_eq_getElem_cons hin, List.cons.injEq, ih _ (mi + 1) hin hlater]
        apply and_congr_left
        intro _
        rw [hnew, List.getElem?_eq_getElem hin, Option.some.injEq]
        exact ⟨fun h _ => h.symm, fun h => (h hpassed).symm⟩
      · rw [List.drop_eq_nil_of_le hout]
        apply iff_of_false
        · exact List.cons_ne_nil _ _
        · intro h
          have h := h.1 hpassed
          rw [hnew, List.getElem?_eq_none hout] at h
          cases h
    · have hdrop : modified.drop modPos = line :: modified.drop (modPos + 1) := by
        rw [List.drop_eq_getElem_cons hlt]
        rw [List.getElem?_eq_getElem hlt, Option.some.injEq] at hnew
        rw [hnew]
      rw [max_eq_right hahead, ← slice_append_drop hahead, List.append_cancel_left_eq, hdrop,
        List.singleton_append, List.cons_inj_right, ih _ (modPos + 1) hlt hlater]
      exact (and_iff_right fun hlt => absurd hlt (Nat.not_lt_of_le hahead)).symm

theorem diffLinesLinear_newSide_iff (base modified : List String) :
    newSide (diffLinesLinear base modified) = modified ↔ InStep modified 0 (twins base modified) := by
  have hpairs : ∀ p ∈ matchedPairs modified 0 base [],
      ∃ line, base[p.1]? = some line ∧ modified[p.2]? = some line :=
    fun p hp => (matchedPairs_same_line modified base 0 [] p hp).2
  have h := emitChanges_newSide_iff _ 0 0 (Nat.zero_le _) hpairs
  unfold diffLinesLinear
  rwa [(coalesceChanges_sides _).2, ← matchedPairs_eq_twins]

/-- The bound of the table holds on both sides, or one side is empty. -/
def Tabled (base modified : List String) : Prop :=
  base = [] ∨ modified = [] ∨ base.length ≤ lcsDpThreshold ∧ modified.length ≤ lcsDpThreshold

theorem exact_iff (base modified : List String) :
    Exact base modified ↔ Tabled base modified ∨ InStep modified 0 (twins base modified) := by
  by_cases htabled : Tabled base modified
  · apply iff_of_true _ (.inl htabled)
    rcases htabled with hbase | hmodified | ⟨hbase, hmodified⟩
    · rw [hbase]
      exact exact_nil modified
    · rw [hmodified]
      exact exact_to_nil base
    · exact exact_of_length hbase hmodified
  · rw [or_iff_right htabled, ← diffLinesLinear_newSide_iff]
    unfold Tabled at htabled
    rw [not_or, not_or] at htabled
    obtain ⟨hbase, hmodified, hlong⟩ := htabled
    unfold Exact diffLines
    rw [if_neg fun h => hbase h.1, if_neg hbase, if_neg hmodified, if_neg hlong]

/-- A diff gives both sides back exactly when it comes from the table, or every line matched out
of order stands again at the place reached. -/
theorem diffLines_sides_iff (base modified : List String) :
    (oldSide (diffLines base modified) = base ∧ newSide (diffLines base modified) = modified) ↔
      Tabled base modified ∨ InStep modified 0 (twins base modified) := by
  rw [← exact_iff]
  exact and_iff_right (diffLines_oldSide base modified)

theorem first_place {line : String} {mi : Nat} (hmi : modified[mi]? = some line)
    (hfirst : ∀ i < mi, modified[i]? ≠ some line) : (modPositions modified line)[0]? = some mi := by
  unfold modPositions
  rw [← List.head?_eq_getElem?, List.head?_filter, List.find?_range_eq_some]
  refine ⟨decide_eq_true hmi, ?_, ?_⟩
  · exact List.mem_range.mpr (List.getElem?_eq_some_iff.mp hmi).1
  · intro i hi
    rw [decide_eq_false (hfirst i hi)]
    rfl

/-- Two lines in front of a long text. -/
def aboveBound : List String := "a" :: "b" :: "c" :: List.replicate lcsDpThreshold "c"

/-- Where two lines changed places above the bound, the second one is lost. -/
theorem swapped_lines_not_restored : ¬ ∀ base modified : List String,
    oldSide (diffLines base modified) = base ∧ newSide (diffLines base modified) = modified := by
  intro h
  have hb : (modPositions aboveBound "b")[0]? = some 1 := by
    apply first_place rfl
    intro i hi
    obtain rfl : i = 0 := by omega
    decide
  have ha : (modPositions aboveBound "a")[0]? = some 0 := first_place rfl nofun
  have htwins : twins ["b", "a"] aboveBound = [1, 0] := by
    simp [twins, twin, List.range_succ, ha, hb]
  have hcases := (diffLines_sides_iff ["b", "a"] aboveBound).mp (h _ _)
  rw [htwins] at hcases
  rcases hcases with htabled | hstep
  · rcases htabled with hbase | hmodified | ⟨-, hlong⟩
    · cases hbase
    · cases hmodified
    · simp only [aboveBound, List.length_cons, List.length_replicate] at hlong
      omega
  · have hthird : some "c" = some "a" := hstep.2.1 (by decide)
    exact absurd hthird (by decide)

end Suture.Engine
