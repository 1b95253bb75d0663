import Suture.Driver.Structured

/-!
# What a structured merge leaves in each place

A merge of objects goes key by key and a merge of arrays position by position. In both the
place of the result depends only on the three values in that place. The result does not
depend on the order of the keys, and the two sides can be exchanged.
-/

namespace Suture.Driver
set_option autoImplicit false
open Foundation

variable {ν : Type} [DecidableEq ν]

/-- What becomes of one place, `none` for a conflict. `nested` is the merge of the three
values of the place. -/
def outcome (nested base ours theirs : Option (Value ν)) : Option (Option (Value ν)) :=
  match ours, theirs with
  | none, _ => some theirs
  | _, none => some ours
  | some ov, some tv =>
    if ov = tv then some ours
    else match base with
      | none => none
      | some bv =>
        if ov = bv then some theirs else if tv = bv then some ours else nested.map some

theorem mergeKey_outcome (nested base ours theirs : Option (Value ν))
    (merged : List (String × Value ν)) (k : String) :
    mergeKey nested merged k base ours theirs =
      (outcome nested base ours theirs).map
        fun r => r.elim merged fun v => Assoc.insert k v merged := by
  cases base <;> cases ours <;> cases theirs <;> simp [mergeKey, outcome]
  all_goals split_ifs <;> simp [Function.comp_def]

theorem mergeItem_outcome (nested base ours theirs : Option (Value ν)) (merged : List (Value ν)) :
    mergeItem nested merged base ours theirs =
      (outcome nested base ours theirs).map fun r => merged ++ r.toList := by
  cases base <;> cases ours <;> cases theirs <;> simp [mergeItem, outcome]
  all_goals split_ifs <;> simp [Function.comp_def]

/-- Exchanging the sides exchanges nothing in the result. -/
theorem outcome_comm (nested base ours theirs : Option (Value ν)) :
    outcome nested base ours theirs = outcome nested base theirs ours := by
  cases ours with
  | none => cases theirs <;> rfl
  | some ov =>
    cases theirs with
    | none => rfl
    | some tv =>
      simp only [outcome]
      by_cases hsame : ov = tv
      · rw [if_pos hsame, if_pos hsame.symm, hsame]
      · rw [if_neg hsame, if_neg (Ne.symm hsame)]
        cases base with
        | none => rfl
        | some bv =>
          by_cases ho : ov = bv
          · have ht : tv ≠ bv := fun ht => hsame (ho.trans ht.symm)
            simp only [ho, ht, ↓reduceIte]
          · simp only [ho, ↓reduceIte]

/-- Only the result of the nested merge counts. -/
theorem outcome_mono {nested nested' base ours theirs r : Option (Value ν)}
    (hnested : ∀ m, nested = some m → nested' = some m)
    (h : outcome nested base ours theirs = some r) : outcome nested' base ours theirs = some r := by
  cases ours with
  | none => exact h
  | some ov =>
    cases theirs with
    | none => exact h
    | some tv =>
      simp only [outcome] at h ⊢
      split_ifs at h ⊢ with hsame
      · exact h
      · cases base with
        | none => exact h
        | some bv =>
          simp only at h ⊢
          split_ifs at h ⊢
          · exact h
          · exact h
          · obtain ⟨m, hm, hr⟩ := Option.map_eq_some_iff.mp h
            rw [hnested m hm, Option.map_some, hr]

/-- The merge of three values, where all three are there. -/
def mergeNested (order : KeyOrder) : (base ours theirs : Option (Value ν)) → Option (Value ν)
  | some bv, some ov, some tv => mergeValues order bv ov tv
  | _, _, _ => none

theorem mergeNested_eq_some {order : KeyOrder} {base ours theirs : Option (Value ν)} {m : Value ν} :
    mergeNested order base ours theirs = some m ↔ ∃ bv ov tv, base = some bv ∧ ours = some ov ∧
      theirs = some tv ∧ mergeValues order bv ov tv = some m := by
  cases base <;> cases ours <;> cases theirs <;> simp [mergeNested]

theorem match_mergeNested (order : KeyOrder) (base ours theirs : Option (Value ν)) :
    (match _hb : base, ours, theirs with
      | some bv, some ov, some tv => mergeValues order bv ov tv
      | _, _, _ => none) = mergeNested order base ours theirs := by
  cases base <;> cases ours <;> cases theirs <;> rfl

/-! ### Folds that may stop -/

section Fold

theorem foldlM_stops {α β : Type} {step : β → α → Option β} {items : List α} {a : α}
    (ha : a ∈ items) (hstop : ∀ m, step m a = none) (acc : β) : items.foldlM step acc = none := by
  induction items generalizing acc with
  | nil => cases ha
  | cons x items ih =>
    rw [List.foldlM_cons]
    rcases List.mem_cons.mp ha with rfl | ha
    · rw [hstop]
      rfl
    · cases step acc x with
      | none => rfl
      | some m => exact ih ha m

omit [DecidableEq ν] in
theorem foldlM_insert_iff {keys : List String} {out : String → Option (Option (Value ν))}
    {step : List (String × Value ν) → String → Option (List (String × Value ν))}
    (hstep : ∀ k m, step m k = (out k).map fun r => r.elim m fun v => Assoc.insert k v m)
    {r : List (String × Value ν)} :
    keys.foldlM step [] = some r ↔ Assoc.Sorted r ∧ (∀ k ∈ keys, out k = some (Assoc.get r k)) ∧
      ∀ k ∉ keys, Assoc.get r k = none := by
  by_cases hall : ∀ k ∈ keys, (out k).isSome
  · have hout : ∀ k ∈ keys, out k = some (out k).join := by
      intro k hk
      obtain ⟨x, hx⟩ := Option.isSome_iff_exists.mp (hall k hk)
      rw [hx]
      rfl
    have hinsert : ∀ k ∈ keys, ∀ m,
        step m k = some ((out k).join.elim m fun v => Assoc.insert k v m) := by
      intro k hk m
      rw [hstep, hout k hk]
      rfl
    obtain ⟨m, hm, hsorted, hget⟩ := foldlM_insert hinsert .nil
    rw [hm, Option.some.injEq]
    constructor
    · intro heq
      subst r
      refine ⟨hsorted, fun k hk => ?_, fun k hk => ?_⟩
      · rw [hget, if_pos hk, hout k hk]
        simp
      · rw [hget, if_neg hk]
        rfl
    · intro ⟨hr, hin, hnot⟩
      refine hsorted.ext hr fun k => ?_
      rw [hget]
      by_cases hk : k ∈ keys
      · rw [if_pos hk, hin k hk]
        simp
      · rw [if_neg hk, hnot k hk]
        rfl
  · push Not at hall
    obtain ⟨k, hk, hnone⟩ := hall
    have hout : out k = none := Option.not_isSome_iff_eq_none.mp hnone
    rw [foldlM_stops hk (fun m => by rw [hstep, hout]; rfl)]
    refine iff_of_false (Option.some_ne_none _).symm ?_
    intro ⟨_, hin, _⟩
    rw [hin k hk] at hout
    cases hout

/-- A list built from the positions up to the first empty one. -/
theorem getElem?_filterMap_range {α : Type} {f : Nat → Option α}
    (hf : ∀ i j, i ≤ j → f i = none → f j = none) (n i : Nat) :
    ((List.range n).filterMap f)[i]? = if i < n then f i else none := by
  have hlength : ∀ m, (∀ j < m, f j ≠ none) → ((List.range m).filterMap f).length = m := by
    intro m hm
    induction m with
    | zero => rfl
    | succ m ih =>
      obtain ⟨x, hx⟩ := Option.ne_none_iff_exists'.mp (hm m (Nat.lt_succ_self m))
      rw [List.range_succ, List.filterMap_append, List.length_append,
        ih fun j hj => hm j (Nat.lt_succ_of_lt hj)]
      simp [hx]
  induction n with
  | zero => simp
  | succ n ih =>
    rw [List.range_succ, List.filterMap_append]
    cases hn : f n with
    | none =>
      have hnil : [n].filterMap f = [] := by simp [hn]
      rw [hnil, List.append_nil, ih]
      by_cases hi : i < n
      · rw [if_pos hi, if_pos (by omega)]
      · rw [if_neg hi]
        split
        · exact (hf n i (by omega) hn).symm
        · rfl
    | some x =>
      have hlen := hlength n fun j hj hnone => by
        have := hf j n (by omega) hnone
        rw [hn] at this
        cases this
      have hone : [n].filterMap f = [x] := by simp [hn]
      rw [hone]
      rcases Nat.lt_trichotomy i n with hi | hi | hi
      · rw [List.getElem?_append_left (by omega), ih, if_pos hi, if_pos (by omega)]
      · subst i
        rw [List.getElem?_append_right (by omega), hlen, if_pos (by omega), hn]
        simp
      · rw [List.getElem?_eq_none (by simp only [List.length_append, hlen, List.length_singleton]; omega),
          if_neg (by omega)]

omit [DecidableEq ν] in
theorem foldlM_push_iff {n : Nat} {out : Nat → Option (Option (Value ν))}
    {step : List (Value ν) → Nat → Option (List (Value ν))}
    (hstep : ∀ i m, step m i = (out i).map fun r => m ++ r.toList)
    (hempty : ∀ i j, i ≤ j → out i = some none → out j = some none)
    (hend : ∀ i, n ≤ i → out i = some none) {r : List (Value ν)} :
    (List.range n).foldlM step [] = some r ↔ ∀ i : Nat, out i = some r[i]? := by
  by_cases hall : ∀ i, (out i).isSome
  · have hout : ∀ i, out i = some (out i).join := by
      intro i
      obtain ⟨x, hx⟩ := Option.isSome_iff_exists.mp (hall i)
      rw [hx]
      rfl
    have hclosed : ∀ i j, i ≤ j → (out i).join = none → (out j).join = none := by
      intro i j hij hi
      have hj := hempty i j hij (by rw [hout i, hi])
      rw [hj]
      rfl
    rw [foldlM_push (fun i => (out i).join) (fun i m => by rw [hstep, hout i]; rfl), List.nil_append,
      Option.some.injEq]
    constructor
    · intro heq i
      subst r
      rw [getElem?_filterMap_range hclosed]
      split
      · exact hout i
      · exact hend i (by omega)
    · intro hr
      apply List.ext_getElem?
      intro i
      rw [getElem?_filterMap_range hclosed]
      split
      · rw [hr i]
        rfl
      · exact Option.some.inj ((hend i (by omega)).symm.trans (hr i))
  · push Not at hall
    obtain ⟨i, hnone⟩ := hall
    have hout : out i = none := Option.not_isSome_iff_eq_none.mp hnone
    have hi : i < n := by
      by_contra hge
      rw [hend i (by omega)] at hout
      cases hout
    rw [foldlM_stops (List.mem_range.mpr hi) (fun m => by rw [hstep, hout]; rfl)]
    refine iff_of_false (Option.some_ne_none _).symm fun hr => ?_
    rw [hr i] at hout
    cases hout

end Fold

theorem outcome_eq_none_iff {nested base ours theirs : Option (Value ν)} :
    outcome nested base ours theirs = some none ↔ ours = none ∧ theirs = none := by
  cases ours with
  | none => simp [outcome]
  | some ov =>
    cases theirs with
    | none => simp [outcome]
    | some tv =>
      simp only [outcome]
      split_ifs
      · simp
      · cases base with
        | none => simp
        | some bv =>
          simp only
          split_ifs <;> simp

/-! ### Objects and arrays -/

/-- The loop over the keys, whatever merges the values that both sides changed. -/
theorem foldlM_mergeKey_iff (order : KeyOrder) {nested : String → Option (Value ν)}
    {base ours theirs r : List (String × Value ν)} :
    (order.arrange (allKeys base ours theirs)).foldlM (fun merged k => mergeKey (nested k) merged k
      (Assoc.get base k) (Assoc.get ours k) (Assoc.get theirs k)) [] = some r ↔
      Assoc.Sorted r ∧ ∀ k, outcome (nested k) (Assoc.get base k) (Assoc.get ours k)
        (Assoc.get theirs k) = some (Assoc.get r k) := by
  refine (foldlM_insert_iff fun k m => mergeKey_outcome (nested k) (Assoc.get base k)
    (Assoc.get ours k) (Assoc.get theirs k) m k).trans ?_
  refine and_congr_right' ⟨fun ⟨hin, hnot⟩ k => ?_, fun hout => ⟨fun k _ => hout k, fun k hk => ?_⟩⟩
  · by_cases hk : k ∈ order.arrange (allKeys base ours theirs)
    · exact hin k hk
    · rw [hnot k hk]
      rw [mem_keys] at hk
      push Not at hk
      rw [hk.1, hk.2.1, hk.2.2]
      rfl
  · have hget := hout k
    rw [mem_keys] at hk
    push Not at hk
    rw [hk.1, hk.2.1, hk.2.2] at hget
    exact (Option.some.inj hget).symm

/-- The merge of two objects, key by key. -/
theorem mergeValues_object_iff (order : KeyOrder) {base ours theirs : List (String × Value ν)}
    {m : Value ν} :
    mergeValues order (.object base) (.object ours) (.object theirs) = some m ↔
      ∃ r, m = .object r ∧ Assoc.Sorted r ∧ ∀ k,
        outcome (mergeNested order (Assoc.get base k) (Assoc.get ours k) (Assoc.get theirs k))
          (Assoc.get base k) (Assoc.get ours k) (Assoc.get theirs k) = some (Assoc.get r k) := by
  rw [mergeValues, Option.map_eq_some_iff]
  refine exists_congr fun r => ?_
  refine (and_congr_left' (foldlM_mergeKey_iff order)).trans ?_
  rw [and_comm, eq_comm]
  refine and_congr_right' (and_congr_right' (forall_congr' fun k => iff_of_eq ?_))
  exact congrArg (fun n => outcome n _ _ _ = _) (match_mergeNested order _ _ _)

/-- The merge of two arrays, position by position. -/
theorem mergeValues_array_iff (order : KeyOrder) {base ours theirs : List (Value ν)} {m : Value ν} :
    mergeValues order (.array base) (.array ours) (.array theirs) = some m ↔
      ∃ r, m = .array r ∧ ∀ i : Nat,
        outcome (mergeNested order base[i]? ours[i]? theirs[i]?) base[i]? ours[i]? theirs[i]? =
          some r[i]? := by
  rw [mergeValues, Option.map_eq_some_iff]
  refine exists_congr fun r => ?_
  have hstep : ∀ (i : Nat) (m : List (Value ν)), _ = (outcome (mergeNested order base[i]? ours[i]?
      theirs[i]?) base[i]? ours[i]? theirs[i]?).map _ :=
    fun i m => (mergeItem_outcome _ _ _ _ m).trans (congrArg (fun n => (outcome n _ _ _).map _)
      (match_mergeNested order _ _ _))
  refine (and_congr_left' (foldlM_push_iff hstep ?_ ?_)).trans ?_
  · intro i j hij hi
    simp only [outcome_eq_none_iff, List.getElem?_eq_none_iff] at hi ⊢
    omega
  · intro i hi
    simp only [outcome_eq_none_iff, List.getElem?_eq_none_iff]
    omega
  · rw [and_comm, eq_comm]

/-- Three objects or three arrays. -/
inductive Alike : (base ours theirs : Value ν) → Prop
  | object (base ours theirs : List (String × Value ν)) :
      Alike (.object base) (.object ours) (.object theirs)
  | array (base ours theirs : List (Value ν)) : Alike (.array base) (.array ours) (.array theirs)

theorem mergeValues_unlike (order : KeyOrder) {base ours theirs : Value ν}
    (h : ¬ Alike base ours theirs) :
    mergeValues order base ours theirs =
      if ours = theirs then some ours else if ours = base then some theirs
      else if theirs = base then some ours else none := by
  rw [mergeValues]
  · intro b o t hb ho ht
    subst hb ho ht
    exact h (.object b o t)
  · intro b o t hb ho ht
    subst hb ho ht
    exact h (.array b o t)

/-! ### The sides can be exchanged -/

theorem mergeValues_swap {order order' : KeyOrder} {base ours theirs m : Value ν}
    (h : mergeValues order base ours theirs = some m) :
    mergeValues order' base theirs ours = some m := by
  induction hn : sizeOf base using Nat.strong_induction_on generalizing base ours theirs m with
  | _ n ih =>
  -- what the merge of the values in one place gives, the exchanged merge gives too
  have hnested : ∀ {bv ov tv : Option (Value ν)}, (∀ v, bv = some v → sizeOf v < n) →
      ∀ m, mergeNested order bv ov tv = some m → mergeNested order' bv tv ov = some m := by
    intro bv ov tv hlt m hm
    obtain ⟨b, o, t, rfl, rfl, rfl, hm⟩ := mergeNested_eq_some.mp hm
    exact ih _ (hlt b rfl) hm rfl
  by_cases hAlike : Alike base ours theirs
  · cases hAlike with
    | object b o t =>
      obtain ⟨r, rfl, hr, hout⟩ := (mergeValues_object_iff order).mp h
      refine (mergeValues_object_iff order').mpr ⟨r, rfl, hr, fun k => ?_⟩
      rw [outcome_comm]
      refine outcome_mono (hnested fun v hv => ?_) (hout k)
      have := sizeOf_get hv
      simp only [Value.object.sizeOf_spec] at hn
      omega
    | array b o t =>
      obtain ⟨r, rfl, hout⟩ := (mergeValues_array_iff order).mp h
      refine (mergeValues_array_iff order').mpr ⟨r, rfl, fun i => ?_⟩
      rw [outcome_comm]
      refine outcome_mono (hnested fun v hv => ?_) (hout i)
      have := sizeOf_getElem? hv
      simp only [Value.array.sizeOf_spec] at hn
      omega
  · have hswapped : ¬ Alike base theirs ours := by
      intro hswapped
      cases hswapped with
      | object b o t => exact hAlike (.object b t o)
      | array b o t => exact hAlike (.array b t o)
    rw [mergeValues_unlike order hAlike] at h
    rw [mergeValues_unlike order' hswapped]
    grind

/-- Exchanging the sides, or visiting the keys in another order, changes nothing: neither
whether there is a conflict nor the merged value. -/
theorem mergeValues_comm (order order' : KeyOrder) (b o t : Value ν) :
    mergeValues order b o t = mergeValues order' b t o := by
  cases h : mergeValues order b o t with
  | some m => exact (mergeValues_swap h).symm
  | none =>
    cases h' : mergeValues order' b t o with
    | none => rfl
    | some m =>
      rw [mergeValues_swap h'] at h
      cases h

end Suture.Driver
