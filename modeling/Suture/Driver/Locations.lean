import Suture.Driver.Outcome

/-!
# Locations in a document

A location is a list of keys and positions. A merge without a conflict keeps what either
side added at the top, and everything it holds comes from the same location of a side.
-/

namespace Suture.Driver
set_option autoImplicit false
open Foundation

variable {ν : Type}

inductive Step where
  | key (k : String)
  | index (i : Nat)
deriving DecidableEq, Repr

def Value.child : Value ν → Step → Option (Value ν)
  | .object entries, .key k => Assoc.get entries k
  | .array items, .index i => items[i]?
  | _, _ => none

/-- The value at a location. -/
def Value.at : Value ν → List Step → Option (Value ν)
  | v, [] => some v
  | v, s :: rest => (v.child s).bind fun c => c.at rest

@[simp] theorem Value.at_nil (v : Value ν) : v.at [] = some v := rfl

theorem Value.at_cons (v : Value ν) (s : Step) (rest : List Step) :
    v.at (s :: rest) = (v.child s).bind fun c => c.at rest := rfl

variable [DecidableEq ν]

/-- What stands in one place is a side's value there, or the merge of the three. -/
theorem outcome_eq_some {nested base ours theirs : Option (Value ν)} {v : Value ν}
    (h : outcome nested base ours theirs = some (some v)) :
    ours = some v ∨ theirs = some v ∨ ours ≠ none ∧ theirs ≠ none ∧ nested = some v := by
  cases ours with
  | none =>
    simp only [outcome, Option.some.injEq] at h
    exact .inr (.inl h)
  | some ov =>
    cases theirs with
    | none =>
      simp only [outcome, Option.some.injEq] at h
      exact .inl (congrArg some h)
    | some tv =>
      simp only [outcome] at h
      split_ifs at h
      · exact .inl (Option.some.inj h)
      · cases base with
        | none => cases h
        | some bv =>
          simp only at h
          split_ifs at h
          · exact .inr (.inl (Option.some.inj h))
          · exact .inl (Option.some.inj h)
          · refine .inr (.inr ⟨Option.some_ne_none _, Option.some_ne_none _, ?_⟩)
            simpa using h

/-- A child of a merge is the child of a side, or the merge of the children of both. -/
theorem child_of_mergeValues {order : KeyOrder} {base ours theirs m c : Value ν}
    (h : mergeValues order base ours theirs = some m) {s : Step} (hc : m.child s = some c) :
    ours.child s = some c ∨ theirs.child s = some c ∨ ∃ bv ov tv, ours.child s = some ov ∧
      theirs.child s = some tv ∧ mergeValues order bv ov tv = some c := by
  by_cases hAlike : Alike base ours theirs
  · cases hAlike with
    | object b o t =>
      obtain ⟨r, rfl, -, hout⟩ := (mergeValues_object_iff order).mp h
      cases s with
      | index i => cases hc
      | key k =>
        have hk := hout k
        rw [show Assoc.get r k = some c from hc] at hk
        obtain ho | ht | ⟨-, -, hnested⟩ := outcome_eq_some hk
        · exact .inl ho
        · exact .inr (.inl ht)
        · obtain ⟨bv, ov, tv, -, ho, ht, hm⟩ := mergeNested_eq_some.mp hnested
          exact .inr (.inr ⟨bv, ov, tv, ho, ht, hm⟩)
    | array b o t =>
      obtain ⟨r, rfl, hout⟩ := (mergeValues_array_iff order).mp h
      cases s with
      | key k => cases hc
      | index i =>
        have hi := hout i
        rw [show r[i]? = some c from hc] at hi
        obtain ho | ht | ⟨-, -, hnested⟩ := outcome_eq_some hi
        · exact .inl ho
        · exact .inr (.inl ht)
        · obtain ⟨bv, ov, tv, -, ho, ht, hm⟩ := mergeNested_eq_some.mp hnested
          exact .inr (.inr ⟨bv, ov, tv, ho, ht, hm⟩)
  · rw [mergeValues_unlike order hAlike] at h
    split_ifs at h
    · exact .inl (Option.some.inj h ▸ hc)
    · exact .inr (.inl (Option.some.inj h ▸ hc))
    · exact .inl (Option.some.inj h ▸ hc)

/-- A merge that is a scalar is a side. -/
theorem scalar_of_mergeValues {order : KeyOrder} {base ours theirs : Value ν} {s : Scalar ν}
    (h : mergeValues order base ours theirs = some (.scalar s)) :
    ours = .scalar s ∨ theirs = .scalar s := by
  by_cases hAlike : Alike base ours theirs
  · cases hAlike with
    | object b o t =>
      obtain ⟨r, hr, -⟩ := (mergeValues_object_iff order).mp h
      cases hr
    | array b o t =>
      obtain ⟨r, hr, -⟩ := (mergeValues_array_iff order).mp h
      cases hr
  · rw [mergeValues_unlike order hAlike] at h
    split_ifs at h
    · exact .inl (Option.some.inj h)
    · exact .inr (Option.some.inj h)
    · exact .inl (Option.some.inj h)

/-- Every scalar of a merge stands at the same location of a side. -/
theorem scalar_at_of_mergeValues {order : KeyOrder} {base ours theirs m : Value ν}
    (h : mergeValues order base ours theirs = some m) {path : List Step} {s : Scalar ν}
    (hs : m.at path = some (.scalar s)) :
    ours.at path = some (.scalar s) ∨ theirs.at path = some (.scalar s) := by
  induction path generalizing base ours theirs m with
  | nil =>
    rw [Value.at_nil, Option.some.injEq] at hs
    subst m
    simpa using scalar_of_mergeValues h
  | cons step rest ih =>
    rw [Value.at_cons] at hs ⊢
    rw [Value.at_cons]
    obtain ⟨c, hc, hrest⟩ := Option.bind_eq_some_iff.mp hs
    obtain ho | ht | ⟨bv, ov, tv, ho, ht, hm⟩ := child_of_mergeValues h hc
    · rw [ho]
      exact .inl hrest
    · rw [ht]
      exact .inr hrest
    · rw [ho, ht]
      exact ih hm hrest

/-- A merge without a conflict keeps what a side added under a new key, has no key that
neither side has, and has at every location only scalars that a side has there. -/
theorem merge_keeps_additions (order : KeyOrder) (b o t : List (String × Value ν)) (m : Value ν)
    (h : mergeValues order (.object b) (.object o) (.object t) = some m) :
    (∀ k v, Assoc.get b k = none → Assoc.get o k = some v ∨ Assoc.get t k = some v →
        m.child (.key k) = some v) ∧
      (∀ k, m.child (.key k) ≠ none → Assoc.get o k ≠ none ∨ Assoc.get t k ≠ none) ∧
      ∀ path s, m.at path = some (.scalar s) →
        (Value.object o).at path = some (.scalar s) ∨ (Value.object t).at path = some (.scalar s) := by
  obtain ⟨r, rfl, -, hout⟩ := (mergeValues_object_iff order).mp h
  refine ⟨fun k v hb hv => ?_, fun k hk => ?_, fun path s hs => scalar_at_of_mergeValues h hs⟩
  · have hk := hout k
    rw [hb] at hk
    show Assoc.get r k = some v
    cases ho : Assoc.get o k with
    | none =>
      rw [ho] at hv hk
      obtain hv | hv := hv
      · cases hv
      · exact (Option.some.inj hk).symm.trans hv
    | some ov =>
      cases ht : Assoc.get t k with
      | none =>
        rw [ho, ht] at hv hk
        obtain hv | hv := hv
        · exact (Option.some.inj hk).symm.trans hv
        · cases hv
      | some tv =>
        rw [ho, ht] at hv hk
        simp only [outcome] at hk
        split_ifs at hk with hsame
        rw [← hsame, or_self] at hv
        exact (Option.some.inj hk).symm.trans hv
  · by_contra hnone
    push Not at hnone
    have hempty := hout k
    rw [outcome_eq_none_iff.mpr hnone] at hempty
    exact hk (Option.some.inj hempty).symm

/-- The keys of a set in the order in which they were put in. -/
def KeyOrder.asListed : KeyOrder := ⟨fun keys => keys, List.Perm.refl⟩

/-- Ours adds a key and changes a number next to which theirs adds an array. -/
theorem merge_keeps_additions_example :
    (Value.object [("a", .object [("x", .scalar (.number 2)), ("y", .array [.scalar (.bool true)])]),
      ("b", .scalar .null)] : Value Nat).child (.key "b") = some (.scalar .null) :=
  (merge_keeps_additions KeyOrder.asListed [("a", .object [("x", .scalar (.number 1))])]
    [("a", .object [("x", .scalar (.number 2))]), ("b", .scalar .null)]
    [("a", .object [("x", .scalar (.number 1)), ("y", .array [.scalar (.bool true)])])] _
    (by simp [mergeValues, allKeys, KeyOrder.asListed, Assoc.get, mergeKey]; rfl)).1 "b" _ rfl (.inl rfl)

end Suture.Driver
