import Mathlib.Logic.Relation
import Suture.Driver.Locations
import Suture.Foundation.Rows

/-!
# Merging Kubernetes manifests

Mappings are merged key by key. Sequences are merged by the names of their elements when on one
side every element has a name, and position by position otherwise. A key stands for its YAML
text; what is neither a mapping, a sequence, a text, a boolean nor null (a number or a tagged
value) is of the type of numbers.
-/

namespace Suture.Driver
set_option autoImplicit false
open Foundation

variable {ν : Type}

namespace Yaml

def isArrayOfNamedObjects (arr : List (Value ν)) : Bool :=
  !arr.isEmpty && arr.all fun v =>
    match v with
    | .object m => (Assoc.get m "name").isSome
    | _ => false

def getName : Value ν → Option String
  | .object m =>
    match Assoc.get m "name" with
    | some (.scalar (.string s)) => some s
    | _ => none
  | _ => none

/-- The elements with a name; in the map that is collected from them the last of a name stands. -/
def namedEntries (arr : List (Value ν)) : List (String × Value ν) :=
  arr.filterMap fun v => (getName v).map fun n => (n, v)

def entry (arr : List (Value ν)) (name : String) : Option (Value ν) := lastRow (namedEntries arr) name

theorem mem_of_entry {arr : List (Value ν)} {name : String} {v : Value ν}
    (h : entry arr name = some v) : v ∈ arr ∧ getName v = some name := by
  obtain ⟨w, hw, heq⟩ := List.mem_filterMap.mp (lastRow_mem h)
  obtain ⟨n, hn, hpair⟩ := Option.map_eq_some_iff.mp heq
  obtain ⟨rfl, rfl⟩ := Prod.mk.inj hpair
  exact ⟨hw, hn⟩

theorem sizeOf_entry {arr : List (Value ν)} {name : String} {v : Value ν}
    (h : entry arr name = some v) : sizeOf v < sizeOf arr :=
  List.sizeOf_lt_of_mem (mem_of_entry h).1

section Merge
variable [DecidableEq ν] (order : KeyOrder)

def mergeK8sMap (nested : String → Option (Value ν)) (base ours theirs : List (String × Value ν)) :
    Option (Value ν) :=
  let keys := order.arrange (allKeys base ours theirs)
  let merged := keys.foldlM (fun merged k => mergeKey (nested k) merged k (Assoc.get base k)
    (Assoc.get ours k) (Assoc.get theirs k)) []
  merged.map .object

/-- One turn of the loop over the names of both sides; the state is what is merged and which names
were seen. -/
def mergeName (nested : String → Option (Value ν)) (base ours theirs : List (Value ν))
    (state : List (Value ν) × List String) (name : String) :
    Option (List (Value ν) × List String) :=
  if name ∈ state.2 then some state
  else (mergeItem (nested name) state.1 (entry base name) (entry ours name)
    (entry theirs name)).map fun merged => (merged, name :: state.2)

def mergeK8sSequenceByName (nested : String → Option (Value ν)) (base ours theirs : List (Value ν)) :
    Option (Value ν) :=
  let names := ours.filterMap getName ++ theirs.filterMap getName
  let run := names.foldlM (mergeName nested base ours theirs) ([], [])
  run.map fun state => .array state.1

def mergeK8sValues (base ours theirs : Value ν) : Option (Value ν) :=
  match base, ours, theirs with
  | .object baseMap, .object oursMap, .object theirsMap =>
    mergeK8sMap order (fun k =>
      match _hb : Assoc.get baseMap k, Assoc.get oursMap k, Assoc.get theirsMap k with
      | some bv, some ov, some tv => mergeK8sValues bv ov tv
      | _, _, _ => none) baseMap oursMap theirsMap
  | .array bs, .array os, .array ts =>
    if isArrayOfNamedObjects os || isArrayOfNamedObjects ts then
      mergeK8sSequenceByName (fun name =>
        match _hb : entry bs name, entry os name, entry ts name with
        | some b, some o, some t => mergeK8sValues b o t
        | _, _, _ => none) bs os ts
    else mergeValues order (.array bs) (.array os) (.array ts)
  | _, _, _ =>
    if ours = theirs then some ours
    else if ours = base then some theirs
    else if theirs = base then some ours
    else none
termination_by base
decreasing_by
  · have := sizeOf_get _hb
    simp only [Value.object.sizeOf_spec]
    omega
  · have := sizeOf_entry _hb
    simp only [Value.array.sizeOf_spec]
    omega

/-! ### What stands under each key and each name -/

variable {order}

/-- The merge of three values, where all three are there. -/
def mergeNested (order : KeyOrder) : (base ours theirs : Option (Value ν)) → Option (Value ν)
  | some bv, some ov, some tv => mergeK8sValues order bv ov tv
  | _, _, _ => none

theorem mergeNested_eq_some {base ours theirs : Option (Value ν)} {m : Value ν} :
    mergeNested order base ours theirs = some m ↔ ∃ bv ov tv, base = some bv ∧ ours = some ov ∧
      theirs = some tv ∧ mergeK8sValues order bv ov tv = some m := by
  cases base <;> cases ours <;> cases theirs <;> simp [mergeNested]

theorem match_mergeNested (base ours theirs : Option (Value ν)) :
    (match _hb : base, ours, theirs with
      | some bv, some ov, some tv => mergeK8sValues order bv ov tv
      | _, _, _ => none) = mergeNested order base ours theirs := by
  cases base <;> cases ours <;> cases theirs <;> rfl

theorem mergeK8sValues_object_iff {base ours theirs : List (String × Value ν)} {m : Value ν} :
    mergeK8sValues order (.object base) (.object ours) (.object theirs) = some m ↔
      ∃ r, m = .object r ∧ Assoc.Sorted r ∧ ∀ k,
        outcome (mergeNested order (Assoc.get base k) (Assoc.get ours k) (Assoc.get theirs k))
          (Assoc.get base k) (Assoc.get ours k) (Assoc.get theirs k) = some (Assoc.get r k) := by
  rw [mergeK8sValues, mergeK8sMap, Option.map_eq_some_iff]
  refine exists_congr fun r => ?_
  refine (and_congr_left' (foldlM_mergeKey_iff order)).trans ?_
  rw [and_comm, eq_comm]
  refine and_congr_right' (and_congr_right' (forall_congr' fun k => iff_of_eq ?_))
  exact congrArg (fun n => outcome n _ _ _ = _) (match_mergeNested _ _ _)

/-- The merged elements, when their names are merged in the order in which they were first seen. -/
structure Built (out : String → Option (Option (Value ν)))
    (state : List (Value ν) × List String) : Prop where
  merged : state.1 = state.2.reverse.filterMap fun n => (out n).join
  nodup : state.2.Nodup
  settled : ∀ n ∈ state.2, (out n).isSome

theorem Built.mergeName {nested : String → Option (Value ν)} {base ours theirs : List (Value ν)}
    {state state' : List (Value ν) × List String} {name : String}
    (h : Built (fun n => outcome (nested n) (entry base n) (entry ours n) (entry theirs n)) state)
    (hrun : Yaml.mergeName nested base ours theirs state name = some state') :
    Built (fun n => outcome (nested n) (entry base n) (entry ours n) (entry theirs n)) state' ∧
      ∀ n, n ∈ state'.2 ↔ n ∈ state.2 ∨ n = name := by
  unfold Yaml.mergeName at hrun
  split_ifs at hrun with hseen
  · cases hrun
    exact ⟨h, fun n => ⟨.inl, fun hn => hn.elim id fun heq => heq ▸ hseen⟩⟩
  · rw [mergeItem_outcome, Option.map_map] at hrun
    obtain ⟨v, hv, rfl⟩ := Option.map_eq_some_iff.mp hrun
    refine ⟨⟨?_, List.nodup_cons.mpr ⟨hseen, h.nodup⟩, ?_⟩, fun n => ?_⟩
    · simp only [Function.comp_apply, List.reverse_cons, List.filterMap_append]
      rw [h.merged]
      cases v <;> simp [hv]
    · intro n hn
      rcases List.mem_cons.mp hn with rfl | hn
      · rw [hv]
        rfl
      · exact h.settled n hn
    · simp only [Function.comp_apply, List.mem_cons]
      exact or_comm

theorem Built.run {nested : String → Option (Value ν)} {base ours theirs : List (Value ν)}
    {names : List String} {state state' : List (Value ν) × List String}
    (h : Built (fun n => outcome (nested n) (entry base n) (entry ours n) (entry theirs n)) state)
    (hrun : names.foldlM (Yaml.mergeName nested base ours theirs) state = some state') :
    Built (fun n => outcome (nested n) (entry base n) (entry ours n) (entry theirs n)) state' ∧
      ∀ n, n ∈ state'.2 ↔ n ∈ state.2 ∨ n ∈ names := by
  induction names generalizing state with
  | nil =>
    cases hrun
    exact ⟨h, fun n => by simp⟩
  | cons name names ih =>
    rw [List.foldlM_cons, Option.bind_eq_bind] at hrun
    obtain ⟨next, hstep, hrun⟩ := Option.bind_eq_some_iff.mp hrun
    obtain ⟨hnext, hseen⟩ := h.mergeName hstep
    obtain ⟨hbuilt, hseen'⟩ := ih hnext hrun
    exact ⟨hbuilt, fun n => by rw [hseen', hseen, List.mem_cons, or_assoc]⟩

omit [DecidableEq ν] in
theorem entry_eq_none_iff {arr : List (Value ν)} {name : String} :
    entry arr name = none ↔ name ∉ arr.filterMap getName := by
  unfold entry namedEntries
  rw [lastRow_eq_none_iff, List.mem_filterMap]
  constructor
  · rintro h ⟨v, hv, hname⟩
    exact h (name, v) (List.mem_filterMap.mpr ⟨v, hv, by rw [hname]; rfl⟩) rfl
  · rintro h row hrow rfl
    obtain ⟨v, hv, heq⟩ := List.mem_filterMap.mp hrow
    obtain ⟨n, hn, rfl⟩ := Option.map_eq_some_iff.mp heq
    exact h ⟨v, hv, hn⟩

omit [DecidableEq ν] in
/-- Elements that are made from their names. -/
theorem entry_filterMap {f : String → Option (Value ν)} {names : List String} (hnames : names.Nodup)
    (hf : ∀ n v, f n = some v → getName v = some n) (n : String) :
    entry (names.filterMap f) n = if n ∈ names then f n else none := by
  have hmem : ∀ n v, (n, v) ∈ namedEntries (names.filterMap f) ↔ n ∈ names ∧ f n = some v := by
    intro n v
    unfold namedEntries
    simp only [List.mem_filterMap, Option.map_eq_some_iff, Prod.mk.injEq]
    constructor
    · rintro ⟨w, ⟨n', hn', hw⟩, n'', hname, rfl, rfl⟩
      rw [hf n' w hw, Option.some.injEq] at hname
      subst n''
      exact ⟨hn', hw⟩
    · rintro ⟨hn, hv⟩
      exact ⟨v, ⟨n, hn, hv⟩, n, hf n v hv, rfl, rfl⟩
  have hfst : ∀ l : List String, (namedEntries (l.filterMap f)).map Prod.fst =
      l.filter fun n => (f n).isSome := by
    intro l
    induction l with
    | nil => rfl
    | cons n l ih =>
      cases hv : f n with
      | none => rw [List.filterMap_cons_none hv, List.filter_cons_of_neg (by simp [hv]), ih]
      | some v =>
        rw [List.filterMap_cons_some hv, List.filter_cons_of_pos (by simp [hv]), ← ih, namedEntries,
          List.filterMap_cons_some (b := (n, v)) (by rw [hf n v hv]; rfl)]
        rfl
  have hkeys : ((namedEntries (names.filterMap f)).map Prod.fst).Nodup := by
    rw [hfst]
    exact hnames.filter _
  cases hv : entry (names.filterMap f) n with
  | some v =>
    obtain ⟨hn, hv⟩ := (hmem n v).mp ((lastRow_eq_some_iff hkeys).mp hv)
    rw [if_pos hn, hv]
  | none =>
    split_ifs with hn
    · cases hfn : f n with
      | none => rfl
      | some v => exact absurd rfl (lastRow_eq_none_iff.mp hv _ ((hmem n v).mpr ⟨hn, hfn⟩))
    · rfl

omit [DecidableEq ν] in
theorem getName_eq_some_iff {v : Value ν} {n : String} : getName v = some n ↔
    ∃ m, v = .object m ∧ Assoc.get m "name" = some (.scalar (.string n)) := by
  unfold getName
  constructor
  · intro h
    split at h
    · rename_i m
      refine ⟨m, rfl, ?_⟩
      split at h
      · rename_i s hs
        rw [hs, Option.some.inj h]
      · cases h
    · cases h
  · rintro ⟨m, rfl, hm⟩
    simp only [hm]

/-- The merge of three elements with one name has that name. -/
theorem getName_of_merge {base ours theirs m : Value ν} {n : String}
    (h : mergeK8sValues order base ours theirs = some m) (hb : getName base = some n)
    (ho : getName ours = some n) (ht : getName theirs = some n) : getName m = some n := by
  obtain ⟨b, rfl, -⟩ := getName_eq_some_iff.mp hb
  obtain ⟨o, rfl, hon⟩ := getName_eq_some_iff.mp ho
  obtain ⟨t, rfl, htn⟩ := getName_eq_some_iff.mp ht
  obtain ⟨r, rfl, -, hout⟩ := mergeK8sValues_object_iff.mp h
  refine getName_eq_some_iff.mpr ⟨r, rfl, ?_⟩
  have hname := hout "name"
  rw [hon, htn] at hname
  simp only [outcome, ↓reduceIte] at hname
  exact (Option.some.inj hname).symm

theorem getName_of_outcome {base ours theirs : List (Value ν)} {n : String} {v : Value ν}
    (h : outcome (mergeNested order (entry base n) (entry ours n) (entry theirs n)) (entry base n)
      (entry ours n) (entry theirs n) = some (some v)) : getName v = some n := by
  rcases outcome_eq_some h with ho | ht | ⟨-, -, hnested⟩
  · exact (mem_of_entry ho).2
  · exact (mem_of_entry ht).2
  · obtain ⟨bv, ov, tv, hb, ho, ht, hm⟩ := mergeNested_eq_some.mp hnested
    exact getName_of_merge hm (mem_of_entry hb).2 (mem_of_entry ho).2 (mem_of_entry ht).2

/-- A sequence is merged by name when on one side every element has one. -/
abbrev ByName (ours theirs : List (Value ν)) : Prop :=
  (isArrayOfNamedObjects ours || isArrayOfNamedObjects theirs) = true

theorem mergeK8sValues_byName {base ours theirs : List (Value ν)} (hname : ByName ours theirs) :
    mergeK8sValues order (.array base) (.array ours) (.array theirs) =
      mergeK8sSequenceByName (fun n => mergeNested order (entry base n) (entry ours n)
        (entry theirs n)) base ours theirs := by
  rw [mergeK8sValues, if_pos hname]
  simp only [match_mergeNested]

theorem outcome_entry_of_merge {base ours theirs : List (Value ν)} {m : Value ν}
    (hname : ByName ours theirs)
    (h : mergeK8sValues order (.array base) (.array ours) (.array theirs) = some m) :
    ∃ items, m = .array items ∧ ∀ n,
      outcome (mergeNested order (entry base n) (entry ours n) (entry theirs n)) (entry base n)
        (entry ours n) (entry theirs n) = some (entry items n) := by
  rw [mergeK8sValues_byName hname, mergeK8sSequenceByName] at h
  obtain ⟨state, hrun, rfl⟩ := Option.map_eq_some_iff.mp h
  obtain ⟨hbuilt, hseen⟩ := Built.run ⟨rfl, List.nodup_nil, fun _ hn => absurd hn List.not_mem_nil⟩
    hrun
  refine ⟨state.1, rfl, fun n => ?_⟩
  rw [hbuilt.merged, entry_filterMap (List.nodup_reverse.mpr hbuilt.nodup) fun n v hv =>
    getName_of_outcome (Option.join_eq_some_iff.mp hv)]
  split_ifs with hn
  · obtain ⟨v, hv⟩ := Option.isSome_iff_exists.mp (hbuilt.settled n (List.mem_reverse.mp hn))
    rw [hv]
    rfl
  · rw [List.mem_reverse, hseen, List.mem_append, not_or, not_or] at hn
    rw [entry_eq_none_iff.mpr hn.2.1, entry_eq_none_iff.mpr hn.2.2]
    rfl

theorem mergeK8sValues_positions {base ours theirs : List (Value ν)} (hname : ¬ ByName ours theirs) :
    mergeK8sValues order (.array base) (.array ours) (.array theirs) =
      mergeValues order (.array base) (.array ours) (.array theirs) := by
  rw [mergeK8sValues, if_neg hname]

/-! ### Every path that the merge reaches -/

/-- A merge that ended with a result. -/
inductive Call (ν : Type) where
  | k8s (base ours theirs merged : Value ν)
  | generic (base ours theirs merged : Value ν)

/-- Each side changed the value, and not in the same way. -/
structure Apart (base ours theirs : Value ν) : Prop where
  sides : ours ≠ theirs
  ours : ours ≠ base
  theirs : theirs ≠ base

def Call.Valid (order : KeyOrder) : Call ν → Prop
  | .k8s base ours theirs merged => mergeK8sValues order base ours theirs = some merged
  | .generic base ours theirs merged => mergeValues order base ours theirs = some merged

/-- The first merge calls the second. -/
inductive Calls : Call ν → Call ν → Prop
  | key {b o t m : List (String × Value ν)} {k : String} {bv ov tv mv : Value ν} :
      Assoc.get b k = some bv → Assoc.get o k = some ov → Assoc.get t k = some tv →
      Assoc.get m k = some mv → Apart bv ov tv →
      Calls (.k8s (.object b) (.object o) (.object t) (.object m)) (.k8s bv ov tv mv)
  | name {b o t m : List (Value ν)} {n : String} {bv ov tv mv : Value ν} :
      ByName o t → entry b n = some bv → entry o n = some ov → entry t n = some tv →
      entry m n = some mv → Apart bv ov tv →
      Calls (.k8s (.array b) (.array o) (.array t) (.array m)) (.k8s bv ov tv mv)
  | positions {b o t : List (Value ν)} {m : Value ν} :
      ¬ ByName o t → Calls (.k8s (.array b) (.array o) (.array t) m)
        (.generic (.array b) (.array o) (.array t) m)
  | genericKey {b o t m : List (String × Value ν)} {k : String} {bv ov tv mv : Value ν} :
      Assoc.get b k = some bv → Assoc.get o k = some ov → Assoc.get t k = some tv →
      Assoc.get m k = some mv → Apart bv ov tv →
      Calls (.generic (.object b) (.object o) (.object t) (.object m)) (.generic bv ov tv mv)
  | position {b o t m : List (Value ν)} {i : Nat} {bv ov tv mv : Value ν} :
      b[i]? = some bv → o[i]? = some ov → t[i]? = some tv → m[i]? = some mv → Apart bv ov tv →
      Calls (.generic (.array b) (.array o) (.array t) (.array m)) (.generic bv ov tv mv)

/-- What only one side has under a key or a name is in the result as that side has it: what it
added, and what the other side deleted. -/
structure EntriesKept {κ : Type} (ours theirs merged : κ → Option (Value ν)) : Prop where
  keepsOurs : ∀ k v, ours k = some v → theirs k = none → merged k = some v
  keepsTheirs : ∀ k v, ours k = none → theirs k = some v → merged k = some v

structure Call.Kept (c : Call ν) : Prop where
  mapping : ∀ b o t m, c = .k8s (.object b) (.object o) (.object t) m ∨
    c = .generic (.object b) (.object o) (.object t) m →
    ∃ entries, m = .object entries ∧
      EntriesKept (Assoc.get o) (Assoc.get t) (Assoc.get entries)
  byName : ∀ b o t m, c = .k8s (.array b) (.array o) (.array t) m → ByName o t →
    ∃ items, m = .array items ∧ EntriesKept (entry o) (entry t) (entry items) ∧
      ∀ n, n ∈ items.filterMap getName ↔ n ∈ o.filterMap getName ∨ n ∈ t.filterMap getName

theorem entriesKept_of_outcome {κ : Type} {nested base ours theirs merged : κ → Option (Value ν)}
    (h : ∀ k, outcome (nested k) (base k) (ours k) (theirs k) = some (merged k)) :
    EntriesKept ours theirs merged := by
  constructor
  · intro k v ho ht
    have hk := h k
    rw [ho, ht] at hk
    exact (Option.some.inj hk).symm
  · intro k v ho ht
    have hk := h k
    rw [ho, ht] at hk
    exact (Option.some.inj hk).symm

/-- Where each side changed the value in its own way, the result is that of the nested merge. -/
theorem nested_of_apart {nested : Option (Value ν)} {bv ov tv mv : Value ν} (hapart : Apart bv ov tv)
    (h : outcome nested (some bv) (some ov) (some tv) = some (some mv)) : nested = some mv := by
  simp only [outcome, if_neg hapart.sides, if_neg hapart.ours, if_neg hapart.theirs] at h
  simpa using h

theorem Calls.valid {c d : Call ν} (hcall : Calls c d) (h : c.Valid order) : d.Valid order := by
  cases hcall with
  | @key _ _ _ _ k _ _ _ _ hb ho ht hm hapart =>
    obtain ⟨r, hr, -, hout⟩ := mergeK8sValues_object_iff.mp h
    cases hr
    have hk := hout k
    rw [hb, ho, ht, hm] at hk
    exact nested_of_apart hapart hk
  | @name _ _ _ _ n _ _ _ _ hname hb ho ht hm hapart =>
    obtain ⟨items, hitems, hout⟩ := outcome_entry_of_merge hname h
    cases hitems
    have hn := hout n
    rw [hb, ho, ht, hm] at hn
    exact nested_of_apart hapart hn
  | positions hname => exact (mergeK8sValues_positions hname).symm.trans h
  | @genericKey _ _ _ _ k _ _ _ _ hb ho ht hm hapart =>
    obtain ⟨r, hr, -, hout⟩ := (mergeValues_object_iff order).mp h
    cases hr
    have hk := hout k
    rw [hb, ho, ht, hm] at hk
    exact nested_of_apart hapart hk
  | @position _ _ _ _ i _ _ _ _ hb ho ht hm hapart =>
    obtain ⟨r, hr, hout⟩ := (mergeValues_array_iff order).mp h
    cases hr
    have hi := hout i
    rw [hb, ho, ht, hm] at hi
    exact nested_of_apart hapart hi

theorem Call.Valid.kept {c : Call ν} (h : c.Valid order) : c.Kept := by
  constructor
  · rintro b o t m (rfl | rfl)
    · obtain ⟨r, rfl, -, hout⟩ := mergeK8sValues_object_iff.mp h
      exact ⟨r, rfl, entriesKept_of_outcome hout⟩
    · obtain ⟨r, rfl, -, hout⟩ := (mergeValues_object_iff order).mp h
      exact ⟨r, rfl, entriesKept_of_outcome hout⟩
  · rintro b o t m rfl hname
    obtain ⟨items, rfl, hout⟩ := outcome_entry_of_merge hname h
    refine ⟨items, rfl, entriesKept_of_outcome hout, fun n => ?_⟩
    have hn := @outcome_eq_none_iff _ _ (mergeNested order (entry b n) (entry o n) (entry t n))
      (entry b n) (entry o n) (entry t n)
    rw [hout n, Option.some.injEq, entry_eq_none_iff, entry_eq_none_iff, entry_eq_none_iff] at hn
    rw [← not_iff_not, hn, not_or]

/-- Every merge that is reached has a result, and keeps what only one side has under a key or a
name; by name it has the names of both sides. -/
theorem mergeK8sValues_keeps_entries (order : KeyOrder) (b o t m : Value ν)
    (h : mergeK8sValues order b o t = some m) (c : Call ν)
    (hc : Relation.ReflTransGen Calls (.k8s b o t m) c) : c.Valid order ∧ c.Kept := by
  have hvalid : c.Valid order := by
    induction hc with
    | refl => exact h
    | tail _ hcall ih => exact hcall.valid ih
  exact ⟨hvalid, hvalid.kept⟩

def container (name : String) (image : Nat) : Value Nat :=
  .object [("image", .scalar (.number image)), ("name", .scalar (.string name))]

def pod (containers : List (Value Nat)) : Value Nat := .object [("containers", .array containers)]

/-- Ours has a new image of the container, theirs has none and a second container. -/
theorem mergeK8sValues_keeps_entries_pod :
    let app : Call Nat := .k8s (container "app" 1) (container "app" 2)
      (.object [("name", .scalar (.string "app"))]) (container "app" 2)
    app.Valid KeyOrder.asListed ∧ app.Kept := by
  intro app
  have hname : ByName [container "app" 2] [.object [("name", .scalar (.string "app"))],
      container "sidecar" 1] := by decide
  have happ : mergeK8sValues KeyOrder.asListed (container "app" 1) (container "app" 2)
      (.object [("name", .scalar (.string "app"))]) = some (container "app" 2) := by
    simp [mergeK8sValues, mergeK8sMap, container, allKeys, KeyOrder.asListed, Assoc.get, mergeKey]
    rfl
  have hlist : mergeK8sValues KeyOrder.asListed (.array [container "app" 1])
      (.array [container "app" 2]) (.array [.object [("name", .scalar (.string "app"))],
        container "sidecar" 1]) = some (.array [container "app" 2, container "sidecar" 1]) := by
    rw [mergeK8sValues_byName hname]
    simp only [container] at happ ⊢
    simp [mergeK8sSequenceByName, mergeName, getName, entry, namedEntries, lastRow, mergeItem,
      mergeNested, Assoc.get, happ]
  have hpod : mergeK8sValues KeyOrder.asListed (pod [container "app" 1]) (pod [container "app" 2])
      (pod [.object [("name", .scalar (.string "app"))], container "sidecar" 1]) =
        some (pod [container "app" 2, container "sidecar" 1]) := by
    refine mergeK8sValues_object_iff.mpr ⟨_, rfl, by simp [Assoc.Sorted], fun k => ?_⟩
    by_cases hk : k = "containers"
    · subst k
      exact congrArg (Option.map some) hlist
    · simp [Assoc.get, hk, outcome]
  exact mergeK8sValues_keeps_entries KeyOrder.asListed _ _ _ _ hpod app
    (.head (.key (k := "containers") rfl rfl rfl rfl ⟨by decide, by decide, by decide⟩)
      (.single (.name (n := "app") hname rfl rfl rfl rfl ⟨by decide, by decide, by decide⟩)))

/-- A key that ours deleted comes back. -/
theorem deleted_entry_returns : ¬ ∀ (order : KeyOrder) (b o t m : Value Nat),
    mergeK8sValues order b o t = some m → ∀ k v, b.child (.key k) = some v →
      o.child (.key k) = none → t.child (.key k) = some v → m.child (.key k) = none := by
  intro h
  let replicas : Value Nat := .object [("replicas", .scalar (.number 3))]
  have hmerge : mergeK8sValues KeyOrder.asListed replicas (.object []) replicas = some replicas :=
    mergeK8sValues_object_iff.mpr ⟨_, rfl, by simp [Assoc.Sorted], fun _ => rfl⟩
  exact absurd (h _ _ _ _ _ hmerge "replicas" _ rfl rfl rfl) (by decide)

end Merge

end Yaml
end Suture.Driver
