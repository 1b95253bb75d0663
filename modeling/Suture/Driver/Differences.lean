import Suture.Driver.Locations

/-!
# The structured diff

`diffValues` of the structured drivers. The macro takes the way in which addresses are
built as an argument; so does the definition here, with the type of the addresses open:
strings give the diff of the source, locations say what each change is about.
-/

namespace Suture.Driver
set_option autoImplicit false
open Foundation

/-- A reported change with its address. The diff reports no moves. -/
inductive SemanticChange (π : Type) where
  | added (path : π) (value : String)
  | removed (path : π) (oldValue : String)
  | modified (path : π) (oldValue newValue : String)
deriving DecidableEq, Repr

namespace SemanticChange
variable {π π' : Type}

def path : SemanticChange π → π
  | .added path _ | .removed path _ | .modified path _ _ => path

def mapPath (f : π → π') : SemanticChange π → SemanticChange π'
  | .added path value => .added (f path) value
  | .removed path oldValue => .removed (f path) oldValue
  | .modified path oldValue newValue => .modified (f path) oldValue newValue

end SemanticChange

/-- How the address of a child is made from the address of its parent. -/
structure Paths (π : Type) where
  childPath : π → String → π
  itemPath : π → Nat → π

namespace Paths
variable {π π' : Type}

def step (paths : Paths π) (path : π) : Step → π
  | .key k => paths.childPath path k
  | .index i => paths.itemPath path i

/-- Locations as addresses. -/
def locations : Paths (List Step) where
  childPath path k := path ++ [.key k]
  itemPath path i := path ++ [.index i]

/-- Two addresses side by side. -/
def both (paths : Paths π) (paths' : Paths π') : Paths (π × π') where
  childPath path k := (paths.childPath path.1 k, paths'.childPath path.2 k)
  itemPath path i := (paths.itemPath path.1 i, paths'.itemPath path.2 i)

theorem foldl_both (paths : Paths π) (paths' : Paths π') (loc : List Step) (path : π × π') :
    loc.foldl (both paths paths').step path =
      (loc.foldl paths.step path.1, loc.foldl paths'.step path.2) := by
  induction loc generalizing path with
  | nil => rfl
  | cons s loc ih =>
    rw [List.foldl_cons, ih]
    cases s <;> rfl

theorem foldl_locations (loc start : List Step) : loc.foldl locations.step start = start ++ loc := by
  induction loc generalizing start with
  | nil => simp
  | cons s loc ih =>
    rw [List.foldl_cons, ih]
    cases s <;> simp [step, locations]

end Paths

section Changed
variable {ν : Type}

/-- Both objects or both arrays. -/
inductive SameKind : (old new : Value ν) → Prop
  | object (old new : List (String × Value ν)) : SameKind (.object old) (.object new)
  | array (old new : List (Value ν)) : SameKind (.array old) (.array new)

/-- The documents differ at a location: in a value that is not a container in both, or in
a child that only one container has. -/
def Changed : (old new : Value ν) → List Step → Prop
  | old, new, [] => ¬ SameKind old new ∧ old ≠ new
  | old, new, s :: rest => SameKind old new ∧
    match old.child s, new.child s with
    | some ov, some nv => Changed ov nv rest
    | some _, none | none, some _ => rest = []
    | none, none => False

/-- The rest of a location, below a child that one or both values have. -/
def ChangedChild : (old new : Option (Value ν)) → List Step → Prop
  | some ov, some nv, rest => Changed ov nv rest
  | some _, none, rest | none, some _, rest => rest = []
  | none, none, _ => False

theorem changed_cons_iff {old new : Value ν} {s : Step} {rest : List Step} :
    Changed old new (s :: rest) ↔
      SameKind old new ∧ ChangedChild (old.child s) (new.child s) rest := by
  rw [Changed]
  cases old.child s <;> cases new.child s <;> rfl

theorem sizeOf_child {v c : Value ν} {s : Step} (h : v.child s = some c) : sizeOf c < sizeOf v := by
  cases v with
  | scalar x => cases s <;> cases h
  | array items =>
    cases s with
    | key k => cases h
    | index i =>
      have := sizeOf_getElem? h
      simp only [Value.array.sizeOf_spec]
      omega
  | object entries =>
    cases s with
    | index i => cases h
    | key k =>
      have := sizeOf_get h
      simp only [Value.object.sizeOf_spec]
      omega

end Changed

section Diff
variable {ν π : Type} [DecidableEq ν] (order : KeyOrder) (text : Value ν → String) (paths : Paths π)

def diffValues (old new : Value ν) (path : π) : List (SemanticChange π) :=
  match old, new with
  | .object oldMap, .object newMap =>
    let oldKeys := order.arrange (oldMap.map Prod.fst).dedup
    let newKeys := order.arrange (newMap.map Prod.fst).dedup
    let removed := oldKeys.flatMap fun k =>
      match Assoc.get oldMap k, Assoc.get newMap k with
      | some ov, none => [.removed (paths.childPath path k) (text ov)]
      | _, _ => []
    let added := newKeys.flatMap fun k =>
      match Assoc.get oldMap k, Assoc.get newMap k with
      | none, some nv => [.added (paths.childPath path k) (text nv)]
      | _, _ => []
    let common := oldKeys.flatMap fun k =>
      match _h : Assoc.get oldMap k, Assoc.get newMap k with
      | some ov, some nv => diffValues ov nv (paths.childPath path k)
      | _, _ => []
    removed ++ added ++ common
  | .array oldArr, .array newArr =>
    (List.range (max oldArr.length newArr.length)).flatMap fun i =>
      match _h : oldArr[i]?, newArr[i]? with
      | none, some nv => [.added (paths.itemPath path i) (text nv)]
      | some ov, none => [.removed (paths.itemPath path i) (text ov)]
      | some ov, some nv => diffValues ov nv (paths.itemPath path i)
      | none, none => []
  | _, _ => if old ≠ new then [.modified path (text old) (text new)] else []
termination_by old
decreasing_by
  · have := sizeOf_get _h
    simp only [Value.object.sizeOf_spec]
    omega
  · have := sizeOf_getElem? _h
    simp only [Value.array.sizeOf_spec]
    omega

/-- What the diff reports of a child that may be missing on a side. -/
def diffChild (path : π) : (old new : Option (Value ν)) → List (SemanticChange π)
  | some ov, some nv => diffValues order text paths ov nv path
  | some ov, none => [.removed path (text ov)]
  | none, some nv => [.added path (text nv)]
  | none, none => []

omit [DecidableEq ν] in
theorem mem_arrange_keys {entries : List (String × Value ν)} {k : String} :
    k ∈ order.arrange (entries.map Prod.fst).dedup ↔ Assoc.get entries k ≠ none := by
  rw [(order.perm _).mem_iff, List.mem_dedup, ne_eq, Assoc.get_eq_none_iff, not_not]

variable {order text paths}

theorem mem_diffValues_object {old new : List (String × Value ν)} {path : π} {c : SemanticChange π} :
    c ∈ diffValues order text paths (.object old) (.object new) path ↔ ∃ k,
      c ∈ diffChild order text paths (paths.childPath path k) (Assoc.get old k) (Assoc.get new k) := by
  rw [diffValues]
  simp only [List.mem_append, List.mem_flatMap, mem_arrange_keys]
  constructor
  · rintro ((⟨k, -, hc⟩ | ⟨k, -, hc⟩) | ⟨k, -, hc⟩)
    · refine ⟨k, ?_⟩
      cases ho : Assoc.get old k <;> cases hn : Assoc.get new k <;> rw [ho, hn] at hc <;> simp_all [diffChild]
    · refine ⟨k, ?_⟩
      cases ho : Assoc.get old k <;> cases hn : Assoc.get new k <;> rw [ho, hn] at hc <;> simp_all [diffChild]
    · refine ⟨k, ?_⟩
      split at hc
      · rename_i ho hn
        rw [ho, hn]
        exact hc
      · cases hc
  · intro ⟨k, hc⟩
    cases ho : Assoc.get old k with
    | none =>
      cases hn : Assoc.get new k with
      | none =>
        rw [ho, hn] at hc
        cases hc
      | some nv =>
        rw [ho, hn] at hc
        exact .inl (.inr ⟨k, by simp [hn], by rw [ho, hn]; exact hc⟩)
    | some ov =>
      cases hn : Assoc.get new k with
      | none =>
        rw [ho, hn] at hc
        exact .inl (.inl ⟨k, by simp [ho], by rw [ho, hn]; exact hc⟩)
      | some nv =>
        rw [ho, hn] at hc
        refine .inr ⟨k, by simp [ho], ?_⟩
        split
        · rename_i ho' hn'
          rw [ho, Option.some.injEq] at ho'
          rw [hn, Option.some.injEq] at hn'
          subst ho' hn'
          exact hc
        · rename_i hnot
          exact absurd hn (hnot ov nv ho)

theorem mem_diffValues_array {old new : List (Value ν)} {path : π} {c : SemanticChange π} :
    c ∈ diffValues order text paths (.array old) (.array new) path ↔ ∃ i : Nat,
      c ∈ diffChild order text paths (paths.itemPath path i) old[i]? new[i]? := by
  rw [diffValues, List.mem_flatMap]
  constructor
  · intro ⟨i, _, hc⟩
    refine ⟨i, ?_⟩
    split at hc <;> simp_all [diffChild]
  · intro ⟨i, hc⟩
    refine ⟨i, ?_, ?_⟩
    · rw [List.mem_range]
      by_contra hi
      rw [List.getElem?_eq_none (by omega), List.getElem?_eq_none (by omega)] at hc
      cases hc
    · split <;> simp_all [diffChild]

theorem mem_diffValues_child {old new : Value ν} (h : SameKind old new) {path : π}
    {c : SemanticChange π} :
    c ∈ diffValues order text paths old new path ↔ ∃ s : Step,
      c ∈ diffChild order text paths (paths.step path s) (old.child s) (new.child s) := by
  cases h with
  | object old new =>
    rw [mem_diffValues_object]
    constructor
    · intro ⟨k, hc⟩
      exact ⟨.key k, hc⟩
    · intro ⟨s, hc⟩
      cases s with
      | key k => exact ⟨k, hc⟩
      | index i => cases hc
  | array old new =>
    rw [mem_diffValues_array]
    constructor
    · intro ⟨i, hc⟩
      exact ⟨.index i, hc⟩
    · intro ⟨s, hc⟩
      cases s with
      | key k => cases hc
      | index i => exact ⟨i, hc⟩

theorem diffValues_unlike {old new : Value ν} (h : ¬ SameKind old new) (path : π) :
    diffValues order text paths old new path =
      if old ≠ new then [.modified path (text old) (text new)] else [] := by
  rw [diffValues]
  · intro o n ho hn
    subst ho hn
    exact h (.object o n)
  · intro o n ho hn
    subst ho hn
    exact h (.array o n)

omit [DecidableEq ν] in
theorem flatMap_mapPath {α π' : Type} {f : π → π'} {items : List α}
    {g : α → List (SemanticChange π)} {g' : α → List (SemanticChange π')}
    (h : ∀ a ∈ items, (g a).map (.mapPath f) = g' a) :
    (items.flatMap g).map (.mapPath f) = items.flatMap g' := by
  rw [List.map_flatMap]
  exact List.flatMap_congr h

/-- Other addresses do not change what is reported. -/
theorem diffValues_mapPath {π' : Type} {paths' : Paths π'} {f : π → π'}
    (hf : ∀ path s, f (paths.step path s) = paths'.step (f path) s) (old new : Value ν) (path : π) :
    (diffValues order text paths old new path).map (.mapPath f) =
      diffValues order text paths' old new (f path) := by
  have hkey : ∀ path k, f (paths.childPath path k) = paths'.childPath (f path) k :=
    fun path k => hf path (.key k)
  have hindex : ∀ path i, f (paths.itemPath path i) = paths'.itemPath (f path) i :=
    fun path i => hf path (.index i)
  induction hn : sizeOf old using Nat.strong_induction_on generalizing old new path with
  | _ n ih =>
  by_cases hkind : SameKind old new
  · cases hkind with
    | object old new =>
      have hsize : ∀ {k v}, Assoc.get old k = some v → sizeOf v < n := by
        intro k v hv
        have := sizeOf_get hv
        simp only [Value.object.sizeOf_spec] at hn
        omega
      rw [diffValues, diffValues]
      simp only [List.map_append]
      congr 1
      · congr 1
        · apply flatMap_mapPath
          intro k _
          split <;> simp [SemanticChange.mapPath, hkey]
        · apply flatMap_mapPath
          intro k _
          split <;> simp [SemanticChange.mapPath, hkey]
      · apply flatMap_mapPath
        intro k _
        split
        · rename_i ho _
          rw [ih _ (hsize ho) _ _ _ rfl, hkey]
        · rfl
    | array old new =>
      have hsize : ∀ {i : Nat} {v}, old[i]? = some v → sizeOf v < n := by
        intro i v hv
        have := sizeOf_getElem? hv
        simp only [Value.array.sizeOf_spec] at hn
        omega
      rw [diffValues, diffValues]
      apply flatMap_mapPath
      intro i _
      split
      · simp [SemanticChange.mapPath, hindex]
      · simp [SemanticChange.mapPath, hindex]
      · rename_i ho _
        rw [ih _ (hsize ho) _ _ _ rfl, hindex]
      · rfl
  · rw [diffValues_unlike hkind, diffValues_unlike hkind]
    split <;> simp [SemanticChange.mapPath]

/-- What is reported of a child, by what is reported of two values that are both there. -/
theorem diffChild_reported_iff {old new : Option (Value ν)} {path q : π}
    (h : ∀ ov nv, old = some ov → new = some nv →
      ((∃ c ∈ diffValues order text paths ov nv path, c.path = q) ↔
        ∃ loc, Changed ov nv loc ∧ loc.foldl paths.step path = q)) :
    (∃ c ∈ diffChild order text paths path old new, c.path = q) ↔
      ∃ loc, ChangedChild old new loc ∧ loc.foldl paths.step path = q := by
  cases old with
  | none =>
    cases new with
    | none => simp [diffChild, ChangedChild]
    | some nv => simp [diffChild, ChangedChild, SemanticChange.path]
  | some ov =>
    cases new with
    | none => simp [diffChild, ChangedChild, SemanticChange.path]
    | some nv => exact h ov nv rfl rfl

/-- The diff reports exactly the locations at which the documents differ, each under the
address of the location. -/
theorem reported_iff {old new : Value ν} {path q : π} :
    (∃ c ∈ diffValues order text paths old new path, c.path = q) ↔
      ∃ loc, Changed old new loc ∧ loc.foldl paths.step path = q := by
  induction hn : sizeOf old using Nat.strong_induction_on generalizing old new path with
  | _ n ih =>
  by_cases hkind : SameKind old new
  · have hchild : ∀ s, (∃ c ∈ diffChild order text paths (paths.step path s) (old.child s)
        (new.child s), c.path = q) ↔
        ∃ loc, ChangedChild (old.child s) (new.child s) loc ∧
          loc.foldl paths.step (paths.step path s) = q := by
      intro s
      apply diffChild_reported_iff
      intro ov nv ho _
      have hlt : sizeOf ov < n := hn ▸ sizeOf_child ho
      exact ih _ hlt rfl
    constructor
    · intro ⟨c, hc, hq⟩
      obtain ⟨s, hc⟩ := (mem_diffValues_child hkind).mp hc
      obtain ⟨loc, hchanged, hloc⟩ := (hchild s).mp ⟨c, hc, hq⟩
      exact ⟨s :: loc, changed_cons_iff.mpr ⟨hkind, hchanged⟩, hloc⟩
    · intro ⟨loc, hchanged, hq⟩
      cases loc with
      | nil => exact absurd hkind hchanged.1
      | cons s loc =>
        obtain ⟨c, hc, hpath⟩ := (hchild s).mpr ⟨loc, (changed_cons_iff.mp hchanged).2, hq⟩
        exact ⟨c, (mem_diffValues_child hkind).mpr ⟨s, hc⟩, hpath⟩
  · rw [diffValues_unlike hkind]
    constructor
    · intro ⟨c, hc, hq⟩
      split at hc
      · rename_i hne
        rw [List.mem_singleton] at hc
        subst c
        exact ⟨[], ⟨hkind, hne⟩, hq⟩
      · cases hc
    · intro ⟨loc, hchanged, hq⟩
      cases loc with
      | nil =>
        rw [if_pos hchanged.2]
        exact ⟨_, List.mem_singleton_self _, hq⟩
      | cons s loc => exact absurd hchanged.1 hkind

end Diff

/-! ### Nothing is reported exactly when nothing changed -/

section Complete
variable {ν : Type}

theorem Value.OrderedItems.mem {items : List (Value ν)} (h : Value.OrderedItems items) {v : Value ν}
    (hv : v ∈ items) : v.Ordered := by
  induction items with
  | nil => cases hv
  | cons x items ih =>
    rcases List.mem_cons.mp hv with rfl | hv
    · exact h.1
    · exact ih h.2 hv

theorem Value.OrderedEntries.mem {entries : List (String × Value ν)}
    (h : Value.OrderedEntries entries) {e : String × Value ν} (he : e ∈ entries) : e.2.Ordered := by
  induction entries with
  | nil => cases he
  | cons x entries ih =>
    obtain ⟨k, v⟩ := x
    rcases List.mem_cons.mp he with rfl | he
    · exact h.1
    · exact ih h.2 he

theorem Value.Ordered.child {v c : Value ν} (h : v.Ordered) {s : Step} (hc : v.child s = some c) :
    c.Ordered := by
  cases v with
  | scalar x => cases s <;> cases hc
  | array items =>
    cases s with
    | key k => cases hc
    | index i => exact Value.OrderedItems.mem h (List.mem_of_getElem? hc)
  | object entries =>
    cases s with
    | index i => cases hc
    | key k => exact Value.OrderedEntries.mem h.2 (Assoc.mem_of_get hc)

/-- Two containers of a kind with the same children are the same. -/
theorem SameKind.ext {old new : Value ν} (h : SameKind old new) (ho : old.Ordered)
    (hn : new.Ordered) (hchild : ∀ s, old.child s = new.child s) : old = new := by
  cases h with
  | object old new => rw [Assoc.Sorted.ext ho.1 hn.1 fun k => hchild (.key k)]
  | array old new => rw [List.ext_getElem? fun i => hchild (.index i)]

theorem eq_of_unchanged {old new : Value ν} (ho : old.Ordered) (hn : new.Ordered)
    (h : ∀ loc, ¬ Changed old new loc) : old = new := by
  induction hsize : sizeOf old using Nat.strong_induction_on generalizing old new with
  | _ n ih =>
  by_cases hkind : SameKind old new
  · refine hkind.ext ho hn fun s => ?_
    cases hos : old.child s with
    | none =>
      cases hns : new.child s with
      | none => rfl
      | some nv => exact absurd ⟨hkind, by simp [hos, hns]⟩ (h [s])
    | some ov =>
      cases hns : new.child s with
      | none => exact absurd ⟨hkind, by simp [hos, hns]⟩ (h [s])
      | some nv =>
        refine congrArg some (ih _ (hsize ▸ sizeOf_child hos) (ho.child hos) (hn.child hns) ?_ rfl)
        intro loc hloc
        exact h (s :: loc) ⟨hkind, by simpa only [hos, hns] using hloc⟩
  · by_contra hne
    exact h [] ⟨hkind, hne⟩

theorem not_changed_self (v : Value ν) (loc : List Step) : ¬ Changed v v loc := by
  induction loc generalizing v with
  | nil => exact fun h => h.2 rfl
  | cons s loc ih =>
    intro ⟨_, h⟩
    cases hs : v.child s with
    | none =>
      rw [hs] at h
      exact h
    | some c =>
      rw [hs] at h
      exact ih c h

theorem diffValues_eq_nil_iff [DecidableEq ν] {π : Type} (order : KeyOrder) (text : Value ν → String)
    (paths : Paths π) (old new : JsonValue ν) (path : π) :
    diffValues order text paths old.val new.val path = [] ↔ old.val = new.val := by
  constructor
  · intro hnil
    apply eq_of_unchanged old.property new.property
    intro loc hloc
    have hreported : ∃ c ∈ diffValues order text paths old.val new.val path,
        c.path = loc.foldl paths.step path := reported_iff.mpr ⟨loc, hloc, rfl⟩
    obtain ⟨c, hc, -⟩ := hreported
    rw [hnil] at hc
    cases hc
  · intro heq
    rw [heq, List.eq_nil_iff_forall_not_mem]
    intro c hc
    obtain ⟨loc, hloc, -⟩ := reported_iff.mp ⟨c, hc, rfl⟩
    exact not_changed_self _ loc hloc

end Complete
end Suture.Driver
