import Suture.Driver.Locations
import Suture.Foundation.Rows

/-!
# Merging lock files

`merge_cargo_lock` of the JSON driver. The packages are collected into maps by name, so only
the last package of a name is merged, and the fields besides the packages are base's.
-/

namespace Suture.Driver
set_option autoImplicit false
open Foundation

variable {ν : Type}

namespace Value

def get : Value ν → String → Option (Value ν)
  | .object entries, key => Assoc.get entries key
  | _, _ => none

def asArray : Value ν → Option (List (Value ν))
  | .array items => some items
  | _ => none

def asStr : Value ν → Option String
  | .scalar (.string s) => some s
  | _ => none

end Value

def isCargoLock (value : Value ν) : Bool :=
  match (value.get "package").bind Value.asArray with
  | some packages => packages.any fun pkg => (pkg.get "name").isSome && (pkg.get "version").isSome
  | none => false

def packageName (pkg : Value ν) : Option String := (pkg.get "name").bind Value.asStr

def packageVersion (pkg : Value ν) : Option String := (pkg.get "version").bind Value.asStr

def parseCargoLockPackages (value : Value ν) : Option (List (String × String)) := do
  let packages ← (← value.get "package").asArray
  packages.mapM fun pkg => do
    let name ← packageName pkg
    let version ← packageVersion pkg
    return (name, version)

/-- The packages that have a name, each with it. -/
def namedPackages (packages : List (Value ν)) : List (String × Value ν) :=
  packages.filterMap fun pkg => (packageName pkg).map fun name => (name, pkg)

/-- What the versions of a name select, `none` for a conflict. A name that has no version
does not come up. -/
def selectPackage (baseEntry oursEntry theirsEntry : Option (Value ν)) :
    (baseVer oursVer theirsVer : Option String) → Option (Value ν)
  | baseVer, some o, some t =>
    if o = t then oursEntry
    else if some o = baseVer then theirsEntry
    else if some t = baseVer then oursEntry
    else none
  | _, some _, none => oursEntry
  | _, none, some _ => theirsEntry
  | some _, none, none => baseEntry
  | none, none, none => none

section Merge
variable (order : KeyOrder)

/-- One turn of the loop over the names, with the packages and the names that are done. -/
def mergePackage (entry : String → Option (Value ν)) (merged : List (Value ν) × List String)
    (name : String) : Option (List (Value ν) × List String) :=
  if name ∈ merged.2 then some merged
  else (entry name).map fun pkg => (merged.1 ++ [pkg], merged.2 ++ [name])

def mergeCargoLock (base ours theirs : Value ν) : Option (Value ν) := do
  let basePackages ← parseCargoLockPackages base
  let oursPackages ← parseCargoLockPackages ours
  let theirsPackages ← parseCargoLockPackages theirs
  let baseMap := SortedMap.empty.putRows basePackages
  let oursMap := SortedMap.empty.putRows oursPackages
  let theirsMap := SortedMap.empty.putRows theirsPackages
  let allNames := order.arrange (baseMap.keys ++ oursMap.keys ++ theirsMap.keys).dedup
  let oursArray ← (← ours.get "package").asArray
  let theirsArray ← (← theirs.get "package").asArray
  let baseArray ← (← base.get "package").asArray
  let oursEntries := SortedMap.empty.putRows (namedPackages oursArray)
  let theirsEntries := SortedMap.empty.putRows (namedPackages theirsArray)
  let baseEntries := SortedMap.empty.putRows (namedPackages baseArray)
  let entry := fun name =>
    selectPackage (baseEntries.get name) (oursEntries.get name) (theirsEntries.get name)
      (baseMap.get name) (oursMap.get name) (theirsMap.get name)
  let (mergedPackages, _) ← allNames.foldlM (mergePackage entry) ([], [])
  return match base with
    | .object obj => .object (Assoc.insert "package" (.array mergedPackages) obj)
    | _ => base

end Merge

/-! ### What is merged under a name -/

def packagesOf (value : Value ν) : List (Value ν) := ((value.get "package").bind Value.asArray).getD []

/-- The last package that is listed under a name. -/
def lastNamed (value : Value ν) (name : String) : Option (Value ν) :=
  lastRow (namedPackages (packagesOf value)) name

def lastVersion (value : Value ν) (name : String) : Option String :=
  (lastNamed value name).bind packageVersion

/-- The package that the merge puts in under a name. -/
def selected (base ours theirs : Value ν) (name : String) : Option (Value ν) :=
  selectPackage (lastNamed base name) (lastNamed ours name) (lastNamed theirs name)
    (lastVersion base name) (lastVersion ours name) (lastVersion theirs name)

theorem mem_namedPackages {packages : List (Value ν)} {name : String} {pkg : Value ν} :
    (name, pkg) ∈ namedPackages packages ↔ pkg ∈ packages ∧ packageName pkg = some name := by
  rw [namedPackages, List.mem_filterMap]
  constructor
  · intro ⟨q, hq, h⟩
    obtain ⟨n, hn, heq⟩ := Option.map_eq_some_iff.mp h
    cases heq
    exact ⟨hq, hn⟩
  · intro ⟨hpkg, hname⟩
    exact ⟨pkg, hpkg, by rw [hname]; rfl⟩

theorem lastNamed_eq_some {value : Value ν} {name : String} {pkg : Value ν}
    (h : lastNamed value name = some pkg) : pkg ∈ packagesOf value ∧ packageName pkg = some name :=
  mem_namedPackages.mp (lastRow_mem h)

theorem lastNamed_ne_none {value : Value ν} {name : String} {pkg : Value ν}
    (hpkg : pkg ∈ packagesOf value) (hname : packageName pkg = some name) :
    lastNamed value name ≠ none := by
  intro hnone
  exact lastRow_eq_none_iff.mp hnone _ (mem_namedPackages.mpr ⟨hpkg, hname⟩) rfl

theorem lastRow_parsed {items : List (Value ν)} {packages : List (String × String)}
    (h : items.mapM (fun pkg => do
      let name ← packageName pkg
      let version ← packageVersion pkg
      return (name, version)) = some packages) :
    (∀ pkg ∈ items, packageName pkg ≠ none ∧ packageVersion pkg ≠ none) ∧
      ∀ name, lastRow packages name = (lastRow (namedPackages items) name).bind packageVersion := by
  induction items generalizing packages with
  | nil =>
    rw [List.mapM_nil] at h
    cases h
    exact ⟨fun _ hpkg => (List.not_mem_nil hpkg).elim, fun _ => rfl⟩
  | cons pkg items ih =>
    rw [List.mapM_cons] at h
    simp only [Option.bind_eq_bind, Option.pure_def, Option.bind_eq_some_iff, Option.some.injEq] at h
    obtain ⟨_, ⟨name, hname, version, hversion, rfl⟩, rest, hrest, rfl⟩ := h
    obtain ⟨hall, hlast⟩ := ih (by simpa only [Option.bind_eq_bind, Option.pure_def] using hrest)
    refine ⟨List.forall_mem_cons.mpr ⟨by simp [hname, hversion], hall⟩, fun n => ?_⟩
    have hcons : namedPackages (pkg :: items) = (name, pkg) :: namedPackages items := by
      simp [namedPackages, hname]
    rw [hcons, lastRow, lastRow, hlast]
    cases hq : lastRow (namedPackages items) n with
    | none => by_cases hn : n = name <;> simp [hn, hversion]
    | some q =>
      have hmem := (mem_namedPackages.mp (lastRow_mem hq)).1
      obtain ⟨v, hv⟩ := Option.ne_none_iff_exists'.mp (hall q hmem).2
      simp [hv]

/-- Every package has a name and a version. -/
def Parsed (value : Value ν) : Prop :=
  ∀ pkg ∈ packagesOf value, packageName pkg ≠ none ∧ packageVersion pkg ≠ none

/-- Where the packages parse, every one has a name and a version, and the map of versions has
the version of the last package of a name. -/
theorem parse_eq_some {value : Value ν} {packages : List (String × String)}
    (h : parseCargoLockPackages value = some packages) :
    (∃ entries, value = .object entries) ∧
      (value.get "package").bind Value.asArray = some (packagesOf value) ∧
      Parsed value ∧ ∀ name, lastRow packages name = lastVersion value name := by
  simp only [parseCargoLockPackages, Option.bind_eq_bind, Option.bind_eq_some_iff] at h
  obtain ⟨field, hfield, items, hitems, hmap⟩ := h
  have hpackages : packagesOf value = items := by
    rw [packagesOf, hfield, Option.bind_some, hitems]
    rfl
  obtain ⟨hall, hlast⟩ := lastRow_parsed (by simpa only [Option.bind_eq_bind] using hmap)
  refine ⟨?_, ?_, ?_, ?_⟩
  · cases value with
    | object entries => exact ⟨entries, rfl⟩
    | scalar _ | array _ => cases hfield
  · rw [hfield, Option.bind_some, hitems, hpackages]
  · rw [Parsed, hpackages]
    exact hall
  · intro name
    rw [hlast, lastVersion, lastNamed, hpackages]

theorem foldlM_mergePackage {entry : String → Option (Value ν)} {names : List String}
    (hnodup : names.Nodup) {done : List (Value ν) × List String} (hdone : ∀ n ∈ names, n ∉ done.2)
    {r : List (Value ν) × List String} (h : names.foldlM (mergePackage entry) done = some r) :
    (∀ n ∈ names, entry n ≠ none) ∧ r.1 = done.1 ++ names.filterMap entry := by
  induction names generalizing done with
  | nil =>
    cases h
    simp
  | cons n names ih =>
    obtain ⟨hn, hnodup⟩ := List.nodup_cons.mp hnodup
    rw [List.foldlM_cons, mergePackage, if_neg (hdone n (List.mem_cons_self ..))] at h
    obtain ⟨next, hnext, hrest⟩ := Option.bind_eq_some_iff.mp h
    obtain ⟨pkg, hpkg, rfl⟩ := Option.map_eq_some_iff.mp hnext
    have hfresh : ∀ j ∈ names, j ∉ done.2 ++ [n] := by
      intro j hj hmem
      rcases List.mem_append.mp hmem with hmem | hmem
      · exact hdone j (List.mem_cons_of_mem _ hj) hmem
      · rw [List.mem_singleton] at hmem
        exact hn (hmem ▸ hj)
    obtain ⟨hall, hr⟩ := @ih hnodup (done.1 ++ [pkg], done.2 ++ [n]) hfresh hrest
    refine ⟨List.forall_mem_cons.mpr ⟨by simp [hpkg], hall⟩, ?_⟩
    rw [hr, List.filterMap_cons_some hpkg, List.append_assoc]
    rfl

/-- The merge has the selected package of each name, and base's other fields. -/
theorem mergeCargoLock_eq_some {order : KeyOrder} {base ours theirs m : Value ν}
    (h : mergeCargoLock order base ours theirs = some m) :
    (∀ n, lastVersion base n ≠ none ∨ lastVersion ours n ≠ none ∨ lastVersion theirs n ≠ none →
        selected base ours theirs n ≠ none) ∧
      (∀ pkg, pkg ∈ packagesOf m ↔ ∃ n, selected base ours theirs n = some pkg) ∧
      Parsed ours ∧ Parsed theirs ∧ ∀ f, f ≠ "package" → m.get f = base.get f := by
  simp only [mergeCargoLock, Option.bind_eq_bind, Option.bind_eq_some_iff] at h
  obtain ⟨basePackages, hbase, oursPackages, hours, theirsPackages, htheirs, oursField, hoursField,
    oursArray, hoursArray, theirsField, htheirsField, theirsArray, htheirsArray, baseField, hbaseField,
    baseArray, hbaseArray, merged, hfold, hm⟩ := h
  obtain ⟨⟨obj, rfl⟩, hbaseOf, -, hbaseLast⟩ := parse_eq_some hbase
  obtain ⟨-, hoursOf, hoursAll, hoursLast⟩ := parse_eq_some hours
  obtain ⟨-, htheirsOf, htheirsAll, htheirsLast⟩ := parse_eq_some htheirs
  rw [hbaseField, Option.bind_some, hbaseArray, Option.some.injEq] at hbaseOf
  rw [hoursField, Option.bind_some, hoursArray, Option.some.injEq] at hoursOf
  rw [htheirsField, Option.bind_some, htheirsArray, Option.some.injEq] at htheirsOf
  subst hbaseOf hoursOf htheirsOf
  have hget : ∀ {α : Type} (rows : List (String × α)) k,
      (SortedMap.empty.putRows rows).get k = lastRow rows k := by
    intro α rows k
    rw [SortedMap.get_putRows, SortedMap.get_empty, Option.or_none]
  simp only [hget, hbaseLast, hoursLast, htheirsLast] at hfold
  have hkeys : ∀ n, n ∈ order.arrange ((SortedMap.empty.putRows basePackages).keys ++
        (SortedMap.empty.putRows oursPackages).keys ++
          (SortedMap.empty.putRows theirsPackages).keys).dedup ↔
      lastVersion (.object obj) n ≠ none ∨ lastVersion ours n ≠ none ∨ lastVersion theirs n ≠ none := by
    intro n
    rw [(order.perm _).mem_iff, List.mem_dedup]
    simp only [List.mem_append, SortedMap.mem_keys, hget, hbaseLast, hoursLast, htheirsLast, or_assoc]
  obtain ⟨hall, hmerged⟩ := foldlM_mergePackage
    ((order.perm _).nodup_iff.mpr (List.nodup_dedup _)) (fun n _ => List.not_mem_nil) hfold
  cases hm
  refine ⟨fun n hn => hall n ((hkeys n).mpr hn), fun pkg => ?_, hoursAll, htheirsAll, fun f hf => ?_⟩
  · have hpackages : packagesOf (.object (Assoc.insert "package" (.array merged.1) obj)) = merged.1 := by
      simp [packagesOf, Value.get, Assoc.get_insert, Value.asArray]
    rw [hpackages, hmerged, List.nil_append, List.mem_filterMap]
    constructor
    · intro ⟨n, _, hn⟩
      exact ⟨n, hn⟩
    · intro ⟨n, hn⟩
      refine ⟨n, (hkeys n).mpr ?_, hn⟩
      by_contra hnone
      push Not at hnone
      rw [selected, hnone.1, hnone.2.1, hnone.2.2] at hn
      cases hn
  · simp [Value.get, Assoc.get_insert, hf]

/-! ### What gets lost -/

/-- What a merge of lock files owes: the packages that all three hold, and the fields that
one side alone changed. -/
structure Lossless (base ours theirs m : Value ν) : Prop where
  packages : ∀ pkg ∈ packagesOf base, pkg ∈ packagesOf ours → pkg ∈ packagesOf theirs →
    pkg ∈ packagesOf m
  fields : ∀ f, f ≠ "package" →
    (ours.get f ≠ base.get f → theirs.get f = base.get f → m.get f = ours.get f) ∧
      (theirs.get f ≠ base.get f → ours.get f = base.get f → m.get f = theirs.get f)

/-- The packages that all three hold are the last of their names in the side that the
versions select, and no field is changed by one side alone. -/
structure LosesNothing (base ours theirs : Value ν) : Prop where
  packages : ∀ pkg ∈ packagesOf base, pkg ∈ packagesOf ours → pkg ∈ packagesOf theirs →
    ∀ name, packageName pkg = some name →
      lastNamed (if lastVersion ours name = lastVersion theirs name ∨
          lastVersion ours name ≠ lastVersion base name then ours else theirs) name = some pkg
  fields : ∀ f, f ≠ "package" → (ours.get f = base.get f ↔ theirs.get f = base.get f)

theorem lastVersion_ne_none {value : Value ν} (hparsed : Parsed value) {pkg : Value ν}
    (hpkg : pkg ∈ packagesOf value) {name : String} (hname : packageName pkg = some name) :
    lastVersion value name ≠ none := by
  obtain ⟨last, hlast⟩ := Option.ne_none_iff_exists'.mp (lastNamed_ne_none hpkg hname)
  rw [lastVersion, hlast, Option.bind_some]
  exact (hparsed last (lastNamed_eq_some hlast).1).2

/-- Where both sides have a name, the versions select one of them. -/
theorem selected_of_both {base ours theirs : Value ν} {name : String}
    (ho : lastVersion ours name ≠ none) (ht : lastVersion theirs name ≠ none)
    (hselected : selected base ours theirs name ≠ none) :
    selected base ours theirs name =
      lastNamed (if lastVersion ours name = lastVersion theirs name ∨
        lastVersion ours name ≠ lastVersion base name then ours else theirs) name := by
  obtain ⟨o, ho⟩ := Option.ne_none_iff_exists'.mp ho
  obtain ⟨t, ht⟩ := Option.ne_none_iff_exists'.mp ht
  rw [selected, ho, ht] at hselected ⊢
  simp only [selectPackage, Option.some.injEq] at hselected ⊢
  by_cases hot : o = t
  · rw [if_pos hot, if_pos (.inl hot)]
  · rw [if_neg hot] at hselected ⊢
    by_cases hob : some o = lastVersion base name
    · rw [if_pos hob, if_neg (by simp [hot, hob])]
    · rw [if_neg hob] at hselected ⊢
      have hours : o = t ∨ some o ≠ lastVersion base name := .inr hob
      rw [if_pos hours]
      split_ifs at hselected ⊢ with htb
      · rfl
      · exact absurd rfl hselected

/-- A selected package is found under its own name. -/
theorem packageName_of_selected {base ours theirs pkg : Value ν} {name : String}
    (h : selected base ours theirs name = some pkg) : packageName pkg = some name := by
  unfold selected selectPackage at h
  split at h
  · split_ifs at h
    · exact (lastNamed_eq_some h).2
    · exact (lastNamed_eq_some h).2
    · exact (lastNamed_eq_some h).2
  · exact (lastNamed_eq_some h).2
  · exact (lastNamed_eq_some h).2
  · exact (lastNamed_eq_some h).2
  · cases h

/-- A merge of lock files loses nothing exactly when the packages that all three hold are
the last of their names where the merge looks, and the sides changed the same fields. -/
theorem mergeCargoLock_lossless_iff (order : KeyOrder) (base ours theirs m : Value ν)
    (h : mergeCargoLock order base ours theirs = some m) :
    Lossless base ours theirs m ↔ LosesNothing base ours theirs := by
  obtain ⟨hselected, hmem, hours, htheirs, hfields⟩ := mergeCargoLock_eq_some h
  have hname : ∀ pkg ∈ packagesOf ours, pkg ∈ packagesOf theirs → ∀ name,
      packageName pkg = some name → (pkg ∈ packagesOf m ↔
        lastNamed (if lastVersion ours name = lastVersion theirs name ∨
          lastVersion ours name ≠ lastVersion base name then ours else theirs) name = some pkg) := by
    intro pkg ho ht name hname
    have hov := lastVersion_ne_none hours ho hname
    rw [hmem, ← selected_of_both hov (lastVersion_ne_none htheirs ht hname)
      (hselected name (.inr (.inl hov)))]
    constructor
    · intro ⟨n, hn⟩
      rw [packageName_of_selected hn, Option.some.injEq] at hname
      exact hname ▸ hn
    · intro hn
      exact ⟨name, hn⟩
  constructor
  · intro hlossless
    refine ⟨fun pkg hb ho ht name hn => ?_, fun f hf => ?_⟩
    · exact (hname pkg ho ht name hn).mp (hlossless.packages pkg hb ho ht)
    · obtain ⟨hone, hother⟩ := hlossless.fields f hf
      rw [hfields f hf] at hone hother
      constructor
      · intro heq
        by_contra hne
        exact hne (hother hne heq).symm
      · intro heq
        by_contra hne
        exact hne (hone hne heq).symm
  · intro hkept
    refine ⟨fun pkg hb ho ht => ?_, fun f hf => ⟨fun hne heq => ?_, fun hne heq => ?_⟩⟩
    · obtain ⟨name, hn⟩ := Option.ne_none_iff_exists'.mp (hours pkg ho).1
      exact (hname pkg ho ht name hn).mpr (hkept.packages pkg hb ho ht name hn)
    · exact absurd ((hkept.fields f hf).mpr heq) hne
    · exact absurd ((hkept.fields f hf).mp heq) hne

/-- A package as a lock file lists it. -/
def lockedPackage (name version : String) : Value Nat :=
  .object [("name", .scalar (.string name)), ("version", .scalar (.string version))]

def lockfileOf (packages : List (Value Nat)) : Value Nat := .object [("package", .array packages)]

/-- Ours adds a package and theirs takes another version of one. -/
theorem mergeCargoLock_lossless_example :
    let base := lockfileOf [lockedPackage "log" "0.4", lockedPackage "serde" "1.0"]
    let ours := lockfileOf [lockedPackage "clap" "4.0", lockedPackage "log" "0.4",
      lockedPackage "serde" "1.0"]
    let theirs := lockfileOf [lockedPackage "log" "0.4", lockedPackage "serde" "1.1"]
    Lossless base ours theirs (lockfileOf [lockedPackage "clap" "4.0", lockedPackage "log" "0.4",
      lockedPackage "serde" "1.1"]) := by
  refine (mergeCargoLock_lossless_iff KeyOrder.asListed _ _ _ _ rfl).mpr ⟨?_, ?_⟩
  · intro pkg hbase _ htheirs name hname
    have hpkg : pkg = lockedPackage "log" "0.4" := by
      rcases List.mem_pair.mp hbase with hlog | hserde
      · exact hlog
      · rw [hserde] at htheirs
        exact absurd htheirs (by decide)
    subst pkg
    cases hname
    rfl
  · intro f hf
    simp [lockfileOf, Value.get, Assoc.get, hf]

/-- Of two versions of a package that all three hold, one is lost. -/
theorem second_version_lost : ¬ ∀ (order : KeyOrder) (base ours theirs m : Value Nat),
    isCargoLock base → isCargoLock ours → isCargoLock theirs →
      mergeCargoLock order base ours theirs = some m → Lossless base ours theirs m := by
  intro h
  let lockfile := lockfileOf [lockedPackage "rand" "0.7", lockedPackage "rand" "0.8"]
  have hlossless := h KeyOrder.asListed lockfile lockfile lockfile
    (lockfileOf [lockedPackage "rand" "0.8"]) rfl rfl rfl rfl
  have hmem : lockedPackage "rand" "0.7" ∈ packagesOf lockfile := List.mem_cons_self ..
  exact absurd (hlossless.packages _ hmem hmem hmem) (by decide)

end Suture.Driver
