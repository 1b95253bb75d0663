import Suture.Driver.Lockfile

/-!
# Merging Terraform states

`merge_tfstate` of the JSON driver. Resources are merged by their address. What both sides
changed is settled by the serial numbers of the two resources, and what one side removed
stays; the fields besides the resources are ours.
-/

namespace Suture.Driver
set_option autoImplicit false
open Foundation

/-- The numbers of the JSON library, as far as serial numbers are concerned. -/
structure Numbers (ν : Type) where
  asU64 : ν → Option Nat
  ofU64 : Nat → ν

variable {ν : Type}

def tfstateResourceAddress (res : Value ν) : Option String := do
  let mode ← (← res.get "mode").asStr
  let typ ← (← res.get "type").asStr
  let name ← (← res.get "name").asStr
  return mode ++ "." ++ typ ++ "." ++ name

def resourcesOf (value : Value ν) : List (Value ν) :=
  ((value.get "resources").bind Value.asArray).getD []

/-- The resources that have an address, each with it. -/
def addressedResources (resources : List (Value ν)) : List (String × Value ν) :=
  resources.filterMap fun res => (tfstateResourceAddress res).map fun addr => (addr, res)

section Merge
variable (numbers : Numbers ν)

def serialOf (value : Value ν) : Nat :=
  match value.get "serial" with
  | some (.scalar (.number n)) => (numbers.asU64 n).getD 0
  | _ => 0

def terraformVersionOf (value : Value ν) : String :=
  ((value.get "terraform_version").bind Value.asStr).getD ""

variable [DecidableEq ν]

/-- What is put in for an address, `none` for a conflict. -/
def settleResource : (base ours theirs : Option (Value ν)) → Option (List (Value ν))
  | some b, some o, some t =>
    if o = t then some [o]
    else if o = b then some [t]
    else if t = b then some [o]
    else if serialOf numbers o ≥ serialOf numbers t then some [o]
    else some [t]
  | some _, some o, none => some [o]
  | some _, none, some t => some [t]
  | some _, none, none => some []
  | none, some o, none => some [o]
  | none, none, some t => some [t]
  | none, some o, some t => if o = t then some [o] else none
  | none, none, none => some []

/-- One turn of the loop over the addresses, with the resources so far and the addresses seen. -/
def mergeResource (settle : String → Option (List (Value ν))) (merged : List (Value ν) × List String)
    (addr : String) : Option (List (Value ν) × List String) :=
  if addr ∈ merged.2 then some merged
  else (settle addr).map fun pushed => (merged.1 ++ pushed, merged.2 ++ [addr])

def mergeTfstate (base ours theirs : Value ν) : Option (Value ν) := do
  let baseMap := SortedMap.empty.putRows (addressedResources (resourcesOf base))
  let oursMap := SortedMap.empty.putRows (addressedResources (resourcesOf ours))
  let theirsMap := SortedMap.empty.putRows (addressedResources (resourcesOf theirs))
  let oursOrder := (resourcesOf ours).filterMap tfstateResourceAddress
  let theirsOrder := (resourcesOf theirs).filterMap tfstateResourceAddress
  let settle := fun addr => settleResource numbers (baseMap.get addr) (oursMap.get addr) (theirsMap.get addr)
  let (mergedResources, _) ← (oursOrder ++ theirsOrder).foldlM (mergeResource settle) ([], [])
  return match ours with
    | .object obj =>
      let maxSerial := max (max (serialOf numbers ours) (serialOf numbers theirs)) (serialOf numbers base)
      let oursVer := terraformVersionOf ours
      let theirsVer := terraformVersionOf theirs
      .object (Assoc.insert "terraform_version"
        (.scalar (.string (if theirsVer > oursVer then theirsVer else oursVer)))
        (Assoc.insert "serial" (.scalar (.number (numbers.ofU64 maxSerial)))
          (Assoc.insert "resources" (.array mergedResources) obj)))
    | _ => ours

end Merge

/-! ### What stands at an address -/

def resourcesAt (value : Value ν) (addr : String) : List (Value ν) :=
  (resourcesOf value).filter fun res => decide (tfstateResourceAddress res = some addr)

theorem get_addressed (resources : List (Value ν)) (addr : String) :
    (SortedMap.empty.putRows (addressedResources resources)).get addr =
      (resources.filter fun res => decide (tfstateResourceAddress res = some addr)).getLast? := by
  rw [SortedMap.get_putRows, SortedMap.get_empty, Option.or_none]
  exact lastRow_keyed tfstateResourceAddress resources addr

/-- The merge turns over each address once, at its first place. -/
theorem foldlM_mergeResource {settle : String → Option (List (Value ν))}
    (hsettle : ∀ addr pushed, settle addr = some pushed →
      ∀ res ∈ pushed, tfstateResourceAddress res = some addr)
    {addrs : List String} {done r : List (Value ν) × List String}
    (h : addrs.foldlM (mergeResource settle) done = some r) (addr : String) :
    (addr ∈ addrs → addr ∉ done.2 → settle addr ≠ none) ∧
      (r.1.filter fun res => decide (tfstateResourceAddress res = some addr)) =
        (done.1.filter fun res => decide (tfstateResourceAddress res = some addr)) ++
          if addr ∈ addrs ∧ addr ∉ done.2 then (settle addr).getD [] else [] := by
  induction addrs generalizing done with
  | nil =>
    cases h
    simp
  | cons first addrs ih =>
    rw [List.foldlM_cons] at h
    obtain ⟨next, hnext, hrest⟩ := Option.bind_eq_some_iff.mp h
    obtain ⟨hsome, hfilter⟩ := ih hrest
    rw [mergeResource] at hnext
    split_ifs at hnext with hseen
    · rw [Option.some.injEq] at hnext
      subst next
      by_cases hfirst : addr = first
      · subst first
        refine ⟨fun _ hnew => absurd hseen hnew, ?_⟩
        rw [hfilter, if_neg fun h => h.2 hseen, if_neg fun h => h.2 hseen]
      · simpa [hfirst] using And.intro hsome hfilter
    · obtain ⟨pushed, hpushed, rfl⟩ := Option.map_eq_some_iff.mp hnext
      have hall := hsettle first pushed hpushed
      rw [List.filter_append] at hfilter
      by_cases hfirst : addr = first
      · subst first
        refine ⟨fun _ _ => by rw [hpushed]; exact Option.some_ne_none _, ?_⟩
        have hkept : (pushed.filter fun res => decide (tfstateResourceAddress res = some addr)) = pushed :=
          List.filter_eq_self.mpr fun res hres => by simpa using hall res hres
        rw [hfilter, hkept, if_neg (by simp), if_pos ⟨List.mem_cons_self .., hseen⟩, hpushed,
          Option.getD_some, List.append_nil]
      · have hother : (pushed.filter fun res => decide (tfstateResourceAddress res = some addr)) = [] :=
          List.filter_eq_nil_iff.mpr fun res hres => by simpa [hall res hres] using Ne.symm hfirst
        rw [hother, List.append_nil] at hfilter
        simpa [hfirst] using And.intro hsome hfilter

variable [DecidableEq ν] {numbers : Numbers ν}

theorem mem_of_settleResource {base ours theirs : Option (Value ν)} {pushed : List (Value ν)}
    (h : settleResource numbers base ours theirs = some pushed) {res : Value ν} (hres : res ∈ pushed) :
    ours = some res ∨ theirs = some res := by
  cases base <;> cases ours <;> cases theirs <;> simp only [settleResource] at h
  all_goals try split_ifs at h
  all_goals
    rw [Option.some.injEq] at h
    subst pushed
    simp at hres
    try simp [hres]

/-- What the merge finds at an address: the last resource of each input. -/
def settledAt (numbers : Numbers ν) (base ours theirs : Value ν) (addr : String) :
    Option (List (Value ν)) :=
  settleResource numbers (resourcesAt base addr).getLast? (resourcesAt ours addr).getLast?
    (resourcesAt theirs addr).getLast?

omit [DecidableEq ν] in
theorem address_of_getLast? {value res : Value ν} {addr : String}
    (h : (resourcesAt value addr).getLast? = some res) : tfstateResourceAddress res = some addr := by
  simpa using (List.mem_filter.mp (List.mem_of_getLast? h)).2

theorem mergeTfstate_eq_some {base theirs m : Value ν} {ours : List (String × Value ν)}
    (h : mergeTfstate numbers base (.object ours) theirs = some m) :
    (∀ addr, settledAt numbers base (.object ours) theirs addr = some (resourcesAt m addr)) ∧
      ∀ f, f ≠ "resources" → f ≠ "serial" → f ≠ "terraform_version" → m.get f = Assoc.get ours f := by
  simp only [mergeTfstate, Option.bind_eq_bind, Option.bind_eq_some_iff, get_addressed] at h
  obtain ⟨merged, hfold, hm⟩ := h
  cases hm
  refine ⟨fun addr => ?_, fun f hr hs hv => by simp [Value.get, Assoc.get_insert, hr, hs, hv]⟩
  have hsettle : ∀ addr pushed, settledAt numbers base (.object ours) theirs addr = some pushed →
      ∀ res ∈ pushed, tfstateResourceAddress res = some addr := by
    intro addr pushed hpushed res hres
    rcases mem_of_settleResource hpushed hres with ho | ht
    · exact address_of_getLast? ho
    · exact address_of_getLast? ht
  obtain ⟨hsome, hfilter⟩ := foldlM_mergeResource hsettle hfold addr
  have hmerged : resourcesAt (.object (Assoc.insert "terraform_version"
        (.scalar (.string (if terraformVersionOf theirs > terraformVersionOf (.object ours) then
          terraformVersionOf theirs else terraformVersionOf (.object ours))))
        (Assoc.insert "serial" (.scalar (.number (numbers.ofU64
          (max (max (serialOf numbers (.object ours)) (serialOf numbers theirs)) (serialOf numbers base)))))
          (Assoc.insert "resources" (.array merged.1) ours)))) addr =
      merged.1.filter fun res => decide (tfstateResourceAddress res = some addr) := by
    simp [resourcesAt, resourcesOf, Value.get, Assoc.get_insert, Value.asArray]
  rw [hmerged, hfilter, List.filter_nil, List.nil_append]
  split
  · rename_i hin
    obtain ⟨pushed, hpushed⟩ := Option.ne_none_iff_exists'.mp (hsome hin.1 hin.2)
    rw [hpushed, Option.getD_some]
  · rename_i hout
    have hnone : ∀ {value : Value ν}, addr ∉ (resourcesOf value).filterMap tfstateResourceAddress →
        (resourcesAt value addr).getLast? = none := by
      intro value hvalue
      rw [List.getLast?_eq_none_iff, resourcesAt, List.filter_eq_nil_iff]
      intro res hres haddr
      exact hvalue (List.mem_filterMap.mpr ⟨res, hres, of_decide_eq_true haddr⟩)
    have haddr : addr ∉ (resourcesOf (.object ours)).filterMap tfstateResourceAddress ++
        (resourcesOf theirs).filterMap tfstateResourceAddress :=
      fun hin => hout ⟨hin, List.not_mem_nil⟩
    rw [List.mem_append, not_or] at haddr
    rw [settledAt, hnone haddr.1, hnone haddr.2]
    cases (resourcesAt base addr).getLast? <;> rfl

/-! ### What a merge keeps -/

/-- An address is carried by one resource or by none. -/
def Carries (value : Value ν) (addr : String) (res : Option (Value ν)) : Prop :=
  resourcesAt value addr = res.toList

omit [DecidableEq ν] in
theorem Carries.getLast? {value : Value ν} {addr : String} {res : Option (Value ν)}
    (h : Carries value addr res) : (resourcesAt value addr).getLast? = res := by
  rw [h]
  cases res <;> rfl

/-- What becomes of a resource: a change or an addition of one side is taken, a removal is not,
and of two different changes the one with the higher serial number, or ours. -/
structure MergedResource (numbers : Numbers ν) (base ours theirs merged : Option (Value ν)) :
    Prop where
  oursAlone : theirs = base → ours ≠ none → merged = ours
  theirsAlone : ours = base → theirs ≠ none → merged = theirs
  alike : ours = theirs → merged = ours
  removed : ours = none ∨ theirs = none → merged = ours.or theirs
  changed : base ≠ none → ∀ o t, ours = some o → theirs = some t → o ≠ t → ours ≠ base →
    theirs ≠ base → merged = some (if serialOf numbers t ≤ serialOf numbers o then o else t)
  added : base = none → ∀ o t, ours = some o → theirs = some t → o = t

theorem mergedResource_of_settle {base ours theirs : Option (Value ν)} {pushed : List (Value ν)}
    (h : settleResource numbers base ours theirs = some pushed) :
    ∃ merged : Option (Value ν), pushed = merged.toList ∧
      MergedResource numbers base ours theirs merged := by
  cases base <;> cases ours <;> cases theirs <;> simp only [settleResource] at h
  all_goals try split_ifs at h
  all_goals
    rw [Option.some.injEq] at h
    subst pushed
  all_goals first
    | exact ⟨none, rfl, by constructor <;> simp_all⟩
    | exact ⟨some _, rfl, by constructor <;> simp_all⟩

/-- A merge of states keeps what ours alone changed in the fields, and under an address that
no input gives to two resources what became of the resource. -/
theorem mergeTfstate_keeps (numbers : Numbers ν) (base ours theirs : List (String × Value ν))
    (m : Value ν)
    (h : mergeTfstate numbers (.object base) (.object ours) (.object theirs) = some m) :
    (∀ f, f ≠ "resources" → f ≠ "serial" → f ≠ "terraform_version" →
        Assoc.get ours f ≠ Assoc.get base f → Assoc.get theirs f = Assoc.get base f →
        m.get f = Assoc.get ours f) ∧
      ∀ addr b o t, Carries (.object base) addr b → Carries (.object ours) addr o →
        Carries (.object theirs) addr t → ∃ r, Carries m addr r ∧ MergedResource numbers b o t r := by
  obtain ⟨hresources, hfields⟩ := mergeTfstate_eq_some h
  refine ⟨fun f hr hs hv _ _ => hfields f hr hs hv, fun addr b o t hb ho ht => ?_⟩
  have hsettled := hresources addr
  rw [settledAt, hb.getLast?, ho.getLast?, ht.getLast?] at hsettled
  exact mergedResource_of_settle hsettled

/-! ### What a merge does not keep -/

section Lost
variable (base ours theirs m : Value ν)

/-- Fields that one side alone changed have that side's value. -/
def KeepsFields : Prop := ∀ f, f ≠ "resources" → f ≠ "serial" → f ≠ "terraform_version" →
  (ours.get f ≠ base.get f → theirs.get f = base.get f → m.get f = ours.get f) ∧
    (theirs.get f ≠ base.get f → ours.get f = base.get f → m.get f = theirs.get f)

/-- What stands at an address that one side alone changed is that side's. -/
def KeepsResources : Prop := ∀ addr,
  (resourcesAt ours addr ≠ resourcesAt base addr → resourcesAt theirs addr = resourcesAt base addr →
      resourcesAt m addr = resourcesAt ours addr) ∧
    (resourcesAt theirs addr ≠ resourcesAt base addr → resourcesAt ours addr = resourcesAt base addr →
      resourcesAt m addr = resourcesAt theirs addr)

/-- No address is changed differently by both sides. -/
def HasNoConflict : Prop := ∀ addr, resourcesAt ours addr = resourcesAt base addr ∨
  resourcesAt theirs addr = resourcesAt base addr ∨ resourcesAt ours addr = resourcesAt theirs addr

/-- What all three hold is there. -/
def KeepsUnchanged : Prop := ∀ res ∈ resourcesOf base, res ∈ resourcesOf ours →
  res ∈ resourcesOf theirs → res ∈ resourcesOf m

end Lost

/-- Numbers without sign or fraction. -/
def natNumbers : Numbers Nat where
  asU64 n := if n < 2 ^ 64 then some n else none
  ofU64 n := n

/-- A managed resource as a state lists it. -/
def managed (typ name value : String) : Value Nat :=
  .object [("id", .scalar (.string value)), ("mode", .scalar (.string "managed")),
    ("name", .scalar (.string name)), ("type", .scalar (.string typ))]

def stateOf (lineage : String) (resources : List (Value Nat)) : List (String × Value Nat) :=
  [("lineage", .scalar (.string lineage)), ("resources", .array resources)]

/-- Both sides changed the network, and theirs added a bucket. -/
theorem mergeTfstate_keeps_example :
    let base := stateOf "a" [managed "vpc" "main" "1"]
    let ours := stateOf "a" [managed "vpc" "main" "2"]
    let theirs := stateOf "a" [managed "vpc" "main" "1", managed "bucket" "logs" "1"]
    ∃ m, mergeTfstate natNumbers (.object base) (.object ours) (.object theirs) = some m ∧
      resourcesAt m "managed.vpc.main" = [managed "vpc" "main" "2"] := by
  intro base ours theirs
  refine ⟨_, rfl, ?_⟩
  obtain ⟨r, hr, hmerged⟩ := (mergeTfstate_keeps natNumbers base ours theirs _ rfl).2 "managed.vpc.main"
    (some (managed "vpc" "main" "1")) (some (managed "vpc" "main" "2"))
    (some (managed "vpc" "main" "1")) rfl rfl rfl
  exact hr.trans (congrArg Option.toList (hmerged.oursAlone rfl (Option.some_ne_none _)))

/-- A merge that takes ours of a resource both changed, brings back one that ours removed, and
drops a lineage that theirs set and a resource without an address. -/
theorem changes_lost :
    let base := .object (stateOf "a" [managed "vpc" "main" "1", managed "bucket" "logs" "1", .object []])
    let ours := .object (stateOf "a" [managed "vpc" "main" "2", .object []])
    let theirs := .object (stateOf "b"
      [managed "vpc" "main" "3", managed "bucket" "logs" "1", .object []])
    ∃ m, mergeTfstate natNumbers base ours theirs = some m ∧ ¬ KeepsFields base ours theirs m ∧
      ¬ KeepsResources base ours theirs m ∧ ¬ HasNoConflict base ours theirs ∧
        ¬ KeepsUnchanged base ours theirs m := by
  refine ⟨_, rfl, ?_, ?_, ?_, ?_⟩
  · intro h
    exact absurd ((h "lineage" (by decide) (by decide) (by decide)).2 (by decide) rfl) (by decide)
  · intro h
    exact absurd ((h "managed.bucket.logs").1 (by decide) rfl) (by decide)
  · intro h
    exact absurd (h "managed.vpc.main") (by decide)
  · intro h
    exact absurd (h (.object []) (by decide) (by decide) (by decide)) (by decide)

end Suture.Driver
