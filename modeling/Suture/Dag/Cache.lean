import Suture.Dag.Ancestry

/-!
# Runs of a patch DAG

Queries in any order between additions. An answer for a patch that is not there yet
stays in the cache; it is right as long as the patch does not arrive with parents.
-/

namespace Suture.Dag
set_option autoImplicit false
open Foundation Common Patches

inductive Call (H : Type) where
  | addPatch (patch : Patch H) (parentIds : List H)
  | ancestors (id : H)
  | lca (a b : H)
  | patchChainFull (id : H)
  | reachablePatchIds (id : H)
  | createBranch (name : BranchName) (target : H)
  | updateBranch (name : BranchName) (target : H)
  | deleteBranch (name : BranchName)
  | mergeBranches (branchA branchB : BranchName)
  | branchDivergence (branchA branchB : BranchName)

/-- Calls that change the graph or the branches; the others only ask. -/
def Call.isUpdate {H : Type} : Call H → Bool
  | .addPatch _ _ | .createBranch _ _ | .updateBranch _ _ | .deleteBranch _ => true
  | _ => false

namespace PatchDag
variable {H : Type} [LinearOrder H] {d d' : PatchDag H}

def next (d : PatchDag H) : Call H → PatchDag H
  | .addPatch patch parentIds => (d.addPatch patch parentIds).2
  | .ancestors id => (d.ancestors id).2
  | .lca a b => (d.lca a b).2
  | .patchChainFull id => (d.patchChainFull id).2
  | .reachablePatchIds id => (d.reachablePatchIds id).2
  | .createBranch name target => (d.createBranch name target).2
  | .updateBranch name target => (d.updateBranch name target).2
  | .deleteBranch name => (d.deleteBranch name).2
  | .mergeBranches branchA branchB => (d.mergeBranches branchA branchB).2
  | .branchDivergence branchA branchB => (d.branchDivergence branchA branchB).2

/-- A patch that is accepted with parents has not been asked about. -/
def Timely (d : PatchDag H) : Call H → Prop
  | .addPatch patch parentIds =>
    d.hasPatch patch.id = false → (∀ p ∈ parentIds, d.hasPatch p = true) → parentIds ≠ [] →
      Assoc.get d.ancestorCache patch.id = none
  | _ => True

instance : ∀ (d : PatchDag H) (c : Call H), Decidable (d.Timely c)
  | d, .addPatch patch parentIds => inferInstanceAs (Decidable (d.hasPatch patch.id = false →
      (∀ p ∈ parentIds, d.hasPatch p = true) → parentIds ≠ [] →
        Assoc.get d.ancestorCache patch.id = none))
  | _, .ancestors _ | _, .lca _ _ | _, .patchChainFull _ | _, .reachablePatchIds _
  | _, .createBranch _ _ | _, .updateBranch _ _ | _, .deleteBranch _ | _, .mergeBranches _ _
  | _, .branchDivergence _ _ => inferInstanceAs (Decidable True)

/-- The graph is graded, branches point into it, cached answers are right. -/
structure Sound (d : PatchDag H) : Prop where
  graded : d.Graded
  targets : ∀ name id, Assoc.get d.branches name = some id → d.hasPatch id = true
  cache : d.CacheExact

theorem sound_new : (new : PatchDag H).Sound where
  graded := fun _ _ hp => absurd hp List.not_mem_nil
  targets := fun _ _ h => nomatch h
  cache := fun _ _ h => nomatch h

theorem Sound.queried (hd : d.Sound) (h : Queried d d') : d'.Sound where
  graded := h.same.graded hd.graded
  targets := fun name id hget => by
    rw [h.same.branches] at hget
    rw [h.same.hasPatch]
    exact hd.targets name id hget
  cache := h.cache hd.cache

/-- What is cached for the patches that were there stays right. -/
theorem Extends.cacheExact_iff {patch : Patch H} {parentIds : List H}
    (h : Extends d d' patch parentIds) (hd : d.Sound) :
    d'.CacheExact ↔ (parentIds ≠ [] → Assoc.get d.ancestorCache patch.id = none) := by
  constructor
  · intro hexact hne
    by_contra hcached
    obtain ⟨cached, hcached⟩ := Option.ne_none_iff_exists'.mp hcached
    obtain ⟨p, hp⟩ := List.exists_mem_of_ne_nil _ hne
    have hstep : d'.Reaches patch.id p := by
      refine .single ?_
      change p ∈ d'.parents patch.id
      rwa [h.parents_new]
    have hmem := (hexact patch.id cached (by rwa [h.cache]) p).mpr hstep
    exact reaches_of_unknown h.unknown ((hd.cache patch.id cached hcached p).mp hmem)
  · intro htimely id cached hcached p
    rw [h.cache] at hcached
    by_cases hid : id = patch.id
    · subst hid
      have hnil : parentIds = [] := by
        by_contra hne
        rw [htimely hne] at hcached
        cases hcached
      rw [hd.cache _ cached hcached]
      refine iff_of_false (reaches_of_unknown h.unknown) fun hreach => ?_
      obtain ⟨z, hz, -⟩ := Relation.TransGen.head'_iff.mp hreach
      have hz : z ∈ d'.parents patch.id := hz
      rw [h.parents_new, hnil] at hz
      cases hz
    · rw [h.reaches_of_ne hd.graded hid]
      exact hd.cache id cached hcached p

theorem Sound.extends {patch : Patch H} {parentIds : List H} (hd : d.Sound)
    (h : Extends d d' patch parentIds)
    (htimely : parentIds ≠ [] → Assoc.get d.ancestorCache patch.id = none) : d'.Sound where
  graded := h.graded hd.graded
  targets := fun name id hget => by
    rw [h.branches] at hget
    exact (h.hasPatch id).mpr (.inr (hd.targets name id hget))
  cache := (h.cacheExact_iff hd).mpr htimely

/-- Pointing a branch at a known patch, or removing one, touches only the branches. -/
theorem Sound.branches (hd : d.Sound) {branches : List (String × H)}
    (h : ∀ name id, Assoc.get branches name = some id → d.hasPatch id = true) :
    ({ d with branches := branches } : PatchDag H).Sound :=
  ⟨hd.graded, h, hd.cache⟩

theorem Sound.setBranch (hd : d.Sound) (name : String) {target : H} (h : d.hasPatch target = true) :
    ({ d with branches := Assoc.insert name target d.branches } : PatchDag H).Sound := by
  refine hd.branches fun other id hget => ?_
  rw [Assoc.get_insert] at hget
  split at hget
  · rwa [← Option.some.inj hget]
  · exact hd.targets other id hget

theorem Sound.createBranch (hd : d.Sound) (name : BranchName) (target : H) :
    (d.createBranch name target).2.Sound := by
  unfold PatchDag.createBranch
  split_ifs with hex hhas
  · exact hd
  · exact hd
  · exact hd.setBranch _ (by simpa using hhas)

theorem Sound.updateBranch (hd : d.Sound) (name : BranchName) (target : H) :
    (d.updateBranch name target).2.Sound := by
  unfold PatchDag.updateBranch
  split_ifs with hex hhas
  · exact hd
  · exact hd
  · exact hd.setBranch _ (by simpa using hhas)

theorem Sound.deleteBranch (hd : d.Sound) (name : BranchName) :
    (d.deleteBranch name).2.Sound := by
  unfold PatchDag.deleteBranch
  split_ifs
  · exact hd
  · refine hd.branches fun other id hget => ?_
    rw [Assoc.get_erase] at hget
    split at hget
    · cases hget
    · exact hd.targets other id hget

theorem Sound.next (hd : d.Sound) {c : Call H} (hc : d.Timely c) : (d.next c).Sound := by
  cases c with
  | addPatch patch parentIds =>
    change (d.addPatch patch parentIds).2.Sound
    rcases d.addPatch_cases patch parentIds with ⟨e, heq, -⟩ | ⟨d', heq, h⟩
    · rwa [heq]
    · rw [heq]
      exact hd.extends h (hc h.unknown h.parents_known)
  | ancestors id => exact hd.queried (d.queried_ancestors id)
  | lca a b => exact hd.queried (d.queried_lca a b)
  | patchChainFull id => exact hd.queried (d.queried_patchChainFull id)
  | reachablePatchIds id => exact hd.queried (d.queried_reachablePatchIds id)
  | createBranch name target => exact hd.createBranch name target
  | updateBranch name target => exact hd.updateBranch name target
  | deleteBranch name => exact hd.deleteBranch name
  | mergeBranches branchA branchB => exact hd.queried (d.queried_mergeBranches branchA branchB)
  | branchDivergence branchA branchB => exact hd.queried (d.queried_branchDivergence branchA branchB)

/-- A DAG made by calls that never add a patch late. -/
abbrev Built (d : PatchDag H) : Prop := Run next Timely new d

theorem Built.sound (h : Built d) : d.Sound :=
  h.invariant Sound (fun _ _ hs hc => hs.next hc) sound_new

theorem cache_of_update {c : Call H} (hc : c.isUpdate = true) :
    (d.next c).ancestorCache = d.ancestorCache := by
  cases c with
  | addPatch patch parentIds =>
    change (d.addPatch patch parentIds).2.ancestorCache = _
    rcases d.addPatch_cases patch parentIds with ⟨e, heq, -⟩ | ⟨d', heq, h⟩
    · rw [heq]
    · rw [heq, h.cache]
  | createBranch name target =>
    change (d.createBranch name target).2.ancestorCache = _
    unfold createBranch
    split_ifs <;> rfl
  | updateBranch name target =>
    change (d.updateBranch name target).2.ancestorCache = _
    unfold updateBranch
    split_ifs <;> rfl
  | deleteBranch name =>
    change (d.deleteBranch name).2.ancestorCache = _
    unfold deleteBranch
    split_ifs <;> rfl
  | ancestors _ | lca _ _ | patchChainFull _ | reachablePatchIds _ | mergeBranches _ _
  | branchDivergence _ _ => cases hc

/-- A DAG that nobody has asked yet is built in time. -/
theorem built_of_updates (h : Run next (fun _ (c : Call H) => c.isUpdate = true) new d) :
    Built d ∧ d.ancestorCache = [] := by
  induction h with
  | refl => exact ⟨.refl _, rfl⟩
  | @tail d c _ hc ih =>
    refine ⟨ih.1.tail ?_, (cache_of_update hc).trans ih.2⟩
    cases c with
    | addPatch patch parentIds =>
      intro _ _ _
      rw [ih.2]
      rfl
    | _ => trivial

/-- Every answer is what its patch reaches. -/
def Exact (d : PatchDag H) : Prop := ∀ id p, p ∈ (d.ancestors id).1 ↔ d.Reaches id p

theorem exact_iff : d.Exact ↔ d.CacheExact := by
  constructor
  · intro h id cached hcached p
    have := h id p
    unfold ancestors at this
    rwa [hcached] at this
  · exact fun h id p => mem_ancestors h

/-- Ancestor sets are exact along every timely run, and the first late patch ends that. -/
theorem ancestors_exact (h : Built d) :
    d.Exact ∧ ∀ c, (d.next c).Exact ↔ d.Timely c := by
  have hd := h.sound
  refine ⟨exact_iff.mpr hd.cache, fun c => ⟨fun hexact => ?_, fun hc => exact_iff.mpr (hd.next hc).cache⟩⟩
  cases c with
  | addPatch patch parentIds =>
    intro hunknown hparents
    have hexact : (d.addPatch patch parentIds).2.Exact := hexact
    rcases d.addPatch_cases patch parentIds with ⟨e, heq, hrefused⟩ | ⟨d', heq, h⟩
    · exact absurd ⟨hunknown, hparents⟩ hrefused
    · rw [heq] at hexact
      exact (h.cacheExact_iff hd).mp (exact_iff.mp hexact)
  | _ => trivial

/-- A one-line edit of a file, for examples. -/
def edit (id : Nat) (addr : String) : Patch Hash where
  id := .ofNat _ id
  parentIds := []
  operationType := .modify
  touchSet := .ofList [addr]
  targetPath := some addr
  payload := .text .empty
  timestamp := 0
  author := "test"
  message := "edit"

/-- A patch is asked about after it is there. -/
def askedInTime : List (Call Hash) :=
  [.addPatch (edit 1 "a") [], .ancestors 1, .addPatch (edit 2 "b") [1], .ancestors 2]

/-- A patch is asked about before it is there. -/
def askedEarly : List (Call Hash) :=
  [.addPatch (edit 1 "a") [], .ancestors 2, .addPatch (edit 2 "b") [1]]

theorem ancestors_exact_in_time :
    Built (askedInTime.foldl next new) ∧ (askedInTime.foldl next new).Exact ∧
      ∀ c, ((askedInTime.foldl next new).next c).Exact ↔ (askedInTime.foldl next new).Timely c := by
  have h : Built (askedInTime.foldl next new) := Run.of_allows _ (by decide +kernel)
  exact ⟨h, ancestors_exact h⟩

/-- The answer for a patch asked about early misses its parent. -/
theorem early_answer_stays : ¬ ∀ calls : List (Call Hash), (calls.foldl next new).Exact := by
  intro h
  have hparent : (1 : Hash) ∈ (askedEarly.foldl next new).parents 2 := by decide +kernel
  exact absurd ((h askedEarly 2 1).mpr (.single hparent)) (by decide +kernel)

end PatchDag
end Suture.Dag
