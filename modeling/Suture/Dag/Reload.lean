import Suture.Dag.Cache
import Suture.Foundation.Toposort

/-!
# Reloading a patch DAG

The metadata store keeps patches and branches as rows; opening a repository sorts the
patches topologically and adds them to a new DAG.
-/

namespace Suture.Dag
set_option autoImplicit false
open Foundation Common Patches

/-! ### Rows -/

/-- The JSON in a column, by what it spells. -/
inductive Json (H : Type) where
  | ids (l : List H)
  | strings (l : List String)
  | other (text : String)
deriving DecidableEq, Repr

/-- `from_str(..).unwrap_or_default()` -/
def Json.toIds {H : Type} : Json H → List H
  | .ids l => l
  | .strings _ | .other _ => []

def Json.toStrings {H : Type} : Json H → List String
  | .strings l => l
  | .ids _ | .other _ => []

def operationTypeToString : OperationType → String
  | .create => "create"
  | .delete => "delete"
  | .modify => "modify"
  | .move => "move"
  | .metadata => "metadata"
  | .merge => "merge"
  | .identity => "identity"
  | .batch => "batch"

def operationTypeOfString (s : String) : OperationType :=
  if s = "create" then .create
  else if s = "delete" then .delete
  else if s = "move" then .move
  else if s = "metadata" then .metadata
  else if s = "merge" then .merge
  else if s = "identity" then .identity
  else if s = "batch" then .batch
  else .modify

theorem operationTypeOfString_toString (op : OperationType) :
    operationTypeOfString (operationTypeToString op) = op := by
  cases op <;> decide

/-- A patch without its id. The time is kept in its 64 bits. -/
structure PatchRow (H : Type) where
  parentIds : Json H
  operationType : String
  touchSet : Json H
  targetPath : Option String
  payload : Payload H
  timestamp : Nat
  author : String
  message : String
deriving DecidableEq

def PatchRow.ofPatch {H : Type} (patch : Patch H) : PatchRow H where
  parentIds := .ids patch.parentIds
  operationType := operationTypeToString patch.operationType
  touchSet := .strings patch.touchSet.elems
  targetPath := patch.targetPath
  payload := patch.payload
  timestamp := patch.timestamp
  author := patch.author
  message := patch.message

def PatchRow.toPatch {H : Type} (id : H) (row : PatchRow H) : Patch H where
  id := id
  parentIds := row.parentIds.toIds
  operationType := operationTypeOfString row.operationType
  touchSet := .ofList row.touchSet.toStrings
  targetPath := row.targetPath
  payload := row.payload
  timestamp := row.timestamp
  author := row.author
  message := row.message

theorem PatchRow.toPatch_ofPatch {H : Type} (patch : Patch H) :
    (PatchRow.ofPatch patch).toPatch patch.id = patch := by
  have htouched : SortedSet.ofList patch.touchSet.elems = patch.touchSet :=
    SortedSet.ext fun a => SortedSet.mem_ofList
  simp only [ofPatch, toPatch, Json.toIds, Json.toStrings, operationTypeOfString_toString, htouched]

structure MetadataStore (H : Type) [LinearOrder H] where
  patches : SortedMap H (PatchRow H)
  branches : SortedMap String H
deriving DecidableEq

namespace MetadataStore
variable {H : Type} [LinearOrder H]

def empty : MetadataStore H := ⟨.empty, .empty⟩

def storePatch (patch : Patch H) (m : MetadataStore H) : MetadataStore H :=
  { m with patches := m.patches.insert patch.id (.ofPatch patch) }

def getPatch (m : MetadataStore H) (id : H) : Option (Patch H) :=
  (m.patches.get id).map (PatchRow.toPatch id)

def setBranch (name : BranchName) (target : H) (m : MetadataStore H) : MetadataStore H :=
  { m with branches := m.branches.insert name.asStr target }

def listBranches (m : MetadataStore H) : List (String × H) := m.branches.entries

/-- What is stored is read back. -/
theorem getPatch_storePatch (m : MetadataStore H) (patch : Patch H) (id : H) :
    (m.storePatch patch).getPatch id = if id = patch.id then some patch else m.getPatch id := by
  unfold storePatch getPatch
  dsimp only
  rw [SortedMap.get_insert]
  split
  · rename_i hid
    rw [hid, Option.map_some, PatchRow.toPatch_ofPatch]
  · rfl

end MetadataStore

/-! ### Opening a repository -/

/-- Hash maps iterate in an order of their own. -/
structure IterationOrder (α : Type) where
  arrange : List α → List α
  perm : ∀ l, (arrange l).Perm l

section Reload
variable {H : Type} [LinearOrder H] (order : IterationOrder (H × Patch H)) (m : MetadataStore H)

def loadPatches : List (H × Patch H) :=
  m.patches.keys.filterMap fun id => (m.getPatch id).map fun patch => (id, patch)

/-- The parents that are there by now. -/
def addLoaded (dag : PatchDag H) (_id : H) (patch : Patch H) (processed : SortedSet H) :
    PatchDag H :=
  (dag.addPatch patch (patch.parentIds.filter fun p => decide (p ∈ processed))).2

def reloadPatches : PatchDag H :=
  let (dag, remaining) :=
    Toposort.run Patch.parentIds addLoaded (order.arrange (loadPatches m)) .new
  (order.arrange remaining).foldl (fun dag e => (dag.addPatch e.2 []).2) dag

def reloadBranch (dag : PatchDag H) (e : String × H) : PatchDag H :=
  match BranchName.new e.1 with
  | .error _ => dag
  | .ok name => if (dag.getBranch name).isSome then dag else (dag.createBranch name e.2).2

/-- The DAG of `Repository::open`. -/
def reload : PatchDag H := m.listBranches.foldl reloadBranch (reloadPatches order m)

end Reload

/-! ### Generations -/

namespace PatchDag
variable {H : Type} [LinearOrder H] {d d' : PatchDag H}

/-- Generations are what they were computed to be. -/
def Leveled (d : PatchDag H) : Prop := ∀ id, d.generation id = d.newGeneration (d.parents id)

theorem newGeneration_congr {ps : List H} (h : ∀ p ∈ ps, d'.generation p = d.generation p) :
    d'.newGeneration ps = d.newGeneration ps := by
  unfold newGeneration
  rw [List.map_congr_left h]

theorem Extends.leveled {patch : Patch H} {parentIds : List H} (h : Extends d d' patch parentIds)
    (hgraded : d.Graded) (hd : d.Leveled) : d'.Leveled := by
  intro id
  by_cases hid : id = patch.id
  · subst hid
    rw [h.generation_new, h.parents_new]
    exact (newGeneration_congr fun p hp =>
      h.generation_of_ne (h.ne_of_known (h.parents_known p hp))).symm
  · rw [h.generation_of_ne hid, h.parents_of_ne hid, hd id]
    exact (newGeneration_congr fun p hp => h.generation_of_ne (h.ne_of_known (hgraded id p hp).1)).symm

theorem SameGraph.leveled (h : SameGraph d d') (hd : d.Leveled) : d'.Leveled := by
  intro id
  rw [h.generation, h.parents, hd id]
  exact (newGeneration_congr fun p _ => h.generation p).symm

/-- Graded, with the generations as computed. -/
structure Ranked (d : PatchDag H) : Prop where
  graded : d.Graded
  leveled : d.Leveled

theorem ranked_new : (new : PatchDag H).Ranked :=
  ⟨fun _ _ hp => absurd hp List.not_mem_nil, fun _ => rfl⟩

theorem Queried.ranked (h : Queried d d') (hd : d.Ranked) : d'.Ranked :=
  ⟨h.same.graded hd.graded, h.same.leveled hd.leveled⟩

theorem Ranked.addPatch (hd : d.Ranked) (patch : Patch H) (parentIds : List H) :
    (d.addPatch patch parentIds).2.Ranked := by
  rcases d.addPatch_cases patch parentIds with ⟨e, heq, -⟩ | ⟨d', heq, h⟩
  · rwa [heq]
  · rw [heq]
    exact ⟨h.graded hd.graded, h.leveled hd.graded hd.leveled⟩

theorem Ranked.next (hd : d.Ranked) (c : Call H) : (d.next c).Ranked := by
  have hnodes : ∀ branches, Ranked { d with branches := branches } := fun _ =>
    ⟨hd.graded, hd.leveled⟩
  cases c with
  | addPatch patch parentIds => exact hd.addPatch patch parentIds
  | ancestors id => exact (d.queried_ancestors id).ranked hd
  | lca a b => exact (d.queried_lca a b).ranked hd
  | patchChainFull id => exact (d.queried_patchChainFull id).ranked hd
  | reachablePatchIds id => exact (d.queried_reachablePatchIds id).ranked hd
  | createBranch name target =>
    change (d.createBranch name target).2.Ranked
    unfold createBranch
    split_ifs
    · exact hd
    · exact hd
    · exact hnodes _
  | updateBranch name target =>
    change (d.updateBranch name target).2.Ranked
    unfold updateBranch
    split_ifs
    · exact hd
    · exact hd
    · exact hnodes _
  | deleteBranch name =>
    change (d.deleteBranch name).2.Ranked
    unfold deleteBranch
    split_ifs
    · exact hd
    · exact hnodes _
  | mergeBranches branchA branchB => exact (d.queried_mergeBranches branchA branchB).ranked hd
  | branchDivergence branchA branchB =>
    exact (d.queried_branchDivergence branchA branchB).ranked hd

/-- A DAG that calls in any order have made. -/
abbrev Made (d : PatchDag H) : Prop := Run next (fun _ _ => True) new d

theorem Made.ranked (h : Made d) : d.Ranked :=
  h.invariant Ranked (fun _ c hs _ => hs.next c) ranked_new

/-- The parents alone say what the generation is. -/
theorem Ranked.generation_eq (hd : d.Ranked) (hd' : d'.Ranked) {P : H → Prop}
    (hP : ∀ id, P id → d'.parents id = d.parents id ∧ ∀ p ∈ d.parents id, P p) :
    ∀ id, P id → d'.generation id = d.generation id := by
  suffices h : ∀ n id, d.generation id = n → P id → d'.generation id = d.generation id from
    fun id hid => h _ id rfl hid
  intro n
  induction n using Nat.strong_induction_on with
  | _ n ih =>
    rintro id rfl hid
    obtain ⟨hparents, hall⟩ := hP id hid
    rw [hd'.leveled, hd.leveled, hparents]
    exact newGeneration_congr fun p hp =>
      ih _ (hd.graded id p hp).2 p rfl (hall p hp)

end PatchDag

/-! ### Loading -/

section Load
variable {H : Type} [LinearOrder H] {patches : SortedMap H (Patch H)} {d d' : PatchDag H}

theorem sorted_addChild {id : H} {nodes : List (H × DagNode H)} (h : Assoc.Sorted nodes)
    (parentId : H) : Assoc.Sorted (PatchDag.addChild id nodes parentId) := by
  unfold PatchDag.addChild
  split
  · exact h
  · exact h.insert _ _

theorem sorted_addPatch (h : Assoc.Sorted d.nodes) (patch : Patch H) (parentIds : List H) :
    Assoc.Sorted (d.addPatch patch parentIds).2.nodes := by
  unfold PatchDag.addPatch
  split
  · exact h
  split
  · exact h
  · have hfold : ∀ (ps : List H) nodes, Assoc.Sorted nodes →
        Assoc.Sorted (ps.foldl (PatchDag.addChild patch.id) nodes) := by
      intro ps
      induction ps with
      | nil => exact fun _ h => h
      | cons p ps ih => exact fun nodes h => ih _ (sorted_addChild h p)
    exact (hfold _ _ h).insert _ _

/-- The parents of a patch that are stored. -/
def storedParents (patches : SortedMap H (Patch H)) (patch : Patch H) : List H :=
  patch.parentIds.filter patches.contains

/-- The DAG when the processed patches are loaded. -/
structure Loaded (patches : SortedMap H (Patch H)) (processed : SortedSet H) (d : PatchDag H) :
    Prop where
  sorted : Assoc.Sorted d.nodes
  ranked : d.Ranked
  branches : d.branches = []
  stored : ∀ id ∈ processed, patches.contains id = true
  getPatch : ∀ id, d.getPatch id = if id ∈ processed then patches.get id else none
  parents : ∀ id ∈ processed, ∀ patch, patches.get id = some patch →
    d.parents id = storedParents patches patch

theorem loaded_new : Loaded patches .empty PatchDag.new where
  sorted := .nil
  ranked := PatchDag.ranked_new
  branches := rfl
  stored := nofun
  getPatch := fun id => (if_neg (SortedSet.not_mem_empty id)).symm
  parents := nofun

theorem Loaded.hasPatch {processed : SortedSet H} (h : Loaded patches processed d) (id : H) :
    d.hasPatch id = true ↔ id ∈ processed := by
  rw [PatchDag.hasPatch_iff, h.getPatch]
  split
  · rename_i hmem
    exact iff_of_true (Option.isSome_iff_exists.mp (h.stored id hmem)) hmem
  · rename_i hmem
    exact iff_of_false (fun hex => nomatch hex.choose_spec) hmem

theorem Loaded.add {processed : SortedSet H} (h : Loaded patches processed d) {id : H}
    {patch : Patch H} (hget : patches.get id = some patch) (hid : patch.id = id)
    (hnew : id ∉ processed)
    (hparents : ∀ p ∈ patch.parentIds, patches.contains p = true → p ∈ processed) :
    Loaded patches (processed.insert id) (addLoaded d id patch processed) := by
  subst hid
  have hvalid : patch.parentIds.filter (fun p => decide (p ∈ processed)) =
      storedParents patches patch := List.filter_congr fun p hp => by
    rw [Bool.eq_iff_iff, decide_eq_true_eq]
    exact ⟨h.stored p, hparents p hp⟩
  unfold addLoaded
  rw [hvalid]
  have hsorted := sorted_addPatch h.sorted patch (storedParents patches patch)
  have hranked := h.ranked.addPatch patch (storedParents patches patch)
  rcases d.addPatch_cases patch (storedParents patches patch) with
    ⟨e, -, hrefused⟩ | ⟨d', heq, hext⟩
  · refine absurd ⟨?_, fun p hp => ?_⟩ hrefused
    · rw [← Bool.not_eq_true, h.hasPatch]
      exact hnew
    · obtain ⟨hp, hstored⟩ := List.mem_filter.mp hp
      exact (h.hasPatch p).mpr (hparents p hp hstored)
  · rw [heq] at hsorted hranked ⊢
    refine ⟨hsorted, hranked, hext.branches.trans h.branches, fun j hj => ?_, fun j => ?_,
      fun j hj patch' hget' => ?_⟩
    · rcases SortedSet.mem_insert.mp hj with rfl | hj
      · exact Option.isSome_iff_exists.mpr ⟨patch, hget⟩
      · exact h.stored j hj
    · rw [PatchDag.getPatch_eq, hext.view]
      by_cases hj : j = patch.id
      · rw [if_pos hj, if_pos (SortedSet.mem_insert.mpr (.inl hj)), hj, hget]
        rfl
      · rw [if_neg hj, ← PatchDag.getPatch_eq, h.getPatch]
        simp [hj]
    · by_cases hjid : j = patch.id
      · subst hjid
        rw [hget] at hget'
        cases hget'
        exact hext.parents_new
      · rw [hext.parents_of_ne hjid]
        exact h.parents j ((SortedSet.mem_insert.mp hj).resolve_left hjid) patch' hget'

/-! ### Branches -/

theorem foldl_reloadBranch {rows : List (String × H)} (hsorted : Assoc.Sorted rows)
    (hnames : ∀ name target, Assoc.get rows name = some target →
      ∃ branch, BranchName.new name = .ok branch) (d : PatchDag H) :
    ∃ branches, rows.foldl reloadBranch d = { d with branches := branches } ∧
      ∀ name, Assoc.get branches name =
        (Assoc.get d.branches name).or ((Assoc.get rows name).filter d.hasPatch) := by
  induction hsorted generalizing d with
  | nil => exact ⟨d.branches, rfl, fun name => by simp⟩
  | @cons e rest hhead hrest ih =>
    obtain ⟨key, target⟩ := e
    have hkey : Assoc.get rest key = none := Assoc.Sorted.get_cons_head (.cons hhead hrest) le_rfl
    have hnames' : ∀ name t, Assoc.get rest name = some t →
        ∃ branch, BranchName.new name = .ok branch := fun name t hget => by
      refine hnames name t ?_
      rw [Assoc.get_cons, if_neg, hget]
      rintro rfl
      rw [hkey] at hget
      cases hget
    obtain ⟨branch, hbranch⟩ := hnames key target (by rw [Assoc.get_cons, if_pos rfl])
    have hname : branch.asStr = key := BranchName.asStr_of_new hbranch
    -- The first row creates its branch, unless that exists or the target is missing.
    have hstep : ∃ branches, reloadBranch d (key, target) = { d with branches := branches } ∧
        ∀ name, Assoc.get branches name = (Assoc.get d.branches name).or
          (if name = key then (some target).filter d.hasPatch else none) := by
      unfold reloadBranch
      rw [hbranch]
      dsimp only
      rw [PatchDag.createBranch, PatchDag.getBranch, hname]
      cases hold : Assoc.get d.branches key with
      | some old =>
        refine ⟨d.branches, rfl, fun name => ?_⟩
        split
        · rename_i hk
          rw [hk, hold]
          rfl
        · rw [Option.or_none]
      | none =>
        rw [if_neg (by simp), if_neg (by simp)]
        split
        · rename_i hmissing
          have hmissing : d.hasPatch target = false := by simpa using hmissing
          refine ⟨d.branches, rfl, fun name => ?_⟩
          simp [Option.filter, hmissing]
        · rename_i hknown
          have hknown : d.hasPatch target = true := by simpa using hknown
          refine ⟨_, rfl, fun name => ?_⟩
          rw [Assoc.get_insert]
          by_cases hk : name = key
          · simp [hk, hold, Option.filter, hknown]
          · simp [hk]
    obtain ⟨branches, hrun, hget⟩ := hstep
    obtain ⟨branches', hrun', hget'⟩ := ih hnames' { d with branches := branches }
    refine ⟨branches', ?_, fun name => ?_⟩
    · rw [List.foldl_cons, hrun, hrun']
    · have hsame : PatchDag.hasPatch { d with branches := branches } = d.hasPatch := rfl
      rw [hget', hget, hsame, Assoc.get_cons]
      by_cases hk : name = key
      · simp [hk, hkey]
      · simp [hk]

end Load

/-! ### Reopening -/

section Reopen
variable {H : Type} [LinearOrder H]

inductive Write (H : Type) where
  | storePatch (patch : Patch H)
  | setBranch (name : BranchName) (target : H)

def MetadataStore.write (m : MetadataStore H) : Write H → MetadataStore H
  | .storePatch patch => m.storePatch patch
  | .setBranch name target => m.setBranch name target

/-- The patches last stored. -/
def storedPatches (writes : List (Write H)) : SortedMap H (Patch H) :=
  writes.foldl (fun patches w =>
    match w with
    | .storePatch patch => patches.insert patch.id patch
    | .setBranch _ _ => patches) .empty

/-- The targets last set. -/
def storedBranches (writes : List (Write H)) : SortedMap String H :=
  writes.foldl (fun branches w =>
    match w with
    | .storePatch _ => branches
    | .setBranch name target => branches.insert name.asStr target) .empty

def Acyclic (patches : SortedMap H (Patch H)) : Prop :=
  ∀ id, ¬ Relation.TransGen (fun c p => patches.contains p = true ∧
    ∃ patch, patches.get c = some patch ∧ p ∈ patch.parentIds) id id

def ParentClosed (patches : SortedMap H (Patch H)) : Prop :=
  ∀ id patch, patches.get id = some patch → ∀ p ∈ patch.parentIds, patches.contains p = true

/-- A DAG has the patches and branches that are stored. -/
structure Reconstructs (patches : SortedMap H (Patch H)) (branches : SortedMap String H)
    (d : PatchDag H) : Prop where
  once : (d.nodes.map Prod.fst).Nodup
  getPatch : ∀ id, d.getPatch id = patches.get id
  parents : ∀ id patch, patches.get id = some patch →
    d.parents id = patch.parentIds.filter patches.contains
  closed : ParentClosed patches → ∀ id patch, patches.get id = some patch →
    d.parents id = patch.parentIds
  generations : ParentClosed patches → ∀ original : PatchDag H, original.Made →
    (∀ id patch, patches.get id = some patch → original.parents id = patch.parentIds) →
    ∀ id, patches.contains id = true → d.generation id = original.generation id
  getBranch : ∀ name, d.getBranch name = (branches.get name.asStr).filter patches.contains

theorem getPatch_writes (writes : List (Write H)) :
    (∀ id, (writes.foldl MetadataStore.write .empty).getPatch id = (storedPatches writes).get id) ∧
      (writes.foldl MetadataStore.write .empty).branches = storedBranches writes := by
  induction writes using List.reverseRecOn with
  | nil => exact ⟨fun _ => rfl, rfl⟩
  | append_singleton writes w ih =>
    unfold storedPatches storedBranches at ih ⊢
    rw [List.foldl_append, List.foldl_append, List.foldl_append]
    cases w with
    | storePatch patch =>
      refine ⟨fun id => ?_, ih.2⟩
      exact (MetadataStore.getPatch_storePatch _ patch id).trans (by
        rw [ih.1 id]
        exact (SortedMap.get_insert _ patch.id id patch).symm)
    | setBranch name target =>
      exact ⟨ih.1, congrArg (SortedMap.insert name.asStr target) ih.2⟩

omit [LinearOrder H] in
theorem storedBranches_named (writes : List (Write H)) :
    ∀ name target, (storedBranches writes).get name = some target →
      ∃ branch, BranchName.new name = .ok branch := by
  induction writes using List.reverseRecOn with
  | nil => exact nofun
  | append_singleton writes w ih =>
    intro name target hget
    unfold storedBranches at ih hget
    rw [List.foldl_append] at hget
    cases w with
    | storePatch patch => exact ih name target hget
    | setBranch branch target' =>
      rw [List.foldl_cons, List.foldl_nil, SortedMap.get_insert] at hget
      split at hget
      · rename_i hname
        exact ⟨branch, by rw [hname, BranchName.new_asStr]⟩
      · exact ih name target hget

theorem id_of_getPatch {m : MetadataStore H} {id : H} {patch : Patch H}
    (h : m.getPatch id = some patch) : patch.id = id := by
  obtain ⟨row, -, rfl⟩ := Option.map_eq_some_iff.mp h
  rfl

/-- The map that is loaded holds what is stored, once. -/
theorem loadPatches_spec (order : IterationOrder (H × Patch H)) (m : MetadataStore H) :
    (Toposort.keys (order.arrange (loadPatches m))).Nodup ∧
      ∀ id, Assoc.get (order.arrange (loadPatches m)) id = m.getPatch id := by
  have hperm := order.perm (loadPatches m)
  have hmem : ∀ id patch, (id, patch) ∈ order.arrange (loadPatches m) ↔
      m.getPatch id = some patch := fun id patch => by
    rw [hperm.mem_iff, loadPatches, List.mem_filterMap]
    constructor
    · rintro ⟨j, -, hj⟩
      obtain ⟨patch', hget, heq⟩ := Option.map_eq_some_iff.mp hj
      cases heq
      exact hget
    · intro hget
      refine ⟨id, SortedMap.mem_keys.mpr fun hnone => ?_, by rw [hget]; rfl⟩
      rw [MetadataStore.getPatch, hnone] at hget
      cases hget
  have hnodup : (Toposort.keys (order.arrange (loadPatches m))).Nodup := by
    have hkeys : Toposort.keys (loadPatches m) = m.patches.keys := by
      unfold Toposort.keys loadPatches
      rw [List.map_filterMap]
      refine (List.filterMap_congr fun id hid => ?_).trans (List.filterMap_some)
      obtain ⟨row, hrow⟩ := Option.ne_none_iff_exists'.mp (SortedMap.mem_keys.mp hid)
      rw [MetadataStore.getPatch, hrow]
      rfl
    refine (hperm.map Prod.fst).nodup_iff.mpr ?_
    change (Toposort.keys (loadPatches m)).Nodup
    rw [hkeys]
    exact (List.pairwise_map.mpr m.patches.sorted).imp ne_of_lt
  refine ⟨hnodup, fun id => ?_⟩
  cases hget : m.getPatch id with
  | some patch => exact Toposort.get_of_nodup hnodup ((hmem id patch).mpr hget)
  | none =>
    refine Assoc.get_eq_none_iff.mpr fun hkey => ?_
    obtain ⟨⟨j, patch⟩, hj, rfl⟩ := List.mem_map.mp hkey
    rw [(hmem j patch).mp hj] at hget
    cases hget

theorem reloadPatches_loaded (order : IterationOrder (H × Patch H)) {m : MetadataStore H}
    {patches : SortedMap H (Patch H)} (hm : ∀ id, m.getPatch id = patches.get id)
    (hacyclic : Acyclic patches) :
    ∃ processed, (∀ id, id ∈ processed ↔ patches.contains id = true) ∧
      Loaded patches processed (reloadPatches order m) := by
  obtain ⟨hnodup, hget⟩ := loadPatches_spec order m
  have hget : ∀ id, Assoc.get (order.arrange (loadPatches m)) id = patches.get id := fun id =>
    (hget id).trans (hm id)
  have hkeys : ∀ id, id ∈ Toposort.keys (order.arrange (loadPatches m)) ↔
      patches.contains id = true := fun id => by
    rw [Toposort.mem_keys_iff, SortedMap.contains_eq, Option.isSome_iff_exists, hget]
  have hwaits : ∀ c, ¬ Relation.TransGen
      (Toposort.Waits Patch.parentIds (order.arrange (loadPatches m))) c c := by
    intro c hc
    refine hacyclic c (Relation.TransGen.mono (fun c p h => ?_) c c hc)
    obtain ⟨hp, patch, hpatch, hparent⟩ := h
    exact ⟨(hkeys p).mp hp, patch, (hget c).symm.trans hpatch, hparent⟩
  obtain ⟨hnone, processed, hall, hloaded⟩ := Toposort.run_spec hnodup hwaits addLoaded
    (Loaded patches) (fun processed dag id patch hI hpatch hnew hdeps => by
      refine hI.add ((hget id).symm.trans hpatch) ?_ hnew fun p hp hstored =>
        hdeps p hp ((hkeys p).mpr hstored)
      exact id_of_getPatch (((hm id).trans (hget id).symm).trans hpatch)) loaded_new
  refine ⟨processed, fun id => (hall id).trans (hkeys id), ?_⟩
  unfold reloadPatches
  have hnil : order.arrange [] = [] := List.perm_nil.mp (order.perm [])
  rcases hrun : Toposort.run Patch.parentIds addLoaded (order.arrange (loadPatches m))
    PatchDag.new with ⟨dag, remaining⟩
  rw [hrun] at hnone hloaded
  dsimp only at hnone hloaded ⊢
  rw [hnone, hnil]
  exact hloaded

/-- Whatever was stored without cycles is there again when the repository is opened. -/
theorem reload_reconstructs (order : IterationOrder (H × Patch H)) (writes : List (Write H))
    (hacyclic : Acyclic (storedPatches writes)) :
    Reconstructs (storedPatches writes) (storedBranches writes)
      (reload order (writes.foldl MetadataStore.write .empty)) := by
  obtain ⟨hm, hbranches⟩ := getPatch_writes writes
  obtain ⟨processed, hall, hloaded⟩ := reloadPatches_loaded order hm hacyclic
  obtain ⟨branches, hrun, hget⟩ := foldl_reloadBranch (storedBranches writes).sorted
    (storedBranches_named writes) (reloadPatches order (writes.foldl MetadataStore.write .empty))
  have hreload : reload order (writes.foldl MetadataStore.write .empty) =
      { reloadPatches order (writes.foldl MetadataStore.write .empty) with branches := branches } := by
    unfold reload MetadataStore.listBranches
    rw [hbranches, hrun]
  have hparents : ∀ id patch, (storedPatches writes).get id = some patch →
      (reload order (writes.foldl MetadataStore.write .empty)).parents id =
        storedParents (storedPatches writes) patch := fun id patch hpatch => by
    rw [hreload]
    exact hloaded.parents id ((hall id).mpr (Option.isSome_iff_exists.mpr ⟨patch, hpatch⟩)) patch
      hpatch
  have hclosed : ParentClosed (storedPatches writes) → ∀ id patch,
      (storedPatches writes).get id = some patch →
      (reload order (writes.foldl MetadataStore.write .empty)).parents id = patch.parentIds :=
    fun hclosed id patch hpatch =>
      (hparents id patch hpatch).trans (List.filter_eq_self.mpr (hclosed id patch hpatch))
  refine ⟨?_, fun id => ?_, hparents, hclosed, fun hc original horiginal hsame => ?_, fun name => ?_⟩
  · rw [hreload]
    exact (List.pairwise_map.mpr hloaded.sorted).imp ne_of_lt
  · rw [hreload]
    refine (hloaded.getPatch id).trans ?_
    split
    · rfl
    · rename_i hnew
      rw [hall, SortedMap.contains_eq, Option.isSome_iff_ne_none, not_not] at hnew
      exact hnew.symm
  · have hranked : (reload order (writes.foldl MetadataStore.write .empty)).Ranked := by
      rw [hreload]
      exact ⟨hloaded.ranked.graded, hloaded.ranked.leveled⟩
    refine horiginal.ranked.generation_eq hranked fun id hid => ?_
    obtain ⟨patch, hpatch⟩ := Option.isSome_iff_exists.mp hid
    rw [hclosed hc id patch hpatch, hsame id patch hpatch]
    exact ⟨rfl, hc id patch hpatch⟩
  · rw [hreload, PatchDag.getBranch, hget, hloaded.branches]
    have hknown : (reloadPatches order (writes.foldl MetadataStore.write .empty)).hasPatch =
        (storedPatches writes).contains := by
      funext id
      rw [Bool.eq_iff_iff, hloaded.hasPatch, hall]
    rw [hknown]
    rfl

/-- Two children of one patch, merged with one that was never stored, and a branch of it. -/
def forkedWrites : List (Write Hash) :=
  [.storePatch { PatchDag.edit 4 "a" with parentIds := [2, 3, 2, 9] },
    .storePatch { PatchDag.edit 3 "a" with parentIds := [1] },
    .storePatch { PatchDag.edit 2 "b" with parentIds := [1] }, .storePatch (PatchDag.edit 1 "a"),
    .setBranch .main 4, .setBranch ⟨"lost", by decide, by decide⟩ 9]

theorem reload_reconstructs_forked :
    Reconstructs (storedPatches forkedWrites) (storedBranches forkedWrites)
      (reload ⟨List.reverse, List.reverse_perm⟩ (forkedWrites.foldl MetadataStore.write .empty)) := by
  have hedges : ((storedPatches forkedWrites).entries.flatMap fun e =>
      e.2.parentIds.map fun p => (p, e.1)).all (fun e =>
        !(storedPatches forkedWrites).contains e.1 || decide (e.1 < e.2)) = true := by
    decide +kernel
  refine reload_reconstructs _ _ fun id hid => lt_irrefl id ?_
  refine Relation.transGen_minimal (fun c p h => show c > p from ?_) id id hid
  obtain ⟨hstored, patch, hpatch, hp⟩ := h
  have hedge := List.all_eq_true.mp hedges (p, c) (List.mem_flatMap.mpr ⟨(c, patch),
    SortedMap.mem_entries.mpr hpatch, List.mem_map_of_mem hp⟩)
  rw [hstored] at hedge
  exact of_decide_eq_true hedge

end Reopen
end Suture.Dag
