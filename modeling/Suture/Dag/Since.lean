import Suture.Dag.Plan
import Suture.Dag.Reload
import Suture.Foundation.DepthFirst
import Suture.Foundation.Toposort

/-!
# Patches since a patch

The list that an incremental push sends. The walk from the branch tips keeps the parents of
each patch it meets; when it meets the patch again it puts an empty list over them. What it
lists is right all the same, but a patch that lost its parents is sorted as if it had none.
-/

namespace Suture.Dag
set_option autoImplicit false
open Foundation Common Patches

namespace PatchDag
variable {H : Type} [LinearOrder H]

def listBranches (d : PatchDag H) : List (String × H) :=
  d.branches.insertionSort fun a b => a.1 ≤ b.1

/-- The parents of a patch that are not known. -/
def parentsSince (known : SortedSet H) (patch : Patch H) : List H :=
  patch.parentIds.filter fun p => decide (p ∉ known)

/-- The parents that are not in the map. -/
def unvisited (parentMap : SortedMap H (List H)) (parents : List H) : List H :=
  parents.filter fun p => !parentMap.contains p

theorem contains_insert {m : SortedMap H (List H)} {id : H} (ps : List H) {j : H}
    (h : m.contains j = true) : (m.insert id ps).contains j = true := by
  rw [SortedMap.contains_eq, SortedMap.get_insert]
  split
  · rfl
  · exact h

theorem erase_insert {m : SortedMap H (List H)} {id : H} (ps : List H)
    (hnew : m.contains id = false) : (m.insert id ps).erase id = m := by
  apply SortedMap.ext
  intro j
  rw [SortedMap.get_erase, SortedMap.get_insert]
  by_cases hj : j = id
  · rw [if_pos hj, hj]
    exact (Option.not_isSome_iff_eq_none.mp (by simpa [SortedMap.contains_eq] using hnew)).symm
  · rw [if_neg hj, if_neg hj]

/-- The nodes that are not in the map, by what they can push. -/
def toVisit (d : PatchDag H) (parentMap : SortedMap H (List H)) : Nat :=
  openWeight (fun e => e.2.patch.parentIds.length + 1) (fun e => parentMap.contains e.1) d.nodes

theorem toVisit_insert_le (d : PatchDag H) (m : SortedMap H (List H)) (id : H) (ps : List H) :
    d.toVisit (m.insert id ps) ≤ d.toVisit m := openWeight_le fun _ => contains_insert ps

theorem toVisit_insert {d : PatchDag H} {m : SortedMap H (List H)} {id : H} {node : DagNode H}
    (hnode : d.getNode id = some node) (hnew : m.contains id = false) (ps : List H) :
    d.toVisit (m.insert id ps) + (node.patch.parentIds.length + 1) ≤ d.toVisit m := by
  have hself : (m.insert id ps).contains id = true := by simp [SortedMap.contains_eq]
  have hgrow : ∀ e : H × DagNode H, m.contains e.1 = true → (m.insert id ps).contains e.1 = true :=
    fun _ => contains_insert ps
  have hmem : (id, node) ∈ d.nodes := Assoc.mem_of_get hnode
  unfold toVisit
  have hle := @openWeight_add_le _ (fun e : H × DagNode H => e.2.patch.parentIds.length + 1) _ _ _
    hgrow _ hmem hnew hself
  exact hle

theorem length_unvisited_le (m : SortedMap H (List H)) (known : SortedSet H) (patch : Patch H) :
    (unvisited m (parentsSince known patch)).length ≤ patch.parentIds.length :=
  (List.length_filter_le ..).trans (List.length_filter_le ..)

/-- The walk; the top of its stack is the head of the list. -/
def gather (d : PatchDag H) (known : SortedSet H) (parentMap : SortedMap H (List H)) :
    List H → SortedMap H (List H)
  | [] => parentMap
  | id :: stack =>
    if id ∈ known then gather d known parentMap stack
    -- the insertion that asks whether the patch is new has overwritten its parents
    else if _hnew : parentMap.contains id = true then gather d known (parentMap.insert id []) stack
    else
      match _hnode : d.getNode id with
      | none => gather d known ((parentMap.insert id []).erase id) stack
      | some node =>
        gather d known ((parentMap.insert id []).insert id (parentsSince known node.patch))
          ((unvisited (parentMap.insert id []) (parentsSince known node.patch)).reverse ++ stack)
termination_by stack => d.toVisit parentMap + stack.length
decreasing_by
  · simp only [List.length_cons]
    omega
  · have hle := d.toVisit_insert_le parentMap id []
    simp only [List.length_cons]
    omega
  · rw [erase_insert [] (by simpa using _hnew)]
    simp only [List.length_cons]
    omega
  · have hle := toVisit_insert _hnode (by simpa using _hnew) []
    have hle' := d.toVisit_insert_le (parentMap.insert id []) id (parentsSince known node.patch)
    have hpushed := length_unvisited_le (parentMap.insert id []) known node.patch
    simp only [List.length_append, List.length_reverse, List.length_cons]
    omega

/-- What is not sent: the patch and its ancestors. -/
def knownSince (d : PatchDag H) (sinceId : H) : SortedSet H := (d.ancestors sinceId).1.insert sinceId

def patchesSince (order : IterationOrder (H × List H)) (d : PatchDag H) (sinceId : H) :
    List (Patch H) × PatchDag H :=
  let stack := (d.listBranches.map Prod.snd).reverse
  let parentMap := gather d (d.knownSince sinceId) .empty stack
  -- the order of the hash map is lost again when roots and children are sorted; no key is
  -- queued twice, so that the sort of the library never skips one
  let sortedIds := Toposort.order (fun parents => parents) (order.arrange parentMap.entries)
  (sortedIds.filterMap d.getPatch, (d.ancestors sinceId).2)

/-! ### The walk over new patches -/

section Walk
variable {d : PatchDag H} {known : SortedSet H}

/-- Patches have the ids they are filed under, and the parents they name, as far as these
are there. -/
structure FollowsPatches (d : PatchDag H) : Prop where
  ids : ∀ {id node}, d.getNode id = some node → node.patch.id = id
  parents : ∀ {id node}, d.getNode id = some node →
    node.parentIds = node.patch.parentIds.filter d.hasPatch

def isNew (d : PatchDag H) (known : SortedSet H) (id : H) : Bool :=
  decide (id ∉ known) && d.hasPatch id

def newParents (d : PatchDag H) (known : SortedSet H) (id : H) : List H :=
  (d.parents id).filter fun p => decide (p ∉ known)

/-- The parent edges between patches that are not known. -/
def newEdges (d : PatchDag H) (known : SortedSet H) : Edges H where
  next := d.newParents known
  sources := d.nodes.map Prod.fst
  mem_sources := by
    intro id p hp
    cases hnode : d.getNode id with
    | none =>
      rw [newParents, parents, hnode] at hp
      cases hp
    | some node => exact List.mem_map_of_mem (Assoc.mem_of_get hnode)

/-- The branch tips that are not known, the last branch on top. -/
def newTips (d : PatchDag H) (known : SortedSet H) : List H :=
  (d.listBranches.map Prod.snd).reverse.filter (d.isNew known)

/-- The parents as the walk keeps them. -/
def parentsOf (d : PatchDag H) (known : SortedSet H) (id : H) : List H :=
  ((d.getPatch id).map (parentsSince known)).getD []

theorem newParents_eq (hf : d.FollowsPatches) {id : H} {node : DagNode H}
    (hnode : d.getNode id = some node) :
    d.newParents known id = (parentsSince known node.patch).filter (d.isNew known) := by
  have hparents : d.parents id = node.patch.parentIds.filter d.hasPatch := by
    rw [PatchDag.parents, hnode]
    exact hf.parents hnode
  rw [newParents, hparents, parentsSince, List.filter_filter, List.filter_filter]
  apply List.filter_congr
  intro p _
  by_cases hp : p ∈ known <;> simp [isNew, hp]

theorem filter_pushed (hf : d.FollowsPatches) {id : H} {node : DagNode H}
    (hnode : d.getNode id = some node) {m : SortedMap H (List H)} {seen : SortedSet H}
    (hseen : ∀ x, m.contains x = true ↔ x ∈ seen) (stack : List H) :
    ((unvisited m (parentsSince known node.patch)).reverse ++ stack).filter (d.isNew known) =
      ((d.newEdges known).fresh seen id).reverse ++ stack.filter (d.isNew known) := by
  have hfresh : (unvisited m (parentsSince known node.patch)).filter (d.isNew known) =
      (d.newEdges known).fresh seen id := by
    have hnext : (d.newEdges known).next id = d.newParents known id := rfl
    rw [Edges.fresh, hnext, newParents_eq hf hnode, unvisited, List.filter_filter,
      List.filter_filter]
    apply List.filter_congr
    intro p _
    have : (!m.contains p) = decide (p ∉ seen) := by
      rw [Bool.eq_iff_iff]
      simp [← hseen]
    rw [this, Bool.and_comm]
  rw [List.filter_append, List.filter_reverse, hfresh]

/-- What the map has for a patch after the walk: its parents when the patch came off the
stack once, nothing when it did twice. -/
theorem gather_get (hf : d.FollowsPatches) {m : SortedMap H (List H)} {seen : SortedSet H}
    {stack : List H} (hseen : ∀ x, m.contains x = true ↔ x ∈ seen)
    (hpatch : ∀ x ∈ seen, d.hasPatch x = true) (x : H) :
    let count := ((d.newEdges known).taken seen (stack.filter (d.isNew known))).count x
    (gather d known m stack).get x =
      if count = 0 then m.get x
      else if x ∉ seen ∧ count = 1 then some (d.parentsOf known x)
      else some [] := by
  fun_induction gather d known m stack generalizing seen with
  | case1 m =>
    rw [List.filter_nil, Edges.taken]
    rfl
  | case2 m id stack hknown ih =>
    have hnew : d.isNew known id = false := by simp [isNew, hknown]
    rw [List.filter_cons_of_neg (by simp [hnew])]
    exact ih hseen hpatch
  | case3 m id stack hknown hmem ih =>
    have hid : id ∈ seen := (hseen id).mp hmem
    have hnew : d.isNew known id = true := by simp [isNew, hknown, hpatch id hid]
    have hseen' : ∀ y, (m.insert id []).contains y = true ↔ y ∈ seen := by
      intro y
      rw [← hseen, SortedMap.contains_eq, SortedMap.contains_eq, SortedMap.get_insert]
      by_cases hy : y = id
      · subst hy
        simpa [SortedMap.contains_eq] using hmem
      · rw [if_neg hy]
    have hrest := ih hseen' hpatch
    rw [List.filter_cons_of_pos hnew, Edges.taken_seen hid, hrest, SortedMap.get_insert]
    by_cases hx : x = id
    · subst hx
      simp [hid]
    · rw [if_neg hx, List.count_cons_of_ne (Ne.symm hx)]
  | case4 m id stack hknown hmem hnode ih =>
    have hnew : d.isNew known id = false := by simp [isNew, hasPatch, hnode]
    rw [List.filter_cons_of_neg (by simp [hnew])]
    rw [erase_insert [] (by simpa using hmem)] at ih ⊢
    exact ih hseen hpatch
  | case5 m id stack hknown hmem node hnode ih =>
    have hhas : d.hasPatch id = true := by simp [hasPatch, hnode]
    have hnew : d.isNew known id = true := by simp [isNew, hknown, hhas]
    have hid : id ∉ seen := fun h => hmem ((hseen id).mpr h)
    have hseen' : ∀ ps y, (m.insert id ps).contains y = true ↔ y ∈ seen.insert id := by
      intro ps y
      rw [SortedSet.mem_insert, ← hseen, SortedMap.contains_eq, SortedMap.contains_eq,
        SortedMap.get_insert]
      by_cases hy : y = id <;> simp [hy]
    have htwice : (m.insert id []).insert id (parentsSince known node.patch) =
        m.insert id (parentsSince known node.patch) := by
      apply SortedMap.ext
      intro j
      rw [SortedMap.get_insert, SortedMap.get_insert, SortedMap.get_insert]
      by_cases hj : j = id <;> simp [hj]
    have hseenNext : ∀ y, ((m.insert id []).insert id
        (parentsSince known node.patch)).contains y = true ↔ y ∈ seen.insert id := by
      rw [htwice]
      exact hseen' _
    have hrest := ih hseenNext (by
      intro y hy
      rcases SortedSet.mem_insert.mp hy with rfl | hy
      · exact hhas
      · exact hpatch y hy)
    have hparents : d.parentsOf known id = parentsSince known node.patch := by
      rw [parentsOf, getPatch, hnode]
      rfl
    rw [filter_pushed hf hnode (hseen' [])] at hrest
    rw [List.filter_cons_of_pos hnew, Edges.taken_new hid, hrest, htwice, SortedMap.get_insert]
    by_cases hx : x = id
    · subst hx
      rw [List.count_cons_self, hparents]
      generalize List.count x _ = n
      cases n <;> simp [hid]
    · rw [if_neg hx, List.count_cons_of_ne (Ne.symm hx)]
      simp [hx]

end Walk
end PatchDag
end Suture.Dag
