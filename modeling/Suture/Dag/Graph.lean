import Mathlib.Data.List.Sort
import Suture.Common.Names
import Suture.Foundation.SortedMap
import Suture.Foundation.Worklist
import Suture.Patches.Merge
import Suture.Patches.Types

/-!
# The patch DAG

Nodes, branches and the cache of ancestor sets. A query may fill the cache, so it
returns its answer with the new DAG. What is unique to a branch is computed as its history
less that of the chosen common ancestor.
-/

namespace Suture.Dag
set_option autoImplicit false
open Foundation Common Patches

inductive DagError (H : Type) where
  | duplicatePatch (id : H)
  | patchNotFound (id : H)
  | parentNotFound (id : H)
  | branchNotFound (name : String)
  | branchAlreadyExists (name : String)
  | noCommonAncestor
  | mergeFailed (id : H)
deriving DecidableEq, Repr

structure DagNode (H : Type) where
  patch : Patch H
  parentIds : List H
  childIds : List H
  generation : Nat
deriving DecidableEq

structure PatchDag (H : Type) [LinearOrder H] where
  nodes : List (H × DagNode H)
  branches : List (String × H)
  ancestorCache : List (H × SortedSet H)
deriving DecidableEq

namespace PatchDag
variable {H : Type} [LinearOrder H]

def new : PatchDag H := ⟨[], [], []⟩

def getNode (d : PatchDag H) (id : H) : Option (DagNode H) := Assoc.get d.nodes id

def getPatch (d : PatchDag H) (id : H) : Option (Patch H) := (d.getNode id).map DagNode.patch

def hasPatch (d : PatchDag H) (id : H) : Bool := (d.getNode id).isSome

/-- The generation of a node, 0 for an unknown one. -/
def generation (d : PatchDag H) (id : H) : Nat := ((d.getNode id).map DagNode.generation).getD 0

/-- The parents of a node, none for an unknown one. -/
def parents (d : PatchDag H) (id : H) : List H := ((d.getNode id).map DagNode.parentIds).getD []

def addChild (id : H) (nodes : List (H × DagNode H)) (parentId : H) : List (H × DagNode H) :=
  match Assoc.get nodes parentId with
  | none => nodes
  | some parent => Assoc.insert parentId { parent with childIds := parent.childIds ++ [id] } nodes

def newGeneration (d : PatchDag H) (parentIds : List H) : Nat :=
  if parentIds.isEmpty then 0 else (parentIds.map d.generation).foldl max 0 + 1

def addPatch (d : PatchDag H) (patch : Patch H) (parentIds : List H) :
    Except (DagError H) H × PatchDag H :=
  if d.hasPatch patch.id then (.error (.duplicatePatch patch.id), d)
  else
    match parentIds.find? fun parentId => !d.hasPatch parentId with
    | some parentId => (.error (.parentNotFound parentId), d)
    | none =>
      let node := ⟨patch, parentIds, [], d.newGeneration parentIds⟩
      (.ok patch.id,
        { d with nodes := Assoc.insert patch.id node (parentIds.foldl (addChild patch.id) d.nodes) })

/-- The parent edges, for the breadth-first search. -/
def ancestry (d : PatchDag H) : Successors H where
  next := d.parents
  targets := d.nodes.flatMap fun e => e.2.parentIds
  next_mem := by
    intro id p hp
    unfold parents getNode at hp
    cases hnode : Assoc.get d.nodes id with
    | none =>
      rw [hnode] at hp
      cases hp
    | some node =>
      rw [hnode] at hp
      exact List.mem_flatMap.mpr ⟨_, Assoc.mem_of_get hnode, hp⟩

def ancestors (d : PatchDag H) (id : H) : SortedSet H × PatchDag H :=
  match Assoc.get d.ancestorCache id with
  | some cached => (cached, d)
  | none =>
    let found := d.ancestry.closure id
    (found, { d with ancestorCache := Assoc.insert id found d.ancestorCache })

/-- One turn of the loop that looks for the candidate of highest generation. -/
def better (d : PatchDag H) (best : Option H) (candidate : H) : Option H :=
  match best with
  | none => some candidate
  | some b =>
    if d.generation b < d.generation candidate ∨
        (d.generation candidate = d.generation b ∧ candidate < b) then some candidate
    else some b

def lca (d : PatchDag H) (a b : H) : Option H × PatchDag H :=
  if a = b then (some a, d)
  else
    let (ancestorsA, d) := d.ancestors a
    let (ancestorsB, d) := d.ancestors b
    if a ∈ ancestorsB then (some a, d)
    else if b ∈ ancestorsA then (some b, d)
    else ((ancestorsA.elems.filter fun id => decide (id ∈ ancestorsB)).foldl d.better none, d)

def getBranch (d : PatchDag H) (name : BranchName) : Option H := Assoc.get d.branches name.asStr

def createBranch (d : PatchDag H) (name : BranchName) (target : H) :
    Except (DagError H) Unit × PatchDag H :=
  if (d.getBranch name).isSome then (.error (.branchAlreadyExists name.asStr), d)
  else if !d.hasPatch target then (.error (.patchNotFound target), d)
  else (.ok (), { d with branches := Assoc.insert name.asStr target d.branches })

def updateBranch (d : PatchDag H) (name : BranchName) (target : H) :
    Except (DagError H) Unit × PatchDag H :=
  if (d.getBranch name).isNone then (.error (.branchNotFound name.asStr), d)
  else if !d.hasPatch target then (.error (.patchNotFound target), d)
  else (.ok (), { d with branches := Assoc.insert name.asStr target d.branches })

def deleteBranch (d : PatchDag H) (name : BranchName) : Except (DagError H) Unit × PatchDag H :=
  if (d.getBranch name).isNone then (.error (.branchNotFound name.asStr), d)
  else (.ok (), { d with branches := Assoc.erase name.asStr d.branches })

def patchChainFull (d : PatchDag H) (id : H) : List H × PatchDag H :=
  let (ancestors, d) := d.ancestors id
  let all := ancestors.insert id
  (all.elems.insertionSort fun x y => d.generation x ≤ d.generation y, d)

/-- First parents from `id` on, up to a patch seen before. -/
def chainFrom (d : PatchDag H) (seen : SortedSet H) (id : H) : List H :=
  if _hseen : id ∈ seen then []
  else
    id :: match _hparent : (d.parents id).head? with
      | none => []
      | some parentId => chainFrom d (seen.insert id) parentId
termination_by (d.nodes.map Prod.fst).countP fun id => decide (id ∉ seen)
decreasing_by
  refine Successors.countP_insert_lt _hseen ?_
  by_contra hmissing
  have hnone : d.parents id = [] := by
    simp [parents, getNode, Assoc.get_eq_none_iff.mpr hmissing]
  rw [hnone] at _hparent
  cases _hparent

def patchChain (d : PatchDag H) (id : H) : List H := d.chainFrom .empty id

def reachablePatchIds (d : PatchDag H) (id : H) : List H × PatchDag H :=
  let (ancestors, d) := d.ancestors id
  (id :: ancestors.elems, d)

end PatchDag

/-! ### Merge plans -/

namespace PatchDag
variable {H : Type} [LinearOrder H]

/-- The two tips and their LCA. -/
def mergeBase (d : PatchDag H) (branchA branchB : BranchName) :
    Except (DagError H) (H × H × H) × PatchDag H :=
  match d.getBranch branchA with
  | none => (.error (.branchNotFound branchA.asStr), d)
  | some targetA =>
    match d.getBranch branchB with
    | none => (.error (.branchNotFound branchB.asStr), d)
    | some targetB =>
      match d.lca targetA targetB with
      | (none, d) => (.error .noCommonAncestor, d)
      | (some lcaId, d) => (.ok (targetA, targetB, lcaId), d)

/-- The ancestors of a tip and the tip itself, less a set. -/
def branchPatches (lcaSet : SortedSet H) (tip : H) (ancestors : SortedSet H) : List H :=
  (ancestors.elems ++ [tip]).filter fun id => decide (id ∉ lcaSet)

def mergeBranches (d : PatchDag H) (branchA branchB : BranchName) :
    Except (DagError H) (MergeResult H) × PatchDag H :=
  match d.mergeBase branchA branchB with
  | (.error e, d) => (.error e, d)
  | (.ok (targetA, targetB, lcaId), d) =>
    let (lcaAncestors, d) := d.ancestors lcaId
    let lcaSet := lcaAncestors.insert lcaId
    let (tipAAncestors, d) := d.ancestors targetA
    let (tipBAncestors, d) := d.ancestors targetB
    match merge d.getPatch [lcaId] (branchPatches lcaSet targetA tipAAncestors)
        (branchPatches lcaSet targetB tipBAncestors) with
    | .ok result => (.ok result, d)
    | .error (.patchNotFound id) => (.error (.mergeFailed id), d)

def branchDivergence (d : PatchDag H) (branchA branchB : BranchName) :
    Except (DagError H) (Nat × Nat) × PatchDag H :=
  match d.mergeBase branchA branchB with
  | (.error e, d) => (.error e, d)
  | (.ok (targetA, targetB, lcaId), d) =>
    let (lcaAncestors, d) := d.ancestors lcaId
    let lcaSet := lcaAncestors.insert lcaId
    let (tipAAncestors, d) := d.ancestors targetA
    let ahead := (branchPatches lcaSet targetA tipAAncestors).length
    let (tipBAncestors, d) := d.ancestors targetB
    let behind := (branchPatches lcaSet targetB tipBAncestors).length
    (.ok (ahead, behind), d)

end PatchDag
end Suture.Dag
