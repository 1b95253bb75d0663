import Suture.Patches.Compose
import Suture.Repo.Staging

/-!
# Branches, checkout, reset, revert, squash, cherry-pick and rebase

References are given resolved to one of the forms that `resolve_ref` tells apart.
-/

namespace Suture.Repo
set_option autoImplicit false
open Foundation Common Patches Dag Engine Program

inductive Ref (H : Type) where
  | head
  | headOffset (n : Nat)
  | hash (id : H)
  | name (branch : BranchName)

inductive ResetMode where
  | soft
  | mixed
  | hard
deriving DecidableEq, Repr

variable {H : Type} [LinearOrder H] [Hashing H]

/-! ### References -/

/-- First parents, `n` times. -/
def ancestorAt (id : H) : Nat → Action H H
  | 0 => return id
  | n + 1 => do
    match (← read).dag.getPatch id with
    | none => fail .headAncestorNotFound
    | some patch =>
      match patch.parentIds.head? with
      | none => fail .headHasNoParent
      | some parentId => ancestorAt parentId n

def branchTarget (branch : BranchName) : Action H H := do
  match (← read).dag.getBranch branch with
  | some id => return id
  | none => fail (.branchNotFound branch.asStr)

def resolveRef : Ref H → Action H H
  | .head => do
    let (_, headId) ← head
    return headId
  | .headOffset n => do
    let (_, headId) ← head
    ancestorAt headId n
  | .hash id => do
    if (← read).dag.hasPatch id then return id
    else branchTarget (← branchName (Hashing.toHex id))
  | .name branch => branchTarget branch

/-- The reference's text as a branch name. -/
def Ref.branchName? : Ref H → Option BranchName
  | .head => (BranchName.new "HEAD").toOption
  | .headOffset _ => none
  | .hash id => (BranchName.new (Hashing.toHex id)).toOption
  | .name branch => some branch

def createBranch (branch : BranchName) (target : Option (Ref H)) : Action H Unit := do
  let targetId ← match target with
    | some t => resolveRef t
    | none => do
      let s ← read
      match (Assoc.get s.dag.branches "main").or (s.dag.branches.head?.map Prod.snd) with
      | some id => pure id
      | none => fail .noHeadBranch
  updateDag fun d => d.createBranch branch targetId
  storeBranch branch targetId

/-! ### The working tree -/

def writeEntry (e : DiffEntry H) : Action H Unit :=
  match e.diffType with
  | .added | .modified =>
    match e.newHash with
    | some hash => do
      let blob ← getBlob hash
      writeFile e.path blob
    | none => pure ()
  | .deleted => removeFile e.path
  | .renamed oldPath _ => renameFile oldPath e.path

def removeMissing (oldTree newTree : FileTree H) : Action H Unit :=
  forEach (fun e => if newTree.contains e.1 then pure () else removeFile e.1) oldTree.entries

/-- The files that the entries of a difference add or change. -/
def changedBlobs (diffs : List (DiffEntry H)) : List (String × H) :=
  diffs.filterMap fun e =>
    match e.diffType with
    | .added | .modified => e.newHash.map fun hash => (e.path, hash)
    | .deleted | .renamed _ _ => none

def syncWorkingTree (oldTree : FileTree H) : Action H Unit := do
  let newTree ← snapshotHead
  let diffs := diffTrees oldTree newTree
  let blobs ← mapEach (fun e => do
    let blob ← getBlob e.2
    return (e.1, blob)) (changedBlobs diffs)
  forEach (fun b => writeFile b.1 b.2) blobs
  forEach (fun e =>
    match e.diffType with
    | .deleted => removeFile e.path
    | .renamed oldPath _ => renameFile oldPath e.path
    | .added | .modified => pure ()) diffs
  removeMissing oldTree newTree

/-! ### Checkout -/

/-- The patch to check out, with the branch unless HEAD will be detached. -/
def checkoutTarget (target : Ref H) : Action H (H × Option BranchName) := do
  let s ← read
  match target.branchName?.bind fun branch => (s.dag.getBranch branch).map fun id => (id, branch) with
  | some (id, branch) => return (id, some branch)
  | none =>
    let id ← resolveRef target
    return (id, none)

def attach (targetId : H) (branch : Option BranchName) : Action H Unit :=
  modify fun s =>
    match branch with
    | none => { s with detached := true, detachedHead := some targetId }
    | some branch =>
      { s with detached := false, detachedHead := none, headBranch := some branch.asStr }

def autoStash (statHit : String → Bool) (hasChanges : Bool) : Action H Unit :=
  if hasChanges then do
    let _ ← stashPush statHit (some "auto-stash before checkout")
  else pure ()

def checkout (statHit : String → Bool) (target : Ref H) : Action H (FileTree H) := do
  let _ ← head.attempt
  let (targetId, branch) ← checkoutTarget target
  let hasChanges ← hasUncommittedChanges statHit
  autoStash statHit hasChanges
  let targetTree ← snapshot targetId
  let currentTree ← orEmpty snapshotHead
  forEach writeEntry (diffTrees currentTree targetTree)
  removeMissing currentTree targetTree
  attach targetId branch
  invalidateHeadCache
  let _ ← (if hasChanges then stashPop else pure ()).attempt
  return targetTree

/-! ### Reset -/

def stageDifference (e : DiffEntry H) : Action H Unit :=
  match e.diffType with
  | .added | .modified => workingSetAdd e.path .modified
  | .deleted => workingSetAdd e.path .deleted
  | .renamed oldPath _ => do
    workingSetAdd oldPath .deleted
    workingSetAdd e.path .added

/-- Moves a branch, and with it HEAD. -/
def moveHead (branch : String) (id : H) : Action H Unit := do
  setBranch branch id
  invalidateHeadCache

def reset (target : Ref H) (mode : ResetMode) : Action H H := do
  let _ ← head.attempt
  let targetId ← resolveRef target
  let (branch, _) ← head
  let oldTree ← orEmpty snapshotHead
  moveHead branch targetId
  match mode with
  | .soft =>
    let newTree ← orEmpty snapshotHead
    forEach stageDifference (diffTrees newTree oldTree)
    return targetId
  | .mixed =>
    modify fun s => { s with workingSet := .empty }
    return targetId
  | .hard =>
    modify fun s => { s with workingSet := .empty }
    syncWorkingTree oldTree
    return targetId

/-! ### Revert -/

def findPatch (id : H) : Action H (Patch H) := do
  match (← read).dag.getPatch id with
  | some patch => return patch
  | none => fail (.patchNotFound id)

/-- A patch on top of HEAD, with the working tree brought along. -/
def commitOnHead (branch : String) (headId : H) (oldTree : FileTree H) (patch : Patch H) :
    Action H H := do
  storePatch patch
  let id ← updateDag fun d => d.addPatch patch [headId]
  moveHead branch id
  syncWorkingTree oldTree
  return id

def revertChange (parentTree : FileTree H) (change : FileChange H) : Option (FileChange H) :=
  match change.op with
  | .create | .modify => some ⟨.delete, change.path, .empty⟩
  | .delete => (parentTree.get change.path).map fun hash => ⟨.modify, change.path, .hex hash⟩
  | .move | .metadata | .merge | .identity | .batch => none

/-- The tree that a patch was made on. -/
def parentTreeOf (patch : Patch H) : Action H (FileTree H) :=
  match patch.parentIds.head? with
  | some parentId => orEmpty (snapshot parentId)
  | none => return .empty

def revertBatch (patch : Patch H) (headId : H) (message : String) : Action H (Patch H) := do
  match patch.fileChanges with
  | none => fail .invalidBatchPatch
  | some changes =>
    require (changes ≠ []) .emptyBatchRevert
    let parentTree ← parentTreeOf patch
    let revertChanges := changes.filterMap (revertChange parentTree)
    require (revertChanges ≠ []) .nothingToRevert
    let s ← read
    return .newBatch revertChanges [headId] s.author message s.clock

def revertDelete (patch : Patch H) (headId : H) (message : String) : Action H (Patch H) := do
  match patch.parentIds.head? with
  | none => fail .cannotRevertDelete
  | some parentId =>
    let parentTree ← snapshot parentId
    match patch.targetPath.bind parentTree.get with
    | none => fail .cannotRevertDelete
    | some hash =>
      let s ← read
      return .new .modify patch.touchSet patch.targetPath (.text (.hex hash)) [headId] s.author
        message s.clock

def revertPatch (patch : Patch H) (headId : H) (message : String) : Action H (Patch H) :=
  match patch.operationType with
  | .batch => revertBatch patch headId message
  | .create | .modify => do
    let s ← read
    return .new .delete patch.touchSet patch.targetPath (.text .empty) [headId] s.author message
      s.clock
  | .delete => revertDelete patch headId message
  | op => fail (.cannotRevertPatch op)

def revert (id : H) (message : Option String) : Action H H := do
  let patch ← findPatch id
  let (branch, headId) ← head
  let message := message.getD ("Revert " ++ Hashing.toHex id)
  let oldTree ← orEmpty snapshotHead
  let inverse ← revertPatch patch headId message
  commitOnHead branch headId oldTree inverse

/-! ### Squash -/

def squash (count : Nat) (message : String) : Action H H := do
  require (2 ≤ count) (.notEnoughPatchesToSquash 2)
  let (branch, tipId) ← head
  let chain := (← read).dag.patchChain tipId
  require (count + 1 ≤ chain.length) (.notEnoughPatchesOnBranch chain.length count)
  let toSquash ← mapEach findPatch (chain.take count).reverse
  match toSquash.head?.bind fun first => first.parentIds.head? with
  | none => fail .cannotSquashRoot
  | some parentId =>
    let s ← read
    match composeChain toSquash s.author message s.clock with
    | none => fail .patchComposition
    | some patch =>
      storePatch patch
      let id ← updateDag fun d => d.addPatch patch [parentId]
      moveHead branch id
      return id

/-! ### Cherry-pick -/

/-- The patch again, on top of another parent. -/
def replayed (patch : Patch H) (fileChanges : List (FileChange H)) (parentId : H) :
    Action H (Patch H) := do
  let s ← read
  if patch.operationType = .batch then
    return .newBatch fileChanges [parentId] s.author patch.message s.clock
  else
    return .new patch.operationType patch.touchSet patch.targetPath patch.payload [parentId]
      s.author patch.message s.clock

def cherryPick (id : H) : Action H H := do
  let _ ← head.attempt
  let patch ← findPatch id
  require (patch.operationType ∉ [.identity, .merge, .create]) (.cannotCherryPick patch.operationType)
  let (branch, headId) ← head
  require (patch.operationType = .batch → patch.fileChanges.isSome) .invalidBatchPatch
  let picked ← replayed patch (patch.fileChanges.getD []) headId
  storePatch picked
  match ← (updateDag fun d => d.addPatch picked [headId]).attempt with
  | .error (.dag (.duplicatePatch _)) =>
    let headAncestors ← queryDag fun d => d.ancestors headId
    require (picked.id ∈ headAncestors) .patchNotReachable
    return picked.id
  | .error e => fail e
  | .ok newId =>
    let _ ← branchName branch
    let oldTree ← orEmpty snapshotHead
    moveHead branch newId
    syncWorkingTree oldTree
    return newId

/-! ### Rebase -/

/-- Depth-first from the stack, past what is visited or below the common ancestor. -/
def collectReplay (d : PatchDag H) (below : SortedSet H) (visited : SortedSet H) :
    List H → List (Patch H)
  | [] => []
  | id :: stack =>
    if _hseen : id ∈ visited ∨ id ∈ below then collectReplay d below visited stack
    else
      match _hpatch : d.getPatch id with
      | none => collectReplay d below (visited.insert id) stack
      | some patch =>
        patch :: collectReplay d below (visited.insert id)
          ((patch.parentIds.filter fun p => decide (p ∉ visited.insert id)).reverse ++ stack)
termination_by stack => ((d.nodes.map Prod.fst).countP fun j => decide (j ∉ visited), stack.length)
decreasing_by
  · exact Prod.Lex.right _ (Nat.lt_succ_self _)
  · exact Prod.Lex.right' _ (Successors.countP_insert_le ..) (Nat.lt_succ_self _)
  · refine Prod.Lex.left _ _ (Successors.countP_insert_lt (fun h => _hseen (.inl h)) ?_)
    by_contra hmissing
    rw [PatchDag.getPatch, PatchDag.getNode, Assoc.get_eq_none_iff.mpr hmissing] at _hpatch
    cases _hpatch

/-- Returns how many patches were replayed, and the tip. -/
def replayAll : List (Patch H) → Nat → H → Action H (Nat × H)
  | [], count, tip => return (count, tip)
  | patch :: rest, count, tip =>
    if patch.operationType ∈ [.merge, .identity, .create] then replayAll rest count tip
    else do
      let again ← replayed patch (patch.fileChanges.getD []) tip
      storePatch again
      let id ← updateDag fun d => d.addPatch again [tip]
      replayAll rest (count + 1) id

/-- Older first; at one time by id. -/
def ReplayBefore (a b : Patch H) : Prop :=
  a.timestamp < b.timestamp ∨ (a.timestamp = b.timestamp ∧ a.id ≤ b.id)

instance : DecidableRel (ReplayBefore (H := H)) :=
  fun a b => inferInstanceAs (Decidable (a.timestamp < b.timestamp ∨ _))

def rebaseOnto (branch : String) (headId targetTip lcaId : H) : Action H (Nat × H) := do
  let below ← queryDag fun d => d.ancestors lcaId
  let toReplay := (collectReplay (← read).dag below .empty [headId]).insertionSort ReplayBefore
  let _ ← branchName branch
  let oldTree ← orEmpty snapshotHead
  moveHead branch targetTip
  let (count, newTip) ← replayAll toReplay 0 targetTip
  moveHead branch newTip
  syncWorkingTree oldTree
  return (count, newTip)

def fastForward (branch : String) (targetTip : H) : Action H (Nat × H) := do
  let _ ← branchName branch
  let oldTree ← orEmpty snapshotHead
  moveHead branch targetTip
  syncWorkingTree oldTree
  return (0, targetTip)

/-- Returns how many patches were replayed, and the new tip. -/
def rebase (target : BranchName) : Action H (Nat × H) := do
  let (branch, headId) ← head
  let targetTip ← branchTarget target
  if headId = targetTip then return (0, headId)
  else
    match ← queryDag fun d => d.lca headId targetTip with
    | none => fail .noCommonAncestor
    | some lcaId =>
      if lcaId = headId then fastForward branch targetTip
      else rebaseOnto branch headId targetTip lcaId

end Suture.Repo
