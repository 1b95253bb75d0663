import Suture.Dag.Graph
import Suture.Engine.TreeDiff
import Suture.Foundation.Program

/-!
# The repository

The state of a repository that is not a worktree: the DAG, the caches, the files, the
blobs, and the tables and settings of the metadata store.
-/

namespace Suture.Repo
set_option autoImplicit false
open Foundation Common Patches Dag Engine

abbrev Bytes := List UInt8

inductive RepoError (H : Type) where
  | io (path : String)
  | cas (hash : H)
  | name (e : CommonError)
  | dag (e : DagError H)
  | apply (e : ApplyError)
  | nothingToCommit
  | branchNotFound (name : String)
  | patchNotFound (id : H)
  | detachedHeadNoCommit
  | noHeadBranch
  | headAncestorNotFound
  | headHasNoParent
  | mergeInProgress
  | noCommonAncestor
  | noStashes
  | stashNotFound (index : Nat)
  | invalidBatchPatch
  | emptyBatchRevert
  | nothingToRevert
  | cannotRevertDelete
  | cannotRevertPatch (op : OperationType)
  | notEnoughPatchesToSquash (count : Nat)
  | notEnoughPatchesOnBranch (found count : Nat)
  | cannotSquashRoot
  | patchComposition
  | cannotCherryPick (op : OperationType)
  | patchNotReachable
  | cannotDeleteCurrentBranch (name : String)
  | tagNotFound (name : String)
  | command (context : String) (cause : RepoError H)
  | message (text : String)
deriving DecidableEq, Repr

structure Stash (H : Type) where
  message : String
  headBranch : String
  headId : H
  files : List (String × Option H)
deriving DecidableEq

structure Repository (H : Type) [LinearOrder H] where
  dag : PatchDag H
  fileTrees : SortedMap H (FileTree H)
  workingSet : SortedMap String FileStatus
  headBranch : Option String
  detached : Bool
  detachedHead : Option H
  headTreeHash : Option H
  stashes : SortedMap Nat (Stash H)
  author : String
  pendingMergeParents : List H
  cachedHeadSnapshot : Option (FileTree H)
  cachedHeadId : Option H
  cachedHeadBranch : Option String
  files : SortedMap String Bytes
  blobs : SortedMap H Bytes
  blobsLocked : Bool
  patchRows : SortedMap H (Patch H)
  branchRows : SortedMap String H
  pendingRow : List H
  tags : SortedMap String H
  clock : Nat
deriving DecidableEq

/-- What an operation on the repository does. -/
abbrev Action (H : Type) [LinearOrder H] (α : Type) := Program (Repository H) (RepoError H) α

section Basic
variable {H : Type} [LinearOrder H]
open Program

/-- A change of the DAG that may be refused. -/
def updateDag {α : Type} (f : PatchDag H → Except (DagError H) α × PatchDag H) : Action H α := do
  let s ← read
  modify fun s => { s with dag := (f s.dag).2 }
  ofExcept ((f s.dag).1.mapError .dag)

/-- A question to the DAG; it may fill the ancestor cache. -/
def queryDag {α : Type} (f : PatchDag H → α × PatchDag H) : Action H α := do
  let s ← read
  modify fun s => { s with dag := (f s.dag).2 }
  return (f s.dag).1

def branchName (name : String) : Action H BranchName :=
  ofExcept ((BranchName.new name).mapError .name)

def repoPath (path : String) : Action H RepoPath := ofExcept ((RepoPath.new path).mapError .name)

/-! ### Rows of the metadata store -/

def storePatch (patch : Patch H) : Action H Unit :=
  modify fun s => { s with patchRows := s.patchRows.insert patch.id patch }

def storeBranch (name : BranchName) (target : H) : Action H Unit :=
  modify fun s => { s with branchRows := s.branchRows.insert name.asStr target }

/-! ### The branch that HEAD names -/

/-- The tip of the branch in the `head_branch` setting. -/
def headBranchTip : Action H (String × H) := do
  let s ← read
  let name := s.headBranch.getD "main"
  let branch ← branchName name
  match s.dag.getBranch branch with
  | none => fail (.branchNotFound name)
  | some targetId => return (name, targetId)

def setHeadCache (branch : String) (id : H) : Action H Unit :=
  modify fun s => { s with cachedHeadBranch := some branch, cachedHeadId := some id }

/-- HEAD when it is not in the cache. -/
def lookUpHead : Action H (String × H) := do
  let s ← read
  if s.detached then
    match s.detachedHead with
    | none => fail .detachedHeadNoCommit
    | some patchId =>
      setHeadCache "(detached)" patchId
      return ("(detached)", patchId)
  else
    let (branch, targetId) ← headBranchTip
    setHeadCache branch targetId
    return (branch, targetId)

def head : Action H (String × H) := do
  let s ← read
  match s.cachedHeadId, s.cachedHeadBranch with
  | some cached, some branch => return (branch, cached)
  | _, _ => lookUpHead

def invalidateHeadCache : Action H Unit :=
  modify fun s => { s with
    cachedHeadSnapshot := none, cachedHeadId := none, cachedHeadBranch := none, headTreeHash := none }

/-! ### Blobs and files -/

def getBlob (hash : H) : Action H Bytes := do
  match (← read).blobs.get hash with
  | some data => return data
  | none => fail (.cas hash)

def readFile (path : String) : Action H Bytes := do
  match (← read).files.get path with
  | some data => return data
  | none => fail (.io path)

def writeFile (path : String) (data : Bytes) : Action H Unit :=
  modify fun s => { s with files := s.files.insert path data }

/-- Removes a file if it is there. -/
def removeFile (path : String) : Action H Unit :=
  modify fun s => { s with files := s.files.erase path }

/-- Moves a file over the new path, if it is there. -/
def renameFile (oldPath newPath : String) : Action H Unit :=
  modify fun s =>
    match s.files.get oldPath with
    | some data => { s with files := (s.files.erase oldPath).insert newPath data }
    | none => s

variable [Hashing H]

/-- Stores a blob under its hash; one that is there stays. It fails if the store cannot
be written. -/
def putBlob (data : Bytes) : Action H H := do
  let hash := Hashing.fromData data
  let s ← read
  if s.blobs.contains hash then return hash
  else if s.blobsLocked then fail (.cas hash)
  else
    modify fun s => { s with blobs := s.blobs.insert hash data }
    return hash

/-! ### Trees -/

/-- A stored tree without files has no rows, so it is not found. -/
def loadFileTree (s : Repository H) (id : H) : Option (FileTree H) :=
  match s.fileTrees.get id with
  | some tree => if tree.entries = [] then none else some tree
  | none => none

def fileTreeContains (s : Repository H) (id : H) (path : String) : Bool :=
  match s.fileTrees.get id with
  | some tree => tree.contains path
  | none => false

def storeFileTree (id : H) (tree : FileTree H) : Action H Unit :=
  modify fun s => { s with fileTrees := s.fileTrees.insert id tree }

def snapshotUncached (id : H) : Action H (FileTree H) := do
  let chain ← queryDag fun d => d.patchChainFull id
  let s ← read
  ofExcept ((applyPatchChain (chain.filterMap s.dag.getPatch)).mapError .apply)

def snapshot (id : H) : Action H (FileTree H) := do
  match loadFileTree (← read) id with
  | some tree => return tree
  | none =>
    let tree ← snapshotUncached id
    storeFileTree id tree
    return tree

def snapshotFresh (id : H) : Action H (FileTree H) := snapshotUncached id

/-- Replays HEAD, for want of a stored tree that matches its hash. -/
def recomputeHead (headId : H) : Action H (FileTree H) := do
  let tree ← snapshotUncached headId
  modify fun s => { s with headTreeHash := some (Hashing.contentHash tree.entries) }
  storeFileTree headId tree
  modify fun s => { s with cachedHeadSnapshot := some tree }
  return tree

def snapshotHead : Action H (FileTree H) := do
  let (branch, headId) ← headBranchTip
  setHeadCache branch headId
  let s ← read
  match s.cachedHeadSnapshot with
  | some tree => return tree
  | none =>
    match loadFileTree s headId with
    | none => recomputeHead headId
    | some tree =>
      let treeHash := Hashing.contentHash tree.entries
      if s.headTreeHash = none ∨ s.headTreeHash = some treeHash then
        modify fun s => { s with headTreeHash := some treeHash, cachedHeadSnapshot := some tree }
        return tree
      else recomputeHead headId

/-- `unwrap_or_else(FileTree::empty)`. -/
def orEmpty (m : Action H (FileTree H)) : Action H (FileTree H) := do
  match ← m.attempt with
  | .ok tree => return tree
  | .error _ => return .empty

end Basic
end Suture.Repo
