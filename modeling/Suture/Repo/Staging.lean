import Suture.Repo.State

/-!
# Staging, commits and stashes

Whether a file's size and time are as last seen is up to the file system; the
operations that ask take the answer, `statHit`, as an argument.
-/

namespace Suture.Repo
set_option autoImplicit false
open Foundation Common Patches Dag Engine Program

variable {H : Type} [LinearOrder H] [Hashing H]

/-! ### Staging -/

def isTracked (path : String) : Action H Bool := do
  let s ← read
  match s.cachedHeadSnapshot with
  | some tree => return tree.contains path
  | none =>
    match ← head.attempt with
    | .ok (_, headId) => return fileTreeContains (← read) headId path
    | .error _ => return s.dag.nodes.any fun e => decide (e.2.patch.targetPath = some path)

def workingSetAdd (path : String) (status : FileStatus) : Action H Unit := do
  let path ← repoPath path
  modify fun s => { s with workingSet := s.workingSet.insert path.asStr status }

def add (path : String) : Action H Unit := do
  let _ ← repoPath path
  if (← read).files.contains path then
    if ← isTracked path then workingSetAdd path .modified else workingSetAdd path .added
  else if ← isTracked path then workingSetAdd path .deleted
  else fail (.io path)

def isStaged (e : String × FileStatus) : Bool :=
  match e.2 with
  | .added | .modified | .deleted => true
  | .clean | .untracked => false

def stagedFiles (s : Repository H) : List (String × FileStatus) := s.workingSet.entries.filter isStaged

/-! ### Commits -/

/-- The change that a staged file stands for, with its content stored. -/
def stageChange (e : String × FileStatus) : Action H (Option (FileChange H)) :=
  match e.2 with
  | .added => do
    let hash ← putBlob (← readFile e.1)
    return some ⟨.create, e.1, .hex hash⟩
  | .modified => do
    let hash ← putBlob (← readFile e.1)
    return some ⟨.modify, e.1, .hex hash⟩
  | .deleted => return some ⟨.delete, e.1, .empty⟩
  | .clean | .untracked => return none

/-- The tree stored for a commit: that of HEAD with the new patch. -/
def commitTree (headId patchId : H) (patch : Patch H) : Action H (FileTree H) := do
  if headId = Hashing.zero then orEmpty (snapshotUncached patchId)
  else
    match ← (snapshot headId).attempt with
    | .ok parentTree =>
      match applyPatch parentTree patch with
      | .ok tree => return tree
      | .error _ => return parentTree
    | .error _ => orEmpty (snapshotUncached patchId)

/-- The parents of the next commit; a merge that waits for it is over. -/
def takeParents (headId : H) : Action H (List H) := do
  let s ← read
  modify fun s => { s with pendingMergeParents := [], pendingRow := [] }
  return if s.pendingMergeParents = [] then [headId] else s.pendingMergeParents

def clearWorkingSet (paths : List String) : Action H Unit :=
  modify fun s => { s with workingSet := paths.foldl (fun m path => m.erase path) s.workingSet }

def setBranch (branch : String) (id : H) : Action H Unit := do
  let branch ← branchName branch
  updateDag fun d => d.updateBranch branch id
  storeBranch branch id

/-- The new commit's tree becomes the one of HEAD. -/
def recordCommit (branch : String) (patchId : H) (tree : FileTree H) : Action H Unit := do
  modify fun s => { s with headTreeHash := some (Hashing.contentHash tree.entries) }
  storeFileTree patchId tree
  modify fun s => { s with cachedHeadSnapshot := some tree }
  setHeadCache branch patchId

/-- Adds a commit and moves the branch to it. -/
def commitPatch (branch : String) (headId : H) (patch : Patch H) (parentIds : List H)
    (staged : List (String × FileStatus)) : Action H H := do
  let patchId ← updateDag fun d => d.addPatch patch parentIds
  storePatch patch
  clearWorkingSet (staged.map Prod.fst)
  setBranch branch patchId
  let tree ← commitTree headId patchId patch
  recordCommit branch patchId tree
  return patchId

def commitStaged (message branch : String) (headId : H) (parentIds : List H)
    (staged : List (String × FileStatus)) : Action H H := do
  let fileChanges ← mapEach stageChange staged
  let fileChanges := fileChanges.filterMap id
  require (fileChanges ≠ []) .nothingToCommit
  let s ← read
  let patch := Patch.newBatch fileChanges parentIds s.author message s.clock
  commitPatch branch headId patch parentIds staged

def commit (message : String) : Action H H := do
  let _ ← head.attempt
  let staged := stagedFiles (← read)
  require (staged ≠ []) .nothingToCommit
  let (branch, headId) ← head
  let parentIds ← takeParents headId
  commitStaged message branch headId parentIds staged

/-! ### Stashes -/

def hasUncommittedChanges (statHit : String → Bool) : Action H Bool := do
  if (← read).workingSet.entries.any isStaged then return true
  else
    match ← snapshotHead.attempt with
    | .error _ => return false
    | .ok headTree =>
      let s ← read
      return headTree.entries.any fun e =>
        match s.files.get e.1 with
        | none => true
        | some data => !statHit e.1 && decide (Hashing.fromData data ≠ e.2)

/-- A staged file in a stash: its content's hash, or nothing when it is gone. -/
def stashStaged (e : String × FileStatus) : Action H (Option (String × Option H)) :=
  match e.2 with
  | .added | .modified => do
    match ← (readFile e.1).attempt with
    | .ok data =>
      let hash ← putBlob data
      return some (e.1, some hash)
    | .error _ => return some (e.1, none)
  | .deleted => return some (e.1, none)
  | .clean | .untracked => return none

/-- A file of HEAD in a stash, if it has changed and is not staged. -/
def stashTracked (stagedPaths : List String) (e : String × H) :
    Action H (Option (String × Option H)) := do
  match ← (readFile e.1).attempt with
  | .ok data =>
    if Hashing.fromData data ≠ e.2 ∧ e.1 ∉ stagedPaths then
      let hash ← putBlob data
      return some (e.1, some hash)
    else return none
  | .error _ => return none

/-- The files of a tree, as they are stored. -/
def restoreTree (tree : FileTree H) : Action H Unit := do
  forEach (fun e => removeFile e.1) tree.entries
  forEach (fun e => do
    match ← (getBlob e.2).attempt with
    | .ok blob => writeFile e.1 blob
    | .error _ => return ()) tree.entries

/-- The first index without a stash. -/
def freeIndex (stashes : SortedMap Nat (Stash H)) : Nat :=
  ((List.range stashes.entries.length).find? fun i => !stashes.contains i).getD stashes.entries.length

def stashTree (stagedPaths : List String) : Action H (List (String × Option H)) := do
  match ← snapshotHead.attempt with
  | .ok headTree =>
    let tracked ← mapEach (stashTracked stagedPaths) headTree.entries
    return tracked.filterMap id
  | .error _ => return []

def restoreHead : Action H Unit := do
  match ← snapshotHead.attempt with
  | .ok headTree => restoreTree headTree
  | .error _ => return ()

def stashPush (statHit : String → Bool) (message : Option String) : Action H Nat := do
  let changed ← hasUncommittedChanges statHit
  require (changed = true) .nothingToCommit
  let staged ← mapEach stashStaged (← read).workingSet.entries
  let staged := staged.filterMap id
  let tracked ← stashTree (staged.map Prod.fst)
  let index := freeIndex (← read).stashes
  let (branch, headId) ← head
  let stash := ⟨message.getD "WIP", branch, headId, staged ++ tracked⟩
  modify fun s => { s with stashes := s.stashes.insert index stash, workingSet := .empty }
  restoreHead
  return index

def unstash (e : String × Option H) : Action H Unit :=
  match e.2 with
  | some hash => do
    let blob ← getBlob hash
    writeFile e.1 blob
    workingSetAdd e.1 .modified
  | none => do
    removeFile e.1
    workingSetAdd e.1 .deleted

def stashApply (index : Nat) : Action H Unit := do
  match (← read).stashes.get index with
  | none => fail (.stashNotFound index)
  | some stash =>
    let _ ← head.attempt
    forEach unstash stash.files

def stashDrop (index : Nat) : Action H Unit := do
  require ((← read).stashes.contains index = true) (.stashNotFound index)
  modify fun s => { s with stashes := s.stashes.erase index }

/-- The stash with the highest index. -/
def stashPop : Action H Unit := do
  match (← read).stashes.keys.getLast? with
  | none => fail .noStashes
  | some highest =>
    stashApply highest
    stashDrop highest

end Suture.Repo
