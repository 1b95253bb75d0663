import Suture.Engine.LineMerge
import Suture.Repo.Operations

/-!
# Merges

A clean merge puts the differences of the source against the common ancestor into the
tree of HEAD. A conflicting one passes three times over what the source changed.
-/

namespace Suture.Repo
set_option autoImplicit false
open Foundation Common Patches Dag Engine Program

structure ConflictInfo (H : Type) where
  path : String
  ourPatchId : H
  theirPatchId : H
  ourContentHash : Option H
  theirContentHash : Option H
  baseContentHash : Option H
deriving DecidableEq

structure MergeExecutionResult (H : Type) where
  isClean : Bool
  mergedTree : FileTree H
  mergePatchId : Option H
  unresolvedConflicts : List (ConflictInfo H)
  patchesApplied : Nat
deriving DecidableEq

variable {H : Type} [LinearOrder H] [Hashing H]

local instance lawfulBEq : LawfulBEq H := inferInstance

/-! ### Clean merges -/

/-- One entry of the source's difference, on disk and in the merged tree. -/
def mergeEntry (mergedTree : FileTree H) (e : DiffEntry H) : Action H (FileTree H) :=
  match e.diffType with
  | .added | .modified =>
    match e.newHash with
    | some newHash => do
      let blob ← getBlob newHash
      writeFile e.path blob
      return mergedTree.insert e.path newHash
    | none => return mergedTree
  | .deleted => do
    removeFile e.path
    return mergedTree.erase e.path
  | .renamed oldPath _ => do
    renameFile oldPath e.path
    match e.oldHash with
    | some oldHash => return (mergedTree.erase oldPath).insert e.path oldHash
    | none => return mergedTree

def findLca (headId sourceTip : H) : Action H H := do
  match ← queryDag fun d => d.lca headId sourceTip with
  | some lcaId => return lcaId
  | none => fail .noCommonAncestor

def executeCleanMerge (headId sourceTip : H) (headBranch : String) (plan : MergeResult H) :
    Action H (MergeExecutionResult H) := do
  let headTree ← snapshot headId
  let sourceTree ← snapshot sourceTip
  let lcaId ← findLca headId sourceTip
  let lcaTree ← orEmpty (snapshot lcaId)
  let mergedTree ← foldEach mergeEntry headTree (diffTrees lcaTree sourceTree)
  let s ← read
  let message := "Merge branch '" ++ Hashing.toHex sourceTip ++ "' into " ++ headBranch
  let mergePatch := Patch.new .merge .empty none (.text .empty) [headId, sourceTip] s.author
    message s.clock
  storePatch mergePatch
  let mergeId ← updateDag fun d => d.addPatch mergePatch [headId, sourceTip]
  moveHead headBranch mergeId
  return ⟨true, mergedTree, some mergeId, [], plan.patchesBOnly.length⟩

/-! ### Conflicting merges -/

/-- The trees that a merge is made of, and the names in its conflict markers. -/
structure MergeSides (H : Type) where
  lcaTree : FileTree H
  headTree : FileTree H
  sourceTree : FileTree H
  headBranch : String
  sourceBranch : String

/-- The tree, the count and the open conflicts so far. -/
structure MergeProgress (H : Type) where
  mergedTree : FileTree H
  patchesApplied : Nat
  unresolved : List (ConflictInfo H)

/-- The addresses in conflict with a batch of the source. -/
def conflictingBatchPaths (d : PatchDag H) (conflicts : List (Conflict H)) : List String :=
  conflicts.flatMap fun c =>
    match d.getPatch c.patchBId with
    | some patchB => if patchB.isBatch then c.conflictAddresses else []
    | none => []

/-- A patch of the source without conflicts. -/
def applySourcePatch (conflicts : List (Conflict H)) (p : MergeProgress H) (id : H) :
    Action H (MergeProgress H) := do
  let s ← read
  match s.dag.getPatch id with
  | none => return p
  | some patch =>
    if patch.isIdentity ∨ patch.operationType = .merge then return p
    else if id ∈ conflicts.flatMap fun c => [c.patchAId, c.patchBId] then return p
    else
      match patch.targetPath with
      | none => return { p with patchesApplied := p.patchesApplied + 1 }
      | some path =>
        match patch.operationType with
        | .create | .modify =>
          match (resolvePayloadToHash patch).bind fun hash =>
              (s.blobs.get hash).map fun blob => (hash, blob) with
          | some (hash, blob) =>
            writeFile path blob
            return { p with
              mergedTree := p.mergedTree.insert path hash
              patchesApplied := p.patchesApplied + 1 }
          | none => return { p with patchesApplied := p.patchesApplied + 1 }
        | .delete =>
          removeFile path
          return { p with
            mergedTree := p.mergedTree.erase path
            patchesApplied := p.patchesApplied + 1 }
        | _ => return { p with patchesApplied := p.patchesApplied + 1 }

def utf8 (data : Bytes) : Option String := String.fromUTF8? ⟨data.toArray⟩

def encode (text : String) : Bytes := text.toUTF8.toList

/-- The text of a blob, if it is there. -/
def lossyContent (s : Repository H) (hash : Option H) : Option String :=
  (hash.bind s.blobs.get).map fun blob => (utf8 blob).getD (Hashing.utf8Lossy (H := H) blob)

/-- A changed file that only the source changed. -/
def takeTheirs (p : MergeProgress H) (e : DiffEntry H) : Action H (MergeProgress H) := do
  let applied := p.patchesApplied + 1
  match e.newHash with
  | some newHash =>
    match (← read).blobs.get newHash with
    | some blob =>
      writeFile e.path blob
      return { p with mergedTree := p.mergedTree.insert e.path newHash, patchesApplied := applied }
    | none => return { p with patchesApplied := applied }
  | none =>
    if e.diffType = .deleted then
      removeFile e.path
      return { p with mergedTree := p.mergedTree.erase e.path, patchesApplied := applied }
    else return { p with patchesApplied := applied }

def markedLines (lines : List String) : String := String.join (lines.map (· ++ "\n"))

/-- A file that both sides changed. -/
def mergeTexts (sides : MergeSides H) (conflicts : List (Conflict H)) (p : MergeProgress H)
    (path : String) : Action H (MergeProgress H) := do
  let s ← read
  let baseHash := sides.lcaTree.get path
  let oursHash := sides.headTree.get path
  let theirsHash := sides.sourceTree.get path
  match threeWayMerge (lossyContent s baseHash) ((lossyContent s oursHash).getD "")
      ((lossyContent s theirsHash).getD "") sides.headBranch sides.sourceBranch with
  | .ok content =>
    let hash ← putBlob (encode content)
    writeFile path (encode content)
    return { p with
      mergedTree := p.mergedTree.insert path hash
      patchesApplied := p.patchesApplied + 1 }
  | .error conflictLines =>
    let content := encode (markedLines conflictLines)
    let hash ← putBlob content
    writeFile path content
    let info := ⟨path, (conflicts.head?.map (·.patchAId)).getD Hashing.zero,
      (conflicts.head?.map (·.patchBId)).getD Hashing.zero, oursHash, theirsHash, baseHash⟩
    return { p with
      mergedTree := p.mergedTree.insert path hash
      unresolved := p.unresolved ++ [info] }

def mergeFile (sides : MergeSides H) (conflicts : List (Conflict H)) (paths : List String)
    (p : MergeProgress H) (e : DiffEntry H) : Action H (MergeProgress H) :=
  if e.path ∉ paths then return p
  else if sides.lcaTree.get e.path = sides.headTree.get e.path then takeTheirs p e
  else mergeTexts sides conflicts p e.path

/-- The files that batches of the source conflict on. -/
def mergeFiles (sides : MergeSides H) (conflicts : List (Conflict H)) (paths : List String)
    (p : MergeProgress H) : Action H (MergeProgress H) :=
  if paths = [] then return p
  else foldEach (mergeFile sides conflicts paths) p (diffTrees sides.lcaTree sides.sourceTree)

def buildConflictInfo (d : PatchDag H) (sides : MergeSides H) (c : Conflict H) :
    Option (ConflictInfo H) := do
  let patchA ← d.getPatch c.patchAId
  let patchB ← d.getPatch c.patchBId
  let path ← (patchA.targetPath.or patchB.targetPath).or c.conflictAddresses.head?
  return ⟨path, c.patchAId, c.patchBId, sides.headTree.get path, sides.sourceTree.get path,
    sides.lcaTree.get path⟩

/-- The text of a stored file, empty if it is not UTF-8. -/
def strictContent (hash : H) : Action H String := do
  let blob ← getBlob hash
  return (utf8 blob).getD ""

def contentOf : Option H → Action H (Option String)
  | some hash => do
    let content ← strictContent hash
    return some content
  | none => return none

def writeConflictMarkers (sides : MergeSides H) (info : ConflictInfo H) : Action H String := do
  let ours ← contentOf info.ourContentHash
  let theirs ← contentOf info.theirContentHash
  let base ← contentOf info.baseContentHash
  match threeWayMerge base (ours.getD "") (theirs.getD "") sides.headBranch sides.sourceBranch with
  | .ok content => return content
  | .error conflictLines => return markedLines conflictLines

/-- A conflict with a patch of the source that is no batch. -/
def markConflict (sides : MergeSides H) (p : MergeProgress H) (c : Conflict H) :
    Action H (MergeProgress H) := do
  let s ← read
  if (s.dag.getPatch c.patchBId).any Patch.isBatch then return p
  else
    match buildConflictInfo s.dag sides c with
    | none => return p
    | some info =>
      let content ← writeConflictMarkers sides info
      writeFile info.path (encode content)
      let hash ← putBlob (encode content)
      return { p with
        mergedTree := p.mergedTree.insert info.path hash
        unresolved := p.unresolved ++ [info] }

def executeConflictingMerge (headId sourceTip : H) (sourceBranch headBranch : String)
    (plan : MergeResult H) : Action H (MergeExecutionResult H) := do
  let headTree ← snapshot headId
  let sourceTree ← snapshot sourceTip
  let lcaId ← findLca headId sourceTip
  let lcaTree ← orEmpty (snapshot lcaId)
  let sides : MergeSides H := ⟨lcaTree, headTree, sourceTree, headBranch, sourceBranch⟩
  let paths := conflictingBatchPaths (← read).dag plan.conflicts
  let p ← foldEach (applySourcePatch plan.conflicts) ⟨headTree, 0, []⟩ plan.patchesBOnly
  let p ← mergeFiles sides plan.conflicts paths p
  let p ← foldEach (markConflict sides) p plan.conflicts
  modify fun s => { s with
    pendingMergeParents := [headId, sourceTip], pendingRow := [headId, sourceTip] }
  return ⟨false, p.mergedTree, none, p.unresolved, p.patchesApplied⟩

/-! ### The merge -/

/-- Nothing to merge: the tree of HEAD. -/
def unchangedMerge : Action H (MergeExecutionResult H) := do
  let tree ← snapshotHead
  return ⟨true, tree, none, [], 0⟩

def executeMerge (source : BranchName) : Action H (MergeExecutionResult H) := do
  require ((← read).pendingMergeParents = []) .mergeInProgress
  let (headBranch, headId) ← head
  let sourceTip ← branchTarget source
  let headName ← branchName headBranch
  let plan ← updateDag fun d => d.mergeBranches headName source
  if headId = sourceTip then unchangedMerge
  else if plan.patchesBOnly = [] ∧ plan.patchesAOnly = [] then unchangedMerge
  else if plan.isClean then executeCleanMerge headId sourceTip headBranch plan
  else executeConflictingMerge headId sourceTip source.asStr headBranch plan

/-! ### The preview -/

/-- One entry of the source's difference in the previewed tree. -/
def previewEntry (mergedTree : FileTree H) (e : DiffEntry H) : FileTree H :=
  match e.diffType with
  | .added | .modified =>
    match e.newHash with
    | some newHash => mergedTree.insert e.path newHash
    | none => mergedTree
  | .deleted => mergedTree.erase e.path
  | .renamed oldPath _ =>
    match e.oldHash with
    | some oldHash => (mergedTree.erase oldPath).insert e.path oldHash
    | none => mergedTree

def previewCleanMerge (headId sourceTip : H) (plan : MergeResult H) :
    Action H (MergeExecutionResult H) := do
  let sourceTree ← orEmpty (snapshot sourceTip)
  let lcaId ← findLca headId sourceTip
  let lcaTree ← orEmpty (snapshot lcaId)
  let headTree ← orEmpty snapshotHead
  let mergedTree := (diffTrees lcaTree sourceTree).foldl previewEntry headTree
  return ⟨true, mergedTree, none, [], plan.patchesBOnly.length⟩

/-- A path that both sides changed, each in its own way. -/
def previewConflict (headId sourceTip : H) (lcaTree headTree sourceTree : FileTree H)
    (path : String) : Option (ConflictInfo H) :=
  let lcaHash := lcaTree.get path
  let oursHash := headTree.get path
  let theirsHash := sourceTree.get path
  if oursHash = theirsHash then none
  else if oursHash = lcaHash ∨ theirsHash = lcaHash then none
  else some ⟨path, headId, sourceTip, oursHash, theirsHash, lcaHash⟩

/-- The source goes through the paths in no particular order. -/
def previewConflictingMerge (headId sourceTip : H) (plan : MergeResult H) :
    Action H (MergeExecutionResult H) := do
  let headTree ← orEmpty (snapshot headId)
  let sourceTree ← orEmpty (snapshot sourceTip)
  let lcaId ← findLca headId sourceTip
  let lcaTree ← orEmpty (snapshot lcaId)
  let allPaths := (headTree.keys ++ sourceTree.keys ++ lcaTree.keys).dedup
  let unresolved := allPaths.filterMap (previewConflict headId sourceTip lcaTree headTree sourceTree)
  let mergedTree ← snapshotHead
  return ⟨false, mergedTree, none, unresolved, plan.patchesBOnly.length⟩

def previewMerge (source : BranchName) : Action H (MergeExecutionResult H) := do
  require ((← read).pendingMergeParents = []) .mergeInProgress
  let (headBranch, headId) ← head
  let sourceTip ← branchTarget source
  let headName ← branchName headBranch
  let plan ← updateDag fun d => d.mergeBranches headName source
  if headId = sourceTip then unchangedMerge
  else if plan.patchesBOnly = [] ∧ plan.patchesAOnly = [] then unchangedMerge
  else if plan.isClean then previewCleanMerge headId sourceTip plan
  else previewConflictingMerge headId sourceTip plan

end Suture.Repo
