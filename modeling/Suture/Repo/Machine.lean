import Suture.Foundation.Run
import Suture.Repo.Merging

/-!
# Runs of a repository

Each operation is an event, whether it succeeds or fails. So are edits of the files
from outside, the clock, a blob store that refuses to be written, and what other callers
do with `dag_mut`, `head` and `snapshot_head`.
-/

namespace Suture.Repo
set_option autoImplicit false
open Foundation Common Patches Dag Engine Program

inductive Event (H : Type) where
  | editFile (path : String) (data : Bytes)
  | deleteFile (path : String)
  | tick (now : Nat)
  | lockBlobs (locked : Bool)
  | moveBranch (branch : BranchName) (target : H)
  | readHead
  | readHeadTree
  | add (path : String)
  | commit (message : String)
  | createBranch (branch : BranchName) (target : Option (Ref H))
  | checkout (statHit : String → Bool) (target : Ref H)
  | executeMerge (source : BranchName)
  | reset (target : Ref H) (mode : ResetMode)
  | revert (id : H) (message : Option String)
  | cherryPick (id : H)
  | squash (count : Nat) (message : String)
  | rebase (target : BranchName)
  | stashPush (statHit : String → Bool) (message : Option String)
  | stashApply (index : Nat)
  | stashPop
  | stashDrop (index : Nat)

variable {H : Type} [LinearOrder H] [Hashing H]

def init (author : String) (now : Nat) (files : SortedMap String Bytes) : Repository H :=
  let rootPatch := Patch.new .create .empty none (.text .empty) [] author "Initial commit" now
  let dag := ((PatchDag.new.addPatch rootPatch []).2.createBranch .main rootPatch.id).2
  { dag := dag, fileTrees := .empty, workingSet := .empty, headBranch := none, detached := false,
    detachedHead := none, headTreeHash := none, stashes := .empty, author := author,
    pendingMergeParents := [], cachedHeadSnapshot := none, cachedHeadId := none,
    cachedHeadBranch := none, files := files, blobs := .empty, blobsLocked := false,
    patchRows := SortedMap.empty.insert rootPatch.id rootPatch,
    branchRows := SortedMap.empty.insert "main" rootPatch.id, pendingRow := [], tags := .empty,
    clock := now }

namespace Repository

def next (s : Repository H) : Event H → Repository H
  | .editFile path data => (writeFile path data s).2
  | .deleteFile path => (removeFile path s).2
  | .tick now => { s with clock := now }
  | .lockBlobs locked => { s with blobsLocked := locked }
  | .moveBranch branch target => (updateDag (fun d => d.updateBranch branch target) s).2
  | .readHead => (head s).2
  | .readHeadTree => (snapshotHead s).2
  | .add path => (add path s).2
  | .commit message => (commit message s).2
  | .createBranch branch target => (createBranch branch target s).2
  | .checkout statHit target => (checkout statHit target s).2
  | .executeMerge source => (executeMerge source s).2
  | .reset target mode => (reset target mode s).2
  | .revert id message => (revert id message s).2
  | .cherryPick id => (cherryPick id s).2
  | .squash count message => (squash count message s).2
  | .rebase target => (rebase target s).2
  | .stashPush statHit message => (stashPush statHit message s).2
  | .stashApply index => (stashApply index s).2
  | .stashPop => (stashPop s).2
  | .stashDrop index => (stashDrop index s).2

end Repository

/-! ### A hash to run repositories with -/

section Sample

/-- The numbers as digits; no two inputs of the runs below have the same hash. -/
def digest (words : List Nat) : Hash :=
  Fin.ofNat (2 ^ 256) (words.foldl (fun n w => n * 1000003 + w + 1) 7)

def stringWords (s : String) : List Nat := s.length :: s.toList.map Char.toNat

def textWords : Text Hash → List Nat
  | .empty => [0]
  | .hex hash => [1, hash.val]
  | .utf8 text => 2 :: stringWords text
  | .binary data => 3 :: data.map UInt8.toNat

def payloadWords : Payload Hash → List Nat
  | .text text => textWords text
  | .changes changes =>
    changes.flatMap fun c => c.op.ctorIdx :: (stringWords c.path ++ textWords c.payload)

instance sampleHashing : Hashing Hash where
  zero := 0
  fromData data := digest (0 :: data.map UInt8.toNat)
  toHex hash := String.ofList (Nat.toDigits 16 hash.val)
  utf8Lossy data :=
    String.ofList (data.map fun b => if b < 128 then Char.ofNat b.toNat else '\ufffd')
  changesJson _ := "[]"
  computeId p := digest (1 :: p.operationType.ctorIdx :: (p.parentIds.map Fin.val ++
    (p.touchSet.elems.flatMap stringWords ++ (p.targetPath.toList.flatMap stringWords ++
      (payloadWords p.payload ++ (stringWords p.author ++ stringWords p.message))))))
  contentHash entries := digest (2 :: entries.flatMap fun e => stringWords e.1 ++ [e.2.val])

/-- A repository with no files, after these events. -/
def sample (events : List (Event Hash)) : Repository Hash :=
  events.foldl Repository.next (init "ann" 0 .empty)

end Sample
end Suture.Repo
