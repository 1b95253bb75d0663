import Suture.Repo.Trees

/-!
# Still actions

Actions on files, blobs, staging and stashes leave the DAG, the stored trees and HEAD
alone, so they keep a state valid.
-/

namespace Suture.Repo
set_option autoImplicit false
open Foundation Common Patches Dag Engine Program

variable {H : Type} [LinearOrder H] [Hashing H]

/-! ### Files -/

theorem contents_getBlob (hash : H) : Quiet (contents H) (getBlob hash) := by
  refine quiet_read.bind fun s => ?_
  split
  · exact quiet_pure _
  · exact quiet_fail _

theorem contents_readFile (path : String) : Quiet (contents H) (readFile path) := by
  refine quiet_read.bind fun s => ?_
  split
  · exact quiet_pure _
  · exact quiet_fail _

theorem contents_writeFile (path : String) (data : Bytes) :
    Quiet (contents H) (writeFile path data) := quiet_modify fun _ => ⟨rfl, .refl _⟩

theorem contents_removeFile (path : String) : Quiet (contents H) (removeFile path) :=
  quiet_modify fun _ => ⟨rfl, .refl _⟩

theorem contents_renameFile (oldPath newPath : String) :
    Quiet (contents H) (renameFile oldPath newPath) := by
  refine quiet_modify fun s => ?_
  split
  · exact ⟨rfl, .refl _⟩
  · exact ⟨rfl, .refl _⟩

/-- Only names that files may have are staged. -/
theorem still_workingSetAdd (path : String) (status : FileStatus) :
    Quiet (still H) (workingSetAdd path status) := by
  intro s
  unfold workingSetAdd repoPath
  cases hpath : RepoPath.new path with
  | error e => exact (still H).refl s
  | ok p =>
    refine ⟨rfl, rfl, .refl _, fun other hother => ?_⟩
    change (s.workingSet.insert p.asStr status).contains other = true at hother
    rw [SortedMap.contains_eq, SortedMap.get_insert] at hother
    split at hother
    · rename_i heq
      rw [heq, RepoPath.asStr_of_new hpath]
      exact .inr ⟨p, hpath⟩
    · exact .inl (by rwa [SortedMap.contains_eq])

theorem still_clearWorkingSet (paths : List String) : Quiet (still H) (clearWorkingSet paths) := by
  refine quiet_modify fun s => ⟨rfl, rfl, .refl _, fun path hpath => .inl ?_⟩
  obtain ⟨status, hstatus⟩ := Option.isSome_iff_exists.mp hpath
  exact Option.isSome_iff_exists.mpr ⟨status, (SortedMap.get_foldl_erase_eq_some.mp hstatus).1⟩

theorem still_emptyWorkingSet :
    Quiet (still H) (Program.modify fun s => { s with workingSet := .empty } : Action H Unit) :=
  quiet_modify fun _ => ⟨rfl, rfl, .refl _, nofun⟩

/-! ### The working tree -/

theorem contents_writeEntry (e : DiffEntry H) : Quiet (contents H) (writeEntry e) := by
  unfold writeEntry
  cases e.diffType with
  | added | modified =>
    dsimp only
    cases e.newHash with
    | some hash => exact (contents_getBlob hash).bind fun blob => contents_writeFile e.path blob
    | none => exact quiet_pure ()
  | deleted => exact contents_removeFile e.path
  | renamed oldPath _ => exact contents_renameFile oldPath e.path

theorem contents_removeMissing (oldTree newTree : FileTree H) :
    Quiet (contents H) (removeMissing oldTree newTree) := by
  refine Quiet.forEach (fun e => ?_) _
  split
  · exact quiet_pure ()
  · exact contents_removeFile e.1

/-- A file that is gone or elsewhere in the new tree. -/
def moveEntry (e : DiffEntry H) : Action H Unit :=
  match e.diffType with
  | .deleted => removeFile e.path
  | .renamed oldPath _ => renameFile oldPath e.path
  | .added | .modified => pure ()

/-- What `syncWorkingTree` does once it has the tree of HEAD. -/
def bringAlong (oldTree newTree : FileTree H) : Action H Unit := do
  let diffs := diffTrees oldTree newTree
  let blobs ← mapEach (fun e => do
    let blob ← getBlob e.2
    return (e.1, blob)) (changedBlobs diffs)
  forEach (fun b => writeFile b.1 b.2) blobs
  forEach moveEntry diffs
  removeMissing oldTree newTree

theorem contents_bringAlong (oldTree newTree : FileTree H) :
    Quiet (contents H) (bringAlong oldTree newTree) := by
  have hfetch : Quiet (contents H) (mapEach (fun e : String × H => do
      let blob ← getBlob e.2
      return (e.1, blob)) (changedBlobs (diffTrees oldTree newTree))) :=
    Quiet.mapEach (fun e : String × H => (contents_getBlob e.2).bind fun _ => quiet_pure _) _
  refine hfetch.bind fun blobs => ?_
  refine (Quiet.forEach (fun b : String × Bytes => contents_writeFile b.1 b.2) blobs).bind fun _ => ?_
  refine (Quiet.forEach (fun e => ?_) _).bind fun _ => contents_removeMissing oldTree newTree
  unfold moveEntry
  split
  · exact contents_removeFile _
  · exact contents_renameFile _ _
  · exact quiet_pure _
  · exact quiet_pure _

theorem still_stageDifference (e : DiffEntry H) : Quiet (still H) (stageDifference e) := by
  unfold stageDifference
  cases e.diffType with
  | added | modified => exact still_workingSetAdd e.path .modified
  | deleted => exact still_workingSetAdd e.path .deleted
  | renamed oldPath _ =>
    exact (still_workingSetAdd oldPath .deleted).bind fun _ => still_workingSetAdd e.path .added

theorem contents_restoreTree (tree : FileTree H) : Quiet (contents H) (restoreTree tree) := by
  refine (Quiet.forEach (fun e : String × H => contents_removeFile e.1) _).bind fun _ =>
    Quiet.forEach (fun e => ?_) _
  refine (contents_getBlob e.2).attempt.bind fun r => ?_
  cases r with
  | ok blob => exact contents_writeFile e.1 blob
  | error _ => exact quiet_pure _

theorem still_unstash (e : String × Option H) : Quiet (still H) (unstash e) := by
  unfold unstash
  cases e.2 with
  | some hash =>
    have hread := still_of_contents (contents_getBlob hash)
    refine hread.bind fun blob => ?_
    have hwrite := still_of_contents (contents_writeFile (H := H) e.1 blob)
    exact hwrite.bind fun _ => still_workingSetAdd e.1 .modified
  | none =>
    have hremove := still_of_contents (contents_removeFile (H := H) e.1)
    exact hremove.bind fun _ => still_workingSetAdd e.1 .deleted

theorem contents_mergeEntry (mergedTree : FileTree H) (e : DiffEntry H) :
    Quiet (contents H) (mergeEntry mergedTree e) := by
  unfold mergeEntry
  cases e.diffType with
  | added | modified =>
    dsimp only
    cases e.newHash with
    | some newHash =>
      exact (contents_getBlob newHash).bind fun blob => (contents_writeFile e.path blob).bind fun _ =>
        quiet_pure _
    | none => exact quiet_pure _
  | deleted => exact (contents_removeFile e.path).bind fun _ => quiet_pure _
  | renamed oldPath _ =>
    refine (contents_renameFile oldPath e.path).bind fun _ => ?_
    split
    · exact quiet_pure _
    · exact quiet_pure _

theorem contents_takeTheirs (p : MergeProgress H) (e : DiffEntry H) :
    Quiet (contents H) (takeTheirs p e) := by
  unfold takeTheirs
  dsimp only
  split
  · refine quiet_read.bind fun s => ?_
    split
    · exact (contents_writeFile _ _).bind fun _ => quiet_pure _
    · exact quiet_pure _
  · split
    · exact (contents_removeFile _).bind fun _ => quiet_pure _
    · exact quiet_pure _

theorem contents_contentOf (hash : Option H) : Quiet (contents H) (contentOf hash) := by
  cases hash with
  | some hash => exact ((contents_getBlob hash).bind fun _ => quiet_pure _).bind fun _ => quiet_pure _
  | none => exact quiet_pure _

theorem contents_writeConflictMarkers (sides : MergeSides H) (info : ConflictInfo H) :
    Quiet (contents H) (writeConflictMarkers sides info) := by
  refine (contents_contentOf _).bind fun ours => (contents_contentOf _).bind fun theirs =>
    (contents_contentOf _).bind fun base => ?_
  split <;> exact quiet_pure _

/-! ### Blobs and stashes -/

variable {F : Prop} {s : Repository H}

/-- Storing a blob fails, or leaves it under its hash with all the others. -/
theorem putBlob_cases (data : Bytes) (s : Repository H) :
    putBlob data s = (.error (.cas (Hashing.fromData data)), s) ∨
      ∃ blobs, putBlob data s = (.ok (Hashing.fromData data), { s with blobs := blobs }) ∧
        blobs.contains (Hashing.fromData data) = true ∧ BlobsGrow s.blobs blobs := by
  unfold putBlob
  rw [read_bind]
  split
  · rename_i hold
    exact .inr ⟨s.blobs, rfl, hold, .refl _⟩
  rename_i hnew
  split
  · exact .inl rfl
  · refine .inr ⟨_, rfl, ?_, fun hash old hget => ?_, fun hash new hget => ?_⟩
    · rw [SortedMap.contains_eq, SortedMap.get_insert, if_pos rfl]
      rfl
    · rw [SortedMap.get_insert, if_neg]
      · exact hget
      · rintro rfl
        exact hnew (Option.isSome_iff_exists.mpr ⟨old, hget⟩)
    · rw [SortedMap.get_insert] at hget
      split at hget
      · rename_i heq
        cases hget
        exact .inr heq
      · exact .inl hget

theorem contents_putBlob (data : Bytes) : Quiet (contents H) (putBlob data) := by
  intro s
  rcases putBlob_cases data s with hrun | ⟨blobs, hrun, -, hkept⟩
  · rw [hrun]
    exact (contents H).refl s
  · rw [hrun]
    exact ⟨rfl, hkept⟩

/-- The blob is there under its hash. -/
theorem safe_putBlob (hs : Valid F s) (data : Bytes) :
    Safe F (putBlob data) s fun hash t =>
      hash = Hashing.fromData data ∧ t.blobs.contains hash = true where
  inv := (safe_of_contents (contents_putBlob data) hs).inv
  le := (safe_of_contents (contents_putBlob data) hs).le
  post := fun hash h => by
    rcases putBlob_cases data s with hrun | ⟨blobs, hrun, hstored, -⟩
    · rw [hrun] at h
      cases h
    · rw [hrun] at h ⊢
      cases h
      exact ⟨rfl, hstored⟩

/-! ### Conflicts -/

theorem contents_mergeTexts (sides : MergeSides H) (conflicts : List (Conflict H)) (p : MergeProgress H)
    (path : String) : Quiet (contents H) (mergeTexts sides conflicts p path) := by
  refine quiet_read.bind fun s => ?_
  dsimp only
  split
  · exact (contents_putBlob _).bind fun _ => (contents_writeFile _ _).bind fun _ => quiet_pure _
  · exact (contents_putBlob _).bind fun _ => (contents_writeFile _ _).bind fun _ => quiet_pure _

theorem contents_mergeFile (sides : MergeSides H) (conflicts : List (Conflict H)) (paths : List String)
    (p : MergeProgress H) (e : DiffEntry H) :
    Quiet (contents H) (mergeFile sides conflicts paths p e) := by
  unfold mergeFile
  split
  · exact quiet_pure _
  split
  · exact contents_takeTheirs p e
  · exact contents_mergeTexts sides conflicts p e.path

theorem contents_mergeFiles (sides : MergeSides H) (conflicts : List (Conflict H))
    (paths : List String) (p : MergeProgress H) :
    Quiet (contents H) (mergeFiles sides conflicts paths p) := by
  unfold mergeFiles
  split
  · exact quiet_pure _
  · exact Quiet.foldEach (contents_mergeFile sides conflicts paths) _ _

theorem contents_markConflict (sides : MergeSides H) (p : MergeProgress H) (c : Conflict H) :
    Quiet (contents H) (markConflict sides p c) := by
  refine quiet_read.bind fun s => ?_
  split
  · exact quiet_pure _
  split
  · exact quiet_pure _
  · exact (contents_writeConflictMarkers sides _).bind fun _ => (contents_writeFile _ _).bind fun _ =>
      (contents_putBlob _).bind fun _ => quiet_pure _

/-! ### Staging -/

/-- A staged change is no move, and its content is stored. -/
theorem safe_stageChange (hs : Valid F s) {e : String × FileStatus} (hnamed : IsRepoPath e.1) :
    Safe F (stageChange e) s fun c t => ∀ change, c = some change → ChangeOk t.blobs change := by
  obtain ⟨path, status⟩ := e
  have hput : ∀ op, op ≠ .move → Safe F (do
      let hash ← putBlob (← readFile path)
      return some ⟨op, path, .hex hash⟩ : Action H (Option (FileChange H))) s fun c t =>
        ∀ change, c = some change → ChangeOk t.blobs change := fun op hop => by
    refine (safe_of_contents (contents_readFile path) hs).bind fun data t ht _ _ => ?_
    refine (safe_putBlob ht data).bind fun hash u hu _ hstored => ?_
    refine Discipline.safe_pure hu ?_
    rintro _ ⟨⟩
    refine ⟨hop, hnamed, ?_⟩
    rintro _ ⟨⟩
    exact hstored.2
  cases status with
  | added => exact hput .create nofun
  | modified => exact hput .modify nofun
  | deleted =>
    refine Discipline.safe_pure hs ?_
    rintro _ ⟨⟩
    exact ⟨nofun, hnamed, nofun⟩
  | clean | untracked => exact Discipline.safe_pure hs nofun

theorem contents_stashStaged (e : String × FileStatus) : Quiet (contents H) (stashStaged (H := H) e) := by
  unfold stashStaged
  cases e.2 with
  | added | modified =>
    refine (contents_readFile e.1).attempt.bind fun r => ?_
    cases r with
    | ok data => exact (contents_putBlob data).bind fun _ => quiet_pure _
    | error _ => exact quiet_pure _
  | deleted | clean | untracked => exact quiet_pure _

theorem contents_stashTracked (stagedPaths : List String) (e : String × H) :
    Quiet (contents H) (stashTracked stagedPaths e) := by
  refine (contents_readFile e.1).attempt.bind fun r => ?_
  cases r with
  | ok data =>
    dsimp only
    split
    · exact (contents_putBlob data).bind fun _ => quiet_pure _
    · exact quiet_pure _
  | error _ => exact quiet_pure _

end Suture.Repo
