import Suture.Foundation.Rows
import Suture.Wire.Tables

/-!
# Backup and restore

A backup is a copy of the whole database. Restoring writes the repositories with their
patches, branches and blobs into a fresh database, one row after the other; the other
tables stay empty.
-/

namespace Suture.Wire
set_option autoImplicit false
open Foundation

/-! ### What the storage writes -/

namespace Database

def fresh : Database :=
  ⟨.empty, .empty, .empty, .empty, .empty, .empty, .empty, .empty, .empty, .empty, .empty, .empty,
    .empty, .empty, .empty, .empty, .empty, .empty⟩

def ensureRepo (d : Database) (repoId : String) : Database :=
  if d.repos.contains repoId then d else { d with repos := d.repos.insert repoId "private" }

def protectBranch (d : Database) (repoId name : String) : Database :=
  { d with branchProtection := d.branchProtection.insert (key repoId name) }

/-- Says whether the patch is new. -/
def insertPatch (d : Database) (repoId : String) (patch : PatchProto) : Bool × Database :=
  if d.patches.contains (key repoId patch.id.value) then (false, d)
  else
    (true, { d with patches := d.patches.insert (key repoId patch.id.value) (.ofProto patch) })

def setBranch (d : Database) (repoId name target : String) : Database :=
  { d with branches := d.branches.insert (key repoId name) target }

def storeBlob (limits : Limits) (d : Database) (repoId hash : String) (data : Bytes) :
    Except StorageError Database :=
  if data.length > limits.maxBlobSize then .error (.blobTooLarge limits.maxBlobSize)
  else .ok { d with blobs := d.blobs.insert (key repoId hash) data }

end Database

/-! ### Backup -/

structure BackupManifest where
  version : Nat
  timestamp : String
  repoCount : Nat
  patchCount : Nat
  blobCount : Nat
  sutureHubVersion : String
deriving DecidableEq, Repr

/-- The manifest is as it is parsed. -/
structure BackupDir where
  manifest : Option (Except String BackupManifest)
  metadataDb : Option Database

inductive BackupError where
  | alreadyExists (path : String)
  | invalidManifest (reason : String)
  | storage (e : StorageError)
deriving DecidableEq, Repr

def BackupError.text : BackupError → String
  | .alreadyExists path => "backup directory already exists: " ++ path
  | .invalidManifest reason => "invalid backup manifest: " ++ reason
  | .storage e => "storage error: " ++ e.text

def backupVersion : Nat := 1

def buildManifest (now version : String) (d : Database) : BackupManifest where
  version := backupVersion
  timestamp := now
  repoCount := d.repos.entries.length
  patchCount := d.patches.entries.length
  blobCount := d.blobs.entries.length
  sutureHubVersion := version

def createBackup (now version outputDir : String) (existing : Option BackupDir) (d : Database) :
    Except BackupError (BackupManifest × BackupDir) :=
  match existing with
  | some _ => .error (.alreadyExists outputDir)
  | none =>
    let manifest := buildManifest now version d
    .ok (manifest, ⟨some (.ok manifest), some d⟩)

/-! ### Restore -/

structure RestoreStats where
  reposRestored : Nat
  patchesRestored : Nat
  blobsRestored : Nat
deriving DecidableEq, Repr

def restorePatch (repoId : String) (s : RestoreStats × Database) (patch : PatchProto) :
    RestoreStats × Database :=
  let (inserted, d) := s.2.insertPatch repoId patch
  (if inserted then { s.1 with patchesRestored := s.1.patchesRestored + 1 } else s.1, d)

def restoreBlobs (limits : Limits) (repoId : String) :
    List (String × Bytes) → RestoreStats × Database → Except StorageError RestoreStats × Database
  | [], (stats, d) => (.ok stats, d)
  | (hash, data) :: rest, (stats, d) =>
    match d.storeBlob limits repoId hash data with
    | .error e => (.error e, d)
    | .ok d =>
      restoreBlobs limits repoId rest ({ stats with blobsRestored := stats.blobsRestored + 1 }, d)

def restoreRepo (limits : Limits) (backup : Database) (repoId : String) (s : RestoreStats × Database) :
    Except StorageError RestoreStats × Database :=
  let stats := { s.1 with reposRestored := s.1.reposRestored + 1 }
  let (stats, d) :=
    (backup.getAllPatchesUnbounded repoId).foldl (restorePatch repoId) (stats, s.2.ensureRepo repoId)
  let d := (rowsOf backup.branches repoId).foldl (fun d row => d.setBranch repoId row.1 row.2) d
  restoreBlobs limits repoId (rowsOf backup.blobs repoId) (stats, d)

def restoreRepos (limits : Limits) (backup : Database) :
    List String → RestoreStats × Database → Except StorageError RestoreStats × Database
  | [], (stats, d) => (.ok stats, d)
  | repoId :: rest, s =>
    match restoreRepo limits backup repoId s with
    | (.error e, d) => (.error e, d)
    | (.ok stats, d) => restoreRepos limits backup rest (stats, d)

def restoreFromDb (limits : Limits) (d backup : Database) :
    Except StorageError RestoreStats × Database :=
  restoreRepos limits backup backup.listRepos (⟨0, 0, 0⟩, d)

def restoreBackup (limits : Limits) (d : Database) (dir : BackupDir) :
    Except BackupError RestoreStats × Database :=
  match dir.manifest with
  | none => (.error (.invalidManifest "manifest.json not found in backup directory"), d)
  | some (.error e) => (.error (.invalidManifest ("invalid manifest JSON: " ++ e)), d)
  | some (.ok manifest) =>
    if manifest.version ≠ backupVersion then
      (.error (.invalidManifest ("unsupported backup version " ++ toString manifest.version ++
        " (expected " ++ toString backupVersion ++ ")")), d)
    else
      match dir.metadataDb with
      | none => (.error (.invalidManifest "metadata.db not found in backup directory"), d)
      | some backup =>
        match restoreFromDb limits d backup with
        | (.error e, d) => (.error (.storage e), d)
        | (.ok stats, d) =>
          if stats.reposRestored ≠ manifest.repoCount then
            (.error (.invalidManifest ("repo count mismatch: manifest says " ++
              toString manifest.repoCount ++ ", but restored " ++ toString stats.reposRestored)), d)
          else (.ok stats, d)

/-! ### What a restore writes -/

section Keyed
variable {α : Type}

def keyed (repoId : String) (rows : List (String × α)) : List (Key × α) :=
  rows.map fun row => (key repoId row.1, row.2)

theorem mem_keyed_rowsOf {table : SortedMap Key α} {repoId : String} {k : Key} {row : α} :
    (k, row) ∈ keyed repoId (rowsOf table repoId) ↔ (ofLex k).1 = repoId ∧ table.get k = some row := by
  unfold keyed
  rw [List.mem_map]
  constructor
  · rintro ⟨⟨name, row'⟩, hrow, heq⟩
    cases heq
    exact ⟨rfl, mem_rowsOf.mp hrow⟩
  · rintro ⟨rfl, hget⟩
    exact ⟨((ofLex k).2, row), mem_rowsOf.mpr hget, rfl⟩

/-- The rows of one repository come over those that were there. -/
theorem get_putRows_rowsOf (m table : SortedMap Key α) (repoId : String) (k : Key) :
    (m.putRows (keyed repoId (rowsOf table repoId))).get k =
      if (ofLex k).1 = repoId then (table.get k).or (m.get k) else m.get k := by
  have hagree : ∀ row ∈ keyed repoId (rowsOf table repoId), table.get row.1 = some row.2 :=
    fun row hrow => (mem_keyed_rowsOf.mp hrow).2
  rw [SortedMap.get_putRows, SortedMap.lastRow_of_agree hagree]
  by_cases hrepo : (ofLex k).1 = repoId
  · rw [if_pos hrepo]
    cases hget : table.get k with
    | none => rw [ite_self]
    | some row =>
      rw [if_pos]
      exact List.mem_map.mpr ⟨(k, row), mem_keyed_rowsOf.mpr ⟨hrepo, hget⟩, rfl⟩
  · rw [if_neg hrepo, if_neg]
    · rfl
    · intro hmem
      obtain ⟨row, hrow, rfl⟩ := List.mem_map.mp hmem
      exact hrepo (mem_keyed_rowsOf.mp hrow).1

end Keyed

/-- A row that has been read and written again. -/
def normalized (backup : Database) : SortedMap Key PatchRow :=
  backup.patches.mapValues fun k row => .ofProto (row.toProto (ofLex k).2)

def rewritten (backup : Database) (repoId : String) : List (Key × PatchRow) :=
  (backup.getAllPatchesUnbounded repoId).map fun patch => (key repoId patch.id.value, .ofProto patch)

theorem mem_rewritten {backup : Database} {repoId : String} {k : Key} {row : PatchRow} :
    (k, row) ∈ rewritten backup repoId ↔
      (ofLex k).1 = repoId ∧ (normalized backup).get k = some row := by
  unfold rewritten normalized Database.getAllPatchesUnbounded Database.patchesOf
  rw [List.mem_map, SortedMap.get_mapValues, Option.map_eq_some_iff]
  constructor
  · rintro ⟨patch, hpatch, heq⟩
    cases heq
    obtain ⟨⟨id, row⟩, hrow, rfl⟩ := List.mem_map.mp ((List.perm_insertionSort _ _).mem_iff.mp hpatch)
    exact ⟨rfl, row, mem_rowsOf.mp hrow, rfl⟩
  · rintro ⟨rfl, row, hget, rfl⟩
    refine ⟨row.toProto (ofLex k).2, (List.perm_insertionSort _ _).mem_iff.mpr ?_, rfl⟩
    exact List.mem_map.mpr ⟨((ofLex k).2, row), mem_rowsOf.mpr hget, rfl⟩

theorem get_addRows_rewritten (m : SortedMap Key PatchRow) (backup : Database) (repoId : String)
    (k : Key) :
    (m.addRows (rewritten backup repoId)).get k =
      if (ofLex k).1 = repoId then (m.get k).or ((normalized backup).get k) else m.get k := by
  have hagree : ∀ row ∈ rewritten backup repoId, (normalized backup).get row.1 = some row.2 :=
    fun row hrow => (mem_rewritten.mp hrow).2
  rw [SortedMap.get_addRows_of_agree hagree]
  by_cases hrepo : (ofLex k).1 = repoId
  · rw [if_pos hrepo]
    cases hget : (normalized backup).get k with
    | none => rw [ite_self]
    | some row =>
      rw [if_pos]
      exact List.mem_map.mpr ⟨(k, row), mem_rewritten.mpr ⟨hrepo, hget⟩, rfl⟩
  · rw [if_neg hrepo, if_neg, Option.or_none]
    intro hmem
    obtain ⟨row, hrow, rfl⟩ := List.mem_map.mp hmem
    exact hrepo (mem_rewritten.mp hrow).1

theorem foldl_restorePatch (repoId : String) (patches : List PatchProto) (s : RestoreStats × Database) :
    (patches.foldl (restorePatch repoId) s).1.reposRestored = s.1.reposRestored ∧
      (patches.foldl (restorePatch repoId) s).2 =
        { s.2 with
          patches := s.2.patches.addRows
            (patches.map fun patch => (key repoId patch.id.value, .ofProto patch)) } := by
  induction patches generalizing s with
  | nil => exact ⟨rfl, rfl⟩
  | cons patch patches ih =>
    rw [List.foldl_cons, (ih _).1, (ih _).2]
    unfold restorePatch Database.insertPatch
    rw [List.map_cons]
    unfold SortedMap.addRows
    rw [List.foldl_cons]
    by_cases hin : s.2.patches.contains (key repoId patch.id.value) = true
    · rw [if_pos hin, if_pos hin]
      exact ⟨rfl, rfl⟩
    · rw [if_neg hin, if_neg hin]
      exact ⟨rfl, rfl⟩

theorem foldl_setBranch (repoId : String) (rows : List (String × String)) (d : Database) :
    rows.foldl (fun d row => d.setBranch repoId row.1 row.2) d =
      { d with branches := d.branches.putRows (keyed repoId rows) } := by
  induction rows generalizing d with
  | nil => rfl
  | cons row rows ih =>
    rw [List.foldl_cons, ih]
    rfl

theorem restoreBlobs_of_fits {limits : Limits} (repoId : String) {rows : List (String × Bytes)}
    (hfits : ∀ row ∈ rows, row.2.length ≤ limits.maxBlobSize) (stats : RestoreStats) (d : Database) :
    restoreBlobs limits repoId rows (stats, d) =
      (.ok { stats with blobsRestored := stats.blobsRestored + rows.length },
        { d with blobs := d.blobs.putRows (keyed repoId rows) }) := by
  induction rows generalizing stats d with
  | nil => rfl
  | cons row rows ih =>
    have hrow := hfits row (List.mem_cons_self ..)
    rw [restoreBlobs, Database.storeBlob, if_neg (by omega)]
    dsimp only
    rw [ih fun row' hrow' => hfits row' (List.mem_cons_of_mem _ hrow'), List.length_cons]
    have hcount : stats.blobsRestored + 1 + rows.length = stats.blobsRestored + (rows.length + 1) := by
      omega
    rw [← hcount]
    rfl

/-- A blob that is too large stops the restore. -/
theorem fits_of_restoreBlobs {limits : Limits} {repoId : String} {rows : List (String × Bytes)}
    {stats stats' : RestoreStats} {d d' : Database}
    (h : restoreBlobs limits repoId rows (stats, d) = (.ok stats', d')) :
    ∀ row ∈ rows, row.2.length ≤ limits.maxBlobSize := by
  induction rows generalizing stats d with
  | nil => exact fun _ hrow => absurd hrow List.not_mem_nil
  | cons row rows ih =>
    rw [restoreBlobs, Database.storeBlob] at h
    by_cases hlarge : row.2.length > limits.maxBlobSize
    · rw [if_pos hlarge] at h
      cases h
    · rw [if_neg hlarge] at h
      intro row' hrow'
      rcases List.mem_cons.mp hrow' with rfl | hrow'
      · omega
      · exact ih h row' hrow'

/-- What is there after some repositories have been restored. -/
structure Restored (backup : Database) (done : List String) (d : Database) : Prop where
  repos : ∀ r, d.repos.get r = if r ∈ done then some "private" else none
  patches : ∀ k, d.patches.get k = if (ofLex k).1 ∈ done then (normalized backup).get k else none
  branches : ∀ k, d.branches.get k = if (ofLex k).1 ∈ done then backup.branches.get k else none
  blobs : ∀ k, d.blobs.get k = if (ofLex k).1 ∈ done then backup.blobs.get k else none
  others : d = { Database.fresh with
    repos := d.repos, patches := d.patches, branches := d.branches, blobs := d.blobs }

theorem restored_nil (backup : Database) : Restored backup [] .fresh :=
  ⟨fun _ => rfl, fun _ => rfl, fun _ => rfl, fun _ => rfl, rfl⟩

theorem or_ite_self {α : Type} (p : Prop) [Decidable p] (o : Option α) :
    o.or (if p then o else none) = o := by
  split
  · exact Option.or_self
  · exact Option.or_none

theorem ite_or_self {α : Type} (p : Prop) [Decidable p] (o : Option α) :
    (if p then o else none).or o = o := by
  split
  · exact Option.or_self
  · rfl

theorem repos_ensureRepo {d : Database} {done : List String}
    (h : ∀ r, d.repos.get r = if r ∈ done then some "private" else none) (repoId r : String) :
    (d.ensureRepo repoId).repos.get r = if r ∈ repoId :: done then some "private" else none := by
  unfold Database.ensureRepo
  simp only [List.mem_cons]
  by_cases hin : repoId ∈ done
  · rw [SortedMap.contains_eq, h repoId, if_pos hin, Option.isSome_some, if_pos rfl, h r]
    by_cases heq : r = repoId
    · rw [heq, if_pos hin, if_pos (.inl rfl)]
    · simp only [heq, false_or]
  · rw [SortedMap.contains_eq, h repoId, if_neg hin, Option.isSome_none, if_neg Bool.false_ne_true,
      SortedMap.get_insert, h r, ← ite_or]

theorem Database.ensureRepo_eq (d : Database) (repoId : String) :
    d.ensureRepo repoId = { d with repos := (d.ensureRepo repoId).repos } := by
  unfold Database.ensureRepo
  split
  · rfl
  · rfl

/-- One more repository has been restored. -/
theorem restoreRepo_restored {limits : Limits} {backup d : Database} {done : List String}
    (h : Restored backup done d) {repoId : String}
    (hfits : ∀ row ∈ rowsOf backup.blobs repoId, row.2.length ≤ limits.maxBlobSize)
    (stats : RestoreStats) :
    ∃ stats' d', restoreRepo limits backup repoId (stats, d) = (.ok stats', d') ∧
      stats'.reposRestored = stats.reposRestored + 1 ∧ Restored backup (repoId :: done) d' := by
  obtain ⟨hstats, hpatches⟩ := foldl_restorePatch repoId (backup.getAllPatchesUnbounded repoId)
    ({ stats with reposRestored := stats.reposRestored + 1 }, d.ensureRepo repoId)
  unfold restoreRepo
  refine ⟨_, _, restoreBlobs_of_fits repoId hfits _ _, hstats, ?_⟩
  rw [foldl_setBranch, hpatches, Database.ensureRepo_eq]
  refine ⟨repos_ensureRepo h.repos repoId, fun k => ?_, fun k => ?_, fun k => ?_, ?_⟩
  · refine (get_addRows_rewritten d.patches backup repoId k).trans ?_
    rw [h.patches, ite_or_self, ← ite_or]
    simp only [List.mem_cons]
  · refine (get_putRows_rowsOf d.branches backup.branches repoId k).trans ?_
    rw [h.branches, or_ite_self, ← ite_or]
    simp only [List.mem_cons]
  · refine (get_putRows_rowsOf d.blobs backup.blobs repoId k).trans ?_
    rw [h.blobs, or_ite_self, ← ite_or]
    simp only [List.mem_cons]
  · rw [h.others]

theorem restoreRepos_restored {limits : Limits} {backup : Database} (repos : List String)
    (hfits : ∀ repoId ∈ repos, ∀ row ∈ rowsOf backup.blobs repoId,
      row.2.length ≤ limits.maxBlobSize) {done : List String} {d : Database}
    (h : Restored backup done d) (stats : RestoreStats) :
    ∃ stats' d', restoreRepos limits backup repos (stats, d) = (.ok stats', d') ∧
      stats'.reposRestored = stats.reposRestored + repos.length ∧
      Restored backup (repos.reverse ++ done) d' := by
  induction repos generalizing done d stats with
  | nil => exact ⟨stats, d, rfl, rfl, h⟩
  | cons repoId repos ih =>
    obtain ⟨stats', d', hrun, hstats, h'⟩ :=
      restoreRepo_restored h (hfits repoId (List.mem_cons_self ..)) stats
    obtain ⟨stats'', d'', hrun', hstats', h''⟩ :=
      ih (fun r hr => hfits r (List.mem_cons_of_mem _ hr)) h' stats'
    rw [restoreRepos, hrun]
    refine ⟨stats'', d'', hrun', ?_, ?_⟩
    · rw [hstats', hstats, List.length_cons]
      omega
    · rw [List.reverse_cons, List.append_assoc]
      exact h''

theorem fits_of_restoreRepos {limits : Limits} {backup : Database} {repos : List String}
    {stats stats' : RestoreStats} {d d' : Database}
    (h : restoreRepos limits backup repos (stats, d) = (.ok stats', d')) :
    ∀ repoId ∈ repos, ∀ row ∈ rowsOf backup.blobs repoId, row.2.length ≤ limits.maxBlobSize := by
  induction repos generalizing stats d with
  | nil => exact fun _ hr => absurd hr List.not_mem_nil
  | cons repoId repos ih =>
    rw [restoreRepos] at h
    split at h
    · cases h
    · rename_i stats₁ d₁ hrun
      intro r hr
      rcases List.mem_cons.mp hr with rfl | hr
      · exact fits_of_restoreBlobs hrun
      · exact ih h r hr

end Suture.Wire
