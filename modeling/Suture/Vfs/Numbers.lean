import Suture.Vfs.Calls
import Suture.Vfs.Commits

/-!
# Numbers after a commit

A commit of the mount numbers all paths anew: the root, the directories, the files, and the
directories that were made, each kind in its order. The files are those of the tree that the
commit records, and the pending ones.
-/

namespace Suture.Vfs
set_option autoImplicit false
open Foundation Common Patches Dag Engine Repo Program

variable {H : Type} [LinearOrder H] [Hashing H] {s t : InnerFs H} {r : Repository H}
  {path message : String}

/-! ### Trees that commits record -/

/-- The repository takes a commit of the path. -/
def Lands (r : Repository H) (path message : String) : Prop :=
  (add path r).1 = .ok () ∧ ∃ id, (commit message (add path r).2).1 = .ok id

/-- The files of HEAD after a commit: what is staged is recorded on top of the base. -/
def recordedFiles (r : Repository H) : SortedSet String :=
  match (head r).1 with
  | .ok (_, headId) =>
    .ofList (((commitBase r headId).keys ++ r.workingSet.keys).filter fun q =>
      (recordedEntry r q ((commitBase r headId).get q)).isSome)
  | .error _ => .empty

theorem mem_recordedFiles {label : String} {headId : H} (hhead : (head r).1 = .ok (label, headId))
    {q : String} : q ∈ recordedFiles r ↔ recordedEntry r q ((commitBase r headId).get q) ≠ none := by
  unfold recordedFiles
  rw [hhead]
  dsimp only
  rw [SortedSet.mem_ofList, List.mem_filter, Option.isSome_iff_ne_none, List.mem_append,
    SortedMap.mem_keys, SortedMap.mem_keys]
  refine and_iff_right_of_imp fun hentry => ?_
  by_contra hnot
  rw [not_or, not_not, not_not] at hnot
  refine hentry ?_
  unfold recordedEntry
  rw [hnot.1, hnot.2]
  rfl

/-- The tree that a commit leaves for HEAD is stored. -/
theorem commit_row {s t : Repository H} {id : H} (h : commit message s = (.ok id, t)) :
    ∃ tree, t.cachedHeadSnapshot = some tree ∧ t.fileTrees.get id = some tree := by
  obtain ⟨_, s₁, -, h⟩ := bind_ok h
  rw [read_bind] at h
  obtain ⟨_, s₂, -, h⟩ := bind_ok h
  obtain ⟨⟨branch, headId⟩, s₃, -, h⟩ := bind_ok h
  obtain ⟨parentIds, s₄, -, h⟩ := bind_ok h
  obtain ⟨changes, s₅, -, h⟩ := bind_ok h
  obtain ⟨_, s₆, -, h⟩ := bind_ok h
  rw [read_bind] at h
  obtain ⟨patchId, s₇, -, h⟩ := bind_ok h
  obtain ⟨_, s₈, -, h⟩ := bind_ok h
  obtain ⟨_, s₉, -, h⟩ := bind_ok h
  obtain ⟨_, s₁₀, -, h⟩ := bind_ok h
  obtain ⟨tree, s₁₁, -, h⟩ := bind_ok h
  obtain ⟨_, s₁₂, hrecord, h⟩ := bind_ok h
  cases h
  rw [recordCommit_run hrecord]
  exact ⟨tree, rfl, (SortedMap.get_insert ..).trans (if_pos rfl)⟩

/-- The tree of a commit has the files that are told before. -/
theorem commit_files (hr : Valid False r) {id : H} {v : Repository H}
    (hcommit : commit message r = (.ok id, v)) : Valid False v ∧ ∃ tree,
      v.cachedHeadSnapshot = some tree ∧ TreeStored v.blobs tree ∧
        ∀ q, tree.get q ≠ none ↔ q ∈ recordedFiles r := by
  obtain ⟨hv, -, hpost⟩ := safe_commit hr False.elim message
  rw [hcommit] at hv hpost
  obtain ⟨-, label, headId, tree, hhead, hcached, hget⟩ := hpost id rfl
  obtain ⟨tree', hcached', hrow⟩ := commit_row hcommit
  cases Option.some.inj (hcached.symm.trans hcached')
  refine ⟨hv, tree, hcached, (hv.rows id tree hrow).stored, fun q => ?_⟩
  rw [mem_recordedFiles hhead, hget]

/-! ### Tables built anew -/

/-- What is held when HEAD has these files. -/
def InnerFs.heldAfter (s : InnerFs H) (files : SortedSet String) : SortedSet String :=
  .ofList (files.elems ++ s.fileContents.keys.filter fun path => decide (path ∈ s.pendingFiles))

/-- The paths in the order of their numbers, when HEAD has these files. -/
def InnerFs.namesAfter (env : Env) (s : InnerFs H) (files : SortedSet String) : List String :=
  ((rebuiltEntries (.build ((s.heldAfter files).elems ++ s.pendingDirs.elems.map marker))
    (env.walk s.pendingDirs.elems)).map InodeEntry.path).eraseDups

omit [LinearOrder H] in
theorem keys_eq_elems {α : Type} {m : SortedMap String α} {l : SortedSet String}
    (h : ∀ path, m.get path ≠ none ↔ path ∈ l) : m.keys = l.elems := by
  have hsame : (⟨m.keys, List.pairwise_map.mpr m.sorted⟩ : SortedSet String) = l :=
    SortedSet.ext fun path => SortedMap.mem_keys.trans (h path)
  exact congrArg SortedSet.elems hsame

omit [Hashing H] in
theorem keys_rebuilt {tree : FileTree H} (env : Env) (hstored : TreeStored s.repo.blobs tree)
    {files : SortedSet String} (hfiles : ∀ q, tree.get q ≠ none ↔ q ∈ files) :
    (s.rebuilt tree env.walk).fileContents.keys = (s.heldAfter files).elems := by
  refine keys_eq_elems fun q => ?_
  rw [InnerFs.heldAfter, SortedSet.mem_ofList, List.mem_append, List.mem_filter, decide_eq_true_eq,
    SortedMap.mem_keys, ← SortedSet.mem_def, ← hfiles, get_rebuilt, SortedMap.contains_eq]
  cases hget : tree.get q with
  | none => simp [and_comm]
  | some hash =>
    obtain ⟨data, hdata⟩ := Option.isSome_iff_exists.mp (hstored.stored q hash hget)
    have hblob : s.repo.blobs.get hash = some data := hdata
    simp [hblob]

omit [Hashing H] in
/-- A number is that of the path at its place. -/
theorem getPath_rebuilt {tree : FileTree H} (env : Env) (hstored : TreeStored s.repo.blobs tree)
    {files : SortedSet String} (hfiles : ∀ q, tree.get q ≠ none ↔ q ∈ files) :
    (s.rebuilt tree env.walk).inodeMap.Ok ∧ ∀ n, (s.rebuilt tree env.walk).inodeMap.getPath n =
      InodeGenerator.nameAt 1 (s.namesAfter env files) n := by
  have hkeys := keys_rebuilt env hstored hfiles
  have htable : (s.rebuilt tree env.walk).inodeMap = InodeGenerator.new.allocAll
      (rebuiltEntries (.build ((s.heldAfter files).elems ++ s.pendingDirs.elems.map marker))
        (env.walk s.pendingDirs.elems)) := by
    rw [← hkeys]
    rfl
  rw [htable]
  refine ⟨InodeGenerator.ok_new.allocAll _, fun n => ?_⟩
  refine (InodeGenerator.ok_new.getPath_allocAll _ n).trans ?_
  have hall (l : List String) : (l.filter fun path => (InodeGenerator.new.lookup path).isNone) = l :=
    List.filter_eq_self.mpr fun _ _ => rfl
  unfold InodeGenerator.unnumbered InnerFs.namesAfter
  rw [hall]
  rfl

/-- The table that a rebuild leaves, when the tree of HEAD is cached. -/
theorem rebuildFromRepo_table (env : Env) (hs : Valid False s.repo) {tree : FileTree H}
    (hcached : s.repo.cachedHeadSnapshot = some tree) (hstored : TreeStored s.repo.blobs tree)
    {files : SortedSet String} (hfiles : ∀ q, tree.get q ≠ none ↔ q ∈ files) :
    ∃ t, rebuildFromRepo env s = (.ok (), t) ∧ Valid False t.repo ∧ t.inodeMap.Ok ∧
      ∀ n, t.inodeMap.getPath n = InodeGenerator.nameAt 1 (s.namesAfter env files) n := by
  obtain ⟨_, _, tree', r, -, -, hrun, hread, hr, -⟩ := snapshotHead_spec hs
  have htree : tree' = tree := by
    rw [hread.value, hcached]
    rfl
  subst htree
  have hblobs : r.blobs = s.repo.blobs := by rw [hread.same]
  have hrebuild : rebuildFromRepo env s = (.ok (), ({ s with repo := r }).rebuilt tree' env.walk) := by
    unfold rebuildFromRepo
    rw [bind_of_ok (onRepo_ok hrun)]
    rfl
  obtain ⟨hok, hpaths⟩ := getPath_rebuilt (s := { s with repo := r }) env (hblobs ▸ hstored) hfiles
  exact ⟨_, hrebuild, hr, hok, hpaths⟩

/-! ### Commits that number anew -/

/-- The path is added and committed before the rest. -/
theorem commitPath_cases (hs : Valid False s.repo) (path message : String) (k : Fs H Unit) :
    (∃ e r, Valid False r ∧ (onRepo (add path) >>= fun _ => onRepo (commit message) >>= fun _ => k) s =
      (.error e, { s with repo := r })) ∨
    Lands s.repo path message ∧ ∃ r tree, Valid False r ∧ r.cachedHeadSnapshot = some tree ∧
      TreeStored r.blobs tree ∧ (∀ q, tree.get q ≠ none ↔ q ∈ recordedFiles (add path s.repo).2) ∧
      (onRepo (add path) >>= fun _ => onRepo (commit message) >>= fun _ => k) s =
        k { s with repo := r } := by
  have hstaged := (safe_add hs path).inv
  rcases hadd : add path s.repo with ⟨e | _, u⟩
  · rw [hadd] at hstaged
    refine .inl ⟨.io, u, hstaged, ?_⟩
    rw [bind_of_error (onRepo_error hadd)]
  · have hu : (add path s.repo).2 = u := by rw [hadd]
    rw [hu] at hstaged
    rw [bind_of_ok (onRepo_ok hadd)]
    have hafter := (safe_commit hstaged False.elim message).inv
    rcases hcommit : commit message u with ⟨e | id, v⟩
    · rw [hcommit] at hafter
      refine .inl ⟨.io, v, hafter, ?_⟩
      rw [bind_of_error (onRepo_error hcommit)]
    · obtain ⟨hv, tree, hcached, hstored, hfiles⟩ := commit_files hstaged hcommit
      refine .inr ⟨⟨by rw [hadd], id, ?_⟩, v, tree, hv, hcached, hstored, hfiles, ?_⟩
      · rw [hu, hcommit]
      · rw [bind_of_ok (onRepo_ok hcommit)]

/-- The outcome of a commit of the mount: the table stays, or numbers these names anew. -/
structure Renumbers (s : InnerFs H) (r : Except Errno Unit × InnerFs H) (goes : Prop)
    (names : List String) : Prop where
  valid : Valid False r.2.repo
  ok : r.2.inodeMap.Ok
  table : (∃ e, r.1 = .error e) ∧ r.2.inodeMap = s.inodeMap ∨
    goes ∧ r.1 = .ok () ∧ ∀ n, r.2.inodeMap.getPath n = InodeGenerator.nameAt 1 names n

theorem commitFileChange_renumbers (hs : Valid False s.repo) (hok : s.inodeMap.Ok) (env : Env)
    (path : String) (content : Bytes) (isNew : Bool) :
    Renumbers s (commitFileChange env path content isNew s)
      (env.disk = true ∧ Lands { s.repo with files := s.repo.files.insert path content } path
        ((if isNew then "vfs: create " else "vfs: modify ") ++ path))
      (InnerFs.namesAfter env { s with pendingFiles := s.pendingFiles.erase path }
        (recordedFiles (add path { s.repo with files := s.repo.files.insert path content }).2)) := by
  unfold commitFileChange
  by_cases hdisk : env.disk = true
  · have hwritten : Valid False { s.repo with files := s.repo.files.insert path content } :=
      (safe_of_contents (contents_writeFile path content) hs).inv
    rw [ensure, require_bind hdisk, bind_of_ok (onRepo_ok (m := writeFile path content) rfl)]
    rcases commitPath_cases (s := { s with repo :=
        { s.repo with files := s.repo.files.insert path content } }) hwritten path
        ((if isNew then "vfs: create " else "vfs: modify ") ++ path)
        (modify (fun s => { s with pendingFiles := s.pendingFiles.erase path }) >>= fun _ =>
          rebuildFromRepo env) with ⟨e, r, hr, hrun⟩ | ⟨hlands, r, tree, hr, hcached, hstored, hfiles, hrun⟩
    · rw [hrun]
      exact ⟨hr, hok, .inl ⟨⟨e, rfl⟩, rfl⟩⟩
    · obtain ⟨t, hrebuild, ht, hok, hpaths⟩ := rebuildFromRepo_table (s := { s with
        repo := r, pendingFiles := s.pendingFiles.erase path }) env hr hcached hstored hfiles
      rw [hrun, modify_bind, hrebuild]
      exact ⟨ht, hok, .inr ⟨⟨hdisk, hlands⟩, rfl, hpaths⟩⟩
  · rw [ensure, require_bind_of_not hdisk]
    exact ⟨hs, hok, .inl ⟨⟨_, rfl⟩, rfl⟩⟩

theorem commitFileDelete_renumbers (hs : Valid False s.repo) (hok : s.inodeMap.Ok) (env : Env)
    (path : String) : Renumbers s (commitFileDelete env path s)
      ((s.repo.files.contains path = true → env.disk = true) ∧
        Lands { s.repo with files := s.repo.files.erase path } path ("vfs: delete " ++ path))
      (s.namesAfter env
        (recordedFiles (add path { s.repo with files := s.repo.files.erase path }).2)) := by
  unfold commitFileDelete
  by_cases hdisk : s.repo.files.contains path = true → env.disk = true
  · have hremoved : Valid False { s.repo with files := s.repo.files.erase path } :=
      (safe_of_contents (contents_removeFile path) hs).inv
    rw [bind_of_ok (removeFromDisk_run hdisk)]
    rcases commitPath_cases (s := { s with repo :=
        { s.repo with files := s.repo.files.erase path } }) hremoved path ("vfs: delete " ++ path)
        (rebuildFromRepo env) with ⟨e, r, hr, hrun⟩ | ⟨hlands, r, tree, hr, hcached, hstored, hfiles, hrun⟩
    · rw [hrun]
      exact ⟨hr, hok, .inl ⟨⟨e, rfl⟩, rfl⟩⟩
    · obtain ⟨t, hrebuild, ht, hok, hpaths⟩ :=
        rebuildFromRepo_table (s := { s with repo := r }) env hr hcached hstored hfiles
      rw [hrun, hrebuild]
      exact ⟨ht, hok, .inr ⟨⟨hdisk, hlands⟩, rfl, hpaths⟩⟩
  · rw [bind_of_error (removeFromDisk_error hdisk)]
    exact ⟨hs, hok, .inl ⟨⟨_, rfl⟩, rfl⟩⟩

end Suture.Vfs
