import Suture.Vfs.Commits
import Suture.Vfs.Mirror

/-!
# Mounts and the tree of HEAD

Of every file that is held, the tree of HEAD has the content, or the file is a pending one that
no commit has.
-/

namespace Suture.Vfs
set_option autoImplicit false
open Foundation Common Patches Dag Engine Repo Program

variable {H : Type} [LinearOrder H] [Hashing H] {s t : InnerFs H} {tree : FileTree H}

/-- The contents of the tree of HEAD are held, and what else is held is pending. -/
structure Backed (s : InnerFs H) (tree : FileTree H) : Prop where
  content : ∀ path hash, tree.get path = some hash →
    ∃ data, s.repo.blobs.get hash = some data ∧ s.fileContents.get path = some data
  rest : ∀ path, s.fileContents.contains path = true → tree.get path = none → path ∈ s.pendingFiles

structure Grounded (s : InnerFs H) : Prop where
  tables : Tables s
  paths : ∀ path, s.fileContents.contains path = true → IsRepoPath path
  head : ∃ tree, Settled s.repo tree ∧ Backed s tree

/-- Handles may be opened and closed. -/
theorem Grounded.congr (h : Grounded s) (hinodes : t.inodeMap = s.inodeMap)
    (htranslator : t.pathTranslator = s.pathTranslator) (hfiles : t.fileContents = s.fileContents)
    (hdirs : t.pendingDirs = s.pendingDirs) (hrepo : t.repo = s.repo)
    (hpending : t.pendingFiles = s.pendingFiles) : Grounded t := by
  obtain ⟨tree, hsettled, hbacked⟩ := h.head
  refine ⟨h.tables.congr hinodes htranslator hfiles hdirs, ?_, tree, ?_, ?_⟩
  · rw [hfiles]
    exact h.paths
  · rw [hrepo]
    exact hsettled
  · refine ⟨?_, ?_⟩
    · rw [hfiles, hrepo]
      exact hbacked.content
    · rw [hfiles, hpending]
      exact hbacked.rest

/-! ### Commits are taken -/

theorem commit_of_takes {r : Repository H} {message : String} (hr : Ready r tree)
    (hstaged : stagedFiles r ≠ []) (htakes : ∀ label headId, (head r).1 = .ok (label, headId) →
      Acceptable r message headId) : ∃ new u, commit message r = (.ok new, u) := by
  obtain ⟨name, id, hname, htip, hid, hbranch, -⟩ := hr.atTip
  have hhead := head_of_cached hid hbranch
  rcases commit_cases message r with ⟨hno, -⟩ | ⟨-, label, headId, hlabel, hcases⟩
  · rcases hno with hnone | ⟨e, he⟩
    · exact absurd hnone hstaged
    · rw [hhead] at he
      cases he
  · have hyes := htakes label headId hlabel
    rw [hhead] at hlabel
    cases hlabel
    rcases hcases with ⟨hno, -⟩ | ⟨-, dag, -, hended⟩
    · exact absurd hyes hno
    · rcases hended with ⟨hno, -⟩ | ⟨-, u, hrun, -⟩
      · exact absurd ⟨name, hname, by rw [show (taken r).dag = r.dag from rfl, htip]; rfl⟩ hno
      · exact ⟨_, u, hrun⟩

theorem Settled.takes {r : Repository H} (hr : Settled r tree) {path message : String}
    (hpath : IsRepoPath path) (hthere : r.files.contains path = true ∨ tree.contains path = true)
    (htakes : Takes r path message) : ∃ u new v, add path r = (.ok (), u) ∧
      commit message u = (.ok new, v) := by
  obtain ⟨u, hu⟩ : ∃ u, u = { r with
      workingSet := r.workingSet.insert path
        (addedStatus (r.files.contains path) (tree.contains path)) } := ⟨_, rfl⟩
  have hadd : add path r = (.ok (), u) := by rw [add_eq hr.cached hpath, if_pos hthere, hu]
  have hstaged : stagedFiles u ≠ [] := by
    rw [hu]
    refine List.ne_nil_of_mem (mem_stagedFiles.mpr
      ⟨(SortedMap.get_insert ..).trans (if_pos rfl), ?_⟩)
    unfold addedStatus
    split_ifs <;> rfl
  unfold Takes at htakes
  rw [hadd] at htakes
  obtain ⟨new, v, hcommit⟩ := commit_of_takes (hr.toReady.add_run hadd) hstaged htakes
  exact ⟨u, new, v, hadd, hcommit⟩

/-! ### Commits of the mount -/

theorem rebuildFromRepo_run (env : Env) (hs : Settled s.repo tree) :
    ∃ r, Settled r tree ∧ r.blobs = s.repo.blobs ∧
      rebuildFromRepo env s = (.ok (), ({ s with repo := r }).rebuilt tree env.walk) := by
  obtain ⟨r, hrun, hr, hblobs⟩ := hs.snapshotHead_run
  refine ⟨r, hr, hblobs, ?_⟩
  unfold rebuildFromRepo
  rw [bind_of_ok (onRepo_ok hrun)]
  rfl

/-- What a rebuild makes of a tree of HEAD that has the contents that are left, apart from those
of pending files. -/
theorem Grounded.of_rebuilt (env : Env) {contents : SortedMap String Bytes}
    (hs : Settled s.repo tree) (hcontent : ∀ path hash, tree.get path = some hash →
      ∃ data, s.repo.blobs.get hash = some data ∧ contents.get path = some data)
    (hrest : ∀ path, tree.get path = none →
      contents.get path = if path ∈ s.pendingFiles then s.fileContents.get path else none)
    (hnamed : Holdings.Named ⟨contents, s.pendingDirs⟩)
    (hfilled : Holdings.Filled ⟨contents, s.pendingDirs⟩)
    (hpaths : ∀ path, contents.contains path = true → IsRepoPath path) :
    (s.rebuilt tree env.walk).fileContents = contents ∧ Grounded (s.rebuilt tree env.walk) := by
  have hfiles : (s.rebuilt tree env.walk).fileContents = contents := by
    refine SortedMap.ext fun path => ?_
    rw [get_rebuilt, SortedMap.contains_eq]
    cases hget : tree.get path with
    | none => simpa using (hrest path hget).symm
    | some hash =>
      obtain ⟨data, hblob, hdata⟩ := hcontent path hash hget
      simp [hblob, hdata]
  have hholdings : (s.rebuilt tree env.walk).holdings = ⟨contents, s.pendingDirs⟩ := by
    rw [InnerFs.holdings, hfiles, InnerFs.rebuilt_pendingDirs]
  refine ⟨hfiles, .rebuilt s tree env (hholdings ▸ hnamed) (hholdings ▸ hfilled), ?_, tree, ?_, ?_, ?_⟩
  · rw [hfiles]
    exact hpaths
  · rw [InnerFs.rebuilt_repo]
    exact hs
  · rw [hfiles, InnerFs.rebuilt_repo]
    exact hcontent
  · rw [hfiles, InnerFs.rebuilt_pendingFiles]
    intro path hpath hget
    rw [SortedMap.contains_eq, hrest path hget] at hpath
    split at hpath
    · assumption
    · cases hpath

/-- The content of a file that is there is committed. -/
theorem Grounded.commitFileChange_run (h : Grounded s) {env : Env} {path : String} {content : Bytes}
    {isNew : Bool} (hpath : s.fileContents.contains path = true)
    (hc : Commits env s path ((if isNew then "vfs: create " else "vfs: modify ") ++ path) content) :
    ∃ t, commitFileChange env path content isNew s = (.ok (), t) ∧ Grounded t ∧
      t.fileContents = s.fileContents.insert path content ∧ t.pendingDirs = s.pendingDirs ∧
      t.pendingFiles = s.pendingFiles.erase path ∧ t.openFiles = s.openFiles ∧ t.nextFh = s.nextFh := by
  obtain ⟨tree, hsettled, hbacked⟩ := h.head
  have hthere : ({ s.repo with files := s.repo.files.insert path content } :
      Repository H).files.contains path = true := by
    rw [SortedMap.contains_eq, SortedMap.get_insert, if_pos rfl]
    rfl
  obtain ⟨u, new, v, hadd, hcommit⟩ :=
    (hsettled.of_files _).takes (h.paths path hpath) (.inl hthere) hc.takes
  obtain ⟨tree', hv, hgrow, hget, hnew⟩ := hsettled.commit_file hadd hcommit hc.distinct
  obtain ⟨r, hr, hblobs, hrebuild⟩ := rebuildFromRepo_run
    (s := { s with repo := v, pendingFiles := s.pendingFiles.erase path }) env hv
  have hrun : commitFileChange env path content isNew s = (.ok (), InnerFs.rebuilt { s with
      repo := r, pendingFiles := s.pendingFiles.erase path } tree' env.walk) := by
    unfold commitFileChange
    rw [ensure, require_bind hc.disk, bind_of_ok (onRepo_ok (m := writeFile path content) rfl),
      bind_of_ok (onRepo_ok hadd), bind_of_ok (onRepo_ok hcommit), modify_bind]
    exact hrebuild
  have hinsert : ∀ q, (s.fileContents.insert path content).contains q = true →
      s.fileContents.contains q = true := fun q hq => by
    rcases (Holdings.contains_insert (h := s.holdings) content).mp hq with rfl | hq
    · exact hpath
    · exact hq
  have hcontent : ∀ q hash, tree'.get q = some hash → ∃ data, r.blobs.get hash = some data ∧
      (s.fileContents.insert path content).get q = some data := fun q hash hq => by
    rw [hget] at hq
    rw [SortedMap.get_insert, hblobs]
    split at hq
    · cases hq
      rename_i hq
      exact ⟨content, hnew, if_pos hq⟩
    · rename_i hne
      obtain ⟨data, hblob, hdata⟩ := hbacked.content q hash hq
      exact ⟨data, hgrow.kept hash data hblob, (if_neg hne).trans hdata⟩
  have hrest : ∀ q, tree'.get q = none → (s.fileContents.insert path content).get q =
      if q ∈ s.pendingFiles.erase path then s.fileContents.get q else none := fun q hq => by
    rw [hget] at hq
    split at hq
    · cases hq
    · rename_i hne
      rw [SortedMap.get_insert, if_neg hne]
      split
      · rfl
      · rename_i hpending
        by_contra hsome
        refine hpending (SortedSet.mem_erase.mpr ⟨hbacked.rest q ?_ hq, hne⟩)
        rw [SortedMap.contains_eq]
        exact Option.isSome_iff_ne_none.mpr hsome
  have hfilled : Holdings.Filled ⟨s.fileContents.insert path content, s.pendingDirs⟩ := fun m hm => by
    obtain ⟨q, hq, hd⟩ := hc.filled m hm
    refine ⟨q, Holdings.mem_files.mpr ?_, hd⟩
    exact (Holdings.contains_insert (h := s.holdings) content).mpr (.inr (Holdings.mem_files.mp hq))
  obtain ⟨hfiles, hgrounded⟩ := Grounded.of_rebuilt
    (s := { s with repo := r, pendingFiles := s.pendingFiles.erase path }) env hr hcontent hrest
    (h.tables.named.mono hinsert fun m hm => hm) hfilled fun q hq => h.paths q (hinsert q hq)
  refine ⟨_, hrun, hgrounded, hfiles, ?_, ?_, ?_, ?_⟩
  · rw [InnerFs.rebuilt_pendingDirs]
  · rw [InnerFs.rebuilt_pendingFiles]
  · rw [InnerFs.rebuilt_openFiles]
  · rw [InnerFs.rebuilt_nextFh]

/-- A file that is held and not pending is deleted from the tree of HEAD. -/
theorem Grounded.commitFileDelete_run (h : Grounded s) {env : Env} {path : String}
    (hpath : s.fileContents.contains path = true) (hpending : path ∉ s.pendingFiles)
    (hd : Deletes env s path) :
    ∃ t, commitFileDelete env path { s with fileContents := s.fileContents.erase path } = (.ok (), t) ∧
      Grounded t ∧ t.fileContents = s.fileContents.erase path ∧ t.pendingDirs = s.pendingDirs ∧
      t.pendingFiles = s.pendingFiles ∧ t.openFiles = s.openFiles ∧ t.nextFh = s.nextFh := by
  obtain ⟨tree, hsettled, hbacked⟩ := h.head
  have htracked : tree.contains path = true := by
    rw [SortedMap.contains_eq, Option.isSome_iff_ne_none]
    exact fun hnone => hpending (hbacked.rest path hpath hnone)
  obtain ⟨u, new, v, hadd, hcommit⟩ :=
    (hsettled.of_files (s.repo.files.erase path)).takes (h.paths path hpath) (.inr htracked) hd.takes
  obtain ⟨tree', hv, hgrow, hget⟩ := hsettled.commit_delete
    ((SortedMap.get_erase ..).trans (if_pos rfl)) hadd hcommit
  obtain ⟨r, hr, hblobs, hrebuild⟩ := rebuildFromRepo_run
    (s := { s with repo := v, fileContents := s.fileContents.erase path }) env hv
  have hrun : commitFileDelete env path { s with fileContents := s.fileContents.erase path } =
      (.ok (), InnerFs.rebuilt { s with
        repo := r, fileContents := s.fileContents.erase path } tree' env.walk) := by
    have hremove : removeFromDisk env path { s with fileContents := s.fileContents.erase path } =
        (.ok (), _) := removeFromDisk_run hd.disk
    unfold commitFileDelete
    rw [bind_of_ok hremove, bind_of_ok (onRepo_ok hadd), bind_of_ok (onRepo_ok hcommit)]
    exact hrebuild
  have herase : ∀ q, (s.fileContents.erase path).contains q = true → q ≠ path ∧
      s.fileContents.contains q = true := fun q hq => by
    rw [SortedMap.contains_eq, SortedMap.get_erase] at hq
    split at hq
    · cases hq
    · rename_i hne
      exact ⟨hne, hq⟩
  have hcontent : ∀ q hash, tree'.get q = some hash → ∃ data, r.blobs.get hash = some data ∧
      (s.fileContents.erase path).get q = some data := fun q hash hq => by
    rw [hget] at hq
    rw [SortedMap.get_erase, hblobs]
    split at hq
    · cases hq
    · rename_i hne
      obtain ⟨data, hblob, hdata⟩ := hbacked.content q hash hq
      exact ⟨data, hgrow.kept hash data hblob, (if_neg hne).trans hdata⟩
  have hrest : ∀ q, tree'.get q = none → (s.fileContents.erase path).get q =
      if q ∈ s.pendingFiles then (s.fileContents.erase path).get q else none := fun q hq => by
    split
    · rfl
    · rename_i hnot
      rw [hget] at hq
      rw [SortedMap.get_erase]
      split at hq
      · rename_i heq
        rw [if_pos heq]
      · rename_i hne
        rw [if_neg hne]
        by_contra hsome
        exact hnot (hbacked.rest q (Option.isSome_iff_ne_none.mpr hsome) hq)
  obtain ⟨hfiles, hgrounded⟩ := Grounded.of_rebuilt
    (s := { s with repo := r, fileContents := s.fileContents.erase path }) env hr hcontent hrest
    (h.tables.named.mono (fun q hq => (herase q hq).2) fun m hm => hm) hd.filled
    fun q hq => h.paths q (herase q hq).2
  refine ⟨_, hrun, hgrounded, hfiles, ?_, ?_, ?_, ?_⟩
  · rw [InnerFs.rebuilt_pendingDirs]
  · rw [InnerFs.rebuilt_pendingFiles]
  · rw [InnerFs.rebuilt_openFiles]
  · rw [InnerFs.rebuilt_nextFh]

/-- A file that is not held cannot be deleted. -/
theorem Grounded.commitFileDelete_missing (h : Grounded s) (env : Env) {path : String}
    (hpath : s.fileContents.contains path = false) : ∃ e t,
      commitFileDelete env path s = (.error e, t) ∧ Grounded t ∧ t.holdings = s.holdings ∧
      t.pendingFiles = s.pendingFiles ∧ t.openFiles = s.openFiles ∧ t.nextFh = s.nextFh := by
  obtain ⟨tree, hsettled, hbacked⟩ := h.head
  have htree : tree.contains path = false := by
    by_contra htracked
    obtain ⟨hash, hget⟩ := Option.isSome_iff_exists.mp (Bool.eq_true_of_not_eq_false htracked)
    obtain ⟨data, -, hdata⟩ := hbacked.content path hash hget
    rw [SortedMap.contains_eq, hdata] at hpath
    cases hpath
  have hkept : ∀ files, Grounded { s with repo := { s.repo with files := files } } := fun files =>
    ⟨h.tables.congr rfl rfl rfl rfl, h.paths, tree, hsettled.of_files files,
      hbacked.content, hbacked.rest⟩
  unfold commitFileDelete
  by_cases hdisk : s.repo.files.contains path = true → env.disk = true
  · have hgone : (s.repo.files.erase path).contains path = false := by
      rw [SortedMap.contains_eq, SortedMap.get_erase, if_pos rfl]
      rfl
    obtain ⟨e, hadd⟩ := add_missing (s := { s.repo with files := s.repo.files.erase path })
      hsettled.cached hgone htree
    rw [bind_of_ok (removeFromDisk_run hdisk), bind_of_error (onRepo_error hadd)]
    exact ⟨_, _, rfl, hkept _, rfl, rfl, rfl, rfl⟩
  · rw [bind_of_error (removeFromDisk_error hdisk)]
    exact ⟨_, _, rfl, h, rfl, rfl, rfl, rfl⟩

end Suture.Vfs
