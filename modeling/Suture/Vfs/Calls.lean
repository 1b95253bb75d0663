import Suture.Vfs.Mirror

/-!
# What each call leaves behind

The state after a call, by what the call comes to.
-/

namespace Suture.Vfs
set_option autoImplicit false
open Foundation Common Patches Engine Repo Program

variable {H : Type} [LinearOrder H] {s : InnerFs H} {env : Env} {path : String}

theorem snd_map {α β : Type} (f : α → β) (m : Fs H α) (s : InnerFs H) :
    ((f <$> m) s).2 = (m s).2 := by
  change ((m >>= pure ∘ f) s).2 = (m s).2
  rcases hm : m s with ⟨e | a, t⟩
  · rw [bind_of_error hm]
  · rw [bind_of_ok hm]
    rfl

theorem fst_map {α β : Type} (f : α → β) (m : Fs H α) (s : InnerFs H) :
    ((f <$> m) s).1 = (m s).1.map f := by
  change ((m >>= pure ∘ f) s).1 = (m s).1.map f
  rcases hm : m s with ⟨e | a, t⟩
  · rw [bind_of_error hm]
    rfl
  · rw [bind_of_ok hm]
    rfl

/-! ### States after a call -/

def InnerFs.created (s : InnerFs H) (path : String) : InnerFs H :=
  let t := { s with
    inodeMap := ((s.inodeMap.allocAll ((dirsOf path).map (⟨.directory, ·⟩))).allocFile path).2
    fileContents := if s.fileContents.contains path then s.fileContents
      else s.fileContents.insert path []
    pendingFiles := s.pendingFiles.insert path }
  { t with
    pathTranslator := .build t.allPaths
    nextFh := s.nextFh + 1
    openFiles := s.openFiles.insert s.nextFh
      ⟨path, [], decide (path ∉ s.pendingFiles) || !s.fileContents.contains path⟩ }

def InnerFs.withDir (s : InnerFs H) (path : String) : InnerFs H :=
  let t := { s with
    inodeMap := (s.inodeMap.allocDir path).2, pendingDirs := s.pendingDirs.insert path }
  { t with pathTranslator := .build t.allPaths }

def InnerFs.withoutDir (s : InnerFs H) (path : String) : InnerFs H :=
  let t := { s with pendingDirs := s.pendingDirs.erase path }
  { t with pathTranslator := .build t.allPaths }

def InnerFs.withHandle (s : InnerFs H) (f : OpenFile) : InnerFs H :=
  { s with nextFh := s.nextFh + 1, openFiles := s.openFiles.insert s.nextFh f }

theorem create_run {parent : Nat} {name : Option FileName}
    (h : resolvePath s parent name = .ok path) : create parent name s =
      (.ok (⟨((s.inodeMap.allocAll ((dirsOf path).map (⟨.directory, ·⟩))).allocFile path).1, .file, 0⟩,
        s.nextFh), s.created path) := by
  unfold create
  rw [read_bind, h, bind_of_ok (ofExcept_run _ _)]
  rfl

theorem create_of_error {parent : Nat} {name : Option FileName} {e : Errno}
    (h : resolvePath s parent name = .error e) : create parent name s = (.error e, s) := by
  unfold create
  rw [read_bind, h, bind_of_error (ofExcept_run _ _)]

theorem mkdir_run {parent : Nat} {name : Option FileName}
    (h : resolvePath s parent name = .ok path) : mkdir parent name s =
      (.ok ⟨(s.inodeMap.allocDir path).1, .directory, 0⟩, s.withDir path) := by
  have hlookup : (s.withDir path).inodeMap.lookup path = some (s.inodeMap.allocDir path).1 :=
    s.inodeMap.fst_alloc path .directory
  have hrebuild : rebuildPathTranslator { s with
      inodeMap := (s.inodeMap.allocDir path).2, pendingDirs := s.pendingDirs.insert path } =
        (.ok (), s.withDir path) := rfl
  unfold mkdir
  rw [read_bind, h, bind_of_ok (ofExcept_run _ _), modify_bind, bind_of_ok hrebuild, read_bind, hlookup]
  rfl

theorem mkdir_of_error {parent : Nat} {name : Option FileName} {e : Errno}
    (h : resolvePath s parent name = .error e) : mkdir parent name s = (.error e, s) := by
  unfold mkdir
  rw [read_bind, h, bind_of_error (ofExcept_run _ _)]

theorem rmdir_run {parent : Nat} {name : Option FileName}
    (h : resolvePath s parent name = .ok path) :
    (rmdir parent name s).2 = if isDirEmpty s path then s.withoutDir path else s := by
  unfold rmdir
  rw [read_bind, h, bind_of_ok (ofExcept_run _ _), ensure]
  split
  · rename_i hempty
    rw [require_bind hempty]
    rfl
  · rename_i hfull
    rw [require_bind_of_not hfull]

theorem rmdir_of_error {parent : Nat} {name : Option FileName} {e : Errno}
    (h : resolvePath s parent name = .error e) : rmdir parent name s = (.error e, s) := by
  unfold rmdir
  rw [read_bind, h, bind_of_error (ofExcept_run _ _)]

theorem write_run (s : InnerFs H) (fh offset : Nat) (data : Bytes) : (write fh offset data s).2 =
    match s.openFiles.get fh with
    | none => s
    | some f => { s with
        openFiles := s.openFiles.insert fh { f with buffer := overlay f.buffer offset data } } := by
  unfold write
  rw [read_bind]
  cases s.openFiles.get fh with
  | none => rfl
  | some f => rfl

/-- Only files are opened, and only handles for writing are kept. -/
theorem openFile_run (s : InnerFs H) (inode : Nat) (mode : AccessMode) (truncate : Bool) :
    (openFile inode mode truncate s).2 =
      match s.inodeMap.get inode with
      | some ⟨.file, path⟩ =>
        if mode = .readOnly then { s with nextFh := s.nextFh + 1 }
        else s.withHandle ⟨path, if truncate then [] else (s.fileContents.get path).getD [], false⟩
      | _ => s := by
  unfold openFile
  rw [read_bind]
  cases s.inodeMap.get inode with
  | none => rfl
  | some entry =>
    obtain ⟨kind, path⟩ := entry
    cases kind with
    | directory => rfl
    | file => cases mode <;> rfl

/-- Calls that only look. -/
theorem looks_unchanged {α : Type} {m : Fs H α} (h : Quiet (Drift.ofView id) m) (s : InnerFs H) :
    (m s).2 = s := h s

theorem lookup_unchanged (parent : Nat) (name : Option FileName) (s : InnerFs H) :
    (lookup parent name s).2 = s := by
  refine looks_unchanged (quiet_read.bind fun t => (quiet_ofExcept _).bind fun path => ?_) s
  split
  · exact quiet_fail _
  · split
    · exact quiet_fail _
    · exact quiet_pure _

theorem getattr_unchanged (inode : Nat) (s : InnerFs H) : (getattr inode s).2 = s := by
  refine looks_unchanged (quiet_read.bind fun t => ?_) s
  split
  · exact quiet_fail _
  · split
    · exact quiet_pure _
    · exact quiet_pure _

theorem setattr_unchanged (inode : Nat) (s : InnerFs H) : (setattr inode s).2 = s := by
  refine looks_unchanged (quiet_read.bind fun t => ?_) s
  split
  · exact quiet_fail _
  · exact quiet_pure _

theorem readBytes_unchanged (inode offset size : Nat) (s : InnerFs H) :
    (readBytes inode offset size s).2 = s := by
  refine looks_unchanged (quiet_read.bind fun t => ?_) s
  split
  · exact quiet_fail _
  · refine (quiet_require _ _).bind fun _ => ?_
    dsimp only
    split
    · exact quiet_pure _
    · exact quiet_pure _

theorem readdir_unchanged (parent : Nat) (offset : Int) (s : InnerFs H) :
    (readdir parent offset s).2 = s := by
  refine looks_unchanged (quiet_read.bind fun t => ?_) s
  split
  · exact quiet_fail _
  · exact quiet_pure _

/-! ### Closes and deletions -/

variable [Hashing H]

/-- The handle goes, whatever becomes of its buffer. -/
theorem processClose_run (env : Env) (fh : Nat) (s : InnerFs H) : processClose env fh s =
    match s.openFiles.get fh with
    | none => (.ok (), { s with openFiles := s.openFiles.erase fh })
    | some f =>
      if s.fileContents.get f.path ≠ some f.buffer then
        commitFileChange env f.path f.buffer f.isNew { s with openFiles := s.openFiles.erase fh }
      else if f.isNew then dropPending f.path { s with openFiles := s.openFiles.erase fh }
      else (.ok (), { s with openFiles := s.openFiles.erase fh }) := by
  unfold processClose
  rw [read_bind, modify_bind]
  cases s.openFiles.get fh with
  | none => rfl
  | some f =>
    change (if s.fileContents.get f.path ≠ some f.buffer then
        commitFileChange env f.path f.buffer f.isNew else if f.isNew then dropPending f.path
        else pure ()) { s with openFiles := s.openFiles.erase fh } = _
    dsimp only
    by_cases hchanged : s.fileContents.get f.path ≠ some f.buffer
    · rw [if_pos hchanged, if_pos hchanged]
    · rw [if_neg hchanged, if_neg hchanged]
      cases f.isNew <;> rfl

theorem processClose_missing (env : Env) {fh : Nat} (h : s.openFiles.get fh = none) :
    processClose env fh s = (.ok (), s) := by
  have hsame : s.openFiles.erase fh = s.openFiles := SortedMap.ext fun g => by
    rw [SortedMap.get_erase]
    split
    · rename_i hg
      rw [hg, h]
    · rfl
  rw [processClose_run, h]
  dsimp only
  rw [hsame]

theorem release_run (env : Env) (fh : Nat) (s : InnerFs H) : release env fh s = processClose env fh s := by
  unfold release
  rw [read_bind]
  split
  · rfl
  · rename_i hnone
    rw [SortedMap.contains_eq, Option.not_isSome_iff_eq_none] at hnone
    rw [processClose_missing env hnone]
    rfl

theorem unlink_run {parent : Nat} {name : Option FileName} (env : Env)
    (h : resolvePath s parent name = .ok path) : unlink env parent name s =
      if path ∈ s.pendingFiles then
        dropPending path { s with
          openFiles := s.openFiles.retain fun _ f => decide (f.path ≠ path) }
      else commitFileDelete env path { s with
        openFiles := s.openFiles.retain fun _ f => decide (f.path ≠ path)
        fileContents := s.fileContents.erase path } := by
  unfold unlink
  rw [read_bind, h, bind_of_ok (ofExcept_run _ _), modify_bind]
  split
  · rfl
  · rfl

theorem unlink_of_error {parent : Nat} {name : Option FileName} {e : Errno} (env : Env)
    (h : resolvePath s parent name = .error e) : unlink env parent name s = (.error e, s) := by
  unfold unlink
  rw [read_bind, h, bind_of_error (ofExcept_run _ _)]

/-- The state that a call leaves. -/
def InnerFs.after (env : Env) (s : InnerFs H) : Intent → InnerFs H
  | .create path => s.created path
  | .openRead => { s with nextFh := s.nextFh + 1 }
  | .openWrite path truncate =>
    s.withHandle ⟨path, if truncate then [] else (s.fileContents.get path).getD [], false⟩
  | .write fh offset data =>
    match s.openFiles.get fh with
    | none => s
    | some f => { s with
        openFiles := s.openFiles.insert fh { f with buffer := overlay f.buffer offset data } }
  | .flush fh | .release fh => (processClose env fh s).2
  | .unlink path =>
    if path ∈ s.pendingFiles then
      (dropPending path { s with
        openFiles := s.openFiles.retain fun _ f => decide (f.path ≠ path) }).2
    else (commitFileDelete env path { s with
      openFiles := s.openFiles.retain fun _ f => decide (f.path ≠ path)
      fileContents := s.fileContents.erase path }).2
  | .mkdir path => s.withDir path
  | .rmdir path => if isDirEmpty s path then s.withoutDir path else s
  | .look => s

theorem serve_run (env : Env) (call : Call) (s : InnerFs H) :
    (serve env call s).2 = s.after env (s.intent call) := by
  cases call with
  | lookup parent name => exact (snd_map ..).trans (lookup_unchanged parent name s)
  | getattr inode => exact (snd_map ..).trans (getattr_unchanged inode s)
  | setattr inode => exact (snd_map ..).trans (setattr_unchanged inode s)
  | read inode offset size => exact (snd_map ..).trans (readBytes_unchanged inode offset size s)
  | readdir parent offset => exact (snd_map ..).trans (readdir_unchanged parent offset s)
  | write fh offset data => exact (snd_map ..).trans (write_run s fh offset data)
  | create parent name =>
    refine (snd_map ..).trans ?_
    dsimp only [InnerFs.intent]
    cases h : resolvePath s parent name with
    | error e => rw [create_of_error h]; rfl
    | ok path =>
      rw [create_run h]
      rfl
  | unlink parent name =>
    refine (snd_map ..).trans ?_
    dsimp only [InnerFs.intent]
    cases h : resolvePath s parent name with
    | error e => rw [unlink_of_error env h]; rfl
    | ok path =>
      rw [unlink_run env h]
      exact apply_ite Prod.snd ..
  | mkdir parent name =>
    refine (snd_map ..).trans ?_
    dsimp only [InnerFs.intent]
    cases h : resolvePath s parent name with
    | error e => rw [mkdir_of_error h]; rfl
    | ok path =>
      rw [mkdir_run h]
      rfl
  | rmdir parent name =>
    refine (snd_map ..).trans ?_
    dsimp only [InnerFs.intent]
    cases h : resolvePath s parent name with
    | error e => rw [rmdir_of_error h]; rfl
    | ok path => exact rmdir_run h
  | openFile inode mode truncate =>
    refine (snd_map ..).trans ((openFile_run s inode mode truncate).trans ?_)
    dsimp only [InnerFs.intent]
    cases s.inodeMap.get inode with
    | none => rfl
    | some entry =>
      obtain ⟨kind, path⟩ := entry
      cases kind with
      | directory => rfl
      | file => cases mode <;> rfl
  | flush fh => exact snd_map ..
  | release fh => exact (snd_map ..).trans (congrArg Prod.snd (release_run env fh s))

end Suture.Vfs
