import Suture.Repo.Operations
import Suture.Vfs.Inodes

/-!
# The mounted repository

Files are written through handles, each with a buffer of its own; a handle that is closed commits
its buffer. Created files and made directories that are in no commit are kept in sets beside the
repository. Whether the disk can be written, and the order in which a hash set is walked, are up
to the environment.
-/

namespace Suture.Vfs
set_option autoImplicit false
open Foundation Common Patches Engine Repo Program

structure OpenFile where
  path : String
  buffer : Bytes
  isNew : Bool
deriving DecidableEq

structure InnerFs (H : Type) [LinearOrder H] where
  inodeMap : InodeGenerator
  pathTranslator : PathTranslator
  fileContents : SortedMap String Bytes
  repo : Repository H
  openFiles : SortedMap Nat OpenFile
  nextFh : Nat
  pendingDirs : SortedSet String
  pendingFiles : SortedSet String

inductive Errno where
  | notExist
  | isDir
  | badHandle
  | notEmpty
  | io
deriving DecidableEq, Repr

structure Env where
  disk : Bool
  walk : List String → List String
  walk_perm : ∀ l, (walk l).Perm l

structure FileAttr where
  ino : Nat
  kind : InodeKind
  size : Nat
deriving DecidableEq, Repr

structure DirectoryEntry where
  inode : Nat
  kind : InodeKind
  name : String
  offset : Int
deriving DecidableEq, Repr

inductive AccessMode where
  | readOnly
  | writeOnly
  | readWrite
deriving DecidableEq, Repr

/-- The bytes from `offset` on replaced, with zeros up to there. -/
def overlay (buffer : Bytes) (offset : Nat) (data : Bytes) : Bytes :=
  let grown := buffer ++ List.replicate (offset + data.length - buffer.length) 0
  grown.take offset ++ data ++ grown.drop (offset + data.length)

abbrev Fs (H : Type) [LinearOrder H] (α : Type) := Program (InnerFs H) Errno α

variable {H : Type} [LinearOrder H]

/-! ### Tables read back from the repository -/

/-- Contents of the files of a tree, over what is there; blobs that are missing are left out. -/
def readBlobs (repo : Repository H) (tree : FileTree H) (contents : SortedMap String Bytes) :
    SortedMap String Bytes :=
  tree.entries.foldl (fun contents e =>
    match repo.blobs.get e.2 with
    | some data => contents.insert e.1 data
    | none => contents) contents

/-- The entries of a table that is built anew, in the order of their numbers. -/
def rebuiltEntries (t : PathTranslator) (pendingDirs : List String) : List InodeEntry :=
  ⟨.directory, ""⟩ ::
    ((t.dirs.elems.map stripD).filter fun d => decide (d ≠ "")).map (⟨.directory, ·⟩) ++
    ((t.files.keys.map stripD).filter fun path => !endsWithD path).map (⟨.file, ·⟩) ++
    pendingDirs.map (⟨.directory, ·⟩)

def InnerFs.allPaths (s : InnerFs H) : List String :=
  s.fileContents.keys ++ s.pendingDirs.elems.map marker

def InnerFs.rebuilt (s : InnerFs H) (tree : FileTree H) (walk : List String → List String) :
    InnerFs H :=
  let s := { s with
    fileContents := (readBlobs s.repo tree s.fileContents).retain fun path _ =>
      tree.contains path || decide (path ∈ s.pendingFiles) }
  let t := PathTranslator.build s.allPaths
  { s with
    pathTranslator := t
    inodeMap := InodeGenerator.new.allocAll (rebuiltEntries t (walk s.pendingDirs.elems)) }

section Rebuilt
variable (s : InnerFs H) (tree : FileTree H) (walk : List String → List String)

@[simp] theorem InnerFs.rebuilt_repo : (s.rebuilt tree walk).repo = s.repo := by
  rw [InnerFs.rebuilt]

@[simp] theorem InnerFs.rebuilt_openFiles : (s.rebuilt tree walk).openFiles = s.openFiles := by
  rw [InnerFs.rebuilt]

@[simp] theorem InnerFs.rebuilt_nextFh : (s.rebuilt tree walk).nextFh = s.nextFh := by
  rw [InnerFs.rebuilt]

@[simp] theorem InnerFs.rebuilt_pendingDirs :
    (s.rebuilt tree walk).pendingDirs = s.pendingDirs := by
  rw [InnerFs.rebuilt]

@[simp] theorem InnerFs.rebuilt_pendingFiles :
    (s.rebuilt tree walk).pendingFiles = s.pendingFiles := by
  rw [InnerFs.rebuilt]

theorem InnerFs.rebuilt_pathTranslator :
    (s.rebuilt tree walk).pathTranslator = .build (s.rebuilt tree walk).allPaths := by
  rw [InnerFs.rebuilt]
  rfl

theorem InnerFs.rebuilt_inodeMap : (s.rebuilt tree walk).inodeMap = InodeGenerator.new.allocAll
    (rebuiltEntries (.build (s.rebuilt tree walk).allPaths) (walk s.pendingDirs.elems)) := by
  rw [InnerFs.rebuilt]
  rfl

end Rebuilt

def rebuildPathTranslator : Fs H Unit :=
  modify fun s => { s with pathTranslator := .build s.allPaths }

/-- The file system as it is mounted. -/
def mounted (repo : Repository H) (tree : FileTree H) : InnerFs H :=
  let t := PathTranslator.build tree.keys
  { inodeMap := InodeGenerator.new.allocAll (⟨.directory, ""⟩ ::
      (t.dirs.elems.filter fun d => decide (d ≠ "")).map (⟨.directory, ·⟩) ++
      t.files.keys.map (⟨.file, ·⟩))
    pathTranslator := t, fileContents := readBlobs repo tree .empty, repo := repo,
    openFiles := .empty, nextFh := 1, pendingDirs := .empty, pendingFiles := .empty }

/-! ### Paths and listings -/

def ensure (p : Prop) [Decidable p] (e : Errno) : Fs H Unit := require p e

/-- A name that is not text is not found. -/
def resolvePath (s : InnerFs H) (parent : Nat) (name : Option FileName) : Except Errno String :=
  match name, s.inodeMap.getPath parent with
  | some name, some parentPath => .ok (join parentPath name)
  | _, _ => .error .notExist

def allocFh : Fs H Nat := do
  let s ← read
  modify fun s => { s with nextFh := s.nextFh + 1 }
  return s.nextFh

def ensureParentDirs (path : String) : Fs H Unit :=
  modify fun s => { s with
    inodeMap := s.inodeMap.allocAll ((dirsOf path).map (⟨.directory, ·⟩)) }

def pendingEntries (pendingDirs : List String) (dirPath : String) (entries : List DirEntry) :
    List DirEntry :=
  pendingDirs.foldl (fun entries dir =>
    if (parentOf dir).getD "" = dirPath ∧ ¬ entries.any fun e => decide (e.name = nameOf dir) then
      entries ++ [⟨nameOf dir, dir, true⟩]
    else entries) entries

def listDirEntries (s : InnerFs H) (dirPath : String) : List DirEntry :=
  let entries := (s.pathTranslator.listDir dirPath).filter fun e => !endsWithD e.path
  (pendingEntries s.pendingDirs.elems dirPath entries).insertionSort fun a b =>
    PathTranslator.before a b

def isDirEmpty (s : InnerFs H) (dirPath : String) : Bool := (listDirEntries s dirPath).isEmpty

/-- The buffer of a handle of the path, if there is one; which of several is not fixed. -/
def openBuffer (s : InnerFs H) (path : String) : Option Bytes :=
  (s.openFiles.entries.find? fun e => decide (e.2.path = path)).map fun e => e.2.buffer

def sizeOf (s : InnerFs H) (e : InodeEntry) : Nat :=
  match e.kind with
  | .file => ((s.fileContents.get e.path).map List.length).getD 0
  | .directory => 0

/-! ### Commits -/

/-- Runs an action on the repository; what it fails with becomes an input/output error. -/
def onRepo {α : Type} (m : Action H α) : Fs H α := fun s =>
  ((m s.repo).1.mapError fun _ => .io, { s with repo := (m s.repo).2 })

variable [Hashing H]

def rebuildFromRepo (env : Env) : Fs H Unit := do
  let tree ← onRepo snapshotHead
  modify fun s => s.rebuilt tree env.walk

def commitFileChange (env : Env) (path : String) (content : Bytes) (isNew : Bool) : Fs H Unit := do
  ensure env.disk .io
  onRepo (writeFile path content)
  onRepo (add path)
  let _ ← onRepo (commit ((if isNew then "vfs: create " else "vfs: modify ") ++ path))
  modify fun s => { s with pendingFiles := s.pendingFiles.erase path }
  rebuildFromRepo env

/-- A file that is there has to be removed first. -/
def removeFromDisk (env : Env) (path : String) : Fs H Unit := do
  if (← read).repo.files.contains path then
    ensure env.disk .io
    onRepo (removeFile path)
  else pure ()

def commitFileDelete (env : Env) (path : String) : Fs H Unit := do
  removeFromDisk env path
  onRepo (add path)
  let _ ← onRepo (commit ("vfs: delete " ++ path))
  rebuildFromRepo env

def dropPending (path : String) : Fs H Unit := do
  modify fun s => { s with
    pendingFiles := s.pendingFiles.erase path, fileContents := s.fileContents.erase path }
  rebuildPathTranslator

/-- Commits the buffer of a handle if it differs from the file; a new file without content is
forgotten. -/
def processClose (env : Env) (fh : Nat) : Fs H Unit := do
  let openFile := (← read).openFiles.get fh
  modify fun s => { s with openFiles := s.openFiles.erase fh }
  match openFile with
  | none => pure ()
  | some f => do
    let existing := (← read).fileContents.get f.path
    if existing ≠ some f.buffer then commitFileChange env f.path f.buffer f.isNew
    else if f.isNew then dropPending f.path
    else pure ()

/-! ### Calls of the kernel -/

def lookup (parent : Nat) (name : Option FileName) : Fs H FileAttr := do
  let s ← read
  let childPath ← ofExcept (resolvePath s parent name)
  match s.inodeMap.lookup childPath with
  | none => fail .notExist
  | some inode =>
    match s.inodeMap.get inode with
    | none => fail .notExist
    | some entry => return ⟨inode, entry.kind, sizeOf s ⟨entry.kind, childPath⟩⟩

def getattr (inode : Nat) : Fs H FileAttr := do
  let s ← read
  match s.inodeMap.get inode with
  | none => fail .notExist
  | some entry =>
    match entry.kind with
    | .directory => return ⟨inode, .directory, 0⟩
    | .file =>
      let size := ((openBuffer s entry.path).map List.length).getD (sizeOf s entry)
      return ⟨inode, .file, size⟩

/-- What is to be set is not looked at. -/
def setattr (inode : Nat) : Fs H FileAttr := do
  let s ← read
  match s.inodeMap.get inode with
  | none => fail .notExist
  | some entry => return ⟨inode, entry.kind, sizeOf s entry⟩

def readBytes (inode offset size : Nat) : Fs H Bytes := do
  let s ← read
  match s.inodeMap.get inode with
  | none => fail .notExist
  | some entry =>
    ensure (entry.kind = .file) .isDir
    let data := (openBuffer s entry.path).getD ((s.fileContents.get entry.path).getD [])
    if data.length ≤ offset then return []
    else return (data.drop offset).take size

def write (fh offset : Nat) (data : Bytes) : Fs H Nat := do
  match (← read).openFiles.get fh with
  | none => fail .badHandle
  | some f =>
    modify fun s => { s with
      openFiles := s.openFiles.insert fh { f with buffer := overlay f.buffer offset data } }
    return data.length

/-- Attributes of the file and the handle. -/
def create (parent : Nat) (name : Option FileName) : Fs H (FileAttr × Nat) := do
  let s ← read
  let path ← ofExcept (resolvePath s parent name)
  let isNew := decide (path ∉ s.pendingFiles) || !s.fileContents.contains path
  ensureParentDirs path
  let inode := ((← read).inodeMap.allocFile path).1
  modify fun s => { s with
    inodeMap := (s.inodeMap.allocFile path).2
    fileContents := if s.fileContents.contains path then s.fileContents
      else s.fileContents.insert path []
    pendingFiles := s.pendingFiles.insert path }
  rebuildPathTranslator
  let fh ← allocFh
  modify fun s => { s with openFiles := s.openFiles.insert fh ⟨path, [], isNew⟩ }
  return (⟨inode, .file, 0⟩, fh)

def unlink (env : Env) (parent : Nat) (name : Option FileName) : Fs H Unit := do
  let s ← read
  let path ← ofExcept (resolvePath s parent name)
  modify fun s => { s with openFiles := s.openFiles.retain fun _ f => decide (f.path ≠ path) }
  if path ∈ s.pendingFiles then dropPending path
  else
    modify fun s => { s with fileContents := s.fileContents.erase path }
    commitFileDelete env path

def mkdir (parent : Nat) (name : Option FileName) : Fs H FileAttr := do
  let s ← read
  let path ← ofExcept (resolvePath s parent name)
  modify fun s => { s with
    inodeMap := (s.inodeMap.allocDir path).2, pendingDirs := s.pendingDirs.insert path }
  rebuildPathTranslator
  match (← read).inodeMap.lookup path with
  | none => fail .notExist
  | some inode => return ⟨inode, .directory, 0⟩

def rmdir (parent : Nat) (name : Option FileName) : Fs H Unit := do
  let s ← read
  let path ← ofExcept (resolvePath s parent name)
  ensure (isDirEmpty s path) .notEmpty
  modify fun s => { s with pendingDirs := s.pendingDirs.erase path }
  rebuildPathTranslator

/-- Numbers the entries from 3 on, and leaves out those up to `offset`. -/
def readdir (parent : Nat) (offset : Int) : Fs H (List DirectoryEntry) := do
  let s ← read
  match s.inodeMap.getPath parent with
  | none => fail .notExist
  | some parentPath =>
    return (listDirEntries s parentPath).zipIdx.filterMap fun (e, i) =>
      if (i : Int) + 3 ≤ offset then none
      else (s.inodeMap.lookup e.path).bind fun inode => (s.inodeMap.get inode).map fun entry =>
        ⟨inode, entry.kind, e.name, i + 3⟩

def openFile (inode : Nat) (mode : AccessMode) (truncate : Bool) : Fs H Nat := do
  let s ← read
  match s.inodeMap.get inode with
  | none => fail .notExist
  | some entry =>
    ensure (entry.kind = .file) .isDir
    let fh ← allocFh
    match mode with
    | .readOnly => return fh
    | .writeOnly | .readWrite =>
      let content := if truncate then [] else (s.fileContents.get entry.path).getD []
      modify fun s => { s with openFiles := s.openFiles.insert fh ⟨entry.path, content, false⟩ }
      return fh

def flush (env : Env) (fh : Nat) : Fs H Unit := processClose env fh

def release (env : Env) (fh : Nat) : Fs H Unit := do
  if (← read).openFiles.contains fh then processClose env fh else pure ()

inductive Call where
  | lookup (parent : Nat) (name : Option FileName)
  | getattr (inode : Nat)
  | setattr (inode : Nat)
  | read (inode offset size : Nat)
  | write (fh offset : Nat) (data : Bytes)
  | create (parent : Nat) (name : Option FileName)
  | unlink (parent : Nat) (name : Option FileName)
  | mkdir (parent : Nat) (name : Option FileName)
  | rmdir (parent : Nat) (name : Option FileName)
  | readdir (parent : Nat) (offset : Int)
  | openFile (inode : Nat) (mode : AccessMode) (truncate : Bool)
  | flush (fh : Nat)
  | release (fh : Nat)

inductive Reply where
  | attr (a : FileAttr)
  | data (bytes : Bytes)
  | written (count : Nat)
  | created (a : FileAttr) (fh : Nat)
  | entries (es : List DirectoryEntry)
  | opened (fh : Nat)
  | done

def serve (env : Env) : Call → Fs H Reply
  | .lookup parent name => Reply.attr <$> lookup parent name
  | .getattr inode => Reply.attr <$> getattr inode
  | .setattr inode => Reply.attr <$> setattr inode
  | .read inode offset size => Reply.data <$> readBytes inode offset size
  | .write fh offset data => Reply.written <$> write fh offset data
  | .create parent name => (fun r => Reply.created r.1 r.2) <$> create parent name
  | .unlink parent name => (fun _ => Reply.done) <$> unlink env parent name
  | .mkdir parent name => Reply.attr <$> mkdir parent name
  | .rmdir parent name => (fun _ => Reply.done) <$> rmdir parent name
  | .readdir parent offset => Reply.entries <$> readdir parent offset
  | .openFile inode mode truncate => Reply.opened <$> openFile inode mode truncate
  | .flush fh => (fun _ => Reply.done) <$> flush env fh
  | .release fh => (fun _ => Reply.done) <$> release env fh

/-- Mounts an open repository, with a branch checked out if one is named. -/
def mount (statHit : String → Bool) (branch : Option (Ref H)) : Action H (InnerFs H) := do
  match branch with
  | some target => do let _ ← checkout statHit target
  | none => pure ()
  let tree ← snapshotHead
  return mounted (← read) tree

end Suture.Vfs
