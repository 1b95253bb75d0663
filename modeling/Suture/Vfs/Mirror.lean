import Suture.Repo.Atomic
import Suture.Vfs.Commits
import Suture.Vfs.Replies

/-!
# The map that a mount stands for

A mount reads the tree of HEAD anew, also after a checkout.

A mount beside a map from paths to bytes: what each call comes to is told by paths, and the map
changes at the time of the call. The history says which handles missed a write and which files
have writes that no commit has seen.
-/

namespace Suture.Vfs
set_option autoImplicit false
open Foundation Common Patches Dag Engine Repo Program

section Mounting
variable {H : Type} [LinearOrder H] [Hashing H]

theorem quiet_stashPop : Quiet (Drift.ofView Repository.cachedHeadSnapshot) (stashPop (H := H)) := by
  have hhead : Quiet (Drift.ofView Repository.cachedHeadSnapshot) (head (H := H)) := fun s => by
    rcases head_cases s with ⟨e, hrun⟩ | ⟨branch, id, hrun⟩
    · rw [hrun]
      exact (Drift.ofView Repository.cachedHeadSnapshot).refl s
    · rw [hrun]
      rfl
  have hunstash (e : String × Option H) :
      Quiet (Drift.ofView Repository.cachedHeadSnapshot) (unstash e) := fun s =>
    (Prod.mk.inj (Prod.mk.inj (still_unstash e s).2.1).2).1
  refine quiet_read.bind fun s => ?_
  split
  · exact quiet_fail _
  · refine Quiet.bind (quiet_read.bind fun s => ?_) fun _ => ?_
    · split
      · exact quiet_fail _
      · exact hhead.attempt.bind fun _ => Quiet.forEach hunstash _
    · exact quiet_read.bind fun s => (quiet_require _ _).bind fun _ => quiet_modify fun _ => rfl

/-- A checkout leaves the tree of HEAD to be read anew. -/
theorem checkout_uncached {statHit : String → Bool} {target : Ref H} {s t : Repository H}
    {tree : FileTree H} (h : checkout statHit target s = (.ok tree, t)) :
    t.cachedHeadSnapshot = none := by
  obtain ⟨_, s₁, -, h⟩ := bind_ok h
  obtain ⟨r, s₂, -, h⟩ := bind_ok h
  obtain ⟨hasChanges, s₃, -, h⟩ := bind_ok h
  obtain ⟨_, s₄, -, h⟩ := bind_ok h
  obtain ⟨targetTree, s₅, -, h⟩ := bind_ok h
  obtain ⟨currentTree, s₆, -, h⟩ := bind_ok h
  obtain ⟨_, s₇, -, h⟩ := bind_ok h
  obtain ⟨_, s₈, -, h⟩ := bind_ok h
  obtain ⟨_, s₉, -, h⟩ := bind_ok h
  obtain ⟨_, s₁₀, hinvalidate, h⟩ := bind_ok h
  obtain ⟨_, s₁₁, hpop, h⟩ := bind_ok h
  cases h
  have hnone : s₁₀.cachedHeadSnapshot = none := by
    cases hinvalidate
    rfl
  have hquiet : Quiet (Drift.ofView Repository.cachedHeadSnapshot)
      (if hasChanges then stashPop else pure () : Repo.Action H Unit).attempt := by
    refine Quiet.attempt ?_
    split
    · exact quiet_stashPop
    · exact quiet_pure _
  have hsame := hquiet s₁₀
  rw [hpop] at hsame
  exact Eq.trans hsame hnone

/-- A repository as it is opened, with nothing in its caches. -/
def opened (s : Repository H) : Repository H :=
  { s with cachedHeadSnapshot := none, cachedHeadId := none, cachedHeadBranch := none }

/-- What is mounted is the tree of HEAD, read anew. -/
theorem mount_run {F : Prop} {s : Repository H} {statHit : String → Bool} {branch : Option (Ref H)}
    {fs : InnerFs H} (hs : Valid F s) (huncached : s.cachedHeadSnapshot = none)
    (h : (mount statHit branch s).1 = .ok fs) : ∃ t tree, Valid F t ∧ t.cachedHeadSnapshot = none ∧
      snapshotHead t = (.ok tree, fs.repo) ∧ fs = mounted fs.repo tree := by
  have hread : ∀ t : Repository H, Valid F t → t.cachedHeadSnapshot = none →
      ((do let tree ← snapshotHead; return mounted (← read) tree : Action H (InnerFs H)) t).1 = .ok fs →
      ∃ t tree, Valid F t ∧ t.cachedHeadSnapshot = none ∧ snapshotHead t = (.ok tree, fs.repo) ∧
        fs = mounted fs.repo tree := fun t ht hnone hrun => by
    obtain ⟨tree, u, htree, -, -⟩ := snapshotHead_run ht
    rw [bind_of_ok htree] at hrun
    cases hrun
    exact ⟨t, tree, ht, hnone, htree, rfl⟩
  unfold mount at h
  cases branch with
  | none => exact hread s hs huncached h
  | some target =>
    have hsafe := safe_checkout hs statHit target
    rcases hrun : checkout statHit target s with ⟨e | tree, t⟩
    · dsimp only at h
      rw [bind_of_error hrun] at h
      cases h
    · dsimp only at h
      rw [bind_of_ok hrun] at h
      have ht := hsafe.inv
      rw [hrun] at ht
      exact hread t ht (checkout_uncached hrun) h

theorem Ready.of_read {s t : Repository H} {tree : FileTree H} (hs : Valid True s)
    (huncached : s.cachedHeadSnapshot = none) (hrun : snapshotHead s = (.ok tree, t))
    (hmerge : t.pendingMergeParents = []) : Ready t tree := by
  obtain ⟨name, id, tree', t', hname, hget, hrun', hread, ht, -⟩ := snapshotHead_spec hs
  rw [hrun] at hrun'
  obtain ⟨htree, rfl⟩ := Prod.mk.inj hrun'
  cases htree
  obtain ⟨htreeOf, -⟩ := hread.stored huncached
  have hsame := hread.same
  refine ⟨ht, hmerge, ?_, name, id, ?_, ?_, ?_, ?_, ?_⟩
  · rw [hsame]
  · rw [hsame]
    exact hname
  · rw [← hget]
    unfold PatchDag.getBranch
    rw [hread.asked.queried.same.branches]
  · rw [hsame]
  · rw [hsame]
  · rw [← ht.treeOf_eq trivial, htreeOf]

/-! ### An empty repository -/

section Sample

def fresh : InnerFs Hash :=
  let r := snapshotHead (opened (sample []))
  mounted r.2 (r.1.toOption.getD .empty)

theorem mount_fresh : (mount (fun _ => false) none (opened (sample []))).1 = .ok fresh := by
  have hs : Valid False (opened (sample [])) :=
    { (reachable_sample []).valid with cachedKnown := nofun }
  obtain ⟨tree, t, hread, -, -⟩ := snapshotHead_run hs
  unfold mount fresh
  dsimp only
  rw [bind_of_ok hread, hread]
  rfl

def writable : Env := ⟨true, id, fun _ => .refl _⟩

def fileA : FileName := ⟨"a", by decide, by decide⟩

def fileB : FileName := ⟨"b", by decide, by decide⟩

end Sample

end Mounting

/-! ### Calls by paths -/

inductive Intent where
  | create (path : String)
  | openRead
  | openWrite (path : String) (truncate : Bool)
  | write (fh offset : Nat) (data : Bytes)
  | flush (fh : Nat)
  | release (fh : Nat)
  | unlink (path : String)
  | mkdir (path : String)
  | rmdir (path : String)
  | look
deriving DecidableEq

def Intent.ofPath (f : String → Intent) : Except Errno String → Intent
  | .ok path => f path
  | .error _ => .look

variable {H : Type} [LinearOrder H]

/-- Paths are those of the table of inode numbers at the call. -/
def InnerFs.intent (s : InnerFs H) : Call → Intent
  | .create parent name => .ofPath .create (resolvePath s parent name)
  | .unlink parent name => .ofPath .unlink (resolvePath s parent name)
  | .mkdir parent name => .ofPath .mkdir (resolvePath s parent name)
  | .rmdir parent name => .ofPath .rmdir (resolvePath s parent name)
  | .openFile inode mode truncate =>
    match s.inodeMap.get inode with
    | some ⟨.file, path⟩ => if mode = .readOnly then .openRead else .openWrite path truncate
    | _ => .look
  | .write fh offset data => .write fh offset data
  | .flush fh => .flush fh
  | .release fh => .release fh
  | .lookup _ _ | .getattr _ | .setattr _ | .read _ _ _ | .readdir _ _ => .look

/-! ### The map -/

/-- What is held, and the file that each handle writes to until it is released. -/
structure Mirror where
  holdings : Holdings
  handles : SortedMap Nat String
deriving DecidableEq

namespace Mirror

def setFile (m : Mirror) (path : String) (content : Bytes) : Mirror :=
  { m with holdings := { m.holdings with files := m.holdings.files.insert path content } }

def setMade (m : Mirror) (made : SortedSet String) : Mirror :=
  { m with holdings := { m.holdings with made := made } }

def openHandle (m : Mirror) (fh : Nat) (path : String) : Mirror :=
  { m with handles := m.handles.insert fh path }

/-- The content that a handle writes to. -/
def target (m : Mirror) (fh : Nat) : Option (String × Bytes) :=
  (m.handles.get fh).bind fun path => (m.holdings.files.get path).map fun content => (path, content)

/-- `fh` is the number that the next handle gets. -/
def step (m : Mirror) (fh : Nat) : Intent → Mirror
  | .create path =>
    (if m.holdings.files.contains path then m else m.setFile path []).openHandle fh path
  | .openWrite path truncate => (if truncate then m.setFile path [] else m).openHandle fh path
  | .write fh offset data =>
    match m.target fh with
    | some (path, content) => m.setFile path (overlay content offset data)
    | none => m
  | .release fh => { m with handles := m.handles.erase fh }
  | .unlink path =>
    { holdings := { m.holdings with files := m.holdings.files.erase path },
      handles := m.handles.retain fun _ p => decide (p ≠ path) }
  | .mkdir path => m.setMade (m.holdings.made.insert path)
  | .rmdir path => if m.holdings.IsBare path then m.setMade (m.holdings.made.erase path) else m
  | .openRead | .flush _ | .look => m

end Mirror

/-! ### The history -/

structure History where
  stale : SortedSet Nat
  unsaved : SortedSet String
deriving DecidableEq

/-- The other open handles of a file. -/
def InnerFs.others (s : InnerFs H) (path : String) (fh : Nat) : List Nat :=
  (s.openFiles.entries.filter fun e => decide (e.2.path = path ∧ e.1 ≠ fh)).map Prod.fst

namespace History

def mark (h : History) (fh : Nat) (missed : Bool) : History :=
  { h with stale := if missed then h.stale.insert fh else h.stale.erase fh }

/-- The file is written through one of its handles. -/
def written (h : History) (s : InnerFs H) (path : String) (fh : Nat) : History :=
  { stale := (s.others path fh).foldl (fun stale g => stale.insert g) h.stale,
    unsaved := h.unsaved.insert path }

/-- The buffer of a handle goes to the file. -/
def closed (h : History) (s : InnerFs H) (fh : Nat) : History :=
  match s.openFiles.get fh with
  | some f => { h with
      unsaved := if fh ∈ h.stale then h.unsaved.insert f.path else h.unsaved.erase f.path }
  | none => h

def step (h : History) (s : InnerFs H) (m : Mirror) : Intent → History
  | .create path => h.mark s.nextFh (decide ((m.holdings.files.get path).getD [] ≠ []))
  | .openWrite path truncate =>
    if truncate then (h.written s path s.nextFh).mark s.nextFh false
    else h.mark s.nextFh (decide (path ∈ h.unsaved))
  | .write fh _ _ =>
    match s.openFiles.get fh with
    | some f => h.written s f.path fh
    | none => h
  | .flush fh | .release fh => h.closed s fh
  | .unlink path => { h with unsaved := h.unsaved.erase path }
  | .openRead | .mkdir _ | .rmdir _ | .look => h

end History

/-! ### Sessions -/

structure Session (H : Type) [LinearOrder H] where
  fs : InnerFs H
  mirror : Mirror
  history : History

namespace Session
variable [Hashing H]

def start (fs : InnerFs H) : Session H := ⟨fs, ⟨fs.holdings, .empty⟩, ⟨.empty, .empty⟩⟩

def next (m : Session H) (e : Env × Call) : Session H where
  fs := (serve e.1 e.2 m.fs).2
  mirror := m.mirror.step m.fs.nextFh (m.fs.intent e.2)
  history := m.history.step m.fs m.mirror (m.fs.intent e.2)

/-- No handle that was opened for writing has yet to be released. -/
def AllClosed (m : Session H) : Prop := m.mirror.handles.entries = []

/-- Lookups, reads and listings show the map, and so does the tree of HEAD. -/
structure Agrees (m : Session H) : Prop where
  shows : Shows m.fs m.mirror.holdings
  head : ∃ tree, (snapshotHead m.fs.repo).1 = .ok tree ∧ ∀ path,
    (tree.get path).map m.fs.repo.blobs.get = (m.mirror.holdings.files.get path).map some

end Session

variable [Hashing H]

/-! ### Mounts -/

/-- A mount of a repository whose stored trees are what their histories replay to. -/
def IsMount (fs : InnerFs H) : Prop := ∃ author now files s statHit branch,
  Run Repository.next Event.Fresh (init author now files) s ∧
    (mount statHit branch (opened s)).1 = .ok fs

/-- No merge waits, nothing is staged, and no name ends like a marker. -/
structure Clean (fs : InnerFs H) : Prop where
  noMerge : fs.repo.pendingMergeParents = []
  noneStaged : stagedFiles fs.repo = []
  named : fs.holdings.Named

/-! ### Calls that do not go wrong -/

/-- The repository with a path added takes the commit. -/
def Takes (s : Repository H) (path message : String) : Prop :=
  ∀ label headId, (head (add path s).2).1 = .ok (label, headId) →
    Acceptable (add path s).2 message headId

/-- The content of a file can be committed, under a hash that no other content has, and no made
directory is without a file. -/
structure Commits (env : Env) (s : InnerFs H) (path message : String) (content : Bytes) : Prop where
  disk : env.disk = true
  takes : Takes { s.repo with files := s.repo.files.insert path content } path message
  distinct : ∀ data, s.repo.blobs.get (Hashing.fromData content) = some data → data = content
  filled : s.holdings.Filled

/-- The deletion of a file can be committed, and no made directory is left without a file. -/
structure Deletes (env : Env) (s : InnerFs H) (path : String) : Prop where
  disk : s.repo.files.contains path = true → env.disk = true
  takes : Takes { s.repo with files := s.repo.files.erase path } path ("vfs: delete " ++ path)
  filled : Holdings.Filled ⟨s.fileContents.erase path, s.pendingDirs⟩

def InnerFs.IsLast (s : InnerFs H) (fh : Nat) (path : String) : Prop :=
  ∀ g f, s.openFiles.get g = some f → f.path = path → g = fh

def changeMessage (f : OpenFile) : String :=
  (if f.isNew then "vfs: create " else "vfs: modify ") ++ f.path

/-- A new path is below directories, is not taken by the other kind, and does not end like a
marker. -/
structure InnerFs.Admits (s : InnerFs H) (path : String) (other : InodeKind) : Prop where
  parents : ∀ d ∈ dirsOf path, s.inodeMap.kindOf d = some .directory
  free : s.inodeMap.kindOf path ≠ some other
  noSuffix : endsWithD path = false

namespace Session

/-- The buffer of a handle can go to its file: the last of its handles missed no write, a new file
has content, and the commit can be made. -/
structure Saves (m : Session H) (env : Env) (fh : Nat) (f : OpenFile) : Prop where
  last : m.fs.IsLast fh f.path → fh ∉ m.history.stale
  kept : m.fs.fileContents.get f.path = some f.buffer → f.isNew = false
  commits : m.fs.fileContents.get f.path ≠ some f.buffer →
    Commits env m.fs f.path (changeMessage f) f.buffer

def Allows (m : Session H) (e : Env × Call) : Prop :=
  match m.fs.intent e.2 with
  | .create path => m.fs.Admits path .directory ∧ IsRepoPath path
  | .mkdir path => m.fs.Admits path .file
  | .write fh _ _ => m.fs.openFiles.contains fh = true ∨ m.mirror.handles.contains fh = false
  | .flush fh | .release fh => ∀ f, m.fs.openFiles.get fh = some f → m.Saves e.1 fh f
  | .unlink path => path ∉ m.fs.pendingFiles ∧
      (m.fs.fileContents.contains path = true → Deletes e.1 m.fs path)
  | .rmdir path => isDirEmpty m.fs path = true → path ∉ m.fs.pendingDirs
  | .openRead | .openWrite _ _ | .look => True

end Session
end Suture.Vfs
