import Suture.Vfs.Numbers

/-!
# Numbers that the kernel knows

The kernel keeps the inode numbers that replies hand out. Calls that add a path give it the next
number; a commit numbers all paths anew.
-/

namespace Suture.Vfs
set_option autoImplicit false
open Foundation Common Patches Dag Engine Repo Program

variable {H : Type} [LinearOrder H]

/-! ### What the kernel knows -/

/-- A mount with the numbers that were handed out and their paths: those known, and those whose
path was deleted since. -/
structure Kernel (H : Type) [LinearOrder H] where
  fs : InnerFs H
  known : List (Nat × String)
  gone : List (Nat × String)

/-- Known numbers denote their paths, and the others no other path than theirs. -/
def Reads (pathOf : Nat → Option String) (known gone : List (Nat × String)) : Prop :=
  (∀ x ∈ known, pathOf x.1 = some x.2) ∧ ∀ x ∈ gone, pathOf x.1 = none ∨ pathOf x.1 = some x.2

instance (pathOf : Nat → Option String) (known gone : List (Nat × String)) :
    Decidable (Reads pathOf known gone) := inferInstanceAs (Decidable (_ ∧ _))

/-- The numbers that a reply hands out, with the paths that were asked for. -/
def told (s : InnerFs H) : Call → Except Errno Reply → List (Nat × String)
  | .lookup parent name, .ok (.attr a) | .mkdir parent name, .ok (.attr a)
  | .create parent name, .ok (.created a _) =>
    match resolvePath s parent name with
    | .ok path => [(a.ino, path)]
    | .error _ => []
  | .readdir _ _, .ok (.entries es) =>
    es.filterMap fun e => (s.inodeMap.getPath e.inode).map fun path => (e.inode, path)
  | _, _ => []

/-- The path that a call deleted. -/
def deleted (s : InnerFs H) : Call → Except Errno Reply → Option String
  | .unlink parent name, .ok _ | .rmdir parent name, .ok _ => (resolvePath s parent name).toOption
  | _, _ => none

namespace Kernel

def start (fs : InnerFs H) : Kernel H := ⟨fs, [], []⟩

def without (m : Kernel H) (path : Option String) : List (Nat × String) :=
  m.known.filter fun x => decide (some x.2 ≠ path)

def dropped (m : Kernel H) (path : Option String) : List (Nat × String) :=
  m.gone ++ m.known.filter fun x => decide (some x.2 = path)

def Stable (m : Kernel H) : Prop := Reads m.fs.inodeMap.getPath m.known m.gone

variable [Hashing H]

def next (m : Kernel H) (e : Env × Call) : Kernel H :=
  let r := serve e.1 e.2 m.fs
  let path := deleted m.fs e.2 r.1
  ⟨r.2, m.without path ++ told m.fs e.2 r.1, m.dropped path⟩

end Kernel

variable [Hashing H]

/-- The paths in the order of their numbers once the buffer of a handle is committed. -/
def InnerFs.closedNames (env : Env) (s : InnerFs H) (f : OpenFile) : List String :=
  InnerFs.namesAfter env { s with pendingFiles := s.pendingFiles.erase f.path } (recordedFiles
    (add f.path { s.repo with files := s.repo.files.insert f.path f.buffer }).2)

/-- The paths in the order of their numbers once the deletion of a file is committed. -/
def InnerFs.unlinkedNames (env : Env) (s : InnerFs H) (path : String) : List String :=
  InnerFs.namesAfter env { s with fileContents := s.fileContents.erase path } (recordedFiles
    (add path { s.repo with files := s.repo.files.erase path }).2)

/-- New paths get no number that was handed out for another path. A commit that goes through
leaves the known paths, without a deleted one, at the places of their numbers, and no other path
at those of the deleted ones. -/
def Kernel.Allows (m : Kernel H) (e : Env × Call) : Prop :=
  match m.fs.intent e.2 with
  | .create path => Reads (InodeGenerator.nameAt m.fs.inodeMap.next (m.fs.inodeMap.unnumbered
      ((dirsOf path).map (InodeEntry.mk .directory) ++ [⟨.file, path⟩]))) [] m.gone
  | .mkdir path => Reads (InodeGenerator.nameAt m.fs.inodeMap.next
      (m.fs.inodeMap.unnumbered [⟨.directory, path⟩])) [] m.gone
  | .flush fh | .release fh => ∀ f, m.fs.openFiles.get fh = some f →
      m.fs.fileContents.get f.path ≠ some f.buffer → e.1.disk = true →
      Lands { m.fs.repo with files := m.fs.repo.files.insert f.path f.buffer } f.path
        (changeMessage f) →
      Reads (InodeGenerator.nameAt 1 (m.fs.closedNames e.1 f)) m.known m.gone
  | .unlink path => path ∉ m.fs.pendingFiles →
      (m.fs.repo.files.contains path = true → e.1.disk = true) →
      Lands { m.fs.repo with files := m.fs.repo.files.erase path } path ("vfs: delete " ++ path) →
      Reads (InodeGenerator.nameAt 1 (m.fs.unlinkedNames e.1 path)) (m.without (some path))
        (m.dropped (some path))
  | .openRead | .openWrite _ _ | .write _ _ _ | .rmdir _ | .look => True

/-! ### Replies -/

variable {s : InnerFs H} {m : Kernel H} {path : String}

omit [Hashing H] in
theorem getPath_alloc {g : InodeGenerator} (hg : g.Ok) (path : String) (kind : InodeKind) :
    (g.alloc path kind).2.getPath (g.alloc path kind).1 = some path :=
  (hg.alloc path kind).getPath_of_lookup (g.fst_alloc path kind)

omit [Hashing H] in
theorem lookup_ino {parent : Nat} {name : Option FileName} {a : FileAttr}
    (h : (lookup parent name s).1 = .ok a) : ∃ path, resolvePath s parent name = .ok path ∧
      s.inodeMap.lookup path = some a.ino := by
  unfold lookup at h
  rw [read_bind] at h
  cases hpath : resolvePath s parent name with
  | error e =>
    rw [hpath, bind_of_error (ofExcept_run _ _)] at h
    cases h
  | ok path =>
    rw [hpath, bind_of_ok (ofExcept_run _ _)] at h
    refine ⟨path, rfl, ?_⟩
    cases hinode : s.inodeMap.lookup path with
    | none =>
      rw [hinode] at h
      cases h
    | some inode =>
      rw [hinode] at h
      dsimp only at h
      cases hentry : s.inodeMap.get inode with
      | none =>
        rw [hentry] at h
        cases h
      | some entry =>
        rw [hentry] at h
        cases h
        rfl

/-- The table has a number that is handed out under the path that was asked for. -/
theorem told_path (hok : s.inodeMap.Ok) (env : Env) (call : Call) :
    ∀ x ∈ told s call (serve env call s).1,
      (serve env call s).2.inodeMap.getPath x.1 = some x.2 := by
  intro x hx
  cases call with
  | lookup parent name =>
    have hsame : (serve env (.lookup parent name) s).2 = s :=
      (snd_map ..).trans (lookup_unchanged parent name s)
    have hreply : (serve env (.lookup parent name) s).1 = (lookup parent name s).1.map .attr :=
      fst_map ..
    rw [hreply] at hx
    rw [hsame]
    cases ha : (lookup parent name s).1 with
    | error e =>
      rw [ha] at hx
      cases hx
    | ok a =>
      obtain ⟨path, hpath, hinode⟩ := lookup_ino ha
      rw [ha] at hx
      change x ∈ (match resolvePath s parent name with
        | .ok path => [(a.ino, path)]
        | .error _ => []) at hx
      rw [hpath] at hx
      cases List.mem_singleton.mp hx
      exact hok.getPath_of_lookup hinode
  | create parent name =>
    cases hpath : resolvePath s parent name with
    | error e =>
      have hreply : (serve env (.create parent name) s).1 = .error e := by
        refine (fst_map ..).trans ?_
        rw [create_of_error hpath]
        rfl
      rw [hreply] at hx
      cases hx
    | ok path =>
      have hrun := create_run hpath
      have hafter : (serve env (.create parent name) s).2 = s.created path := by
        refine (snd_map ..).trans ?_
        rw [hrun]
      have hreply := fst_map (fun r : FileAttr × Nat => Reply.created r.1 r.2) (create parent name) s
      rw [hrun] at hreply
      change (serve env (.create parent name) s).1 = _ at hreply
      rw [hreply] at hx
      change x ∈ (match resolvePath s parent name with
        | .ok path => [(_, path)]
        | .error _ => []) at hx
      rw [hpath] at hx
      cases List.mem_singleton.mp hx
      rw [hafter]
      exact getPath_alloc (hok.allocAll _) path .file
  | mkdir parent name =>
    cases hpath : resolvePath s parent name with
    | error e =>
      have hreply : (serve env (.mkdir parent name) s).1 = .error e := by
        refine (fst_map ..).trans ?_
        rw [mkdir_of_error hpath]
        rfl
      rw [hreply] at hx
      cases hx
    | ok path =>
      have hrun := mkdir_run hpath
      have hafter : (serve env (.mkdir parent name) s).2 = s.withDir path := by
        refine (snd_map ..).trans ?_
        rw [hrun]
      have hreply := fst_map Reply.attr (mkdir parent name) s
      rw [hrun] at hreply
      change (serve env (.mkdir parent name) s).1 = _ at hreply
      rw [hreply] at hx
      change x ∈ (match resolvePath s parent name with
        | .ok path => [(_, path)]
        | .error _ => []) at hx
      rw [hpath] at hx
      cases List.mem_singleton.mp hx
      rw [hafter]
      exact getPath_alloc hok path .directory
  | readdir parent offset =>
    have hsame : (serve env (.readdir parent offset) s).2 = s :=
      (snd_map ..).trans (readdir_unchanged parent offset s)
    have hreply : (serve env (.readdir parent offset) s).1 =
        (readdir parent offset s).1.map .entries := fst_map ..
    rw [hreply] at hx
    rw [hsame]
    cases hes : (readdir parent offset s).1 with
    | error e =>
      rw [hes] at hx
      cases hx
    | ok es =>
      rw [hes] at hx
      obtain ⟨e, -, he⟩ := List.mem_filterMap.mp hx
      obtain ⟨path, hpath, rfl⟩ := Option.map_eq_some_iff.mp he
      exact hpath
  | getattr | setattr | read | write | unlink | rmdir | openFile | flush | release =>
    unfold told at hx
    split at hx <;> contradiction

/-! ### Tables after a call -/

omit [Hashing H] in
theorem Kernel.without_none (m : Kernel H) : m.without none = m.known :=
  List.filter_eq_self.mpr fun _ _ => rfl

omit [Hashing H] in
theorem Kernel.dropped_none (m : Kernel H) : m.dropped none = m.gone := by
  have hnone : m.known.filter (fun x => decide (some x.2 = none)) = [] :=
    List.filter_eq_nil_iff.mpr fun _ _ => nofun
  rw [Kernel.dropped, hnone, List.append_nil]

omit [Hashing H] in
/-- A path may be deleted and still have its number. -/
theorem Kernel.Stable.drop (h : m.Stable) (path : Option String) :
    Reads m.fs.inodeMap.getPath (m.without path) (m.dropped path) := by
  refine ⟨fun x hx => h.1 x (List.mem_filter.mp hx).1, fun x hx => ?_⟩
  rcases List.mem_append.mp hx with hx | hx
  · exact h.2 x hx
  · exact .inr (h.1 x (List.mem_filter.mp hx).1)

omit [LinearOrder H] [Hashing H] in
/-- New paths get numbers that no deleted path had. -/
theorem Reads.allocAll {g : InodeGenerator} (hg : g.Ok) {known gone : List (Nat × String)}
    (h : Reads g.getPath known gone) {es : List InodeEntry}
    (hspares : Reads (InodeGenerator.nameAt g.next (g.unnumbered es)) [] gone) :
    Reads (g.allocAll es).getPath known gone := by
  refine ⟨fun x hx => ?_, fun x hx => ?_⟩
  · rw [hg.getPath_allocAll, h.1 x hx, Option.some_or]
  · rw [hg.getPath_allocAll]
    rcases h.2 x hx with hnone | hsome
    · rw [hnone, Option.none_or]
      exact hspares.2 x hx
    · rw [hsome, Option.some_or]
      exact .inr rfl

/-- The table after a close: as it was, or numbered anew by a commit that goes through. -/
theorem processClose_table (hs : Valid False s.repo) (hok : s.inodeMap.Ok) (env : Env) (fh : Nat) :
    Valid False (processClose env fh s).2.repo ∧ (processClose env fh s).2.inodeMap.Ok ∧
      ((processClose env fh s).2.inodeMap = s.inodeMap ∨ ∃ f, s.openFiles.get fh = some f ∧
        s.fileContents.get f.path ≠ some f.buffer ∧ env.disk = true ∧
        Lands { s.repo with files := s.repo.files.insert f.path f.buffer } f.path (changeMessage f) ∧
        ∀ n, (processClose env fh s).2.inodeMap.getPath n =
          InodeGenerator.nameAt 1 (s.closedNames env f) n) := by
  rw [processClose_run]
  cases hopen : s.openFiles.get fh with
  | none => exact ⟨hs, hok, .inl rfl⟩
  | some f =>
    dsimp only
    split
    · rename_i hchanged
      obtain ⟨hvalid, hok, htable⟩ := commitFileChange_renumbers
        (s := { s with openFiles := s.openFiles.erase fh }) hs hok env f.path f.buffer f.isNew
      refine ⟨hvalid, hok, ?_⟩
      rcases htable with ⟨-, hsame⟩ | ⟨⟨hdisk, hlands⟩, -, hpaths⟩
      · exact .inl hsame
      · exact .inr ⟨f, rfl, hchanged, hdisk, hlands, hpaths⟩
    · split
      · exact ⟨hs, hok, .inl rfl⟩
      · exact ⟨hs, hok, .inl rfl⟩

/-- The table after the deletion of a file: as it was unless it was not pending and the deletion
was committed. -/
theorem unlink_table (hs : Valid False s.repo) (hok : s.inodeMap.Ok) (env : Env) {parent : Nat}
    {name : Option FileName} (hpath : resolvePath s parent name = .ok path) :
    Valid False (unlink env parent name s).2.repo ∧ (unlink env parent name s).2.inodeMap.Ok ∧
      ((unlink env parent name s).2.inodeMap = s.inodeMap ∨
        path ∉ s.pendingFiles ∧ (s.repo.files.contains path = true → env.disk = true) ∧
        Lands { s.repo with files := s.repo.files.erase path } path ("vfs: delete " ++ path) ∧
        (unlink env parent name s).1 = .ok () ∧
        ∀ n, (unlink env parent name s).2.inodeMap.getPath n =
          InodeGenerator.nameAt 1 (s.unlinkedNames env path) n) := by
  rw [unlink_run env hpath]
  split
  · exact ⟨hs, hok, .inl rfl⟩
  · rename_i hpending
    obtain ⟨hvalid, hok, htable⟩ := commitFileDelete_renumbers (s := { s with
      openFiles := s.openFiles.retain fun _ f => decide (f.path ≠ path)
      fileContents := s.fileContents.erase path }) hs hok env path
    refine ⟨hvalid, hok, ?_⟩
    rcases htable with ⟨-, hsame⟩ | ⟨⟨hdisk, hlands⟩, hok, hpaths⟩
    · exact .inl hsame
    · exact .inr ⟨hpending, hdisk, hlands, hok, hpaths⟩

/-! ### Runs -/

structure Kernel.Sound (m : Kernel H) : Prop where
  valid : Valid False m.fs.repo
  table : m.fs.inodeMap.Ok
  stable : m.Stable

/-- What is handed out is known from then on. -/
theorem Kernel.Sound.of_reads (h : m.Sound) (e : Env × Call)
    (hvalid : Valid False (serve e.1 e.2 m.fs).2.repo) (hok : (serve e.1 e.2 m.fs).2.inodeMap.Ok)
    (hreads : Reads (serve e.1 e.2 m.fs).2.inodeMap.getPath
      (m.without (deleted m.fs e.2 (serve e.1 e.2 m.fs).1))
      (m.dropped (deleted m.fs e.2 (serve e.1 e.2 m.fs).1))) : (m.next e).Sound := by
  refine ⟨hvalid, hok, fun x hx => ?_, hreads.2⟩
  rcases List.mem_append.mp hx with hx | hx
  · exact hreads.1 x hx
  · exact told_path h.table e.1 e.2 x hx

/-- A call that leaves the table alone. -/
theorem Kernel.Sound.of_same (h : m.Sound) (e : Env × Call)
    (hrepo : (serve e.1 e.2 m.fs).2.repo = m.fs.repo)
    (hsame : (serve e.1 e.2 m.fs).2.inodeMap = m.fs.inodeMap) : (m.next e).Sound := by
  refine h.of_reads e ?_ ?_ ?_
  · rw [hrepo]
    exact h.valid
  · rw [hsame]
    exact h.table
  · rw [hsame]
    exact h.stable.drop _

/-- A call that adds entries to the table. -/
theorem Kernel.Sound.of_entries (h : m.Sound) (e : Env × Call) {es : List InodeEntry}
    (hnone : deleted m.fs e.2 (serve e.1 e.2 m.fs).1 = none)
    (hrepo : (serve e.1 e.2 m.fs).2.repo = m.fs.repo)
    (hentries : (serve e.1 e.2 m.fs).2.inodeMap = m.fs.inodeMap.allocAll es)
    (hspares : Reads (InodeGenerator.nameAt m.fs.inodeMap.next (m.fs.inodeMap.unnumbered es)) []
      m.gone) : (m.next e).Sound := by
  refine h.of_reads e ?_ ?_ ?_
  · rw [hrepo]
    exact h.valid
  · rw [hentries]
    exact h.table.allocAll es
  · rw [hentries, hnone, m.without_none, m.dropped_none]
    exact Reads.allocAll h.table h.stable hspares

/-- The handle of a file is closed, by a flush or a release. -/
theorem Kernel.Sound.close (h : m.Sound) (e : Env × Call) {fh : Nat}
    (hnone : deleted m.fs e.2 (serve e.1 e.2 m.fs).1 = none)
    (hafter : (serve e.1 e.2 m.fs).2 = (processClose e.1 fh m.fs).2)
    (ha : ∀ f, m.fs.openFiles.get fh = some f → m.fs.fileContents.get f.path ≠ some f.buffer →
      e.1.disk = true → Lands { m.fs.repo with
        files := m.fs.repo.files.insert f.path f.buffer } f.path (changeMessage f) →
      Reads (InodeGenerator.nameAt 1 (m.fs.closedNames e.1 f)) m.known m.gone) :
    (m.next e).Sound := by
  obtain ⟨hvalid, hok, htable⟩ := processClose_table h.valid h.table e.1 fh
  rw [← hafter] at hvalid hok htable
  refine h.of_reads e hvalid hok ?_
  rw [hnone, m.without_none, m.dropped_none]
  rcases htable with hsame | ⟨f, hopen, hchanged, hdisk, hlands, hpaths⟩
  · rw [hsame]
    exact h.stable
  · rw [funext hpaths]
    exact ha f hopen hchanged hdisk hlands

theorem Kernel.Sound.unlink (h : m.Sound) (env : Env) {parent : Nat} {name : Option FileName}
    (hpath : resolvePath m.fs parent name = .ok path)
    (ha : path ∉ m.fs.pendingFiles → (m.fs.repo.files.contains path = true → env.disk = true) →
      Lands { m.fs.repo with files := m.fs.repo.files.erase path } path ("vfs: delete " ++ path) →
      Reads (InodeGenerator.nameAt 1 (m.fs.unlinkedNames env path)) (m.without (some path))
        (m.dropped (some path))) : (m.next (env, .unlink parent name)).Sound := by
  obtain ⟨hvalid, hok, htable⟩ := unlink_table h.valid h.table env hpath
  have hafter : (serve env (.unlink parent name) m.fs).2 = (Vfs.unlink env parent name m.fs).2 :=
    snd_map ..
  rw [← hafter] at hvalid hok htable
  refine h.of_reads _ hvalid hok ?_
  rcases htable with hsame | ⟨hpending, hdisk, hlands, hreturns, hpaths⟩
  · rw [hsame]
    exact h.stable.drop _
  · have hreply : (serve env (.unlink parent name) m.fs).1 = .ok .done := by
      refine (fst_map ..).trans ?_
      rw [hreturns]
      rfl
    have hdeleted : deleted m.fs (.unlink parent name) (.ok .done) = some path := by
      change (resolvePath m.fs parent name).toOption = _
      rw [hpath]
      rfl
    rw [hreply, hdeleted, funext hpaths]
    exact ha hpending hdisk hlands

/-- Calls that commit nothing and add no path. -/
def Intent.Passive : Intent → Prop
  | .openRead | .openWrite _ _ | .write _ _ _ | .rmdir _ | .look => True
  | .create _ | .mkdir _ | .flush _ | .release _ | .unlink _ => False

theorem after_passive (env : Env) {i : Intent} (hi : i.Passive) :
    (s.after env i).repo = s.repo ∧ (s.after env i).inodeMap = s.inodeMap := by
  cases i with
  | openRead | openWrite | look => exact ⟨rfl, rfl⟩
  | write fh offset data =>
    dsimp only [InnerFs.after]
    cases s.openFiles.get fh <;> exact ⟨rfl, rfl⟩
  | rmdir path =>
    dsimp only [InnerFs.after]
    split <;> exact ⟨rfl, rfl⟩
  | create | mkdir | flush | release | unlink => cases hi

theorem Kernel.Sound.passive (h : m.Sound) {e : Env × Call} (he : (m.fs.intent e.2).Passive) :
    (m.next e).Sound := by
  have hafter := serve_run e.1 e.2 m.fs
  obtain ⟨hrepo, htable⟩ := after_passive (s := m.fs) e.1 he
  exact h.of_same e ((congrArg InnerFs.repo hafter).trans hrepo)
    ((congrArg InnerFs.inodeMap hafter).trans htable)

theorem Kernel.Sound.next (h : m.Sound) {e : Env × Call} (ha : m.Allows e) : (m.next e).Sound := by
  obtain ⟨env, call⟩ := e
  have hafter := serve_run env call m.fs
  unfold Kernel.Allows at ha
  have hlook {r : Except Errno String} {err : Errno} (hr : r = .error err) (f : String → Intent) :
      (Intent.ofPath f r).Passive := by
    rw [hr]
    trivial
  cases call with
  | lookup | getattr | setattr | read | readdir | write => exact h.passive trivial
  | openFile inode mode truncate =>
    refine h.passive ?_
    dsimp only [InnerFs.intent]
    split
    · split <;> trivial
    · trivial
  | rmdir parent name =>
    refine h.passive ?_
    dsimp only [InnerFs.intent]
    cases resolvePath m.fs parent name <;> trivial
  | create parent name =>
    cases hpath : resolvePath m.fs parent name with
    | error err => exact h.passive (hlook hpath .create)
    | ok path =>
      dsimp only [InnerFs.intent] at ha hafter
      rw [hpath] at ha hafter
      have hcreated : (serve env (.create parent name) m.fs).2 = m.fs.created path := hafter
      refine h.of_entries _ rfl ?_ ?_ ha
      · dsimp only
        rw [hcreated]
        rfl
      · dsimp only
        rw [hcreated]
        change ((m.fs.inodeMap.allocAll _).alloc path .file).2 = _
        rw [InodeGenerator.allocAll, InodeGenerator.allocAll, List.foldl_append]
        rfl
  | mkdir parent name =>
    cases hpath : resolvePath m.fs parent name with
    | error err => exact h.passive (hlook hpath .mkdir)
    | ok path =>
      dsimp only [InnerFs.intent] at ha hafter
      rw [hpath] at ha hafter
      have hmade : (serve env (.mkdir parent name) m.fs).2 = m.fs.withDir path := hafter
      refine h.of_entries _ rfl ?_ ?_ ha
      · dsimp only
        rw [hmade]
        rfl
      · dsimp only
        rw [hmade]
        rfl
  | unlink parent name =>
    cases hpath : resolvePath m.fs parent name with
    | error err => exact h.passive (hlook hpath .unlink)
    | ok path =>
      dsimp only [InnerFs.intent] at ha
      rw [hpath] at ha
      exact h.unlink env hpath ha
  | flush fh => exact h.close _ rfl (snd_map ..) ha
  | release fh => exact h.close _ rfl hafter ha

theorem sound_start {s : Repository H} (hs : Reachable s) {statHit : String → Bool}
    {branch : Option (Ref H)} {fs : InnerFs H} (hmount : (mount statHit branch (opened s)).1 = .ok fs) :
    (Kernel.start fs).Sound := by
  have hopened : Valid False (opened s) := { hs.valid with cachedKnown := nofun }
  obtain ⟨t, tree, ht, -, hread, hfs⟩ := mount_run hopened rfl hmount
  have hvalid := (safe_snapshotHead ht).inv
  rw [hread] at hvalid
  refine ⟨hvalid, ?_, nofun, nofun⟩
  change fs.inodeMap.Ok
  rw [hfs]
  exact InodeGenerator.ok_new.allocAll _

/-- Numbers that were handed out keep their paths, and take no other when these are deleted. -/
theorem stable_of_allowed {s : Repository H} (hs : Reachable s) {statHit : String → Bool}
    {branch : Option (Ref H)} {fs : InnerFs H} (hmount : (mount statHit branch (opened s)).1 = .ok fs)
    (hrun : Run Kernel.next Kernel.Allows (.start fs) m) : m.Stable :=
  (hrun.invariant Kernel.Sound (fun _ _ h ha => h.next ha) (sound_start hs hmount)).stable

/-! ### Files in the order of their names -/

section Sample

def watched (calls : List Call) : Kernel Hash :=
  (calls.map fun call => (writable, call)).foldl Kernel.next (.start fresh)

/-- A file with content is created, by the next handle. -/
def createFile (name : FileName) (fh : Nat) : List Call :=
  [.create 1 (some name), .write fh 0 [1], .release fh]

/-- The second commit gives the first file the next number, and its own to the new one. -/
theorem number_taken : ¬ ∀ (s : Repository Hash) (fs : InnerFs Hash) (m : Kernel Hash), Reachable s →
    (mount (fun _ => false) none (opened s)).1 = .ok fs →
    Run Kernel.next (fun _ _ => True) (.start fs) m → m.Stable := by
  intro h
  have hrun : Run Kernel.next (fun _ _ => True) (.start fresh)
      (watched (createFile fileB 1 ++ createFile fileA 2)) := Run.of_allows _ (Run.allows_true _)
  have hstable := (h _ _ _ (reachable_sample []) mount_fresh hrun).1
  have hknown : (2, "b") ∈ (watched (createFile fileB 1 ++ createFile fileA 2)).known := by
    decide +kernel
  have htaken : (watched (createFile fileB 1 ++ createFile fileA 2)).fs.inodeMap.getPath 2 =
      some "a" := by decide +kernel
  have hkept := hstable _ hknown
  rw [htaken] at hkept
  exact absurd hkept (by decide)

/-- A file whose name comes later gets a number of its own. -/
theorem stable_later : (watched (createFile fileA 1 ++ createFile fileB 2)).Stable := by
  refine stable_of_allowed (reachable_sample []) mount_fresh (Run.of_allows
    ((createFile fileA 1 ++ createFile fileB 2).map fun call => (writable, call)) ?_)
  have hcreate (name : FileName) (m : Kernel Hash) (hgone : m.gone = []) :
      m.Allows (writable, .create 1 (some name)) := by
    unfold Kernel.Allows
    dsimp only [InnerFs.intent]
    rw [hgone]
    cases resolvePath m.fs 1 (some name) with
    | ok path => exact ⟨nofun, nofun⟩
    | error _ => trivial
  refine ⟨hcreate _ _ rfl, trivial, ?_, hcreate _ _ (by decide +kernel), trivial, ?_, trivial⟩
  · intro f hf _ _ _
    have hopen : (watched ((createFile fileA 1).take 2)).fs.openFiles.get 1 =
        some ⟨"a", [1], true⟩ := by decide +kernel
    cases Option.some.inj (hopen.symm.trans hf)
    decide +kernel
  · intro f hf _ _ _
    have hopen : (watched (createFile fileA 1 ++
        (createFile fileB 2).take 2)).fs.openFiles.get 2 = some ⟨"b", [1], true⟩ := by
      decide +kernel
    cases Option.some.inj (hopen.symm.trans hf)
    decide +kernel

end Sample
end Suture.Vfs
