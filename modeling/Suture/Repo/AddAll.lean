import Mathlib.Algebra.Order.BigOperators.Group.List
import Suture.Foundation.Directories
import Suture.Repo.StashEntries
import Suture.Vfs.Commits

/-!
# Adding all files

`add_all` walks the working directory and stages the files that the tree of HEAD does not have as
they are. A file that is gone is not staged. The patterns are those that were read when the
repository was opened; a directory cannot be read only in part.
-/

namespace Suture.Repo
set_option autoImplicit false
open Foundation Common Patches Dag Engine Program Vfs

/-! ### The walk -/

def patternIgnores (relPath pattern : String) : Bool :=
  match pattern.toList with
  | '*' :: suffix => suffix.isSuffixOf relPath.toList
  | chars =>
    if chars.getLast? = some '/' then chars.isPrefixOf relPath.toList
    else decide (relPath = pattern) || (chars ++ ['/']).isPrefixOf relPath.toList

def isIgnored (relPath : String) (patterns : List String) : Bool :=
  patterns.any (patternIgnores relPath)

/-- The path of an entry from the root, with slashes only. -/
def relative (names : List String) : String :=
  String.ofList ((['/'].intercalate (names.map String.toList)).map
    fun c => if c = '\\' then '/' else c)

def skipsEntry (patterns : List String) (names : List String) : Bool :=
  decide (names.getLast? = some ".suture") || isIgnored (relative names) patterns

/-- The files that are walked over. No path is longer than all of them together. -/
def walkDir (files : SortedMap String Bytes) (patterns : List String) : List String :=
  let paths := files.keys.map Path.components
  (Walk.walk paths (skipsEntry patterns) (paths.map List.length).sum []).map relative

variable {H : Type} [LinearOrder H] [Hashing H]

/-! ### Operations -/

/-- The file is tracked and can be read, and its content has the hash that the tree has. -/
def isUnchanged (s : Repository H) (tree : FileTree H) (relPath : String) : Bool :=
  match s.files.get relPath, tree.get relPath with
  | some data, some oldHash => decide (Hashing.fromData data = oldHash)
  | _, _ => false

/-- Stages a file that has changed, and counts it. -/
def addWalked (tree : FileTree H) (relPath : String) : Action H Nat := do
  if isUnchanged (← read) tree relPath then return 0
  else
    workingSetAdd relPath (if tree.contains relPath then .modified else .added)
    return 1

def addAll (patterns : List String) : Action H Nat := do
  let tree ← snapshotHead
  let counts ← mapEach (addWalked tree) (walkDir (← read).files patterns)
  return counts.sum

/-- All files are added, and committed if there is any to commit. -/
def commitAll (patterns : List String) (message : String) : Action H (Option H) := do
  let count ← addAll patterns
  if count = 0 then return none
  else return some (← commit message)

def buildWorkingTree (s : Repository H) (patterns : List String) : FileTree H :=
  (walkDir s.files patterns).foldl (fun tree relPath =>
    match s.files.get relPath with
    | some data => tree.insert relPath (Hashing.fromData data)
    | none => tree) .empty

/-- `diff` without arguments: HEAD and the working directory. -/
def diffWorking (patterns : List String) : Action H (List (DiffEntry H)) := do
  let headTree ← snapshotHead
  return diffTrees headTree (buildWorkingTree (← read) patterns)

/-! ### Which files are walked over -/

/-- The names of the files are as the walk gives them, and none is a directory too. -/
structure Worktree (files : SortedMap String Bytes) : Prop where
  slashes : ∀ path ∈ files.keys, '\\' ∉ path.toList
  named : ∀ path ∈ files.keys, IsRepoPath path
  apart : Walk.Apart (files.keys.map Path.components)

/-- A file that is there, and of whose path no part is skipped. -/
def Visible (patterns : List String) (files : SortedMap String Bytes) (path : String) : Prop :=
  files.get path ≠ none ∧
    ∀ front ∈ (Path.components path).inits, 0 < front.length → skipsEntry patterns front = false
deriving Decidable

theorem relative_components {path : String} (h : '\\' ∉ path.toList) :
    relative (Path.components path) = path := by
  have hlists : (Path.components path).map String.toList = path.toList.splitOn '/' := by
    simp [Path.components]
  unfold relative
  rw [hlists, List.intercalate_splitOn]
  have hsame : path.toList.map (fun c => if c = '\\' then '/' else c) = path.toList.map id :=
    List.map_congr_left fun c hc => if_neg (by rintro rfl; exact h hc)
  rw [hsame, List.map_id, String.ofList_toList]

variable {files : SortedMap String Bytes} {patterns : List String}

theorem depth_bound (files : SortedMap String Bytes) : ∀ file ∈ files.keys.map Path.components,
    file.length ≤ ([] : List String).length + ((files.keys.map Path.components).map List.length).sum :=
  fun file hfile => by
    rw [List.length_nil, Nat.zero_add]
    exact List.le_sum_of_mem (List.mem_map_of_mem hfile)

theorem mem_walkDir (h : Worktree files) {path : String} :
    path ∈ walkDir files patterns ↔ Visible patterns files path := by
  have hne : ∀ path, [] ≠ Path.components path := fun path heq =>
    List.splitOn_ne_nil _ _ (List.map_eq_nil_iff.mp heq.symm)
  rw [walkDir, List.mem_map]
  constructor
  · rintro ⟨names, hnames, rfl⟩
    obtain ⟨hfile, -, hskip⟩ := (Walk.mem_walk h.apart (depth_bound files)).mp hnames
    obtain ⟨path, hpath, rfl⟩ := List.mem_map.mp hfile
    rw [relative_components (h.slashes path hpath)]
    exact ⟨SortedMap.mem_keys.mp hpath,
      fun front hfront => hskip front ((List.mem_inits ..).mp hfront)⟩
  · rintro ⟨hpath, hskip⟩
    have hkey := SortedMap.mem_keys.mpr hpath
    refine ⟨_, (Walk.mem_walk h.apart (depth_bound files)).mpr ⟨List.mem_map_of_mem hkey,
      ⟨List.nil_prefix, hne path⟩,
        fun front hfront => hskip front ((List.mem_inits ..).mpr hfront)⟩,
      relative_components (h.slashes path hkey)⟩

/-! ### Staging what has changed -/

variable {s t : Repository H} {tree : FileTree H}

/-- A file on disk that the tree does not have as it is. -/
def IsChanged (s : Repository H) (tree : FileTree H) (path : String) : Prop :=
  fileHash s path ≠ tree.get path

instance (s : Repository H) (tree : FileTree H) (path : String) : Decidable (IsChanged s tree path) :=
  inferInstanceAs (Decidable (_ ≠ _))

theorem isUnchanged_iff (tree : FileTree H) {path : String} (hfile : s.files.get path ≠ none) :
    isUnchanged s tree path = true ↔ ¬ IsChanged s tree path := by
  obtain ⟨data, hdata⟩ := Option.ne_none_iff_exists'.mp hfile
  rw [IsChanged, not_not, isUnchanged, fileHash, hdata, Option.map_some]
  cases tree.get path with
  | none => simp
  | some hash => simp

/-- The state with one more file staged, if it has changed. -/
def staged (tree : FileTree H) (s : Repository H) (path : String) : Repository H :=
  if IsChanged s tree path then { s with
    workingSet := s.workingSet.insert path (addedStatus true (tree.contains path)) }
  else s

theorem addWalked_run {path : String} (hpath : IsRepoPath path) (hfile : s.files.get path ≠ none) :
    addWalked tree path s =
      (.ok (if IsChanged s tree path then 1 else 0), staged tree s path) := by
  have hunchanged := isUnchanged_iff tree hfile
  unfold addWalked staged
  rw [read_bind]
  by_cases hdiff : IsChanged s tree path
  · rw [if_neg fun h => hunchanged.mp h hdiff, if_pos hdiff, if_pos hdiff]
    exact bind_of_ok (workingSetAdd_named hpath _ _)
  · rw [if_pos (hunchanged.mpr hdiff), if_neg hdiff, if_neg hdiff]
    rfl

/-- The loop stages every file of the walk that has changed, and leaves the rest. -/
theorem addEach_run (tree : FileTree H) {paths : List String}
    (hpaths : ∀ path ∈ paths, IsRepoPath path) (hfiles : ∀ path ∈ paths, s.files.get path ≠ none) :
    ∃ counts m, mapEach (addWalked tree) paths s = (.ok counts, { s with workingSet := m }) ∧
      counts.sum = (paths.filter fun path => decide (IsChanged s tree path)).length ∧
      ∀ q, m.get q = if q ∈ paths ∧ IsChanged s tree q then
        some (addedStatus true (tree.contains q)) else s.workingSet.get q := by
  induction paths generalizing s with
  | nil => exact ⟨[], s.workingSet, rfl, rfl, fun q => by simp⟩
  | cons path paths ih =>
    obtain ⟨hpath, hpaths⟩ := List.forall_mem_cons.mp hpaths
    obtain ⟨hfile, hfiles⟩ := List.forall_mem_cons.mp hfiles
    have hkept : (staged tree s path).files = s.files := by
      unfold staged
      split <;> rfl
    have hchanged : ∀ q, IsChanged (staged tree s path) tree q = IsChanged s tree q := fun q => by
      rw [IsChanged, IsChanged, fileHash, fileHash, hkept]
    obtain ⟨counts, m, hrun, hcount, hm⟩ := ih (s := staged tree s path) hpaths (hkept ▸ hfiles)
    refine ⟨(if IsChanged s tree path then 1 else 0) :: counts, m, ?_, ?_, fun q => ?_⟩
    · unfold mapEach
      rw [bind_of_ok (addWalked_run hpath hfile), bind_of_ok hrun]
      have hsame : { staged tree s path with workingSet := m } = { s with workingSet := m } := by
        unfold staged
        split <;> rfl
      rw [hsame]
      rfl
    · rw [List.sum_cons, hcount, List.filter_cons]
      simp only [hchanged, decide_eq_true_eq]
      split <;> simp [Nat.add_comm]
    · simp only [hm, hchanged]
      by_cases hq : q ∈ paths ∧ IsChanged s tree q
      · rw [if_pos hq, if_pos ⟨List.mem_cons_of_mem _ hq.1, hq.2⟩]
      · rw [if_neg hq, staged]
        by_cases hhead : q = path ∧ IsChanged s tree q
        · obtain ⟨rfl, hdiff⟩ := hhead
          rw [if_pos hdiff, if_pos ⟨List.mem_cons_self .., hdiff⟩, SortedMap.get_insert, if_pos rfl]
        · rw [if_neg (c := q ∈ path :: paths ∧ IsChanged s tree q) fun h =>
            (List.mem_cons.mp h.1).elim (fun heq => hhead ⟨heq, h.2⟩) fun hmem => hq ⟨hmem, h.2⟩]
          split
          · rename_i hdiff
            rw [SortedMap.get_insert, if_neg]
            rintro rfl
            exact hhead ⟨rfl, hdiff⟩
          · rfl

/-! ### What the next commit records -/

/-- The tree of HEAD is this one, cached or not; nothing is staged, and no merge waits. -/
structure Resting (s : Repository H) (tree : FileTree H) : Prop where
  valid : Valid True s
  noMerge : s.pendingMergeParents = []
  noneStaged : stagedFiles s = []
  cached : ∀ other, s.cachedHeadSnapshot = some other → other = tree
  atTip : ∃ name id, BranchName.new (s.headBranch.getD "main") = .ok name ∧
    s.dag.getBranch name = some id ∧ replay s.dag id = tree

theorem Resting.of_settled (hs : Settled s tree) : Resting s tree := by
  obtain ⟨name, id, hname, hget, -, -, hreplay⟩ := hs.atTip
  refine ⟨hs.valid, hs.noMerge, hs.noneStaged, fun other hother => ?_, name, id, hname, hget, hreplay⟩
  rw [hs.cached] at hother
  exact (Option.some.inj hother).symm

theorem Resting.of_files (hs : Resting s tree) (files : SortedMap String Bytes) :
    Resting { s with files := files } tree := { hs with valid := { hs.valid with } }

theorem headTree_of_valid (hs : Valid True s) (id : H) : headTree s id = replay s.dag id := by
  have htree := hs.treeOf_eq trivial id
  unfold treeOf at htree
  unfold headTree
  cases hload : loadFileTree s id with
  | none => rfl
  | some stored =>
    rw [hload, Option.getD_some] at htree
    simp only [htree, ite_self]

theorem Resting.snapshotHead_run (hs : Resting s tree) : ∃ t, snapshotHead s = (.ok tree, t) ∧
    Settled t tree ∧ t.blobs = s.blobs ∧ t.files = s.files := by
  obtain ⟨name, id, hname, hget, hreplay⟩ := hs.atTip
  obtain ⟨name', id', tree', t, hname', hget', hrun, hread, ht, hle⟩ := snapshotHead_spec hs.valid
  rw [hname] at hname'
  cases hname'
  rw [hget] at hget'
  cases hget'
  have htree : tree' = tree := by
    rw [hread.value, headTree_of_valid hs.valid, hreplay]
    cases hcached : s.cachedHeadSnapshot with
    | none => rfl
    | some other => exact hs.cached other hcached
  subst htree
  have hsame := hread.same
  have htarget : t.dag.getBranch name = some id := by
    rw [← hget]
    unfold PatchDag.getBranch
    rw [hread.asked.queried.same.branches]
  refine ⟨t, hrun, ⟨⟨ht, ?_, ?_, name, id, ?_, htarget, ?_, ?_, ?_⟩, ?_⟩, ?_, ?_⟩
  · rw [hsame]
    exact hs.noMerge
  · rw [hsame]
  · rw [hsame]
    exact hname
  · rw [hsame]
  · rw [hsame]
  · rw [replay_of_grows hle.grows hs.valid.sound.graded (hs.valid.sound.targets _ _ hget), hreplay]
  · rw [← hs.noneStaged, hsame]
    rfl
  · rw [hsame]
  · rw [hsame]

/-- What a path has in the tree of HEAD after all files are added and committed. -/
def nextEntry (patterns : List String) (s : Repository H) (path : String) (entry : Option H) :
    Option H :=
  if Visible patterns s.files path then fileHash s path else entry

/-- The files that `add_all` stages. -/
def changedFiles (patterns : List String) (s : Repository H) (tree : FileTree H) : List String :=
  (walkDir s.files patterns).filter fun path => decide (IsChanged s tree path)

theorem mem_changedFiles (h : Worktree s.files) {path : String} :
    path ∈ changedFiles patterns s tree ↔ Visible patterns s.files path ∧ IsChanged s tree path := by
  rw [changedFiles, List.mem_filter, mem_walkDir h, decide_eq_true_eq]

section Adds
variable {m : SortedMap String FileStatus} {paths : List String}

omit [LinearOrder H] [Hashing H] in
theorem exists_stagedOp (tracked : Bool) : ∃ op, stagedOp (addedStatus true tracked) = some op := by
  cases tracked <;> exact ⟨_, rfl⟩

/-- Nothing was staged before, so what is staged are the files that were added. -/
theorem mem_stagedFiles_adds (hs : Settled s tree) (hm : ∀ path, m.get path =
    if path ∈ paths then some (addedStatus true (tree.contains path)) else s.workingSet.get path)
    {path : String} :
    path ∈ (stagedFiles { s with workingSet := m }).map Prod.fst ↔ path ∈ paths := by
  rw [List.mem_map]
  constructor
  · rintro ⟨⟨path, status⟩, he, rfl⟩
    obtain ⟨hget, hsome⟩ := mem_stagedFiles.mp he
    by_contra hnot
    have hold := hs.stagedOp_eq_none path
    rw [← (hm path).trans (if_neg hnot), hget, Option.bind_some] at hold
    rw [hold] at hsome
    cases hsome
  · intro hmem
    obtain ⟨op, hop⟩ := exists_stagedOp (tree.contains path)
    refine ⟨(path, addedStatus true (tree.contains path)), mem_stagedFiles.mpr ⟨?_, ?_⟩, rfl⟩
    · exact (hm path).trans (if_pos hmem)
    · rw [hop]
      rfl

theorem recordedEntry_adds (hs : Settled s tree) (hm : ∀ path, m.get path =
    if path ∈ paths then some (addedStatus true (tree.contains path)) else s.workingSet.get path)
    {path : String} (hthere : path ∈ paths → s.files.get path ≠ none) :
    recordedEntry { s with workingSet := m } path (tree.get path) =
      if path ∈ paths then fileHash s path else tree.get path := by
  unfold recordedEntry
  rw [hm]
  by_cases hmem : path ∈ paths
  · obtain ⟨op, hop⟩ := exists_stagedOp (tree.contains path)
    rw [if_pos hmem, if_pos hmem, Option.bind_some, hop]
    refine (changedEntry_staged hop fun _ hnone => hthere hmem (Option.map_eq_none_iff.mp hnone)).mpr ?_
    rw [if_pos rfl]
    exact .inr (SortedMap.contains_eq ..)
  · rw [if_neg hmem, if_neg hmem, hs.stagedOp_eq_none]

end Adds

theorem nextEntry_eq (h : Worktree s.files) (path : String) :
    nextEntry patterns s path (tree.get path) =
      if path ∈ changedFiles patterns s tree then fileHash s path else tree.get path := by
  rw [nextEntry]
  by_cases hvisible : Visible patterns s.files path
  · rw [if_pos hvisible]
    split
    · rfl
    · rename_i hmem
      exact not_not.mp fun hdiff => hmem ((mem_changedFiles h).mpr ⟨hvisible, hdiff⟩)
  · rw [if_neg hvisible, if_neg fun hmem => hvisible ((mem_changedFiles h).mp hmem).1]

/-- All files are added, which fails for none; the next commit records those that have changed. -/
theorem Resting.addAll_run (hs : Resting s tree) (h : Worktree s.files) (patterns : List String) :
    ∃ t, addAll patterns s = (.ok (changedFiles patterns s tree).length, t) ∧ Ready t tree ∧
      t.files = s.files ∧
      (∀ path, path ∈ (stagedFiles t).map Prod.fst ↔ path ∈ changedFiles patterns s tree) ∧
      ∀ path, recordedEntry t path (tree.get path) = nextEntry patterns s path (tree.get path) := by
  obtain ⟨u, hsnapshot, hu, -, hfiles⟩ := hs.snapshotHead_run
  have hpaths : ∀ path ∈ walkDir u.files patterns, IsRepoPath path := fun path hpath => by
    rw [hfiles] at hpath
    exact h.named path (SortedMap.mem_keys.mpr ((mem_walkDir h).mp hpath).1)
  have hread : ∀ path ∈ walkDir u.files patterns, u.files.get path ≠ none := fun path hpath => by
    rw [hfiles] at hpath ⊢
    exact ((mem_walkDir h).mp hpath).1
  obtain ⟨counts, m, hrun, hcount, hm⟩ := addEach_run tree hpaths hread
  have hchanged : ∀ path, IsChanged u tree path = IsChanged s tree path := fun path => by
    rw [IsChanged, IsChanged, fileHash, fileHash, hfiles]
  have hm : ∀ path, m.get path = if path ∈ changedFiles patterns s tree then
      some (addedStatus true (tree.contains path)) else u.workingSet.get path := fun path => by
    simp only [hm, hchanged, hfiles, mem_changedFiles h, mem_walkDir h]
  have hnamed : ∀ path, m.contains path = true → IsRepoPath path := fun path hpath => by
    rw [SortedMap.contains_eq, hm] at hpath
    split at hpath
    · rename_i hmem
      exact h.named path (SortedMap.mem_keys.mpr ((mem_changedFiles h).mp hmem).1.1)
    · exact hu.valid.stagedNamed path hpath
  refine ⟨{ u with workingSet := m }, ?_, { hu.toReady with
    valid := { hu.valid with stagedNamed := hnamed } }, hfiles, fun path =>
      mem_stagedFiles_adds hu hm, fun path => ?_⟩
  · unfold addAll
    rw [bind_of_ok hsnapshot, read_bind, bind_of_ok hrun, hcount]
    simp only [hchanged, hfiles]
    rfl
  · rw [recordedEntry_adds hu hm, nextEntry_eq h, fileHash, fileHash, hfiles]
    rw [hfiles]
    exact fun hmem => ((mem_changedFiles h).mp hmem).1.1

/-! ### Rounds -/

theorem commitAll_run (hs : Resting s tree) (h : Worktree s.files) {message : String}
    {r : Option H} (hrun : commitAll patterns message s = (.ok r, t)) :
    ∃ tree', Resting t tree' ∧ ∀ path, tree'.get path = nextEntry patterns s path (tree.get path) := by
  obtain ⟨u, hadd, hu, -, hstaged, hget⟩ := hs.addAll_run h patterns
  unfold commitAll at hrun
  rw [bind_of_ok hadd] at hrun
  by_cases hcount : (changedFiles patterns s tree).length = 0
  · rw [if_pos hcount] at hrun
    cases hrun
    have hnone : stagedFiles t = [] := by
      rw [List.eq_nil_of_length_eq_zero hcount] at hstaged
      exact List.map_eq_nil_iff.mp
        (List.eq_nil_iff_forall_not_mem.mpr fun path hpath => nomatch (hstaged path).mp hpath)
    refine ⟨tree, .of_settled ⟨hu, hnone⟩, fun path => ?_⟩
    rw [← hget, recordedEntry, Settled.stagedOp_eq_none ⟨hu, hnone⟩]
  · rw [if_neg hcount] at hrun
    obtain ⟨id, v, hcommit, hrun⟩ := bind_ok hrun
    cases hrun
    obtain ⟨tree', ht, hrecorded, -⟩ := hu.commit_run hcommit
    exact ⟨tree', .of_settled ht, fun path => (hrecorded path).trans (hget path)⟩

/-- The working directory at the time of a commit, and the message. -/
structure Round where
  files : SortedMap String Bytes
  message : String

/-- The files are as they are then, and all of them are committed. -/
def commitRound (patterns : List String) (round : Round) : Action H Unit := do
  modify fun s => { s with files := round.files }
  let _ ← commitAll patterns round.message
  return ()

def commitRounds (patterns : List String) (rounds : List Round) : Action H Unit :=
  forEach (commitRound patterns) rounds

/-- What the last round that saw a path found there. -/
def lastSeen (patterns : List String) (rounds : List Round) (path : String) (entry : Option H) :
    Option H :=
  rounds.foldl (fun entry round =>
    if Visible patterns round.files path then (round.files.get path).map Hashing.fromData else entry)
    entry

theorem commitRounds_run {rounds : List Round} (h : ∀ round ∈ rounds, Worktree round.files)
    (hs : Resting s tree) (hrun : commitRounds patterns rounds s = (.ok (), t)) :
    ∃ tree', Resting t tree' ∧
      ∀ path, tree'.get path = lastSeen patterns rounds path (tree.get path) := by
  induction rounds generalizing s tree with
  | nil =>
    cases hrun
    exact ⟨tree, hs, fun path => rfl⟩
  | cons round rounds ih =>
    obtain ⟨hround, hrounds⟩ := List.forall_mem_cons.mp h
    obtain ⟨_, u, hstep, hrun⟩ := bind_ok hrun
    unfold commitRound at hstep
    rw [modify_bind] at hstep
    obtain ⟨r, v, hcommit, hstep⟩ := bind_ok hstep
    cases hstep
    obtain ⟨tree₁, hu, hget₁⟩ := commitAll_run (hs.of_files round.files) hround hcommit
    obtain ⟨tree₂, ht, hget₂⟩ := ih hrounds hu hrun
    exact ⟨tree₂, ht, fun path => by rw [hget₂, hget₁]; rfl⟩

theorem resting_init (author : String) (now : Nat) (files : SortedMap String Bytes) :
    Resting (init author now files : Repository H) .empty := by
  refine ⟨valid_init author now files, rfl, rfl, nofun, .main, ?_⟩
  obtain ⟨root, hroot⟩ : ∃ root : Patch H, root = .new .create .empty none (.text .empty) [] author
    "Initial commit" now := ⟨_, rfl⟩
  unfold init
  dsimp only
  rw [← hroot]
  rcases (PatchDag.new : PatchDag H).addPatch_cases root [] with ⟨e, -, hrefused⟩ | ⟨d, hrun, hext⟩
  · exact absurd ⟨rfl, nofun⟩ hrefused
  rw [hrun]
  have hcreate : (d.createBranch .main root.id).2 =
      { d with branches := Assoc.insert "main" root.id d.branches } := by
    have hnone : d.getBranch .main = none := by
      rw [PatchDag.getBranch, hext.branches]
      rfl
    unfold PatchDag.createBranch
    rw [hnone, (hext.hasPatch _).mpr (.inl rfl)]
    rfl
  dsimp only
  rw [hcreate]
  refine ⟨root.id, BranchName.new_asStr .main, ?_, ?_⟩
  · rw [PatchDag.getBranch, Assoc.get_insert]
    rfl
  · refine (replay_new hext PatchDag.sound_new.graded).trans ?_
    rw [hroot]
    rfl

/-! ### What the difference shows afterwards -/

omit [Hashing H] in
theorem files_of_desk {α : Type} {m : Action H α} (hm : Quiet (deskKept H) m) :
    Quiet (Drift.ofView Repository.files) m := fun s => congrArg Prod.fst (hm s)

theorem files_stageChange (e : String × FileStatus) :
    Quiet (Drift.ofView Repository.files) (stageChange (H := H) e) := by
  have hput : ∀ op, Quiet (Drift.ofView Repository.files) (do
      let hash ← putBlob (← readFile e.1)
      return some ⟨op, e.1, .hex hash⟩ : Action H (Option (FileChange H))) := fun op => by
    refine Quiet.bind (quiet_read.bind fun s => ?_) fun data => Quiet.bind ?_ fun hash => quiet_pure _
    · split
      · exact quiet_pure _
      · exact quiet_fail _
    · unfold putBlob
      refine quiet_read.bind fun s => ?_
      split
      · exact quiet_pure _
      split
      · exact quiet_fail _
      · exact (quiet_modify fun _ => rfl).bind fun _ => quiet_pure _
  obtain ⟨path, status⟩ := e
  cases status with
  | added => exact hput .create
  | modified => exact hput .modify
  | deleted | clean | untracked => exact quiet_pure _

omit [Hashing H] in
theorem files_updateDag {α : Type} (f : PatchDag H → Except (DagError H) α × PatchDag H) :
    Quiet (Drift.ofView Repository.files) (updateDag f) :=
  quiet_read.bind fun _ => (quiet_modify fun _ => rfl).bind fun _ => quiet_ofExcept _

theorem files_snapshotUncached (id : H) :
    Quiet (Drift.ofView Repository.files) (snapshotUncached id) := by
  have hquery : Quiet (Drift.ofView Repository.files)
    (queryDag fun d : PatchDag H => d.patchChainFull id) := fun _ => rfl
  exact hquery.bind fun _ => quiet_read.bind fun _ => quiet_ofExcept _

theorem files_commitTree (headId patchId : H) (patch : Patch H) :
    Quiet (Drift.ofView Repository.files) (commitTree headId patchId patch) := by
  have hempty : Quiet (Drift.ofView Repository.files) (orEmpty (snapshotUncached patchId)) := by
    refine (files_snapshotUncached patchId).attempt.bind fun r => ?_
    cases r <;> exact quiet_pure _
  have hsnapshot : Quiet (Drift.ofView Repository.files) (snapshot headId) := by
    refine quiet_read.bind fun s => ?_
    split
    · exact quiet_pure _
    · exact (files_snapshotUncached headId).bind fun _ =>
        (quiet_modify fun _ => rfl).bind fun _ => quiet_pure _
  unfold commitTree
  split
  · exact hempty
  · refine hsnapshot.attempt.bind fun r => ?_
    cases r with
    | ok parentTree =>
      dsimp only
      split <;> exact quiet_pure _
    | error e => exact hempty

/-- A commit leaves the working directory alone. -/
theorem files_commit (message : String) :
    Quiet (Drift.ofView Repository.files) (commit (H := H) message) := by
  have hhead : Quiet (Drift.ofView Repository.files) (head (H := H)) := files_of_desk desk_head
  have hset : ∀ (branch : String) (id : H), Quiet (Drift.ofView Repository.files) (setBranch branch id) :=
    fun branch id => (quiet_ofExcept _).bind fun _ => (files_updateDag _).bind fun _ =>
      quiet_modify fun _ => rfl
  refine hhead.attempt.bind fun _ => quiet_read.bind fun s => (quiet_require _ _).bind fun _ =>
    hhead.bind fun r => ?_
  refine Quiet.bind (quiet_read.bind fun s => (quiet_modify fun _ => rfl).bind fun _ =>
    quiet_pure _) fun parentIds => ?_
  refine (Quiet.mapEach files_stageChange _).bind fun fileChanges => (quiet_require _ _).bind fun _ =>
    quiet_read.bind fun s => ?_
  exact (files_updateDag _).bind fun patchId => (quiet_modify fun _ => rfl).bind fun _ =>
    (quiet_modify fun _ => rfl).bind fun _ => (hset _ _).bind fun _ =>
      (files_commitTree _ _ _).bind fun tree => Quiet.bind (fun _ => rfl) fun _ => quiet_pure _

theorem files_commitAll (h : Worktree s.files) (hs : Resting s tree) {message : String}
    {r : Option H} (hrun : commitAll patterns message s = (.ok r, t)) : t.files = s.files := by
  obtain ⟨u, hadd, -, hfiles, -⟩ := hs.addAll_run h patterns
  unfold commitAll at hrun
  rw [bind_of_ok hadd] at hrun
  split at hrun
  · cases hrun
    exact hfiles
  · obtain ⟨id, v, hcommit, hrun⟩ := bind_ok hrun
    cases hrun
    have hkept := files_commit message u
    rw [hcommit] at hkept
    exact hkept.trans hfiles

theorem get_buildWorkingTree (h : Worktree s.files) (path : String) :
    (buildWorkingTree s patterns).get path =
      if Visible patterns s.files path then fileHash s path else none := by
  have hfold : ∀ (paths : List String) (tree : FileTree H),
      (∀ q ∈ paths, s.files.get q ≠ none) →
      (paths.foldl (fun tree relPath =>
        match s.files.get relPath with
        | some data => tree.insert relPath (Hashing.fromData data)
        | none => tree) tree).get path =
          if path ∈ paths then fileHash s path else tree.get path := by
    intro paths
    induction paths with
    | nil => exact fun tree _ => rfl
    | cons q paths ih =>
      intro tree hthere
      obtain ⟨hq, hthere⟩ := List.forall_mem_cons.mp hthere
      obtain ⟨data, hdata⟩ := Option.ne_none_iff_exists'.mp hq
      rw [List.foldl_cons, ih _ hthere, hdata]
      dsimp only
      rw [SortedMap.get_insert]
      by_cases hmem : path ∈ paths
      · rw [if_pos hmem, if_pos (List.mem_cons_of_mem _ hmem)]
      · rw [if_neg hmem]
        by_cases heq : path = q
        · subst heq
          rw [if_pos rfl, if_pos (List.mem_cons_self ..), fileHash, hdata, Option.map_some]
        · rw [if_neg heq, if_neg fun h => (List.mem_cons.mp h).elim heq hmem]
  rw [buildWorkingTree, hfold _ _ fun q hq => ((mem_walkDir h).mp hq).1]
  simp only [mem_walkDir h]
  rfl

/-! ### Results -/

def sourceTree : SortedMap String Bytes :=
  ((SortedMap.empty.insert "src/main.rs" [102]).insert "src/main.o" [111]).insert ".suture/HEAD" [104]

theorem worktree_sourceTree : Worktree sourceTree where
  slashes := by decide
  named := by
    have hnames : ∀ path ∈ sourceTree.keys, (RepoPath.new path).toOption.isSome = true := by decide
    exact fun path hpath => ok_of_isSome (hnames path hpath)
  apart := by
    unfold Walk.Apart
    decide

theorem commitAll_eq_none_iff (hs : Resting s tree) (h : Worktree s.files) {message : String}
    {r : Option H} (hrun : commitAll patterns message s = (.ok r, t)) :
    r = none ↔ ∀ path, Visible patterns s.files path → fileHash s path = tree.get path := by
  have hnone : (changedFiles patterns s tree).length = 0 ↔
      ∀ path, Visible patterns s.files path → fileHash s path = tree.get path := by
    rw [List.length_eq_zero_iff, List.eq_nil_iff_forall_not_mem]
    simp only [mem_changedFiles h, IsChanged, not_and, not_not]
  obtain ⟨u, hadd, -⟩ := hs.addAll_run h patterns
  unfold commitAll at hrun
  rw [bind_of_ok hadd] at hrun
  rw [← hnone]
  split at hrun
  · rename_i hcount
    cases hrun
    exact iff_of_true rfl hcount
  · rename_i hcount
    obtain ⟨id, v, -, hrun⟩ := bind_ok hrun
    cases hrun
    exact iff_of_false nofun hcount

end Suture.Repo
