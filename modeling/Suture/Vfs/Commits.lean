import Suture.Repo.Tracking
import Suture.Vfs.ReadWrite

/-!
# Commits of one file

In a repository with nothing staged and no merge waiting, with HEAD at the tip of its branch,
adding a file and committing changes the entry of that file in the tree of HEAD.
-/

namespace Suture.Vfs
set_option autoImplicit false
open Foundation Common Patches Dag Engine Repo Program

variable {H : Type} [LinearOrder H] [Hashing H] {s t : Repository H} {tree : FileTree H}

/-- The tree of HEAD is known, and the next commit is made on top of it alone. -/
structure Ready (s : Repository H) (tree : FileTree H) : Prop where
  valid : Valid True s
  noMerge : s.pendingMergeParents = []
  cached : s.cachedHeadSnapshot = some tree
  atTip : ∃ name id, BranchName.new (s.headBranch.getD "main") = .ok name ∧
    s.dag.getBranch name = some id ∧ s.cachedHeadId = some id ∧
    s.cachedHeadBranch = some (s.headBranch.getD "main") ∧ replay s.dag id = tree

structure Settled (s : Repository H) (tree : FileTree H) : Prop extends Ready s tree where
  noneStaged : stagedFiles s = []

omit [Hashing H] in
theorem setBranch_run {branch : String} {id : H} (h : setBranch branch id s = (.ok (), t)) :
    ∃ name rows, BranchName.new branch = .ok name ∧ t = { s with
      dag := { s.dag with branches := Assoc.insert branch id s.dag.branches }, branchRows := rows } := by
  obtain ⟨name, s₁, hname, h⟩ := bind_ok h
  obtain ⟨_, s₂, hupdate, h⟩ := bind_ok h
  unfold branchName at hname
  rw [ofExcept_run] at hname
  obtain ⟨hname, rfl⟩ := Prod.mk.inj hname
  cases hnew : BranchName.new branch with
  | error e =>
    rw [hnew] at hname
    cases hname
  | ok name' =>
    rw [hnew] at hname
    cases hname
    have hstr := BranchName.asStr_of_new hnew
    rw [updateDag_run] at hupdate
    unfold PatchDag.updateBranch at hupdate
    split_ifs at hupdate
    · cases hupdate
    · cases hupdate
    · cases hupdate
      cases h
      rw [hstr]
      exact ⟨name, _, rfl, rfl⟩

theorem recordCommit_run {branch : String} {id : H} {built : FileTree H}
    (h : recordCommit branch id built s = (.ok (), t)) : t = { s with
      headTreeHash := some (Hashing.contentHash built.entries), fileTrees := s.fileTrees.insert id built,
      cachedHeadSnapshot := some built, cachedHeadBranch := some branch, cachedHeadId := some id } := by
  cases h
  rfl

/-- What the tree of HEAD names is stored. -/
theorem Ready.stored (hs : Ready s tree) (path : String) (hash : H)
    (hget : tree.get path = some hash) : ∃ data, s.blobs.get hash = some data := by
  obtain ⟨-, id, -, -, -, -, hreplay⟩ := hs.atTip
  have hstored := hs.valid.treeOf_stored id
  rw [hs.valid.treeOf_eq trivial, hreplay] at hstored
  exact Option.isSome_iff_exists.mp (hstored.stored path hash hget)

theorem Ready.named (hs : Ready s tree) (path : String) (hpath : tree.get path ≠ none) :
    IsRepoPath path := by
  obtain ⟨-, id, -, -, -, -, hreplay⟩ := hs.atTip
  have hstored := hs.valid.treeOf_stored id
  rw [hs.valid.treeOf_eq trivial, hreplay] at hstored
  exact hstored.named path hpath

/-- Reading the tree of HEAD leaves it settled. -/
theorem Settled.snapshotHead_run (hs : Settled s tree) :
    ∃ t, snapshotHead s = (.ok tree, t) ∧ Settled t tree ∧ t.blobs = s.blobs := by
  obtain ⟨name, id, hname, hget, -, -, hreplay⟩ := hs.atTip
  obtain ⟨name', id', tree', t, hname', hget', hrun, hread, ht, hle⟩ := snapshotHead_spec hs.valid
  rw [hname] at hname'
  cases hname'
  rw [hget] at hget'
  cases hget'
  have htree : tree' = tree := by
    rw [hread.value, hs.cached]
    rfl
  subst htree
  have hsame := hread.same
  have htarget : t.dag.getBranch name = some id := by
    rw [← hget]
    unfold PatchDag.getBranch
    rw [hread.asked.queried.same.branches]
  refine ⟨t, hrun, ⟨⟨ht, ?_, ?_, name, id, ?_, htarget, ?_, ?_, ?_⟩, ?_⟩, ?_⟩
  · rw [hsame]
    exact hs.noMerge
  · rw [hsame]
  · rw [hsame]
    exact hname
  · rw [hsame]
  · rw [hsame]
  · rw [replay_of_grows hle.grows hs.valid.sound.graded (hs.valid.sound.targets _ _ hget), hreplay]
  · rw [← hs.noneStaged, hsame]
    rfl
  · rw [hsame]

/-- What a commit leaves of the rest. -/
theorem commitPatch_run (hs : Valid True s) {headId : H} {branch : String}
    (hhead : s.dag.hasPatch headId = true) {patch : Patch H} (hpatch : PatchOk s.dag s.blobs patch)
    {parentIds : List H} {staged : List (String × FileStatus)} {id : H}
    (hrun : commitPatch branch headId patch parentIds staged s = (.ok id, t)) :
    replay t.dag id = patched (jointReplay s.dag parentIds) patch ∧
      (∃ name, BranchName.new branch = .ok name ∧ t.dag.getBranch name = some id) ∧
      t.cachedHeadId = some id ∧ t.cachedHeadBranch = some branch ∧ t.headBranch = s.headBranch ∧
      t.pendingMergeParents = s.pendingMergeParents ∧
      t.workingSet = (staged.map Prod.fst).foldl (fun m path => m.erase path) s.workingSet ∧
      t.blobs = s.blobs := by
  obtain ⟨patchId, s₁, hadd, hrun⟩ := bind_ok hrun
  obtain ⟨hs₁, hle₁, hpost⟩ := safe_addPatch hs hpatch parentIds
  rw [hadd] at hs₁ hle₁ hpost
  obtain ⟨rfl, hsame₁, hext⟩ := hpost _ rfl
  change s₁ = { s with dag := s₁.dag } at hsame₁
  have hnew : s₁.dag.hasPatch patch.id = true := (hext.hasPatch _).mpr (.inl rfl)
  obtain ⟨_, s₂, hstore, hrun⟩ := bind_ok hrun
  obtain ⟨_, s₃, hclear, hrun⟩ := bind_ok hrun
  obtain ⟨_, s₄, hset, hrun⟩ := bind_ok hrun
  obtain ⟨built, s₅, hbuilt, hrun⟩ := bind_ok hrun
  obtain ⟨_, s₆, hrecord, hrun⟩ := bind_ok hrun
  cases hrun
  have hrest : s₃.headBranch = s.headBranch ∧ s₃.pendingMergeParents = s.pendingMergeParents ∧
      s₃.workingSet = (staged.map Prod.fst).foldl (fun m path => m.erase path) s.workingSet ∧
      s₃.blobs = s.blobs := by
    have hadded : s₁.headBranch = s.headBranch ∧ s₁.pendingMergeParents = s.pendingMergeParents ∧
        s₁.workingSet = s.workingSet ∧ s₁.blobs = s.blobs := by
      rw [hsame₁]
      exact ⟨rfl, rfl, rfl, rfl⟩
    cases hstore
    cases hclear
    exact ⟨hadded.1, hadded.2.1, by rw [← hadded.2.2.1], hadded.2.2.2⟩
  obtain ⟨hs₃, hle₃⟩ : Valid True s₃ ∧ Later s₁ s₃ := by
    have hstored := safe_of_still (still_storePatch patch) hs₁
    have hcleared := safe_of_still (still_clearWorkingSet (staged.map Prod.fst)) hstored.inv
    cases hstore
    cases hclear
    exact ⟨hcleared.inv, Later.trans hstored.le hcleared.le⟩
  obtain ⟨hs₄, hle₄, -⟩ := safe_setBranch hs₃ branch patch.id
  rw [hset] at hs₄ hle₄
  have hlater : Later s₁ s₄ := hle₃.trans hle₄
  obtain ⟨t', hrun', hlooked, -, hle₅⟩ := commitTree_run hs₄
    ((hle₁.trans hlater).grows.hasPatch hhead) (hlater.grows.hasPatch hnew) hpatch.noTarget
  rw [hbuilt] at hrun'
  cases hrun'
  obtain ⟨name, rows, hname, hmoved⟩ := setBranch_run hset
  have hkept := hlooked.same
  have hdone := recordCommit_run hrecord
  have hbranches : s₅.dag.branches = Assoc.insert branch patch.id s₃.dag.branches := by
    rw [hlooked.asked.queried.same.branches, hmoved]
  refine ⟨?_, ⟨name, hname, ?_⟩, ?_, ?_, ?_, ?_, ?_, ?_⟩
  · rw [hdone, ← replay_new hext hs.sound.graded]
    exact (replay_of_grows hle₅.grows hs₄.sound.graded (hlater.grows.hasPatch hnew)).trans
      (replay_of_grows hlater.grows hs₁.sound.graded hnew)
  · rw [hdone]
    change Assoc.get s₅.dag.branches name.asStr = some patch.id
    rw [hbranches, BranchName.asStr_of_new hname, Assoc.get_insert, if_pos rfl]
  · rw [hdone]
  · rw [hdone]
  · rw [hdone, hkept, hmoved]
    exact hrest.1
  · rw [hdone, hkept, hmoved]
    exact hrest.2.1
  · rw [hdone, hkept, hmoved]
    exact hrest.2.2.1
  · rw [hdone, hkept, hmoved]
    exact hrest.2.2.2

theorem stageChange_blobs {e : String × FileStatus} {c : Option (FileChange H)}
    (h : stageChange e s = (.ok c, t)) {hash : H} {data : Bytes}
    (hget : t.blobs.get hash = some data) :
    s.blobs.get hash = some data ∨ s.files.get e.1 = some data := by
  have hput : ∀ op, (do
      let hash ← putBlob (← readFile e.1)
      return some ⟨op, e.1, .hex hash⟩ : Action H (Option (FileChange H))) s = (.ok c, t) →
      s.blobs.get hash = some data ∨ s.files.get e.1 = some data := by
    intro op hrun
    obtain ⟨found, s₁, hread, hrun⟩ := bind_ok hrun
    unfold readFile at hread
    rw [read_bind] at hread
    cases hfile : s.files.get e.1 with
    | none =>
      rw [hfile] at hread
      cases hread
    | some found' =>
      rw [hfile] at hread
      cases hread
      obtain ⟨_, s₂, hput, hrun⟩ := bind_ok hrun
      cases hrun
      unfold putBlob at hput
      rw [read_bind] at hput
      split_ifs at hput
      · cases hput
        exact .inl hget
      · cases hput
      · cases hput
        change (s.blobs.insert _ found).get hash = some data at hget
        rw [SortedMap.get_insert] at hget
        split at hget
        · exact .inr hget
        · exact .inl hget
  obtain ⟨path, status⟩ := e
  cases status with
  | added => exact hput .create h
  | modified => exact hput .modify h
  | deleted | clean | untracked =>
    cases h
    exact .inl hget

/-- The blobs of a commit are those of its staged files. -/
theorem stageChanges_blobs {es : List (String × FileStatus)} : ∀ {s t : Repository H}
    {cs : List (Option (FileChange H))}, mapEach stageChange es s = (.ok cs, t) →
    ∀ {hash : H} {data : Bytes}, t.blobs.get hash = some data →
      s.blobs.get hash = some data ∨ ∃ e ∈ es, s.files.get e.1 = some data := by
  induction es with
  | nil =>
    intro s t cs h hash data hget
    cases h
    exact .inl hget
  | cons e es ih =>
    intro s t cs h hash data hget
    obtain ⟨c, s₁, hc, h⟩ := bind_ok h
    obtain ⟨cs', s₂, hcs, h⟩ := bind_ok h
    cases h
    have hfiles : s₁.files = s.files := by rw [(stageChange_run hc).2]
    rcases ih hcs hget with hold | ⟨e', he', hfile⟩
    · exact (stageChange_blobs hc hold).imp_right fun h => ⟨e, List.mem_cons_self .., h⟩
    · exact .inr ⟨e', List.mem_cons_of_mem _ he', hfiles ▸ hfile⟩

/-- The part of a commit after HEAD is read and the parents are taken. -/
theorem commit_steps (hs : Valid True s) (hmerge : s.pendingMergeParents = []) {branch message : String}
    {tip id : H} (hhead : (head s).1 = .ok (branch, tip)) (hrun : commit message s = (.ok id, t)) :
    ∃ ready, ready = { s with
        pendingMergeParents := [], pendingRow := ready.pendingRow,
        cachedHeadBranch := some branch, cachedHeadId := some tip } ∧ Valid True ready ∧
      s.dag.hasPatch tip = true ∧
      commitStaged message branch tip [tip] (stagedFiles s) ready = (.ok id, t) := by
  rcases hread : head s with ⟨r, s₁⟩
  rw [hread] at hhead
  cases hhead
  obtain ⟨hsame, htip, hagain, hs₁, -⟩ := head_ok hs hread
  unfold commit at hrun
  rw [attempt_bind hread, read_bind] at hrun
  obtain ⟨_, s₂, hstaged, hrun⟩ := bind_ok hrun
  have hs₂ : s₂ = s₁ := by
    unfold require at hstaged
    split at hstaged
    · cases hstaged
      rfl
    · cases hstaged
  rw [hs₂, bind_of_ok hagain] at hrun
  refine ⟨{ s₁ with pendingMergeParents := [], pendingRow := [] }, ?_, ?_, htip, ?_⟩
  · rw [hsame]
  · exact { hs₁ with pendingKnown := nofun }
  · have hparents : takeParents tip s₁ = (.ok [tip],
        { s₁ with pendingMergeParents := [], pendingRow := [] }) := by
      have hnone : s₁.pendingMergeParents = [] := by
        rw [hsame]
        exact hmerge
      change (_, _) = _
      rw [if_pos hnone]
    have hsame' : stagedFiles s₁ = stagedFiles s := by
      rw [hsame]
      rfl
    dsimp only at hrun
    rwa [hsame', bind_of_ok hparents] at hrun

omit [Hashing H] in
theorem require_run {p : Prop} [Decidable p] {e : RepoError H} {u : Unit}
    (h : require p e s = (.ok u, t)) : t = s := by
  unfold require at h
  split at h
  · cases h
    rfl
  · cases h

/-- HEAD after a commit on its tip. -/
structure Advanced (s t : Repository H) (branch : String) (tip new : H) : Prop where
  tree : ∀ q, (replay t.dag new).get q = recordedEntry s q ((replay s.dag tip).get q)
  target : ∃ name, BranchName.new branch = .ok name ∧ t.dag.getBranch name = some new
  headId : t.cachedHeadId = some new
  headBranch : t.cachedHeadBranch = some branch
  sameBranch : t.headBranch = s.headBranch
  noMerge : t.pendingMergeParents = []
  noneStaged : stagedFiles t = []
  blobs : ∀ hash data, t.blobs.get hash = some data →
    s.blobs.get hash = some data ∨ ∃ e ∈ stagedFiles s, s.files.get e.1 = some data

theorem commitStaged_run {ready : Repository H} {branch message : String} {tip new : H}
    (hready : ready = { s with
      pendingMergeParents := [], pendingRow := ready.pendingRow,
      cachedHeadBranch := some branch, cachedHeadId := some tip })
    (hvalid : Valid True ready) (hknown : s.dag.hasPatch tip = true)
    (hrun : commitStaged message branch tip [tip] (stagedFiles s) ready = (.ok new, t)) :
    Advanced s t branch tip new := by
  obtain ⟨cs, u, hchanges, hrun⟩ := bind_ok hrun
  obtain ⟨_, u', hsome, hrun⟩ := bind_ok hrun
  rw [require_run hsome, read_bind] at hrun
  have hstaged : stagedFiles ready = stagedFiles s := by
    rw [hready]
    rfl
  have hrecorded : recordedEntry ready = recordedEntry s := by
    rw [hready]
    rfl
  have hnamed : ∀ e ∈ stagedFiles s, IsRepoPath e.1 := fun e he => by
    rw [← hstaged] at he
    exact hvalid.stagedNamed e.1 (Option.isSome_iff_exists.mpr ⟨e.2, (mem_stagedFiles.mp he).1⟩)
  obtain ⟨hu, -, hok⟩ : Safe True (mapEach stageChange (stagedFiles s)) ready fun cs u =>
      ∀ c ∈ cs, ∀ change, c = some change → ChangeOk u.blobs change :=
    Discipline.Safe.mapEach (fun _ _ _ hle h change hc => (h change hc).later hle)
      (fun e he u hu _ => safe_stageChange hu (hnamed e he)) hvalid
  rw [hchanges] at hu hok
  obtain ⟨-, -, -, hsame⟩ := stageChanges_run hchanges
  have hdag : u.dag = s.dag := by rw [hsame, hready]
  have hmoves : ∀ c ∈ cs.filterMap id, ChangeOk u.blobs c := fun c hc => by
    obtain ⟨c', hc', heq⟩ := List.mem_filterMap.mp hc
    exact hok cs rfl c' hc' c heq
  have hparents : ∀ q ∈ [tip], u.dag.hasPatch q = true := fun q hq => by
    rw [List.mem_singleton.mp hq, hdag]
    exact hknown
  obtain ⟨hnew, htarget, hid, hbranch, hsameBranch, hpending, hset, hblobs⟩ :=
    commitPatch_run hu (hdag ▸ hknown) (newBatch_ok hparents hmoves _ _ _) hrun
  refine ⟨fun q => ?_, htarget, hid, hbranch, ?_, ?_, ?_, fun hash data hdata => ?_⟩
  · rw [hnew, jointReplay_singleton, hdag]
    have hget := patched_staged (hstaged ▸ hchanges) (fun c hc => (hmoves c hc).noMove) [tip]
      u.author message u.clock (replay s.dag tip) q
    rwa [hrecorded] at hget
  · rw [hsameBranch, hsame, hready]
  · rw [hpending, hsame, hready]
  · refine List.eq_nil_iff_forall_not_mem.mpr fun e he => ?_
    obtain ⟨hstatus, hop⟩ := mem_stagedFiles.mp (show (e.1, e.2) ∈ stagedFiles t from he)
    rw [hset, SortedMap.get_foldl_erase_eq_some, hsame, hready] at hstatus
    exact hstatus.2 (List.mem_map.mpr ⟨e, mem_stagedFiles.mpr ⟨hstatus.1, hop⟩, rfl⟩)
  · rw [hblobs] at hdata
    have hfrom := stageChanges_blobs hchanges hdata
    rwa [hready] at hfrom

/-- A commit changes the tree of HEAD by what is staged, and leaves nothing staged. -/
theorem Ready.commit_run (hs : Ready s tree) {message : String} {new : H}
    (hrun : commit message s = (.ok new, t)) : ∃ tree', Settled t tree' ∧
      (∀ q, tree'.get q = recordedEntry s q (tree.get q)) ∧ BlobsGrow s.blobs t.blobs ∧
      ∀ hash data, t.blobs.get hash = some data →
        s.blobs.get hash = some data ∨ ∃ e ∈ stagedFiles s, s.files.get e.1 = some data := by
  obtain ⟨ht, hle, hpost⟩ := safe_commit hs.valid (fun _ h => absurd hs.noMerge h) message
  rw [hrun] at ht hle hpost
  obtain ⟨-, branch, tip, tree', hhead, hcached, hget⟩ := hpost new rfl
  obtain ⟨name, tip', hname, -, hid, hbranch, hreplay⟩ := hs.atTip
  rw [head_of_cached hid hbranch] at hhead
  cases hhead
  have hbase : commitBase s tip = tree := by
    rw [commitBase, parentsOf, if_pos hs.noMerge, jointReplay_singleton, hs.valid.treeOf_eq trivial,
      hreplay, ite_self]
  rw [hbase] at hget
  obtain ⟨ready, hready, hvalid, hknown, hrun⟩ :=
    commit_steps hs.valid hs.noMerge (by rw [head_of_cached hid hbranch]) hrun
  have hdone := commitStaged_run hready hvalid hknown hrun
  obtain ⟨name, hname, htarget⟩ := hdone.target
  refine ⟨tree', ⟨⟨ht, hdone.noMerge, hcached, name, new, ?_, htarget, hdone.headId, ?_, ?_⟩,
    hdone.noneStaged⟩, hget, hle.gains.blobs, hdone.blobs⟩
  · rw [hdone.sameBranch]
    exact hname
  · rw [hdone.sameBranch]
    exact hdone.headBranch
  · refine SortedMap.ext fun q => ?_
    rw [hdone.tree, hreplay, hget]

/-! ### One file -/

omit [Hashing H] in
/-- What `add` does when the tree of HEAD is cached. -/
theorem add_eq {path : String} (hcached : s.cachedHeadSnapshot = some tree) (hpath : IsRepoPath path) :
    add path s = if s.files.contains path = true ∨ tree.contains path = true then
      (.ok (), { s with workingSet :=
        s.workingSet.insert path (addedStatus (s.files.contains path) (tree.contains path)) })
    else (.error (.io path), s) := by
  obtain ⟨p, hp⟩ := hpath
  have hrun : repoPath path s = (.ok p, s) := by
    rw [repoPath, hp]
    rfl
  have htracked : isTracked path s = (.ok (tree.contains path), s) := by
    unfold isTracked
    rw [read_bind, hcached]
    rfl
  have hset : ∀ status, workingSetAdd path status s =
      (.ok (), { s with workingSet := s.workingSet.insert path status }) := fun status => by
    unfold workingSetAdd
    rw [bind_of_ok hrun, RepoPath.asStr_of_new hp]
    rfl
  unfold add addedStatus
  rw [bind_of_ok hrun, read_bind]
  cases s.files.contains path with
  | true =>
    rw [if_pos rfl, bind_of_ok htracked]
    cases tree.contains path with
    | true => exact hset .modified
    | false => exact hset .added
  | false =>
    rw [if_neg Bool.false_ne_true, bind_of_ok htracked]
    cases tree.contains path with
    | true => exact hset .deleted
    | false => rfl

omit [Hashing H] in
theorem add_cached {path : String} (hcached : s.cachedHeadSnapshot = some tree)
    (h : add path s = (.ok (), t)) : (s.files.contains path = true ∨ tree.contains path = true) ∧
      t = { s with workingSet :=
        s.workingSet.insert path (addedStatus (s.files.contains path) (tree.contains path)) } := by
  have hpath : IsRepoPath path := by
    obtain ⟨p, s₁, hp, -⟩ := bind_ok h
    rw [repoPath, ofExcept_run] at hp
    obtain ⟨hp, -⟩ := Prod.mk.inj hp
    cases hnew : RepoPath.new path with
    | error e =>
      rw [hnew] at hp
      cases hp
    | ok p => exact ⟨p, hnew⟩
  rw [add_eq hcached hpath] at h
  split at h
  · rename_i hthere
    exact ⟨hthere, (Prod.mk.inj h).2.symm⟩
  · cases h

omit [Hashing H] in
/-- A path that is neither on disk nor in the tree of HEAD cannot be added. -/
theorem add_missing {path : String} (hcached : s.cachedHeadSnapshot = some tree)
    (hfile : s.files.contains path = false) (htree : tree.contains path = false) :
    ∃ e, add path s = (.error e, s) := by
  cases hpath : RepoPath.new path with
  | error e =>
    have hrun : repoPath path s = (.error (.name e), s) := by
      rw [repoPath, hpath]
      rfl
    exact ⟨_, bind_of_error hrun⟩
  | ok p =>
    rw [add_eq hcached ⟨p, hpath⟩, hfile, htree]
    exact ⟨_, rfl⟩

theorem Ready.of_files (hs : Ready s tree) (files : SortedMap String Bytes) :
    Ready { s with files := files } tree := { hs with valid := { hs.valid with } }

theorem Settled.of_files (hs : Settled s tree) (files : SortedMap String Bytes) :
    Settled { s with files := files } tree := { hs.toReady.of_files files with
      noneStaged := hs.noneStaged }

theorem Ready.add_run (hs : Ready s tree) {path : String} (h : add path s = (.ok (), t)) :
    Ready t tree := by
  have ht : Valid True t := by
    have hinv := (safe_add hs.valid path).inv
    rwa [h] at hinv
  obtain ⟨-, hsame⟩ := add_cached hs.cached h
  subst hsame
  exact { hs with valid := ht }

theorem Settled.stagedOp_eq_none (hs : Settled s tree) (q : String) :
    (s.workingSet.get q).bind stagedOp = none := by
  cases hget : s.workingSet.get q with
  | none => rfl
  | some status =>
    rw [Option.bind_some]
    by_contra hop
    have hmem := mem_stagedFiles.mpr ⟨hget, Option.isSome_iff_ne_none.mpr hop⟩
    rw [hs.noneStaged] at hmem
    cases hmem

/-- The next commit gives one path what is on disk. -/
theorem Settled.recordedEntry_add (hs : Settled s tree) {path : String}
    (h : add path s = (.ok (), t)) (q : String) :
    recordedEntry t q (tree.get q) = if q = path then fileHash s path else tree.get q := by
  obtain ⟨hthere, rfl⟩ := add_cached hs.cached h
  by_cases hq : q = path
  · subst hq
    obtain ⟨op, hop⟩ : ∃ op, stagedOp
        (addedStatus (s.files.contains q) (tree.contains q)) = some op := by
      unfold addedStatus
      split_ifs <;> exact ⟨_, rfl⟩
    have hfile : s.files.contains q = true ↔ fileHash s q ≠ none := by
      rw [SortedMap.contains_eq, fileHash, Option.isSome_iff_ne_none, ne_eq, ne_eq,
        Option.map_eq_none_iff]
    have hentry : changedEntry op (fileHash s q) (tree.get q) = fileHash s q :=
      (changedEntry_staged hop ?_).mpr ?_
    · rw [if_pos rfl, recordedEntry, SortedMap.get_insert, if_pos rfl, Option.bind_some, hop]
      exact hentry
    · refine fun hne => hfile.mp ?_
      by_contra habsent
      rw [Bool.eq_false_iff.mpr habsent] at hop
      exact hne (Option.some.inj hop).symm
    · split
      · exact .inr (SortedMap.contains_eq ..)
      · rename_i habsent
        exact not_not.mp (mt hfile.mpr habsent)
  · rw [if_neg hq, recordedEntry, SortedMap.get_insert, if_neg hq, hs.stagedOp_eq_none]

theorem Settled.stagedFiles_add (hs : Settled s tree) {path : String}
    (h : add path s = (.ok (), t)) {e : String × FileStatus} (he : e ∈ stagedFiles t) : e.1 = path := by
  obtain ⟨-, rfl⟩ := add_cached hs.cached h
  obtain ⟨hget, hop⟩ := mem_stagedFiles.mp (show (e.1, e.2) ∈ stagedFiles _ from he)
  rw [SortedMap.get_insert] at hget
  split at hget
  · rename_i hq
    exact hq
  · have hnone := hs.stagedOp_eq_none e.1
    rw [hget, Option.bind_some] at hnone
    rw [hnone] at hop
    cases hop

/-- Adding a path and committing gives it in the tree of HEAD what is on disk. -/
theorem Settled.commit_added (hs : Settled s tree) {path message : String} {new : H}
    {u : Repository H} (hadd : add path s = (.ok (), t)) (hcommit : commit message t = (.ok new, u)) :
    ∃ tree', Settled u tree' ∧ BlobsGrow s.blobs u.blobs ∧
      (∀ q, tree'.get q = if q = path then fileHash s path else tree.get q) ∧
      ∀ hash data, u.blobs.get hash = some data →
        s.blobs.get hash = some data ∨ s.files.get path = some data := by
  obtain ⟨tree', hu, hget, hgrow, hfrom⟩ := (hs.toReady.add_run hadd).commit_run hcommit
  obtain ⟨-, hsame⟩ := add_cached hs.cached hadd
  have hblobs : t.blobs = s.blobs := by rw [hsame]
  have hfiles : t.files = s.files := by rw [hsame]
  refine ⟨tree', hu, hblobs ▸ hgrow, fun q => ?_, fun hash data hdata => ?_⟩
  · rw [hget, hs.recordedEntry_add hadd]
  · rw [← hblobs, ← hfiles]
    refine (hfrom hash data hdata).imp_right ?_
    rintro ⟨e, he, hfile⟩
    rwa [hs.stagedFiles_add hadd he] at hfile

/-- Writing a file and committing it, when its hash is not that of other content. -/
theorem Settled.commit_file (hs : Settled s tree) {path message : String} {content : Bytes} {new : H}
    {u : Repository H} (hadd : add path { s with files := s.files.insert path content } = (.ok (), t))
    (hcommit : commit message t = (.ok new, u))
    (hdistinct : ∀ data, s.blobs.get (Hashing.fromData content) = some data → data = content) :
    ∃ tree', Settled u tree' ∧ BlobsGrow s.blobs u.blobs ∧
      (∀ q, tree'.get q = if q = path then some (Hashing.fromData content) else tree.get q) ∧
      u.blobs.get (Hashing.fromData content) = some content := by
  obtain ⟨tree', hu, hgrow, hget, hfrom⟩ := (hs.of_files _).commit_added hadd hcommit
  have hfile : (s.files.insert path content).get path = some content := by
    rw [SortedMap.get_insert, if_pos rfl]
  have hhash : fileHash { s with files := s.files.insert path content } path =
      some (Hashing.fromData content) := congrArg (Option.map Hashing.fromData) hfile
  rw [hhash] at hget
  refine ⟨tree', hu, hgrow, hget, ?_⟩
  obtain ⟨data, hdata⟩ := hu.stored path _ ((hget path).trans (if_pos rfl))
  rcases hfrom _ data hdata with hold | hnew
  · rw [hdata, hdistinct data hold]
  · rw [hdata, ← hnew, hfile]

/-- Removing a file and committing that. -/
theorem Settled.commit_delete (hs : Settled s tree) {path message : String} {new : H}
    {u : Repository H} {files : SortedMap String Bytes} (hfiles : files.get path = none)
    (hadd : add path { s with files := files } = (.ok (), t))
    (hcommit : commit message t = (.ok new, u)) :
    ∃ tree', Settled u tree' ∧ BlobsGrow s.blobs u.blobs ∧
      ∀ q, tree'.get q = if q = path then none else tree.get q := by
  obtain ⟨tree', hu, hgrow, hget, -⟩ := (hs.of_files files).commit_added hadd hcommit
  have hhash : fileHash { s with files := files } path = none :=
    congrArg (Option.map Hashing.fromData) hfiles
  rw [hhash] at hget
  exact ⟨tree', hu, hgrow, hget⟩

/-! ### Actions of the mount -/

omit [Hashing H] in
theorem onRepo_ok {α : Type} {m : Action H α} {fs : InnerFs H} {a : α} (h : m fs.repo = (.ok a, s)) :
    onRepo m fs = (.ok a, { fs with repo := s }) := by
  unfold onRepo
  rw [h]
  rfl

omit [Hashing H] in
theorem onRepo_error {α : Type} {m : Action H α} {fs : InnerFs H} {e : RepoError H}
    (h : m fs.repo = (.error e, s)) : onRepo m fs = (.error .io, { fs with repo := s }) := by
  unfold onRepo
  rw [h]
  rfl

omit [LinearOrder H] [Hashing H] in
theorem erase_of_not_contains {α : Type} {m : SortedMap String α} {path : String}
    (h : m.contains path = false) : m.erase path = m := by
  refine SortedMap.ext fun q => ?_
  rw [SortedMap.get_erase]
  split
  · rename_i hq
    rw [SortedMap.contains_eq, Option.isSome_eq_false_iff, Option.isNone_iff_eq_none] at h
    rw [hq, h]
  · rfl

omit [Hashing H] in
theorem removeFromDisk_run {fs : InnerFs H} {env : Env} {path : String}
    (hdisk : fs.repo.files.contains path = true → env.disk = true) : removeFromDisk env path fs =
      (.ok (), { fs with repo := { fs.repo with files := fs.repo.files.erase path } }) := by
  unfold removeFromDisk
  rw [read_bind]
  cases hfile : fs.repo.files.contains path with
  | true =>
    rw [if_pos rfl, ensure, require_bind (hdisk hfile)]
    rfl
  | false =>
    rw [if_neg Bool.false_ne_true, erase_of_not_contains hfile]
    rfl

omit [Hashing H] in
theorem removeFromDisk_error {fs : InnerFs H} {env : Env} {path : String}
    (hdisk : ¬ (fs.repo.files.contains path = true → env.disk = true)) :
    removeFromDisk env path fs = (.error .io, fs) := by
  rw [Classical.not_imp] at hdisk
  unfold removeFromDisk
  rw [read_bind, if_pos hdisk.1, ensure, require_bind_of_not hdisk.2]

end Suture.Vfs
