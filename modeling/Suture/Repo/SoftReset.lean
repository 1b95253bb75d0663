import Suture.Repo.Atomic
import Suture.Repo.CleanMerge
import Suture.Repo.Tracking

/-!
# A soft reset and a commit

A soft reset stages how the tree of HEAD differs from that of its target. An added file is
staged as modified, and a commit makes no modification of a file that is not in the tree it
adds to.
-/

namespace Suture.Repo
set_option autoImplicit false
open Foundation Common Patches Dag Engine Program

variable {H : Type} [LinearOrder H] {F : Prop} {s t u : Repository H}

/-! ### What is staged for a difference -/

/-- What a soft reset stages for an entry of a difference. -/
def stagedBy (e : DiffEntry H) : List (String × FileStatus) :=
  match e.diffType with
  | .added | .modified => [(e.path, .modified)]
  | .deleted => [(e.path, .deleted)]
  | .renamed oldPath _ => [(oldPath, .deleted), (e.path, .added)]

def stageAll (workingSet : SortedMap String FileStatus) (staged : List (String × FileStatus)) :
    SortedMap String FileStatus := staged.foldl (fun m p => m.insert p.1 p.2) workingSet

theorem stageDifference_run {e : DiffEntry H} (h : stageDifference e s = (.ok (), t)) :
    t = { s with workingSet := stageAll s.workingSet (stagedBy e) } := by
  unfold stageDifference at h
  unfold stagedBy
  cases htype : e.diffType with
  | added | modified | deleted =>
    rw [htype] at h
    exact workingSetAdd_run h
  | renamed oldPath newPath =>
    rw [htype] at h
    obtain ⟨_, s₁, hold, h⟩ := bind_ok h
    rw [workingSetAdd_run h, workingSetAdd_run hold]
    rfl

theorem stageDifferences_run {diffs : List (DiffEntry H)}
    (h : forEach stageDifference diffs s = (.ok (), t)) :
    t = { s with workingSet := stageAll s.workingSet (diffs.flatMap stagedBy) } := by
  induction diffs generalizing s with
  | nil =>
    cases h
    rfl
  | cons e diffs ih =>
    obtain ⟨_, s₁, he, h⟩ := bind_ok h
    rw [ih h, stageDifference_run he, List.flatMap_cons, stageAll, stageAll, stageAll,
      List.foldl_append]

theorem get_stageAll_of_notMem {staged : List (String × FileStatus)} {path : String}
    (h : ∀ p ∈ staged, p.1 ≠ path) (workingSet : SortedMap String FileStatus) :
    (stageAll workingSet staged).get path = workingSet.get path := by
  induction staged generalizing workingSet with
  | nil => rfl
  | cons p staged ih =>
    have hrest := ih (fun q hq => h q (List.mem_cons_of_mem _ hq)) (workingSet.insert p.1 p.2)
    have hne := (h p (List.mem_cons_self ..)).symm
    change (stageAll (workingSet.insert p.1 p.2) staged).get path = _
    rw [hrest, SortedMap.get_insert, if_neg hne]

/-- What is staged for a path is the status that all its changes agree on. -/
theorem get_stageAll {staged : List (String × FileStatus)} {path : String} {status : FileStatus}
    (h : ∀ p ∈ staged, p.1 = path → p.2 = status) (hpath : (path, status) ∈ staged)
    (workingSet : SortedMap String FileStatus) :
    (stageAll workingSet staged).get path = some status := by
  induction staged generalizing workingSet with
  | nil => cases hpath
  | cons p staged ih =>
    have hrest := fun q hq => h q (List.mem_cons_of_mem p hq)
    change (stageAll (workingSet.insert p.1 p.2) staged).get path = _
    by_cases hlater : ∃ q ∈ staged, q.1 = path
    · obtain ⟨q, hq, rfl⟩ := hlater
      have hstatus := hrest q hq rfl
      exact ih hrest (hstatus ▸ hq) _
    · have hnone : ∀ q ∈ staged, q.1 ≠ path := fun q hq heq => hlater ⟨q, hq, heq⟩
      rcases List.mem_cons.mp hpath with heq | hmem
      · rw [get_stageAll_of_notMem hnone, ← heq, SortedMap.get_insert, if_pos rfl]
      · exact absurd rfl (hnone _ hmem)

/-! ### Differences -/

section Differences
variable {base old : FileTree H} {e e' : DiffEntry H}

/-- An added file that is reported as renamed is not reported as added. -/
theorem added_ne_renamed (he : e ∈ diffTrees base old) (he' : e' ∈ diffTrees base old)
    (hadded : e.diffType = .added) {oldPath newPath : String}
    (hrenamed : e'.diffType = .renamed oldPath newPath) : e.path ≠ e'.path := by
  simp only [diffTrees, List.mem_insertionSort, List.mem_append, List.mem_filterMap, List.mem_map,
    List.mem_filter] at he he'
  have hmodified : ∀ {d : DiffEntry H} {p : String × H}, modifiedEntry old p = some d →
      d.diffType = .modified := by
    intro d p h
    unfold modifiedEntry at h
    split at h
    · split at h
      · cases h
      · cases h
        rfl
    · cases h
  rcases he with ((⟨p, -, hp⟩ | ⟨r, -, rfl⟩) | ⟨p, -, rfl⟩) | ⟨p, ⟨-, hp⟩, rfl⟩
  · rw [hmodified hp] at hadded
    cases hadded
  · cases hadded
  · cases hadded
  rcases he' with ((⟨q, -, hq⟩ | ⟨r, hr, rfl⟩) | ⟨q, -, rfl⟩) | ⟨q, -, rfl⟩
  · rw [hmodified hq] at hrenamed
    cases hrenamed
  · intro heq
    have hnot := of_decide_eq_true hp
    exact hnot ⟨r, hr, heq.symm⟩
  · cases hrenamed
  · cases hrenamed

/-- How a path on which the trees differ is staged. -/
def statusAt (base old : FileTree H) (path : String) : FileStatus :=
  if old.get path = none then .deleted
  else if base.get path = none ∧ ∃ e ∈ diffTrees base old, e.path = path ∧ e.diffType ≠ .added then
    .added
  else .modified

def operationAt (base old : FileTree H) (path : String) : OperationType :=
  if old.get path = none then .delete
  else if base.get path = none ∧ ∃ e ∈ diffTrees base old, e.path = path ∧ e.diffType ≠ .added then
    .create
  else .modify

theorem stagedOp_statusAt (base old : FileTree H) (path : String) :
    stagedOp (statusAt base old path) = some (operationAt base old path) := by
  unfold statusAt operationAt
  split_ifs <;> rfl

/-- A path with an added entry has no other. -/
theorem added_of_added (he : e ∈ diffTrees base old) (he' : e' ∈ diffTrees base old)
    (hadded : e.diffType = .added) (hpath : e'.path = e.path) : e'.diffType = .added := by
  have hok := diffTrees_sound he
  have hok' := diffTrees_sound he'
  unfold EntryOk at hok hok'
  rw [hadded] at hok
  rw [hpath] at hok'
  obtain ⟨hbase, hash, hold, -⟩ := hok
  cases htype : e'.diffType with
  | added => rfl
  | modified =>
    rw [htype] at hok'
    obtain ⟨hash', -, hbase', -⟩ := hok'
    rw [hbase] at hbase'
    cases hbase'
  | deleted =>
    rw [htype] at hok'
    rw [hok'.1] at hold
    cases hold
  | renamed oldPath newPath => exact absurd hpath.symm (added_ne_renamed he he' hadded htype)

theorem stagedBy_status (he : e ∈ diffTrees base old) {p : String × FileStatus}
    (hp : p ∈ stagedBy e) : p.2 = statusAt base old p.1 := by
  have hok := diffTrees_sound he
  unfold EntryOk at hok
  unfold stagedBy at hp
  unfold statusAt
  cases htype : e.diffType with
  | added =>
    rw [htype] at hok hp
    obtain rfl := List.mem_singleton.mp hp
    obtain ⟨-, hash, hold, -⟩ := hok
    rw [if_neg (by rw [hold]; exact nofun), if_neg]
    intro ⟨_, e', he', hpath, hne⟩
    exact hne (added_of_added he he' htype hpath)
  | modified =>
    rw [htype] at hok hp
    obtain rfl := List.mem_singleton.mp hp
    obtain ⟨hash, hash', hbase, hold, -⟩ := hok
    rw [if_neg (by rw [hold]; exact nofun), if_neg]
    intro ⟨hnone, _⟩
    rw [hbase] at hnone
    cases hnone
  | deleted =>
    rw [htype] at hok hp
    obtain rfl := List.mem_singleton.mp hp
    rw [if_pos hok.1]
  | renamed oldPath newPath =>
    rw [htype] at hok hp
    obtain ⟨hash, -, hgone, hbase, hold, -⟩ := hok
    rcases List.mem_cons.mp hp with rfl | hp
    · rw [if_pos hgone]
    · obtain rfl := List.mem_singleton.mp hp
      rw [if_neg (by rw [hold]; exact nofun), if_pos]
      exact ⟨hbase, e, he, rfl, by rw [htype]; exact nofun⟩

/-- The paths that are staged are those on which the trees differ. -/
theorem mem_stagedBy_iff {path : String} :
    (∃ e ∈ diffTrees base old, ∃ p ∈ stagedBy e, p.1 = path) ↔ base.get path ≠ old.get path := by
  rw [← exists_concerns_iff]
  refine exists_congr fun e => and_congr_right fun _ => ?_
  unfold stagedBy DiffEntry.Concerns
  cases e.diffType with
  | added | modified | deleted => simp
  | renamed oldPath newPath => simp [or_comm]

theorem get_stageAll_diff (base old : FileTree H) (workingSet : SortedMap String FileStatus)
    (path : String) : (stageAll workingSet ((diffTrees base old).flatMap stagedBy)).get path =
      if base.get path = old.get path then workingSet.get path
      else some (statusAt base old path) := by
  have hmem : (∃ e ∈ diffTrees base old, ∃ p ∈ stagedBy e, p.1 = path) ↔
      base.get path ≠ old.get path := mem_stagedBy_iff
  split
  · rename_i hsame
    apply get_stageAll_of_notMem
    intro p hp hpath
    obtain ⟨e, he, hp⟩ := List.mem_flatMap.mp hp
    exact hmem.mp ⟨e, he, p, hp, hpath⟩ hsame
  · rename_i hdiff
    obtain ⟨e, he, p, hp, rfl⟩ := hmem.mpr hdiff
    apply get_stageAll
    · intro q hq hpath
      obtain ⟨e', he', hq⟩ := List.mem_flatMap.mp hq
      rw [stagedBy_status he' hq, hpath]
    · rw [← stagedBy_status he hp]
      exact List.mem_flatMap.mpr ⟨e, he, hp⟩

end Differences

/-! ### The reset -/

theorem ancestorAt_state (n : Nat) (id : H) :
    Quiet (Drift.ofView fun s : Repository H => s) (ancestorAt id n) := by
  induction n generalizing id with
  | zero => exact quiet_pure _
  | succ n ih =>
    apply quiet_read.bind
    intro s
    split
    · exact quiet_fail _
    · split
      · exact quiet_fail _
      · exact ih _

theorem branchTarget_state (branch : BranchName) :
    Quiet (Drift.ofView fun s : Repository H => s) (branchTarget branch) := by
  apply quiet_read.bind
  intro s
  split
  · exact quiet_pure _
  · exact quiet_fail _

variable [Hashing H]

/-- Once HEAD has been read, looking up a reference changes nothing. -/
theorem resolveRef_state {r : Except (RepoError H) (String × H)} (hhead : head s = (r, s))
    (target : Ref H) : (resolveRef target s).2 = s := by
  cases target with
  | head =>
    rw [resolveRef]
    cases r with
    | ok r =>
      rw [bind_of_ok hhead]
      rfl
    | error e => rw [bind_of_error hhead]
  | headOffset n =>
    rw [resolveRef]
    cases r with
    | ok r =>
      rw [bind_of_ok hhead]
      exact ancestorAt_state n r.2 s
    | error e => rw [bind_of_error hhead]
  | hash id =>
    rw [resolveRef, read_bind]
    split
    · rfl
    · exact ((quiet_ofExcept _).bind fun branch => branchTarget_state branch) s
  | name branch => exact branchTarget_state branch s

/-- Reading the tree of HEAD does not depend on what is known of HEAD. -/
theorem snapshotHead_of_head (hs : Valid F s) {branch : String} {headId : H}
    (ht : t = { s with cachedHeadBranch := some branch, cachedHeadId := some headId }) :
    snapshotHead t = snapshotHead s := by
  obtain ⟨-, id, -, -, -, htip⟩ := headBranchTip_run hs
  have htip' : headBranchTip t = (.ok (s.headBranch.getD "main", id), t) := by
    unfold headBranchTip at htip ⊢
    rw [read_bind] at htip ⊢
    obtain ⟨name, s₁, hname, htip⟩ := bind_ok htip
    have hbranch : branchName (t.headBranch.getD "main") t = (.ok name, t) := by
      unfold branchName at hname ⊢
      rw [ofExcept_run] at hname ⊢
      rw [show t.headBranch = s.headBranch by rw [ht]]
      rw [(Prod.mk.inj hname).1]
    rw [bind_of_ok hbranch, show t.dag = s.dag by rw [ht], show t.headBranch = s.headBranch by rw [ht]]
    cases hget : s.dag.getBranch name with
    | none =>
      rw [hget] at htip
      cases htip
    | some id' =>
      rw [hget] at htip
      cases htip
      rfl
  have hcache : setHeadCache (s.headBranch.getD "main") id t =
      setHeadCache (s.headBranch.getD "main") id s := by
    rw [ht]
    rfl
  unfold snapshotHead
  rw [bind_of_ok htip', bind_of_ok htip]
  dsimp only
  rw [bind_of_ok (hcache.trans rfl), bind_of_ok (show setHeadCache _ id s = (.ok (), _) from rfl)]

/-- The commit that HEAD is at once its branch has moved. -/
def headAfter (s : Repository H) (targetId : H) : H :=
  match (head s).1, (headBranchTip s).1 with
  | .ok (branch, _), .ok (name, tip) => if name = branch then targetId else tip
  | _, _ => targetId

theorem headTree_of_none (h : s.headTreeHash = none) (id : H) : headTree s id = treeOf s id := by
  unfold headTree treeOf
  cases loadFileTree s id with
  | none => rfl
  | some tree =>
    dsimp only
    rw [if_pos (.inl h)]
    rfl

/-- What a soft reset leaves: the working files, how the trees differ as staged, and HEAD at
the target. -/
structure SoftlyReset (s : Repository H) (id : H) (old : FileTree H) (t : Repository H) : Prop where
  files : t.files = s.files
  staged : t.workingSet =
    stageAll s.workingSet ((diffTrees (treeOf (snapshotHead s).2 id) old).flatMap stagedBy)
  head : (head t).1 = .ok (s.headBranch.getD "main", id)
  base : commitBase t id = commitBase (snapshotHead s).2 id
  valid : Valid False t

/-- The part of a soft reset after the branch has moved. -/
theorem stageReset_run (hs : Valid F s) (hnone : s.cachedHeadSnapshot = none)
    (hhash : s.headTreeHash = none) {old : FileTree H} {targetId r : H}
    (h : (do
      let newTree ← orEmpty snapshotHead
      forEach stageDifference (diffTrees newTree old)
      return targetId : Action H H) s = (.ok r, t)) :
    ∃ branch id, BranchName.new (s.headBranch.getD "main") = .ok branch ∧
      s.dag.getBranch branch = some id ∧ s.dag.hasPatch id = true ∧ t.files = s.files ∧
      t.workingSet = stageAll s.workingSet ((diffTrees (treeOf s id) old).flatMap stagedBy) ∧
      (head t).1 = .ok (s.headBranch.getD "main", id) ∧ treeOf t id = treeOf s id ∧
      t.pendingMergeParents = s.pendingMergeParents ∧ s.dag.Grows t.dag := by
  obtain ⟨branch, id, tree, s₁, hname, hget, hrun, hread, -, hle⟩ := snapshotHead_spec hs
  have hempty : orEmpty snapshotHead s = (.ok tree, s₁) := by
    unfold orEmpty
    rw [attempt_bind hrun]
    rfl
  have htree : tree = treeOf s id := by
    rw [hread.value, hnone, ← headTree_of_none hhash]
    rfl
  rw [bind_of_ok hempty] at h
  obtain ⟨_, s₂, hstage, h⟩ := bind_ok h
  cases h
  have ht := stageDifferences_run hstage
  have hhead : head t = (.ok (s.headBranch.getD "main", id), t) := by
    apply head_of_cached
    · rw [ht, hread.same]
    · rw [ht, hread.same]
  refine ⟨branch, id, hname, hget, hs.sound.targets _ _ hget, ?_, ?_, by rw [hhead], ?_, ?_, ?_⟩
  · rw [ht, hread.same]
  · rw [ht, htree, hread.same]
  · rw [← htree, ← (hread.stored hnone).1, ht]
    rfl
  · rw [ht, hread.same]
  · rw [ht]
    exact hle.grows

theorem reset_soft_run (hs : Valid False s) {target : Ref H} {targetId : H}
    (h : reset target .soft s = (.ok targetId, t)) {old : FileTree H}
    (hold : (snapshotHead s).1 = .ok old) : SoftlyReset s (headAfter s targetId) old t := by
  have hvalid : Valid False t := by
    have hsafe := (safe_reset hs target .soft).inv
    rwa [h] at hsafe
  unfold reset at h
  rcases hhead : head s with ⟨e | ⟨branch, headId⟩, s₁⟩
  · -- HEAD is read once more, and fails as before
    obtain rfl := head_error hs hhead
    rw [attempt_bind hhead] at h
    obtain ⟨_, s₂, htarget, h₂⟩ := bind_ok h
    have hs₂ := resolveRef_state hhead target
    rw [htarget] at hs₂
    rw [show s₂ = s₁ from hs₂, bind_of_error hhead] at h₂
    cases h₂
  obtain ⟨hs₁, hid, hagain, hvalid₁, -⟩ := head_ok hs hhead
  rw [attempt_bind hhead] at h
  obtain ⟨r, s₂, htarget, h₂⟩ := bind_ok h
  have hs₂ : s₂ = s₁ := by
    have hstate := resolveRef_state hagain target
    rwa [htarget] at hstate
  rw [hs₂] at htarget h₂
  have hknown : s₁.dag.hasPatch r = true := by
    have hpost := (safe_resolveRef hvalid₁ target).post r
    rw [htarget] at hpost
    exact hpost rfl
  rw [bind_of_ok hagain] at h₂
  obtain ⟨name, tip, tree, s₃, hname, hget, hrun, hread, hvalid₃, hle₃⟩ := snapshotHead_spec hs
  have htree : tree = old := by
    rw [hrun] at hold
    exact Except.ok.inj hold
  have hrun₁ : orEmpty snapshotHead s₁ = (.ok old, s₃) := by
    have hsame : snapshotHead s₁ = (.ok tree, s₃) := (snapshotHead_of_head hs hs₁).trans hrun
    unfold orEmpty
    rw [attempt_bind hsame, htree]
    rfl
  dsimp only at h₂
  rw [bind_of_ok hrun₁] at h₂
  obtain ⟨_, s₅, hmove, h₅⟩ := bind_ok h₂
  have hknown₃ : s₃.dag.hasPatch r = true := by
    apply hle₃.grows.hasPatch
    rwa [hs₁] at hknown
  have hvalid₅ : Valid False s₅ ∧ Later s₃ s₅ := by
    have hsafe := safe_moveHead hvalid₃ branch r
    have hinv := hsafe.inv
    have hle := hsafe.le
    rw [hmove] at hinv hle
    exact ⟨hinv, hle⟩
  have hs₅ : s₅ = { moved s₃ branch r with
      cachedHeadSnapshot := none, cachedHeadId := none, cachedHeadBranch := none,
      headTreeHash := none } := by
    unfold moveHead at hmove
    rcases setBranch_cases hknown₃ branch with ⟨-, hset⟩ | ⟨-, e, hset⟩
    · rw [bind_of_ok hset] at hmove
      cases hmove
      rfl
    · rw [bind_of_error hset] at hmove
      cases hmove
  obtain ⟨name', id, hname', hget₅, hid', hfiles, hstaged, hheadt, htreet, hpending, hgrows⟩ :=
    stageReset_run hvalid₅.1 (by rw [hs₅]) (by rw [hs₅]) h₅
  have hbranch₅ : s₅.headBranch.getD "main" = s.headBranch.getD "main" := by
    rw [hs₅]
    change s₃.headBranch.getD "main" = _
    rw [hread.same]
  rw [hbranch₅] at hname' hheadt
  have hnames : name' = name := by
    rw [hname] at hname'
    exact (Except.ok.inj hname').symm
  subst hnames
  have hstr : name'.asStr = s.headBranch.getD "main" := BranchName.asStr_of_new hname
  have hr : r = targetId := by
    obtain ⟨newTree, s₆, -, h₆⟩ := bind_ok h₅
    obtain ⟨_, s₇, -, h₇⟩ := bind_ok h₆
    cases h₇
    rfl
  have hafter : headAfter s targetId = id := by
    obtain ⟨name, tip', hname, hget', -, htip⟩ := headBranchTip_run hs
    unfold headAfter
    rw [hhead, htip]
    dsimp only
    rw [PatchDag.getBranch, hs₅] at hget₅
    change Assoc.get (Assoc.insert branch r s₃.dag.branches) name'.asStr = some id at hget₅
    rw [Assoc.get_insert, hstr, hread.asked.queried.same.branches, hr] at hget₅
    split
    · rename_i hsame
      rw [if_pos hsame] at hget₅
      exact Option.some.inj hget₅
    · rename_i hne
      rw [if_neg hne] at hget₅
      rw [PatchDag.getBranch, BranchName.asStr_of_new hname, hget₅] at hget'
      exact (Option.some.inj hget').symm
  have hid₃ : s₃.dag.hasPatch id = true := by
    rw [hs₅] at hid'
    exact hid'
  have hgrows₃ : s₃.dag.Grows s₅.dag := hvalid₅.2.grows
  have hbase : treeOf s₅ id = treeOf s₃ id :=
    treeOf_congr hvalid₃ (by rw [hs₅]; rfl) hgrows₃ hid₃
  have hparents : t.pendingMergeParents = s₃.pendingMergeParents := by
    rw [hpending, hs₅]
    rfl
  rw [hafter]
  have hstate : (snapshotHead s).2 = s₃ := by rw [hrun]
  refine ⟨?_, ?_, hheadt, ?_, hvalid⟩
  · rw [hfiles, hs₅]
    change s₃.files = s.files
    rw [hread.same]
  · rw [hstaged, hbase, hstate, hs₅]
    change stageAll s₃.workingSet _ = _
    rw [hread.same]
  · rw [hstate]
    unfold commitBase parentsOf
    rw [hparents, htreet, hbase, jointReplay_of_grows (hgrows₃.trans hgrows) hvalid₃.sound.graded]
    split
    · intro q hq
      rwa [List.mem_singleton.mp hq]
    · exact hvalid₃.pendingKnown

/-! ### The commit -/

/-- A difference that the commit makes again, on the tree that it adds to: a file there has
its content, an added file is in that tree, and a renamed one is there or read. -/
def Lands (s : Repository H) (base : FileTree H) (e : DiffEntry H) : Prop :=
  match e.diffType with
  | .added | .modified => base.contains e.path = true ∧ fileHash s e.path = e.newHash
  | .deleted => True
  | .renamed _ _ => (base.get e.path).or (fileHash s e.path) = e.newHash

/-- The commit after a soft reset to `targetId` makes all of the difference again, and
nothing else. -/
structure SoftKept (s : Repository H) (old : FileTree H) (targetId : H) : Prop where
  lands : ∀ e ∈ diffTrees (treeOf (snapshotHead s).2 (headAfter s targetId)) old,
    Lands s (commitBase (snapshotHead s).2 (headAfter s targetId)) e
  others : ∀ path, (treeOf (snapshotHead s).2 (headAfter s targetId)).get path = old.get path →
    (commitBase (snapshotHead s).2 (headAfter s targetId)).get path = old.get path

/-- At a target that is not the null id nothing may be added, and the files that differ have
the content they had in HEAD. -/
theorem softKept_iff {old : FileTree H} {targetId : H}
    (hnull : headAfter s targetId ≠ Hashing.zero) : SoftKept s old targetId ↔
      ∀ e ∈ diffTrees (treeOf (snapshotHead s).2 (headAfter s targetId)) old,
        e.diffType ≠ .added ∧ (e.newHash ≠ none → fileHash s e.path = e.newHash) := by
  have hbase : commitBase (snapshotHead s).2 (headAfter s targetId) =
      treeOf (snapshotHead s).2 (headAfter s targetId) := if_neg hnull
  have hentry : ∀ e ∈ diffTrees (treeOf (snapshotHead s).2 (headAfter s targetId)) old,
      (Lands s (treeOf (snapshotHead s).2 (headAfter s targetId)) e ↔
        e.diffType ≠ .added ∧ (e.newHash ≠ none → fileHash s e.path = e.newHash)) := by
    intro e he
    have hok := diffTrees_sound he
    unfold EntryOk at hok
    unfold Lands
    cases htype : e.diffType with
    | added =>
      rw [htype] at hok
      simp [SortedMap.contains_eq, hok.1]
    | modified =>
      rw [htype] at hok
      obtain ⟨hash, hash', hold, hnew, -, hhash⟩ := hok
      simp [SortedMap.contains_eq, hold, hhash]
    | deleted =>
      rw [htype] at hok
      simp [hok.2.2]
    | renamed oldPath newPath =>
      rw [htype] at hok
      obtain ⟨hash, -, -, hold, hnew, -, hhash⟩ := hok
      simp [hold, hhash]
  constructor
  · intro h e he
    have hlands := h.lands e he
    rw [hbase] at hlands
    exact (hentry e he).mp hlands
  · intro h
    refine ⟨?_, ?_⟩
    · intro e he
      rw [hbase]
      exact (hentry e he).mpr (h e he)
    · intro path hsame
      rw [hbase, hsame]

/-- What a commit after a soft reset makes of a path. -/
theorem recorded_after_reset {old : FileTree H} {id : H} (ht : SoftlyReset s id old t)
    (hclean : stagedFiles s = []) (path : String) (entry : Option H) :
    recordedEntry t path entry =
      if (treeOf (snapshotHead s).2 id).get path = old.get path then entry
      else changedEntry (operationAt (treeOf (snapshotHead s).2 id) old path)
        (fileHash s path) entry := by
  have hfile : fileHash t path = fileHash s path := by
    unfold fileHash
    rw [ht.files]
  have hnone : (s.workingSet.get path).bind stagedOp = none := by
    cases hget : s.workingSet.get path with
    | none => rfl
    | some status =>
      by_contra hne
      have hmem : (path, status) ∈ stagedFiles s :=
        mem_stagedFiles.mpr ⟨hget, Option.isSome_iff_ne_none.mpr hne⟩
      rw [hclean] at hmem
      cases hmem
  unfold recordedEntry
  rw [ht.staged, get_stageAll_diff, hfile]
  by_cases hsame : (treeOf (snapshotHead s).2 id).get path = old.get path
  · rw [if_pos hsame, if_pos hsame, hnone]
  · rw [if_neg hsame, if_neg hsame, Option.bind_some, stagedOp_statusAt]

/-- A commit gives a path that differs its entry of the old tree if its difference lands. -/
theorem changed_eq_iff {base old onto : FileTree H} {e : DiffEntry H}
    (he : e ∈ diffTrees base old)
    (hread : operationAt base old e.path ≠ .delete → fileHash s e.path ≠ none) :
    changedEntry (operationAt base old e.path) (fileHash s e.path) (onto.get e.path) =
      old.get e.path ↔ Lands s onto e := by
  have hok := diffTrees_sound he
  have hoperation : ∀ {status : FileStatus} {op : OperationType}, (e.path, status) ∈ stagedBy e →
      stagedOp status = some op → operationAt base old e.path = op := by
    intro status op hmem hop
    have hstatus : status = statusAt base old e.path := stagedBy_status he hmem
    rw [hstatus, stagedOp_statusAt] at hop
    exact Option.some.inj hop
  unfold EntryOk at hok
  unfold stagedBy at hoperation
  unfold Lands
  -- an entry that is modified is there and has the content that is read
  have hmodify : ∀ {hash : H}, old.get e.path = some hash → e.newHash = some hash →
      operationAt base old e.path = .modify →
      (changedEntry (operationAt base old e.path) (fileHash s e.path) (onto.get e.path) =
        old.get e.path ↔ onto.contains e.path = true ∧ fileHash s e.path = e.newHash) := by
    intro hash hold hnew hop
    rw [hop] at hread ⊢
    obtain ⟨content, hcontent⟩ := Option.ne_none_iff_exists'.mp (hread nofun)
    rw [hold, hnew, hcontent, SortedMap.contains_eq]
    cases onto.get e.path with
    | none => simp [changedEntry]
    | some entry => simp [changedEntry]
  cases htype : e.diffType with
  | added =>
    rw [htype] at hok hoperation
    obtain ⟨-, hash, hold, hnew⟩ := hok
    exact hmodify hold hnew (hoperation (List.mem_singleton_self _) rfl)
  | modified =>
    rw [htype] at hok hoperation
    obtain ⟨-, hash, -, hold, -, hnew⟩ := hok
    exact hmodify hold hnew (hoperation (List.mem_singleton_self _) rfl)
  | deleted =>
    rw [htype] at hok hoperation
    rw [hoperation (List.mem_singleton_self _) rfl, hok.1]
    exact iff_of_true rfl trivial
  | renamed oldPath newPath =>
    rw [htype] at hok hoperation
    obtain ⟨hash, -, -, -, hold, -, hnew⟩ := hok
    rw [hoperation (List.mem_cons_of_mem _ (List.mem_singleton_self _)) rfl, hold, hnew]
    rfl

/-- A soft reset of a repository where nothing is staged, and a commit: the tree of HEAD is
the one from before exactly if the commit makes all of the difference again. -/
theorem reset_commit_keeps_iff (hs : Reachable s) (hclean : stagedFiles s = []) {target : Ref H}
    {targetId id : H} {message : String} {old : FileTree H} (hold : (snapshotHead s).1 = .ok old)
    (hreset : reset target .soft s = (.ok targetId, t))
    (hcommit : commit message t = (.ok id, u)) :
    (snapshotHead u).1 = .ok old ↔ SoftKept s old targetId := by
  have ht := reset_soft_run hs.valid hreset hold
  have hsafe := safe_commit ht.valid False.elim message
  have hpost := hsafe.post id
  have hu := hsafe.inv
  rw [hcommit] at hpost hu
  obtain ⟨hthere, branch, headId, new, hhead, hcached, hnew⟩ := hpost rfl
  rw [ht.head] at hhead
  cases hhead
  rw [ht.base] at hnew
  simp only [recorded_after_reset ht hclean] at hnew
  have hread : ∀ path, (treeOf (snapshotHead s).2 (headAfter s targetId)).get path ≠ old.get path →
      operationAt (treeOf (snapshotHead s).2 (headAfter s targetId)) old path ≠ .delete →
        fileHash s path ≠ none := by
    intro path hdiff hop
    have hfile : fileHash t path = fileHash s path := by
      unfold fileHash
      rw [ht.files]
    rw [← hfile]
    apply hthere path _ _ hop
    rw [ht.staged, get_stageAll_diff, if_neg hdiff, Option.bind_some, stagedOp_statusAt]
  have heq : (snapshotHead u).1 = .ok old ↔ ∀ path, new.get path = old.get path := by
    rw [snapshotHead_of_cached hu hcached, Except.ok.injEq]
    exact ⟨fun h path => by rw [h], SortedMap.ext⟩
  rw [heq]
  constructor
  · intro h
    constructor
    · intro e he
      have hdiff := (diffTrees_sound he).ne (.inl rfl)
      have hpath := h e.path
      rw [hnew, if_neg hdiff] at hpath
      exact (changed_eq_iff he (hread e.path hdiff)).mp hpath
    · intro path hsame
      have hpath := h path
      rwa [hnew, if_pos hsame] at hpath
  · intro h path
    rw [hnew]
    split
    · rename_i hsame
      exact h.others path hsame
    · rename_i hdiff
      rcases diffTrees_complete hdiff with ⟨e, he, rfl⟩ | ⟨hgone, e, he, newPath, htype⟩
      · exact (changed_eq_iff he (hread e.path hdiff)).mpr (h.lands e he)
      · rw [operationAt, if_pos hgone, hgone]
        rfl

/-! ### Two resets -/

def committed (path : String) (byte : UInt8) : List (Event Hash) :=
  [.editFile path [byte], .add path, .commit "change"]

/-- The last commit changes a file. -/
theorem reset_commit_keeps_change :
    let s := sample (committed "a" 49 ++ committed "a" 50)
    let t := (reset (.headOffset 1) .soft s).2
    (snapshotHead (commit "again" t).2).1 = (snapshotHead s).1 := by
  intro s t
  have hreset : reset (.headOffset 1) .soft s =
      (.ok (tipOf "main" (sample (committed "a" 49))), t) :=
    Prod.ext (ok_of_toOption (by decide +kernel)) rfl
  obtain ⟨id, hcommit⟩ := returns_of_isSome (m := commit "again") (s := t) (by decide +kernel)
  obtain ⟨old, hold⟩ := ok_of_isSome (r := (snapshotHead s).1) (by decide +kernel)
  have htree : some old = (snapshotHead s).1.toOption := by rw [hold]; rfl
  rw [hold]
  refine (reset_commit_keeps_iff (reachable_sample _) (by decide +kernel) hold hreset hcommit).mpr ?_
  have hnull : headAfter s (tipOf "main" (sample (committed "a" 49))) ≠ Hashing.zero := by
    decide +kernel
  rw [softKept_iff hnull]
  have hall : ∀ tree ∈ (snapshotHead s).1.toOption,
      ∀ e ∈ diffTrees (treeOf (snapshotHead s).2
        (headAfter s (tipOf "main" (sample (committed "a" 49))))) tree,
        e.diffType ≠ .added ∧ (e.newHash ≠ none → fileHash s e.path = e.newHash) := by
    decide +kernel
  exact hall old (by rw [← htree]; rfl)

/-- The last commit adds a file; after a reset to the one before, a commit loses it. -/
theorem reset_commit_drops_added : ¬ ∀ (s t u : Repository Hash) (target : Ref Hash)
    (targetId id : Hash) (message : String) (old : FileTree Hash), Reachable s →
      stagedFiles s = [] → (snapshotHead s).1 = .ok old →
        reset target .soft s = (.ok targetId, t) → commit message t = (.ok id, u) →
          (snapshotHead u).1 = .ok old := by
  intro h
  have hlost : (snapshotHead (commit "again" (reset (.headOffset 1) .soft
      (sample (committed "a" 49 ++ committed "b" 50))).2).2).1 ≠
        (snapshotHead (sample (committed "a" 49 ++ committed "b" 50))).1 := by
    decide +kernel
  obtain ⟨targetId, hreset⟩ := returns_of_isSome (m := reset (.headOffset 1) .soft)
    (s := sample (committed "a" 49 ++ committed "b" 50)) (by decide +kernel)
  obtain ⟨id, hcommit⟩ := returns_of_isSome (m := commit "again") (s := (reset (.headOffset 1) .soft
    (sample (committed "a" 49 ++ committed "b" 50))).2) (by decide +kernel)
  obtain ⟨old, hold⟩ := ok_of_isSome
    (r := (snapshotHead (sample (committed "a" 49 ++ committed "b" 50))).1) (by decide +kernel)
  have hkeeps := h _ _ _ _ targetId id "again" old (reachable_sample _) (by decide +kernel) hold
    hreset hcommit
  exact hlost (hkeeps.trans hold.symm)

end Suture.Repo
