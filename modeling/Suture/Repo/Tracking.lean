import Suture.Repo.Reachable

/-!
# What is staged and what is recorded

`add` asks whether a path is tracked, of whichever cache or table answers. The commit
applies the answer to the tree of HEAD, where creating a file that is there and modifying
one that is not do nothing.
-/

namespace Suture.Repo
set_option autoImplicit false
open Foundation Common Patches Dag Engine Program

variable {H : Type} [LinearOrder H] [Hashing H] {F : Prop} {s t u : Repository H}

/-- What `add` stages a path as. -/
def addedStatus (exist tracked : Bool) : FileStatus :=
  if exist then if tracked then .modified else .added else .deleted

omit [Hashing H] in
theorem workingSetAdd_run {path : String} {status : FileStatus}
    (h : workingSetAdd path status s = (.ok (), t)) :
    t = { s with workingSet := s.workingSet.insert path status } := by
  obtain ⟨p, s₁, hpath, h⟩ := bind_ok h
  rw [repoPath, ofExcept_run] at hpath
  obtain ⟨hpath, rfl⟩ := Prod.mk.inj hpath
  cases h
  cases hnew : RepoPath.new path with
  | error e =>
    rw [hnew] at hpath
    cases hpath
  | ok p' =>
    rw [hnew] at hpath
    cases hpath
    rw [RepoPath.asStr_of_new hnew]

omit [Hashing H] in
theorem workingSetAdd_named {path : String} (h : IsRepoPath path) (status : FileStatus)
    (s : Repository H) : workingSetAdd path status s =
      (.ok (), { s with workingSet := s.workingSet.insert path status }) := by
  obtain ⟨p, hp⟩ := h
  unfold workingSetAdd repoPath
  rw [hp, bind_of_ok (show ofExcept ((Except.ok p).mapError RepoError.name) s = (.ok p, s) from rfl),
    RepoPath.asStr_of_new hp]
  rfl

omit [Hashing H] in
/-- A file that is not there is staged only if it is tracked. -/
theorem add_run {path : String} (h : add path s = (.ok (), t)) :
    ∃ tracked, (isTracked path s).1 = .ok tracked ∧
      t.workingSet.get path = some (addedStatus (s.files.contains path) tracked) := by
  obtain ⟨p, s₁, hpath, h⟩ := bind_ok h
  rw [repoPath, ofExcept_run] at hpath
  obtain ⟨-, rfl⟩ := Prod.mk.inj hpath
  rw [read_bind] at h
  have hstaged : ∀ {status : FileStatus} {s₂ : Repository H},
      workingSetAdd path status s₂ = (.ok (), t) → t.workingSet.get path = some status :=
    fun hrun => by rw [workingSetAdd_run hrun, SortedMap.get_insert, if_pos rfl]
  unfold addedStatus
  split at h
  · rename_i hfile
    obtain ⟨tracked, s₂, htracked, h⟩ := bind_ok h
    refine ⟨tracked, by rw [htracked], ?_⟩
    rw [if_pos hfile]
    cases tracked with
    | true => exact hstaged h
    | false => exact hstaged h
  · rename_i hfile
    obtain ⟨tracked, s₂, htracked, h⟩ := bind_ok h
    refine ⟨tracked, by rw [htracked], ?_⟩
    rw [if_neg hfile]
    cases tracked with
    | true => exact hstaged h
    | false => cases h

theorem snapshotHead_of_cached (hs : Valid F s) {tree : FileTree H}
    (h : s.cachedHeadSnapshot = some tree) : (snapshotHead s).1 = .ok tree := by
  obtain ⟨-, id, -, -, -, htip⟩ := headBranchTip_run hs
  have hcache : ∀ branch, setHeadCache branch id s = (.ok (), { s with
      cachedHeadBranch := some branch, cachedHeadId := some id }) := fun _ => rfl
  unfold snapshotHead
  rw [bind_of_ok htip]
  dsimp only
  rw [bind_of_ok (hcache _), read_bind]
  dsimp only
  rw [h]
  rfl

/-- The file at `path` is in the tree of HEAD after a commit, and what was not staged
stays. -/
def RecordsStaged (path : String) (s t : Repository H) : Prop :=
  ∃ branch headId old new, (head s).1 = .ok (branch, headId) ∧ (snapshot headId s).1 = .ok old ∧
    (snapshotHead t).1 = .ok new ∧ new.get path = fileHash s path ∧
    ∀ other, (s.workingSet.get other).bind stagedOp = none → new.get other = old.get other

/-- A file that `add` saw in `s` is tracked if the tree that the commit of `t` adds to has
it; one that it did not see is still not there. -/
def StagedRight (path : String) (s t : Repository H) : Prop :=
  ∃ branch headId, (head t).1 = .ok (branch, headId) ∧
    (headId = Hashing.zero → ∀ other, (t.workingSet.get other).bind stagedOp = none →
      (commitBase t headId).get other = (treeOf t headId).get other) ∧
    if s.files.contains path then
      (commitBase t headId).get path = fileHash t path ∨
        (isTracked path s).1 = .ok ((commitBase t headId).contains path)
    else t.files.contains path = false

omit [LinearOrder H] [Hashing H] in
/-- When a staged change gives an entry its content. -/
theorem changedEntry_staged {content entry : Option H} {exist tracked : Bool} {op : OperationType}
    (hop : stagedOp (addedStatus exist tracked) = some op)
    (hthere : op ≠ .delete → content ≠ none) :
    changedEntry op content entry = content ↔
      if exist then entry = content ∨ tracked = entry.isSome else content = none := by
  cases exist with
  | false =>
    cases hop
    exact eq_comm
  | true =>
    obtain ⟨hash, hhash⟩ : ∃ hash, content = some hash := by
      refine Option.ne_none_iff_exists'.mp (hthere ?_)
      cases tracked <;> cases hop <;> exact nofun
    subst hhash
    rw [if_pos rfl]
    cases tracked with
    | false =>
      cases hop
      cases entry <;> simp [changedEntry]
    | true =>
      cases hop
      cases entry <;> simp [changedEntry]

/-- The last `add` of `path` before the commit was made in `s`, and led to `s₁`. -/
theorem commit_records_iff {path message : String} {id : H} {s₁ : Repository H}
    (hs : Reachable s) (hadd : add path s = (.ok (), s₁))
    (hrun : Run Repository.next
      (fun s e => (s.next e).workingSet.get path = s.workingSet.get path) s₁ t)
    (hcommit : commit message t = (.ok id, u)) :
    RecordsStaged path t u ↔ StagedRight path s t := by
  obtain ⟨tracked, htracked, hstatus⟩ := add_run hadd
  have hs₁ : Valid False s₁ := by
    have hinv := (safe_add hs.valid path).inv
    rwa [hadd] at hinv
  obtain ⟨ht, hkept⟩ := hrun.invariant
    (fun t => Valid False t ∧ t.workingSet.get path = s₁.workingSet.get path)
    (fun t e h hkept => ⟨(h.1.next e False.elim).1, hkept.trans h.2⟩) ⟨hs₁, rfl⟩
  rw [hstatus] at hkept
  have hsafe := safe_commit ht False.elim message
  have hu : Valid False u := by
    have hinv := hsafe.inv
    rwa [hcommit] at hinv
  obtain ⟨hthere, branch, headId, new, hhead, hcached, hnew⟩ : Recorded t u := by
    have hpost := hsafe.post id
    rw [hcommit] at hpost
    exact hpost rfl
  have hid : t.dag.hasPatch headId = true := ((safe_head ht).post _ hhead).1
  obtain ⟨t', hold, -⟩ := snapshot_run ht hid
  have hpath : new.get path = fileHash t path ↔
      if s.files.contains path then (commitBase t headId).get path = fileHash t path ∨
        (isTracked path s).1 = .ok ((commitBase t headId).contains path)
      else t.files.contains path = false := by
    obtain ⟨op, hop⟩ : ∃ op, stagedOp (addedStatus (s.files.contains path) tracked) = some op := by
      unfold addedStatus
      split_ifs <;> exact ⟨_, rfl⟩
    have hgone : t.files.contains path = false ↔ fileHash t path = none := by
      rw [SortedMap.contains_eq, fileHash, Option.map_eq_none_iff, Option.isSome_eq_false_iff,
        Option.isNone_iff_eq_none]
    rw [hnew, recordedEntry, hkept, Option.bind_some, hop, htracked, hgone, Except.ok.injEq]
    refine changedEntry_staged hop (hthere path op ?_)
    rw [hkept, Option.bind_some, hop]
  have hothers : (∀ other, (t.workingSet.get other).bind stagedOp = none →
        new.get other = (treeOf t headId).get other) ↔
      (headId = Hashing.zero → ∀ other, (t.workingSet.get other).bind stagedOp = none →
        (commitBase t headId).get other = (treeOf t headId).get other) := by
    have hkeep : ∀ other, (t.workingSet.get other).bind stagedOp = none →
        new.get other = (commitBase t headId).get other := fun other hnone => by
      rw [hnew, recordedEntry, hnone]
    by_cases hzero : headId = Hashing.zero
    · simp only [hzero, true_imp_iff] at hkeep ⊢
      exact forall₂_congr fun other hnone => by rw [hkeep other hnone]
    · refine iff_of_true (fun other hnone => ?_) fun h => absurd h hzero
      rw [hkeep other hnone, commitBase, if_neg hzero]
  constructor
  · rintro ⟨branch', headId', old, new', hhead', hold', hnew', hrecorded, hkeep⟩
    rw [hhead] at hhead'
    cases hhead'
    rw [hold] at hold'
    cases hold'
    rw [snapshotHead_of_cached hu hcached] at hnew'
    cases hnew'
    exact ⟨branch, headId, hhead, hothers.mp hkeep, hpath.mp hrecorded⟩
  · rintro ⟨branch', headId', hhead', hbase, hright⟩
    rw [hhead] at hhead'
    cases hhead'
    exact ⟨branch, headId, _, new, hhead, by rw [hold], snapshotHead_of_cached hu hcached,
      hpath.mpr hright, hothers.mpr hbase⟩

/-- One file, added and committed. -/
theorem commit_records_first :
    let s := (add "a" (sample [.editFile "a" [49]])).2
    RecordsStaged "a" s (commit "first" s).2 := by
  obtain ⟨id, hcommit⟩ := returns_of_isSome (m := commit "first")
    (s := (add "a" (sample [.editFile "a" [49]])).2) (by decide +kernel)
  refine (commit_records_iff (reachable_sample [.editFile "a" [49]])
    (Prod.ext (by decide +kernel) rfl) (.refl _) hcommit).mpr ?_
  refine ⟨"main", tipOf "main" (sample []), by decide +kernel, fun h => ?_, by decide +kernel⟩
  exact absurd h (by decide +kernel)

/-! ### A change that a commit drops -/

/-- After a clean merge nothing is known of the tree of HEAD: the file `a` is staged as
added, and the change is to create it. -/
def merged : List (Event Hash) := apart ++ [.executeMerge .main]

theorem change_after_merge_dropped : ¬ ∀ (s s₁ t u : Repository Hash) (path message : String)
    (id : Hash), Reachable s → add path s = (.ok (), s₁) →
      Run Repository.next (fun s e => (s.next e).workingSet.get path = s.workingSet.get path) s₁ t →
      commit message t = (.ok id, u) → RecordsStaged path t u := by
  intro h
  have hadd : add "a" (sample (merged ++ [.editFile "a" [50]])) =
    (.ok (), sample (merged ++ [.editFile "a" [50], .add "a"])) :=
    Prod.ext (by decide +kernel) (by decide +kernel)
  obtain ⟨id, hcommit⟩ := returns_of_isSome (m := commit "change")
    (s := sample (merged ++ [.editFile "a" [50], .add "a"])) (by decide +kernel)
  obtain ⟨-, -, -, new, -, -, hnew, hpath, -⟩ :=
    h _ _ _ _ "a" "change" id (reachable_sample _) hadd (.refl _) hcommit
  have hfound : (snapshotHead (commit "change"
      (sample (merged ++ [.editFile "a" [50], .add "a"]))).2).1.toOption.bind (·.get "a") =
      fileHash (sample (merged ++ [.editFile "a" [50], .add "a"])) "a" := by
    rw [hnew]
    exact hpath
  exact absurd hfound (by decide +kernel)

end Suture.Repo
