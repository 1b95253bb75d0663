import Suture.Repo.Reachable

/-!
# Commits that fail

A commit takes the parents of a waiting merge before it reads the files, and adds its
patch before it looks for the branch. What is left behind depends on where it stops.
-/

namespace Suture.Repo
set_option autoImplicit false
open Foundation Common Patches Dag Engine Program

variable {H : Type} [LinearOrder H] {s t : Repository H}

/-! ### The ledger -/

/-- The patches and branches, in memory and in the rows; what is staged; the merge that
waits; and the settings that HEAD is read from. -/
def ledger (s : Repository H) : (List (H × DagNode H) × List (String × H)) ×
    (SortedMap H (Patch H) × SortedMap String H) × SortedMap String FileStatus ×
    (List H × List H) × Option String × Bool × Option H :=
  ((s.dag.nodes, s.dag.branches), (s.patchRows, s.branchRows), s.workingSet,
    (s.pendingMergeParents, s.pendingRow), s.headBranch, s.detached, s.detachedHead)

/-- Moves outside of the ledger. -/
abbrev unwritten (H : Type) [LinearOrder H] : Drift (Repository H) := Drift.ofView ledger

theorem head_cases (s : Repository H) : (∃ e, head s = (.error e, s)) ∨ ∃ branch id,
    head s = (.ok (branch, id),
      { s with cachedHeadBranch := some branch, cachedHeadId := some id }) := by
  have htip : (∃ e, headBranchTip s = (.error e, s)) ∨ ∃ r, headBranchTip s = (.ok r, s) := by
    unfold headBranchTip
    rw [read_bind]
    cases hname : BranchName.new (s.headBranch.getD "main") with
    | error e =>
      refine .inl ⟨.name e, bind_of_error ?_⟩
      rw [branchName, hname]
      rfl
    | ok branch =>
      rw [bind_of_ok (show branchName _ s = (.ok branch, s) by rw [branchName, hname]; rfl)]
      cases s.dag.getBranch branch with
      | none => exact .inl ⟨_, rfl⟩
      | some id => exact .inr ⟨_, rfl⟩
  have hlook : (∃ e, lookUpHead s = (.error e, s)) ∨ ∃ branch id, lookUpHead s =
      (.ok (branch, id), { s with cachedHeadBranch := some branch, cachedHeadId := some id }) := by
    generalize hr : lookUpHead s = r
    unfold lookUpHead at hr
    rw [read_bind] at hr
    split at hr
    · rcases Option.eq_none_or_eq_some s.detachedHead with hid | ⟨id, hid⟩
      · rw [hid] at hr
        exact .inl ⟨_, hr.symm⟩
      · rw [hid] at hr
        exact .inr ⟨_, id, hr.symm⟩
    · rcases htip with ⟨e, htip⟩ | ⟨⟨branch, id⟩, htip⟩
      · rw [bind_of_error htip] at hr
        exact .inl ⟨e, hr.symm⟩
      · rw [bind_of_ok htip] at hr
        exact .inr ⟨branch, id, hr.symm⟩
  cases hid : s.cachedHeadId with
  | none =>
    rwa [show head s = lookUpHead s by rw [head, read_bind, hid]]
  | some id =>
    cases hbranch : s.cachedHeadBranch with
    | none => rwa [show head s = lookUpHead s by rw [head, read_bind, hid, hbranch]]
    | some branch =>
      refine .inr ⟨branch, id, ?_⟩
      rw [head_of_cached hid hbranch, ← hid, ← hbranch]

variable [Hashing H]

theorem unwritten_snapshotUncached (id : H) :
    Quiet (unwritten H) (snapshotUncached id) := by
  have hquery : Quiet (unwritten H) (queryDag fun d : PatchDag H => d.patchChainFull id) := fun s => by
    have hsame := (s.dag.queried_patchChainFull id).same
    change ledger { s with dag := (s.dag.patchChainFull id).2 } = ledger s
    simp only [ledger, hsame.nodes, hsame.branches]
  exact hquery.bind fun _ => quiet_read.bind fun _ => quiet_ofExcept _

omit [Hashing H] in
theorem unwritten_storeFileTree (id : H) (tree : FileTree H) :
    Quiet (unwritten H) (storeFileTree id tree) := quiet_modify fun _ => rfl

theorem unwritten_snapshot (id : H) : Quiet (unwritten H) (snapshot id) := by
  refine quiet_read.bind fun s => ?_
  split
  · exact quiet_pure _
  · exact (unwritten_snapshotUncached id).bind fun _ =>
      (unwritten_storeFileTree id _).bind fun _ => quiet_pure _

omit [Hashing H] in
theorem orEmpty_returns (m : Action H (FileTree H)) (s : Repository H) :
    ∃ tree, orEmpty m s = (.ok tree, (m s).2) := by
  unfold orEmpty
  rw [bind_of_ok (show m.attempt s = (.ok (m s).1, (m s).2) from rfl)]
  cases (m s).1 with
  | ok tree => exact ⟨tree, rfl⟩
  | error e => exact ⟨.empty, rfl⟩

/-- The tree of a commit is always found, and nothing is written for it. -/
theorem commitTree_returns (headId patchId : H) (patch : Patch H) (s : Repository H) :
    ∃ tree t, commitTree headId patchId patch s = (.ok tree, t) ∧ ledger t = ledger s := by
  have hreplay : ∀ s : Repository H, ∃ tree t,
      orEmpty (snapshotUncached patchId) s = (.ok tree, t) ∧ ledger t = ledger s := fun s => by
    obtain ⟨tree, hrun⟩ := orEmpty_returns (snapshotUncached patchId) s
    exact ⟨tree, _, hrun, unwritten_snapshotUncached patchId s⟩
  unfold commitTree
  split
  · exact hreplay s
  · have hsame := unwritten_snapshot headId s
    rw [bind_of_ok (show (snapshot headId).attempt s =
      (.ok (snapshot headId s).1, (snapshot headId s).2) from rfl)]
    cases (snapshot headId s).1 with
    | ok parentTree =>
      dsimp only
      cases applyPatch parentTree patch with
      | ok tree => exact ⟨tree, _, rfl, hsame⟩
      | error e => exact ⟨parentTree, _, rfl, hsame⟩
    | error e =>
      obtain ⟨tree, t, hrun, ht⟩ := hreplay (snapshot headId s).2
      exact ⟨tree, t, hrun, ht.trans hsame⟩

/-! ### Reading the staged files -/

/-- The content of a staged file, if it stands for one, can be read and stored. -/
def Storable (s : Repository H) (e : String × FileStatus) : Prop :=
  e.2 = .deleted ∨ ∃ data, s.files.get e.1 = some data ∧
    (s.blobs.contains (Hashing.fromData data) = true ∨ s.blobsLocked = false)

/-- The change that a staged file stands for. -/
def stagedChange (s : Repository H) (e : String × FileStatus) : Option (FileChange H) :=
  match e.2 with
  | .added => some ⟨.create, e.1, .hex ((fileHash s e.1).getD Hashing.zero)⟩
  | .modified => some ⟨.modify, e.1, .hex ((fileHash s e.1).getD Hashing.zero)⟩
  | .deleted => some ⟨.delete, e.1, .empty⟩
  | .clean | .untracked => none

theorem storeFile_run (path : String) (s : Repository H) :
    (Storable s (path, .added) ∧ ∃ blobs, (readFile path >>= putBlob) s =
        (.ok ((fileHash s path).getD Hashing.zero), { s with blobs := blobs }) ∧
      (s.blobsLocked = true → blobs = s.blobs)) ∨
    (¬ Storable s (path, .added) ∧ ∃ e, (readFile path >>= putBlob) s = (.error e, s)) := by
  cases hfile : s.files.get path with
  | none =>
    refine .inr ⟨?_, ?_⟩
    · rintro (h | ⟨data, h, -⟩)
      · cases h
      · rw [hfile] at h
        cases h
    · refine ⟨.io path, bind_of_error ?_⟩
      rw [readFile, read_bind, hfile]
      rfl
  | some data =>
    have hread : readFile path s = (.ok data, s) := by
      rw [readFile, read_bind, hfile]
      rfl
    have hhash : (fileHash s path).getD Hashing.zero = Hashing.fromData data := by
      rw [fileHash, hfile]
      rfl
    rw [bind_of_ok hread, hhash]
    unfold putBlob
    rw [read_bind]
    split
    · rename_i hthere
      exact .inl ⟨.inr ⟨data, hfile, .inl hthere⟩, s.blobs, rfl, fun _ => rfl⟩
    rename_i hnew
    split
    · rename_i hlocked
      refine .inr ⟨?_, _, rfl⟩
      rintro (h | ⟨data', h, hstore⟩)
      · cases h
      · rw [hfile] at h
        cases h
        rcases hstore with h | h
        · exact hnew h
        · rw [hlocked] at h
          cases h
    · rename_i hopen
      have hopen := Bool.eq_false_iff.mpr hopen
      refine .inl ⟨.inr ⟨data, hfile, .inr hopen⟩, _, rfl, fun h => ?_⟩
      rw [hopen] at h
      cases h

/-- Which contents can be stored does not change while a commit stores them. -/
theorem storable_congr {blobs : SortedMap H Bytes}
    (hblobs : s.blobsLocked = true → blobs = s.blobs) (e : String × FileStatus) :
    Storable { s with blobs := blobs } e ↔ Storable s e := by
  unfold Storable
  refine or_congr_right (exists_congr fun data => and_congr_right fun _ => ?_)
  dsimp only
  cases hlocked : s.blobsLocked with
  | false => simp
  | true => rw [hblobs hlocked]

theorem stageChange_cases {e : String × FileStatus} (he : isStaged e = true) (s : Repository H) :
    (Storable s e ∧ ∃ blobs, stageChange e s = (.ok (stagedChange s e), { s with blobs := blobs }) ∧
      (s.blobsLocked = true → blobs = s.blobs)) ∨
    (¬ Storable s e ∧ ∃ err, stageChange e s = (.error err, s)) := by
  obtain ⟨path, status⟩ := e
  have hstore : ∀ op : OperationType,
      (Storable s (path, .added) ∧ ∃ blobs, (do
          let hash ← putBlob (← readFile path)
          return some ⟨op, path, .hex hash⟩ : Action H (Option (FileChange H))) s =
        (.ok (some ⟨op, path, .hex ((fileHash s path).getD Hashing.zero)⟩),
          { s with blobs := blobs }) ∧ (s.blobsLocked = true → blobs = s.blobs)) ∨
      (¬ Storable s (path, .added) ∧ ∃ err, (do
          let hash ← putBlob (← readFile path)
          return some ⟨op, path, .hex hash⟩ : Action H (Option (FileChange H))) s =
        (.error err, s)) := by
    intro op
    rcases storeFile_run path s with ⟨hok, blobs, hrun, hblobs⟩ | ⟨hno, err, hrun⟩
    · obtain ⟨data, s₁, hread, hput⟩ := bind_ok hrun
      refine .inl ⟨hok, blobs, ?_, hblobs⟩
      rw [bind_of_ok hread, bind_of_ok hput]
      rfl
    · refine .inr ⟨hno, err, ?_⟩
      rcases hread : readFile path s with ⟨err' | data, s₁⟩
      · rw [bind_of_error hread] at hrun ⊢
        cases hrun
        rfl
      · rw [bind_of_ok hread] at hrun ⊢
        exact bind_of_error hrun
  cases status with
  | added => exact hstore .create
  | modified =>
    have hsame : Storable s (path, .modified) ↔ Storable s (path, .added) := by simp [Storable]
    rw [hsame]
    exact hstore .modify
  | deleted => exact .inl ⟨.inl rfl, s.blobs, rfl, fun _ => rfl⟩
  | clean | untracked => cases he

/-- The changes of a commit: those of the staged files, if all of them can be stored. -/
theorem stageChanges_cases {es : List (String × FileStatus)} (hes : ∀ e ∈ es, isStaged e = true) :
    ∀ s : Repository H, ((∀ e ∈ es, Storable s e) ∧ ∃ blobs,
        mapEach stageChange es s = (.ok (es.map (stagedChange s)), { s with blobs := blobs }) ∧
        (s.blobsLocked = true → blobs = s.blobs)) ∨
      ((¬ ∀ e ∈ es, Storable s e) ∧ ∃ err blobs,
        mapEach stageChange es s = (.error err, { s with blobs := blobs })) := by
  induction es with
  | nil => exact fun s => .inl ⟨nofun, s.blobs, rfl, fun _ => rfl⟩
  | cons e es ih =>
    intro s
    unfold mapEach
    rw [List.forall_mem_cons]
    rcases stageChange_cases (hes e (List.mem_cons_self ..)) s with
      ⟨hok, blobs, hrun, hblobs⟩ | ⟨hno, err, hrun⟩
    · rw [bind_of_ok hrun]
      have hsame := fun e => storable_congr hblobs e
      rcases ih (fun e' he' => hes e' (List.mem_cons_of_mem _ he')) { s with blobs := blobs } with
        ⟨hall, blobs', hrest, hblobs'⟩ | ⟨hnot, err, blobs', hrest⟩
      · refine .inl ⟨⟨hok, fun e' he' => (hsame e').mp (hall e' he')⟩, blobs', ?_, fun h => ?_⟩
        · rw [bind_of_ok hrest]
          rfl
        · rw [hblobs' h, hblobs h]
      · refine .inr ⟨fun h => hnot fun e' he' => (hsame e').mpr (h.2 e' he'), err, blobs', ?_⟩
        exact bind_of_error hrest
    · exact .inr ⟨fun h => hno h.1, err, s.blobs, bind_of_error hrun⟩

/-! ### The outcomes of a commit -/

/-- The patch that a commit makes. -/
def newPatch (s : Repository H) (message : String) (headId : H) : Patch H :=
  .newBatch ((stagedFiles s).filterMap (stagedChange s)) (parentsOf s headId) s.author message s.clock

/-- The staged files can be read and stored, and the DAG takes the patch. -/
structure Acceptable (s : Repository H) (message : String) (headId : H) : Prop where
  storable : ∀ e ∈ stagedFiles s, Storable s e
  fresh : s.dag.hasPatch (newPatch s message headId).id = false
  parents : ∀ p ∈ parentsOf s headId, s.dag.hasPatch p = true

/-- The label that HEAD is read with is a branch. -/
def LabelIsBranch (s : Repository H) (label : String) : Prop :=
  ∃ branch, BranchName.new label = .ok branch ∧ (s.dag.getBranch branch).isSome = true

/-- The merge is taken from the ledger. -/
def taken (s : Repository H) : Repository H :=
  { s with pendingMergeParents := [], pendingRow := [] }

/-- The patch is in the ledger, and nothing is staged. -/
def entered (s : Repository H) (dag : PatchDag H) (patch : Patch H) : Repository H :=
  { s with
    dag := dag
    patchRows := s.patchRows.insert patch.id patch
    workingSet := ((stagedFiles s).map Prod.fst).foldl (fun m path => m.erase path) s.workingSet }

/-- The branch is at the patch. -/
def moved (s : Repository H) (label : String) (id : H) : Repository H :=
  { s with
    dag := { s.dag with branches := Assoc.insert label id s.dag.branches }
    branchRows := s.branchRows.insert label id }

omit [Hashing H] in
theorem setBranch_cases {id : H} (hid : s.dag.hasPatch id = true) (label : String) :
    (LabelIsBranch s label ∧ setBranch label id s = (.ok (), moved s label id)) ∨
      (¬ LabelIsBranch s label ∧ ∃ e, setBranch label id s = (.error e, s)) := by
  unfold setBranch
  cases hname : BranchName.new label with
  | error e =>
    have hrun : branchName label s = (.error (.name e), s) := by
      rw [branchName, hname]
      rfl
    refine .inr ⟨?_, _, bind_of_error hrun⟩
    rintro ⟨branch, h, -⟩
    rw [hname] at h
    cases h
  | ok branch =>
    have hrun : branchName label s = (.ok branch, s) := by
      rw [branchName, hname]
      rfl
    have hlabel := BranchName.asStr_of_new hname
    rw [bind_of_ok hrun]
    cases hget : s.dag.getBranch branch with
    | none =>
      have hupdate : updateDag (fun d => d.updateBranch branch id) s =
          (.error (.dag (.branchNotFound branch.asStr)), s) := by
        rw [updateDag_run, PatchDag.updateBranch, hget]
        rfl
      refine .inr ⟨?_, _, bind_of_error hupdate⟩
      rintro ⟨branch', h, hsome⟩
      rw [hname] at h
      cases h
      rw [hget] at hsome
      cases hsome
    | some old =>
      refine .inl ⟨⟨branch, hname, by rw [hget]; rfl⟩, ?_⟩
      have hupdate : updateDag (fun d => d.updateBranch branch id) s =
          (.ok (), { s with dag := { s.dag with
            branches := Assoc.insert label id s.dag.branches } }) := by
        rw [updateDag_run, PatchDag.updateBranch, hget, hid, hlabel]
        rfl
      rw [bind_of_ok hupdate, storeBranch, hlabel]
      rfl

/-- How a commit ends once the DAG has taken its patch. -/
def Ended (s : Repository H) (label : String) (patch : Patch H) (dag : PatchDag H)
    (r : Except (RepoError H) H × Repository H) : Prop :=
  (¬ LabelIsBranch s label ∧
    ∃ e t, r = (.error e, t) ∧ ledger t = ledger (entered s dag patch)) ∨
  (LabelIsBranch s label ∧
    ∃ t, r = (.ok patch.id, t) ∧ ledger t = ledger (moved (entered s dag patch) label patch.id))

theorem commitPatch_cases (s : Repository H) (label : String) (headId : H) (patch : Patch H)
    (parentIds : List H) :
    (¬ (s.dag.hasPatch patch.id = false ∧ ∀ p ∈ parentIds, s.dag.hasPatch p = true) ∧
      ∃ e, commitPatch label headId patch parentIds (stagedFiles s) s = (.error e, s)) ∨
    ((s.dag.hasPatch patch.id = false ∧ ∀ p ∈ parentIds, s.dag.hasPatch p = true) ∧
      ∃ dag, s.dag.Extends dag patch parentIds ∧ Ended s label patch dag
        (commitPatch label headId patch parentIds (stagedFiles s) s)) := by
  unfold commitPatch
  rcases s.dag.addPatch_cases patch parentIds with ⟨e, hrun, hno⟩ | ⟨dag, hrun, hext⟩
  · refine .inl ⟨hno, .dag e, bind_of_error ?_⟩
    rw [updateDag_run, hrun]
    rfl
  · refine .inr ⟨⟨hext.unknown, hext.parents_known⟩, dag, hext, ?_⟩
    have hadd : updateDag (fun d => d.addPatch patch parentIds) s =
        (.ok patch.id, { s with dag := dag }) := by
      rw [updateDag_run, hrun]
      rfl
    have hentered : ∀ k : Action H H, (do
        storePatch patch
        clearWorkingSet ((stagedFiles s).map Prod.fst)
        k) { s with dag := dag } = k (entered s dag patch) := fun _ => rfl
    rw [bind_of_ok hadd, hentered]
    have hlabel : LabelIsBranch (entered s dag patch) label ↔ LabelIsBranch s label := by
      unfold LabelIsBranch PatchDag.getBranch entered
      rw [hext.branches]
    have hid : (entered s dag patch).dag.hasPatch patch.id = true :=
      (hext.hasPatch _).mpr (.inl rfl)
    rcases setBranch_cases hid label with ⟨hyes, hset⟩ | ⟨hno, e, hset⟩
    · obtain ⟨tree, t, htree, ht⟩ :=
        commitTree_returns headId patch.id patch (moved (entered s dag patch) label patch.id)
      rw [bind_of_ok hset, bind_of_ok htree]
      exact .inr ⟨hlabel.mp hyes, _, rfl, ht⟩
    · exact .inl ⟨mt hlabel.mpr hno, e, _, bind_of_error hset, rfl⟩

omit [Hashing H] in
theorem stagedChange_isSome {e : String × FileStatus} (he : isStaged e = true)
    [Hashing H] (s : Repository H) : (stagedChange s e).isSome = true := by
  obtain ⟨path, status⟩ := e
  cases status with
  | added | modified | deleted => rfl
  | clean | untracked => cases he

/-- `u` is `s` with the parents taken. -/
theorem commitStaged_cases (message label : String) (headId : H) (hstaged : stagedFiles s ≠ [])
    {u : Repository H} {cachedId : Option H} {cachedBranch : Option String}
    (hu : u = { taken s with cachedHeadBranch := cachedBranch, cachedHeadId := cachedId }) :
    (¬ Acceptable s message headId ∧ ∃ e t,
        commitStaged message label headId (parentsOf s headId) (stagedFiles s) u = (.error e, t) ∧
          ledger t = ledger (taken s)) ∨
      (Acceptable s message headId ∧ ∃ dag,
        s.dag.Extends dag (newPatch s message headId) (parentsOf s headId) ∧
          Ended (taken s) label (newPatch s message headId) dag
            (commitStaged message label headId (parentsOf s headId) (stagedFiles s) u)) := by
  have hall : ∀ e ∈ stagedFiles s, isStaged e = true := fun e he => (List.mem_filter.mp he).2
  subst hu
  unfold commitStaged
  rcases stageChanges_cases hall { taken s with
      cachedHeadBranch := cachedBranch, cachedHeadId := cachedId } with
    ⟨hok, blobs, hrun, -⟩ | ⟨hno, err, blobs, hrun⟩
  · have hchanges : ((stagedFiles s).map (stagedChange { taken s with
        cachedHeadBranch := cachedBranch, cachedHeadId := cachedId })).filterMap id =
        (stagedFiles s).filterMap (stagedChange s) := by
      rw [List.filterMap_map]
      rfl
    have hsome : (stagedFiles s).filterMap (stagedChange s) ≠ [] := by
      obtain ⟨e, he⟩ := List.exists_mem_of_ne_nil _ hstaged
      obtain ⟨c, hc⟩ := Option.isSome_iff_exists.mp (stagedChange_isSome (hall e he) s)
      exact List.ne_nil_of_mem (List.mem_filterMap.mpr ⟨e, he, hc⟩)
    rw [bind_of_ok hrun, hchanges, require_bind hsome]
    have hcases := commitPatch_cases { taken s with
      cachedHeadBranch := cachedBranch, cachedHeadId := cachedId, blobs := blobs } label headId
      (newPatch s message headId) (parentsOf s headId)
    rcases hcases with ⟨hno, e, hpatch⟩ | ⟨hyes, dag, hext, hended⟩
    · exact .inl ⟨fun h => hno ⟨h.fresh, h.parents⟩, e, _, hpatch, rfl⟩
    · exact .inr ⟨⟨hok, hyes.1, hyes.2⟩, dag, hext, hended⟩
  · exact .inl ⟨fun h => hno h.storable, err, _, bind_of_error hrun, rfl⟩

/-- A commit with nothing staged or no HEAD to read does not get to taking its parents. -/
theorem commit_cases (message : String) (s : Repository H) :
    ((stagedFiles s = [] ∨ ∃ e, (head s).1 = .error e) ∧
        ∃ e t, commit message s = (.error e, t) ∧ ledger t = ledger s) ∨
    (stagedFiles s ≠ [] ∧ ∃ label headId, (head s).1 = .ok (label, headId) ∧
      ((¬ Acceptable s message headId ∧
          ∃ e t, commit message s = (.error e, t) ∧ ledger t = ledger (taken s)) ∨
        (Acceptable s message headId ∧ ∃ dag,
          s.dag.Extends dag (newPatch s message headId) (parentsOf s headId) ∧
            Ended (taken s) label (newPatch s message headId) dag (commit message s)))) := by
  rcases head_cases s with ⟨e, hhead⟩ | ⟨label, headId, hhead⟩
  · unfold commit
    rw [attempt_bind hhead, read_bind]
    refine .inl ⟨.inr ⟨e, by rw [hhead]⟩, ?_⟩
    by_cases hstaged : stagedFiles s = []
    · exact ⟨_, s, require_bind_of_not (not_not.mpr hstaged) _ _ _, rfl⟩
    · rw [require_bind hstaged]
      exact ⟨e, s, bind_of_error hhead, rfl⟩
  · by_cases hstaged : stagedFiles s = []
    · unfold commit
      rw [attempt_bind hhead, read_bind]
      exact .inl ⟨.inl hstaged, _, _, require_bind_of_not (not_not.mpr hstaged) _ _ _, rfl⟩
    · refine .inr ⟨hstaged, label, headId, by rw [hhead], ?_⟩
      have hagain : head { s with cachedHeadBranch := some label, cachedHeadId := some headId } =
          (.ok (label, headId), _) := head_of_cached rfl rfl
      have hrun : commit message s = commitStaged message label headId (parentsOf s headId)
          (stagedFiles s) { taken s with
            cachedHeadBranch := some label, cachedHeadId := some headId } := by
        have hsame : stagedFiles { s with
            cachedHeadBranch := some label, cachedHeadId := some headId } = stagedFiles s := rfl
        unfold commit
        rw [attempt_bind hhead, read_bind]
        dsimp only
        rw [hsame, require_bind hstaged, bind_of_ok hagain]
        rfl
      rw [hrun]
      exact commitStaged_cases message label headId hstaged rfl

/-! ### All or nothing -/

/-- What a commit that fails has to leave as it was. -/
structure Untouched (s t : Repository H) : Prop where
  staged : stagedFiles t = stagedFiles s
  pendingMergeParents : t.pendingMergeParents = s.pendingMergeParents
  pendingRow : t.pendingRow = s.pendingRow
  branches : t.dag.branches = s.dag.branches
  branchRows : t.branchRows = s.branchRows
  patches : ∀ id, t.dag.getPatch id = s.dag.getPatch id
  patchRows : t.patchRows = s.patchRows

def AllOrNothing (s : Repository H) (message : String) : Prop :=
  ∀ e t, commit message s = (.error e, t) → Untouched s t

/-- A merge waits only for a commit that will be accepted, and one that is accepted has a
branch to go to. -/
def NothingAtStake (s : Repository H) (message : String) : Prop :=
  stagedFiles s ≠ [] → ∀ label headId, (head s).1 = .ok (label, headId) →
    (Acceptable s message headId → LabelIsBranch s label) ∧
    (¬ Acceptable s message headId → s.pendingMergeParents = [] ∧ s.pendingRow = [])

omit [Hashing H] in
theorem untouched_of_ledger (h : ledger t = ledger s) : Untouched s t := by
  simp only [ledger, Prod.mk.injEq] at h
  obtain ⟨⟨hnodes, hbranches⟩, ⟨hpatches, hbranchRows⟩, hstaged, ⟨hpending, hrow⟩, -⟩ := h
  refine ⟨?_, hpending, hrow, hbranches, hbranchRows, fun id => ?_, hpatches⟩
  · rw [stagedFiles, hstaged, stagedFiles]
  · rw [PatchDag.getPatch, PatchDag.getNode, hnodes]
    rfl

omit [Hashing H] in
/-- Taking the parents shows if there were any. -/
theorem untouched_of_taken (h : ledger t = ledger (taken s)) :
    Untouched s t ↔ s.pendingMergeParents = [] ∧ s.pendingRow = [] := by
  have htaken := untouched_of_ledger h
  constructor
  · exact fun ht => ⟨ht.pendingMergeParents.symm.trans htaken.pendingMergeParents,
      ht.pendingRow.symm.trans htaken.pendingRow⟩
  · rintro ⟨hpending, hrow⟩
    exact { htaken with
      pendingMergeParents := htaken.pendingMergeParents.trans hpending.symm
      pendingRow := htaken.pendingRow.trans hrow.symm }

theorem commit_all_or_nothing_iff (s : Repository H) (message : String) :
    AllOrNothing s message ↔ NothingAtStake s message := by
  rcases commit_cases message s with ⟨hunready, e, t, hrun, ht⟩ |
    ⟨hstaged, label, headId, hhead, ⟨hno, e, t, hrun, ht⟩ | ⟨hyes, dag, hext, hended⟩⟩
  · refine iff_of_true (fun e' t' h => ?_) fun hstaged label headId hhead => ?_
    · rw [hrun] at h
      cases h
      exact untouched_of_ledger ht
    · rcases hunready with hnone | ⟨e', herror⟩
      · exact absurd hnone hstaged
      · rw [hhead] at herror
        cases herror
  · constructor
    · intro h _ label' headId' hhead'
      rw [hhead] at hhead'
      cases hhead'
      exact ⟨fun hyes => absurd hyes hno, fun _ => (untouched_of_taken ht).mp (h e t hrun)⟩
    · intro h e' t' hrun'
      rw [hrun] at hrun'
      cases hrun'
      exact (untouched_of_taken ht).mpr ((h hstaged label headId hhead).2 hno)
  · rcases hended with ⟨hstray, e, t, hrun, ht⟩ | ⟨hlabel, t, hrun, -⟩
    · refine iff_of_false (fun h => ?_) fun h => hstray ((h hstaged label headId hhead).1 hyes)
      -- The patch is in the DAG although the commit failed.
      have hnew := (h e t hrun).patches (newPatch s message headId).id
      rw [(untouched_of_ledger ht).patches] at hnew
      have hknown : dag.hasPatch (newPatch s message headId).id = true :=
        (hext.hasPatch _).mpr (.inl rfl)
      obtain ⟨p, hp⟩ := PatchDag.hasPatch_iff.mp hknown
      have hunknown := hext.unknown
      rw [PatchDag.hasPatch_iff.mpr ⟨p, hnew.symm.trans hp⟩] at hunknown
      cases hunknown
    · refine iff_of_true (fun e' t' h => ?_) fun _ label' headId' hhead' => ?_
      · rw [hrun] at h
        cases h
      · rw [hhead] at hhead'
        cases hhead'
        exact ⟨fun _ => hlabel, fun hno => absurd hyes hno⟩

/-- Both branches change `a`; the merge waits, and the file is gone when it is committed. -/
def waiting : List (Event Hash) :=
  [.editFile "a" [49], .add "a", .commit "both", .createBranch side none,
    .editFile "a" [50], .add "a", .commit "main", .checkout (fun _ => false) (.name side),
    .editFile "a" [51], .add "a", .commit "side", .executeMerge .main, .add "a", .deleteFile "a"]

theorem waiting_merge_forgotten : ¬ ∀ (s : Repository Hash) (message : String), Reachable s →
    AllOrNothing s message := by
  intro h
  have hfails : (commit "merge" (sample waiting)).1.toOption = none := by decide +kernel
  have hlost : (commit "merge" (sample waiting)).2.pendingMergeParents ≠
      (sample waiting).pendingMergeParents := by decide +kernel
  rcases hrun : commit "merge" (sample waiting) with ⟨e | id, t⟩
  · rw [hrun] at hlost
    exact hlost (h _ _ (reachable_sample waiting) e t hrun).pendingMergeParents
  · rw [hrun] at hfails
    cases hfails

end Suture.Repo
