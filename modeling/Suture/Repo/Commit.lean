import Suture.Repo.Still

/-!
# What a commit records

A commit applies what is staged to the tree of HEAD; replaying it applies the same to
the joint history of its parents.
-/

namespace Suture.Repo
set_option autoImplicit false
open Foundation Common Patches Dag Engine Program

variable {H : Type} [LinearOrder H] [Hashing H] {F : Prop} {d d' : PatchDag H}
  {s t : Repository H}

/-! ### Replays -/

/-- The tree that the histories of some patches make together. -/
def jointReplay (d : PatchDag H) (ids : List H) : FileTree H :=
  ((d.jointChain ids).filterMap d.getPatch).foldl patched .empty

theorem jointReplay_singleton (d : PatchDag H) (id : H) : jointReplay d [id] = replay d id := by
  rw [jointReplay, d.jointChain_singleton]
  rfl

/-- A new patch replays to what its parents make together, and then itself. -/
theorem replay_new {patch : Patch H} {parentIds : List H} (h : d.Extends d' patch parentIds)
    (hd : d.Graded) : replay d' patch.id = patched (jointReplay d parentIds) patch := by
  have hold : (d.jointChain parentIds).filterMap d'.getPatch =
      (d.jointChain parentIds).filterMap d.getPatch := List.filterMap_congr fun p hp => by
    obtain ⟨q, hq, hqp⟩ := PatchDag.mem_jointChain.mp hp
    exact h.grows.getPatch (hd.history_known hqp (h.parents_known q hq))
  have hnew : d'.getPatch patch.id = some patch := by
    rw [PatchDag.getPatch_eq, h.view, if_pos rfl]
    rfl
  unfold replay jointReplay
  rw [h.chain_new hd, List.filterMap_append, hold, List.foldl_append]
  simp [hnew]

/-! ### Staged changes -/

def stagedOp : FileStatus → Option OperationType
  | .added => some .create
  | .modified => some .modify
  | .deleted => some .delete
  | .clean | .untracked => none

def fileHash (s : Repository H) (path : String) : Option H :=
  (s.files.get path).map Hashing.fromData

/-- What the staged changes make of the entry of a path. -/
def recordedEntry (s : Repository H) (path : String) (entry : Option H) : Option H :=
  match (s.workingSet.get path).bind stagedOp with
  | some op => changedEntry op (fileHash s path) entry
  | none => entry

/-- A change is what its staged file stands for. -/
structure StagedAs (s : Repository H) (e : String × FileStatus) (c : FileChange H) : Prop where
  path : c.path = e.1
  op : stagedOp e.2 = some c.op
  hash : c.op = .delete ∨ ∃ hash, fileHash s e.1 = some hash ∧ c.payload = .hex hash

theorem stageChange_run {e : String × FileStatus} {c : Option (FileChange H)}
    (h : stageChange e s = (.ok c, t)) :
    (c = none ∧ stagedOp e.2 = none ∨ ∃ change, c = some change ∧ StagedAs s e change) ∧
      t = { s with blobs := t.blobs } := by
  obtain ⟨path, status⟩ := e
  have hput : ∀ op, stagedOp status = some op → (do
      let hash ← putBlob (← readFile path)
      return some ⟨op, path, .hex hash⟩ : Action H (Option (FileChange H))) s = (.ok c, t) →
      (∃ change, c = some change ∧ StagedAs s (path, status) change) ∧
        t = { s with blobs := t.blobs } := by
    intro op hop hrun
    obtain ⟨data, s₁, hread, hrun⟩ := bind_ok hrun
    unfold readFile at hread
    rw [read_bind] at hread
    cases hfile : s.files.get path with
    | none =>
      rw [hfile] at hread
      cases hread
    | some found =>
      rw [hfile] at hread
      cases hread
      obtain ⟨hash, s₂, hput, hrun⟩ := bind_ok hrun
      cases hrun
      rcases putBlob_cases data s with hfail | ⟨blobs, hdone, -⟩
      · rw [hfail] at hput
        cases hput
      · rw [hdone] at hput
        cases hput
        refine ⟨⟨_, rfl, rfl, hop, .inr ⟨_, ?_, rfl⟩⟩, rfl⟩
        rw [fileHash, hfile]
        rfl
  cases status with
  | added => exact (hput .create rfl h).imp_left .inr
  | modified => exact (hput .modify rfl h).imp_left .inr
  | deleted =>
    cases h
    exact ⟨.inr ⟨_, rfl, rfl, rfl, .inl rfl⟩, rfl⟩
  | clean | untracked =>
    cases h
    exact ⟨.inl ⟨rfl, rfl⟩, rfl⟩

/-- The changes of a commit are those of its staged files, one for each. -/
theorem stageChanges_run {es : List (String × FileStatus)} : ∀ {s t : Repository H}
    {cs : List (Option (FileChange H))}, mapEach stageChange es s = (.ok cs, t) →
    (∀ e ∈ es, ∀ op, stagedOp e.2 = some op → ∃ c ∈ cs.filterMap id, StagedAs s e c) ∧
      (∀ c ∈ cs.filterMap id, ∃ e ∈ es, StagedAs s e c) ∧
      ((cs.filterMap id).map FileChange.path).Sublist (es.map Prod.fst) ∧
      t = { s with blobs := t.blobs } := by
  induction es with
  | nil =>
    intro s t cs h
    cases h
    exact ⟨nofun, nofun, .slnil, rfl⟩
  | cons e es ih =>
    intro s t cs h
    obtain ⟨c, s₁, hc, h⟩ := bind_ok h
    obtain ⟨cs', s₂, hcs, h⟩ := bind_ok h
    cases h
    obtain ⟨hc, hs₁⟩ := stageChange_run hc
    obtain ⟨hto, hfrom, hsub, hs₂⟩ := ih hcs
    have hsame : ∀ {e c}, StagedAs s₁ e c → StagedAs s e c := fun {e c} h => by
      rw [hs₁] at h
      exact ⟨h.path, h.op, h.hash⟩
    have ht : t = { s with blobs := t.blobs } := by
      rw [hs₂, hs₁]
    rcases hc with ⟨rfl, hnone⟩ | ⟨change, rfl, hchange⟩
    · refine ⟨?_, ?_, .cons _ hsub, ht⟩
      · rintro e' he' op hop
        rcases List.mem_cons.mp he' with rfl | he'
        · rw [hnone] at hop
          cases hop
        · obtain ⟨c, hc, hstaged⟩ := hto e' he' op hop
          exact ⟨c, hc, hsame hstaged⟩
      · rintro c hc
        obtain ⟨e', he', hstaged⟩ := hfrom c hc
        exact ⟨e', List.mem_cons_of_mem _ he', hsame hstaged⟩
    · refine ⟨?_, ?_, ?_, ht⟩
      · rintro e' he' op hop
        rcases List.mem_cons.mp he' with rfl | he'
        · exact ⟨change, List.mem_cons_self .., hchange⟩
        · obtain ⟨c, hc, hstaged⟩ := hto e' he' op hop
          exact ⟨c, List.mem_cons_of_mem _ hc, hsame hstaged⟩
      · rintro c hc
        rcases List.mem_cons.mp hc with rfl | hc
        · exact ⟨e, List.mem_cons_self .., hchange⟩
        · obtain ⟨e', he', hstaged⟩ := hfrom c hc
          exact ⟨e', List.mem_cons_of_mem _ he', hsame hstaged⟩
      · change (change.path :: (cs'.filterMap id).map FileChange.path).Sublist _
        rw [hchange.path]
        exact hsub.cons_cons _

omit [Hashing H] in
theorem mem_stagedFiles {path : String} {status : FileStatus} :
    (path, status) ∈ stagedFiles s ↔
      s.workingSet.get path = some status ∧ (stagedOp status).isSome = true := by
  rw [stagedFiles, List.mem_filter, SortedMap.mem_entries]
  refine and_congr_right fun _ => ?_
  cases status <;> simp [isStaged, stagedOp]

omit [Hashing H] in
theorem stagedFiles_nodup (s : Repository H) : ((stagedFiles s).map Prod.fst).Nodup := by
  have hkeys : (s.workingSet.entries.map Prod.fst).Nodup :=
    (List.pairwise_map.mpr s.workingSet.sorted).imp ne_of_lt
  exact (List.filter_sublist.map Prod.fst).nodup hkeys

/-- The batch of the staged changes makes of each entry what is recorded. -/
theorem patched_staged {cs : List (Option (FileChange H))}
    (hrun : mapEach stageChange (stagedFiles s) s = (.ok cs, t))
    (hmoves : ∀ c ∈ cs.filterMap id, c.op ≠ .move) (parentIds : List H) (author message : String)
    (timestamp : Nat) (tree : FileTree H) (path : String) :
    (patched tree (.newBatch (cs.filterMap id) parentIds author message timestamp)).get path =
      recordedEntry s path (tree.get path) := by
  obtain ⟨hto, hfrom, hsub, -⟩ := stageChanges_run hrun
  obtain ⟨sorted, hperm, hbatch⟩ : ∃ sorted, sorted.Perm (cs.filterMap id) ∧
      (Patch.newBatch (cs.filterMap id) parentIds author message timestamp).fileChanges =
        some sorted :=
    ⟨_, List.perm_insertionSort _ _, (Patch.newBatch_isBatchOf _ parentIds author message
      timestamp).fileChanges⟩
  have hnodup : (sorted.map FileChange.path).Nodup :=
    (hperm.map _).nodup_iff.mpr (hsub.nodup (stagedFiles_nodup s))
  unfold patched
  rw [hbatch]
  dsimp only
  rw [get_foldl_applySingleOp fun c hc => hmoves c (hperm.mem_iff.mp hc)]
  unfold recordedEntry
  cases hop : (s.workingSet.get path).bind stagedOp with
  | none =>
    refine foldl_entryAfter_of_notMem (fun c hc hpath => ?_) _
    obtain ⟨e, he, hstaged⟩ := hfrom c (hperm.mem_iff.mp hc)
    obtain ⟨hget, -⟩ := mem_stagedFiles.mp he
    rw [← hpath, hstaged.path, hget, Option.bind_some, hstaged.op] at hop
    cases hop
  | some op =>
    obtain ⟨status, hget, hop⟩ := Option.bind_eq_some_iff.mp hop
    have hmem : (path, status) ∈ stagedFiles s := mem_stagedFiles.mpr ⟨hget, by rw [hop]; rfl⟩
    obtain ⟨c, hc, hstaged⟩ := hto _ hmem op hop
    have hcop := hop.symm.trans hstaged.op
    cases hcop
    have hpath : c.path = path := hstaged.path
    rw [← hpath, foldl_entryAfter_of_mem hnodup (hperm.mem_iff.mpr hc)]
    rcases hstaged.hash with hdelete | ⟨hash, hfile, hpayload⟩
    · rw [hdelete]
      rfl
    · rw [hpath, hfile, hpayload]
      rfl

/-! ### The tree of a commit -/

def parentsOf (s : Repository H) (headId : H) : List H :=
  if s.pendingMergeParents = [] then [headId] else s.pendingMergeParents

/-- The tree that a commit adds to; there is none to look up under the null id. -/
def commitBase (s : Repository H) (headId : H) : FileTree H :=
  if headId = Hashing.zero then jointReplay s.dag (parentsOf s headId) else treeOf s headId

/-- The staged changes make the same of the tree of HEAD and of what the merged histories
make together. -/
def CommitFresh (s : Repository H) : Prop :=
  s.pendingMergeParents ≠ [] → ∀ branch headId, (head s).1 = .ok (branch, headId) →
    ∀ path, recordedEntry s path ((commitBase s headId).get path) =
      recordedEntry s path ((jointReplay s.dag s.pendingMergeParents).get path)

theorem commitTree_run (hs : Valid F s) {headId patchId : H} (hhead : s.dag.hasPatch headId = true)
    (hid : s.dag.hasPatch patchId = true) {patch : Patch H} (hpatch : patch.targetPath = none) :
    ∃ t, commitTree headId patchId patch s = (.ok (if headId = Hashing.zero then
        replay s.dag patchId else patched (treeOf s headId) patch), t) ∧
      Looked s t ∧ Valid F t ∧ Later s t := by
  unfold commitTree
  split
  · obtain ⟨d', hasked, hrun⟩ := snapshotUncached_run hs hid
    refine ⟨_, ?_, .of_asked hs hasked, hs.asked hasked⟩
    unfold orEmpty
    rw [bind_of_ok (show (snapshotUncached patchId).attempt s = _ from Prod.ext rfl rfl), hrun]
    rfl
  · obtain ⟨t, hrun, hlooked, ht, hle⟩ := snapshot_run hs hhead
    refine ⟨t, ?_, hlooked, ht, hle⟩
    rw [bind_of_ok (show (snapshot headId).attempt s = _ from Prod.ext rfl rfl), hrun]
    dsimp only
    rw [applyPatch_eq hpatch]
    rfl

theorem safe_recordCommit (hs : Valid F s) (branch : String) {id : H} {tree : FileTree H}
    (hrow : RowOk F s.dag s.blobs id tree) :
    Safe F (recordCommit branch id tree) s fun _ t => t.cachedHeadSnapshot = some tree := by
  refine ⟨?_, later_of_eq rfl rfl rfl, fun _ _ => rfl⟩
  refine { hs.store hrow with cachedKnown := ?_ }
  rintro _ ⟨⟩
  exact hrow.known

theorem safe_commitPatch (hs : Valid F s) {headId : H} (hhead : s.dag.hasPatch headId = true)
    {patch : Patch H} (hpatch : PatchOk s.dag s.blobs patch) {parentIds : List H} {base : FileTree H}
    (hbase : base = if headId = Hashing.zero then jointReplay s.dag parentIds else treeOf s headId)
    (hfresh : F → patched base patch = patched (jointReplay s.dag parentIds) patch)
    (branch : String) (staged : List (String × FileStatus)) :
    Safe F (commitPatch branch headId patch parentIds staged) s fun _ t =>
      t.cachedHeadSnapshot = some (patched base patch) := by
  refine (safe_addPatch hs hpatch parentIds).bind fun patchId s₁ hs₁ hle₁ h => ?_
  obtain ⟨rfl, hsame₁, hext⟩ := h
  have hnew : s₁.dag.hasPatch patch.id = true := (hext.hasPatch _).mpr (.inl rfl)
  have hstore := safe_of_still (still_storePatch patch) hs₁
  refine .step rfl hstore.le ?_
  have hclear := safe_of_still (still_clearWorkingSet (staged.map Prod.fst)) hstore.inv
  refine .step rfl hclear.le ?_
  refine (safe_setBranch hclear.inv branch patch.id).bind fun _ s₂ hs₂ hle₂ h => ?_
  obtain ⟨branches, rows, hsame₂⟩ := h
  have hlater : Later s₁ s₂ := Later.trans hstore.le (hclear.le.trans hle₂)
  have hle : Later s s₂ := hle₁.trans hlater
  have hrows : s₂.fileTrees = s.fileTrees := by
    rw [hsame₂]
    exact (congrArg Repository.fileTrees hsame₁).trans rfl
  have hreplay : replay s₂.dag patch.id = patched (jointReplay s.dag parentIds) patch := by
    rw [← replay_new hext hs.sound.graded]
    exact replay_of_grows hlater.grows hs₁.sound.graded hnew
  obtain ⟨s₃, hrun, hlooked, hs₃, hle₃⟩ := commitTree_run hs₂ (hle.grows.hasPatch hhead)
    (hlater.grows.hasPatch hnew) hpatch.noTarget
  have htree : (if headId = Hashing.zero then replay s₂.dag patch.id
      else patched (treeOf s₂ headId) patch) = patched base patch := by
    rw [hbase, hreplay, treeOf_congr hs hrows hle.grows hhead]
    split <;> rfl
  rw [htree] at hrun
  refine .step hrun hle₃ ?_
  have hstored : TreeStored s.blobs base := by
    rw [hbase]
    split
    · exact hs.patched_stored _
    · exact hs.treeOf_stored headId
  have hrow : RowOk F s₃.dag s₃.blobs patch.id (patched base patch) := by
    refine ⟨hlooked.asked.grows.hasPatch (hlater.grows.hasPatch hnew),
      (hpatch.treeStored hstored).later (hle.trans hle₃), fun hF _ => ?_⟩
    rw [replay_of_grows hle₃.grows hs₂.sound.graded
      (hlater.grows.hasPatch hnew), hreplay, hfresh hF]
  refine (safe_recordCommit hs₃ branch hrow).bind fun _ s₄ hs₄ _ hsnapshot => ?_
  exact Discipline.safe_pure hs₄ hsnapshot

/-- A file staged with content is there. -/
def StagedThere (s : Repository H) : Prop :=
  ∀ path op, (s.workingSet.get path).bind stagedOp = some op → op ≠ .delete →
    fileHash s path ≠ none

/-- What a commit leaves behind. -/
def Recorded (s t : Repository H) : Prop :=
  StagedThere s ∧ ∃ branch headId tree, (head s).1 = .ok (branch, headId) ∧
    t.cachedHeadSnapshot = some tree ∧
    ∀ path, tree.get path = recordedEntry s path ((commitBase s headId).get path)

theorem stagedThere_of_run {cs : List (Option (FileChange H))}
    (hrun : mapEach stageChange (stagedFiles s) s = (.ok cs, t)) : StagedThere s := by
  intro path op hop hne
  obtain ⟨hto, -, -, -⟩ := stageChanges_run hrun
  obtain ⟨status, hget, hop⟩ := Option.bind_eq_some_iff.mp hop
  obtain ⟨c, -, hstaged⟩ := hto (path, status) (mem_stagedFiles.mpr ⟨hget, by rw [hop]; rfl⟩) op hop
  have hcop := hop.symm.trans hstaged.op
  cases hcop
  rcases hstaged.hash with hdelete | ⟨hash, hfile, -⟩
  · exact absurd hdelete hne
  · rw [hfile]
    exact nofun

/-- `s` is the state before the parents were taken, `t` the one after. -/
theorem safe_commitStaged (hs : Valid F s) {headId : H} (hhead : s.dag.hasPatch headId = true)
    (hfresh : F → s.pendingMergeParents ≠ [] → ∀ path,
      recordedEntry s path ((commitBase s headId).get path) =
        recordedEntry s path ((jointReplay s.dag s.pendingMergeParents).get path))
    (message branch : String) (ht : t = { s with pendingMergeParents := [], pendingRow := [] }) :
    Safe F (commitStaged message branch headId (parentsOf s headId) (stagedFiles s)) t fun _ u =>
      StagedThere s ∧ ∃ tree, u.cachedHeadSnapshot = some tree ∧
        ∀ path, tree.get path = recordedEntry s path ((commitBase s headId).get path) := by
  have hvalid : Valid F t := by
    rw [ht]
    exact { hs with pendingKnown := nofun }
  have hparents : ∀ q ∈ parentsOf s headId, s.dag.hasPatch q = true := by
    unfold parentsOf
    split
    · intro q hq
      rwa [List.mem_singleton.mp hq]
    · exact hs.pendingKnown
  have hdag : t.dag = s.dag := by rw [ht]
  have hrecorded : recordedEntry t = recordedEntry s := by rw [ht]; rfl
  have hstaged : stagedFiles t = stagedFiles s := by rw [ht]; rfl
  have hnamed : ∀ e ∈ stagedFiles s, IsRepoPath e.1 := fun e he => hs.stagedNamed e.1
    (Option.isSome_iff_exists.mpr ⟨e.2, (mem_stagedFiles.mp he).1⟩)
  have hchanges : Safe F (mapEach stageChange (stagedFiles s)) t fun cs u =>
      ∀ c ∈ cs, ∀ change, c = some change → ChangeOk u.blobs change :=
    Discipline.Safe.mapEach (fun _ _ _ hle h change hc => (h change hc).later hle)
      (fun e he u hu _ => safe_stageChange hu (hnamed e he)) hvalid
  refine (hchanges.and_run fun cs u hrun => hrun).bind fun cs u hu hle h => ?_
  obtain ⟨hok, hrun⟩ := h
  obtain ⟨-, -, -, hsame⟩ := stageChanges_run hrun
  have hthere : StagedThere s := by
    have hthere := stagedThere_of_run (hstaged.symm ▸ hrun)
    rwa [ht] at hthere
  refine .require_bind hu fun _ => .read_bind ?_
  have hudag : u.dag = s.dag := by rw [hsame, hdag]
  have hurows : u.fileTrees = s.fileTrees := by rw [hsame, ht]
  have hmoves : ∀ c ∈ cs.filterMap id, ChangeOk u.blobs c := fun c hc => by
    obtain ⟨c', hc', heq⟩ := List.mem_filterMap.mp hc
    exact hok c' hc' c heq
  have hget := fun tree path => patched_staged (hstaged ▸ hrun) (fun c hc => (hmoves c hc).noMove)
    (parentsOf s headId) u.author message u.clock tree path
  rw [hrecorded] at hget
  have hbase : commitBase s headId = if headId = Hashing.zero then
      jointReplay u.dag (parentsOf s headId) else treeOf u headId := by
    unfold commitBase treeOf loadFileTree
    rw [hudag, hurows]
  refine (safe_commitPatch hu (hudag ▸ hhead) (newBatch_ok (hudag ▸ hparents) hmoves _ _ _) hbase
    (fun hF => SortedMap.ext fun path => ?_) branch _).mono fun _ v _ _ h =>
      ⟨hthere, _, h, fun path => hget _ path⟩
  rw [hget, hget, hudag]
  by_cases hpending : s.pendingMergeParents = []
  · have hjoint : jointReplay s.dag (parentsOf s headId) = replay s.dag headId := by
      rw [parentsOf, if_pos hpending, jointReplay_singleton]
    have hhome : commitBase s headId = replay s.dag headId := by
      rw [commitBase, hjoint, hs.treeOf_eq hF, ite_self]
    rw [hjoint, hhome]
  · rw [hfresh hF hpending, parentsOf, if_neg hpending]

theorem safe_commit (hs : Valid F s) (hfresh : F → CommitFresh s) (message : String) :
    Safe F (commit message) s fun _ t => Recorded s t := by
  unfold commit
  rcases hhead : head s with ⟨e | ⟨branch, headId⟩, s₁⟩
  · have hsame := head_error hs hhead
    subst hsame
    refine .step (show head.attempt s₁ = (.ok (.error e), s₁) by rw [attempt, hhead])
      (Later.refl s₁) ?_
    exact .read_bind (.require_bind hs fun _ => .step_error hhead hs (Later.refl s₁))
  obtain ⟨hsame, hid, hagain, hs₁, hle₁⟩ := head_ok hs hhead
  refine .step (show head.attempt s = (.ok (.ok (branch, headId)), s₁) by rw [attempt, hhead])
    hle₁ (.read_bind (.require_bind hs₁ fun _ => .step hagain (Later.refl s₁) ?_))
  have htake : takeParents headId s₁ = (.ok (parentsOf s₁ headId),
      { s₁ with pendingMergeParents := [], pendingRow := [] }) := rfl
  refine .step htake (later_of_eq rfl rfl rfl) ?_
  have hbase : ∀ id, commitBase s₁ id = commitBase s id := fun id => by
    rw [hsame]
    rfl
  have hrecorded : recordedEntry s₁ = recordedEntry s := by
    rw [hsame]
    rfl
  have hdag : s₁.dag = s.dag := by rw [hsame]
  have hpending : s₁.pendingMergeParents = s.pendingMergeParents := by rw [hsame]
  refine (safe_commitStaged hs₁ (hdag ▸ hid) ?_ message branch rfl).mono fun _ u _ _ h => ?_
  · rw [hrecorded, hbase, hdag, hpending]
    exact fun hF hne => hfresh hF hne branch headId (by rw [hhead])
  · rw [hrecorded, hbase] at h
    obtain ⟨hthere, tree, hsnapshot, hget⟩ := h
    rw [hsame] at hthere
    exact ⟨hthere, branch, headId, tree, by rw [hhead], hsnapshot, hget⟩

end Suture.Repo
