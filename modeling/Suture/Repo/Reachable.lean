import Suture.Repo.Conflicting

/-!
# Reachable repositories

Every event keeps a repository valid, so every reachable one is. A commit that waits for a
merge stores what it makes of the tree of HEAD, while a replay starts from what the merged
histories make together; `CommitFresh` says when the two are the same. Apart from that,
stored trees are what their patches replay to, in every run.
-/

namespace Suture.Repo
set_option autoImplicit false
open Foundation Common Patches Dag Engine Program

variable {H : Type} [LinearOrder H] [Hashing H] {F : Prop} {s t : Repository H}

/-- An action after which nothing is claimed but that it was safe. -/
theorem safe_then {α β : Type} {m : Action H α} {k : α → Action H β}
    {Q : α → Repository H → Prop} (hm : Safe F m s Q)
    (hk : ∀ a t, Valid F t → Later s t → Safe F (k a) t fun _ _ => True) :
    Safe F (m >>= k) s fun _ _ => True := hm.bind fun a t ht hle _ => hk a t ht hle

theorem safe_done {α : Type} (hs : Valid F s) (a : α) :
    Safe F (pure a : Action H α) s fun _ _ => True := Discipline.safe_pure hs trivial

/-! ### Staging -/

theorem safe_isTracked (hs : Valid F s) (path : String) :
    Safe F (isTracked path) s fun _ _ => True := by
  refine .read_bind ?_
  split
  · exact safe_done hs _
  · refine safe_then (safe_head hs).attempt fun r t ht _ => ?_
    cases r with
    | ok r => exact .read_bind (safe_done ht _)
    | error e => exact safe_done ht _

theorem safe_workingSetAdd (hs : Valid F s) (path : String) (status : FileStatus) :
    Safe F (workingSetAdd path status) s fun _ _ => True :=
  safe_of_still (still_workingSetAdd path status) hs

theorem safe_add (hs : Valid F s) (path : String) : Safe F (add path) s fun _ _ => True := by
  refine safe_then (safe_of_still (quiet_ofExcept _) hs) fun _ t ht _ => .read_bind ?_
  split
  · refine safe_then (safe_isTracked ht path) fun tracked u hu _ => ?_
    split <;> exact safe_workingSetAdd hu path _
  · refine safe_then (safe_isTracked ht path) fun tracked u hu _ => ?_
    split
    · exact safe_workingSetAdd hu path _
    · exact Discipline.safe_fail hu _

/-! ### Stashes -/

theorem safe_hasUncommittedChanges (hs : Valid F s) (statHit : String → Bool) :
    Safe F (hasUncommittedChanges statHit) s fun _ _ => True := by
  refine .read_bind ?_
  split
  · exact safe_done hs _
  · refine safe_then (safe_snapshotHead hs).attempt fun r t ht _ => ?_
    cases r with
    | ok tree => exact .read_bind (safe_done ht _)
    | error e => exact safe_done ht _

theorem safe_stashTree (hs : Valid F s) (stagedPaths : List String) :
    Safe F (stashTree stagedPaths) s fun _ _ => True := by
  refine safe_then (safe_snapshotHead hs).attempt fun r t ht _ => ?_
  cases r with
  | ok tree =>
    exact safe_then (safe_of_contents (Quiet.mapEach (contents_stashTracked stagedPaths) _) ht)
      fun _ u hu _ => safe_done hu _
  | error e => exact safe_done ht _

theorem safe_restoreHead (hs : Valid F s) : Safe F restoreHead s fun _ _ => True := by
  refine safe_then (safe_snapshotHead hs).attempt fun r t ht _ => ?_
  cases r with
  | ok tree => exact safe_of_contents (contents_restoreTree tree) ht
  | error e => exact safe_done ht _

theorem safe_stashPush (hs : Valid F s) (statHit : String → Bool) (message : Option String) :
    Safe F (stashPush statHit message) s fun _ _ => True := by
  refine safe_then (safe_hasUncommittedChanges hs statHit) fun _ t ht _ => ?_
  refine .require_bind ht fun _ => .read_bind ?_
  refine safe_then (safe_of_contents (Quiet.mapEach contents_stashStaged _) ht) fun _ t ht _ => ?_
  refine safe_then (safe_stashTree ht _) fun _ t ht _ => .read_bind ?_
  refine safe_then (safe_head ht) fun _ t ht _ => ?_
  refine safe_then (safe_of_still (quiet_modify fun _ => ⟨rfl, rfl, ⟨.refl _, nofun⟩⟩) ht)
    fun _ t ht _ => ?_
  exact safe_then (safe_restoreHead ht) fun _ t ht _ => safe_done ht _

theorem safe_stashApply (hs : Valid F s) (index : Nat) :
    Safe F (stashApply (H := H) index) s fun _ _ => True := by
  refine .read_bind ?_
  split
  · exact Discipline.safe_fail hs _
  · exact safe_then (safe_head hs).attempt fun _ t ht _ =>
      safe_of_still (Quiet.forEach still_unstash _) ht

theorem safe_stashDrop (hs : Valid F s) (index : Nat) :
    Safe F (stashDrop (H := H) index) s fun _ _ => True := by
  refine .read_bind (.require_bind hs fun _ => ?_)
  exact safe_of_still (quiet_modify fun _ => ⟨rfl, rfl, .of_eq rfl rfl⟩) hs

theorem safe_stashPop (hs : Valid F s) : Safe F (stashPop (H := H)) s fun _ _ => True := by
  refine .read_bind ?_
  split
  · exact Discipline.safe_fail hs _
  · exact safe_then (safe_stashApply hs _) fun _ t ht _ => safe_stashDrop ht _

/-! ### References -/

theorem safe_ancestorAt (n : Nat) : ∀ {s : Repository H} {id : H}, Valid F s →
    s.dag.hasPatch id = true →
    Safe F (ancestorAt id n) s fun a t => t.dag.hasPatch a = true := by
  induction n with
  | zero => exact fun hs hid => Discipline.safe_pure hs hid
  | succ n ih =>
    intro s id hs hid
    refine .read_bind ?_
    split
    · exact Discipline.safe_fail hs _
    · rename_i patch hpatch
      split
      · exact Discipline.safe_fail hs _
      · rename_i parentId hparent
        exact ih hs ((hs.patches id patch hpatch).parents _ (List.mem_of_head? hparent))

theorem safe_branchTarget (hs : Valid F s) (branch : BranchName) :
    Safe F (branchTarget branch) s fun a t => t.dag.hasPatch a = true := by
  refine .read_bind ?_
  split
  · rename_i id hid
    exact Discipline.safe_pure hs (hs.sound.targets _ _ hid)
  · exact Discipline.safe_fail hs _

omit [Hashing H] in
theorem branchTarget_ok {branch : BranchName} {id : H}
    (h : branchTarget branch s = (.ok id, t)) : s.dag.getBranch branch = some id ∧ t = s := by
  unfold branchTarget at h
  rw [read_bind] at h
  cases hget : s.dag.getBranch branch with
  | none =>
    rw [hget] at h
    cases h
  | some found =>
    rw [hget] at h
    cases h
    exact ⟨rfl, rfl⟩

theorem safe_resolveRef (hs : Valid F s) (target : Ref H) :
    Safe F (resolveRef target) s fun a t => t.dag.hasPatch a = true := by
  cases target with
  | head =>
    exact (safe_head hs).bind fun r t ht hle h =>
      Discipline.safe_pure ht (hle.grows.hasPatch h.1)
  | headOffset n =>
    exact (safe_head hs).bind fun r t ht hle h => safe_ancestorAt n ht (hle.grows.hasPatch h.1)
  | hash id =>
    refine .read_bind ?_
    split
    · rename_i hid
      exact Discipline.safe_pure hs hid
    · exact (safe_branchName hs _).bind fun branch t ht _ _ => safe_branchTarget ht branch
  | name branch => exact safe_branchTarget hs branch

theorem safe_createBranch (hs : Valid F s) (branch : BranchName) (target : Option (Ref H)) :
    Safe F (createBranch branch target) s fun _ _ => True := by
  have hupdate : ∀ id (t : Repository H), Valid F t → Safe F (do
      updateDag fun d => d.createBranch branch id
      storeBranch branch id) t fun _ _ => True := fun id t ht =>
    safe_then (safe_addBranch ht branch id) fun _ u hu _ =>
      safe_of_still (still_storeBranch branch id) hu
  cases target with
  | some target => exact safe_then (safe_resolveRef hs target) fun id t ht _ => hupdate id t ht
  | none =>
    refine .read_bind ?_
    split
    · exact safe_then (safe_done hs _) fun id t ht _ => hupdate id t ht
    · exact safe_then (Discipline.safe_fail hs _ (Q := fun _ _ => True)) fun id t ht _ =>
        hupdate id t ht

/-! ### Checkout -/

theorem safe_checkoutTarget (hs : Valid F s) (target : Ref H) :
    Safe F (checkoutTarget target) s fun r t => t.dag.hasPatch r.1 = true ∧
      ∀ branch, r.2 = some branch → (t.dag.getBranch branch).isSome = true := by
  refine .read_bind ?_
  split
  · rename_i id branch hbranch
    obtain ⟨branch', -, hget⟩ := Option.bind_eq_some_iff.mp hbranch
    obtain ⟨id', hid, heq⟩ := Option.map_eq_some_iff.mp hget
    cases heq
    refine Discipline.safe_pure hs ⟨hs.sound.targets _ _ hid, ?_⟩
    rintro _ ⟨⟩
    exact Option.isSome_iff_exists.mpr ⟨_, hid⟩
  · exact (safe_resolveRef hs target).bind fun id t ht _ hid =>
      Discipline.safe_pure ht ⟨hid, nofun⟩

theorem safe_attach (hs : Valid F s) {targetId : H} (hid : s.dag.hasPatch targetId = true)
    {branch : Option BranchName}
    (hbranch : ∀ b, branch = some b → (s.dag.getBranch b).isSome = true) :
    Safe F (attach targetId branch) s fun _ _ => True := by
  cases branch with
  | none =>
    refine Discipline.safe_modify (D := discipline F) { hs with detachedKnown := ?_ }
      (later_of_eq rfl rfl rfl) trivial
    rintro _ ⟨⟩
    exact hid
  | some branch =>
    refine Discipline.safe_modify (D := discipline F)
      { hs with detachedKnown := nofun, headNamed := ⟨branch, ?_, hbranch branch rfl⟩ }
      (later_of_eq rfl rfl rfl) trivial
    exact BranchName.new_asStr branch

theorem safe_autoStash (hs : Valid F s) (statHit : String → Bool) (hasChanges : Bool) :
    Safe F (autoStash (H := H) statHit hasChanges) s fun _ _ => True := by
  unfold autoStash
  split
  · exact safe_then (safe_stashPush hs statHit _) fun _ t ht _ => safe_done ht _
  · exact safe_done hs _

theorem safe_checkout (hs : Valid F s) (statHit : String → Bool) (target : Ref H) :
    Safe F (checkout statHit target) s fun _ _ => True := by
  refine safe_then (safe_head hs).attempt fun _ s hs _ => ?_
  refine (safe_checkoutTarget hs target).bind fun r s hs _ h => ?_
  obtain ⟨targetId, branch⟩ := r
  obtain ⟨hid, hbranch⟩ := h
  refine safe_then (safe_hasUncommittedChanges hs statHit) fun hasChanges t ht hle₁ => ?_
  refine safe_then (safe_autoStash ht statHit hasChanges) fun _ t ht hle₂ => ?_
  have hid := (hle₁.trans hle₂).grows.hasPatch hid
  refine safe_then (safe_snapshot ht hid) fun targetTree t ht hle₃ => ?_
  refine safe_then (safe_orEmpty (safe_snapshotHead ht) fun _ => trivial)
    fun currentTree t ht hle₄ => ?_
  refine safe_then (safe_of_contents (Quiet.forEach contents_writeEntry _) ht) fun _ t ht hle₅ => ?_
  refine safe_then (safe_of_contents (contents_removeMissing _ _) ht) fun _ t ht hle₆ => ?_
  have hle := (hle₃.trans hle₄).trans (hle₅.trans hle₆)
  refine safe_then (safe_attach ht (hle.grows.hasPatch hid) fun b hb =>
    ((hle₁.trans hle₂).trans hle).branches _ (hbranch b hb)) fun _ t ht _ => ?_
  refine safe_then (safe_invalidateHeadCache ht) fun _ t ht _ => ?_
  refine safe_then (Discipline.Safe.attempt (Q := fun _ _ => True) ?_) fun _ t ht _ =>
    safe_done ht _
  split
  · exact safe_stashPop ht
  · exact safe_done ht _

/-! ### Reset -/

theorem safe_syncWorkingTree (hs : Valid F s) (oldTree : FileTree H) :
    Safe F (syncWorkingTree oldTree) s fun _ _ => True :=
  safe_then (safe_snapshotHead hs) fun newTree _ ht _ =>
    safe_of_contents (contents_bringAlong oldTree newTree) ht

theorem safe_reset (hs : Valid F s) (target : Ref H) (mode : ResetMode) :
    Safe F (reset target mode) s fun _ _ => True := by
  refine safe_then (safe_head hs).attempt fun _ s hs _ => ?_
  refine safe_then (safe_resolveRef hs target) fun targetId s hs _ => ?_
  refine safe_then (safe_head hs) fun r s hs _ => ?_
  obtain ⟨branch, headId⟩ := r
  refine safe_then (safe_orEmpty (safe_snapshotHead hs) fun _ => trivial) fun oldTree s hs _ => ?_
  refine safe_then (safe_moveHead hs branch targetId) fun _ s hs _ => ?_
  cases mode with
  | soft =>
    refine safe_then (safe_orEmpty (safe_snapshotHead hs) fun _ => trivial) fun newTree s hs _ => ?_
    exact safe_then (safe_of_still (Quiet.forEach still_stageDifference _) hs)
      fun _ s hs _ => safe_done hs _
  | mixed =>
    exact safe_then (safe_of_still still_emptyWorkingSet hs) fun _ s hs _ => safe_done hs _
  | hard =>
    refine safe_then (safe_of_still still_emptyWorkingSet hs) fun _ s hs _ => ?_
    exact safe_then (safe_syncWorkingTree hs oldTree) fun _ s hs _ => safe_done hs _

/-! ### Patches made again -/

theorem safe_findPatch (hs : Valid F s) (id : H) :
    Safe F (findPatch id) s fun p t => PatchOk t.dag t.blobs p := by
  refine .read_bind ?_
  split
  · rename_i patch hpatch
    exact Discipline.safe_pure hs (hs.patches id patch hpatch)
  · exact Discipline.safe_fail hs _

/-- The same patch on another parent. -/
theorem safe_replayed (hs : Valid F s) {patch : Patch H} (hpatch : PatchOk s.dag s.blobs patch)
    {parentId : H} (hparent : s.dag.hasPatch parentId = true) :
    Safe F (replayed patch (patch.fileChanges.getD []) parentId) s fun p t =>
      PatchOk t.dag t.blobs p := by
  have hparents : ∀ q ∈ [parentId], s.dag.hasPatch q = true := fun q hq => by
    rwa [List.mem_singleton.mp hq]
  refine .read_bind ?_
  split
  · refine Discipline.safe_pure hs (newBatch_ok hparents (fun c hc => ?_) _ _ _)
    cases hchanges : patch.fileChanges with
    | none =>
      rw [hchanges] at hc
      cases hc
    | some changes =>
      rw [hchanges] at hc
      exact (hpatch.changes hchanges).2 c hc
  · rename_i hop
    rw [hpatch.noTarget]
    exact Discipline.safe_pure hs (new_ok hop hparents _ _ _ _ _)

/-! ### Revert -/

theorem safe_commitOnHead (hs : Valid F s) (branch : String) (headId : H) (oldTree : FileTree H)
    {patch : Patch H} (hpatch : PatchOk s.dag s.blobs patch) :
    Safe F (commitOnHead branch headId oldTree patch) s fun _ _ => True := by
  refine safe_then (safe_of_still (still_storePatch patch) hs) fun _ s hs hle => ?_
  refine safe_then (safe_addPatch hs (hpatch.later hle) [headId]) fun id s hs _ => ?_
  refine safe_then (safe_moveHead hs branch id) fun _ s hs _ => ?_
  exact safe_then (safe_syncWorkingTree hs oldTree) fun _ s hs _ => safe_done hs _

omit [Hashing H] in
theorem revertChange_ok {blobs : SortedMap H Bytes} {parentTree : FileTree H}
    (htree : TreeStored blobs parentTree) {change c : FileChange H} (hchange : ChangeOk blobs change)
    (h : revertChange parentTree change = some c) : ChangeOk blobs c := by
  unfold revertChange at h
  split at h
  · cases h
    exact ⟨nofun, hchange.named, nofun⟩
  · cases h
    exact ⟨nofun, hchange.named, nofun⟩
  · obtain ⟨hash, hget, rfl⟩ := Option.map_eq_some_iff.mp h
    refine ⟨nofun, hchange.named, ?_⟩
    rintro _ ⟨⟩
    exact htree.stored _ _ hget
  all_goals cases h

theorem safe_parentTreeOf (hs : Valid F s) {patch : Patch H}
    (hpatch : PatchOk s.dag s.blobs patch) :
    Safe F (parentTreeOf patch) s fun tree t => TreeStored t.blobs tree := by
  unfold parentTreeOf
  split
  · rename_i parentId hparent
    have hknown := hpatch.parents _ (List.mem_of_head? hparent)
    refine safe_orEmpty ((safe_snapshot hs hknown).mono fun tree t _ hle h => ?_)
      fun t => treeStored_empty
    rw [h.1]
    exact (hs.treeOf_stored parentId).later hle
  · exact Discipline.safe_pure hs treeStored_empty

theorem safe_revertBatch (hs : Valid F s) {patch : Patch H} (hpatch : PatchOk s.dag s.blobs patch)
    {headId : H} (hhead : s.dag.hasPatch headId = true) (message : String) :
    Safe F (revertBatch patch headId message) s fun p t => PatchOk t.dag t.blobs p := by
  unfold revertBatch
  split
  · exact Discipline.safe_fail hs _
  rename_i changes hchanges
  refine .require_bind hs fun _ => ?_
  refine (safe_parentTreeOf hs hpatch).bind fun tree t ht hle htree => ?_
  refine .require_bind ht fun _ => .read_bind ?_
  refine Discipline.safe_pure ht (newBatch_ok (fun q hq => ?_) (fun c hc => ?_) _ _ _)
  · rw [List.mem_singleton.mp hq]
    exact hle.grows.hasPatch hhead
  · obtain ⟨change, hmem, hchange⟩ := List.mem_filterMap.mp hc
    exact revertChange_ok htree (((hpatch.changes hchanges).2 change hmem).later hle) hchange

theorem safe_revertPatch (hs : Valid F s) {patch : Patch H} (hpatch : PatchOk s.dag s.blobs patch)
    {headId : H} (hhead : s.dag.hasPatch headId = true) (message : String) :
    Safe F (revertPatch patch headId message) s fun p t => PatchOk t.dag t.blobs p := by
  have hinverse : Safe F (do
      let s ← read
      return .new .delete patch.touchSet patch.targetPath (.text .empty) [headId] s.author message
        s.clock : Action H (Patch H)) s fun p t => PatchOk t.dag t.blobs p := by
    refine .read_bind (Discipline.safe_pure hs ?_)
    rw [hpatch.noTarget]
    have hop : OperationType.delete ≠ .batch := nofun
    refine new_ok hop (fun q hq => ?_) _ _ _ _ _
    rwa [List.mem_singleton.mp hq]
  unfold revertPatch
  split
  · exact safe_revertBatch hs hpatch hhead message
  · exact hinverse
  · exact hinverse
  · -- without a target path there is no content to bring back
    unfold revertDelete
    split
    · exact Discipline.safe_fail hs _
    · rename_i parentId hparent
      have hknown := hpatch.parents _ (List.mem_of_head? hparent)
      refine (safe_snapshot hs hknown).bind fun tree t ht _ _ => ?_
      rw [hpatch.noTarget]
      exact Discipline.safe_fail ht _
  · exact Discipline.safe_fail hs _

theorem safe_revert (hs : Valid F s) (id : H) (message : Option String) :
    Safe F (revert id message) s fun _ _ => True := by
  refine (safe_findPatch hs id).bind fun patch s hs _ hpatch => ?_
  refine (safe_head hs).bind fun r t ht hle₁ h => ?_
  obtain ⟨branch, headId⟩ := r
  refine safe_then (safe_orEmpty (safe_snapshotHead ht) fun _ => trivial) fun oldTree t ht hle₂ => ?_
  have hle := hle₁.trans hle₂
  refine (safe_revertPatch ht (hpatch.later hle) (hle.grows.hasPatch h.1) _).bind
    fun inverse u hu _ hinverse => ?_
  exact safe_commitOnHead hu branch headId oldTree hinverse

/-! ### Squash -/

theorem safe_findPatches (hs : Valid F s) (ids : List H) :
    Safe F (mapEach findPatch ids) s fun ps t => ∀ p ∈ ps, PatchOk t.dag t.blobs p :=
  Discipline.Safe.mapEach (fun _ _ _ hle hp => hp.later hle)
    (fun id _ _ ht _ => safe_findPatch ht id) hs

theorem composeChain_ok {d : PatchDag H} {blobs : SortedMap H Bytes} {patches : List (Patch H)}
    (hall : ∀ q ∈ patches, PatchOk d blobs q) {author message : String} {timestamp : Nat}
    {p : Patch H} (h : composeChain patches author message timestamp = some p) :
    PatchOk d blobs p := by
  rcases composeChain_cases h with hp | ⟨hop, q, hq, hparents⟩
  · exact hall p hp
  · refine ⟨?_, composeChain_targetPath (fun q hq => (hall q hq).noTarget) h,
      fun hbatch => absurd hbatch hop⟩
    rw [hparents]
    exact (hall q hq).parents

theorem safe_squash (hs : Valid F s) (count : Nat) (message : String) :
    Safe F (squash count message) s fun _ _ => True := by
  refine .require_bind hs fun _ => ?_
  refine safe_then (safe_head hs) fun r s hs _ => .read_bind ?_
  refine .require_bind hs fun _ => ?_
  refine (safe_findPatches hs _).bind fun toSquash s hs _ hall => ?_
  split
  · exact Discipline.safe_fail hs _
  refine .read_bind ?_
  split
  · exact Discipline.safe_fail hs _
  · rename_i patch hpatch
    refine safe_then (safe_of_still (still_storePatch patch) hs) fun _ s hs hle => ?_
    refine safe_then (safe_addPatch hs ((composeChain_ok hall hpatch).later hle) _)
      fun id s hs _ => ?_
    exact safe_then (safe_moveHead hs r.1 id) fun _ s hs _ => safe_done hs _

/-! ### Cherry-pick -/

theorem safe_cherryPick (hs : Valid F s) (id : H) :
    Safe F (cherryPick id) s fun _ _ => True := by
  refine safe_then (safe_head hs).attempt fun _ s hs _ => ?_
  refine (safe_findPatch hs id).bind fun patch s hs _ hpatch => ?_
  refine .require_bind hs fun _ => ?_
  refine (safe_head hs).bind fun r t ht hle h => ?_
  have hpatch := hpatch.later hle
  have hhead := hle.grows.hasPatch h.1
  refine .require_bind ht fun _ => ?_
  refine (safe_replayed ht hpatch hhead).bind fun picked t ht hle hpicked => ?_
  have hhead := hle.grows.hasPatch hhead
  refine safe_then (safe_of_still (still_storePatch picked) ht) fun _ t ht hle => ?_
  have hhead := hle.grows.hasPatch hhead
  refine safe_then (safe_addPatch ht (hpicked.later hle) [r.2]).attempt fun added u hu hle => ?_
  have hhead := hle.grows.hasPatch hhead
  split
  · refine safe_then (safe_queryDag hu (PatchDag.asked_ancestors hhead)) fun _ t ht _ => ?_
    exact .require_bind ht fun _ => safe_done ht _
  · exact Discipline.safe_fail hu _
  · rename_i newId
    refine safe_then (safe_branchName hu _) fun _ s hs _ => ?_
    refine safe_then (safe_orEmpty (safe_snapshotHead hs) fun _ => trivial) fun oldTree s hs _ => ?_
    refine safe_then (safe_moveHead hs r.1 newId) fun _ s hs _ => ?_
    exact safe_then (safe_syncWorkingTree hs oldTree) fun _ s hs _ => safe_done hs _

/-! ### Rebase -/

omit [Hashing H] in
theorem known_of_mem_collectReplay {d : PatchDag H} {below visited : SortedSet H} {stack : List H}
    {p : Patch H} (h : p ∈ collectReplay d below visited stack) :
    ∃ id, d.getPatch id = some p := by
  fun_induction collectReplay d below visited stack with
  | case1 => cases h
  | case2 visited id stack _ ih => exact ih h
  | case3 visited id stack _ _ ih => exact ih h
  | case4 visited id stack _ patch hpatch ih =>
    rcases List.mem_cons.mp h with rfl | h
    · exact ⟨id, hpatch⟩
    · exact ih h

theorem safe_replayAll {patches : List (Patch H)} : ∀ {s : Repository H} {count : Nat} {tip : H},
    Valid F s → (∀ p ∈ patches, PatchOk s.dag s.blobs p) → s.dag.hasPatch tip = true →
    Safe F (replayAll patches count tip) s fun _ _ => True := by
  induction patches with
  | nil => exact fun hs _ _ => safe_done hs _
  | cons patch rest ih =>
    intro s count tip hs hall htip
    have hrest : ∀ p ∈ rest, PatchOk s.dag s.blobs p := fun p hp =>
      hall p (List.mem_cons_of_mem _ hp)
    unfold replayAll
    split
    · exact ih hs hrest htip
    · refine (safe_replayed hs (hall patch (List.mem_cons_self ..)) htip).bind
        fun again t ht hle₁ hagain => ?_
      refine (safe_of_still (still_storePatch again) ht).bind fun _ t ht hle₂ _ => ?_
      refine (safe_addPatch ht (hagain.later hle₂) [tip]).bind fun id u hu hle₃ h => ?_
      refine ih hu (fun p hp => (hrest p hp).later (hle₁.trans (hle₂.trans hle₃))) ?_
      rw [h.1]
      exact (h.2.2.hasPatch _).mpr (.inl rfl)

theorem safe_rebaseOnto (hs : Valid F s) (branch : String) {headId targetTip lcaId : H}
    (htarget : s.dag.hasPatch targetTip = true) (hlca : s.dag.hasPatch lcaId = true) :
    Safe F (rebaseOnto branch headId targetTip lcaId) s fun _ _ => True := by
  refine safe_then (safe_queryDag hs (PatchDag.asked_ancestors hlca)) fun below t ht hle =>
    .read_bind ?_
  have hpatches : ∀ p ∈ (collectReplay t.dag below .empty [headId]).insertionSort ReplayBefore,
      PatchOk t.dag t.blobs p := fun p hp => by
    obtain ⟨id, hid⟩ := known_of_mem_collectReplay ((List.mem_insertionSort _).mp hp)
    exact ht.patches id p hid
  have htarget := hle.grows.hasPatch htarget
  refine safe_then (safe_branchName ht branch) fun _ u hu hle₁ => ?_
  refine safe_then (safe_orEmpty (safe_snapshotHead hu) fun _ => trivial) fun oldTree u hu hle₂ => ?_
  refine safe_then (safe_moveHead hu branch targetTip) fun _ u hu hle₃ => ?_
  have hle := hle₁.trans (hle₂.trans hle₃)
  refine safe_then (safe_replayAll hu (fun p hp => (hpatches p hp).later hle)
    (hle.grows.hasPatch htarget)) fun r u hu _ => ?_
  refine safe_then (safe_moveHead hu branch r.2) fun _ u hu _ => ?_
  exact safe_then (safe_syncWorkingTree hu oldTree) fun _ u hu _ => safe_done hu _

theorem safe_fastForward (hs : Valid F s) (branch : String) (targetTip : H) :
    Safe F (fastForward branch targetTip) s fun _ _ => True := by
  refine safe_then (safe_branchName hs branch) fun _ s hs _ => ?_
  refine safe_then (safe_orEmpty (safe_snapshotHead hs) fun _ => trivial) fun oldTree s hs _ => ?_
  refine safe_then (safe_moveHead hs branch targetTip) fun _ s hs _ => ?_
  exact safe_then (safe_syncWorkingTree hs oldTree) fun _ s hs _ => safe_done hs _

theorem safe_rebase (hs : Valid F s) (target : BranchName) :
    Safe F (rebase target) s fun _ _ => True := by
  refine (safe_head hs).bind fun r t ht hle h => ?_
  have hhead := hle.grows.hasPatch h.1
  refine (safe_branchTarget ht target).bind fun targetTip u hu hle htarget => ?_
  have hhead := hle.grows.hasPatch hhead
  split
  · exact safe_done hu _
  refine (safe_queryDag hu (PatchDag.asked_lca hhead htarget)).bind fun lca v hv hle h => ?_
  cases lca with
  | none => exact Discipline.safe_fail hv _
  | some lcaId =>
    have hlca := hle.grows.hasPatch (PatchDag.lca_known hu.sound hhead h.1.symm)
    dsimp only
    split
    · exact safe_fastForward hv r.1 targetTip
    · exact safe_rebaseOnto hv r.1 (hle.grows.hasPatch htarget) hlca

/-! ### Merges -/

theorem safe_unchangedMerge (hs : Valid F s) :
    Safe F unchangedMerge s fun r _ => r.isClean = true ∧ r.mergePatchId = none :=
  (safe_snapshotHead hs).bind fun _ _ ht _ _ => Discipline.safe_pure ht ⟨rfl, rfl⟩

/-- What a merge is made of: HEAD, the tip of the source and the plan of the branches. -/
structure MergeInput (s : Repository H) (source : BranchName) (headBranch : String)
    (headId sourceTip : H) (headName : BranchName) (plan : MergeResult H) : Prop where
  head : (head s).1 = .ok (headBranch, headId)
  name : BranchName.new headBranch = .ok headName
  target : s.dag.getBranch source = some sourceTip
  plan : (s.dag.mergeBranches headName source).1 = .ok plan

/-- A merge finds nothing to do, or is clean, or leaves conflicts. -/
def MergeOutcome (s : Repository H) (source : BranchName) (r : MergeExecutionResult H)
    (t : Repository H) : Prop :=
  ∃ headBranch headId sourceTip headName plan,
    MergeInput s source headBranch headId sourceTip headName plan ∧
    ((r.isClean = true ∧ r.mergePatchId = none) ∨
      (plan.isClean = true ∧ ∃ id lcaId, MergedCleanly s headId sourceTip r t id lcaId) ∨
      (plan.isClean = false ∧
        ∃ lcaId, MergedInConflict s headId sourceTip headBranch source.asStr plan r t lcaId))

theorem safe_executeMerge (hs : Valid F s) (source : BranchName) :
    Safe F (executeMerge source) s fun r t => MergeOutcome s source r t := by
  refine .read_bind (.require_bind hs fun _ => ?_)
  refine ((safe_head hs).and_run (show ∀ r t, head s = (.ok r, t) → (head s).1 = .ok r from
    fun r t hrun => by rw [hrun])).bind fun r s₁ hs₁ hle₁ h₁ => ?_
  obtain ⟨headBranch, headId⟩ := r
  obtain ⟨⟨hhead, hsame⟩, hread⟩ := h₁
  refine ((safe_branchTarget hs₁ source).and_run fun _ _ => branchTarget_ok).bind
    fun sourceTip s₂ hs₂ _ h₂ => ?_
  obtain ⟨hsource, htarget, rfl⟩ := h₂
  refine (safe_branchName hs₂ headBranch).bind fun headName s₃ hs₃ _ h₃ => ?_
  obtain ⟨rfl, hname⟩ := h₃
  have hdag : s₃.dag = s.dag := by rw [hsame]
  rw [hdag] at hsource htarget
  have hasked := PatchDag.asked_mergeBranches hs₃.sound headName source
  refine (safe_updateDag (hs₃.asked hasked)).bind fun plan u hu hle h => ?_
  obtain ⟨hplan, hu'⟩ := h
  have honly : OnlyAsked s u := by
    refine ⟨?_, ?_⟩
    · rw [hu', ← hdag]
      exact hasked
    · rw [hu', hsame]
  rw [hdag] at hplan
  have hinput : MergeInput s source headBranch headId sourceTip headName plan :=
    ⟨hread, hname, htarget, hplan⟩
  have hhead' := honly.asked.grows.hasPatch hhead
  have hsource' := honly.asked.grows.hasPatch hsource
  split
  · exact (safe_unchangedMerge hu).mono fun r t _ _ h =>
      ⟨headBranch, headId, sourceTip, headName, plan, hinput, .inl h⟩
  split
  · exact (safe_unchangedMerge hu).mono fun r t _ _ h =>
      ⟨headBranch, headId, sourceTip, headName, plan, hinput, .inl h⟩
  split
  · rename_i hclean
    refine (safe_executeCleanMerge hu hhead' hsource' _ _).mono fun r t _ _ h => ?_
    obtain ⟨id, lcaId, hmerged⟩ := h
    exact ⟨headBranch, headId, sourceTip, headName, plan, hinput,
      .inr (.inl ⟨hclean, id, lcaId, hmerged.of_asked honly hs hhead hsource⟩)⟩
  · rename_i hconflicts
    refine (safe_executeConflictingMerge hu hhead' hsource' _ _ _).mono fun r t _ _ h => ?_
    obtain ⟨lcaId, hmerged⟩ := h
    exact ⟨headBranch, headId, sourceTip, headName, plan, hinput, .inr (.inr
      ⟨Bool.not_eq_true _ ▸ hconflicts, lcaId, hmerged.of_asked honly hs hhead hsource⟩)⟩

/-! ### Runs -/

theorem valid_init (author : String) (now : Nat) (files : SortedMap String Bytes) :
    Valid F (init author now files : Repository H) := by
  unfold init
  obtain ⟨root, hroot⟩ : ∃ root : Patch H, root = .new .create .empty none (.text .empty) [] author
    "Initial commit" now := ⟨_, rfl⟩
  dsimp only
  rw [← hroot]
  rcases (PatchDag.new : PatchDag H).addPatch_cases root [] with ⟨e, -, hrefused⟩ | ⟨d, hrun, hext⟩
  · exact absurd ⟨rfl, nofun⟩ hrefused
  rw [hrun]
  have hknown : d.hasPatch root.id = true := (hext.hasPatch _).mpr (.inl rfl)
  have hsound : d.Sound := hext.sound PatchDag.sound_new nofun
  have hcreate : (d.createBranch .main root.id).2 =
      { d with branches := Assoc.insert "main" root.id d.branches } := by
    have hnone : d.getBranch .main = none := by
      rw [PatchDag.getBranch, hext.branches]
      rfl
    unfold PatchDag.createBranch
    rw [hnone, hknown]
    rfl
  dsimp only
  rw [hcreate]
  refine ⟨hsound.setBranch "main" hknown, hext.cacheKnown nofun, fun id p hp => ?_, nofun, nofun,
    nofun, nofun, nofun, nofun, .main, BranchName.new_asStr .main, ?_⟩
  · change d.getPatch id = some p at hp
    rw [PatchDag.getPatch_eq, hext.view] at hp
    split at hp
    · cases hp
      rw [hroot]
      have hcreate : OperationType.create ≠ .batch := nofun
      exact new_ok hcreate nofun _ _ _ _ _
    · cases hp
  · rw [PatchDag.getBranch, Assoc.get_insert]
    rfl

def Event.isCommit : Event H → Bool
  | .commit _ => true
  | _ => false

/-- A commit that waits for a merge keeps the stored trees fresh if this holds. -/
def Event.Fresh (s : Repository H) (e : Event H) : Prop := e.isCommit = true → CommitFresh s

theorem Valid.next (hs : Valid F s) (e : Event H) (hfresh : F → e.Fresh s) :
    Valid F (s.next e) ∧ Later s (s.next e) := by
  have hstill : ∀ {t : Repository H}, (still H).le s t → Valid F t ∧ Later s t :=
    fun h => hs.of_calm (calm_of_still h)
  have hsafe : ∀ {α : Type} {m : Action H α} {Q : α → Repository H → Prop}, Safe F m s Q →
      Valid F (m s).2 ∧ Later s (m s).2 := fun h => ⟨h.inv, h.le⟩
  cases e with
  | editFile path data => exact hsafe (safe_of_contents (contents_writeFile path data) hs)
  | deleteFile path => exact hsafe (safe_of_contents (contents_removeFile path) hs)
  | tick now => exact hstill ⟨rfl, rfl, .of_eq rfl rfl⟩
  | lockBlobs locked => exact hstill ⟨rfl, rfl, .of_eq rfl rfl⟩
  | moveBranch branch target => exact hsafe (safe_moveBranch hs branch target)
  | readHead => exact hsafe (safe_head hs)
  | readHeadTree => exact hsafe (safe_snapshotHead hs)
  | add path => exact hsafe (safe_add hs path)
  | commit message => exact hsafe (safe_commit hs (fun hF => hfresh hF rfl) message)
  | createBranch branch target => exact hsafe (safe_createBranch hs branch target)
  | checkout statHit target => exact hsafe (safe_checkout hs statHit target)
  | executeMerge source => exact hsafe (safe_executeMerge hs source)
  | reset target mode => exact hsafe (safe_reset hs target mode)
  | revert id message => exact hsafe (safe_revert hs id message)
  | cherryPick id => exact hsafe (safe_cherryPick hs id)
  | squash count message => exact hsafe (safe_squash hs count message)
  | rebase target => exact hsafe (safe_rebase hs target)
  | stashPush statHit message => exact hsafe (safe_stashPush hs statHit message)
  | stashApply index => exact hsafe (safe_stashApply hs index)
  | stashPop => exact hsafe (safe_stashPop hs)
  | stashDrop index => exact hsafe (safe_stashDrop hs index)

/-- A state that some run of events leads to. -/
def Reachable (s : Repository H) : Prop :=
  ∃ author now files, Run Repository.next (fun _ _ => True) (init author now files) s

theorem Reachable.valid (h : Reachable s) : Valid False s := by
  obtain ⟨author, now, files, hrun⟩ := h
  exact hrun.invariant (Valid False) (fun s e hs _ => (hs.next e False.elim).1)
    (valid_init author now files)

theorem reachable_sample (events : List (Event Hash)) : Reachable (sample events) :=
  ⟨"ann", 0, .empty, Run.of_allows events (Run.allows_true events)⟩

/-! ### Stored trees and replays -/

theorem Valid.fresh_of_run {author : String} {now : Nat} {files : SortedMap String Bytes}
    (hrun : Run Repository.next Event.Fresh (init author now files) s) : Valid True s :=
  hrun.invariant (Valid True) (fun _ e hs hfresh => (hs.next e fun _ => hfresh).1)
    (valid_init author now files)

theorem snapshots_agree {author : String} {now : Nat} {files : SortedMap String Bytes}
    (hrun : Run Repository.next Event.Fresh (init author now files) s) {id : H}
    (hid : s.dag.hasPatch id = true) : (snapshot id s).1 = (snapshotFresh id s).1 := by
  have hs := Valid.fresh_of_run hrun
  obtain ⟨t, hstored, -⟩ := snapshot_run hs hid
  obtain ⟨d, -, hfresh⟩ := snapshotUncached_run hs hid
  have hfresh : snapshotFresh id s = (.ok (replay s.dag id), { s with dag := d }) := hfresh
  rw [hstored, hfresh, hs.treeOf_eq trivial]

/-- A path in neither tree needs no look. -/
def commitFresh (s : Repository H) : Bool :=
  match (head s).1 with
  | .error _ => true
  | .ok (_, headId) =>
    let base := commitBase s headId
    let joint := jointReplay s.dag s.pendingMergeParents
    (base.keys ++ joint.keys).all fun path =>
      decide (recordedEntry s path (base.get path) = recordedEntry s path (joint.get path))

theorem commitFresh_iff : (s.pendingMergeParents ≠ [] → commitFresh s = true) ↔ CommitFresh s := by
  refine imp_congr_right fun _ => ?_
  unfold commitFresh
  cases hhead : (head s).1 with
  | error e => exact iff_of_true rfl nofun
  | ok r =>
    obtain ⟨branch, headId⟩ := r
    simp only [List.all_eq_true, decide_eq_true_eq, List.mem_append]
    constructor
    · rintro h _ _ ⟨⟩ path
      by_cases hbase : (commitBase s headId).get path = none
      · by_cases hjoint : (jointReplay s.dag s.pendingMergeParents).get path = none
        · rw [hbase, hjoint]
        · exact h path (.inr (SortedMap.mem_keys.mpr hjoint))
      · exact h path (.inl (SortedMap.mem_keys.mpr hbase))
    · exact fun h path _ => h branch headId rfl path

instance : DecidablePred (CommitFresh (H := H)) := fun _ => decidable_of_iff _ commitFresh_iff

instance (s : Repository H) : DecidablePred (Event.Fresh s) :=
  fun e => inferInstanceAs (Decidable (e.isCommit = true → CommitFresh s))

/-! ### A merge that is not resolved as it is replayed -/

def side : BranchName := PatchDag.side

/-- Each branch adds a file of its own. -/
def apart : List (Event Hash) :=
  [.editFile "a" [49], .add "a", .commit "base", .createBranch side none,
    .editFile "b" [49], .add "b", .commit "main", .checkout (fun _ => false) (.name side),
    .editFile "c" [49], .add "c", .commit "side"]

/-- Both branches change `a`, and `main` adds `b`. -/
def forked : List (Event Hash) :=
  [.editFile "a" [49], .add "a", .commit "both", .createBranch side none,
    .editFile "a" [50], .editFile "b" [50], .add "a", .add "b", .commit "main",
    .checkout (fun _ => false) (.name side), .editFile "a" [51], .add "a", .commit "side"]

def tipOf (branch : String) (s : Repository Hash) : Hash := (Assoc.get s.dag.branches branch).getD 0

/-- The merge is resolved with both files staged. -/
theorem snapshots_agree_resolved :
    let s := sample (forked ++ [.executeMerge .main, .editFile "a" [52], .editFile "b" [50],
      .add "a", .add "b", .commit "resolved"])
    (snapshot (tipOf "side" s) s).1 = (snapshotFresh (tipOf "side" s) s).1 :=
  snapshots_agree (Run.of_allows _ (by decide +kernel)) (by decide +kernel)

/-- Only `a` is staged when the merge is resolved, so `b` is replayed and not stored. -/
def halfResolved : List (Event Hash) :=
  forked ++ [.executeMerge .main, .editFile "a" [52], .add "a", .commit "resolved"]

theorem resolved_snapshot_differs : ¬ ∀ s : Repository Hash, Reachable s →
    ∀ id, s.dag.hasPatch id = true → (snapshot id s).1 = (snapshotFresh id s).1 := by
  intro h
  have := h _ (reachable_sample halfResolved) (tipOf "side" (sample halfResolved))
  revert this
  decide +kernel

end Suture.Repo
