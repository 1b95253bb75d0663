import Mathlib.Algebra.Order.BigOperators.Group.List
import Suture.Dag.Reload
import Suture.Repo.Atomic
import Suture.Repo.Upkeep

/-!
# Opening a repository again

The DAG in memory is written down as rows, patch by patch and branch by branch. Every
operation keeps the two together, so a repository that is opened again has its history.
-/

namespace Suture.Repo
set_option autoImplicit false
open Foundation Common Patches Dag Engine Program

variable {H : Type} [LinearOrder H] [Hashing H] {F : Prop} {s t : Repository H} {α : Type}

/-! ### Patches and their rows -/

/-- What the id of a patch is the hash of. -/
def hashed (p : Patch H) : PatchForHash H :=
  ⟨p.parentIds, p.operationType, p.touchSet, p.targetPath, p.payload, p.author, p.message⟩

/-- The id is the hash of the patch. -/
def Genuine (id : H) (p : Patch H) : Prop := p.id = id ∧ Hashing.computeId (hashed p) = id

/-- The rows are those of the patches and branches in memory. The patches are ranked: the
parents that they name come before them. -/
structure Enrolled (s : Repository H) : Prop where
  levels : s.dag.Ranked
  rows : ∀ id, s.patchRows.contains id = s.dag.hasPatch id
  stored : ∀ id p, s.patchRows.get id = some p → Genuine id p
  made : ∀ id p, s.dag.getPatch id = some p → Genuine id p
  parents : ∀ id p, s.dag.getPatch id = some p →
    s.dag.parents id = p.parentIds ∨ s.dag.parents id = p.parentIds.take 1
  ranked : ∃ rank : H → Nat, ∀ id p, s.dag.getPatch id = some p →
    ∀ q ∈ p.parentIds, s.dag.hasPatch q = true ∧ rank q < rank id
  branches : ∀ name, s.branchRows.get name = Assoc.get s.dag.branches name
  named : ∀ name, s.branchRows.contains name = true → ∃ branch, BranchName.new name = .ok branch

/-- The patches and branches, in memory and in the rows. -/
def archive (s : Repository H) :
    (List (H × DagNode H) × List (String × H)) × SortedMap H (Patch H) × SortedMap String H :=
  ((s.dag.nodes, s.dag.branches), s.patchRows, s.branchRows)

theorem Enrolled.congr (hs : Enrolled s) (h : archive t = archive s) : Enrolled t := by
  obtain ⟨⟨hnodes, hbranches⟩, hrows, hnames⟩ : (t.dag.nodes = s.dag.nodes ∧
      t.dag.branches = s.dag.branches) ∧ t.patchRows = s.patchRows ∧ t.branchRows = s.branchRows := by
    simpa [archive] using h
  have hnode : t.dag.getNode = s.dag.getNode := by
    funext id
    rw [PatchDag.getNode, hnodes, PatchDag.getNode]
  have hpatch : t.dag.getPatch = s.dag.getPatch := by
    funext id
    rw [PatchDag.getPatch, hnode, PatchDag.getPatch]
  have hhas : t.dag.hasPatch = s.dag.hasPatch := by
    funext id
    rw [PatchDag.hasPatch, hnode, PatchDag.hasPatch]
  have hparents : t.dag.parents = s.dag.parents := by
    funext id
    rw [PatchDag.parents, hnode, PatchDag.parents]
  have hsame : PatchDag.SameGraph s.dag t.dag := ⟨hnodes, hbranches⟩
  obtain ⟨h₀, h₁, h₂, h₃, h₄, h₅, h₆, h₇⟩ := hs
  refine ⟨⟨hsame.graded h₀.graded, hsame.leveled h₀.leveled⟩, ?_, ?_, ?_, ?_, ?_, ?_, ?_⟩
  · rwa [hrows, hhas]
  · rwa [hrows]
  · rwa [hpatch]
  · rwa [hpatch, hparents]
  · rwa [hpatch, hhas]
  · rwa [hnames, hbranches]
  · rwa [hnames]

/-- Moves that keep the rows and the DAG together. -/
def enrolls (H : Type) [LinearOrder H] [Hashing H] : Drift (Repository H) where
  le s t := Enrolled s → Enrolled t
  refl _ := id
  trans h h' := h' ∘ h

/-! ### What writes no rows -/

theorem enrolls_of_archive {m : Action H α} (h : ∀ s, archive (m s).2 = archive s) :
    Quiet (enrolls H) m := fun s hs => hs.congr (h s)

theorem enrolls_modify {f : Repository H → Repository H} (h : ∀ s, archive (f s) = archive s) :
    Quiet (enrolls H) (modify f : Action H Unit) := quiet_modify fun s hs => hs.congr (h s)

theorem enrolls_of_contents {m : Action H α} (hm : Quiet (contents H) m) : Quiet (enrolls H) m :=
  enrolls_of_archive fun s => by
    have hkept : archive (hollow (m s).2) = archive (hollow s) := by rw [(hm s).1]
    exact hkept

theorem enrolls_of_unwritten {m : Action H α} (hm : Quiet (unwritten H) m) : Quiet (enrolls H) m :=
  enrolls_of_archive fun s => congrArg (fun l => (l.1, l.2.1)) (hm s)

theorem enrolls_queryDag {f : PatchDag H → α × PatchDag H}
    (hf : ∀ d, PatchDag.Queried d (f d).2) : Quiet (enrolls H) (queryDag f) :=
  enrolls_of_archive fun s => by
    have hsame := (hf s.dag).same
    change archive { s with dag := (f s.dag).2 } = archive s
    simp only [archive, hsame.nodes, hsame.branches]

theorem enrolls_head : Quiet (enrolls H) head := enrolls_of_archive fun s => by
  rcases head_cases s with ⟨e, hrun⟩ | ⟨branch, id, hrun⟩
  · rw [hrun]
  · rw [hrun]
    rfl

theorem enrolls_invalidateHeadCache : Quiet (enrolls H) invalidateHeadCache :=
  enrolls_modify fun _ => rfl

theorem enrolls_snapshot (id : H) : Quiet (enrolls H) (snapshot id) :=
  enrolls_of_unwritten (unwritten_snapshot id)

theorem enrolls_orEmpty {m : Action H (FileTree H)} (hm : Quiet (enrolls H) m) :
    Quiet (enrolls H) (orEmpty m) := by
  apply hm.attempt.bind
  intro r
  cases r <;> exact quiet_pure _

theorem enrolls_snapshotHead : Quiet (enrolls H) snapshotHead := by
  have htip : Quiet (enrolls H) headBranchTip := by
    apply quiet_read.bind
    intro s
    apply (quiet_ofExcept _).bind
    intro branch
    split
    · exact quiet_fail _
    · exact quiet_pure _
  have hrecompute : ∀ id, Quiet (enrolls H) (recomputeHead id) := fun id => by
    apply (enrolls_of_unwritten (unwritten_snapshotUncached id)).bind
    intro tree
    apply (enrolls_modify fun _ => by rfl).bind
    intro _
    apply (enrolls_of_unwritten (unwritten_storeFileTree id tree)).bind
    intro _
    exact (enrolls_modify fun _ => by rfl).bind fun _ => quiet_pure _
  apply htip.bind
  intro r
  apply (enrolls_modify fun _ => by rfl).bind
  intro _
  apply quiet_read.bind
  intro s
  split
  · exact quiet_pure _
  split
  · exact hrecompute _
  dsimp only
  split
  · exact (enrolls_modify fun _ => by rfl).bind fun _ => quiet_pure _
  · exact hrecompute _

theorem enrolls_branchTarget (branch : BranchName) : Quiet (enrolls H) (branchTarget branch) := by
  apply quiet_read.bind
  intro s
  split
  · exact quiet_pure _
  · exact quiet_fail _

theorem enrolls_ancestorAt (n : Nat) : ∀ id, Quiet (enrolls H) (ancestorAt id n) := by
  induction n with
  | zero => exact fun id => quiet_pure id
  | succ n ih =>
    intro id
    apply quiet_read.bind
    intro s
    split
    · exact quiet_fail _
    split
    · exact quiet_fail _
    · exact ih _

theorem enrolls_resolveRef (target : Ref H) : Quiet (enrolls H) (resolveRef target) := by
  cases target with
  | head => exact enrolls_head.bind fun _ => quiet_pure _
  | headOffset n => exact enrolls_head.bind fun r => enrolls_ancestorAt n r.2
  | hash id =>
    apply quiet_read.bind
    intro s
    split
    · exact quiet_pure _
    · exact (quiet_ofExcept _).bind fun branch => enrolls_branchTarget branch
  | name branch => exact enrolls_branchTarget branch

/-! ### Staging and stashes -/

theorem enrolls_workingSetAdd (path : String) (status : FileStatus) :
    Quiet (enrolls H) (workingSetAdd path status) :=
  (quiet_ofExcept _).bind fun _ => enrolls_modify fun _ => rfl

theorem enrolls_add (path : String) : Quiet (enrolls H) (add path) := by
  have htracked : Quiet (enrolls H) (isTracked path) := by
    apply quiet_read.bind
    intro s
    split
    · exact quiet_pure _
    · apply enrolls_head.attempt.bind
      intro r
      cases r with
      | ok r => exact quiet_read.bind fun _ => quiet_pure _
      | error e => exact quiet_pure _
  apply (quiet_ofExcept _).bind
  intro _
  apply quiet_read.bind
  intro s
  split
  · apply htracked.bind
    intro tracked
    split <;> exact enrolls_workingSetAdd path _
  · apply htracked.bind
    intro tracked
    split
    · exact enrolls_workingSetAdd path _
    · exact quiet_fail _

theorem enrolls_hasUncommittedChanges (statHit : String → Bool) :
    Quiet (enrolls H) (hasUncommittedChanges statHit) := by
  apply quiet_read.bind
  intro s
  split
  · exact quiet_pure _
  · apply enrolls_snapshotHead.attempt.bind
    intro r
    cases r with
    | ok tree => exact quiet_read.bind fun _ => quiet_pure _
    | error e => exact quiet_pure _

theorem enrolls_stashPush (statHit : String → Bool) (message : Option String) :
    Quiet (enrolls H) (stashPush statHit message) := by
  have htree : ∀ paths, Quiet (enrolls H) (stashTree paths) := fun paths => by
    apply enrolls_snapshotHead.attempt.bind
    intro r
    cases r with
    | ok tree =>
      exact (enrolls_of_contents (Quiet.mapEach (contents_stashTracked paths) _)).bind
        fun _ => quiet_pure _
    | error e => exact quiet_pure _
  have hrestore : Quiet (enrolls H) restoreHead := by
    apply enrolls_snapshotHead.attempt.bind
    intro r
    cases r with
    | ok tree => exact enrolls_of_contents (contents_restoreTree tree)
    | error e => exact quiet_pure _
  apply (enrolls_hasUncommittedChanges statHit).bind
  intro changed
  apply (quiet_require _ _).bind
  intro _
  apply quiet_read.bind
  intro s
  apply (enrolls_of_contents (Quiet.mapEach contents_stashStaged _)).bind
  intro staged
  apply (htree _).bind
  intro tracked
  apply quiet_read.bind
  intro s
  apply enrolls_head.bind
  intro r
  apply (enrolls_modify fun _ => by rfl).bind
  intro _
  exact hrestore.bind fun _ => quiet_pure _

theorem enrolls_stashApply (index : Nat) : Quiet (enrolls H) (stashApply (H := H) index) := by
  apply quiet_read.bind
  intro s
  split
  · exact quiet_fail _
  · apply enrolls_head.attempt.bind
    intro _
    apply Quiet.forEach
    intro e
    unfold unstash
    split
    · exact (enrolls_of_contents (contents_getBlob _)).bind fun _ =>
        (enrolls_of_contents (contents_writeFile _ _)).bind fun _ => enrolls_workingSetAdd _ _
    · exact (enrolls_of_contents (contents_removeFile _)).bind fun _ => enrolls_workingSetAdd _ _

theorem enrolls_stashDrop (index : Nat) : Quiet (enrolls H) (stashDrop (H := H) index) :=
  quiet_read.bind fun _ => (quiet_require _ _).bind fun _ => enrolls_modify fun _ => rfl

theorem enrolls_stashPop : Quiet (enrolls H) (stashPop (H := H)) := by
  apply quiet_read.bind
  intro s
  split
  · exact quiet_fail _
  · exact (enrolls_stashApply _).bind fun _ => enrolls_stashDrop _

theorem enrolls_syncWorkingTree (oldTree : FileTree H) :
    Quiet (enrolls H) (syncWorkingTree oldTree) :=
  enrolls_snapshotHead.bind fun newTree => enrolls_of_contents (contents_bringAlong oldTree newTree)

theorem enrolls_checkout (statHit : String → Bool) (target : Ref H) :
    Quiet (enrolls H) (checkout statHit target) := by
  have htarget : Quiet (enrolls H) (checkoutTarget target) := by
    apply quiet_read.bind
    intro s
    split
    · exact quiet_pure _
    · exact (enrolls_resolveRef target).bind fun _ => quiet_pure _
  have hstash : ∀ changed, Quiet (enrolls H) (autoStash (H := H) statHit changed) := fun changed => by
    unfold autoStash
    split
    · exact (enrolls_stashPush statHit _).bind fun _ => quiet_pure _
    · exact quiet_pure _
  have hattach : ∀ id branch, Quiet (enrolls H) (attach (H := H) id branch) := fun id branch =>
    enrolls_modify fun _ => by cases branch <;> rfl
  apply enrolls_head.attempt.bind
  intro _
  apply htarget.bind
  intro r
  apply (enrolls_hasUncommittedChanges statHit).bind
  intro changed
  apply (hstash changed).bind
  intro _
  apply (enrolls_snapshot _).bind
  intro targetTree
  apply (enrolls_orEmpty enrolls_snapshotHead).bind
  intro currentTree
  apply (enrolls_of_contents (Quiet.forEach contents_writeEntry _)).bind
  intro _
  apply (enrolls_of_contents (contents_removeMissing _ _)).bind
  intro _
  apply (hattach _ _).bind
  intro _
  apply enrolls_invalidateHeadCache.bind
  intro _
  refine Quiet.bind (Quiet.attempt ?_) fun _ => quiet_pure _
  split
  · exact enrolls_stashPop
  · exact quiet_pure _

/-! ### Branches -/

/-- A branch is moved or made in memory, and then written down. -/
theorem Enrolled.setBranch (hs : Enrolled s) (branch : BranchName) (id : H) :
    Enrolled { s with
      dag := { s.dag with branches := Assoc.insert branch.asStr id s.dag.branches }
      branchRows := s.branchRows.insert branch.asStr id } := by
  refine { hs with
    levels := ⟨hs.levels.graded, hs.levels.leveled⟩
    branches := fun name => ?_
    named := fun name hname => ?_ }
  · change (s.branchRows.insert branch.asStr id).get name =
      Assoc.get (Assoc.insert branch.asStr id s.dag.branches) name
    rw [SortedMap.get_insert, Assoc.get_insert, hs.branches]
  · change (s.branchRows.insert branch.asStr id).contains name = true at hname
    rw [SortedMap.contains_eq, SortedMap.get_insert] at hname
    split at hname
    · rename_i heq
      exact ⟨branch, by rw [heq, BranchName.new_asStr]⟩
    · exact hs.named name hname

/-- What the DAG does with a branch it refuses, or does. -/
theorem enrolls_branchCall {f : PatchDag H → Except (DagError H) Unit × PatchDag H}
    {branch : BranchName} {id : H} (hf : ∀ d, (∃ e, f d = (.error e, d)) ∨
      f d = (.ok (), { d with branches := Assoc.insert branch.asStr id d.branches })) :
    Quiet (enrolls H) (do
      updateDag f
      storeBranch branch id) := by
  intro s hs
  have hrun := updateDag_run f s
  rcases hf s.dag with ⟨e, hcall⟩ | hcall <;> rw [hcall] at hrun
  · rw [bind_of_error hrun]
    exact hs
  · rw [bind_of_ok hrun]
    exact hs.setBranch branch id

theorem enrolls_setBranch (label : String) (id : H) : Quiet (enrolls H) (setBranch label id) := by
  apply (quiet_ofExcept _).bind
  intro branch
  apply enrolls_branchCall
  intro d
  unfold PatchDag.updateBranch
  split_ifs
  · exact .inl ⟨_, rfl⟩
  · exact .inl ⟨_, rfl⟩
  · exact .inr rfl

theorem enrolls_moveHead (branch : String) (id : H) : Quiet (enrolls H) (moveHead branch id) :=
  (enrolls_setBranch branch id).bind fun _ => enrolls_invalidateHeadCache

theorem enrolls_createBranch (branch : BranchName) (target : Option (Ref H)) :
    Quiet (enrolls H) (createBranch branch target) := by
  have hcreate : ∀ id, Quiet (enrolls H) (do
      updateDag fun d => d.createBranch branch id
      storeBranch branch id) := fun id => by
    apply enrolls_branchCall
    intro d
    unfold PatchDag.createBranch
    split_ifs
    · exact .inl ⟨_, rfl⟩
    · exact .inl ⟨_, rfl⟩
    · exact .inr rfl
  cases target with
  | some target => exact (enrolls_resolveRef target).bind hcreate
  | none =>
    apply quiet_read.bind
    intro s
    split
    · exact (quiet_pure _).bind hcreate
    · exact (quiet_fail _).bind hcreate

theorem enrolls_deleteBranch (branch : BranchName) :
    Quiet (enrolls H) (deleteBranch (H := H) branch) := by
  apply enrolls_head.bind
  intro r
  apply (quiet_require _ _).bind
  intro _ s hs
  have hrun := updateDag_run (fun d => d.deleteBranch branch) s
  have hcall : s.dag.deleteBranch branch = (.error (.branchNotFound branch.asStr), s.dag) ∨
      s.dag.deleteBranch branch =
        (.ok (), { s.dag with branches := Assoc.erase branch.asStr s.dag.branches }) := by
    unfold PatchDag.deleteBranch
    split
    · exact .inl rfl
    · exact .inr rfl
  rcases hcall with hcall | hcall <;> rw [hcall] at hrun
  · rw [bind_of_error hrun]
    exact hs
  · rw [bind_of_ok hrun]
    refine { hs with
      levels := ⟨hs.levels.graded, hs.levels.leveled⟩
      branches := fun name => ?_
      named := fun name hname => ?_ }
    · change (s.branchRows.erase branch.asStr).get name =
        Assoc.get (Assoc.erase branch.asStr s.dag.branches) name
      rw [SortedMap.get_erase, Assoc.get_erase, hs.branches]
    · change (s.branchRows.erase branch.asStr).contains name = true at hname
      rw [SortedMap.contains_eq, SortedMap.get_erase] at hname
      split at hname
      · cases hname
      · exact hs.named name hname

theorem enrolls_reset (target : Ref H) (mode : ResetMode) :
    Quiet (enrolls H) (reset target mode) := by
  have hstage : ∀ e, Quiet (enrolls H) (stageDifference (H := H) e) := fun e => by
    unfold stageDifference
    split
    · exact enrolls_workingSetAdd _ _
    · exact enrolls_workingSetAdd _ _
    · exact enrolls_workingSetAdd _ _
    · exact (enrolls_workingSetAdd _ _).bind fun _ => enrolls_workingSetAdd _ _
  apply enrolls_head.attempt.bind
  intro _
  apply (enrolls_resolveRef target).bind
  intro targetId
  apply enrolls_head.bind
  intro r
  apply (enrolls_orEmpty enrolls_snapshotHead).bind
  intro oldTree
  apply (enrolls_moveHead _ _).bind
  intro _
  cases mode with
  | soft =>
    exact (enrolls_orEmpty enrolls_snapshotHead).bind fun _ =>
      (Quiet.forEach hstage _).bind fun _ => quiet_pure _
  | mixed => exact (enrolls_modify fun _ => by rfl).bind fun _ => quiet_pure _
  | hard =>
    exact (enrolls_modify fun _ => by rfl).bind fun _ =>
      (enrolls_syncWorkingTree oldTree).bind fun _ => quiet_pure _

/-! ### Patches -/

/-- The DAG takes a patch that is not in it, and its row is stored. -/
theorem Enrolled.extend (hs : Enrolled s) {d : PatchDag H} {patch : Patch H} {parentIds : List H}
    (hext : s.dag.Extends d patch parentIds) (hgenuine : Genuine patch.id patch)
    (hknown : ∀ q ∈ patch.parentIds, s.dag.hasPatch q = true)
    (hparents : parentIds = patch.parentIds ∨ parentIds = patch.parentIds.take 1) :
    Enrolled { s with dag := d, patchRows := s.patchRows.insert patch.id patch } := by
  have hget : ∀ id, d.getPatch id = if id = patch.id then some patch else s.dag.getPatch id :=
    fun id => by
      rw [PatchDag.getPatch_eq, hext.view, PatchDag.getPatch_eq]
      split <;> rfl
  obtain ⟨rank, hrank⟩ := hs.ranked
  refine { hs with
    levels := ⟨hext.graded hs.levels.graded, hext.leveled hs.levels.graded hs.levels.leveled⟩
    rows := fun id => ?_
    stored := fun id p hp => ?_
    made := fun id p hp => ?_
    parents := fun id p hp => ?_
    ranked := ⟨Function.update rank patch.id ((patch.parentIds.map rank).sum + 1),
      fun id p hp q hq => ?_⟩
    branches := fun name => ?_ }
  · change (s.patchRows.insert patch.id patch).contains id = d.hasPatch id
    rw [Bool.eq_iff_iff, hext.hasPatch, SortedMap.contains_eq, SortedMap.get_insert, ← hs.rows]
    split
    · simp [*]
    · simp [*, SortedMap.contains_eq]
  · change (s.patchRows.insert patch.id patch).get id = some p at hp
    rw [SortedMap.get_insert] at hp
    split at hp
    · rename_i hid
      cases hp
      rwa [hid]
    · exact hs.stored id p hp
  · change d.getPatch id = some p at hp
    rw [hget] at hp
    split at hp
    · rename_i hid
      cases hp
      rwa [hid]
    · exact hs.made id p hp
  · change d.getPatch id = some p at hp
    change d.parents id = p.parentIds ∨ d.parents id = p.parentIds.take 1
    rw [hget] at hp
    by_cases hid : id = patch.id
    · rw [if_pos hid] at hp
      cases hp
      rw [hid, hext.parents_new]
      exact hparents
    · rw [if_neg hid] at hp
      rw [hext.parents_of_ne hid]
      exact hs.parents id p hp
  · change d.getPatch id = some p at hp
    change d.hasPatch q = true ∧ _
    have hne : ∀ {j : H}, s.dag.hasPatch j = true → j ≠ patch.id := by
      rintro j hj rfl
      rw [hext.unknown] at hj
      cases hj
    rw [hget] at hp
    by_cases hid : id = patch.id
    · rw [if_pos hid] at hp
      cases hp
      have hq' := hknown q hq
      refine ⟨(hext.hasPatch q).mpr (.inr hq'), ?_⟩
      rw [Function.update_of_ne (hne hq'), hid, Function.update_self]
      exact Nat.lt_succ_of_le (List.le_sum_of_mem (List.mem_map_of_mem hq))
    · rw [if_neg hid] at hp
      obtain ⟨hq', hlt⟩ := hrank id p hp q hq
      refine ⟨(hext.hasPatch q).mpr (.inr hq'), ?_⟩
      rwa [Function.update_of_ne (hne hq'), Function.update_of_ne hid]
  · change s.branchRows.get name = Assoc.get d.branches name
    rw [hext.branches]
    exact hs.branches name

/-- The row of a patch that is there is stored again. -/
theorem Enrolled.overwrite (hs : Enrolled s) {patch : Patch H} (hgenuine : Genuine patch.id patch)
    (hold : s.dag.hasPatch patch.id = true) :
    Enrolled { s with patchRows := s.patchRows.insert patch.id patch } := by
  refine { hs with rows := fun id => ?_, stored := fun id p hp => ?_ }
  · change (s.patchRows.insert patch.id patch).contains id = s.dag.hasPatch id
    rw [SortedMap.contains_eq, SortedMap.get_insert]
    split
    · rename_i hid
      rw [hid, hold]
      rfl
    · exact hs.rows id
  · change (s.patchRows.insert patch.id patch).get id = some p at hp
    rw [SortedMap.get_insert] at hp
    split at hp
    · rename_i hid
      cases hp
      rwa [hid]
    · exact hs.stored id p hp

omit [LinearOrder H] in
theorem genuine_new (op : OperationType) (touchSet : TouchSet) (targetPath : Option String)
    (payload : Payload H) (parentIds : List H) (author message : String) (timestamp : Nat) :
    Genuine (Patch.new op touchSet targetPath payload parentIds author message timestamp).id
      (.new op touchSet targetPath payload parentIds author message timestamp) := ⟨rfl, rfl⟩

omit [LinearOrder H] in
theorem genuine_newBatch (changes : List (FileChange H)) (parentIds : List H)
    (author message : String) (timestamp : Nat) :
    Genuine (Patch.newBatch changes parentIds author message timestamp).id
      (.newBatch changes parentIds author message timestamp) := ⟨rfl, rfl⟩

/-- A commit adds its patch before it writes the row, so it stops early or writes both. -/
theorem enrolls_commitPatch (branch : String) (headId : H) {patch : Patch H} {parentIds : List H}
    (hgenuine : Genuine patch.id patch) (hparents : parentIds = patch.parentIds)
    (staged : List (String × FileStatus)) :
    Quiet (enrolls H) (commitPatch branch headId patch parentIds staged) := by
  have hrest : ∀ id, Quiet (enrolls H) (do
      clearWorkingSet (staged.map Prod.fst)
      setBranch branch id
      let tree ← commitTree headId id patch
      recordCommit branch id tree
      return id) := fun id => by
    have htree : Quiet (unwritten H) (commitTree headId id patch) := fun s => by
      obtain ⟨tree, t, hrun, ht⟩ := commitTree_returns headId id patch s
      rw [hrun]
      exact ht
    apply (enrolls_modify fun _ => by rfl).bind
    intro _
    apply (enrolls_setBranch branch id).bind
    intro _
    apply (enrolls_of_unwritten htree).bind
    intro tree
    exact (enrolls_of_archive fun _ => rfl).bind fun _ => quiet_pure _
  intro s hs
  unfold commitPatch
  have hrun := updateDag_run (fun d => d.addPatch patch parentIds) s
  rcases s.dag.addPatch_cases patch parentIds with ⟨e, hadd, -⟩ | ⟨d, hadd, hext⟩
  · rw [hadd] at hrun
    rw [bind_of_error hrun]
    exact hs
  · rw [hadd] at hrun
    rw [bind_of_ok hrun]
    refine hrest patch.id _ (hs.extend hext hgenuine (fun q hq => ?_) (.inl hparents))
    exact hext.parents_known q (hparents ▸ hq)

theorem enrolls_commit (message : String) : Quiet (enrolls H) (commit (H := H) message) := by
  have hchange : ∀ e, Quiet (contents H) (stageChange (H := H) e) := fun e => by
    unfold stageChange
    split
    · exact (contents_readFile _).bind fun _ => (contents_putBlob _).bind fun _ => quiet_pure _
    · exact (contents_readFile _).bind fun _ => (contents_putBlob _).bind fun _ => quiet_pure _
    · exact quiet_pure _
    · exact quiet_pure _
    · exact quiet_pure _
  apply enrolls_head.attempt.bind
  intro _
  apply quiet_read.bind
  intro s
  apply (quiet_require _ _).bind
  intro _
  apply enrolls_head.bind
  intro r
  apply (quiet_read.bind fun _ => (enrolls_modify fun _ => by rfl).bind fun _ => quiet_pure _).bind
  intro parentIds
  apply (enrolls_of_contents (Quiet.mapEach hchange _)).bind
  intro changes
  apply (quiet_require _ _).bind
  intro _
  apply quiet_read.bind
  intro s
  exact enrolls_commitPatch _ _ (genuine_newBatch _ _ _ _ _) rfl _

/-! ### Patches that are stored first -/

/-- A valid state whose rows are those of its DAG. -/
structure Kept (F : Prop) (s : Repository H) : Prop where
  valid : Valid F s
  enrolled : Enrolled s

def keeping (F : Prop) : Discipline (Repository H) where
  inv := Kept F
  le := Later
  refl := .refl
  trans := .trans

abbrev Keeps (F : Prop) (m : Action H α) (s : Repository H) (Q : α → Repository H → Prop) : Prop :=
  (keeping F).Safe m s Q

theorem keeps_of_safe {m : Action H α} {Q : α → Repository H → Prop} (hm : Safe F m s Q)
    (hquiet : Quiet (enrolls H) m) (hs : Enrolled s) : Keeps F m s Q where
  inv := ⟨hm.inv, hquiet s hs⟩
  le := hm.le
  post := hm.post

/-- The row first, then the DAG; it refuses a patch that is there, and the rows are those of
the DAG either way. -/
theorem enter_run (hs : Kept F s) {patch : Patch H} (hpatch : PatchOk s.dag s.blobs patch)
    (hgenuine : Genuine patch.id patch) {parentIds : List H}
    (hparents : parentIds = patch.parentIds ∨ parentIds = patch.parentIds.take 1) :
    ∃ r t, updateDag (fun d => d.addPatch patch parentIds) (storePatch patch s).2 = (r, t) ∧
      Kept F t ∧ Later (storePatch patch s).2 t ∧ ∀ id, r = .ok id → t.dag.hasPatch id = true := by
  have hstore := safe_of_still (still_storePatch patch) hs.valid
  have hadd := safe_addPatch hstore.inv (hpatch.later hstore.le) parentIds
  have hrun := updateDag_run (fun d => d.addPatch patch parentIds) (storePatch patch s).2
  have henrolled : Enrolled (updateDag (fun d => d.addPatch patch parentIds)
      (storePatch patch s).2).2 := by
    have hdag : (storePatch patch s).2.dag = s.dag := rfl
    rw [hrun, hdag]
    rcases s.dag.addPatch_cases patch parentIds with ⟨e, hcall, hrefused⟩ | ⟨d, hcall, hext⟩
    · rw [hcall]
      refine hs.enrolled.overwrite hgenuine ?_
      by_contra hnew
      refine hrefused ⟨by simpa using hnew, fun p hp => hpatch.parents p ?_⟩
      rcases hparents with rfl | rfl
      · exact hp
      · exact List.mem_of_mem_take hp
    · rw [hcall]
      exact hs.enrolled.extend hext hgenuine hpatch.parents hparents
  refine ⟨_, _, rfl, ⟨hadd.inv, henrolled⟩, hadd.le, fun id hid => ?_⟩
  obtain ⟨rfl, -, hext⟩ := hadd.post id hid
  exact (hext.hasPatch _).mpr (.inl rfl)

/-- A program that begins by storing a patch. -/
theorem keeps_enter (hs : Kept F s) {patch : Patch H} (hpatch : PatchOk s.dag s.blobs patch)
    (hgenuine : Genuine patch.id patch) {parentIds : List H}
    (hparents : parentIds = patch.parentIds ∨ parentIds = patch.parentIds.take 1)
    {k : H → Action H α} {Q : α → Repository H → Prop}
    (hk : ∀ id t, Kept F t → Later s t → t.dag.hasPatch id = true → Keeps F (k id) t Q) :
    Keeps F (do
      storePatch patch
      let id ← updateDag fun d => d.addPatch patch parentIds
      k id) s Q := by
  obtain ⟨r, t, hrun, ht, hle, hknown⟩ := enter_run hs hpatch hgenuine hparents
  have hstore : Later s (storePatch patch s).2 := later_of_eq rfl rfl rfl
  refine .step (show storePatch patch s = (.ok (), (storePatch patch s).2) from rfl) hstore ?_
  cases r with
  | error e => exact .step_error hrun ht hle
  | ok id => exact .step hrun hle (hk id t ht (hstore.trans hle) (hknown id rfl))

theorem keeps_then {β : Type} {m : Action H α} {k : α → Action H β} (hm : Safe F m s fun _ _ => True)
    (hquiet : Quiet (enrolls H) m) (hs : Kept F s)
    (hk : ∀ a t, Kept F t → Later s t → Keeps F (k a) t fun _ _ => True) :
    Keeps F (m >>= k) s fun _ _ => True :=
  (keeps_of_safe hm hquiet hs.enrolled).bind fun a t ht hle _ => hk a t ht hle

theorem keeps_moveHead (hs : Kept F s) (branch : String) (id : H) :
    Keeps F (moveHead branch id) s fun _ _ => True :=
  keeps_of_safe (safe_moveHead hs.valid branch id) (enrolls_moveHead branch id) hs.enrolled

theorem keeps_head (hs : Kept F s) : Keeps F head s fun r t => t.dag.hasPatch r.2 = true :=
  keeps_of_safe ((safe_head hs.valid).mono fun _ _ _ hle h => hle.grows.hasPatch h.1)
    enrolls_head hs.enrolled

theorem keeps_orEmptyHead (hs : Kept F s) :
    Keeps F (orEmpty snapshotHead) s fun _ _ => True :=
  keeps_of_safe (safe_orEmpty (safe_snapshotHead hs.valid) fun _ => trivial)
    (enrolls_orEmpty enrolls_snapshotHead) hs.enrolled

theorem keeps_syncWorkingTree (hs : Kept F s) (oldTree : FileTree H) :
    Keeps F (syncWorkingTree oldTree) s fun _ _ => True :=
  keeps_of_safe (safe_syncWorkingTree hs.valid oldTree) (enrolls_syncWorkingTree oldTree) hs.enrolled

theorem keeps_done (hs : Kept F s) (a : α) : Keeps F (pure a : Action H α) s fun _ _ => True :=
  Discipline.safe_pure hs trivial

theorem keeps_branchName (hs : Kept F s) (name : String) :
    Keeps F (branchName name) s fun _ _ => True :=
  keeps_of_safe ((safe_branchName hs.valid name).mono fun _ _ _ _ _ => trivial)
    (quiet_ofExcept _) hs.enrolled

theorem keeps_findPatch (hs : Kept F s) (id : H) : Keeps F (findPatch id) s fun p t =>
    PatchOk t.dag t.blobs p ∧ Genuine p.id p := by
  refine .read_bind ?_
  split
  · rename_i patch hpatch
    have hmade := hs.enrolled.made id patch hpatch
    exact Discipline.safe_pure hs ⟨hs.valid.patches id patch hpatch, hmade.1 ▸ hmade⟩
  · exact Discipline.safe_fail hs _

theorem keeps_replayed (hs : Kept F s) {patch : Patch H} (hpatch : PatchOk s.dag s.blobs patch)
    {parentId : H} (hparent : s.dag.hasPatch parentId = true) :
    Keeps F (replayed patch (patch.fileChanges.getD []) parentId) s fun p t =>
      PatchOk t.dag t.blobs p ∧ Genuine p.id p ∧ p.parentIds = [parentId] ∧ t = s := by
  have hquiet : Quiet (enrolls H) (replayed patch (patch.fileChanges.getD []) parentId) := by
    apply quiet_read.bind
    intro s
    split <;> exact quiet_pure _
  refine (keeps_of_safe (safe_replayed hs.valid hpatch hparent) hquiet hs.enrolled).and_run
    (fun p t hrun => ?_) |>.mono fun p t _ _ h => ⟨h.1, h.2⟩
  unfold replayed at hrun
  rw [read_bind] at hrun
  split at hrun
  · cases hrun
    exact ⟨genuine_newBatch _ _ _ _ _, rfl, rfl⟩
  · cases hrun
    exact ⟨genuine_new _ _ _ _ _ _ _ _, rfl, rfl⟩

/-! ### Reverts and squashes -/

theorem enrolls_revertPatch (patch : Patch H) (headId : H) (message : String) :
    Quiet (enrolls H) (revertPatch patch headId message) := by
  have hparent : Quiet (enrolls H) (parentTreeOf patch) := by
    unfold parentTreeOf
    split
    · exact enrolls_orEmpty (enrolls_snapshot _)
    · exact quiet_pure _
  unfold revertPatch
  split
  · unfold revertBatch
    split
    · exact quiet_fail _
    · apply (quiet_require _ _).bind
      intro _
      apply hparent.bind
      intro tree
      exact (quiet_require _ _).bind fun _ => quiet_read.bind fun _ => quiet_pure _
  · exact quiet_read.bind fun _ => quiet_pure _
  · exact quiet_read.bind fun _ => quiet_pure _
  · unfold revertDelete
    split
    · exact quiet_fail _
    · apply (enrolls_snapshot _).bind
      intro tree
      split
      · exact quiet_fail _
      · exact quiet_read.bind fun _ => quiet_pure _
  · exact quiet_fail _

/-- The inverse of a patch is made on HEAD. -/
theorem revertPatch_made {patch p : Patch H} {headId : H} {message : String}
    (h : revertPatch patch headId message s = (.ok p, t)) :
    Genuine p.id p ∧ p.parentIds = [headId] := by
  generalize hm : revertPatch patch headId message = m at h
  unfold revertPatch at hm
  split at hm
  · unfold revertBatch at hm
    split at hm
    · subst hm
      cases h
    · subst hm
      obtain ⟨_, _, -, h⟩ := bind_ok h
      obtain ⟨_, _, -, h⟩ := bind_ok h
      obtain ⟨_, _, -, h⟩ := bind_ok h
      rw [read_bind] at h
      cases h
      exact ⟨genuine_newBatch _ _ _ _ _, rfl⟩
  · subst hm
    cases h
    exact ⟨genuine_new _ _ _ _ _ _ _ _, rfl⟩
  · subst hm
    cases h
    exact ⟨genuine_new _ _ _ _ _ _ _ _, rfl⟩
  · unfold revertDelete at hm
    split at hm
    · subst hm
      cases h
    · subst hm
      obtain ⟨tree, u, -, h⟩ := bind_ok h
      cases hhash : patch.targetPath.bind tree.get with
      | none =>
        rw [hhash] at h
        cases h
      | some hash =>
        rw [hhash] at h
        cases h
        exact ⟨genuine_new _ _ _ _ _ _ _ _, rfl⟩
  · subst hm
    cases h

theorem keeps_revert (hs : Kept F s) (id : H) (message : Option String) :
    Keeps F (revert id message) s fun _ _ => True := by
  refine (keeps_findPatch hs id).bind fun patch t ht _ h => ?_
  refine (keeps_head ht).bind fun r u hu hle₁ hhead => ?_
  refine (keeps_orEmptyHead hu).bind fun oldTree v hv hle₂ _ => ?_
  have hpatch := h.1.later (hle₁.trans hle₂)
  have hhead := hle₂.grows.hasPatch hhead
  refine ((keeps_of_safe (safe_revertPatch hv.valid hpatch hhead _) (enrolls_revertPatch _ _ _)
    hv.enrolled).and_run fun _ _ => revertPatch_made).bind fun inverse w hw _ h => ?_
  refine keeps_enter hw h.1 h.2.1 (.inl h.2.2.symm) fun newId x hx _ _ => ?_
  refine (keeps_moveHead hx r.1 newId).bind fun _ y hy _ _ => ?_
  exact (keeps_syncWorkingTree hy oldTree).bind fun _ z hz _ _ => keeps_done hz _

omit [LinearOrder H] in
/-- The composition names the parents of the first patch. -/
theorem composeChain_made {patches : List (Patch H)} {author message : String} {timestamp : Nat}
    {p : Patch H} (hall : ∀ q ∈ patches, Genuine q.id q)
    (h : composeChain patches author message timestamp = some p) :
    Genuine p.id p ∧ patches.head?.map Patch.parentIds = some p.parentIds := by
  unfold composeChain at h
  split at h
  · cases h
  · cases h
    exact ⟨hall _ (List.mem_singleton_self _), rfl⟩
  · cases h
    exact ⟨genuine_new _ _ _ _ _ _ _ _, rfl⟩

theorem keeps_findPatches (hs : Kept F s) (ids : List H) :
    Keeps F (mapEach findPatch ids) s fun ps t =>
      ∀ p ∈ ps, PatchOk t.dag t.blobs p ∧ Genuine p.id p :=
  Discipline.Safe.mapEach (fun _ _ _ hle hp => ⟨hp.1.later hle, hp.2⟩)
    (fun id _ _ ht _ => keeps_findPatch ht id) hs

theorem keeps_squash (hs : Kept F s) (count : Nat) (message : String) :
    Keeps F (squash count message) s fun _ _ => True := by
  refine .require_bind hs fun _ => ?_
  refine (keeps_head hs).bind fun r t ht _ _ => .read_bind ?_
  refine .require_bind ht fun _ => ?_
  refine (keeps_findPatches ht _).bind fun toSquash u hu _ hall => ?_
  split
  · exact Discipline.safe_fail hu _
  rename_i parentId hparent
  refine .read_bind ?_
  split
  · exact Discipline.safe_fail hu _
  rename_i patch hpatch
  obtain ⟨hgenuine, hfirst⟩ := composeChain_made (fun q hq => (hall q hq).2) hpatch
  have htake : [parentId] = patch.parentIds.take 1 := by
    obtain ⟨first, hhead, hids⟩ := Option.bind_eq_some_iff.mp hparent
    rw [hhead] at hfirst
    rw [← Option.some.inj hfirst]
    obtain ⟨rest, hrest⟩ := List.head?_eq_some_iff.mp hids
    rw [hrest]
    rfl
  refine keeps_enter hu (composeChain_ok (fun q hq => (hall q hq).1) hpatch) hgenuine (.inr htake)
    fun id v hv _ _ => ?_
  exact (keeps_moveHead hv r.1 id).bind fun _ w hw _ _ => keeps_done hw _

/-! ### Cherry-picks and rebases -/

theorem keeps_cherryPick (hs : Kept F s) (id : H) : Keeps F (cherryPick id) s fun _ _ => True := by
  refine (keeps_head hs).attempt.bind fun _ t ht _ _ => ?_
  refine (keeps_findPatch ht id).bind fun patch u hu _ h => ?_
  refine .require_bind hu fun _ => ?_
  refine (keeps_head hu).bind fun r v hv hle hhead => ?_
  refine .require_bind hv fun _ => ?_
  refine (keeps_replayed hv (h.1.later hle) hhead).bind fun picked w hw hle' hpicked => ?_
  obtain ⟨hok, hgenuine, hparents, rfl⟩ := hpicked
  obtain ⟨added, x, hrun, hx, hlater, hknown⟩ := enter_run hw hok hgenuine (.inl hparents.symm)
  refine .step (show storePatch picked w = (.ok (), (storePatch picked w).2) from rfl)
    (later_of_eq rfl rfl rfl) ?_
  refine .step (t := x) (a := added) (by rw [attempt, hrun]) hlater ?_
  have hhead := hlater.grows.hasPatch (show (storePatch picked w).2.dag.hasPatch r.2 = true from hhead)
  split
  · have hquery : Safe F (queryDag fun d => d.ancestors r.2) x fun _ _ => True :=
      (safe_queryDag hx.valid (PatchDag.asked_ancestors hhead)).mono fun _ _ _ _ _ => trivial
    refine keeps_then hquery (enrolls_queryDag fun d => d.queried_ancestors r.2) hx
      fun _ y hy _ => ?_
    exact .require_bind hy fun _ => keeps_done hy _
  · exact Discipline.safe_fail hx _
  · rename_i newId
    refine (keeps_branchName hx _).bind fun _ y hy _ _ => ?_
    refine (keeps_orEmptyHead hy).bind fun oldTree y hy _ _ => ?_
    refine (keeps_moveHead hy r.1 newId).bind fun _ y hy _ _ => ?_
    exact (keeps_syncWorkingTree hy oldTree).bind fun _ z hz _ _ => keeps_done hz _

theorem keeps_replayAll {patches : List (Patch H)} : ∀ {s : Repository H} {count : Nat} {tip : H},
    Kept F s → (∀ p ∈ patches, PatchOk s.dag s.blobs p) → s.dag.hasPatch tip = true →
    Keeps F (replayAll patches count tip) s fun _ _ => True := by
  induction patches with
  | nil => exact fun hs _ _ => keeps_done hs _
  | cons patch rest ih =>
    intro s count tip hs hall htip
    obtain ⟨hpatch, hrest⟩ := List.forall_mem_cons.mp hall
    unfold replayAll
    split
    · exact ih hs hrest htip
    · refine (keeps_replayed hs hpatch htip).bind fun again t ht _ h => ?_
      obtain ⟨hok, hgenuine, hparents, rfl⟩ := h
      refine keeps_enter ht hok hgenuine (.inl hparents.symm) fun id u hu hle hid => ?_
      exact ih hu (fun p hp => (hrest p hp).later hle) hid

theorem keeps_rebaseOnto (hs : Kept F s) (branch : String) {headId targetTip lcaId : H}
    (htarget : s.dag.hasPatch targetTip = true) (hlca : s.dag.hasPatch lcaId = true) :
    Keeps F (rebaseOnto branch headId targetTip lcaId) s fun _ _ => True := by
  have hquery : Safe F (queryDag fun d => d.ancestors lcaId) s fun _ _ => True :=
    (safe_queryDag hs.valid (PatchDag.asked_ancestors hlca)).mono fun _ _ _ _ _ => trivial
  refine keeps_then hquery (enrolls_queryDag fun d => d.queried_ancestors lcaId) hs
    fun below t ht hle => .read_bind ?_
  have hpatches : ∀ p ∈ (collectReplay t.dag below .empty [headId]).insertionSort ReplayBefore,
      PatchOk t.dag t.blobs p := fun p hp => by
    obtain ⟨id, hid⟩ := known_of_mem_collectReplay ((List.mem_insertionSort _).mp hp)
    exact ht.valid.patches id p hid
  have htarget := hle.grows.hasPatch htarget
  refine (keeps_branchName ht branch).bind fun _ u hu hle₁ _ => ?_
  refine (keeps_orEmptyHead hu).bind fun oldTree u hu hle₂ _ => ?_
  refine (keeps_moveHead hu branch targetTip).bind fun _ u hu hle₃ _ => ?_
  have hle := hle₁.trans (hle₂.trans hle₃)
  refine (keeps_replayAll hu (fun p hp => (hpatches p hp).later hle)
    (hle.grows.hasPatch htarget)).bind fun r u hu _ _ => ?_
  refine (keeps_moveHead hu branch r.2).bind fun _ u hu _ _ => ?_
  exact (keeps_syncWorkingTree hu oldTree).bind fun _ u hu _ _ => keeps_done hu _

theorem keeps_rebase (hs : Kept F s) (target : BranchName) :
    Keeps F (rebase target) s fun _ _ => True := by
  refine (keeps_head hs).bind fun r t ht _ hhead => ?_
  refine (keeps_of_safe (safe_branchTarget ht.valid target) (enrolls_branchTarget target)
    ht.enrolled).bind fun targetTip u hu hle htarget => ?_
  have hhead := hle.grows.hasPatch hhead
  split
  · exact keeps_done hu _
  refine (keeps_of_safe (safe_queryDag hu.valid (PatchDag.asked_lca hhead htarget))
    (enrolls_queryDag fun d => d.queried_lca r.2 targetTip) hu.enrolled).bind
    fun lca v hv hle h => ?_
  cases lca with
  | none => exact Discipline.safe_fail hv _
  | some lcaId =>
    have hlca := hle.grows.hasPatch (PatchDag.lca_known hu.valid.sound hhead h.1.symm)
    dsimp only
    split
    · refine (keeps_branchName hv r.1).bind fun _ w hw _ _ => ?_
      refine (keeps_orEmptyHead hw).bind fun oldTree w hw _ _ => ?_
      refine (keeps_moveHead hw r.1 targetTip).bind fun _ w hw _ _ => ?_
      exact (keeps_syncWorkingTree hw oldTree).bind fun _ w hw _ _ => keeps_done hw _
    · exact keeps_rebaseOnto hv r.1 (hle.grows.hasPatch htarget) hlca

/-! ### Merges -/

theorem enrolls_findLca (headId sourceTip : H) : Quiet (enrolls H) (findLca headId sourceTip) := by
  apply (enrolls_queryDag fun d => d.queried_lca headId sourceTip).bind
  intro lca
  cases lca with
  | none => exact quiet_fail _
  | some lcaId => exact quiet_pure _

theorem enrolls_applySourcePatch (conflicts : List (Conflict H)) (p : MergeProgress H) (id : H) :
    Quiet (enrolls H) (applySourcePatch conflicts p id) := by
  apply quiet_read.bind
  intro s
  split
  · exact quiet_pure _
  split_ifs
  · exact quiet_pure _
  · exact quiet_pure _
  split
  · exact quiet_pure _
  split
  · split
    · exact (enrolls_of_contents (contents_writeFile _ _)).bind fun _ => quiet_pure _
    · exact quiet_pure _
  · split
    · exact (enrolls_of_contents (contents_writeFile _ _)).bind fun _ => quiet_pure _
    · exact quiet_pure _
  · exact (enrolls_of_contents (contents_removeFile _)).bind fun _ => quiet_pure _
  · exact quiet_pure _

theorem enrolls_executeConflictingMerge (headId sourceTip : H) (sourceBranch headBranch : String)
    (plan : MergeResult H) :
    Quiet (enrolls H) (executeConflictingMerge headId sourceTip sourceBranch headBranch plan) := by
  apply (enrolls_snapshot _).bind
  intro headTree
  apply (enrolls_snapshot _).bind
  intro sourceTree
  apply (enrolls_findLca _ _).bind
  intro lcaId
  apply (enrolls_orEmpty (enrolls_snapshot _)).bind
  intro lcaTree
  apply quiet_read.bind
  intro s
  apply (Quiet.foldEach (enrolls_applySourcePatch plan.conflicts) _ _).bind
  intro p
  apply (enrolls_of_contents (contents_mergeFiles _ _ _ p)).bind
  intro p
  apply (enrolls_of_contents (Quiet.foldEach (contents_markConflict _) p _)).bind
  intro p
  exact (enrolls_modify fun _ => by rfl).bind fun _ => quiet_pure _

theorem keeps_snapshot (hs : Kept F s) {id : H} (hid : s.dag.hasPatch id = true) :
    Keeps F (snapshot id) s fun _ _ => True :=
  keeps_of_safe ((safe_snapshot hs.valid hid).mono fun _ _ _ _ _ => trivial) (enrolls_snapshot id)
    hs.enrolled

theorem keeps_executeCleanMerge (hs : Kept F s) {headId sourceTip : H}
    (hhead : s.dag.hasPatch headId = true) (hsource : s.dag.hasPatch sourceTip = true)
    (headBranch : String) (plan : MergeResult H) :
    Keeps F (executeCleanMerge headId sourceTip headBranch plan) s fun _ _ => True := by
  refine (keeps_snapshot hs hhead).bind fun headTree t ht hle _ => ?_
  have hknown := hle.grows.hasPatch hsource
  refine (keeps_snapshot ht hknown).bind fun sourceTree u hu hle₁ _ => ?_
  have hle := hle.trans hle₁
  have hknown := hle.grows.hasPatch hhead
  refine (keeps_of_safe (safe_findLca hu.valid hknown (hle.grows.hasPatch hsource))
    (enrolls_findLca headId sourceTip) hu.enrolled).bind fun lcaId v hv hle₁ hlca => ?_
  have hle := hle.trans hle₁
  have htree := keeps_of_safe (safe_orEmpty (Q := fun _ _ => True)
    ((safe_snapshot hv.valid hlca.2.1).mono fun _ _ _ _ _ => trivial) fun _ => trivial)
    (enrolls_orEmpty (enrolls_snapshot lcaId)) hv.enrolled
  refine htree.bind fun lcaTree w hw hle₁ _ => ?_
  have hle := hle.trans hle₁
  have hmerge := keeps_of_safe (safe_of_contents (Quiet.foldEach contents_mergeEntry headTree
    (diffTrees lcaTree sourceTree)) hw.valid)
    (enrolls_of_contents (Quiet.foldEach contents_mergeEntry _ _)) hw.enrolled
  refine hmerge.bind fun mergedTree x hx hle₁ _ => .read_bind ?_
  have hle := hle.trans hle₁
  have hparents : ∀ q ∈ [headId, sourceTip], x.dag.hasPatch q = true := by
    simpa using ⟨hle.grows.hasPatch hhead, hle.grows.hasPatch hsource⟩
  have hop : OperationType.merge ≠ .batch := nofun
  refine keeps_enter hx (new_ok hop hparents _ _ _ _ _) (genuine_new _ _ _ _ _ _ _ _) (.inl rfl)
    fun id y hy _ _ => ?_
  exact (keeps_moveHead hy headBranch id).bind fun _ z hz _ _ => keeps_done hz _

theorem keeps_executeMerge (hs : Kept F s) (source : BranchName) :
    Keeps F (executeMerge source) s fun _ _ => True := by
  refine .read_bind (.require_bind hs fun _ => ?_)
  refine (keeps_head hs).bind fun r t ht _ hhead => ?_
  refine (keeps_of_safe (safe_branchTarget ht.valid source) (enrolls_branchTarget source)
    ht.enrolled).bind fun sourceTip u hu hle hsource => ?_
  have hhead := hle.grows.hasPatch hhead
  have hname := keeps_of_safe (safe_branchName hu.valid r.1) (quiet_ofExcept _) hu.enrolled
  refine hname.bind fun headName v hv _ h => ?_
  obtain ⟨rfl, -⟩ := h
  have hplan := safe_updateDag (f := fun d => d.mergeBranches headName source)
    (hv.valid.asked (PatchDag.asked_mergeBranches hv.valid.sound headName source))
  have hquiet : Quiet (enrolls H) (updateDag fun d => d.mergeBranches headName source) :=
    enrolls_of_archive fun s => by
      have hsame := (s.dag.queried_mergeBranches headName source).same
      rw [updateDag_run]
      simp only [archive, hsame.nodes, hsame.branches]
  refine (keeps_of_safe hplan hquiet hv.enrolled).bind fun plan w hw hle _ => ?_
  have hhead := hle.grows.hasPatch hhead
  have hsource := hle.grows.hasPatch hsource
  have hunchanged : Keeps F unchangedMerge w fun _ _ => True :=
    (keeps_of_safe (safe_snapshotHead hw.valid) enrolls_snapshotHead hw.enrolled).bind
      fun tree x hx _ _ => keeps_done hx _
  split
  · exact hunchanged
  split
  · exact hunchanged
  split
  · exact keeps_executeCleanMerge hw hhead hsource _ _
  · exact keeps_of_safe ((safe_executeConflictingMerge hw.valid hhead hsource _ _ _).mono
      fun _ _ _ _ _ => trivial) (enrolls_executeConflictingMerge _ _ _ _ _) hw.enrolled

/-! ### Tags and rewritten trees -/

theorem enrolls_createTag (name : String) (target : Option (Ref H)) :
    Quiet (enrolls H) (createTag name target) := by
  have htarget : Quiet (enrolls H) (tagTarget target) := by
    unfold tagTarget
    split
    · exact enrolls_resolveRef _
    · split
      · exact enrolls_branchTarget _
      · exact quiet_pure _
    · exact enrolls_resolveRef _
  exact htarget.bind fun _ => enrolls_modify fun _ => rfl

theorem enrolls_deleteTag (name : String) : Quiet (enrolls H) (deleteTag (H := H) name) :=
  quiet_read.bind fun _ => (quiet_require _ _).bind fun _ => enrolls_modify fun _ => rfl

theorem enrolls_rewriteHeadTree : Quiet (enrolls H) (rewriteHeadTree (H := H)) := by
  have hentry : ∀ (tree : FileTree H) e, Quiet (contents H) (rewriteEntry tree e) := fun tree e => by
    have hwrite : Quiet (contents H) (do
        if (← read).files.contains e.1 then
          let hash ← putBlob (← readFile e.1)
          return tree.insert e.1 hash
        else return tree : Action H (FileTree H)) := by
      apply quiet_read.bind
      intro s
      split
      · exact (contents_readFile _).bind fun _ => (contents_putBlob _).bind fun _ => quiet_pure _
      · exact quiet_pure _
    unfold rewriteEntry
    split
    · exact hwrite
    · exact hwrite
    · exact quiet_pure _
    · exact quiet_pure _
    · exact quiet_pure _
  apply enrolls_head.bind
  intro r
  apply quiet_read.bind
  intro s
  apply (enrolls_of_unwritten (unwritten_snapshotUncached _)).bind
  intro parentTree
  apply (enrolls_of_contents (Quiet.foldEach hentry _ _)).bind
  intro tree
  apply (enrolls_modify fun _ => by rfl).bind
  intro _
  apply (enrolls_of_unwritten (unwritten_storeFileTree _ _)).bind
  intro _
  exact (enrolls_modify fun _ => by rfl).bind fun _ => enrolls_invalidateHeadCache

/-! ### Runs -/

/-- A branch is moved in memory alone. -/
def Upkeep.movesInMemory : Upkeep H → Bool
  | .event (.moveBranch _ _) => true
  | _ => false

theorem Kept.next (hs : Kept False s) {e : Event H} (he : (Upkeep.event e).movesInMemory = false) :
    Enrolled (s.next e) := by
  have henrolled := hs.enrolled
  cases e with
  | moveBranch branch target => cases he
  | editFile path data => exact henrolled.congr rfl
  | deleteFile path => exact henrolled.congr rfl
  | tick now => exact henrolled.congr rfl
  | lockBlobs locked => exact henrolled.congr rfl
  | readHead => exact enrolls_head s henrolled
  | readHeadTree => exact enrolls_snapshotHead s henrolled
  | add path => exact enrolls_add path s henrolled
  | commit message => exact enrolls_commit message s henrolled
  | createBranch branch target => exact enrolls_createBranch branch target s henrolled
  | checkout statHit target => exact enrolls_checkout statHit target s henrolled
  | executeMerge source => exact (keeps_executeMerge hs source).inv.enrolled
  | reset target mode => exact enrolls_reset target mode s henrolled
  | revert id message => exact (keeps_revert hs id message).inv.enrolled
  | cherryPick id => exact (keeps_cherryPick hs id).inv.enrolled
  | squash count message => exact (keeps_squash hs count message).inv.enrolled
  | rebase target => exact (keeps_rebase hs target).inv.enrolled
  | stashPush statHit message => exact enrolls_stashPush statHit message s henrolled
  | stashApply index => exact enrolls_stashApply index s henrolled
  | stashPop => exact enrolls_stashPop s henrolled
  | stashDrop index => exact enrolls_stashDrop index s henrolled

theorem Kept.upkeep (hs : Kept False s) {e : Upkeep H} (he : e.KeepsHead s)
    (hwritten : e.movesInMemory = false) : Kept False (s.upkeep e) := by
  refine ⟨hs.valid.upkeep he, ?_⟩
  cases e with
  | event e => exact hs.next hwritten
  | createTag name target => exact enrolls_createTag name target s hs.enrolled
  | deleteTag name => exact enrolls_deleteTag name s hs.enrolled
  | deleteBranch branch => exact enrolls_deleteBranch branch s hs.enrolled
  | rewriteHeadTree => exact enrolls_rewriteHeadTree s hs.enrolled

theorem kept_init (author : String) (now : Nat) (files : SortedMap String Bytes) :
    Kept False (init author now files : Repository H) := by
  refine ⟨valid_init author now files, ?_⟩
  obtain ⟨root, hroot⟩ : ∃ root : Patch H, root = .new .create .empty none (.text .empty) [] author
    "Initial commit" now := ⟨_, rfl⟩
  unfold init
  dsimp only
  rw [← hroot]
  have hempty : Enrolled ({ (init author now files : Repository H) with
      dag := .new, patchRows := .empty, branchRows := .empty }) :=
    ⟨PatchDag.ranked_new, fun _ => rfl, nofun, nofun, nofun, ⟨fun _ => 0, nofun⟩, fun _ => rfl, nofun⟩
  rcases (PatchDag.new : PatchDag H).addPatch_cases root [] with ⟨e, -, hrefused⟩ | ⟨d, hrun, hext⟩
  · exact absurd ⟨rfl, nofun⟩ hrefused
  have hgenuine : Genuine root.id root := by
    rw [hroot]
    exact genuine_new _ _ _ _ _ _ _ _
  have hids : root.parentIds = [] := by rw [hroot]; rfl
  have hadded := hempty.extend hext hgenuine (by rw [hids]; nofun) (.inl hids.symm)
  have hcreate : (d.createBranch .main root.id).2 =
      { d with branches := Assoc.insert "main" root.id d.branches } := by
    have hnone : d.getBranch .main = none := by
      rw [PatchDag.getBranch, hext.branches]
      rfl
    have hknown : d.hasPatch root.id = true := (hext.hasPatch _).mpr (.inl rfl)
    unfold PatchDag.createBranch
    rw [hnone, hknown]
    rfl
  rw [hrun]
  dsimp only
  rw [hcreate]
  exact (hadded.setBranch .main root.id).congr rfl

/-! ### Opening it again -/

omit [Hashing H] in
theorem sorted_rows (rows : SortedMap H (Patch H)) :
    Assoc.Sorted (rows.entries.map fun e => (e.1, PatchRow.ofPatch e.2)) :=
  List.pairwise_map.mpr rows.sorted

/-- The rows, as the metadata store keeps them. -/
def metadata (s : Repository H) : MetadataStore H where
  patches := ⟨s.patchRows.entries.map fun e => (e.1, .ofPatch e.2), sorted_rows s.patchRows⟩
  branches := s.branchRows

theorem getPatch_metadata (hs : Enrolled s) (id : H) :
    (metadata s).getPatch id = s.patchRows.get id := by
  have hget : ∀ l : List (H × Patch H), (∀ e ∈ l, e.2.id = e.1) →
      (Assoc.get (l.map fun e => (e.1, PatchRow.ofPatch e.2)) id).map (PatchRow.toPatch id) =
        Assoc.get l id := fun l hl => by
    induction l with
    | nil => rfl
    | cons e l ih =>
      obtain ⟨hid, hl⟩ := List.forall_mem_cons.mp hl
      rw [List.map_cons, Assoc.get_cons, Assoc.get_cons]
      split
      · rename_i heq
        rw [Option.map_some, heq, ← hid, PatchRow.toPatch_ofPatch]
      · exact ih hl
  exact hget _ fun e he => (hs.stored e.1 e.2 (SortedMap.mem_entries.mp he)).1

/-- The patches in memory and in the rows. -/
def held (s : Repository H) : List (Patch H) :=
  s.dag.nodes.map (fun e => e.2.patch) ++ s.patchRows.entries.map Prod.snd

/-- No two of the patches that are different have one hash. -/
def CollisionFree (s : Repository H) : Prop := ∀ p ∈ held s, ∀ q ∈ held s,
  Hashing.computeId (hashed p) = Hashing.computeId (hashed q) → hashed p = hashed q

instance : DecidablePred (CollisionFree (H := H)) := fun _ => inferInstanceAs (Decidable (∀ _ ∈ _, _))

/-- Without collisions a row is the patch in memory, but for its time. -/
theorem Enrolled.hashed_eq (hs : Enrolled s) (hfree : CollisionFree s) (id : H) :
    (s.patchRows.get id).map hashed = (s.dag.getPatch id).map hashed := by
  have hrows := hs.rows id
  rw [SortedMap.contains_eq, PatchDag.hasPatch] at hrows
  cases hrow : s.patchRows.get id with
  | none =>
    rw [hrow] at hrows
    cases hnode : s.dag.getNode id with
    | none => rw [PatchDag.getPatch, hnode]; rfl
    | some node =>
      rw [hnode] at hrows
      cases hrows
  | some q =>
    rw [hrow] at hrows
    obtain ⟨node, hnode⟩ := Option.isSome_iff_exists.mp hrows.symm
    have hpatch : s.dag.getPatch id = some node.patch := by rw [PatchDag.getPatch, hnode]; rfl
    have hmem : node.patch ∈ held s := List.mem_append.mpr
      (.inl (List.mem_map.mpr ⟨(id, node), Assoc.mem_of_get hnode, rfl⟩))
    have hmem' : q ∈ held s := List.mem_append.mpr
      (.inr (List.mem_map.mpr ⟨(id, q), SortedMap.mem_entries.mpr hrow, rfl⟩))
    rw [hpatch, Option.map_some, Option.map_some]
    exact congrArg some (hfree q hmem' node.patch hmem
      ((hs.stored id q hrow).2.trans (hs.made id _ hpatch).2.symm))

/-- A row has a patch in memory, which names the same parents. -/
theorem Enrolled.made_of_row (hs : Enrolled s) (hfree : CollisionFree s) {id : H} {q : Patch H}
    (hq : s.patchRows.get id = some q) :
    ∃ p, s.dag.getPatch id = some p ∧ hashed p = hashed q ∧ p.parentIds = q.parentIds := by
  have heq := hs.hashed_eq hfree id
  rw [hq, Option.map_some] at heq
  obtain ⟨p, hp, hhash⟩ := Option.map_eq_some_iff.mp heq.symm
  exact ⟨p, hp, hhash, congrArg PatchForHash.parentIds hhash⟩

theorem Enrolled.acyclic (hs : Enrolled s) (hfree : CollisionFree s) : Acyclic s.patchRows := by
  obtain ⟨rank, hrank⟩ := hs.ranked
  intro id hid
  refine lt_irrefl (rank id)
    (Relation.transGen_minimal (fun c p h => show rank c > rank p from ?_) id id hid)
  obtain ⟨-, q, hq, hp⟩ := h
  obtain ⟨patch, hpatch, -, hids⟩ := hs.made_of_row hfree hq
  exact (hrank c patch hpatch p (hids ▸ hp)).2

/-- The same patches but for their times, on the parents that they name, and the same branches.
Where no patch was put on fewer parents than it names, each has the same tree. -/
structure Reopens (s : Repository H) (d : PatchDag H) : Prop where
  patches : ∀ id, (d.getPatch id).map hashed = (s.dag.getPatch id).map hashed
  parents : ∀ id p, s.dag.getPatch id = some p → d.parents id = p.parentIds ∧
    (s.dag.parents id = p.parentIds ∨ s.dag.parents id = p.parentIds.take 1)
  branches : ∀ name, d.getBranch name = s.dag.getBranch name
  trees : (∀ id p, s.dag.getPatch id = some p → s.dag.parents id = p.parentIds) →
    ∀ id, s.dag.hasPatch id = true → replay d id = replay s.dag id

section Graphs
variable {d d' : PatchDag H}

omit [Hashing H] in
theorem reaches_of_parents (hd : d.Graded)
    (hparents : ∀ id, d.hasPatch id = true → d'.parents id = d.parents id) {x y : H}
    (hx : d.hasPatch x = true) (h : d.Reaches x y) : d'.Reaches x y := by
  induction h with
  | single hstep =>
    refine .single ?_
    change _ ∈ d'.parents x
    rw [hparents x hx]
    exact hstep
  | tail hxb hstep ih =>
    refine ih.tail ?_
    change _ ∈ d'.parents _
    rw [hparents _ (hd.reaches hxb).1]
    exact hstep

omit [Hashing H] in
/-- The parents alone say what the chain of a patch is. -/
theorem chain_of_parents (hd : d.Ranked) (hd' : d'.Ranked)
    (hknown : ∀ id, d'.hasPatch id = d.hasPatch id)
    (hparents : ∀ id, d.hasPatch id = true → d'.parents id = d.parents id) {id : H}
    (hid : d.hasPatch id = true) : d'.chain id = d.chain id := by
  have hgen : ∀ id, d.hasPatch id = true → d'.generation id = d.generation id :=
    hd.generation_eq hd' fun id hid => ⟨hparents id hid, fun p hp => (hd.graded id p hp).1⟩
  have hhistory : ∀ p, d'.History id p ↔ d.History id p := fun p => by
    refine or_congr_right ⟨reaches_of_parents hd'.graded (fun j hj => ?_) ?_,
      reaches_of_parents hd.graded hparents hid⟩
    · exact (hparents j (hknown j ▸ hj)).symm
    · rw [hknown, hid]
  refine lex_ext ?_ (d.chain_sorted id) fun p => by
    rw [PatchDag.mem_chain, PatchDag.mem_chain, hhistory]
  refine (d'.chain_sorted id).imp_of_mem fun {x y} hx hy hlt => ?_
  rw [PatchDag.mem_chain, hhistory] at hx hy
  unfold LexLt at hlt ⊢
  rwa [hgen x (hd.graded.history_known hx hid), hgen y (hd.graded.history_known hy hid)] at hlt

omit [LinearOrder H] in
theorem patched_hashed {p q : Patch H} (h : hashed p = hashed q) (tree : FileTree H) :
    patched tree p = patched tree q := by
  obtain ⟨-, hop, -, -, hpayload, -, -⟩ := PatchForHash.mk.inj h
  rw [patched, patched, Patch.fileChanges, Patch.fileChanges, hop, hpayload]

/-- A replay does not read the times of the patches. -/
theorem foldl_patched_hashed (h : ∀ id, (d'.getPatch id).map hashed = (d.getPatch id).map hashed)
    (ids : List H) : ∀ tree : FileTree H,
    (ids.filterMap d'.getPatch).foldl patched tree = (ids.filterMap d.getPatch).foldl patched tree := by
  induction ids with
  | nil => exact fun _ => rfl
  | cons id ids ih =>
    intro tree
    have hid := h id
    rw [List.filterMap_cons, List.filterMap_cons]
    cases hq : d'.getPatch id with
    | none =>
      cases hp : d.getPatch id with
      | none => exact ih tree
      | some p =>
        rw [hq, hp] at hid
        cases hid
    | some q =>
      obtain ⟨p, hp, hhash⟩ := Option.map_eq_some_iff.mp (hid.symm.trans (by rw [hq]; rfl))
      rw [hp]
      dsimp only
      rw [List.foldl_cons, List.foldl_cons, patched_hashed hhash.symm, ih]

end Graphs

/-- What the rows say: the patches as they were stored, each on the parents that it names. -/
structure ReadBack (s : Repository H) (d : PatchDag H) : Prop where
  ranked : d.Ranked
  known : ∀ id, d.hasPatch id = s.dag.hasPatch id
  patches : ∀ id, d.getPatch id = s.patchRows.get id
  parents : ∀ id p, s.dag.getPatch id = some p → d.parents id = p.parentIds
  branches : ∀ name, d.getBranch name = s.dag.getBranch name

theorem Kept.readBack (order : IterationOrder (H × Patch H)) (h : Kept F s)
    (hfree : CollisionFree s) : ReadBack s (reload order (metadata s)) := by
  obtain ⟨hvalid, hs⟩ := h
  obtain ⟨processed, hall, hloaded⟩ := reloadPatches_loaded order (getPatch_metadata hs)
    (hs.acyclic hfree)
  have hnames : ∀ name target, Assoc.get s.branchRows.entries name = some target →
      ∃ branch, BranchName.new name = .ok branch := fun name target hget =>
    hs.named name (Option.isSome_iff_exists.mpr ⟨target, hget⟩)
  obtain ⟨branches, hreload, hget⟩ := foldl_reloadBranch s.branchRows.sorted hnames
    (reloadPatches order (metadata s))
  change reload order (metadata s) = _ at hreload
  rw [hreload]
  refine ⟨⟨hloaded.ranked.graded, hloaded.ranked.leveled⟩, fun id => ?_, fun id => ?_,
    fun id p hp => ?_, fun name => ?_⟩
  · rw [← hs.rows, Bool.eq_iff_iff, ← hall]
    exact hloaded.hasPatch id
  · refine (hloaded.getPatch id).trans ?_
    split
    · rfl
    · rename_i hnew
      rw [hall, SortedMap.contains_eq, Option.isSome_iff_ne_none, not_not] at hnew
      exact hnew.symm
  · have hrow := hs.hashed_eq hfree id
    rw [hp, Option.map_some] at hrow
    obtain ⟨q, hq, hhash⟩ := Option.map_eq_some_iff.mp hrow
    have hids : q.parentIds = p.parentIds := congrArg PatchForHash.parentIds hhash
    obtain ⟨rank, hrank⟩ := hs.ranked
    refine (hloaded.parents id ((hall id).mpr (Option.isSome_iff_exists.mpr ⟨q, hq⟩)) q hq).trans ?_
    rw [storedParents, hids]
    exact List.filter_eq_self.mpr fun r hr => (hs.rows r).trans (hrank id p hp r hr).1
  · have htarget : ∀ target, s.dag.getBranch name = some target → s.dag.hasPatch target = true :=
      fun target => hvalid.sound.targets _ _
    rw [PatchDag.getBranch, hget, hloaded.branches]
    change (s.branchRows.get name.asStr).filter _ = Assoc.get s.dag.branches name.asStr
    rw [hs.branches]
    cases hbranch : Assoc.get s.dag.branches name.asStr with
    | none => rfl
    | some target =>
      refine Option.filter_eq_some_iff.mpr ⟨rfl, ?_⟩
      rw [hloaded.hasPatch target, hall, hs.rows]
      exact htarget target hbranch

/-- A merge with a commit on top, made one patch. -/
def squashed : List (Upkeep Hash) :=
  apart.map .event ++ [.event (.executeMerge .main), .createTag "v1" none,
    .event (.editFile "a" [50]), .event (.add "a"), .event (.commit "more"), .event (.squash 2 "both"),
    .rewriteHeadTree]

/-- In memory a squash drops the second parent that the merge had. -/
example :
    let s := squashed.foldl Repository.upkeep (init "ann" 0 .empty)
    (s.dag.parents (tipOf "side" s)).length = 1 ∧
      (s.dag.getPatch (tipOf "side" s)).map (fun p => p.parentIds.length) = some 2 := by
  decide +kernel

end Suture.Repo
