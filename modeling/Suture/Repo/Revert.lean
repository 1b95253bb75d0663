import Suture.Repo.OnHead
import Suture.Repo.SoftReset

/-!
# Reverts

A revert deletes what the patch created or modified, and modifies what it deleted. So a path
that the patch changes is missing afterwards, whatever the parent of the patch had there.
-/

namespace Suture.Repo
set_option autoImplicit false
open Foundation Common Patches Dag Engine Program

variable {H : Type} [Hashing H]

/-! ### The inverse changes -/

section Inverse
variable {parentTree tree : FileTree H} {changes inverse : List (FileChange H)} {path : String}

/-- Changes that a revert can be asked to undo. -/
def Plain (changes : List (FileChange H)) : Prop :=
  ∀ c ∈ changes, c.op = .create ∨ c.op = .modify ∨ c.op = .delete

omit [Hashing H] in
theorem revertChange_eq_some {c r : FileChange H} (h : revertChange parentTree c = some r) :
    r.path = c.path ∧ ((r.op = .delete ∧ c.op ≠ .delete) ∨ (r.op = .modify ∧ c.op = .delete)) := by
  unfold revertChange at h
  cases hop : c.op with
  | create | modify =>
    rw [hop] at h
    cases h
    exact ⟨rfl, .inl ⟨rfl, nofun⟩⟩
  | delete =>
    rw [hop] at h
    obtain ⟨hash, -, rfl⟩ := Option.map_eq_some_iff.mp h
    exact ⟨rfl, .inr ⟨rfl, rfl⟩⟩
  | move | metadata | merge | identity | batch =>
    rw [hop] at h
    cases h

theorem changePaths_of_ne_move {c : FileChange H} (h : c.op ≠ .move) : changePaths c = [c.path] := by
  rw [changePaths, if_neg h]

omit [Hashing H] in
theorem Plain.ne_move (h : Plain changes) {c : FileChange H} (hc : c ∈ changes) : c.op ≠ .move := by
  rcases h c hc with hop | hop | hop <;> rw [hop] <;> exact nofun

theorem Plain.mem_paths (h : Plain changes) :
    path ∈ changes.flatMap changePaths ↔ ∃ c ∈ changes, c.path = path := by
  rw [List.mem_flatMap]
  refine exists_congr fun c => and_congr_right fun hc => ?_
  rw [changePaths_of_ne_move (h.ne_move hc), List.mem_singleton, eq_comm]

/-- What the changes only delete has no entry. -/
theorem get_deleted (h : Plain changes) (hdelete : ∀ c ∈ changes, c.path = path → c.op = .delete)
    (hmem : ∃ c ∈ changes, c.path = path) (tree : FileTree H) :
    (changes.foldl applySingleOp tree).get path = none := by
  rw [get_foldl_applySingleOp fun c hc => h.ne_move hc]
  obtain ⟨c, hc, hpath⟩ := hmem
  exact foldl_entryAfter_deleted (fun c hc hpath => .inr (hdelete c hc hpath))
    ⟨c, hc, hpath, hdelete c hc hpath⟩ _

/-- The inverse changes give a path back its entry: it is missing in the parent tree exactly if
it is missing already, or the patch puts something there. -/
def GivesBack (changes : List (FileChange H)) (parentTree tree : FileTree H) (path : String) : Prop :=
  parentTree.get path = none ↔
    tree.get path = none ∨ ∃ c ∈ changes, c.path = path ∧ c.op ≠ .delete

variable (hinverse : inverse.Perm (changes.filterMap (revertChange parentTree)))
include hinverse

omit [Hashing H] in
theorem mem_inverse {r : FileChange H} (hr : r ∈ inverse) :
    ∃ c ∈ changes, revertChange parentTree c = some r :=
  List.mem_filterMap.mp (hinverse.mem_iff.mp hr)

omit [Hashing H] in
theorem inverse_op {r : FileChange H} (hr : r ∈ inverse) : r.op = .modify ∨ r.op = .delete := by
  obtain ⟨c, -, hrevert⟩ := mem_inverse hinverse hr
  exact (revertChange_eq_some hrevert).2.symm.imp And.left And.left

omit [Hashing H] in
theorem inverse_ne_move {r : FileChange H} (hr : r ∈ inverse) : r.op ≠ .move := by
  rcases inverse_op hinverse hr with hop | hop <;> rw [hop] <;> exact nofun

theorem get_inverse_other (hpath : ∀ r ∈ inverse, r.path ≠ path) (tree : FileTree H) :
    (inverse.foldl applySingleOp tree).get path = tree.get path := by
  apply get_foldl_of_notMem
  intro r hr
  rw [changePaths_of_ne_move (inverse_ne_move hinverse hr), List.mem_singleton]
  exact (hpath r hr).symm

omit [Hashing H] in
theorem inverse_path {r : FileChange H} (hr : r ∈ inverse) (hpath : ∀ c ∈ changes, c.path ≠ path) :
    r.path ≠ path := by
  obtain ⟨c, hc, hrevert⟩ := mem_inverse hinverse hr
  rw [(revertChange_eq_some hrevert).1]
  exact hpath c hc

/-- A path that the patch creates or modifies has no entry after the inverse changes. -/
theorem get_inverse_put (h : Plain changes) (hput : ∃ c ∈ changes, c.path = path ∧ c.op ≠ .delete)
    (tree : FileTree H) : (inverse.foldl applySingleOp tree).get path = none := by
  obtain ⟨c, hc, hpath, hne⟩ := hput
  have hrevert : revertChange parentTree c = some ⟨.delete, c.path, .empty⟩ := by
    unfold revertChange
    rcases h c hc with hop | hop | hop
    · rw [hop]
    · rw [hop]
    · exact absurd hop hne
  have hdeletes : ⟨.delete, c.path, .empty⟩ ∈ inverse :=
    hinverse.mem_iff.mpr (List.mem_filterMap.mpr ⟨c, hc, hrevert⟩)
  rw [get_foldl_applySingleOp fun r hr => inverse_ne_move hinverse hr]
  exact foldl_entryAfter_deleted (fun r hr _ => inverse_op hinverse hr) ⟨_, hdeletes, hpath, rfl⟩ _

/-- What the patch only deletes is modified to its entry in the parent tree. -/
theorem get_inverse_deleted (hdelete : ∀ c ∈ changes, c.path = path → c.op = .delete)
    (hmem : ∃ c ∈ changes, c.path = path) (tree : FileTree H) :
    (inverse.foldl applySingleOp tree).get path =
      (tree.get path).map fun old => (parentTree.get path).getD old := by
  have hrevert : ∀ c ∈ changes, c.path = path → revertChange parentTree c =
      (parentTree.get path).map fun hash => ⟨.modify, path, .hex hash⟩ := by
    intro c hc hpath
    unfold revertChange
    rw [hdelete c hc hpath, hpath]
  have hfrom : ∀ r ∈ inverse, r.path = path → ∃ c ∈ changes, c.path = path ∧
      revertChange parentTree c = some r := by
    intro r hr hpath
    obtain ⟨c, hc, hback⟩ := mem_inverse hinverse hr
    exact ⟨c, hc, (revertChange_eq_some hback).1.symm.trans hpath, hback⟩
  cases hparent : parentTree.get path with
  | none =>
    have hnone : ∀ r ∈ inverse, r.path ≠ path := by
      intro r hr hpath
      obtain ⟨c, hc, hcpath, hback⟩ := hfrom r hr hpath
      rw [hrevert c hc hcpath, hparent] at hback
      cases hback
    rw [get_inverse_other hinverse hnone]
    simp
  | some hash =>
    have hmodify : ∀ r ∈ inverse, r.path = path → r.op = .modify ∧ r.payload = .hex hash := by
      intro r hr hpath
      obtain ⟨c, hc, hcpath, hback⟩ := hfrom r hr hpath
      rw [hrevert c hc hcpath, hparent] at hback
      cases hback
      exact ⟨rfl, rfl⟩
    rw [get_foldl_applySingleOp fun r hr => inverse_ne_move hinverse hr]
    cases tree.get path with
    | none => exact foldl_entryAfter_none fun r hr _ => inverse_op hinverse hr
    | some old =>
      obtain ⟨c, hc, hpath⟩ := hmem
      refine foldl_entryAfter_modified hmodify (.inr ?_)
      have hback := hrevert c hc hpath
      rw [hparent] at hback
      exact ⟨_, hinverse.mem_iff.mpr (List.mem_filterMap.mpr ⟨c, hc, hback⟩), rfl⟩

theorem get_inverse_iff (h : Plain changes) (hmem : ∃ c ∈ changes, c.path = path)
    (tree : FileTree H) : (inverse.foldl applySingleOp tree).get path = parentTree.get path ↔
      GivesBack changes parentTree tree path := by
  unfold GivesBack
  by_cases hput : ∃ c ∈ changes, c.path = path ∧ c.op ≠ .delete
  · rw [get_inverse_put hinverse h hput, eq_comm]
    exact ⟨fun hnone => iff_of_true hnone (.inr hput), fun hback => hback.mpr (.inr hput)⟩
  · have hdelete : ∀ c ∈ changes, c.path = path → c.op = .delete := by
      intro c hc hpath
      by_contra hop
      exact hput ⟨c, hc, hpath, hop⟩
    rw [get_inverse_deleted hinverse hdelete hmem, or_iff_left hput]
    cases parentTree.get path <;> cases tree.get path <;> simp

end Inverse

/-- The inverse of a patch makes the inverse changes. -/
structure Inverts (patch : Patch H) (parentTree : FileTree H) (inverse : Patch H) : Prop where
  kind : patch.operationType = .batch ∨ patch.operationType = .create ∨
    patch.operationType = .modify ∨ patch.operationType = .delete
  changes : (changesOf inverse).Perm ((changesOf patch).filterMap (revertChange parentTree))

theorem changesOf_newBatch (changes : List (FileChange H)) (parentIds : List H)
    (author message : String) (timestamp : Nat) :
    (changesOf (.newBatch changes parentIds author message timestamp)).Perm changes := by
  have hbatch := Patch.newBatch_isBatchOf changes parentIds author message timestamp
  unfold changesOf
  rw [if_pos hbatch.operation, hbatch.fileChanges]
  exact List.perm_insertionSort _ _

/-- A single operation is the change of its target. -/
theorem changesOf_single {patch : Patch H} (h : patch.operationType = .create ∨
    patch.operationType = .modify ∨ patch.operationType = .delete) :
    changesOf patch = (patch.targetPath.map fun path =>
      ⟨patch.operationType, path, payloadText patch.payload⟩).toList := by
  have hbatch : patch.operationType ≠ .batch := by
    rcases h with h | h | h <;> rw [h] <;> exact nofun
  have hmerge : ¬ (patch.isIdentity || decide (patch.operationType = .merge)) = true := by
    unfold Patch.isIdentity
    rcases h with h | h | h <;> rw [h] <;> simp
  unfold changesOf
  rw [if_neg hbatch, if_neg hmerge]
  cases patch.targetPath <;> rfl

variable [LinearOrder H] {d : PatchDag H} {s t u : Repository H}

/-- What is read to invert a patch. -/
def ReadsParent (s : Repository H) (patch : Patch H) (headId parentId : H) (inverse : Patch H)
    (t : Repository H) : Prop :=
  Peeked s t ∧ inverse.parentIds = [headId] ∧
    ∀ tree, treeAt s parentId = .ok tree → Inverts patch tree inverse

theorem revertBatch_run (hs : Loaded s) {patch inverse : Patch H} (hop : patch.operationType = .batch)
    {parentId headId : H} (hparent : patch.parentIds.head? = some parentId)
    (hid : s.dag.hasPatch parentId = true) {message : String}
    (h : revertBatch patch headId message s = (.ok inverse, t)) :
    ReadsParent s patch headId parentId inverse t := by
  obtain ⟨t', hrun, hpeeked⟩ := snapshot_built hs hid
  have hread : parentTreeOf patch s = (.ok ((treeAt s parentId).toOption.getD .empty), t') := by
    unfold parentTreeOf orEmpty
    rw [hparent]
    refine (attempt_bind hrun _).trans ?_
    cases treeAt s parentId <;> rfl
  unfold revertBatch at h
  cases hchanges : patch.fileChanges with
  | none =>
    rw [hchanges] at h
    cases h
  | some changes =>
    rw [hchanges] at h
    dsimp only at h
    by_cases hempty : changes ≠ []
    swap
    · rw [require_bind_of_not hempty] at h
      cases h
    rw [require_bind hempty, bind_of_ok hread] at h
    by_cases hnone : changes.filterMap
      (revertChange ((treeAt s parentId).toOption.getD .empty)) ≠ []
    swap
    · rw [require_bind_of_not hnone] at h
      cases h
    rw [require_bind hnone, read_bind] at h
    cases h
    refine ⟨hpeeked, rfl, fun tree htree => ⟨.inl hop, ?_⟩⟩
    have hpatch : changesOf patch = changes := by
      unfold changesOf
      rw [if_pos hop, hchanges]
      rfl
    rw [htree, hpatch]
    exact changesOf_newBatch _ _ _ _ _

theorem revertDelete_run (hs : Loaded s) {patch inverse : Patch H}
    (hop : patch.operationType = .delete) {parentId headId : H}
    (hparent : patch.parentIds.head? = some parentId) (hid : s.dag.hasPatch parentId = true)
    {message : String} (h : revertDelete patch headId message s = (.ok inverse, t)) :
    ReadsParent s patch headId parentId inverse t := by
  unfold revertDelete at h
  rw [hparent] at h
  obtain ⟨t', hrun, hpeeked⟩ := snapshot_built hs hid
  dsimp only at h
  obtain ⟨tree, s₁, htree, h⟩ := bind_ok h
  rw [hrun] at htree
  obtain ⟨hvalue, rfl⟩ := Prod.mk.inj htree
  have hold : treeAt s parentId = .ok tree := by
    cases hat : treeAt s parentId with
    | error e =>
      rw [hat] at hvalue
      cases hvalue
    | ok tree' =>
      rw [hat] at hvalue
      exact congrArg _ (Except.ok.inj hvalue)
  cases htarget : patch.targetPath with
  | none =>
    rw [htarget] at h
    cases h
  | some path =>
    rw [htarget] at h
    cases hget : tree.get path with
    | none =>
      rw [Option.bind_some, hget] at h
      cases h
    | some hash =>
      rw [Option.bind_some, hget] at h
      cases h
      refine ⟨hpeeked, rfl, fun tree' htree' => ⟨.inr (.inr (.inr hop)), ?_⟩⟩
      rw [hold] at htree'
      cases htree'
      have hchange : revertChange tree ⟨.delete, path, payloadText patch.payload⟩ =
          some ⟨.modify, path, .hex hash⟩ := by
        unfold revertChange
        rw [hget]
        rfl
      rw [changesOf_single (.inr (.inr hop)), changesOf_single (.inr (.inl rfl)), hop]
      rw [htarget]
      change [_].Perm ([_].filterMap _)
      rw [List.filterMap_cons_some hchange]
      exact .refl _

theorem revertPatch_run (hs : Loaded s) {patch inverse : Patch H} {parentId headId : H}
    (hparent : patch.parentIds.head? = some parentId) (hid : s.dag.hasPatch parentId = true)
    {message : String} (h : revertPatch patch headId message s = (.ok inverse, t)) :
    ReadsParent s patch headId parentId inverse t := by
  have hsame : Peeked s s := ⟨rfl, .refl _, fun _ _ => rfl, hs⟩
  -- the inverse of a creation or a modification deletes its target
  have hdelete : ∀ {author : String} {timestamp : Nat} (tree : FileTree H),
      patch.operationType = .create ∨ patch.operationType = .modify →
        Inverts patch tree (.new .delete patch.touchSet patch.targetPath (.text .empty)
          [headId] author message timestamp) := by
    intro author timestamp tree hop
    have hkind : patch.operationType = .create ∨ patch.operationType = .modify ∨
        patch.operationType = .delete := hop.imp_right .inl
    refine ⟨.inr hkind, ?_⟩
    rw [changesOf_single hkind, changesOf_single (.inr (.inr rfl))]
    change ((Option.map _ patch.targetPath).toList).Perm _
    cases patch.targetPath with
    | none => exact .refl _
    | some path =>
      have hchange : revertChange tree ⟨patch.operationType, path, payloadText patch.payload⟩ =
          some ⟨.delete, path, .empty⟩ := by
        unfold revertChange
        rcases hop with hop | hop <;> rw [hop]
      change [_].Perm ([_].filterMap _)
      rw [List.filterMap_cons_some hchange]
      exact .refl _
  unfold revertPatch at h
  cases hop : patch.operationType with
  | batch =>
    rw [hop] at h
    exact revertBatch_run hs hop hparent hid h
  | create =>
    rw [hop] at h
    cases h
    exact ⟨hsame, rfl, fun tree _ => hdelete tree (.inl hop)⟩
  | modify =>
    rw [hop] at h
    cases h
    exact ⟨hsame, rfl, fun tree _ => hdelete tree (.inr hop)⟩
  | delete =>
    rw [hop] at h
    exact revertDelete_run hs hop hparent hid h
  | move | metadata | merge | identity =>
    rw [hop] at h
    cases h

/-! ### The revert -/

/-- What is on HEAD after a commit on top of it: the new patch if its branch is the one that
HEAD names, and otherwise what was there. -/
structure OnHead (s : Repository H) (branch : String) (headId : H) (patch : Patch H)
    (new : FileTree H) (t : Repository H) : Prop where
  known : s.dag.hasPatch headId = true
  shown : (snapshotHead t).1 = .ok new
  named : branch = s.headBranch.getD "main" →
    ∃ base, built s.dag headId = .ok base ∧ applyPatch base patch = .ok new
  other : branch ≠ s.headBranch.getD "main" →
    ∃ id, headBranchTip s = (.ok (s.headBranch.getD "main", id), s) ∧ treeAt s id = .ok new
  trees : ∀ id, s.dag.hasPatch id = true → t.dag.hasPatch id = true ∧ treeAt t id = treeAt s id
  loaded : Loaded t

theorem commitOnHead_run (hs : Loaded s) {branch : String} {headId id : H} {oldTree : FileTree H}
    {patch : Patch H} (hparents : patch.parentIds = [headId])
    (h : commitOnHead branch headId oldTree patch s = (.ok id, t)) :
    ∃ new, OnHead s branch headId patch new t := by
  unfold commitOnHead at h
  have hstore : storePatch patch s = (.ok (), { s with
      patchRows := s.patchRows.insert patch.id patch }) := rfl
  rw [bind_of_ok hstore] at h
  obtain ⟨newId, s₂, hadd, h⟩ := bind_ok h
  rw [updateDag_run] at hadd
  dsimp only at hadd
  rcases s.dag.addPatch_cases patch [headId] with ⟨e, hrun, -⟩ | ⟨d', hrun, hext⟩
  · rw [hrun] at hadd
    cases hadd
  rw [hrun] at hadd
  obtain ⟨hnew, hs₂⟩ := Prod.mk.inj hadd
  obtain rfl : patch.id = newId := Except.ok.inj hnew
  obtain ⟨_, s₃, hmove, h⟩ := bind_ok h
  obtain ⟨_, s₄, hsync, h⟩ := bind_ok h
  cases h
  have hloaded₂ : Loaded s₂ := by
    have hloaded := hs.extends hparents hext
    rw [← hs₂]
    exact { hloaded with }
  have hnew₂ : s₂.dag.hasPatch patch.id = true := by
    rw [← hs₂]
    exact (hext.hasPatch _).mpr (.inl rfl)
  have hs₃ := moveHead_run hnew₂ hmove
  have hloaded₃ : Loaded s₃ := hloaded₂.moveHead hnew₂ hmove
  have hdag₃ : s₃.dag = { d' with branches := Assoc.insert branch patch.id d'.branches } := by
    rw [hs₃, ← hs₂]
    rfl
  have hgrows₃ : s.dag.Grows s₃.dag := by
    rw [hdag₃]
    exact hext.grows
  have hbranch₃ : s₃.headBranch = s.headBranch := by
    rw [hs₃, ← hs₂]
    rfl
  have hrows₃ : s₃.fileTrees = s.fileTrees := by
    rw [hs₃, ← hs₂]
    rfl
  have htrees₃ : ∀ j, s.dag.hasPatch j = true → treeAt s₃ j = treeAt s j := by
    intro j hj
    unfold treeAt loadFileTree
    rw [hrows₃, built_of_grows hgrows₃ hs.sound.graded hj]
  obtain ⟨tip, new, hshows⟩ :=
    syncWorkingTree_shows hloaded₃ (by rw [hs₃]) (by rw [hs₃]) hsync
  obtain ⟨-, -, name, hname, hget⟩ := headBranchTip_ok hshows.tip
  rw [hbranch₃] at hname
  have htip : (if s.headBranch.getD "main" = branch then some patch.id
      else s.dag.getBranch name) = some tip := by
    have hstr := BranchName.asStr_of_new hname
    have htarget := hget
    rw [hdag₃] at htarget
    change Assoc.get (Assoc.insert branch patch.id d'.branches) name.asStr = _ at htarget
    rw [Assoc.get_insert, hstr, hext.branches, ← hstr] at htarget
    rw [← hstr]
    exact htarget
  refine ⟨new, hext.parents_known headId (List.mem_singleton_self _), hshows.shown, ?_, ?_, ?_,
    hshows.loaded⟩
  · intro hnamed
    rw [if_pos hnamed.symm] at htip
    cases htip
    have hrow : loadFileTree s₃ patch.id = none := by
      unfold loadFileTree
      rw [hrows₃]
      cases hrow : s.fileTrees.get patch.id with
      | none => rfl
      | some tree =>
        have hold := hs.rowsKnown _ _ hrow
        rw [hext.unknown] at hold
        cases hold
    have hbuilt : built d' patch.id = .ok new := by
      have htree := hshows.tree
      unfold treeAt at htree
      rw [hrow, hdag₃] at htree
      have hgrows : d'.Grows { d' with branches := Assoc.insert branch patch.id d'.branches } :=
        fun _ _ => rfl
      have hknown : d'.hasPatch patch.id = true := (hext.hasPatch _).mpr (.inl rfl)
      rwa [← built_of_grows hgrows (hext.graded hs.sound.graded) hknown]
    exact built_new hext hs.sound.graded hbuilt
  · intro hother
    rw [if_neg (Ne.symm hother)] at htip
    refine ⟨tip, headBranchTip_eq hname htip, ?_⟩
    rw [← htrees₃ tip (hs.sound.targets _ _ htip), hshows.tree]
  · intro j hj
    obtain ⟨hknown, htree⟩ := hshows.trees j (hgrows₃.hasPatch hj)
    exact ⟨hknown, htree.trans (htrees₃ j hj)⟩

/-! ### What a revert gives back -/

/-- The paths that a patch changes and that no later patch below HEAD changes. -/
def ChangedLast (d : PatchDag H) (headId id : H) (patch : Patch H) (path : String) : Prop :=
  path ∈ changedPaths patch ∧ ∀ q, d.History headId q → d.History q id → q ≠ id →
    ∀ later, d.getPatch q = some later → path ∉ changedPaths later

/-- The tree has the entries of the parent tree where the patch was the last to change them,
and is the parent tree if the patch is HEAD. -/
def Undone (d : PatchDag H) (headId id : H) (patch : Patch H) (parentTree tree : FileTree H) : Prop :=
  (∀ path, ChangedLast d headId id patch path → tree.get path = parentTree.get path) ∧
    (headId = id → tree = parentTree)

/-- The trees of the parent and of HEAD on which the inverse of the patch undoes it. -/
def Undoable (d : PatchDag H) (headId id : H) (patch : Patch H) (parentTree tree : FileTree H) :
    Prop :=
  (∀ path, ChangedLast d headId id patch path → GivesBack (changesOf patch) parentTree tree path) ∧
    (headId = id → ∀ path, path ∉ changedPaths patch → tree.get path = parentTree.get path)

theorem changedLast_head (hd : d.Graded) {id : H} {patch : Patch H} {path : String}
    (h : path ∈ changedPaths patch) : ChangedLast d id id patch path := by
  refine ⟨h, ?_⟩
  intro q hq hid hne
  exact absurd (hd.eq_of_history hq (hd.history_le hid)) hne

/-- The inverse of HEAD undoes it exactly if it only adds files. -/
theorem undoable_head_iff (hd : d.Graded) {id : H} {patch : Patch H} {parentTree tree : FileTree H}
    (hplain : Plain (changesOf patch)) (h : applyPatch parentTree patch = .ok tree) :
    Undoable d id id patch parentTree tree ↔
      ∀ path ∈ changedPaths patch, parentTree.get path = none := by
  have htree := applyPatch_changes h
  have hmissing : ∀ path, path ∈ changedPaths patch →
      (GivesBack (changesOf patch) parentTree tree path ↔ parentTree.get path = none) := by
    intro path hpath
    have hgone : tree.get path = none ∨ ∃ c ∈ changesOf patch, c.path = path ∧ c.op ≠ .delete := by
      by_cases hput : ∃ c ∈ changesOf patch, c.path = path ∧ c.op ≠ .delete
      · exact .inr hput
      · left
        rw [htree]
        apply get_deleted hplain _ (hplain.mem_paths.mp hpath)
        intro c hc hcpath
        by_contra hop
        exact hput ⟨c, hc, hcpath, hop⟩
    exact ⟨fun hback => hback.mpr hgone, fun hnone => iff_of_true hnone hgone⟩
  constructor
  · intro ⟨hlast, _⟩ path hpath
    exact (hmissing path hpath).mp (hlast path (changedLast_head hd hpath))
  · intro hnone
    refine ⟨fun path hpath => (hmissing path hpath.1).mpr (hnone path hpath.1), fun _ path hpath => ?_⟩
    rw [htree]
    exact get_foldl_of_notMem (fun c hc hmem => hpath (List.mem_flatMap.mpr ⟨c, hc, hmem⟩)) parentTree

theorem undone_iff (hd : d.Graded) {headId id : H} {patch inverse : Patch H}
    {parentTree tree new : FileTree H} (hinverse : Inverts patch parentTree inverse)
    (hplain : patch.operationType = .batch → Plain (changesOf patch))
    (h : applyPatch tree inverse = .ok new) :
    Undone d headId id patch parentTree new ↔ Undoable d headId id patch parentTree tree := by
  have hplain : Plain (changesOf patch) := by
    rcases hinverse.kind with hop | hop
    · exact hplain hop
    · intro c hc
      rw [changesOf_single hop, Option.mem_toList, Option.map_eq_some_iff] at hc
      obtain ⟨path, -, rfl⟩ := hc
      exact hop
  have hnew := applyPatch_changes h
  have hat : ∀ path, path ∈ changedPaths patch →
      (new.get path = parentTree.get path ↔ GivesBack (changesOf patch) parentTree tree path) := by
    intro path hpath
    rw [hnew]
    exact get_inverse_iff hinverse.changes hplain (hplain.mem_paths.mp hpath) tree
  have hrest : ∀ path, path ∉ changedPaths patch → new.get path = tree.get path := by
    intro path hpath
    rw [hnew]
    apply get_inverse_other hinverse.changes
    intro r hr
    apply inverse_path hinverse.changes hr
    intro c hc heq
    exact hpath (hplain.mem_paths.mpr ⟨c, hc, heq⟩)
  constructor
  · intro ⟨hlast, hhead⟩
    constructor
    · intro path hpath
      exact (hat path hpath.1).mp (hlast path hpath)
    · intro heq path hpath
      rw [← hrest path hpath, hhead heq]
  · intro ⟨hlast, hhead⟩
    constructor
    · intro path hpath
      exact (hat path hpath.1).mpr (hlast path hpath)
    · rintro rfl
      apply SortedMap.ext
      intro path
      by_cases hpath : path ∈ changedPaths patch
      · exact (hat path hpath).mpr (hlast path (changedLast_head hd hpath))
      · rw [hrest path hpath, hhead rfl path hpath]

/-- When a revert undoes a patch. A revert that moves a branch other than the one that HEAD names
leaves the tree of HEAD. -/
def RevertUndoes (s : Repository H) (branch : String) (headId id parentId : H) (patch : Patch H) :
    Prop :=
  ∃ parentTree tree, treeAt (snapshotHead s).2 parentId = .ok parentTree ∧
    if branch = s.headBranch.getD "main" then
      built s.dag headId = .ok tree ∧ Undoable s.dag headId id patch parentTree tree
    else
      (∃ tip, headBranchTip s = (.ok (s.headBranch.getD "main", tip), s) ∧
        treeAt (snapshotHead s).2 tip = .ok tree) ∧ Undone s.dag headId id patch parentTree tree

/-- What a revert reads, and the commit that it makes. -/
structure Reverted (s : Repository H) (branch : String) (headId parentId : H) (patch : Patch H)
    (s₁ : Repository H) (inverse : Patch H) (new : FileTree H) (t : Repository H) : Prop where
  asked : PatchDag.Asked s.dag s₁.dag
  loaded : Loaded s₁
  headBranch : s₁.headBranch = s.headBranch
  trees : ∀ id, s.dag.hasPatch id = true → treeAt s₁ id = treeAt (snapshotHead s).2 id
  inverts : ∀ tree, treeAt (snapshotHead s).2 parentId = .ok tree → Inverts patch tree inverse
  onHead : OnHead s₁ branch headId inverse new t

theorem revert_run (hs : Loaded s) {branch : String} {headId id parentId rid : H} {patch : Patch H}
    {message : Option String} (hpatch : s.dag.getPatch id = some patch)
    (hparent : patch.parentIds.head? = some parentId) (hhead : (head s).1 = .ok (branch, headId))
    (h : revert id message s = (.ok rid, t)) :
    ∃ s₁ inverse new, Reverted s branch headId parentId patch s₁ inverse new t := by
  have hfind : findPatch id s = (.ok patch, s) := by
    unfold findPatch
    rw [read_bind, hpatch]
    rfl
  have hparentId : s.dag.hasPatch parentId = true :=
    hs.parentsKnown id patch hpatch parentId (List.mem_of_head? hparent)
  unfold revert at h
  rw [bind_of_ok hfind] at h
  obtain ⟨r, s₁, hhead₁, h⟩ := bind_ok h
  rw [hhead₁] at hhead
  cases hhead
  have hs₁ := head_state hhead₁
  have hloaded₁ : Loaded s₁ := by
    rw [hs₁]
    exact { hs with }
  have htrees₁ : treeAt (snapshotHead s₁).2 = treeAt (snapshotHead s).2 := treeAt_snapshotHead hs₁
  obtain ⟨old, s₂, hold, h⟩ := bind_ok h
  have hs₂ : s₂ = (snapshotHead s₁).2 := orEmpty_state hold
  have hreads : Reads s₁ s₂ := by
    rw [hs₂]
    exact snapshotHead_reads hloaded₁
  have hasked₂ : PatchDag.Asked s.dag s₂.dag := by
    have hasked := hreads.asked
    rwa [show s₁.dag = s.dag by rw [hs₁]] at hasked
  have htrees₂ : treeAt s₂ = treeAt (snapshotHead s).2 := by rw [hs₂, htrees₁]
  obtain ⟨inverse, s₃, hinverse, h⟩ := bind_ok h
  obtain ⟨hpeeked, hparents, hinverts⟩ :=
    revertPatch_run hreads.loaded hparent ((hasked₂.hasPatch _).trans hparentId) hinverse
  rw [htrees₂] at hinverts
  obtain ⟨new, honHead⟩ := commitOnHead_run hpeeked.loaded hparents h
  refine ⟨s₃, inverse, new, hasked₂.trans hpeeked.asked, hpeeked.loaded, ?_, ?_, hinverts, honHead⟩
  · rw [hpeeked.same]
    exact hreads.headBranch.trans (by rw [hs₁])
  · intro j hj
    rw [hpeeked.trees j ((hasked₂.hasPatch j).trans hj), htrees₂]

/-- A revert undoes a patch exactly if its inverse does on the trees that are read, which it
never does where the patch changed or deleted a file that was there. -/
theorem revert_undoes_iff (hs : Loaded s) {branch : String} {headId id parentId rid : H}
    {patch : Patch H} {message : Option String} (hpatch : s.dag.getPatch id = some patch)
    (hparent : patch.parentIds.head? = some parentId)
    (hplain : patch.operationType = .batch → Plain (changesOf patch))
    (hhead : (head s).1 = .ok (branch, headId)) (h : revert id message s = (.ok rid, t)) :
    (∃ new parentTree, (snapshotHead t).1 = .ok new ∧ (snapshot parentId t).1 = .ok parentTree ∧
      Undone s.dag headId id patch parentTree new) ↔
        RevertUndoes s branch headId id parentId patch := by
  obtain ⟨s₁, inverse, new, hrun⟩ := revert_run hs hpatch hparent hhead h
  have honHead := hrun.onHead
  have hparentId : s.dag.hasPatch parentId = true :=
    hs.parentsKnown id patch hpatch parentId (List.mem_of_head? hparent)
  have hparentId₁ : s₁.dag.hasPatch parentId = true := (hrun.asked.hasPatch _).trans hparentId
  obtain ⟨hparentId', htree⟩ := honHead.trees parentId hparentId₁
  obtain ⟨u, hsnapshot, -⟩ := snapshot_built honHead.loaded hparentId'
  have hread : ∀ tree, (snapshot parentId t).1 = .ok tree ↔
      treeAt (snapshotHead s).2 parentId = .ok tree := by
    intro tree
    rw [hsnapshot, htree, hrun.trees parentId hparentId]
    cases treeAt (snapshotHead s).2 parentId with
    | ok tree' => exact ⟨fun h => congrArg _ (Except.ok.inj h), fun h => congrArg _ (Except.ok.inj h)⟩
    | error e => exact ⟨nofun, nofun⟩
  have hheadId : s.dag.hasPatch headId = true := by
    rw [← hrun.asked.hasPatch]
    exact honHead.known
  have hbuilt : built s₁.dag headId = built s.dag headId :=
    built_of_grows hrun.asked.grows hs.sound.graded hheadId
  have hname : s₁.headBranch.getD "main" = s.headBranch.getD "main" := by rw [hrun.headBranch]
  by_cases hnamed : branch = s.headBranch.getD "main"
  · obtain ⟨base, hbase, happly⟩ := honHead.named (hnamed.trans hname.symm)
    rw [hbuilt] at hbase
    constructor
    · intro ⟨new', parentTree, hshown, hparentTree, hundone⟩
      rw [honHead.shown] at hshown
      cases hshown
      rw [hread] at hparentTree
      refine ⟨parentTree, base, hparentTree, ?_⟩
      rw [if_pos hnamed]
      exact ⟨hbase, (undone_iff hs.sound.graded (hrun.inverts _ hparentTree) hplain happly).mp hundone⟩
    · intro ⟨parentTree, tree, hparentTree, hundoable⟩
      rw [if_pos hnamed, hbase] at hundoable
      obtain ⟨heq, hundoable⟩ := hundoable
      cases heq
      refine ⟨new, parentTree, honHead.shown, (hread _).mpr hparentTree, ?_⟩
      exact (undone_iff hs.sound.graded (hrun.inverts _ hparentTree) hplain happly).mpr hundoable
  · have hother := honHead.other (hname.symm ▸ hnamed)
    obtain ⟨tip, htip, hshown⟩ := hother
    have htip' : headBranchTip s = (.ok (s.headBranch.getD "main", tip), s) := by
      have hfst := headBranchTip_congr hrun.headBranch hrun.asked.queried.same.branches
      rw [htip, hname] at hfst
      exact Prod.ext hfst.symm (headBranchTip_state s)
    obtain ⟨-, -, b, -, hget⟩ := headBranchTip_ok htip'
    rw [hrun.trees tip (hs.sound.targets _ _ hget)] at hshown
    constructor
    · intro ⟨new', parentTree, hnew, hparentTree, hundone⟩
      rw [honHead.shown] at hnew
      cases hnew
      rw [hread] at hparentTree
      refine ⟨parentTree, new, hparentTree, ?_⟩
      rw [if_neg hnamed]
      exact ⟨⟨tip, htip', hshown⟩, hundone⟩
    · intro ⟨parentTree, tree, hparentTree, hundone⟩
      rw [if_neg hnamed] at hundone
      obtain ⟨⟨tip', htip'', htree'⟩, hundone⟩ := hundone
      rw [htip'] at htip''
      cases htip''
      rw [hshown] at htree'
      cases htree'
      exact ⟨new, parentTree, honHead.shown, (hread _).mpr hparentTree, hundone⟩

/-! ### Two reverts of HEAD -/

/-- The last commit adds a file. -/
theorem revert_undoes_added :
    let s := sample (committed "a" 49 ++ committed "b" 50)
    let t := (revert (tipOf "main" s) none s).2
    ∃ tree, (snapshotHead t).1 = .ok tree ∧
      (snapshot (tipOf "main" (sample (committed "a" 49))) t).1 = .ok tree := by
  intro s t
  obtain ⟨rid, hrevert⟩ := returns_of_isSome (m := revert (tipOf "main" s) none) (s := s)
    (by decide +kernel)
  obtain ⟨patch, hpatch⟩ : ∃ patch, s.dag.getPatch (tipOf "main" s) = some patch :=
    Option.isSome_iff_exists.mp (by decide +kernel)
  have hparent : (s.dag.getPatch (tipOf "main" s)).bind (fun p => p.parentIds.head?) =
      some (tipOf "main" (sample (committed "a" 49))) := by decide +kernel
  rw [hpatch] at hparent
  have hhead : (head s).1 = .ok ("main", tipOf "main" s) := ok_of_toOption (by decide +kernel)
  obtain ⟨parentTree, hparentTree⟩ := ok_of_isSome
    (r := treeAt (snapshotHead s).2 (tipOf "main" (sample (committed "a" 49)))) (by decide +kernel)
  obtain ⟨tree, htree⟩ := ok_of_isSome (r := built s.dag (tipOf "main" s)) (by decide +kernel)
  have hplain : ∀ p ∈ s.dag.getPatch (tipOf "main" s), ∀ c ∈ changesOf p, c.op = .create ∨
      c.op = .modify ∨ c.op = .delete := by decide +kernel
  have hadds : ∀ p ∈ s.dag.getPatch (tipOf "main" s),
      ∀ old ∈ (treeAt (snapshotHead s).2 (tipOf "main" (sample (committed "a" 49)))).toOption,
        (applyPatch old p).toOption = (built s.dag (tipOf "main" s)).toOption ∧
          ∀ path ∈ changedPaths p, old.get path = none := by
    decide +kernel
  obtain ⟨happly, hnone⟩ := hadds patch hpatch parentTree (by rw [hparentTree]; rfl)
  have hnew : applyPatch parentTree patch = .ok tree := by
    rw [htree] at happly
    exact ok_of_toOption happly
  have hloaded := (reachable_sample (committed "a" 49 ++ committed "b" 50)).valid.loaded
  have hplain := hplain patch hpatch
  have hundoes : RevertUndoes s "main" (tipOf "main" s) (tipOf "main" s)
      (tipOf "main" (sample (committed "a" 49))) patch := by
    refine ⟨parentTree, tree, hparentTree, ?_⟩
    have hname : "main" = s.headBranch.getD "main" := by decide +kernel
    rw [if_pos hname]
    exact ⟨htree, (undoable_head_iff hloaded.sound.graded hplain hnew).mpr hnone⟩
  obtain ⟨new, old, hshown, hold, -, hhead⟩ :=
    (revert_undoes_iff hloaded hpatch hparent (fun _ => hplain) (by rw [hhead]) hrevert).mpr hundoes
  exact ⟨new, hshown, by rw [hold, hhead rfl]⟩

/-- The last commit changes a file, which a revert deletes. -/
theorem revert_deletes_changed : ¬ ∀ (s t : Repository Hash) (branch : String)
    (headId id parentId rid : Hash) (patch : Patch Hash) (message : Option String), Reachable s →
      s.dag.getPatch id = some patch → patch.parentIds.head? = some parentId →
        Plain (changesOf patch) → (head s).1 = .ok (branch, headId) →
          revert id message s = (.ok rid, t) → ∃ new parentTree, (snapshotHead t).1 = .ok new ∧
            (snapshot parentId t).1 = .ok parentTree ∧ Undone s.dag headId id patch parentTree new := by
  intro h
  obtain ⟨s, hs⟩ : ∃ s, s = sample (committed "a" 49 ++ committed "a" 50) := ⟨_, rfl⟩
  obtain ⟨rid, hrevert⟩ := returns_of_isSome (m := revert (tipOf "main" s) none) (s := s)
    (by rw [hs]; decide +kernel)
  obtain ⟨patch, hpatch⟩ : ∃ patch, s.dag.getPatch (tipOf "main" s) = some patch :=
    Option.isSome_iff_exists.mp (by rw [hs]; decide +kernel)
  have hparent : (s.dag.getPatch (tipOf "main" s)).bind (fun p => p.parentIds.head?) =
      some (tipOf "main" (sample (committed "a" 49))) := by
    rw [hs]
    decide +kernel
  rw [hpatch] at hparent
  have hplain : ∀ p ∈ s.dag.getPatch (tipOf "main" s), ∀ c ∈ changesOf p, c.op = .create ∨
      c.op = .modify ∨ c.op = .delete := by
    rw [hs]
    decide +kernel
  have hhead : (head s).1 = .ok ("main", tipOf "main" s) := ok_of_toOption (by rw [hs]; decide +kernel)
  obtain ⟨new, old, hnew, hold, -, hall⟩ := h s _ "main" (tipOf "main" s) (tipOf "main" s) _ rid patch
    none (hs ▸ reachable_sample _) hpatch hparent (hplain patch hpatch) hhead hrevert
  have hlost : (snapshotHead (revert (tipOf "main" s) none s).2).1.toOption ≠
      (snapshot (tipOf "main" (sample (committed "a" 49)))
        (revert (tipOf "main" s) none s).2).1.toOption := by
    rw [hs]
    decide +kernel
  rw [hnew, hold, hall rfl] at hlost
  exact hlost rfl

end Suture.Repo
