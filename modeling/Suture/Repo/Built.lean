import Suture.Engine.Changes
import Suture.Repo.Atomic

/-!
# Trees of any patches

Patches that come from elsewhere need not be made the way the operations here make them:
they may have a target path, and may not apply. What the questions about trees answer then,
in a repository with a sound DAG.
-/

namespace Suture.Repo
set_option autoImplicit false
open Foundation Common Patches Dag Engine Program

variable {H : Type} [LinearOrder H] [Hashing H] {d d' : PatchDag H} {s t u : Repository H}

/-- What the history of a patch builds, if it applies. -/
def built (d : PatchDag H) (id : H) : Except ApplyError (FileTree H) :=
  applyPatchChain ((d.chain id).filterMap d.getPatch)

/-- The stored tree of a patch, or what its history builds. -/
def treeAt (s : Repository H) (id : H) : Except ApplyError (FileTree H) :=
  match loadFileTree s id with
  | some tree => .ok tree
  | none => built s.dag id

/-- A repository whose DAG is sound and whose tables name patches that are there. -/
structure Loaded (s : Repository H) : Prop where
  sound : s.dag.Sound
  cacheKnown : s.dag.CacheKnown
  parentsKnown : ∀ id p, s.dag.getPatch id = some p → ∀ q ∈ p.parentIds, s.dag.hasPatch q = true
  rowsKnown : ∀ id tree, s.fileTrees.get id = some tree → s.dag.hasPatch id = true

theorem Valid.loaded {F : Prop} (hs : Valid F s) : Loaded s where
  sound := hs.sound
  cacheKnown := hs.cacheKnown
  parentsKnown := fun id p hp => (hs.patches id p hp).parents
  rowsKnown := fun id tree hid => (hs.rows id tree hid).known

theorem built_of_grows (h : d.Grows d') (hd : d.Graded) {id : H} (hid : d.hasPatch id = true) :
    built d' id = built d id := by
  unfold built
  rw [h.chain hd hid]
  refine congrArg applyPatchChain (List.filterMap_congr fun p hp => ?_)
  exact h.getPatch (PatchDag.known_of_mem_chain hd hid hp)

/-- A new patch is applied to what its parent builds. -/
theorem built_extends {patch : Patch H} {parentId : H} (h : d.Extends d' patch [parentId])
    (hd : d.Graded) : built d' patch.id = (do
      let base ← built d parentId
      applyPatch base patch) := by
  have hparent := h.parents_known parentId (List.mem_singleton_self _)
  have hold : (d.chain parentId).filterMap d'.getPatch =
      (d.chain parentId).filterMap d.getPatch := List.filterMap_congr fun p hp =>
    h.grows.getPatch (PatchDag.known_of_mem_chain hd hparent hp)
  have hnew : d'.getPatch patch.id = some patch := by
    rw [PatchDag.getPatch_eq, h.view, if_pos rfl]
    rfl
  have hlast : [patch.id].filterMap d'.getPatch = [patch] := by simp [hnew]
  unfold built applyPatchChain
  rw [h.chain_new hd, PatchDag.jointChain_singleton, List.filterMap_append, hold, hlast,
    List.foldlM_append]
  apply congrArg
  funext base
  exact List.foldlM_cons.trans (bind_pure _)

theorem built_new {patch : Patch H} {parentId : H} (h : d.Extends d' patch [parentId])
    (hd : d.Graded) {tree : FileTree H} (htree : built d' patch.id = .ok tree) :
    ∃ base, built d parentId = .ok base ∧ applyPatch base patch = .ok tree := by
  rw [built_extends h hd] at htree
  cases hbase : built d parentId with
  | error e =>
    rw [hbase] at htree
    cases htree
  | ok base =>
    rw [hbase] at htree
    exact ⟨base, rfl, htree⟩

omit [Hashing H] in
theorem Loaded.asked (hs : Loaded s) (h : PatchDag.Asked s.dag d') :
    Loaded { s with dag := d' } where
  sound := h.sound hs.sound
  cacheKnown := h.known hs.cacheKnown
  parentsKnown := by
    intro id p hp q hq
    rw [h.queried.same.getPatch] at hp
    rw [h.hasPatch]
    exact hs.parentsKnown id p hp q hq
  rowsKnown := by
    intro id tree hid
    rw [h.hasPatch]
    exact hs.rowsKnown id tree hid

omit [Hashing H] in
theorem Loaded.store (hs : Loaded s) {id : H} (hid : s.dag.hasPatch id = true) (tree : FileTree H) :
    Loaded { s with fileTrees := s.fileTrees.insert id tree } := by
  refine { hs with rowsKnown := fun j row hj => ?_ }
  rw [SortedMap.get_insert] at hj
  split at hj
  · rename_i heq
    rwa [heq]
  · exact hs.rowsKnown j row hj

theorem snapshotUncached_built (hs : Loaded s) {id : H} (hid : s.dag.hasPatch id = true) :
    ∃ d', PatchDag.Asked s.dag d' ∧
      snapshotUncached id s = ((built s.dag id).mapError .apply, { s with dag := d' }) := by
  have hasked := PatchDag.asked_patchChainFull (d := s.dag) hid
  have hget := funext hasked.queried.same.getPatch
  have hchain := PatchDag.patchChainFull_eq hs.sound.cache id
  refine ⟨_, hasked, (ofExcept_run _ _).trans ?_⟩
  dsimp only
  rw [hget, hchain]
  rfl

/-- What a question about the tree of a patch may do: fill the ancestor cache, and store what
a patch builds. -/
structure Peeked (s t : Repository H) : Prop where
  same : t = { s with dag := t.dag, fileTrees := t.fileTrees }
  asked : PatchDag.Asked s.dag t.dag
  trees : ∀ id, s.dag.hasPatch id = true → treeAt t id = treeAt s id
  loaded : Loaded t

theorem snapshot_built (hs : Loaded s) {id : H} (hid : s.dag.hasPatch id = true) :
    ∃ t, snapshot id s = ((treeAt s id).mapError .apply, t) ∧ Peeked s t := by
  unfold snapshot
  rw [read_bind]
  cases hload : loadFileTree s id with
  | some tree =>
    refine ⟨s, ?_, rfl, .refl _, fun _ _ => rfl, hs⟩
    unfold treeAt
    rw [hload]
    rfl
  | none =>
    obtain ⟨d', hasked, hrun⟩ := snapshotUncached_built hs hid
    have htree : treeAt s id = built s.dag id := by
      unfold treeAt
      rw [hload]
    have hsame : ∀ j, s.dag.hasPatch j = true → built d' j = built s.dag j := fun j hj =>
      built_of_grows hasked.grows hs.sound.graded hj
    dsimp only
    cases hbuilt : built s.dag id with
    | error e =>
      rw [hbuilt] at hrun
      refine ⟨{ s with dag := d' }, ?_, rfl, hasked, ?_, hs.asked hasked⟩
      · rw [bind_of_error hrun, htree, hbuilt]
        rfl
      · intro j hj
        unfold treeAt loadFileTree
        dsimp only
        rw [hsame j hj]
    | ok tree =>
      rw [hbuilt] at hrun
      refine ⟨{ s with dag := d', fileTrees := s.fileTrees.insert id tree }, ?_, rfl, hasked, ?_,
        (hs.asked hasked).store ((hasked.hasPatch id).trans hid) tree⟩
      · rw [bind_of_ok hrun, htree, hbuilt]
        rfl
      · intro j hj
        have hrow := loadFileTree_insert (s := { s with dag := d' }) id tree j
        unfold treeAt
        change (match loadFileTree { { s with dag := d' } with
          fileTrees := s.fileTrees.insert id tree } j with
          | some tree => Except.ok tree
          | none => built d' j) = _
        rw [hrow]
        by_cases heq : j = id
        · subst heq
          rw [if_pos rfl, hload, hsame j hj, hbuilt]
          by_cases hempty : tree.entries = [] <;> simp [hempty]
        · rw [if_neg heq, hsame j hj]
          rfl

/-! ### The tree of HEAD -/

theorem recomputeHead_built (hs : Loaded s) {id : H} (hid : s.dag.hasPatch id = true) :
    ∃ d', PatchDag.Asked s.dag d' ∧ recomputeHead id s = match built s.dag id with
      | .error e => (.error (.apply e), { s with dag := d' })
      | .ok tree => (.ok tree, { s with
          dag := d', headTreeHash := some (Hashing.contentHash tree.entries),
          fileTrees := s.fileTrees.insert id tree, cachedHeadSnapshot := some tree }) := by
  obtain ⟨d', hasked, hrun⟩ := snapshotUncached_built hs hid
  refine ⟨d', hasked, ?_⟩
  unfold recomputeHead
  cases hbuilt : built s.dag id with
  | error e =>
    rw [hbuilt] at hrun
    rw [bind_of_error hrun]
  | ok tree =>
    rw [hbuilt] at hrun
    rw [bind_of_ok hrun]
    rfl

/-- What reading may do to a loaded repository. -/
structure Reads (s t : Repository H) : Prop where
  asked : PatchDag.Asked s.dag t.dag
  headBranch : t.headBranch = s.headBranch
  loaded : Loaded t

omit [Hashing H] in
theorem Loaded.reads (hs : Loaded s) : Reads s s := ⟨.refl _, rfl, hs⟩

omit [Hashing H] in
theorem Reads.trans (h : Reads s t) (h' : Reads t u) : Reads s u :=
  ⟨h.asked.trans h'.asked, h'.headBranch.trans h.headBranch, h'.loaded⟩

theorem recomputeHead_reads (hs : Loaded s) {id : H} (hid : s.dag.hasPatch id = true) :
    Reads s (recomputeHead id s).2 := by
  obtain ⟨d', hasked, hrun⟩ := recomputeHead_built hs hid
  rw [hrun]
  cases built s.dag id with
  | error e => exact ⟨hasked, rfl, hs.asked hasked⟩
  | ok tree =>
    have hloaded := (hs.asked hasked).store ((hasked.hasPatch id).trans hid) tree
    exact ⟨hasked, rfl, { hloaded with }⟩

omit [Hashing H] in
theorem headBranchTip_state (s : Repository H) : (headBranchTip s).2 = s := by
  have hquiet : Quiet (Drift.ofView fun s : Repository H => s) headBranchTip := by
    apply quiet_read.bind
    intro s
    apply (quiet_ofExcept _).bind
    intro branch
    split
    · exact quiet_fail _
    · exact quiet_pure _
  exact hquiet s

omit [Hashing H] in
theorem headBranchTip_ok {name : String} {id : H} (h : headBranchTip s = (.ok (name, id), t)) :
    t = s ∧ name = s.headBranch.getD "main" ∧
      ∃ branch, BranchName.new name = .ok branch ∧ s.dag.getBranch branch = some id := by
  have ht := headBranchTip_state s
  rw [h] at ht
  unfold headBranchTip at h
  rw [read_bind] at h
  obtain ⟨branch, s₁, hbranch, h⟩ := bind_ok h
  unfold branchName at hbranch
  rw [ofExcept_run] at hbranch
  obtain ⟨hname, rfl⟩ := Prod.mk.inj hbranch
  cases hnew : BranchName.new (s.headBranch.getD "main") with
  | error e =>
    rw [hnew] at hname
    cases hname
  | ok b =>
    rw [hnew] at hname
    cases hname
    cases hget : s.dag.getBranch branch with
    | none =>
      rw [hget] at h
      cases h
    | some tip =>
      rw [hget] at h
      cases h
      exact ⟨ht, rfl, branch, hnew, hget⟩

omit [Hashing H] in
theorem headBranchTip_eq {branch : BranchName} {id : H}
    (hname : BranchName.new (s.headBranch.getD "main") = .ok branch)
    (hget : s.dag.getBranch branch = some id) :
    headBranchTip s = (.ok (s.headBranch.getD "main", id), s) := by
  have hbranch : branchName (s.headBranch.getD "main") s = (.ok branch, s) := by
    unfold branchName
    rw [hname]
    rfl
  unfold headBranchTip
  rw [read_bind, bind_of_ok hbranch, hget]
  rfl

omit [Hashing H] in
theorem headBranchTip_congr (hbranch : t.headBranch = s.headBranch)
    (hbranches : t.dag.branches = s.dag.branches) : (headBranchTip t).1 = (headBranchTip s).1 := by
  unfold headBranchTip
  rw [read_bind, read_bind, hbranch]
  cases hname : BranchName.new (s.headBranch.getD "main") with
  | error e =>
    have hrun : ∀ u : Repository H,
        branchName (s.headBranch.getD "main") u = (.error (.name e), u) := by
      intro u
      rw [branchName, hname]
      rfl
    rw [bind_of_error (hrun t), bind_of_error (hrun s)]
  | ok branch =>
    have hrun : ∀ u : Repository H, branchName (s.headBranch.getD "main") u = (.ok branch, u) := by
      intro u
      rw [branchName, hname]
      rfl
    have hget : t.dag.getBranch branch = s.dag.getBranch branch := by
      unfold PatchDag.getBranch
      rw [hbranches]
    rw [bind_of_ok (hrun t), bind_of_ok (hrun s), hget]
    cases s.dag.getBranch branch <;> rfl

omit [Hashing H] in
theorem head_state {branch : String} {headId : H} (h : head s = (.ok (branch, headId), t)) :
    t = { s with cachedHeadBranch := some branch, cachedHeadId := some headId } := by
  rcases head_cases s with ⟨e, hrun⟩ | ⟨branch', headId', hrun⟩
  · rw [hrun] at h
    cases h
  · rw [hrun] at h
    cases h
    rfl

omit [Hashing H] in
/-- What is asked of the DAG does not move HEAD. -/
theorem head_congr {dag : PatchDag H} (h : dag.branches = s.dag.branches) :
    (head { s with dag := dag }).1 = (head s).1 := by
  have htip := headBranchTip_congr (t := { s with dag := dag }) (s := s) rfl h
  have hlook : (lookUpHead { s with dag := dag }).1 = (lookUpHead s).1 := by
    unfold lookUpHead
    rw [read_bind, read_bind]
    dsimp only
    by_cases hdetached : s.detached = true
    · rw [if_pos hdetached]
      cases s.detachedHead <;> rfl
    · rw [if_neg hdetached]
      rcases hs : headBranchTip s with ⟨e | r, s₁⟩
      · rcases ht : headBranchTip { s with dag := dag } with ⟨e' | r', t₁⟩
        · rw [hs, ht] at htip
          rw [bind_of_error hs, bind_of_error ht]
          cases htip
          rfl
        · rw [hs, ht] at htip
          cases htip
      · rcases ht : headBranchTip { s with dag := dag } with ⟨e' | r', t₁⟩
        · rw [hs, ht] at htip
          cases htip
        · rw [hs, ht] at htip
          rw [bind_of_ok hs, bind_of_ok ht]
          cases htip
          rfl
  have huncached : ∀ u : Repository H, u.cachedHeadId = none ∨ u.cachedHeadBranch = none →
      head u = lookUpHead u := by
    intro u hu
    unfold head
    rw [read_bind]
    cases hid : u.cachedHeadId with
    | none => rfl
    | some id =>
      rw [hu.resolve_left (by rw [hid]; exact Option.some_ne_none id)]
  by_cases hcached : s.cachedHeadId = none ∨ s.cachedHeadBranch = none
  · rw [huncached s hcached, huncached { s with dag := dag } hcached]
    exact hlook
  · rw [not_or, ← ne_eq, ← ne_eq, Option.ne_none_iff_exists', Option.ne_none_iff_exists'] at hcached
    obtain ⟨⟨id, hid⟩, branch, hbranch⟩ := hcached
    have hnew : head { s with dag := dag } = (.ok (branch, id), { s with dag := dag }) :=
      head_of_cached hid hbranch
    rw [head_of_cached hid hbranch, hnew]

theorem snapshotHead_reads (hs : Loaded s) : Reads s (snapshotHead s).2 := by
  unfold snapshotHead
  rcases htip : headBranchTip s with ⟨e | ⟨name, id⟩, s₁⟩
  · have hs₁ := headBranchTip_state s
    rw [htip] at hs₁
    rw [bind_of_error htip]
    exact hs₁ ▸ hs.reads
  · obtain ⟨rfl, -, branch, -, hget⟩ := headBranchTip_ok htip
    have hid : s₁.dag.hasPatch id = true := hs.sound.targets _ _ hget
    obtain ⟨s₂, hs₂⟩ : ∃ s₂, s₂ = { s₁ with
      cachedHeadBranch := some name, cachedHeadId := some id } := ⟨_, rfl⟩
    have hcache : setHeadCache name id s₁ = (.ok (), s₂) := by
      rw [hs₂]
      rfl
    have hreads : Reads s₁ s₂ := by
      rw [hs₂]
      exact ⟨.refl _, rfl, { hs with }⟩
    have hid₂ : s₂.dag.hasPatch id = true := (hreads.asked.hasPatch id).trans hid
    rw [bind_of_ok htip]
    dsimp only
    rw [bind_of_ok hcache, read_bind]
    refine hreads.trans ?_
    cases s₂.cachedHeadSnapshot with
    | some tree => exact hreads.loaded.reads
    | none =>
      cases loadFileTree s₂ id with
      | none => exact recomputeHead_reads hreads.loaded hid₂
      | some tree =>
        dsimp only
        split
        · exact ⟨.refl _, rfl, { hreads.loaded with }⟩
        · exact recomputeHead_reads hreads.loaded hid₂

theorem treeAt_insert (id : H) (tree : FileTree H) (j : H) :
    treeAt { s with fileTrees := s.fileTrees.insert id tree } j =
      if j = id ∧ tree.entries ≠ [] then .ok tree
      else if j = id then built s.dag id else treeAt s j := by
  have hrow := loadFileTree_insert (s := s) id tree j
  unfold treeAt
  rw [hrow]
  by_cases hj : j = id
  · subst hj
    by_cases hempty : tree.entries = [] <;> simp [hempty]
  · simp [hj]

/-- The tree of HEAD after its cache was cleared. -/
theorem snapshotHead_built (hs : Loaded s) {name : String} {id : H}
    (htip : headBranchTip s = (.ok (name, id), s)) (hnone : s.cachedHeadSnapshot = none)
    (hhash : s.headTreeHash = none) {tree : FileTree H} (h : snapshotHead s = (.ok tree, t)) :
    treeAt s id = .ok tree ∧ t.cachedHeadSnapshot = some tree ∧
      headBranchTip t = (.ok (name, id), t) ∧ Reads s t ∧
      ∀ j, s.dag.hasPatch j = true → treeAt t j = treeAt s j := by
  obtain ⟨-, hlabel, branch, hname, hget⟩ := headBranchTip_ok htip
  have hid : s.dag.hasPatch id = true := hs.sound.targets _ _ hget
  have hreads := snapshotHead_reads hs
  rw [h] at hreads
  have htip' : headBranchTip t = (.ok (name, id), t) := by
    have hbranch : t.headBranch = s.headBranch := hreads.headBranch
    have hname' : BranchName.new (t.headBranch.getD "main") = .ok branch := by
      rw [hbranch, ← hlabel, hname]
    have hget' : t.dag.getBranch branch = some id := by
      unfold PatchDag.getBranch at hget ⊢
      rw [hreads.asked.queried.same.branches, hget]
    rw [headBranchTip_eq hname' hget', hbranch, hlabel]
  obtain ⟨s₁, hs₁⟩ : ∃ s₁, s₁ = { s with
    cachedHeadBranch := some name, cachedHeadId := some id } := ⟨_, rfl⟩
  have hcache : setHeadCache name id s = (.ok (), s₁) := by
    rw [hs₁]
    rfl
  have hloaded : Loaded s₁ := by
    rw [hs₁]
    exact { hs with }
  have hid₁ : s₁.dag.hasPatch id = true := by rwa [hs₁]
  have hnone₁ : s₁.cachedHeadSnapshot = none := by rwa [hs₁]
  have hhash₁ : s₁.headTreeHash = none := by rwa [hs₁]
  have htrees₁ : treeAt s₁ = treeAt s := by
    rw [hs₁]
    rfl
  have hdag : s₁.dag = s.dag := by rw [hs₁]
  unfold snapshotHead at h
  rw [bind_of_ok htip] at h
  dsimp only at h
  rw [bind_of_ok hcache, read_bind, hnone₁] at h
  dsimp only at h
  rw [← htrees₁]
  cases hrow : loadFileTree s₁ id with
  | some row =>
    rw [hrow] at h
    dsimp only at h
    rw [if_pos (.inl hhash₁)] at h
    cases h
    refine ⟨?_, rfl, htip', hreads, fun _ _ => rfl⟩
    unfold treeAt
    rw [hrow]
  | none =>
    rw [hrow] at h
    obtain ⟨d', hasked, hrun⟩ := recomputeHead_built hloaded hid₁
    dsimp only at h
    rw [h] at hrun
    cases hbuilt : built s₁.dag id with
    | error e =>
      rw [hbuilt] at hrun
      cases hrun
    | ok recomputed =>
      rw [hbuilt] at hrun
      dsimp only at hrun
      obtain ⟨htree, ht⟩ := Prod.mk.inj hrun
      cases htree
      have hold : treeAt s₁ id = .ok tree := by
        unfold treeAt
        rw [hrow, hbuilt]
      refine ⟨hold, by rw [ht], htip', hreads, ?_⟩
      intro j hj
      have hinsert := treeAt_insert (s := { s₁ with dag := d' }) id tree j
      have hsame : treeAt { s₁ with dag := d' } j = treeAt s₁ j := by
        unfold treeAt loadFileTree
        dsimp only
        rw [built_of_grows hasked.grows hloaded.sound.graded (hdag ▸ hj)]
      have ht' : treeAt t j = treeAt { { s₁ with dag := d' } with
          fileTrees := s₁.fileTrees.insert id tree } j := by
        rw [ht]
        rfl
      rw [ht', hinsert, hsame]
      by_cases heq : j = id
      · subst heq
        have hnew : built d' j = .ok tree := by
          rw [built_of_grows hasked.grows hloaded.sound.graded hid₁, hbuilt]
        rw [if_pos rfl, hnew, hold, ite_self]
      · rw [if_neg (fun h => heq h.1), if_neg heq]

end Suture.Repo
