import Suture.Repo.Valid

/-!
# Trees of patches

What the calls that answer with a tree return in a valid state: the stored tree of a
patch, or else what it replays to.
-/

namespace Suture.Repo
set_option autoImplicit false
open Foundation Common Patches Dag Engine Program

variable {H : Type} [LinearOrder H] [Hashing H] {F : Prop} {d d' : PatchDag H}
  {blobs : SortedMap H Bytes} {s t u : Repository H}

omit [Hashing H] in
theorem treeStored_empty : TreeStored blobs (.empty : FileTree H) := ⟨nofun, fun _ h => absurd rfl h⟩

theorem Valid.patches_ok (hs : Valid F s) {ids : List H} {p : Patch H}
    (hp : p ∈ ids.filterMap s.dag.getPatch) : PatchOk s.dag s.blobs p := by
  obtain ⟨q, -, hget⟩ := List.mem_filterMap.mp hp
  exact hs.patches q p hget

theorem Valid.patched_stored (hs : Valid F s) (ids : List H) :
    TreeStored s.blobs ((ids.filterMap s.dag.getPatch).foldl patched .empty) := by
  have hfold : ∀ (ps : List (Patch H)) (tree : FileTree H), (∀ p ∈ ps, PatchOk s.dag s.blobs p) →
      TreeStored s.blobs tree → TreeStored s.blobs (ps.foldl patched tree) := by
    intro ps
    induction ps with
    | nil => exact fun _ _ htree => htree
    | cons p ps ih =>
      intro tree hps htree
      exact ih _ (fun q hq => hps q (List.mem_cons_of_mem _ hq))
        ((hps p (List.mem_cons_self ..)).treeStored htree)
  exact hfold _ _ (fun p hp => hs.patches_ok hp) treeStored_empty

omit [Hashing H] in
theorem loadFileTree_eq_some {id : H} {tree : FileTree H} :
    loadFileTree s id = some tree ↔ s.fileTrees.get id = some tree ∧ tree.entries ≠ [] := by
  unfold loadFileTree
  cases s.fileTrees.get id with
  | none => simp
  | some row =>
    dsimp only
    split
    · rename_i hrow
      refine iff_of_false nofun fun h => ?_
      cases h.1
      exact h.2 hrow
    · rename_i hrow
      simp only [Option.some.injEq]
      exact ⟨fun h => ⟨h, h ▸ hrow⟩, And.left⟩

theorem treeOf_congr (hs : Valid F s) (hrows : t.fileTrees = s.fileTrees)
    (hgrows : s.dag.Grows t.dag) {id : H} (hid : s.dag.hasPatch id = true) :
    treeOf t id = treeOf s id := by
  unfold treeOf loadFileTree
  rw [hrows, replay_of_grows hgrows hs.sound.graded hid]

theorem Valid.treeOf_stored (hs : Valid F s) (id : H) : TreeStored s.blobs (treeOf s id) := by
  unfold treeOf
  cases hload : loadFileTree s id with
  | none => exact hs.patched_stored _
  | some tree => exact (hs.rows id tree (loadFileTree_eq_some.mp hload).1).stored

/-- With fresh rows the tree of a patch is what it replays to. -/
theorem Valid.treeOf_eq (hs : Valid F s) (hF : F) (id : H) : treeOf s id = replay s.dag id := by
  unfold treeOf
  cases hload : loadFileTree s id with
  | none => rfl
  | some tree =>
    obtain ⟨hrow, hne⟩ := loadFileTree_eq_some.mp hload
    exact (hs.rows id tree hrow).fresh hF hne

theorem snapshotUncached_run (hs : Valid F s) {id : H} (hid : s.dag.hasPatch id = true) :
    ∃ d', PatchDag.Asked s.dag d' ∧
      snapshotUncached id s = (.ok (replay s.dag id), { s with dag := d' }) := by
  have hasked := PatchDag.asked_patchChainFull (d := s.dag) hid
  refine ⟨_, hasked, ?_⟩
  have hget := funext hasked.queried.same.getPatch
  have hchain := PatchDag.patchChainFull_eq hs.sound.cache id
  have hreplay : applyPatchChain (((s.dag.patchChainFull id).1).filterMap
      (s.dag.patchChainFull id).2.getPatch) = .ok (replay s.dag id) := by
    rw [hget, hchain]
    exact applyPatchChain_eq fun p hp => (hs.patches_ok hp).noTarget
  refine (ofExcept_run _ _).trans ?_
  dsimp only
  rw [hreplay]
  rfl

/-- What questions about trees may do: fill the ancestor cache, and store trees. -/
structure Looked (s t : Repository H) : Prop where
  same : t = { s with dag := t.dag, fileTrees := t.fileTrees }
  asked : PatchDag.Asked s.dag t.dag
  trees : ∀ id, s.dag.hasPatch id = true → treeOf t id = treeOf s id

theorem Looked.refl (s : Repository H) : Looked s s := ⟨rfl, .refl _, fun _ _ => rfl⟩

theorem Looked.trans (h : Looked s t) (h' : Looked t u) : Looked s u where
  same := by
    rw [h'.same, h.same]
  asked := h.asked.trans h'.asked
  trees := fun id hid =>
    (h'.trees id ((h.asked.hasPatch id).trans hid)).trans (h.trees id hid)

theorem Looked.of_asked (hs : Valid F s) (h : PatchDag.Asked s.dag d') :
    Looked s { s with dag := d' } where
  same := rfl
  asked := h
  trees := fun _ hid => treeOf_congr (t := { s with dag := d' }) hs rfl h.grows hid

omit [Hashing H] in
theorem loadFileTree_insert (id : H) (tree : FileTree H) (j : H) :
    loadFileTree { s with fileTrees := s.fileTrees.insert id tree } j =
      if j = id then if tree.entries = [] then none else some tree else loadFileTree s j := by
  unfold loadFileTree
  dsimp only
  rw [SortedMap.get_insert]
  by_cases hj : j = id
  · rw [if_pos hj, if_pos hj]
  · rw [if_neg hj, if_neg hj]

theorem Valid.store (hs : Valid F s) {id : H} {tree : FileTree H}
    (hrow : RowOk F s.dag s.blobs id tree) :
    Valid F { s with fileTrees := s.fileTrees.insert id tree } := by
  refine { hs with rows := fun j row hj => ?_ }
  rw [SortedMap.get_insert] at hj
  split at hj
  · rename_i heq
    cases hj
    rwa [heq]
  · exact hs.rows j row hj

theorem safe_storeFileTree (hs : Valid F s) {id : H} {tree : FileTree H}
    (hrow : RowOk F s.dag s.blobs id tree) : Safe F (storeFileTree id tree) s fun _ t =>
      t = { s with fileTrees := s.fileTrees.insert id tree } :=
  safe_modify (hs.store hrow) (later_of_eq rfl rfl rfl)

/-- Storing what a patch replays to changes no tree. -/
theorem Looked.store {id : H} (hload : loadFileTree s id = none) :
    Looked s { s with fileTrees := s.fileTrees.insert id (replay s.dag id) } where
  same := rfl
  asked := .refl s.dag
  trees := fun j _ => by
    unfold treeOf
    rw [loadFileTree_insert]
    split
    · rename_i heq
      subst heq
      rw [hload]
      split <;> rfl
    · rfl

theorem Valid.replay_row (hs : Valid F s) {id : H} (hid : s.dag.hasPatch id = true) :
    RowOk F s.dag s.blobs id (replay s.dag id) := ⟨hid, hs.patched_stored _, fun _ _ => rfl⟩

theorem snapshot_run (hs : Valid F s) {id : H} (hid : s.dag.hasPatch id = true) :
    ∃ t, snapshot id s = (.ok (treeOf s id), t) ∧ Looked s t ∧ Valid F t ∧ Later s t := by
  unfold snapshot
  rw [read_bind]
  cases hload : loadFileTree s id with
  | some tree =>
    refine ⟨s, ?_, .refl s, hs, .refl s⟩
    unfold treeOf
    rw [hload]
    rfl
  | none =>
    obtain ⟨d', hasked, hrun⟩ := snapshotUncached_run hs hid
    obtain ⟨ht, hle⟩ := hs.asked hasked
    have htree : treeOf s id = replay s.dag id := by
      unfold treeOf
      rw [hload]
      rfl
    have hreplay := replay_of_grows hasked.grows hs.sound.graded hid
    dsimp only
    rw [bind_of_ok hrun, htree, ← hreplay]
    refine ⟨_, rfl, ?_, ?_, ?_⟩
    · exact (Looked.of_asked hs hasked).trans (.store hload)
    · exact ht.store (ht.replay_row ((hasked.hasPatch id).trans hid))
    · exact hle.trans (later_of_eq rfl rfl rfl)

theorem safe_snapshotUncached (hs : Valid F s) {id : H} (hid : s.dag.hasPatch id = true) :
    Safe F (snapshotUncached id) s fun tree t =>
      tree = replay s.dag id ∧ ∃ d', PatchDag.Asked s.dag d' ∧ t = { s with dag := d' } := by
  obtain ⟨d', hasked, hrun⟩ := snapshotUncached_run hs hid
  refine ⟨?_, ?_, fun tree htree => ?_⟩ <;> rw [hrun] at *
  · exact (hs.asked hasked).1
  · exact (hs.asked hasked).2
  · cases htree
    exact ⟨rfl, d', hasked, rfl⟩

theorem safe_snapshot (hs : Valid F s) {id : H} (hid : s.dag.hasPatch id = true) :
    Safe F (snapshot id) s fun tree t => tree = treeOf s id ∧ Looked s t := by
  obtain ⟨t, hrun, hlooked, ht, hle⟩ := snapshot_run hs hid
  refine ⟨?_, ?_, fun tree htree => ?_⟩ <;> rw [hrun] at *
  · exact ht
  · exact hle
  · cases htree
    exact ⟨rfl, hlooked⟩

/-- The tree of HEAD without a cached one: stored, unless its hash is not the one kept. -/
def headTree (s : Repository H) (id : H) : FileTree H :=
  match loadFileTree s id with
  | none => replay s.dag id
  | some tree =>
    if s.headTreeHash = none ∨ s.headTreeHash = some (Hashing.contentHash tree.entries) then tree
    else replay s.dag id

/-- What taking a tree for HEAD at `id` does: it is cached with its hash, and is the stored
one from then on. -/
structure HeadTreeTaken (s : Repository H) (id : H) (tree : FileTree H) (t : Repository H) : Prop where
  same : t = { s with
    dag := t.dag, fileTrees := t.fileTrees, headTreeHash := some (Hashing.contentHash tree.entries),
    cachedHeadSnapshot := some tree }
  asked : PatchDag.Asked s.dag t.dag
  stored : treeOf t id = tree

theorem recomputeHead_run (hs : Valid F s) {id : H} (hid : s.dag.hasPatch id = true) :
    ∃ t, recomputeHead id s = (.ok (replay s.dag id), t) ∧
      HeadTreeTaken s id (replay s.dag id) t ∧ Valid F t ∧ Later s t := by
  obtain ⟨d', hasked, hrun⟩ := snapshotUncached_run hs hid
  obtain ⟨ht, hle⟩ := hs.asked hasked
  have hrow := ht.replay_row ((hasked.hasPatch id).trans hid)
  have hreplay := replay_of_grows hasked.grows hs.sound.graded hid
  rw [hreplay] at hrow
  unfold recomputeHead
  rw [bind_of_ok hrun]
  refine ⟨_, rfl, ⟨rfl, hasked, ?_⟩, { ht.store hrow with }, hle.trans (later_of_eq rfl rfl rfl)⟩
  have hload := loadFileTree_insert (s := { s with dag := d' }) id (replay s.dag id) id
  rw [if_pos rfl] at hload
  change (loadFileTree { { s with dag := d' } with
    fileTrees := s.fileTrees.insert id (replay s.dag id) } id).getD (replay d' id) = _
  rw [hload, hreplay]
  split <;> rfl

theorem takeHeadTree_run (hs : Valid F s) {id : H} (hid : s.dag.hasPatch id = true) :
    ∃ t, (match loadFileTree s id with
      | none => recomputeHead id
      | some tree =>
        if s.headTreeHash = none ∨ s.headTreeHash = some (Hashing.contentHash tree.entries) then do
          modify fun s => { s with
            headTreeHash := some (Hashing.contentHash tree.entries), cachedHeadSnapshot := some tree }
          return tree
        else recomputeHead id) s = (.ok (headTree s id), t) ∧
      HeadTreeTaken s id (headTree s id) t ∧ Valid F t ∧ Later s t := by
  have hreplay := recomputeHead_run hs hid
  unfold headTree
  cases hload : loadFileTree s id with
  | none => exact hreplay
  | some tree =>
    dsimp only
    split
    · refine ⟨_, rfl, ⟨rfl, .refl _, ?_⟩, { hs with }, later_of_eq rfl rfl rfl⟩
      change (loadFileTree s id).getD _ = tree
      rw [hload]
      rfl
    · exact hreplay

/-- What reading the tree of HEAD at `id` does, with a cached tree or without. -/
structure HeadTreeRead (s : Repository H) (id : H) (tree : FileTree H) (t : Repository H) : Prop where
  same : t = { s with
    dag := t.dag, fileTrees := t.fileTrees, headTreeHash := t.headTreeHash,
    cachedHeadSnapshot := some tree, cachedHeadBranch := some (s.headBranch.getD "main"),
    cachedHeadId := some id }
  asked : PatchDag.Asked s.dag t.dag
  value : tree = s.cachedHeadSnapshot.getD (headTree s id)
  stored : s.cachedHeadSnapshot = none →
    treeOf t id = tree ∧ t.headTreeHash = some (Hashing.contentHash tree.entries)

theorem snapshotHead_spec (hs : Valid F s) : ∃ branch id tree t,
    BranchName.new (s.headBranch.getD "main") = .ok branch ∧ s.dag.getBranch branch = some id ∧
      snapshotHead s = (.ok tree, t) ∧ HeadTreeRead s id tree t ∧ Valid F t ∧ Later s t := by
  obtain ⟨branch, id, hname, hget, hid, htip⟩ := headBranchTip_run hs
  obtain ⟨s₁, hs₁⟩ : ∃ s₁, s₁ = { s with
    cachedHeadBranch := some (s.headBranch.getD "main"), cachedHeadId := some id } := ⟨_, rfl⟩
  have hrun : setHeadCache (s.headBranch.getD "main") id s = (.ok (), s₁) := by
    rw [hs₁]
    rfl
  have hcache := safe_setHeadCache hs (s.headBranch.getD "main") hid
  have hvalid : Valid F s₁ := by
    have := hcache.inv
    rwa [hrun] at this
  have hle : Later s s₁ := by
    have := hcache.le
    rwa [hrun] at this
  refine ⟨branch, id, ?_⟩
  unfold snapshotHead
  rw [bind_of_ok htip]
  dsimp only
  rw [bind_of_ok hrun, read_bind]
  cases hsnapshot : s₁.cachedHeadSnapshot with
  | none =>
    obtain ⟨t, htake, htaken, ht, hle'⟩ := takeHeadTree_run hvalid (hle.grows.hasPatch hid)
    have hvalue : headTree s₁ id = headTree s id := by
      rw [hs₁]
      rfl
    have hnone : s.cachedHeadSnapshot = none := by rwa [hs₁] at hsnapshot
    rw [hvalue] at htake htaken
    refine ⟨headTree s id, t, hname, hget, htake, ⟨?_, ?_, by rw [hnone]; rfl, fun _ => ⟨htaken.stored, ?_⟩⟩,
      ht, hle.trans hle'⟩
    · rw [htaken.same, hs₁]
    · have hasked := htaken.asked
      rwa [hs₁] at hasked
    · rw [htaken.same]
  | some tree =>
    have hsome : s.cachedHeadSnapshot = some tree := by rwa [hs₁] at hsnapshot
    refine ⟨tree, s₁, hname, hget, rfl, ⟨?_, ?_, by rw [hsome]; rfl, fun hnone => ?_⟩, hvalid, hle⟩
    · rw [hs₁, ← hsome]
    · rw [hs₁]
      exact .refl s.dag
    · rw [hsome] at hnone
      cases hnone

/-- HEAD has a tree. -/
theorem snapshotHead_run (hs : Valid F s) :
    ∃ tree t, snapshotHead s = (.ok tree, t) ∧ Valid F t ∧ Later s t := by
  obtain ⟨-, -, tree, t, -, -, hrun, -, ht, hle⟩ := snapshotHead_spec hs
  exact ⟨tree, t, hrun, ht, hle⟩

theorem safe_of_run {α : Type} {m : Action H α}
    (h : ∃ a t, m s = (.ok a, t) ∧ Valid F t ∧ Later s t) : Safe F m s fun _ _ => True := by
  obtain ⟨a, t, hrun, ht, hle⟩ := h
  refine ⟨?_, ?_, fun _ _ => trivial⟩ <;> rw [hrun]
  · exact ht
  · exact hle

theorem safe_snapshotHead (hs : Valid F s) : Safe F snapshotHead s fun _ _ => True :=
  safe_of_run (snapshotHead_run hs)

theorem safe_orEmpty {m : Action H (FileTree H)} {Q : FileTree H → Repository H → Prop}
    (hm : Safe F m s Q) (hempty : ∀ t, Q .empty t) : Safe F (orEmpty m) s Q := by
  refine hm.attempt.bind fun r t ht _ hr => ?_
  cases r with
  | ok tree => exact Discipline.safe_pure ht (hr tree rfl)
  | error e => exact Discipline.safe_pure ht (hempty t)

end Suture.Repo
