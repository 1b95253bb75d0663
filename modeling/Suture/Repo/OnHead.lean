import Suture.Repo.Built

/-!
# HEAD after its branch has moved

Once a new patch is in the DAG and a branch points at it, what was known of HEAD is forgotten
and the working tree is brought to the tree of the branch that HEAD names.
-/

namespace Suture.Repo
set_option autoImplicit false
open Foundation Common Patches Dag Engine Program

variable {H : Type} [LinearOrder H] {s t : Repository H}

theorem Loaded.extends {d' : PatchDag H} (hs : Loaded s) {patch : Patch H} {headId : H}
    (hparents : patch.parentIds = [headId]) (hext : s.dag.Extends d' patch [headId]) :
    Loaded { s with dag := d' } := by
  refine ⟨hext.sound hs.sound hs.cacheKnown, hext.cacheKnown hs.cacheKnown, ?_, ?_⟩
  · intro id p hp q hq
    have hp : d'.getPatch id = some p := hp
    change d'.hasPatch q = true
    rw [PatchDag.getPatch_eq, hext.view] at hp
    split at hp
    · cases hp
      rw [hparents] at hq
      exact hext.grows.hasPatch (hext.parents_known q hq)
    · rw [← PatchDag.getPatch_eq] at hp
      exact hext.grows.hasPatch (hs.parentsKnown id p hp q hq)
  · intro id tree hid
    exact hext.grows.hasPatch (hs.rowsKnown id tree hid)

/-- A branch points at a patch that is there, and HEAD is forgotten. -/
theorem moveHead_run {branch : String} {id : H} (hid : s.dag.hasPatch id = true)
    (h : moveHead branch id s = (.ok (), t)) : t = { moved s branch id with
      cachedHeadSnapshot := none, cachedHeadId := none, cachedHeadBranch := none,
      headTreeHash := none } := by
  unfold moveHead at h
  rcases setBranch_cases hid branch with ⟨-, hset⟩ | ⟨-, e, hset⟩
  · rw [bind_of_ok hset] at h
    cases h
    rfl
  · rw [bind_of_error hset] at h
    cases h

theorem Loaded.moveHead (hs : Loaded s) {branch : String} {id : H} (hid : s.dag.hasPatch id = true)
    (h : moveHead branch id s = (.ok (), t)) : Loaded t := by
  have hset : Loaded (moved s branch id) :=
    ⟨hs.sound.setBranch branch hid, hs.cacheKnown, hs.parentsKnown, hs.rowsKnown⟩
  rw [moveHead_run hid h]
  exact { hset with }

variable [Hashing H]

theorem snapshotHead_cached {name : String} {id : H} {tree : FileTree H}
    (htip : headBranchTip s = (.ok (name, id), s)) (h : s.cachedHeadSnapshot = some tree) :
    (snapshotHead s).1 = .ok tree := by
  have hcache : setHeadCache name id s = (.ok (), { s with
      cachedHeadBranch := some name, cachedHeadId := some id }) := rfl
  unfold snapshotHead
  rw [bind_of_ok htip]
  dsimp only
  rw [bind_of_ok hcache, read_bind]
  dsimp only
  rw [h]
  rfl

/-- The tree of HEAD once the working tree was brought to it, after HEAD was forgotten. -/
structure Shows (s : Repository H) (id : H) (new : FileTree H) (t : Repository H) : Prop where
  tip : headBranchTip s = (.ok (s.headBranch.getD "main", id), s)
  tree : treeAt s id = .ok new
  shown : (snapshotHead t).1 = .ok new
  trees : ∀ j, s.dag.hasPatch j = true → t.dag.hasPatch j = true ∧ treeAt t j = treeAt s j
  loaded : Loaded t

theorem syncWorkingTree_shows (hs : Loaded s) (hnone : s.cachedHeadSnapshot = none)
    (hhash : s.headTreeHash = none) {oldTree : FileTree H}
    (h : syncWorkingTree oldTree s = (.ok (), t)) : ∃ id new, Shows s id new t := by
  obtain ⟨new, s₁, hhead, hbring⟩ := bind_ok h
  rcases htip : headBranchTip s with ⟨e | ⟨name, id⟩, s₂⟩
  · unfold snapshotHead at hhead
    rw [bind_of_error htip] at hhead
    cases hhead
  obtain ⟨rfl, rfl, -⟩ := headBranchTip_ok htip
  obtain ⟨htree, hcached, htip₁, hreads, htrees⟩ := snapshotHead_built hs htip hnone hhash hhead
  -- only files change after the tree of HEAD is read
  have hcontents : hollow t = hollow s₁ := by
    have hmoved := (contents_bringAlong oldTree new s₁).1
    change bringAlong oldTree new s₁ = _ at hbring
    rwa [hbring] at hmoved
  have hdag : (hollow t).dag = (hollow s₁).dag := by rw [hcontents]
  change t.dag = s₁.dag at hdag
  have hrows : (hollow t).fileTrees = (hollow s₁).fileTrees := by rw [hcontents]
  change t.fileTrees = s₁.fileTrees at hrows
  have hbranch : (hollow t).headBranch = (hollow s₁).headBranch := by rw [hcontents]
  change t.headBranch = s₁.headBranch at hbranch
  have hsnapshot : (hollow t).cachedHeadSnapshot = some new := by
    rw [hcontents]
    exact hcached
  have htip' : headBranchTip t = (.ok (t.headBranch.getD "main", id), t) := by
    obtain ⟨-, hlabel, branch, hname, hget⟩ := headBranchTip_ok htip₁
    rw [hlabel, ← hbranch] at hname
    rw [← hdag] at hget
    exact headBranchTip_eq hname hget
  refine ⟨id, new, htip, htree, snapshotHead_cached htip' hsnapshot, ?_, ?_⟩
  · intro j hj
    constructor
    · rw [hdag]
      exact hreads.asked.grows.hasPatch hj
    · rw [← htrees j hj]
      unfold treeAt loadFileTree
      rw [hrows, hdag]
  · refine ⟨?_, ?_, ?_, ?_⟩
    · rw [hdag]
      exact hreads.loaded.sound
    · rw [hdag]
      exact hreads.loaded.cacheKnown
    · rw [hdag]
      exact hreads.loaded.parentsKnown
    · rw [hdag, hrows]
      exact hreads.loaded.rowsKnown

/-- Reading the tree of HEAD does the same whatever is known of HEAD. -/
theorem treeAt_snapshotHead {branch : String} {headId : H}
    (ht : t = { s with cachedHeadBranch := some branch, cachedHeadId := some headId }) :
    treeAt (snapshotHead t).2 = treeAt (snapshotHead s).2 := by
  have hfst := headBranchTip_congr (t := t) (s := s) (by rw [ht]) (by rw [ht])
  have hsnd := headBranchTip_state t
  rcases htip : headBranchTip s with ⟨e | ⟨name, id⟩, s₁⟩
  · have hs₁ := headBranchTip_state s
    rw [htip] at hfst hs₁
    have htip' : headBranchTip t = (.error e, t) := Prod.ext hfst hsnd
    unfold snapshotHead
    rw [bind_of_error htip, bind_of_error htip', ht, ← hs₁]
    rfl
  · have hs₁ := headBranchTip_state s
    rw [htip] at hfst hs₁
    obtain rfl : s₁ = s := hs₁
    have htip' : headBranchTip t = (.ok (name, id), t) := Prod.ext hfst hsnd
    have hcache : setHeadCache name id t = setHeadCache name id s₁ := by
      rw [ht]
      rfl
    unfold snapshotHead
    rw [bind_of_ok htip, bind_of_ok htip']
    dsimp only
    rw [bind_of_ok (hcache.trans rfl), bind_of_ok (show setHeadCache name id s₁ = (.ok (), _) from rfl)]

omit [Hashing H] in
theorem orEmpty_state {m : Action H (FileTree H)} {tree : FileTree H}
    (h : orEmpty m s = (.ok tree, t)) : t = (m s).2 := by
  unfold orEmpty at h
  rw [attempt_bind (Prod.mk.eta (p := m s)).symm] at h
  revert h
  cases (m s).1 with
  | ok tree =>
    intro h
    cases h
    rfl
  | error e =>
    intro h
    cases h
    rfl

end Suture.Repo
