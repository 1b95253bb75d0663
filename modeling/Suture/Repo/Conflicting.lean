import Suture.Repo.PassedFiles

/-!
# Conflicting merges

What a merge with conflicts returns, and all that it changes: the working files, the
blobs, the cache of HEAD and the parents of the commit that will resolve it.
-/

namespace Suture.Repo
set_option autoImplicit false
open Foundation Common Patches Dag Engine Program

variable {H : Type} [LinearOrder H] [Hashing H] {F : Prop} {s t : Repository H}

theorem Wrote.congr {s' : Repository H} {sides : MergeSides H} {conflicts : List (Conflict H)}
    {infos : List (ConflictInfo H)} (h : Wrote s' sides conflicts infos t)
    (hget : s'.dag.getPatch = s.dag.getPatch) (hfiles : s'.files = s.files)
    (hblobs : s'.blobs = s.blobs) : Wrote s sides conflicts infos t := by
  obtain ⟨hpaths, hmarked⟩ := passes_congr hget sides conflicts
  have hhandles : SecondHandles s'.dag sides conflicts = SecondHandles s.dag sides conflicts := by
    funext path
    rw [SecondHandles, SecondHandles, hpaths]
  have hmerged : TextsMerged s'.dag sides conflicts = TextsMerged s.dag sides conflicts := by
    funext path
    rw [TextsMerged, TextsMerged, hhandles]
  have hlossy : lossyMerge s' sides = lossyMerge s sides := by
    funext path
    simp only [lossyMerge, lossyContent, hblobs]
  have hsecond : secondContent s' sides = secondContent s sides := by
    funext path
    simp only [secondContent, lossyBytes, hlossy, hblobs]
  refine ⟨fun path => ?_, fun hash => ?_, h.infos, fun path => ?_⟩
  · rw [h.files]
    simp only [passedFile, markedPaths, hmarked, hhandles, hsecond, hfiles, hblobs]
  · rw [h.blobs]
    simp only [markedPaths, hmarked, hmerged, lossyBytes, hlossy, hblobs]
  · rw [h.reports]
    simp only [LeftOpen, markedPaths, hmarked, hmerged, hlossy]

/-- `s` with a merge under way: of the rest only files and blobs may differ. -/
def merging (s t : Repository H) (parents : List H) : Repository H :=
  { s with
    dag := t.dag, fileTrees := t.fileTrees, cachedHeadBranch := t.cachedHeadBranch,
    cachedHeadId := t.cachedHeadId, pendingMergeParents := parents, pendingRow := parents }

omit [Hashing H] in
theorem hollow_merging {s₁ s₃ : Repository H}
    (hlooked : s₁ = { s with dag := s₁.dag, fileTrees := s₁.fileTrees })
    (h : hollow s₃ = hollow s₁) (parents : List H) :
    let t := { s₃ with pendingMergeParents := parents, pendingRow := parents }
    hollow t = hollow (merging s t parents) := by
  rw [hlooked] at h
  simp only [hollow, Repository.mk.injEq] at h
  simp [merging, hollow, h]

/-- What a merge with conflicts comes to. -/
structure MergedInConflict (s : Repository H) (headId sourceTip : H) (headBranch sourceBranch : String)
    (plan : MergeResult H) (r : MergeExecutionResult H) (t : Repository H) (lcaId : H) : Prop where
  unclean : r.isClean = false
  noPatch : r.mergePatchId = none
  lca : (s.dag.lca headId sourceTip).1 = some lcaId
  tree : ∀ path, OneSided (sidesOf s headId sourceTip lcaId headBranch sourceBranch) path →
    r.mergedTree.get path = passedEntry s
      (sidesOf s headId sourceTip lcaId headBranch sourceBranch) plan.conflicts path
  wrote : Wrote s (sidesOf s headId sourceTip lcaId headBranch sourceBranch) plan.conflicts
    r.unresolvedConflicts t
  rest : hollow t = hollow (merging s t [headId, sourceTip])
  asked : PatchDag.Asked s.dag t.dag
  trees : ∀ id, s.dag.hasPatch id = true → treeOf t id = treeOf s id

theorem MergedInConflict.of_asked {s' : Repository H} (h : OnlyAsked s s') (hs : Valid F s)
    {headId sourceTip lcaId : H} (hhead : s.dag.hasPatch headId = true)
    (hsource : s.dag.hasPatch sourceTip = true) {headBranch sourceBranch : String}
    {plan : MergeResult H} {r : MergeExecutionResult H}
    (hm : MergedInConflict s' headId sourceTip headBranch sourceBranch plan r t lcaId) :
    MergedInConflict s headId sourceTip headBranch sourceBranch plan r t lcaId := by
  have hlca := (h.asked.queried.lca hs.sound.cache headId sourceTip).symm.trans hm.lca
  have hsides : sidesOf s' headId sourceTip lcaId headBranch sourceBranch =
      sidesOf s headId sourceTip lcaId headBranch sourceBranch := by
    unfold sidesOf
    rw [h.treeOf hs hhead, h.treeOf hs hsource, h.treeOf hs (PatchDag.lca_known hs.sound hhead hlca)]
  have hget : s'.dag.getPatch = s.dag.getPatch := funext h.asked.queried.same.getPatch
  obtain ⟨hpaths, hmarked⟩ := passes_congr hget
    (sidesOf s headId sourceTip lcaId headBranch sourceBranch) plan.conflicts
  refine ⟨hm.unclean, hm.noPatch, hlca, fun path hpath => ?_, ?_, ?_, h.asked.trans hm.asked,
    fun id hid => ?_⟩
  · rw [hm.tree path (hsides ▸ hpath), hsides, passedEntry, passedEntry, hpaths, hmarked, h.blobs]
  · exact (hsides ▸ hm.wrote).congr hget h.files h.blobs
  · rw [hm.rest, merging, h.same]
    rfl
  · rw [hm.trees id (h.asked.grows.hasPatch hid), h.treeOf hs hid]

theorem safe_executeConflictingMerge (hs : Valid F s) {headId sourceTip : H}
    (hhead : s.dag.hasPatch headId = true) (hsource : s.dag.hasPatch sourceTip = true)
    (sourceBranch headBranch : String) (plan : MergeResult H) :
    Safe F (executeConflictingMerge headId sourceTip sourceBranch headBranch plan) s fun r t =>
      ∃ lcaId, MergedInConflict s headId sourceTip headBranch sourceBranch plan r t lcaId := by
  refine safe_mergeTrees hs hhead hsource fun lcaId s₁ hlca hlooked hs₁ hle₁ => .read_bind ?_
  obtain ⟨sides, hsides⟩ : ∃ sides, sides = sidesOf s headId sourceTip lcaId headBranch sourceBranch :=
    ⟨_, rfl⟩
  have hstored : SidesStored s.blobs sides := by
    rw [hsides]
    exact ⟨hs.treeOf_stored lcaId, hs.treeOf_stored headId, hs.treeOf_stored sourceTip⟩
  have hblobs : s₁.blobs = s.blobs := by rw [hlooked.same]
  have hstored₁ : SidesStored s₁.blobs sides := by rwa [hblobs]
  have hget : s₁.dag.getPatch = s.dag.getPatch := funext hlooked.asked.queried.same.getPatch
  obtain ⟨hpaths, hmarked⟩ := passes_congr hget sides plan.conflicts
  obtain ⟨count, hfirst⟩ := applySourcePatches_run plan.conflicts hs₁
    plan.patchesBOnly ⟨treeOf s headId, 0, []⟩
  refine .step hfirst (Later.refl s₁) ?_
  rw [show (⟨treeOf s lcaId, treeOf s headId, treeOf s sourceTip, headBranch, sourceBranch⟩ :
    MergeSides H) = sides from hsides.symm]
  have hcontents := contents_mergeFiles sides plan.conflicts
    (conflictingBatchPaths s₁.dag plan.conflicts) ⟨treeOf s headId, count, []⟩
  refine ((safe_of_contents hcontents hs₁).and_run fun p t hrun => hrun).bind
    fun p₂ s₂ hs₂ hle₂ h₂ => ?_
  have hsecond := h₂.2
  have hmoved₂ := hcontents s₁
  rw [hsecond] at hmoved₂
  obtain ⟨hstored₂, htext₂⟩ := hstored₁.kept hmoved₂.2
  have hmarked₂ : markedPath s₂.dag sides = markedPath s.dag sides := by
    rw [dag_of_contents hmoved₂, hmarked]
  have hcontents := Quiet.foldEach (contents_markConflict sides) p₂ plan.conflicts
  refine ((safe_of_contents hcontents hs₂).and_run fun p t hrun => hrun).bind
    fun p₃ s₃ hs₃ hle₃ h₃ => ?_
  have hthird := h₃.2
  have hmoved₃ := hcontents s₂
  rw [hthird] at hmoved₃
  have hle := hle₁.trans (hle₂.trans hle₃)
  have hmoved := (contents H).trans hmoved₂ hmoved₃
  have hdag := dag_of_contents hmoved
  have hrows : (hollow s₃).fileTrees = (hollow s₁).fileTrees := by rw [hmoved.1]
  have hparents : ∀ q ∈ [headId, sourceTip], s.dag.hasPatch q = true := by
    simpa using ⟨hhead, hsource⟩
  have hs₄ : Valid F { s₃ with
      pendingMergeParents := [headId, sourceTip], pendingRow := [headId, sourceTip] } :=
    { hs₃ with pendingKnown := fun q hq => hle.grows.hasPatch (hparents q hq) }
  refine .step rfl (later_of_eq rfl rfl rfl) (Discipline.safe_pure hs₄
    ⟨lcaId, rfl, rfl, hlca, fun path hpath => ?_, ?_, ?_, ?_, fun id hid => ?_⟩)
  · rw [foldEach_markConflict_get path hstored₂ hthird,
      mergeFiles_get (hsides ▸ hpath) hstored₁.source hsecond, hpaths, hmarked₂, htext₂, hblobs,
      passedEntry, hsides]
    rfl
  · have hwrote := wrote_of_passes hstored₁ rfl hsecond hthird
    rw [← hsides]
    obtain ⟨hfiles, hnew, hinfos, hreports⟩ :=
      hwrote.congr hget (by rw [hlooked.same]) hblobs
    exact ⟨hfiles, hnew, hinfos, hreports⟩
  · exact hollow_merging hlooked.same hmoved.1 [headId, sourceTip]
  · exact hdag.symm ▸ hlooked.asked
  · rw [← hlooked.trees id hid, treeOf, treeOf, loadFileTree, loadFileTree]
    have hrows : s₃.fileTrees = s₁.fileTrees := hrows
    have hdag : s₃.dag = s₁.dag := hdag
    dsimp only
    rw [hrows, hdag]

end Suture.Repo
