import Suture.Repo.Reachable

/-!
# What merges report

The merged tree that a merge returns, against the tree that its commit replays to and
against the changes that only one side made.
-/

namespace Suture.Repo
set_option autoImplicit false
open Foundation Common Patches Dag Engine Program

variable {H : Type} [LinearOrder H] [Hashing H] {s t : Repository H} {source : BranchName}
  {r : MergeExecutionResult H} {headId sourceTip lcaId : H}

theorem pick_spec {α : Type} [DecidableEq α] {base ours theirs merged : α} :
    merged = pick base ours theirs →
      (theirs = base → merged = ours) ∧ (ours = base → merged = theirs) := by
  rintro rfl
  unfold pick
  refine ⟨fun h => if_pos h, fun h => ?_⟩
  split
  · rename_i heq
    rw [h, heq]
  · rfl

/-- The trees of HEAD, the source and their common ancestor. -/
structure MergeTrees (s : Repository H) (source : BranchName) (headId sourceTip lcaId : H)
    (ours theirs base : FileTree H) : Prop where
  head : ∃ branch, (head s).1 = .ok (branch, headId)
  source : s.dag.getBranch source = some sourceTip
  lca : (s.dag.lca headId sourceTip).1 = some lcaId
  ours : (snapshot headId s).1 = .ok ours
  theirs : (snapshot sourceTip s).1 = .ok theirs
  base : (snapshot lcaId s).1 = .ok base

section
variable {ours theirs base : FileTree H}

/-- What the three trees have at a path, as the snapshots give it. -/
theorem MergeTrees.gets (h : MergeTrees s source headId sourceTip lcaId ours theirs base)
    (path : String) :
    ours.get path = (snapshot headId s).1.toOption.bind (·.get path) ∧
      theirs.get path = (snapshot sourceTip s).1.toOption.bind (·.get path) ∧
      base.get path = (snapshot lcaId s).1.toOption.bind (·.get path) := by
  rw [h.ours, h.theirs, h.base]
  exact ⟨rfl, rfl, rfl⟩

theorem MergeTrees.headId_eq (h : MergeTrees s source headId sourceTip lcaId ours theirs base) :
    (Repo.head s).1.toOption.map Prod.snd = some headId := by
  obtain ⟨branch, hhead⟩ := h.head
  rw [hhead]
  rfl

end

theorem MergeInput.trees {headBranch : String} {headName : BranchName} {plan : MergeResult H}
    (h : MergeInput s source headBranch headId sourceTip headName plan) (hs : Valid False s)
    (hlca : (s.dag.lca headId sourceTip).1 = some lcaId) {headId' sourceTip' lcaId' : H}
    {ours theirs base : FileTree H} :
    MergeTrees s source headId' sourceTip' lcaId' ours theirs base ↔
      headId' = headId ∧ sourceTip' = sourceTip ∧ lcaId' = lcaId ∧ ours = treeOf s headId ∧
        theirs = treeOf s sourceTip ∧ base = treeOf s lcaId := by
  have hhead : s.dag.hasPatch headId = true := ((safe_head hs).post _ h.head).1
  have hsource := hs.sound.targets _ _ h.target
  have htree : ∀ {id}, s.dag.hasPatch id = true → ∀ tree,
      (snapshot id s).1 = .ok tree ↔ tree = treeOf s id := fun hid tree => by
    obtain ⟨t, hrun, -⟩ := snapshot_run hs hid
    rw [hrun, Except.ok.injEq]
    exact eq_comm
  have hlca' := htree (PatchDag.lca_known hs.sound hhead hlca)
  constructor
  · rintro ⟨⟨branch, hhead'⟩, hsource', hlca'', hours, htheirs, hbase⟩
    rw [h.head] at hhead'
    cases hhead'
    rw [h.target] at hsource'
    cases hsource'
    rw [hlca] at hlca''
    cases hlca''
    exact ⟨rfl, rfl, rfl, (htree hhead _).mp hours, (htree hsource _).mp htheirs, (hlca' _).mp hbase⟩
  · rintro ⟨rfl, rfl, rfl, rfl, rfl, rfl⟩
    exact ⟨⟨_, h.head⟩, h.target, hlca, (htree hhead _).mpr rfl, (htree hsource _).mpr rfl,
      (hlca' _).mpr rfl⟩

omit [Hashing H] in
theorem MergeInput.unique {headBranch headBranch' : String} {headId' sourceTip' : H}
    {headName headName' : BranchName} {plan plan' : MergeResult H}
    (h : MergeInput s source headBranch headId sourceTip headName plan)
    (h' : MergeInput s source headBranch' headId' sourceTip' headName' plan') :
    headBranch = headBranch' ∧ headId = headId' ∧ sourceTip = sourceTip' ∧ headName = headName' ∧
      plan = plan' := by
  cases h.head.symm.trans h'.head
  cases h.name.symm.trans h'.name
  cases h.target.symm.trans h'.target
  cases h.plan.symm.trans h'.plan
  exact ⟨rfl, rfl, rfl, rfl, rfl⟩

/-! ### Clean merges -/

/-- The merged tree is what the merge replays to, and has the changes of both sides. -/
def ReportsCommitted (s : Repository H) (source : BranchName) (r : MergeExecutionResult H)
    (t : Repository H) (id : H) : Prop :=
  ∃ headId sourceTip lcaId ours theirs base,
    MergeTrees s source headId sourceTip lcaId ours theirs base ∧
    (snapshotFresh id t).1 = .ok r.mergedTree ∧
    ∀ path, (theirs.get path = base.get path → r.mergedTree.get path = ours.get path) ∧
      (ours.get path = base.get path → r.mergedTree.get path = theirs.get path)

/-- The stored trees give each path the entry that the replayed ones give it. With another
tip of the branch than HEAD as it is cached, the plan says nothing of the replays. -/
def StoredPicksReplayed (s : Repository H) (source : BranchName) : Prop :=
  ∃ headBranch headId sourceTip lcaId headName plan,
    MergeInput s source headBranch headId sourceTip headName plan ∧
    (s.dag.lca headId sourceTip).1 = some lcaId ∧
    ∀ path, pick ((treeOf s lcaId).get path) ((treeOf s headId).get path)
        ((treeOf s sourceTip).get path) =
      if s.dag.getBranch headName = some headId then
        pick ((replay s.dag lcaId).get path) ((replay s.dag headId).get path)
          ((replay s.dag sourceTip).get path)
      else (jointReplay s.dag [headId, sourceTip]).get path

theorem MergeInput.cleanPlan {headBranch : String} {headName : BranchName} {plan : MergeResult H}
    (h : MergeInput s source headBranch headId sourceTip headName plan) (hs : Valid False s)
    (hlca : (s.dag.lca headId sourceTip).1 = some lcaId) (hclean : plan.isClean = true)
    (htip : s.dag.getBranch headName = some headId) :
    CleanPlan s.dag headId sourceTip lcaId plan := by
  obtain ⟨r, hr, hA, hB, hempty, hconf, -⟩ := PatchDag.plan_spec hs.sound htip h.target hlca
  have hplan := h.plan
  rw [hr] at hplan
  cases hplan
  refine ⟨((PatchDag.lca_spec hs.sound headId sourceTip).2 lcaId hlca).1, hA, hB, ?_⟩
  intro i hi j hj c hc
  rw [hempty, List.isEmpty_iff] at hclean
  have hmem := (hconf c).mpr ⟨i, hi, j, hj, hc⟩
  rw [hclean] at hmem
  cases hmem

theorem merge_reports_iff (hs : Reachable s) (hrun : executeMerge source s = (.ok r, t)) {id : H}
    (hid : r.mergePatchId = some id) :
    ReportsCommitted s source r t id ↔ StoredPicksReplayed s source := by
  have hsafe := safe_executeMerge hs.valid source
  have ht : Valid False t := by
    have hinv := hsafe.inv
    rwa [hrun] at hinv
  obtain ⟨headBranch, headId, sourceTip, headName, plan, hinput, hout⟩ : MergeOutcome s source r t := by
    have hpost := hsafe.post r
    rw [hrun] at hpost
    exact hpost rfl
  obtain ⟨hclean, id', lcaId, hm⟩ : plan.isClean = true ∧
      ∃ id lcaId, MergedCleanly s headId sourceTip r t id lcaId := by
    rcases hout with ⟨-, hnone⟩ | hclean | ⟨-, lcaId, hm⟩
    · rw [hnone] at hid
      cases hid
    · exact hclean
    · rw [hm.noPatch] at hid
      cases hid
  cases hid.symm.trans hm.mergeId
  obtain ⟨d, -, hfresh⟩ := snapshotUncached_run ht hm.known
  have hfresh : (snapshotFresh id t).1 = .ok r.mergedTree ↔
      ∀ path, r.mergedTree.get path = (jointReplay s.dag [headId, sourceTip]).get path := by
    change (snapshotUncached id t).1 = _ ↔ _
    rw [hfresh, hm.replay, Except.ok.injEq]
    exact ⟨fun h path => by rw [h], fun h => SortedMap.ext fun path => (h path).symm⟩
  have hjoint : ∀ path, (jointReplay s.dag [headId, sourceTip]).get path =
      if s.dag.getBranch headName = some headId then
        pick ((replay s.dag lcaId).get path) ((replay s.dag headId).get path)
          ((replay s.dag sourceTip).get path)
      else (jointReplay s.dag [headId, sourceTip]).get path := fun path => by
    split
    · rename_i htip
      exact (hinput.cleanPlan hs.valid hm.lca hclean htip).jointReplay_get hs.valid path
    · rfl
  constructor
  · rintro ⟨headId', sourceTip', lcaId', ours, theirs, base, htrees, hreported, -⟩
    refine ⟨headBranch, headId, sourceTip, lcaId, headName, plan, hinput, hm.lca, fun path => ?_⟩
    rw [← hm.tree, ← hjoint]
    exact hfresh.mp hreported path
  · rintro ⟨headBranch', headId', sourceTip', lcaId', headName', plan', hinput', hlca', hpicks⟩
    obtain ⟨rfl, rfl, rfl, rfl, rfl⟩ := hinput.unique hinput'
    cases hm.lca.symm.trans hlca'
    refine ⟨headId, sourceTip, lcaId, _, _, _,
      (hinput.trees hs.valid hm.lca).mpr ⟨rfl, rfl, rfl, rfl, rfl, rfl⟩, hfresh.mpr fun path => ?_,
      fun path => pick_spec (hm.tree path)⟩
    rw [hm.tree, hjoint, hpicks]

/-- With fresh stored trees, and HEAD at the tip of its branch, a clean merge reports what it
commits. -/
theorem StoredPicksReplayed.of_fresh (hs : Valid True s) {headBranch : String}
    {headName : BranchName} {plan : MergeResult H}
    (h : MergeInput s source headBranch headId sourceTip headName plan)
    (hlca : (s.dag.lca headId sourceTip).1 = some lcaId)
    (htip : s.dag.getBranch headName = some headId) : StoredPicksReplayed s source := by
  refine ⟨headBranch, headId, sourceTip, lcaId, headName, plan, h, hlca, fun path => ?_⟩
  rw [if_pos htip, hs.treeOf_eq trivial, hs.treeOf_eq trivial, hs.treeOf_eq trivial]

theorem merge_reports_apart : ∃ r id,
    ReportsCommitted (sample apart) .main r (executeMerge .main (sample apart)).2 id := by
  obtain ⟨r, hrun, hsome⟩ := returns_of_map (m := executeMerge .main) (s := sample apart)
    (f := fun r => r.mergePatchId.isSome) (b := true) (by decide +kernel)
  obtain ⟨id, hid⟩ := Option.isSome_iff_exists.mp hsome
  obtain ⟨plan, hplan⟩ := ok_of_isSome (r := ((sample apart).dag.mergeBranches side .main).1)
    (by decide +kernel)
  have hinput : MergeInput (sample apart) .main "side" (tipOf "side" (sample apart))
      (tipOf "main" (sample apart)) side plan :=
    ⟨by decide +kernel, by decide +kernel, by decide +kernel, hplan⟩
  have hlca : ((sample apart).dag.lca (tipOf "side" (sample apart))
      (tipOf "main" (sample apart))).1 = some (tipOf "main" (sample (apart.take 4))) := by
    decide +kernel
  have hfresh : Valid True (sample apart) :=
    Valid.fresh_of_run (Run.of_allows apart (by decide +kernel))
  exact ⟨r, id, (merge_reports_iff (reachable_sample apart) hrun hid).mpr
    (.of_fresh hfresh hinput hlca (by decide +kernel))⟩

/-- `main` goes on after the merge that was resolved without its file `b`. -/
def resolvedApart : List (Event Hash) :=
  halfResolved ++ [.checkout (fun _ => false) (.name .main), .editFile "c" [49], .add "c",
    .commit "more", .checkout (fun _ => false) (.name side)]

theorem reported_tree_not_committed : ¬ ∀ (s t : Repository Hash) (source : BranchName)
    (r : MergeExecutionResult Hash) (id : Hash), Reachable s →
      executeMerge source s = (.ok r, t) → r.mergePatchId = some id →
      ReportsCommitted s source r t id := by
  intro h
  obtain ⟨r, hrun⟩ := returns_of_isSome (m := executeMerge .main) (s := sample resolvedApart)
    (by decide +kernel)
  generalize ht : (executeMerge .main (sample resolvedApart)).2 = t at hrun
  have hid : (executeMerge .main (sample resolvedApart)).1.toOption.bind (·.mergePatchId) =
      some (tipOf "side" t) := by
    subst ht
    decide +kernel
  rw [hrun] at hid
  obtain ⟨-, -, -, -, -, -, -, hfresh, -⟩ := h _ t .main r _ (reachable_sample _) hrun hid
  have hsame : (snapshotFresh (tipOf "side" t) t).1.toOption =
      (executeMerge .main (sample resolvedApart)).1.toOption.map (·.mergedTree) := by
    rw [hfresh, hrun]
    rfl
  subst ht
  exact absurd hsame (by decide +kernel)

/-! ### Merges with conflicts -/

/-- The merged tree has every change that one side alone made. -/
def AppliesOneSided (s : Repository H) (source : BranchName) (r : MergeExecutionResult H) : Prop :=
  ∃ headId sourceTip lcaId ours theirs base,
    MergeTrees s source headId sourceTip lcaId ours theirs base ∧
    ∀ path, (ours.get path = base.get path → r.mergedTree.get path = theirs.get path) ∧
      (theirs.get path = base.get path → r.mergedTree.get path = ours.get path)

/-- The third pass writes what the one side has, and what only the source changed is left to
the second pass. -/
def PassesCover (s : Repository H) (source : BranchName) : Prop :=
  ∃ headBranch headId sourceTip lcaId headName plan,
    MergeInput s source headBranch headId sourceTip headName plan ∧
    (s.dag.lca headId sourceTip).1 = some lcaId ∧
    let sides := sidesOf s headId sourceTip lcaId headBranch source.asStr
    ∀ path, OneSided sides path →
      if path ∈ plan.conflicts.filterMap (markedPath s.dag sides) then
        some (Hashing.fromData (encode (markedText s.blobs sides path))) =
          pick (sides.lcaTree.get path) (sides.headTree.get path) (sides.sourceTree.get path)
      else sides.sourceTree.get path ≠ sides.lcaTree.get path →
        path ∈ conflictingBatchPaths s.dag plan.conflicts ∧
          ∃ e ∈ diffTrees sides.lcaTree sides.sourceTree, e.path = path

theorem passedEntry_eq_pick_iff (s : Repository H) (sides : MergeSides H)
    (conflicts : List (Conflict H)) (path : String) (hpath : OneSided sides path) :
    passedEntry s sides conflicts path =
        pick (sides.lcaTree.get path) (sides.headTree.get path) (sides.sourceTree.get path) ↔
      if path ∈ conflicts.filterMap (markedPath s.dag sides) then
        some (Hashing.fromData (encode (markedText s.blobs sides path))) =
          pick (sides.lcaTree.get path) (sides.headTree.get path) (sides.sourceTree.get path)
      else sides.sourceTree.get path ≠ sides.lcaTree.get path →
        path ∈ conflictingBatchPaths s.dag conflicts ∧
          ∃ e ∈ diffTrees sides.lcaTree sides.sourceTree, e.path = path := by
  unfold passedEntry
  split
  · rfl
  unfold pick
  by_cases htheirs : sides.sourceTree.get path = sides.lcaTree.get path
  · refine iff_of_true ?_ fun hne => absurd htheirs hne
    rw [if_pos htheirs, if_neg]
    rintro ⟨-, e, he, hepath⟩
    exact (diffTrees_sound he).ne (.inl hepath) htheirs.symm
  · have hours : sides.headTree.get path ≠ sides.sourceTree.get path := fun h =>
      htheirs (h.symm.trans (hpath.resolve_right htheirs).symm)
    rw [if_neg htheirs, ite_eq_left_iff]
    refine ⟨fun h _ => ?_, fun h hnot => absurd (h htheirs) hnot⟩
    by_contra hnot
    exact hours (h hnot)

/-- What a merge that is not clean comes to. -/
theorem mergedInConflict (hs : Valid False s) (hrun : executeMerge source s = (.ok r, t))
    (hconflicts : r.isClean = false) : ∃ headBranch headId sourceTip headName plan lcaId,
      MergeInput s source headBranch headId sourceTip headName plan ∧
      MergedInConflict s headId sourceTip headBranch source.asStr plan r t lcaId := by
  obtain ⟨headBranch, headId, sourceTip, headName, plan, hinput, hout⟩ : MergeOutcome s source r t := by
    have hpost := (safe_executeMerge hs source).post r
    rw [hrun] at hpost
    exact hpost rfl
  rcases hout with ⟨hclean, -⟩ | ⟨-, id, lcaId, hm⟩ | ⟨-, lcaId, hm⟩
  · rw [hconflicts] at hclean
    cases hclean
  · cases hconflicts.symm.trans hm.clean
  · exact ⟨headBranch, headId, sourceTip, headName, plan, lcaId, hinput, hm⟩

theorem conflicting_merge_applies_iff (hs : Reachable s)
    (hrun : executeMerge source s = (.ok r, t)) (hconflicts : r.isClean = false) :
    AppliesOneSided s source r ↔ PassesCover s source := by
  obtain ⟨headBranch, headId, sourceTip, headName, plan, lcaId, hinput, hm⟩ :=
    mergedInConflict hs.valid hrun hconflicts
  have hpick := passedEntry_eq_pick_iff s
    (sidesOf s headId sourceTip lcaId headBranch source.asStr) plan.conflicts
  constructor
  · rintro ⟨headId', sourceTip', lcaId', ours, theirs, base, htrees, happlied⟩
    obtain ⟨rfl, rfl, rfl, rfl, rfl, rfl⟩ := (hinput.trees hs.valid hm.lca).mp htrees
    refine ⟨headBranch, headId', sourceTip', lcaId', headName, plan, hinput, hm.lca, ?_⟩
    intro sides path hpath
    refine (hpick path hpath).mp ?_
    rw [← hm.tree path hpath, pick]
    split
    · rename_i htheirs
      exact (happlied path).2 htheirs
    · rename_i htheirs
      exact (happlied path).1 ((hpath.resolve_right htheirs).symm)
  · rintro ⟨headBranch', headId', sourceTip', lcaId', headName', plan', hinput', hlca', hcover⟩
    obtain ⟨rfl, rfl, rfl, rfl, rfl⟩ := hinput.unique hinput'
    cases hm.lca.symm.trans hlca'
    refine ⟨headId, sourceTip, lcaId, _, _, _,
      (hinput.trees hs.valid hm.lca).mpr ⟨rfl, rfl, rfl, rfl, rfl, rfl⟩, fun path => ?_⟩
    have hmerged : ∀ hpath, r.mergedTree.get path = _ := fun hpath =>
      (hm.tree path hpath).trans ((hpick path hpath).mpr (hcover path hpath))
    exact ⟨fun h => (pick_spec (hmerged (.inl h.symm))).2 h,
      fun h => (pick_spec (hmerged (.inr h))).1 h⟩

/-- Both branches change `a` and nothing else. -/
def clashing : List (Event Hash) :=
  [.editFile "a" [49], .add "a", .commit "both", .createBranch side none,
    .editFile "a" [50], .add "a", .commit "main", .checkout (fun _ => false) (.name side),
    .editFile "a" [51], .add "a", .commit "side"]

theorem executeMerge_clashing : ∃ r, executeMerge .main (sample clashing) =
    (.ok r, (executeMerge .main (sample clashing)).2) ∧ r.isClean = false :=
  returns_of_map (by decide +kernel)

theorem conflicting_merge_applies_clashing : ∃ r t,
    executeMerge .main (sample clashing) = (.ok r, t) ∧
      (AppliesOneSided (sample clashing) .main r ↔ PassesCover (sample clashing) .main) := by
  obtain ⟨r, hrun, hconflicts⟩ := executeMerge_clashing
  exact ⟨r, _, hrun, conflicting_merge_applies_iff (reachable_sample clashing) hrun hconflicts⟩

/-- In `forked` only `main` adds `b`, in the batch that also conflicts on `a`. -/
theorem one_sided_change_lost : ¬ ∀ (s t : Repository Hash) (source : BranchName)
    (r : MergeExecutionResult Hash), Reachable s → executeMerge source s = (.ok r, t) →
      r.isClean = false → AppliesOneSided s source r := by
  intro h
  obtain ⟨r, hrun, hshown⟩ := returns_of_map (m := executeMerge .main) (s := sample forked)
    (f := fun r => (r.isClean, r.mergedTree.get "b")) (b := (false, none)) (by decide +kernel)
  obtain ⟨hconflicts, hmerged⟩ := Prod.mk.inj hshown
  obtain ⟨headId, sourceTip, lcaId, ours, theirs, base, htrees, happlied⟩ :=
    h _ _ .main r (reachable_sample forked) hrun hconflicts
  have hhead : headId = tipOf "side" (sample forked) :=
    Option.some.inj (htrees.headId_eq.symm.trans (by decide +kernel))
  have hsource : sourceTip = tipOf "main" (sample forked) :=
    Option.some.inj (htrees.source.symm.trans (by decide +kernel))
  have hlca := htrees.lca
  rw [hhead, hsource] at hlca
  have hlca : lcaId = tipOf "main" (sample (forked.take 4)) :=
    Option.some.inj (hlca.symm.trans (by decide +kernel))
  obtain ⟨hours, htheirs, hbase⟩ := htrees.gets "b"
  have happlied := (happlied "b").1
  rw [hours, hbase, htheirs, hhead, hsource, hlca, hmerged] at happlied
  revert happlied
  decide +kernel

end Suture.Repo
