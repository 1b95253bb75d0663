import Suture.Repo.Merged

/-!
# Previews of merges

A preview goes the way of the merge up to the plan, and from there compares the three
trees only. What it shows is read off the trees; what the merge leaves open is not.
-/

namespace Suture.Repo
set_option autoImplicit false
open Foundation Common Patches Dag Engine Program

variable {H : Type} [LinearOrder H] [Hashing H] {F : Prop} {s t : Repository H}
  {source : BranchName} {headId sourceTip lcaId : H}

/-! ### Up to the plan -/

section Plan
variable {α : Type}

/-- What the merge and its preview have in common. -/
def withPlan (source : BranchName) (k : String → H → H → MergeResult H → Action H α) :
    Action H α := do
  require ((← read).pendingMergeParents = []) .mergeInProgress
  let (headBranch, headId) ← head
  let sourceTip ← branchTarget source
  let headName ← branchName headBranch
  let plan ← updateDag fun d => d.mergeBranches headName source
  k headBranch headId sourceTip plan

/-- The state in which a plan is carried out, with what it is made of. -/
structure Planned (s : Repository H) (source : BranchName) (headBranch : String)
    (headId sourceTip : H) (headName : BranchName) (plan : MergeResult H) (u : Repository H) :
    Prop where
  input : MergeInput s source headBranch headId sourceTip headName plan
  asked : OnlyAsked s u
  valid : Valid False u
  headKnown : s.dag.hasPatch headId = true
  sourceKnown : s.dag.hasPatch sourceTip = true

theorem withPlan_run (hs : Valid False s) {k : String → H → H → MergeResult H → Action H α} {r : α}
    (hrun : withPlan source k s = (.ok r, t)) : ∃ headBranch headId sourceTip headName plan u,
      Planned s source headBranch headId sourceTip headName plan u ∧
      ∀ {β : Type} (k' : String → H → H → MergeResult H → Action H β),
        withPlan source k' s = k' headBranch headId sourceTip plan u := by
  unfold withPlan at hrun
  rw [read_bind] at hrun
  by_cases hpending : s.pendingMergeParents = []
  swap
  · rw [require_bind_of_not hpending] at hrun
    cases hrun
  rw [require_bind hpending] at hrun
  obtain ⟨⟨headBranch, headId⟩, s₁, hhead, hrun⟩ := bind_ok hrun
  obtain ⟨sourceTip, s₂, htarget, hrun⟩ := bind_ok hrun
  obtain ⟨headName, s₃, hname, hrun⟩ := bind_ok hrun
  obtain ⟨plan, u, hplan, hrun⟩ := bind_ok hrun
  obtain ⟨hheadKnown, hs₁⟩ := (safe_head hs).post _ (by rw [hhead])
  have hs₁ : s₁ = { s with cachedHeadBranch := some headBranch, cachedHeadId := some headId } := by
    rw [← hs₁, hhead]
  have hvalid₁ : Valid False s₁ := by
    have hinv := (safe_head hs).inv
    rwa [hhead] at hinv
  obtain ⟨hget, rfl⟩ := branchTarget_ok htarget
  obtain ⟨hname', hnew⟩ := (safe_branchName hvalid₁ headBranch).post headName (by rw [hname])
  obtain rfl : s₃ = s₂ := by rw [← hname', hname]
  have hasked := PatchDag.asked_mergeBranches hvalid₁.sound headName source
  have hsafe := safe_updateDag (f := fun d => d.mergeBranches headName source) (hvalid₁.asked hasked)
  obtain ⟨hplan', hu⟩ := hsafe.post plan (by rw [hplan])
  have hvalid : Valid False u := by
    have hinv := hsafe.inv
    rwa [hplan] at hinv
  have hu : u = { s₃ with dag := (s₃.dag.mergeBranches headName source).2 } := by rw [← hu, hplan]
  have hdag : s₃.dag = s.dag := by rw [hs₁]
  rw [hdag] at hget hplan'
  refine ⟨headBranch, headId, sourceTip, headName, plan, u, ⟨⟨?_, hnew, hget, hplan'⟩, ⟨?_, ?_⟩,
    hvalid, hheadKnown, hs.sound.targets _ _ hget⟩, ?_⟩
  · rw [hhead]
  · rw [hu, ← hdag]
    exact hasked
  · rw [hu, hs₁]
  · intro β k'
    unfold withPlan
    rw [read_bind, require_bind hpending, bind_of_ok hhead]
    dsimp only
    rw [bind_of_ok htarget, bind_of_ok hname, bind_of_ok hplan]

end Plan

/-! ### The tree of HEAD -/

theorem headTree_eq (s : Repository H) (id : H) : headTree s id =
    if s.headTreeHash = none ∨ s.headTreeHash = some (Hashing.contentHash (treeOf s id).entries) then
      treeOf s id
    else replay s.dag id := by
  unfold headTree treeOf
  cases loadFileTree s id with
  | none => simp
  | some tree => rfl

/-- Questions to the DAG and stored replays do not change the tree that HEAD shows. -/
theorem snapshotHead_kept (hs : Valid F s) (ht : Valid F t) (hasked : PatchDag.Asked s.dag t.dag)
    (htrees : ∀ id, s.dag.hasPatch id = true → treeOf t id = treeOf s id)
    (hbranch : t.headBranch = s.headBranch) (hhash : t.headTreeHash = s.headTreeHash)
    (hcached : t.cachedHeadSnapshot = s.cachedHeadSnapshot) :
    (snapshotHead t).1 = (snapshotHead s).1 := by
  obtain ⟨branch, id, tree, s', hname, hget, hrun, hread, -⟩ := snapshotHead_spec hs
  obtain ⟨branch', id', tree', t', hname', hget', hrun', hread', -⟩ := snapshotHead_spec ht
  rw [hbranch] at hname'
  cases hname.symm.trans hname'
  have hid := hs.sound.targets _ _ hget
  have hsame : t.dag.getBranch branch = s.dag.getBranch branch := by
    rw [PatchDag.getBranch, PatchDag.getBranch, hasked.queried.same.branches]
  cases hget.symm.trans (hsame.symm.trans hget')
  rw [hrun, hrun', hread.value, hread'.value, hcached, headTree_eq, headTree_eq, hhash,
    htrees id hid, replay_of_grows hasked.grows hs.sound.graded hid]

theorem Looked.snapshotHead (h : Looked s t) (hs : Valid F s) (ht : Valid F t) :
    (snapshotHead t).1 = (snapshotHead s).1 := by
  apply snapshotHead_kept hs ht h.asked h.trees <;> rw [h.same]

theorem OnlyAsked.snapshotHead (h : OnlyAsked s t) (hs : Valid F s) (ht : Valid F t) :
    (snapshotHead t).1 = (snapshotHead s).1 := by
  apply snapshotHead_kept hs ht h.asked (fun id hid => h.treeOf hs hid) <;> rw [h.same]

/-! ### The three trees -/

theorem findLca_run (hs : Valid F s) (hhead : s.dag.hasPatch headId = true)
    (hsource : s.dag.hasPatch sourceTip = true)
    (hlca : (s.dag.lca headId sourceTip).1 = some lcaId) :
    ∃ t, findLca headId sourceTip s = (.ok lcaId, t) ∧ Looked s t ∧ Valid F t := by
  have hasked := PatchDag.asked_lca hhead hsource
  refine ⟨{ s with dag := (s.dag.lca headId sourceTip).2 }, ?_, .of_asked hs hasked, (hs.asked hasked).1⟩
  have hquery : queryDag (fun d => d.lca headId sourceTip) s =
      (.ok (some lcaId), { s with dag := (s.dag.lca headId sourceTip).2 }) := by
    rw [← hlca]
    rfl
  unfold findLca
  rw [bind_of_ok hquery]
  rfl

/-- Looking up the trees of the source and of the common ancestor. -/
theorem previewTrees_run (hs : Valid F s) (hhead : s.dag.hasPatch headId = true)
    (hsource : s.dag.hasPatch sourceTip = true)
    (hlca : (s.dag.lca headId sourceTip).1 = some lcaId) {α : Type}
    (k : FileTree H → FileTree H → Action H α) :
    ∃ t, Looked s t ∧ Valid F t ∧ (do
      let sourceTree ← orEmpty (snapshot sourceTip)
      let lcaId ← findLca headId sourceTip
      let lcaTree ← orEmpty (snapshot lcaId)
      k sourceTree lcaTree) s = k (treeOf s sourceTip) (treeOf s lcaId) t := by
  obtain ⟨s₁, hrun₁, hlooked₁, hs₁, hle₁⟩ := snapshot_run hs hsource
  have hlca₁ : (s₁.dag.lca headId sourceTip).1 = some lcaId := by
    rw [hlooked₁.asked.queried.lca hs.sound.cache, hlca]
  obtain ⟨s₂, hrun₂, hlooked₂, hs₂⟩ := findLca_run hs₁ (hle₁.grows.hasPatch hhead)
    (hle₁.grows.hasPatch hsource) hlca₁
  have hlooked := hlooked₁.trans hlooked₂
  have hknown := PatchDag.lca_known hs.sound hhead hlca
  obtain ⟨t, hrun₃, hlooked₃, ht, -⟩ := snapshot_run hs₂ (hlooked.asked.grows.hasPatch hknown)
  rw [hlooked.trees lcaId hknown] at hrun₃
  refine ⟨t, hlooked.trans hlooked₃, ht, ?_⟩
  rw [bind_of_ok (orEmpty_run hrun₁), bind_of_ok hrun₂, bind_of_ok (orEmpty_run hrun₃)]

theorem previewCleanMerge_run (hs : Valid F s) (hhead : s.dag.hasPatch headId = true)
    (hsource : s.dag.hasPatch sourceTip = true)
    (hlca : (s.dag.lca headId sourceTip).1 = some lcaId) (plan : MergeResult H) :
    ∃ shown t, (snapshotHead s).1 = .ok shown ∧
      previewCleanMerge headId sourceTip plan s = (.ok ⟨true,
        (diffTrees (treeOf s lcaId) (treeOf s sourceTip)).foldl previewEntry shown, none, [],
        plan.patchesBOnly.length⟩, t) := by
  obtain ⟨s₁, hlooked, hs₁, hrun⟩ := previewTrees_run hs hhead hsource hlca fun sourceTree lcaTree => do
    let headTree ← orEmpty snapshotHead
    let mergedTree := (diffTrees lcaTree sourceTree).foldl previewEntry headTree
    return (⟨true, mergedTree, none, [], plan.patchesBOnly.length⟩ : MergeExecutionResult H)
  obtain ⟨shown, t, hshown, -⟩ := snapshotHead_run hs₁
  refine ⟨shown, t, ?_, ?_⟩
  · rw [← hlooked.snapshotHead hs hs₁, hshown]
  · unfold previewCleanMerge
    rw [hrun, bind_of_ok (orEmpty_run hshown)]
    rfl

/-! ### Open conflicts -/

/-- Both sides changed the path, each in its own way. -/
def ChangedApart (sides : MergeSides H) (path : String) : Prop :=
  BothChanged sides path ∧ sides.headTree.get path ≠ sides.sourceTree.get path

/-- What a preview with conflicts reports, of the three trees. -/
def previewed (headId sourceTip : H) (lcaTree headTree sourceTree : FileTree H) :
    List (ConflictInfo H) :=
  (headTree.keys ++ sourceTree.keys ++ lcaTree.keys).dedup.filterMap
    (previewConflict headId sourceTip lcaTree headTree sourceTree)

omit [Hashing H] in
theorem reports_previewed (sides : MergeSides H) {path : String} :
    Reports (previewed headId sourceTip sides.lcaTree sides.headTree sides.sourceTree) path ↔
      ChangedApart sides path := by
  unfold Reports previewed ChangedApart BothChanged
  simp only [List.mem_filterMap, List.mem_dedup, List.mem_append, SortedMap.mem_keys]
  constructor
  · rintro ⟨info, ⟨p, -, hinfo⟩, rfl⟩
    unfold previewConflict at hinfo
    dsimp only at hinfo
    split_ifs at hinfo with hsame hside
    cases hinfo
    rw [not_or] at hside
    exact ⟨⟨Ne.symm hside.1, hside.2⟩, hsame⟩
  · intro h
    obtain ⟨⟨hours, htheirs⟩, hsame⟩ := h
    have hinfo : previewConflict headId sourceTip sides.lcaTree sides.headTree sides.sourceTree path =
        some ⟨path, headId, sourceTip, sides.headTree.get path, sides.sourceTree.get path,
          sides.lcaTree.get path⟩ := by
      unfold previewConflict
      rw [if_neg hsame, if_neg (not_or.mpr ⟨Ne.symm hours, htheirs⟩)]
    refine ⟨_, ⟨path, ?_, hinfo⟩, rfl⟩
    by_contra hnone
    simp only [not_or, not_not] at hnone
    exact hsame (hnone.1.1.trans hnone.1.2.symm)

theorem previewConflictingMerge_run (hs : Valid F s) (hhead : s.dag.hasPatch headId = true)
    (hsource : s.dag.hasPatch sourceTip = true)
    (hlca : (s.dag.lca headId sourceTip).1 = some lcaId) (plan : MergeResult H) :
    ∃ shown t, previewConflictingMerge headId sourceTip plan s = (.ok ⟨false, shown, none,
      previewed headId sourceTip (treeOf s lcaId) (treeOf s headId) (treeOf s sourceTip),
      plan.patchesBOnly.length⟩, t) := by
  obtain ⟨s₁, hrun₁, hlooked₁, hs₁, hle₁⟩ := snapshot_run hs hhead
  have hlca₁ : (s₁.dag.lca headId sourceTip).1 = some lcaId := by
    rw [hlooked₁.asked.queried.lca hs.sound.cache, hlca]
  obtain ⟨s₂, -, hs₂, hrun⟩ := previewTrees_run hs₁ (hle₁.grows.hasPatch hhead)
    (hle₁.grows.hasPatch hsource) hlca₁ fun sourceTree lcaTree => do
      let mergedTree ← snapshotHead
      return (⟨false, mergedTree, none, previewed headId sourceTip lcaTree (treeOf s headId) sourceTree,
        plan.patchesBOnly.length⟩ : MergeExecutionResult H)
  obtain ⟨shown, t, hshown, -⟩ := snapshotHead_run hs₂
  rw [hlooked₁.trees _ hsource, hlooked₁.trees _ (PatchDag.lca_known hs.sound hhead hlca),
    bind_of_ok hshown] at hrun
  refine ⟨shown, t, ?_⟩
  unfold previewConflictingMerge
  rw [bind_of_ok (orEmpty_run hrun₁)]
  exact hrun

theorem threeWayMerge_same (base : Option String) (text headBranch sourceBranch : String) :
    ∃ content, threeWayMerge base text text headBranch sourceBranch = .ok content := by
  unfold threeWayMerge threeWayMergeLines
  dsimp only
  rw [if_pos rfl]
  exact ⟨_, rfl⟩

/-- Where merging the lines failed, both sides changed the path, each in its own way. -/
theorem changedApart_of_error {sides : MergeSides H} {conflicts : List (Conflict H)} {path : String}
    (h : TextsMerged s.dag sides conflicts path) {lines : List String}
    (herror : lossyMerge s sides path = .error lines) : ChangedApart sides path := by
  obtain ⟨⟨-, e, he, hepath⟩, hours⟩ := h
  refine ⟨⟨hours, ((diffTrees_sound he).ne (.inl hepath)).symm⟩, fun hsame => ?_⟩
  unfold lossyMerge at herror
  rw [hsame] at herror
  obtain ⟨content, hok⟩ := threeWayMerge_same (lossyContent s (sides.lcaTree.get path))
    ((lossyContent s (sides.sourceTree.get path)).getD "") sides.headBranch sides.sourceBranch
  cases hok.symm.trans herror

/-! ### The preview against the merge -/

/-- The tree that HEAD shows is the tree of the commit that it is at. -/
def HeadShown (s : Repository H) : Prop :=
  ∀ branch id, (head s).1 = .ok (branch, id) → (snapshotHead s).1 = (snapshot id s).1

/-- A preview `p` of a merge with the result `r`. Of the paths that it shows the merge leaves
those open where merging the lines fails, and those where the source has no batch. -/
structure Foretells (s : Repository H) (source : BranchName) (p r : MergeExecutionResult H) :
    Prop where
  clean : p.isClean = r.isClean
  tree : r.isClean = true → HeadShown s → p.mergedTree = r.mergedTree
  opened : r.isClean = false → ∃ headBranch headId sourceTip headName plan lcaId,
    MergeInput s source headBranch headId sourceTip headName plan ∧
    (s.dag.lca headId sourceTip).1 = some lcaId ∧
    let sides := sidesOf s headId sourceTip lcaId headBranch source.asStr
    ∀ path, (Reports p.unresolvedConflicts path ↔ ChangedApart sides path) ∧
      (Reports r.unresolvedConflicts path ↔ path ∈ markedPaths s.dag sides plan.conflicts ∨
        Reports p.unresolvedConflicts path ∧ SecondHandles s.dag sides plan.conflicts path ∧
          ∃ lines, lossyMerge s sides path = .error lines)

section Cases
variable {headBranch : String} {headName : BranchName} {plan : MergeResult H} {u : Repository H}
  {r : MergeExecutionResult H}

theorem foretells_unchanged (hu : Valid F u) (hrun : unchangedMerge u = (.ok r, t)) :
    Foretells s source r r := by
  have hclean := (safe_unchangedMerge hu).post r (by rw [hrun])
  exact ⟨rfl, fun _ _ => rfl, fun hconflicts => absurd hclean.1 (by simp [hconflicts])⟩

theorem Planned.foretells_clean (h : Planned s source headBranch headId sourceTip headName plan u)
    (hs : Valid False s) (hrun : executeCleanMerge headId sourceTip headBranch plan u = (.ok r, t)) :
    ∃ p v, previewCleanMerge headId sourceTip plan u = (.ok p, v) ∧ Foretells s source p r := by
  have hhead := h.asked.asked.grows.hasPatch h.headKnown
  have hsource := h.asked.asked.grows.hasPatch h.sourceKnown
  obtain ⟨id, lcaId, hm⟩ := (safe_executeCleanMerge h.valid hhead hsource headBranch plan).post r
    (by rw [hrun])
  obtain ⟨shown, v, hshown, hpreview⟩ := previewCleanMerge_run h.valid hhead hsource hm.lca plan
  refine ⟨_, v, hpreview, hm.clean.symm, fun _ hcurrent => ?_, fun hconflicts => ?_⟩
  · obtain ⟨s', hsnapshot, -⟩ := snapshot_run hs h.headKnown
    have hsame := hcurrent headBranch headId h.input.head
    rw [← h.asked.snapshotHead hs h.valid, hshown, hsnapshot, Except.ok.injEq] at hsame
    apply SortedMap.ext
    intro path
    rw [previewedTree_get, hm.tree, hsame, h.asked.treeOf hs h.headKnown]
  · cases hconflicts.symm.trans hm.clean

theorem Planned.foretells_conflicts
    (h : Planned s source headBranch headId sourceTip headName plan u) (hs : Valid False s)
    (hrun : executeConflictingMerge headId sourceTip source.asStr headBranch plan u = (.ok r, t)) :
    ∃ p v, previewConflictingMerge headId sourceTip plan u = (.ok p, v) ∧ Foretells s source p r := by
  have hhead := h.asked.asked.grows.hasPatch h.headKnown
  have hsource := h.asked.asked.grows.hasPatch h.sourceKnown
  obtain ⟨lcaId, hmu⟩ := (safe_executeConflictingMerge h.valid hhead hsource source.asStr headBranch
    plan).post r (by rw [hrun])
  obtain ⟨shown, v, hpreview⟩ := previewConflictingMerge_run h.valid hhead hsource hmu.lca plan
  have hm := hmu.of_asked h.asked hs h.headKnown h.sourceKnown
  have hlca := PatchDag.lca_known hs.sound h.headKnown hm.lca
  rw [h.asked.treeOf hs h.headKnown, h.asked.treeOf hs h.sourceKnown, h.asked.treeOf hs hlca] at hpreview
  refine ⟨_, v, hpreview, hm.unclean.symm, fun hclean => ?_, fun _ =>
    ⟨headBranch, headId, sourceTip, headName, plan, lcaId, h.input, hm.lca, fun path => ?_⟩⟩
  · cases hclean.symm.trans hm.unclean
  have hshown : Reports (previewed headId sourceTip (treeOf s lcaId) (treeOf s headId)
      (treeOf s sourceTip)) path ↔
      ChangedApart (sidesOf s headId sourceTip lcaId headBranch source.asStr) path :=
    reports_previewed (sidesOf s headId sourceTip lcaId headBranch source.asStr)
  refine ⟨hshown, ?_⟩
  rw [hm.wrote.reports]
  apply or_congr_right
  constructor
  · intro hopen
    obtain ⟨hmerged, lines, herror⟩ := hopen
    exact ⟨hshown.mpr (changedApart_of_error hmerged herror), hmerged.1, lines, herror⟩
  · intro hopen
    obtain ⟨hreported, hhandled, herror⟩ := hopen
    exact ⟨⟨hhandled, (hshown.mp hreported).1.1⟩, herror⟩

end Cases

theorem preview_foretells (hs : Reachable s) {r : MergeExecutionResult H}
    (hrun : executeMerge source s = (.ok r, t)) :
    ∃ p u, previewMerge source s = (.ok p, u) ∧ Foretells s source p r := by
  have hexecute : executeMerge source = withPlan source fun headBranch headId sourceTip plan =>
    if headId = sourceTip then unchangedMerge
    else if plan.patchesBOnly = [] ∧ plan.patchesAOnly = [] then unchangedMerge
    else if plan.isClean then executeCleanMerge headId sourceTip headBranch plan
    else executeConflictingMerge headId sourceTip source.asStr headBranch (plan : MergeResult H) := rfl
  have hpreview : previewMerge source = withPlan source fun _ headId sourceTip plan =>
    if headId = sourceTip then unchangedMerge
    else if plan.patchesBOnly = [] ∧ plan.patchesAOnly = [] then unchangedMerge
    else if plan.isClean then previewCleanMerge headId sourceTip plan
    else previewConflictingMerge headId sourceTip (plan : MergeResult H) := rfl
  rw [hexecute] at hrun
  obtain ⟨headBranch, headId, sourceTip, headName, plan, u, hplan, hwith⟩ := withPlan_run hs.valid hrun
  rw [hwith] at hrun
  rw [hpreview, hwith]
  by_cases hsame : headId = sourceTip
  · rw [if_pos hsame] at hrun ⊢
    exact ⟨r, t, hrun, foretells_unchanged hplan.valid hrun⟩
  rw [if_neg hsame] at hrun ⊢
  by_cases hnone : plan.patchesBOnly = [] ∧ plan.patchesAOnly = []
  · rw [if_pos hnone] at hrun ⊢
    exact ⟨r, t, hrun, foretells_unchanged hplan.valid hrun⟩
  rw [if_neg hnone] at hrun ⊢
  by_cases hclean : plan.isClean = true
  · rw [if_pos hclean] at hrun ⊢
    exact hplan.foretells_clean hs.valid hrun
  · rw [if_neg hclean] at hrun ⊢
    exact hplan.foretells_conflicts hs.valid hrun

theorem preview_foretells_clashing : ∃ p r u t, previewMerge .main (sample clashing) = (.ok p, u) ∧
    executeMerge .main (sample clashing) = (.ok r, t) ∧ Foretells (sample clashing) .main p r := by
  obtain ⟨r, hrun, -⟩ := executeMerge_clashing
  obtain ⟨p, u, hpreview, hforetells⟩ := preview_foretells (reachable_sample clashing) hrun
  exact ⟨p, r, u, _, hpreview, hrun, hforetells⟩

/-- The branches change different lines of `a`. -/
def linesApart : List (Event Hash) :=
  [.editFile "a" [49, 10, 50, 10, 51], .add "a", .commit "both", .createBranch side none,
    .editFile "a" [52, 10, 50, 10, 51], .add "a", .commit "main",
    .checkout (fun _ => false) (.name side),
    .editFile "a" [49, 10, 50, 10, 53], .add "a", .commit "side"]

/-- The branches add a file each; `main` is set back to where `side` left it, which HEAD does not
know of. -/
def setBack : List (Event Hash) :=
  let left := [.editFile "a" [49], .add "a", .commit "both", .createBranch side none]
  left ++ [.checkout (fun _ => false) (.name side), .editFile "c" [49], .add "c", .commit "side",
    .checkout (fun _ => false) (.name .main), .editFile "b" [49], .add "b", .commit "main",
    .reset (.name .main) .mixed, .readHead, .moveBranch .main (tipOf "main" (sample left))]

theorem preview_unlike_merge :
    (¬ ∀ (s t u : Repository Hash) (source : BranchName) (p r : MergeExecutionResult Hash),
      Reachable s → previewMerge source s = (.ok p, u) → executeMerge source s = (.ok r, t) →
      r.isClean = false →
      ∀ path, Reports p.unresolvedConflicts path ↔ Reports r.unresolvedConflicts path) ∧
    ¬ ∀ (s t u : Repository Hash) (source : BranchName) (p r : MergeExecutionResult Hash),
      Reachable s → previewMerge source s = (.ok p, u) → executeMerge source s = (.ok r, t) →
      r.isClean = true → p.mergedTree = r.mergedTree := by
  constructor
  · intro h
    obtain ⟨p, hp, hpaths⟩ := returns_of_map (m := previewMerge .main) (s := sample linesApart)
      (f := fun p => p.unresolvedConflicts.map (·.path)) (b := ["a"]) (by decide +kernel)
    obtain ⟨r, hr, hleft⟩ := returns_of_map (m := executeMerge .main) (s := sample linesApart)
      (f := fun r => (r.isClean, r.unresolvedConflicts)) (b := (false, [])) (by decide +kernel)
    obtain ⟨hclean, hopen⟩ := Prod.mk.inj hleft
    have hsame := h _ _ _ .main p r (reachable_sample linesApart) hp hr hclean "a"
    have hreported : Reports p.unresolvedConflicts "a" := by
      apply List.mem_map.mp
      rw [hpaths]
      exact List.mem_singleton_self "a"
    obtain ⟨info, hinfo, -⟩ := hsame.mp hreported
    rw [hopen] at hinfo
    cases hinfo
  · intro h
    obtain ⟨p, hp, hnone⟩ := returns_of_map (m := previewMerge side) (s := sample setBack)
      (f := fun p => p.mergedTree.get "b") (b := none) (by decide +kernel)
    obtain ⟨r, hr, hmerged⟩ := returns_of_map (m := executeMerge side) (s := sample setBack)
      (f := fun r => (r.isClean, (r.mergedTree.get "b").isSome)) (b := (true, true))
      (by decide +kernel)
    obtain ⟨hclean, hsome⟩ := Prod.mk.inj hmerged
    rw [← h _ _ _ side p r (reachable_sample setBack) hp hr hclean, hnone] at hsome
    cases hsome

end Suture.Repo
