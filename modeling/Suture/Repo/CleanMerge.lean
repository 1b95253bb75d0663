import Suture.Repo.Commit

/-!
# Clean merges

A clean plan lets only one side edit a path. So path by path the joint history of the
tips replays to the entry of the side that moved away from the common ancestor, and the
merged tree has that entry of the stored trees.
-/

namespace Suture.Repo
set_option autoImplicit false
open Foundation Common Patches Dag Engine Program
open PatchDag (ListsOnly)

variable {H : Type} [LinearOrder H] [Hashing H] {F : Prop} {d d' : PatchDag H}
  {s t : Repository H}

/-- Theirs where it differs from the base, else ours. -/
def pick {α : Type} [DecidableEq α] (base ours theirs : α) : α := if theirs = base then ours else theirs

/-! ### The merged tree -/

omit [LinearOrder H] [Hashing H] in
/-- An entry of a difference gives the paths it concerns their new content. -/
theorem previewEntry_get {old new : FileTree H} {e : DiffEntry H} (he : EntryOk old new e)
    (tree : FileTree H) (path : String) :
    (e.Concerns path → (previewEntry tree e).get path = new.get path) ∧
      (¬ e.Concerns path → (previewEntry tree e).get path = tree.get path) := by
  obtain ⟨epath, dtype, oldHash, newHash⟩ := e
  have hput : ∀ hash, new.get epath = some hash → (∀ p q, dtype ≠ .renamed p q) →
      (DiffEntry.Concerns ⟨epath, dtype, oldHash, newHash⟩ path →
        (tree.insert epath hash).get path = new.get path) ∧
        (¬ DiffEntry.Concerns ⟨epath, dtype, oldHash, newHash⟩ path →
          (tree.insert epath hash).get path = tree.get path) := by
    intro hash hnew hplain
    rw [SortedMap.get_insert]
    constructor
    · rintro (rfl | ⟨q, hrenamed⟩)
      · rw [if_pos rfl]
        exact hnew.symm
      · exact absurd hrenamed (hplain path q)
    · exact fun hnot => if_neg fun heq => hnot (.inl heq.symm)
  unfold previewEntry
  cases dtype with
  | added =>
    obtain ⟨-, hash, hnew, rfl⟩ := he
    exact hput hash hnew nofun
  | modified =>
    obtain ⟨-, hash, -, hnew, -, rfl⟩ := he
    exact hput hash hnew nofun
  | deleted =>
    obtain ⟨hnew, -, -⟩ := he
    dsimp only
    rw [SortedMap.get_erase]
    constructor
    · rintro (rfl | ⟨q, hrenamed⟩)
      · rw [if_pos rfl]
        exact hnew.symm
      · cases hrenamed
    · exact fun hnot => if_neg fun heq => hnot (.inl heq.symm)
  | renamed oldPath newPath =>
    obtain ⟨hash, -, hgone, -, hnew, rfl, -⟩ := he
    dsimp only
    rw [SortedMap.get_insert, SortedMap.get_erase]
    constructor
    · rintro (rfl | ⟨q, hrenamed⟩)
      · rw [if_pos rfl]
        exact hnew.symm
      · cases hrenamed
        split
        · rename_i heq
          rw [heq]
          exact hnew.symm
        · rw [if_pos rfl]
          exact hgone.symm
    · intro hnot
      rw [if_neg fun heq => hnot (.inl heq.symm), if_neg fun heq => hnot (.inr ⟨newPath, ?_⟩)]
      rw [heq]

omit [LinearOrder H] [Hashing H] in
theorem foldl_previewEntry_get {old new : FileTree H} {es : List (DiffEntry H)}
    (hes : ∀ e ∈ es, EntryOk old new e) (tree : FileTree H) (path : String) :
    ((∃ e ∈ es, e.Concerns path) → (es.foldl previewEntry tree).get path = new.get path) ∧
      ((¬ ∃ e ∈ es, e.Concerns path) → (es.foldl previewEntry tree).get path = tree.get path) := by
  induction es generalizing tree with
  | nil => simp
  | cons e es ih =>
    obtain ⟨hhere, hkept⟩ := previewEntry_get (hes e (List.mem_cons_self ..)) tree path
    obtain ⟨hin, hout⟩ := ih (fun e' he' => hes e' (List.mem_cons_of_mem _ he')) (previewEntry tree e)
    rw [List.foldl_cons]
    simp only [List.exists_mem_cons_iff, not_or]
    by_cases hlater : ∃ e ∈ es, e.Concerns path
    · exact ⟨fun _ => hin hlater, fun h => absurd hlater h.2⟩
    · rw [hout hlater]
      exact ⟨fun h => hhere (h.resolve_right hlater), fun h => hkept h.1⟩

omit [Hashing H] in
theorem previewedTree_get (lcaTree headTree sourceTree : FileTree H) (path : String) :
    ((diffTrees lcaTree sourceTree).foldl previewEntry headTree).get path =
      pick (lcaTree.get path) (headTree.get path) (sourceTree.get path) := by
  obtain ⟨hin, hout⟩ := foldl_previewEntry_get
    (fun e (he : e ∈ diffTrees lcaTree sourceTree) => diffTrees_sound he) headTree path
  rw [exists_concerns_iff] at hin hout
  unfold pick
  split
  · rename_i heq
    exact hout fun hne => hne heq.symm
  · rename_i hne
    exact hin (Ne.symm hne)

/-! ### The executed tree -/

omit [Hashing H] in
/-- An entry that is executed does to the tree what its preview does. -/
theorem mergeEntry_ok {tree tree' : FileTree H} {e : DiffEntry H}
    (hrun : mergeEntry tree e s = (.ok tree', t)) : tree' = previewEntry tree e := by
  obtain ⟨epath, dtype, oldHash, newHash⟩ := e
  have hput : ∀ hash, (do
      let blob ← getBlob hash
      writeFile epath blob
      return tree.insert epath hash : Action H (FileTree H)) s = (.ok tree', t) →
      tree' = tree.insert epath hash := by
    intro hash hrun
    obtain ⟨blob, s₁, -, hrun⟩ := bind_ok hrun
    obtain ⟨-, s₂, -, hrun⟩ := bind_ok hrun
    cases hrun
    rfl
  cases dtype with
  | added | modified =>
    cases newHash with
    | none =>
      cases hrun
      rfl
    | some hash => exact hput hash hrun
  | deleted =>
    cases hrun
    rfl
  | renamed oldPath newPath =>
    obtain ⟨-, s₁, -, hrun⟩ := bind_ok hrun
    cases oldHash with
    | none | some hash =>
      cases hrun
      rfl

omit [Hashing H] in
theorem foldEach_mergeEntry {es : List (DiffEntry H)} {tree tree' : FileTree H}
    (hrun : foldEach mergeEntry tree es s = (.ok tree', t)) : tree' = es.foldl previewEntry tree := by
  induction es generalizing s tree with
  | nil =>
    cases hrun
    rfl
  | cons e es ih =>
    obtain ⟨next, s₁, hstep, hrest⟩ := bind_ok hrun
    rw [ih hrest, mergeEntry_ok hstep, List.foldl_cons]

omit [Hashing H] in
theorem mergedTree_get {lcaTree headTree sourceTree mergedTree : FileTree H}
    (hrun : foldEach mergeEntry headTree (diffTrees lcaTree sourceTree) s = (.ok mergedTree, t))
    (path : String) :
    mergedTree.get path = pick (lcaTree.get path) (headTree.get path) (sourceTree.get path) := by
  rw [foldEach_mergeEntry hrun, previewedTree_get]

/-! ### One path of a replay -/

/-- What a patch makes of the entry of a path. -/
def entryStep (d : PatchDag H) (path : String) (entry : Option H) (id : H) : Option H :=
  (((d.getPatch id).bind Patch.fileChanges).getD []).foldl (entryAfter path) entry

def edits (d : PatchDag H) (path : String) (id : H) : Bool :=
  (((d.getPatch id).bind Patch.fileChanges).getD []).any fun c => decide (c.path = path)

omit [Hashing H] in
theorem entryStep_of_not_edits {path : String} {id : H} (h : edits d path id = false)
    (entry : Option H) : entryStep d path entry id = entry := by
  refine foldl_entryAfter_of_notMem (fun c hc hpath => ?_) entry
  have hany : edits d path id = true := List.any_eq_true.mpr ⟨c, hc, by rw [hpath]; exact decide_eq_true rfl⟩
  rw [h] at hany
  cases hany

theorem Valid.get_replayed (hs : Valid F s) (path : String) (ids : List H) (tree : FileTree H) :
    ((ids.filterMap s.dag.getPatch).foldl patched tree).get path =
      ids.foldl (entryStep s.dag path) (tree.get path) := by
  induction ids generalizing tree with
  | nil => rfl
  | cons id ids ih =>
    cases hget : s.dag.getPatch id with
    | none =>
      rw [List.filterMap_cons_none hget, ih, List.foldl_cons, entryStep, hget]
      rfl
    | some p =>
      rw [List.filterMap_cons_some hget, List.foldl_cons, ih, (hs.patches id p hget).get_patched,
        List.foldl_cons, entryStep, hget]
      rfl

omit [Hashing H] in
theorem foldl_entryStep_filter (path : String) (ids : List H) (entry : Option H) :
    ids.foldl (entryStep d path) entry = (ids.filter (edits d path)).foldl (entryStep d path) entry := by
  induction ids generalizing entry with
  | nil => rfl
  | cons id ids ih =>
    cases hedits : edits d path id with
    | true => rw [List.filter_cons_of_pos hedits, List.foldl_cons, List.foldl_cons, ih]
    | false =>
      rw [List.filter_cons_of_neg (by simp [hedits]), List.foldl_cons, entryStep_of_not_edits hedits, ih]

omit [Hashing H] in
/-- Two histories with the same edits of a path make the same entry of it. -/
theorem foldl_entryStep_congr {path : String} {l m : List H} (hl : l.Pairwise (LexLt d.generation))
    (hm : m.Pairwise (LexLt d.generation))
    (h : ∀ p, edits d path p = true → (p ∈ l ↔ p ∈ m)) (entry : Option H) :
    l.foldl (entryStep d path) entry = m.foldl (entryStep d path) entry := by
  rw [foldl_entryStep_filter, foldl_entryStep_filter path m]
  congr 1
  refine lex_ext (hl.filter _) (hm.filter _) fun p => ?_
  rw [List.mem_filter, List.mem_filter]
  exact and_congr_left (h p)

/-- A patch that edits a path touches it. -/
theorem Valid.touches_of_edits (hs : Valid F s) {path : String} {id : H}
    (h : edits s.dag path id = true) :
    ∃ p, s.dag.getPatch id = some p ∧ p.isIdentity = false ∧ path ∈ p.touchSet := by
  obtain ⟨c, hc, hpath⟩ := List.any_eq_true.mp h
  cases hget : s.dag.getPatch id with
  | none =>
    rw [hget] at hc
    cases hc
  | some p =>
    rw [hget, Option.bind_some] at hc
    cases hchanges : p.fileChanges with
    | none =>
      rw [hchanges] at hc
      cases hc
    | some changes =>
      rw [hchanges] at hc
      obtain ⟨hbatch, -⟩ := (hs.patches id p hget).changes hchanges
      refine ⟨p, rfl, ?_, (hbatch.touched path).mpr ⟨c, hc, of_decide_eq_true hpath⟩⟩
      rw [Patch.isIdentity, hbatch.operation]
      rfl

/-- The plan of two tips over a common ancestor, with no conflict. -/
structure CleanPlan (d : PatchDag H) (a b m : H) (r : MergeResult H) : Prop where
  shared : d.Shared a b m
  aOnly : ListsOnly d r.patchesAOnly a m
  bOnly : ListsOnly d r.patchesBOnly b m
  clean : ∀ i ∈ r.patchesAOnly, ∀ j ∈ r.patchesBOnly, ∀ c, ¬ ConflictOf d.getPatch c i j

/-- Only one side edits a path. -/
theorem CleanPlan.one_sided {a b m : H} {r : MergeResult H} (h : CleanPlan s.dag a b m r)
    (hs : Valid F s) (path : String) :
    (∀ i ∈ r.patchesAOnly, edits s.dag path i = false) ∨
      ∀ j ∈ r.patchesBOnly, edits s.dag path j = false := by
  by_contra hboth
  simp only [not_or, not_forall, Bool.not_eq_false] at hboth
  obtain ⟨⟨i, hi, hedits⟩, j, hj, hedits'⟩ := hboth
  obtain ⟨p, hp, hident, htouch⟩ := hs.touches_of_edits hedits
  obtain ⟨q, hq, hident', htouch'⟩ := hs.touches_of_edits hedits'
  exact h.clean i hi j hj _ ⟨p, q, hp, hq, ⟨hident, hident', path, htouch, htouch'⟩, rfl⟩

/-- Path by path the joint history replays to the entry of the side that changed it. -/
theorem CleanPlan.jointReplay_get {a b m : H} {r : MergeResult H} (h : CleanPlan s.dag a b m r)
    (hs : Valid F s) (path : String) :
    (jointReplay s.dag [a, b]).get path = pick ((replay s.dag m).get path)
      ((replay s.dag a).get path) ((replay s.dag b).get path) := by
  have hreplay : ∀ id, (replay s.dag id).get path =
      (s.dag.chain id).foldl (entryStep s.dag path) none := fun id => hs.get_replayed path _ .empty
  have hjoint : (jointReplay s.dag [a, b]).get path =
      (s.dag.jointChain [a, b]).foldl (entryStep s.dag path) none := hs.get_replayed path _ .empty
  rw [hjoint, hreplay, hreplay, hreplay]
  have hmem : ∀ p, p ∈ s.dag.jointChain [a, b] ↔ s.dag.History a p ∨ s.dag.History b p := fun p => by
    simp [PatchDag.mem_jointChain]
  -- One side's edits of the path are those of the ancestor, the other side's are all there are.
  have hsame : ∀ {tip : H} {l : List H}, ListsOnly s.dag l tip m → s.dag.History tip m →
      (∀ i ∈ l, edits s.dag path i = false) →
      ∀ p, edits s.dag path p = true → (s.dag.History tip p ↔ s.dag.History m p) := by
    intro tip l hl htip hnone p hedits
    refine ⟨fun hp => ?_, htip.trans⟩
    by_contra hnot
    rw [hnone p ((hl.mem p).mpr ⟨hp, hnot⟩)] at hedits
    cases hedits
  have hcongr := fun {l l' : List H} (hl : l.Pairwise (LexLt s.dag.generation)) hl' h =>
    @foldl_entryStep_congr H _ s.dag path l l' hl hl' h none
  unfold pick
  rcases h.one_sided hs path with hnone | hnone
  · have hours := hsame h.aOnly h.shared.1 hnone
    rw [hcongr (s.dag.jointChain_sorted [a, b]) (s.dag.chain_sorted b) fun p hp => ?_]
    · rw [hcongr (s.dag.chain_sorted a) (s.dag.chain_sorted m) fun p hp => by
        rw [PatchDag.mem_chain, PatchDag.mem_chain, hours p hp]]
      split
      · assumption
      · rfl
    · rw [hmem, PatchDag.mem_chain, hours p hp]
      exact ⟨fun h' => h'.elim h.shared.2.trans id, .inr⟩
  · have htheirs := hsame h.bOnly h.shared.2 hnone
    rw [hcongr (s.dag.chain_sorted b) (s.dag.chain_sorted m) fun p hp => by
      rw [PatchDag.mem_chain, PatchDag.mem_chain, htheirs p hp], if_pos rfl]
    refine hcongr (s.dag.jointChain_sorted [a, b]) (s.dag.chain_sorted a) fun p hp => ?_
    rw [hmem, PatchDag.mem_chain, htheirs p hp]
    exact ⟨fun h' => h'.elim id h.shared.1.trans, .inl⟩

theorem jointReplay_of_grows (h : d.Grows d') (hd : d.Graded) {ids : List H}
    (hids : ∀ q ∈ ids, d.hasPatch q = true) : jointReplay d' ids = jointReplay d ids := by
  unfold jointReplay
  rw [h.jointChain hd hids]
  refine congrArg (List.foldl patched .empty) (List.filterMap_congr fun p hp => ?_)
  obtain ⟨q, hq, hqp⟩ := PatchDag.mem_jointChain.mp hp
  exact h.getPatch (hd.history_known hqp (hids q hq))

/-! ### The merge -/

theorem safe_findLca (hs : Valid F s) {headId sourceTip : H} (hhead : s.dag.hasPatch headId = true)
    (hsource : s.dag.hasPatch sourceTip = true) :
    Safe F (findLca headId sourceTip) s fun m t =>
      (s.dag.lca headId sourceTip).1 = some m ∧ t.dag.hasPatch m = true ∧ Looked s t := by
  refine (safe_queryDag hs (PatchDag.asked_lca hhead hsource)).bind fun m t ht hle h => ?_
  obtain ⟨hm, hsame⟩ := h
  cases m with
  | none => exact Discipline.safe_fail ht _
  | some lcaId =>
    refine Discipline.safe_pure ht ⟨hm.symm, ?_, ?_⟩
    · exact hle.grows.hasPatch (PatchDag.lca_known hs.sound hhead hm.symm)
    · rw [hsame]
      exact .of_asked hs (PatchDag.asked_lca hhead hsource)

omit [Hashing H] in
theorem orEmpty_run {m : Action H (FileTree H)} {tree : FileTree H} (h : m s = (.ok tree, t)) :
    orEmpty m s = (.ok tree, t) := by
  unfold orEmpty
  rw [bind_of_ok (show m.attempt s = (.ok (.ok tree), t) by rw [attempt, h])]
  rfl

/-- Looking up the three trees of a merge. -/
theorem safe_mergeTrees (hs : Valid F s) {headId sourceTip : H}
    (hhead : s.dag.hasPatch headId = true) (hsource : s.dag.hasPatch sourceTip = true)
    {α : Type} {k : FileTree H → FileTree H → FileTree H → Action H α}
    {Q : α → Repository H → Prop}
    (hk : ∀ lcaId t, (s.dag.lca headId sourceTip).1 = some lcaId → Looked s t → Valid F t →
      Later s t → Safe F (k (treeOf s headId) (treeOf s sourceTip) (treeOf s lcaId)) t Q) :
    Safe F (do
      let headTree ← snapshot headId
      let sourceTree ← snapshot sourceTip
      let lcaId ← findLca headId sourceTip
      let lcaTree ← orEmpty (snapshot lcaId)
      k headTree sourceTree lcaTree) s Q := by
  refine (safe_snapshot hs hhead).bind fun headTree s₁ hs₁ hle₁ h₁ => ?_
  obtain ⟨rfl, hlooked₁⟩ := h₁
  refine (safe_snapshot hs₁ (hle₁.grows.hasPatch hsource)).bind fun sourceTree s₂ hs₂ hle₂ h₂ => ?_
  obtain ⟨rfl, hlooked₂⟩ := h₂
  rw [hlooked₁.trees sourceTip hsource]
  have hlooked := hlooked₁.trans hlooked₂
  have hle := hle₁.trans hle₂
  refine (safe_findLca hs₂ (hle.grows.hasPatch hhead) (hle.grows.hasPatch hsource)).bind
    fun lcaId s₃ hs₃ hle₃ h₃ => ?_
  obtain ⟨hlca, hknown, hlooked₃⟩ := h₃
  rw [hlooked.asked.queried.lca hs.sound.cache] at hlca
  have hlooked := hlooked.trans hlooked₃
  have hle := hle.trans hle₃
  obtain ⟨s₄, hrun, hlooked₄, hs₄, hle₄⟩ := snapshot_run hs₃ hknown
  rw [hlooked.trees lcaId (PatchDag.lca_known hs.sound hhead hlca)] at hrun
  exact .step (orEmpty_run hrun) hle₄ (hk lcaId s₄ hlca (hlooked.trans hlooked₄) hs₄ (hle.trans hle₄))

/-- `t` is `s` with questions asked. -/
structure OnlyAsked (s t : Repository H) : Prop where
  asked : PatchDag.Asked s.dag t.dag
  same : t = { s with
    dag := t.dag, cachedHeadBranch := t.cachedHeadBranch, cachedHeadId := t.cachedHeadId }

omit [Hashing H] in
theorem OnlyAsked.rows (h : OnlyAsked s t) : t.fileTrees = s.fileTrees := by rw [h.same]

omit [Hashing H] in
theorem OnlyAsked.blobs (h : OnlyAsked s t) : t.blobs = s.blobs := by rw [h.same]

omit [Hashing H] in
theorem OnlyAsked.files (h : OnlyAsked s t) : t.files = s.files := by rw [h.same]

theorem OnlyAsked.treeOf (h : OnlyAsked s t) (hs : Valid F s) {id : H}
    (hid : s.dag.hasPatch id = true) : treeOf t id = treeOf s id :=
  treeOf_congr hs h.rows h.asked.grows hid

/-- What a clean merge comes to. -/
structure MergedCleanly (s : Repository H) (headId sourceTip : H) (r : MergeExecutionResult H)
    (t : Repository H) (id lcaId : H) : Prop where
  clean : r.isClean = true
  mergeId : r.mergePatchId = some id
  lca : (s.dag.lca headId sourceTip).1 = some lcaId
  tree : ∀ path, r.mergedTree.get path = pick ((treeOf s lcaId).get path)
    ((treeOf s headId).get path) ((treeOf s sourceTip).get path)
  known : t.dag.hasPatch id = true
  replay : replay t.dag id = jointReplay s.dag [headId, sourceTip]

theorem MergedCleanly.of_asked {s' : Repository H} (h : OnlyAsked s s') (hs : Valid F s)
    {headId sourceTip id lcaId : H} (hhead : s.dag.hasPatch headId = true)
    (hsource : s.dag.hasPatch sourceTip = true) {r : MergeExecutionResult H}
    (hm : MergedCleanly s' headId sourceTip r t id lcaId) :
    MergedCleanly s headId sourceTip r t id lcaId where
  clean := hm.clean
  mergeId := hm.mergeId
  lca := (h.asked.queried.lca hs.sound.cache headId sourceTip).symm.trans hm.lca
  tree := fun path => by
    have hlca := (h.asked.queried.lca hs.sound.cache headId sourceTip).symm.trans hm.lca
    rw [hm.tree, h.treeOf hs hhead, h.treeOf hs hsource, h.treeOf hs (PatchDag.lca_known hs.sound hhead hlca)]
  known := hm.known
  replay := by
    have hparents : ∀ q ∈ [headId, sourceTip], s.dag.hasPatch q = true := by
      simpa using ⟨hhead, hsource⟩
    rw [hm.replay, jointReplay_of_grows h.asked.grows hs.sound.graded hparents]

theorem safe_executeCleanMerge (hs : Valid F s) {headId sourceTip : H}
    (hhead : s.dag.hasPatch headId = true) (hsource : s.dag.hasPatch sourceTip = true)
    (headBranch : String) (plan : MergeResult H) :
    Safe F (executeCleanMerge headId sourceTip headBranch plan) s fun r t =>
      ∃ id lcaId, MergedCleanly s headId sourceTip r t id lcaId := by
  refine safe_mergeTrees hs hhead hsource fun lcaId s₁ hlca hlooked hs₁ hle₁ => ?_
  have hmerge := safe_of_contents (Quiet.foldEach contents_mergeEntry (treeOf s headId)
    (diffTrees (treeOf s lcaId) (treeOf s sourceTip))) hs₁
  refine (hmerge.and_run fun tree t hrun => mergedTree_get hrun).bind
    fun mergedTree s₂ hs₂ hle₂ h₂ => .read_bind ?_
  obtain ⟨-, htree⟩ := h₂
  have hstore := safe_of_still (still_storePatch (Patch.new .merge .empty none (.text .empty)
    [headId, sourceTip] s₂.author ("Merge branch '" ++ Hashing.toHex sourceTip ++ "' into " ++
      headBranch) s₂.clock)) hs₂
  refine .step rfl hstore.le ?_
  have hle : Later s _ := (hle₁.trans hle₂).trans hstore.le
  have hparents : ∀ q ∈ [headId, sourceTip], s.dag.hasPatch q = true := by
    simpa using ⟨hhead, hsource⟩
  have hmerge : OperationType.merge ≠ .batch := nofun
  refine (safe_addPatch hstore.inv (new_ok hmerge (fun q hq => hle.grows.hasPatch (hparents q hq))
    _ _ _ _ _) _).bind fun mergeId s₃ hs₃ hle₃ h₃ => ?_
  obtain ⟨rfl, -, hext⟩ := h₃
  refine (safe_moveHead hs₃ headBranch _).bind fun _ s₄ hs₄ hle₄ _ => ?_
  have hnew := (hext.hasPatch _).mpr (.inl rfl)
  refine Discipline.safe_pure hs₄ ⟨_, lcaId, rfl, rfl, hlca, htree, hle₄.grows.hasPatch hnew, ?_⟩
  rw [replay_of_grows hle₄.grows hs₃.sound.graded hnew, replay_new hext hstore.inv.sound.graded,
    jointReplay_of_grows hle.grows hs.sound.graded hparents]
  rfl

end Suture.Repo
