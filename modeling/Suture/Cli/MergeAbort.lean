import Suture.Repo.Merged
import Suture.Repo.Sync

/-!
# Aborting a merge

A command opens the repository anew: caches are empty, and a merge that waits for its
commit is read back from its row. `merge --abort` moves the branch of HEAD to where it already
is and brings the working tree along from the tree of HEAD to the tree of HEAD. What the merge
wrote stays.
-/

namespace Suture.Cli
set_option autoImplicit false
open Foundation Common Patches Dag Engine Program Repo

section Opened
variable {H : Type} [LinearOrder H]

/-- `user_error`: the failure, in a context. -/
def inContext {α : Type} (context : String) (m : Repo.Action H α) : Repo.Action H α :=
  fun s => ((m s).1.mapError (.command context), (m s).2)

/-- What `Repository::open` makes of what another process has left. -/
def opened (s : Repository H) : Repository H :=
  { s with
    cachedHeadSnapshot := none, cachedHeadId := none, cachedHeadBranch := none,
    pendingMergeParents := s.pendingRow }

def openRepository : Repo.Action H Unit := modify opened

theorem inContext_ok {α : Type} {context : String} {m : Repo.Action H α} {s t : Repository H}
    {a : α} (h : m s = (.ok a, t)) : inContext context m s = (.ok a, t) := by
  rw [inContext, h]
  rfl

/-! ### HEAD of an opened repository -/

variable {s t : Repository H}

theorem head_opened (s : Repository H) : head (opened s) = lookUpHead (opened s) := rfl

/-- All that HEAD is looked up from. -/
structure SameHead (s t : Repository H) : Prop where
  detached : t.detached = s.detached
  detachedHead : t.detachedHead = s.detachedHead
  headBranch : t.headBranch = s.headBranch
  branches : ∀ name, t.dag.getBranch name = s.dag.getBranch name

theorem SameHead.lookUpHead (h : SameHead s t) : (lookUpHead t).1 = (lookUpHead s).1 := by
  have htip : (headBranchTip t).1 = (headBranchTip s).1 := by
    unfold headBranchTip
    rw [read_bind, read_bind, h.headBranch]
    cases hname : BranchName.new (s.headBranch.getD "main") with
    | error e =>
      rw [bind_of_error (show branchName _ t = (.error (.name e), t) by rw [branchName, hname]; rfl),
        bind_of_error (show branchName _ s = (.error (.name e), s) by rw [branchName, hname]; rfl)]
    | ok branch =>
      rw [bind_of_ok (show branchName _ t = (.ok branch, t) by rw [branchName, hname]; rfl),
        bind_of_ok (show branchName _ s = (.ok branch, s) by rw [branchName, hname]; rfl),
        h.branches]
      cases s.dag.getBranch branch with
      | none | some id => rfl
  unfold Repo.lookUpHead
  rw [read_bind, read_bind, h.detached, h.detachedHead]
  split
  · cases s.detachedHead with
    | none | some id => rfl
  · rcases hs : headBranchTip s with ⟨e | r, s'⟩ <;> rcases ht : headBranchTip t with ⟨e' | r', t'⟩ <;>
      rw [hs, ht] at htip <;> cases htip
    · rw [bind_of_error hs, bind_of_error ht]
    · rw [bind_of_ok hs, bind_of_ok ht]
      rfl

theorem SameHead.head_opened (h : SameHead s t) : (head (opened t)).1 = (head (opened s)).1 :=
  SameHead.lookUpHead (s := opened s) (t := opened t)
    ⟨h.detached, h.detachedHead, h.headBranch, h.branches⟩

variable [Hashing H] {F : Prop}

theorem valid_opened (hs : Valid F s) (hrow : ∀ id ∈ s.pendingRow, s.dag.hasPatch id = true) :
    Valid F (opened s) :=
  { hs with
    cachedKnown := nofun
    pendingKnown := hrow }

end Opened

/-! ### Aborting -/

variable {H : Type} [LinearOrder H] [Hashing H] {F : Prop} {s t : Repository H}
  {source : BranchName} {r : MergeExecutionResult H}

def cmdMergeAbort : Repo.Action H Unit := do
  openRepository
  match (← read).pendingRow with
  | [] => return ()
  | [originalHead, _] =>
    let (branch, _) ← inContext "failed to get HEAD" head
    let oldTree ← orEmpty snapshotHead
    let name ← inContext ("invalid branch name '" ++ branch ++ "'") (branchName branch)
    inContext "failed to update branch" (updateDag fun d => d.updateBranch name originalHead)
    invalidateHeadCache
    inContext "failed to sync working tree" (syncWorkingTree oldTree)
    modify fun s => { s with pendingRow := [] }
  | parents =>
    fail (.message ("invalid pending_merge_parents (expected 2 entries, got " ++
      toString parents.length ++ ")"))

/-! ### What is to be restored -/

/-- The repository is as it was found before the merge. -/
structure Restored (s u : Repository H) : Prop where
  files : u.files = s.files
  staged : u.workingSet = s.workingSet
  head : (head (opened u)).1 = (head (opened s)).1
  branches : ∀ name, u.dag.getBranch name = s.dag.getBranch name
  branchRows : u.branchRows = s.branchRows
  parents : (opened u).pendingMergeParents = []

/-- `merge --abort`, after a merge that was started in `s` has left `t`. -/
def AbortRestores (s t : Repository H) : Prop := ∃ u, cmdMergeAbort t = (.ok (), u) ∧ Restored s u

/-! ### The run -/

omit [Hashing H] in
theorem PatchDag.updateBranch_run {d : PatchDag H} {name : BranchName} {old target : H}
    (hname : d.getBranch name = some old) (htarget : d.hasPatch target = true) :
    d.updateBranch name target =
      (.ok (), { d with branches := Assoc.insert name.asStr target d.branches }) := by
  rw [PatchDag.updateBranch, hname, htarget]
  rfl

/-- What an aborted merge leaves alone. -/
def kept (s : Repository H) : SortedMap String FileStatus × SortedMap String H × Bool × Option H ×
    Option String := (s.workingSet, s.branchRows, s.detached, s.detachedHead, s.headBranch)

theorem cmdMergeAbort_run (hs : Valid F s) {originalHead sourceTip old : H}
    (hrow : s.pendingRow = [originalHead, sourceTip])
    (hparents : ∀ id ∈ s.pendingRow, s.dag.hasPatch id = true) {label : String} {headId : H}
    {name : BranchName} (hhead : (head (opened s)).1 = .ok (label, headId))
    (hname : BranchName.new label = .ok name) (hold : s.dag.getBranch name = some old) :
    ∃ u, cmdMergeAbort s = (.ok (), u) ∧ kept u = kept s ∧ u.pendingRow = [] ∧
      (∀ other, u.dag.getBranch other =
        if other = name then some originalHead else s.dag.getBranch other) ∧
      (old = originalHead → u.files = s.files) := by
  have hs₀ := valid_opened hs hparents
  rcases hrun : head (opened s) with ⟨res, s₁⟩
  obtain rfl : res = .ok (label, headId) := by rwa [hrun] at hhead
  obtain ⟨hs₁, hid, -, hvalid₁, -⟩ := head_ok hs₀ hrun
  obtain ⟨branch, id, tree, s₂, hbranch, hget, htree, hread, hvalid₂, hle₂⟩ :=
    snapshotHead_spec hvalid₁
  have hget₂ : ∀ other, s₂.dag.getBranch other = s.dag.getBranch other := fun other => by
    rw [PatchDag.getBranch, hread.asked.queried.same.branches, hs₁]
    rfl
  have hknown : s₂.dag.hasPatch originalHead = true := by
    rw [hread.asked.hasPatch, hs₁]
    exact hparents originalHead (by rw [hrow]; exact List.mem_cons_self ..)
  have hupdate : updateDag (fun d => d.updateBranch name originalHead) s₂ = (.ok (), { s₂ with
      dag := { s₂.dag with branches := Assoc.insert name.asStr originalHead s₂.dag.branches } }) := by
    rw [updateDag_run, PatchDag.updateBranch_run ((hget₂ name).trans hold) hknown]
    rfl
  have hvalid₃ := (safe_moveBranch hvalid₂ name originalHead).inv
  rw [hupdate] at hvalid₃
  obtain ⟨s₄, hs₄⟩ : ∃ s₄, s₄ = { s₂ with
      dag := { s₂.dag with branches := Assoc.insert name.asStr originalHead s₂.dag.branches }
      cachedHeadSnapshot := none, cachedHeadId := none, cachedHeadBranch := none,
      headTreeHash := none } := ⟨_, rfl⟩
  have hvalid₄ : Valid F s₄ := by
    rw [hs₄]
    exact { hvalid₃ with cachedKnown := fun id h => absurd h.symm (Option.some_ne_none id) }
  obtain ⟨branch', id', t, u, hbranch', hget', hread', hsync, hmoved, hsame⟩ :=
    syncWorkingTree_run hvalid₄ (by rw [hs₄]) tree
  have hrest : hollow u = hollow t := hmoved.1
  have hkept : kept t = kept s := by
    rw [hread'.same, hs₄, hread.same, hs₁]
    rfl
  refine ⟨{ u with pendingRow := [] }, ?_, ?_, rfl, fun other => ?_, fun hold' => ?_⟩
  · unfold cmdMergeAbort openRepository
    rw [modify_bind, read_bind, show (opened s).pendingRow = [originalHead, sourceTip] from hrow]
    dsimp only
    rw [bind_of_ok (inContext_ok hrun)]
    dsimp only
    rw [bind_of_ok (orEmpty_run htree),
      bind_of_ok (inContext_ok (show branchName label s₂ = (.ok name, s₂) by
        rw [branchName, hname]
        rfl)),
      bind_of_ok (inContext_ok hupdate), bind_of_ok (show invalidateHeadCache _ = (.ok (), s₄) by
        rw [hs₄]
        rfl),
      bind_of_ok (inContext_ok hsync)]
    rfl
  · have hsame : kept (hollow u) = kept (hollow t) := by rw [hrest]
    exact Eq.trans hsame hkept
  · change u.dag.getBranch other = _
    rw [dag_of_contents hmoved, PatchDag.getBranch, hread'.asked.queried.same.branches, hs₄]
    change Assoc.get (Assoc.insert name.asStr originalHead s₂.dag.branches) other.asStr = _
    rw [Assoc.get_insert]
    by_cases heq : other = name
    · rw [if_pos heq, if_pos (congrArg BranchName.asStr heq)]
    · rw [if_neg heq, if_neg fun h => heq (BranchName.ext h)]
      exact hget₂ other
  · have hname' : branch' = branch := by
      have hlabel : s₄.headBranch = s₁.headBranch := by rw [hs₄, hread.same]
      rw [hlabel] at hbranch'
      cases hbranch.symm.trans hbranch'
      rfl
    have hid' : id' = id := by
      have hget₄ : s₄.dag.getBranch branch' = s₂.dag.getBranch branch' := by
        rw [hs₄]
        change Assoc.get (Assoc.insert name.asStr originalHead s₂.dag.branches) branch'.asStr = _
        rw [Assoc.get_insert]
        split
        · rename_i heq
          rw [BranchName.ext heq, hget₂, hold, hold']
        · rfl
      have hget : s₂.dag.getBranch branch' = some id := by
        rw [hname', PatchDag.getBranch, hread.asked.queried.same.branches]
        exact hget
      rw [hget₄, hget] at hget'
      exact (Option.some.inj hget').symm
    have htree₄ : headTree s₄ id' = tree := by
      have hnone : s₁.cachedHeadSnapshot = none := by rw [hs₁]; rfl
      rw [hid', ← (hread.stored hnone).1]
      have hload : loadFileTree s₄ id = loadFileTree s₂ id := by rw [hs₄]; rfl
      have hreplay : replay s₄.dag id = replay s₂.dag id := by rw [hs₄]; rfl
      have hhash : s₄.headTreeHash = none := by rw [hs₄]
      unfold headTree treeOf
      rw [hload, hreplay, hhash]
      cases loadFileTree s₂ id with
      | none => rfl
      | some stored => exact if_pos (.inl rfl)
    change u.files = s.files
    rw [hsame htree₄.symm, hread'.same, hs₄, hread.same, hs₁]
    rfl

/-! ### Aborted merges -/

omit [Hashing H] in
/-- The branches of a merge exist. -/
theorem mergeBranches_ok {d : PatchDag H} {a b : BranchName} {plan : MergeResult H}
    (h : (d.mergeBranches a b).1 = .ok plan) : ∃ tip, d.getBranch a = some tip := by
  unfold PatchDag.mergeBranches PatchDag.mergeBase at h
  cases hget : d.getBranch a with
  | none =>
    rw [hget] at h
    cases h
  | some tip => exact ⟨tip, rfl⟩

/-- The branch that HEAD is read as is at HEAD. -/
def HeadAtTip (s : Repository H) : Prop :=
  ∃ label id name, (head (opened s)).1 = .ok (label, id) ∧ BranchName.new label = .ok name ∧
    s.dag.getBranch name = some id

/-- The merge writes to every path what its file has already. -/
def WritesNothingNew (s : Repository H) (source : BranchName) : Prop :=
  ∃ headBranch headId sourceTip lcaId headName plan,
    MergeInput (opened s) source headBranch headId sourceTip headName plan ∧
    (s.dag.lca headId sourceTip).1 = some lcaId ∧
    ∀ path, passedFile s (sidesOf s headId sourceTip lcaId headBranch source.asStr)
      plan.conflicts path = s.files.get path

theorem pending_of_executeMerge (h : executeMerge source s = (.ok r, t)) :
    s.pendingMergeParents = [] := by
  by_contra hpending
  unfold executeMerge at h
  rw [read_bind, require_bind_of_not hpending] at h
  cases h

theorem merge_abort_restores_iff (hs : Reachable s)
    (hrun : executeMerge source (opened s) = (.ok r, t)) (hconflicts : r.isClean = false) :
    AbortRestores s t ↔ HeadAtTip s ∧ WritesNothingNew s source := by
  have hrow : s.pendingRow = [] := pending_of_executeMerge hrun
  have hs₀ := valid_opened hs.valid (by rw [hrow]; exact nofun)
  have ht : Valid False t := by
    have hinv := (safe_executeMerge hs₀ source).inv
    rwa [hrun] at hinv
  obtain ⟨headBranch, headId, sourceTip, headName, plan, lcaId, hinput, hm⟩ :=
    mergedInConflict hs₀ hrun hconflicts
  obtain ⟨old, hold⟩ := mergeBranches_ok hinput.plan
  have hparents : t.pendingMergeParents = [headId, sourceTip] := by
    have hrest : (hollow t).pendingMergeParents = [headId, sourceTip] := by rw [hm.rest]; rfl
    exact hrest
  have hrow : t.pendingRow = [headId, sourceTip] := by
    have hrest : (hollow t).pendingRow = [headId, sourceTip] := by rw [hm.rest]; rfl
    exact hrest
  have hkept : kept t = kept s := by
    have hrest : kept (hollow t) = kept s := by rw [hm.rest]; rfl
    exact hrest
  have hget : ∀ name, t.dag.getBranch name = s.dag.getBranch name := fun name => by
    rw [PatchDag.getBranch, hm.asked.queried.same.branches]
    rfl
  have hsame : SameHead s t := by
    obtain ⟨-, -, hdetached, hdetachedHead, hheadBranch⟩ : _ ∧ _ ∧ _ ∧ _ ∧ _ := by
      simpa only [kept, Prod.mk.injEq] using hkept
    exact ⟨hdetached, hdetachedHead, hheadBranch, hget⟩
  obtain ⟨u, habort, hkeptu, hrowu, hbranches, hfiles⟩ := cmdMergeAbort_run ht hrow
    (fun id hid => ht.pendingKnown id (by rwa [hparents, ← hrow]))
    (hsame.head_opened.trans hinput.head) hinput.name ((hget headName).trans hold)
  rw [hkept] at hkeptu
  constructor
  · rintro ⟨u', habort', hrestored⟩
    cases habort.symm.trans habort'
    have htip := hrestored.branches headName
    rw [hbranches, if_pos rfl] at htip
    refine ⟨⟨headBranch, headId, headName, hinput.head, hinput.name, htip.symm⟩, headBranch, headId,
      sourceTip, lcaId, headName, plan, hinput, hm.lca, fun path => ?_⟩
    have hold' : old = headId := Option.some.inj (hold.symm.trans htip.symm)
    rw [← hrestored.files, hfiles hold']
    exact (hm.wrote.files path).symm
  · rintro ⟨⟨label, id, name, hhead, hname, htip⟩, headBranch', headId', sourceTip', lcaId', headName',
      plan', hinput', hlca', hnothing⟩
    obtain ⟨rfl, rfl, rfl, rfl, rfl⟩ := hinput.unique hinput'
    cases hm.lca.symm.trans hlca'
    cases hinput.head.symm.trans hhead
    cases hinput.name.symm.trans hname
    have hold' : old = headId := Option.some.inj (hold.symm.trans htip)
    have hbranches' : ∀ name, u.dag.getBranch name = s.dag.getBranch name := fun name => by
      rw [hbranches]
      split
      · rename_i heq
        rw [heq, htip]
      · exact hget name
    obtain ⟨hstaged, hrows, hdetached, hdetachedHead, hheadBranch⟩ : _ ∧ _ ∧ _ ∧ _ ∧ _ := by
      simpa only [kept, Prod.mk.injEq] using hkeptu
    refine ⟨u, habort, ?_, hstaged, ?_, hbranches', hrows, hrowu⟩
    · rw [hfiles hold']
      exact SortedMap.ext fun path => (hm.wrote.files path).trans (hnothing path)
    · exact SameHead.head_opened ⟨hdetached, hdetachedHead, hheadBranch, hbranches'⟩

/-- A merge that starts with nothing staged or changed and ends with conflicts. -/
structure AbortCase (s : Repository H) (source : BranchName) (r : MergeExecutionResult H)
    (t : Repository H) : Prop where
  reachable : Reachable s
  clean : (hasUncommittedChanges (fun _ => false) (opened s)).1 = .ok false
  run : executeMerge source (opened s) = (.ok r, t)
  conflicts : r.unresolvedConflicts ≠ []

theorem merge_abort_restores_clashing : ∃ r t,
    executeMerge .main (opened (sample clashing)) = (.ok r, t) ∧
      (AbortRestores (sample clashing) t ↔
        HeadAtTip (sample clashing) ∧ WritesNothingNew (sample clashing) .main) := by
  obtain ⟨r, hrun, hconflicts⟩ := returns_of_map (m := executeMerge .main)
    (s := opened (sample clashing)) (f := fun r => r.isClean) (b := false) (by decide +kernel)
  exact ⟨r, _, hrun, merge_abort_restores_iff (reachable_sample clashing) hrun hconflicts⟩

/-- The markers stay in the file. -/
theorem aborted_merge_keeps_markers : ¬ ∀ (s t : Repository Hash) (source : BranchName)
    (r : MergeExecutionResult Hash), AbortCase s source r t → AbortRestores s t := by
  intro h
  obtain ⟨r, hrun, hopen⟩ := returns_of_map (m := executeMerge .main)
    (s := opened (sample clashing)) (f := fun r => decide (r.unresolvedConflicts = []))
    (b := false) (by decide +kernel)
  obtain ⟨u, habort, hrestored⟩ := h _ _ .main r ⟨reachable_sample clashing, by decide +kernel, hrun,
    of_decide_eq_false hopen⟩
  have hfiles : (cmdMergeAbort (executeMerge .main (opened (sample clashing))).2).2.files ≠
      (sample clashing).files := by decide +kernel
  rw [habort] at hfiles
  exact hfiles hrestored.files

end Suture.Cli
