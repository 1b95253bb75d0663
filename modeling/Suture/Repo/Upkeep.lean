import Suture.Repo.Reachable

/-!
# Tags, branches that go, and trees rewritten

Operations beside the history: a merge command rewrites the tree stored for HEAD, and
tags and branches come and go.
-/

namespace Suture.Repo
set_option autoImplicit false
open Foundation Common Patches Dag Engine Program

variable {H : Type} [LinearOrder H] [Hashing H]

/-! ### Operations -/

/-- The name of a branch comes first: a hash is one, unless its text is no name. -/
def tagTarget : Option (Ref H) → Action H H
  | none => resolveRef .head
  | some (.hash id) =>
    match BranchName.new (Hashing.toHex id) with
    | .ok branch => branchTarget branch
    | .error _ => return id
  | some target => resolveRef target

def createTag (name : String) (target : Option (Ref H)) : Action H Unit := do
  let targetId ← tagTarget target
  modify fun s => { s with tags := s.tags.insert name targetId }

def deleteTag (name : String) : Action H Unit := do
  require ((← read).tags.contains name = true) (.tagNotFound name)
  modify fun s => { s with tags := s.tags.erase name }

def deleteBranch (branch : BranchName) : Action H Unit := do
  let (current, _) ← head
  require (current ≠ branch.asStr) (.cannotDeleteCurrentBranch branch.asStr)
  updateDag fun d => d.deleteBranch branch
  modify fun s => { s with branchRows := s.branchRows.erase branch.asStr }

/-- A staged file goes into the tree as it is on disk, or out of it. -/
def rewriteEntry (tree : FileTree H) (e : String × FileStatus) : Action H (FileTree H) :=
  match e.2 with
  | .added | .modified => do
    if (← read).files.contains e.1 then
      let hash ← putBlob (← readFile e.1)
      return tree.insert e.1 hash
    else return tree
  | .deleted => return tree.erase e.1
  | .clean | .untracked => return tree

/-- Stores another tree for HEAD, made of its replay and what is staged. -/
def rewriteHeadTree : Action H Unit := do
  let (_, headId) ← head
  let s ← read
  let parentTree ← snapshotFresh headId
  let tree ← foldEach rewriteEntry parentTree s.workingSet.entries
  modify fun s => { s with headTreeHash := some (Hashing.contentHash tree.entries) }
  storeFileTree headId tree
  clearWorkingSet ((stagedFiles s).map Prod.fst)
  invalidateHeadCache

/-! ### Runs with them -/

inductive Upkeep (H : Type) where
  | event (e : Event H)
  | createTag (name : String) (target : Option (Ref H))
  | deleteTag (name : String)
  | deleteBranch (branch : BranchName)
  | rewriteHeadTree

namespace Repository

def upkeep (s : Repository H) : Upkeep H → Repository H
  | .event e => s.next e
  | .createTag name target => (createTag name target s).2
  | .deleteTag name => (deleteTag name s).2
  | .deleteBranch branch => (deleteBranch branch s).2
  | .rewriteHeadTree => (rewriteHeadTree s).2

end Repository

/-- The branch in the `head_branch` setting is not deleted. -/
def Upkeep.KeepsHead (s : Repository H) : Upkeep H → Prop
  | .deleteBranch branch => s.headBranch.getD "main" ≠ branch.asStr
  | _ => True

instance (s : Repository H) : DecidablePred (Upkeep.KeepsHead s)
  | .deleteBranch branch =>
    inferInstanceAs (Decidable (s.headBranch.getD "main" ≠ branch.asStr))
  | .event _ | .createTag _ _ | .deleteTag _ | .rewriteHeadTree => inferInstanceAs (Decidable True)

/-! ### They keep a repository valid -/

variable {F : Prop} {s t : Repository H}

theorem safe_tagTarget (hs : Valid F s) (target : Option (Ref H)) :
    Safe F (tagTarget target) s fun _ _ => True := by
  unfold tagTarget
  split
  · exact (safe_resolveRef hs _).mono fun _ _ _ _ _ => trivial
  · split
    · exact (safe_branchTarget hs _).mono fun _ _ _ _ _ => trivial
    · exact safe_done hs _
  · exact (safe_resolveRef hs _).mono fun _ _ _ _ _ => trivial

theorem safe_createTag (hs : Valid F s) (name : String) (target : Option (Ref H)) :
    Safe F (createTag name target) s fun _ _ => True :=
  safe_then (safe_tagTarget hs target) fun _ _ ht _ =>
    safe_of_still (quiet_modify fun _ => ⟨rfl, rfl, .of_eq rfl rfl⟩) ht

theorem safe_deleteTag (hs : Valid F s) (name : String) :
    Safe F (deleteTag (H := H) name) s fun _ _ => True :=
  .read_bind (.require_bind hs fun _ =>
    safe_of_still (quiet_modify fun _ => ⟨rfl, rfl, .of_eq rfl rfl⟩) hs)

omit [Hashing H] in
/-- A tree that gains an entry whose blob is there. -/
theorem TreeStored.insert {blobs : SortedMap H Bytes} {tree : FileTree H}
    (h : TreeStored blobs tree) {path : String} (hpath : IsRepoPath path) {hash : H}
    (hhash : blobs.contains hash = true) : TreeStored blobs (tree.insert path hash) := by
  refine ⟨fun other found hfound => ?_, fun other hother => ?_⟩
  · rw [SortedMap.get_insert] at hfound
    split at hfound
    · cases hfound
      exact hhash
    · exact h.stored other found hfound
  · rw [SortedMap.get_insert] at hother
    split at hother
    · rename_i heq
      rwa [heq]
    · exact h.named other hother

omit [Hashing H] in
theorem TreeStored.erase {blobs : SortedMap H Bytes} {tree : FileTree H}
    (h : TreeStored blobs tree) (path : String) : TreeStored blobs (tree.erase path) := by
  refine ⟨fun other found hfound => ?_, fun other hother => ?_⟩
  · rw [SortedMap.get_erase] at hfound
    split at hfound
    · cases hfound
    · exact h.stored other found hfound
  · rw [SortedMap.get_erase] at hother
    split at hother
    · exact absurd rfl hother
    · exact h.named other hother

theorem safe_rewriteEntry (hs : Valid F s) {tree : FileTree H} (htree : TreeStored s.blobs tree)
    {e : String × FileStatus} (hnamed : IsRepoPath e.1) :
    Safe F (rewriteEntry tree e) s fun tree t => TreeStored t.blobs tree := by
  unfold rewriteEntry
  have hwrite : Safe F (do
      if (← read).files.contains e.1 then
        let hash ← putBlob (← readFile e.1)
        return tree.insert e.1 hash
      else return tree) s fun tree t => TreeStored t.blobs tree := by
    refine .read_bind ?_
    split
    · refine (safe_of_contents (contents_readFile e.1) hs).bind fun data t ht hle _ => ?_
      refine (safe_putBlob ht data).bind fun hash u hu hle' hstored => ?_
      exact Discipline.safe_pure hu ((htree.later (hle.trans hle')).insert hnamed hstored.2)
    · exact Discipline.safe_pure hs htree
  split
  · exact hwrite
  · exact hwrite
  · exact Discipline.safe_pure hs (htree.erase e.1)
  · exact Discipline.safe_pure hs htree
  · exact Discipline.safe_pure hs htree

theorem safe_rewriteEntries (es : List (String × FileStatus)) : ∀ {s : Repository H}
    {tree : FileTree H}, Valid F s → TreeStored s.blobs tree → (∀ e ∈ es, IsRepoPath e.1) →
    Safe F (foldEach rewriteEntry tree es) s fun tree t => TreeStored t.blobs tree := by
  induction es with
  | nil => exact fun hs htree _ => Discipline.safe_pure hs htree
  | cons e es ih =>
    exact fun hs htree hnamed => (safe_rewriteEntry hs htree (hnamed e (List.mem_cons_self ..))).bind
      fun _ _ ht _ htree => ih ht htree fun e' he' => hnamed e' (List.mem_cons_of_mem _ he')

/-- The rewritten tree is not what HEAD replays to, so it is no longer fresh. -/
theorem safe_rewriteHeadTree (hs : Valid False s) :
    Safe False (rewriteHeadTree (H := H)) s fun _ _ => True := by
  refine (safe_head hs).bind fun r s₁ hs₁ hle₁ h₁ => ?_
  have hknown := hle₁.grows.hasPatch h₁.1
  refine .read_bind ((safe_snapshotUncached hs₁ hknown).bind fun parentTree s₂ hs₂ hle₂ h₂ => ?_)
  have htree : TreeStored s₂.blobs parentTree := by
    rw [h₂.1]
    exact TreeStored.later (hs₁.patched_stored _) hle₂
  have hnamed : ∀ e ∈ s₁.workingSet.entries, IsRepoPath e.1 := fun e he => hs₁.stagedNamed e.1
    (Option.isSome_iff_exists.mpr ⟨e.2, SortedMap.mem_entries.mp he⟩)
  refine (safe_rewriteEntries _ hs₂ htree hnamed).bind fun tree s₃ hs₃ hle₃ htree => ?_
  refine .step rfl (later_of_eq rfl rfl rfl) ?_
  have hrow : RowOk False s₃.dag s₃.blobs r.2 tree :=
    ⟨(hle₂.trans hle₃).grows.hasPatch hknown, htree, False.elim⟩
  have hs₃ : Valid False { s₃ with headTreeHash := some (Hashing.contentHash tree.entries) } :=
    { hs₃ with }
  refine (safe_storeFileTree hs₃ hrow).bind fun _ s₄ hs₄ _ _ => ?_
  exact safe_then (safe_of_still (still_clearWorkingSet _) hs₄) fun _ s₅ hs₅ _ =>
    (safe_invalidateHeadCache hs₅).mono fun _ _ _ _ _ => trivial

theorem Valid.deleteBranch (hs : Valid F s) {branch : BranchName}
    (hne : s.headBranch.getD "main" ≠ branch.asStr) : Valid F (deleteBranch branch s).2 := by
  unfold Suture.Repo.deleteBranch
  rcases hrun : head s with ⟨e | ⟨current, headId⟩, t⟩
  · rw [bind_of_error hrun, head_error hs hrun]
    exact hs
  obtain ⟨hsame, -, -, ht, -⟩ := head_ok hs hrun
  rw [bind_of_ok hrun]
  dsimp only
  by_cases hcurrent : current ≠ branch.asStr
  · rw [require_bind hcurrent]
    have hgone : Valid F { t with dag := (t.dag.deleteBranch branch).2 } := by
      have hsound := ht.sound.deleteBranch branch
      unfold PatchDag.deleteBranch at hsound ⊢
      split
      · exact ht
      · rename_i hsome
        rw [if_neg hsome] at hsound
        obtain ⟨name, hname, hget⟩ := ht.headNamed
        refine { ht with
          sound := hsound
          patches := fun id p hp => { ht.patches id p hp with }
          rows := fun id tree hid => { ht.rows id tree hid with }
          headNamed := ⟨name, hname, ?_⟩ }
        have hother : name.asStr ≠ branch.asStr := by
          rw [BranchName.asStr_of_new hname]
          rwa [hsame]
        change (Assoc.get (Assoc.erase branch.asStr t.dag.branches) name.asStr).isSome = true
        rw [Assoc.get_erase, if_neg hother]
        exact hget
    have hupdate := updateDag_run (fun d => d.deleteBranch branch) t
    rcases hresult : updateDag (fun d => d.deleteBranch branch) t with ⟨e | u, t'⟩
    all_goals
      rw [hresult] at hupdate
      obtain ⟨-, rfl⟩ := Prod.mk.inj hupdate
    · rw [bind_of_error hresult]
      exact hgone
    · rw [bind_of_ok hresult]
      exact { hgone with }
  · rw [require_bind_of_not hcurrent]
    exact ht

theorem Valid.upkeep (hs : Valid False s) {e : Upkeep H} (he : e.KeepsHead s) :
    Valid False (s.upkeep e) := by
  cases e with
  | event e => exact (hs.next e False.elim).1
  | createTag name target => exact (safe_createTag hs name target).inv
  | deleteTag name => exact (safe_deleteTag hs name).inv
  | deleteBranch branch => exact hs.deleteBranch he
  | rewriteHeadTree => exact (safe_rewriteHeadTree hs).inv

/-- A state that some run with upkeep leads to. -/
def Maintained (s : Repository H) : Prop :=
  ∃ author now files, Run Repository.upkeep Upkeep.KeepsHead (init author now files) s

theorem Maintained.valid (h : Maintained s) : Valid False s := by
  obtain ⟨author, now, files, hrun⟩ := h
  exact hrun.invariant (Valid False) (fun s e hs he => hs.upkeep he) (valid_init author now files)

theorem maintained_sample (events : List (Event Hash)) : Maintained (sample events) := by
  refine ⟨"ann", 0, .empty, ?_⟩
  have hrun : ∀ (es : List (Event Hash)) (s : Repository Hash),
      Run Repository.upkeep Upkeep.KeepsHead s (es.foldl Repository.next s) := by
    intro es
    induction es with
    | nil => exact fun s => .refl s
    | cons e es ih =>
      intro s
      have hstep : Run Repository.upkeep Upkeep.KeepsHead s (s.upkeep (.event e)) :=
        (Run.refl s).tail trivial
      exact hstep.trans (ih (s.next e))
  exact hrun events _

end Suture.Repo
