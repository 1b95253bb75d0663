import Suture.Repo.Reachable

/-!
# Bringing the working tree along

`sync_working_tree` after the cache of HEAD is cleared: it succeeds, changes files only,
and none if the tree of HEAD is the old one.
-/

namespace Suture.Repo
set_option autoImplicit false
open Foundation Common Patches Dag Engine Program

variable {H : Type} [LinearOrder H] {F : Prop} {s t : Repository H}

theorem diffTrees_self (tree : FileTree H) : diffTrees tree tree = [] := by
  rw [List.eq_nil_iff_forall_not_mem]
  exact fun e he => (diffTrees_sound he).ne (.inl rfl) rfl

theorem forEach_returns {α : Type} {f : α → Action H Unit} (hf : ∀ a s, ∃ t, f a s = (.ok (), t))
    (as : List α) (s : Repository H) : ∃ t, forEach f as s = (.ok (), t) := by
  induction as generalizing s with
  | nil => exact ⟨s, rfl⟩
  | cons a as ih =>
    obtain ⟨t, hrun⟩ := hf a s
    obtain ⟨u, hrest⟩ := ih t
    exact ⟨u, (bind_of_ok hrun).trans hrest⟩

theorem forEach_idle {α : Type} {f : α → Action H Unit} {as : List α}
    (hf : ∀ a ∈ as, f a s = (.ok (), s)) : forEach f as s = (.ok (), s) := by
  induction as with
  | nil => rfl
  | cons a as ih =>
    exact (bind_of_ok (hf a (List.mem_cons_self ..))).trans
      (ih fun b hb => hf b (List.mem_cons_of_mem _ hb))

/-- Stored blobs can be fetched. -/
theorem fetch_run {es : List (String × H)} (hes : ∀ e ∈ es, s.blobs.contains e.2 = true) :
    ∃ blobs, mapEach (fun e : String × H => do
      let blob ← getBlob e.2
      return (e.1, blob)) es s = (.ok blobs, s) := by
  induction es with
  | nil => exact ⟨[], rfl⟩
  | cons e es ih =>
    obtain ⟨blobs, hrest⟩ := ih fun e' he' => hes e' (List.mem_cons_of_mem _ he')
    obtain ⟨data, hdata⟩ := Option.isSome_iff_exists.mp (hes e (List.mem_cons_self ..))
    have hget : getBlob e.2 s = (.ok data, s) := by
      have hdata : s.blobs.get e.2 = some data := hdata
      unfold getBlob
      rw [read_bind, hdata]
      rfl
    have hstep : (do
        let blob ← getBlob e.2
        return (e.1, blob) : Action H (String × Bytes)) s = (.ok (e.1, data), s) :=
      (bind_of_ok hget).trans rfl
    refine ⟨(e.1, data) :: blobs, ?_⟩
    unfold mapEach
    rw [bind_of_ok hstep, bind_of_ok hrest]
    rfl

theorem changedBlobs_stored {blobs : SortedMap H Bytes} (oldTree : FileTree H)
    {newTree : FileTree H} (hnew : TreeStored blobs newTree) :
    ∀ e ∈ changedBlobs (diffTrees oldTree newTree), blobs.contains e.2 = true := by
  intro e he
  obtain ⟨d, hd, hblob⟩ := List.mem_filterMap.mp he
  have hentry := diffTrees_sound hd
  unfold EntryOk at hentry
  cases htype : d.diffType with
  | added =>
    rw [htype] at hentry hblob
    obtain ⟨-, hash, hhash, hnewHash⟩ := hentry
    rw [hnewHash] at hblob
    cases hblob
    exact hnew.stored d.path hash hhash
  | modified =>
    rw [htype] at hentry hblob
    obtain ⟨-, hash, -, hhash, -, hnewHash⟩ := hentry
    rw [hnewHash] at hblob
    cases hblob
    exact hnew.stored d.path hash hhash
  | deleted | renamed =>
    rw [htype] at hblob
    cases hblob

theorem bringAlong_returns (oldTree : FileTree H) {newTree : FileTree H}
    (hnew : TreeStored s.blobs newTree) : ∃ t, bringAlong oldTree newTree s = (.ok (), t) := by
  have hwrite : ∀ (b : String × Bytes) (s : Repository H), ∃ t, writeFile b.1 b.2 s = (.ok (), t) :=
    fun _ _ => ⟨_, rfl⟩
  have hmove : ∀ (e : DiffEntry H) (s : Repository H), ∃ t, moveEntry e s = (.ok (), t) := fun e s => by
    unfold moveEntry
    cases e.diffType with
    | deleted | renamed | added | modified => exact ⟨_, rfl⟩
  have hremove : ∀ (e : String × H) (s : Repository H), ∃ t,
      (if newTree.contains e.1 then pure () else removeFile e.1 : Action H Unit) s = (.ok (), t) :=
    fun e s => by
      split
      · exact ⟨_, rfl⟩
      · exact ⟨_, rfl⟩
  obtain ⟨blobs, hfetch⟩ := fetch_run (changedBlobs_stored oldTree hnew)
  obtain ⟨t₁, h₁⟩ := forEach_returns hwrite blobs s
  obtain ⟨t₂, h₂⟩ := forEach_returns hmove (diffTrees oldTree newTree) t₁
  obtain ⟨t₃, h₃⟩ := forEach_returns hremove oldTree.entries t₂
  refine ⟨t₃, ?_⟩
  unfold bringAlong
  rw [bind_of_ok hfetch, bind_of_ok h₁, bind_of_ok h₂]
  exact h₃

theorem bringAlong_self (tree : FileTree H) : bringAlong tree tree s = (.ok (), s) := by
  have hremove : removeMissing tree tree s = (.ok (), s) := forEach_idle fun e he => by
    have hin : tree.contains e.1 = true :=
      Option.isSome_iff_exists.mpr ⟨e.2, SortedMap.mem_entries.mp he⟩
    rw [if_pos hin]
    rfl
  unfold bringAlong
  rw [diffTrees_self]
  exact hremove

variable [Hashing H]

theorem Valid.headTree_stored (hs : Valid F s) (id : H) : TreeStored s.blobs (headTree s id) := by
  unfold headTree
  cases hload : loadFileTree s id with
  | none => exact hs.patched_stored _
  | some tree =>
    dsimp only
    split
    · have htree := hs.treeOf_stored id
      unfold treeOf at htree
      rwa [hload] at htree
    · exact hs.patched_stored _

/-- After the tree of HEAD is read, only files change, and none if it is the old tree. -/
theorem syncWorkingTree_run (hs : Valid F s) (hnone : s.cachedHeadSnapshot = none)
    (oldTree : FileTree H) : ∃ branch id t u,
      BranchName.new (s.headBranch.getD "main") = .ok branch ∧ s.dag.getBranch branch = some id ∧
      HeadTreeRead s id (headTree s id) t ∧ syncWorkingTree oldTree s = (.ok (), u) ∧
      (contents H).le t u ∧ (oldTree = headTree s id → u = t) := by
  obtain ⟨branch, id, tree, t, hname, hget, hrun, hread, ht, hle⟩ := snapshotHead_spec hs
  obtain rfl : tree = headTree s id := by
    rw [hread.value, hnone]
    rfl
  have hblobs : t.blobs = s.blobs := by rw [hread.same]
  obtain ⟨u, hbring⟩ := bringAlong_returns (s := t) oldTree (hblobs ▸ hs.headTree_stored id)
  have hmoved := contents_bringAlong oldTree (headTree s id) t
  rw [hbring] at hmoved
  refine ⟨branch, id, t, u, hname, hget, hread, ?_, hmoved, ?_⟩
  · exact (bind_of_ok hrun).trans hbring
  · rintro rfl
    rw [bringAlong_self] at hbring
    cases hbring
    rfl

end Suture.Repo
