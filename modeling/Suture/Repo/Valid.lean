import Suture.Dag.Chain
import Suture.Repo.Machine

/-!
# Valid repositories

What holds in every state of every run: the DAG is sound, whatever the tables and
caches name is there, and patches are made the way the operations make them. With `F`,
stored trees are what their patches replay to.
-/

namespace Suture.Repo
set_option autoImplicit false
open Foundation Common Patches Dag Engine Program

variable {H : Type} [LinearOrder H] [Hashing H] {F : Prop} {d d' : PatchDag H}
  {blobs : SortedMap H Bytes} {s t u : Repository H}

/-- The tree that the whole history of a patch makes. -/
def replay (d : PatchDag H) (id : H) : FileTree H :=
  ((d.chain id).filterMap d.getPatch).foldl patched .empty

/-- The tree of a patch: the stored one, or what it replays to. -/
def treeOf (s : Repository H) (id : H) : FileTree H := (loadFileTree s id).getD (replay s.dag id)

theorem replay_of_grows (h : d.Grows d') (hd : d.Graded) {id : H} (hid : d.hasPatch id = true) :
    replay d' id = replay d id := by
  unfold replay
  rw [h.chain hd hid]
  refine congrArg (List.foldl patched .empty) (List.filterMap_congr fun p hp => ?_)
  exact h.getPatch (PatchDag.known_of_mem_chain hd hid hp)

/-- No blob is lost, and new ones are under their hash. -/
structure BlobsGrow (old new : SortedMap H Bytes) : Prop where
  kept : ∀ hash data, old.get hash = some data → new.get hash = some data
  hashed : ∀ hash data, new.get hash = some data →
    old.get hash = some data ∨ hash = Hashing.fromData data

theorem BlobsGrow.refl (blobs : SortedMap H Bytes) : BlobsGrow blobs blobs :=
  ⟨fun _ _ => id, fun _ _ => .inl⟩

theorem BlobsGrow.trans {old mid new : SortedMap H Bytes} (h : BlobsGrow old mid)
    (h' : BlobsGrow mid new) : BlobsGrow old new where
  kept := fun hash data hget => h'.kept hash data (h.kept hash data hget)
  hashed := fun hash data hget => (h'.hashed hash data hget).elim (h.hashed hash data) .inr

/-- Blobs grow, and what is newly staged is named as a file may be. -/
structure Gains (s t : Repository H) : Prop where
  blobs : BlobsGrow s.blobs t.blobs
  staged : ∀ path, t.workingSet.contains path = true →
    s.workingSet.contains path = true ∨ IsRepoPath path

theorem Gains.of_blobs (hblobs : BlobsGrow s.blobs t.blobs) (hstaged : t.workingSet = s.workingSet) :
    Gains s t := ⟨hblobs, fun _ hpath => .inl (hstaged ▸ hpath)⟩

theorem Gains.of_eq (hblobs : t.blobs = s.blobs) (hstaged : t.workingSet = s.workingSet) :
    Gains s t := .of_blobs (hblobs ▸ .refl _) hstaged

theorem Gains.trans (h : Gains s t) (h' : Gains t u) : Gains s u where
  blobs := h.blobs.trans h'.blobs
  staged := fun path hpath => (h'.staged path hpath).elim (h.staged path) .inr

/-- No patch, branch or blob is lost. -/
structure Later (s t : Repository H) : Prop where
  grows : s.dag.Grows t.dag
  branches : ∀ name, (Assoc.get s.dag.branches name).isSome = true →
    (Assoc.get t.dag.branches name).isSome = true
  gains : Gains s t

theorem Later.refl (s : Repository H) : Later s s := ⟨.refl _, fun _ => id, .of_eq rfl rfl⟩

theorem Later.trans (h : Later s t) (h' : Later t u) : Later s u where
  grows := h.grows.trans h'.grows
  branches := fun name hname => h'.branches name (h.branches name hname)
  gains := h.gains.trans h'.gains

theorem later_of_gains (hdag : t.dag = s.dag) (hgains : Gains s t) : Later s t := by
  refine ⟨?_, ?_, hgains⟩
  · rw [hdag]
    exact .refl _
  · rw [hdag]
    exact fun _ => id

theorem later_of_eq (hdag : t.dag = s.dag) (hblobs : t.blobs = s.blobs)
    (hstaged : t.workingSet = s.workingSet) : Later s t :=
  later_of_gains hdag (.of_eq hblobs hstaged)

theorem BlobsGrow.contains {old new : SortedMap H Bytes} (h : BlobsGrow old new) {hash : H}
    (hhash : old.contains hash = true) : new.contains hash = true := by
  obtain ⟨data, hdata⟩ := Option.isSome_iff_exists.mp hhash
  exact Option.isSome_iff_exists.mpr ⟨data, h.kept hash data hdata⟩

/-! ### Patches and trees -/

/-- The files of a tree have names that files may have, and contents that are stored. -/
structure TreeStored (blobs : SortedMap H Bytes) (tree : FileTree H) : Prop where
  stored : ∀ path hash, tree.get path = some hash → blobs.contains hash = true
  named : ∀ path, tree.get path ≠ none → IsRepoPath path

/-- Not a move, and its content is stored. -/
structure ChangeOk (blobs : SortedMap H Bytes) (c : FileChange H) : Prop where
  noMove : c.op ≠ .move
  named : IsRepoPath c.path
  stored : ∀ hash, c.payload = .hex hash → blobs.contains hash = true

/-- How the operations of the repository make patches. -/
structure PatchOk (d : PatchDag H) (blobs : SortedMap H Bytes) (p : Patch H) : Prop where
  parents : ∀ q ∈ p.parentIds, d.hasPatch q = true
  noTarget : p.targetPath = none
  batch : p.operationType = .batch →
    ∃ changes, p.IsBatchOf changes ∧ ∀ c ∈ changes, ChangeOk blobs c

structure RowOk (F : Prop) (d : PatchDag H) (blobs : SortedMap H Bytes) (id : H)
    (tree : FileTree H) : Prop where
  known : d.hasPatch id = true
  stored : TreeStored blobs tree
  fresh : F → tree.entries ≠ [] → tree = replay d id

theorem TreeStored.kept {blobs' : SortedMap H Bytes} {tree : FileTree H} (h : TreeStored blobs tree)
    (hkept : BlobsGrow blobs blobs') : TreeStored blobs' tree :=
  ⟨fun path hash hget => hkept.contains (h.stored path hash hget), h.named⟩

theorem TreeStored.later {tree : FileTree H} (h : TreeStored s.blobs tree) (hle : Later s t) :
    TreeStored t.blobs tree := h.kept hle.gains.blobs

theorem ChangeOk.later {c : FileChange H} (h : ChangeOk s.blobs c) (hle : Later s t) :
    ChangeOk t.blobs c :=
  ⟨h.noMove, h.named, fun hash hc => hle.gains.blobs.contains (h.stored hash hc)⟩

theorem PatchOk.later {p : Patch H} (h : PatchOk s.dag s.blobs p) (hle : Later s t) :
    PatchOk t.dag t.blobs p where
  parents := fun q hq => hle.grows.hasPatch (h.parents q hq)
  noTarget := h.noTarget
  batch := fun hop => by
    obtain ⟨changes, hp, hchanges⟩ := h.batch hop
    exact ⟨changes, hp, fun c hc => (hchanges c hc).later hle⟩

omit [Hashing H] in
theorem PatchOk.changes {p : Patch H} (h : PatchOk d blobs p) {changes : List (FileChange H)}
    (hp : p.fileChanges = some changes) :
    p.IsBatchOf changes ∧ ∀ c ∈ changes, ChangeOk blobs c := by
  have hop : p.operationType = .batch := by
    by_contra hop
    rw [Patch.fileChanges, if_neg hop] at hp
    cases hp
  obtain ⟨changes', hbatch, hchanges⟩ := h.batch hop
  rw [hbatch.fileChanges] at hp
  cases hp
  exact ⟨hbatch, hchanges⟩

theorem RowOk.later {id : H} {tree : FileTree H} (h : RowOk F s.dag s.blobs id tree)
    (hle : Later s t) (hd : s.dag.Graded) : RowOk F t.dag t.blobs id tree where
  known := hle.grows.hasPatch h.known
  stored := h.stored.later hle
  fresh := fun hF hne => by
    rw [replay_of_grows hle.grows hd h.known]
    exact h.fresh hF hne

theorem PatchOk.get_patched {p : Patch H} (h : PatchOk d blobs p) (tree : FileTree H) (path : String) :
    (patched tree p).get path =
      (p.fileChanges.getD []).foldl (entryAfter path) (tree.get path) := by
  unfold patched
  cases hp : p.fileChanges with
  | none => rfl
  | some changes => exact get_foldl_applySingleOp (fun c hc => ((h.changes hp).2 c hc).noMove) tree path

/-- A patch brings in stored content only. -/
theorem PatchOk.treeStored {p : Patch H} (h : PatchOk d blobs p) {tree : FileTree H}
    (htree : TreeStored blobs tree) : TreeStored blobs (patched tree p) := by
  have hchanges : ∀ c ∈ p.fileChanges.getD [], ChangeOk blobs c := fun c hc => by
    cases hp : p.fileChanges with
    | none =>
      rw [hp] at hc
      cases hc
    | some changes =>
      rw [hp] at hc
      exact (h.changes hp).2 c hc
  refine ⟨fun path hash hget => ?_, fun path hpath => ?_⟩
  · rw [h.get_patched] at hget
    rcases foldl_entryAfter_eq_some hget with hold | ⟨c, hc, -, hpayload⟩
    · exact htree.stored path hash hold
    · exact (hchanges c hc).stored hash hpayload
  · obtain ⟨hash, hget⟩ := Option.ne_none_iff_exists'.mp hpath
    rw [h.get_patched] at hget
    rcases foldl_entryAfter_eq_some hget with hold | ⟨c, hc, rfl, -⟩
    · exact htree.named path (by rw [hold]; nofun)
    · exact (hchanges c hc).named

theorem newBatch_ok {changes : List (FileChange H)}
    {parentIds : List H} (hparents : ∀ q ∈ parentIds, d.hasPatch q = true)
    (hchanges : ∀ c ∈ changes, ChangeOk blobs c) (author message : String) (timestamp : Nat) :
    PatchOk d blobs (.newBatch changes parentIds author message timestamp) where
  parents := hparents
  noTarget := rfl
  batch := fun _ => ⟨_, Patch.newBatch_isBatchOf changes parentIds author message timestamp,
    fun c hc => hchanges c ((List.mem_insertionSort _).mp hc)⟩

/-- A patch on known parents, no batch and without a target path. -/
theorem new_ok {op : OperationType}
    (hop : op ≠ .batch) {parentIds : List H} (hparents : ∀ q ∈ parentIds, d.hasPatch q = true)
    (touchSet : TouchSet) (payload : Payload H) (author message : String) (timestamp : Nat) :
    PatchOk d blobs (.new op touchSet none payload parentIds author message timestamp) where
  parents := hparents
  noTarget := rfl
  batch := fun h => absurd h hop

/-! ### Valid states -/

structure Valid (F : Prop) (s : Repository H) : Prop where
  sound : s.dag.Sound
  cacheKnown : s.dag.CacheKnown
  patches : ∀ id p, s.dag.getPatch id = some p → PatchOk s.dag s.blobs p
  rows : ∀ id tree, s.fileTrees.get id = some tree → RowOk F s.dag s.blobs id tree
  hashed : ∀ hash data, s.blobs.get hash = some data → hash = Hashing.fromData data
  stagedNamed : ∀ path, s.workingSet.contains path = true → IsRepoPath path
  cachedKnown : ∀ id, s.cachedHeadId = some id → s.dag.hasPatch id = true
  detachedKnown : ∀ id, s.detachedHead = some id → s.dag.hasPatch id = true
  pendingKnown : ∀ id ∈ s.pendingMergeParents, s.dag.hasPatch id = true
  headNamed : ∃ branch, BranchName.new (s.headBranch.getD "main") = .ok branch ∧
    (s.dag.getBranch branch).isSome = true

def discipline (F : Prop) : Discipline (Repository H) where
  inv := Valid F
  le := Later
  refl := .refl
  trans := .trans

/-- From `s` an action ends in a valid state that has lost nothing, with `Q` if it returns. -/
abbrev Safe (F : Prop) {α : Type} (m : Action H α) (s : Repository H)
    (Q : α → Repository H → Prop) : Prop := (discipline F).Safe m s Q

/-- What of a state later ones depend on, apart from the DAG and the blobs. -/
def heads (s : Repository H) :
    SortedMap H (FileTree H) × Option H × Option H × List H × Option String :=
  (s.fileTrees, s.cachedHeadId, s.detachedHead, s.pendingMergeParents, s.headBranch)

/-- Validity of a later state with the same rows and heads. -/
theorem Valid.later (hs : Valid F s) (hle : Later s t) (hheads : heads t = heads s)
    (hsound : t.dag.Sound) (hknown : t.dag.CacheKnown)
    (hpatches : ∀ id p, t.dag.getPatch id = some p → PatchOk t.dag t.blobs p) : Valid F t := by
  obtain ⟨hrows, hcached, hdetached, hpending, hbranch⟩ : t.fileTrees = s.fileTrees ∧
      t.cachedHeadId = s.cachedHeadId ∧ t.detachedHead = s.detachedHead ∧
      t.pendingMergeParents = s.pendingMergeParents ∧ t.headBranch = s.headBranch := by
    simpa [heads] using hheads
  refine ⟨hsound, hknown, hpatches, ?_, ?_, ?_, ?_, ?_, ?_, ?_⟩
  · rw [hrows]
    exact fun id tree hid => (hs.rows id tree hid).later hle hs.sound.graded
  · exact fun hash data hget => (hle.gains.blobs.hashed hash data hget).elim (hs.hashed hash data) id
  · exact fun path hpath => (hle.gains.staged path hpath).elim (hs.stagedNamed path) id
  · rw [hcached]
    exact fun id hid => hle.grows.hasPatch (hs.cachedKnown id hid)
  · rw [hdetached]
    exact fun id hid => hle.grows.hasPatch (hs.detachedKnown id hid)
  · rw [hpending]
    exact fun id hid => hle.grows.hasPatch (hs.pendingKnown id hid)
  · rw [hbranch]
    obtain ⟨branch, hname, hget⟩ := hs.headNamed
    exact ⟨branch, hname, hle.branches _ hget⟩

/-- Moves that touch neither the DAG nor what `Valid` says of heads, and lose no blob. -/
def calm (H : Type) [LinearOrder H] [Hashing H] : Drift (Repository H) where
  le s t := t.dag = s.dag ∧ heads t = heads s ∧ Gains s t
  refl _ := ⟨rfl, rfl, .of_eq rfl rfl⟩
  trans h h' := ⟨h'.1.trans h.1, h'.2.1.trans h.2.1, h.2.2.trans h'.2.2⟩

theorem Valid.of_calm (hs : Valid F s) (h : (calm H).le s t) : Valid F t ∧ Later s t := by
  obtain ⟨hdag, hheads, hgains⟩ := h
  have hle := later_of_gains hdag hgains
  refine ⟨hs.later hle hheads ?_ ?_ fun id p hp => ?_, hle⟩
  · rw [hdag]
    exact hs.sound
  · rw [hdag]
    exact hs.cacheKnown
  · rw [hdag] at hp
    exact (hs.patches id p hp).later hle

/-- All that HEAD is read from, and the rest of what `Valid` says of heads. -/
def headState (s : Repository H) : (SortedMap H (FileTree H) × Option H × Option H × List H ×
    Option String) × Option (FileTree H) × Option String × Option H × Bool :=
  (heads s, s.cachedHeadSnapshot, s.cachedHeadBranch, s.headTreeHash, s.detached)

/-- Calm moves that leave all of HEAD alone. -/
def still (H : Type) [LinearOrder H] [Hashing H] : Drift (Repository H) where
  le s t := t.dag = s.dag ∧ headState t = headState s ∧ Gains s t
  refl _ := ⟨rfl, rfl, .of_eq rfl rfl⟩
  trans h h' := ⟨h'.1.trans h.1, h'.2.1.trans h.2.1, h.2.2.trans h'.2.2⟩

theorem calm_of_still (h : (still H).le s t) : (calm H).le s t :=
  ⟨h.1, congrArg Prod.fst h.2.1, h.2.2⟩

/-- A repository without its working files and blobs. -/
def hollow (s : Repository H) : Repository H := { s with files := .empty, blobs := .empty }

/-- Moves of the working files and of the blobs alone, that lose no blob. -/
def contents (H : Type) [LinearOrder H] [Hashing H] : Drift (Repository H) where
  le s t := hollow t = hollow s ∧ BlobsGrow s.blobs t.blobs
  refl _ := ⟨rfl, .refl _⟩
  trans h h' := ⟨h'.1.trans h.1, h.2.trans h'.2⟩

theorem dag_of_contents (h : (contents H).le s t) : t.dag = s.dag := by
  have hdag : (hollow t).dag = (hollow s).dag := by rw [h.1]
  exact hdag

theorem still_of_contents {α : Type} {m : Action H α} (hm : Quiet (contents H) m) :
    Quiet (still H) m := fun s => by
  have hheads : headState (hollow (m s).2) = headState (hollow s) := by rw [(hm s).1]
  have hstaged : (hollow (m s).2).workingSet = (hollow s).workingSet := by rw [(hm s).1]
  exact ⟨dag_of_contents (hm s), hheads, .of_blobs (hm s).2 hstaged⟩

theorem still_storePatch (patch : Patch H) : Quiet (still H) (storePatch patch) :=
  quiet_modify fun _ => ⟨rfl, rfl, .of_eq rfl rfl⟩

theorem still_storeBranch (name : BranchName) (target : H) :
    Quiet (still H) (storeBranch name target) := quiet_modify fun _ => ⟨rfl, rfl, .of_eq rfl rfl⟩

theorem safe_of_still {α : Type} {m : Action H α} (hm : Quiet (still H) m) (hs : Valid F s) :
    Safe F m s fun _ _ => True :=
  Discipline.safe_of_quiet (D := discipline F) (fun h hs => hs.of_calm (calm_of_still h)) hm hs

theorem safe_of_contents {α : Type} {m : Action H α} (hm : Quiet (contents H) m) (hs : Valid F s) :
    Safe F m s fun _ _ => True := safe_of_still (still_of_contents hm) hs

/-! ### Changes of the DAG -/

theorem Valid.setDag (hs : Valid F s) (hgrows : s.dag.Grows d')
    (hbranches : ∀ name, (Assoc.get s.dag.branches name).isSome = true →
      (Assoc.get d'.branches name).isSome = true)
    (hsound : d'.Sound) (hknown : d'.CacheKnown)
    (hpatches : ∀ id p, d'.getPatch id = some p → PatchOk s.dag s.blobs p) :
    Valid F { s with dag := d' } ∧ Later s { s with dag := d' } := by
  have hle : Later s { s with dag := d' } := ⟨hgrows, hbranches, .of_eq rfl rfl⟩
  exact ⟨hs.later hle rfl hsound hknown fun id p hp => (hpatches id p hp).later hle, hle⟩

theorem Valid.asked (hs : Valid F s) (h : PatchDag.Asked s.dag d') :
    Valid F { s with dag := d' } ∧ Later s { s with dag := d' } := by
  refine hs.setDag h.grows (fun name hname => ?_) (h.sound hs.sound) (h.known hs.cacheKnown) ?_
  · rwa [h.queried.same.branches]
  · intro id p hp
    rw [h.queried.same.getPatch] at hp
    exact hs.patches id p hp

theorem safe_queryDag {α : Type} {f : PatchDag H → α × PatchDag H} (hs : Valid F s)
    (hf : PatchDag.Asked s.dag (f s.dag).2) :
    Safe F (queryDag f) s fun a t => a = (f s.dag).1 ∧ t = { s with dag := (f s.dag).2 } where
  inv := (hs.asked hf).1
  le := (hs.asked hf).2
  post := by
    rintro _ ⟨⟩
    exact ⟨rfl, rfl⟩

omit [Hashing H] in
theorem updateDag_run {α : Type} (f : PatchDag H → Except (DagError H) α × PatchDag H)
    (s : Repository H) :
    updateDag f s = ((f s.dag).1.mapError .dag, { s with dag := (f s.dag).2 }) :=
  ofExcept_run _ _

theorem safe_updateDag {α : Type} {f : PatchDag H → Except (DagError H) α × PatchDag H}
    (h : Valid F { s with dag := (f s.dag).2 } ∧ Later s { s with dag := (f s.dag).2 }) :
    Safe F (updateDag f) s fun a t => (f s.dag).1 = .ok a ∧ t = { s with dag := (f s.dag).2 } where
  inv := by
    rw [updateDag_run]
    exact h.1
  le := by
    rw [updateDag_run]
    exact h.2
  post := fun a ha => by
    rw [updateDag_run] at ha ⊢
    refine ⟨?_, rfl⟩
    cases hf : (f s.dag).1 with
    | ok b =>
      rw [hf] at ha
      cases ha
      rfl
    | error e =>
      rw [hf] at ha
      cases ha

theorem safe_addPatch (hs : Valid F s) {patch : Patch H} (hpatch : PatchOk s.dag s.blobs patch)
    (parentIds : List H) : Safe F (updateDag fun d => d.addPatch patch parentIds) s fun id t =>
      id = patch.id ∧ t = { s with dag := t.dag } ∧ s.dag.Extends t.dag patch parentIds := by
  rcases s.dag.addPatch_cases patch parentIds with ⟨e, hrun, -⟩ | ⟨d', hrun, hext⟩
  · refine (safe_updateDag ?_).mono fun id t _ _ h => ?_
    · rw [hrun]
      exact ⟨hs, .refl s⟩
    · rw [hrun] at h
      exact nomatch h.1
  · refine (safe_updateDag ?_).mono fun id t _ _ h => ?_
    · rw [hrun]
      refine hs.setDag hext.grows (fun name hname => ?_) (hext.sound hs.sound hs.cacheKnown)
        (hext.cacheKnown hs.cacheKnown) fun id p hp => ?_
      · rwa [hext.branches]
      · rw [PatchDag.getPatch_eq, hext.view] at hp
        split at hp
        · cases hp
          exact hpatch
        · rw [← PatchDag.getPatch_eq] at hp
          exact hs.patches id p hp
    · rw [hrun] at h
      obtain ⟨hid, rfl⟩ := h
      cases hid
      exact ⟨rfl, rfl, hext⟩

/-- Pointing a branch at a known patch. -/
theorem Valid.setBranch (hs : Valid F s) (name : String) {target : H}
    (h : s.dag.hasPatch target = true) :
    let t := { s with dag := { s.dag with branches := Assoc.insert name target s.dag.branches } }
    Valid F t ∧ Later s t := by
  refine hs.setDag (fun _ _ => rfl) (fun other hother => ?_) (hs.sound.setBranch name h)
    hs.cacheKnown hs.patches
  rw [Assoc.get_insert]
  split
  · rfl
  · exact hother

/-- A call that may set branches and do nothing else to the DAG. -/
theorem safe_branchCall {f : PatchDag H → Except (DagError H) Unit × PatchDag H} (hs : Valid F s)
    (hf : (∃ e, f s.dag = (.error e, s.dag)) ∨ ∃ name target, s.dag.hasPatch target = true ∧
      f s.dag = (.ok (), { s.dag with branches := Assoc.insert name target s.dag.branches })) :
    Safe F (updateDag f) s fun _ t =>
      ∃ branches, t = { s with dag := { s.dag with branches := branches } } := by
  rcases hf with ⟨e, hrun⟩ | ⟨name, target, htarget, hrun⟩
  · refine (safe_updateDag ?_).mono fun _ t _ _ h => ?_
    · rw [hrun]
      exact ⟨hs, .refl s⟩
    · rw [hrun] at h
      exact nomatch h.1
  · refine (safe_updateDag ?_).mono fun _ t _ _ h => ?_
    · rw [hrun]
      exact hs.setBranch name htarget
    · rw [hrun] at h
      exact ⟨_, h.2⟩

theorem safe_addBranch (hs : Valid F s) (name : BranchName) (target : H) :
    Safe F (updateDag fun d => d.createBranch name target) s fun _ t =>
      ∃ branches, t = { s with dag := { s.dag with branches := branches } } := by
  refine safe_branchCall hs ?_
  unfold PatchDag.createBranch
  split_ifs with hex hhas
  · exact .inl ⟨_, rfl⟩
  · exact .inl ⟨_, rfl⟩
  · exact .inr ⟨_, target, by simpa using hhas, rfl⟩

theorem safe_moveBranch (hs : Valid F s) (name : BranchName) (target : H) :
    Safe F (updateDag fun d => d.updateBranch name target) s fun _ t =>
      ∃ branches, t = { s with dag := { s.dag with branches := branches } } := by
  refine safe_branchCall hs ?_
  unfold PatchDag.updateBranch
  split_ifs with hex hhas
  · exact .inl ⟨_, rfl⟩
  · exact .inl ⟨_, rfl⟩
  · exact .inr ⟨_, target, by simpa using hhas, rfl⟩

theorem safe_branchName (hs : Valid F s) (name : String) :
    Safe F (branchName name) s fun branch t => t = s ∧ BranchName.new name = .ok branch := by
  refine Discipline.safe_ofExcept hs fun branch h => ⟨rfl, ?_⟩
  cases hname : BranchName.new name with
  | ok b =>
    rw [hname] at h
    cases h
    rfl
  | error e =>
    rw [hname] at h
    cases h

/-! ### HEAD -/

theorem safe_modify {f : Repository H → Repository H} (h : Valid F (f s)) (hle : Later s (f s)) :
    Safe F (Program.modify f) s fun _ t => t = f s := Discipline.safe_modify h hle rfl

theorem safe_setBranch (hs : Valid F s) (branch : String) (id : H) :
    Safe F (setBranch branch id) s fun _ t => ∃ branches rows,
      t = { s with dag := { s.dag with branches := branches }, branchRows := rows } := by
  refine (safe_branchName hs branch).bind fun name t ht _ h => ?_
  rw [h.1] at ht ⊢
  refine (safe_moveBranch ht name id).bind fun _ u hu _ h => ?_
  obtain ⟨branches, hsame⟩ := h
  refine (safe_modify { hu with } (later_of_eq rfl rfl rfl)).mono fun _ v _ _ h => ?_
  rw [h, hsame]
  exact ⟨branches, _, rfl⟩

theorem safe_setHeadCache (hs : Valid F s) (branch : String) {id : H}
    (hid : s.dag.hasPatch id = true) : Safe F (setHeadCache branch id) s fun _ t =>
      t = { s with cachedHeadBranch := some branch, cachedHeadId := some id } := by
  refine safe_modify { hs with cachedKnown := ?_ } (later_of_eq rfl rfl rfl)
  rintro _ ⟨⟩
  exact hid

theorem safe_invalidateHeadCache (hs : Valid F s) :
    Safe F invalidateHeadCache s fun _ t => t.dag = s.dag :=
  (safe_modify { hs with cachedKnown := nofun } (later_of_eq rfl rfl rfl)).mono fun _ t _ _ h => by
    rw [h]

theorem safe_moveHead (hs : Valid F s) (branch : String) (id : H) :
    Safe F (moveHead branch id) s fun _ _ => True :=
  (safe_setBranch hs branch id).bind fun _ _ ht _ _ =>
    (safe_invalidateHeadCache ht).mono fun _ _ _ _ _ => trivial

theorem headBranchTip_run (hs : Valid F s) : ∃ branch id,
    BranchName.new (s.headBranch.getD "main") = .ok branch ∧ s.dag.getBranch branch = some id ∧
      s.dag.hasPatch id = true ∧ headBranchTip s = (.ok (s.headBranch.getD "main", id), s) := by
  obtain ⟨branch, hname, hget⟩ := hs.headNamed
  obtain ⟨id, hid⟩ := Option.isSome_iff_exists.mp hget
  refine ⟨branch, id, hname, hid, hs.sound.targets _ _ hid, ?_⟩
  have hbranch : branchName (s.headBranch.getD "main") s = (.ok branch, s) := by
    unfold branchName
    rw [hname]
    rfl
  unfold headBranchTip
  rw [read_bind, bind_of_ok hbranch, hid]
  rfl

omit [Hashing H] in
theorem head_of_cached {branch : String} {id : H} (hid : s.cachedHeadId = some id)
    (hbranch : s.cachedHeadBranch = some branch) : head s = (.ok (branch, id), s) := by
  unfold head
  rw [read_bind, hid, hbranch]
  rfl

/-- What reading HEAD comes to: a patch that is there, and is then in the cache. -/
def HeadRead (s : Repository H) (r : Except (RepoError H) (String × H) × Repository H) : Prop :=
  (∃ e, r = (.error e, s)) ∨ ∃ branch id, s.dag.hasPatch id = true ∧
    r = (.ok (branch, id), { s with cachedHeadBranch := some branch, cachedHeadId := some id })

theorem lookUpHead_run (hs : Valid F s) : HeadRead s (lookUpHead s) := by
  generalize hr : lookUpHead s = r
  unfold lookUpHead at hr
  rw [read_bind] at hr
  split at hr
  · cases hid : s.detachedHead with
    | none =>
      rw [hid] at hr
      exact .inl ⟨_, hr.symm⟩
    | some id =>
      rw [hid] at hr
      exact .inr ⟨_, id, hs.detachedKnown id hid, hr.symm⟩
  · obtain ⟨-, id, -, -, hid, htip⟩ := headBranchTip_run hs
    rw [bind_of_ok htip] at hr
    exact .inr ⟨_, id, hid, hr.symm⟩

theorem head_run (hs : Valid F s) : HeadRead s (head s) := by
  cases hid : s.cachedHeadId with
  | some id =>
    cases hbranch : s.cachedHeadBranch with
    | some branch =>
      refine .inr ⟨branch, id, hs.cachedKnown id hid, ?_⟩
      rw [head_of_cached hid hbranch, ← hid, ← hbranch]
    | none =>
      have hrun : head s = lookUpHead s := by
        unfold head
        rw [read_bind, hid, hbranch]
      rw [hrun]
      exact lookUpHead_run hs
  | none =>
    have hrun : head s = lookUpHead s := by
      unfold head
      rw [read_bind, hid]
    rw [hrun]
    exact lookUpHead_run hs

/-- Once HEAD has been read it is read the same again. -/
theorem head_ok (hs : Valid F s) {branch : String} {id : H} (hrun : head s = (.ok (branch, id), t)) :
    t = { s with cachedHeadBranch := some branch, cachedHeadId := some id } ∧
      s.dag.hasPatch id = true ∧ head t = (.ok (branch, id), t) ∧ Valid F t ∧ Later s t := by
  rcases head_run hs with ⟨e, hrun'⟩ | ⟨branch', id', hid, hrun'⟩
  · rw [hrun'] at hrun
    cases hrun
  · rw [hrun'] at hrun
    cases hrun
    have hcache := safe_setHeadCache hs branch hid
    exact ⟨rfl, hid, head_of_cached rfl rfl, hcache.inv, hcache.le⟩

theorem head_error (hs : Valid F s) {e : RepoError H} (hrun : head s = (.error e, t)) : t = s := by
  rcases head_run hs with ⟨e', hrun'⟩ | ⟨branch', id', hid, hrun'⟩
  · rw [hrun'] at hrun
    cases hrun
    rfl
  · rw [hrun'] at hrun
    cases hrun

theorem safe_head (hs : Valid F s) : Safe F head s fun r t =>
    s.dag.hasPatch r.2 = true ∧
      t = { s with cachedHeadBranch := some r.1, cachedHeadId := some r.2 } := by
  rcases hrun : head s with ⟨e | ⟨branch, id⟩, t⟩
  · rw [head_error hs hrun] at hrun
    refine ⟨?_, ?_, fun a ha => ?_⟩
    · rw [hrun]
      exact hs
    · rw [hrun]
      exact Later.refl s
    · rw [hrun] at ha
      cases ha
  · obtain ⟨ht, hid, -, hvalid, hle⟩ := head_ok hs hrun
    refine ⟨?_, ?_, fun a ha => ?_⟩
    · rw [hrun]
      exact hvalid
    · rw [hrun]
      exact hle
    · rw [hrun] at ha ⊢
      cases ha
      exact ⟨hid, ht⟩

end Suture.Repo
