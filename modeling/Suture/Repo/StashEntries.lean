import Suture.Foundation.Slots
import Suture.Foundation.Steps
import Suture.Repo.Tracking

/-!
# The entries of stashes

What a push stores of the working files, and what taking an entry out of its stash makes of
the files and of what is staged.
-/

namespace Suture.Repo
set_option autoImplicit false
open Foundation Common Patches Dag Engine Program

variable {H : Type} [LinearOrder H] [Hashing H] {F : Prop} {s t : Repository H}

/-! ### What a push leaves alone -/

/-- What stashes are made of and go back to. -/
def desk (s : Repository H) :
    SortedMap String Bytes × SortedMap String FileStatus × SortedMap Nat (Stash H) :=
  (s.files, s.workingSet, s.stashes)

abbrev deskKept (H : Type) [LinearOrder H] : Drift (Repository H) := Drift.ofView desk

omit [Hashing H] in
theorem desk_headBranchTip : Quiet (deskKept H) headBranchTip := by
  apply quiet_read.bind
  intro s
  apply (quiet_ofExcept _).bind
  intro branch
  split
  · exact quiet_fail _
  · exact quiet_pure _

omit [Hashing H] in
theorem desk_setHeadCache (branch : String) (id : H) :
    Quiet (deskKept H) (setHeadCache branch id) := quiet_modify fun _ => rfl

omit [Hashing H] in
theorem desk_head : Quiet (deskKept H) head := by
  have hlookUp : Quiet (deskKept H) lookUpHead := by
    apply quiet_read.bind
    intro s
    split
    · split
      · exact quiet_fail _
      · exact (desk_setHeadCache _ _).bind fun _ => quiet_pure _
    · exact desk_headBranchTip.bind fun r =>
        (desk_setHeadCache _ _).bind fun _ => quiet_pure _
  apply quiet_read.bind
  intro s
  split
  · exact quiet_pure _
  · exact hlookUp

theorem desk_recomputeHead (id : H) : Quiet (deskKept H) (recomputeHead id) := by
  have hreplay : Quiet (deskKept H) (snapshotUncached id) := by
    have hquery : Quiet (deskKept H) (queryDag fun d : PatchDag H => d.patchChainFull id) :=
      fun _ => rfl
    exact hquery.bind fun chain => quiet_read.bind fun s => quiet_ofExcept _
  apply hreplay.bind
  intro tree
  apply (quiet_modify fun _ => rfl).bind
  intro _
  have hstore : Quiet (deskKept H) (storeFileTree id tree) := fun _ => rfl
  exact hstore.bind fun _ => (quiet_modify fun _ => rfl).bind fun _ => quiet_pure _

theorem desk_snapshotHead : Quiet (deskKept H) snapshotHead := by
  apply desk_headBranchTip.bind
  intro r
  apply (desk_setHeadCache _ _).bind
  intro _
  apply quiet_read.bind
  intro s
  split
  · exact quiet_pure _
  split
  · exact desk_recomputeHead _
  dsimp only
  split
  · exact (quiet_modify fun _ => rfl).bind fun _ => quiet_pure _
  · exact desk_recomputeHead _

theorem desk_hasUncommittedChanges (statHit : String → Bool) :
    Quiet (deskKept H) (hasUncommittedChanges statHit) := by
  apply quiet_read.bind
  intro s
  split
  · exact quiet_pure _
  · apply desk_snapshotHead.attempt.bind
    intro r
    cases r with
    | ok tree => exact quiet_read.bind fun s => quiet_pure _
    | error e => exact quiet_pure _

/-! ### What a push stores -/

/-- What a stash holds for a staged file. -/
def stashedFile (s : Repository H) (e : String × FileStatus) : Option (String × Option H) :=
  (stagedOp e.2).map fun op => (e.1, if op = .delete then none else fileHash s e.1)

/-- What a stash holds for a file of HEAD. -/
def trackedFile (s : Repository H) (stagedPaths : List String) (e : String × H) :
    Option (String × Option H) :=
  (fileHash s e.1).bind fun hash =>
    if hash ≠ e.2 ∧ e.1 ∉ stagedPaths then some (e.1, some hash) else none

omit [Hashing H] in
theorem readFile_run (path : String) (s : Repository H) :
    readFile path s = (match s.files.get path with
      | some data => .ok data
      | none => .error (.io path), s) := by
  unfold readFile
  rw [read_bind]
  cases s.files.get path <;> rfl

/-- The content that a stash holds for a file is stored. -/
def Held (r : Option (String × Option H)) (s : Repository H) : Prop :=
  ∀ path hash, r = some (path, some hash) → s.blobs.contains hash = true

/-- Looking at a file for a stash stores its content, and does nothing else. -/
structure Looks (s : Repository H) (r : Option (String × Option H)) (t : Repository H) : Prop where
  same : t = { s with blobs := t.blobs }
  grows : BlobsGrow s.blobs t.blobs
  held : Held r t

omit [Hashing H] in
theorem held_none : Held none s := nofun

omit [Hashing H] in
theorem held_gone (path : String) : Held (some (path, none)) s := by
  intro path' hash h
  cases h

theorem looks_refl {r : Option (String × Option H)} (h : Held r s) : Looks s r s :=
  ⟨rfl, .refl _, h⟩

/-- Stores the content of a file that was read. -/
theorem looks_putBlob {path : String} {data : Bytes} {r : Option (String × Option H)}
    (h : (do
      let hash ← putBlob data
      return some (path, some hash) : Action H (Option (String × Option H))) s = (.ok r, t)) :
    r = some (path, some (Hashing.fromData data)) ∧ Looks s r t := by
  obtain ⟨hash, s₁, hput, h⟩ := bind_ok h
  rcases putBlob_cases data s with hrun | ⟨blobs, hrun, hstored, hgrows⟩
  · rw [hrun] at hput
    cases hput
  · rw [hrun] at hput
    cases hput
    cases h
    refine ⟨rfl, rfl, hgrows, ?_⟩
    intro path' hash' heq
    cases heq
    exact hstored

theorem stashStaged_run {e : String × FileStatus} {r : Option (String × Option H)}
    (h : stashStaged e s = (.ok r, t)) : r = stashedFile s e ∧ Looks s r t := by
  obtain ⟨path, status⟩ := e
  have hread : stashStaged (path, .added) s = (.ok r, t) →
      r = some (path, fileHash s path) ∧ Looks s r t := by
    intro hrun
    unfold stashStaged at hrun
    dsimp only at hrun
    rw [attempt_bind (readFile_run path s)] at hrun
    rw [fileHash]
    cases hfile : s.files.get path with
    | none =>
      rw [hfile] at hrun
      cases hrun
      exact ⟨rfl, looks_refl (held_gone path)⟩
    | some data =>
      rw [hfile] at hrun
      exact looks_putBlob hrun
  cases status with
  | added => exact hread h
  | modified => exact hread h
  | deleted =>
    cases h
    exact ⟨rfl, looks_refl (held_gone path)⟩
  | clean | untracked =>
    cases h
    exact ⟨rfl, looks_refl held_none⟩

theorem stashTracked_run {stagedPaths : List String} {e : String × H}
    {r : Option (String × Option H)} (h : stashTracked stagedPaths e s = (.ok r, t)) :
    r = trackedFile s stagedPaths e ∧ Looks s r t := by
  unfold stashTracked at h
  rw [attempt_bind (readFile_run e.1 s)] at h
  unfold trackedFile fileHash
  cases hfile : s.files.get e.1 with
  | none =>
    rw [hfile] at h
    cases h
    exact ⟨rfl, looks_refl held_none⟩
  | some data =>
    rw [hfile] at h
    rw [Option.map_some, Option.bind_some]
    dsimp only at h
    split at h
    · rename_i hchanged
      rw [if_pos hchanged]
      exact looks_putBlob h
    · rename_i hsame
      cases h
      rw [if_neg hsame]
      exact ⟨rfl, looks_refl held_none⟩

/-- Going through files for a stash: the first state decides what is held for each. -/
theorem lookEach_run {α : Type} {f : α → Action H (Option (String × Option H))}
    {g : Repository H → α → Option (String × Option H)}
    (hf : ∀ a s r t, f a s = (.ok r, t) → r = g s a ∧ Looks s r t)
    (hg : ∀ blobs a, g { s with blobs := blobs } a = g s a) {as : List α}
    {rs : List (Option (String × Option H))} (h : mapEach f as s = (.ok rs, t)) :
    rs = as.map (g s) ∧ t = { s with blobs := t.blobs } ∧ ∀ r ∈ rs, Held r t := by
  have hstep : ∀ a u r v, u = { s with blobs := u.blobs } → f a u = (.ok r, v) →
      r = g s a ∧ v = { s with blobs := v.blobs } ∧ Held r v ∧ ∀ c, Held c u → Held c v := by
    intro a u r v hu hrun
    obtain ⟨hr, hlooks⟩ := hf a u r v hrun
    refine ⟨?_, ?_, hlooks.held, ?_⟩
    · rw [hr, hu, hg]
    · rw [hlooks.same, hu]
    · intro c hc path hash heq
      exact hlooks.grows.contains (hc path hash heq)
  obtain ⟨hrs, ht, hheld, -⟩ := mapEach_run hstep rfl h
  exact ⟨hrs, ht, hheld⟩

/-- What the files of a stash say of the state that they are taken from. -/
structure StashedFrom (s : Repository H) (files : List (String × Option H)) : Prop where
  nodup : (files.map Prod.fst).Nodup
  staged : ∀ path op, (s.workingSet.get path).bind stagedOp = some op →
    (path, if op = .delete then none else fileHash s path) ∈ files
  content : ∀ path hash, (path, some hash) ∈ files → fileHash s path = some hash
  gone : ∀ path, (path, none) ∈ files → s.workingSet.contains path = true
  tracked : ∀ tree, (snapshotHead s).1 = .ok tree → ∀ path old new, tree.get path = some old →
    fileHash s path = some new → new ≠ old → (s.workingSet.get path).bind stagedOp = none →
      (path, some new) ∈ files

theorem keys_filterMap_sublist {α β : Type} {f : String × α → Option (String × β)}
    (hf : ∀ e r, f e = some r → r.1 = e.1) (es : List (String × α)) :
    ((es.filterMap f).map Prod.fst).Sublist (es.map Prod.fst) := by
  induction es with
  | nil => exact .slnil
  | cons e es ih =>
    cases hfe : f e with
    | none =>
      rw [List.filterMap_cons_none hfe]
      exact ih.cons _
    | some r =>
      rw [List.filterMap_cons_some hfe, List.map_cons, List.map_cons, hf e r hfe]
      exact ih.cons_cons _

theorem stashedFile_fst {e : String × FileStatus} {r : String × Option H}
    (h : stashedFile s e = some r) : r.1 = e.1 := by
  obtain ⟨op, -, rfl⟩ := Option.map_eq_some_iff.mp h
  rfl

theorem trackedFile_eq_some {stagedPaths : List String} {e : String × H} {r : String × Option H}
    (h : trackedFile s stagedPaths e = some r) :
    r.1 = e.1 ∧ e.1 ∉ stagedPaths ∧ r.2 ≠ none ∧ r.2 = fileHash s e.1 := by
  obtain ⟨hash, hhash, h⟩ := Option.bind_eq_some_iff.mp h
  split at h
  · rename_i hchanged
    cases h
    exact ⟨rfl, hchanged.2, nofun, hhash.symm⟩
  · cases h

theorem stashedFrom_push {headTree : FileTree H} (hhead : (snapshotHead s).1 = .ok headTree) :
    let staged := s.workingSet.entries.filterMap (stashedFile s)
    StashedFrom s (staged ++ headTree.entries.filterMap (trackedFile s (staged.map Prod.fst))) := by
  intro staged
  have hstaged : ∀ {path : String} {content : Option H}, (path, content) ∈ staged ↔
      ∃ op, (s.workingSet.get path).bind stagedOp = some op ∧
        content = if op = .delete then none else fileHash s path := by
    intro path content
    rw [List.mem_filterMap]
    constructor
    · intro ⟨e, hentry, he⟩
      obtain ⟨op, hop, heq⟩ := Option.map_eq_some_iff.mp he
      obtain ⟨rfl, rfl⟩ := Prod.mk.inj heq
      exact ⟨op, by rw [SortedMap.mem_entries.mp hentry]; exact hop, rfl⟩
    · intro ⟨op, hop, hcontent⟩
      obtain ⟨status, hget, hop⟩ := Option.bind_eq_some_iff.mp hop
      exact ⟨_, SortedMap.mem_entries.mpr hget, by rw [stashedFile, hop, hcontent]; rfl⟩
  have hkeys : (staged.map Prod.fst).Nodup :=
    (keys_filterMap_sublist (fun _ _ => stashedFile_fst) _).nodup
      ((List.pairwise_map.mpr s.workingSet.sorted).imp ne_of_lt)
  have htracked : ((headTree.entries.filterMap
      (trackedFile s (staged.map Prod.fst))).map Prod.fst).Nodup :=
    (keys_filterMap_sublist (fun _ _ h => (trackedFile_eq_some h).1) _).nodup
      ((List.pairwise_map.mpr headTree.sorted).imp ne_of_lt)
  constructor
  · rw [List.map_append]
    apply hkeys.append htracked
    intro path hpath hpath'
    obtain ⟨r, hr, rfl⟩ := List.mem_map.mp hpath'
    obtain ⟨e, -, he⟩ := List.mem_filterMap.mp hr
    obtain ⟨hfst, hnot, -⟩ := trackedFile_eq_some he
    exact hnot (hfst ▸ hpath)
  · intro path op hop
    exact List.mem_append_left _ (hstaged.mpr ⟨op, hop, rfl⟩)
  · intro path hash hmem
    rcases List.mem_append.mp hmem with hmem | hmem
    · obtain ⟨op, -, hhash⟩ := hstaged.mp hmem
      split at hhash
      · cases hhash
      · exact hhash.symm
    · obtain ⟨e, -, he⟩ := List.mem_filterMap.mp hmem
      obtain ⟨rfl, -, -, hhash⟩ := trackedFile_eq_some he
      exact hhash.symm
  · intro path hmem
    rcases List.mem_append.mp hmem with hmem | hmem
    · obtain ⟨op, hop, -⟩ := hstaged.mp hmem
      obtain ⟨status, hget, -⟩ := Option.bind_eq_some_iff.mp hop
      exact Option.isSome_iff_exists.mpr ⟨status, hget⟩
    · obtain ⟨e, -, he⟩ := List.mem_filterMap.mp hmem
      exact absurd rfl (trackedFile_eq_some he).2.2.1
  · intro tree htree path old new hold hnew hne hop
    rw [hhead] at htree
    cases htree
    apply List.mem_append_right
    rw [List.mem_filterMap]
    refine ⟨_, SortedMap.mem_entries.mpr hold, ?_⟩
    have hnot : path ∉ staged.map Prod.fst := by
      intro hpath
      obtain ⟨r, hr, rfl⟩ := List.mem_map.mp hpath
      obtain ⟨op, hop', -⟩ := hstaged.mp hr
      rw [hop] at hop'
      cases hop'
    rw [trackedFile, hnew, Option.bind_some, if_pos ⟨hne, hnot⟩]

/-! ### The tree that a push looks at -/

theorem snapshotHead_same (hs : Valid F s) (ht : Valid F t) (h : (still H).le s t) :
    (snapshotHead t).1 = (snapshotHead s).1 := by
  obtain ⟨hdag, hheads, -⟩ := h
  simp only [headState, heads, Prod.mk.injEq] at hheads
  obtain ⟨⟨hrows, -, -, -, hbranch⟩, hsnapshot, -, hhash, -⟩ := hheads
  obtain ⟨branch, id, tree, u, hname, hget, hrun, hread, -⟩ := snapshotHead_spec hs
  obtain ⟨branch', id', tree', u', hname', hget', hrun', hread', -⟩ := snapshotHead_spec ht
  rw [hbranch, hname] at hname'
  cases hname'
  rw [hdag, hget] at hget'
  cases hget'
  have htree : headTree t id = headTree s id := by
    unfold headTree loadFileTree
    rw [hrows, hdag, hhash]
  rw [hrun, hrun', hread.value, hread'.value, hsnapshot, htree]

theorem snapshotHead_again (hs : Valid F s) :
    (snapshotHead (snapshotHead s).2).1 = (snapshotHead s).1 := by
  obtain ⟨branch, id, tree, t, -, -, hrun, hread, ht, -⟩ := snapshotHead_spec hs
  rw [hrun]
  apply snapshotHead_of_cached ht
  rw [hread.same]

theorem hasUncommittedChanges_state (statHit : String → Bool) (s : Repository H) :
    (hasUncommittedChanges statHit s).2 = s ∨
      (hasUncommittedChanges statHit s).2 = (snapshotHead s).2 := by
  unfold hasUncommittedChanges
  rw [read_bind]
  split
  · exact .inl rfl
  · apply Or.inr
    rcases hrun : snapshotHead s with ⟨e | tree, t⟩
    · rw [attempt_bind hrun]
      rfl
    · rw [attempt_bind hrun]
      rfl

theorem fileHash_of_desk (h : desk t = desk s) : fileHash t = fileHash s := by
  funext path
  unfold fileHash
  rw [show t.files = s.files from congrArg Prod.fst h]

theorem stashTree_run (hs : Valid F s) {stagedPaths : List String}
    {tracked : List (String × Option H)} (h : stashTree stagedPaths s = (.ok tracked, t)) :
    ∃ tree, (snapshotHead s).1 = .ok tree ∧
      tracked = tree.entries.filterMap (trackedFile s stagedPaths) ∧ desk t = desk s ∧
        ∀ e ∈ tracked, Held (some e) t := by
  obtain ⟨tree, s₁, hrun, -⟩ := snapshotHead_run hs
  have hdesk : desk s₁ = desk s := by
    have hquiet := desk_snapshotHead s
    rwa [hrun] at hquiet
  unfold stashTree at h
  rw [attempt_bind hrun] at h
  obtain ⟨rs, s₂, hlook, h⟩ := bind_ok h
  cases h
  obtain ⟨rfl, ht, hheld⟩ := lookEach_run (g := fun s => trackedFile s stagedPaths)
    (fun _ _ _ _ => stashTracked_run) (fun _ _ => rfl) hlook
  have htracked : trackedFile s₁ stagedPaths = trackedFile s stagedPaths := by
    funext e
    rw [trackedFile, trackedFile, fileHash_of_desk hdesk]
  refine ⟨tree, by rw [hrun], ?_, ?_, ?_⟩
  · rw [List.filterMap_map, htracked]
    rfl
  · rw [ht]
    exact hdesk
  · intro e he
    obtain ⟨r, hr, he⟩ := List.mem_filterMap.mp he
    obtain rfl : r = some e := he
    exact hheld _ hr

/-! ### A push -/

theorem safe_at {α : Type} {m : Action H α} {Q : α → Repository H → Prop} (h : Safe F m s Q)
    {r : Except (RepoError H) α} (hrun : m s = (r, t)) : Valid F t ∧ Later s t := by
  have hinv := h.inv
  have hle := h.le
  rw [hrun] at hinv hle
  exact ⟨hinv, hle⟩

abbrev stashesKept (H : Type) [LinearOrder H] : Drift (Repository H) :=
  Drift.ofView Repository.stashes

omit [Hashing H] in
theorem stashes_of_desk {α : Type} {m : Action H α} (hm : Quiet (deskKept H) m) :
    Quiet (stashesKept H) m := by
  intro s
  have hdesk : desk (m s).2 = desk s := hm s
  exact congrArg (fun d => d.2.2) hdesk

theorem stashes_of_contents {α : Type} {m : Action H α} (hm : Quiet (contents H) m) :
    Quiet (stashesKept H) m := by
  intro s
  have hhollow : (hollow (m s).2).stashes = (hollow s).stashes := by rw [(hm s).1]
  exact hhollow

theorem stashes_restoreHead : Quiet (stashesKept H) restoreHead := by
  apply (stashes_of_desk desk_snapshotHead).attempt.bind
  intro r
  cases r with
  | ok tree => exact stashes_of_contents (contents_restoreTree tree)
  | error e => exact quiet_pure _

/-- Steps before a stash is stored: what it is taken from is still there. -/
structure Readies (F : Prop) (s t : Repository H) : Prop where
  valid : Valid F t
  later : Later s t
  desk : desk t = desk s
  head : (snapshotHead t).1 = (snapshotHead s).1

theorem readies_hasUncommittedChanges (hs : Valid F s) (statHit : String → Bool) :
    Readies F s (hasUncommittedChanges statHit s).2 where
  valid := (safe_hasUncommittedChanges hs statHit).inv
  later := (safe_hasUncommittedChanges hs statHit).le
  desk := desk_hasUncommittedChanges statHit s
  head := by
    rcases hasUncommittedChanges_state statHit s with hsame | hsame
    · rw [hsame]
    · rw [hsame]
      exact snapshotHead_again hs

theorem readies_stashStaged (hs : Valid F s) {es : List (String × FileStatus)}
    {rs : List (Option (String × Option H))} (h : mapEach stashStaged es s = (.ok rs, t)) :
    Readies F s t := by
  have hsafe := safe_of_contents (Quiet.mapEach contents_stashStaged es) hs
  have hstill := still_of_contents (Quiet.mapEach contents_stashStaged es) s
  have hvalid := hsafe.inv
  have hlater := hsafe.le
  rw [h] at hstill hvalid hlater
  obtain ⟨-, ht, -⟩ := lookEach_run (g := stashedFile) (fun _ _ _ _ => stashStaged_run)
    (fun _ _ => rfl) h
  refine ⟨hvalid, hlater, ?_, snapshotHead_same hs hvalid hstill⟩
  rw [ht]
  rfl

/-- What a push that returns stores at the first free index. -/
structure Pushed (s : Repository H) (stash : Stash H) (t : Repository H) : Prop where
  stashes : t.stashes = s.stashes.insert (freeIndex s.stashes) stash
  files : StashedFrom s stash.files
  held : ∀ e ∈ stash.files, Held (some e) t

/-- The end of a push: the stash is stored and the files of HEAD are put back. -/
theorem storeStash_run (hs : Valid F s) {index i : Nat} {stash : Stash H}
    (h : (do
      Program.modify fun s => { s with
        stashes := s.stashes.insert index stash, workingSet := .empty }
      restoreHead
      return index : Action H Nat) s = (.ok i, t)) :
    i = index ∧ t.stashes = s.stashes.insert index stash ∧ Later s t := by
  rw [modify_bind] at h
  obtain ⟨_, s₁, hrestore, h⟩ := bind_ok h
  cases h
  have hstill : Quiet (still H) (Program.modify fun s => { s with
      stashes := s.stashes.insert index stash, workingSet := .empty } : Action H Unit) :=
    quiet_modify fun _ => ⟨rfl, rfl, .refl _, nofun⟩
  obtain ⟨hs₁, hle⟩ := safe_at (safe_of_still hstill hs) rfl
  obtain ⟨-, hle'⟩ := safe_at (safe_restoreHead hs₁) hrestore
  have hkept := stashes_restoreHead (H := H)
    { s with stashes := s.stashes.insert index stash, workingSet := .empty }
  rw [hrestore] at hkept
  exact ⟨rfl, hkept, hle.trans hle'⟩

theorem stashPush_ok (hs : Valid F s) {statHit : String → Bool} {message : Option String}
    {index : Nat} (h : stashPush statHit message s = (.ok index, t)) :
    index = freeIndex s.stashes ∧ ∃ stash, Pushed s stash t := by
  obtain ⟨changed, s₁, h₁, h⟩ := bind_ok h
  have hready₁ := readies_hasUncommittedChanges hs statHit
  rw [h₁] at hready₁
  have hchanged : changed = true := by
    by_contra hne
    rw [require_bind_of_not hne] at h
    cases h
  rw [require_bind hchanged, read_bind] at h
  obtain ⟨rs, s₂, h₂, h⟩ := bind_ok h
  have hready₂ := readies_stashStaged hready₁.valid h₂
  obtain ⟨hrs, -, hheld₂⟩ := lookEach_run (g := stashedFile) (fun _ _ _ _ => stashStaged_run)
    (fun _ _ => rfl) h₂
  have hdesk₂ : desk s₂ = desk s := hready₂.desk.trans hready₁.desk
  have hhead₂ : (snapshotHead s₂).1 = (snapshotHead s).1 := hready₂.head.trans hready₁.head
  obtain ⟨tracked, s₃, h₃, h⟩ := bind_ok h
  obtain ⟨hs₃, hle₃⟩ := safe_at (safe_stashTree hready₂.valid _) h₃
  obtain ⟨headTree, htree, htracked, hdesk₃, hheld₃⟩ := stashTree_run hready₂.valid h₃
  rw [read_bind] at h
  obtain ⟨⟨branch, headId⟩, s₄, h₄, h⟩ := bind_ok h
  obtain ⟨hs₄, hle₄⟩ := safe_at (safe_head hs₃) h₄
  have hdesk₄ : desk s₄ = desk s₃ := by
    have hquiet := desk_head (H := H) s₃
    rwa [h₄] at hquiet
  obtain ⟨hindex, hkept, hle₅⟩ := storeStash_run hs₄ h
  have hstashes : s₃.stashes = s.stashes := congrArg (fun d => d.2.2) (hdesk₃.trans hdesk₂)
  have hstashes₄ : s₄.stashes = s.stashes :=
    (congrArg (fun d => d.2.2) hdesk₄).trans hstashes
  have hlater : Later s₃ t := hle₄.trans hle₅
  have hfiles : rs.filterMap id ++ tracked = s.workingSet.entries.filterMap (stashedFile s) ++
      headTree.entries.filterMap (trackedFile s
        ((s.workingSet.entries.filterMap (stashedFile s)).map Prod.fst)) := by
    have hworking : s₁.workingSet = s.workingSet := congrArg (fun d => d.2.1) hready₁.desk
    have hstaged : stashedFile s₁ = stashedFile s := by
      funext e
      rw [stashedFile, stashedFile, fileHash_of_desk hready₁.desk]
    have hrs : rs.filterMap id = s.workingSet.entries.filterMap (stashedFile s) := by
      rw [hrs, List.filterMap_map, hworking, hstaged]
      rfl
    have hlook : ∀ paths, trackedFile s₂ paths = trackedFile s paths := by
      intro paths
      funext e
      rw [trackedFile, trackedFile, fileHash_of_desk hdesk₂]
    rw [htracked, hlook, hrs]
  have hheld : ∀ e ∈ rs.filterMap id ++ tracked, Held (some e) s₃ := by
    intro e he
    rcases List.mem_append.mp he with he | he
    · obtain ⟨r, hr, he⟩ := List.mem_filterMap.mp he
      obtain rfl : r = some e := he
      intro path hash heq
      exact hle₃.gains.blobs.contains (hheld₂ _ hr path hash heq)
    · exact hheld₃ e he
  refine ⟨by rw [hindex, hstashes],
    ⟨message.getD "WIP", branch, headId, rs.filterMap id ++ tracked⟩, ?_, ?_, ?_⟩
  · rw [hkept, hstashes₄, hstashes]
  · dsimp only
    rw [hfiles]
    exact stashedFrom_push (hhead₂ ▸ htree)
  · intro e he path hash heq
    exact hlater.gains.blobs.contains (hheld e he path hash heq)

theorem returns_restoreHead : Returns (restoreHead (H := H)) := by
  apply (returns_attempt _).bind
  intro r
  cases r with
  | ok tree =>
    apply (Returns.forEach (fun _ => returns_modify _) _).bind
    intro _
    apply Returns.forEach
    intro e
    apply (returns_attempt _).bind
    intro r
    cases r with
    | ok blob => exact returns_modify _
    | error e => exact returns_pure ()
  | error e => exact returns_pure ()

/-- A push that fails stores no stash. -/
theorem stashPush_fails (statHit : String → Bool) (message : Option String) :
    FailsQuiet (stashesKept H) (stashPush statHit message) := by
  apply FailsQuiet.bind (stashes_of_desk (desk_hasUncommittedChanges statHit))
  intro changed
  apply FailsQuiet.bind (quiet_require _ _)
  intro _
  apply FailsQuiet.bind quiet_read
  intro s
  apply FailsQuiet.bind (stashes_of_contents (Quiet.mapEach contents_stashStaged _))
  intro rs
  have htree : Quiet (stashesKept H) (stashTree ((rs.filterMap id).map Prod.fst)) := by
    apply (stashes_of_desk desk_snapshotHead).attempt.bind
    intro r
    cases r with
    | ok tree =>
      exact (stashes_of_contents (Quiet.mapEach (contents_stashTracked _) _)).bind
        fun _ => quiet_pure _
    | error e => exact quiet_pure _
  apply FailsQuiet.bind htree
  intro tracked
  apply FailsQuiet.bind quiet_read
  intro t
  apply FailsQuiet.bind (stashes_of_desk desk_head)
  intro head
  apply Returns.failsQuiet
  apply (returns_modify _).bind
  intro _
  exact returns_restoreHead.bind fun _ => returns_pure _

end Suture.Repo
