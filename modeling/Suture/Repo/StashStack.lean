import Suture.Repo.StashEntries

/-!
# Stashes as a stack

A push takes the lowest free index and a pop the highest index, so the stashes come back in
the order of a stack while no index below their number is free. What a pop puts back is
staged as modified or deleted, and a commit drops a modification of a file that HEAD does
not have.
-/

namespace Suture.Repo
set_option autoImplicit false
open Foundation Common Patches Dag Engine Program

variable {H : Type} [LinearOrder H] [Hashing H] {F : Prop} {s t u : Repository H}

/-! ### Putting an entry back -/

/-- What the files of a stash need to go back. -/
structure Restorable (blobs : SortedMap H Bytes) (files : List (String × Option H)) : Prop where
  nodup : (files.map Prod.fst).Nodup
  named : ∀ e ∈ files, IsRepoPath e.1
  stored : ∀ path hash, (path, some hash) ∈ files → blobs.contains hash = true

def unstashedStatus (content : Option H) : FileStatus :=
  if content.isSome then .modified else .deleted

/-- What a file of a stash makes of the desk. -/
structure PutBack (s : Repository H) (e : String × Option H) (t : Repository H) : Prop where
  stashes : t.stashes = s.stashes
  blobs : t.blobs = s.blobs
  files : ∀ path, fileHash t path = if path = e.1 then e.2 else fileHash s path
  workingSet : ∀ path, t.workingSet.get path =
    if path = e.1 then some (unstashedStatus e.2) else s.workingSet.get path

theorem unstash_run {e : String × Option H} (hs : Valid F s) (hnamed : IsRepoPath e.1)
    (hstored : ∀ hash, e.2 = some hash → s.blobs.contains hash = true) :
    ∃ t, unstash e s = (.ok (), t) ∧ PutBack s e t := by
  obtain ⟨path, content⟩ := e
  cases content with
  | none =>
    refine ⟨_, workingSetAdd_named hnamed .deleted _, rfl, rfl, ?_, ?_⟩
    · intro other
      change ((s.files.erase path).get other).map Hashing.fromData = _
      rw [SortedMap.get_erase]
      split <;> rfl
    · intro other
      exact SortedMap.get_insert ..
  | some hash =>
    obtain ⟨data, hdata⟩ := Option.isSome_iff_exists.mp (hstored hash rfl)
    have hget : getBlob hash s = (.ok data, s) := by
      unfold getBlob
      rw [read_bind, hdata]
      rfl
    have hrun : unstash (path, some hash) s = (do
        writeFile path data
        workingSetAdd path .modified : Action H Unit) s := bind_of_ok hget
    refine ⟨_, hrun.trans (workingSetAdd_named hnamed .modified _), rfl, rfl, ?_, ?_⟩
    · intro other
      change ((s.files.insert path data).get other).map Hashing.fromData = _
      rw [SortedMap.get_insert]
      split
      · rw [Option.map_some, ← hs.hashed hash data hdata]
      · rfl
    · intro other
      exact SortedMap.get_insert ..

/-- The files of an entry are there with their content, and staged. -/
structure Back (files : List (String × Option H)) (t : Repository H) : Prop where
  content : ∀ e ∈ files, fileHash t e.1 = e.2
  staged : ∀ e ∈ files, t.workingSet.get e.1 = some (unstashedStatus e.2)

theorem unstashEach_run {files : List (String × Option H)} (hs : Valid F s)
    (h : Restorable s.blobs files) : ∃ t, forEach unstash files s = (.ok (), t) ∧ Back files t ∧
      t.stashes = s.stashes ∧ ∀ path, path ∉ files.map Prod.fst →
        fileHash t path = fileHash s path ∧ t.workingSet.get path = s.workingSet.get path := by
  induction files generalizing s with
  | nil => exact ⟨s, rfl, ⟨nofun, nofun⟩, rfl, fun _ _ => ⟨rfl, rfl⟩⟩
  | cons e files ih =>
    obtain ⟨s₁, h₁, hput⟩ := unstash_run hs (h.named e (List.mem_cons_self ..))
      fun hash hhash => h.stored e.1 hash (by rw [← hhash]; exact List.mem_cons_self ..)
    have hs₁ : Valid F s₁ := (safe_at (safe_of_still (still_unstash e) hs) h₁).1
    obtain ⟨hfirst, hnodup⟩ := List.nodup_cons.mp h.nodup
    have hrest : Restorable s₁.blobs files := by
      rw [hput.blobs]
      exact ⟨hnodup, fun e he => h.named e (List.mem_cons_of_mem _ he),
        fun path hash hmem => h.stored path hash (List.mem_cons_of_mem _ hmem)⟩
    obtain ⟨t, hrun, hback, hstashes, hframe⟩ := ih hs₁ hrest
    obtain ⟨hfile, hstaged⟩ := hframe e.1 hfirst
    refine ⟨t, ?_, ⟨?_, ?_⟩, hstashes.trans hput.stashes, ?_⟩
    · exact (bind_of_ok h₁).trans hrun
    · intro e' he'
      rcases List.mem_cons.mp he' with rfl | he'
      · rw [hfile, hput.files, if_pos rfl]
      · exact hback.content e' he'
    · intro e' he'
      rcases List.mem_cons.mp he' with rfl | he'
      · rw [hstaged, hput.workingSet, if_pos rfl]
      · exact hback.staged e' he'
    · intro path hpath
      rw [List.map_cons, List.mem_cons, not_or] at hpath
      obtain ⟨hfile, hstaged⟩ := hframe path hpath.2
      rw [hfile, hstaged, hput.files, hput.workingSet, if_neg hpath.1, if_neg hpath.1]
      exact ⟨rfl, rfl⟩

/-! ### A pop -/

/-- Every file that a stash holds with content is in the tree that a commit adds to. -/
def InHead (s : Repository H) (stash : Stash H) : Prop :=
  ∃ branch headId, (head s).1 = .ok (branch, headId) ∧
    ∀ e ∈ stash.files, e.2.isSome = true → (commitBase s headId).contains e.1 = true

/-- What a stash is to be popped to: its files are back and staged, and a commit records
them. -/
structure Restores (stash : Stash H) (t : Repository H) : Prop where
  back : Back stash.files t
  recorded : ∀ message id u, commit message t = (.ok id, u) →
    ∃ tree, (snapshotHead u).1 = .ok tree ∧ ∀ e ∈ stash.files, tree.get e.1 = e.2

/-- A commit records a file that was put back with content if HEAD has the file. -/
theorem restores_of_back {stash : Stash H} (hs : Valid False t) (hback : Back stash.files t)
    (hhead : InHead t stash) : Restores stash t := by
  refine ⟨hback, ?_⟩
  intro message id u hcommit
  have hsafe := safe_commit hs False.elim message
  have hpost := hsafe.post id
  have hu := hsafe.inv
  rw [hcommit] at hpost hu
  obtain ⟨-, branch, headId, tree, hread, hcached, htree⟩ := hpost rfl
  obtain ⟨branch', headId', hread', hin⟩ := hhead
  rw [hread] at hread'
  cases hread'
  refine ⟨tree, snapshotHead_of_cached hu hcached, ?_⟩
  intro e he
  have hcontent := hback.content e he
  have hstaged := hback.staged e he
  rw [htree, recordedEntry, hstaged, hcontent]
  cases hhash : e.2 with
  | none => rfl
  | some hash =>
    obtain ⟨old, hold⟩ := Option.isSome_iff_exists.mp (hin e he (by rw [hhash]; rfl))
    change ((commitBase t headId).get e.1).map (fun _ => hash) = some hash
    rw [hold]
    rfl

/-- Files and staging do not move HEAD. -/
theorem inHead_of_still {stash : Stash H} {branch : String} {headId : H}
    (hid : s.cachedHeadId = some headId) (hbranch : s.cachedHeadBranch = some branch)
    (h : (still H).le s t) (hin : ∀ e ∈ stash.files, e.2.isSome = true →
      (commitBase s headId).contains e.1 = true) : InHead t stash := by
  obtain ⟨hdag, hheads, -⟩ := h
  simp only [headState, heads, Prod.mk.injEq] at hheads
  obtain ⟨⟨hrows, hcached, -, hpending, -⟩, -, hcachedBranch, -⟩ := hheads
  have hread : head t = (.ok (branch, headId), t) :=
    head_of_cached (hcached.trans hid) (hcachedBranch.trans hbranch)
  refine ⟨branch, headId, by rw [hread], ?_⟩
  have hbase : commitBase t headId = commitBase s headId := by
    unfold commitBase parentsOf treeOf loadFileTree
    rw [hdag, hrows, hpending]
  rw [hbase]
  exact hin

omit [LinearOrder H] [Hashing H] in
theorem keys_getLast? {m : SortedMap Nat (Stash H)} :
    m.keys.getLast? = m.entries.getLast?.map Prod.fst := List.getLast?_map ..

theorem stashPop_run (hs : Valid False s) {index : Nat} {stash : Stash H}
    (hlast : s.stashes.entries.getLast? = some (index, stash))
    (hfiles : Restorable s.blobs stash.files) (hhead : InHead s stash) :
    ∃ t, stashPop s = (.ok (), t) ∧ Restores stash t ∧
      t.stashes = s.stashes.erase index := by
  obtain ⟨branch, headId, hread, hin⟩ := hhead
  obtain ⟨s₁, hrun⟩ : ∃ s₁, head s = (.ok (branch, headId), s₁) := ⟨(head s).2, Prod.ext hread rfl⟩
  obtain ⟨hs₁, -, -, hvalid₁, -⟩ := head_ok hs hrun
  have hbase : commitBase s₁ headId = commitBase s headId := by
    rw [hs₁]
    rfl
  have hfiles₁ : Restorable s₁.blobs stash.files := by
    rw [hs₁]
    exact hfiles
  obtain ⟨s₂, hrun₂, hback, hstashes, -⟩ := unstashEach_run hvalid₁ hfiles₁
  have hstill : (still H).le s₁ s₂ := by
    have hquiet := Quiet.forEach still_unstash stash.files s₁
    rwa [hrun₂] at hquiet
  have hget : s.stashes.get index = some stash :=
    SortedMap.mem_entries.mp (List.mem_of_getLast? hlast)
  have hstashes₂ : s₂.stashes = s.stashes := by
    rw [hstashes, hs₁]
  have happly : stashApply index s = (.ok (), s₂) := by
    unfold stashApply
    rw [read_bind, hget]
    dsimp only
    rw [attempt_bind hrun]
    exact hrun₂
  have hdrop : stashDrop index s₂ = (.ok (), { s₂ with stashes := s₂.stashes.erase index }) := by
    unfold stashDrop
    rw [read_bind, hstashes₂, require_bind]
    · rw [← hstashes₂]
      rfl
    · rw [SortedMap.contains_eq, hget]
      rfl
  have hpop : stashPop s = (.ok (), { s₂ with stashes := s₂.stashes.erase index }) := by
    unfold stashPop
    rw [read_bind, keys_getLast?, hlast]
    exact (bind_of_ok happly).trans hdrop
  have hvalid₂ : Valid False { s₂ with stashes := s₂.stashes.erase index } := by
    have hsafe := (safe_stashPop hs).inv
    rwa [hpop] at hsafe
  refine ⟨_, hpop, ?_, ?_⟩
  · apply restores_of_back hvalid₂ ⟨hback.content, hback.staged⟩
    have hdropped := (still H).trans hstill (u := { s₂ with
      stashes := s₂.stashes.erase index }) ⟨rfl, rfl, .of_eq rfl rfl⟩
    refine inHead_of_still (show s₁.cachedHeadId = some headId by rw [hs₁])
      (show s₁.cachedHeadBranch = some branch by rw [hs₁]) hdropped ?_
    rw [hbase]
    exact hin
  · rw [hstashes₂]

/-! ### Runs of stash calls -/

/-- A call of the stash, or a change of the files and of what is staged between two. -/
inductive StashCall where
  | editFile (path : String) (data : Bytes)
  | deleteFile (path : String)
  | add (path : String)
  | push (statHit : String → Bool) (message : Option String)
  | drop (index : Nat)
  | pop

/-- A repository with the pushes that no drop or pop has taken, in their order: the index
and the entry of each. -/
structure Stashed (H : Type) [LinearOrder H] where
  repo : Repository H
  stack : List (Nat × Stash H)

def Stashed.next (s : Stashed H) : StashCall → Stashed H
  | .editFile path data => ⟨(writeFile path data s.repo).2, s.stack⟩
  | .deleteFile path => ⟨(removeFile path s.repo).2, s.stack⟩
  | .add path => ⟨(add path s.repo).2, s.stack⟩
  | .push statHit message =>
    match stashPush statHit message s.repo with
    | (.ok index, t) => ⟨t, s.stack ++ (t.stashes.get index).toList.map fun stash => (index, stash)⟩
    | (.error _, t) => ⟨t, s.stack⟩
  | .drop index =>
    match stashDrop index s.repo with
    | (.ok _, t) => ⟨t, s.stack.filter fun e => decide (e.1 ≠ index)⟩
    | (.error _, t) => ⟨t, s.stack⟩
  | .pop =>
    match stashPop s.repo with
    | (.ok _, t) => ⟨t, s.stack.dropLast⟩
    | (.error _, t) => ⟨t, s.stack⟩

/-- What a call should do: a push stores what the files and the staging say, a pop restores
the entry of the last push that is left and takes it away. -/
def Stashed.Behaves (s : Stashed H) : StashCall → Prop
  | .push statHit message => ∀ index t, stashPush statHit message s.repo = (.ok index, t) →
    ∃ stash, t.stashes.get index = some stash ∧ StashedFrom s.repo stash.files
  | .pop =>
    match s.stack.getLast? with
    | none => (stashPop s.repo).1 = .error .noStashes
    | some (_, stash) => ∃ t, stashPop s.repo = (.ok (), t) ∧ Restores stash t ∧
      t.stashes.entries = s.stack.dropLast
  | _ => True

/-- A push leaves no index below the number of stashes free, and HEAD has the files with
content of the stash that a pop takes. -/
def Stashed.Allowed (s : Stashed H) : StashCall → Prop
  | .push _ _ => s.repo.stashes.Filled s.repo.stashes.entries.length
  | .pop => ∀ e, s.repo.stashes.entries.getLast? = some e → InHead s.repo e.2
  | _ => True

omit [Hashing H] in
theorem stashes_add (path : String) : Quiet (stashesKept H) (add path) := by
  have hadd : ∀ path status, Quiet (stashesKept H) (workingSetAdd path status) := by
    intro path status
    exact (quiet_ofExcept _).bind fun _ => quiet_modify fun _ => rfl
  have htracked : Quiet (stashesKept H) (isTracked path) := by
    apply quiet_read.bind
    intro s
    split
    · exact quiet_pure _
    · apply (stashes_of_desk desk_head).attempt.bind
      intro r
      split
      · exact quiet_read.bind fun _ => quiet_pure _
      · exact quiet_pure _
  apply (quiet_ofExcept _).bind
  intro p
  apply quiet_read.bind
  intro s
  split
  · apply htracked.bind
    intro tracked
    split <;> exact hadd _ _
  · apply htracked.bind
    intro tracked
    split
    · exact hadd _ _
    · exact quiet_fail _

/-- The stashes are the pushes that are left, in their order, and can be put back. -/
structure StackOk (s : Stashed H) : Prop where
  valid : Valid False s.repo
  stack : s.repo.stashes.entries = s.stack
  nodup : ∀ e ∈ s.stack, (e.2.files.map Prod.fst).Nodup
  gone : ∀ e ∈ s.stack, ∀ path, (path, none) ∈ e.2.files → IsRepoPath path
  held : ∀ e ∈ s.stack, ∀ path hash, (path, some hash) ∈ e.2.files →
    s.repo.blobs.contains hash = true

/-- A later state with some of the stashes. -/
theorem StackOk.later {s : Stashed H} (h : StackOk s) (ht : Valid False t)
    (hle : Later s.repo t) {stack : List (Nat × Stash H)} (hstack : t.stashes.entries = stack)
    (hsub : ∀ e ∈ stack, e ∈ s.stack) : StackOk ⟨t, stack⟩ where
  valid := ht
  stack := hstack
  nodup := fun e he => h.nodup e (hsub e he)
  gone := fun e he => h.gone e (hsub e he)
  held := fun e he path hash hmem =>
    hle.gains.blobs.contains (h.held e (hsub e he) path hash hmem)

/-- A call that leaves the stashes. -/
theorem StackOk.quiet {s : Stashed H} (h : StackOk s) (ht : Valid False t) (hle : Later s.repo t)
    (hsame : t.stashes = s.repo.stashes) : StackOk ⟨t, s.stack⟩ :=
  h.later ht hle (by rw [hsame, h.stack]) fun _ => id

omit [LinearOrder H] [Hashing H] in
/-- With no gap the first free index is the number of stashes. -/
theorem freeIndex_of_filled {m : SortedMap Nat (Stash H)} (h : m.Filled m.entries.length) :
    freeIndex m = m.entries.length := by
  have hnone : (List.range m.entries.length).find? (fun i => !m.contains i) = none := by
    rw [List.find?_eq_none]
    intro i hi
    rw [h i (List.mem_range.mp hi)]
    simp
  rw [freeIndex, hnone]
  rfl

theorem Stashed.push_behaves {s : Stashed H} (h : StackOk s) {statHit : String → Bool}
    {message : Option String} (hallowed : s.Allowed (.push statHit message)) :
    StackOk (s.next (.push statHit message)) ∧ s.Behaves (.push statHit message) := by
  obtain ⟨hvalid, hle⟩ := h.valid.next (.stashPush statHit message) False.elim
  change Valid False (stashPush statHit message s.repo).2 at hvalid
  change Later s.repo (stashPush statHit message s.repo).2 at hle
  unfold Stashed.next Stashed.Behaves
  dsimp only
  rcases hrun : stashPush statHit message s.repo with ⟨e | index, t⟩
  · rw [hrun] at hvalid hle
    refine ⟨h.quiet hvalid hle (stashPush_fails statHit message _ _ _ hrun), ?_⟩
    intro index u hrun'
    cases hrun'
  · rw [hrun] at hvalid hle
    obtain ⟨rfl, stash, hpushed⟩ := stashPush_ok h.valid hrun
    have hget : t.stashes.get (freeIndex s.repo.stashes) = some stash := by
      rw [hpushed.stashes, SortedMap.get_insert, if_pos rfl]
    constructor
    swap
    · intro index u hrun'
      cases hrun'
      exact ⟨stash, hget, hpushed.files⟩
    have hindex : freeIndex s.repo.stashes = s.repo.stashes.entries.length :=
      freeIndex_of_filled hallowed
    have habove : ∀ e ∈ s.repo.stashes.entries, e.1 < freeIndex s.repo.stashes := by
      intro e he
      rw [hindex]
      apply hallowed.lt_length
      rw [SortedMap.contains_eq, SortedMap.mem_entries.mp he]
      rfl
    have hentries : t.stashes.entries = s.stack ++ [(freeIndex s.repo.stashes, stash)] := by
      rw [hpushed.stashes, ← h.stack]
      exact SortedMap.insert_above habove
    dsimp only
    rw [hget]
    dsimp only [Option.toList, List.map]
    refine ⟨hvalid, hentries, ?_, ?_, ?_⟩
    · intro e he
      rcases List.mem_append.mp he with he | he
      · exact h.nodup e he
      · obtain rfl := List.mem_singleton.mp he
        exact hpushed.files.nodup
    · intro e he path hpath
      rcases List.mem_append.mp he with he | he
      · exact h.gone e he path hpath
      · obtain rfl := List.mem_singleton.mp he
        exact h.valid.stagedNamed path (hpushed.files.gone path hpath)
    · intro e he path hash hmem
      rcases List.mem_append.mp he with he | he
      · exact hle.gains.blobs.contains (h.held e he path hash hmem)
      · obtain rfl := List.mem_singleton.mp he
        exact hpushed.held _ hmem path hash rfl

theorem Stashed.drop_behaves {s : Stashed H} (h : StackOk s) (index : Nat) :
    StackOk (s.next (.drop index)) := by
  obtain ⟨hvalid, hle⟩ := h.valid.next (.stashDrop index) False.elim
  change Valid False (stashDrop index s.repo).2 at hvalid
  change Later s.repo (stashDrop index s.repo).2 at hle
  unfold Stashed.next
  dsimp only
  by_cases hthere : s.repo.stashes.contains index = true
  · have hrun : stashDrop index s.repo =
        (.ok (), { s.repo with stashes := s.repo.stashes.erase index }) := by
      unfold stashDrop
      rw [read_bind, require_bind hthere]
      rfl
    rw [hrun] at hvalid hle ⊢
    refine h.later hvalid hle ?_ fun e he => (List.mem_filter.mp he).1
    rw [← h.stack]
    rfl
  · have hrun : stashDrop index s.repo = (.error (.stashNotFound index), s.repo) := by
      unfold stashDrop
      rw [read_bind, require_bind_of_not hthere]
    rw [hrun]
    exact h

theorem Stashed.pop_behaves {s : Stashed H} (h : StackOk s) (hallowed : s.Allowed .pop) :
    StackOk (s.next .pop) ∧ s.Behaves .pop := by
  obtain ⟨hvalid, hle⟩ := h.valid.next .stashPop False.elim
  change Valid False (stashPop s.repo).2 at hvalid
  change Later s.repo (stashPop s.repo).2 at hle
  unfold Stashed.next Stashed.Behaves
  dsimp only
  cases hlast : s.stack.getLast? with
  | none =>
    have hrun : stashPop s.repo = (.error .noStashes, s.repo) := by
      unfold stashPop
      rw [read_bind, keys_getLast?, h.stack, hlast]
      rfl
    rw [hrun]
    exact ⟨h, rfl⟩
  | some e =>
    obtain ⟨index, stash⟩ := e
    have hlast' : s.repo.stashes.entries.getLast? = some (index, stash) := by
      rw [h.stack, hlast]
    have hmem : (index, stash) ∈ s.stack := List.mem_of_getLast? hlast
    have hin := hallowed _ hlast'
    have hnamed : ∀ e ∈ stash.files, IsRepoPath e.1 := by
      intro e he
      obtain ⟨path, content⟩ := e
      cases content with
      | none => exact h.gone _ hmem path he
      | some hash =>
        obtain ⟨branch, headId, -, hin⟩ := hin
        obtain ⟨old, hold⟩ := Option.isSome_iff_exists.mp (hin _ he rfl)
        have hstored : TreeStored s.repo.blobs (commitBase s.repo headId) := by
          unfold commitBase
          split
          · exact h.valid.patched_stored _
          · exact h.valid.treeOf_stored headId
        apply hstored.named
        rw [hold]
        exact nofun
    obtain ⟨t, hrun, hrestores, hstashes⟩ := stashPop_run h.valid hlast'
      ⟨h.nodup _ hmem, hnamed, h.held _ hmem⟩ hin
    have hentries : t.stashes.entries = s.stack.dropLast := by
      rw [hstashes, ← h.stack]
      exact SortedMap.erase_getLast hlast'
    rw [hrun] at hvalid hle ⊢
    exact ⟨h.later hvalid hle hentries fun e he => List.mem_of_mem_dropLast he,
      t, rfl, hrestores, hentries⟩

theorem Stashed.next_behaves {s : Stashed H} (h : StackOk s) {call : StashCall}
    (hallowed : s.Allowed call) : StackOk (s.next call) ∧ s.Behaves call := by
  cases call with
  | editFile path data =>
    obtain ⟨hvalid, hle⟩ := h.valid.next (.editFile path data) False.elim
    exact ⟨h.quiet hvalid hle rfl, trivial⟩
  | deleteFile path =>
    obtain ⟨hvalid, hle⟩ := h.valid.next (.deleteFile path) False.elim
    exact ⟨h.quiet hvalid hle rfl, trivial⟩
  | add path =>
    obtain ⟨hvalid, hle⟩ := h.valid.next (.add path) False.elim
    exact ⟨h.quiet hvalid hle (stashes_add path s.repo), trivial⟩
  | push statHit message => exact Stashed.push_behaves h hallowed
  | drop index => exact ⟨Stashed.drop_behaves h index, trivial⟩
  | pop => exact Stashed.pop_behaves h hallowed

/-- While no push leaves a gap and no pop meets a file that HEAD lacks, the stashes are a
stack, and what is popped is recorded by a commit. -/
theorem stash_as_stack {s₀ : Repository H} (hs₀ : Reachable s₀) (hnone : s₀.stashes = .empty)
    {s : Stashed H} (hrun : Run Stashed.next Stashed.Allowed ⟨s₀, []⟩ s) {call : StashCall}
    (hallowed : s.Allowed call) : s.Behaves call := by
  have hstart : StackOk (⟨s₀, []⟩ : Stashed H) := by
    refine ⟨hs₀.valid, ?_, nofun, nofun, nofun⟩
    dsimp only
    rw [hnone]
    rfl
  have hok : StackOk s :=
    hrun.invariant StackOk (fun _ _ h hallowed => (Stashed.next_behaves h hallowed).1) hstart
  exact (Stashed.next_behaves hok hallowed).2

/-! ### Two runs -/

instance (s : Repository H) (stash : Stash H) : Decidable (InHead s stash) :=
  match hread : (head s).1 with
  | .ok (branch, headId) =>
    decidable_of_iff (∀ e ∈ stash.files, e.2.isSome = true →
        (commitBase s headId).contains e.1 = true)
      ⟨fun h => ⟨branch, headId, hread, h⟩, fun ⟨_, _, hread', h⟩ => by
        rw [hread] at hread'
        cases hread'
        exact h⟩
  | .error _ => .isFalse fun ⟨_, _, hread', _⟩ => by
      rw [hread] at hread'
      cases hread'

instance (m : SortedMap Nat (Stash H)) (n : Nat) : Decidable (m.Filled n) :=
  inferInstanceAs (Decidable (∀ i < n, m.contains i = true))

instance (s : Stashed H) : DecidablePred s.Allowed
  | .push _ _ => inferInstanceAs (Decidable (SortedMap.Filled _ _))
  | .pop =>
    match hlast : s.repo.stashes.entries.getLast? with
    | none => .isTrue fun e he => by
        rw [hlast] at he
        cases he
    | some e => decidable_of_iff (InHead s.repo e.2)
        ⟨fun h e' he' => by
          rw [hlast] at he'
          cases he'
          exact h, fun h => h e hlast⟩
  | .editFile _ _ | .deleteFile _ | .add _ | .drop _ => .isTrue trivial

/-- The file `a` is committed, and there is no stash. -/
def tidy : Stashed Hash := ⟨sample [.editFile "a" [49], .add "a", .commit "base"], []⟩

def pushChange (byte : UInt8) : List StashCall :=
  [.editFile "a" [byte], .push (fun _ => false) none]

theorem stash_as_stack_newest :
    ((pushChange 50 ++ pushChange 51).foldl Stashed.next tidy).Behaves .pop :=
  stash_as_stack (reachable_sample _) (by decide +kernel)
    (Run.of_allows _ (by decide +kernel)) (by decide +kernel)

/-- Two pushes, and the first is dropped: the third takes its index, below the second. -/
def overtaken : List StashCall := pushChange 50 ++ pushChange 51 ++ [.drop 0] ++ pushChange 52

/-- A pop after that puts the second push back, and not the third. -/
theorem newest_not_popped : ¬ ∀ (s₀ : Repository Hash) (s : Stashed Hash) (call : StashCall),
    Reachable s₀ → s₀.stashes = .empty → Run Stashed.next (fun _ _ => True) ⟨s₀, []⟩ s →
      s.Behaves call := by
  intro h
  have hpop := h tidy.repo (overtaken.foldl Stashed.next tidy) .pop (reachable_sample _)
    (by decide +kernel) (Run.of_allows overtaken (Run.allows_true _))
  have hlast : (overtaken.foldl Stashed.next tidy).stack.getLast? =
      some (0, ⟨"WIP", "main", tipOf "main" tidy.repo, [("a", some (Hashing.fromData [52]))]⟩) := by
    decide +kernel
  unfold Stashed.Behaves at hpop
  rw [hlast] at hpop
  obtain ⟨t, hrun, hrestores, -⟩ := hpop
  have hcontent := hrestores.back.content _ (List.mem_cons_self ..)
  have ht : t = (stashPop (overtaken.foldl Stashed.next tidy).repo).2 := by rw [hrun]
  rw [ht] at hcontent
  exact absurd hcontent (by decide +kernel)

end Suture.Repo
