import Suture.Dag.Line
import Suture.Engine.DiffSides
import Suture.Repo.Built
import Suture.Repo.SoftReset

/-!
# Blame

The first parents of a commit are walked from the root on, and each version of the file that
one of them has is compared with the version before. A line stays with the patch that it was
new in. The texts of the lines are those of the file in the tree of the commit.
-/

namespace Suture.Repo
set_option autoImplicit false
open Foundation Common Patches Dag Engine Program

structure BlameEntry (H : Type) where
  patchId : H
  message : String
  author : String
  line : String
  lineNumber : Nat
deriving DecidableEq

/-- A patch, its message and its author; nothing for a line without one. -/
abbrev LineAuthor (H : Type) := Option (H × String × String)

section Walk
variable {H : Type}

/-- The authors of the new lines: those of the old lines that stay, and else `who`. -/
def reattribute (lineAuthor : List (LineAuthor H)) (who : H × String × String) :
    List LineChange → Nat → List (LineAuthor H)
  | [], _ => []
  | .unchanged lines :: changes, oldIdx =>
    (List.range lines.length).map (fun i => lineAuthor.getD (oldIdx + i) none) ++
      reattribute lineAuthor who changes (oldIdx + lines.length)
  | .deleted lines :: changes, oldIdx => reattribute lineAuthor who changes (oldIdx + lines.length)
  | .inserted lines :: changes, oldIdx =>
    List.replicate lines.length (some who) ++ reattribute lineAuthor who changes oldIdx

/-- What a patch has of the file. -/
inductive FileStep where
  | skip
  | content (lines : List String)
  | delete

variable [Hashing H]

/-- The change of the file: in a batch, the first one for its path. -/
def changeAt (path : String) (patch : Patch H) : Option (FileChange H) :=
  if patch.operationType = .batch then (patch.fileChanges.getD []).find? fun c => c.path = path
  else if patch.targetPath = some path then
    some ⟨patch.operationType, path, payloadText patch.payload⟩
  else none

def linesOf (H : Type) [Hashing H] (data : Bytes) : List String := textLines (Hashing.utf8Lossy H data)

variable [LinearOrder H]

def fileStep (blobs : SortedMap H Bytes) (path : String) (patch : Patch H) : FileStep :=
  match changeAt path patch with
  | none => .skip
  | some change =>
    match change.op with
    | .create | .modify =>
      match (resolveHexToHash change.payload).bind blobs.get with
      | none => .skip
      | some data => .content (linesOf H data)
    | .delete => .delete
    | .move | .metadata | .merge | .identity | .batch => .skip

/-- The walk over the patches, which ends where the file is deleted. -/
def blameLines (blobs : SortedMap H Bytes) (path : String) :
    List (Patch H) → List (LineAuthor H) → List String → List (LineAuthor H)
  | [], lineAuthor, _ => lineAuthor
  | patch :: patches, lineAuthor, currentLines =>
    match fileStep blobs path patch with
    | .skip => blameLines blobs path patches lineAuthor currentLines
    | .content newLines =>
      blameLines blobs path patches
        (reattribute lineAuthor (patch.id, patch.message, patch.author)
          (diffLines currentLines newLines) 0) newLines
    | .delete => []

def blameEntry (lines : List String) (i : Nat) : LineAuthor H → BlameEntry H
  | some (pid, msg, author) => ⟨pid, msg, author, lines.getD i "", i + 1⟩
  | none => ⟨Hashing.zero, "", "", lines.getD i "", i + 1⟩

/-- The patches along the first parents, oldest first. -/
def firstParents (d : PatchDag H) (id : H) : List (Patch H) :=
  ((d.patchChain id).filterMap d.getPatch).reverse

def blameTarget (atRef : Option (String × Ref H)) : Action H H :=
  match atRef with
  | some (_, ref) => resolveRef ref
  | none => do
    let (_, headId) ← head
    return headId

/-- The patches that the lines of a file are from; `atRef` is a reference and its text. -/
def blame (path : String) (atRef : Option (String × Ref H)) : Action H (List (BlameEntry H)) := do
  let targetId ← blameTarget atRef
  let tree ← snapshot targetId
  match tree.get path with
  | none =>
    fail (.message ("file not found at '" ++ (atRef.map Prod.fst).getD "HEAD" ++ "': " ++ path))
  | some hash =>
    let blob ← getBlob hash
    let lines := linesOf H blob
    let s ← read
    let lineAuthor := blameLines s.blobs path (firstParents s.dag targetId)
      (List.replicate lines.length none) []
    return lineAuthor.mapIdx (blameEntry lines)

end Walk

/-! ### One comparison -/

section Comparison
variable {H : Type} {lineAuthor : List (LineAuthor H)} {who : H × String × String}

theorem length_reattribute (lineAuthor : List (LineAuthor H)) (who : H × String × String)
    (changes : List LineChange) (oldIdx : Nat) :
    (reattribute lineAuthor who changes oldIdx).length = (newSide changes).length := by
  induction changes generalizing oldIdx with
  | nil => rfl
  | cons c changes ih =>
    cases c with
    | unchanged lines => simp [reattribute, ih, LineChange.newLines]
    | deleted lines => simp [reattribute, ih, LineChange.newLines]
    | inserted lines => simp [reattribute, ih, LineChange.newLines]

theorem map_range_getD {oldIdx n : Nat} (h : ((lineAuthor.drop oldIdx).take n).length = n) :
    (List.range n).map (fun i => lineAuthor.getD (oldIdx + i) none) =
      (lineAuthor.drop oldIdx).take n := by
  apply List.ext_getElem
  · rw [List.length_map, List.length_range, h]
  · intro i hi _
    have hi : i < n := by simpa using hi
    have hlt : oldIdx + i < lineAuthor.length := by
      rw [List.length_take, List.length_drop] at h
      omega
    simp [List.getElem?_eq_getElem hlt]

/-- If the old lines have their authors, and the new ones may be put down to `who`, then the
new lines have theirs. -/
theorem reattribute_forall₂ {R : LineAuthor H → String → Prop} {changes : List LineChange}
    {oldIdx : Nat}
    (hold : List.Forall₂ R ((lineAuthor.drop oldIdx).take (oldSide changes).length) (oldSide changes))
    (hnew : ∀ line ∈ newSide changes, R (some who) line) :
    List.Forall₂ R (reattribute lineAuthor who changes oldIdx) (newSide changes) := by
  induction changes generalizing oldIdx with
  | nil => exact .nil
  | cons c changes ih =>
    rw [newSide_cons] at hnew ⊢
    have hlater : ∀ line ∈ newSide changes, R (some who) line :=
      fun line hline => hnew line (List.mem_append_right _ hline)
    -- the authors of the first lines, and the authors after them
    have hsplit : ∀ lines : List String, c.oldLines = lines →
        List.Forall₂ R ((lineAuthor.drop oldIdx).take lines.length) lines ∧
          List.Forall₂ R ((lineAuthor.drop (oldIdx + lines.length)).take (oldSide changes).length)
            (oldSide changes) := by
      intro lines hlines
      rw [oldSide_cons, hlines, List.length_append] at hold
      have hfirst := List.forall₂_take_append _ _ _ hold
      have hrest := List.forall₂_drop_append _ _ _ hold
      rw [List.take_take, min_eq_left (Nat.le_add_right _ _)] at hfirst
      rw [List.drop_take, List.drop_drop, Nat.add_sub_cancel_left] at hrest
      exact ⟨hfirst, hrest⟩
    cases c with
    | unchanged lines =>
      obtain ⟨hfirst, hrest⟩ := hsplit lines rfl
      rw [reattribute, map_range_getD hfirst.length_eq]
      exact List.rel_append hfirst (ih hrest hlater)
    | deleted lines => exact ih (hsplit lines rfl).2 hlater
    | inserted lines =>
      have hinserted : List.Forall₂ R (List.replicate lines.length (some who)) lines := by
        apply List.forall₂_iff_get.mpr
        refine ⟨List.length_replicate, ?_⟩
        intro i hi hlt
        rw [List.get_eq_getElem, List.getElem_replicate]
        exact hnew _ (List.mem_append_left _ (List.getElem_mem hlt))
      rw [reattribute]
      exact List.rel_append hinserted (ih (hsplit [] rfl).2 hlater)

end Comparison

/-! ### The versions that are compared -/

section Readings
variable {H : Type} [LinearOrder H] [Hashing H]

/-- The patches on the walk that have the file, each with the lines it has; nothing if one of
them deletes it. -/
def readings (blobs : SortedMap H Bytes) (path : String) :
    List (Patch H) → Option (List (Patch H × List String))
  | [] => some []
  | patch :: patches =>
    match fileStep blobs path patch with
    | .skip => readings blobs path patches
    | .content lines => (readings blobs path patches).map fun rs => (patch, lines) :: rs
    | .delete => none

/-- The last comparison of a walk that starts from these lines. -/
def lastDiff : List String → List (List String) → Option (List LineChange)
  | _, [] => none
  | old, new :: rest => some ((lastDiff new rest).getD (diffLines old new))

/-- As many lines stand in the last comparison as the file has; or it has none, and was
deleted on the way. -/
def CountsLines (found : Option (List (Patch H × List String))) (lines : List String) : Prop :=
  match found with
  | none => lines = []
  | some rs => ∀ changes ∈ lastDiff [] (rs.map Prod.snd), (newSide changes).length = lines.length

variable {blobs : SortedMap H Bytes} {path : String} {patches : List (Patch H)}
  {lineAuthor : List (LineAuthor H)} {lines currentLines : List String}
  {rs : List (Patch H × List String)}

theorem blameLines_of_deleted (h : readings blobs path patches = none)
    (lineAuthor : List (LineAuthor H)) (currentLines : List String) :
    blameLines blobs path patches lineAuthor currentLines = [] := by
  induction patches generalizing lineAuthor currentLines with
  | nil => cases h
  | cons patch patches ih =>
    rw [readings] at h
    rw [blameLines]
    cases hstep : fileStep blobs path patch with
    | skip =>
      rw [hstep] at h
      exact ih h _ _
    | content lines =>
      rw [hstep] at h
      exact ih (Option.map_eq_none_iff.mp h) _ _
    | delete => rfl

theorem length_blameLines (h : readings blobs path patches = some rs)
    (lineAuthor : List (LineAuthor H)) (currentLines : List String) :
    (blameLines blobs path patches lineAuthor currentLines).length =
      ((lastDiff currentLines (rs.map Prod.snd)).map fun changes =>
        (newSide changes).length).getD lineAuthor.length := by
  induction patches generalizing lineAuthor currentLines rs with
  | nil =>
    cases h
    rfl
  | cons patch patches ih =>
    rw [readings] at h
    rw [blameLines]
    cases hstep : fileStep blobs path patch with
    | skip =>
      rw [hstep] at h
      exact ih h _ _
    | content lines =>
      rw [hstep] at h
      obtain ⟨rest, hrest, rfl⟩ := Option.map_eq_some_iff.mp h
      dsimp only
      rw [ih hrest, length_reattribute, List.map_cons, lastDiff]
      cases lastDiff lines (rest.map Prod.snd) <;> rfl
    | delete =>
      rw [hstep] at h
      cases h

/-- The lines are put down to patches of which they were read. -/
theorem blameLines_forall₂ {R : LineAuthor H → String → Prop}
    (h : readings blobs path patches = some rs) (hexact : (currentLines :: rs.map Prod.snd).IsChain Exact)
    (hR : ∀ r ∈ rs, ∀ line ∈ r.2, R (some (r.1.id, r.1.message, r.1.author)) line)
    (hlines : List.Forall₂ R (lineAuthor.take currentLines.length) currentLines) :
    let last := (rs.map Prod.snd).getLastD currentLines
    List.Forall₂ R ((blameLines blobs path patches lineAuthor currentLines).take last.length) last := by
  induction patches generalizing lineAuthor currentLines rs with
  | nil =>
    cases h
    exact hlines
  | cons patch patches ih =>
    rw [readings] at h
    rw [blameLines]
    cases hstep : fileStep blobs path patch with
    | skip =>
      rw [hstep] at h
      exact ih h hexact hR hlines
    | content lines =>
      rw [hstep] at h
      obtain ⟨rest, hrest, rfl⟩ := Option.map_eq_some_iff.mp h
      obtain ⟨hfirst, hchain⟩ := List.isChain_cons_cons.mp hexact
      have hold := diffLines_oldSide currentLines lines
      have hnew : newSide (diffLines currentLines lines) = lines := hfirst
      have hauthors : List.Forall₂ R (reattribute lineAuthor (patch.id, patch.message, patch.author)
          (diffLines currentLines lines) 0) (newSide (diffLines currentLines lines)) := by
        apply reattribute_forall₂
        · rw [hold, List.drop_zero]
          exact hlines
        · rw [hnew]
          exact hR (patch, lines) (List.mem_cons_self ..)
      rw [hnew] at hauthors
      have hall : (reattribute lineAuthor (patch.id, patch.message, patch.author)
          (diffLines currentLines lines) 0).take lines.length = _ :=
        List.take_of_length_le hauthors.length_eq.le
      dsimp only
      rw [List.map_cons, List.getLastD_cons]
      apply ih hrest hchain fun r hr => hR r (List.mem_cons_of_mem _ hr)
      rw [hall]
      exact hauthors
    | delete =>
      rw [hstep] at h
      cases h

end Readings

/-! ### The file at the commit -/

section Covering
variable {H : Type} [LinearOrder H] [Hashing H] {s t : Repository H} {path : String}
  {targetId : H} {lines : List String}

/-- The lines of the file in the tree of a patch. -/
def versionOf (s : Repository H) (id : H) (path : String) : Option (List String) := do
  let tree ← (treeAt s id).toOption
  let hash ← tree.get path
  let data ← s.blobs.get hash
  return linesOf H data

omit [Hashing H] in
theorem firstParents_of_same {d d' : PatchDag H} (h : PatchDag.SameGraph d d') (id : H) :
    firstParents d' id = firstParents d id := by
  have hchain : ∀ seen, d'.chainFrom seen id = d.chainFrom seen id := by
    intro seen
    induction seen, id using PatchDag.chainFrom.induct d with
    | case1 seen id hseen => rw [PatchDag.chainFrom, PatchDag.chainFrom, dif_pos hseen, dif_pos hseen]
    | case2 seen id hseen ih =>
      rw [PatchDag.chainFrom_of_notMem hseen, PatchDag.chainFrom_of_notMem hseen, h.parents]
      cases hparent : (d.parents id).head? with
      | none => rfl
      | some parentId => exact congrArg _ (ih parentId hparent)
  unfold firstParents PatchDag.patchChain
  rw [hchain, funext h.getPatch]

omit [Hashing H] in
theorem mem_firstParents {d : PatchDag H} {id : H} {patch : Patch H}
    (h : patch ∈ firstParents d id) : ∃ j, d.History id j ∧ d.getPatch j = some patch := by
  unfold firstParents at h
  rw [List.mem_reverse, List.mem_filterMap] at h
  obtain ⟨j, hj, hpatch⟩ := h
  exact ⟨j, PatchDag.history_of_mem_chainFrom hj, hpatch⟩

theorem mem_of_readings {blobs : SortedMap H Bytes} {patches : List (Patch H)}
    {rs : List (Patch H × List String)} (h : readings blobs path patches = some rs) :
    ∀ r ∈ rs, r.1 ∈ patches := by
  induction patches generalizing rs with
  | nil =>
    cases h
    intro r hr
    cases hr
  | cons patch patches ih =>
    rw [readings] at h
    cases hstep : fileStep blobs path patch with
    | skip =>
      rw [hstep] at h
      exact fun r hr => List.mem_cons_of_mem _ (ih h r hr)
    | content lines =>
      rw [hstep] at h
      obtain ⟨rest, hrest, rfl⟩ := Option.map_eq_some_iff.mp h
      intro r hr
      rcases List.mem_cons.mp hr with rfl | hr
      · exact List.mem_cons_self ..
      · exact List.mem_cons_of_mem _ (ih hrest r hr)
    | delete =>
      rw [hstep] at h
      cases h

/-- An unknown commit has no files. -/
theorem known_of_versionOf (hs : Loaded s) (h : versionOf s targetId path = some lines) :
    s.dag.hasPatch targetId = true := by
  by_contra hunknown
  rw [Bool.not_eq_true] at hunknown
  have hrow : loadFileTree s targetId = none := by
    unfold loadFileTree
    cases hrow : s.fileTrees.get targetId with
    | none => rfl
    | some tree =>
      have hknown := hs.rowsKnown targetId tree hrow
      rw [hunknown] at hknown
      cases hknown
  have hnone : (s.dag.chain targetId).filterMap s.dag.getPatch = [] := by
    apply List.filterMap_eq_nil_iff.mpr
    intro p hp
    rcases PatchDag.mem_chain.mp hp with rfl | hreach
    · by_contra hsome
      obtain ⟨patch, hpatch⟩ := Option.ne_none_iff_exists'.mp hsome
      have hknown := PatchDag.hasPatch_iff.mpr ⟨patch, hpatch⟩
      rw [hunknown] at hknown
      cases hknown
    · exact absurd hreach (PatchDag.reaches_of_unknown hunknown)
  have htree : treeAt s targetId = .ok .empty := by
    unfold treeAt built
    rw [hrow, hnone]
    rfl
  unfold versionOf at h
  rw [htree] at h
  cases h

/-- What the trees of the commits and their files are read from. -/
def objects (s : Repository H) : PatchDag H × SortedMap H (FileTree H) × SortedMap H Bytes :=
  (s.dag, s.fileTrees, s.blobs)

theorem quiet_blameTarget (atRef : Option (String × Ref H)) :
    Quiet (Drift.ofView objects) (blameTarget atRef) := by
  have hhead : Quiet (Drift.ofView objects) (head (H := H)) := by
    intro s
    rcases head_cases s with ⟨e, hrun⟩ | ⟨branch, id, hrun⟩ <;> rw [hrun] <;> rfl
  have hbranch : ∀ branch, Quiet (Drift.ofView objects) (branchTarget (H := H) branch) :=
    fun branch s => congrArg objects (branchTarget_state branch s)
  cases atRef with
  | none => exact hhead.bind fun r => quiet_pure _
  | some ref =>
    obtain ⟨text, ref⟩ := ref
    change Quiet (Drift.ofView objects) (resolveRef ref)
    cases ref with
    | head => exact hhead.bind fun r => quiet_pure _
    | headOffset n => exact hhead.bind fun r s => congrArg objects (ancestorAt_state n r.2 s)
    | hash id =>
      apply quiet_read.bind
      intro s
      split
      · exact quiet_pure _
      · exact (quiet_ofExcept _).bind hbranch
    | name branch => exact hbranch branch

omit [Hashing H] in
theorem Loaded.of_objects (hs : Loaded s) (h : objects t = objects s) : Loaded t := by
  obtain ⟨hdag, htrees⟩ := Prod.mk.inj h
  have htrees := (Prod.mk.inj htrees).1
  have htrees : t.fileTrees = s.fileTrees := htrees
  have hdag : t.dag = s.dag := hdag
  constructor
  · rw [hdag]
    exact hs.sound
  · rw [hdag]
    exact hs.cacheKnown
  · rw [hdag]
    exact hs.parentsKnown
  · rw [hdag, htrees]
    exact hs.rowsKnown

theorem versionOf_of_objects (h : objects t = objects s) : versionOf t = versionOf s := by
  have hdag : t.dag = s.dag := congrArg (fun v => v.1) h
  have htrees : t.fileTrees = s.fileTrees := congrArg (fun v => v.2.1) h
  have hblobs : t.blobs = s.blobs := congrArg (fun v => v.2.2) h
  funext id path
  unfold versionOf treeAt loadFileTree
  rw [hdag, htrees, hblobs]

/-- What blame makes of the file of a commit. -/
def blamed (s : Repository H) (targetId : H) (path : String) (lines : List String) :
    List (BlameEntry H) :=
  (blameLines s.blobs path (firstParents s.dag targetId) (List.replicate lines.length none) []).mapIdx
    (blameEntry lines)

theorem blame_run (hs : Loaded s) {atRef : Option (String × Ref H)}
    (htarget : blameTarget atRef s = (.ok targetId, t))
    (hlines : versionOf s targetId path = some lines) :
    ∃ u, blame path atRef s = (.ok (blamed s targetId path lines), u) := by
  have hquiet : objects t = objects s := by
    have hview := quiet_blameTarget atRef s
    rwa [htarget] at hview
  have hknown := known_of_versionOf (hs.of_objects hquiet) (versionOf_of_objects hquiet ▸ hlines)
  obtain ⟨u, hsnapshot, hpeeked⟩ := snapshot_built (hs.of_objects hquiet) hknown
  have hdag : t.dag = s.dag := congrArg (fun v => v.1) hquiet
  have hblobs : u.blobs = s.blobs := by
    rw [hpeeked.same]
    exact congrArg (fun v => v.2.2) hquiet
  rw [← versionOf_of_objects hquiet] at hlines
  unfold versionOf at hlines
  obtain ⟨tree, htree, hlines⟩ := Option.bind_eq_some_iff.mp hlines
  obtain ⟨hash, hhash, hlines⟩ := Option.bind_eq_some_iff.mp hlines
  obtain ⟨data, hdata, hlines⟩ := Option.bind_eq_some_iff.mp hlines
  cases Option.some.inj hlines
  cases hresult : treeAt t targetId with
  | error e =>
    rw [hresult] at htree
    cases htree
  | ok found =>
    rw [hresult] at htree hsnapshot
    cases htree
    have hblob : getBlob hash u = (.ok data, u) := by
      have hdata : u.blobs.get hash = some data := by
        rw [hpeeked.same]
        exact hdata
      unfold getBlob
      rw [read_bind, hdata]
      rfl
    refine ⟨u, ?_⟩
    unfold blame
    rw [bind_of_ok htarget, bind_of_ok hsnapshot]
    dsimp only
    rw [hhash]
    dsimp only
    rw [bind_of_ok hblob, read_bind, firstParents_of_same hpeeked.asked.queried.same, hdag, hblobs]
    rfl

/-- One entry for each line of the file, in order, of a commit of the history that has the
line in its version of the file. -/
structure Covers (s : Repository H) (targetId : H) (path : String) (lines : List String)
    (entries : List (BlameEntry H)) : Prop where
  texts : entries.map BlameEntry.line = lines
  numbers : entries.map BlameEntry.lineNumber = List.range' 1 lines.length
  held : ∀ e ∈ entries, s.dag.History targetId e.patchId ∧
    ∃ version, versionOf s e.patchId path = some version ∧ e.line ∈ version

/-- The walk never meets a deletion, reads at each patch what the tree of the patch has, ends
with what the tree of the commit has, and the comparisons give back what was read. -/
structure FollowsFile (s : Repository H) (targetId : H) (path : String) (lines : List String)
    (rs : List (Patch H × List String)) : Prop where
  read : readings s.blobs path (firstParents s.dag targetId) = some rs
  versions : ∀ r ∈ rs, versionOf s r.1.id path = some r.2
  last : (rs.map Prod.snd).getLastD [] = lines
  exact : (rs.map Prod.snd).IsChain Exact

omit [LinearOrder H] in
theorem map_line_iff {lineAuthor : List (LineAuthor H)} :
    ((lineAuthor.mapIdx (blameEntry lines)).map BlameEntry.line = lines ∧
      (lineAuthor.mapIdx (blameEntry lines)).map BlameEntry.lineNumber =
        List.range' 1 lines.length) ↔ lineAuthor.length = lines.length := by
  have hline : ∀ i author, (blameEntry lines i author : BlameEntry H).line = lines.getD i "" := by
    intro i author
    cases author <;> rfl
  have hnumber : ∀ i author, (blameEntry lines i author : BlameEntry H).lineNumber = i + 1 := by
    intro i author
    cases author <;> rfl
  constructor
  · intro ⟨hlines, _⟩
    have hlength := congrArg List.length hlines
    simpa using hlength
  · intro hlength
    constructor
    · apply List.ext_getElem
      · simpa using hlength
      · intro i hi hlt
        simp [hline, hlt]
    · apply List.ext_getElem
      · simpa using hlength
      · intro i hi hlt
        simp [hnumber, Nat.add_comm]

theorem countsLines_iff (s : Repository H) (targetId : H) (path : String) (lines : List String) :
    (blameLines s.blobs path (firstParents s.dag targetId)
      (List.replicate lines.length none) []).length = lines.length ↔
        CountsLines (readings s.blobs path (firstParents s.dag targetId)) lines := by
  unfold CountsLines
  cases hread : readings s.blobs path (firstParents s.dag targetId) with
  | none =>
    rw [blameLines_of_deleted hread]
    exact ⟨fun h => List.eq_nil_of_length_eq_zero h.symm, fun h => (congrArg List.length h).symm⟩
  | some rs =>
    rw [length_blameLines hread, List.length_replicate]
    dsimp only
    cases lastDiff [] (rs.map Prod.snd) with
    | none => simp
    | some changes => simp

/-- Where comparisons give back what was read, the last one has the lines read last. -/
theorem newSide_lastDiff {versions : List (List String)} {old : List String}
    (h : (old :: versions).IsChain Exact) :
    ∀ changes ∈ lastDiff old versions, newSide changes = versions.getLastD old := by
  induction versions generalizing old with
  | nil =>
    intro changes hchanges
    cases hchanges
  | cons new versions ih =>
    obtain ⟨hfirst, hchain⟩ := List.isChain_cons_cons.mp h
    intro changes hchanges
    obtain rfl := Option.some.inj hchanges
    rw [List.getLastD_cons]
    cases hlast : lastDiff new versions with
    | none =>
      have hnil : versions = [] := by
        cases versions with
        | nil => rfl
        | cons newer versions => cases hlast
      rw [hnil]
      exact hfirst
    | some changes => exact ih hchain changes hlast

namespace FollowsFile
variable {rs : List (Patch H × List String)}

theorem chain (h : FollowsFile s targetId path lines rs) : ([] :: rs.map Prod.snd).IsChain Exact := by
  have hexact := h.exact
  cases hversions : rs.map Prod.snd with
  | nil => exact .singleton _
  | cons first versions =>
    rw [hversions] at hexact
    exact .cons_cons (exact_nil first) hexact

theorem counts (h : FollowsFile s targetId path lines rs) :
    CountsLines (readings s.blobs path (firstParents s.dag targetId)) lines := by
  rw [h.read]
  intro changes hchanges
  rw [newSide_lastDiff h.chain changes hchanges, h.last]

theorem covers (h : FollowsFile s targetId path lines rs)
    (hfiled : ∀ id patch, s.dag.getPatch id = some patch → patch.id = id) :
    Covers s targetId path lines (blamed s targetId path lines) := by
  have hlength := (countsLines_iff s targetId path lines).mpr h.counts
  obtain ⟨htexts, hnumbers⟩ := map_line_iff.mpr hlength
  -- what the walk keeps for each line and its author
  obtain ⟨R, hR⟩ : ∃ R : LineAuthor H → String → Prop, R = fun author line => ∃ who,
      author = some who ∧ s.dag.History targetId who.1 ∧
        ∃ version, versionOf s who.1 path = some version ∧ line ∈ version := ⟨_, rfl⟩
  have hread : ∀ r ∈ rs, ∀ line ∈ r.2, R (some (r.1.id, r.1.message, r.1.author)) line := by
    intro r hr line hline
    obtain ⟨id, hhistory, hpatch⟩ := mem_firstParents (mem_of_readings h.read r hr)
    rw [hR]
    exact ⟨_, rfl, (hfiled id _ hpatch).symm ▸ hhistory, r.2, h.versions r hr, hline⟩
  have hstart : List.Forall₂ R ((List.replicate lines.length none).take ([] : List String).length)
      [] := .nil
  have hauthors := blameLines_forall₂ h.read h.chain hread hstart
  dsimp only at hauthors
  rw [h.last, List.take_of_length_le hlength.le] at hauthors
  refine ⟨htexts, hnumbers, ?_⟩
  intro e he
  obtain ⟨i, hi, rfl⟩ := List.mem_mapIdx.mp he
  have hline := hauthors.get hi (hlength ▸ hi)
  rw [List.get_eq_getElem, List.get_eq_getElem, hR] at hline
  obtain ⟨⟨pid, msg, author⟩, hauthor, hhistory, version, hversion, hmem⟩ := hline
  rw [hauthor]
  refine ⟨hhistory, version, hversion, ?_⟩
  change lines.getD i "" ∈ version
  rwa [List.getD_eq_getElem?_getD, List.getElem?_eq_getElem (hlength ▸ hi)]

end FollowsFile

/-- Blame has one entry for each line exactly if the last comparison on its walk has as many
lines as the file; and it covers the file if the walk follows it. -/
theorem blame_covers (hs : Loaded s)
    (hfiled : ∀ id patch, s.dag.getPatch id = some patch → patch.id = id)
    {atRef : Option (String × Ref H)} (htarget : blameTarget atRef s = (.ok targetId, t))
    (hlines : versionOf s targetId path = some lines) :
    ∃ entries u, blame path atRef s = (.ok entries, u) ∧
      ((entries.map BlameEntry.line = lines ∧
          entries.map BlameEntry.lineNumber = List.range' 1 lines.length) ↔
        CountsLines (readings s.blobs path (firstParents s.dag targetId)) lines) ∧
      ((∃ rs, FollowsFile s targetId path lines rs) → Covers s targetId path lines entries) := by
  obtain ⟨u, hrun⟩ := blame_run hs htarget hlines
  refine ⟨_, u, hrun, ?_, ?_⟩
  · unfold blamed
    rw [map_line_iff, countsLines_iff]
  · intro ⟨rs, hrs⟩
    exact hrs.covers hfiled

end Covering

/-! ### Two files -/

/-- A line is added to a file. -/
def grown : List (Event Hash) :=
  [.editFile "a" [49], .add "a", .commit "one", .editFile "a" [49, 10, 50], .add "a", .commit "two"]

theorem blame_covers_grown : let s := sample grown
    ∃ entries u, blame "a" none s = (.ok entries, u) ∧
      Covers s (tipOf "main" s) "a" ["1", "2"] entries := by
  intro s
  have hloaded : Loaded s := (reachable_sample grown).valid.loaded
  have hfiled : ∀ id patch, s.dag.getPatch id = some patch → patch.id = id := by
    have hnodes : ∀ e ∈ s.dag.nodes, e.2.patch.id = e.1 := by decide +kernel
    intro id patch hpatch
    obtain ⟨node, hnode, rfl⟩ := Option.map_eq_some_iff.mp hpatch
    exact hnodes _ (Assoc.mem_of_get hnode)
  have hhead : (blameTarget none s).1 = .ok (tipOf "main" s) := ok_of_toOption (by decide +kernel)
  have hlines : versionOf s (tipOf "main" s) "a" = some ["1", "2"] := by decide +kernel
  obtain ⟨entries, u, hrun, -, hcovers⟩ :=
    blame_covers hloaded hfiled (Prod.ext hhead rfl) hlines
  refine ⟨entries, u, hrun, hcovers ?_⟩
  obtain ⟨rs, hrs⟩ : ∃ rs, readings s.blobs "a" (firstParents s.dag (tipOf "main" s)) = some rs :=
    Option.isSome_iff_exists.mp (by decide +kernel)
  have hread : ∀ rs ∈ readings s.blobs "a" (firstParents s.dag (tipOf "main" s)),
      rs.map Prod.snd = [["1"], ["1", "2"]] ∧ ∀ r ∈ rs, versionOf s r.1.id "a" = some r.2 := by
    decide +kernel
  obtain ⟨hversions, hheld⟩ := hread rs hrs
  refine ⟨rs, hrs, hheld, by rw [hversions]; rfl, ?_⟩
  rw [hversions]
  exact .cons_cons (exact_of_length (by decide) (by decide)) (.singleton _)

/-- Blame stops where the file was deleted, and never sees it come back. -/
theorem recreated_file_not_blamed : ¬ ∀ (s t : Repository Hash) (path : String) (targetId : Hash)
    (lines : List String), Reachable s → blameTarget none s = (.ok targetId, t) →
      versionOf s targetId path = some lines → ∃ entries u, blame path none s = (.ok entries, u) ∧
        Covers s targetId path lines entries := by
  intro h
  obtain ⟨s, hs⟩ : ∃ s, s = sample [.editFile "a" [49], .add "a", .commit "one", .deleteFile "a",
      .add "a", .commit "two", .editFile "a" [49], .add "a", .commit "three"] := ⟨_, rfl⟩
  have hhead : (blameTarget none s).1 = .ok (tipOf "main" s) := ok_of_toOption (by rw [hs]; decide +kernel)
  have hlines : versionOf s (tipOf "main" s) "a" = some ["1"] := by
    rw [hs]
    decide +kernel
  obtain ⟨entries, u, hrun, hcovers⟩ :=
    h s _ "a" (tipOf "main" s) ["1"] (hs ▸ reachable_sample _) (Prod.ext hhead rfl) hlines
  have hnone : (blame "a" none s).1.toOption = some [] := by
    rw [hs]
    decide +kernel
  rw [hrun] at hnone
  obtain rfl : entries = [] := Option.some.inj hnone
  have htexts := hcovers.texts
  cases htexts

end Suture.Repo
