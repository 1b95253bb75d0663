import Suture.Repo.CleanMerge

/-!
# The passes of a conflicting merge

What the merged tree has for a path that at most one side changed: the first pass leaves
all paths alone, the second takes files that batches of the source conflict on, the third
overwrites the first address of every other conflict with a merge of texts.
-/

namespace Suture.Repo
set_option autoImplicit false
open Foundation Common Patches Dag Engine Program

variable {H : Type} [LinearOrder H] [Hashing H] {F : Prop} {d : PatchDag H} {s t : Repository H}
  {sides : MergeSides H} {conflicts : List (Conflict H)} {p q : MergeProgress H}

/-! ### The first pass -/

theorem applySourcePatch_run (conflicts : List (Conflict H)) (hs : Valid F s) (p : MergeProgress H)
    (id : H) :
    ∃ count, applySourcePatch conflicts p id s = (.ok { p with patchesApplied := count }, s) := by
  unfold applySourcePatch
  rw [read_bind]
  cases hget : s.dag.getPatch id with
  | none => exact ⟨_, rfl⟩
  | some patch =>
    have htarget := (hs.patches id patch hget).noTarget
    dsimp only
    split
    · exact ⟨_, rfl⟩
    split
    · exact ⟨_, rfl⟩
    rw [htarget]
    exact ⟨_, rfl⟩

theorem applySourcePatches_run (conflicts : List (Conflict H)) (hs : Valid F s) (ids : List H)
    (p : MergeProgress H) :
    ∃ count, foldEach (applySourcePatch conflicts) p ids s =
      (.ok { p with patchesApplied := count }, s) := by
  induction ids generalizing p with
  | nil => exact ⟨_, rfl⟩
  | cons id ids ih =>
    obtain ⟨count, hrun⟩ := applySourcePatch_run conflicts hs p id
    obtain ⟨total, hrest⟩ := ih { p with patchesApplied := count }
    refine ⟨total, ?_⟩
    unfold foldEach
    rw [bind_of_ok hrun]
    exact hrest

/-! ### The second pass -/

/-- At most one side changed the path. -/
def OneSided (sides : MergeSides H) (path : String) : Prop :=
  sides.lcaTree.get path = sides.headTree.get path ∨ sides.sourceTree.get path = sides.lcaTree.get path

structure SidesStored (blobs : SortedMap H Bytes) (sides : MergeSides H) : Prop where
  lca : TreeStored blobs sides.lcaTree
  head : TreeStored blobs sides.headTree
  source : TreeStored blobs sides.sourceTree

omit [Hashing H] in
theorem takeTheirs_get {old new : FileTree H} (hnew : TreeStored s.blobs new) {e : DiffEntry H}
    (he : EntryOk old new e) (hrun : takeTheirs p e s = (.ok q, t)) (path : String) :
    q.mergedTree.get path = if path = e.path then new.get path else p.mergedTree.get path := by
  obtain ⟨epath, dtype, oldHash, newHash⟩ := e
  have hput : ∀ hash, newHash = some hash → new.get epath = some hash →
      q.mergedTree.get path = if path = epath then new.get path else p.mergedTree.get path := by
    rintro hash rfl hhash
    obtain ⟨blob, hblob⟩ := Option.isSome_iff_exists.mp (hnew.stored _ _ hhash)
    unfold takeTheirs at hrun
    dsimp only at hrun
    rw [read_bind, hblob] at hrun
    cases hrun
    rw [SortedMap.get_insert]
    split
    · rename_i heq
      rw [heq, hhash]
    · rfl
  cases dtype with
  | added =>
    obtain ⟨-, hash, hhash, hentry⟩ := he
    exact hput hash hentry hhash
  | modified =>
    obtain ⟨-, hash, -, hhash, -, hentry⟩ := he
    exact hput hash hentry hhash
  | renamed oldPath newPath =>
    obtain ⟨hash, -, -, -, hhash, -, hentry⟩ := he
    exact hput hash hentry hhash
  | deleted =>
    obtain ⟨hgone, -, hentry⟩ := he
    cases hentry
    cases hrun
    rw [SortedMap.get_erase]
    split
    · rename_i heq
      rw [heq]
      exact hgone.symm
    · rfl

theorem mergeTexts_get {path : String} (hrun : mergeTexts sides conflicts p path s = (.ok q, t))
    {other : String} (hne : other ≠ path) : q.mergedTree.get other = p.mergedTree.get other := by
  unfold mergeTexts at hrun
  rw [read_bind] at hrun
  dsimp only at hrun
  generalize threeWayMerge _ _ _ _ _ = merged at hrun
  cases merged with
  | ok content | error conflictLines =>
    obtain ⟨hash, s₁, -, hrun⟩ := bind_ok hrun
    obtain ⟨-, s₂, -, hrun⟩ := bind_ok hrun
    cases hrun
    rw [SortedMap.get_insert, if_neg hne]

theorem mergeFile_get (hsource : TreeStored s.blobs sides.sourceTree) {paths : List String}
    {e : DiffEntry H} (he : EntryOk sides.lcaTree sides.sourceTree e)
    (hrun : mergeFile sides conflicts paths p e s = (.ok q, t)) {path : String}
    (hpath : OneSided sides path) :
    q.mergedTree.get path = if path ∈ paths ∧ e.path = path then sides.sourceTree.get path
      else p.mergedTree.get path := by
  unfold mergeFile at hrun
  split at hrun
  · rename_i hout
    cases hrun
    rw [if_neg]
    rintro ⟨hmem, rfl⟩
    exact hout hmem
  rename_i hin
  rw [not_not] at hin
  split at hrun
  · rw [takeTheirs_get hsource he hrun]
    by_cases heq : path = e.path
    · subst heq
      rw [if_pos rfl, if_pos ⟨hin, rfl⟩]
    · rw [if_neg heq, if_neg fun h => heq h.2.symm]
  · rename_i hours
    have hne : path ≠ e.path := by
      rintro rfl
      rcases hpath with h | h
      · exact hours h
      · exact he.ne (.inl rfl) h.symm
    rw [mergeTexts_get hrun hne, if_neg fun h => hne h.2.symm]

theorem foldEach_mergeFile_get {paths : List String} {path : String} (hpath : OneSided sides path)
    {es : List (DiffEntry H)} (hes : ∀ e ∈ es, EntryOk sides.lcaTree sides.sourceTree e) :
    ∀ {s : Repository H} {p : MergeProgress H}, TreeStored s.blobs sides.sourceTree →
      foldEach (mergeFile sides conflicts paths) p es s = (.ok q, t) →
      q.mergedTree.get path = if path ∈ paths ∧ ∃ e ∈ es, e.path = path
        then sides.sourceTree.get path else p.mergedTree.get path := by
  induction es with
  | nil =>
    intro s p _ hrun
    cases hrun
    simp
  | cons e es ih =>
    intro s p hsource hrun
    obtain ⟨next, s₁, hstep, hrest⟩ := bind_ok hrun
    have hkept : TreeStored s₁.blobs sides.sourceTree := by
      have hkept := contents_mergeFile sides conflicts paths p e s
      rw [hstep] at hkept
      exact hsource.kept hkept.2
    rw [ih (fun e' he' => hes e' (List.mem_cons_of_mem _ he')) hkept hrest,
      mergeFile_get hsource (hes e (List.mem_cons_self ..)) hstep hpath]
    simp only [List.exists_mem_cons_iff]
    by_cases hin : path ∈ paths
    · by_cases hlater : ∃ e ∈ es, e.path = path
      · rw [if_pos ⟨hin, hlater⟩, if_pos ⟨hin, .inr hlater⟩]
      · simp only [hin, hlater, true_and, or_false, if_false]
    · simp only [hin, false_and, if_false]

theorem mergeFiles_get {path : String} (hpath : OneSided sides path) {paths : List String}
    (hsource : TreeStored s.blobs sides.sourceTree)
    (hrun : mergeFiles sides conflicts paths p s = (.ok q, t)) :
    q.mergedTree.get path =
      if path ∈ paths ∧ ∃ e ∈ diffTrees sides.lcaTree sides.sourceTree, e.path = path
      then sides.sourceTree.get path else p.mergedTree.get path := by
  unfold mergeFiles at hrun
  split at hrun
  · rename_i hnone
    cases hrun
    simp [hnone]
  · exact foldEach_mergeFile_get hpath (fun e he => diffTrees_sound he) hsource hrun

/-! ### The third pass -/

/-- The text that a stored file counts for in the third pass. -/
def strictText (blobs : SortedMap H Bytes) (hash : Option H) : Option String :=
  hash.map fun h => ((blobs.get h).bind utf8).getD ""

/-- What the third pass writes to a path. -/
def markedText (blobs : SortedMap H Bytes) (sides : MergeSides H) (path : String) : String :=
  match threeWayMerge (strictText blobs (sides.lcaTree.get path))
      ((strictText blobs (sides.headTree.get path)).getD "")
      ((strictText blobs (sides.sourceTree.get path)).getD "")
      sides.headBranch sides.sourceBranch with
  | .ok content => content
  | .error conflictLines => markedLines conflictLines

/-- The path that the third pass overwrites for a conflict, if it does. -/
def markedPath (d : PatchDag H) (sides : MergeSides H) (c : Conflict H) : Option String :=
  if (d.getPatch c.patchBId).any Patch.isBatch then none
  else (buildConflictInfo d sides c).map ConflictInfo.path

omit [Hashing H] in
theorem contentOf_run {hash : Option H} {content : Option String}
    (hrun : contentOf hash s = (.ok content, t)) : content = strictText s.blobs hash ∧ t = s := by
  cases hash with
  | none =>
    cases hrun
    exact ⟨rfl, rfl⟩
  | some hash =>
    obtain ⟨text, s₁, hstrict, hrun⟩ := bind_ok hrun
    cases hrun
    obtain ⟨blob, s₂, hblob, hstrict⟩ := bind_ok hstrict
    cases hstrict
    unfold getBlob at hblob
    rw [read_bind] at hblob
    cases hget : s.blobs.get hash with
    | none =>
      rw [hget] at hblob
      cases hblob
    | some data =>
      rw [hget] at hblob
      cases hblob
      refine ⟨?_, rfl⟩
      rw [strictText, Option.map_some, hget]
      rfl

omit [Hashing H] in
theorem buildConflictInfo_eq {c : Conflict H} {info : ConflictInfo H}
    (h : buildConflictInfo d sides c = some info) :
    info.ourContentHash = sides.headTree.get info.path ∧
      info.theirContentHash = sides.sourceTree.get info.path ∧
      info.baseContentHash = sides.lcaTree.get info.path := by
  obtain ⟨patchA, -, h⟩ := Option.bind_eq_some_iff.mp h
  obtain ⟨patchB, -, h⟩ := Option.bind_eq_some_iff.mp h
  obtain ⟨path, -, h⟩ := Option.bind_eq_some_iff.mp h
  cases h
  exact ⟨rfl, rfl, rfl⟩

omit [Hashing H] in
theorem writeConflictMarkers_run {c : Conflict H} {info : ConflictInfo H}
    (hinfo : buildConflictInfo d sides c = some info) {content : String}
    (hrun : writeConflictMarkers sides info s = (.ok content, t)) :
    content = markedText s.blobs sides info.path ∧ t = s := by
  obtain ⟨hours, htheirs, hbase⟩ := buildConflictInfo_eq hinfo
  obtain ⟨ours, s₁, hcontent, hrun⟩ := bind_ok hrun
  obtain ⟨rfl, rfl⟩ := contentOf_run hcontent
  obtain ⟨theirs, s₂, hcontent, hrun⟩ := bind_ok hrun
  obtain ⟨rfl, rfl⟩ := contentOf_run hcontent
  obtain ⟨base, s₃, hcontent, hrun⟩ := bind_ok hrun
  obtain ⟨rfl, rfl⟩ := contentOf_run hcontent
  rw [hours, htheirs, hbase] at hrun
  unfold markedText
  generalize threeWayMerge _ _ _ _ _ = merged at hrun ⊢
  cases merged with
  | ok content | error conflictLines =>
    cases hrun
    exact ⟨rfl, rfl⟩

theorem putBlob_ok {data : Bytes} {hash : H} (hrun : putBlob data s = (.ok hash, t)) :
    hash = Hashing.fromData data := by
  rcases putBlob_cases data s with hfail | ⟨blobs, hdone, -⟩
  · rw [hfail] at hrun
    cases hrun
  · rw [hdone] at hrun
    cases hrun
    rfl

theorem markConflict_get {c : Conflict H} (hrun : markConflict sides p c s = (.ok q, t))
    (path : String) :
    q.mergedTree.get path = if markedPath s.dag sides c = some path
      then some (Hashing.fromData (encode (markedText s.blobs sides path)))
      else p.mergedTree.get path := by
  unfold markConflict at hrun
  rw [read_bind] at hrun
  unfold markedPath
  split at hrun
  · rename_i hbatch
    cases hrun
    rw [if_pos hbatch]
    rfl
  rename_i hbatch
  rw [if_neg hbatch]
  cases hinfo : buildConflictInfo s.dag sides c with
  | none =>
    rw [hinfo] at hrun
    cases hrun
    rfl
  | some info =>
    rw [hinfo] at hrun
    obtain ⟨content, s₁, hmarkers, hrun⟩ := bind_ok hrun
    obtain ⟨rfl, rfl⟩ := writeConflictMarkers_run hinfo hmarkers
    obtain ⟨-, s₂, -, hrun⟩ := bind_ok hrun
    obtain ⟨hash, s₃, hput, hrun⟩ := bind_ok hrun
    cases hrun
    rw [SortedMap.get_insert, putBlob_ok hput, Option.map_some]
    by_cases heq : path = info.path
    · rw [if_pos heq, if_pos (by rw [heq]), heq]
    · rw [if_neg heq, if_neg fun h => heq (Option.some.inj h).symm]

theorem strictText_of_kept {blobs blobs' : SortedMap H Bytes} (hkept : BlobsGrow blobs blobs')
    {tree : FileTree H} (htree : TreeStored blobs tree) (path : String) :
    strictText blobs' (tree.get path) = strictText blobs (tree.get path) := by
  cases hget : tree.get path with
  | none => rfl
  | some hash =>
    obtain ⟨data, hdata⟩ := Option.isSome_iff_exists.mp (htree.stored path hash hget)
    have hdata : blobs.get hash = some data := hdata
    rw [strictText, strictText, Option.map_some, Option.map_some, hdata, hkept.kept hash data hdata]

theorem SidesStored.kept {blobs blobs' : SortedMap H Bytes} (h : SidesStored blobs sides)
    (hkept : BlobsGrow blobs blobs') :
    SidesStored blobs' sides ∧ markedText blobs' sides = markedText blobs sides := by
  refine ⟨⟨h.lca.kept hkept, h.head.kept hkept, h.source.kept hkept⟩, funext fun path => ?_⟩
  unfold markedText
  rw [strictText_of_kept hkept h.lca, strictText_of_kept hkept h.head,
    strictText_of_kept hkept h.source]

theorem foldEach_markConflict_get (path : String) : ∀ {cs : List (Conflict H)} {s : Repository H}
    {p : MergeProgress H}, SidesStored s.blobs sides →
    foldEach (markConflict sides) p cs s = (.ok q, t) →
    q.mergedTree.get path = if path ∈ cs.filterMap (markedPath s.dag sides)
      then some (Hashing.fromData (encode (markedText s.blobs sides path)))
      else p.mergedTree.get path := by
  intro cs
  induction cs with
  | nil =>
    intro s p _ hrun
    cases hrun
    rfl
  | cons c cs ih =>
    intro s p hstored hrun
    obtain ⟨next, s₁, hstep, hrest⟩ := bind_ok hrun
    have hmoved := contents_markConflict sides p c s
    rw [hstep] at hmoved
    have hdag := dag_of_contents hmoved
    obtain ⟨hstored₁, htext⟩ := hstored.kept hmoved.2
    rw [ih hstored₁ hrest, markConflict_get hstep path, hdag, htext, List.filterMap_cons]
    cases hmarked : markedPath s.dag sides c with
    | none => simp
    | some marked =>
      by_cases hlater : path ∈ cs.filterMap (markedPath s.dag sides)
      · rw [if_pos hlater, if_pos (List.mem_cons_of_mem _ hlater)]
      · rw [if_neg hlater]
        by_cases heq : path = marked
        · rw [if_pos (by rw [heq]), if_pos (by rw [heq]; exact List.mem_cons_self ..)]
        · rw [if_neg fun h => heq (Option.some.inj h).symm, if_neg]
          exact fun h => (List.mem_cons.mp h).elim heq hlater

/-! ### The merge -/

def sidesOf (s : Repository H) (headId sourceTip lcaId : H) (headBranch sourceBranch : String) :
    MergeSides H :=
  ⟨treeOf s lcaId, treeOf s headId, treeOf s sourceTip, headBranch, sourceBranch⟩

/-- What the passes make of a path that at most one side changed. -/
def passedEntry (s : Repository H) (sides : MergeSides H) (conflicts : List (Conflict H))
    (path : String) : Option H :=
  if path ∈ conflicts.filterMap (markedPath s.dag sides) then
    some (Hashing.fromData (encode (markedText s.blobs sides path)))
  else if path ∈ conflictingBatchPaths s.dag conflicts ∧
      ∃ e ∈ diffTrees sides.lcaTree sides.sourceTree, e.path = path then sides.sourceTree.get path
  else sides.headTree.get path

omit [Hashing H] in
theorem passes_congr {d d' : PatchDag H} (hget : d'.getPatch = d.getPatch)
    (sides : MergeSides H) (conflicts : List (Conflict H)) :
    conflictingBatchPaths d' conflicts = conflictingBatchPaths d conflicts ∧
      markedPath d' sides = markedPath d sides := by
  unfold conflictingBatchPaths markedPath buildConflictInfo
  rw [hget]
  exact ⟨rfl, rfl⟩

end Suture.Repo
