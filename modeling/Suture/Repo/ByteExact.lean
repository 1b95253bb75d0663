import Suture.Repo.Merged

/-!
# Bytes in conflicting merges

A conflicting merge decodes what it merges as text, with replacement characters in the
second pass and as the empty text in the third. What that does to files that are not UTF-8.
-/

namespace Suture.Repo
set_option autoImplicit false
open Foundation Common Patches Dag Engine Program

variable {H : Type} [LinearOrder H] [Hashing H] {s t : Repository H} {source : BranchName}
  {sides : MergeSides H} {conflicts : List (Conflict H)} {r : MergeExecutionResult H}
  {path : String} {data : Bytes}

/-! ### Texts -/

/-- The file is absent, or its bytes spell the text. -/
def Spells (content : Option Bytes) (text : String) : Prop := utf8 (content.getD []) = some text

def IsText (content : Option Bytes) : Prop := ∃ text, Spells content text

omit [LinearOrder H] [Hashing H] in
theorem spells_none {text : String} (h : Spells none text) : text = "" := by
  have hempty : utf8 [] = some "" := by decide
  exact (Option.some.inj (hempty.symm.trans h)).symm

omit [LinearOrder H] [Hashing H] in
theorem spells_some {text : String} : Spells (some data) text ↔ utf8 data = some text := Iff.rfl

/-- Exact bytes are decoded as what they spell. -/
theorem lossyContent_of_spells {hash : Option H} {text : String}
    (h : Spells (contentAt s.blobs hash) text) : (lossyContent s hash).getD "" = text := by
  unfold lossyContent
  change ((contentAt s.blobs hash).map _).getD "" = text
  cases hcontent : contentAt s.blobs hash with
  | none =>
    rw [hcontent] at h
    exact (spells_none h).symm
  | some data =>
    rw [hcontent, spells_some] at h
    rw [Option.map_some, Option.getD_some, h, Option.getD_some]

omit [Hashing H] in
theorem strictText_of_spells {hash : Option H} {text : String}
    (h : Spells (contentAt s.blobs hash) text) : (strictText s.blobs hash).getD "" = text := by
  unfold strictText contentAt at *
  cases hash with
  | none => exact (spells_none h).symm
  | some hash =>
    rw [Option.bind_some] at h
    cases hget : s.blobs.get hash with
    | none =>
      rw [hget] at h
      rw [Option.map_some, Option.getD_some, hget]
      exact (spells_none h).symm
    | some data =>
      rw [hget, spells_some] at h
      rw [Option.map_some, Option.getD_some, hget, Option.bind_some, h, Option.getD_some]

/-! ### What may be written -/

def oursAt (s : Repository H) (sides : MergeSides H) (path : String) : Option Bytes :=
  contentAt s.blobs (sides.headTree.get path)

def theirsAt (s : Repository H) (sides : MergeSides H) (path : String) : Option Bytes :=
  contentAt s.blobs (sides.sourceTree.get path)

def baseAt (s : Repository H) (sides : MergeSides H) (path : String) : Option Bytes :=
  contentAt s.blobs (sides.lcaTree.get path)

/-- A merge of the texts that ours and theirs spell, over some base. -/
def ExactMerge (s : Repository H) (sides : MergeSides H) (path : String) (data : Bytes) : Prop :=
  ∃ base ours theirs, Spells (oursAt s sides path) ours ∧ Spells (theirsAt s sides path) theirs ∧
    data = encode (mergedText (threeWayMerge base ours theirs sides.headBranch sides.sourceBranch))

/-- Ours, theirs, or a merge of the two as exact texts. -/
def FromSides (s : Repository H) (sides : MergeSides H) (path : String) (content : Option Bytes) :
    Prop :=
  content = oursAt s sides path ∨ content = theirsAt s sides path ∨
    ∃ data, content = some data ∧ ExactMerge s sides path data

/-- The hash is in the store, or is the one of a content that may be written. -/
def MayBeStored (s : Repository H) (sides : MergeSides H) (hash : H) : Prop :=
  s.blobs.contains hash = true ∨
    ∃ path data, hash = Hashing.fromData data ∧ FromSides s sides path (some data)

/-- One of the three versions of a file is not UTF-8. -/
def NonText (s : Repository H) (sides : MergeSides H) (path : String) : Prop :=
  ¬ (IsText (baseAt s sides path) ∧ IsText (oursAt s sides path) ∧ IsText (theirsAt s sides path))

/-- Files that both sides changed and that are not text are reported and stay ours, and all
that is written or stored comes from the sides. -/
structure BytesKept (s : Repository H) (sides : MergeSides H) (unresolved : List (ConflictInfo H))
    (t : Repository H) : Prop where
  kept : ∀ path, BothChanged sides path → NonText s sides path →
    Reports unresolved path ∧ t.files.get path = oursAt s sides path
  written : ∀ path, t.files.get path = s.files.get path ∨ FromSides s sides path (t.files.get path)
  stored : ∀ hash, t.blobs.contains hash = true → MayBeStored s sides hash

/-! ### What the decoding does -/

/-- What the merges of a path, decoded as the passes decode it, come to. -/
structure DecodedHarmlessly (s : Repository H) (sides : MergeSides H)
    (conflicts : List (Conflict H)) (path : String) : Prop where
  ours : BothChanged sides path → NonText s sides path →
    if path ∈ markedPaths s.dag sides conflicts then
      oursAt s sides path = some (markedContent s.blobs sides path)
    else TextsMerged s.dag sides conflicts path ∧ ∃ lines, lossyMerge s sides path = .error lines ∧
      oursAt s sides path = some (encode (markedLines lines))
  merged : TextsMerged s.dag sides conflicts path → ¬ IsText (oursAt s sides path) ∨
    ¬ IsText (theirsAt s sides path) → MayBeStored s sides (Hashing.fromData (lossyBytes s sides path))
  marked : path ∈ markedPaths s.dag sides conflicts → ¬ IsText (oursAt s sides path) ∨
    ¬ IsText (theirsAt s sides path) →
      MayBeStored s sides (Hashing.fromData (markedContent s.blobs sides path)) ∧
      (s.files.get path = some (markedContent s.blobs sides path) ∨
        FromSides s sides path (some (markedContent s.blobs sides path)))

theorem exactMerge_lossy (hours : IsText (oursAt s sides path))
    (htheirs : IsText (theirsAt s sides path)) :
    ExactMerge s sides path (lossyBytes s sides path) := by
  obtain ⟨ours, hours⟩ := hours
  obtain ⟨theirs, htheirs⟩ := htheirs
  refine ⟨lossyContent s (sides.lcaTree.get path), ours, theirs, hours, htheirs, ?_⟩
  rw [lossyBytes, lossyMerge, lossyContent_of_spells hours, lossyContent_of_spells htheirs]

omit [Hashing H] in
theorem exactMerge_marked (hours : IsText (oursAt s sides path))
    (htheirs : IsText (theirsAt s sides path)) :
    ExactMerge s sides path (markedContent s.blobs sides path) := by
  obtain ⟨ours, hours⟩ := hours
  obtain ⟨theirs, htheirs⟩ := htheirs
  refine ⟨strictText s.blobs (sides.lcaTree.get path), ours, theirs, hours, htheirs, ?_⟩
  rw [markedContent, markedText, strictText_of_spells hours, strictText_of_spells htheirs]
  rfl

omit [Hashing H] in
theorem fromSides_of_exact (h : ExactMerge s sides path data) :
    FromSides s sides path (some data) := .inr (.inr ⟨data, rfl, h⟩)

theorem storable_of_fromSides (h : FromSides s sides path (some data)) :
    MayBeStored s sides (Hashing.fromData data) := .inr ⟨path, data, rfl, h⟩

omit [Hashing H] in
/-- The second pass handles paths that the source changed. -/
theorem TextsMerged.both (h : TextsMerged s.dag sides conflicts path) : BothChanged sides path := by
  obtain ⟨⟨-, e, he, rfl⟩, hours⟩ := h
  exact ⟨hours, (diffTrees_sound he).ne (.inl rfl) |>.symm⟩

theorem lossyBytes_of_error {lines : List String} (h : lossyMerge s sides path = .error lines) :
    lossyBytes s sides path = encode (markedLines lines) := by
  rw [lossyBytes, h]
  rfl

theorem BytesKept.harmless {unresolved : List (ConflictInfo H)}
    (hwrote : Wrote s sides conflicts unresolved t) (h : BytesKept s sides unresolved t)
    (path : String) : DecodedHarmlessly s sides conflicts path where
  ours := fun hboth hnon => by
    obtain ⟨hreported, hfile⟩ := h.kept path hboth hnon
    rw [hwrote.files, passedFile] at hfile
    rw [hwrote.reports, LeftOpen] at hreported
    split
    · rename_i hmarked
      rw [if_pos hmarked] at hfile
      exact hfile.symm
    · rename_i hmarked
      obtain ⟨hmerged, lines, hlines⟩ := hreported.resolve_left hmarked
      rw [if_neg hmarked, if_pos hmerged.1, secondContent, if_neg hmerged.2,
        lossyBytes_of_error hlines] at hfile
      exact ⟨hmerged, lines, hlines, hfile.symm⟩
  merged := fun hmerged _ => h.stored _ ((hwrote.blobs _).mpr (.inr ⟨path, .inl ⟨hmerged, rfl⟩⟩))
  marked := fun hmarked _ => by
    refine ⟨h.stored _ ((hwrote.blobs _).mpr (.inr ⟨path, .inr ⟨hmarked, rfl⟩⟩)), ?_⟩
    have hwritten := h.written path
    rw [hwrote.files, passedFile, if_pos hmarked] at hwritten
    exact hwritten.imp_left Eq.symm

theorem bytesKept_of_harmless {unresolved : List (ConflictInfo H)}
    (hwrote : Wrote s sides conflicts unresolved t)
    (h : ∀ path, DecodedHarmlessly s sides conflicts path) : BytesKept s sides unresolved t where
  kept := fun path hboth hnon => by
    have hours := (h path).ours hboth hnon
    rw [hwrote.files, passedFile, hwrote.reports, LeftOpen]
    split at hours
    · rename_i hmarked
      rw [if_pos hmarked]
      exact ⟨.inl hmarked, hours.symm⟩
    · rename_i hmarked
      obtain ⟨hmerged, lines, hlines, hours⟩ := hours
      rw [if_neg hmarked, if_pos hmerged.1, secondContent, if_neg hmerged.2,
        lossyBytes_of_error hlines]
      exact ⟨.inr ⟨hmerged, lines, hlines⟩, hours.symm⟩
  written := fun path => by
    rw [hwrote.files, passedFile]
    split
    · rename_i hmarked
      by_cases htext : IsText (oursAt s sides path) ∧ IsText (theirsAt s sides path)
      · exact .inr (fromSides_of_exact (exactMerge_marked htext.1 htext.2))
      · exact ((h path).marked hmarked (not_and_or.mp htext)).2.imp_left Eq.symm
    rename_i hmarked
    split
    · rename_i hhandled
      unfold secondContent
      split
      · exact .inr (.inr (.inl rfl))
      rename_i hours
      have hmerged : TextsMerged s.dag sides conflicts path := ⟨hhandled, hours⟩
      by_cases htext : IsText (oursAt s sides path) ∧ IsText (theirsAt s sides path)
      · exact .inr (fromSides_of_exact (exactMerge_lossy htext.1 htext.2))
      · have hours := (h path).ours hmerged.both fun hall => htext hall.2
        rw [if_neg hmarked] at hours
        obtain ⟨-, lines, hlines, hours⟩ := hours
        rw [lossyBytes_of_error hlines]
        exact .inr (.inl hours.symm)
    · exact .inl rfl
  stored := fun hash hhash => by
    rcases (hwrote.blobs hash).mp hhash with hold | ⟨path, ⟨hmerged, rfl⟩ | ⟨hmarked, rfl⟩⟩
    · exact .inl hold
    · by_cases htext : IsText (oursAt s sides path) ∧ IsText (theirsAt s sides path)
      · exact storable_of_fromSides (fromSides_of_exact (exactMerge_lossy htext.1 htext.2))
      · exact (h path).merged hmerged (not_and_or.mp htext)
    · by_cases htext : IsText (oursAt s sides path) ∧ IsText (theirsAt s sides path)
      · exact storable_of_fromSides (fromSides_of_exact (exactMerge_marked htext.1 htext.2))
      · exact ((h path).marked hmarked (not_and_or.mp htext)).1

/-! ### The merge -/

/-- The bytes of the trees that are merged are kept. -/
def KeepsBytes (s : Repository H) (source : BranchName) (r : MergeExecutionResult H)
    (t : Repository H) : Prop :=
  ∃ headBranch headId sourceTip lcaId ours theirs base,
    (head s).1 = .ok (headBranch, headId) ∧
    MergeTrees s source headId sourceTip lcaId ours theirs base ∧
    BytesKept s ⟨base, ours, theirs, headBranch, source.asStr⟩ r.unresolvedConflicts t

/-- The merges of texts of all paths are harmless. -/
def DecodesHarmlessly (s : Repository H) (source : BranchName) : Prop :=
  ∃ headBranch headId sourceTip lcaId headName plan,
    MergeInput s source headBranch headId sourceTip headName plan ∧
    (s.dag.lca headId sourceTip).1 = some lcaId ∧
    ∀ path, DecodedHarmlessly s (sidesOf s headId sourceTip lcaId headBranch source.asStr)
      plan.conflicts path

theorem conflicting_merge_keeps_bytes_iff (hs : Reachable s)
    (hrun : executeMerge source s = (.ok r, t)) (hconflicts : r.isClean = false) :
    KeepsBytes s source r t ↔ DecodesHarmlessly s source := by
  obtain ⟨headBranch, headId, sourceTip, headName, plan, lcaId, hinput, hm⟩ :=
    mergedInConflict hs.valid hrun hconflicts
  constructor
  · rintro ⟨headBranch', headId', sourceTip', lcaId', ours, theirs, base, hhead, htrees, hkept⟩
    obtain ⟨rfl, rfl, rfl, rfl, rfl, rfl⟩ := (hinput.trees hs.valid hm.lca).mp htrees
    cases hinput.head.symm.trans hhead
    exact ⟨headBranch, headId', sourceTip', lcaId', headName, plan, hinput, hm.lca,
      hkept.harmless hm.wrote⟩
  · rintro ⟨headBranch', headId', sourceTip', lcaId', headName', plan', hinput', hlca', hharmless⟩
    obtain ⟨rfl, rfl, rfl, rfl, rfl⟩ := hinput.unique hinput'
    cases hm.lca.symm.trans hlca'
    exact ⟨headBranch, headId, sourceTip, lcaId, _, _, _, hinput.head,
      (hinput.trees hs.valid hm.lca).mpr ⟨rfl, rfl, rfl, rfl, rfl, rfl⟩,
      bytesKept_of_harmless hm.wrote hharmless⟩

/-- The merge of `clashing` puts texts together, and leaves a conflict. -/
theorem conflicting_merge_keeps_bytes_clashing : ∃ r t,
    executeMerge .main (sample clashing) = (.ok r, t) ∧
      (KeepsBytes (sample clashing) .main r t ↔ DecodesHarmlessly (sample clashing) .main) := by
  obtain ⟨r, hrun, hconflicts⟩ := executeMerge_clashing
  exact ⟨r, _, hrun, conflicting_merge_keeps_bytes_iff (reachable_sample clashing) hrun hconflicts⟩

/-- Both branches change a file that is not UTF-8. -/
def binary : List (Event Hash) :=
  [.editFile "a" [200], .add "a", .commit "both", .createBranch side none,
    .editFile "a" [201], .add "a", .commit "main", .checkout (fun _ => false) (.name side),
    .editFile "a" [202], .add "a", .commit "side"]

/-- All three versions are decoded to one replacement character. -/
theorem binary_overwritten : ¬ ∀ (s t : Repository Hash) (source : BranchName)
    (r : MergeExecutionResult Hash), Reachable s → executeMerge source s = (.ok r, t) →
      r.isClean = false → KeepsBytes s source r t := by
  intro h
  obtain ⟨r, hrun, hshown⟩ := returns_of_map (m := executeMerge .main) (s := sample binary)
    (f := fun r => (r.isClean, r.unresolvedConflicts)) (b := (false, [])) (by decide +kernel)
  obtain ⟨hconflicts, hunreported⟩ := Prod.mk.inj hshown
  obtain ⟨headBranch, headId, sourceTip, lcaId, ours, theirs, base, -, htrees, hkept⟩ :=
    h _ _ .main r (reachable_sample binary) hrun hconflicts
  have hhead : headId = tipOf "side" (sample binary) :=
    Option.some.inj (htrees.headId_eq.symm.trans (by decide +kernel))
  have hsource : sourceTip = tipOf "main" (sample binary) :=
    Option.some.inj (htrees.source.symm.trans (by decide +kernel))
  have hlca := htrees.lca
  rw [hhead, hsource] at hlca
  have hlca : lcaId = tipOf "main" (sample (binary.take 4)) :=
    Option.some.inj (hlca.symm.trans (by decide +kernel))
  obtain ⟨hours, htheirs, hbase⟩ := htrees.gets "a"
  rw [hhead] at hours
  rw [hsource] at htheirs
  rw [hlca] at hbase
  have hboth : BothChanged ⟨base, ours, theirs, headBranch, BranchName.main.asStr⟩ "a" := by
    rw [BothChanged, hours, htheirs, hbase]
    decide +kernel
  have hbytes : oursAt (sample binary) ⟨base, ours, theirs, headBranch, BranchName.main.asStr⟩ "a" =
      some [202] := by
    rw [oursAt, hours]
    decide +kernel
  have hnon : NonText (sample binary) ⟨base, ours, theirs, headBranch, BranchName.main.asStr⟩ "a" := by
    rintro ⟨-, ⟨text, htext⟩, -⟩
    rw [hbytes, spells_some] at htext
    have hbad : utf8 [202] = none := by decide +kernel
    cases hbad.symm.trans htext
  obtain ⟨⟨info, hinfo, -⟩, -⟩ := hkept.kept "a" hboth hnon
  rw [hunreported] at hinfo
  cases hinfo

end Suture.Repo
