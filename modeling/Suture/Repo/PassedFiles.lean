import Suture.Repo.ConflictPasses

/-!
# What the passes write

The working files, the blobs and the open conflicts after each pass of a conflicting
merge. The second pass and the third each write a path's file as a function of the path.
-/

namespace Suture.Repo
set_option autoImplicit false
open Foundation Common Patches Dag Engine Program

variable {H : Type} [LinearOrder H]

/-- The stored content of an entry of a tree. -/
def contentAt (blobs : SortedMap H Bytes) (hash : Option H) : Option Bytes := hash.bind blobs.get

/-- A conflict is reported for the path. -/
def Reports (infos : List (ConflictInfo H)) (path : String) : Prop := ∃ info ∈ infos, info.path = path

/-- The report has what the trees have. -/
structure ConflictInfo.Of (sides : MergeSides H) (info : ConflictInfo H) : Prop where
  ours : info.ourContentHash = sides.headTree.get info.path
  theirs : info.theirContentHash = sides.sourceTree.get info.path
  base : info.baseContentHash = sides.lcaTree.get info.path

omit [LinearOrder H] in
theorem reports_append {infos : List (ConflictInfo H)} {info : ConflictInfo H} {path : String} :
    Reports (infos ++ [info]) path ↔ Reports infos path ∨ path = info.path := by
  unfold Reports
  simp only [List.mem_append, List.mem_singleton, or_and_right, exists_or, exists_eq_left]
  exact or_congr_right eq_comm

variable [Hashing H] {s t u : Repository H} {sides : MergeSides H} {conflicts : List (Conflict H)}
  {p q r : MergeProgress H}

/-- The merge of the texts of a path in the second pass. -/
def lossyMerge (s : Repository H) (sides : MergeSides H) (path : String) :
    Except (List String) String :=
  threeWayMerge (lossyContent s (sides.lcaTree.get path))
    ((lossyContent s (sides.headTree.get path)).getD "")
    ((lossyContent s (sides.sourceTree.get path)).getD "") sides.headBranch sides.sourceBranch

/-- The text that comes out of a merge, with its conflicts if there are any. -/
def mergedText : Except (List String) String → String
  | .ok content => content
  | .error conflictLines => markedLines conflictLines

/-- What the second pass writes where both sides changed a file. -/
def lossyBytes (s : Repository H) (sides : MergeSides H) (path : String) : Bytes :=
  encode (mergedText (lossyMerge s sides path))

/-! ### Passes -/

/-- What a pass does: to the files of the paths it handles, to the blobs for those that it
merges, and to the conflicts for those that stay open. -/
structure Passed (sides : MergeSides H) (content : String → Option Bytes)
    (handled merged opened : String → Prop) (p q : MergeProgress H) (s t : Repository H) : Prop where
  files : ∀ path, handled path → t.files.get path = content path
  others : ∀ path, ¬ handled path → t.files.get path = s.files.get path
  blobs : ∀ hash, t.blobs.contains hash = true ↔ s.blobs.contains hash = true ∨
    ∃ path data, merged path ∧ content path = some data ∧ hash = Hashing.fromData data
  infos : ∀ info ∈ q.unresolved, info ∈ p.unresolved ∨ info.Of sides
  reports : ∀ path, Reports q.unresolved path ↔ Reports p.unresolved path ∨ opened path

theorem Passed.refl (content : String → Option Bytes) (s : Repository H) (p : MergeProgress H) :
    Passed sides content (fun _ => False) (fun _ => False) (fun _ => False) p p s s where
  files := nofun
  others := fun _ _ => rfl
  blobs := fun hash => by simp
  infos := fun _ => .inl
  reports := fun path => by simp

theorem Passed.trans {content : String → Option Bytes}
    {handled handled' merged merged' opened opened' : String → Prop}
    (h : Passed sides content handled merged opened p q s t)
    (h' : Passed sides content handled' merged' opened' q r t u) :
    Passed sides content (fun path => handled path ∨ handled' path)
      (fun path => merged path ∨ merged' path) (fun path => opened path ∨ opened' path) p r s u where
  files := fun path hpath => by
    by_cases hlater : handled' path
    · exact h'.files path hlater
    · rw [h'.others path hlater]
      exact h.files path (hpath.resolve_right hlater)
  others := fun path hpath => by
    rw [h'.others path fun hlater => hpath (.inr hlater)]
    exact h.others path fun hnow => hpath (.inl hnow)
  blobs := fun hash => by
    rw [h'.blobs, h.blobs, or_assoc]
    simp only [or_and_right, exists_or]
  infos := fun info hinfo => (h'.infos info hinfo).elim (h.infos info) .inr
  reports := fun path => by rw [h'.reports, h.reports, or_assoc]

theorem Passed.congr {content content' : String → Option Bytes}
    {handled handled' merged merged' opened opened' : String → Prop}
    (h : Passed sides content handled merged opened p q s t)
    (hcontent : content = content') (hhandled : ∀ path, handled path ↔ handled' path)
    (hmerged : ∀ path, merged path ↔ merged' path) (hopened : ∀ path, opened path ↔ opened' path) :
    Passed sides content' handled' merged' opened' p q s t := by
  obtain rfl : handled = handled' := funext fun path => propext (hhandled path)
  obtain rfl : merged = merged' := funext fun path => propext (hmerged path)
  obtain rfl : opened = opened' := funext fun path => propext (hopened path)
  rwa [← hcontent]

/-- Storing and writing a content, in either order. -/
theorem Passed.single {content : String → Option Bytes} {path : String} {data : Bytes}
    (hcontent : content path = some data) (hfiles : t.files = s.files.insert path data)
    (hblobs : ∀ hash, t.blobs.contains hash = true ↔
      s.blobs.contains hash = true ∨ hash = Hashing.fromData data)
    {opened : String → Prop} (hinfos : ∀ info ∈ q.unresolved, info ∈ p.unresolved ∨ info.Of sides)
    (hreports : ∀ path, Reports q.unresolved path ↔ Reports p.unresolved path ∨ opened path) :
    Passed sides content (· = path) (· = path) opened p q s t where
  files := by
    rintro _ rfl
    rw [hfiles, SortedMap.get_insert, if_pos rfl, hcontent]
  others := fun other hother => by rw [hfiles, SortedMap.get_insert, if_neg hother]
  blobs := fun hash => by
    rw [hblobs]
    refine or_congr_right ⟨fun h => ⟨path, data, rfl, hcontent, h⟩, ?_⟩
    rintro ⟨_, data', rfl, hdata', h⟩
    rw [hcontent] at hdata'
    cases hdata'
    exact h
  infos := hinfos
  reports := hreports

theorem putBlob_contains {data : Bytes} {hash : H} (hrun : putBlob data s = (.ok hash, t)) :
    t.files = s.files ∧ ∀ h, t.blobs.contains h = true ↔
      s.blobs.contains h = true ∨ h = Hashing.fromData data := by
  unfold putBlob at hrun
  rw [read_bind] at hrun
  split at hrun
  · rename_i hold
    cases hrun
    refine ⟨rfl, fun h => ⟨.inl, ?_⟩⟩
    rintro (h | rfl)
    · exact h
    · exact hold
  split at hrun
  · cases hrun
  · cases hrun
    refine ⟨rfl, fun h => ?_⟩
    simp only [SortedMap.contains_eq, SortedMap.get_insert]
    by_cases heq : h = Hashing.fromData data
    · simp [heq]
    · simp [heq]

omit [Hashing H] in
theorem writeFile_run (path : String) (data : Bytes) (s : Repository H) :
    writeFile path data s = (.ok (), { s with files := s.files.insert path data }) := rfl

/-! ### The second pass -/

/-- What the second pass writes to a path that it handles. -/
def secondContent (s : Repository H) (sides : MergeSides H) (path : String) : Option Bytes :=
  if sides.lcaTree.get path = sides.headTree.get path then
    contentAt s.blobs (sides.sourceTree.get path)
  else some (lossyBytes s sides path)

omit [Hashing H] in
theorem takeTheirs_passed {old new : FileTree H} (hnew : TreeStored s.blobs new) {e : DiffEntry H}
    (he : EntryOk old new e) (hrun : takeTheirs p e s = (.ok q, t)) :
    (∀ path, t.files.get path =
      if path = e.path then contentAt s.blobs (new.get path) else s.files.get path) ∧
      t.blobs = s.blobs ∧ q.unresolved = p.unresolved := by
  obtain ⟨epath, dtype, oldHash, newHash⟩ := e
  have hput : ∀ hash, newHash = some hash → new.get epath = some hash →
      (∀ path, t.files.get path =
        if path = epath then contentAt s.blobs (new.get path) else s.files.get path) ∧
        t.blobs = s.blobs ∧ q.unresolved = p.unresolved := by
    rintro hash rfl hhash
    obtain ⟨blob, hblob⟩ := Option.isSome_iff_exists.mp (hnew.stored _ _ hhash)
    unfold takeTheirs at hrun
    dsimp only at hrun
    rw [read_bind, hblob] at hrun
    cases hrun
    refine ⟨fun path => ?_, rfl, rfl⟩
    rw [SortedMap.get_insert]
    split
    · rename_i heq
      rw [heq, hhash]
      exact hblob.symm
    · rfl
  cases dtype with
  | added =>
    obtain ⟨-, hash, hhash, hentry⟩ := he
    exact hput hash hentry hhash
  | modified =>
    obtain ⟨-, hash, -, hhash, -, hentry⟩ := he
    exact hput hash hentry hhash
  | renamed oldPath newPath =>
    obtain ⟨hash, -, -, -, hhash, -, hentry⟩ := he
    exact hput hash hentry hhash
  | deleted =>
    obtain ⟨hgone, -, hentry⟩ := he
    cases hentry
    cases hrun
    refine ⟨fun path => ?_, rfl, rfl⟩
    rw [SortedMap.get_erase]
    split
    · rename_i heq
      rw [heq, hgone]
      rfl
    · rfl

theorem mergeTexts_passed {path : String} (hrun : mergeTexts sides conflicts p path s = (.ok q, t)) :
    Passed sides (fun path => some (lossyBytes s sides path)) (· = path)
      (· = path) (fun other => other = path ∧ ∃ lines, lossyMerge s sides path = .error lines)
      p q s t := by
  unfold mergeTexts at hrun
  rw [read_bind] at hrun
  dsimp only at hrun
  rw [show threeWayMerge _ _ _ _ _ = lossyMerge s sides path from rfl] at hrun
  cases hmerge : lossyMerge s sides path with
  | ok content =>
    have hcontent : some (lossyBytes s sides path) = some (encode content) := by
      rw [lossyBytes, hmerge]
      rfl
    rw [hmerge] at hrun
    obtain ⟨hash, s₁, hput, hrun⟩ := bind_ok hrun
    obtain ⟨hfiles, hblobs⟩ := putBlob_contains hput
    rw [bind_of_ok (writeFile_run path _ s₁)] at hrun
    cases hrun
    refine Passed.single hcontent ?_ ?_ (fun _ => .inl) fun other => ?_
    · exact congrArg (SortedMap.insert path _) hfiles
    · exact hblobs
    · simp
  | error lines =>
    have hcontent : some (lossyBytes s sides path) = some (encode (markedLines lines)) := by
      rw [lossyBytes, hmerge]
      rfl
    rw [hmerge] at hrun
    obtain ⟨hash, s₁, hput, hrun⟩ := bind_ok hrun
    obtain ⟨hfiles, hblobs⟩ := putBlob_contains hput
    rw [bind_of_ok (writeFile_run path _ s₁)] at hrun
    cases hrun
    refine Passed.single hcontent ?_ ?_ (fun info hinfo => ?_)
      fun other => ?_
    · exact congrArg (SortedMap.insert path _) hfiles
    · exact hblobs
    · refine (List.mem_append.mp hinfo).imp_right fun h => ?_
      rw [List.mem_singleton.mp h]
      exact ⟨rfl, rfl, rfl⟩
    · rw [reports_append]
      simp

/-- The second pass handles a path. -/
def Second (paths : List String) (es : List (DiffEntry H)) (path : String) : Prop :=
  path ∈ paths ∧ ∃ e ∈ es, e.path = path

/-- Both sides changed a path. -/
def BothChanged (sides : MergeSides H) (path : String) : Prop :=
  sides.lcaTree.get path ≠ sides.headTree.get path ∧ sides.sourceTree.get path ≠ sides.lcaTree.get path

theorem mergeFile_passed (hsource : TreeStored s.blobs sides.sourceTree) {paths : List String}
    {e : DiffEntry H} (he : EntryOk sides.lcaTree sides.sourceTree e)
    (hrun : mergeFile sides conflicts paths p e s = (.ok q, t)) :
    Passed sides (secondContent s sides) (Second paths [e])
      (fun path => Second paths [e] path ∧ sides.lcaTree.get path ≠ sides.headTree.get path)
      (fun path => Second paths [e] path ∧ sides.lcaTree.get path ≠ sides.headTree.get path ∧
        ∃ lines, lossyMerge s sides path = .error lines) p q s t := by
  have hsecond : Second paths [e] = fun path => e.path ∈ paths ∧ path = e.path := by
    funext path
    unfold Second
    simp only [List.mem_singleton, exists_eq_left, eq_iff_iff]
    constructor
    · rintro ⟨hin, rfl⟩
      exact ⟨hin, rfl⟩
    · rintro ⟨hin, rfl⟩
      exact ⟨hin, rfl⟩
  rw [hsecond]
  unfold mergeFile at hrun
  split at hrun
  · rename_i hout
    cases hrun
    exact (Passed.refl (secondContent s sides) s p).congr rfl (by simp [hout]) (by simp [hout])
      (by simp [hout])
  rename_i hin
  rw [not_not] at hin
  simp only [hin, true_and]
  split at hrun
  · rename_i hours
    obtain ⟨hfiles, hblobs, hreports⟩ := takeTheirs_passed hsource he hrun
    refine ⟨?_, fun path hpath => ?_, fun hash => ?_, fun info hinfo => ?_, fun path => ?_⟩
    · rintro _ rfl
      rw [hfiles, if_pos rfl, secondContent, if_pos hours]
    · rw [hfiles, if_neg hpath]
    · rw [hblobs]
      refine ⟨.inl, ?_⟩
      rintro (h | ⟨_, _, ⟨rfl, hne⟩, -⟩)
      · exact h
      · exact absurd hours hne
    · rw [hreports] at hinfo
      exact .inl hinfo
    · rw [hreports]
      refine ⟨.inl, ?_⟩
      rintro (h | ⟨rfl, hne, -⟩)
      · exact h
      · exact absurd hours hne
  · rename_i hours
    have hstep := mergeTexts_passed hrun
    refine ⟨?_, hstep.others, fun hash => ?_, hstep.infos, fun path => ?_⟩
    · rintro _ rfl
      rw [hstep.files _ rfl, secondContent, if_neg hours]
    · rw [hstep.blobs]
      refine or_congr_right ⟨?_, ?_⟩
      · rintro ⟨_, data, rfl, hdata, hhash⟩
        exact ⟨e.path, data, ⟨rfl, hours⟩, by rwa [secondContent, if_neg hours], hhash⟩
      · rintro ⟨_, data, ⟨rfl, -⟩, hdata, hhash⟩
        rw [secondContent, if_neg hours] at hdata
        exact ⟨e.path, data, rfl, hdata, hhash⟩
    · rw [hstep.reports]
      refine or_congr_right ⟨?_, ?_⟩
      · rintro ⟨rfl, hlines⟩
        exact ⟨rfl, hours, hlines⟩
      · rintro ⟨rfl, -, hlines⟩
        exact ⟨rfl, hlines⟩

theorem contentAt_of_kept {blobs blobs' : SortedMap H Bytes}
    (hkept : BlobsGrow blobs blobs')
    {tree : FileTree H} (htree : TreeStored blobs tree) (path : String) :
    contentAt blobs' (tree.get path) = contentAt blobs (tree.get path) := by
  cases hget : tree.get path with
  | none => rfl
  | some hash =>
    obtain ⟨data, hdata⟩ := Option.isSome_iff_exists.mp (htree.stored path hash hget)
    exact (hkept.kept hash data hdata).trans hdata.symm

/-- Later blobs do not change what the second pass makes of stored trees. -/
theorem second_of_kept (hstored : SidesStored s.blobs sides)
    (hkept : BlobsGrow s.blobs t.blobs) :
    lossyMerge t sides = lossyMerge s sides ∧ secondContent t sides = secondContent s sides := by
  have hlossy : ∀ {tree : FileTree H}, TreeStored s.blobs tree → ∀ path,
      lossyContent t (tree.get path) = lossyContent s (tree.get path) := fun htree path =>
    congrArg (Option.map _) (contentAt_of_kept hkept htree path)
  have hmerge : lossyMerge t sides = lossyMerge s sides := by
    funext path
    rw [lossyMerge, lossyMerge, hlossy hstored.lca, hlossy hstored.head, hlossy hstored.source]
  refine ⟨hmerge, funext fun path => ?_⟩
  rw [secondContent, secondContent, lossyBytes, lossyBytes, hmerge,
    contentAt_of_kept hkept hstored.source]

omit [LinearOrder H] [Hashing H] in
theorem second_cons {paths : List String} {e : DiffEntry H} {es : List (DiffEntry H)}
    {path : String} : Second paths (e :: es) path ↔ Second paths [e] path ∨ Second paths es path := by
  unfold Second
  simp only [List.mem_cons, List.not_mem_nil, or_false, exists_eq_left, exists_eq_or_imp]
  rw [and_or_left]

theorem foldEach_mergeFile_passed {paths : List String} {es : List (DiffEntry H)}
    (hes : ∀ e ∈ es, EntryOk sides.lcaTree sides.sourceTree e) :
    ∀ {s : Repository H} {p : MergeProgress H}, SidesStored s.blobs sides →
      foldEach (mergeFile sides conflicts paths) p es s = (.ok q, t) →
      Passed sides (secondContent s sides) (Second paths es)
        (fun path => Second paths es path ∧ sides.lcaTree.get path ≠ sides.headTree.get path)
        (fun path => Second paths es path ∧ sides.lcaTree.get path ≠ sides.headTree.get path ∧
          ∃ lines, lossyMerge s sides path = .error lines) p q s t := by
  induction es with
  | nil =>
    intro s p _ hrun
    cases hrun
    exact (Passed.refl _ _ _).congr rfl (by simp [Second]) (by simp [Second]) (by simp [Second])
  | cons e es ih =>
    intro s p hstored hrun
    obtain ⟨next, s₁, hstep, hrest⟩ := bind_ok hrun
    have hmoved := contents_mergeFile sides conflicts paths p e s
    rw [hstep] at hmoved
    obtain ⟨hmerge, hcontent⟩ := second_of_kept hstored hmoved.2
    have hlater := ih (fun e' he' => hes e' (List.mem_cons_of_mem _ he'))
      (hstored.kept hmoved.2).1 hrest
    rw [hmerge, hcontent] at hlater
    have hnow := mergeFile_passed hstored.source (hes e (List.mem_cons_self ..)) hstep
    have hcons : ∀ path, Second paths (e :: es) path ↔ Second paths [e] path ∨ Second paths es path :=
      fun path => second_cons
    refine (hnow.trans hlater).congr rfl (fun path => (hcons path).symm) (fun path => ?_)
      fun path => ?_
    · rw [hcons, or_and_right]
    · rw [hcons, or_and_right]

theorem mergeFiles_passed (hstored : SidesStored s.blobs sides) {paths : List String}
    (hrun : mergeFiles sides conflicts paths p s = (.ok q, t)) :
    Passed sides (secondContent s sides)
      (Second paths (diffTrees sides.lcaTree sides.sourceTree))
      (fun path => Second paths (diffTrees sides.lcaTree sides.sourceTree) path ∧
        sides.lcaTree.get path ≠ sides.headTree.get path)
      (fun path => Second paths (diffTrees sides.lcaTree sides.sourceTree) path ∧
        sides.lcaTree.get path ≠ sides.headTree.get path ∧
        ∃ lines, lossyMerge s sides path = .error lines) p q s t := by
  unfold mergeFiles at hrun
  split at hrun
  · rename_i hnone
    cases hrun
    exact (Passed.refl _ s p).congr rfl (by simp [Second, hnone]) (by simp [Second, hnone])
      (by simp [Second, hnone])
  · exact foldEach_mergeFile_passed (fun e he => diffTrees_sound he) hstored hrun

/-! ### The third pass -/

/-- What the third pass writes to a path. -/
def markedContent (blobs : SortedMap H Bytes) (sides : MergeSides H) (path : String) : Bytes :=
  encode (markedText blobs sides path)

theorem markConflict_passed {c : Conflict H} (hrun : markConflict sides p c s = (.ok q, t)) :
    Passed sides (fun path => some (markedContent s.blobs sides path))
      (fun path => markedPath s.dag sides c = some path)
      (fun path => markedPath s.dag sides c = some path)
      (fun path => markedPath s.dag sides c = some path) p q s t := by
  unfold markConflict at hrun
  rw [read_bind] at hrun
  unfold markedPath
  split at hrun
  · rename_i hbatch
    cases hrun
    rw [if_pos hbatch]
    exact (Passed.refl _ s p).congr rfl (by simp) (by simp) (by simp)
  rename_i hbatch
  rw [if_neg hbatch]
  cases hinfo : buildConflictInfo s.dag sides c with
  | none =>
    rw [hinfo] at hrun
    cases hrun
    exact (Passed.refl _ s p).congr rfl (by simp) (by simp) (by simp)
  | some info =>
    rw [hinfo] at hrun
    obtain ⟨content, s₁, hmarkers, hrun⟩ := bind_ok hrun
    obtain ⟨rfl, hsame⟩ := writeConflictMarkers_run hinfo hmarkers
    rw [hsame, bind_of_ok (writeFile_run info.path _ s)] at hrun
    obtain ⟨hash, s₂, hput, hrun⟩ := bind_ok hrun
    obtain ⟨hfiles, hblobs⟩ := putBlob_contains hput
    cases hrun
    obtain ⟨hours, htheirs, hbase⟩ := buildConflictInfo_eq hinfo
    have hwritten : Passed sides (fun path => some (markedContent s.blobs sides path))
        (· = info.path) (· = info.path) (· = info.path) p
        { p with
          mergedTree := p.mergedTree.insert info.path hash
          unresolved := p.unresolved ++ [info] } s t := by
      have hcontent : some (markedContent s.blobs sides info.path) =
          some (encode (markedText s.blobs sides info.path)) := rfl
      refine Passed.single hcontent hfiles hblobs (fun i hi => ?_) fun path => ?_
      · refine (List.mem_append.mp hi).imp_right fun h => ?_
        rw [List.mem_singleton.mp h]
        exact ⟨hours, htheirs, hbase⟩
      · exact reports_append
    have hpath : ∀ path, path = info.path ↔ (some info).map ConflictInfo.path = some path :=
      fun path => by rw [Option.map_some, Option.some.injEq, eq_comm]
    exact hwritten.congr rfl hpath hpath hpath

/-- The paths that the third pass overwrites. -/
abbrev markedPaths (d : PatchDag H) (sides : MergeSides H) (conflicts : List (Conflict H)) :
    List String := conflicts.filterMap (markedPath d sides)

omit [Hashing H] in
theorem mem_markedPaths_cons {d : PatchDag H} {c : Conflict H} {cs : List (Conflict H)}
    {path : String} : path ∈ markedPaths d sides (c :: cs) ↔
      markedPath d sides c = some path ∨ path ∈ markedPaths d sides cs := by
  simp only [markedPaths, List.mem_filterMap, List.mem_cons, exists_eq_or_imp]

theorem foldEach_markConflict_passed : ∀ {cs : List (Conflict H)} {s : Repository H}
    {p : MergeProgress H}, SidesStored s.blobs sides →
    foldEach (markConflict sides) p cs s = (.ok q, t) →
    Passed sides (fun path => some (markedContent s.blobs sides path))
      (· ∈ markedPaths s.dag sides cs) (· ∈ markedPaths s.dag sides cs)
      (· ∈ markedPaths s.dag sides cs) p q s t := by
  intro cs
  induction cs with
  | nil =>
    intro s p _ hrun
    cases hrun
    exact (Passed.refl _ _ _).congr rfl (by simp) (by simp) (by simp)
  | cons c cs ih =>
    intro s p hstored hrun
    obtain ⟨next, s₁, hstep, hrest⟩ := bind_ok hrun
    have hmoved := contents_markConflict sides p c s
    rw [hstep] at hmoved
    obtain ⟨hstored₁, htext⟩ := hstored.kept hmoved.2
    have hlater := ih hstored₁ hrest
    simp only [markedContent] at hlater
    rw [htext, dag_of_contents hmoved] at hlater
    exact ((markConflict_passed hstep).trans hlater).congr rfl
      (fun _ => mem_markedPaths_cons.symm) (fun _ => mem_markedPaths_cons.symm)
      fun _ => mem_markedPaths_cons.symm

/-! ### Both passes -/

/-- The second pass handles the path: a batch of the source conflicts on it. -/
def SecondHandles (d : PatchDag H) (sides : MergeSides H) (conflicts : List (Conflict H))
    (path : String) : Prop :=
  Second (conflictingBatchPaths d conflicts) (diffTrees sides.lcaTree sides.sourceTree) path

instance (d : PatchDag H) (sides : MergeSides H) (conflicts : List (Conflict H)) :
    DecidablePred (SecondHandles d sides conflicts) :=
  fun path => inferInstanceAs (Decidable (path ∈ _ ∧ ∃ e ∈ _, DiffEntry.path e = path))

/-- The second pass merges the texts of the path. -/
def TextsMerged (d : PatchDag H) (sides : MergeSides H) (conflicts : List (Conflict H))
    (path : String) : Prop :=
  SecondHandles d sides conflicts path ∧ sides.lcaTree.get path ≠ sides.headTree.get path

/-- The file that the passes leave. -/
def passedFile (s : Repository H) (sides : MergeSides H) (conflicts : List (Conflict H))
    (path : String) : Option Bytes :=
  if path ∈ markedPaths s.dag sides conflicts then some (markedContent s.blobs sides path)
  else if SecondHandles s.dag sides conflicts path then secondContent s sides path
  else s.files.get path

/-- The passes leave a conflict open on the path. -/
def LeftOpen (s : Repository H) (sides : MergeSides H) (conflicts : List (Conflict H))
    (path : String) : Prop :=
  path ∈ markedPaths s.dag sides conflicts ∨
    TextsMerged s.dag sides conflicts path ∧ ∃ lines, lossyMerge s sides path = .error lines

/-- What the passes have written and reported in the end. -/
structure Wrote (s : Repository H) (sides : MergeSides H) (conflicts : List (Conflict H))
    (unresolved : List (ConflictInfo H)) (t : Repository H) : Prop where
  files : ∀ path, t.files.get path = passedFile s sides conflicts path
  blobs : ∀ hash, t.blobs.contains hash = true ↔ s.blobs.contains hash = true ∨
    ∃ path, TextsMerged s.dag sides conflicts path ∧ hash = Hashing.fromData (lossyBytes s sides path) ∨
      path ∈ markedPaths s.dag sides conflicts ∧
        hash = Hashing.fromData (markedContent s.blobs sides path)
  infos : ∀ info ∈ unresolved, info.Of sides
  reports : ∀ path, Reports unresolved path ↔ LeftOpen s sides conflicts path

theorem wrote_of_passes (hstored : SidesStored s.blobs sides) (hopen : p.unresolved = [])
    (hsecond : mergeFiles sides conflicts (conflictingBatchPaths s.dag conflicts) p s = (.ok q, t))
    (hthird : foldEach (markConflict sides) q conflicts t = (.ok r, u)) :
    Wrote s sides conflicts r.unresolved u := by
  have hmoved := contents_mergeFiles sides conflicts (conflictingBatchPaths s.dag conflicts) p s
  rw [hsecond] at hmoved
  obtain ⟨hstored₁, htext⟩ := hstored.kept hmoved.2
  have h₂ := mergeFiles_passed hstored hsecond
  have h₃ := foldEach_markConflict_passed hstored₁ hthird
  simp only [markedContent] at h₃
  rw [htext, dag_of_contents hmoved] at h₃
  refine ⟨fun path => ?_, fun hash => ?_, fun info hinfo => ?_, fun path => ?_⟩
  · unfold passedFile
    split
    · rename_i hmarked
      exact h₃.files path hmarked
    rename_i hmarked
    rw [h₃.others path hmarked]
    split
    · rename_i hhandled
      exact h₂.files path hhandled
    · rename_i hhandled
      exact h₂.others path hhandled
  · rw [h₃.blobs, h₂.blobs, or_assoc, ← exists_or]
    refine or_congr_right (exists_congr fun path => or_congr ⟨?_, ?_⟩ ⟨?_, ?_⟩)
    · rintro ⟨data, hmerged, hdata, hhash⟩
      rw [secondContent, if_neg hmerged.2] at hdata
      cases hdata
      exact ⟨hmerged, hhash⟩
    · rintro ⟨hmerged, hhash⟩
      exact ⟨_, hmerged, if_neg hmerged.2, hhash⟩
    · rintro ⟨data, hmarked, hdata, hhash⟩
      cases hdata
      exact ⟨hmarked, hhash⟩
    · rintro ⟨hmarked, hhash⟩
      exact ⟨_, hmarked, rfl, hhash⟩
  · rcases h₃.infos info hinfo with hinfo | hof
    · rcases h₂.infos info hinfo with hinfo | hof
      · rw [hopen] at hinfo
        cases hinfo
      · exact hof
    · exact hof
  · rw [h₃.reports, h₂.reports, hopen]
    unfold LeftOpen TextsMerged SecondHandles
    simp only [Reports, List.not_mem_nil, false_and, exists_false, false_or, and_assoc]
    exact or_comm

end Suture.Repo
