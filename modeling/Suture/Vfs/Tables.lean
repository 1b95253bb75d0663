import Suture.Vfs.Holdings

/-!
# The tables of a mount

The table of inode numbers and the listings agree with what the mount holds, unless a name ends
like a marker or a made directory has no file below it when the tables are built anew.
-/

namespace Suture.Vfs
set_option autoImplicit false
open Foundation Common Patches Engine Repo

variable {H : Type} [LinearOrder H] {s t : InnerFs H}

structure Tables (s : InnerFs H) : Prop where
  ok : s.inodeMap.Ok
  root : s.inodeMap.get 1 = some ⟨.directory, ""⟩
  kinds : ∀ path, s.inodeMap.kindOf path = s.holdings.kindAt path
  translator : s.pathTranslator = .build s.allPaths
  named : s.holdings.Named

/-! ### Tables built from entries -/

theorem find_entries (kind : InodeKind) (paths : List String) (q : String) :
    ((paths.map (InodeEntry.mk kind)).find? fun e => decide (e.path = q)).map InodeEntry.kind =
      if q ∈ paths then some kind else none := by
  induction paths with
  | nil => rfl
  | cons path paths ih =>
    rw [List.map_cons, List.find?_cons]
    by_cases hq : path = q
    · simp [hq]
    · simpa [hq, Ne.symm hq] using ih

/-- Directories come first, so a path that is entered as both is a directory. -/
theorem kindOf_entries (dirs files made : List String) (q : String) :
    (InodeGenerator.new.allocAll (⟨.directory, ""⟩ :: dirs.map (InodeEntry.mk .directory) ++
      files.map (InodeEntry.mk .file) ++ made.map (InodeEntry.mk .directory))).kindOf q =
      if q = "" ∨ q ∈ dirs then some .directory else
        if q ∈ files then some .file else if q ∈ made then some .directory else none := by
  rw [InodeGenerator.ok_new.kindOf_allocAll, List.find?_append, List.find?_append, Option.map_or,
    Option.map_or, find_entries, find_entries, ← List.map_cons, find_entries]
  by_cases hdirs : q ∈ "" :: dirs
  · rw [if_pos hdirs, if_pos (List.mem_cons.mp hdirs)]
    rfl
  · rw [if_neg hdirs, if_neg (mt List.mem_cons.mpr hdirs)]
    by_cases hfiles : q ∈ files
    · rw [if_pos hfiles, if_pos hfiles]
      rfl
    · rw [if_neg hfiles, if_neg hfiles]
      rfl

theorem root_entries (es : List InodeEntry) :
    (InodeGenerator.new.allocAll (⟨.directory, ""⟩ :: es)).get 1 = some ⟨.directory, ""⟩ :=
  (InodeGenerator.ok_new.alloc "" .directory).get_allocAll (by rw [InodeGenerator.get_alloc]; rfl) es

/-! ### Blobs read -/

theorem get_readBlobs (repo : Repository H) (tree : FileTree H) (contents : SortedMap String Bytes)
    (path : String) : (readBlobs repo tree contents).get path =
      ((tree.get path).bind repo.blobs.get).or (contents.get path) := by
  have hfold : ∀ step : SortedMap String Bytes → String × H → SortedMap String Bytes,
      (∀ m e, step m e = ((repo.blobs.get e.2).map fun data => m.insert e.1 data).getD m) →
      ∀ (l : List (String × H)) (m : SortedMap String Bytes), (l.map Prod.fst).Nodup →
        (l.foldl step m).get path = ((Assoc.get l path).bind repo.blobs.get).or (m.get path) := by
    intro step hstep l
    induction l with
    | nil => exact fun _ _ => rfl
    | cons e l ih =>
      intro m hnodup
      obtain ⟨hnew, hnodup⟩ := List.nodup_cons.mp hnodup
      rw [List.foldl_cons, ih _ hnodup, Assoc.get_cons, hstep]
      by_cases hpath : path = e.1
      · have hrest : Assoc.get l path = none := Assoc.get_eq_none_iff.mpr (hpath ▸ hnew)
        rw [hrest, if_pos hpath, Option.bind_some]
        cases hblob : repo.blobs.get e.2 with
        | none => rfl
        | some data => simp [hpath]
      · rw [if_neg hpath]
        cases hblob : repo.blobs.get e.2 with
        | none => rfl
        | some data => simp [hpath]
  refine hfold _ (fun m e => ?_) _ _ (List.Pairwise.imp ne_of_lt (List.pairwise_map.mpr tree.sorted))
  cases repo.blobs.get e.2 with
  | none => rfl
  | some data => rfl

/-! ### Tables built anew -/

theorem mem_allPaths {path : String} : path ∈ s.allPaths ↔
    s.fileContents.contains path = true ∨ ∃ m ∈ s.pendingDirs, path = marker m := by
  rw [InnerFs.allPaths, List.mem_append, List.mem_map]
  refine or_congr (Holdings.mem_files (h := s.holdings)) ?_
  exact ⟨fun ⟨m, hm, h⟩ => ⟨m, hm, h.symm⟩, fun ⟨m, hm, h⟩ => ⟨m, hm, h.symm⟩⟩

/-- The directories that are listed are those above files and above made directories. -/
theorem mem_dirs_allPaths {d : String} : d ∈ (PathTranslator.build s.allPaths).dirs ↔
    d = "" ∨ (∃ path ∈ s.fileContents.keys, d ∈ dirsOf path) ∨ ∃ m ∈ s.pendingDirs, d ∈ dirsOf m := by
  rw [PathTranslator.mem_dirs]
  refine or_congr_right ?_
  constructor
  · rintro ⟨path, hpath, hd⟩
    rcases mem_allPaths.mp hpath with hfile | ⟨m, hm, rfl⟩
    · exact .inl ⟨path, (Holdings.mem_files (h := s.holdings)).mpr hfile, hd⟩
    · exact .inr ⟨m, hm, by rwa [dirsOf_marker] at hd⟩
  · rintro (⟨path, hpath, hd⟩ | ⟨m, hm, hd⟩)
    · exact ⟨path, mem_allPaths.mpr (.inl ((Holdings.mem_files (h := s.holdings)).mp hpath)), hd⟩
    · exact ⟨marker m, mem_allPaths.mpr (.inr ⟨m, hm, rfl⟩), by rwa [dirsOf_marker]⟩

/-- A filled mount without names like markers gets the tables it should have. -/
theorem kindOf_rebuilt (hnamed : s.holdings.Named) (hfilled : s.holdings.Filled) {made : List String}
    (hmade : made.Perm s.pendingDirs.elems) (q : String) :
    (InodeGenerator.new.allocAll (rebuiltEntries (.build s.allPaths) made)).kindOf q =
      s.holdings.kindAt q := by
  have hdirs : q = "" ∨ q ∈ ((PathTranslator.build s.allPaths).dirs.elems.map stripD).filter
      (fun d => decide (d ≠ "")) ↔ s.holdings.IsDir q := by
    rw [List.mem_filter, List.mem_map, decide_eq_true_eq]
    constructor
    · rintro (hroot | ⟨⟨d, hd, rfl⟩, -⟩)
      · exact .inl hroot
      · have hdir : s.holdings.IsDir d := by
          rcases mem_dirs_allPaths.mp hd with hroot | hfile | ⟨m, hm, hd⟩
          · exact .inl hroot
          · exact .inr (.inl hfile)
          · exact .inr (.inr ⟨m, hm, .inr hd⟩)
        rwa [stripD_of_not_endsWithD (hnamed.dir d hdir).1]
    · intro hdir
      by_cases hroot : q = ""
      · exact .inl hroot
      · refine .inr ⟨⟨q, ?_, stripD_of_not_endsWithD (hnamed.dir q hdir).1⟩, hroot⟩
        exact mem_dirs_allPaths.mpr ((hfilled.isDir_iff.mp hdir).imp_right .inl)
  have hfiles (hdir : ¬ s.holdings.IsDir q) :
      q ∈ ((PathTranslator.build s.allPaths).files.keys.map stripD).filter
        (fun path => !endsWithD path) ↔ s.holdings.files.contains q = true := by
    rw [List.mem_filter, List.mem_map, Bool.not_eq_true']
    constructor
    · rintro ⟨⟨path, hpath, rfl⟩, -⟩
      rcases mem_allPaths.mp (PathTranslator.mem_files.mp hpath) with hfile | ⟨m, hm, rfl⟩
      · rwa [stripD_of_not_endsWithD (hnamed.file path hfile).1]
      · rw [stripD_marker] at hdir
        exact absurd (.inr (.inr ⟨m, hm, .inl rfl⟩)) hdir
    · intro hfile
      have hsuffix := (hnamed.file q hfile).1
      exact ⟨⟨q, PathTranslator.mem_files.mpr (mem_allPaths.mpr (.inl hfile)),
        stripD_of_not_endsWithD hsuffix⟩, hsuffix⟩
  refine (kindOf_entries _ _ _ q).trans ?_
  simp only [hdirs]
  by_cases hdir : s.holdings.IsDir q
  · rw [if_pos hdir, hnamed.kindAt_eq_directory.mpr hdir]
  · rw [if_neg hdir, Holdings.kindAt, if_neg hdir]
    simp only [hfiles hdir]
    refine if_congr Iff.rfl rfl (if_neg fun hq => ?_)
    exact hdir (.inr (.inr ⟨q, hmade.mem_iff.mp hq, .inl rfl⟩))

/-- Where a tree and the pending files say where contents come from. -/
theorem get_rebuilt (s : InnerFs H) (tree : FileTree H) (walk : List String → List String)
    (path : String) : (s.rebuilt tree walk).fileContents.get path =
      if tree.contains path = true ∨ path ∈ s.pendingFiles then
        ((tree.get path).bind s.repo.blobs.get).or (s.fileContents.get path)
      else none := by
  change ((readBlobs s.repo tree s.fileContents).retain fun path _ =>
    tree.contains path || decide (path ∈ s.pendingFiles)).get path = _
  rw [SortedMap.get_retain, get_readBlobs]
  have hkeep : (tree.contains path || decide (path ∈ s.pendingFiles)) = true ↔
      tree.contains path = true ∨ path ∈ s.pendingFiles := by simp
  by_cases h : tree.contains path = true ∨ path ∈ s.pendingFiles
  · rw [hkeep.mpr h, if_pos h]
    cases ((tree.get path).bind s.repo.blobs.get).or (s.fileContents.get path) <;> rfl
  · rw [Bool.eq_false_iff.mpr (mt hkeep.mp h), if_neg h]
    cases ((tree.get path).bind s.repo.blobs.get).or (s.fileContents.get path) <;> rfl

theorem Tables.rebuilt (s : InnerFs H) (tree : FileTree H) (env : Env)
    (hnamed : (s.rebuilt tree env.walk).holdings.Named)
    (hfilled : (s.rebuilt tree env.walk).holdings.Filled) : Tables (s.rebuilt tree env.walk) where
  ok := by
    rw [InnerFs.rebuilt_inodeMap]
    exact InodeGenerator.ok_new.allocAll _
  root := by
    rw [InnerFs.rebuilt_inodeMap]
    exact root_entries _
  kinds := by
    have hmade : (env.walk s.pendingDirs.elems).Perm (s.rebuilt tree env.walk).pendingDirs.elems := by
      rw [InnerFs.rebuilt_pendingDirs]
      exact env.walk_perm _
    rw [InnerFs.rebuilt_inodeMap]
    exact kindOf_rebuilt hnamed hfilled hmade
  translator := InnerFs.rebuilt_pathTranslator s tree env.walk
  named := hnamed

omit [LinearOrder H] in
theorem keys_eq {α β : Type} {m : SortedMap String α} {m' : SortedMap String β}
    (h : ∀ path, m.get path ≠ none ↔ m'.get path ≠ none) : m.keys = m'.keys := by
  have hsorted : ∀ {γ : Type} (m : SortedMap String γ), m.keys.Pairwise (· < ·) :=
    fun m => List.pairwise_map.mpr m.sorted
  have hsame : (⟨m.keys, hsorted m⟩ : SortedSet String) = ⟨m'.keys, hsorted m'⟩ :=
    SortedSet.ext fun path => SortedMap.mem_keys.trans ((h path).trans SortedMap.mem_keys.symm)
  exact congrArg SortedSet.elems hsame

/-- The tables of a mount of a tree whose blobs are all there. -/
theorem Tables.mounted (repo : Repository H) (tree : FileTree H)
    (hstored : ∀ path hash, tree.get path = some hash → ∃ data, repo.blobs.get hash = some data)
    (hnamed : (mounted repo tree).holdings.Named) : Tables (mounted repo tree) := by
  have hkeys : (Vfs.mounted repo tree).fileContents.keys = tree.keys := by
    refine keys_eq fun path => ?_
    change (readBlobs repo tree .empty).get path ≠ none ↔ _
    rw [get_readBlobs, SortedMap.get_empty, Option.or_none]
    cases hget : tree.get path with
    | none => simp
    | some hash =>
      obtain ⟨data, hdata⟩ := hstored path hash hget
      simp [hdata]
  have hpaths : (Vfs.mounted repo tree).allPaths = tree.keys := by
    rw [← hkeys]
    exact List.append_nil _
  refine ⟨InodeGenerator.ok_new.allocAll _, root_entries _, fun q => ?_, ?_, hnamed⟩
  · have hentries := kindOf_entries ((PathTranslator.build tree.keys).dirs.elems.filter
      fun d => decide (d ≠ "")) (PathTranslator.build tree.keys).files.keys [] q
    rw [List.map_nil, List.append_nil] at hentries
    refine hentries.trans ?_
    have hdirs : q = "" ∨ q ∈ (PathTranslator.build tree.keys).dirs.elems.filter
        (fun d => decide (d ≠ "")) ↔ (Vfs.mounted repo tree).holdings.IsDir q := by
      rw [List.mem_filter, decide_eq_true_eq, ← SortedSet.mem_def, ← hpaths, mem_dirs_allPaths]
      by_cases hroot : q = ""
      · exact iff_of_true (.inl hroot) (.inl hroot)
      · constructor
        · rintro (hq | ⟨hq | hfile | ⟨m, hm, -⟩, -⟩)
          · exact .inl hq
          · exact .inl hq
          · exact .inr (.inl hfile)
          · cases hm
        · rintro (hq | hfile | ⟨m, hm, -⟩)
          · exact .inl hq
          · exact .inr ⟨.inr (.inl hfile), hroot⟩
          · cases hm
    have hfiles : q ∈ (PathTranslator.build tree.keys).files.keys ↔
        (Vfs.mounted repo tree).holdings.files.contains q = true := by
      rw [PathTranslator.mem_files, ← Holdings.mem_files, ← hkeys]
      rfl
    simp only [hdirs, hfiles, List.not_mem_nil, if_false]
    by_cases hdir : (Vfs.mounted repo tree).holdings.IsDir q
    · rw [if_pos hdir, hnamed.kindAt_eq_directory.mpr hdir]
    · rw [if_neg hdir, Holdings.kindAt, if_neg hdir]
  · rw [hpaths]
    rfl

/-! ### A path more -/

theorem Tables.congr (h : Tables s) (hinodes : t.inodeMap = s.inodeMap)
    (htranslator : t.pathTranslator = s.pathTranslator) (hfiles : t.fileContents = s.fileContents)
    (hdirs : t.pendingDirs = s.pendingDirs) : Tables t := by
  have hholdings : t.holdings = s.holdings := by rw [InnerFs.holdings, hfiles, hdirs]; rfl
  have hpaths : t.allPaths = s.allPaths := by rw [InnerFs.allPaths, hfiles, hdirs]; rfl
  refine ⟨?_, ?_, ?_, ?_, ?_⟩
  · rw [hinodes]
    exact h.ok
  · rw [hinodes]
    exact h.root
  · rw [hinodes, hholdings]
    exact h.kinds
  · rw [htranslator, hpaths]
    exact h.translator
  · rw [hholdings]
    exact h.named

/-- A new entry below directories, or one that is there with its kind. -/
theorem Tables.alloc (h : Tables s) {path : String} {kind : InodeKind}
    (hdirs : ∀ d ∈ dirsOf path, s.holdings.IsDir d)
    (hkind : s.holdings.kindAt path = none ∨ s.holdings.kindAt path = some kind)
    (hinodes : t.inodeMap = s.inodeMap ∨
      t.inodeMap = s.inodeMap.allocAll ((dirsOf path).map (InodeEntry.mk .directory))) :
    (t.inodeMap.alloc path kind).2.Ok ∧
      (t.inodeMap.alloc path kind).2.get 1 = some ⟨.directory, ""⟩ ∧
      ∀ q, (t.inodeMap.alloc path kind).2.kindOf q =
        if q = path then some kind else s.holdings.kindAt q := by
  have ht : t.inodeMap.Ok ∧ t.inodeMap.get 1 = some ⟨.directory, ""⟩ ∧
      ∀ q, t.inodeMap.kindOf q = s.holdings.kindAt q := by
    rcases hinodes with hinodes | hinodes
    · rw [hinodes]
      exact ⟨h.ok, h.root, h.kinds⟩
    · rw [hinodes]
      refine ⟨h.ok.allocAll _, h.ok.get_allocAll h.root _, fun q => ?_⟩
      rw [h.ok.kindOf_allocAll, find_entries, h.kinds]
      by_cases hq : q ∈ dirsOf path
      · rw [h.named.kindAt_eq_directory.mpr (hdirs q hq)]
        rfl
      · rw [if_neg hq, Option.or_none]
  obtain ⟨hok, hroot, hkinds⟩ := ht
  refine ⟨hok.alloc .., hok.get_alloc_of_some hroot .., fun q => ?_⟩
  rw [hok.kindOf_alloc, hkinds]
  by_cases hq : q = path
  · subst hq
    rcases hkind with hnone | hsome
    · simp [hnone]
    · simp [hsome]
  · simp [hq]

theorem Tables.create (h : Tables s) {path : String} (hdirs : ∀ d ∈ dirsOf path, s.holdings.IsDir d)
    (hdir : ¬ s.holdings.IsDir path) (hsuffix : endsWithD path = false) (hrelative : "" ∉ dirsOf path)
    (hinodes : t.inodeMap = ((s.inodeMap.allocAll
      ((dirsOf path).map (InodeEntry.mk .directory))).allocFile path).2)
    (htranslator : t.pathTranslator = .build t.allPaths)
    (hfiles : t.fileContents = if s.fileContents.contains path then s.fileContents
      else s.fileContents.insert path [])
    (hmade : t.pendingDirs = s.pendingDirs) : Tables t := by
  have hkind : s.holdings.kindAt path = none ∨ s.holdings.kindAt path = some .file := by
    unfold Holdings.kindAt
    rw [if_neg hdir]
    split
    · exact .inr rfl
    · exact .inl rfl
  have hkinds : t.holdings.Named ∧ ∀ q, t.holdings.kindAt q =
      if q = path then some .file else s.holdings.kindAt q := by
    have hholdings : t.holdings = ⟨t.fileContents, s.pendingDirs⟩ := by rw [← hmade]; rfl
    rw [hholdings, hfiles]
    split
    · rename_i hfile
      refine ⟨h.named, fun q => ?_⟩
      split
      · rename_i hq
        rw [hq]
        exact Holdings.kindAt_eq_file.mpr hfile
      · rfl
    · exact ⟨h.named.insert hdirs [] hsuffix hrelative hdir, Holdings.kindAt_insert hdirs []⟩
  obtain ⟨hok, hroot, hentered⟩ := h.alloc
    (t := { s with inodeMap := s.inodeMap.allocAll ((dirsOf path).map (InodeEntry.mk .directory)) })
    hdirs hkind (.inr rfl)
  refine ⟨?_, ?_, fun q => ?_, htranslator, hkinds.1⟩
  · rw [hinodes]
    exact hok
  · rw [hinodes]
    exact hroot
  · rw [hkinds.2, hinodes]
    exact hentered q

theorem Tables.mkdir (h : Tables s) {path : String} (hdirs : ∀ d ∈ dirsOf path, s.holdings.IsDir d)
    (hne : path ≠ "") (hfile : s.holdings.files.contains path = false) (hsuffix : endsWithD path = false)
    (hrelative : "" ∉ dirsOf path) (hinodes : t.inodeMap = (s.inodeMap.allocDir path).2)
    (htranslator : t.pathTranslator = .build t.allPaths)
    (hfiles : t.fileContents = s.fileContents)
    (hmade : t.pendingDirs = s.pendingDirs.insert path) : Tables t := by
  have hkind : s.holdings.kindAt path = none ∨ s.holdings.kindAt path = some .directory := by
    unfold Holdings.kindAt
    rw [hfile, if_neg Bool.false_ne_true]
    split
    · exact .inr rfl
    · exact .inl rfl
  have hholdings : t.holdings = ⟨s.holdings.files, s.holdings.made.insert path⟩ := by
    rw [InnerFs.holdings, hfiles, hmade]
    rfl
  obtain ⟨hok, hroot, hentered⟩ := h.alloc (t := s) hdirs hkind (.inl rfl)
  refine ⟨?_, ?_, fun q => ?_, htranslator, ?_⟩
  · rw [hinodes]
    exact hok
  · rw [hinodes]
    exact hroot
  · rw [hholdings, Holdings.kindAt_make hdirs hfile, hinodes]
    exact hentered q
  · rw [hholdings]
    exact h.named.make hdirs hne hsuffix hrelative hfile

end Suture.Vfs
