import Suture.Vfs.ReadWrite

/-!
# What a mount holds

Files with their content, and the directories that were made. The directories above a file or
above a made directory are there with it.
-/

namespace Suture.Vfs
set_option autoImplicit false
open Foundation Common Patches Engine Repo

structure Holdings where
  files : SortedMap String Bytes
  made : SortedSet String
deriving DecidableEq

def InnerFs.holdings {H : Type} [LinearOrder H] (s : InnerFs H) : Holdings :=
  ⟨s.fileContents, s.pendingDirs⟩

namespace Holdings

def IsDir (h : Holdings) (d : String) : Prop :=
  d = "" ∨ (∃ path ∈ h.files.keys, d ∈ dirsOf path) ∨ ∃ m ∈ h.made.elems, d = m ∨ d ∈ dirsOf m

instance (h : Holdings) (d : String) : Decidable (h.IsDir d) :=
  inferInstanceAs (Decidable (_ ∨ (∃ path ∈ h.files.keys, _) ∨ ∃ m ∈ h.made.elems, _))

def kindAt (h : Holdings) (path : String) : Option InodeKind :=
  if h.files.contains path then some .file else if h.IsDir path then some .directory else none

/-- A path right below a directory. -/
def IsChild (h : Holdings) (dir path : String) : Prop :=
  path ≠ "" ∧ (parentOf path).getD "" = dir ∧ h.kindAt path ≠ none

def paths (h : Holdings) : List String :=
  h.files.keys ++ h.made.elems ++ (h.files.keys ++ h.made.elems).flatMap dirsOf

/-- Nothing is right below the directory. -/
def IsBare (h : Holdings) (dir : String) : Prop :=
  ∀ path ∈ h.paths, path = "" ∨ (parentOf path).getD "" ≠ dir

instance (h : Holdings) (dir : String) : Decidable (h.IsBare dir) :=
  inferInstanceAs (Decidable (∀ path ∈ h.paths, path = "" ∨ (parentOf path).getD "" ≠ dir))

/-- Names are told apart from markers, and files from directories. -/
structure Named (h : Holdings) : Prop where
  file : ∀ path, h.files.contains path = true →
    endsWithD path = false ∧ "" ∉ dirsOf path ∧ ¬ h.IsDir path
  dir : ∀ d, h.IsDir d → endsWithD d = false ∧ "" ∉ dirsOf d
  root : "" ∉ h.made

/-- Each made directory has a file below it. -/
def Filled (h : Holdings) : Prop := ∀ m ∈ h.made.elems, ∃ path ∈ h.files.keys, m ∈ dirsOf path

instance (h : Holdings) : Decidable h.Filled :=
  inferInstanceAs (Decidable (∀ m ∈ h.made.elems, ∃ path ∈ h.files.keys, m ∈ dirsOf path))

variable {h h' : Holdings} {d e path q : String}

theorem mem_files : path ∈ h.files.keys ↔ h.files.contains path = true := by
  rw [SortedMap.mem_keys, SortedMap.contains_eq, Option.isSome_iff_ne_none]

theorem isDir_of_file (hpath : h.files.contains path = true) (hd : d ∈ dirsOf path) : h.IsDir d :=
  .inr (.inl ⟨path, mem_files.mpr hpath, hd⟩)

theorem IsDir.above (he : h.IsDir e) (hd : d ∈ dirsOf e) : h.IsDir d := by
  rcases he with rfl | ⟨path, hpath, he⟩ | ⟨m, hm, rfl | he⟩
  · cases hd
  · exact .inr (.inl ⟨path, hpath, dirsOf_trans hd he⟩)
  · exact .inr (.inr ⟨e, hm, .inr hd⟩)
  · exact .inr (.inr ⟨m, hm, .inr (dirsOf_trans hd he)⟩)

theorem IsDir.mono (hd : h.IsDir d) (hfiles : ∀ p, h.files.contains p = true → h'.files.contains p = true)
    (hmade : ∀ m ∈ h.made, m ∈ h'.made) : h'.IsDir d := by
  rcases hd with hroot | ⟨path, hpath, hd⟩ | ⟨m, hm, hd⟩
  · exact .inl hroot
  · exact isDir_of_file (hfiles path (mem_files.mp hpath)) hd
  · exact .inr (.inr ⟨m, hmade m hm, hd⟩)

theorem kindAt_eq_file : h.kindAt path = some .file ↔ h.files.contains path = true := by
  unfold kindAt
  split_ifs with hfile hdir
  · exact iff_of_true rfl hfile
  · exact iff_of_false nofun hfile
  · exact iff_of_false nofun hfile

theorem Named.kindAt_eq_directory (hh : h.Named) : h.kindAt path = some .directory ↔ h.IsDir path := by
  unfold kindAt
  split_ifs with hfile hdir
  · exact iff_of_false nofun (hh.file path hfile).2.2
  · exact iff_of_true rfl hdir
  · exact iff_of_false nofun hdir

theorem kindAt_ne_none : h.kindAt path ≠ none ↔ h.files.contains path = true ∨ h.IsDir path := by
  unfold kindAt
  split_ifs with hfile hdir
  · exact iff_of_true nofun (.inl hfile)
  · exact iff_of_true nofun (.inr hdir)
  · exact iff_of_false (fun hne => hne rfl) (not_or.mpr ⟨hfile, hdir⟩)

theorem mem_paths (hne : path ≠ "") : path ∈ h.paths ↔ h.kindAt path ≠ none := by
  rw [kindAt_ne_none, paths, List.mem_append, List.mem_append, mem_files, List.mem_flatMap, or_assoc]
  refine or_congr_right ?_
  constructor
  · rintro (hmade | ⟨p, hp, hd⟩)
    · exact .inr (.inr ⟨path, hmade, .inl rfl⟩)
    · rcases List.mem_append.mp hp with hp | hp
      · exact .inr (.inl ⟨p, hp, hd⟩)
      · exact .inr (.inr ⟨p, hp, .inr hd⟩)
  · rintro (hroot | ⟨p, hp, hd⟩ | ⟨m, hm, rfl | hd⟩)
    · exact absurd hroot hne
    · exact .inr ⟨p, List.mem_append_left _ hp, hd⟩
    · exact .inl hm
    · exact .inr ⟨m, List.mem_append_right _ hm, hd⟩

theorem isBare_iff {dir : String} : h.IsBare dir ↔ ∀ path, ¬ h.IsChild dir path := by
  constructor
  · rintro hbare path ⟨hne, hparent, hkind⟩
    exact (hbare path ((mem_paths hne).mpr hkind)).elim hne fun h => h hparent
  · intro hnone path hpath
    by_contra hchild
    rw [not_or, not_not] at hchild
    exact hnone path ⟨hchild.1, hchild.2, (mem_paths hchild.1).mp hpath⟩

theorem kindAt_congr (hfiles : ∀ p, h'.files.contains p = h.files.contains p)
    (hmade : h'.made = h.made) (path : String) : h'.kindAt path = h.kindAt path := by
  have hdir : h'.IsDir path ↔ h.IsDir path :=
    ⟨fun hd => hd.mono (fun p hp => hfiles p ▸ hp) fun m hm => hmade ▸ hm,
      fun hd => hd.mono (fun p hp => (hfiles p).trans hp) fun m hm => hmade ▸ hm⟩
  simp only [kindAt, hfiles, hdir]

theorem Named.noSuffix (hh : h.Named) (hpath : h.kindAt path ≠ none) : endsWithD path = false :=
  (kindAt_ne_none.mp hpath).elim (fun hfile => (hh.file path hfile).1) fun hdir => (hh.dir path hdir).1

theorem Named.relative (hh : h.Named) (hpath : h.kindAt path ≠ none) : "" ∉ dirsOf path :=
  (kindAt_ne_none.mp hpath).elim (fun hfile => (hh.file path hfile).2.1) fun hdir => (hh.dir path hdir).2

theorem Named.mono (hh : h'.Named) (hfiles : ∀ p, h.files.contains p = true → h'.files.contains p = true)
    (hmade : ∀ m ∈ h.made, m ∈ h'.made) : h.Named where
  file := fun path hpath => by
    obtain ⟨hsuffix, hrelative, hdir⟩ := hh.file path (hfiles path hpath)
    exact ⟨hsuffix, hrelative, fun hd => hdir (hd.mono hfiles hmade)⟩
  dir := fun d hd => hh.dir d (hd.mono hfiles hmade)
  root := fun hroot => hh.root (hmade _ hroot)

/-! ### A file or a directory more -/

theorem contains_insert (data : Bytes) :
    (h.files.insert path data).contains q = true ↔ q = path ∨ h.files.contains q = true := by
  rw [SortedMap.contains_eq, SortedMap.get_insert, SortedMap.contains_eq]
  by_cases hq : q = path
  · simp [hq]
  · simp [hq]

theorem isDir_insert (hdirs : ∀ d ∈ dirsOf path, h.IsDir d) (data : Bytes) :
    IsDir ⟨h.files.insert path data, h.made⟩ d ↔ h.IsDir d := by
  constructor
  · rintro (hroot | ⟨p, hp, hd⟩ | hmade)
    · exact .inl hroot
    · rcases (contains_insert data).mp (mem_files.mp hp) with rfl | hp
      · exact hdirs d hd
      · exact isDir_of_file hp hd
    · exact .inr (.inr hmade)
  · exact fun hd => hd.mono (fun p hp => (contains_insert data).mpr (.inr hp)) fun m hm => hm

theorem kindAt_insert (hdirs : ∀ d ∈ dirsOf path, h.IsDir d) (data : Bytes) (q : String) :
    kindAt ⟨h.files.insert path data, h.made⟩ q = if q = path then some .file else h.kindAt q := by
  unfold kindAt
  simp only [contains_insert, isDir_insert hdirs]
  by_cases hq : q = path
  · simp [hq]
  · simp [hq]

theorem Named.insert (hh : h.Named) (hdirs : ∀ d ∈ dirsOf path, h.IsDir d) (data : Bytes)
    (hsuffix : endsWithD path = false) (hrelative : "" ∉ dirsOf path) (hdir : ¬ h.IsDir path) :
    Named ⟨h.files.insert path data, h.made⟩ where
  file := fun q hq => by
    rw [isDir_insert hdirs]
    rcases (contains_insert data).mp hq with rfl | hq
    · exact ⟨hsuffix, hrelative, hdir⟩
    · exact hh.file q hq
  dir := fun d hd => hh.dir d ((isDir_insert hdirs data).mp hd)
  root := hh.root

theorem isDir_make (hdirs : ∀ d ∈ dirsOf path, h.IsDir d) :
    IsDir ⟨h.files, h.made.insert path⟩ d ↔ d = path ∨ h.IsDir d := by
  constructor
  · rintro (hroot | hfile | ⟨m, hm, hd⟩)
    · exact .inr (.inl hroot)
    · exact .inr (.inr (.inl hfile))
    · rcases SortedSet.mem_insert.mp hm with rfl | hm
      · exact hd.imp_right (hdirs d)
      · exact .inr (.inr (.inr ⟨m, hm, hd⟩))
  · rintro (rfl | hd)
    · exact .inr (.inr ⟨d, SortedSet.mem_insert.mpr (.inl rfl), .inl rfl⟩)
    · exact hd.mono (fun _ hp => hp) fun m hm => SortedSet.mem_insert.mpr (.inr hm)

theorem kindAt_make (hdirs : ∀ d ∈ dirsOf path, h.IsDir d) (hfile : h.files.contains path = false)
    (q : String) : kindAt ⟨h.files, h.made.insert path⟩ q =
      if q = path then some .directory else h.kindAt q := by
  unfold kindAt
  simp only [isDir_make hdirs]
  by_cases hq : q = path
  · simp [hq, hfile]
  · simp [hq]

theorem Named.make (hh : h.Named) (hdirs : ∀ d ∈ dirsOf path, h.IsDir d)
    (hne : path ≠ "") (hsuffix : endsWithD path = false) (hrelative : "" ∉ dirsOf path)
    (hfile : h.files.contains path = false) : Named ⟨h.files, h.made.insert path⟩ where
  file := fun q hq => by
    obtain ⟨hs, hr, hd⟩ := hh.file q hq
    refine ⟨hs, hr, fun hdir => ?_⟩
    rcases (isDir_make hdirs).mp hdir with rfl | hdir
    · rw [hfile] at hq
      cases hq
    · exact hd hdir
  dir := fun d hd => by
    rcases (isDir_make hdirs).mp hd with rfl | hd
    · exact ⟨hsuffix, hrelative⟩
    · exact hh.dir d hd
  root := fun hroot => (SortedSet.mem_insert.mp hroot).elim (fun heq => hne heq.symm) hh.root

/-- In a filled mount all directories are above files. -/
theorem Filled.isDir_iff (hfilled : h.Filled) :
    h.IsDir d ↔ d = "" ∨ ∃ path ∈ h.files.keys, d ∈ dirsOf path := by
  constructor
  · rintro (hroot | hfile | ⟨m, hm, hd⟩)
    · exact .inl hroot
    · exact .inr hfile
    · obtain ⟨path, hpath, hm⟩ := hfilled m hm
      refine .inr ⟨path, hpath, ?_⟩
      rcases hd with rfl | hd
      · exact hm
      · exact dirsOf_trans hd hm
  · rintro (hroot | hfile)
    · exact .inl hroot
    · exact .inr (.inl hfile)

/-- Children of one directory with one name are the same. -/
theorem Named.child_ext (hh : h.Named) {dir : String} (hpath : h.IsChild dir path)
    (hq : h.IsChild dir q) (hname : nameOf path = nameOf q) : path = q :=
  path_ext_of_relative (hh.relative hpath.2.2) (hh.relative hq.2.2) (hpath.2.1.trans hq.2.1.symm) hname

end Holdings
end Suture.Vfs
