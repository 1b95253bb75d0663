import Suture.Vfs.Tables

/-!
# What is answered

While the tables agree with what is held, a listing names each child once, and what is looked up
or read is what is held.
-/

namespace Suture.Vfs
set_option autoImplicit false
open Foundation Common Patches Engine Repo Program

variable {H : Type} [LinearOrder H] {s : InnerFs H} {dir : String}

/-! ### Listings -/

/-- An entry that names a child of the directory. -/
structure Holdings.Names (h : Holdings) (dir : String) (e : DirEntry) : Prop where
  name : e.name = nameOf e.path
  child : h.IsChild dir e.path
  kind : h.kindAt e.path = some (if e.isDir then .directory else .file)

/-- Children, each named once. -/
structure Holdings.Lists (h : Holdings) (dir : String) (entries : List DirEntry) : Prop where
  names : ∀ e ∈ entries, h.Names dir e
  nodup : (entries.map DirEntry.name).Nodup

/-- Entries with one name are the same. -/
theorem Holdings.Names.ext {h : Holdings} (hh : h.Named) {a b : DirEntry} (ha : h.Names dir a)
    (hb : h.Names dir b) (hname : a.name = b.name) : a = b := by
  have hpath := hh.child_ext ha.child hb.child (ha.name ▸ hb.name ▸ hname)
  have hkind := ha.kind
  rw [hpath, hb.kind] at hkind
  obtain ⟨aname, apath, adir⟩ := a
  obtain ⟨bname, bpath, bdir⟩ := b
  dsimp only at hname hpath hkind
  subst hname hpath
  cases adir <;> cases bdir <;> first | rfl | cases hkind

theorem Tables.names_listed (h : Tables s) {e : DirEntry}
    (he : e ∈ (s.pathTranslator.listDir dir).filter fun e => !endsWithD e.path) :
    s.holdings.Names dir e := by
  obtain ⟨he, hsuffix⟩ := List.mem_filter.mp he
  rw [Bool.not_eq_true'] at hsuffix
  rw [h.translator] at he
  obtain ⟨hname, hparent, hthere⟩ := PathTranslator.mem_listDir.mp he
  cases hdir : e.isDir with
  | true =>
    rw [hdir, if_pos rfl] at hthere
    have hisDir : s.holdings.IsDir e.path := by
      rcases mem_dirs_allPaths.mp hthere.1 with hroot | hfile | ⟨m, hm, hd⟩
      · exact .inl hroot
      · exact .inr (.inl hfile)
      · exact .inr (.inr ⟨m, hm, .inr hd⟩)
    have hkind := h.named.kindAt_eq_directory.mpr hisDir
    refine ⟨hname, ⟨fun hroot => hthere.2 ?_, hparent, by rw [hkind]; nofun⟩, by rw [hkind, hdir]; rfl⟩
    rw [← hparent, hroot]
    rfl
  | false =>
    rw [hdir, if_neg Bool.false_ne_true] at hthere
    have hfile : s.holdings.files.contains e.path = true := by
      rcases mem_allPaths.mp hthere with hfile | ⟨m, -, hm⟩
      · exact hfile
      · rw [hm, endsWithD_marker] at hsuffix
        cases hsuffix
    have hkind := Holdings.kindAt_eq_file.mpr hfile
    refine ⟨hname, ⟨fun hroot => ?_, hparent, by rw [hkind]; nofun⟩, by rw [hkind, hdir]; rfl⟩
    rw [hroot] at hfile
    exact (h.named.file "" hfile).2.2 (.inl rfl)

theorem mem_pendingEntries {made : List String} {entries : List DirEntry} {e : DirEntry}
    (he : e ∈ pendingEntries made dir entries) : e ∈ entries ∨
      ∃ m ∈ made, (parentOf m).getD "" = dir ∧ e = ⟨nameOf m, m, true⟩ := by
  induction made generalizing entries with
  | nil => exact .inl he
  | cons m made ih =>
    rcases ih he with h | ⟨m', hm', h⟩
    · dsimp only at h
      split at h
      · rename_i hadd
        rcases List.mem_append.mp h with h | h
        · exact .inl h
        · exact .inr ⟨m, List.mem_cons_self .., hadd.1, List.mem_singleton.mp h⟩
      · exact .inl h
    · exact .inr ⟨m', List.mem_cons_of_mem _ hm', h⟩

theorem subset_pendingEntries (made : List String) (entries : List DirEntry) :
    entries ⊆ pendingEntries made dir entries := by
  induction made generalizing entries with
  | nil => exact fun _ he => he
  | cons m made ih =>
    intro e he
    refine ih _ ?_
    dsimp only
    split
    · exact List.mem_append_left _ he
    · exact he

/-- A made directory is named, by its own entry or by one that was there. -/
theorem name_mem_pendingEntries {made : List String} {m : String} (hm : m ∈ made)
    (hparent : (parentOf m).getD "" = dir) (entries : List DirEntry) :
    ∃ e ∈ pendingEntries made dir entries, e.name = nameOf m := by
  induction made generalizing entries with
  | nil => cases hm
  | cons m' made ih =>
    rcases List.mem_cons.mp hm with rfl | hm
    · by_cases hany : entries.any (fun e => decide (e.name = nameOf m)) = true
      · obtain ⟨e, he, hname⟩ := List.any_eq_true.mp hany
        exact ⟨e, subset_pendingEntries _ _ he, of_decide_eq_true hname⟩
      · refine ⟨⟨nameOf m, m, true⟩, subset_pendingEntries made _ ?_, rfl⟩
        dsimp only
        rw [if_pos ⟨hparent, hany⟩]
        exact List.mem_append_right _ (List.mem_singleton.mpr rfl)
    · exact ih hm _

theorem nodup_pendingEntries (made : List String) {entries : List DirEntry}
    (h : (entries.map DirEntry.name).Nodup) :
    ((pendingEntries made dir entries).map DirEntry.name).Nodup := by
  induction made generalizing entries with
  | nil => exact h
  | cons m made ih =>
    refine ih ?_
    dsimp only
    split
    · rename_i hadd
      rw [List.map_append, List.map_singleton]
      refine List.Nodup.append h (List.nodup_singleton _) (List.disjoint_singleton.mpr fun hmem => ?_)
      obtain ⟨e, he, hname⟩ := List.mem_map.mp hmem
      exact hadd.2 (List.any_eq_true.mpr ⟨e, he, decide_eq_true hname⟩)
    · exact h

theorem nodup_listDir (t : PathTranslator) (dir : String) : (t.listDir dir).Nodup := by
  have hentries : ∀ (isDir : Bool) (paths : List String), paths.Nodup →
      (paths.map (PathTranslator.entryOf isDir)).Nodup := fun isDir paths hpaths =>
    hpaths.map fun p q h => congrArg DirEntry.path h
  have hkeys : t.files.keys.Nodup :=
    List.Pairwise.imp ne_of_lt (List.pairwise_map.mpr t.files.sorted)
  refine (List.perm_insertionSort ..).nodup_iff.mpr (List.Nodup.append
    (hentries true _ (t.dirs.nodup.filter _)) (hentries false _ (hkeys.filter _)) ?_)
  intro e hdir hfile
  obtain ⟨p, -, rfl⟩ := List.mem_map.mp hdir
  obtain ⟨q, -, heq⟩ := List.mem_map.mp hfile
  cases congrArg DirEntry.isDir heq

/-- A listing names children of the directory, each once. -/
theorem Tables.lists (h : Tables s) (dir : String) : s.holdings.Lists dir (listDirEntries s dir) := by
  have hlisted : ∀ e ∈ (s.pathTranslator.listDir dir).filter fun e => !endsWithD e.path,
      s.holdings.Names dir e := fun e he => h.names_listed he
  have hnames : ∀ e ∈ pendingEntries s.pendingDirs.elems dir
      ((s.pathTranslator.listDir dir).filter fun e => !endsWithD e.path), s.holdings.Names dir e := by
    intro e he
    rcases mem_pendingEntries he with he | ⟨m, hm, hparent, rfl⟩
    · exact hlisted e he
    · have hkind := h.named.kindAt_eq_directory.mpr (.inr (.inr ⟨m, hm, .inl rfl⟩))
      exact ⟨rfl, ⟨fun hroot => h.named.root (hroot ▸ hm), hparent, by rw [hkind]; nofun⟩, hkind⟩
  constructor
  · intro e he
    exact hnames e ((List.mem_insertionSort _).mp he)
  · refine ((List.perm_insertionSort ..).map _).nodup_iff.mpr (nodup_pendingEntries _ ?_)
    exact List.Nodup.map_on (fun a ha b hb => (hlisted a ha).ext h.named (hlisted b hb))
      ((nodup_listDir _ _).filter _)

/-- A listing names all children. -/
theorem Tables.listed (h : Tables s) {path : String} (hchild : s.holdings.IsChild dir path) :
    ∃ e ∈ listDirEntries s dir, e.path = path := by
  obtain ⟨hne, hparent, hkind⟩ := hchild
  have hsuffix := h.named.noSuffix hkind
  have hfound : ∀ isDir, (if isDir = true then path ∈ (PathTranslator.build s.allPaths).dirs ∧ path ≠ dir
      else path ∈ s.allPaths) → ∃ e ∈ listDirEntries s dir, e.path = path := by
    intro isDir hthere
    refine ⟨⟨nameOf path, path, isDir⟩, (List.mem_insertionSort _).mpr
      (subset_pendingEntries _ _ (List.mem_filter.mpr ⟨?_, by rw [hsuffix]; rfl⟩)), rfl⟩
    rw [h.translator]
    exact PathTranslator.mem_listDir.mpr ⟨rfl, hparent, hthere⟩
  have hnot : path ≠ dir := fun heq => by
    cases hpath : parentOf path with
    | none =>
      rw [hpath] at hparent
      exact hne (heq.trans hparent.symm)
    | some d =>
      rw [hpath] at hparent
      exact parentOf_ne hpath (hparent.trans heq.symm)
  rcases Holdings.kindAt_ne_none.mp hkind with hfile | hroot | hfile | ⟨m, hm, hmade⟩
  · exact hfound false (mem_allPaths.mpr (.inl hfile))
  · exact absurd hroot hne
  · exact hfound true ⟨mem_dirs_allPaths.mpr (.inr (.inl hfile)), hnot⟩
  · rcases hmade with rfl | hd
    · obtain ⟨e, he, hname⟩ := name_mem_pendingEntries hm hparent
        ((s.pathTranslator.listDir dir).filter fun e => !endsWithD e.path)
      have hmem : e ∈ listDirEntries s dir := (List.mem_insertionSort _).mpr he
      have hnames := (h.lists dir).names e hmem
      refine ⟨e, hmem, h.named.child_ext hnames.child ⟨hne, hparent, hkind⟩ ?_⟩
      rw [← hnames.name, hname]
    · exact hfound true ⟨mem_dirs_allPaths.mpr (.inr (.inr ⟨m, hm, hd⟩)), hnot⟩

/-- A directory is empty when nothing is right below it. -/
theorem Tables.isDirEmpty_iff (h : Tables s) : isDirEmpty s dir = true ↔ s.holdings.IsBare dir := by
  rw [isDirEmpty, List.isEmpty_iff, Holdings.isBare_iff]
  constructor
  · intro hnil path hchild
    obtain ⟨e, he, -⟩ := h.listed hchild
    rw [hnil] at he
    cases he
  · exact fun hnone => List.eq_nil_iff_forall_not_mem.mpr fun e he =>
      hnone e.path ((h.lists dir).names e he).child

/-! ### Answers -/

def Holdings.sizeAt (h : Holdings) (path : String) : Nat :=
  ((h.files.get path).map List.length).getD 0

/-- Lookups, reads and listings show what is held. -/
structure Shows (s : InnerFs H) (h : Holdings) : Prop where
  root : s.inodeMap.get 1 = some ⟨.directory, ""⟩
  absent : ∀ parent dir name, s.inodeMap.getPath parent = some dir → h.kindAt (join dir name) = none →
    (lookup parent (some name) s).1 = .error .notExist
  there : ∀ parent dir name kind, s.inodeMap.getPath parent = some dir →
    h.kindAt (join dir name) = some kind → ∃ inode, s.inodeMap.get inode = some ⟨kind, join dir name⟩ ∧
      (lookup parent (some name) s).1 = .ok ⟨inode, kind, h.sizeAt (join dir name)⟩
  read : ∀ inode path, s.inodeMap.get inode = some ⟨.file, path⟩ →
    ∃ content, h.files.get path = some content ∧
      ∀ offset size, (readBytes inode offset size s).1 = .ok ((content.drop offset).take size)
  readdir : ∀ inode dir, s.inodeMap.getPath inode = some dir → ∃ entries : List DirectoryEntry,
    (entries.map DirectoryEntry.name).Nodup ∧
    (∀ name kind, (∃ e ∈ entries, e.name = name ∧ e.kind = kind) ↔
      ∃ path, h.IsChild dir path ∧ nameOf path = name ∧ h.kindAt path = some kind) ∧
    ∀ offset, (readdir inode offset s).1 = .ok (entries.filter fun e => decide (offset < e.offset))

theorem resolvePath_eq {parent : Nat} (hparent : s.inodeMap.getPath parent = some dir) (name : FileName) :
    resolvePath s parent (some name) = .ok (join dir name) := by
  unfold resolvePath
  rw [hparent]

theorem Tables.lookup_absent (h : Tables s) {parent : Nat} (hparent : s.inodeMap.getPath parent = some dir)
    (name : FileName) (hkind : s.holdings.kindAt (join dir name) = none) :
    (lookup parent (some name) s).1 = .error .notExist := by
  have hnone : s.inodeMap.lookup (join dir name) = none := by
    cases hlookup : s.inodeMap.lookup (join dir name) with
    | none => rfl
    | some inode =>
      obtain ⟨kind, hget⟩ := h.ok.entry _ _ hlookup
      have hsome := h.ok.kindOf_eq_some.mpr ⟨inode, hlookup, hget⟩
      rw [h.kinds, hkind] at hsome
      cases hsome
  unfold lookup
  rw [read_bind, resolvePath_eq hparent, bind_of_ok (ofExcept_run _ _)]
  rw [hnone]
  rfl

theorem Tables.lookup_there (h : Tables s) {parent : Nat} (hparent : s.inodeMap.getPath parent = some dir)
    (name : FileName) {kind : InodeKind} (hkind : s.holdings.kindAt (join dir name) = some kind) :
    ∃ inode, s.inodeMap.get inode = some ⟨kind, join dir name⟩ ∧
      (lookup parent (some name) s).1 = .ok ⟨inode, kind, s.holdings.sizeAt (join dir name)⟩ := by
  obtain ⟨inode, hlookup, hget⟩ := h.ok.kindOf_eq_some.mp ((h.kinds _).trans hkind)
  refine ⟨inode, hget, ?_⟩
  have hsize : sizeOf s ⟨kind, join dir name⟩ = s.holdings.sizeAt (join dir name) := by
    cases kind with
    | file => rfl
    | directory =>
      have hnofile : s.holdings.files.contains (join dir name) = false := by
        by_contra hfile
        rw [Holdings.kindAt_eq_file.mpr (Bool.eq_true_of_not_eq_false hfile)] at hkind
        cases hkind
      rw [SortedMap.contains_eq, Option.isSome_eq_false_iff, Option.isNone_iff_eq_none] at hnofile
      rw [Holdings.sizeAt, hnofile]
      rfl
  unfold lookup
  rw [read_bind, resolvePath_eq hparent, bind_of_ok (ofExcept_run _ _)]
  rw [hlookup]
  dsimp only
  rw [hget, ← hsize]
  rfl

/-- With no handle open the content of a file is read. -/
theorem Tables.readBytes_file (h : Tables s) (hopen : s.openFiles.entries = []) {inode : Nat}
    {path : String} (hget : s.inodeMap.get inode = some ⟨.file, path⟩) :
    ∃ content, s.holdings.files.get path = some content ∧
      ∀ offset size, (readBytes inode offset size s).1 = .ok ((content.drop offset).take size) := by
  have hkind := h.ok.kindOf_eq_some.mpr ⟨inode, h.ok.number _ _ hget, hget⟩
  rw [h.kinds, Holdings.kindAt_eq_file] at hkind
  obtain ⟨content, hcontent⟩ := Option.isSome_iff_exists.mp hkind
  refine ⟨content, hcontent, fun offset size => ?_⟩
  have hbuffer : openBuffer s path = none := by
    unfold openBuffer
    rw [hopen]
    rfl
  unfold readBytes
  rw [read_bind, hget]
  dsimp only
  rw [ensure, require_bind rfl, hbuffer, show s.fileContents.get path = some content from hcontent]
  dsimp only [Option.getD_none, Option.getD_some]
  split
  · rename_i hpast
    rw [List.drop_eq_nil_of_le hpast, List.take_nil]
    rfl
  · rfl

/-- The entry of a listing with its number. -/
def numbered (s : InnerFs H) (x : DirEntry × Nat) : Option DirectoryEntry :=
  (s.inodeMap.lookup x.1.path).bind fun inode => (s.inodeMap.get inode).map fun entry =>
    ⟨inode, entry.kind, x.1.name, x.2 + 3⟩

theorem Tables.numbered_eq (h : Tables s) {x : DirEntry × Nat}
    (hx : x ∈ (listDirEntries s dir).zipIdx) : ∃ inode kind,
      s.holdings.kindAt x.1.path = some kind ∧ numbered s x = some ⟨inode, kind, x.1.name, x.2 + 3⟩ := by
  have hmem : x.1 ∈ listDirEntries s dir := by
    rw [← List.zipIdx_map_fst 0 (listDirEntries s dir)]
    exact List.mem_map_of_mem hx
  have hkind := ((h.lists dir).names _ hmem).kind
  obtain ⟨inode, hlookup, hget⟩ := h.ok.kindOf_eq_some.mp ((h.kinds _).trans hkind)
  refine ⟨inode, _, hkind, ?_⟩
  rw [numbered, hlookup, Option.bind_some, hget]
  rfl

theorem Tables.readdir_entries (h : Tables s) {inode : Nat} (hdir : s.inodeMap.getPath inode = some dir) :
    ∃ entries : List DirectoryEntry, (entries.map DirectoryEntry.name).Nodup ∧
      (∀ name kind, (∃ e ∈ entries, e.name = name ∧ e.kind = kind) ↔
        ∃ path, s.holdings.IsChild dir path ∧ nameOf path = name ∧ s.holdings.kindAt path = some kind) ∧
      ∀ offset, (readdir inode offset s).1 =
        .ok (entries.filter fun e => decide (offset < e.offset)) := by
  refine ⟨(listDirEntries s dir).zipIdx.filterMap (numbered s), ?_, fun name kind => ?_, fun offset => ?_⟩
  · have hnames : ((listDirEntries s dir).zipIdx.filterMap (numbered s)).map DirectoryEntry.name =
        (listDirEntries s dir).map DirEntry.name := by
      have hmap : (listDirEntries s dir).zipIdx.filterMap
          (fun x => (numbered s x).map DirectoryEntry.name) =
          (listDirEntries s dir).zipIdx.map (DirEntry.name ∘ Prod.fst) := by
        refine List.filterMap_eq_map_iff_forall_eq_some.mpr fun x hx => ?_
        obtain ⟨inode', kind, -, hnum⟩ := h.numbered_eq hx
        rw [hnum]
        rfl
      rw [List.map_filterMap, hmap, ← List.map_map, List.zipIdx_map_fst]
    rw [hnames]
    exact (h.lists dir).nodup
  · constructor
    · rintro ⟨e, he, rfl, rfl⟩
      obtain ⟨x, hx, hnum⟩ := List.mem_filterMap.mp he
      obtain ⟨inode', kind, hkind, hnum'⟩ := h.numbered_eq hx
      rw [hnum'] at hnum
      cases hnum
      have hmem : x.1 ∈ listDirEntries s dir := by
        rw [← List.zipIdx_map_fst 0 (listDirEntries s dir)]
        exact List.mem_map_of_mem hx
      have hnames := (h.lists dir).names _ hmem
      exact ⟨x.1.path, hnames.child, hnames.name.symm, hkind⟩
    · rintro ⟨path, hchild, rfl, hkind⟩
      obtain ⟨e, he, rfl⟩ := h.listed hchild
      rw [← List.zipIdx_map_fst 0 (listDirEntries s dir)] at he
      obtain ⟨x, hx, rfl⟩ := List.mem_map.mp he
      obtain ⟨inode', kind', hkind', hnum⟩ := h.numbered_eq hx
      rw [hkind] at hkind'
      cases hkind'
      refine ⟨_, List.mem_filterMap.mpr ⟨x, hx, hnum⟩, ?_, rfl⟩
      rw [List.zipIdx_map_fst] at he
      exact ((h.lists dir).names _ he).name
  · unfold readdir
    rw [read_bind, hdir]
    refine congrArg Except.ok ?_
    rw [List.filter_filterMap]
    refine List.filterMap_congr fun x hx => ?_
    obtain ⟨inode', kind, -, hnum⟩ := h.numbered_eq hx
    change (if (x.2 : Int) + 3 ≤ offset then none else numbered s x) = _
    rw [hnum, Option.filter_some]
    by_cases hpast : (x.2 : Int) + 3 ≤ offset
    · simp [hpast]
    · simp [hpast, Int.not_le.mp hpast]

theorem Tables.shows (h : Tables s) (hopen : s.openFiles.entries = []) : Shows s s.holdings where
  root := h.root
  absent := fun _ _ name hparent hkind => h.lookup_absent hparent name hkind
  there := fun _ _ name _ hparent hkind => h.lookup_there hparent name hkind
  read := fun _ _ hget => h.readBytes_file hopen hget
  readdir := fun _ _ hdir => h.readdir_entries hdir

end Suture.Vfs
