import Suture.Vfs.Calls
import Suture.Vfs.Grounded

/-!
# The mount refines the map

While no call goes wrong, the files of the mount are those of the map, and of each file that has
no writes waiting the content is that of the map. A handle that missed no write has the content
of the map in its buffer.
-/

namespace Suture.Vfs
set_option autoImplicit false
open Foundation Common Patches Dag Engine Repo Program

variable {H : Type} [LinearOrder H] [Hashing H] {s t : InnerFs H} {path : String}

/-! ### Calls that change what is held -/

theorem Grounded.isDir_of_admits (h : Grounded s) {other : InodeKind} (ha : s.Admits path other) :
    ∀ d ∈ dirsOf path, s.holdings.IsDir d := fun d hd => by
  have hkind := ha.parents d hd
  rw [h.tables.kinds] at hkind
  exact h.tables.named.kindAt_eq_directory.mp hkind

omit [Hashing H] in
theorem contains_created (q : String) : (s.created path).fileContents.contains q = true ↔
    q = path ∨ s.fileContents.contains q = true := by
  change (if s.fileContents.contains path then s.fileContents
    else s.fileContents.insert path []).contains q = true ↔ _
  split
  · rename_i hpath
    refine ⟨.inr, ?_⟩
    rintro (rfl | hq)
    · exact hpath
    · exact hq
  · exact Holdings.contains_insert (h := s.holdings) []

theorem Grounded.created (h : Grounded s) (ha : s.Admits path .directory) (hpath : IsRepoPath path) :
    Grounded (s.created path) := by
  have hdirs := h.isDir_of_admits ha
  have hdir : ¬ s.holdings.IsDir path := fun hdir =>
    ha.free ((h.tables.kinds path).trans (h.tables.named.kindAt_eq_directory.mpr hdir))
  have hrelative : "" ∉ dirsOf path := by
    intro hroot
    obtain ⟨p, hp⟩ := hpath
    obtain ⟨rest, hrest⟩ := mem_dirsOf.mp hroot
    have hslash := p.relative
    rw [RepoPath.asStr_of_new hp, hrest] at hslash
    cases hslash
  obtain ⟨tree, hsettled, hbacked⟩ := h.head
  refine ⟨h.tables.create hdirs hdir ha.noSuffix hrelative rfl rfl rfl rfl, fun q hq => ?_,
    tree, hsettled, fun q hash hq => ?_, fun q hq hnone => ?_⟩
  · rcases (contains_created q).mp hq with rfl | hq
    · exact hpath
    · exact h.paths q hq
  · obtain ⟨data, hblob, hdata⟩ := hbacked.content q hash hq
    refine ⟨data, hblob, ?_⟩
    change (if s.fileContents.contains path then s.fileContents
      else s.fileContents.insert path []).get q = some data
    split
    · exact hdata
    · rename_i hnew
      rw [SortedMap.get_insert, if_neg, hdata]
      rintro rfl
      rw [SortedMap.contains_eq, hdata] at hnew
      exact hnew rfl
  · refine SortedSet.mem_insert.mpr ?_
    rcases (contains_created q).mp hq with rfl | hq
    · exact .inl rfl
    · exact .inr (hbacked.rest q hq hnone)

theorem Grounded.withDir (h : Grounded s) (ha : s.Admits path .file) (hne : path ≠ "")
    (hrelative : "" ∉ dirsOf path) : Grounded (s.withDir path) := by
  have hfile : s.holdings.files.contains path = false := by
    by_contra hfile
    exact ha.free ((h.tables.kinds path).trans
      (Holdings.kindAt_eq_file.mpr (Bool.eq_true_of_not_eq_false hfile)))
  obtain ⟨tree, hsettled, hbacked⟩ := h.head
  exact ⟨h.tables.mkdir (h.isDir_of_admits ha) hne hfile ha.noSuffix hrelative rfl rfl rfl rfl,
    h.paths, tree, hsettled, hbacked.content, hbacked.rest⟩

omit [Hashing H] in
theorem resolvePath_ok {parent : Nat} {name : Option FileName}
    (h : resolvePath s parent name = .ok path) :
    ∃ dir n, s.inodeMap.getPath parent = some dir ∧ path = join dir n := by
  unfold resolvePath at h
  split at h
  · rename_i n dir hdir
    cases h
    exact ⟨dir, n, hdir, rfl⟩
  · cases h

omit [Hashing H] in
/-- A path that is made of a name below a known path. -/
theorem Tables.relative (h : Tables s) {parent : Nat} {name : Option FileName}
    (hpath : resolvePath s parent name = .ok path) : path ≠ "" ∧ "" ∉ dirsOf path := by
  obtain ⟨dir, n, hparent, rfl⟩ := resolvePath_ok hpath
  have hrelative : "" ∉ dirsOf dir := by
    obtain ⟨e, hget, rfl⟩ := Option.map_eq_some_iff.mp hparent
    refine h.named.relative ?_
    rw [← h.kinds, h.ok.kindOf_eq_some.mpr ⟨parent, h.ok.number _ _ hget, hget⟩]
    nofun
  refine ⟨fun hroot => ?_, ?_⟩
  · unfold join at hroot
    split at hroot
    · exact n.nonempty hroot
    · have hlength := congrArg (fun s => s.toList.length) hroot
      simp at hlength
  · rw [dirsOf_join]
    split
    · exact List.not_mem_nil
    · rename_i hdir
      rw [List.mem_append, List.mem_singleton]
      exact fun hmem => hmem.elim hrelative fun heq => hdir heq.symm

/-! ### What relates a mount to the map -/

variable {m : Session H}

/-- An open handle of a file: it is a handle of the map, and has the content of the map unless it
missed a write. -/
structure Session.Opened (m : Session H) (fh : Nat) (f : OpenFile) : Prop where
  there : m.fs.fileContents.contains f.path = true
  handle : m.mirror.handles.get fh = some f.path
  below : fh < m.fs.nextFh
  current : fh ∉ m.history.stale → m.mirror.holdings.files.get f.path = some f.buffer

structure Refines (m : Session H) : Prop where
  grounded : Grounded m.fs
  made : m.mirror.holdings.made = m.fs.pendingDirs
  files : ∀ path, m.mirror.holdings.files.contains path = m.fs.fileContents.contains path
  saved : ∀ path, path ∉ m.history.unsaved →
    m.mirror.holdings.files.get path = m.fs.fileContents.get path
  waiting : ∀ path ∈ m.history.unsaved, ∃ fh f, m.fs.openFiles.get fh = some f ∧ f.path = path
  opened : ∀ fh f, m.fs.openFiles.get fh = some f → m.Opened fh f
  pending : ∀ path ∈ m.fs.pendingFiles,
    ∃ fh f, m.fs.openFiles.get fh = some f ∧ f.path = path ∧ f.isNew = true

/-- With all handles released the mount holds what the map holds. -/
theorem Refines.holdings_eq (h : Refines m) (hclosed : m.AllClosed) :
    m.fs.openFiles.entries = [] ∧ m.fs.holdings = m.mirror.holdings ∧
      ∀ path, path ∉ m.fs.pendingFiles := by
  have hnone : ∀ fh f, m.fs.openFiles.get fh ≠ some f := fun fh f hget => by
    have hhandle := (h.opened fh f hget).handle
    unfold SortedMap.get at hhandle
    rw [hclosed] at hhandle
    cases hhandle
  have hsaved : ∀ path, m.mirror.holdings.files.get path = m.fs.fileContents.get path := fun path => by
    refine h.saved path fun hunsaved => ?_
    obtain ⟨fh, f, hget, -⟩ := h.waiting path hunsaved
    exact hnone fh f hget
  refine ⟨List.eq_nil_iff_forall_not_mem.mpr fun e he => hnone e.1 e.2 (SortedMap.mem_entries.mp he),
    ?_, fun path hpending => ?_⟩
  · rw [InnerFs.holdings, ← h.made, ← SortedMap.ext hsaved]
  · obtain ⟨fh, f, hget, -⟩ := h.pending path hpending
    exact hnone fh f hget

theorem Refines.agrees (h : Refines m) (hclosed : m.AllClosed) : m.Agrees := by
  obtain ⟨hopen, hholdings, hpending⟩ := h.holdings_eq hclosed
  refine ⟨hholdings ▸ h.grounded.tables.shows hopen, ?_⟩
  obtain ⟨tree, hsettled, hbacked⟩ := h.grounded.head
  obtain ⟨r, hrun, -⟩ := hsettled.snapshotHead_run
  refine ⟨tree, by rw [hrun], fun path => ?_⟩
  rw [← hholdings]
  change _ = (m.fs.fileContents.get path).map some
  cases hget : tree.get path with
  | some hash =>
    obtain ⟨data, hblob, hdata⟩ := hbacked.content path hash hget
    rw [hdata, Option.map_some, Option.map_some, hblob]
  | none =>
    have hnone : m.fs.fileContents.get path = none := by
      by_contra hsome
      exact hpending path (hbacked.rest path (Option.isSome_iff_ne_none.mpr hsome) hget)
    rw [hnone]
    rfl

/-! ### Handles are opened -/

omit [Hashing H] in
theorem mem_mark {hist : History} {fh g : Nat} {missed : Bool} :
    g ∈ (hist.mark fh missed).stale ↔ if g = fh then missed = true else g ∈ hist.stale := by
  unfold History.mark
  by_cases hg : g = fh
  · cases missed <;> simp [hg]
  · cases missed <;> simp [hg]

omit [Hashing H] in
theorem mem_written {hist : History} {fh g : Nat} : g ∈ (hist.written s path fh).stale ↔
    g ∈ hist.stale ∨ g ≠ fh ∧ ∃ f, s.openFiles.get g = some f ∧ f.path = path := by
  rw [History.written, SortedSet.mem_foldl_insert, InnerFs.others, List.mem_map, or_comm]
  refine or_congr_right ?_
  constructor
  · rintro ⟨e, he, rfl⟩
    obtain ⟨he, hpath⟩ := List.mem_filter.mp he
    have hpath := of_decide_eq_true hpath
    exact ⟨hpath.2, e.2, SortedMap.mem_entries.mp he, hpath.1⟩
  · rintro ⟨hne, f, hget, hpath⟩
    exact ⟨(g, f), List.mem_filter.mpr ⟨SortedMap.mem_entries.mpr hget, decide_eq_true ⟨hpath, hne⟩⟩, rfl⟩

/-- A handle is opened; only its file changes. -/
theorem Refines.opens (h : Refines m) {m' : Session H} {new : OpenFile} (hgrounded : Grounded m'.fs)
    (hmade : m'.mirror.holdings.made = m'.fs.pendingDirs)
    (hopen : m'.fs.openFiles = m.fs.openFiles.insert m.fs.nextFh new)
    (hnext : m'.fs.nextFh = m.fs.nextFh + 1)
    (hhandles : m'.mirror.handles = m.mirror.handles.insert m.fs.nextFh new.path)
    (hcontents : ∀ q, q ≠ new.path → m'.fs.fileContents.get q = m.fs.fileContents.get q)
    (hfiles : ∀ q, q ≠ new.path → m'.mirror.holdings.files.get q = m.mirror.holdings.files.get q)
    (hthere : m'.fs.fileContents.contains new.path = true)
    (hthere' : m'.mirror.holdings.files.contains new.path = true)
    (hunsaved : ∀ q, q ≠ new.path → (q ∈ m'.history.unsaved ↔ q ∈ m.history.unsaved))
    (hsaved : new.path ∉ m'.history.unsaved →
      m'.mirror.holdings.files.get new.path = m'.fs.fileContents.get new.path)
    (hcurrent : m.fs.nextFh ∉ m'.history.stale →
      m'.mirror.holdings.files.get new.path = some new.buffer)
    (hstale : ∀ g f, m.fs.openFiles.get g = some f → g ∉ m'.history.stale → g ∉ m.history.stale ∧
      (f.path = new.path →
        m'.mirror.holdings.files.get f.path = m.mirror.holdings.files.get f.path))
    (hpending : ∀ q ∈ m'.fs.pendingFiles,
      q ∈ m.fs.pendingFiles ∨ q = new.path ∧ new.isNew = true) : Refines m' := by
  have hnew : m'.fs.openFiles.get m.fs.nextFh = some new := by
    rw [hopen, SortedMap.get_insert, if_pos rfl]
  have hkept : ∀ g f, m.fs.openFiles.get g = some f → m'.fs.openFiles.get g = some f := fun g f hg => by
    rw [hopen, SortedMap.get_insert, if_neg (h.opened g f hg).below.ne, hg]
  refine ⟨hgrounded, hmade, fun q => ?_, fun q hq => ?_, fun q hq => ?_, fun g f hg => ?_,
    fun q hq => ?_⟩
  · by_cases hpath : q = new.path
    · rw [hpath, hthere, hthere']
    · have hsame := h.files q
      rwa [SortedMap.contains_eq, SortedMap.contains_eq, ← hfiles q hpath, ← hcontents q hpath] at hsame
  · by_cases hpath : q = new.path
    · subst hpath
      exact hsaved hq
    · rw [hfiles q hpath, hcontents q hpath]
      exact h.saved q (mt (hunsaved q hpath).mpr hq)
  · by_cases hpath : q = new.path
    · exact ⟨_, new, hnew, hpath.symm⟩
    · obtain ⟨g, f, hg, hf⟩ := h.waiting q ((hunsaved q hpath).mp hq)
      exact ⟨g, f, hkept g f hg, hf⟩
  · rw [hopen, SortedMap.get_insert] at hg
    split at hg
    · rename_i hfh
      cases hg
      subst hfh
      refine ⟨hthere, ?_, ?_, hcurrent⟩
      · rw [hhandles, SortedMap.get_insert, if_pos rfl]
      · rw [hnext]
        exact Nat.lt_succ_self _
    · rename_i hfh
      have hopened := h.opened g f hg
      refine ⟨?_, ?_, ?_, fun hnot => ?_⟩
      · by_cases hpath : f.path = new.path
        · rw [hpath, hthere]
        · rw [SortedMap.contains_eq, hcontents _ hpath]
          exact hopened.there
      · rw [hhandles, SortedMap.get_insert, if_neg hfh, hopened.handle]
      · rw [hnext]
        exact Nat.lt_succ_of_lt hopened.below
      · obtain ⟨hstale, hsame⟩ := hstale g f hg hnot
        rw [← hopened.current hstale]
        by_cases hpath : f.path = new.path
        · exact hsame hpath
        · exact hfiles _ hpath
  · rcases hpending q hq with hold | ⟨hpath, hisNew⟩
    · obtain ⟨g, f, hg, hf⟩ := h.pending q hold
      exact ⟨g, f, hkept g f hg, hf⟩
    · exact ⟨_, new, hnew, hpath.symm, hisNew⟩

theorem Refines.create (h : Refines m) (ha : m.fs.Admits path .directory) (hpath : IsRepoPath path) :
    Refines ⟨m.fs.created path, m.mirror.step m.fs.nextFh (.create path),
      m.history.step m.fs m.mirror (.create path)⟩ := by
  have hmirror : (m.mirror.step m.fs.nextFh (.create path)).holdings =
      if m.fs.fileContents.contains path then m.mirror.holdings
      else ⟨m.mirror.holdings.files.insert path [], m.mirror.holdings.made⟩ := by
    rw [← h.files path]
    exact apply_ite Mirror.holdings ..
  have hcontents : (m.fs.created path).fileContents = if m.fs.fileContents.contains path then
      m.fs.fileContents else m.fs.fileContents.insert path [] := rfl
  have hhandles : (m.mirror.step m.fs.nextFh (.create path)).handles =
      m.mirror.handles.insert m.fs.nextFh path := by
    change ((if _ then m.mirror else m.mirror.setFile path []).openHandle m.fs.nextFh path).handles = _
    split
    · rfl
    · rfl
  have hbefore := h.files path
  refine h.opens (h.grounded.created ha hpath) ?_ rfl rfl hhandles (fun q hq => ?_) (fun q hq => ?_) ?_ ?_
    (fun q hq => Iff.rfl) (fun hq => ?_) (fun hq => ?_) (fun g f hg hnot => ?_) fun q hq => ?_
  · dsimp only
    rw [hmirror]
    split
    · exact h.made
    · exact h.made
  · dsimp only at hq ⊢
    rw [hcontents]
    split
    · rfl
    · exact (SortedMap.get_insert ..).trans (if_neg hq)
  · dsimp only at hq ⊢
    rw [hmirror]
    split
    · rfl
    · exact (SortedMap.get_insert ..).trans (if_neg hq)
  · exact (contains_created path).mpr (.inl rfl)
  · dsimp only
    rw [hmirror]
    split
    · rename_i hthere
      exact hbefore.trans hthere
    · exact (Holdings.contains_insert (h := m.mirror.holdings) []).mpr (.inl rfl)
  · dsimp only at hq ⊢
    rw [hmirror, hcontents]
    split
    · exact h.saved path hq
    · rw [SortedMap.get_insert, SortedMap.get_insert, if_pos rfl, if_pos rfl]
  · dsimp only at hq ⊢
    have hempty : (m.mirror.holdings.files.get path).getD [] = [] := by
      by_contra hne
      exact hq (mem_mark.mpr (by rw [if_pos rfl]; exact decide_eq_true hne))
    rw [hmirror]
    split
    · rename_i hthere
      obtain ⟨content, hcontent⟩ := Option.isSome_iff_exists.mp (hbefore.trans hthere)
      rw [hcontent] at hempty
      exact hcontent.trans (congrArg some hempty)
    · exact (SortedMap.get_insert ..).trans (if_pos rfl)
  · have hopened := h.opened g f hg
    refine ⟨fun hstale => hnot (mem_mark.mpr ?_), fun hpath => ?_⟩
    · rwa [if_neg hopened.below.ne]
    · dsimp only at hpath ⊢
      rw [hmirror, if_pos (hpath ▸ hopened.there)]
  · rcases SortedSet.mem_insert.mp hq with rfl | hq
    · by_cases hold : q ∈ m.fs.pendingFiles
      · exact .inl hold
      · refine .inr ⟨rfl, ?_⟩
        dsimp only
        rw [decide_eq_true hold]
        rfl
    · exact .inl hq

/-- An open for writing; it may truncate. -/
theorem Refines.openWrite (h : Refines m) (hpath : m.fs.fileContents.contains path = true)
    (truncate : Bool) : Refines ⟨m.fs.withHandle
        ⟨path, if truncate then [] else (m.fs.fileContents.get path).getD [], false⟩,
      m.mirror.step m.fs.nextFh (.openWrite path truncate),
      m.history.step m.fs m.mirror (.openWrite path truncate)⟩ := by
  have hgrounded : ∀ f, Grounded (m.fs.withHandle f) := fun f =>
    h.grounded.congr rfl rfl rfl rfl rfl rfl
  obtain ⟨content, hcontent⟩ := Option.isSome_iff_exists.mp hpath
  cases truncate with
  | false =>
    refine h.opens (hgrounded _) h.made rfl rfl rfl (fun _ _ => rfl) (fun _ _ => rfl) hpath
      ((h.files path).trans hpath) (fun _ _ => Iff.rfl) (h.saved path) (fun hq => ?_)
      (fun g f hg hnot => ⟨fun hstale => hnot ?_, fun _ => rfl⟩) fun q hq => .inl hq
    · have hsaved : path ∉ m.history.unsaved := fun hunsaved =>
        hq (mem_mark.mpr (by rw [if_pos rfl]; exact decide_eq_true hunsaved))
      refine (h.saved path hsaved).trans ?_
      dsimp only
      rw [hcontent]
      rfl
    · refine mem_mark.mpr ?_
      rwa [if_neg (h.opened g f hg).below.ne]
  | true =>
    have hfiles : ∀ q, (m.mirror.setFile path []).holdings.files.get q =
        if q = path then some [] else m.mirror.holdings.files.get q :=
      fun q => SortedMap.get_insert ..
    refine h.opens (hgrounded _) h.made rfl rfl rfl (fun _ _ => rfl)
      (fun q hq => (hfiles q).trans (if_neg hq)) hpath ?_ (fun q hq => ?_) (fun hq => ?_)
      (fun _ => (hfiles path).trans (if_pos rfl)) (fun g f hg hnot => ?_) fun q hq => .inl hq
    · exact (Holdings.contains_insert (h := m.mirror.holdings) []).mpr (.inl rfl)
    · exact SortedSet.mem_insert.trans (or_iff_right hq)
    · exact absurd (SortedSet.mem_insert.mpr (.inl rfl)) hq
    · have hne := (h.opened g f hg).below.ne
      have hwritten : g ∉ (m.history.written m.fs path m.fs.nextFh).stale := fun hstale =>
        hnot (mem_mark.mpr (by rwa [if_neg hne]))
      refine ⟨fun hstale => hwritten (mem_written.mpr (.inl hstale)), fun hsame => ?_⟩
      exact absurd (mem_written.mpr (.inr ⟨hne, f, hg, hsame⟩)) hwritten

/-- A write goes to the buffer of its handle, and to the map. -/
theorem Refines.write (h : Refines m) {fh offset : Nat} {data : Bytes} {f : OpenFile}
    (hopen : m.fs.openFiles.get fh = some f) :
    Refines ⟨{ m.fs with openFiles :=
        m.fs.openFiles.insert fh { f with buffer := overlay f.buffer offset data } },
      m.mirror.step m.fs.nextFh (.write fh offset data),
      m.history.step m.fs m.mirror (.write fh offset data)⟩ := by
  have hopened := h.opened fh f hopen
  obtain ⟨content, hcontent⟩ := Option.isSome_iff_exists.mp ((h.files f.path).trans hopened.there)
  have htarget : m.mirror.target fh = some (f.path, content) := by
    unfold Mirror.target
    rw [hopened.handle, Option.bind_some, hcontent]
    rfl
  have hmirror : m.mirror.step m.fs.nextFh (.write fh offset data) =
      m.mirror.setFile f.path (overlay content offset data) := by
    unfold Mirror.step
    dsimp only
    rw [htarget]
  have hhistory : m.history.step m.fs m.mirror (.write fh offset data) =
      m.history.written m.fs f.path fh := by
    unfold History.step
    dsimp only
    rw [hopen]
  have hfiles : ∀ q, (m.mirror.setFile f.path (overlay content offset data)).holdings.files.get q =
      if q = f.path then some (overlay content offset data) else m.mirror.holdings.files.get q :=
    fun q => SortedMap.get_insert ..
  have hget : ∀ g, (m.fs.openFiles.insert fh { f with buffer := overlay f.buffer offset data }).get g =
      if g = fh then some { f with buffer := overlay f.buffer offset data }
      else m.fs.openFiles.get g := fun g => SortedMap.get_insert ..
  have hkept : ∀ g f', m.fs.openFiles.get g = some f' →
      ∃ f'', (m.fs.openFiles.insert fh { f with buffer := overlay f.buffer offset data }).get g =
        some f'' ∧ f''.path = f'.path ∧ f''.isNew = f'.isNew := fun g f' hg => by
    rw [hget]
    split
    · rename_i hfh
      rw [hfh, hopen] at hg
      cases hg
      exact ⟨_, rfl, rfl, rfl⟩
    · exact ⟨f', hg, rfl, rfl⟩
  rw [hmirror, hhistory]
  refine ⟨h.grounded.congr rfl rfl rfl rfl rfl rfl, h.made, fun q => ?_, fun q hq => ?_,
    fun q hq => ?_, fun g f' hg => ?_, fun q hq => ?_⟩
  · refine Eq.trans ?_ (h.files q)
    dsimp only
    rw [SortedMap.contains_eq, hfiles, SortedMap.contains_eq]
    split
    · rename_i hpath
      rw [hpath, hcontent]
      rfl
    · rfl
  · have hq := not_or.mp (mt SortedSet.mem_insert.mpr hq)
    exact (hfiles q).trans ((if_neg hq.1).trans (h.saved q hq.2))
  · rcases SortedSet.mem_insert.mp hq with rfl | hq
    · exact ⟨fh, _, (hget fh).trans (if_pos rfl), rfl⟩
    · obtain ⟨g, f', hg, rfl⟩ := h.waiting q hq
      obtain ⟨f'', hg, hpath, -⟩ := hkept g f' hg
      exact ⟨g, f'', hg, hpath⟩
  · dsimp only at hg
    rw [hget] at hg
    split at hg
    · rename_i hfh
      cases hg
      subst hfh
      refine ⟨hopened.there, hopened.handle, hopened.below, fun hnot => ?_⟩
      have hcurrent := hopened.current fun hstale => hnot (mem_written.mpr (.inl hstale))
      rw [hcontent] at hcurrent
      cases hcurrent
      exact (hfiles f.path).trans (if_pos rfl)
    · rename_i hfh
      have hother := h.opened g f' hg
      refine ⟨hother.there, hother.handle, hother.below, fun hnot => ?_⟩
      have hne : f'.path ≠ f.path := fun hpath =>
        hnot (mem_written.mpr (.inr ⟨hfh, f', hg, hpath⟩))
      refine ((hfiles f'.path).trans (if_neg hne)).trans (hother.current fun hstale => ?_)
      exact hnot (mem_written.mpr (.inl hstale))
  · obtain ⟨g, f', hg, rfl, hnew⟩ := h.pending q hq
    obtain ⟨f'', hg, hpath, hisNew⟩ := hkept g f' hg
    exact ⟨g, f'', hg, hpath, hisNew.trans hnew⟩

/-! ### Handles are closed -/

/-- The buffer of a handle goes to its file. -/
theorem Refines.processClose_run (h : Refines m) {env : Env} {fh : Nat} {f : OpenFile}
    (hopen : m.fs.openFiles.get fh = some f) (hsaves : m.Saves env fh f) :
    Grounded (processClose env fh m.fs).2 ∧
      (∀ q, (processClose env fh m.fs).2.fileContents.get q =
        if q = f.path then some f.buffer else m.fs.fileContents.get q) ∧
      (processClose env fh m.fs).2.pendingDirs = m.fs.pendingDirs ∧
      (∀ q ∈ (processClose env fh m.fs).2.pendingFiles,
        q ∈ m.fs.pendingFiles ∧ (q = f.path → f.isNew = false)) ∧
      (processClose env fh m.fs).2.openFiles = m.fs.openFiles.erase fh ∧
      (processClose env fh m.fs).2.nextFh = m.fs.nextFh := by
  have hclosed : Grounded { m.fs with openFiles := m.fs.openFiles.erase fh } :=
    h.grounded.congr rfl rfl rfl rfl rfl rfl
  have hthere := (h.opened fh f hopen).there
  rw [Vfs.processClose_run, hopen]
  dsimp only
  by_cases hchanged : m.fs.fileContents.get f.path ≠ some f.buffer
  · rw [if_pos hchanged]
    have hc := hsaves.commits hchanged
    obtain ⟨t, hrun, ht, hfiles, hdirs, hpending, hhandles, hnext⟩ :=
      hclosed.commitFileChange_run hthere ⟨hc.disk, hc.takes, hc.distinct, hc.filled⟩
    rw [hrun]
    refine ⟨ht, fun q => ?_, hdirs, fun q hq => ?_, hhandles, hnext⟩
    · dsimp only
      rw [hfiles, SortedMap.get_insert]
    · dsimp only at hq
      rw [hpending, SortedSet.mem_erase] at hq
      exact ⟨hq.1, fun hpath => absurd hpath hq.2⟩
  · have hsame := not_not.mp hchanged
    have hold := hsaves.kept hsame
    rw [if_neg hchanged, hold, if_neg Bool.false_ne_true]
    refine ⟨hclosed, fun q => ?_, rfl, fun q hq => ⟨hq, fun _ => rfl⟩, rfl, rfl⟩
    split
    · rename_i hq
      rw [hq]
      exact hsame
    · rfl

theorem Refines.close (h : Refines m) {env : Env} {fh : Nat} {f : OpenFile}
    (hopen : m.fs.openFiles.get fh = some f) (hsaves : m.Saves env fh f) {mirror : Mirror}
    (hholdings : mirror.holdings = m.mirror.holdings)
    (hhandles : ∀ g, g ≠ fh → mirror.handles.get g = m.mirror.handles.get g) :
    Refines ⟨(processClose env fh m.fs).2, mirror, m.history.closed m.fs fh⟩ := by
  obtain ⟨hgrounded, hfiles, hdirs, hpending, hleft, hnext⟩ := h.processClose_run hopen hsaves
  have hopened := h.opened fh f hopen
  have hget : ∀ g f', (processClose env fh m.fs).2.openFiles.get g = some f' ↔
      g ≠ fh ∧ m.fs.openFiles.get g = some f' := fun g f' => by
    rw [hleft, SortedMap.get_erase]
    by_cases hg : g = fh
    · simp [hg]
    · simp [hg]
  have hother : ∀ g f', m.fs.openFiles.get g = some f' → f'.path ≠ f.path → g ≠ fh := by
    rintro g f' hg hne rfl
    rw [hopen] at hg
    cases hg
    exact hne rfl
  have hhistory : m.history.closed m.fs fh = { m.history with
      unsaved := if fh ∈ m.history.stale then m.history.unsaved.insert f.path
        else m.history.unsaved.erase f.path } := by
    unfold History.closed
    rw [hopen]
  rw [hhistory]
  refine ⟨hgrounded, ?_, fun q => ?_, fun q hq => ?_, fun q hq => ?_, fun g f' hg => ?_, fun q hq => ?_⟩
  · exact (congrArg Holdings.made hholdings).trans (h.made.trans hdirs.symm)
  · dsimp only
    rw [hholdings, h.files q, SortedMap.contains_eq, SortedMap.contains_eq, hfiles]
    split
    · rename_i hq
      rw [hq]
      exact hopened.there
    · rfl
  · dsimp only at hq ⊢
    rw [hholdings, hfiles]
    by_cases hstale : fh ∈ m.history.stale
    · rw [if_pos hstale] at hq
      have hq := not_or.mp (mt SortedSet.mem_insert.mpr hq)
      rw [if_neg hq.1, h.saved q hq.2]
    · rw [if_neg hstale] at hq
      split
      · rename_i hpath
        rw [hpath]
        exact hopened.current hstale
      · rename_i hpath
        exact h.saved q fun hunsaved => hq (SortedSet.mem_erase.mpr ⟨hunsaved, hpath⟩)
  · have hcases : q ∈ m.history.unsaved ∧ q ≠ f.path ∨ q = f.path ∧ fh ∈ m.history.stale := by
      dsimp only at hq
      split at hq
      · rename_i hstale
        by_cases hpath : q = f.path
        · exact .inr ⟨hpath, hstale⟩
        · exact .inl ⟨(SortedSet.mem_insert.mp hq).resolve_left hpath, hpath⟩
      · exact .inl (SortedSet.mem_erase.mp hq)
    rcases hcases with ⟨hunsaved, hpath⟩ | ⟨rfl, hstale⟩
    · obtain ⟨g, f', hg, rfl⟩ := h.waiting q hunsaved
      exact ⟨g, f', (hget g f').mpr ⟨hother g f' hg hpath, hg⟩, rfl⟩
    · by_contra hnone
      refine hsaves.last (fun g f' hg hpath => ?_) hstale
      by_contra hne
      exact hnone ⟨g, f', (hget g f').mpr ⟨hne, hg⟩, hpath⟩
  · obtain ⟨hne, hg⟩ := (hget g f').mp hg
    have hold := h.opened g f' hg
    refine ⟨?_, ?_, ?_, fun hnot => ?_⟩
    · dsimp only
      rw [SortedMap.contains_eq, hfiles]
      split
      · rfl
      · exact hold.there
    · exact (hhandles g hne).trans hold.handle
    · exact hold.below.trans_eq hnext.symm
    · dsimp only
      rw [hholdings]
      exact hold.current hnot
  · obtain ⟨hold, hisNew⟩ := hpending q hq
    obtain ⟨g, f', hg, rfl, hnew⟩ := h.pending q hold
    refine ⟨g, f', (hget g f').mpr ⟨?_, hg⟩, rfl, hnew⟩
    rintro rfl
    rw [hopen] at hg
    cases hg
    rw [hisNew rfl] at hnew
    cases hnew

/-- A handle of the map that is not open any more is released. -/
theorem Refines.forget (h : Refines m) {fh : Nat} (hclosed : m.fs.openFiles.get fh = none) :
    Refines ⟨m.fs, { m.mirror with handles := m.mirror.handles.erase fh }, m.history⟩ := by
  refine ⟨h.grounded, h.made, h.files, h.saved, h.waiting, fun g f hg => ?_, h.pending⟩
  obtain ⟨hthere, hhandle, hbelow, hcurrent⟩ := h.opened g f hg
  refine ⟨hthere, (SortedMap.get_erase ..).trans ((if_neg ?_).trans hhandle), hbelow, hcurrent⟩
  rintro rfl
  rw [hclosed] at hg
  cases hg

end Suture.Vfs
