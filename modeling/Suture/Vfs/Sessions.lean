import Suture.Vfs.Refinement

/-!
# Sessions

From a mount on, as long as no call goes wrong, the files are those of the map. When all handles
are released, replies and the tree of HEAD agree with the map.
-/

namespace Suture.Vfs
set_option autoImplicit false
open Foundation Common Patches Dag Engine Repo Program

variable {H : Type} [LinearOrder H] [Hashing H] {m : Session H} {path : String}

/-! ### Deletions and directories -/

/-- A file that is not pending goes, and its handles with it. -/
theorem Refines.unlink_run (h : Refines m) {env : Env} (hpending : path ∉ m.fs.pendingFiles)
    (hdeletes : m.fs.fileContents.contains path = true → Deletes env m.fs path) :
    Grounded (m.fs.after env (.unlink path)) ∧
      (m.fs.after env (.unlink path)).fileContents = m.fs.fileContents.erase path ∧
      (m.fs.after env (.unlink path)).pendingDirs = m.fs.pendingDirs ∧
      (m.fs.after env (.unlink path)).pendingFiles = m.fs.pendingFiles ∧
      (m.fs.after env (.unlink path)).openFiles =
        m.fs.openFiles.retain (fun _ f => decide (f.path ≠ path)) ∧
      (m.fs.after env (.unlink path)).nextFh = m.fs.nextFh := by
  obtain ⟨s, hs⟩ : ∃ s, s = { m.fs with
      openFiles := m.fs.openFiles.retain fun _ f => decide (f.path ≠ path) } := ⟨_, rfl⟩
  have hgrounded : Grounded s := h.grounded.congr (by rw [hs]) (by rw [hs]) (by rw [hs]) (by rw [hs])
    (by rw [hs]) (by rw [hs])
  have hafter : m.fs.after env (.unlink path) =
      (commitFileDelete env path { s with fileContents := s.fileContents.erase path }).2 := by
    rw [hs]
    exact if_neg hpending
  rw [hafter]
  cases hthere : m.fs.fileContents.contains path with
  | true =>
    obtain ⟨hdisk, htakes, hfilled⟩ := hdeletes hthere
    have hheld : s.fileContents.contains path = true := by rwa [hs]
    have hkept : path ∉ s.pendingFiles := by rwa [hs]
    have hgoes : Deletes env s path := by
      rw [hs]
      exact ⟨hdisk, htakes, hfilled⟩
    obtain ⟨t, hrun, ht, hfiles, hdirs, hkept, hopen, hnext⟩ :=
      hgrounded.commitFileDelete_run hheld hkept hgoes
    rw [hrun]
    subst hs
    exact ⟨ht, hfiles, hdirs, hkept, hopen, hnext⟩
  | false =>
    have hsame : s.fileContents.erase path = s.fileContents := by
      rw [hs]
      exact erase_of_not_contains hthere
    have hgone : s.fileContents.contains path = false := by rwa [hs]
    obtain ⟨e, t, hrun, ht, hholdings, hkept, hopen, hnext⟩ :=
      hgrounded.commitFileDelete_missing env hgone
    rw [hsame, hrun]
    subst hs
    have hfiles := congrArg Holdings.files hholdings
    exact ⟨ht, hfiles.trans (erase_of_not_contains hthere).symm, congrArg Holdings.made hholdings,
      hkept, hopen, hnext⟩

theorem Refines.unlink (h : Refines m) {env : Env} (hpending : path ∉ m.fs.pendingFiles)
    (hdeletes : m.fs.fileContents.contains path = true → Deletes env m.fs path) :
    Refines ⟨m.fs.after env (.unlink path), m.mirror.step m.fs.nextFh (.unlink path),
      m.history.step m.fs m.mirror (.unlink path)⟩ := by
  obtain ⟨hgrounded, hfiles, hdirs, hkept, hopen, hnext⟩ := h.unlink_run hpending hdeletes
  have hmirror (q : String) : (m.mirror.holdings.files.erase path).get q =
      if q = path then none else m.mirror.holdings.files.get q := SortedMap.get_erase ..
  have hget (g : Nat) (f : OpenFile) : (m.fs.after env (.unlink path)).openFiles.get g = some f ↔
      m.fs.openFiles.get g = some f ∧ f.path ≠ path := by
    rw [hopen, SortedMap.get_retain, Option.filter_eq_some_iff, decide_eq_true_eq]
  refine ⟨hgrounded, h.made.trans hdirs.symm, fun q => ?_, fun q hq => ?_, fun q hq => ?_,
    fun g f hg => ?_, fun q hq => ?_⟩
  · have hsame := h.files q
    rw [SortedMap.contains_eq, SortedMap.contains_eq] at hsame
    change (m.mirror.holdings.files.erase path).contains q = _
    rw [SortedMap.contains_eq, hmirror, hfiles, SortedMap.contains_eq, SortedMap.get_erase]
    split
    · rfl
    · exact hsame
  · change (m.mirror.holdings.files.erase path).get q = _
    rw [hmirror, hfiles, SortedMap.get_erase]
    split
    · rfl
    · rename_i hne
      exact h.saved q fun hunsaved => hq (SortedSet.mem_erase.mpr ⟨hunsaved, hne⟩)
  · obtain ⟨hunsaved, hne⟩ := SortedSet.mem_erase.mp hq
    obtain ⟨g, f, hg, rfl⟩ := h.waiting q hunsaved
    exact ⟨g, f, (hget g f).mpr ⟨hg, hne⟩, rfl⟩
  · obtain ⟨hg, hne⟩ := (hget g f).mp hg
    obtain ⟨hthere, hhandle, hbelow, hcurrent⟩ := h.opened g f hg
    refine ⟨?_, ?_, hbelow.trans_eq hnext.symm, fun hnot => ?_⟩
    · rw [SortedMap.contains_eq] at hthere ⊢
      rw [hfiles, SortedMap.get_erase, if_neg hne, hthere]
    · change (m.mirror.handles.retain fun _ p => decide (p ≠ path)).get g = _
      rw [SortedMap.get_retain, hhandle]
      exact if_pos (decide_eq_true hne)
    · exact (hmirror f.path).trans ((if_neg hne).trans (hcurrent hnot))
  · dsimp only at hq
    rw [hkept] at hq
    obtain ⟨g, f, hg, rfl, hnew⟩ := h.pending q hq
    refine ⟨g, f, (hget g f).mpr ⟨hg, ?_⟩, rfl, hnew⟩
    rintro hpath
    exact hpending (hpath ▸ hq)

/-- Only the made directories change. -/
theorem Refines.setMade (h : Refines m) {s : InnerFs H} (hgrounded : Grounded s)
    (hfiles : s.fileContents = m.fs.fileContents) (hpending : s.pendingFiles = m.fs.pendingFiles)
    (hopen : s.openFiles = m.fs.openFiles) (hnext : s.nextFh = m.fs.nextFh) :
    Refines ⟨s, m.mirror.setMade s.pendingDirs, m.history⟩ := by
  refine ⟨hgrounded, rfl, fun q => ?_, fun q hq => ?_, fun q hq => ?_, fun g f hg => ?_,
    fun q hq => ?_⟩
  · exact (h.files q).trans (by rw [hfiles])
  · exact (h.saved q hq).trans (by rw [hfiles])
  · obtain ⟨g, f, hg, hf⟩ := h.waiting q hq
    exact ⟨g, f, hopen ▸ hg, hf⟩
  · obtain ⟨hthere, hhandle, hbelow, hcurrent⟩ := h.opened g f (hopen ▸ hg)
    exact ⟨hfiles ▸ hthere, hhandle, hbelow.trans_eq hnext.symm, hcurrent⟩
  · obtain ⟨g, f, hg, hf⟩ := h.pending q (hpending ▸ hq)
    exact ⟨g, f, hopen ▸ hg, hf⟩

theorem Refines.mkdir (h : Refines m) (ha : m.fs.Admits path .file) (hne : path ≠ "")
    (hrelative : "" ∉ dirsOf path) :
    Refines ⟨m.fs.withDir path, m.mirror.step m.fs.nextFh (.mkdir path), m.history⟩ := by
  have hmade : m.mirror.step m.fs.nextFh (.mkdir path) =
      m.mirror.setMade (m.fs.withDir path).pendingDirs := by
    change m.mirror.setMade (m.mirror.holdings.made.insert path) = _
    rw [h.made]
    rfl
  rw [hmade]
  exact h.setMade (h.grounded.withDir ha hne hrelative) rfl rfl rfl rfl

/-- A directory that was not made, or was made by a mount before, is only forgotten. -/
theorem Refines.rmdir (h : Refines m)
    (hpending : isDirEmpty m.fs path = true → path ∉ m.fs.pendingDirs) :
    Refines ⟨if isDirEmpty m.fs path then m.fs.withoutDir path else m.fs,
      m.mirror.step m.fs.nextFh (.rmdir path), m.history⟩ := by
  have hkinds : ∀ q, m.mirror.holdings.kindAt q = m.fs.holdings.kindAt q :=
    Holdings.kindAt_congr h.files h.made
  have hbare : m.mirror.holdings.IsBare path ↔ isDirEmpty m.fs path = true := by
    rw [h.grounded.tables.isDirEmpty_iff, Holdings.isBare_iff, Holdings.isBare_iff]
    refine forall_congr' fun q => not_congr ?_
    unfold Holdings.IsChild
    rw [hkinds]
  have hmirror : m.mirror.step m.fs.nextFh (.rmdir path) =
      if isDirEmpty m.fs path then m.mirror.setMade (m.mirror.holdings.made.erase path)
      else m.mirror := by
    change (if m.mirror.holdings.IsBare path then _ else _) = _
    simp only [hbare]
  rw [hmirror]
  split
  · rename_i hempty
    have hsame : m.fs.pendingDirs.erase path = m.fs.pendingDirs := SortedSet.ext fun d => by
      rw [SortedSet.mem_erase]
      refine and_iff_left_of_imp ?_
      rintro hd rfl
      exact hpending hempty hd
    have hgrounded : Grounded (m.fs.withoutDir path) := by
      refine h.grounded.congr rfl ?_ rfl hsame rfl rfl
      have hpaths : ({ m.fs with pendingDirs := m.fs.pendingDirs.erase path } : InnerFs H).allPaths =
          m.fs.allPaths := by rw [InnerFs.allPaths, hsame]; rfl
      change PathTranslator.build (InnerFs.allPaths _) = _
      rw [hpaths, h.grounded.tables.translator]
    have hmade := h.setMade hgrounded rfl rfl rfl rfl
    rw [h.made]
    exact hmade
  · exact h

/-! ### Calls -/

omit [Hashing H] in
theorem Intent.ofPath_eq_mkdir {f : String → Intent} {r : Except Errno String}
    (h : Intent.ofPath f r = .mkdir path) : ∃ q, r = .ok q ∧ f q = .mkdir path := by
  cases r with
  | ok q => exact ⟨q, rfl, h⟩
  | error e => cases h

omit [Hashing H] in
theorem resolvePath_of_mkdir {s : InnerFs H} {call : Call} (h : s.intent call = .mkdir path) :
    ∃ parent name, resolvePath s parent name = .ok path := by
  cases call with
  | mkdir parent name =>
    obtain ⟨q, hq, hsame⟩ := Intent.ofPath_eq_mkdir h
    cases hsame
    exact ⟨parent, name, hq⟩
  | create parent name | unlink parent name | rmdir parent name =>
    obtain ⟨q, -, hsame⟩ := Intent.ofPath_eq_mkdir h
    cases hsame
  | openFile inode mode truncate =>
    dsimp only [InnerFs.intent] at h
    split at h
    · split at h <;> cases h
    · cases h
  | lookup | getattr | setattr | read | write | readdir | flush | release => cases h

omit [Hashing H] in
theorem get_of_openWrite {s : InnerFs H} {call : Call} {truncate : Bool}
    (h : s.intent call = .openWrite path truncate) :
    ∃ inode, s.inodeMap.get inode = some ⟨.file, path⟩ := by
  cases call with
  | openFile inode mode trunc =>
    dsimp only [InnerFs.intent] at h
    split at h
    · rename_i q hget
      split at h
      · cases h
      · cases h
        exact ⟨inode, hget⟩
    · cases h
  | create parent name | mkdir parent name | unlink parent name | rmdir parent name =>
    dsimp only [InnerFs.intent] at h
    cases hr : resolvePath s parent name with
    | ok q =>
      rw [hr] at h
      cases h
    | error e =>
      rw [hr] at h
      cases h
  | lookup | getattr | setattr | read | write | readdir | flush | release => cases h

theorem Refines.openRead (h : Refines m) :
    Refines ⟨{ m.fs with nextFh := m.fs.nextFh + 1 }, m.mirror, m.history⟩ := by
  refine ⟨h.grounded.congr rfl rfl rfl rfl rfl rfl, h.made, h.files, h.saved, h.waiting,
    fun g f hg => ?_, h.pending⟩
  obtain ⟨hthere, hhandle, hbelow, hcurrent⟩ := h.opened g f hg
  exact ⟨hthere, hhandle, Nat.lt_succ_of_lt hbelow, hcurrent⟩

theorem Refines.next (h : Refines m) {e : Env × Call} (ha : m.Allows e) : Refines (m.next e) := by
  have hnext : m.next e = ⟨m.fs.after e.1 (m.fs.intent e.2),
      m.mirror.step m.fs.nextFh (m.fs.intent e.2),
      m.history.step m.fs m.mirror (m.fs.intent e.2)⟩ := by
    unfold Session.next
    rw [serve_run]
  rw [hnext]
  unfold Session.Allows at ha
  cases hintent : m.fs.intent e.2 with
  | create path =>
    rw [hintent] at ha
    exact h.create ha.1 ha.2
  | openRead => exact h.openRead
  | openWrite path truncate =>
    obtain ⟨inode, hget⟩ := get_of_openWrite hintent
    have htables := h.grounded.tables
    refine h.openWrite (Holdings.kindAt_eq_file (h := m.fs.holdings).mp ?_) truncate
    rw [← htables.kinds]
    exact htables.ok.kindOf_eq_some.mpr ⟨inode, htables.ok.number _ _ hget, hget⟩
  | write fh offset data =>
    rw [hintent] at ha
    cases hopen : m.fs.openFiles.get fh with
    | some f =>
      dsimp only [InnerFs.after]
      rw [hopen]
      exact h.write hopen
    | none =>
      have hgone : m.mirror.handles.get fh = none := by
        simpa [SortedMap.contains_eq, hopen] using ha
      have htarget : m.mirror.target fh = none := by rw [Mirror.target, hgone]; rfl
      dsimp only [InnerFs.after, Mirror.step, History.step]
      rw [hopen, htarget]
      exact h
  | flush fh =>
    rw [hintent] at ha
    cases hopen : m.fs.openFiles.get fh with
    | some f => exact h.close hopen (ha f hopen) rfl fun _ _ => rfl
    | none =>
      dsimp only [InnerFs.after, History.step, History.closed]
      rw [processClose_missing e.1 hopen, hopen]
      exact h
  | release fh =>
    rw [hintent] at ha
    cases hopen : m.fs.openFiles.get fh with
    | some f =>
      refine h.close hopen (ha f hopen) rfl fun g hg => ?_
      exact (SortedMap.get_erase ..).trans (if_neg hg)
    | none =>
      dsimp only [InnerFs.after, History.step, History.closed]
      rw [processClose_missing e.1 hopen, hopen]
      exact h.forget hopen
  | unlink path =>
    rw [hintent] at ha
    exact h.unlink ha.1 ha.2
  | mkdir path =>
    rw [hintent] at ha
    obtain ⟨parent, name, hresolved⟩ := resolvePath_of_mkdir hintent
    obtain ⟨hne, hrelative⟩ := h.grounded.tables.relative hresolved
    exact h.mkdir ha hne hrelative
  | rmdir path =>
    rw [hintent] at ha
    exact h.rmdir ha
  | look => exact h

/-! ### Mounts -/

theorem Ready.grounded {repo : Repository H} {tree : FileTree H} (hr : Ready repo tree)
    (hclean : Clean (mounted repo tree)) : Grounded (mounted repo tree) := by
  have hget (path : String) : (mounted repo tree).fileContents.get path =
      (tree.get path).bind repo.blobs.get := by
    change (readBlobs repo tree .empty).get path = _
    rw [get_readBlobs, SortedMap.get_empty, Option.or_none]
  have hheld : ∀ path, (mounted repo tree).fileContents.contains path = true → tree.get path ≠ none :=
    fun path hpath hnone => by
      rw [SortedMap.contains_eq, hget, hnone] at hpath
      cases hpath
  refine ⟨.mounted repo tree hr.stored hclean.named, fun path hpath => hr.named path (hheld path hpath),
    tree, ⟨hr, hclean.noneStaged⟩, fun path hash hhash => ?_, fun path hpath hnone => ?_⟩
  · obtain ⟨data, hblob⟩ := hr.stored path hash hhash
    refine ⟨data, hblob, ?_⟩
    rw [hget, hhash]
    exact hblob
  · exact absurd hnone (hheld path hpath)

theorem refines_start {fs : InnerFs H} (hmount : IsMount fs) (hclean : Clean fs) :
    Refines (Session.start fs) := by
  obtain ⟨author, now, files, s, statHit, branch, hreached, hmounted⟩ := hmount
  have hs := Valid.fresh_of_run hreached
  have hopened : Valid True (opened s) := { hs with cachedKnown := nofun }
  obtain ⟨t, tree, ht, huncached, hread, hfs⟩ := mount_run hopened rfl hmounted
  have hready := Ready.of_read ht huncached hread hclean.noMerge
  obtain ⟨repo, hrepo⟩ : ∃ repo, repo = fs.repo := ⟨_, rfl⟩
  rw [← hrepo] at hfs hready
  subst hfs
  exact ⟨hready.grounded hclean, rfl, fun _ => rfl, fun _ _ => rfl, nofun, nofun, nofun⟩

/-! ### The map is refined -/

theorem agrees_of_allowed {fs : InnerFs H} (hmount : IsMount fs) (hclean : Clean fs)
    (hrun : Run Session.next Session.Allows (Session.start fs) m) (hclosed : m.AllClosed) :
    m.Agrees := by
  have hrefines := hrun.invariant Refines (fun _ _ h ha => h.next ha) (refines_start hmount hclean)
  exact hrefines.agrees hclosed

/-! ### Two handles of one file -/

section Sample

theorem isMount_fresh : IsMount fresh :=
  ⟨_, _, _, _, _, _, Run.refl _, mount_fresh⟩

theorem clean_fresh : Clean fresh := by
  have hbare : fresh.holdings = ⟨.empty, .empty⟩ := by decide +kernel
  have hroot : ∀ d, Holdings.IsDir ⟨.empty, .empty⟩ d → d = "" := by
    rintro d (hd | ⟨path, hpath, -⟩ | ⟨m, hm, -⟩)
    · exact hd
    · cases hpath
    · cases hm
  refine ⟨by decide +kernel, by decide +kernel, hbare ▸ ⟨nofun, fun d hd => ?_, nofun⟩⟩
  rw [hroot d hd]
  decide

def played (calls : List Call) : Session Hash :=
  (calls.map fun call => (writable, call)).foldl Session.next (.start fresh)

def oneHandle : List Call :=
  [.create 1 (some fileA), .write 1 0 [1], .release 1]

/-- The third handle was opened before the write through the second. -/
def twoHandles : List Call := oneHandle ++ [.openFile 2 .readWrite false,
  .openFile 2 .readWrite false, .write 2 0 [2], .release 2, .release 3]

/-- The buffer of a handle that was not written to puts the old content back. -/
theorem write_reverted : ¬ ∀ (fs : InnerFs Hash) (m : Session Hash), IsMount fs → Clean fs →
    Run Session.next (fun _ _ => True) (.start fs) m → m.AllClosed → m.Agrees := by
  intro h
  have hrun : Run Session.next (fun _ _ => True) (.start fresh) (played twoHandles) :=
    Run.of_allows _ (Run.allows_true _)
  have hclosed : (played twoHandles).AllClosed := by
    unfold Session.AllClosed
    decide +kernel
  obtain ⟨tree, htree, hfiles⟩ := (h _ _ isMount_fresh clean_fresh hrun hclosed).head
  have hhead : (snapshotHead (played twoHandles).fs.repo).1.toOption.bind (fun tree =>
      (tree.get "a").map (played twoHandles).fs.repo.blobs.get) = some (some [1]) := by decide +kernel
  have hmap : (played twoHandles).mirror.holdings.files.get "a" = some [2] := by decide +kernel
  rw [htree] at hhead
  change (tree.get "a").map (played twoHandles).fs.repo.blobs.get = _ at hhead
  rw [hfiles "a", hmap] at hhead
  cases hhead

/-- The repository at the release of the first handle, with the file written out. -/
def released : Repository Hash :=
  let r := (played (oneHandle.take 2)).fs.repo
  { r with files := r.files.insert "a" [1] }

theorem takes_released : Takes released "a" "vfs: create a" := by
  intro label headId hhead
  have hread : (head (add "a" released).2).1.toOption =
      some ("main", (add "a" released).2.cachedHeadId.getD 0) := by decide +kernel
  rw [hhead] at hread
  cases hread
  have hstaged : stagedFiles (add "a" released).2 = [("a", .added)] := by decide +kernel
  have hparents : (parentsOf (add "a" released).2 ((add "a" released).2.cachedHeadId.getD 0)).all
      (add "a" released).2.dag.hasPatch = true := by decide +kernel
  refine ⟨fun e he => .inr ⟨[1], ?_, .inr ?_⟩, ?_, List.all_eq_true.mp hparents⟩
  · rw [hstaged] at he
    cases List.mem_singleton.mp he
    decide +kernel
  · decide +kernel
  · decide +kernel

theorem allows_oneHandle : Run.Allows Session.next Session.Allows (.start fresh)
    (oneHandle.map fun call => (writable, call)) := by
  refine ⟨?_, ?_, ?_, trivial⟩
  · have hintent : (Session.start fresh).fs.intent (.create 1 (some fileA)) =
        .create "a" := by decide +kernel
    unfold Session.Allows
    rw [hintent]
    exact ⟨⟨by decide +kernel, by decide +kernel, by decide +kernel⟩, _, rfl⟩
  · exact .inl (by decide +kernel)
  · intro f hf
    have hopen : (played (oneHandle.take 2)).fs.openFiles.get 1 = some ⟨"a", [1], true⟩ := by
      decide +kernel
    cases Option.some.inj (hopen.symm.trans hf)
    have hnone : (played (oneHandle.take 2)).fs.repo.blobs.get (Hashing.fromData [1]) = none := by
      decide +kernel
    refine ⟨fun _ => ?_, fun hsame => ?_, fun _ => ⟨rfl, takes_released, ?_, ?_⟩⟩
    · decide +kernel
    · exact absurd hsame (by decide +kernel)
    · exact fun data hdata => nomatch hnone.symm.trans hdata
    · decide +kernel

theorem agrees_oneHandle : (played oneHandle).Agrees ∧
    (played oneHandle).mirror.holdings.files.get "a" = some [1] :=
  ⟨agrees_of_allowed isMount_fresh clean_fresh (Run.of_allows _ allows_oneHandle) (by
    unfold Session.AllClosed
    decide +kernel), by decide +kernel⟩

end Sample
end Suture.Vfs
