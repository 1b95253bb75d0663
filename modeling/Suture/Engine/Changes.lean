import Suture.Engine.Tree

/-!
# Patches as lists of changes

A patch with a target path makes one change and a batch makes its own, so a chain of patches
makes one list of changes. A change leaves the paths that it does not name.
-/

namespace Suture.Engine
set_option autoImplicit false
open Foundation Patches

variable {H : Type} [Hashing H]

def payloadText : Payload H → Text H
  | .text t => t
  | .changes fileChanges => .utf8 (Hashing.changesJson fileChanges)

/-- The changes that a patch makes, in their order. -/
def changesOf (patch : Patch H) : List (FileChange H) :=
  if patch.operationType = .batch then patch.fileChanges.getD []
  else if patch.isIdentity || patch.operationType = .merge then []
  else
    match patch.targetPath with
    | none => []
    | some path => [⟨patch.operationType, path, payloadText patch.payload⟩]

theorem applySingleOpWithResolve_eq {patch : Patch H} {path : String} {tree tree' : FileTree H}
    (h : applySingleOpWithResolve tree patch path = .ok tree') :
    tree' = applySingleOp tree ⟨patch.operationType, path, payloadText patch.payload⟩ := by
  have hhash : resolvePayloadToHash patch = resolveHexToHash (payloadText patch.payload) := by
    unfold resolvePayloadToHash
    cases patch.payload <;> rfl
  have htext : payloadUtf8 patch.payload = textUtf8 (payloadText patch.payload) := by
    cases patch.payload <;> rfl
  unfold applySingleOpWithResolve at h
  unfold applySingleOp
  cases hop : patch.operationType with
  | move =>
    rw [hop] at h
    dsimp only at h ⊢
    rw [← htext]
    cases hname : payloadUtf8 patch.payload with
    | none =>
      rw [hname] at h
      cases h
    | some newPath =>
      rw [hname] at h
      exact (Except.ok.inj h).symm
  | create | delete | modify | metadata | merge | identity | batch =>
    rw [hop] at h
    dsimp only at h ⊢
    rw [← hhash]
    exact (Except.ok.inj h).symm

theorem applyPatch_changes {patch : Patch H} {tree tree' : FileTree H}
    (h : applyPatch tree patch = .ok tree') : tree' = (changesOf patch).foldl applySingleOp tree := by
  unfold applyPatch at h
  unfold changesOf
  split
  · rename_i hop
    rw [if_pos hop] at h
    cases hchanges : patch.fileChanges with
    | none =>
      rw [hchanges] at h
      exact (Except.ok.inj h).symm
    | some changes =>
      rw [hchanges] at h
      exact (Except.ok.inj h).symm
  · rename_i hop
    rw [if_neg hop] at h
    split
    · rename_i hidle
      rw [if_pos hidle] at h
      exact (Except.ok.inj h).symm
    · rename_i hbusy
      rw [if_neg hbusy] at h
      cases htarget : patch.targetPath with
      | none =>
        rw [htarget] at h
        exact (Except.ok.inj h).symm
      | some path =>
        rw [htarget] at h
        exact applySingleOpWithResolve_eq h

theorem foldlM_applyPatch_changes {patches : List (Patch H)} {tree tree' : FileTree H}
    (h : patches.foldlM applyPatch tree = .ok tree') :
    tree' = (patches.flatMap changesOf).foldl applySingleOp tree := by
  induction patches generalizing tree with
  | nil => exact (Except.ok.inj h).symm
  | cons patch patches ih =>
    rw [List.foldlM_cons] at h
    cases hpatch : applyPatch tree patch with
    | error e =>
      rw [hpatch] at h
      cases h
    | ok next =>
      rw [hpatch] at h
      rw [List.flatMap_cons, List.foldl_append, ← applyPatch_changes hpatch]
      exact ih h

/-! ### The paths of changes -/

/-- The path of a change, and where a move goes to. -/
def changePaths (change : FileChange H) : List String :=
  change.path :: if change.op = .move then (textUtf8 change.payload).toList else []

def changedPaths (patch : Patch H) : List String := (changesOf patch).flatMap changePaths

omit [Hashing H] in
theorem get_rename_of_ne {tree : FileTree H} {oldPath newPath path : String} (hold : path ≠ oldPath)
    (hnew : path ≠ newPath) : (FileTree.rename tree oldPath newPath).get path = tree.get path := by
  unfold FileTree.rename
  cases tree.get oldPath with
  | none => rfl
  | some hash =>
    dsimp only
    rw [SortedMap.get_insert, if_neg hnew, SortedMap.get_erase, if_neg hold]

theorem get_applySingleOp_of_notMem {change : FileChange H} {path : String}
    (h : path ∉ changePaths change) (tree : FileTree H) :
    (applySingleOp tree change).get path = tree.get path := by
  rw [changePaths, List.mem_cons, not_or] at h
  obtain ⟨hpath, hmove⟩ := h
  by_cases hop : change.op = .move
  · rw [if_pos hop] at hmove
    unfold applySingleOp
    rw [hop]
    dsimp only
    cases hname : textUtf8 change.payload with
    | none => rfl
    | some newPath =>
      rw [hname] at hmove
      apply get_rename_of_ne hpath
      intro heq
      exact hmove (List.mem_singleton.mpr heq)
  · rw [get_applySingleOp hop, entryAfter, if_neg hpath]

theorem get_foldl_of_notMem {changes : List (FileChange H)} {path : String}
    (h : ∀ c ∈ changes, path ∉ changePaths c) (tree : FileTree H) :
    (changes.foldl applySingleOp tree).get path = tree.get path := by
  induction changes generalizing tree with
  | nil => rfl
  | cons c changes ih =>
    have hrest := ih (fun d hd => h d (List.mem_cons_of_mem _ hd)) (applySingleOp tree c)
    rw [List.foldl_cons, hrest, get_applySingleOp_of_notMem (h c (List.mem_cons_self ..))]

/-! ### Deletions -/

omit [Hashing H] in
/-- Where a path is only modified or deleted, a missing entry stays missing. -/
theorem foldl_entryAfter_none {changes : List (FileChange H)} {path : String}
    (h : ∀ c ∈ changes, c.path = path → c.op = .modify ∨ c.op = .delete) :
    changes.foldl (entryAfter path) none = none := by
  induction changes with
  | nil => rfl
  | cons c changes ih =>
    have hfirst : entryAfter path none c = none := by
      unfold entryAfter
      split
      · rename_i hpath
        rcases h c (List.mem_cons_self ..) hpath.symm with hop | hop
        · rw [hop]
          rfl
        · rw [hop]
          rfl
      · rfl
    rw [List.foldl_cons, hfirst]
    exact ih fun d hd => h d (List.mem_cons_of_mem _ hd)

omit [Hashing H] in
/-- A path that is deleted and otherwise only modified or deleted is gone. -/
theorem foldl_entryAfter_deleted {changes : List (FileChange H)} {path : String}
    (h : ∀ c ∈ changes, c.path = path → c.op = .modify ∨ c.op = .delete)
    (hdelete : ∃ c ∈ changes, c.path = path ∧ c.op = .delete) (entry : Option H) :
    changes.foldl (entryAfter path) entry = none := by
  induction changes generalizing entry with
  | nil =>
    obtain ⟨c, hc, -⟩ := hdelete
    cases hc
  | cons c changes ih =>
    rw [List.foldl_cons]
    have hrest := fun d hd => h d (List.mem_cons_of_mem c hd)
    obtain ⟨d, hd, hpath, hop⟩ := hdelete
    rcases List.mem_cons.mp hd with rfl | hd
    · have hgone : entryAfter path entry d = none := by
        rw [entryAfter, if_pos hpath.symm, hop]
        rfl
      rw [hgone]
      exact foldl_entryAfter_none hrest
    · exact ih hrest ⟨d, hd, hpath, hop⟩ _

omit [Hashing H] in
/-- An entry that is only modified, and always to one hash. -/
theorem foldl_entryAfter_modified {changes : List (FileChange H)} {path : String} {hash : H}
    (h : ∀ c ∈ changes, c.path = path → c.op = .modify ∧ c.payload = .hex hash) {old : H}
    (hold : old = hash ∨ ∃ c ∈ changes, c.path = path) :
    changes.foldl (entryAfter path) (some old) = some hash := by
  induction changes generalizing old with
  | nil =>
    rcases hold with rfl | ⟨c, hc, -⟩
    · rfl
    · cases hc
  | cons c changes ih =>
    have hrest := fun d hd => h d (List.mem_cons_of_mem c hd)
    rw [List.foldl_cons]
    by_cases hpath : c.path = path
    · obtain ⟨hop, hpayload⟩ := h c (List.mem_cons_self ..) hpath
      have hfirst : entryAfter path (some old) c = some hash := by
        rw [entryAfter, if_pos hpath.symm, hop, hpayload]
        rfl
      rw [hfirst]
      exact ih hrest (.inl rfl)
    · rw [entryAfter, if_neg (Ne.symm hpath)]
      apply ih hrest
      apply hold.imp_right
      rintro ⟨d, hd, hdpath⟩
      rcases List.mem_cons.mp hd with rfl | hd
      · exact absurd hdpath hpath
      · exact ⟨d, hd, hdpath⟩

end Suture.Engine
