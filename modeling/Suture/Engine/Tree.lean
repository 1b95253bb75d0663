import Suture.Foundation.SortedMap
import Suture.Patches.Types

/-!
# File trees

A tree maps paths to blob hashes; patches are applied to it one after the other. A
change of a path that does not fit the tree (a second create, a modify of nothing)
leaves the tree as it is.
-/

namespace Suture.Engine
set_option autoImplicit false
open Foundation Patches

abbrev FileTree (H : Type) := SortedMap String H

inductive ApplyError where
  | invalidMovePayload
deriving DecidableEq, Repr

section Apply
variable {H : Type}

def FileTree.rename (tree : FileTree H) (oldPath newPath : String) : FileTree H :=
  match tree.get oldPath with
  | some hash => (tree.erase oldPath).insert newPath hash
  | none => tree

def resolveHexToHash : Text H → Option H
  | .hex hash => some hash
  | _ => none

def resolvePayloadToHash (patch : Patch H) : Option H :=
  match patch.payload with
  | .text t => resolveHexToHash t
  | .changes _ => none

def insertIfResolved (path : String) (hash : Option H) (tree : FileTree H) : FileTree H :=
  match hash with
  | some hash => tree.insert path hash
  | none => tree

variable [Hashing H]

def textUtf8 : Text H → Option String
  | .empty => some ""
  | .hex hash => some (Hashing.toHex hash)
  | .utf8 text => some text
  | .binary _ => none

def payloadUtf8 : Payload H → Option String
  | .text t => textUtf8 t
  | .changes fileChanges => some (Hashing.changesJson fileChanges)

/-- Create, modify and delete of a path; other operations do nothing here. -/
def applyContentOp (tree : FileTree H) (op : OperationType) (path : String) (hash : Option H) :
    FileTree H :=
  match op with
  | .create => if tree.contains path then tree else insertIfResolved path hash tree
  | .modify => if tree.contains path then insertIfResolved path hash tree else tree
  | .delete => tree.erase path
  | .move | .metadata | .merge | .identity | .batch => tree

def applySingleOp (tree : FileTree H) (change : FileChange H) : FileTree H :=
  match change.op with
  | .move =>
    match textUtf8 change.payload with
    | some newPath => FileTree.rename tree change.path newPath
    | none => tree
  | op => applyContentOp tree op change.path (resolveHexToHash change.payload)

def applySingleOpWithResolve (tree : FileTree H) (patch : Patch H) (path : String) :
    Except ApplyError (FileTree H) :=
  match patch.operationType with
  | .move =>
    match payloadUtf8 patch.payload with
    | some newPath => .ok (FileTree.rename tree path newPath)
    | none => .error .invalidMovePayload
  | op => .ok (applyContentOp tree op path (resolvePayloadToHash patch))

def applyPatch (tree : FileTree H) (patch : Patch H) : Except ApplyError (FileTree H) :=
  if patch.operationType = .batch then
    match patch.fileChanges with
    | some changes => .ok (changes.foldl applySingleOp tree)
    | none => .ok tree
  else if patch.isIdentity || patch.operationType = .merge then .ok tree
  else
    match patch.targetPath with
    | none => .ok tree
    | some path => applySingleOpWithResolve tree patch path

def applyPatchChain (patches : List (Patch H)) : Except ApplyError (FileTree H) :=
  patches.foldlM applyPatch .empty

/-! ### Patches without a target path -/

/-- A batch makes its changes; another patch without a target path does nothing. -/
def patched (tree : FileTree H) (patch : Patch H) : FileTree H :=
  match patch.fileChanges with
  | some changes => changes.foldl applySingleOp tree
  | none => tree

theorem applyPatch_eq {patch : Patch H} (h : patch.targetPath = none) (tree : FileTree H) :
    applyPatch tree patch = .ok (patched tree patch) := by
  unfold applyPatch patched
  split
  · cases patch.fileChanges <;> rfl
  · rename_i hop
    rw [Patch.fileChanges, if_neg hop, h]
    split <;> rfl

theorem foldlM_applyPatch_eq {patches : List (Patch H)} (h : ∀ p ∈ patches, p.targetPath = none)
    (tree : FileTree H) : patches.foldlM applyPatch tree = .ok (patches.foldl patched tree) := by
  induction patches generalizing tree with
  | nil => rfl
  | cons p patches ih =>
    rw [List.foldlM_cons, applyPatch_eq (h p (List.mem_cons_self ..))]
    exact ih (fun q hq => h q (List.mem_cons_of_mem _ hq)) _

theorem applyPatchChain_eq {patches : List (Patch H)} (h : ∀ p ∈ patches, p.targetPath = none) :
    applyPatchChain patches = .ok (patches.foldl patched .empty) := foldlM_applyPatch_eq h _

/-! ### One path -/

/-- What an operation other than a move makes of the entry of its path. -/
def changedEntry (op : OperationType) (hash entry : Option H) : Option H :=
  match op with
  | .create => entry.or hash
  | .modify => entry.map fun old => hash.getD old
  | .delete => none
  | .move | .metadata | .merge | .identity | .batch => entry

/-- What a change makes of the entry of a path. -/
def entryAfter (path : String) (entry : Option H) (change : FileChange H) : Option H :=
  if path = change.path then changedEntry change.op (resolveHexToHash change.payload) entry
  else entry

omit [Hashing H] in
/-- A change brings in no hash but its own. -/
theorem entryAfter_eq_some {path : String} {entry : Option H} {change : FileChange H} {hash : H}
    (h : entryAfter path entry change = some hash) :
    entry = some hash ∨ (change.path = path ∧ change.payload = .hex hash) := by
  obtain ⟨op, p, payload⟩ := change
  have hpayload : resolveHexToHash payload = some hash → payload = .hex hash := fun h => by
    cases payload with
    | hex _ => rw [Option.some.inj h]
    | empty | utf8 _ | binary _ => cases h
  rw [entryAfter] at h
  split at h
  · rename_i hpath
    cases op with
    | create =>
      cases entry with
      | none => exact .inr ⟨hpath.symm, hpayload h⟩
      | some old => exact .inl h
    | modify =>
      cases entry with
      | none => cases h
      | some old =>
        cases hres : resolveHexToHash payload with
        | none =>
          rw [changedEntry, hres] at h
          exact .inl h
        | some new =>
          rw [changedEntry, hres] at h
          exact .inr ⟨hpath.symm, hpayload (hres.trans h)⟩
    | delete => cases h
    | move | metadata | merge | identity | batch => exact .inl h
  · exact .inl h

omit [Hashing H] in
theorem foldl_entryAfter_eq_some {path : String} {changes : List (FileChange H)} {entry : Option H}
    {hash : H} (h : changes.foldl (entryAfter path) entry = some hash) :
    entry = some hash ∨ ∃ c ∈ changes, c.path = path ∧ c.payload = .hex hash := by
  induction changes generalizing entry with
  | nil => exact .inl h
  | cons c changes ih =>
    rcases ih h with hstep | ⟨c', hc', hfound⟩
    · exact (entryAfter_eq_some hstep).imp_right fun hfound => ⟨c, List.mem_cons_self .., hfound⟩
    · exact .inr ⟨c', List.mem_cons_of_mem _ hc', hfound⟩

omit [Hashing H] in
theorem get_insertIfResolved (path p : String) (hash : Option H) (tree : FileTree H) :
    (insertIfResolved p hash tree).get path =
      if path = p then hash.or (tree.get path) else tree.get path := by
  cases hash with
  | none => exact (ite_self _).symm
  | some hash => exact SortedMap.get_insert tree p path hash

omit [Hashing H] in
theorem get_applyContentOp (tree : FileTree H) (op : OperationType) (p path : String)
    (hash : Option H) : (applyContentOp tree op p hash).get path =
      if path = p then changedEntry op hash (tree.get path) else tree.get path := by
  by_cases hp : path = p
  · subst hp
    rw [if_pos rfl]
    cases op with
    | create =>
      cases hget : tree.get path <;>
        simp [applyContentOp, changedEntry, SortedMap.contains_eq, hget, get_insertIfResolved]
    | modify =>
      cases hget : tree.get path <;> cases hash <;>
        simp [applyContentOp, changedEntry, SortedMap.contains_eq, hget, get_insertIfResolved]
    | delete => simp [applyContentOp, changedEntry]
    | move | metadata | merge | identity | batch => rfl
  · rw [if_neg hp]
    cases op with
    | create | modify =>
      unfold applyContentOp
      dsimp only
      split
      · simp [get_insertIfResolved, hp]
      · simp [get_insertIfResolved, hp]
    | delete => simp [applyContentOp, hp]
    | move | metadata | merge | identity | batch => rfl

theorem get_applySingleOp {change : FileChange H} (h : change.op ≠ .move) (tree : FileTree H)
    (path : String) :
    (applySingleOp tree change).get path = entryAfter path (tree.get path) change := by
  obtain ⟨op, p, payload⟩ := change
  cases op with
  | move => exact absurd rfl h
  | create | delete | modify | metadata | merge | identity | batch =>
    exact get_applyContentOp tree _ p path _

theorem get_foldl_applySingleOp {changes : List (FileChange H)} (h : ∀ c ∈ changes, c.op ≠ .move)
    (tree : FileTree H) (path : String) :
    (changes.foldl applySingleOp tree).get path =
      changes.foldl (entryAfter path) (tree.get path) := by
  induction changes generalizing tree with
  | nil => rfl
  | cons c changes ih =>
    rw [List.foldl_cons, List.foldl_cons, ih (fun c hc => h c (List.mem_cons_of_mem _ hc)),
      get_applySingleOp (h c (List.mem_cons_self ..))]

omit [Hashing H] in
theorem foldl_entryAfter_of_notMem {changes : List (FileChange H)} {path : String}
    (h : ∀ c ∈ changes, c.path ≠ path) (entry : Option H) :
    changes.foldl (entryAfter path) entry = entry := by
  induction changes with
  | nil => rfl
  | cons c changes ih =>
    rw [List.foldl_cons, entryAfter, if_neg (h c (List.mem_cons_self ..)).symm]
    exact ih fun c hc => h c (List.mem_cons_of_mem _ hc)

omit [Hashing H] in
/-- Of changes of different paths only one matters to a path. -/
theorem foldl_entryAfter_of_mem {changes : List (FileChange H)}
    (hnodup : (changes.map FileChange.path).Nodup) {c : FileChange H} (hc : c ∈ changes)
    (entry : Option H) : changes.foldl (entryAfter c.path) entry =
      changedEntry c.op (resolveHexToHash c.payload) entry := by
  induction changes generalizing entry with
  | nil => cases hc
  | cons head changes ih =>
    rw [List.map_cons, List.nodup_cons] at hnodup
    rw [List.foldl_cons]
    rcases List.mem_cons.mp hc with rfl | hc
    · rw [foldl_entryAfter_of_notMem fun c' hc' heq => hnodup.1 (List.mem_map.mpr ⟨c', hc', heq⟩),
        entryAfter, if_pos rfl]
    · have hne : c.path ≠ head.path := fun heq => hnodup.1 (List.mem_map.mpr ⟨c, hc, heq⟩)
      rw [entryAfter, if_neg hne]
      exact ih hnodup.2 hc entry

end Apply
end Suture.Engine
