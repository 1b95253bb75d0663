import Suture.Engine.Tree
import Suture.Foundation.Routes

/-!
# What patches do to a tree, as edits

The edits of a patch do not depend on the tree that it is applied to. So what a chain of patches
makes of every tree can be read off its edits, path by path.
-/

namespace Suture.Engine
set_option autoImplicit false
open Foundation Patches
variable {H : Type}

/-- Create and modify do nothing without a hash. -/
def contentEdits (op : OperationType) (path : String) (hash : Option H) :
    List (KeyEdit String H) :=
  match op with
  | .create => (hash.map (.create path)).toList
  | .modify => (hash.map (.modify path)).toList
  | .delete => [.delete path]
  | .move | .metadata | .merge | .identity | .batch => []

section Patch
variable [Hashing H]

def changeEdits (change : FileChange H) : List (KeyEdit String H) :=
  match change.op with
  | .move => ((textUtf8 change.payload).map (KeyEdit.rename change.path)).toList
  | op => contentEdits op change.path (resolveHexToHash change.payload)

def targetEdits (patch : Patch H) (path : String) : Except ApplyError (List (KeyEdit String H)) :=
  match patch.operationType with
  | .move =>
    match payloadUtf8 patch.payload with
    | some newPath => .ok [.rename path newPath]
    | none => .error .invalidMovePayload
  | op => .ok (contentEdits op path (resolvePayloadToHash patch))

def patchEdits (patch : Patch H) : Except ApplyError (List (KeyEdit String H)) :=
  if patch.operationType = .batch then .ok ((patch.fileChanges.getD []).flatMap changeEdits)
  else
    match patch.targetPath with
    | none => .ok []
    | some path => targetEdits patch path

def chainEdits (patches : List (Patch H)) : Except ApplyError (List (KeyEdit String H)) :=
  (patches.mapM patchEdits).map List.flatten

def applyPatchChainMut (tree : FileTree H) (patches : List (Patch H)) :
    Except ApplyError (FileTree H) := patches.foldlM applyPatch tree

/-- Both fail, or every path comes to the same choice of old entries and values. -/
def EditsAgree : Except ApplyError (List (KeyEdit String H)) →
    Except ApplyError (List (KeyEdit String H)) → Prop
  | .ok edits, .ok edits' =>
    ∀ path, (Route.ofEdits edits path).Same (Route.ofEdits edits' path)
  | .error _, .error _ => True
  | _, _ => False

end Patch

/-! ### Trees as maps of paths -/

theorem get_rename (tree : FileTree H) (oldPath newPath : String) :
    (FileTree.rename tree oldPath newPath).get = KeyEdit.run tree.get (.rename oldPath newPath) := by
  funext path
  cases hget : tree.get oldPath with
  | none => simp [FileTree.rename, KeyEdit.run, hget]
  | some hash => simp [FileTree.rename, KeyEdit.run, hget, Function.update_apply]

theorem get_applyContentOp_eq_runAll (tree : FileTree H) (op : OperationType) (p : String)
    (hash : Option H) :
    (applyContentOp tree op p hash).get = KeyEdit.runAll tree.get (contentEdits op p hash) := by
  funext path
  rw [get_applyContentOp]
  by_cases hp : path = p
  · subst hp
    rw [if_pos rfl]
    cases op with
    | create | modify =>
      cases hash <;> cases hget : tree.get path <;>
        simp [changedEntry, contentEdits, KeyEdit.runAll, KeyEdit.run, hget]
    | delete => simp [changedEntry, contentEdits, KeyEdit.runAll, KeyEdit.run]
    | move | metadata | merge | identity | batch => rfl
  · rw [if_neg hp]
    cases op with
    | create | modify =>
      cases hash <;> simp [contentEdits, KeyEdit.runAll, KeyEdit.run, hp]
    | delete => simp [contentEdits, KeyEdit.runAll, KeyEdit.run, hp]
    | move | metadata | merge | identity | batch => rfl

/-- A tree with entries for the listed paths alone. -/
def listedTree (there : List String) (f : String → H) : FileTree H :=
  there.foldr (fun path tree => tree.insert path (f path)) .empty

theorem get_listedTree (there : List String) (f : String → H) : (listedTree there f).get = listed there f := by
  funext path
  induction there with
  | nil => rfl
  | cons p there ih =>
    rw [listedTree, List.foldr_cons, SortedMap.get_insert, ← listedTree, ih]
    by_cases hp : path = p
    · simp [listed, hp]
    · simp [listed, hp]

section Apply
variable [Hashing H]

theorem get_applySingleOp_eq_runAll (tree : FileTree H) (change : FileChange H) :
    (applySingleOp tree change).get = KeyEdit.runAll tree.get (changeEdits change) := by
  obtain ⟨op, path, payload⟩ := change
  cases op with
  | move =>
    unfold applySingleOp changeEdits
    dsimp only
    cases textUtf8 payload with
    | none => rfl
    | some newPath => exact get_rename ..
  | create | modify | delete | metadata | merge | identity | batch =>
    exact get_applyContentOp_eq_runAll ..

theorem get_foldl_applySingleOp_eq_runAll (changes : List (FileChange H)) (tree : FileTree H) :
    (changes.foldl applySingleOp tree).get =
      KeyEdit.runAll tree.get (changes.flatMap changeEdits) := by
  induction changes generalizing tree with
  | nil => rfl
  | cons c changes ih =>
    rw [List.foldl_cons, ih, get_applySingleOp_eq_runAll, List.flatMap_cons, KeyEdit.runAll_append]

theorem applySingleOpWithResolve_map_get (tree : FileTree H) (patch : Patch H) (path : String) :
    (applySingleOpWithResolve tree patch path).map SortedMap.get =
      (targetEdits patch path).map (KeyEdit.runAll tree.get) := by
  unfold applySingleOpWithResolve targetEdits
  cases hop : patch.operationType with
  | move =>
    dsimp only
    cases payloadUtf8 patch.payload with
    | none => rfl
    | some newPath => exact congrArg Except.ok (get_rename ..)
  | create | modify | delete | metadata | merge | identity | batch =>
    exact congrArg Except.ok (get_applyContentOp_eq_runAll ..)

theorem targetEdits_of_skipped {patch : Patch H}
    (h : (patch.isIdentity || patch.operationType = .merge) = true) (path : String) :
    targetEdits patch path = .ok [] := by
  unfold targetEdits
  rcases Bool.or_eq_true_iff.mp h with hidentity | hmerge
  · have hop : patch.operationType = .identity := by
      simp only [Patch.isIdentity, Bool.and_eq_true, decide_eq_true_eq] at hidentity
      exact hidentity.1
    simp [hop, contentEdits]
  · simp [of_decide_eq_true hmerge, contentEdits]

/-- A patch makes its edits. -/
theorem applyPatch_map_get (tree : FileTree H) (patch : Patch H) :
    (applyPatch tree patch).map SortedMap.get =
      (patchEdits patch).map (KeyEdit.runAll tree.get) := by
  unfold applyPatch patchEdits
  by_cases hbatch : patch.operationType = .batch
  · rw [if_pos hbatch, if_pos hbatch]
    cases patch.fileChanges with
    | none => rfl
    | some changes => exact congrArg Except.ok (get_foldl_applySingleOp_eq_runAll ..)
  · rw [if_neg hbatch, if_neg hbatch]
    cases patch.targetPath with
    | none => split <;> rfl
    | some path =>
      dsimp only
      split
      · rename_i hskip
        rw [targetEdits_of_skipped hskip]
        rfl
      · exact applySingleOpWithResolve_map_get ..

theorem chainEdits_cons (patch : Patch H) (patches : List (Patch H)) :
    chainEdits (patch :: patches) = patchEdits patch >>= fun edits =>
      (chainEdits patches).map (edits ++ ·) := by
  unfold chainEdits
  rw [List.mapM_cons]
  cases patchEdits patch with
  | error _ => rfl
  | ok edits =>
    cases patches.mapM patchEdits with
    | error _ => rfl
    | ok _ => rfl

theorem chainEdits_of_error {patch : Patch H} {e : ApplyError} (h : patchEdits patch = .error e)
    {patches : List (Patch H)} (hmem : patch ∈ patches) : ∃ e', chainEdits patches = .error e' := by
  induction patches with
  | nil => cases hmem
  | cons p patches ih =>
    rw [chainEdits_cons]
    cases hp : patchEdits p with
    | error e' => exact ⟨e', rfl⟩
    | ok edits =>
      rcases List.mem_cons.mp hmem with rfl | hmem
      · rw [h] at hp
        cases hp
      · obtain ⟨e', hrest⟩ := ih hmem
        exact ⟨e', by rw [hrest]; rfl⟩

theorem applyPatchChainMut_map_get (tree : FileTree H) (patches : List (Patch H)) :
    (applyPatchChainMut tree patches).map SortedMap.get =
      (chainEdits patches).map (KeyEdit.runAll tree.get) := by
  induction patches generalizing tree with
  | nil => rfl
  | cons p patches ih =>
    have hpatch := applyPatch_map_get tree p
    rw [chainEdits_cons, applyPatchChainMut, List.foldlM_cons]
    cases happly : applyPatch tree p with
    | error _ =>
      cases hedits : patchEdits p with
      | error _ =>
        rw [happly, hedits] at hpatch
        exact congrArg Except.error (Except.error.inj hpatch)
      | ok _ =>
        rw [happly, hedits] at hpatch
        cases hpatch
    | ok tree' =>
      cases hedits : patchEdits p with
      | error _ =>
        rw [happly, hedits] at hpatch
        cases hpatch
      | ok edits =>
        rw [happly, hedits] at hpatch
        refine (ih tree').trans ?_
        rw [show tree'.get = KeyEdit.runAll tree.get edits from Except.ok.inj hpatch]
        cases chainEdits patches with
        | error _ => rfl
        | ok rest => exact congrArg Except.ok (KeyEdit.runAll_append ..).symm

omit [Hashing H] in
theorem map_get_inj {r r' : Except ApplyError (FileTree H)} :
    r.map SortedMap.get = r'.map SortedMap.get ↔ r = r' := by
  refine ⟨fun h => ?_, fun h => by rw [h]⟩
  cases r with
  | error e =>
    cases r' with
    | error e' => exact congrArg Except.error (Except.error.inj h)
    | ok tree' => cases h
  | ok tree =>
    cases r' with
    | error e' => cases h
    | ok tree' => exact congrArg Except.ok (SortedMap.ext (congrFun (Except.ok.inj h)))

omit [Hashing H] in
theorem editsAgree_iff [Nontrivial H] {r r' : Except ApplyError (List (KeyEdit String H))} :
    EditsAgree r r' ↔ ∀ tree : FileTree H,
      r.map (KeyEdit.runAll tree.get) = r'.map (KeyEdit.runAll tree.get) := by
  cases r with
  | error e =>
    cases r' with
    | error e' => exact ⟨fun _ _ => rfl, fun _ => trivial⟩
    | ok edits' => exact ⟨nofun, fun h => nomatch h .empty⟩
  | ok edits =>
    cases r' with
    | error e' => exact ⟨nofun, fun h => nomatch h .empty⟩
    | ok edits' =>
      constructor
      · intro h tree
        refine congrArg Except.ok (funext fun path => ?_)
        rw [Route.runAll_eq_eval, Route.runAll_eq_eval]
        exact (h path).eval_eq _
      · intro h path
        refine Route.same_of_eval_eq fun there f => ?_
        rw [← Route.runAll_eq_eval, ← Route.runAll_eq_eval, ← get_listedTree]
        exact congrFun (Except.ok.inj (h (listedTree there f))) path

/-- What the edits of two chains come to decides whether they do the same to every tree. -/
theorem applyPatchChainMut_eq_iff [Nontrivial H] {patches patches' : List (Patch H)} :
    (∀ tree, applyPatchChainMut tree patches = applyPatchChainMut tree patches') ↔
      EditsAgree (chainEdits patches) (chainEdits patches') := by
  rw [editsAgree_iff]
  refine forall_congr' fun tree => ?_
  rw [← map_get_inj, applyPatchChainMut_map_get, applyPatchChainMut_map_get]

/-- A patch of one path. -/
def single (operationType : OperationType) (path : String) (payload : Text H) (parentIds : List H) :
    Patch H :=
  .new operationType (.ofList [path]) (some path) (.text payload) parentIds "ann" "" 0

end Apply
end Suture.Engine
