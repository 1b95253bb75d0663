import Suture.Engine.Commuting
import Suture.Foundation.StableSort

/-!
# Batches and their changes one by one

A batch makes its changes in the order of their paths. Made one by one in another order, they
come to the same unless a move changes places with a change that is in its way.
-/

namespace Suture.Engine
set_option autoImplicit false
open Common Foundation Patches Repo
variable {H : Type} [Hashing H]

section One
variable (fromSlice : Text H → Option (List (FileChange H)))

/-- The bytes of a change as the payload of a patch. `fromSlice` reads a list of changes. -/
def changePayload (change : FileChange H) : Payload H :=
  match change.op with
  | .batch =>
    match fromSlice change.payload with
    | some fileChanges => .changes fileChanges
    | none => .text change.payload
  | _ => .text change.payload

/-- A patch of one change. -/
def changePatch (parentIds : List H) (author message : String) (timestamp : Nat)
    (change : FileChange H) : Patch H :=
  .new change.op (.ofList [change.path]) (some change.path) (changePayload fromSlice change)
    parentIds author message timestamp

/-- A move can be read, and a batch holds no changes of its own. -/
structure Standalone (change : FileChange H) : Prop where
  move : change.op = .move → textUtf8 change.payload ≠ none
  batch : change.op = .batch → fromSlice change.payload = none

end One

def inPathOrder (changes : List (FileChange H)) : List (FileChange H) :=
  changes.insertionSort fun a b => a.path ≤ b.path

/-- No edit of one change is in the way of a move of the other. -/
def ChangesCompatible (c d : FileChange H) : Prop :=
  ∀ e ∈ changeEdits c, ∀ e' ∈ changeEdits d, e.Independent e'

instance [DecidableEq H] (c d : FileChange H) : Decidable (ChangesCompatible c d) :=
  inferInstanceAs (Decidable (∀ e ∈ changeEdits c, ∀ e' ∈ changeEdits d, e.Independent e'))

/-! ### One by one -/

section One
variable {fromSlice : Text H → Option (List (FileChange H))} {parentIds : List H}
  {author message : String} {timestamp : Nat} {changes : List (FileChange H)}

theorem patchEdits_changePatch {c : FileChange H} (h : Standalone fromSlice c) :
    patchEdits (changePatch fromSlice parentIds author message timestamp c) =
      .ok (changeEdits c) := by
  obtain ⟨op, path, payload⟩ := c
  cases op with
  | batch =>
    have hread : fromSlice payload = none := h.batch rfl
    simp [patchEdits, changePatch, Patch.new, changePayload, hread, Patch.fileChanges, changeEdits,
      contentEdits]
  | move =>
    obtain ⟨newPath, hname⟩ := Option.ne_none_iff_exists'.mp (h.move rfl)
    have hname : textUtf8 payload = some newPath := hname
    simp [patchEdits, changePatch, Patch.new, changePayload, targetEdits, payloadUtf8, changeEdits,
      hname]
  | create | modify | delete | metadata | merge | identity => rfl

theorem chainEdits_changePatch (h : ∀ c ∈ changes, Standalone fromSlice c) :
    chainEdits (changes.map (changePatch fromSlice parentIds author message timestamp)) =
      .ok (changes.flatMap changeEdits) := by
  induction changes with
  | nil => rfl
  | cons c changes ih =>
    rw [List.map_cons, chainEdits_cons, patchEdits_changePatch (h c (List.mem_cons_self ..)),
      ih fun d hd => h d (List.mem_cons_of_mem _ hd), List.flatMap_cons]
    rfl

theorem applied_one_by_one (h : ∀ c ∈ changes, Standalone fromSlice c) (tree : FileTree H) :
    applyPatchChainMut tree
        (changes.map (changePatch fromSlice parentIds author message timestamp)) =
      .ok (changes.foldl applySingleOp tree) := by
  apply map_get_inj.mp
  rw [applyPatchChainMut_map_get, chainEdits_changePatch h]
  exact congrArg Except.ok (get_foldl_applySingleOp_eq_runAll changes tree).symm

/-- One by one, changes fail when a move cannot be read. -/
theorem fails_one_by_one {c : FileChange H} (hc : c ∈ changes) (hop : c.op = .move)
    (hname : textUtf8 c.payload = none) (tree : FileTree H) :
    ∃ e, applyPatchChainMut tree
      (changes.map (changePatch fromSlice parentIds author message timestamp)) = .error e := by
  obtain ⟨op, path, payload⟩ := c
  obtain rfl : op = .move := hop
  have hname : textUtf8 payload = none := hname
  have hedits : patchEdits (changePatch fromSlice parentIds author message timestamp
      ⟨.move, path, payload⟩) = .error .invalidMovePayload := by
    simp [patchEdits, changePatch, Patch.new, changePayload, targetEdits, payloadUtf8, hname]
  obtain ⟨e, he⟩ := chainEdits_of_error hedits (List.mem_map_of_mem hc)
  refine ⟨e, map_get_inj.mp ?_⟩
  rw [applyPatchChainMut_map_get, he]
  rfl

end One

/-! ### The batch -/

theorem applyPatch_newBatch (changes : List (FileChange H)) (parentIds : List H)
    (author message : String) (timestamp : Nat) (tree : FileTree H) :
    applyPatch tree (Patch.newBatch changes parentIds author message timestamp) =
      .ok ((inPathOrder changes).foldl applySingleOp tree) := by
  rw [applyPatch_eq rfl, patched, (Patch.newBatch_isBatchOf ..).fileChanges]
  rfl

theorem applySingleOp_comm {c d : FileChange H} (hpath : c.path ≠ d.path)
    (h : ChangesCompatible c d) (tree : FileTree H) :
    applySingleOp (applySingleOp tree c) d = applySingleOp (applySingleOp tree d) c := by
  apply SortedMap.ext
  intro path
  rw [get_applySingleOp_eq_runAll, get_applySingleOp_eq_runAll, get_applySingleOp_eq_runAll,
    get_applySingleOp_eq_runAll, KeyEdit.runAll_comm _ h]
  intro e he e' he'
  rw [key_of_mem_changeEdits he, key_of_mem_changeEdits he']
  exact hpath

theorem changeEdits_plain (c : FileChange H) : KeyEdit.Plain (changeEdits c) := by
  apply KeyEdit.plain_of_length_le
  obtain ⟨op, path, payload⟩ := c
  cases op with
  | move => cases hname : textUtf8 payload <;> simp [changeEdits, hname]
  | create | modify | delete | metadata | merge | identity | batch =>
    simp only [changeEdits]
    exact length_contentEdits ..

/-- Changes of two paths can be made in either order only if neither is in the way of the other. -/
theorem compatible_iff [Nontrivial H] {c d : FileChange H} (hpath : c.path ≠ d.path) :
    ChangesCompatible c d ↔ ∀ tree : FileTree H,
      applySingleOp (applySingleOp tree c) d = applySingleOp (applySingleOp tree d) c := by
  refine ⟨applySingleOp_comm hpath, fun h e he e' he' => ?_⟩
  apply KeyEdit.independent_of_runAll_comm (changeEdits_plain c) (changeEdits_plain d) _ _ he he'
  · intro e he e' he'
    rw [key_of_mem_changeEdits he, key_of_mem_changeEdits he']
    exact hpath
  · intro there f
    have htree := congrArg SortedMap.get (h (listedTree there f))
    rwa [get_applySingleOp_eq_runAll, get_applySingleOp_eq_runAll, get_applySingleOp_eq_runAll,
      get_applySingleOp_eq_runAll, get_listedTree] at htree

/-- Sorting does no harm where no two changes that it lets change places are in the way of each
other. -/
theorem foldl_inPathOrder {changes : List (FileChange H)}
    (h : changes.Pairwise fun c d => d.path < c.path → ChangesCompatible c d) (tree : FileTree H) :
    (inPathOrder changes).foldl applySingleOp tree = changes.foldl applySingleOp tree := by
  apply foldl_insertionSort
  apply h.imp
  intro c d hcd hle
  have hlt : d.path < c.path := lt_of_not_ge hle
  exact applySingleOp_comm hlt.ne' (hcd hlt)

/-- A batch is its changes one by one in path order. In the given order they do the same to every
tree when both orders lead every path to the same choice of old entries and values, as they do
when no change is in the way of one that it changes places with. -/
theorem batch_one_by_one [Nontrivial H] (fromSlice : Text H → Option (List (FileChange H)))
    (changes : List (FileChange H)) (parentIds : List H) (author message : String) (timestamp : Nat)
    (h : ∀ c ∈ changes, Standalone fromSlice c) :
    (∀ tree, applyPatch tree (.newBatch changes parentIds author message timestamp) =
        applyPatchChainMut tree ((inPathOrder changes).map
          (changePatch fromSlice parentIds author message timestamp))) ∧
      ((∀ tree, applyPatch tree (.newBatch changes parentIds author message timestamp) =
          applyPatchChainMut tree
            (changes.map (changePatch fromSlice parentIds author message timestamp))) ↔
        ∀ path, (Route.ofEdits ((inPathOrder changes).flatMap changeEdits) path).Same
          (Route.ofEdits (changes.flatMap changeEdits) path)) ∧
      ((changes.Pairwise fun c d => d.path < c.path → ChangesCompatible c d) →
        ∀ tree, applyPatch tree (.newBatch changes parentIds author message timestamp) =
          applyPatchChainMut tree
            (changes.map (changePatch fromSlice parentIds author message timestamp))) := by
  have hsorted : ∀ c ∈ inPathOrder changes, Standalone fromSlice c := fun c hc =>
    h c ((List.mem_insertionSort _).mp hc)
  refine ⟨fun tree => ?_, ?_, fun hpairs tree => ?_⟩
  · rw [applyPatch_newBatch, applied_one_by_one hsorted]
  · have hagree : EditsAgree (.ok ((inPathOrder changes).flatMap changeEdits))
        (.ok (changes.flatMap changeEdits)) ↔ _ := editsAgree_iff
    refine Iff.trans (forall_congr' fun tree => ?_) hagree.symm
    rw [applyPatch_newBatch, applied_one_by_one h, ← map_get_inj]
    simp only [Except.map, get_foldl_applySingleOp_eq_runAll]
  · rw [applyPatch_newBatch, applied_one_by_one h, foldl_inPathOrder hpairs]

/-- The moved file is written to before the move in the listed order and in path order. -/
def writeThenMove : List (FileChange Hash) :=
  [⟨.move, "c", .utf8 "d"⟩, ⟨.create, "b", .hex 5⟩, ⟨.modify, "b", .hex 6⟩,
    ⟨.move, "b", .utf8 "e"⟩]

theorem batch_one_by_one_example :
    let tree : FileTree Hash := listedTree ["b", "c"] fun _ => 5
    applyPatch tree (.newBatch writeThenMove [] "ann" "" 0) = applyPatchChainMut tree
      (writeThenMove.map (changePatch (fun _ => none) [] "ann" "" 0)) := by
  refine (batch_one_by_one (fun _ => none) writeThenMove [] "ann" "" 0 ?_).2.2 ?_ _
  · intro c hc
    exact ⟨by revert c; decide, fun _ => rfl⟩
  · decide

/-- A file moved to where another was deleted is deleted by the batch. -/
def deleteThenMove : List (FileChange Hash) := [⟨.delete, "b", .empty⟩, ⟨.move, "a", .utf8 "b"⟩]

theorem batch_reorders_move : ¬ ∀ (fromSlice : Text Hash → Option (List (FileChange Hash)))
    (tree : FileTree Hash) (changes : List (FileChange Hash)),
    applyPatch tree (.newBatch changes [] "ann" "" 0) = applyPatchChainMut tree
      (changes.map (changePatch fromSlice [] "ann" "" 0)) := by
  intro h
  exact absurd (h (fun _ => none) (listedTree ["a"] fun _ => 1) deleteThenMove) (by decide)

end Suture.Engine
