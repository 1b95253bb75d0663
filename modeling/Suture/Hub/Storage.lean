import Suture.Foundation.SortedMap
import Suture.Foundation.Worklist
import Suture.Patches.Types

/-!
# The hub

What a hub stores of one repository, the ancestry check, and how it handles a push and a
pull. A push holds the lock of its repository from the first row to the last.
-/

namespace Suture.Hub
set_option autoImplicit false
open Foundation Patches

variable {H : Type} [LinearOrder H]

/-! ### The graph of stored patches -/

def parentIdsOf (patches : SortedMap H (Patch H)) (id : H) : List H :=
  ((patches.get id).map Patch.parentIds).getD []

/-- The parents that the rows list, stored or not. -/
def graph (patches : SortedMap H (Patch H)) : Successors H where
  next := parentIdsOf patches
  targets := patches.entries.flatMap fun e => e.2.parentIds
  next_mem := by
    intro id p hp
    unfold parentIdsOf at hp
    cases hget : patches.get id with
    | none =>
      rw [hget] at hp
      cases hp
    | some patch =>
      rw [hget] at hp
      exact List.mem_flatMap.mpr ⟨(id, patch), SortedMap.mem_entries.mpr hget, hp⟩

def Reaches (patches : SortedMap H (Patch H)) : H → H → Prop := (graph patches).Reaches

theorem length_insertElem {a : H} {l : List H} (h : a ∉ l) :
    (SortedSet.insertElem a l).length = l.length + 1 := by
  induction l with
  | nil => rfl
  | cons b rest ih =>
    obtain ⟨hne, hrest⟩ := not_or.mp (mt List.mem_cons.mpr h)
    rw [SortedSet.insertElem]
    split_ifs
    · rfl
    · rw [List.length_cons, ih hrest, List.length_cons]

theorem length_foldl_insert {l : List H} (hnodup : l.Nodup) {s : SortedSet H}
    (hnew : ∀ a ∈ l, a ∉ s) :
    (l.foldl (fun s a => s.insert a) s).elems.length = s.elems.length + l.length := by
  induction l generalizing s with
  | nil => rfl
  | cons a l ih =>
    obtain ⟨hal, hl⟩ := List.nodup_cons.mp hnodup
    rw [List.foldl_cons, ih hl fun b hb hmem => ?_]
    · rw [SortedSet.insert, length_insertElem (hnew a (List.mem_cons_self ..)), List.length_cons]
      omega
    · rcases SortedSet.mem_insert.mp hmem with rfl | hmem
      · exact hal hb
      · exact hnew b (List.mem_cons_of_mem _ hb) hmem

/-- A search in batches; it gives up when more than 100 000 patches have been visited. -/
def isAncestorBatched (patches : SortedMap H (Patch H)) (ancestor : H) (visited : SortedSet H)
    (frontier : List H) : Bool :=
  let fresh := (SortedSet.ofList frontier).elems.filter fun id => decide (id ∉ visited)
  if _hfresh : fresh = [] then false
  else
    let parents := fresh.flatMap (parentIdsOf patches)
    let visited' := fresh.foldl (fun s a => s.insert a) visited
    if ancestor ∈ parents then true
    else if _hlimit : visited'.elems.length > 100000 then false
    else isAncestorBatched patches ancestor visited' (parents.filter fun id => decide (id ∉ visited'))
termination_by 100001 - visited.elems.length
decreasing_by
  have hnodup : fresh.Nodup := (SortedSet.nodup _).filter _
  have hlength := length_foldl_insert hnodup (s := visited) fun a ha =>
    of_decide_eq_true (List.mem_filter.mp ha).2
  have hpos := List.length_pos_of_ne_nil _hfresh
  simp only [visited', fresh] at *
  omega

def isAncestor (patches : SortedMap H (Patch H)) (ancestorId descendantId : H) : Bool :=
  ancestorId = descendantId || isAncestorBatched patches ancestorId .empty [descendantId]

/-- The search only goes along parents. -/
theorem reaches_of_isAncestorBatched {patches : SortedMap H (Patch H)} {ancestor : H}
    {visited : SortedSet H} {frontier : List H}
    (h : isAncestorBatched patches ancestor visited frontier = true) :
    ∃ id ∈ frontier, Reaches patches id ancestor := by
  fun_induction isAncestorBatched patches ancestor visited frontier with
  | case1 => cases h
  | case2 visited frontier fresh hfresh parents hfound =>
    obtain ⟨id, hid, hparent⟩ := List.mem_flatMap.mp hfound
    exact ⟨id, SortedSet.mem_ofList.mp (List.mem_filter.mp hid).1, .single hparent⟩
  | case3 => cases h
  | case4 visited frontier fresh hfresh parents visited' hfound hlimit ih =>
    obtain ⟨p, hp, hreach⟩ := ih h
    obtain ⟨id, hid, hparent⟩ := List.mem_flatMap.mp (List.mem_filter.mp hp).1
    exact ⟨id, SortedSet.mem_ofList.mp (List.mem_filter.mp hid).1, .head hparent hreach⟩

theorem reaches_of_isAncestor {patches : SortedMap H (Patch H)} {ancestorId descendantId : H}
    (h : isAncestor patches ancestorId descendantId = true) :
    ancestorId = descendantId ∨ Reaches patches descendantId ancestorId := by
  rcases Bool.or_eq_true _ _ ▸ h with heq | hsearch
  · exact .inl (of_decide_eq_true heq)
  · obtain ⟨id, hid, hreach⟩ := reaches_of_isAncestorBatched hsearch
    rw [List.mem_singleton.mp hid] at hreach
    exact .inr hreach

/-! ### Pushes -/

structure BranchProto (H : Type) where
  name : String
  targetId : H
deriving DecidableEq, Repr

structure PushRequest (H : Type) where
  patches : List (Patch H)
  branches : List (BranchProto H)
  knownBranches : Option (List (BranchProto H))
  force : Bool
deriving DecidableEq

inductive PushError where
  | nonFastForward (branch : String)
  | protectedBranch (branch : String)
deriving DecidableEq, Repr

def PushError.text : PushError → String
  | .nonFastForward branch =>
    "branch '" ++ branch ++ "' rejected: non-fast-forward push (use --force to override)"
  | .protectedBranch branch =>
    "branch '" ++ branch ++ "' is protected and can only be updated by its owner"

structure HubStorage (H : Type) [LinearOrder H] where
  patches : SortedMap H (Patch H)
  branches : SortedMap String H
  protectedBranches : List String
deriving DecidableEq

namespace HubStorage

/-- Rows that are there stay; returns the ids that were there. -/
def insertPatches (store : HubStorage H) : List (Patch H) → List H × HubStorage H
  | [] => ([], store)
  | patch :: rest =>
    if store.patches.contains patch.id then
      let (existing, store) := store.insertPatches rest
      (patch.id :: existing, store)
    else { store with patches := store.patches.insert patch.id patch }.insertPatches rest

def setBranch (store : HubStorage H) (name : String) (target : H) : HubStorage H :=
  { store with branches := store.branches.insert name target }

/-- The check is made if the client knows the branch at another target than the pushed one. -/
def isNonFastForward (store : HubStorage H) (req : PushRequest H) (branch : BranchProto H) : Bool :=
  !req.force &&
    match (req.knownBranches.getD []).find? fun kb => kb.name = branch.name with
    | none => false
    | some knownBranch =>
      knownBranch.targetId ≠ branch.targetId &&
        match store.branches.get branch.name with
        | none => false
        | some currentTarget => !isAncestor store.patches currentTarget branch.targetId

/-- All patches of the push are by the author that the branch is named after. -/
def isOwner (req : PushRequest H) (branch : BranchProto H) : Bool :=
  req.patches ≠ [] && req.patches.all fun p => p.author = branch.name

def refusal (store : HubStorage H) (req : PushRequest H) (branch : BranchProto H) :
    Option PushError :=
  if store.isNonFastForward req branch then some (.nonFastForward branch.name)
  else if branch.name ∈ store.protectedBranches ∧ isOwner req branch = false then
    some (.protectedBranch branch.name)
  else none

/-- Sets the branches up to the first that is refused. -/
def pushBranches (req : PushRequest H) (store : HubStorage H) :
    List (BranchProto H) → Except PushError Unit × HubStorage H
  | [] => (.ok (), store)
  | branch :: rest =>
    match store.refusal req branch with
    | some e => (.error e, store)
    | none => pushBranches req (store.setBranch branch.name branch.targetId) rest

/-- Returns the ids of the pushed patches that were there. -/
def handlePush (store : HubStorage H) (req : PushRequest H) :
    Except PushError (List H) × HubStorage H :=
  let (existing, store) := store.insertPatches req.patches
  let (result, store) := pushBranches req store req.branches
  (result.map fun _ => existing, store)

end HubStorage

/-! ### Pulls -/

structure PullRequest (H : Type) where
  knownBranches : List (BranchProto H)
  maxDepth : Option Nat
deriving DecidableEq, Repr

structure PullResponse (H : Type) where
  patches : List (Patch H)
  branches : List (BranchProto H)
deriving DecidableEq

/-- The known targets that are stored, and all below them. -/
def collectAncestors (patches : SortedMap H (Patch H)) (known : List (BranchProto H)) :
    SortedSet H :=
  .ofList ((known.filter fun b => patches.contains b.targetId).flatMap fun b =>
    b.targetId :: ((graph patches).closure b.targetId).elems)

/-- Depth-first, parents before children; a patch is on at most one path at a time. -/
def visitPatch (patches : List (Patch H)) : Nat → List H × List (Patch H) → H →
    List H × List (Patch H)
  | 0, state, _ => state
  | fuel + 1, (visited, order), id =>
    if id ∈ visited then (visited, order)
    else
      match patches.find? fun p => p.id = id with
      | none => (visited, order)
      | some patch =>
        let (visited, order) := patch.parentIds.foldl (visitPatch patches fuel) (id :: visited, order)
        (visited, order ++ [patch])

def topologicalSort (patches : List (Patch H)) : List (Patch H) :=
  ((patches.map Patch.id).foldl (visitPatch patches patches.length) ([], [])).2

/-- Every stored patch that is not below a known branch, in some order. The two searches of
the source start from all stored patches, so they find them all. -/
def collectNewPatches (arrange : List (Patch H) → List (Patch H)) (patches : SortedMap H (Patch H))
    (clientAncestors : SortedSet H) : List (Patch H) :=
  topologicalSort (arrange ((patches.entries.filter fun e => decide (e.1 ∉ clientAncestors)).map
    Prod.snd))

def handlePull (arrange : List (Patch H) → List (Patch H)) (store : HubStorage H)
    (req : PullRequest H) : PullResponse H :=
  let newPatches := collectNewPatches arrange store.patches
    (collectAncestors store.patches req.knownBranches)
  { patches := (req.maxDepth.map fun depth => newPatches.take depth).getD newPatches
    branches := store.branches.entries.map fun e => ⟨e.1, e.2⟩ }

end Suture.Hub
