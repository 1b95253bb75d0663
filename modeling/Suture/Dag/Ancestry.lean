import Mathlib.Tactic.SplitIfs
import Suture.Dag.Graph
import Suture.Foundation.Run

/-!
# Ancestor sets

What each call does to the graph, and when the cached ancestor sets are the reachable
patches.
-/

namespace Suture.Dag
set_option autoImplicit false
open Foundation Common Patches

/-- What of a node never changes. -/
def DagNode.core {H : Type} (n : DagNode H) : Patch H × List H × Nat :=
  (n.patch, n.parentIds, n.generation)

namespace PatchDag
variable {H : Type} [LinearOrder H] {d d' : PatchDag H} {patch : Patch H} {parentIds : List H}

def view (d : PatchDag H) (id : H) : Option (Patch H × List H × Nat) :=
  (d.getNode id).map DagNode.core

theorem getPatch_eq (d : PatchDag H) (id : H) : d.getPatch id = (d.view id).map (·.1) := by
  rw [getPatch, view, Option.map_map]
  rfl

theorem hasPatch_eq (d : PatchDag H) (id : H) : d.hasPatch id = (d.view id).isSome := by
  rw [hasPatch, view, Option.isSome_map]

theorem parents_eq (d : PatchDag H) (id : H) :
    d.parents id = ((d.view id).map (·.2.1)).getD [] := by
  rw [parents, view, Option.map_map]
  rfl

theorem generation_eq (d : PatchDag H) (id : H) :
    d.generation id = ((d.view id).map (·.2.2)).getD 0 := by
  rw [generation, view, Option.map_map]
  rfl

theorem hasPatch_iff {id : H} : d.hasPatch id = true ↔ ∃ p, d.getPatch id = some p := by
  rw [hasPatch_eq, getPatch_eq, Option.isSome_iff_exists]
  simp

theorem parents_of_unknown {id : H} (h : d.hasPatch id = false) : d.parents id = [] := by
  rw [hasPatch_eq, Option.isSome_eq_false_iff, Option.isNone_iff_eq_none] at h
  rw [parents_eq, h]
  rfl

theorem core_addChild (id : H) (nodes : List (H × DagNode H)) (parentId j : H) :
    (Assoc.get (addChild id nodes parentId) j).map DagNode.core =
      (Assoc.get nodes j).map DagNode.core := by
  unfold addChild
  split
  · rfl
  · rename_i parent hparent
    rw [Assoc.get_insert]
    split
    · rename_i hj
      rw [hj, hparent]
      rfl
    · rfl

theorem core_foldl_addChild (id : H) (parentIds : List H) (nodes : List (H × DagNode H)) (j : H) :
    (Assoc.get (parentIds.foldl (addChild id) nodes) j).map DagNode.core =
      (Assoc.get nodes j).map DagNode.core := by
  induction parentIds generalizing nodes with
  | nil => rfl
  | cons p ps ih => rw [List.foldl_cons, ih, core_addChild]

/-- `d'` is `d` with one more patch. -/
structure Extends (d d' : PatchDag H) (patch : Patch H) (parentIds : List H) : Prop where
  unknown : d.hasPatch patch.id = false
  parents_known : ∀ p ∈ parentIds, d.hasPatch p = true
  view : ∀ j, d'.view j =
    if j = patch.id then some (patch, parentIds, d.newGeneration parentIds) else d.view j
  branches : d'.branches = d.branches
  cache : d'.ancestorCache = d.ancestorCache

/-- Adding a patch is refused, or extends the DAG by it. -/
theorem addPatch_cases (d : PatchDag H) (patch : Patch H) (parentIds : List H) :
    (∃ e, d.addPatch patch parentIds = (.error e, d) ∧
        ¬ (d.hasPatch patch.id = false ∧ ∀ p ∈ parentIds, d.hasPatch p = true)) ∨
      ∃ d', d.addPatch patch parentIds = (.ok patch.id, d') ∧ Extends d d' patch parentIds := by
  unfold addPatch
  split
  · rename_i hdup
    exact .inl ⟨_, rfl, fun h => by rw [hdup] at h; exact absurd h.1 (by simp)⟩
  rename_i hnew
  rw [Bool.not_eq_true] at hnew
  split
  · rename_i p hfind
    have hp := List.find?_some hfind
    rw [Bool.not_eq_true'] at hp
    refine .inl ⟨_, rfl, fun h => ?_⟩
    rw [h.2 p (List.mem_of_find?_eq_some hfind)] at hp
    cases hp
  · rename_i hnone
    rw [List.find?_eq_none] at hnone
    refine .inr ⟨_, rfl, hnew, fun p hp => by simpa using hnone p hp, fun j => ?_, rfl, rfl⟩
    unfold PatchDag.view getNode
    rw [Assoc.get_insert]
    split
    · rfl
    · exact core_foldl_addChild patch.id parentIds d.nodes j

namespace Extends

theorem hasPatch (h : Extends d d' patch parentIds) (j : H) :
    d'.hasPatch j = true ↔ j = patch.id ∨ d.hasPatch j = true := by
  rw [hasPatch_eq, hasPatch_eq, h.view]
  split <;> simp [*]

theorem parents_new (h : Extends d d' patch parentIds) : d'.parents patch.id = parentIds := by
  rw [parents_eq, h.view, if_pos rfl]
  rfl

theorem parents_of_ne (h : Extends d d' patch parentIds) {j : H} (hj : j ≠ patch.id) :
    d'.parents j = d.parents j := by
  rw [parents_eq, parents_eq, h.view, if_neg hj]

theorem generation_new (h : Extends d d' patch parentIds) :
    d'.generation patch.id = d.newGeneration parentIds := by
  rw [generation_eq, h.view, if_pos rfl]
  rfl

theorem generation_of_ne (h : Extends d d' patch parentIds) {j : H} (hj : j ≠ patch.id) :
    d'.generation j = d.generation j := by
  rw [generation_eq, generation_eq, h.view, if_neg hj]

theorem ne_of_known (h : Extends d d' patch parentIds) {j : H} (hj : d.hasPatch j = true) :
    j ≠ patch.id := by
  rintro rfl
  rw [h.unknown] at hj
  cases hj

end Extends

/-! ### The graph -/

def Reaches (d : PatchDag H) : H → H → Prop := d.ancestry.Reaches

/-- Parents are in the DAG, with a smaller generation. -/
def Graded (d : PatchDag H) : Prop :=
  ∀ id, ∀ p ∈ d.parents id, d.hasPatch p = true ∧ d.generation p < d.generation id

theorem Graded.reaches (hd : d.Graded) {x y : H} (h : d.Reaches x y) :
    d.hasPatch y = true ∧ d.generation y < d.generation x := by
  induction h with
  | single h => exact hd _ _ h
  | tail _ h ih => exact ⟨(hd _ _ h).1, (hd _ _ h).2.trans ih.2⟩

theorem Graded.not_reaches_self (hd : d.Graded) (x : H) : ¬ d.Reaches x x := fun h =>
  absurd (hd.reaches h).2 (Nat.lt_irrefl _)

theorem le_foldl_max (l : List Nat) (n : Nat) : n ≤ l.foldl max n ∧ ∀ m ∈ l, m ≤ l.foldl max n := by
  induction l generalizing n with
  | nil => exact ⟨Nat.le_refl _, by simp⟩
  | cons k l ih =>
    obtain ⟨hle, hmem⟩ := ih (max n k)
    rw [List.foldl_cons]
    refine ⟨(Nat.le_max_left n k).trans hle, fun m hm => ?_⟩
    rcases List.mem_cons.mp hm with rfl | hm
    · exact (Nat.le_max_right n m).trans hle
    · exact hmem m hm

theorem lt_newGeneration {p : H} (hp : p ∈ parentIds) : d.generation p < d.newGeneration parentIds := by
  unfold newGeneration
  rw [if_neg (by simpa using List.ne_nil_of_mem hp)]
  exact Nat.lt_succ_of_le ((le_foldl_max _ 0).2 _ (List.mem_map_of_mem hp))

theorem Extends.graded (h : Extends d d' patch parentIds) (hd : d.Graded) : d'.Graded := by
  intro id p hp
  by_cases hid : id = patch.id
  · subst hid
    rw [h.parents_new] at hp
    have hknown := h.parents_known p hp
    refine ⟨(h.hasPatch p).mpr (.inr hknown), ?_⟩
    rw [h.generation_new, h.generation_of_ne (h.ne_of_known hknown)]
    exact lt_newGeneration hp
  · rw [h.parents_of_ne hid] at hp
    obtain ⟨hknown, hlt⟩ := hd id p hp
    refine ⟨(h.hasPatch p).mpr (.inr hknown), ?_⟩
    rwa [h.generation_of_ne hid, h.generation_of_ne (h.ne_of_known hknown)]

theorem reaches_of_unknown {x y : H} (hx : d.hasPatch x = false) : ¬ d.Reaches x y := by
  intro h
  obtain ⟨z, hz, -⟩ := Relation.TransGen.head'_iff.mp h
  have hz : z ∈ d.parents x := hz
  rw [parents_of_unknown hx] at hz
  cases hz

/-! ### Growing -/

/-- The patches that were there are there as they were. -/
def Grows (d d' : PatchDag H) : Prop := ∀ id, d.hasPatch id = true → d'.view id = d.view id

namespace Grows
variable {d'' : PatchDag H}

theorem refl (d : PatchDag H) : Grows d d := fun _ _ => rfl

theorem hasPatch (h : Grows d d') {id : H} (hid : d.hasPatch id = true) : d'.hasPatch id = true := by
  rwa [hasPatch_eq, h id hid, ← hasPatch_eq]

theorem trans (h : Grows d d') (h' : Grows d' d'') : Grows d d'' := fun id hid =>
  (h' id (h.hasPatch hid)).trans (h id hid)

theorem getPatch (h : Grows d d') {id : H} (hid : d.hasPatch id = true) :
    d'.getPatch id = d.getPatch id := by
  rw [getPatch_eq, getPatch_eq, h id hid]

theorem parents (h : Grows d d') {id : H} (hid : d.hasPatch id = true) :
    d'.parents id = d.parents id := by
  rw [parents_eq, parents_eq, h id hid]

theorem generation (h : Grows d d') {id : H} (hid : d.hasPatch id = true) :
    d'.generation id = d.generation id := by
  rw [generation_eq, generation_eq, h id hid]

theorem reaches (h : Grows d d') (hd : d.Graded) {x y : H} (hx : d.hasPatch x = true) :
    d'.Reaches x y ↔ d.Reaches x y := by
  constructor
  · intro hxy
    induction hxy with
    | single hstep =>
      have hstep : _ ∈ d'.parents x := hstep
      rw [h.parents hx] at hstep
      exact .single hstep
    | tail _ hstep ih =>
      have hstep : _ ∈ d'.parents _ := hstep
      rw [h.parents (hd.reaches ih).1] at hstep
      exact ih.tail hstep
  · intro hxy
    induction hxy with
    | single hstep =>
      refine .single ?_
      change _ ∈ d'.parents x
      rw [h.parents hx]
      exact hstep
    | tail hxb hstep ih =>
      refine ih.tail ?_
      change _ ∈ d'.parents _
      rw [h.parents (hd.reaches hxb).1]
      exact hstep

end Grows

theorem Extends.grows (h : Extends d d' patch parentIds) : Grows d d' := fun id hid => by
  rw [h.view, if_neg (h.ne_of_known hid)]

/-- A new patch changes nothing below the others. -/
theorem Extends.reaches_of_ne (h : Extends d d' patch parentIds) (hd : d.Graded) {x y : H}
    (hx : x ≠ patch.id) : d'.Reaches x y ↔ d.Reaches x y := by
  by_cases hknown : d.hasPatch x = true
  · exact h.grows.reaches hd hknown
  · rw [Bool.not_eq_true] at hknown
    have hunknown : d'.hasPatch x = false := by
      rw [← Bool.not_eq_true, h.hasPatch]
      simp [hx, hknown]
    exact iff_of_false (reaches_of_unknown hunknown) (reaches_of_unknown hknown)

/-! ### Queries -/

/-- Only the cache differs. -/
structure SameGraph (d d' : PatchDag H) : Prop where
  nodes : d'.nodes = d.nodes
  branches : d'.branches = d.branches

/-- Every cached set is what its patch reaches. -/
def CacheExact (d : PatchDag H) : Prop :=
  ∀ id cached, Assoc.get d.ancestorCache id = some cached → ∀ p, p ∈ cached ↔ d.Reaches id p

namespace SameGraph

theorem refl (d : PatchDag H) : SameGraph d d := ⟨rfl, rfl⟩

theorem trans {d'' : PatchDag H} (h : SameGraph d d') (h' : SameGraph d' d'') : SameGraph d d'' :=
  ⟨h'.nodes.trans h.nodes, h'.branches.trans h.branches⟩

theorem getNode (h : SameGraph d d') (id : H) : d'.getNode id = d.getNode id := by
  rw [PatchDag.getNode, PatchDag.getNode, h.nodes]

theorem parents (h : SameGraph d d') (id : H) : d'.parents id = d.parents id := by
  rw [PatchDag.parents, PatchDag.parents, h.getNode]

theorem generation (h : SameGraph d d') (id : H) : d'.generation id = d.generation id := by
  rw [PatchDag.generation, PatchDag.generation, h.getNode]

theorem hasPatch (h : SameGraph d d') (id : H) : d'.hasPatch id = d.hasPatch id := by
  rw [PatchDag.hasPatch, PatchDag.hasPatch, h.getNode]

theorem getPatch (h : SameGraph d d') (id : H) : d'.getPatch id = d.getPatch id := by
  rw [PatchDag.getPatch, PatchDag.getPatch, h.getNode]

theorem reaches (h : SameGraph d d') : d'.Reaches = d.Reaches := by
  have hstep : d'.ancestry.Step = d.ancestry.Step := by
    funext x y
    exact congrArg (y ∈ ·) (h.parents x)
  unfold PatchDag.Reaches Successors.Reaches
  rw [hstep]

theorem graded (h : SameGraph d d') (hd : d.Graded) : d'.Graded := by
  intro id p hp
  rw [h.parents] at hp
  rw [h.hasPatch, h.generation, h.generation]
  exact hd id p hp

end SameGraph

/-- A query answers what its patch reaches and leaves an exact cache. -/
theorem ancestors_spec (hd : d.CacheExact) (id : H) :
    (∀ p, p ∈ (d.ancestors id).1 ↔ d.Reaches id p) ∧ (d.ancestors id).2.CacheExact := by
  unfold ancestors
  split
  · rename_i cached hcached
    exact ⟨hd id cached hcached, hd⟩
  · refine ⟨fun p => d.ancestry.mem_closure, fun j cached hcached p => ?_⟩
    rw [Assoc.get_insert] at hcached
    split at hcached
    · rename_i hj
      rw [← Option.some.inj hcached, hj]
      exact d.ancestry.mem_closure
    · exact hd j cached hcached p

theorem mem_ancestors (hd : d.CacheExact) {id p : H} :
    p ∈ (d.ancestors id).1 ↔ d.Reaches id p := (ancestors_spec hd id).1 p

/-- What calls that only ask may do. -/
structure Queried (d d' : PatchDag H) : Prop where
  same : SameGraph d d'
  cache : d.CacheExact → d'.CacheExact

namespace Queried

theorem refl (d : PatchDag H) : Queried d d := ⟨.refl d, id⟩

theorem trans {d'' : PatchDag H} (h : Queried d d') (h' : Queried d' d'') : Queried d d'' :=
  ⟨h.same.trans h'.same, fun hd => h'.cache (h.cache hd)⟩

end Queried

theorem queried_ancestors (d : PatchDag H) (id : H) : Queried d (d.ancestors id).2 := by
  refine ⟨?_, fun hd => (ancestors_spec hd id).2⟩
  unfold ancestors
  split
  · exact .refl d
  · exact ⟨rfl, rfl⟩

theorem queried_lca (d : PatchDag H) (a b : H) : Queried d (d.lca a b).2 := by
  have h := (d.queried_ancestors a).trans ((d.ancestors a).2.queried_ancestors b)
  unfold lca
  dsimp only
  split_ifs
  · exact .refl d
  all_goals exact h

theorem queried_patchChainFull (d : PatchDag H) (id : H) : Queried d (d.patchChainFull id).2 :=
  d.queried_ancestors id

theorem queried_reachablePatchIds (d : PatchDag H) (id : H) : Queried d (d.reachablePatchIds id).2 :=
  d.queried_ancestors id

theorem queried_mergeBase (d : PatchDag H) (branchA branchB : BranchName) :
    Queried d (d.mergeBase branchA branchB).2 := by
  unfold mergeBase
  split
  · exact .refl d
  split
  · exact .refl d
  rename_i targetA _ _ targetB _
  have h := d.queried_lca targetA targetB
  split <;> rename_i heq <;> rw [heq] at h <;> exact h

/-- The three ancestor sets that a plan is made from. -/
theorem queried_threeAncestors (d : PatchDag H) (x y z : H) :
    Queried d (((d.ancestors x).2.ancestors y).2.ancestors z).2 :=
  ((d.queried_ancestors x).trans (queried_ancestors _ y)).trans (queried_ancestors _ z)

theorem queried_mergeBranches (d : PatchDag H) (branchA branchB : BranchName) :
    Queried d (d.mergeBranches branchA branchB).2 := by
  have h := d.queried_mergeBase branchA branchB
  unfold mergeBranches
  split <;> rename_i heq <;> rw [heq] at h
  · exact h
  · rename_i targetA targetB lcaId d'
    have h := h.trans (d'.queried_threeAncestors lcaId targetA targetB)
    dsimp only
    split <;> exact h

theorem queried_branchDivergence (d : PatchDag H) (branchA branchB : BranchName) :
    Queried d (d.branchDivergence branchA branchB).2 := by
  have h := d.queried_mergeBase branchA branchB
  unfold branchDivergence
  split <;> rename_i heq <;> rw [heq] at h
  · exact h
  · rename_i targetA targetB lcaId d'
    exact h.trans (d'.queried_threeAncestors lcaId targetA targetB)

end PatchDag
end Suture.Dag
