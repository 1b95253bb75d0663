import Suture.Dag.Since
import Suture.Foundation.StableSort

/-!
# Completeness and order of a push list

The list has the new patches, each once. It has them after their parents just when every
patch that came off the stack twice, and so was sorted without its parents, comes after
them by chance: they are sorted without parents too, and have smaller ids.
-/

namespace Suture.Dag
set_option autoImplicit false
open Foundation Common Patches

namespace PatchDag
variable {H : Type} [LinearOrder H] {d : PatchDag H} {s : H}

/-- In the history of a branch, and not in that of `s`. -/
def New (d : PatchDag H) (s id : H) : Prop :=
  d.hasPatch id = true ∧ (∃ b ∈ d.branches, d.History b.2 id) ∧ ¬ d.History s id

/-- The new patches, each once and after its parents among them. -/
structure PushList (d : PatchDag H) (s : H) (patches : List (Patch H)) : Prop where
  nodup : (patches.map Patch.id).Nodup
  mem : ∀ id, id ∈ patches.map Patch.id ↔ d.New s id
  stored : ∀ p ∈ patches, d.getPatch p.id = some p
  ordered : patches.Pairwise fun p later => later.id ∉ p.parentIds

/-- The walk from the branch tips takes the patch from its stack more than once. -/
def TakenTwice (d : PatchDag H) (s id : H) : Prop :=
  2 ≤ ((d.newEdges (d.knownSince s)).taken .empty (d.newTips (d.knownSince s))).count id

/-- What was taken twice comes, by id, after its new parents, and these are taken twice or
have no new parents. -/
def OrderedAnyway (d : PatchDag H) (s : H) : Prop :=
  ∀ id, d.TakenTwice s id → ∀ p ∈ d.newParents (d.knownSince s) id,
    p < id ∧ (d.newParents (d.knownSince s) p = [] ∨ d.TakenTwice s p)

section New

theorem mem_knownSince (hd : d.CacheExact) {id : H} : id ∈ d.knownSince s ↔ d.History s id := by
  rw [knownSince, SortedSet.mem_insert, mem_ancestors hd]
  rfl

theorem mem_listBranches {d : PatchDag H} {e : String × H} : e ∈ d.listBranches ↔ e ∈ d.branches :=
  List.mem_insertionSort _

theorem mem_newTips {known : SortedSet H} {id : H} : id ∈ d.newTips known ↔
    (∃ b ∈ d.branches, b.2 = id) ∧ id ∉ known ∧ d.hasPatch id = true := by
  simp only [newTips, List.mem_filter, List.mem_reverse, List.mem_map, mem_listBranches, isNew,
    Bool.and_eq_true, decide_eq_true_eq]

theorem mem_newParents {known : SortedSet H} {id p : H} :
    p ∈ d.newParents known id ↔ p ∈ d.parents id ∧ p ∉ known := by
  rw [newParents, List.mem_filter, decide_eq_true_eq]

theorem hasPatch_of_reaches {x y : H} (h : d.Reaches x y) : d.hasPatch x = true := by
  by_contra hx
  exact reaches_of_unknown (Bool.eq_false_iff.mpr hx) h

/-- What leads to a new patch is new, so the walk gets there. -/
theorem newSteps_of_history (hd : d.Sound) {x y : H} (hy : y ∉ d.knownSince s)
    (h : d.History x y) : Relation.ReflTransGen (d.newEdges (d.knownSince s)).Step x y := by
  rcases h with rfl | h
  · exact .refl
  · induction h using Relation.TransGen.head_induction_on with
    | single hstep => exact .single (mem_newParents.mpr ⟨hstep, hy⟩)
    | @head x z hstep hrest ih =>
      have hz : z ∉ d.knownSince s := by
        intro hz
        have hsz := (mem_knownSince hd.cache).mp hz
        exact hy ((mem_knownSince hd.cache).mpr (hsz.trans (.inr hrest)))
      exact ih.head (mem_newParents.mpr ⟨hstep, hz⟩)

/-- The walk takes the new patches from its stack. -/
theorem mem_taken_iff (hd : d.Sound) {id : H} :
    id ∈ (d.newEdges (d.knownSince s)).taken .empty (d.newTips (d.knownSince s)) ↔ d.New s id := by
  rw [Edges.mem_taken]
  constructor
  · intro ⟨x, hx, hsteps⟩
    obtain ⟨⟨b, hb, rfl⟩, hnew, hhas⟩ := mem_newTips.mp hx
    induction hsteps with
    | refl => exact ⟨hhas, ⟨b, hb, .inl rfl⟩, fun h => hnew ((mem_knownSince hd.cache).mpr h)⟩
    | @tail y z _ hstep ih =>
      obtain ⟨-, ⟨b', hb', hhist⟩, -⟩ := ih
      obtain ⟨hparent, hz⟩ := mem_newParents.mp hstep
      exact ⟨(hd.graded y z hparent).1, ⟨b', hb', hhist.trans (.inr (.single hparent))⟩,
        fun h => hz ((mem_knownSince hd.cache).mpr h)⟩
  · intro ⟨hhas, ⟨b, hb, hhist⟩, hnew⟩
    have hid : id ∉ d.knownSince s := fun h => hnew ((mem_knownSince hd.cache).mp h)
    have htip : b.2 ∉ d.knownSince s := fun h =>
      hnew (((mem_knownSince hd.cache).mp h).trans hhist)
    have hhasTip : d.hasPatch b.2 = true := by
      rcases hhist with rfl | h
      · exact hhas
      · exact hasPatch_of_reaches h
    exact ⟨b.2, mem_newTips.mpr ⟨⟨b, hb, rfl⟩, htip, hhasTip⟩, newSteps_of_history hd hid hhist⟩

theorem New.of_parent (hd : d.Sound) {id p : H} (hid : d.New s id)
    (hp : p ∈ d.newParents (d.knownSince s) id) : d.New s p := by
  obtain ⟨hparent, hnew⟩ := mem_newParents.mp hp
  obtain ⟨-, ⟨b, hb, hhist⟩, -⟩ := hid
  exact ⟨(hd.graded id p hparent).1, ⟨b, hb, hhist.trans (.inr (.single hparent))⟩,
    fun h => hnew ((mem_knownSince hd.cache).mpr h)⟩

end New

/-! ### The map of parents -/

section Gathered

/-- The map after the walk. -/
def gathered (d : PatchDag H) (s : H) : SortedMap H (List H) :=
  gather d (d.knownSince s) .empty (d.listBranches.map Prod.snd).reverse

theorem get_gathered_eq (hf : d.FollowsPatches) (id : H) :
    let count :=
      ((d.newEdges (d.knownSince s)).taken .empty (d.newTips (d.knownSince s))).count id
    (d.gathered s).get id = if count = 0 then none
      else if count = 1 then some (d.parentsOf (d.knownSince s) id) else some [] := by
  have hseen : ∀ x : H, (SortedMap.empty : SortedMap H (List H)).contains x = true ↔
      x ∈ (SortedSet.empty : SortedSet H) := fun x =>
    iff_of_false (by simp [SortedMap.contains_eq]) (SortedSet.not_mem_empty x)
  have hget := @gather_get _ _ _ (d.knownSince s) hf .empty .empty
    (d.listBranches.map Prod.snd).reverse hseen
    (fun x hx => absurd hx (SortedSet.not_mem_empty x)) id
  simp only [SortedSet.not_mem_empty, not_false_eq_true, true_and, SortedMap.get_empty] at hget
  exact hget

theorem get_gathered_none (hd : d.Sound) (hf : d.FollowsPatches) {id : H} :
    (d.gathered s).get id = none ↔ ¬ d.New s id := by
  rw [get_gathered_eq hf, ← mem_taken_iff hd, ← List.count_pos_iff]
  split
  · rename_i hzero
    exact iff_of_true rfl (by omega)
  · rename_i hpos
    refine iff_of_false ?_ (by omega)
    split <;> exact Option.some_ne_none _

/-- A patch that is taken twice has lost its parents. -/
theorem get_gathered_twice (hf : d.FollowsPatches) {id : H} (h : d.TakenTwice s id) :
    (d.gathered s).get id = some [] := by
  unfold TakenTwice at h
  rw [get_gathered_eq hf, if_neg (by omega), if_neg (by omega)]

theorem get_gathered_once (hd : d.Sound) (hf : d.FollowsPatches) {id : H} (hnew : d.New s id)
    (h : ¬ d.TakenTwice s id) :
    (d.gathered s).get id = some (d.parentsOf (d.knownSince s) id) := by
  have hpos := List.count_pos_iff.mpr ((mem_taken_iff hd).mpr hnew)
  unfold TakenTwice at h
  rw [get_gathered_eq hf, if_neg (by omega), if_pos (by omega)]

theorem mem_parentsOf {known : SortedSet H} {id p : H} {patch : Patch H}
    (h : d.getPatch id = some patch) :
    p ∈ d.parentsOf known id ↔ p ∈ patch.parentIds ∧ p ∉ known := by
  rw [parentsOf, h, Option.map_some, Option.getD_some, parentsSince, List.mem_filter,
    decide_eq_true_eq]

/-- The parents a patch names that are in the DAG are its parents there. -/
theorem FollowsPatches.mem_parents (hf : d.FollowsPatches) {id p : H} {patch : Patch H}
    (h : d.getPatch id = some patch) :
    p ∈ d.parents id ↔ p ∈ patch.parentIds ∧ d.hasPatch p = true := by
  obtain ⟨node, hnode, rfl⟩ := Option.map_eq_some_iff.mp h
  rw [PatchDag.parents, hnode, Option.map_some, Option.getD_some, hf.parents hnode,
    List.mem_filter]

/-- The new patches among the kept parents are the new parents. -/
theorem New.mem_parentsOf (hd : d.Sound) (hf : d.FollowsPatches) {id p : H} (hid : d.New s id) :
    p ∈ d.parentsOf (d.knownSince s) id ∧ d.New s p ↔ p ∈ d.newParents (d.knownSince s) id := by
  obtain ⟨patch, hpatch⟩ := hasPatch_iff.mp hid.1
  rw [PatchDag.mem_parentsOf hpatch, mem_newParents, hf.mem_parents hpatch]
  constructor
  · intro ⟨⟨hp, hknown⟩, hnew⟩
    exact ⟨⟨hp, hnew.1⟩, hknown⟩
  · intro ⟨⟨hp, hhas⟩, hknown⟩
    refine ⟨⟨hp, hknown⟩, hid.of_parent hd (mem_newParents.mpr ⟨?_, hknown⟩)⟩
    exact (hf.mem_parents hpatch).mpr ⟨hp, hhas⟩

end Gathered

/-! ### The sorted ids -/

section Sorted
variable {order : IterationOrder (H × List H)}

abbrev arranged (order : IterationOrder (H × List H)) (d : PatchDag H) (s : H) :
    List (H × List H) := order.arrange (d.gathered s).entries

def sortedIds (order : IterationOrder (H × List H)) (d : PatchDag H) (s : H) : List H :=
  Toposort.order (fun parents => parents) (arranged order d s)

theorem keys_arranged_nodup : (Toposort.keys (arranged order d s)).Nodup := by
  have hkeys : (Toposort.keys (d.gathered s).entries).Nodup := by
    rw [Toposort.keys, List.Nodup, List.pairwise_map]
    exact (d.gathered s).sorted.imp fun h => h.ne
  exact ((order.perm _).map Prod.fst).nodup_iff.mpr hkeys

theorem get_arranged (id : H) : Assoc.get (arranged order d s) id = (d.gathered s).get id := by
  apply Option.ext
  intro ps
  have hmem : (id, ps) ∈ arranged order d s ↔ (d.gathered s).get id = some ps := by
    rw [(order.perm _).mem_iff, SortedMap.mem_entries]
  rw [← hmem]
  exact ⟨Assoc.mem_of_get, Toposort.get_of_nodup keys_arranged_nodup⟩

theorem mem_keys_arranged (hd : d.Sound) (hf : d.FollowsPatches) {id : H} :
    id ∈ Toposort.keys (arranged order d s) ↔ d.New s id := by
  rw [Toposort.mem_keys_iff, get_arranged, ← Option.ne_none_iff_exists', ne_eq,
    get_gathered_none hd hf, not_not]

theorem waits_reaches (hd : d.Sound) (hf : d.FollowsPatches) {c p : H}
    (h : Toposort.Waits (fun parents => parents) (arranged order d s) c p) : d.Reaches c p := by
  obtain ⟨hp, ps, hget, hmem⟩ := h
  have hc : d.New s c := (mem_keys_arranged hd hf).mp (Toposort.mem_keys_iff.mpr ⟨ps, hget⟩)
  have hp := (mem_keys_arranged hd hf).mp hp
  rw [get_arranged] at hget
  by_cases htwice : d.TakenTwice s c
  · rw [get_gathered_twice hf htwice] at hget
    cases hget
    cases hmem
  · rw [get_gathered_once hd hf hc htwice] at hget
    cases hget
    exact .single (mem_newParents.mp ((hc.mem_parentsOf hd hf).mp ⟨hmem, hp⟩)).1

theorem waits_acyclic (hd : d.Sound) (hf : d.FollowsPatches) (c : H) :
    ¬ Relation.TransGen (Toposort.Waits (fun parents => parents) (arranged order d s)) c c := by
  intro h
  have hreach : ∀ {p}, Relation.TransGen
      (Toposort.Waits (fun parents => parents) (arranged order d s)) c p → d.Reaches c p := by
    intro p hp
    induction hp with
    | single hw => exact waits_reaches hd hf hw
    | tail _ hw ih => exact ih.trans (waits_reaches hd hf hw)
  exact hd.graded.not_reaches_self c (hreach h)

theorem sortedIds_nodup (hd : d.Sound) (hf : d.FollowsPatches) : (sortedIds order d s).Nodup :=
  (Toposort.order_spec keys_arranged_nodup (waits_acyclic hd hf)).1

theorem mem_sortedIds (hd : d.Sound) (hf : d.FollowsPatches) {id : H} :
    id ∈ sortedIds order d s ↔ d.New s id :=
  ((Toposort.order_spec keys_arranged_nodup (waits_acyclic hd hf)).2.1 id).trans
    (mem_keys_arranged hd hf)

/-- What has its parents in the map comes after them. -/
theorem sortedIds_ordered (hd : d.Sound) (hf : d.FollowsPatches) {id later : H}
    (honce : ¬ d.TakenTwice s id) (h : [id, later].Sublist (sortedIds order d s)) :
    later ∉ d.newParents (d.knownSince s) id := by
  intro hparent
  have hid : d.New s id := (mem_sortedIds hd hf).mp (h.subset (by simp))
  have hnodup : (Toposort.keys (arranged order d s)).Nodup := keys_arranged_nodup
  have hordered := (Toposort.order_spec hnodup (waits_acyclic hd hf)).2.2
  have hget : Assoc.get (arranged order d s) id = _ :=
    (get_arranged id).trans (get_gathered_once hd hf hid honce)
  exact List.pairwise_iff_forall_sublist.mp hordered h _ hget
    ((hid.mem_parentsOf hd hf).mpr hparent).1

theorem mem_roots_iff (hd : d.Sound) (hf : d.FollowsPatches) {id : H} :
    id ∈ Toposort.roots (fun parents => parents) (arranged order d s) ↔
      d.New s id ∧ (d.newParents (d.knownSince s) id = [] ∨ d.TakenTwice s id) := by
  rw [Toposort.mem_roots keys_arranged_nodup]
  simp only [get_arranged, mem_keys_arranged hd hf]
  constructor
  · intro ⟨ps, hget, hps⟩
    have hid : d.New s id := by
      by_contra hold
      rw [(get_gathered_none hd hf).mpr hold] at hget
      cases hget
    refine ⟨hid, ?_⟩
    by_cases htwice : d.TakenTwice s id
    · exact .inr htwice
    · rw [get_gathered_once hd hf hid htwice] at hget
      cases hget
      refine .inl (List.eq_nil_iff_forall_not_mem.mpr fun p hp => ?_)
      obtain ⟨hmem, hnew⟩ := (hid.mem_parentsOf hd hf).mpr hp
      exact hps p hmem hnew
  · intro ⟨hid, hroot⟩
    by_cases htwice : d.TakenTwice s id
    · exact ⟨[], get_gathered_twice hf htwice, fun p hp => absurd hp List.not_mem_nil⟩
    · refine ⟨_, get_gathered_once hd hf hid htwice, fun p hp hnew => ?_⟩
      have hmem := (hid.mem_parentsOf hd hf).mp ⟨hp, hnew⟩
      rw [hroot.resolve_right htwice] at hmem
      cases hmem

/-- The order is right just when it is for what was taken twice: that comes among the
first, sorted by id. -/
theorem sortedIds_ordered_iff (hd : d.Sound) (hf : d.FollowsPatches) :
    (sortedIds order d s).Pairwise (fun id later => later ∉ d.newParents (d.knownSince s) id) ↔
      d.OrderedAnyway s := by
  have hroots : (Toposort.roots (fun parents => parents) (arranged order d s)).Pairwise (· < ·) :=
    Toposort.roots_sorted keys_arranged_nodup
  have hprefix : Toposort.roots (fun parents => parents) (arranged order d s) <+:
    sortedIds order d s := Toposort.roots_prefix keys_arranged_nodup
  have hnodup : (sortedIds order d s).Nodup := sortedIds_nodup hd hf
  constructor
  · intro hordered id htwice p hp
    have hid : d.New s id := by
      have hmem : id ∈ (d.newEdges (d.knownSince s)).taken .empty (d.newTips (d.knownSince s)) :=
        List.count_pos_iff.mp (Nat.lt_of_lt_of_le Nat.zero_lt_two htwice)
      exact (mem_taken_iff hd).mp hmem
    have hroot : id ∈ Toposort.roots (fun parents => parents) (arranged order d s) :=
      (mem_roots_iff hd hf).mpr ⟨hid, .inr htwice⟩
    have hpnew := hid.of_parent hd hp
    obtain ⟨rest, hsplit⟩ := hprefix
    have hproot : p ∈ Toposort.roots (fun parents => parents) (arranged order d s) := by
      by_contra hlater
      have hmem : p ∈ sortedIds order d s := (mem_sortedIds hd hf).mpr hpnew
      rw [← hsplit] at hmem hordered
      have hrest := (List.mem_append.mp hmem).resolve_left hlater
      exact (List.pairwise_append.mp hordered).2.2 id hroot p hrest hp
    refine ⟨?_, ((mem_roots_iff hd hf).mp hproot).2⟩
    rcases lt_trichotomy p id with hlt | rfl | hgt
    · exact hlt
    · exact absurd (.single (mem_newParents.mp hp).1) (hd.graded.not_reaches_self p)
    · have hsub := pair_sublist hroots hgt hroot hproot
      have hsub := hsub.trans (List.IsPrefix.sublist ⟨rest, hsplit⟩)
      exact absurd hp (List.pairwise_iff_forall_sublist.mp hordered hsub)
  · intro hanyway
    rw [List.pairwise_iff_forall_sublist]
    intro id later hsub hparent
    by_cases htwice : d.TakenTwice s id
    · obtain ⟨hlt, hfirst⟩ := hanyway id htwice later hparent
      have hid : d.New s id := (mem_sortedIds hd hf).mp (hsub.subset (by simp))
      have hroot : id ∈ Toposort.roots (fun parents => parents) (arranged order d s) :=
        (mem_roots_iff hd hf).mpr ⟨hid, .inr htwice⟩
      have hlater : later ∈ Toposort.roots (fun parents => parents) (arranged order d s) :=
        (mem_roots_iff hd hf).mpr ⟨hid.of_parent hd hparent, hfirst⟩
      have hswap := (pair_sublist hroots hlt hlater hroot).trans hprefix.sublist
      exact not_pair_swap hnodup hsub hswap
    · exact sortedIds_ordered hd hf htwice hsub hparent

/-! ### The patches -/

theorem patchesSince_eq (order : IterationOrder (H × List H)) (d : PatchDag H) (s : H) :
    (patchesSince order d s).1 = (sortedIds order d s).filterMap d.getPatch := rfl

theorem FollowsPatches.id_of_getPatch (hf : d.FollowsPatches) {id : H} {patch : Patch H}
    (h : d.getPatch id = some patch) : patch.id = id := by
  obtain ⟨node, hnode, rfl⟩ := Option.map_eq_some_iff.mp h
  exact hf.ids hnode

theorem map_id_filterMap (hf : d.FollowsPatches) {ids : List H}
    (hids : ∀ id ∈ ids, d.hasPatch id = true) :
    (ids.filterMap d.getPatch).map Patch.id = ids := by
  induction ids with
  | nil => rfl
  | cons id ids ih =>
    obtain ⟨patch, hpatch⟩ := hasPatch_iff.mp (hids id (List.mem_cons_self ..))
    rw [List.filterMap_cons, hpatch, List.map_cons, hf.id_of_getPatch hpatch,
      ih fun j hj => hids j (List.mem_cons_of_mem _ hj)]

/-- The list is complete; what is left to ask is the order. -/
theorem pushList_iff_ordered (hd : d.Sound) (hf : d.FollowsPatches) :
    PushList d s (patchesSince order d s).1 ↔ (sortedIds order d s).Pairwise
      fun id later => later ∉ d.newParents (d.knownSince s) id := by
  have hknown : ∀ id ∈ sortedIds order d s, d.hasPatch id = true := fun id hid =>
    ((mem_sortedIds hd hf).mp hid).1
  have hids := map_id_filterMap hf hknown
  have hstored : ∀ p ∈ (sortedIds order d s).filterMap d.getPatch,
      d.getPatch p.id = some p ∧ d.New s p.id := by
    intro p hp
    obtain ⟨id, hid, hpatch⟩ := List.mem_filterMap.mp hp
    rw [hf.id_of_getPatch hpatch]
    exact ⟨hpatch, (mem_sortedIds hd hf).mp hid⟩
  -- among new patches, the parents a patch names are its new parents
  have hparents : ∀ p ∈ (sortedIds order d s).filterMap d.getPatch,
      ∀ later ∈ (sortedIds order d s).filterMap d.getPatch,
      (later.id ∉ p.parentIds ↔ later.id ∉ d.newParents (d.knownSince s) p.id) := by
    intro p hp later hlater
    obtain ⟨hpatch, -⟩ := hstored p hp
    obtain ⟨-, hnew⟩ := hstored later hlater
    have hunknown : later.id ∉ d.knownSince s := fun h => hnew.2.2 ((mem_knownSince hd.cache).mp h)
    rw [mem_newParents, hf.mem_parents hpatch, and_iff_left hunknown, and_iff_left hnew.1]
  rw [patchesSince_eq]
  constructor
  · intro h
    rw [← hids, List.pairwise_map]
    exact h.ordered.imp_of_mem fun hp hlater hno => (hparents _ hp _ hlater).mp hno
  · intro h
    rw [← hids, List.pairwise_map] at h
    refine ⟨?_, fun id => ?_, fun p hp => (hstored p hp).1, ?_⟩
    · rw [hids]
      exact sortedIds_nodup hd hf
    · rw [hids]
      exact mem_sortedIds hd hf
    · exact h.imp_of_mem fun hp hlater hno => (hparents _ hp _ hlater).mpr hno

/-- The push list is complete and in order just when what the walk took twice is in order
anyway. -/
theorem patchesSince_pushList_iff (hd : d.Sound) (hf : d.FollowsPatches)
    (order : IterationOrder (H × List H)) (s : H) :
    PushList d s (patchesSince order d s).1 ↔ d.OrderedAnyway s :=
  (pushList_iff_ordered hd hf).trans (sortedIds_ordered_iff hd hf)

end Sorted

/-! ### Two branches on one tip -/

theorem followsPatches_of_nodes (h : ∀ e ∈ d.nodes, e.2.patch.id = e.1 ∧
    e.2.parentIds = e.2.patch.parentIds.filter d.hasPatch) : d.FollowsPatches where
  ids := fun hnode => (h _ (Assoc.mem_of_get hnode)).1
  parents := fun hnode => (h _ (Assoc.mem_of_get hnode)).2

def named (id : Nat) (parentIds : List Hash) : Patch Hash := { edit id "a" with parentIds }

/-- Three patches in a row. -/
def threeInARow : List (Call Hash) :=
  [.addPatch (named 1 []) [], .addPatch (named 3 [1]) [1], .addPatch (named 2 [3]) [3],
    .createBranch .main 2]

def oneBranch : PatchDag Hash := threeInARow.foldl next new

def sharedTip : PatchDag Hash := oneBranch.next (.createBranch side 2)

theorem oneBranch_built : Built oneBranch := Run.of_allows threeInARow (by decide +kernel)

theorem pushList_oneBranch : PushList oneBranch 1 (patchesSince ⟨id, fun _ => .rfl⟩ oneBranch 1).1 ↔
    oneBranch.OrderedAnyway 1 :=
  patchesSince_pushList_iff oneBranch_built.sound (followsPatches_of_nodes (by decide +kernel)) _ 1

/-- With a second branch on the tip, patch 2 is listed before its parent 3. -/
theorem sharedTip_not_pushList : ¬ ∀ d : PatchDag Hash, d.Sound → d.FollowsPatches →
    ∀ order s, PushList d s (patchesSince order d s).1 := by
  intro h
  have hbuilt : Built sharedTip :=
    oneBranch_built.tail (show oneBranch.Timely (.createBranch side 2) from trivial)
  have hf : sharedTip.FollowsPatches := followsPatches_of_nodes (by decide +kernel)
  have hlist := h sharedTip hbuilt.sound hf ⟨id, fun _ => .rfl⟩ 1
  have hordered := (sortedIds_ordered_iff hbuilt.sound hf).mp
    ((pushList_iff_ordered hbuilt.sound hf).mp hlist)
  have htwice : sharedTip.TakenTwice 1 2 := Nat.le_of_ble_eq_true (by decide +kernel)
  have hlt := (hordered 2 htwice 3 (by decide +kernel)).1
  exact absurd hlt (by decide +kernel)

end PatchDag
end Suture.Dag
