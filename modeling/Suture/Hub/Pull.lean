import Suture.Hub.Push

/-!
# What a pull answers

The sort finishes the parents of a patch before the patch, so each start of the answer has
the parents of all that it has. A known branch stands for all that is below its target.
-/

namespace Suture.Hub
set_option autoImplicit false
open Foundation Common Patches

variable {H : Type} [LinearOrder H]

/-! ### Ranks -/

theorem mem_parentIdsOf {patches : SortedMap H (Patch H)} {id p : H} :
    p ∈ parentIdsOf patches id ↔ ∃ patch, patches.get id = some patch ∧ p ∈ patch.parentIds := by
  unfold parentIdsOf
  cases hget : patches.get id with
  | none => exact iff_of_false List.not_mem_nil fun ⟨_, h, _⟩ => nomatch h
  | some patch => exact ⟨fun hp => ⟨patch, rfl, hp⟩, fun ⟨_, h, hp⟩ => Option.some.inj h ▸ hp⟩

/-- What is below a patch is more than what is below its parents. -/
theorem ranks_of_acyclic {patches : SortedMap H (Patch H)} (hacyclic : Dag.Acyclic patches) :
    Client.Ranks (fun id => ((graph patches).closure id).elems.length) patches := by
  have hstored : ∀ x y, (graph patches).Step x y → ∃ patch, patches.get x = some patch ∧
      y ∈ patch.parentIds := fun _ _ => mem_parentIdsOf.mp
  -- On a cycle every patch is stored.
  have hloop : ∀ x y, Reaches patches x y → patches.contains y = true →
      Relation.TransGen (fun c p => patches.contains p = true ∧
        ∃ patch, patches.get c = some patch ∧ p ∈ patch.parentIds) x y := by
    intro x y hxy hy
    induction hxy with
    | single h => exact .single ⟨hy, hstored _ _ h⟩
    | tail _ h ih =>
      obtain ⟨patch, hpatch, hp⟩ := hstored _ _ h
      exact (ih (contains_iff.mpr ⟨patch, hpatch⟩)).tail ⟨hy, patch, hpatch, hp⟩
  have hirrefl : ∀ id, ¬ Reaches patches id id := fun id hid => by
    refine hacyclic id (hloop id id hid ?_)
    obtain ⟨y, hstep, -⟩ := Relation.TransGen.head'_iff.mp hid
    obtain ⟨patch, hpatch, -⟩ := hstored id y hstep
    exact contains_iff.mpr ⟨patch, hpatch⟩
  intro id patch hpatch p hp
  have hstep : (graph patches).Step id p := mem_parentIdsOf.mpr ⟨patch, hpatch, hp⟩
  have hsub : p :: ((graph patches).closure p).elems ⊆ ((graph patches).closure id).elems := by
    intro j hj
    rcases List.mem_cons.mp hj with rfl | hj
    · exact (graph patches).mem_closure.mpr (.single hstep)
    · exact (graph patches).mem_closure.mpr (.head hstep ((graph patches).mem_closure.mp hj))
  have hnodup : (p :: ((graph patches).closure p).elems).Nodup :=
    List.nodup_cons.mpr ⟨fun hself => hirrefl p ((graph patches).mem_closure.mp hself),
      SortedSet.nodup _⟩
  exact (List.subperm_of_subset hnodup hsub).length_le

theorem irrefl_reaches {rank : H → Nat} {patches : SortedMap H (Patch H)}
    (hrank : Client.Ranks rank patches) (id : H) : ¬ Reaches patches id id := fun h => by
  refine lt_irrefl (rank id) (Relation.transGen_minimal (fun x y hxy => show rank x > rank y from ?_)
    id id h)
  obtain ⟨patch, hpatch, hy⟩ := mem_parentIdsOf.mp hxy
  exact hrank x patch hpatch y hy

/-! ### The sort -/

section Sorting
variable {patches : List (Patch H)} {rank : H → Nat}

/-- How far a sort has come: some patches are being visited, the others are finished after
their parents. -/
structure Visited (patches : List (Patch H)) (pending : H → Prop)
    (state : List H × List (Patch H)) : Prop where
  mem : ∀ p ∈ state.2, p ∈ patches
  nodup : (state.2.map Patch.id).Nodup
  visited : ∀ id, id ∈ state.1 ↔ pending id ∨ id ∈ state.2.map Patch.id
  apart : ∀ id, pending id → id ∉ state.2.map Patch.id
  closed : ∀ p ∈ state.2, ∀ q ∈ p.parentIds, q ∈ patches.map Patch.id → q ∈ state.2.map Patch.id
  ordered : state.2.Pairwise fun p q => q.id ∉ p.parentIds

/-- What visiting some ids comes to. -/
structure Visits (patches : List (Patch H)) (pending : H → Prop) (ids : List H)
    (state state' : List H × List (Patch H)) : Prop where
  visited : Visited patches pending state'
  grows : state.2 <+: state'.2
  all : ∀ id ∈ ids, id ∈ patches.map Patch.id → id ∈ state'.2.map Patch.id

omit [LinearOrder H] in
theorem visited_nil : Visited patches (fun _ => False) ([], []) where
  mem := fun _ hp => absurd hp List.not_mem_nil
  nodup := .nil
  visited := fun _ => iff_of_false List.not_mem_nil (by simp)
  apart := nofun
  closed := fun _ hp => absurd hp List.not_mem_nil
  ordered := .nil

omit [LinearOrder H] in
theorem Visited.start {pending : H → Prop} {state : List H × List (Patch H)}
    (h : Visited patches pending state) {id : H} (hnew : id ∉ state.1) :
    Visited patches (fun x => pending x ∨ x = id) (id :: state.1, state.2) where
  mem := h.mem
  nodup := h.nodup
  visited := fun x => by rw [List.mem_cons, h.visited, or_comm, or_right_comm]
  apart := by
    rintro x (hx | rfl)
    · exact h.apart x hx
    · exact fun hx => hnew ((h.visited x).mpr (.inr hx))
  closed := h.closed
  ordered := h.ordered

omit [LinearOrder H] in
theorem Visited.finish {pending : H → Prop} {state : List H × List (Patch H)} {patch : Patch H}
    (h : Visited patches (fun x => pending x ∨ x = patch.id) state) (hpatch : patch ∈ patches)
    (hid : ¬ pending patch.id)
    (hparents : ∀ q ∈ patch.parentIds, q ∈ patches.map Patch.id → q ∈ state.2.map Patch.id) :
    Visited patches pending (state.1, state.2 ++ [patch]) := by
  have hnew : patch.id ∉ state.2.map Patch.id := h.apart patch.id (.inr rfl)
  have hids : ∀ x, x ∈ (state.2 ++ [patch]).map Patch.id ↔
      x ∈ state.2.map Patch.id ∨ x = patch.id := fun x => by
    rw [List.map_append, List.mem_append, List.map_singleton, List.mem_singleton]
  refine ⟨fun p hp => ?_, ?_, fun x => ?_, fun x hx hmem => ?_, fun p hp q hq hmem => ?_, ?_⟩
  · rcases List.mem_append.mp hp with hp | hp
    · exact h.mem p hp
    · rwa [List.mem_singleton.mp hp]
  · rw [List.map_append, List.map_singleton]
    exact List.nodup_append.mpr ⟨h.nodup, List.nodup_singleton _, fun x hx y hy => by
      rw [List.mem_singleton.mp hy]
      rintro rfl
      exact hnew hx⟩
  · rw [hids, h.visited, or_assoc, or_comm (a := x = patch.id)]
  · rcases (hids x).mp hmem with hmem | rfl
    · exact h.apart x (.inl hx) hmem
    · exact hid hx
  · refine (hids q).mpr (.inl ?_)
    rcases List.mem_append.mp hp with hp | hp
    · exact h.closed p hp q hq hmem
    · rw [List.mem_singleton.mp hp] at hq
      exact hparents q hq hmem
  · refine List.pairwise_append.mpr ⟨h.ordered, List.pairwise_singleton _ _, fun p hp q hq => ?_⟩
    rw [List.mem_singleton.mp hq]
    exact fun hparent => hnew (h.closed p hp _ hparent (List.mem_map_of_mem hpatch))

omit [LinearOrder H] in
theorem Visits.foldl {pending : H → Prop}
    {visit : List H × List (Patch H) → H → List H × List (Patch H)} {ids : List H}
    {I : List H × List (Patch H) → Prop}
    (hvisit : ∀ id ∈ ids, ∀ state, Visited patches pending state → I state →
      Visits patches pending [id] state (visit state id) ∧ I (visit state id))
    {state : List H × List (Patch H)} (h : Visited patches pending state) (hI : I state) :
    Visits patches pending ids state (ids.foldl visit state) := by
  induction ids generalizing state with
  | nil => exact ⟨h, List.prefix_rfl, nofun⟩
  | cons id ids ih =>
    obtain ⟨hfirst, hI'⟩ := hvisit id (List.mem_cons_self ..) state h hI
    have hrest := ih (fun j hj => hvisit j (List.mem_cons_of_mem _ hj)) hfirst.visited hI'
    refine ⟨hrest.visited, hfirst.grows.trans hrest.grows, fun j hj hmem => ?_⟩
    rcases List.mem_cons.mp hj with rfl | hj
    · exact (hrest.grows.map Patch.id).subset (hfirst.all j (List.mem_singleton_self _) hmem)
    · exact hrest.all j hj hmem

/-- The patches that are not visited yet. -/
def unvisited (patches : List (Patch H)) (visited : List H) : Nat :=
  patches.countP fun p => visited.all fun id => decide (id ≠ p.id)

theorem not_visited_iff {visited : List H} {id : H} :
    (visited.all fun id' => decide (id' ≠ id)) = true ↔ id ∉ visited := by
  rw [List.all_eq_true]
  constructor
  · exact fun h hid => of_decide_eq_true (h id hid) rfl
  · exact fun h id' hid' => decide_eq_true fun heq => h (heq ▸ hid')

theorem unvisited_le {visited visited' : List H} (h : visited ⊆ visited') :
    unvisited patches visited' ≤ unvisited patches visited :=
  List.countP_mono_left fun _ _ hp =>
    not_visited_iff.mpr (mt (fun hmem => h hmem) (not_visited_iff.mp hp))

theorem unvisited_cons_lt {visited : List H} {patch : Patch H} (hpatch : patch ∈ patches)
    (hnew : patch.id ∉ visited) :
    unvisited patches (patch.id :: visited) < unvisited patches visited := by
  refine countP_lt (fun p _ hp => not_visited_iff.mpr ?_) hpatch (not_visited_iff.mpr hnew) ?_
  · exact mt (List.mem_cons_of_mem _) (not_visited_iff.mp hp)
  · rw [← Bool.not_eq_true, not_visited_iff, not_not]
    exact List.mem_cons_self ..

omit [LinearOrder H] in
theorem Visits.visited_subset {pending : H → Prop} {ids : List H}
    {state state' : List H × List (Patch H)} (h : Visits patches pending ids state state')
    (hstate : Visited patches pending state) : state.1 ⊆ state'.1 := fun id hid =>
  (h.visited.visited id).mpr (((hstate.visited id).mp hid).imp_right fun hid =>
    (h.grows.map Patch.id).subset hid)

/-- A patch is visited after all that is below it, by induction on the fuel: a visit marks one
patch more. What is being visited ranks higher, so it is no parent. -/
theorem visitPatch_spec (hrank : ∀ p ∈ patches, ∀ q ∈ p.parentIds, rank q < rank p.id)
    {fuel : Nat} {pending : H → Prop} {state : List H × List (Patch H)} {id : H}
    (h : Visited patches pending state) (hpending : ∀ x, pending x → rank id < rank x)
    (hfuel : unvisited patches state.1 ≤ fuel) :
    Visits patches pending [id] state (visitPatch patches fuel state id) := by
  have hdone : ∀ x ∈ state.1, rank x ≤ rank id → x ∈ state.2.map Patch.id := fun x hx hle =>
    ((h.visited x).mp hx).resolve_left fun hx => absurd (hpending x hx) (not_lt.mpr hle)
  induction fuel generalizing state id pending with
  | zero =>
    refine ⟨h, List.prefix_rfl, fun x hx hmem => ?_⟩
    obtain ⟨patch, hpatch, rfl⟩ := List.mem_map.mp hmem
    have hall := List.countP_eq_zero.mp (Nat.le_zero.mp hfuel) patch hpatch
    refine hdone patch.id (by simpa using hall) ?_
    rw [List.mem_singleton.mp hx]
  | succ fuel ih =>
    obtain ⟨visited, order⟩ := state
    unfold visitPatch
    split
    · rename_i hmem
      refine ⟨h, List.prefix_rfl, fun x hx _ => ?_⟩
      rw [List.mem_singleton.mp hx]
      exact hdone id hmem le_rfl
    rename_i hnew
    split
    · rename_i hnone
      refine ⟨h, List.prefix_rfl, fun x hx hmem => ?_⟩
      rw [List.mem_singleton.mp hx] at hmem
      obtain ⟨patch, hpatch, hid⟩ := List.mem_map.mp hmem
      exact absurd (decide_eq_true hid) (List.find?_eq_none.mp hnone patch hpatch)
    rename_i patch hfind
    have hpatch := List.mem_of_find?_eq_some hfind
    obtain rfl : patch.id = id := by simpa using List.find?_some hfind
    have hstart := h.start hnew
    have hless := unvisited_cons_lt hpatch hnew
    have hfold : Visits patches (fun x => pending x ∨ x = patch.id) patch.parentIds
        (patch.id :: visited, order)
        (patch.parentIds.foldl (visitPatch patches fuel) (patch.id :: visited, order)) := by
      refine Visits.foldl (I := fun state => unvisited patches state.1 ≤ fuel)
        (fun q hq state hstate hI => ?_) hstart (by dsimp only at hfuel ⊢; omega)
      have hhigher : ∀ x, (pending x ∨ x = patch.id) → rank q < rank x := by
        have hq := hrank patch hpatch q hq
        rintro x (hx | rfl)
        · exact hq.trans (hpending x hx)
        · exact hq
      have hvisits := ih hstate hhigher hI fun x hx hle =>
        ((hstate.visited x).mp hx).resolve_left fun hx => absurd (hhigher x hx) (not_lt.mpr hle)
      exact ⟨hvisits, (unvisited_le (hvisits.visited_subset hstate)).trans hI⟩
    have hfinish := hfold.visited.finish hpatch (fun hpend => lt_irrefl _ (hpending _ hpend)) hfold.all
    refine ⟨hfinish, hfold.grows.trans (List.prefix_append _ _), fun x hx _ => ?_⟩
    rw [List.mem_singleton.mp hx]
    exact List.mem_map_of_mem (List.mem_append_right _ (List.mem_singleton_self _))

/-- The sort lists every patch once, after its parents. -/
structure Sorted (patches sorted : List (Patch H)) : Prop where
  nodup : (sorted.map Patch.id).Nodup
  mem : ∀ p, p ∈ sorted ↔ p ∈ patches
  ordered : sorted.Pairwise fun p q => q.id ∉ p.parentIds

theorem sorted_topologicalSort (hrank : ∀ p ∈ patches, ∀ q ∈ p.parentIds, rank q < rank p.id)
    (hnodup : (patches.map Patch.id).Nodup) : Sorted patches (topologicalSort patches) := by
  have hvisits : Visits patches (fun _ => False) (patches.map Patch.id) ([], [])
      ((patches.map Patch.id).foldl (visitPatch patches patches.length) ([], [])) :=
    Visits.foldl (I := fun _ => True) (fun id _ state hstate _ =>
      ⟨visitPatch_spec hrank hstate nofun List.countP_le_length, trivial⟩) visited_nil trivial
  refine ⟨hvisits.visited.nodup, fun p => ⟨hvisits.visited.mem p, fun hp => ?_⟩,
    hvisits.visited.ordered⟩
  obtain ⟨q, hq, hid⟩ := List.mem_map.mp
    (hvisits.all p.id (List.mem_map_of_mem hp) (List.mem_map_of_mem hp))
  rwa [← List.inj_on_of_nodup_map hnodup (hvisits.visited.mem q hq) hp hid]

end Sorting

/-! ### Answers -/

/-- Rows under their ids, without cycles. -/
structure Sound (patches : SortedMap H (Patch H)) : Prop where
  keyed : ∀ id patch, patches.get id = some patch → patch.id = id
  acyclic : Dag.Acyclic patches

/-- A stored target of a known branch, or below one. -/
def Known (patches : SortedMap H (Patch H)) (known : List (BranchProto H)) (id : H) : Prop :=
  ∃ b ∈ known, patches.contains b.targetId = true ∧
    (id = b.targetId ∨ Reaches patches b.targetId id)

theorem mem_collectAncestors {patches : SortedMap H (Patch H)} {known : List (BranchProto H)}
    {id : H} : id ∈ collectAncestors patches known ↔ Known patches known id := by
  unfold collectAncestors Known
  rw [SortedSet.mem_ofList, List.mem_flatMap]
  refine exists_congr fun b => ?_
  rw [List.mem_filter, List.mem_cons, and_assoc]
  refine and_congr_right fun _ => and_congr_right fun _ => or_congr_right ?_
  exact (graph patches).mem_closure

theorem Known.below {patches : SortedMap H (Patch H)} {known : List (BranchProto H)} {id p : H}
    (h : Known patches known id) (hp : p ∈ parentIdsOf patches id) : Known patches known p := by
  obtain ⟨b, hb, hstored, rfl | hreach⟩ := h
  · exact ⟨b, hb, hstored, .inr (.single hp)⟩
  · exact ⟨b, hb, hstored, .inr (.tail hreach hp)⟩

/-- Each patch that is missing is sent once, after its parents. -/
structure Delivers (patches : SortedMap H (Patch H)) (known : List (BranchProto H))
    (sent : List (Patch H)) : Prop where
  once : (sent.map Patch.id).Nodup
  missing : ∀ p, p ∈ sent ↔ patches.get p.id = some p ∧ ¬ Known patches known p.id
  ordered : sent.Pairwise fun p q => q.id ∉ p.parentIds

/-- What the sort starts from. -/
def missing (patches : SortedMap H (Patch H)) (known : List (BranchProto H)) : List (Patch H) :=
  (patches.entries.filter fun e => decide (e.1 ∉ collectAncestors patches known)).map Prod.snd

theorem missing_spec {patches : SortedMap H (Patch H)} (hsound : Sound patches)
    (known : List (BranchProto H)) : ((missing patches known).map Patch.id).Nodup ∧
      ∀ p, p ∈ missing patches known ↔ patches.get p.id = some p ∧ ¬ Known patches known p.id := by
  unfold missing
  have hmem : ∀ e ∈ patches.entries, e.2.id = e.1 := fun e he =>
    hsound.keyed e.1 e.2 (SortedMap.mem_entries.mp he)
  constructor
  · have hkeys : patches.keys.Nodup := (List.pairwise_map.mpr patches.sorted).imp ne_of_lt
    rw [List.map_map]
    refine (congrArg List.Nodup (List.map_congr_left (g := Prod.fst) fun e he => ?_)).mpr
      (hkeys.sublist (List.filter_sublist.map Prod.fst))
    exact hmem e (List.mem_filter.mp he).1
  · intro p
    rw [List.mem_map]
    constructor
    · rintro ⟨e, he, rfl⟩
      obtain ⟨he, hnew⟩ := List.mem_filter.mp he
      rw [hmem e he, ← mem_collectAncestors]
      exact ⟨SortedMap.mem_entries.mp he, of_decide_eq_true hnew⟩
    · rintro ⟨hget, hnew⟩
      refine ⟨(p.id, p), List.mem_filter.mpr ⟨SortedMap.mem_entries.mpr hget, ?_⟩, rfl⟩
      exact decide_eq_true (mt mem_collectAncestors.mp hnew)

theorem delivers_collectNewPatches {patches : SortedMap H (Patch H)} (hsound : Sound patches)
    (order : Dag.IterationOrder (Patch H)) (known : List (BranchProto H)) :
    Delivers patches known
      (collectNewPatches order.arrange patches (collectAncestors patches known)) := by
  obtain ⟨hnodup, hmem⟩ := missing_spec hsound known
  have hperm := order.perm (missing patches known)
  have hrank : ∀ p ∈ order.arrange (missing patches known), ∀ q ∈ p.parentIds,
      ((graph patches).closure q).elems.length < ((graph patches).closure p.id).elems.length :=
    fun p hp q hq =>
      ranks_of_acyclic hsound.acyclic p.id p ((hmem p).mp (hperm.mem_iff.mp hp)).1 q hq
  have hsorted : Sorted (order.arrange (missing patches known))
      (collectNewPatches order.arrange patches (collectAncestors patches known)) :=
    sorted_topologicalSort hrank ((hperm.map Patch.id).nodup_iff.mpr hnodup)
  exact ⟨hsorted.nodup, fun p => (hsorted.mem p).trans (hperm.mem_iff.trans (hmem p)),
    hsorted.ordered⟩

/-- What comes before a patch has its parents, apart from what is known. -/
theorem Delivers.parents {patches : SortedMap H (Patch H)} {known : List (BranchProto H)}
    {before after : List (Patch H)} {p : Patch H} (hsound : Sound patches)
    (h : Delivers patches known (before ++ p :: after)) {q : H} (hq : q ∈ p.parentIds)
    (hstored : patches.contains q = true) (hnew : ¬ Known patches known q) :
    q ∈ before.map Patch.id := by
  obtain ⟨parent, hparent⟩ := contains_iff.mp hstored
  obtain rfl := hsound.keyed q parent hparent
  have hget := ((h.missing p).mp (by simp)).1
  rcases List.mem_append.mp ((h.missing parent).mpr ⟨hparent, hnew⟩) with hbefore | hafter
  · exact List.mem_map_of_mem hbefore
  · obtain ⟨-, hrest, -⟩ := List.pairwise_append.mp h.ordered
    rcases List.mem_cons.mp hafter with rfl | hafter
    · exact absurd (ranks_of_acyclic hsound.acyclic parent.id parent hget parent.id hq) (lt_irrefl _)
    · exact absurd hq ((List.pairwise_cons.mp hrest).1 parent hafter)

/-- A start of the answer has all that is below what it has, apart from what is known. -/
theorem Delivers.reaches {patches : SortedMap H (Patch H)} {known : List (BranchProto H)}
    {first rest : List (Patch H)} (hsound : Sound patches)
    (h : Delivers patches known (first ++ rest)) {id id' : H} (hid : id ∈ first.map Patch.id)
    (hreach : Reaches patches id id') (hstored : patches.contains id' = true)
    (hnew : ¬ Known patches known id') : id' ∈ first.map Patch.id := by
  have hstep : ∀ x y, x ∈ first.map Patch.id → y ∈ parentIdsOf patches x →
      patches.contains y = true → ¬ Known patches known y → y ∈ first.map Patch.id := by
    intro x y hx hy hstored hnew
    obtain ⟨p, hp, rfl⟩ := List.mem_map.mp hx
    have hget := ((h.missing p).mp (List.mem_append_left _ hp)).1
    rw [parentIdsOf, hget] at hy
    obtain ⟨before, after, rfl⟩ := List.append_of_mem hp
    rw [List.append_assoc, List.cons_append] at h
    have hmem := h.parents hsound hy hstored hnew
    rw [List.map_append]
    exact List.mem_append_left _ hmem
  induction hreach with
  | single hy => exact hstep id _ hid hy hstored hnew
  | @tail x y _ hy ih =>
    obtain ⟨patch, hpatch, -⟩ := mem_parentIdsOf.mp hy
    exact hstep x y (ih (contains_iff.mpr ⟨patch, hpatch⟩) fun hknown => hnew (hknown.below hy)) hy
      hstored hnew

end Suture.Hub
