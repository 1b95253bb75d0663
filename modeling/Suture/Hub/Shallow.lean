import Suture.Hub.Fetch

/-!
# Shallow pulls

A depth cuts the answer after so many patches, counted from the oldest. What is left out are
the newest patches of the branches, until a later pull without a depth.
-/

namespace Suture.Hub
set_option autoImplicit false
open Foundation Common Patches

variable {H : Type} [LinearOrder H]

/-! ### Tips -/

/-- The target of a branch and what is less than so many steps below it. -/
inductive Within (patches : SortedMap H (Patch H)) (target : H) : Nat → H → Prop where
  | tip (n : Nat) : Within patches target (n + 1) target
  | parent {n : Nat} {id p : H} (h : Within patches target n id)
    (hp : p ∈ parentIdsOf patches id) : Within patches target (n + 1) p

theorem reaches_of_within {patches : SortedMap H (Patch H)} {target id : H} {n : Nat}
    (h : Within patches target n id) : id = target ∨ Reaches patches target id := by
  induction h with
  | tip => exact .inl rfl
  | parent _ hp ih =>
    rcases ih with rfl | hreach
    · exact .inr (.single hp)
    · exact .inr (.tail hreach hp)

/-- Of each branch that is not known, the target is sent, and the last patches that are not
known. -/
def DeliversTips (store : HubStorage H) (known : List (BranchProto H)) (n : Nat)
    (sent : List (Patch H)) : Prop :=
  ∀ name target, store.branches.get name = some target → ¬ Known store.patches known target →
    target ∈ sent.map Patch.id ∧ ∀ id, Within store.patches target n id →
      store.patches.contains id = true → ¬ Known store.patches known id → id ∈ sent.map Patch.id

/-- What is missing and not above a patch: it may all be sent before the patch. -/
def notAbove (patches : SortedMap H (Patch H)) (known : List (BranchProto H)) (target : H) :
    List (Patch H) :=
  (missing patches known).filter fun p => decide (target ∉ (graph patches).closure p.id)

/-- The target of each branch that is not known is stored, and few patches are not above it. -/
def Fits (store : HubStorage H) (known : List (BranchProto H)) (n : Nat) : Prop :=
  ∀ name target, store.branches.get name = some target → ¬ Known store.patches known target →
    store.patches.contains target = true ∧ (notAbove store.patches known target).length ≤ n

theorem mem_notAbove {patches : SortedMap H (Patch H)} {known : List (BranchProto H)} {target : H}
    {p : Patch H} : p ∈ notAbove patches known target ↔
      p ∈ missing patches known ∧ ¬ Reaches patches p.id target := by
  unfold notAbove
  rw [List.mem_filter, decide_eq_true_eq, (graph patches).mem_closure]
  rfl

/-- In any order the patches up to a target are not above it. -/
theorem deliversTips_of_fits {store : HubStorage H} (hsound : Sound store.patches)
    {known : List (BranchProto H)} {n : Nat} (hfits : Fits store known n)
    (order : Dag.IterationOrder (Patch H)) :
    DeliversTips store known n (handlePull order.arrange store ⟨known, some n⟩).patches := by
  intro name target hbranch hnew
  obtain ⟨hstored, hlength⟩ := hfits name target hbranch hnew
  have hdelivers := delivers_collectNewPatches hsound order known
  obtain ⟨sent, hsent⟩ : ∃ sent, sent = collectNewPatches order.arrange store.patches
    (collectAncestors store.patches known) := ⟨_, rfl⟩
  have hanswer : (handlePull order.arrange store ⟨known, some n⟩).patches = sent.take n := by
    rw [hsent]
    rfl
  rw [← hsent] at hdelivers
  rw [hanswer]
  obtain ⟨tip, htip⟩ := contains_iff.mp hstored
  obtain rfl := hsound.keyed target tip htip
  obtain ⟨before, after, hsplit⟩ := List.append_of_mem ((hdelivers.missing tip).mpr ⟨htip, hnew⟩)
  have hmissing := (missing_spec hsound known).2
  have hstart : before ++ [tip] <+: sent := ⟨after, by rw [hsplit, List.append_assoc]; rfl⟩
  have hbefore : (before ++ [tip]).length ≤ n := by
    have hnodup : (before ++ [tip]).Nodup := hdelivers.once.of_map.sublist hstart.sublist
    have hsub : before ++ [tip] ⊆ notAbove store.patches known tip.id := by
      intro p hp
      refine mem_notAbove.mpr ⟨(hmissing p).mpr ((hdelivers.missing p).mp (hstart.subset hp)),
        fun hreach => ?_⟩
      rcases List.mem_append.mp hp with hp | hp
      · rw [hsplit] at hdelivers
        have hmem := hdelivers.reaches hsound (List.mem_map_of_mem hp) hreach hstored hnew
        have honce := hdelivers.once
        rw [List.map_append, List.nodup_append] at honce
        exact honce.2.2 tip.id hmem tip.id (by simp) rfl
      · rw [List.mem_singleton.mp hp] at hreach
        exact irrefl_reaches (ranks_of_acyclic hsound.acyclic) tip.id hreach
    exact (List.subperm_of_subset hnodup hsub).length_le.trans hlength
  have hfirst : tip.id ∈ (sent.take n).map Patch.id := by
    have htake := List.prefix_take_iff.mpr ⟨hstart, hbefore⟩
    exact List.mem_map_of_mem (htake.subset (List.mem_append_right _ (List.mem_singleton_self _)))
  refine ⟨hfirst, fun id hid hstored' hnew' => ?_⟩
  rcases reaches_of_within hid with rfl | hreach
  · exact hfirst
  · rw [← List.take_append_drop n sent] at hdelivers
    exact hdelivers.reaches hsound hfirst hreach hstored' hnew'

/-! ### An order that sends the tip last -/

omit [LinearOrder H] in
theorem forall_foldl_visit {P : H → Prop} {ids : List H}
    {visit : List H × List (Patch H) → H → List H × List (Patch H)}
    (hvisit : ∀ id ∈ ids, ∀ state, (∀ p ∈ state.2, P p.id) → ∀ p ∈ (visit state id).2, P p.id)
    {state : List H × List (Patch H)} (h : ∀ p ∈ state.2, P p.id) :
    ∀ p ∈ (ids.foldl visit state).2, P p.id := by
  induction ids generalizing state with
  | nil => exact h
  | cons id ids ih =>
    exact ih (fun j hj => hvisit j (List.mem_cons_of_mem _ hj))
      (hvisit id (List.mem_cons_self ..) state h)

/-- What is finished has been visited or is below something that has. -/
theorem forall_visitPatch {patches : List (Patch H)} {P : H → Prop}
    (hP : ∀ p ∈ patches, P p.id → ∀ q ∈ p.parentIds, P q) (fuel : Nat)
    {state : List H × List (Patch H)} {id : H} (hid : P id) (h : ∀ p ∈ state.2, P p.id) :
    ∀ p ∈ (visitPatch patches fuel state id).2, P p.id := by
  induction fuel generalizing state id with
  | zero => exact h
  | succ fuel ih =>
    obtain ⟨visited, order⟩ := state
    unfold visitPatch
    split
    · exact h
    split
    · exact h
    · rename_i patch hfind
      have hpatch := List.mem_of_find?_eq_some hfind
      obtain rfl : patch.id = id := by simpa using List.find?_some hfind
      intro p hp
      rcases List.mem_append.mp hp with hp | hp
      · exact forall_foldl_visit (fun q hq _ h => ih (hP patch hpatch hid q hq) h)
          (show ∀ p ∈ (patch.id :: visited, order).2, P p.id from h) p hp
      · rwa [List.mem_singleton.mp hp]

/-- What is not above a patch comes first. -/
def tipLast (patches : SortedMap H (Patch H)) (target : H) : Dag.IterationOrder (Patch H) where
  arrange := fun l =>
    (l.filter fun p => decide (p.id ≠ target ∧ target ∉ (graph patches).closure p.id)) ++
      l.filter fun p => !decide (p.id ≠ target ∧ target ∉ (graph patches).closure p.id)
  perm := fun l => List.filter_append_perm _ l

/-- When more patches than the depth are not above the target, they can all come before it. -/
theorem target_not_sent {store : HubStorage H} (hsound : Sound store.patches)
    {known : List (BranchProto H)} {n : Nat} {target : H}
    (hmore : n < (notAbove store.patches known target).length) :
    target ∉ ((handlePull (tipLast store.patches target).arrange store ⟨known, some n⟩).patches).map
      Patch.id := by
  obtain ⟨hnodup, hmem⟩ := missing_spec hsound known
  obtain ⟨early, hearly⟩ : ∃ early, early = (missing store.patches known).filter fun p =>
    decide (p.id ≠ target ∧ target ∉ (graph store.patches).closure p.id) := ⟨_, rfl⟩
  obtain ⟨late, hlate⟩ : ∃ late, late = (missing store.patches known).filter fun p =>
    !decide (p.id ≠ target ∧ target ∉ (graph store.patches).closure p.id) := ⟨_, rfl⟩
  have harrange : (tipLast store.patches target).arrange (missing store.patches known) =
      early ++ late := by
    rw [hearly, hlate]
    rfl
  have hearly_mem : ∀ p, p ∈ early ↔ p ∈ missing store.patches known ∧ p.id ≠ target ∧
      ¬ Reaches store.patches p.id target := fun p => by
    rw [hearly, List.mem_filter, decide_eq_true_eq, (graph store.patches).mem_closure]
    rfl
  have hcount : n ≤ early.length := by
    have hids : (notAbove store.patches known target).map Patch.id ⊆
        target :: early.map Patch.id := by
      intro id hid
      obtain ⟨p, hp, rfl⟩ := List.mem_map.mp hid
      obtain ⟨hp, hreach⟩ := mem_notAbove.mp hp
      by_cases htarget : p.id = target
      · exact List.mem_cons.mpr (.inl htarget)
      · exact List.mem_cons_of_mem _ (List.mem_map_of_mem ((hearly_mem p).mpr ⟨hp, htarget, hreach⟩))
    have honce : ((notAbove store.patches known target).map Patch.id).Nodup :=
      hnodup.sublist (List.filter_sublist.map Patch.id)
    have hle := (List.subperm_of_subset honce hids).length_le
    rw [List.length_map, List.length_cons, List.length_map] at hle
    omega
  have hstored : ∀ p ∈ early ++ late, store.patches.get p.id = some p := fun p hp => by
    rw [← harrange, ((tipLast store.patches target).perm _).mem_iff] at hp
    exact ((hmem p).mp hp).1
  have hrank : ∀ p ∈ early ++ late, ∀ q ∈ p.parentIds,
      ((graph store.patches).closure q).elems.length <
        ((graph store.patches).closure p.id).elems.length := fun p hp q hq =>
    ranks_of_acyclic hsound.acyclic p.id p (hstored p hp) q hq
  -- The sort visits the early patches first.
  obtain ⟨visit, hvisit⟩ : ∃ visit, visit = visitPatch (early ++ late) (early ++ late).length :=
    ⟨_, rfl⟩
  have hvisits : ∀ ids state, Visited (early ++ late) (fun _ => False) state →
      Visits (early ++ late) (fun _ => False) ids state (ids.foldl visit state) :=
    fun ids state hstate => Visits.foldl (I := fun _ => True) (fun id _ state hstate _ => by
      rw [hvisit]
      exact ⟨visitPatch_spec hrank hstate nofun List.countP_le_length, trivial⟩) hstate trivial
  obtain ⟨first, hfirst⟩ : ∃ first, first = (early.map Patch.id).foldl visit ([], []) := ⟨_, rfl⟩
  have hbegin := hvisits (early.map Patch.id) _ visited_nil
  rw [← hfirst] at hbegin
  have hgrows := (hvisits (late.map Patch.id) first hbegin.visited).grows
  have hsent : (handlePull (tipLast store.patches target).arrange store ⟨known, some n⟩).patches =
      ((late.map Patch.id).foldl visit first).2.take n := by
    change (topologicalSort ((tipLast store.patches target).arrange
      (missing store.patches known))).take n = _
    rw [harrange, topologicalSort, ← hvisit, List.map_append, List.foldl_append, hfirst]
  have hlength : n ≤ first.2.length := by
    have hids : early.map Patch.id ⊆ first.2.map Patch.id := fun id hid =>
      hbegin.all id hid ((List.map_subset _ (List.subset_append_left _ _)) hid)
    have hle := (List.subperm_of_subset (hnodup.sublist (hearly ▸ List.filter_sublist.map Patch.id))
      hids).length_le
    rw [List.length_map, List.length_map] at hle
    omega
  obtain ⟨rest, hrest⟩ := hgrows
  rw [hsent, ← hrest, List.take_append_of_le_length hlength]
  intro htarget
  obtain ⟨p, hp, hid⟩ := List.mem_map.mp htarget
  have hnever : ∀ p ∈ first.2, p.id ≠ target ∧ ¬ Reaches store.patches p.id target := by
    rw [hfirst, hvisit]
    refine forall_foldl_visit (P := fun id => id ≠ target ∧ ¬ Reaches store.patches id target)
      (fun id hid state h => forall_visitPatch
        (P := fun id => id ≠ target ∧ ¬ Reaches store.patches id target)
        (fun p hp hnot q hq => ?_) _ ?_ h) nofun
    · have hstep : (graph store.patches).Step p.id q :=
        mem_parentIdsOf.mpr ⟨p, hstored p hp, hq⟩
      refine ⟨?_, fun hreach => hnot.2 (.head hstep hreach)⟩
      rintro rfl
      exact hnot.2 (.single hstep)
    · obtain ⟨p, hp, rfl⟩ := List.mem_map.mp hid
      exact ((hearly_mem p).mp hp).2
  exact (hnever p (List.mem_of_mem_take hp)).1 hid

theorem fits_of_deliversTips {store : HubStorage H} (hsound : Sound store.patches)
    {known : List (BranchProto H)} {n : Nat}
    (h : ∀ order : Dag.IterationOrder (Patch H),
      DeliversTips store known n (handlePull order.arrange store ⟨known, some n⟩).patches) :
    Fits store known n := by
  intro name target hbranch hnew
  constructor
  · have hsent := (h ⟨id, fun _ => .refl _⟩ name target hbranch hnew).1
    obtain ⟨p, hp, rfl⟩ := List.mem_map.mp hsent
    have hdelivers := delivers_collectNewPatches hsound ⟨id, fun _ => .refl _⟩ known
    exact contains_iff.mpr ⟨p, ((hdelivers.missing p).mp (List.mem_of_mem_take hp)).1⟩
  · by_contra hmore
    exact target_not_sent hsound (not_le.mp hmore)
      (h (tipLast store.patches target) name target hbranch hnew).1

/-! ### A later pull -/

/-- A hub some time later: rows stay, and no parent that was missing has turned up. -/
structure Later (store store' : HubStorage H) : Prop where
  keeps : Keeps store.patches store'.patches
  parents : ∀ id patch, store.patches.get id = some patch → ∀ p ∈ patch.parentIds,
    store'.patches.contains p = true → store.patches.contains p = true

/-- What a client shares with a hub is the same there, and comes with the parents from there. -/
def Whole (store : HubStorage H) (patches : SortedMap H (Patch H)) : Prop :=
  ∀ id held patch, patches.get id = some held → store.patches.get id = some patch →
    held = patch ∧ ∀ p ∈ patch.parentIds, store.patches.contains p = true →
      patches.contains p = true

/-- All patches on the branches of the hub. -/
def HasPatches (store : HubStorage H) (d : Dag.PatchDag H) : Prop :=
  ∀ id patch, store.patches.get id = some patch → OnBranch store id → d.getPatch id = some patch

/-- A client that has pulled with a depth gets the rest when it pulls without. -/
def Deepens (store : HubStorage H) (n : Nat) : Prop :=
  ∀ (order order' : Dag.IterationOrder (Patch H)) (store' : HubStorage H) (r r' : Opened H),
    Later store store' → Sound store'.patches → Whole store' r.client.patches → r.Fresh → r'.Fresh →
    r'.client = (r.doFetch order store (some n)).client →
    HasPatches store' (r'.doFetch order' store' none).dag

/-- A whole client holds what is known. -/
theorem Whole.holds {store : HubStorage H} {c : Client H} (h : Whole store c.patches) {id : H}
    (hknown : Known store.patches c.listBranches id) (hstored : store.patches.contains id = true) :
    c.patches.contains id = true := by
  obtain ⟨b, hb, -, hbelow⟩ := hknown
  have htarget := (mem_listBranches.mp hb).2
  have hstep : ∀ x y, c.patches.contains x = true → y ∈ parentIdsOf store.patches x →
      store.patches.contains y = true → c.patches.contains y = true := fun x y hx hy hstored => by
    obtain ⟨held, hheld⟩ := contains_iff.mp hx
    obtain ⟨patch, hpatch, hy⟩ := mem_parentIdsOf.mp hy
    exact (h x held patch hheld hpatch).2 y hy hstored
  rcases hbelow with rfl | hreach
  · exact htarget
  · induction hreach with
    | single hy => exact hstep _ _ htarget hy hstored
    | tail _ hy ih =>
      obtain ⟨patch, hpatch, -⟩ := mem_parentIdsOf.mp hy
      exact hstep _ _ (ih (contains_iff.mpr ⟨patch, hpatch⟩)) hy hstored

theorem contains_foldl_storeFetched {patches : List (Patch H)} {c : Client H} {p : Patch H}
    (hp : p ∈ patches) : (patches.foldl Client.storeFetched c).patches.contains p.id = true := by
  induction patches generalizing c with
  | nil => cases hp
  | cons patch rest ih =>
    rcases List.mem_cons.mp hp with rfl | hp
    · refine (foldl_storeFetched rest (c.storeFetched p)).1.contains ?_
      unfold Client.storeFetched
      split
      · assumption
      · exact contains_iff.mpr ⟨p, by rw [SortedMap.get_insert, if_pos rfl]⟩
    · exact ih hp

/-- A shallow fetch leaves a client whole: what it adds comes with its parents. -/
theorem Whole.shallow {store store' : HubStorage H} (hlater : Later store store')
    (hsound : Sound store'.patches) {r : Opened H} (hfresh : r.Fresh)
    (h : Whole store' r.client.patches) (order : Dag.IterationOrder (Patch H)) (n : Nat) :
    Whole store' (r.doFetch order store (some n)).client.patches := by
  have hstore : Sound store.patches := by
    refine ⟨fun id patch hget => hsound.keyed id patch (hlater.keeps id patch hget),
      fun id hid => hsound.acyclic id (Relation.TransGen.mono (fun c p hstep => ?_) id id hid)⟩
    obtain ⟨hstored, patch, hpatch, hp⟩ := hstep
    exact ⟨hlater.keeps.contains hstored, patch, hlater.keeps c patch hpatch, hp⟩
  have hdelivers := delivers_collectNewPatches hstore order r.client.listBranches
  obtain ⟨sent, hsent⟩ : ∃ sent, sent = collectNewPatches order.arrange store.patches
    (collectAncestors store.patches r.client.listBranches) := ⟨_, rfl⟩
  rw [← hsent] at hdelivers
  obtain ⟨hkeep, hnew, -⟩ := foldl_storeFetched (sent.take n) r.client
  have hrows : (r.doFetch order store (some n)).client.patches =
      ((sent.take n).foldl Client.storeFetched r.client).patches := by
    rw [Opened.doFetch, Opened.client_fetch hfresh, Client.applyFetch, (patches_setFetched _ _).1,
      hsent]
    rfl
  rw [hrows]
  intro id held patch hheld hpatch
  rcases hnew id held hheld with hold | ⟨hmem, rfl⟩
  · obtain ⟨hsame, hparents⟩ := h id held patch hold hpatch
    exact ⟨hsame, fun p hp hstored => hkeep.contains (hparents p hp hstored)⟩
  · have hrow := ((hdelivers.missing held).mp (List.mem_of_mem_take hmem)).1
    cases (hlater.keeps _ held hrow).symm.trans hpatch
    refine ⟨rfl, fun p hp hstored => ?_⟩
    have hstored := hlater.parents held.id held hrow p hp hstored
    by_cases hknown : Known store.patches r.client.listBranches p
    · refine hkeep.contains (h.holds ?_ (hlater.keeps.contains hstored))
      obtain ⟨b, hb, hb', hbelow⟩ := hknown
      exact ⟨b, hb, hlater.keeps.contains hb', hbelow.imp_right (reaches_mono hlater.keeps)⟩
    · have hsplit : Delivers store.patches r.client.listBranches (sent.take n ++ sent.drop n) := by
        rwa [List.take_append_drop]
      obtain ⟨q, hq, rfl⟩ := List.mem_map.mp (hsplit.reaches hstore (List.mem_map_of_mem hmem)
        (.single (mem_parentIdsOf.mpr ⟨held, hrow, hp⟩)) hstored hknown)
      exact contains_foldl_storeFetched hq

/-- A whole client that pulls without a depth has everything. -/
theorem Whole.full {store : HubStorage H} (hsound : Sound store.patches) {r : Opened H}
    (hfresh : r.Fresh) (h : Whole store r.client.patches) (order : Dag.IterationOrder (Patch H)) :
    HasPatches store (r.doFetch order store none).dag := by
  have hdelivers : Delivers store.patches r.client.listBranches
      (handlePull order.arrange store ⟨r.client.listBranches, none⟩).patches :=
    delivers_collectNewPatches hsound order r.client.listBranches
  have hfetched := r.fetched_fetch hdelivers.once
  intro id patch hpatch _
  cases hget : r.client.patches.get id with
  | some held =>
    obtain ⟨rfl, -⟩ := h id held patch hget hpatch
    have hkept := hfetched.kept id ((hfresh.inSync id).trans (contains_iff.mpr ⟨held, hget⟩))
    exact hkept.1.trans ((hfresh.getPatch id).trans hget)
  | none =>
    obtain rfl := hsound.keyed id patch hpatch
    have hlacks : r.client.patches.contains patch.id = false := by
      rw [SortedMap.contains_eq, hget]
      rfl
    have hnew : ¬ Known store.patches r.client.listBranches patch.id := fun hknown => by
      rw [h.holds hknown (contains_iff.mpr ⟨patch, hpatch⟩)] at hlacks
      cases hlacks
    obtain ⟨before, after, hsplit⟩ := List.append_of_mem
      ((hdelivers.missing patch).mpr ⟨hpatch, hnew⟩)
    exact (hfetched.added before patch after hsplit ((hfresh.inSync _).trans hlacks)).1

theorem deepens (store : HubStorage H) (n : Nat) : Deepens store n := by
  intro order order' store' r r' hlater hsound hwhole hfresh hfresh' hclient
  have hshallow := hwhole.shallow hlater hsound hfresh order n
  rw [← hclient] at hshallow
  exact hshallow.full hsound hfresh' order'

/-- The tips are there in any order exactly if the targets are stored and no more patches than
the depth are not above them; what is left out comes with a later pull. -/
theorem shallow_pull_iff {store : HubStorage H} (hsound : Sound store.patches)
    (known : List (BranchProto H)) (n : Nat) :
    ((∀ order : Dag.IterationOrder (Patch H),
        DeliversTips store known n (handlePull order.arrange store ⟨known, some n⟩).patches) ∧
      Deepens store n) ↔ Fits store known n :=
  ⟨fun h => fits_of_deliversTips hsound h.1, fun h =>
    ⟨deliversTips_of_fits hsound h, deepens store n⟩⟩

theorem shallow_pull_fits : (∀ order : Dag.IterationOrder (Patch Nat),
      DeliversTips twoPatches [⟨"main", 1⟩] 1
        (handlePull order.arrange twoPatches ⟨[⟨"main", 1⟩], some 1⟩).patches) ∧
    Deepens twoPatches 1 := by
  refine (shallow_pull_iff twoPatches_rows.1 [⟨"main", 1⟩] 1).mpr fun name target hbranch _ => ?_
  cases List.mem_singleton.mp (SortedMap.mem_entries.mpr hbranch)
  decide +kernel

/-- One patch of the branch is asked for, and the first one comes, not the last. -/
theorem tip_not_sent : twoPatches.branches.get "main" = some 2 ∧
    ((handlePull id twoPatches ⟨[], some 1⟩).patches).map Patch.id = [1] ∧
    ¬ ∀ order : Dag.IterationOrder (Patch Nat), DeliversTips twoPatches [] 1
      (handlePull order.arrange twoPatches ⟨[], some 1⟩).patches := by
  refine ⟨rfl, by decide +kernel, fun h => ?_⟩
  have hknown : ¬ Known twoPatches.patches [] 2 := by
    rintro ⟨b, hb, -⟩
    cases hb
  have hsent := (h ⟨id, fun _ => .refl _⟩ "main" 2 rfl hknown).1
  exact absurd hsent (by decide +kernel)

end Suture.Hub
