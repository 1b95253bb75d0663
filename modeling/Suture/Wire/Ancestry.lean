import Mathlib.Data.List.Perm.Subperm
import Suture.Foundation.Worklist
import Suture.Wire.Tables

/-!
# The ancestry check

A push to a branch is fast-forward if its old target is an ancestor of the new one. The
search for it goes along the parents in batches, one query for each, and gives up once more
than 100 000 ids have been visited.
-/

namespace Suture.Wire
set_option autoImplicit false
open Foundation

namespace HubStorage
variable (maxVariables : Nat) (store : HubStorage) (repoId ancestor : String)

/-- The batch as a query: the repository and each id are variables of it. -/
def queryPatchesBatch (ids : List String) : Except DatabaseError (List PatchProto) :=
  if ids = [] then .ok []
  else if maxVariables < ids.length + 1 then .error .tooManyVariables
  else .ok (store.getPatchesBatch repoId ids)

/-- The search with the queries it makes. -/
def searchBatches (visited : SortedSet String) (frontier : List String) :
    Except DatabaseError Bool :=
  let fresh := (SortedSet.ofList frontier).elems.filter fun id => decide (id ∉ visited)
  if _hfresh : fresh = [] then .ok false
  else
    match store.queryPatchesBatch maxVariables repoId fresh with
    | .error e => .error e
    | .ok patches =>
      let parents := patches.flatMap fun patch => patch.parentIds.map HashProto.value
      let visited' := fresh.foldl (fun s a => s.insert a) visited
      if ancestor ∈ parents then .ok true
      else if _hlimit : visited'.elems.length > 100000 then .ok false
      else searchBatches visited' (parents.filter fun id => decide (id ∉ visited'))
termination_by 100001 - visited.elems.length
decreasing_by
  have hnodup : fresh.Nodup := (SortedSet.nodup _).filter _
  have hlength := Hub.length_foldl_insert hnodup (s := visited) fun a ha =>
    of_decide_eq_true (List.mem_filter.mp ha).2
  have hpos := List.length_pos_of_ne_nil _hfresh
  simp only [visited', fresh] at *
  omega

def searchAncestor (ancestorId descendantId : String) : Except DatabaseError Bool :=
  if ancestorId = descendantId then .ok true
  else store.searchBatches maxVariables repoId ancestorId .empty [descendantId]

end HubStorage

/-! ### The search in balls -/

section Balls
variable (parentsOf : String → List String) (ancestor descendant : String)

/-- The ancestor is a parent within `i` links of the descendant. -/
def ParentWithin (i : Nat) : Prop := ∃ id ∈ ball parentsOf descendant i, ancestor ∈ parentsOf id

/-- What has been visited, and what is next, after `i` batches. -/
structure Searched (i : Nat) (visited : SortedSet String) (frontier : List String) : Prop where
  ball : ∀ id, id ∈ ball parentsOf descendant i ↔ id ∈ visited ∨ id ∈ frontier
  links : ∀ id ∈ visited, ∀ parent ∈ parentsOf id, parent ∈ visited ∨ parent ∈ frontier
  absent : ∀ id ∈ visited, ancestor ∉ parentsOf id

variable {parentsOf ancestor descendant} {i : Nat} {visited : SortedSet String}
  {frontier : List String}

theorem searched_start : Searched parentsOf ancestor descendant 0 .empty [descendant] where
  ball id := by
    rw [mem_ball_zero, List.mem_singleton]
    exact ⟨.inr, fun h => h.resolve_left (SortedSet.not_mem_empty id)⟩
  links id h := absurd h (SortedSet.not_mem_empty id)
  absent id h := absurd h (SortedSet.not_mem_empty id)

/-- The batch of a frontier. -/
def freshOf (visited : SortedSet String) (frontier : List String) : List String :=
  (SortedSet.ofList frontier).elems.filter fun id => decide (id ∉ visited)

/-- What has been visited after the batch. -/
def visit (visited : SortedSet String) (frontier : List String) : SortedSet String :=
  (freshOf visited frontier).foldl (fun s a => s.insert a) visited

theorem mem_freshOf {id : String} :
    id ∈ freshOf visited frontier ↔ id ∈ frontier ∧ id ∉ visited := by
  rw [freshOf, List.mem_filter, decide_eq_true_eq, ← SortedSet.mem_def, SortedSet.mem_ofList]

theorem mem_visit {id : String} :
    id ∈ visit visited frontier ↔ id ∈ freshOf visited frontier ∨ id ∈ visited :=
  SortedSet.mem_foldl_insert

namespace Searched
variable (hs : Searched parentsOf ancestor descendant i visited frontier)
include hs

/-- After the batch, what has been visited is the ball. -/
theorem visited_eq : visit visited frontier = Foundation.ball parentsOf descendant i := by
  apply SortedSet.ext
  intro id
  rw [mem_visit, mem_freshOf, hs.ball]
  constructor
  · rintro (⟨hid, -⟩ | hid)
    · exact .inr hid
    · exact .inl hid
  · rintro (hid | hid)
    · exact .inr hid
    · by_cases hvisited : id ∈ visited
      · exact .inr hvisited
      · exact .inl ⟨hid, hvisited⟩

theorem parentWithin_iff : ParentWithin parentsOf ancestor descendant i ↔
    ancestor ∈ (freshOf visited frontier).flatMap parentsOf := by
  rw [List.mem_flatMap]
  constructor
  · rintro ⟨id, hid, hparent⟩
    refine ⟨id, ?_, hparent⟩
    rw [← hs.visited_eq, mem_visit] at hid
    exact hid.resolve_right fun hvisited => hs.absent id hvisited hparent
  · rintro ⟨id, hid, hparent⟩
    exact ⟨id, (hs.ball id).mpr (.inr (mem_freshOf.mp hid).1), hparent⟩

/-- Where the batch is empty, no ball is larger. -/
theorem not_parentWithin_of_done (hdone : freshOf visited frontier = []) (j : Nat) :
    ¬ ParentWithin parentsOf ancestor descendant j := by
  have hvisited := hs.visited_eq
  rw [visit, hdone, List.foldl_nil] at hvisited
  rintro ⟨id, hid, hparent⟩
  refine hs.absent id ?_ hparent
  rw [hvisited]
  apply mem_ball_of_closed _ hid
  intro b hb c hc
  exact (hs.ball c).mpr (hs.links b (hvisited ▸ hb) c hc)

theorem step (hnot : ancestor ∉ (freshOf visited frontier).flatMap parentsOf) :
    Searched parentsOf ancestor descendant (i + 1) (visit visited frontier)
      (((freshOf visited frontier).flatMap parentsOf).filter fun id =>
        decide (id ∉ visit visited frontier)) := by
  have hvisited := hs.visited_eq
  have hmem : ∀ id ∈ Foundation.ball parentsOf descendant i, ∀ parent ∈ parentsOf id,
      parent ∉ Foundation.ball parentsOf descendant i →
        parent ∈ (freshOf visited frontier).flatMap parentsOf := by
    intro id hid parent hparent hnew
    rw [← hvisited, mem_visit] at hid
    rcases hid with hid | hid
    · exact List.mem_flatMap.mpr ⟨id, hid, hparent⟩
    · exact absurd ((hs.ball parent).mpr (hs.links id hid parent hparent)) hnew
  rw [hvisited]
  refine ⟨fun id => ?_, fun id hid parent hparent => ?_, fun id hid hparent => ?_⟩
  · rw [mem_ball_succ, List.mem_filter, decide_eq_true_eq]
    constructor
    · rintro (⟨b, hb, hid⟩ | hid)
      · by_cases hold : id ∈ Foundation.ball parentsOf descendant i
        · exact .inl hold
        · exact .inr ⟨hmem b hb id hid hold, hold⟩
      · exact .inl hid
    · rintro (hid | ⟨hid, -⟩)
      · exact .inr hid
      · obtain ⟨b, hb, hid⟩ := List.mem_flatMap.mp hid
        exact .inl ⟨b, (hs.ball b).mpr (.inr (mem_freshOf.mp hb).1), hid⟩
  · by_cases hold : parent ∈ Foundation.ball parentsOf descendant i
    · exact .inl hold
    · rw [List.mem_filter, decide_eq_true_eq]
      exact .inr ⟨hmem id hid parent hparent hold, hold⟩
  · exact hnot (hs.parentWithin_iff.mp ⟨id, hid, hparent⟩)

end Searched

/-- The search finds the ancestor within a ball if all smaller balls are small enough. -/
theorem isAncestorBatched_iff
    (hs : Searched parentsOf ancestor descendant i visited frontier) :
    isAncestorBatched parentsOf ancestor visited frontier = true ↔
      ∃ j ≥ i, ParentWithin parentsOf ancestor descendant j ∧
        ∀ k, i ≤ k → k < j → (ball parentsOf descendant k).elems.length ≤ 100000 := by
  fun_induction isAncestorBatched parentsOf ancestor visited frontier generalizing i with
  | case1 visited frontier fresh =>
    rename_i hdone
    constructor
    · intro h
      cases h
    · rintro ⟨j, -, hj, -⟩
      exact absurd hj (hs.not_parentWithin_of_done hdone j)
  | case2 visited frontier fresh hfresh parents =>
    rename_i hfound
    constructor
    · intro _
      exact ⟨i, le_rfl, hs.parentWithin_iff.mpr hfound, fun k hik hki => absurd hik (by omega)⟩
    · intro _
      rfl
  | case3 visited frontier fresh hfresh parents visited' hfound =>
    rename_i hlimit
    constructor
    · intro h
      cases h
    · rintro ⟨j, hij, hj, hsmall⟩
      rcases Nat.eq_or_lt_of_le hij with rfl | hij
      · exact absurd (hs.parentWithin_iff.mp hj) hfound
      · have hball : visited' = ball parentsOf descendant i := hs.visited_eq
        have hfits := hsmall i le_rfl hij
        rw [hball] at hlimit
        omega
  | case4 visited frontier fresh hfresh parents visited' hfound hlimit =>
    rename_i ih
    rw [ih (hs.step hfound)]
    have hball : visited' = ball parentsOf descendant i := hs.visited_eq
    rw [hball] at hlimit
    constructor
    · rintro ⟨j, hij, hj, hsmall⟩
      refine ⟨j, by omega, hj, fun k hik hkj => ?_⟩
      rcases Nat.eq_or_lt_of_le hik with rfl | hik
      · omega
      · exact hsmall k hik hkj
    · rintro ⟨j, hij, hj, hsmall⟩
      rcases Nat.eq_or_lt_of_le hij with rfl | hij
      · exact absurd (hs.parentWithin_iff.mp hj) hfound
      · exact ⟨j, hij, hj, fun k hik hkj => hsmall k (by omega) hkj⟩

end Balls

/-! ### The answer of the store -/

namespace HubStorage
section Answer
variable {maxVariables : Nat} {store : HubStorage} {repoId ancestor descendant : String} {i : Nat}
  {visited : SortedSet String} {frontier : List String}

theorem queryPatchesBatch_ok {ids : List String} {patches : List PatchProto}
    (h : store.queryPatchesBatch maxVariables repoId ids = .ok patches) :
    (patches.flatMap fun patch => patch.parentIds.map HashProto.value) =
      ids.flatMap (store.parentIdsOf repoId) := by
  have hparents : ∀ ids : List String,
      ((store.getPatchesBatch repoId ids).flatMap fun patch =>
        patch.parentIds.map HashProto.value) = ids.flatMap (store.parentIdsOf repoId) := by
    intro ids
    induction ids with
    | nil => rfl
    | cons id ids ih =>
      unfold getPatchesBatch at ih ⊢
      rw [List.filterMap_cons, List.flatMap_cons, parentIdsOf]
      cases store.patches.get (key repoId id) with
      | none => exact ih
      | some patch => exact congrArg (patch.parentIds.map HashProto.value ++ ·) ih
  unfold queryPatchesBatch at h
  split at h
  · rename_i hnone
    cases h
    rw [hnone]
    rfl
  · split at h
    · cases h
    · cases h
      exact hparents ids

theorem isAncestorBatched_eq (parentsOf : String → List String) :
    isAncestorBatched parentsOf ancestor visited frontier =
      if freshOf visited frontier = [] then false
      else if ancestor ∈ (freshOf visited frontier).flatMap parentsOf then true
      else if (visit visited frontier).elems.length > 100000 then false
      else isAncestorBatched parentsOf ancestor (visit visited frontier)
        (((freshOf visited frontier).flatMap parentsOf).filter fun id =>
          decide (id ∉ visit visited frontier)) := by
  rw [isAncestorBatched]
  rfl

theorem searchBatches_ok {answer : Bool}
    (h : store.searchBatches maxVariables repoId ancestor visited frontier = .ok answer) :
    isAncestorBatched (store.parentIdsOf repoId) ancestor visited frontier = answer := by
  fun_induction searchBatches maxVariables store repoId ancestor visited frontier with
  | case1 visited frontier fresh hdone =>
    change freshOf visited frontier = [] at hdone
    rw [isAncestorBatched_eq, if_pos hdone]
    exact Except.ok.inj h
  | case2 => cases h
  | case3 visited frontier fresh hfresh patches hpatches parents hfound =>
    have hparents : parents = (freshOf visited frontier).flatMap _ := queryPatchesBatch_ok hpatches
    change freshOf visited frontier ≠ [] at hfresh
    rw [hparents] at hfound
    rw [isAncestorBatched_eq, if_neg hfresh, if_pos hfound]
    exact Except.ok.inj h
  | case4 visited frontier fresh hfresh patches hpatches parents visited' hfound hlimit =>
    have hparents : parents = (freshOf visited frontier).flatMap _ := queryPatchesBatch_ok hpatches
    change freshOf visited frontier ≠ [] at hfresh
    change (visit visited frontier).elems.length > 100000 at hlimit
    rw [hparents] at hfound
    rw [isAncestorBatched_eq, if_neg hfresh, if_neg hfound, if_pos hlimit]
    exact Except.ok.inj h
  | case5 visited frontier fresh hfresh patches hpatches parents visited' hfound hlimit ih =>
    have hparents : parents = (freshOf visited frontier).flatMap _ := queryPatchesBatch_ok hpatches
    change freshOf visited frontier ≠ [] at hfresh
    change ¬ (visit visited frontier).elems.length > 100000 at hlimit
    have hrest := ih h
    rw [hparents] at hfound hrest
    rw [isAncestorBatched_eq, if_neg hfresh, if_neg hfound, if_neg hlimit]
    exact hrest

theorem queryPatchesBatch_error {ids : List String} {e : DatabaseError}
    (h : store.queryPatchesBatch maxVariables repoId ids = .error e) : maxVariables ≤ ids.length := by
  unfold queryPatchesBatch at h
  split at h
  · cases h
  · split at h
    · omega
    · cases h

theorem searchBatches_error {e : DatabaseError}
    (hs : Searched (store.parentIdsOf repoId) ancestor descendant i visited frontier)
    (h : store.searchBatches maxVariables repoId ancestor visited frontier = .error e) :
    ∃ j, maxVariables ≤ (ball (store.parentIdsOf repoId) descendant j).elems.length := by
  fun_induction searchBatches maxVariables store repoId ancestor visited frontier generalizing i with
  | case1 => cases h
  | case2 visited frontier fresh hfresh e' =>
    rename_i he
    have hnodup : fresh.Nodup := (SortedSet.nodup _).filter _
    have hsub : fresh ⊆ (ball (store.parentIdsOf repoId) descendant i).elems :=
      fun id hid => (hs.ball id).mpr (.inr (mem_freshOf.mp hid).1)
    have hlength := (List.subperm_of_subset hnodup hsub).length_le
    exact ⟨i, (queryPatchesBatch_error he).trans hlength⟩
  | case3 => cases h
  | case4 => cases h
  | case5 visited frontier fresh hfresh patches hpatches parents visited' hfound hlimit =>
    rename_i ih
    have hparents : parents = (freshOf visited frontier).flatMap _ := queryPatchesBatch_ok hpatches
    have hstep := hs.step (hparents ▸ hfound)
    rw [← hparents] at hstep
    exact ih hstep h

/-- The ancestor is a parent within so many links of the descendant, with at most 100 000 ids
within any fewer. -/
def FoundWithin (store : HubStorage) (repoId ancestor descendant : String) : Prop :=
  ∃ i, ParentWithin (store.parentIdsOf repoId) ancestor descendant i ∧
    ∀ k < i, (ball (store.parentIdsOf repoId) descendant k).elems.length ≤ 100000

/-- A parent of what can be reached along the parents of stored patches. -/
def AncestorOf (store : HubStorage) (repoId ancestor descendant : String) : Prop :=
  Relation.TransGen (fun id parent => parent ∈ store.parentIdsOf repoId id) descendant ancestor

theorem ancestorOf_of_foundWithin (h : store.FoundWithin repoId ancestor descendant) :
    store.AncestorOf repoId ancestor descendant := by
  obtain ⟨i, hparent, -⟩ := h
  exact exists_link_iff.mp ⟨i, hparent⟩

/-- On a history of at most 100 000 ids the search is exact. -/
theorem foundWithin_iff_ancestorOf
    (hsmall : ∀ k, (ball (store.parentIdsOf repoId) descendant k).elems.length ≤ 100000) :
    store.FoundWithin repoId ancestor descendant ↔ store.AncestorOf repoId ancestor descendant := by
  constructor
  · exact ancestorOf_of_foundWithin
  · intro h
    obtain ⟨i, hparent⟩ := exists_link_iff.mpr h
    exact ⟨i, hparent, fun k _ => hsmall k⟩

theorem isAncestor_iff : store.isAncestor repoId ancestor descendant = true ↔
    ancestor = descendant ∨ store.FoundWithin repoId ancestor descendant := by
  have hstart : Searched (store.parentIdsOf repoId) ancestor descendant 0 .empty [descendant] :=
    searched_start
  rw [isAncestor, Bool.or_eq_true, decide_eq_true_eq, isAncestorBatched_iff hstart]
  apply or_congr_right
  constructor
  · rintro ⟨i, -, hparent, hsmall⟩
    exact ⟨i, hparent, fun k hk => hsmall k (Nat.zero_le k) hk⟩
  · rintro ⟨i, hparent, hsmall⟩
    exact ⟨i, Nat.zero_le i, hparent, fun k _ hk => hsmall k hk⟩

/-- The queries change nothing in an answer. -/
theorem isAncestor_eq_of_answer {answer : Bool}
    (h : store.searchAncestor maxVariables repoId ancestor descendant = .ok answer) :
    store.isAncestor repoId ancestor descendant = answer := by
  unfold searchAncestor at h
  rw [isAncestor]
  split at h
  · rename_i hsame
    rw [decide_eq_true hsame, Bool.true_or]
    exact Except.ok.inj h
  · rename_i hsame
    rw [decide_eq_false hsame, Bool.false_or]
    exact searchBatches_ok h

end Answer
end HubStorage

/-! ### A long history -/

section Chain

def chainId (k : Nat) : String := String.ofList (List.replicate k 'a')

theorem chainId_inj {k l : Nat} (h : chainId k = chainId l) : k = l := by
  have hlength := congrArg (fun id => id.toList.length) h
  simpa only [chainId, String.toList_ofList, List.length_replicate] using hlength

def chainPatch (k : Nat) : PatchProto :=
  ⟨⟨chainId k⟩, "create", [], none, "", [⟨chainId (k - 1)⟩], "", "", 0⟩

/-- Each patch has the one before it as its parent; the first parent is not stored. -/
def chain : Nat → SortedMap Key PatchProto
  | 0 => .empty
  | n + 1 => (chain n).insert (key "r" (chainId (n + 1))) (chainPatch (n + 1))

def chainStore (n : Nat) : HubStorage where
  repos := .empty
  patches := chain n
  branches := .empty
  blobs := .empty
  branchProtection := .empty
  authorizedKeys := .empty
  tokens := .empty
  blobMetadata := .empty
  blobTrigrams := .empty
  replicationLog := []
  maxBlobSize := 52428800

theorem get_chain (n k : Nat) : (chain n).get (key "r" (chainId k)) =
    if 0 < k ∧ k ≤ n then some (chainPatch k) else none := by
  induction n with
  | zero =>
    rw [if_neg (by omega)]
    rfl
  | succ n ih =>
    rw [chain, SortedMap.get_insert, ih]
    by_cases hlast : k = n + 1
    · subst hlast
      rw [if_pos rfl, if_pos (by omega)]
    · have hkey : key "r" (chainId k) ≠ key "r" (chainId (n + 1)) := by
        intro h
        exact hlast (chainId_inj (congrArg (fun x => (ofLex x).2) h))
      rw [if_neg hkey]
      congr 1
      apply propext
      omega

theorem mem_parentIdsOf_chainStore {n k : Nat} {parent : String} :
    parent ∈ (chainStore n).parentIdsOf "r" (chainId k) ↔
      (0 < k ∧ k ≤ n) ∧ parent = chainId (k - 1) := by
  unfold HubStorage.parentIdsOf
  change parent ∈ (Option.map _ ((chain n).get _)).getD [] ↔ _
  rw [get_chain]
  split
  · rename_i hk
    rw [and_iff_right hk]
    exact List.mem_singleton
  · rename_i hk
    exact ⟨fun h => absurd h List.not_mem_nil, fun h => absurd h.1 hk⟩

/-- The ball around the last patch is the end of the chain. -/
theorem mem_ball_chainStore {n i : Nat} {id : String} :
    id ∈ ball ((chainStore n).parentIdsOf "r") (chainId n) i ↔
      ∃ k, id = chainId k ∧ k ≤ n ∧ n ≤ k + i := by
  induction i generalizing id with
  | zero =>
    rw [mem_ball_zero]
    constructor
    · rintro rfl
      exact ⟨n, rfl, le_rfl, le_rfl⟩
    · rintro ⟨k, rfl, hkn, hnk⟩
      rw [le_antisymm hkn hnk]
  | succ i ih =>
    rw [mem_ball_succ, ih]
    constructor
    · rintro (⟨b, hb, hid⟩ | ⟨k, hid, hkn, hnk⟩)
      · obtain ⟨k, rfl, hkn, hnk⟩ := ih.mp hb
        obtain ⟨hk, rfl⟩ := mem_parentIdsOf_chainStore.mp hid
        exact ⟨k - 1, rfl, by omega, by omega⟩
      · exact ⟨k, hid, hkn, by omega⟩
    · rintro ⟨k, rfl, hkn, hnk⟩
      rcases Nat.eq_or_lt_of_le hkn with rfl | hkn
      · exact .inr ⟨k, rfl, le_rfl, by omega⟩
      · refine .inl ⟨chainId (k + 1), ih.mpr ⟨k + 1, rfl, hkn, by omega⟩, ?_⟩
        exact mem_parentIdsOf_chainStore.mpr ⟨⟨by omega, hkn⟩, rfl⟩

theorem le_length_ball_chainStore {n i : Nat} (h : i ≤ n) :
    i < (ball ((chainStore n).parentIdsOf "r") (chainId n) i).elems.length := by
  have hnodup : ((List.range (i + 1)).map fun j => chainId (n - j)).Nodup := by
    rw [List.nodup_map_iff_inj_on List.nodup_range]
    intro j hj j' hj' hid
    have hsame := chainId_inj hid
    rw [List.mem_range] at hj hj'
    omega
  have hsub : ((List.range (i + 1)).map fun j => chainId (n - j)) ⊆
      (ball ((chainStore n).parentIdsOf "r") (chainId n) i).elems := by
    intro id hid
    obtain ⟨j, hj, rfl⟩ := List.mem_map.mp hid
    rw [List.mem_range] at hj
    exact mem_ball_chainStore.mpr ⟨n - j, rfl, by omega, by omega⟩
  have hlength := (List.subperm_of_subset hnodup hsub).length_le
  rw [List.length_map, List.length_range] at hlength
  exact hlength

theorem ancestorOf_chainStore {n : Nat} (h : 0 < n) :
    (chainStore n).AncestorOf "r" (chainId 0) (chainId n) := by
  apply exists_link_iff.mp
  refine ⟨n, chainId 1, mem_ball_chainStore.mpr ⟨1, rfl, h, by omega⟩, ?_⟩
  exact mem_parentIdsOf_chainStore.mpr ⟨⟨Nat.one_pos, h⟩, rfl⟩

/-- The first patch of a long chain is not found. -/
theorem not_foundWithin_chainStore {n : Nat} (h : 100001 < n) :
    ¬ (chainStore n).FoundWithin "r" (chainId 0) (chainId n) := by
  rintro ⟨i, ⟨id, hid, hparent⟩, hsmall⟩
  obtain ⟨k, rfl, -, hk⟩ := mem_ball_chainStore.mp hid
  obtain ⟨hpos, hfirst⟩ := mem_parentIdsOf_chainStore.mp hparent
  have hk1 := chainId_inj hfirst
  have hfits := hsmall 100000 (by omega)
  have hlarge := le_length_ball_chainStore (n := n) (i := 100000) (by omega)
  omega

end Chain

end Suture.Wire
