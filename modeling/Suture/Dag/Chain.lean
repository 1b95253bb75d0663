import Suture.Dag.Plan
import Suture.Foundation.StableSort

/-!
# Patch chains

`chain` is what `patchChainFull` returns when the cached sets are exact: the history
of a patch by generation and id. Later patches do not change it.
-/

namespace Suture.Dag
set_option autoImplicit false
open Foundation Common Patches

namespace PatchDag
variable {H : Type} [LinearOrder H] {d d' d'' : PatchDag H} {patch : Patch H} {parentIds : List H}

def chain (d : PatchDag H) (id : H) : List H :=
  ((d.ancestry.closure id).insert id).elems.insertionSort fun x y =>
    d.generation x ≤ d.generation y

theorem mem_chain {id p : H} : p ∈ d.chain id ↔ d.History id p := by
  rw [chain, List.mem_insertionSort, ← SortedSet.mem_def, SortedSet.mem_insert,
    d.ancestry.mem_closure]
  rfl

theorem chain_sorted (d : PatchDag H) (id : H) : (d.chain id).Pairwise (LexLt d.generation) :=
  insertionSort_lex (SortedSet.sorted _)

/-- The chain below a patch with these parents. -/
def jointChain (d : PatchDag H) (parentIds : List H) : List H :=
  (SortedSet.ofList (parentIds.flatMap d.chain)).elems.insertionSort fun x y =>
    d.generation x ≤ d.generation y

theorem mem_jointChain {p : H} :
    p ∈ d.jointChain parentIds ↔ ∃ q ∈ parentIds, d.History q p := by
  rw [jointChain, List.mem_insertionSort, ← SortedSet.mem_def, SortedSet.mem_ofList, List.mem_flatMap]
  simp only [mem_chain]

theorem jointChain_sorted (d : PatchDag H) (parentIds : List H) :
    (d.jointChain parentIds).Pairwise (LexLt d.generation) := insertionSort_lex (SortedSet.sorted _)

theorem jointChain_singleton (d : PatchDag H) (id : H) : d.jointChain [id] = d.chain id :=
  lex_ext (d.jointChain_sorted _) (d.chain_sorted id) fun p => by
    rw [mem_jointChain, mem_chain]
    simp

theorem ancestors_eq (hd : d.CacheExact) (id : H) : (d.ancestors id).1 = d.ancestry.closure id :=
  SortedSet.ext fun p => by
    rw [mem_ancestors hd, d.ancestry.mem_closure]
    rfl

theorem patchChainFull_eq (hd : d.CacheExact) (id : H) : (d.patchChainFull id).1 = d.chain id := by
  have hset := ancestors_eq hd id
  have hgen : (d.ancestors id).2.generation = d.generation :=
    funext (d.queried_ancestors id).same.generation
  unfold patchChainFull chain
  dsimp only
  rw [hset, hgen]

theorem Grows.history (h : Grows d d') (hd : d.Graded) {x y : H} (hx : d.hasPatch x = true) :
    d'.History x y ↔ d.History x y := or_congr_right (h.reaches hd hx)

/-- Later patches leave the chain of a patch as it is. -/
theorem Grows.chain (h : Grows d d') (hd : d.Graded) {id : H} (hid : d.hasPatch id = true) :
    d'.chain id = d.chain id := by
  refine lex_ext ?_ (d.chain_sorted id) fun p => ?_
  · refine (d'.chain_sorted id).imp_of_mem fun {x y} hx hy hlt => ?_
    rw [mem_chain, h.history hd hid] at hx hy
    have hgen := fun {z : H} (hz : d.History id z) => h.generation (hd.history_known hz hid)
    unfold LexLt at hlt ⊢
    rwa [hgen hx, hgen hy] at hlt
  · rw [mem_chain, mem_chain, h.history hd hid]

/-- The patches of a chain are there. -/
theorem known_of_mem_chain (hd : d.Graded) {id p : H} (hid : d.hasPatch id = true)
    (hp : p ∈ d.chain id) : d.hasPatch p = true := hd.history_known (mem_chain.mp hp) hid

theorem Grows.jointChain (h : Grows d d') (hd : d.Graded)
    (hids : ∀ q ∈ parentIds, d.hasPatch q = true) : d'.jointChain parentIds = d.jointChain parentIds := by
  have hmem : ∀ p, p ∈ d'.jointChain parentIds ↔ p ∈ d.jointChain parentIds := fun p => by
    simp only [mem_jointChain]
    exact exists_congr fun q => and_congr_right fun hq => h.history hd (hids q hq)
  refine lex_ext ?_ (d.jointChain_sorted parentIds) hmem
  refine (d'.jointChain_sorted parentIds).imp_of_mem fun {x y} hx hy hlt => ?_
  have hgen : ∀ z ∈ d'.jointChain parentIds, d'.generation z = d.generation z := fun z hz => by
    obtain ⟨q, hq, hqz⟩ := mem_jointChain.mp ((hmem z).mp hz)
    exact h.generation (hd.history_known hqz (hids q hq))
  unfold LexLt at hlt ⊢
  rwa [hgen x hx, hgen y hy] at hlt

/-- A new patch comes last in its own chain. -/
theorem Extends.chain_new (h : Extends d d' patch parentIds) (hd : d.Graded) :
    d'.chain patch.id = d.jointChain parentIds ++ [patch.id] := by
  have hgraded := h.graded hd
  have hknown : ∀ p ∈ d.jointChain parentIds, d.hasPatch p = true := fun p hp => by
    obtain ⟨q, hq, hqp⟩ := mem_jointChain.mp hp
    exact hd.history_known hqp (h.parents_known q hq)
  have hbelow : ∀ p, d'.Reaches patch.id p ↔ p ∈ d.jointChain parentIds := by
    intro p
    rw [mem_jointChain]
    constructor
    · intro hreach
      obtain ⟨q, hq, hqp⟩ := Relation.TransGen.head'_iff.mp hreach
      have hq : q ∈ d'.parents patch.id := hq
      rw [h.parents_new] at hq
      refine ⟨q, hq, ?_⟩
      rcases Relation.reflTransGen_iff_eq_or_transGen.mp hqp with heq | hqp
      · exact .inl heq
      · exact .inr ((h.grows.reaches hd (h.parents_known q hq)).mp hqp)
    · rintro ⟨q, hq, hqp⟩
      have hstep : d'.ancestry.Step patch.id q := by
        change q ∈ d'.parents patch.id
        rwa [h.parents_new]
      rcases hqp with rfl | hqp
      · exact .single hstep
      · exact .head hstep ((h.grows.reaches hd (h.parents_known q hq)).mpr hqp)
  refine lex_ext (d'.chain_sorted _) ?_ fun p => ?_
  · rw [List.pairwise_append]
    refine ⟨(d.jointChain_sorted parentIds).imp_of_mem fun {x y} hx hy hlt => ?_, List.pairwise_singleton _ _, ?_⟩
    · unfold LexLt at hlt ⊢
      rwa [h.grows.generation (hknown x hx), h.grows.generation (hknown y hy)]
    · intro x hx y hy
      rw [List.mem_singleton] at hy
      subst hy
      exact .inl (hgraded.reaches ((hbelow x).mpr hx)).2
  · rw [mem_chain, List.mem_append, List.mem_singleton, History, hbelow, or_comm]

/-! ### Questions about patches that are there -/

/-- Only patches that are there have been asked about. -/
def CacheKnown (d : PatchDag H) : Prop :=
  ∀ id cached, Assoc.get d.ancestorCache id = some cached → d.hasPatch id = true

/-- What a call may do that asks only about patches that are there. -/
structure Asked (d d' : PatchDag H) : Prop where
  queried : Queried d d'
  known : d.CacheKnown → d'.CacheKnown

namespace Asked

theorem refl (d : PatchDag H) : Asked d d := ⟨.refl d, id⟩

theorem trans (h : Asked d d') (h' : Asked d' d'') : Asked d d'' :=
  ⟨h.queried.trans h'.queried, fun hd => h'.known (h.known hd)⟩

theorem grows (h : Asked d d') : Grows d d' := fun id _ => by
  rw [view, view, h.queried.same.getNode]

theorem sound (h : Asked d d') (hd : d.Sound) : d'.Sound := hd.queried h.queried

theorem hasPatch (h : Asked d d') (id : H) : d'.hasPatch id = d.hasPatch id :=
  h.queried.same.hasPatch id

end Asked

theorem asked_ancestors {id : H} (hid : d.hasPatch id = true) : Asked d (d.ancestors id).2 := by
  refine ⟨d.queried_ancestors id, fun hd j cached hj => ?_⟩
  rw [(d.queried_ancestors id).same.hasPatch]
  unfold ancestors at hj
  split at hj
  · exact hd j cached hj
  · rw [Assoc.get_insert] at hj
    split at hj
    · rename_i heq
      rwa [heq]
    · exact hd j cached hj

theorem asked_lca {a b : H} (ha : d.hasPatch a = true) (hb : d.hasPatch b = true) :
    Asked d (d.lca a b).2 := by
  have h₁ := asked_ancestors ha
  have h := h₁.trans (asked_ancestors ((h₁.hasPatch b).trans hb))
  unfold lca
  dsimp only
  split_ifs
  · exact .refl d
  all_goals exact h

theorem SameGraph.ancestry (h : SameGraph d d') : d'.ancestry = d.ancestry := by
  unfold PatchDag.ancestry
  congr 1
  · exact funext h.parents
  · rw [h.nodes]

theorem SameGraph.better (h : SameGraph d d') : d'.better = d.better := by
  funext best candidate
  cases best with
  | none => rfl
  | some b => rw [PatchDag.better, h.generation, h.generation, PatchDag.better]

theorem lca_eq (hd : d.CacheExact) (a b : H) : (d.lca a b).1 =
    if a = b then some a
    else if a ∈ d.ancestry.closure b then some a
    else if b ∈ d.ancestry.closure a then some b
    else ((d.ancestry.closure a).elems.filter fun id =>
      decide (id ∈ d.ancestry.closure b)).foldl d.better none := by
  have hA := d.queried_ancestors a
  have hB : ((d.ancestors a).2.ancestors b).1 = d.ancestry.closure b := by
    rw [ancestors_eq (hA.cache hd), hA.same.ancestry]
  have hbetter := (hA.trans (queried_ancestors _ b)).same.better
  unfold lca
  dsimp only
  rw [hB, hbetter, ancestors_eq hd]
  split_ifs <;> rfl

/-- What was asked before does not change the LCA. -/
theorem Queried.lca (h : Queried d d') (hd : d.CacheExact) (a b : H) :
    (d'.lca a b).1 = (d.lca a b).1 := by
  rw [lca_eq (h.cache hd), lca_eq hd, h.same.ancestry, h.same.better]

theorem asked_patchChainFull {id : H} (hid : d.hasPatch id = true) :
    Asked d (d.patchChainFull id).2 := asked_ancestors hid

theorem lca_known (hd : d.Sound) {a b m : H} (ha : d.hasPatch a = true)
    (hm : (d.lca a b).1 = some m) : d.hasPatch m = true :=
  hd.graded.history_known ((lca_spec hd a b).2 m hm).1.1 ha

theorem asked_mergeBranches (hd : d.Sound) (branchA branchB : BranchName) :
    Asked d (d.mergeBranches branchA branchB).2 := by
  cases hA : d.getBranch branchA with
  | none =>
    unfold mergeBranches mergeBase
    simp only [hA]
    exact .refl d
  | some a =>
    cases hB : d.getBranch branchB with
    | none =>
      unfold mergeBranches mergeBase
      simp only [hA, hB]
      exact .refl d
    | some b =>
      have ha := hd.targets _ _ hA
      have hb := hd.targets _ _ hB
      have h₁ := asked_lca ha hb
      cases hm : (d.lca a b).1 with
      | none =>
        unfold mergeBranches mergeBase
        simp only [hA, hB]
        rw [← Prod.mk.eta (p := d.lca a b), hm]
        exact h₁
      | some m =>
        have h₂ := h₁.trans (asked_ancestors ((h₁.hasPatch m).trans (lca_known hd ha hm)))
        have h₃ := h₂.trans (asked_ancestors ((h₂.hasPatch a).trans ha))
        have h₄ := h₃.trans (asked_ancestors ((h₃.hasPatch b).trans hb))
        unfold mergeBranches
        rw [mergeBase_eq hA hB hm]
        dsimp only
        split <;> exact h₄

theorem Extends.cacheKnown (h : Extends d d' patch parentIds) (hd : d.CacheKnown) :
    d'.CacheKnown := fun id cached hid => by
  rw [h.cache] at hid
  exact (h.hasPatch id).mpr (.inr (hd id cached hid))

/-- No answer is cached for a patch that is yet to come. -/
theorem Extends.sound (h : Extends d d' patch parentIds) (hd : d.Sound) (hknown : d.CacheKnown) :
    d'.Sound := by
  refine hd.extends h fun _ => ?_
  by_contra hcached
  obtain ⟨cached, hcached⟩ := Option.ne_none_iff_exists'.mp hcached
  have := hknown patch.id cached hcached
  rw [h.unknown] at this
  cases this

end PatchDag
end Suture.Dag
