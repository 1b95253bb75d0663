import Mathlib.Data.Set.Card
import Suture.Dag.Cache

/-!
# Merge plans and history

A plan sets the histories of two tips against the history of one common ancestor.
That is the difference of the histories when some common ancestor has all the others
below it.
-/

namespace Suture.Dag
set_option autoImplicit false
open Foundation Common Patches

namespace PatchDag
variable {H : Type} [LinearOrder H] {d : PatchDag H} {a b m : H}

/-- A patch and what it reaches. -/
def History (d : PatchDag H) (tip p : H) : Prop := p = tip ∨ d.Reaches tip p

def Shared (d : PatchDag H) (a b p : H) : Prop := d.History a p ∧ d.History b p

theorem History.trans {x y z : H} (hxy : d.History x y) (hyz : d.History y z) : d.History x z := by
  rcases hyz with rfl | hyz
  · exact hxy
  · rcases hxy with rfl | hxy
    · exact .inr hyz
    · exact .inr (hxy.trans hyz)

theorem Graded.history_le (hd : d.Graded) {x y : H} (h : d.History x y) :
    d.generation y ≤ d.generation x := by
  rcases h with rfl | h
  · exact Nat.le_refl _
  · exact (hd.reaches h).2.le

theorem Graded.history_known (hd : d.Graded) {x y : H} (h : d.History x y)
    (hx : d.hasPatch x = true) : d.hasPatch y = true := by
  rcases h with rfl | h
  · exact hx
  · exact (hd.reaches h).1

theorem Graded.eq_of_history (hd : d.Graded) {x y : H} (h : d.History x y)
    (hle : d.generation x ≤ d.generation y) : y = x :=
  h.resolve_right fun hreach => absurd (hd.reaches hreach).2 (Nat.not_lt_of_le hle)

/-! ### The chosen common ancestor -/

/-- `x` is chosen over `y`: a higher generation, or the same and a smaller id. -/
def Beats (d : PatchDag H) (x y : H) : Prop :=
  d.generation y < d.generation x ∨ d.generation x = d.generation y ∧ x ≤ y

theorem Beats.refl (x : H) : d.Beats x x := .inr ⟨rfl, le_refl x⟩

theorem Beats.trans {x y z : H} (hxy : d.Beats x y) (hyz : d.Beats y z) : d.Beats x z := by
  rcases hxy with hxy | ⟨hxy, hid⟩
  · rcases hyz with hyz | ⟨hyz, -⟩
    · exact .inl (hyz.trans hxy)
    · exact .inl (hyz ▸ hxy)
  · rcases hyz with hyz | ⟨hyz, hid'⟩
    · exact .inl (hxy ▸ hyz)
    · exact .inr ⟨hxy.trans hyz, hid.trans hid'⟩

theorem Beats.generation_le {x y : H} (h : d.Beats x y) : d.generation y ≤ d.generation x := by
  rcases h with h | ⟨h, -⟩
  · exact h.le
  · exact h.ge

theorem better_beats (best : Option H) (c : H) : ∃ r, d.better best c = some r ∧
    (r = c ∨ best = some r) ∧ d.Beats r c ∧ ∀ x, best = some x → d.Beats r x := by
  unfold better
  cases best with
  | none => exact ⟨c, rfl, .inl rfl, .refl c, fun x hx => absurd hx (Option.some_ne_none x).symm⟩
  | some x =>
    dsimp only
    split_ifs with h
    · refine ⟨c, rfl, .inl rfl, .refl c, ?_⟩
      intro y hy
      cases hy
      rcases h with h | ⟨h, hlt⟩
      · exact .inl h
      · exact .inr ⟨h, hlt.le⟩
    · refine ⟨x, rfl, .inr rfl, ?_, ?_⟩
      · rw [not_or, not_and] at h
        obtain ⟨hle, hid⟩ := h
        rcases Nat.lt_or_ge (d.generation c) (d.generation x) with hlt | hge
        · exact .inl hlt
        · have heq : d.generation c = d.generation x := by omega
          exact .inr ⟨heq.symm, le_of_not_gt (hid heq)⟩
      · intro y hy
        cases hy
        exact .refl x

/-- The loop ends with a candidate that beats all of them. -/
theorem foldl_better_beats (l : List H) (best : Option H) :
    (l.foldl d.better best = none → best = none ∧ l = []) ∧
      ∀ r, l.foldl d.better best = some r → (r ∈ l ∨ best = some r) ∧
        (∀ c ∈ l, d.Beats r c) ∧ ∀ x, best = some x → d.Beats r x := by
  induction l generalizing best with
  | nil =>
    refine ⟨fun h => ⟨h, rfl⟩, fun r hr => ?_⟩
    refine ⟨.inr hr, fun c hc => absurd hc List.not_mem_nil, ?_⟩
    intro x hx
    rw [List.foldl_nil, hx] at hr
    cases hr
    exact .refl _
  | cons c l ih =>
    obtain ⟨s, hs, hfrom, hc, hx⟩ := better_beats (d := d) best c
    obtain ⟨hnone, hsome⟩ := ih (some s)
    rw [List.foldl_cons, hs]
    refine ⟨fun h => absurd (hnone h).1 (Option.some_ne_none s), fun r hr => ?_⟩
    obtain ⟨hmem, hall, hbest⟩ := hsome r hr
    have hrs := hbest s rfl
    refine ⟨?_, ?_, fun x h => hrs.trans (hx x h)⟩
    · rcases hmem with hmem | hmem
      · exact .inl (List.mem_cons_of_mem _ hmem)
      · cases hmem
        rcases hfrom with rfl | hfrom
        · exact .inl (List.mem_cons_self ..)
        · exact .inr hfrom
    · intro y hy
      rcases List.mem_cons.mp hy with rfl | hy
      · exact hrs.trans hc
      · exact hall y hy

theorem Graded.beats (hd : d.Graded) {x y : H} (h : d.History x y) : d.Beats x y := by
  rcases h with rfl | h
  · exact .refl y
  · exact .inl (hd.reaches h).2

theorem SameGraph.beats {d' : PatchDag H} (h : SameGraph d d') {x y : H} :
    d'.Beats x y ↔ d.Beats x y := by
  unfold Beats
  rw [h.generation, h.generation]

/-- The LCA is a shared patch that beats every other. -/
theorem lca_beats (hd : d.Sound) (a b : H) :
    ((d.lca a b).1 = none → ∀ p, ¬ d.Shared a b p) ∧
      ∀ m, (d.lca a b).1 = some m → d.Shared a b m ∧ ∀ p, d.Shared a b p → d.Beats m p := by
  have hA : ∀ p, p ∈ (d.ancestors a).1 ↔ d.Reaches a p := fun p => mem_ancestors hd.cache
  have hB := fun p => ((ancestors_spec (d.queried_ancestors a |>.cache hd.cache) b).1 p).trans
    (by rw [(d.queried_ancestors a).same.reaches])
  unfold lca
  dsimp only
  split_ifs with hab hinB hinA
  · subst hab
    refine ⟨nofun, ?_⟩
    rintro _ ⟨⟩
    exact ⟨⟨.inl rfl, .inl rfl⟩, fun p hp => hd.graded.beats hp.1⟩
  · refine ⟨nofun, ?_⟩
    rintro _ ⟨⟩
    exact ⟨⟨.inl rfl, .inr ((hB a).mp hinB)⟩, fun p hp => hd.graded.beats hp.1⟩
  · refine ⟨nofun, ?_⟩
    rintro _ ⟨⟩
    exact ⟨⟨.inr ((hA b).mp hinA), .inl rfl⟩, fun p hp => hd.graded.beats hp.2⟩
  · have hmem : ∀ p, p ∈ ((d.ancestors a).1.elems.filter fun id =>
        decide (id ∈ ((d.ancestors a).2.ancestors b).1)) ↔ d.Shared a b p := by
      intro p
      rw [List.mem_filter, decide_eq_true_eq]
      refine ((hA p).and (hB p)).trans ⟨fun h => ⟨.inr h.1, .inr h.2⟩, ?_⟩
      rintro ⟨rfl | hpa, rfl | hpb⟩
      · exact absurd rfl hab
      · exact absurd ((hB p).mpr hpb) hinB
      · exact absurd ((hA p).mpr hpa) hinA
      · exact ⟨hpa, hpb⟩
    obtain ⟨hnone, hsome⟩ := foldl_better_beats
      ((d.ancestors a).1.elems.filter fun id => decide (id ∈ ((d.ancestors a).2.ancestors b).1)) none
    refine ⟨fun h p hp => ?_, fun m hm => ?_⟩
    · have hp := (hmem p).mpr hp
      rw [(hnone h).2] at hp
      cases hp
    · obtain ⟨hin, hall, -⟩ := hsome m hm
      refine ⟨(hmem m).mp (hin.resolve_right nofun), fun p hp => ?_⟩
      have hsame := ((d.queried_ancestors a).trans (queried_ancestors _ b)).same
      exact hsame.beats.mp (hall p ((hmem p).mpr hp))

/-- The LCA is a shared patch of highest generation. -/
theorem lca_spec (hd : d.Sound) (a b : H) :
    ((d.lca a b).1 = none → ∀ p, ¬ d.Shared a b p) ∧
      ∀ m, (d.lca a b).1 = some m →
        d.Shared a b m ∧ ∀ p, d.Shared a b p → d.generation p ≤ d.generation m := by
  obtain ⟨hnone, hsome⟩ := lca_beats hd a b
  refine ⟨hnone, fun m hm => ?_⟩
  obtain ⟨hshared, hall⟩ := hsome m hm
  exact ⟨hshared, fun p hp => (hall p hp).generation_le⟩

/-! ### The plan -/

/-- `l` lists once each what is in the history of `x` and not in that of `y`. -/
structure ListsOnly (d : PatchDag H) (l : List H) (x y : H) : Prop where
  nodup : l.Nodup
  mem : ∀ p, p ∈ l ↔ d.History x p ∧ ¬ d.History y p

theorem ListsOnly.ncard {l : List H} {x y : H} (h : ListsOnly d l x y) :
    Set.ncard {p | d.History x p ∧ ¬ d.History y p} = l.length := by
  have hset : {p | d.History x p ∧ ¬ d.History y p} = (l.toFinset : Set H) := by
    ext p
    simp [h.mem]
  rw [hset, Set.ncard_coe_finset, List.toFinset_card_of_nodup h.nodup]

theorem listsOnly_branchPatches {lcaAncestors ancestors : SortedSet H} (tip : H) {lcaId : H}
    (hd : d.Graded) (hlca : ∀ p, p ∈ lcaAncestors ↔ d.Reaches lcaId p)
    (htip : ∀ p, p ∈ ancestors ↔ d.Reaches tip p) :
    ListsOnly d (branchPatches (lcaAncestors.insert lcaId) tip ancestors) tip lcaId where
  nodup := by
    refine List.Nodup.filter _ ?_
    refine List.nodup_append.mpr ⟨ancestors.nodup, List.nodup_singleton _, ?_⟩
    rintro p hp q hq rfl
    rw [List.mem_singleton] at hq
    subst hq
    exact hd.not_reaches_self _ ((htip _).mp hp)
  mem := fun p => by
    rw [branchPatches, List.mem_filter, List.mem_append, List.mem_singleton, decide_eq_true_eq,
      SortedSet.mem_insert, hlca, ← SortedSet.mem_def, htip]
    exact and_congr_left fun _ => or_comm

theorem ListsOnly.filter_base {l : List H} {x : H} (h : ListsOnly d l x m) :
    l.filter (fun p => decide (p ∉ [m])) = l := by
  rw [List.filter_eq_self]
  intro p hp
  rw [decide_eq_true_eq, List.mem_singleton]
  rintro rfl
  exact ((h.mem p).mp hp).2 (.inl rfl)

theorem mergeBase_eq {branchA branchB : BranchName} (hA : d.getBranch branchA = some a)
    (hB : d.getBranch branchB = some b) (hm : (d.lca a b).1 = some m) :
    d.mergeBase branchA branchB = (.ok (a, b, m), (d.lca a b).2) := by
  unfold mergeBase
  simp only [hA, hB]
  rw [← Prod.mk.eta (p := d.lca a b), hm]

/-- What `mergeBranches` returns for two tips, and `branchDivergence` with it. -/
theorem plan_spec (hd : d.Sound) {branchA branchB : BranchName} (hA : d.getBranch branchA = some a)
    (hB : d.getBranch branchB = some b) (hm : (d.lca a b).1 = some m) :
    ∃ r, (d.mergeBranches branchA branchB).1 = .ok r ∧ ListsOnly d r.patchesAOnly a m ∧
      ListsOnly d r.patchesBOnly b m ∧ r.isClean = r.conflicts.isEmpty ∧
      (∀ c, c ∈ r.conflicts ↔
        ∃ i ∈ r.patchesAOnly, ∃ j ∈ r.patchesBOnly, ConflictOf d.getPatch c i j) ∧
      (d.branchDivergence branchA branchB).1 =
        .ok (r.patchesAOnly.length, r.patchesBOnly.length) := by
  have hbase := mergeBase_eq hA hB hm
  have h₁ := d.queried_lca a b
  have h₂ := h₁.trans (queried_ancestors _ m)
  have h₃ := h₂.trans (queried_ancestors _ a)
  have h₄ := h₃.trans (queried_ancestors _ b)
  have hlca : ∀ p, p ∈ ((d.lca a b).2.ancestors m).1 ↔ d.Reaches m p := fun p => by
    rw [mem_ancestors (h₁.cache hd.cache), h₁.same.reaches]
  have hlistA := listsOnly_branchPatches a hd.graded hlca fun p => by
    rw [mem_ancestors (h₂.cache hd.cache), h₂.same.reaches]
  have hlistB := listsOnly_branchPatches b hd.graded hlca fun p => by
    rw [mem_ancestors (h₃.cache hd.cache), h₃.same.reaches]
  have hknown : ∀ {tip branch l}, d.getBranch branch = some tip → ListsOnly d l tip m →
      ∀ i ∈ l, ∃ p, d.getPatch i = some p := fun hbranch hl i hi =>
    hasPatch_iff.mp (hd.graded.history_known ((hl.mem i).mp hi).1 (hd.targets _ _ hbranch))
  obtain ⟨r, hr, hrA, hrB, hclean, hconf⟩ := merge_ok d.getPatch [m]
    (hknown hA hlistA) (hknown hB hlistB)
  have hget := funext h₄.same.getPatch
  rw [hlistA.filter_base] at hrA
  rw [hlistB.filter_base] at hrB
  refine ⟨r, ?_, hrA ▸ hlistA, hrB ▸ hlistB, hclean, hconf, ?_⟩
  · unfold mergeBranches
    rw [hbase]
    dsimp only
    rw [hget, hr]
  · unfold branchDivergence
    rw [hbase, hrA, hrB]

/-- The plan sets the two histories against each other, each patch on one side. -/
structure Partitions (d : PatchDag H) (branchA branchB : BranchName) (a b : H)
    (r : MergeResult H) : Prop where
  aOnly : ∀ p, p ∈ r.patchesAOnly ↔ d.History a p ∧ ¬ d.History b p
  bOnly : ∀ p, p ∈ r.patchesBOnly ↔ d.History b p ∧ ¬ d.History a p
  disjoint : ∀ p ∈ r.patchesAOnly, p ∉ r.patchesBOnly
  noSelfConflict : ∀ c ∈ r.conflicts, c.patchAId ≠ c.patchBId
  divergence : (d.branchDivergence branchA branchB).1 =
    .ok (Set.ncard {p | d.History a p ∧ ¬ d.History b p},
      Set.ncard {p | d.History b p ∧ ¬ d.History a p})

/-- One shared patch has all the others in its history. -/
def HasGreatest (d : PatchDag H) (a b : H) : Prop :=
  ∃ m, d.Shared a b m ∧ ∀ p, d.Shared a b p → d.History m p

/-- The greatest shared patch, if there is one, is the LCA. -/
theorem lca_of_greatest (hd : d.Sound) {g : H} (hg : d.Shared a b g)
    (hall : ∀ p, d.Shared a b p → d.History g p) (hm : (d.lca a b).1 = some m) : m = g := by
  obtain ⟨hshared, hmax⟩ := (lca_spec hd a b).2 m hm
  exact hd.graded.eq_of_history (hall m hshared) (hmax g hg)

theorem ListsOnly.mem_of_greatest {l : List H} {x y : H} (h : ListsOnly d l x m)
    (hy : d.History y m) (hall : ∀ p, d.History x p → d.History y p → d.History m p) :
    ∀ p, p ∈ l ↔ d.History x p ∧ ¬ d.History y p := by
  intro p
  rw [h.mem p]
  exact and_congr_right fun hx => not_congr ⟨fun hp => hy.trans hp, fun hp => hall p hx hp⟩

/-- The plan of two tips with shared history partitions it just when one shared patch
has all the others in its history. -/
theorem plan_partitions_iff (h : Built d) {branchA branchB : BranchName}
    (hA : d.getBranch branchA = some a) (hB : d.getBranch branchB = some b)
    (hshared : ∃ p, d.Shared a b p) :
    (∃ r, (d.mergeBranches branchA branchB).1 = .ok r ∧ Partitions d branchA branchB a b r) ↔
      d.HasGreatest a b := by
  have hd := h.sound
  obtain ⟨hnone, hsome⟩ := lca_spec hd a b
  obtain ⟨p₀, hp₀⟩ := hshared
  obtain ⟨m, hm⟩ := Option.ne_none_iff_exists'.mp fun hl => hnone hl p₀ hp₀
  obtain ⟨hshared, -⟩ := hsome m hm
  obtain ⟨r, hr, hlistA, hlistB, -, hconf, hdiv⟩ := plan_spec hd hA hB hm
  constructor
  · rintro ⟨r', hr', hpart⟩
    rw [hr] at hr'
    cases hr'
    refine ⟨m, hshared, fun p hp => ?_⟩
    by_contra hnot
    exact ((hpart.aOnly p).mp ((hlistA.mem p).mpr ⟨hp.1, hnot⟩)).2 hp.2
  · rintro ⟨g, hg, hall⟩
    obtain rfl := lca_of_greatest hd hg hall hm
    have hmemA := hlistA.mem_of_greatest hg.2 fun p ha hb => hall p ⟨ha, hb⟩
    have hmemB := hlistB.mem_of_greatest hg.1 fun p hb ha => hall p ⟨ha, hb⟩
    have hdisjoint : ∀ p ∈ r.patchesAOnly, p ∉ r.patchesBOnly := fun p hpa hpb =>
      ((hmemA p).mp hpa).2 ((hmemB p).mp hpb).1
    refine ⟨r, hr, hmemA, hmemB, hdisjoint, fun c hc hself => ?_, ?_⟩
    · obtain ⟨i, hi, j, hj, a', b', -, -, -, rfl⟩ := (hconf c).mp hc
      have hij : i = j := hself
      exact hdisjoint i hi (hij ▸ hj)
    · rw [hdiv, (ListsOnly.mk hlistA.nodup hmemA).ncard, (ListsOnly.mk hlistB.nodup hmemB).ncard]

def side : BranchName := ⟨"side", by decide, by decide⟩

/-- Two branches with one patch each after the first. -/
def forkedHistory : List (Call Hash) :=
  [.addPatch (edit 1 "a") [], .addPatch (edit 2 "b") [1], .addPatch (edit 3 "c") [1],
    .createBranch .main 2, .createBranch side 3]

/-- Two branches that merged each other: both 2 and 3 are shared by 4 and 5. -/
def crissCrossHistory : List (Call Hash) :=
  [.addPatch (edit 1 "a") [], .addPatch (edit 2 "b") [1], .addPatch (edit 3 "c") [1],
    .addPatch (edit 4 "d") [2, 3], .addPatch (edit 5 "e") [3, 2], .createBranch .main 4,
    .createBranch side 5]

def forked : PatchDag Hash := forkedHistory.foldl next new

def crissCross : PatchDag Hash := crissCrossHistory.foldl next new

theorem plan_partitions_forked :
    (∃ r, (forked.mergeBranches .main side).1 = .ok r ∧ Partitions forked .main side 2 3 r) ↔
      forked.HasGreatest 2 3 := by
  have hbuilt : Built forked := Run.of_allows _ (by decide +kernel)
  have h₂ : (1 : Hash) ∈ forked.parents 2 := by decide +kernel
  have h₃ : (1 : Hash) ∈ forked.parents 3 := by decide +kernel
  exact plan_partitions_iff hbuilt (by decide +kernel) (by decide +kernel)
    ⟨1, .inr (.single h₂), .inr (.single h₃)⟩

/-- After a criss-cross the plan lists patch 3 on both sides. -/
theorem crissCross_not_partitioned : ¬ ∀ d : PatchDag Hash, Built d →
    ∀ (branchA branchB : BranchName) (a b : Hash), d.getBranch branchA = some a →
      d.getBranch branchB = some b → (∃ p, d.Shared a b p) →
        ∃ r, (d.mergeBranches branchA branchB).1 = .ok r ∧ Partitions d branchA branchB a b r := by
  intro h
  have hbuilt : Built crissCross := Run.of_allows _ (by decide +kernel)
  have h₄ : (2 : Hash) ∈ crissCross.parents 4 := by decide +kernel
  have h₅ : (2 : Hash) ∈ crissCross.parents 5 := by decide +kernel
  obtain ⟨r, hr, hpart⟩ := h crissCross hbuilt .main side 4 5 (by decide +kernel) (by decide +kernel)
    ⟨2, .inr (.single h₄), .inr (.single h₅)⟩
  have hboth : (crissCross.mergeBranches .main side).1.toOption.all fun r =>
      decide (3 ∈ r.patchesAOnly) && decide (3 ∈ r.patchesBOnly) := by decide +kernel
  rw [hr] at hboth
  simp only [Except.toOption, Option.all_some, Bool.and_eq_true, decide_eq_true_eq] at hboth
  exact hpart.disjoint 3 hboth.1 hboth.2

end PatchDag
end Suture.Dag
