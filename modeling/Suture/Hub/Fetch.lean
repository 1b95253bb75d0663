import Suture.Hub.Pull

/-!
# Fetching into an open repository

A fetch adds the patches of the answer to the rows and to the DAG in memory, each on top of
the parents that the DAG has by then. Patches that are there already stay as they are.
-/

namespace Suture.Hub
set_option autoImplicit false
open Foundation Common Patches

variable {H : Type} [LinearOrder H]

/-- A repository that a command has opened. -/
structure Opened (H : Type) [LinearOrder H] where
  client : Client H
  dag : Dag.PatchDag H
deriving DecidableEq

namespace Opened

/-- The DAG is the one that the rows reload to. -/
def Fresh (r : Opened H) : Prop := Dag.Reconstructs r.client.patches r.client.branches r.dag

/-- The parents are those that are there, so the DAG does not refuse the patch. -/
def fetchPatch (r : Opened H) (patch : Patch H) : Opened H :=
  if r.dag.hasPatch patch.id then r
  else
    { client := { r.client with patches := r.client.patches.insert patch.id patch }
      dag := (r.dag.addPatch patch (patch.parentIds.filter r.dag.hasPatch)).2 }

/-- Whether the DAG accepts the target or not, the row is set. -/
def fetchBranch (r : Opened H) (name : BranchName) (target : H) : Opened H where
  client := { r.client with branches := r.client.branches.insert name.asStr target }
  dag :=
    if (r.dag.getBranch name).isSome then (r.dag.updateBranch name target).2
    else (r.dag.createBranch name target).2

/-- Up to the first bad name. -/
def fetchBranches (r : Opened H) : List (BranchProto H) → Opened H
  | [] => r
  | b :: rest =>
    match BranchName.new b.name with
    | .error _ => r
    | .ok name => (r.fetchBranch name b.targetId).fetchBranches rest

def fetch (r : Opened H) (result : PullResponse H) : Opened H :=
  (result.patches.foldl fetchPatch r).fetchBranches result.branches

/-- `do_fetch` from a hub. -/
def doFetch (order : Dag.IterationOrder (Patch H)) (store : HubStorage H) (depth : Option Nat)
    (r : Opened H) : Opened H :=
  r.fetch (handlePull order.arrange store ⟨r.client.listBranches, depth⟩)

/-! ### Patches -/

theorem fetchPatch_of_has {r : Opened H} {patch : Patch H} (h : r.dag.hasPatch patch.id = true) :
    r.fetchPatch patch = r := by
  rw [fetchPatch, if_pos h]

theorem fetchPatch_of_new {r : Opened H} {patch : Patch H} (h : r.dag.hasPatch patch.id = false) :
    (r.fetchPatch patch).client =
        { r.client with patches := r.client.patches.insert patch.id patch } ∧
      r.dag.Extends (r.fetchPatch patch).dag patch (patch.parentIds.filter r.dag.hasPatch) := by
  rw [fetchPatch, if_neg (by rw [h]; exact Bool.false_ne_true)]
  refine ⟨rfl, ?_⟩
  rcases r.dag.addPatch_cases patch (patch.parentIds.filter r.dag.hasPatch) with
    ⟨e, -, hrefused⟩ | ⟨d', heq, hext⟩
  · exact absurd ⟨h, fun p hp => (List.mem_filter.mp hp).2⟩ hrefused
  · rw [heq]
    exact hext

/-- What fetching some patches leaves of a DAG, and what it adds. -/
structure Fetched (d : Dag.PatchDag H) (sent : List (Patch H)) (d' : Dag.PatchDag H) : Prop where
  has : ∀ id, d'.hasPatch id = true ↔ d.hasPatch id = true ∨ id ∈ sent.map Patch.id
  kept : ∀ id, d.hasPatch id = true → d'.getPatch id = d.getPatch id ∧ d'.parents id = d.parents id
  added : ∀ before p after, sent = before ++ p :: after → d.hasPatch p.id = false →
    d'.getPatch p.id = some p ∧ d'.parents p.id = p.parentIds.filter fun q =>
      d.hasPatch q || decide (q ∈ before.map Patch.id)

theorem fetched_foldl (r : Opened H) {sent : List (Patch H)} (hnodup : (sent.map Patch.id).Nodup) :
    Fetched r.dag sent (sent.foldl fetchPatch r).dag := by
  induction sent using List.reverseRecOn with
  | nil => exact ⟨fun id => by simp, fun _ _ => ⟨rfl, rfl⟩, by simp⟩
  | append_singleton sent p ih =>
    rw [List.map_append, List.nodup_append] at hnodup
    obtain ⟨hnodup, -, hapart⟩ := hnodup
    have hnew : p.id ∉ sent.map Patch.id := fun hp => hapart p.id hp p.id (by simp) rfl
    have hsent := ih hnodup
    rw [List.foldl_append, List.foldl_cons, List.foldl_nil]
    obtain ⟨r', hr'⟩ : ∃ r', r' = sent.foldl fetchPatch r := ⟨_, rfl⟩
    rw [← hr'] at hsent ⊢
    have hlast : ∀ before q after, sent ++ [p] = before ++ q :: after →
        (before = sent ∧ q = p) ∨ ∃ rest, sent = before ++ q :: rest ∧ q.id ≠ p.id := by
      intro before q after heq
      rcases List.eq_nil_or_concat after with rfl | ⟨rest, last, rfl⟩
      · obtain ⟨hbefore, hq⟩ := List.append_inj' heq rfl
        exact .inl ⟨hbefore.symm, (List.singleton_inj.mp hq).symm⟩
      · rw [List.concat_eq_append, ← List.cons_append, ← List.append_assoc] at heq
        obtain ⟨hsame, -⟩ := List.append_inj' heq rfl
        refine .inr ⟨rest, hsame, fun hid => hnew ?_⟩
        rw [hsame, ← hid]
        simp
    cases hhas : r'.dag.hasPatch p.id with
    | true =>
      rw [fetchPatch_of_has hhas]
      have hold : r.dag.hasPatch p.id = true := ((hsent.has p.id).mp hhas).resolve_right hnew
      refine ⟨fun id => ?_, hsent.kept, fun before q after heq hq => ?_⟩
      · rw [hsent.has, List.map_append, List.mem_append, List.map_singleton, List.mem_singleton]
        constructor
        · exact Or.imp_right .inl
        · rintro (h | hmem | rfl)
          · exact .inl h
          · exact .inr hmem
          · exact .inl hold
      · rcases hlast before q after heq with ⟨-, rfl⟩ | ⟨rest, hsame, -⟩
        · rw [hold] at hq
          cases hq
        · exact hsent.added before q rest hsame hq
    | false =>
      obtain ⟨-, hext⟩ := fetchPatch_of_new hhas
      have hview : ∀ id, id ≠ p.id → (r'.fetchPatch p).dag.getPatch id = r'.dag.getPatch id := by
        intro id hid
        rw [Dag.PatchDag.getPatch_eq, hext.view, if_neg hid, ← Dag.PatchDag.getPatch_eq]
      have hself : (r'.fetchPatch p).dag.getPatch p.id = some p := by
        rw [Dag.PatchDag.getPatch_eq, hext.view, if_pos rfl]
        rfl
      refine ⟨fun id => ?_, fun id hid => ?_, fun before q after heq hq => ?_⟩
      · rw [List.map_append, List.mem_append, List.map_singleton, List.mem_singleton, ← or_assoc,
          ← hsent.has, Dag.PatchDag.hasPatch_iff]
        by_cases hid : id = p.id
        · rw [hid]
          exact iff_of_true ⟨p, hself⟩ (.inr rfl)
        · rw [hview id hid, ← Dag.PatchDag.hasPatch_iff, or_iff_left hid]
      · have hne : id ≠ p.id := by
          rintro rfl
          rw [(hsent.has p.id).mpr (.inl hid)] at hhas
          cases hhas
        rw [hview id hne, hext.parents_of_ne hne]
        exact hsent.kept id hid
      · rcases hlast before q after heq with ⟨rfl, rfl⟩ | ⟨rest, hsame, hne⟩
        · refine ⟨hself, hext.parents_new.trans (List.filter_congr fun x _ => ?_)⟩
          rw [Bool.eq_iff_iff, hsent.has, Bool.or_eq_true, decide_eq_true_eq]
        · rw [hview q.id hne, hext.parents_of_ne hne]
          exact hsent.added before q rest hsame hq

/-! ### Branches -/

theorem nodes_fetchBranch (r : Opened H) (name : BranchName) (target : H) :
    (r.fetchBranch name target).dag.nodes = r.dag.nodes := by
  unfold fetchBranch Dag.PatchDag.updateBranch Dag.PatchDag.createBranch
  dsimp only
  split_ifs <;> rfl

theorem nodes_fetchBranches (r : Opened H) (branches : List (BranchProto H)) :
    (r.fetchBranches branches).dag.nodes = r.dag.nodes := by
  induction branches generalizing r with
  | nil => rfl
  | cons b rest ih =>
    rw [fetchBranches]
    split
    · rfl
    · exact (ih _).trans (nodes_fetchBranch r _ b.targetId)

/-- Branches do not change what the patches are. -/
theorem fetched_fetch (r : Opened H) {result : PullResponse H}
    (hnodup : (result.patches.map Patch.id).Nodup) :
    Fetched r.dag result.patches (r.fetch result).dag := by
  have hfetched := fetched_foldl r hnodup
  have hnodes := nodes_fetchBranches (result.patches.foldl fetchPatch r) result.branches
  have hget : ∀ id, (r.fetch result).dag.getNode id =
      (result.patches.foldl fetchPatch r).dag.getNode id := fun id =>
    congrArg (fun nodes => Assoc.get nodes id) hnodes
  refine ⟨fun id => ?_, fun id hid => ?_, fun before p after heq hp => ?_⟩
  · rw [Dag.PatchDag.hasPatch, hget]
    exact hfetched.has id
  · rw [Dag.PatchDag.getPatch, Dag.PatchDag.parents, hget]
    exact hfetched.kept id hid
  · rw [Dag.PatchDag.getPatch, Dag.PatchDag.parents, hget]
    exact hfetched.added before p after heq hp

/-! ### Rows -/

/-- The DAG has the patches that have rows. -/
def InSync (r : Opened H) : Prop := ∀ id, r.dag.hasPatch id = r.client.patches.contains id

theorem Fresh.inSync {r : Opened H} (h : r.Fresh) : r.InSync := fun id => by
  rw [Bool.eq_iff_iff, Dag.PatchDag.hasPatch_iff, h.getPatch, contains_iff]

theorem client_fetchPatch {r : Opened H} (h : r.InSync) (patch : Patch H) :
    (r.fetchPatch patch).client = r.client.storeFetched patch ∧ (r.fetchPatch patch).InSync := by
  unfold Client.storeFetched
  rw [← h patch.id]
  cases hhas : r.dag.hasPatch patch.id with
  | true =>
    rw [fetchPatch_of_has hhas]
    exact ⟨rfl, h⟩
  | false =>
    obtain ⟨hclient, hext⟩ := fetchPatch_of_new hhas
    refine ⟨hclient, fun id => ?_⟩
    rw [Dag.PatchDag.hasPatch_eq, hext.view, hclient, SortedMap.contains_eq, SortedMap.get_insert]
    split
    · rfl
    · rw [← Dag.PatchDag.hasPatch_eq, h id]
      rfl

theorem client_foldl_fetchPatch {r : Opened H} (h : r.InSync) (patches : List (Patch H)) :
    (patches.foldl fetchPatch r).client = patches.foldl Client.storeFetched r.client := by
  induction patches generalizing r with
  | nil => rfl
  | cons patch rest ih =>
    obtain ⟨hclient, hsync⟩ := client_fetchPatch h patch
    rw [List.foldl_cons, List.foldl_cons, ih hsync, hclient]

theorem client_fetchBranches (r : Opened H) (branches : List (BranchProto H)) :
    (r.fetchBranches branches).client = r.client.setFetched branches := by
  induction branches generalizing r with
  | nil => rfl
  | cons b rest ih =>
    rw [fetchBranches, Client.setFetched]
    cases BranchName.new b.name with
    | error e => rfl
    | ok name => exact ih _

/-- What the rows are after a fetch. -/
theorem client_fetch {r : Opened H} (h : r.Fresh) (result : PullResponse H) :
    (r.fetch result).client = r.client.applyFetch result := by
  rw [fetch, client_fetchBranches, client_foldl_fetchPatch h.inSync, Client.applyFetch]

end Opened

/-! ### Full pulls -/

/-- The target of a branch of the hub, or below one. -/
def OnBranch (store : HubStorage H) (id : H) : Prop :=
  ∃ name target, store.branches.get name = some target ∧
    (id = target ∨ Reaches store.patches target id)

/-- All patches on the branches of the hub, with their parent edges. -/
def HasHistory (store : HubStorage H) (d : Dag.PatchDag H) : Prop :=
  ∀ id patch, store.patches.get id = some patch → OnBranch store id →
    d.getPatch id = some patch ∧ d.parents id = patch.parentIds

/-- The client holds what is at and below the branches that it reports. -/
def HoldsKnown (store : HubStorage H) (r : Opened H) : Prop :=
  ∀ id, Known store.patches r.client.listBranches id → r.client.patches.get id = store.patches.get id

/-- What the client has of the branches of the hub is what the hub has, on top of its parents. -/
def Settled (store : HubStorage H) (r : Opened H) : Prop :=
  ∀ id patch held, store.patches.get id = some patch → OnBranch store id →
    r.client.patches.get id = some held →
    held = patch ∧ ∀ p ∈ patch.parentIds, r.client.patches.contains p = true

/-- A full fetch completes what the client has before, if nothing in it lacks a parent. -/
theorem hasHistory_iff {store : HubStorage H} (hsound : Sound store.patches)
    (hclosed : Dag.ParentClosed store.patches) (order : Dag.IterationOrder (Patch H)) {r : Opened H}
    (hfresh : r.Fresh) (hheld : HoldsKnown store r) :
    HasHistory store (r.doFetch order store none).dag ↔ Settled store r := by
  have hdelivers : Delivers store.patches r.client.listBranches
      (handlePull order.arrange store ⟨r.client.listBranches, none⟩).patches :=
    delivers_collectNewPatches hsound order r.client.listBranches
  have hfetched := r.fetched_fetch hdelivers.once
  have hhas := hfresh.inSync
  have hkept : ∀ id held, r.client.patches.get id = some held →
      (r.doFetch order store none).dag.getPatch id = some held ∧
        (r.doFetch order store none).dag.parents id =
          held.parentIds.filter r.client.patches.contains := fun id held hget => by
    obtain ⟨hpatch, hparents⟩ := hfetched.kept id
      ((hhas id).trans (contains_iff.mpr ⟨held, hget⟩))
    exact ⟨hpatch.trans ((hfresh.getPatch id).trans hget),
      hparents.trans (hfresh.parents id held hget)⟩
  constructor
  · intro h id patch held hpatch hbranch hget
    obtain ⟨hhere, hparents⟩ := h id patch hpatch hbranch
    obtain ⟨hhere', hparents'⟩ := hkept id held hget
    cases hhere.symm.trans hhere'
    exact ⟨rfl, List.filter_eq_self.mp (hparents'.symm.trans hparents)⟩
  · intro h id patch hpatch hbranch
    cases hget : r.client.patches.get id with
    | some held =>
      obtain ⟨rfl, hparents⟩ := h id patch held hpatch hbranch hget
      obtain ⟨hhere, hedges⟩ := hkept id held hget
      exact ⟨hhere, hedges.trans (List.filter_eq_self.mpr hparents)⟩
    | none =>
      -- A patch that the client lacks is not known, so it is sent, after its parents.
      obtain rfl := hsound.keyed id patch hpatch
      have hnew : ¬ Known store.patches r.client.listBranches patch.id := fun hknown => by
        rw [hheld _ hknown, hpatch] at hget
        cases hget
      obtain ⟨before, after, hsplit⟩ := List.append_of_mem
        ((hdelivers.missing patch).mpr ⟨hpatch, hnew⟩)
      obtain ⟨hhere, hedges⟩ := hfetched.added before patch after hsplit
        ((hhas _).trans (by rw [SortedMap.contains_eq, hget]; rfl))
      refine ⟨hhere, hedges.trans (List.filter_eq_self.mpr fun q hq => ?_)⟩
      have hstored := hclosed _ patch hpatch q hq
      rw [Bool.or_eq_true, decide_eq_true_eq]
      by_cases hknown : Known store.patches r.client.listBranches q
      · refine .inl ((hhas q).trans ?_)
        rw [SortedMap.contains_eq, hheld q hknown]
        exact hstored
      · rw [hsplit] at hdelivers
        exact .inr (hdelivers.parents hsound hq hstored hknown)

/-- A full pull answers with the patches that are not known, each once and after its parents;
what a fetch makes of them is complete unless the client kept a patch without its parents. -/
theorem full_pull_delivers {store : HubStorage H} (hsound : Sound store.patches)
    (hclosed : Dag.ParentClosed store.patches) (order : Dag.IterationOrder (Patch H)) :
    (∀ known, Delivers store.patches known
        (handlePull order.arrange store ⟨known, none⟩).patches) ∧
      ∀ r : Opened H, r.Fresh → HoldsKnown store r →
        (HasHistory store (r.doFetch order store none).dag ↔ Settled store r) :=
  ⟨fun known => delivers_collectNewPatches hsound order known, fun _ hfresh hheld =>
    hasHistory_iff hsound hclosed order hfresh hheld⟩

theorem acyclic_of_ranks (rank : H → Nat) {patches : SortedMap H (Patch H)}
    (h : Client.Ranks rank patches) : Dag.Acyclic patches := by
  intro id hid
  refine lt_irrefl (rank id)
    (Relation.transGen_minimal (fun c p hstep => show rank c > rank p from ?_) id id hid)
  obtain ⟨-, patch, hpatch, hp⟩ := hstep
  exact h c patch hpatch p hp

/-- The hub has the branch `main` with two patches. -/
def twoPatches : HubStorage Nat where
  patches := (SortedMap.empty.insert 1 (samplePatch 1).patch).insert 2 (samplePatch 2).patch
  branches := SortedMap.empty.insert "main" 2
  protectedBranches := []

theorem twoPatches_rows : Sound twoPatches.patches ∧ Dag.ParentClosed twoPatches.patches := by
  have hrow : ∀ id patch, twoPatches.patches.get id = some patch →
      patch.id = id ∧ ∀ p ∈ patch.parentIds, p < id ∧ twoPatches.patches.contains p = true := by
    intro id patch hget
    rcases List.mem_cons.mp (SortedMap.mem_entries.mpr hget) with heq | hmem
    · cases heq
      exact ⟨rfl, nofun⟩
    · cases List.mem_singleton.mp hmem
      exact ⟨rfl, by decide⟩
  exact ⟨⟨fun id patch hget => (hrow id patch hget).1,
    acyclic_of_ranks (fun n => n) fun id patch hget p hp => ((hrow id patch hget).2 p hp).1⟩,
    fun id patch hget p hp => ((hrow id patch hget).2 p hp).2⟩

def emptyClone : Opened Nat where
  client :=
    { patches := .empty, branches := .empty, headBranch := none, detachedHead := none
      lastPushed := none }
  dag := .new

theorem holdsKnown_of_nil {store : HubStorage H} {r : Opened H} (h : r.client.listBranches = []) :
    HoldsKnown store r := by
  rintro id ⟨b, hb, -⟩
  rw [h] at hb
  cases hb

theorem full_pull_delivers_cloned :
    HasHistory twoPatches
      (emptyClone.doFetch ⟨id, fun _ => .refl _⟩ twoPatches none).dag := by
  have hfresh : emptyClone.Fresh :=
    { once := .nil, getPatch := fun _ => rfl, parents := nofun, closed := nofun
      generations := fun _ _ _ _ _ hid => by cases hid
      getBranch := fun _ => rfl }
  refine ((full_pull_delivers twoPatches_rows.1 twoPatches_rows.2 ⟨id, fun _ => .refl _⟩).2
    emptyClone hfresh (holdsKnown_of_nil rfl)).mpr ?_
  intro id patch held _ _ hget
  cases hget

/-- The second patch alone, as fetched from a hub that has not got the first. -/
def orphan : Opened Nat where
  client := { emptyClone.client with patches := SortedMap.empty.insert 2 (samplePatch 2).patch }
  dag := ⟨[(2, ⟨(samplePatch 2).patch, [], [], 0⟩)], [], []⟩

theorem orphan_fresh : orphan.Fresh := by
  have hopen : ¬ Dag.ParentClosed orphan.client.patches := fun h =>
    absurd (h 2 (samplePatch 2).patch rfl 1 (List.mem_singleton_self _)) (by decide)
  refine ⟨List.nodup_singleton _, fun id => ?_, fun id patch hget => ?_, fun h => absurd h hopen,
    fun h => absurd h hopen, fun _ => rfl⟩
  · change (Assoc.get [(2, _)] id).map Dag.DagNode.patch = Assoc.get [(2, _)] id
    rw [Assoc.get_cons, Assoc.get_cons]
    split <;> rfl
  · cases List.mem_singleton.mp (SortedMap.mem_entries.mpr hget)
    rfl

/-- It gets the first patch now, but in memory the second stays without a parent. -/
theorem parent_edge_missing :
    orphan = emptyClone.fetch ⟨[(samplePatch 2).patch], []⟩ ∧ orphan.Fresh ∧
      HoldsKnown twoPatches orphan ∧
      ¬ HasHistory twoPatches (orphan.doFetch ⟨id, fun _ => .refl _⟩ twoPatches none).dag := by
  have hheld : HoldsKnown twoPatches orphan := holdsKnown_of_nil rfl
  refine ⟨rfl, orphan_fresh, hheld, fun h => ?_⟩
  have hsettled := (hasHistory_iff twoPatches_rows.1 twoPatches_rows.2 _ orphan_fresh hheld).mp h
  have hparents := (hsettled 2 _ _ rfl ⟨"main", 2, rfl, .inl rfl⟩ rfl).2
  exact absurd (hparents 1 (List.mem_singleton_self _)) (by decide)

end Suture.Hub
