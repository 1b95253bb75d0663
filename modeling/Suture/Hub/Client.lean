import Suture.Dag.Reload
import Suture.Hub.Storage

/-!
# Clients of a hub

What pushing and fetching read and write of a repository: the rows of patches and
branches, HEAD and the patch last pushed. Each command opens the repository, so its DAG is
the one that the rows reload to.
-/

namespace Suture.Hub
set_option autoImplicit false
open Foundation Common Patches

variable {H : Type} [LinearOrder H]

structure Client (H : Type) [LinearOrder H] where
  patches : SortedMap H (Patch H)
  branches : SortedMap String H
  headBranch : Option String
  detachedHead : Option H
  lastPushed : Option H
deriving DecidableEq

/-- The parents that are stored, as in the DAG when it is reloaded. -/
def ancestry (patches : SortedMap H (Patch H)) : Successors H where
  next := fun id => (parentIdsOf patches id).filter patches.contains
  targets := (graph patches).targets
  next_mem := fun id p hp => (graph patches).next_mem id p (List.mem_filter.mp hp).1

/-- The client has it among the ancestors. -/
def Client.Descends (c : Client H) (id ancestor : H) : Prop := (ancestry c.patches).Reaches id ancestor

instance (c : Client H) (id ancestor : H) : Decidable (c.Descends id ancestor) :=
  decidable_of_iff (ancestor ∈ (ancestry c.patches).closure id) (ancestry c.patches).mem_closure

/-- A reloaded DAG has the ancestors that the rows say. -/
theorem reaches_reloaded {c : Client H} {d : Dag.PatchDag H}
    (h : Dag.Reconstructs c.patches c.branches d) (id ancestor : H) :
    d.Reaches id ancestor ↔ c.Descends id ancestor := by
  have hstep : d.ancestry.Step = (ancestry c.patches).Step := by
    funext x y
    refine congrArg (y ∈ ·) ?_
    change d.parents x = (parentIdsOf c.patches x).filter c.patches.contains
    unfold parentIdsOf
    cases hx : c.patches.get x with
    | some patch => exact h.parents x patch hx
    | none =>
      refine Dag.PatchDag.parents_of_unknown ?_
      rw [← Bool.not_eq_true, Dag.PatchDag.hasPatch_iff, h.getPatch, hx]
      exact fun hex => nomatch hex.choose_spec
  unfold Dag.PatchDag.Reaches Successors.Reaches Client.Descends Successors.Reaches
  rw [hstep]

theorem countP_lt {α : Type} {p q : α → Bool} {l : List α} (hpq : ∀ a ∈ l, p a = true → q a = true)
    {a : α} (ha : a ∈ l) (hq : q a = true) (hp : p a = false) : l.countP p < l.countP q := by
  have hfilter : l.filter p = (l.filter q).filter p := by
    rw [List.filter_filter]
    refine List.filter_congr fun b hb => ?_
    cases hpb : p b with
    | true => rw [hpq b hb hpb]; rfl
    | false => rfl
  rw [List.countP_eq_length_filter, List.countP_eq_length_filter, hfilter]
  refine List.length_filter_lt_length_iff_exists.mpr ⟨a, List.mem_filter.mpr ⟨ha, hq⟩, ?_⟩
  rw [hp]
  exact Bool.false_ne_true

namespace Client

/-- Branches whose target is stored. -/
def listBranches (c : Client H) : List (BranchProto H) :=
  (c.branches.entries.filter fun e => c.patches.contains e.2).map fun e => ⟨e.1, e.2⟩

def head (c : Client H) : Option H :=
  match c.detachedHead with
  | some id => some id
  | none => (c.branches.get (c.headBranch.getD "main")).filter c.patches.contains

/-! ### What to push -/

/-- The patches that the stack leads to, with the parents that are not known. -/
def collectUnknown (patches : SortedMap H (Patch H)) (known : SortedSet H)
    (parentMap : List (H × List H)) : List H → List (H × List H)
  | [] => parentMap
  | id :: stack =>
    if id ∈ known then collectUnknown patches known parentMap stack
    else
      match _hseen : Assoc.get parentMap id with
      | some _ => collectUnknown patches known parentMap stack
      | none =>
        match _hpatch : patches.get id with
        | none => collectUnknown patches known parentMap stack
        | some patch =>
          let parents := patch.parentIds.filter fun p => decide (p ∉ known)
          let parentMap := Assoc.insert id parents parentMap
          collectUnknown patches known parentMap
            ((parents.filter fun p => (Assoc.get parentMap p).isNone).reverse ++ stack)
termination_by stack =>
  (patches.keys.countP fun id => (Assoc.get parentMap id).isNone, stack.length)
decreasing_by
  · exact Prod.Lex.right _ (Nat.lt_succ_self _)
  · exact Prod.Lex.right _ (Nat.lt_succ_self _)
  · exact Prod.Lex.right _ (Nat.lt_succ_self _)
  · refine Prod.Lex.left _ _ (countP_lt (fun j _ hj => ?_) (a := id) ?_ ?_ ?_)
    · rw [Assoc.get_insert] at hj
      split at hj
      · cases hj
      · exact hj
    · refine SortedMap.mem_keys.mpr fun hnone => ?_
      rw [hnone] at _hpatch
      cases _hpatch
    · rw [_hseen]
      rfl
    · rw [Assoc.get_insert, if_pos rfl]
      rfl

/-- The patches that the branches reach and `since` does not, parents first. -/
def patchesSince (c : Client H) (since : H) : List (Patch H) :=
  let known := ((ancestry c.patches).closure since).insert since
  let parentMap := collectUnknown c.patches known [] (c.listBranches.map BranchProto.targetId).reverse
  let sortedIds := (Toposort.run id (fun ids id _ _ => ids ++ [id]) parentMap []).1
  sortedIds.filterMap c.patches.get

def allPatches (c : Client H) : List (Patch H) := c.patches.entries.map Prod.snd

def patchesToPush (c : Client H) : List (Patch H) :=
  match c.lastPushed with
  | some lastPushed => c.patchesSince lastPushed
  | none => c.allPatches

/-- The request of `cmd_push` without `--force`; there may be nothing to push. -/
def pushRequest (c : Client H) (branch : Option String) : Option (PushRequest H) :=
  let branchesToPush :=
    match branch with
    | some branchName => c.listBranches.filter fun b => b.name = branchName
    | none => c.listBranches
  if branchesToPush = [] then none
  else some
    { patches := c.patchesToPush
      branches := branchesToPush
      knownBranches := some c.listBranches
      force := false }

/-- After a push: the HEAD that the command started with. -/
def recordPush (c : Client H) (headId : Option H) : Client H :=
  match headId with
  | some id => { c with lastPushed := some id }
  | none => c

/-! ### What is pushed -/

/-- What the search collects: stored patches that are not known. -/
structure Collected (patches : SortedMap H (Patch H)) (known : SortedSet H)
    (parentMap : List (H × List H)) : Prop where
  sorted : Assoc.Sorted parentMap
  entries : ∀ id parents, Assoc.get parentMap id = some parents → id ∉ known ∧
    ∃ patch, patches.get id = some patch ∧
      parents = patch.parentIds.filter fun p => decide (p ∉ known)

theorem Collected.insert {patches : SortedMap H (Patch H)} {known : SortedSet H}
    {parentMap : List (H × List H)} (h : Collected patches known parentMap) {id : H} {patch : Patch H}
    (hid : id ∉ known) (hpatch : patches.get id = some patch) : Collected patches known
      (Assoc.insert id (patch.parentIds.filter fun p => decide (p ∉ known)) parentMap) where
  sorted := h.sorted.insert _ _
  entries := fun j parents hj => by
    rw [Assoc.get_insert] at hj
    split at hj
    · rename_i heq
      cases hj
      rw [heq]
      exact ⟨hid, patch, hpatch, rfl⟩
    · exact h.entries j parents hj

/-- What waits on the stack is collected, and so are the parents of all that is. -/
theorem collectUnknown_spec {patches : SortedMap H (Patch H)} {known : SortedSet H}
    {parentMap : List (H × List H)} (stack : List H) (h : Collected patches known parentMap)
    (hfront : ∀ id parents, Assoc.get parentMap id = some parents → ∀ p ∈ parents,
      patches.contains p = true → (Assoc.get parentMap p).isSome = true ∨ p ∈ stack) :
    Collected patches known (collectUnknown patches known parentMap stack) ∧
      (∀ id, (Assoc.get parentMap id).isSome = true ∨
          (id ∈ stack ∧ id ∉ known ∧ patches.contains id = true) →
        (Assoc.get (collectUnknown patches known parentMap stack) id).isSome = true) ∧
      ∀ id parents, Assoc.get (collectUnknown patches known parentMap stack) id = some parents →
        ∀ p ∈ parents, patches.contains p = true →
          (Assoc.get (collectUnknown patches known parentMap stack) p).isSome = true := by
  fun_induction collectUnknown patches known parentMap stack with
  | case1 parentMap =>
    refine ⟨h, fun id hid => hid.resolve_right fun hid => List.not_mem_nil hid.1,
      fun id ps hget p hp hp' => ?_⟩
    exact (hfront id ps hget p hp hp').resolve_right List.not_mem_nil
  | case2 parentMap id stack hknown ih =>
    obtain ⟨hc, hmem, hclosed⟩ := ih h fun j ps hj p hp hp' => by
      refine (hfront j ps hj p hp hp').imp_right fun hstack => ?_
      refine (List.mem_cons.mp hstack).resolve_left ?_
      rintro rfl
      obtain ⟨-, patch, -, rfl⟩ := h.entries j ps hj
      exact of_decide_eq_true (List.mem_filter.mp hp).2 hknown
    refine ⟨hc, fun j hj => hmem j (hj.imp_right fun hj => ⟨?_, hj.2⟩), hclosed⟩
    refine (List.mem_cons.mp hj.1).resolve_left ?_
    rintro rfl
    exact hj.2.1 hknown
  | case3 parentMap id stack hnew parents hseen ih =>
    obtain ⟨hc, hmem, hclosed⟩ := ih h fun j ps hj p hp hp' => by
      rcases hfront j ps hj p hp hp' with hin | hstack
      · exact .inl hin
      · rcases List.mem_cons.mp hstack with rfl | hstack
        · exact .inl (by rw [hseen]; rfl)
        · exact .inr hstack
    refine ⟨hc, fun j hj => hmem j ?_, hclosed⟩
    rcases hj with hj | ⟨hstack, hj⟩
    · exact .inl hj
    · rcases List.mem_cons.mp hstack with rfl | hstack
      · exact .inl (by rw [hseen]; rfl)
      · exact .inr ⟨hstack, hj⟩
  | case4 parentMap id stack hnew hseen hpatch ih =>
    have hmissing : patches.contains id = false := by rw [SortedMap.contains_eq, hpatch]; rfl
    have hne : ∀ p, patches.contains p = true → p ≠ id := by
      rintro p hp rfl
      rw [hmissing] at hp
      cases hp
    obtain ⟨hc, hmem, hclosed⟩ := ih h fun j ps hj p hp hp' =>
      (hfront j ps hj p hp hp').imp_right fun hstack =>
        (List.mem_cons.mp hstack).resolve_left (hne p hp')
    refine ⟨hc, fun j hj => hmem j (hj.imp_right fun hj => ⟨?_, hj.2⟩), hclosed⟩
    exact (List.mem_cons.mp hj.1).resolve_left (hne j hj.2.2)
  | case5 parentMap id stack hnew hseen patch hpatch parents parentMap' ih =>
    have hkeep : ∀ j, (Assoc.get parentMap j).isSome = true → (Assoc.get parentMap' j).isSome = true :=
      fun j hj => by
        simp only [parentMap', Assoc.get_insert]
        split
        · rfl
        · exact hj
    have hself : (Assoc.get parentMap' id).isSome = true := by
      simp only [parentMap', Assoc.get_insert, if_true]
      rfl
    have hpush : ∀ p ∈ parents, (Assoc.get parentMap' p).isSome = true ∨
        p ∈ (parents.filter fun p => (Assoc.get parentMap' p).isNone).reverse ++ stack := by
      intro p hp
      cases hget : Assoc.get parentMap' p with
      | some _ => exact .inl rfl
      | none =>
        refine .inr (List.mem_append.mpr (.inl (List.mem_reverse.mpr (List.mem_filter.mpr ⟨hp, ?_⟩))))
        rw [hget]
        rfl
    obtain ⟨hc, hmem, hclosed⟩ := ih (h.insert hnew hpatch) fun j ps hj p hp hp' => by
      rw [Assoc.get_insert] at hj
      split at hj
      · cases hj
        exact hpush p hp
      · rcases hfront j ps hj p hp hp' with hin | hstack
        · exact .inl (hkeep p hin)
        · rcases List.mem_cons.mp hstack with rfl | hstack
          · exact .inl hself
          · exact .inr (List.mem_append_right _ hstack)
    refine ⟨hc, fun j hj => hmem j ?_, hclosed⟩
    rcases hj with hj | ⟨hstack, hj⟩
    · exact .inl (hkeep j hj)
    · rcases List.mem_cons.mp hstack with rfl | hstack
      · exact .inl hself
      · exact .inr ⟨List.mem_append_right _ hstack, hj⟩

/-- A rank by which the stored parents of a patch come before it. -/
def Ranks (rank : H → Nat) (patches : SortedMap H (Patch H)) : Prop :=
  ∀ id patch, patches.get id = some patch → ∀ p ∈ patch.parentIds, rank p < rank id

/-- The sorted ids are those of the parent map. -/
theorem mem_sortedIds {rank : H → Nat} {patches : SortedMap H (Patch H)} {known : SortedSet H}
    {parentMap : List (H × List H)} (h : Collected patches known parentMap)
    (hrank : Ranks rank patches) (j : H) :
    j ∈ (Toposort.run id (fun ids id _ _ => ids ++ [id]) parentMap []).1 ↔
      (Assoc.get parentMap j).isSome = true := by
  have hnodup : (Toposort.keys parentMap).Nodup := (List.pairwise_map.mpr h.sorted).imp ne_of_lt
  have htrans : IsTrans H fun a b => rank b < rank a := ⟨fun _ _ _ hab hbc => hbc.trans hab⟩
  have hacyclic : ∀ c, ¬ Relation.TransGen (Toposort.Waits id parentMap) c c := by
    intro c hc
    refine lt_irrefl (rank c) (Relation.transGen_minimal
      (fun a b hab => show rank b < rank a from ?_) c c hc)
    obtain ⟨-, parents, hget, hp⟩ := hab
    obtain ⟨-, patch, hpatch, rfl⟩ := h.entries a parents hget
    exact hrank a patch hpatch b (List.mem_filter.mp hp).1
  obtain ⟨-, processed, hall, hsorted⟩ := Toposort.run_spec hnodup hacyclic
    (fun (ids : List H) id _ _ => ids ++ [id])
    (fun processed ids => ∀ i, i ∈ ids ↔ i ∈ processed)
    (fun processed ids id _ hids _ _ _ i => by
      rw [List.mem_append, hids, List.mem_singleton, SortedSet.mem_insert, or_comm])
    (fun i => iff_of_false List.not_mem_nil (SortedSet.not_mem_empty i))
  rw [hsorted, hall, Toposort.mem_keys_iff, Option.isSome_iff_exists]

/-- What is pushed since a patch: what the branches reach, apart from what that patch reaches. -/
theorem mem_patchesSince {rank : H → Nat} {c : Client H} (hrank : Ranks rank c.patches) (since : H) :
    (∀ patch ∈ c.patchesSince since, ∃ id, c.patches.get id = some patch) ∧
      (∀ b ∈ c.listBranches, b.targetId = since ∨ c.Descends since b.targetId ∨
        ∃ patch ∈ c.patchesSince since, c.patches.get b.targetId = some patch) ∧
      ∀ patch ∈ c.patchesSince since, ∀ p ∈ patch.parentIds, c.patches.contains p = true →
        p = since ∨ c.Descends since p ∨ ∃ parent ∈ c.patchesSince since,
          c.patches.get p = some parent := by
  obtain ⟨known, hknown⟩ : ∃ known, known = ((ancestry c.patches).closure since).insert since :=
    ⟨_, rfl⟩
  obtain ⟨stack, hstack⟩ : ∃ stack, stack = (c.listBranches.map BranchProto.targetId).reverse :=
    ⟨_, rfl⟩
  obtain ⟨hcollected, htips, hclosed⟩ := collectUnknown_spec stack
    (show Collected c.patches known [] from ⟨.nil, nofun⟩) nofun
  have hmem : ∀ patch, patch ∈ c.patchesSince since ↔ ∃ id,
      (Assoc.get (collectUnknown c.patches known [] stack) id).isSome = true ∧
        c.patches.get id = some patch := fun patch => by
    unfold patchesSince
    rw [← hknown, ← hstack, List.mem_filterMap]
    exact exists_congr fun id => and_congr_left fun _ => mem_sortedIds hcollected hrank id
  have hin : ∀ p, p ∉ known → c.patches.contains p = true →
      (Assoc.get (collectUnknown c.patches known [] stack) p).isSome = true →
      ∃ patch ∈ c.patchesSince since, c.patches.get p = some patch := fun p _ hstored hsome => by
    obtain ⟨patch, hpatch⟩ := Option.isSome_iff_exists.mp hstored
    exact ⟨patch, (hmem patch).mpr ⟨p, hsome, hpatch⟩, hpatch⟩
  have hsplit : ∀ p, p ∈ known → p = since ∨ c.Descends since p := fun p hp => by
    rw [hknown, SortedSet.mem_insert] at hp
    exact hp.imp_right (ancestry c.patches).mem_closure.mp
  refine ⟨fun patch hpatch => ?_, fun b hb => ?_, fun patch hpatch p hp hstored => ?_⟩
  · obtain ⟨id, -, hget⟩ := (hmem patch).mp hpatch
    exact ⟨id, hget⟩
  · by_cases hb' : b.targetId ∈ known
    · exact (hsplit _ hb').imp_right .inl
    · obtain ⟨e, he, rfl⟩ := List.mem_map.mp hb
      have hstored := (List.mem_filter.mp he).2
      refine .inr (.inr (hin _ hb' hstored (htips _ (.inr ⟨?_, hb', hstored⟩))))
      rw [hstack]
      exact List.mem_reverse.mpr (List.mem_map_of_mem hb)
  · by_cases hp' : p ∈ known
    · exact (hsplit p hp').imp_right .inl
    · obtain ⟨id, hsome, hget⟩ := (hmem patch).mp hpatch
      obtain ⟨parents, hparents⟩ := Option.isSome_iff_exists.mp hsome
      obtain ⟨-, patch', hget', rfl⟩ := hcollected.entries id parents hparents
      rw [hget] at hget'
      cases hget'
      exact .inr (.inr (hin p hp' hstored (hclosed id _ hparents p
        (List.mem_filter.mpr ⟨hp, decide_eq_true hp'⟩) hstored)))

/-! ### Fetching -/

def storeFetched (c : Client H) (patch : Patch H) : Client H :=
  if c.patches.contains patch.id then c
  else { c with patches := c.patches.insert patch.id patch }

/-- Sets the local branches to those of the hub, up to the first bad name. -/
def setFetched (c : Client H) : List (BranchProto H) → Client H
  | [] => c
  | b :: rest =>
    match BranchName.new b.name with
    | .error _ => c
    | .ok name => setFetched { c with branches := c.branches.insert name.asStr b.targetId } rest

def applyFetch (c : Client H) (result : PullResponse H) : Client H :=
  setFetched (result.patches.foldl storeFetched c) result.branches

end Client
end Suture.Hub
