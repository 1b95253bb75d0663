import Suture.Foundation.Run
import Suture.Hub.World

/-!
# Pushes and fast-forwards

The hub checks a branch only if the client reports it at another target than it pushes,
and a client reports what it pushes. What the client has fetched decides instead.
-/

namespace Suture.Hub
set_option autoImplicit false
open Foundation Common Patches

variable {κ H : Type} [DecidableEq κ] [LinearOrder H] {parentsOf : H → List H}

/-! ### What a push does to the hub -/

theorem contains_iff {patches : SortedMap H (Patch H)} {id : H} :
    patches.contains id = true ↔ ∃ p, patches.get id = some p := Option.isSome_iff_exists

/-- Rows stay; the new ones are rows of the push. -/
theorem insertPatches_spec (patches : List (Patch H)) (store : HubStorage H) :
    (store.insertPatches patches).2.branches = store.branches ∧
      (∀ id p, store.patches.get id = some p → (store.insertPatches patches).2.patches.get id = some p) ∧
      (∀ id p, (store.insertPatches patches).2.patches.get id = some p →
        store.patches.get id = some p ∨ (p ∈ patches ∧ p.id = id)) ∧
      ∀ p ∈ patches, (store.insertPatches patches).2.patches.contains p.id = true := by
  induction patches generalizing store with
  | nil => exact ⟨rfl, fun _ _ => id, fun _ _ => .inl, fun _ hp => absurd hp List.not_mem_nil⟩
  | cons patch rest ih =>
    rw [HubStorage.insertPatches]
    split
    · rename_i hold
      obtain ⟨hbranches, hkeep, hnew, hall⟩ := ih store
      refine ⟨hbranches, hkeep, fun id p hp => ?_, fun p hp => ?_⟩
      · exact (hnew id p hp).imp_right (And.imp_left (List.mem_cons_of_mem _))
      · rcases List.mem_cons.mp hp with rfl | hp
        · obtain ⟨q, hq⟩ := contains_iff.mp hold
          exact contains_iff.mpr ⟨q, hkeep _ q hq⟩
        · exact hall p hp
    · rename_i hfresh
      obtain ⟨hbranches, hkeep, hnew, hall⟩ :=
        ih { store with patches := store.patches.insert patch.id patch }
      have hself : SortedMap.get (store.patches.insert patch.id patch) patch.id = some patch := by
        rw [SortedMap.get_insert, if_pos rfl]
      refine ⟨hbranches, fun id p hp => hkeep id p ?_, fun id p hp => ?_, fun p hp => ?_⟩
      · rw [SortedMap.get_insert, if_neg, hp]
        rintro rfl
        exact hfresh (contains_iff.mpr ⟨p, hp⟩)
      · rcases hnew id p hp with hold | hnew
        · rw [SortedMap.get_insert] at hold
          split at hold
          · rename_i hid
            cases hold
            exact .inr ⟨List.mem_cons_self .., hid.symm⟩
          · exact .inl hold
        · exact .inr (hnew.imp_left (List.mem_cons_of_mem _))
      · rcases List.mem_cons.mp hp with rfl | hp
        · exact contains_iff.mpr ⟨p, hkeep _ p hself⟩
        · exact hall p hp

/-- Each branch stays, or is set to a pushed target that was not refused where it was set. -/
theorem pushBranches_spec (req : PushRequest H) (branches : List (BranchProto H))
    (store : HubStorage H) :
    (HubStorage.pushBranches req store branches).2.patches = store.patches ∧
      ∀ name, (HubStorage.pushBranches req store branches).2.branches.get name =
          store.branches.get name ∨
        ∃ b ∈ branches, b.name = name ∧
          (HubStorage.pushBranches req store branches).2.branches.get name = some b.targetId := by
  induction branches generalizing store with
  | nil => exact ⟨rfl, fun _ => .inl rfl⟩
  | cons b rest ih =>
    rw [HubStorage.pushBranches]
    split
    · exact ⟨rfl, fun _ => .inl rfl⟩
    · obtain ⟨hpatches, hbranches⟩ := ih (store.setBranch b.name b.targetId)
      refine ⟨hpatches, fun name => ?_⟩
      rcases hbranches name with hsame | ⟨b', hb', hname, hset⟩
      · by_cases hname : name = b.name
        · refine .inr ⟨b, List.mem_cons_self .., hname.symm, ?_⟩
          rw [hsame, HubStorage.setBranch, SortedMap.get_insert, if_pos hname]
        · refine .inl ?_
          rw [hsame, HubStorage.setBranch, SortedMap.get_insert, if_neg hname]
      · exact .inr ⟨b', List.mem_cons_of_mem _ hb', hname, hset⟩

/-- From one state of the hub to a later one no row is lost, and the target of a branch only
moves to descendants. -/
structure FastForwards (hub hub' : HubStorage H) : Prop where
  rows : ∀ id p, hub.patches.get id = some p → hub'.patches.get id = some p
  branches : ∀ name current, hub.branches.get name = some current →
    ∃ target, hub'.branches.get name = some target ∧
      (target = current ∨ Reaches hub'.patches target current)

theorem reaches_mono {patches patches' : SortedMap H (Patch H)}
    (h : ∀ id p, patches.get id = some p → patches'.get id = some p) {id ancestor : H}
    (hreach : Reaches patches id ancestor) : Reaches patches' id ancestor := by
  refine Relation.TransGen.mono (fun x y hxy => ?_) _ _ hreach
  have hxy : y ∈ parentIdsOf patches x := hxy
  change y ∈ parentIdsOf patches' x
  unfold parentIdsOf at hxy ⊢
  cases hx : patches.get x with
  | none =>
    rw [hx] at hxy
    cases hxy
  | some p =>
    rw [hx] at hxy
    rwa [h x p hx]

theorem FastForwards.refl (hub : HubStorage H) : FastForwards hub hub :=
  ⟨fun _ _ => id, fun _ current h => ⟨current, h, .inl rfl⟩⟩

theorem FastForwards.trans {hub hub' hub'' : HubStorage H} (h : FastForwards hub hub')
    (h' : FastForwards hub' hub'') : FastForwards hub hub'' where
  rows := fun id p hp => h'.rows id p (h.rows id p hp)
  branches := fun name current hcurrent => by
    obtain ⟨middle, hmiddle, hfirst⟩ := h.branches name current hcurrent
    obtain ⟨target, htarget, hsecond⟩ := h'.branches name middle hmiddle
    refine ⟨target, htarget, ?_⟩
    rcases hfirst with rfl | hfirst
    · exact hsecond
    · have hfirst := reaches_mono h'.rows hfirst
      rcases hsecond with rfl | hsecond
      · exact .inr hfirst
      · exact .inr (hsecond.trans hfirst)

/-- A push is made of fast-forwards if each of its branches is one. -/
theorem fastForwards_handlePush {store : HubStorage H} {req : PushRequest H}
    (h : ∀ b ∈ req.branches, ∀ current, store.branches.get b.name = some current →
      b.targetId = current ∨
        Reaches (store.insertPatches req.patches).2.patches b.targetId current) :
    FastForwards store (store.handlePush req).2 := by
  obtain ⟨hbranches, hkeep, -, -⟩ := insertPatches_spec req.patches store
  obtain ⟨hpatches, hset⟩ := pushBranches_spec req req.branches (store.insertPatches req.patches).2
  have hpushed : (store.handlePush req).2 =
      (HubStorage.pushBranches req (store.insertPatches req.patches).2 req.branches).2 := rfl
  rw [hpushed]
  refine ⟨fun id p hp => ?_, fun name current hcurrent => ?_⟩
  · rw [hpatches]
    exact hkeep id p hp
  · rcases hset name with hsame | ⟨b, hb, rfl, hset⟩
    · exact ⟨current, by rw [hsame, hbranches, hcurrent], .inl rfl⟩
    · refine ⟨b.targetId, hset, ?_⟩
      rw [hpatches]
      exact h b hb current hcurrent

/-- Where the client reports every pushed branch at another target, the hub refuses all that
are not fast-forwards. -/
theorem fastForwards_of_reported {store : HubStorage H} {req : PushRequest H}
    (hforce : req.force = false)
    (h : ∀ b ∈ req.branches, ∃ known, ((req.knownBranches.getD []).find? fun kb => kb.name = b.name) =
      some known ∧ known.targetId ≠ b.targetId) :
    FastForwards store (store.handlePush req).2 := by
  have hone : ∀ (hub : HubStorage H) (b : BranchProto H), b ∈ req.branches →
      hub.refusal req b = none → FastForwards hub (hub.setBranch b.name b.targetId) := by
    intro hub b hb hallowed
    obtain ⟨known, hknown, hne⟩ := h b hb
    refine ⟨fun _ _ => id, fun name current hcurrent => ?_⟩
    by_cases hname : name = b.name
    · refine ⟨b.targetId, by rw [HubStorage.setBranch, SortedMap.get_insert, if_pos hname], ?_⟩
      unfold HubStorage.refusal at hallowed
      split at hallowed
      · cases hallowed
      rename_i hff
      rw [HubStorage.isNonFastForward, hknown, ← hname, hcurrent] at hff
      have hancestor : isAncestor hub.patches current b.targetId = true := by
        simpa [hforce, hne] using hff
      exact (reaches_of_isAncestor hancestor).imp_left Eq.symm
    · exact ⟨current, by rw [HubStorage.setBranch, SortedMap.get_insert, if_neg hname, hcurrent],
        .inl rfl⟩
  have hall : ∀ (branches : List (BranchProto H)) (hub : HubStorage H),
      (∀ b ∈ branches, b ∈ req.branches) →
      FastForwards hub (HubStorage.pushBranches req hub branches).2 := by
    intro branches
    induction branches with
    | nil => exact fun hub _ => .refl hub
    | cons b rest ih =>
      intro hub hsub
      rw [HubStorage.pushBranches]
      split
      · exact .refl hub
      · rename_i hallowed
        exact (hone hub b (hsub b (List.mem_cons_self ..)) hallowed).trans
          (ih _ fun b' hb' => hsub b' (List.mem_cons_of_mem _ hb'))
  obtain ⟨hbranches, hkeep, -, -⟩ := insertPatches_spec req.patches store
  have hinsert : FastForwards store (store.insertPatches req.patches).2 :=
    ⟨hkeep, fun name current hcurrent => ⟨current, by rw [hbranches, hcurrent], .inl rfl⟩⟩
  exact hinsert.trans (hall req.branches _ fun _ hb => hb)

/-! ### What holds of hub, clients and messages -/

/-- A patch is on the hub, or comes with a push. -/
def Arrives (hub : HubStorage H) (push : Push κ H) (id : H) : Prop :=
  (∃ p ∈ push.request.patches, p.id = id) ∨ hub.patches.contains id = true

/-- A push brings all that the hub misses below its branches and its HEAD. -/
structure Complete (parentsOf : H → List H) (hub : HubStorage H) (c : Client H) (push : Push κ H) :
    Prop where
  stored : ∀ p ∈ push.request.patches, c.patches.get p.id = some p
  closed : ∀ p ∈ push.request.patches, ∀ q ∈ parentsOf p.id, Arrives hub push q
  branches : ∀ b ∈ push.request.branches, Arrives hub push b.targetId
  head : ∀ id, push.headId = some id → Arrives hub push id

/-- Rows are stored under their ids, with the parents that these are hashes of. -/
def Rows (parentsOf : H → List H) (patches : SortedMap H (Patch H)) : Prop :=
  ∀ id p, patches.get id = some p → p.id = id ∧ p.parentIds = parentsOf id

structure Consistent (parentsOf : H → List H) (w : World κ H) : Prop where
  hubRows : Rows parentsOf w.hub.patches
  hubClosed : ∀ id, w.hub.patches.contains id = true → ∀ p ∈ parentsOf id,
    w.hub.patches.contains p = true
  clientRows : ∀ i, Rows parentsOf (w.clients i).patches
  clientClosed : ∀ i id, (w.clients i).patches.contains id = true → ∀ p ∈ parentsOf id,
    (w.clients i).patches.contains p = true ∨ w.hub.patches.contains id = true
  pushed : ∀ i id, (w.clients i).lastPushed = some id → w.hub.patches.contains id = true
  pushes : ∀ push ∈ w.pushes, Complete parentsOf w.hub (w.clients push.client) push
  accepted : ∀ a ∈ w.accepted, ∀ id, a.2 = some id → w.hub.patches.contains id = true
  answers : ∀ a ∈ w.answers, ∀ p ∈ a.2.patches, w.hub.patches.get p.id = some p
  ranked : ∃ rank : H → Nat, ∀ id, (w.hub.patches.contains id = true ∨
    ∃ i, (w.clients i).patches.contains id = true) → ∀ p ∈ parentsOf id, rank p < rank id

/-- No row is lost or replaced. -/
def Keeps (patches patches' : SortedMap H (Patch H)) : Prop :=
  ∀ id p, patches.get id = some p → patches'.get id = some p

theorem Keeps.contains {patches patches' : SortedMap H (Patch H)} (h : Keeps patches patches') {id : H}
    (hid : patches.contains id = true) : patches'.contains id = true := by
  obtain ⟨p, hp⟩ := contains_iff.mp hid
  exact contains_iff.mpr ⟨p, h id p hp⟩

theorem Rows.parents {patches : SortedMap H (Patch H)} (h : Rows parentsOf patches) {id : H}
    (hid : patches.contains id = true) : parentIdsOf patches id = parentsOf id := by
  obtain ⟨p, hp⟩ := contains_iff.mp hid
  rw [parentIdsOf, hp, ← (h id p hp).2]
  rfl

/-- What is closed under parents contains the ancestors that a client sees. -/
theorem closed_of_descends {c : Client H} (hrows : Rows parentsOf c.patches) {P : H → Prop}
    (hP : ∀ id, P id → ∀ p ∈ parentsOf id, P p) {id ancestor : H} (hid : P id)
    (h : c.Descends id ancestor) : P ancestor := by
  have hstep : ∀ x y, (ancestry c.patches).Step x y → y ∈ parentsOf x := fun x y hxy => by
    have hxy : y ∈ (parentIdsOf c.patches x).filter c.patches.contains := hxy
    obtain ⟨hy, -⟩ := List.mem_filter.mp hxy
    unfold parentIdsOf at hy
    cases hx : c.patches.get x with
    | none =>
      rw [hx] at hy
      cases hy
    | some p =>
      rw [hx] at hy
      rw [← (hrows x p hx).2]
      exact hy
  induction h with
  | single h => exact hP _ hid _ (hstep _ _ h)
  | tail _ h ih => exact hP _ ih _ (hstep _ _ h)

/-- The hub sees every ancestor that a client sees of a patch on the hub. -/
theorem reaches_of_descends {patches : SortedMap H (Patch H)} (hhub : Rows parentsOf patches)
    (hclosed : ∀ id, patches.contains id = true → ∀ p ∈ parentsOf id, patches.contains p = true)
    {c : Client H} (hrows : Rows parentsOf c.patches) {id ancestor : H}
    (hid : patches.contains id = true) (h : c.Descends id ancestor) :
    Reaches patches id ancestor := by
  have hstep : ∀ x y, (ancestry c.patches).Step x y → y ∈ parentIdsOf c.patches x := fun x y hxy =>
    (List.mem_filter.mp hxy).1
  have hsame : ∀ x y, patches.contains x = true → y ∈ parentIdsOf c.patches x →
      y ∈ parentIdsOf patches x := fun x y hx hy => by
    rw [hhub.parents hx]
    cases hget : c.patches.get x with
    | none =>
      rw [parentIdsOf, hget] at hy
      cases hy
    | some p => rwa [hrows.parents (contains_iff.mpr ⟨p, hget⟩)] at hy
  induction h with
  | single h => exact .single (hsame _ _ hid (hstep _ _ h))
  | tail hpath h ih =>
    have hmiddle := closed_of_descends hrows (P := fun x => patches.contains x = true) hclosed hid hpath
    exact ih.tail (hsame _ _ hmiddle (hstep _ _ h))

omit [DecidableEq κ] in
theorem Arrives.mono {hub hub' : HubStorage H} (hhub : Keeps hub.patches hub'.patches)
    {push : Push κ H} {id : H} (h : Arrives hub push id) : Arrives hub' push id :=
  h.imp_right hhub.contains

omit [DecidableEq κ] in
theorem Complete.mono {hub hub' : HubStorage H} {c c' : Client H} {push : Push κ H}
    (h : Complete parentsOf hub c push) (hhub : Keeps hub.patches hub'.patches)
    (hc : Keeps c.patches c'.patches) : Complete parentsOf hub' c' push where
  stored := fun p hp => hc _ p (h.stored p hp)
  closed := fun p hp q hq => (h.closed p hp q hq).mono hhub
  branches := fun b hb => (h.branches b hb).mono hhub
  head := fun id hid => (h.head id hid).mono hhub

/-! ### Local work -/

theorem Consistent.setClient {w : World κ H} (hw : Consistent parentsOf w) (i : κ) {c : Client H}
    (hkeep : Keeps (w.clients i).patches c.patches) (hrows : Rows parentsOf c.patches)
    (hclosed : ∀ id, c.patches.contains id = true → ∀ p ∈ parentsOf id,
      c.patches.contains p = true ∨ w.hub.patches.contains id = true)
    (hpushed : ∀ id, c.lastPushed = some id → w.hub.patches.contains id = true)
    (hranked : ∃ rank : H → Nat, ∀ id, (w.hub.patches.contains id = true ∨
      c.patches.contains id = true ∨ ∃ j, (w.clients j).patches.contains id = true) →
      ∀ p ∈ parentsOf id, rank p < rank id) : Consistent parentsOf (w.setClient i c) := by
  have hclient : ∀ {P : Client H → Prop}, P c → (∀ j, P (w.clients j)) →
      ∀ j, P (Function.update w.clients i c j) := fun {P} hc hothers j => by
    by_cases hj : j = i
    · subst hj
      rwa [Function.update_self]
    · rw [Function.update_of_ne hj]
      exact hothers j
  refine { hw with
    clientRows := hclient (P := fun c => Rows parentsOf c.patches) hrows hw.clientRows
    clientClosed := hclient (P := fun c => ∀ id, c.patches.contains id = true → ∀ p ∈ parentsOf id,
      c.patches.contains p = true ∨ w.hub.patches.contains id = true) hclosed hw.clientClosed
    pushed := hclient (P := fun c => ∀ id, c.lastPushed = some id →
      w.hub.patches.contains id = true) hpushed hw.pushed
    pushes := fun push hpush => ?_
    ranked := ?_ }
  · refine (hw.pushes push hpush).mono (fun _ _ => id) ?_
    change Keeps _ (Function.update w.clients i c push.client).patches
    by_cases hj : push.client = i
    · rw [hj, Function.update_self]
      exact hkeep
    · rw [Function.update_of_ne hj]
      exact fun _ _ => id
  · obtain ⟨rank, hrank⟩ := hranked
    refine ⟨rank, fun id hid => hrank id (hid.imp_right ?_)⟩
    rintro ⟨j, hj⟩
    change (Function.update w.clients i c j).patches.contains id = true at hj
    by_cases hji : j = i
    · rw [hji, Function.update_self] at hj
      exact .inl hj
    · rw [Function.update_of_ne hji] at hj
      exact .inr ⟨j, hj⟩

/-- A client that changes no row of a patch. -/
theorem Consistent.setOther {w : World κ H} (hw : Consistent parentsOf w) (i : κ) {c : Client H}
    (hsame : c.patches = (w.clients i).patches)
    (hpushed : ∀ id, c.lastPushed = some id → w.hub.patches.contains id = true) :
    Consistent parentsOf (w.setClient i c) := by
  obtain ⟨rank, hrank⟩ := hw.ranked
  refine hw.setClient i (hsame ▸ fun _ _ => id) (hsame ▸ hw.clientRows i)
    (hsame ▸ hw.clientClosed i) hpushed ⟨rank, fun id hid => hrank id (hid.imp_right fun hid => ?_)⟩
  exact hid.elim (fun hc => ⟨i, hsame ▸ hc⟩) fun h => h

/-- Somewhere there is a row of the patch. -/
def Exists (w : World κ H) (id : H) : Prop :=
  w.hub.patches.contains id = true ∨ ∃ i, (w.clients i).patches.contains id = true

omit [DecidableEq κ] in
theorem Consistent.exists_parent {w : World κ H} (hw : Consistent parentsOf w) {id p : H}
    (hid : Exists w id) (hp : p ∈ parentsOf id) : Exists w p := by
  rcases hid with hhub | ⟨i, hi⟩
  · exact .inl (hw.hubClosed id hhub p hp)
  · rcases hw.clientClosed i id hi p hp with hclient | hhub
    · exact .inr ⟨i, hclient⟩
    · exact .inl (hw.hubClosed id hhub p hp)

omit [DecidableEq κ] in
/-- A new patch ranks above its parents; nothing is below it yet. -/
theorem Consistent.rank_new {w : World κ H} (hw : Consistent parentsOf w) {id : H}
    (hparents : ∀ p ∈ parentsOf id, Exists w p) :
    ∃ rank : H → Nat, ∀ j, j = id ∨ Exists w j → ∀ p ∈ parentsOf j, rank p < rank j := by
  obtain ⟨rank, hrank⟩ := hw.ranked
  by_cases hex : Exists w id
  · refine ⟨rank, fun j hj => hrank j ?_⟩
    rcases hj with rfl | hj
    · exact hex
    · exact hj
  · have hold : ∀ {p}, Exists w p → p ≠ id := by
      rintro p hp rfl
      exact hex hp
    refine ⟨Function.update rank id (((parentsOf id).map rank).foldl max 0 + 1),
      fun j hj p hp => ?_⟩
    by_cases hjid : j = id
    · subst hjid
      rw [Function.update_self, Function.update_of_ne (hold (hparents p hp))]
      exact Nat.lt_succ_of_le ((Dag.PatchDag.le_foldl_max _ 0).2 _ (List.mem_map_of_mem hp))
    · have hj := hj.resolve_left hjid
      rw [Function.update_of_ne hjid, Function.update_of_ne (hold (hw.exists_parent hj hp))]
      exact hrank j hj p hp

theorem Consistent.edit {w : World κ H} (hw : Consistent parentsOf w) (i : κ) (e : Edit parentsOf) :
    Consistent parentsOf (w.setClient i ((w.clients i).edit e)) := by
  cases e with
  | storePatch authored =>
    obtain ⟨patch, hhashed⟩ := authored
    unfold Client.edit
    dsimp only
    split
    · rename_i hok
      obtain ⟨hnew, hparents⟩ := hok
      rw [hhashed] at hparents
      have hfresh : ∀ {id p}, (w.clients i).patches.get id = some p → id ≠ patch.id := by
        rintro id p hget rfl
        rw [contains_iff.mpr ⟨p, hget⟩] at hnew
        cases hnew
      have hkeep : Keeps (w.clients i).patches ((w.clients i).patches.insert patch.id patch) :=
        fun id p hget => by rw [SortedMap.get_insert, if_neg (hfresh hget), hget]
      have hcontains : ∀ id, ((w.clients i).patches.insert patch.id patch).contains id = true →
          id = patch.id ∨ (w.clients i).patches.contains id = true := fun id hid => by
        obtain ⟨p, hp⟩ := contains_iff.mp hid
        rw [SortedMap.get_insert] at hp
        split at hp
        · exact .inl ‹_›
        · exact .inr (contains_iff.mpr ⟨p, hp⟩)
      obtain ⟨rank, hrank⟩ := hw.rank_new fun p hp => .inr ⟨i, hparents p hp⟩
      refine hw.setClient i hkeep (fun id p hp => ?_) (fun id hid p hp => ?_) (hw.pushed i)
        ⟨rank, fun id hid => hrank id ?_⟩
      · rw [SortedMap.get_insert] at hp
        split at hp
        · rename_i hid
          cases hp
          rw [hid]
          exact ⟨rfl, hhashed⟩
        · exact hw.clientRows i id p hp
      · rcases hcontains id hid with rfl | hid
        · exact .inl (hkeep.contains (hparents p hp))
        · exact (hw.clientClosed i id hid p hp).imp_left hkeep.contains
      · rcases hid with hhub | hclient | hother
        · exact .inr (.inl hhub)
        · exact (hcontains id hclient).imp_right fun h => .inr ⟨i, h⟩
        · exact .inr (.inr hother)
    · exact hw.setOther i rfl (hw.pushed i)
  | setBranch name target =>
    unfold Client.edit
    dsimp only
    split
    · exact hw.setOther i rfl (hw.pushed i)
    · exact hw.setOther i rfl (hw.pushed i)
  | deleteBranch name => exact hw.setOther i rfl (hw.pushed i)
  | setHead headBranch detachedHead => exact hw.setOther i rfl (hw.pushed i)

/-! ### Pushing and fetching -/

/-- HEAD is on a branch, or at a commit that a branch of the client reaches. -/
def HeadOnBranch (c : Client H) : Prop :=
  ∀ id ∈ c.detachedHead, ∃ b ∈ c.listBranches, id = b.targetId ∨ c.Descends b.targetId id

/-- What a client chooses to push is stored; what it leaves out the hub has. -/
structure Chosen (parentsOf : H → List H) (hub : HubStorage H) (c : Client H)
    (patches : List (Patch H)) : Prop where
  stored : ∀ p ∈ patches, c.patches.get p.id = some p
  branches : ∀ b ∈ c.listBranches, (∃ p ∈ patches, p.id = b.targetId) ∨
    hub.patches.contains b.targetId = true
  closed : ∀ p ∈ patches, ∀ q ∈ parentsOf p.id,
    (∃ p' ∈ patches, p'.id = q) ∨ hub.patches.contains q = true

theorem mem_listBranches {c : Client H} {b : BranchProto H} :
    b ∈ c.listBranches ↔ c.branches.get b.name = some b.targetId ∧
      c.patches.contains b.targetId = true := by
  unfold Client.listBranches
  rw [List.mem_map]
  constructor
  · rintro ⟨⟨name, target⟩, he, rfl⟩
    obtain ⟨hmem, hstored⟩ := List.mem_filter.mp he
    exact ⟨SortedMap.mem_entries.mp hmem, hstored⟩
  · rintro ⟨hget, hstored⟩
    exact ⟨(b.name, b.targetId), List.mem_filter.mpr ⟨SortedMap.mem_entries.mpr hget, hstored⟩, rfl⟩

omit [DecidableEq κ] in
theorem Consistent.chosen {w : World κ H} (hw : Consistent parentsOf w) (i : κ) :
    Chosen parentsOf w.hub (w.clients i) (w.clients i).patchesToPush := by
  have hrows := hw.clientRows i
  have hparent : ∀ p, (w.clients i).patches.get p.id = some p → ∀ q ∈ parentsOf p.id,
      (w.clients i).patches.contains q = true ∨ w.hub.patches.contains q = true :=
    fun p hp q hq => (hw.clientClosed i p.id (contains_iff.mpr ⟨p, hp⟩) q hq).imp_right
      fun hhub => hw.hubClosed p.id hhub q hq
  unfold Client.patchesToPush
  cases hlast : (w.clients i).lastPushed with
  | none =>
    have hmem : ∀ p, p ∈ (w.clients i).allPatches ↔ (w.clients i).patches.get p.id = some p := by
      intro p
      unfold Client.allPatches
      rw [List.mem_map]
      constructor
      · rintro ⟨⟨id, p'⟩, he, rfl⟩
        have hget := SortedMap.mem_entries.mp he
        rwa [(hrows id p' hget).1]
      · exact fun hget => ⟨(p.id, p), SortedMap.mem_entries.mpr hget, rfl⟩
    have hin : ∀ q, (w.clients i).patches.contains q = true →
        ∃ p ∈ (w.clients i).allPatches, p.id = q := fun q hq => by
      obtain ⟨p, hp⟩ := contains_iff.mp hq
      have hid := (hrows q p hp).1
      exact ⟨p, (hmem p).mpr (by rw [hid, hp]), hid⟩
    exact ⟨fun p => (hmem p).mp, fun b hb => .inl (hin _ (mem_listBranches.mp hb).2),
      fun p hp q hq => (hparent p ((hmem p).mp hp) q hq).imp_left (hin q)⟩
  | some last =>
    have hlast := hw.pushed i last hlast
    have hbelow : ∀ q, q = last ∨ (w.clients i).Descends last q → w.hub.patches.contains q = true := by
      rintro q (rfl | hq)
      · exact hlast
      · exact closed_of_descends hrows (P := fun x => w.hub.patches.contains x = true) hw.hubClosed
          hlast hq
    obtain ⟨rank, hrank⟩ := hw.ranked
    have hranks : Client.Ranks rank (w.clients i).patches := fun id p hp q hq => by
      refine hrank id (.inr ⟨i, contains_iff.mpr ⟨p, hp⟩⟩) q ?_
      rwa [← (hrows id p hp).2]
    obtain ⟨hsent, htips, hclosed⟩ := Client.mem_patchesSince hranks last
    have hstored : ∀ p ∈ (w.clients i).patchesSince last,
        (w.clients i).patches.get p.id = some p := fun p hp => by
      obtain ⟨id, hget⟩ := hsent p hp
      rwa [(hrows id p hget).1]
    have hsplit : ∀ q, (q = last ∨ (w.clients i).Descends last q ∨
        ∃ p ∈ (w.clients i).patchesSince last, (w.clients i).patches.get q = some p) →
        (∃ p ∈ (w.clients i).patchesSince last, p.id = q) ∨ w.hub.patches.contains q = true := by
      rintro q (hq | hq | ⟨p, hp, hget⟩)
      · exact .inr (hbelow q (.inl hq))
      · exact .inr (hbelow q (.inr hq))
      · exact .inl ⟨p, hp, (hrows q p hget).1⟩
    refine ⟨hstored, fun b hb => hsplit _ (htips b hb), fun p hp q hq => ?_⟩
    rcases hparent p (hstored p hp) q hq with hq' | hhub
    · refine hsplit q (hclosed p hp q ?_ hq')
      rwa [(hrows p.id p (hstored p hp)).2]
    · exact .inr hhub

/-- HEAD is sent, or the hub has it. -/
def HeadSent (hub : HubStorage H) (c : Client H) : Prop :=
  ∀ id, c.head = some id → (∃ p ∈ c.patchesToPush, p.id = id) ∨ hub.patches.contains id = true

omit [DecidableEq κ] in
/-- The targets and what is below them are sent, or the hub has them. -/
theorem Consistent.sent_of_below {w : World κ H} (hw : Consistent parentsOf w) {i : κ}
    {b : BranchProto H} (hb : b ∈ (w.clients i).listBranches) {id : H}
    (hid : id = b.targetId ∨ (w.clients i).Descends b.targetId id) :
    (∃ p ∈ (w.clients i).patchesToPush, p.id = id) ∨ w.hub.patches.contains id = true := by
  have hchosen := hw.chosen i
  rcases hid with rfl | hreach
  · exact hchosen.branches b hb
  · refine closed_of_descends (hw.clientRows i) (P := fun id =>
      (∃ p ∈ (w.clients i).patchesToPush, p.id = id) ∨ w.hub.patches.contains id = true)
      ?_ (hchosen.branches b hb) hreach
    rintro x (⟨p, hp, rfl⟩ | hhub) q hq
    · exact hchosen.closed p hp q hq
    · exact .inr (hw.hubClosed x hhub q hq)

theorem mem_listBranches_of_head {c : Client H} {id : H} (hdetached : c.detachedHead = none)
    (hid : c.head = some id) : ∃ b ∈ c.listBranches, b.targetId = id := by
  unfold Client.head at hid
  rw [hdetached] at hid
  obtain ⟨hget, hstored⟩ := Option.filter_eq_some_iff.mp hid
  exact ⟨⟨_, id⟩, mem_listBranches.mpr ⟨hget, hstored⟩, rfl⟩

omit [DecidableEq κ] in
theorem Consistent.headSent {w : World κ H} (hw : Consistent parentsOf w) {i : κ}
    (hhead : HeadOnBranch (w.clients i)) : HeadSent w.hub (w.clients i) := by
  intro id hid
  cases hdetached : (w.clients i).detachedHead with
  | some detached =>
    obtain ⟨b, hb, hbelow⟩ := hhead detached hdetached
    rw [Client.head, hdetached] at hid
    cases hid
    exact hw.sent_of_below hb hbelow
  | none =>
    obtain ⟨b, hb, rfl⟩ := mem_listBranches_of_head hdetached hid
    exact hw.sent_of_below hb (.inl rfl)

omit [DecidableEq κ] in
/-- What a client sends is complete. -/
theorem Consistent.complete {w : World κ H} (hw : Consistent parentsOf w) {i : κ}
    {branch : Option String} {request : PushRequest H}
    (hrequest : (w.clients i).pushRequest branch = some request)
    (hhead : HeadSent w.hub (w.clients i)) :
    Complete parentsOf w.hub (w.clients i) ⟨i, request, (w.clients i).head⟩ := by
  have hchosen := hw.chosen i
  obtain ⟨hpatches, hbranches⟩ : request.patches = (w.clients i).patchesToPush ∧
      ∀ b ∈ request.branches, b ∈ (w.clients i).listBranches := by
    have hsome : ∀ branches, (if branches = [] then none else some
        { patches := (w.clients i).patchesToPush, branches := branches
          knownBranches := some (w.clients i).listBranches, force := false }) = some request →
        request.patches = (w.clients i).patchesToPush ∧ request.branches = branches := by
      intro branches h
      split at h
      · cases h
      · cases h
        exact ⟨rfl, rfl⟩
    obtain ⟨hpatches, hbranches⟩ := hsome _ hrequest
    refine ⟨hpatches, fun b hb => ?_⟩
    rw [hbranches] at hb
    cases branch with
    | none => exact hb
    | some name => exact (List.mem_filter.mp hb).1
  have harrives : ∀ id, (∃ p ∈ (w.clients i).patchesToPush, p.id = id) ∨
      w.hub.patches.contains id = true → Arrives w.hub ⟨i, request, (w.clients i).head⟩ id :=
    fun id hid => hid.imp_left fun hsent => by rwa [hpatches]
  exact ⟨fun p hp => hchosen.stored p (hpatches ▸ hp),
    fun p hp q hq => harrives q (hchosen.closed p (hpatches ▸ hp) q hq),
    fun b hb => harrives _ (hchosen.branches b (hbranches b hb)),
    fun id hid => harrives id (hhead id hid)⟩

omit [DecidableEq κ] in
theorem Consistent.startPush {w : World κ H} (hw : Consistent parentsOf w) {i : κ}
    {branch : Option String} (hhead : HeadSent w.hub (w.clients i)) :
    Consistent parentsOf (w.startPush i branch) := by
  unfold World.startPush
  cases hrequest : (w.clients i).pushRequest branch with
  | none => exact hw
  | some request =>
    refine { hw with pushes := fun push hpush => ?_ }
    rcases List.mem_append.mp hpush with hpush | hpush
    · exact hw.pushes push hpush
    · rw [List.mem_singleton.mp hpush]
      exact hw.complete hrequest hhead

omit [DecidableEq κ] in
theorem Consistent.deliverPush {w : World κ H} (hw : Consistent parentsOf w) (k : Nat)
    {push : Push κ H} (hpush : push ∈ w.pushes) : Consistent parentsOf (w.deliverPush k push) := by
  have hcomplete := hw.pushes push hpush
  obtain ⟨-, hkeep, hnew, hall⟩ := insertPatches_spec push.request.patches w.hub
  have hpatches : (w.hub.handlePush push.request).2.patches =
      (w.hub.insertPatches push.request.patches).2.patches := (pushBranches_spec _ _ _).1
  have hkeep : Keeps w.hub.patches (w.hub.handlePush push.request).2.patches := by
    rw [hpatches]
    exact hkeep
  have harrives : ∀ id, Arrives w.hub push id →
      (w.hub.handlePush push.request).2.patches.contains id = true := by
    rintro id (⟨p, hp, rfl⟩ | hhub)
    · rw [hpatches]
      exact hall p hp
    · exact hkeep.contains hhub
  have hfrom : ∀ id, (w.hub.handlePush push.request).2.patches.contains id = true →
      w.hub.patches.contains id = true ∨ ∃ p ∈ push.request.patches, p.id = id := fun id hid => by
    obtain ⟨p, hp⟩ := contains_iff.mp hid
    rw [hpatches] at hp
    exact (hnew id p hp).imp (fun h => contains_iff.mpr ⟨p, h⟩) fun h => ⟨p, h⟩
  refine
    { hubRows := fun id p hp => ?_
      hubClosed := fun id hid q hq => ?_
      clientRows := hw.clientRows
      clientClosed := fun i id hid q hq => (hw.clientClosed i id hid q hq).imp_right hkeep.contains
      pushed := fun i id hid => hkeep.contains (hw.pushed i id hid)
      pushes := fun p hp => (hw.pushes p (List.mem_of_mem_eraseIdx hp)).mono hkeep fun _ _ => id
      accepted := fun a ha id hid => ?_
      answers := fun a ha p hp => hkeep p.id p (hw.answers a ha p hp)
      ranked := ?_ }
  · have hp : (w.hub.handlePush push.request).2.patches.get id = some p := hp
    rw [hpatches] at hp
    rcases hnew id p hp with hold | ⟨hmem, rfl⟩
    · exact hw.hubRows id p hold
    · exact hw.clientRows push.client p.id p (hcomplete.stored p hmem)
  · rcases hfrom id hid with hhub | ⟨p, hp, rfl⟩
    · exact hkeep.contains (hw.hubClosed id hhub q hq)
    · exact harrives q (hcomplete.closed p hp q hq)
  · have haccepted : a ∈ w.accepted ∨ a = (push.client, push.headId) := by
      unfold World.deliverPush at ha
      dsimp only at ha
      split at ha
      · exact (List.mem_append.mp ha).imp_right List.mem_singleton.mp
      · exact .inl ha
    rcases haccepted with hold | rfl
    · exact hkeep.contains (hw.accepted a hold id hid)
    · exact harrives id (hcomplete.head id hid)
  · obtain ⟨rank, hrank⟩ := hw.ranked
    refine ⟨rank, fun id hid => hrank id ?_⟩
    rcases hid with hhub | hclient
    · rcases hfrom id hhub with hhub | ⟨p, hp, rfl⟩
      · exact .inl hhub
      · exact .inr ⟨push.client, contains_iff.mpr ⟨p, hcomplete.stored p hp⟩⟩
    · exact .inr hclient

theorem patches_setFetched (branches : List (BranchProto H)) (c : Client H) :
    (c.setFetched branches).patches = c.patches ∧ (c.setFetched branches).lastPushed = c.lastPushed := by
  induction branches generalizing c with
  | nil => exact ⟨rfl, rfl⟩
  | cons b rest ih =>
    unfold Client.setFetched
    split
    · exact ⟨rfl, rfl⟩
    · exact ih _

/-- Fetched rows are added to those that are there. -/
theorem foldl_storeFetched (patches : List (Patch H)) (c : Client H) :
    Keeps c.patches (patches.foldl Client.storeFetched c).patches ∧
      (∀ id p, (patches.foldl Client.storeFetched c).patches.get id = some p →
        c.patches.get id = some p ∨ (p ∈ patches ∧ p.id = id)) ∧
      (patches.foldl Client.storeFetched c).lastPushed = c.lastPushed := by
  induction patches generalizing c with
  | nil => exact ⟨fun _ _ => id, fun _ _ => .inl, rfl⟩
  | cons patch rest ih =>
    obtain ⟨hkeep, hnew, hlast⟩ := ih (c.storeFetched patch)
    rw [List.foldl_cons]
    unfold Client.storeFetched at hkeep hnew hlast ⊢
    by_cases hold : c.patches.contains patch.id = true
    · rw [if_pos hold] at hkeep hnew hlast ⊢
      exact ⟨hkeep, fun id p hp => (hnew id p hp).imp_right (And.imp_left (List.mem_cons_of_mem _)),
        hlast⟩
    · rw [if_neg hold] at hkeep hnew hlast ⊢
      refine ⟨fun id p hp => hkeep id p ?_, fun id p hp => ?_, hlast⟩
      · rw [SortedMap.get_insert, if_neg, hp]
        rintro rfl
        exact hold (contains_iff.mpr ⟨p, hp⟩)
      · rcases hnew id p hp with hp | hp
        · rw [SortedMap.get_insert] at hp
          split at hp
          · rename_i hid
            cases hp
            exact .inr ⟨List.mem_cons_self .., hid.symm⟩
          · exact .inl hp
        · exact .inr (hp.imp_left (List.mem_cons_of_mem _))

theorem Consistent.applyFetch {w : World κ H} (hw : Consistent parentsOf w) (i : κ)
    {response : PullResponse H} (hresponse : ∀ p ∈ response.patches, w.hub.patches.get p.id = some p) :
    Consistent parentsOf (w.setClient i ((w.clients i).applyFetch response)) := by
  obtain ⟨hkeep, hnew, hlast⟩ := foldl_storeFetched response.patches (w.clients i)
  obtain ⟨hpatches, hlast'⟩ := patches_setFetched response.branches
    (response.patches.foldl Client.storeFetched (w.clients i))
  obtain ⟨rank, hrank⟩ := hw.ranked
  have hfrom : ∀ id, ((w.clients i).applyFetch response).patches.contains id = true →
      (w.clients i).patches.contains id = true ∨ w.hub.patches.contains id = true := fun id hid => by
    obtain ⟨p, hp⟩ := contains_iff.mp hid
    rw [Client.applyFetch, hpatches] at hp
    rcases hnew id p hp with hold | ⟨hmem, rfl⟩
    · exact .inl (contains_iff.mpr ⟨p, hold⟩)
    · exact .inr (contains_iff.mpr ⟨p, hresponse p hmem⟩)
  have hkeep : Keeps (w.clients i).patches ((w.clients i).applyFetch response).patches := by
    rw [Client.applyFetch, hpatches]
    exact hkeep
  refine hw.setClient i hkeep (fun id p hp => ?_) (fun id hid q hq => ?_) (fun id hid => ?_)
    ⟨rank, fun id hid => hrank id ?_⟩
  · rw [Client.applyFetch, hpatches] at hp
    rcases hnew id p hp with hold | ⟨hmem, rfl⟩
    · exact hw.clientRows i id p hold
    · exact hw.hubRows p.id p (hresponse p hmem)
  · rcases hfrom id hid with hclient | hhub
    · exact (hw.clientClosed i id hclient q hq).imp_left hkeep.contains
    · exact .inr hhub
  · rw [Client.applyFetch, hlast', hlast] at hid
    exact hw.pushed i id hid
  · rcases hid with hhub | hclient | hother
    · exact .inl hhub
    · exact (hfrom id hclient).elim (fun h => .inr ⟨i, h⟩) .inl
    · exact .inr hother

/-! ### Answers -/

omit [LinearOrder H] in
/-- A sort that visits patch after patch orders only what is there. -/
theorem mem_foldl_visit {patches : List (Patch H)}
    {visit : List H × List (Patch H) → H → List H × List (Patch H)}
    (hvisit : ∀ state id, ∀ p ∈ (visit state id).2, p ∈ state.2 ∨ p ∈ patches) (ids : List H)
    (state : List H × List (Patch H)) : ∀ p ∈ (ids.foldl visit state).2, p ∈ state.2 ∨ p ∈ patches := by
  induction ids generalizing state with
  | nil => exact fun _ => .inl
  | cons id ids ih =>
    intro p hp
    rcases ih (visit state id) p hp with hp | hp
    · exact hvisit state id p hp
    · exact .inr hp

theorem mem_visitPatch (patches : List (Patch H)) (fuel : Nat) (state : List H × List (Patch H))
    (id : H) : ∀ p ∈ (visitPatch patches fuel state id).2, p ∈ state.2 ∨ p ∈ patches := by
  induction fuel generalizing state id with
  | zero => exact fun _ => .inl
  | succ fuel ih =>
    obtain ⟨visited, order⟩ := state
    intro p hp
    unfold visitPatch at hp
    split at hp
    · exact .inl hp
    split at hp
    · exact .inl hp
    · rename_i patch hpatch
      rcases List.mem_append.mp hp with hp | hp
      · exact mem_foldl_visit ih patch.parentIds (id :: visited, order) p hp
      · rw [List.mem_singleton.mp hp]
        exact .inr (List.mem_of_find?_eq_some hpatch)

/-- The answer to a pull has only patches of the hub. -/
theorem mem_handlePull {order : Dag.IterationOrder (Patch H)} {store : HubStorage H}
    (hrows : Rows parentsOf store.patches) {req : PullRequest H} {p : Patch H}
    (hp : p ∈ (handlePull order.arrange store req).patches) : store.patches.get p.id = some p := by
  have hnew : ∀ p ∈ collectNewPatches order.arrange store.patches
      (collectAncestors store.patches req.knownBranches), store.patches.get p.id = some p := by
    intro p hp
    have hmem := (mem_foldl_visit (mem_visitPatch _ _) _ _ p hp).resolve_left List.not_mem_nil
    rw [(order.perm _).mem_iff, List.mem_map] at hmem
    obtain ⟨⟨id, p'⟩, he, rfl⟩ := hmem
    have hget := SortedMap.mem_entries.mp (List.mem_filter.mp he).1
    rwa [(hrows id p' hget).1]
  refine hnew p ?_
  unfold handlePull at hp
  cases hdepth : req.maxDepth with
  | none =>
    rw [hdepth] at hp
    exact hp
  | some depth =>
    rw [hdepth] at hp
    exact List.mem_of_mem_take hp

/-! ### Runs -/

/-- The client that pushes has the targets that the hub is at among the ancestors of its own. -/
def Informed (w : World κ H) : Event κ parentsOf → Prop
  | .startPush i _ => HeadOnBranch (w.clients i)
  | .deliverPush k => ∀ push ∈ w.pushes[k]?, ∀ b ∈ push.request.branches,
    ∀ current ∈ w.hub.branches.get b.name,
      b.targetId = current ∨ (w.clients push.client).Descends b.targetId current
  | _ => True

theorem Consistent.next {w : World κ H} (hw : Consistent parentsOf w) {e : Event κ parentsOf}
    (he : ∀ i branch, e = .startPush i branch → HeadSent w.hub (w.clients i)) :
    Consistent parentsOf (w.next e) := by
  cases e with
  | edit i e => exact hw.edit i e
  | startPush i branch => exact hw.startPush (he i branch rfl)
  | deliverPush k =>
    unfold World.next
    dsimp only
    split
    · exact hw
    · rename_i push hpush
      exact hw.deliverPush k (List.mem_of_getElem? hpush)
  | dropPush k =>
    exact { hw with pushes := fun push hpush => hw.pushes push (List.mem_of_mem_eraseIdx hpush) }
  | finishPush k =>
    unfold World.next
    dsimp only
    split
    · exact hw
    · rename_i i headId haccepted
      have hmem := List.mem_of_getElem? haccepted
      have hset : Consistent parentsOf (w.setClient i ((w.clients i).recordPush headId)) := by
        cases headId with
        | none => exact hw.setOther i rfl (hw.pushed i)
        | some id =>
          refine hw.setOther i rfl fun j hj => ?_
          cases hj
          exact hw.accepted _ hmem id rfl
      exact { hset with accepted := fun a ha => hw.accepted a (List.mem_of_mem_eraseIdx ha) }
  | startFetch i depth => exact { hw with }
  | answerFetch k order =>
    unfold World.next
    dsimp only
    split
    · exact hw
    · refine { hw with answers := fun a ha p hp => ?_ }
      rcases List.mem_append.mp ha with ha | ha
      · exact hw.answers a ha p hp
      · rw [List.mem_singleton.mp ha] at hp
        exact mem_handlePull hw.hubRows hp
  | finishFetch k =>
    unfold World.next
    dsimp only
    split
    · exact hw
    · rename_i i response hanswer
      have hset := hw.applyFetch i (hw.answers _ (List.mem_of_getElem? hanswer))
      exact { hset with answers := fun a ha => hw.answers a (List.mem_of_mem_eraseIdx ha) }

theorem Consistent.next_of_informed {w : World κ H} (hw : Consistent parentsOf w)
    {e : Event κ parentsOf} (he : Informed w e) : Consistent parentsOf (w.next e) :=
  hw.next fun i branch hstart => hw.headSent (by rw [hstart] at he; exact he)

theorem fastForwards_next {w : World κ H} (hw : Consistent parentsOf w) {e : Event κ parentsOf}
    (he : Informed w e) : FastForwards w.hub (w.next e).hub := by
  cases e with
  | deliverPush k =>
    unfold World.next
    dsimp only
    split
    · exact .refl _
    · rename_i push hpush
      have hmem := List.mem_of_getElem? hpush
      have hcomplete := hw.pushes push hmem
      have hlater := hw.deliverPush k hmem
      have hpatches : (w.hub.handlePush push.request).2.patches =
        (w.hub.insertPatches push.request.patches).2.patches := (pushBranches_spec _ _ _).1
      obtain ⟨-, hkeep, -, hall⟩ := insertPatches_spec push.request.patches w.hub
      refine fastForwards_handlePush fun b hb current hcurrent => ?_
      refine (he push hpush b hb current hcurrent).imp_right fun hdescends => ?_
      rw [← hpatches]
      refine reaches_of_descends hlater.hubRows hlater.hubClosed (hw.clientRows push.client) ?_
        hdescends
      change (w.hub.handlePush push.request).2.patches.contains b.targetId = true
      rw [hpatches]
      rcases hcomplete.branches b hb with ⟨p, hp, hid⟩ | hhub
      · rw [← hid]
        exact hall p hp
      · exact Keeps.contains hkeep hhub
  | edit i e => exact .refl _
  | dropPush k => exact .refl _
  | startFetch i depth => exact .refl _
  | startPush i branch =>
    unfold World.next World.startPush
    dsimp only
    split <;> exact .refl _
  | finishPush k | answerFetch k order | finishFetch k =>
    unfold World.next
    dsimp only
    split <;> exact .refl _

instance (c : Client H) : Decidable (HeadOnBranch c) :=
  inferInstanceAs (Decidable (∀ id ∈ c.detachedHead, ∃ b ∈ c.listBranches, _))

instance (w : World κ H) (e : Event κ parentsOf) : Decidable (Informed w e) :=
  match e with
  | .startPush i _ => inferInstanceAs (Decidable (HeadOnBranch (w.clients i)))
  | .deliverPush k => inferInstanceAs (Decidable (∀ push ∈ w.pushes[k]?, ∀ b ∈ push.request.branches,
    ∀ current ∈ w.hub.branches.get b.name, _))
  | .edit _ _ | .dropPush _ | .finishPush _ | .startFetch _ _ | .answerFetch _ _ | .finishFetch _ =>
    inferInstanceAs (Decidable True)

/-- First patches have no parents, and ids that say so. -/
def Roots (parentsOf : H → List H) (roots : κ → Patch H) : Prop :=
  ∀ i, (roots i).parentIds = [] ∧ parentsOf (roots i).id = []

omit [DecidableEq κ] in
theorem consistent_init {roots : κ → Patch H} (hroots : Roots parentsOf roots)
    (protectedBranches : List String) :
    Consistent parentsOf (World.init roots protectedBranches) := by
  have hget : ∀ i id p, (Client.init (roots i)).patches.get id = some p → id = (roots i).id ∧
      p = roots i := fun i id p hp => by
    unfold Client.init at hp
    rw [SortedMap.get_insert] at hp
    split at hp
    · exact ⟨‹_›, (Option.some.inj hp).symm⟩
    · cases hp
  have hparents : ∀ i id, (Client.init (roots i)).patches.contains id = true →
      parentsOf id = [] := fun i id hid => by
    obtain ⟨p, hp⟩ := contains_iff.mp hid
    rw [(hget i id p hp).1]
    exact (hroots i).2
  refine
    { hubRows := nofun
      hubClosed := nofun
      clientRows := fun i id p hp => ?_
      clientClosed := fun i id hid p hp => ?_
      pushed := nofun
      pushes := nofun
      accepted := nofun
      answers := nofun
      ranked := ⟨fun _ => 0, fun id hid p hp => ?_⟩ }
  · obtain ⟨rfl, rfl⟩ := hget i id p hp
    exact ⟨rfl, (hroots i).1.trans (hroots i).2.symm⟩
  · rw [hparents i id hid] at hp
    exact absurd hp List.not_mem_nil
  · rcases hid with hhub | ⟨i, hi⟩
    · cases hhub
    · rw [hparents i id hi] at hp
      exact absurd hp List.not_mem_nil

/-- As long as clients push what they have fetched before, every target that the hub has had
stays below the branch. -/
theorem pushes_fast_forward {roots : κ → Patch H} (hroots : Roots parentsOf roots)
    {protectedBranches : List String} {w w' : World κ H}
    (hw : Run (@World.next κ H _ _ parentsOf) Informed (.init roots protectedBranches) w)
    (hw' : Run (@World.next κ H _ _ parentsOf) Informed w w') : FastForwards w.hub w'.hub := by
  have hconsistent := hw.invariant (Consistent parentsOf) (fun _ _ h he => h.next_of_informed he)
    (consistent_init hroots protectedBranches)
  have hboth := hw'.invariant (fun v => Consistent parentsOf v ∧ FastForwards w.hub v.hub)
    (fun v e h he => ⟨h.1.next_of_informed he, h.2.trans (fastForwards_next h.1 he)⟩)
    ⟨hconsistent, .refl w.hub⟩
  exact hboth.2

/-- Two patches on the first, and one on the second. -/
def sampleParents : Nat → List Nat
  | 2 | 4 => [1]
  | 3 => [2]
  | _ => []

def samplePatch (id : Nat) : Authored sampleParents where
  patch := ⟨id, sampleParents id, .batch, .empty, none, .text .empty, 0, "ann", "edit"⟩
  hashed := rfl

def sampleWorld (events : List (Event Bool sampleParents)) : World Bool Nat :=
  events.foldl World.next (.init (fun _ => (samplePatch 1).patch) [])

/-- A client commits on `main`. -/
def commits (i : Bool) (id : Nat) : List (Event Bool sampleParents) :=
  [.edit i (.storePatch (samplePatch id)), .edit i (.setBranch .main id)]

def pushes (i : Bool) : List (Event Bool sampleParents) :=
  [.startPush i none, .deliverPush 0, .finishPush 0]

def fetches (i : Bool) : List (Event Bool sampleParents) :=
  [.startFetch i none, .answerFetch 0 ⟨id, fun _ => .refl _⟩, .finishFetch 0]

def firstPush : List (Event Bool sampleParents) := commits true 2 ++ pushes true

theorem run_sample (events : List (Event Bool sampleParents))
    (h : Run.Allows World.next Informed (.init (fun _ => (samplePatch 1).patch) []) events) :
    Run (@World.next Bool Nat _ _ sampleParents) Informed
      (.init (fun _ => (samplePatch 1).patch) []) (sampleWorld events) := Run.of_allows events h

/-- The second client fetches before it commits. -/
theorem pushes_fast_forward_fetched :
    FastForwards (sampleWorld firstPush).hub
      (sampleWorld (firstPush ++ (fetches false ++ commits false 3 ++ pushes false))).hub := by
  have hrest : Run World.next Informed (sampleWorld firstPush)
      ((fetches false ++ commits false 3 ++ pushes false).foldl World.next (sampleWorld firstPush)) :=
    Run.of_allows _ (by decide +kernel)
  rw [sampleWorld, sampleWorld, List.foldl_append]
  exact pushes_fast_forward (fun _ => ⟨rfl, rfl⟩) (run_sample firstPush (by decide +kernel)) hrest

/-- The second client does not, and its push replaces the commit of the first. -/
theorem commit_discarded : ¬ ∀ w w' : World Bool Nat,
    Run (@World.next Bool Nat _ _ sampleParents) (fun _ _ => True)
      (.init (fun _ => (samplePatch 1).patch) []) w →
    Run (@World.next Bool Nat _ _ sampleParents) (fun _ _ => True) w w' →
    FastForwards w.hub w'.hub := by
  intro h
  have hff := h _ _ (Run.of_allows firstPush (Run.allows_true _))
    (Run.of_allows (commits false 4 ++ pushes false) (Run.allows_true _))
  rw [← List.foldl_append] at hff
  obtain ⟨target, htarget, hreach⟩ := hff.branches "main" 2 (by decide +kernel)
  have hnew : (sampleWorld (firstPush ++ (commits false 4 ++ pushes false))).hub.branches.get "main" =
      some 4 := by decide +kernel
  rw [sampleWorld] at hnew
  rw [hnew] at htarget
  cases htarget
  refine hreach.elim (by decide) fun hreach => ?_
  refine absurd ((graph _).mem_closure.mpr hreach) ?_
  decide +kernel

end Suture.Hub
