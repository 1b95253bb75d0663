import Suture.Hub.Push

/-!
# What the hub has of the history

A client sends what its branches reach and the HEAD of its last push does not. So the hub has
all below its branches as long as each HEAD at a push was sent.
-/

namespace Suture.Hub
set_option autoImplicit false
open Foundation Common Patches

variable {κ H : Type} [DecidableEq κ] [LinearOrder H] {parentsOf : H → List H}

/-- HEAD is stored at the first push, below a branch of the client, or on the hub. -/
def HeadReached (hub : HubStorage H) (c : Client H) : Prop :=
  ∀ id ∈ c.head, (c.lastPushed = none ∧ c.patches.contains id = true) ∨
    (∃ b ∈ c.listBranches, id = b.targetId ∨ c.Descends b.targetId id) ∨
    hub.patches.contains id = true

/-- Pushes start from such a HEAD; all else is allowed. -/
def Reached (w : World κ H) : Event κ parentsOf → Prop
  | .startPush i _ => HeadReached w.hub (w.clients i)
  | _ => True

omit [DecidableEq κ] in
theorem Consistent.headSent_of_reached {w : World κ H} (hw : Consistent parentsOf w) {i : κ}
    (hhead : HeadReached w.hub (w.clients i)) : HeadSent w.hub (w.clients i) := by
  intro id hid
  rcases hhead id hid with ⟨hfirst, hstored⟩ | ⟨b, hb, hbelow⟩ | hhub
  · obtain ⟨p, hp⟩ := contains_iff.mp hstored
    refine .inl ⟨p, ?_, (hw.clientRows i id p hp).1⟩
    rw [Client.patchesToPush, hfirst]
    exact List.mem_map_of_mem (SortedMap.mem_entries.mpr hp)
  · exact hw.sent_of_below hb hbelow
  · exact .inr hhub

/-- The targets of the branches are stored. -/
def Targets (hub : HubStorage H) : Prop :=
  ∀ name target, hub.branches.get name = some target → hub.patches.contains target = true

omit [DecidableEq κ] in
theorem targets_handlePush {hub : HubStorage H} {c : Client H} {push : Push κ H}
    (h : Targets hub) (hcomplete : Complete parentsOf hub c push) :
    Targets (hub.handlePush push.request).2 := by
  obtain ⟨hbranches, hkeep, -, hall⟩ := insertPatches_spec push.request.patches hub
  obtain ⟨hpatches, hset⟩ := pushBranches_spec push.request push.request.branches
    (hub.insertPatches push.request.patches).2
  intro name target htarget
  change (HubStorage.pushBranches _ _ _).2.branches.get name = some target at htarget
  change (HubStorage.pushBranches _ _ _).2.patches.contains target = true
  rw [hpatches]
  rcases hset name with hsame | ⟨b, hb, -, hnew⟩
  · rw [hsame, hbranches] at htarget
    exact Keeps.contains hkeep (h name target htarget)
  · cases htarget.symm.trans hnew
    rcases hcomplete.branches b hb with ⟨p, hp, hid⟩ | hhub
    · rw [← hid]
      exact hall p hp
    · exact Keeps.contains hkeep hhub

theorem targets_next {w : World κ H} (hw : Consistent parentsOf w) (h : Targets w.hub)
    (e : Event κ parentsOf) : Targets (w.next e).hub := by
  cases e with
  | deliverPush k =>
    unfold World.next
    dsimp only
    split
    · exact h
    · rename_i push hpush
      exact targets_handlePush h (hw.pushes push (List.mem_of_getElem? hpush))
  | edit | dropPush | startFetch => exact h
  | startPush i branch =>
    unfold World.next World.startPush
    dsimp only
    split <;> exact h
  | finishPush | answerFetch | finishFetch =>
    unfold World.next
    dsimp only
    split <;> exact h

omit [DecidableEq κ] in
theorem Consistent.contains_of_reaches {w : World κ H} (hw : Consistent parentsOf w) {id id' : H}
    (hid : w.hub.patches.contains id = true) (hreach : Reaches w.hub.patches id id') :
    w.hub.patches.contains id' = true := by
  have hstep : ∀ x y, w.hub.patches.contains x = true → y ∈ parentIdsOf w.hub.patches x →
      w.hub.patches.contains y = true := fun x y hx hy => by
    rw [hw.hubRows.parents hx] at hy
    exact hw.hubClosed x hx y hy
  induction hreach with
  | single h => exact hstep _ _ hid h
  | tail _ h ih => exact hstep _ _ ih h

/-- The hub has what its branches point to, and all the ancestors. -/
def HistoryStored (hub : HubStorage H) : Prop :=
  ∀ name target, hub.branches.get name = some target → hub.patches.contains target = true ∧
    ∀ id, Reaches hub.patches target id → hub.patches.contains id = true

/-- In every run whose pushes start from a HEAD that is sent or was sent, the hub has the whole
history of its branches. -/
theorem history_stored {roots : κ → Patch H} (hroots : Roots parentsOf roots)
    {protectedBranches : List String} {w : World κ H}
    (hw : Run (@World.next κ H _ _ parentsOf) Reached (.init roots protectedBranches) w) :
    HistoryStored w.hub := by
  obtain ⟨hconsistent, htargets⟩ := hw.invariant
    (fun w => Consistent parentsOf w ∧ Targets w.hub)
    (fun v e h he => ⟨h.1.next fun i branch hstart =>
      h.1.headSent_of_reached (by rw [hstart] at he; exact he), targets_next h.1 h.2 e⟩)
    ⟨consistent_init hroots protectedBranches, nofun⟩
  intro name target htarget
  have hstored := htargets name target htarget
  exact ⟨hstored, fun id hreach => hconsistent.contains_of_reaches hstored hreach⟩

instance (hub : HubStorage H) (c : Client H) : Decidable (HeadReached hub c) :=
  inferInstanceAs (Decidable (∀ id ∈ c.head, _))

instance (w : World κ H) (e : Event κ parentsOf) : Decidable (Reached w e) :=
  match e with
  | .startPush i _ => inferInstanceAs (Decidable (HeadReached w.hub (w.clients i)))
  | .edit _ _ | .deliverPush _ | .dropPush _ | .finishPush _ | .startFetch _ _ | .answerFetch _ _
  | .finishFetch _ => inferInstanceAs (Decidable True)

/-- Two commits on `main`, with a push after each. -/
theorem history_stored_twice :
    HistoryStored (sampleWorld (firstPush ++ (commits true 3 ++ pushes true))).hub :=
  history_stored (fun _ => ⟨rfl, rfl⟩) (Run.of_allows _ (by decide +kernel))

def devBranch : BranchName := ⟨"dev", by decide, by decide⟩

/-- A commit on a branch of its own, which is deleted with HEAD left at the commit. -/
def detachedCommit : List (Event Bool sampleParents) :=
  [.edit true (.storePatch (samplePatch 3)), .edit true (.setBranch devBranch 3),
    .edit true (.setHead none (some 3)), .edit true (.deleteBranch devBranch)]

theorem collectUnknown_of_known {patches : SortedMap H (Patch H)} {known : SortedSet H}
    {parentMap : List (H × List H)} {stack : List H} (h : ∀ id ∈ stack, id ∈ known) :
    Client.collectUnknown patches known parentMap stack = parentMap := by
  induction stack with
  | nil => rw [Client.collectUnknown]
  | cons id stack ih =>
    rw [Client.collectUnknown, if_pos (h id (List.mem_cons_self ..))]
    exact ih fun j hj => h j (List.mem_cons_of_mem _ hj)

/-- Nothing is sent if every branch is at or below what was pushed. -/
theorem patchesSince_eq_nil {c : Client H} {since : H} (h : ∀ b ∈ c.listBranches,
    b.targetId ∈ ((ancestry c.patches).closure since).insert since) : c.patchesSince since = [] := by
  unfold Client.patchesSince
  dsimp only
  rw [collectUnknown_of_known fun id hid => ?_]
  · change (Toposort.drain _ _ _ _ [] [] []).1.filterMap c.patches.get = []
    rw [Toposort.drain]
    rfl
  · obtain ⟨b, hb, rfl⟩ := List.mem_map.mp (List.mem_reverse.mp hid)
    exact h b hb

/-- A push of all branches that sends no patches. -/
def emptyPush (w : World Bool Nat) : World Bool Nat :=
  [.deliverPush 0, .finishPush 0].foldl (@World.next Bool Nat _ _ sampleParents)
    { w with
      pushes := w.pushes ++
        [{ client := true
           request :=
             { patches := [], branches := (w.clients true).listBranches
               knownBranches := some (w.clients true).listBranches, force := false }
           headId := (w.clients true).head }] }

theorem foldl_pushes {w : World Bool Nat} {last : Nat} (hlast : (w.clients true).lastPushed = some last)
    (hbranches : (w.clients true).listBranches ≠ [])
    (h : ∀ b ∈ (w.clients true).listBranches,
      b.targetId ∈ ((ancestry (w.clients true).patches).closure last).insert last) :
    (pushes true).foldl World.next w = emptyPush w := by
  have hrequest : (w.clients true).pushRequest none = some
      { patches := [], branches := (w.clients true).listBranches
        knownBranches := some (w.clients true).listBranches, force := false } := by
    unfold Client.pushRequest Client.patchesToPush
    dsimp only
    rw [if_neg hbranches, hlast, ← patchesSince_eq_nil h]
  have hstart : w.startPush true none =
      { w with
        pushes := w.pushes ++
          [{ client := true
             request :=
               { patches := [], branches := (w.clients true).listBranches
                 knownBranches := some (w.clients true).listBranches, force := false }
             headId := (w.clients true).head }] } := by
    unfold World.startPush
    rw [hrequest]
  exact congrArg ([.deliverPush 0, .finishPush 0].foldl World.next) hstart

/-- A run of any events. -/
abbrev SampleRun : World Bool Nat → World Bool Nat → Prop :=
  Run (@World.next Bool Nat _ _ sampleParents) fun _ _ => True

/-- A push records the detached HEAD as pushed; when the branch is there again, its commit is
not sent. -/
theorem branch_without_commit : ¬ ∀ w : World Bool Nat,
    SampleRun (.init (fun _ => (samplePatch 1).patch) []) w → HistoryStored w.hub := by
  intro h
  obtain ⟨w, hw⟩ : ∃ w, w = sampleWorld (firstPush ++ detachedCommit) := ⟨_, rfl⟩
  have hpushed : (pushes true).foldl World.next w = emptyPush w :=
    foldl_pushes (show _ = some 2 by rw [hw]; decide +kernel) (by rw [hw]; decide +kernel)
      (by rw [hw]; decide +kernel)
  obtain ⟨v, hv⟩ : ∃ v, v = (emptyPush w).next
    (.edit true (.setBranch devBranch 3) : Event Bool sampleParents) := ⟨_, rfl⟩
  have hpushed' : (pushes true).foldl World.next v = emptyPush v :=
    foldl_pushes (show _ = some 3 by rw [hv, hw]; decide +kernel)
      (by rw [hv, hw]; decide +kernel) (by rw [hv, hw]; decide +kernel)
  have hrun : SampleRun (.init (fun _ => (samplePatch 1).patch) []) (emptyPush v) := by
    have hfirst : SampleRun (.init (fun _ => (samplePatch 1).patch) []) w := by
      rw [hw]
      exact Run.of_allows _ (Run.allows_true _)
    have hsecond : SampleRun w (emptyPush w) := by
      rw [← hpushed]
      exact Run.of_allows _ (Run.allows_true _)
    have hdev : SampleRun (emptyPush w) v := hv ▸ (Run.refl _).tail trivial
    have hthird : SampleRun v (emptyPush v) := by
      rw [← hpushed']
      exact Run.of_allows _ (Run.allows_true _)
    exact ((hfirst.trans hsecond).trans hdev).trans hthird
  refine absurd (h _ hrun "dev" 3 ?_).1 ?_
  · rw [hv, hw]
    decide +kernel
  · rw [hv, hw]
    decide +kernel

end Suture.Hub
