import Suture.Wire.Rejected

/-!
# The three endpoints

The first two handlers of pushes differ in the index of the blobs. The batch handler knows
no branches of the client, and lets a forced push through to a protected branch.
-/

namespace Suture.Wire
set_option autoImplicit false
open Foundation

/-! ### Stores that differ in the index -/

def Rows.noIndex (r : Rows) : Rows := { r with index := [] }

theorem Rows.noIndex_append (r r' : Rows) : (r ++ r').noIndex = r.noIndex ++ r'.noIndex := rfl

namespace Server

def forgetIndex (s : Server) : Server :=
  s.setStorage fun store => { store with blobMetadata := .empty, blobTrigrams := .empty }

theorem forgetIndex_writeRows (s : Server) (r : Rows) :
    (s.writeRows r).forgetIndex = (s.forgetIndex.writeRows r.noIndex).forgetIndex := rfl

/-- The index rows are there as the last of each hash says. -/
structure IndexStored (s : Server) (index : List IndexRow) : Prop where
  metadata : ∀ hash row, lastRow ({ Rows.empty with index := index }).metadata hash = some row →
    s.storage.blobMetadata.get hash = some row
  trigrams : ∀ row ∈ ({ Rows.empty with index := index }).trigrams,
    s.storage.blobTrigrams.contains row.1 = true

theorem writeRows_noIndex_iff {s : Server} {r : Rows} :
    s.writeRows r.noIndex = s.writeRows r ↔ s.IndexStored r.index := by
  constructor
  · intro h
    have hstorage := congrArg Server.storage h
    exact
      { metadata := SortedMap.putRows_eq_self_iff.mp
          (congrArg HubStorage.blobMetadata hstorage).symm
        trigrams := SortedMap.addRows_eq_self_iff.mp
          (congrArg HubStorage.blobTrigrams hstorage).symm }
  · intro h
    have hmetadata : s.storage.blobMetadata.putRows r.metadata = s.storage.blobMetadata :=
      SortedMap.putRows_eq_self_iff.mpr h.metadata
    have htrigrams : s.storage.blobTrigrams.addRows r.trigrams = s.storage.blobTrigrams :=
      SortedMap.addRows_eq_self_iff.mpr h.trigrams
    unfold writeRows
    rw [hmetadata, htrigrams]
    rfl

end Server

theorem collect_noIndex {α : Type} {row row' : Nat → α → Server → Rows}
    (h : ∀ k a s t, (row k a s).noIndex = row' k a t) (k : Nat) (as : List α) (s t : Server) :
    (collect row k as s).noIndex = collect row' k as t := by
  induction as generalizing k s t with
  | nil => rfl
  | cons a as ih => rw [collect, collect, Rows.noIndex_append, h k a s t, ih]

/-! ### Pushes of the same content -/

section Content
variable (env : Env) (req : PushRequest) (s : Server)

/-- The index rows of the blobs that are stored. -/
def blobIndex : Nat → List BlobRef → List IndexRow
  | _, [] => []
  | k, blob :: rest =>
    (match env.base64Decode blob.data with
      | .error _ => []
      | .ok data => indexRowsOf env req.toV2 k blob data) ++ blobIndex (k + 1) rest

/-- How many blobs the two handlers store. -/
inductive BlobsStored : Nat → Prop where
  | upTo {n : Nat} {e : Refusal} (hauth : (authenticateAt env .push req.toV2 s).1 = .ok ())
    (hrepo : env.fault .ensureRepo = none)
    (hblob : Program.firstFailure (blobCheck env) (writeRow (blobRow env .push req.toV2)) 0 req.blobs
      (s.writeRows (repoRow req.toV2)) = some (n, e)) : BlobsStored n
  | all (hauth : (authenticateAt env .push req.toV2 s).1 = .ok ())
    (hrepo : env.fault .ensureRepo = none)
    (hblob : Program.firstFailure (blobCheck env) (writeRow (blobRow env .push req.toV2)) 0 req.blobs
      (s.writeRows (repoRow req.toV2)) = none) : BlobsStored req.blobs.length

variable {env req s}

theorem throughDeltas_nil (n : Nat) : throughDeltas env req.toV2 s n = repoRow req.toV2 := by
  unfold throughDeltas
  rw [show req.toV2.deltas = [] from rfl, List.take_nil]
  rfl

theorem collect_blobRow_index (k : Nat) (blobs : List BlobRef) (t : Server) :
    (collect (blobRow env .push req.toV2) k blobs t).index = blobIndex env req k blobs := by
  induction blobs generalizing k t with
  | nil => rfl
  | cons blob blobs ih =>
    change (blobRow env .push req.toV2 k blob t).index ++ (collect _ (k + 1) blobs _).index = _
    rw [ih, blobIndex]
    unfold blobRow
    cases env.base64Decode blob.data with
    | error e => rfl
    | ok data => rfl

theorem throughBlobs_index (n : Nat) :
    (throughBlobs env .push req.toV2 s n).index = blobIndex env req 0 (req.blobs.take n) := by
  unfold throughBlobs
  rw [throughDeltas_nil]
  change [] ++ (collect (blobRow env .push req.toV2) 0 (req.blobs.take n) _).index = _
  rw [collect_blobRow_index, List.nil_append]

theorem logRow_index (call : Call) (entry : ReplicationEntry) : (logRow env call entry).index = [] := by
  unfold logRow
  split <;> rfl

theorem patchLogRow_index (k : Nat) (patch : PatchProto) (t : Server) :
    (patchLogRow env k patch t).index = [] := logRow_index _ _

theorem branchLogRow_index (k : Nat) (branch : BranchProto) (t : Server) :
    (branchLogRow env req.toV2 k branch t).index = [] := logRow_index _ _

theorem branchRow_index (k : Nat) (branch : BranchProto) (t : Server) :
    (branchRow req.toV2 k branch t).index = [] := rfl

theorem throughLog_index :
    (throughLog env .push req.toV2 s).index = blobIndex env req 0 req.blobs := by
  change ((throughBlobs env .push req.toV2 s req.blobs.length).index ++ []) ++
    (collect (patchLogRow env) 0 req.patches _).index = _
  rw [collect_part Rows.index (fun _ _ => rfl) rfl patchLogRow_index, List.append_nil, List.append_nil, throughBlobs_index,
    List.take_length]

theorem throughBranches_index (n : Nat) :
    (throughBranches env .push req.toV2 s n).index = blobIndex env req 0 req.blobs := by
  change (throughLog env .push req.toV2 s).index ++ (collect (branchRow req.toV2) 0 _ _).index = _
  rw [collect_part Rows.index (fun _ _ => rfl) rfl (branchRow_index), List.append_nil, throughLog_index]

theorem throughEnd_index :
    (throughEnd env .push req.toV2 s).index = blobIndex env req 0 req.blobs := by
  change (throughBranches env .push req.toV2 s req.branches.length).index ++
    (collect (branchLogRow env req.toV2) 0 req.branches _).index = _
  rw [collect_part Rows.index (fun _ _ => rfl) rfl branchLogRow_index, List.append_nil, throughBranches_index]

/-! The rows of the two handlers are the same but for the index. -/

theorem blobRow_noIndex (k : Nat) (blob : BlobRef) (t t' : Server) :
    (blobRow env .push req.toV2 k blob t).noIndex = blobRow env .pushV2 req.toV2 k blob t' := by
  unfold blobRow
  cases env.base64Decode blob.data with
  | error e => rfl
  | ok data => rfl

theorem logRow_noIndex (call : Call) (entry : ReplicationEntry) :
    (logRow env call entry).noIndex = logRow env call entry := by
  unfold logRow
  split <;> rfl

theorem throughBlobs_noIndex (n : Nat) :
    (throughBlobs env .push req.toV2 s n).noIndex = throughBlobs env .pushV2 req.toV2 s n := by
  unfold throughBlobs
  rw [throughDeltas_nil, Rows.noIndex_append, collect_noIndex blobRow_noIndex]
  rfl

theorem patchLogRow_noIndex (k : Nat) (patch : PatchProto) (t t' : Server) :
    (patchLogRow env k patch t).noIndex = patchLogRow env k patch t' := logRow_noIndex _ _

theorem branchLogRow_noIndex (k : Nat) (branch : BranchProto) (t t' : Server) :
    (branchLogRow env req.toV2 k branch t).noIndex = branchLogRow env req.toV2 k branch t' :=
  logRow_noIndex _ _

theorem branchRow_noIndex (k : Nat) (branch : BranchProto) (t t' : Server) :
    (branchRow req.toV2 k branch t).noIndex = branchRow req.toV2 k branch t' := rfl

theorem throughLog_noIndex :
    (throughLog env .push req.toV2 s).noIndex = throughLog env .pushV2 req.toV2 s := by
  unfold throughLog
  rw [Rows.noIndex_append, Rows.noIndex_append, throughBlobs_noIndex,
    collect_noIndex patchLogRow_noIndex]
  rfl

theorem throughBranches_noIndex (n : Nat) :
    (throughBranches env .push req.toV2 s n).noIndex = throughBranches env .pushV2 req.toV2 s n := by
  unfold throughBranches
  rw [Rows.noIndex_append, throughLog_noIndex, collect_noIndex branchRow_noIndex]

theorem rowsUpTo_noIndex (stop : Stop) :
    (rowsUpTo env .push req.toV2 s stop).noIndex = rowsUpTo env .pushV2 req.toV2 s stop := by
  cases stop with
  | refused => rfl
  | delta n =>
    change (throughDeltas env req.toV2 s n).noIndex = throughDeltas env req.toV2 s n
    rw [throughDeltas_nil]
    rfl
  | blob n => exact throughBlobs_noIndex n
  | patches => exact throughBlobs_noIndex _
  | branch n => exact throughBranches_noIndex n
  | done =>
    change (throughEnd env .push req.toV2 s).noIndex = throughEnd env .pushV2 req.toV2 s
    unfold throughEnd
    rw [Rows.noIndex_append, throughBranches_noIndex, collect_noIndex branchLogRow_noIndex]

/-! The two handlers make the same checks. -/

theorem forgetIndex_of_noIndex {t t' : Server} {r r' : Rows} (h : t.forgetIndex = t'.forgetIndex)
    (hrows : r.noIndex = r'.noIndex) : (t.writeRows r).forgetIndex = (t'.writeRows r').forgetIndex := by
  rw [Server.forgetIndex_writeRows, Server.forgetIndex_writeRows t', h, hrows]

theorem blobFailure_eq {t t' : Server} (h : t.forgetIndex = t'.forgetIndex) :
    Program.firstFailure (blobCheck env) (writeRow (blobRow env .push req.toV2)) 0 req.blobs t =
      Program.firstFailure (blobCheck env) (writeRow (blobRow env .pushV2 req.toV2)) 0 req.blobs t' := by
  refine Program.firstFailure_congr (R := fun t t' => Server.forgetIndex t = t'.forgetIndex)
    (fun k blob t t' h => ?_) (fun k blob t t' h => ?_) 0 req.blobs h
  · change blobCheck env k blob t.forgetIndex = blobCheck env k blob t'.forgetIndex
    rw [h]
  · refine forgetIndex_of_noIndex h ?_
    rw [blobRow_noIndex k blob t t']
    unfold blobRow
    cases env.base64Decode blob.data with
    | error e => rfl
    | ok data => rfl

theorem branchFailure_eq {t t' : Server} (h : t.forgetIndex = t'.forgetIndex) :
    Program.firstFailure (branchRefusal env .push req.toV2) (writeRow (branchRow req.toV2)) 0
        req.branches t =
      Program.firstFailure (branchRefusal env .pushV2 req.toV2) (writeRow (branchRow req.toV2)) 0
        req.branches t' := by
  refine Program.firstFailure_congr (R := fun t t' => Server.forgetIndex t = t'.forgetIndex)
    (fun k branch t t' h => ?_) (fun k branch t t' h => forgetIndex_of_noIndex h rfl) 0 req.branches h
  change branchRefusal env .push req.toV2 k branch t.forgetIndex =
    branchRefusal env .push req.toV2 k branch t'.forgetIndex
  rw [h]

theorem forgetIndex_of_rows {r r' : Rows} (h : r.noIndex = r') :
    (s.writeRows r).forgetIndex = (s.writeRows r').forgetIndex := by
  refine forgetIndex_of_noIndex rfl ?_
  rw [← h]
  rfl

theorem existing_congr {store store' : HubStorage} (h : store.patches = store'.patches)
    (repoId : String) (patches : List PatchProto) :
    (store.insertPatches repoId patches).1 = (store'.insertPatches repoId patches).1 := by
  induction patches generalizing store store' with
  | nil => rfl
  | cons patch rest ih =>
    rw [HubStorage.insertPatches, HubStorage.insertPatches, h]
    split
    · exact congrArg (patch.id :: ·) (ih h)
    · refine ih ?_
      rfl

theorem outcome_pushV2 : outcome env .pushV2 req.toV2 s = outcome env .push req.toV2 s := by
  have hblobs : Program.firstFailure (blobCheck env) (writeRow (blobRow env .push req.toV2)) 0
        req.toV2.blobs (s.writeRows (throughDeltas env req.toV2 s req.toV2.deltas.length)) =
      Program.firstFailure (blobCheck env) (writeRow (blobRow env .pushV2 req.toV2)) 0
        req.toV2.blobs (s.writeRows (throughDeltas env req.toV2 s req.toV2.deltas.length)) :=
    blobFailure_eq rfl
  have hbranches : Program.firstFailure (branchRefusal env .push req.toV2)
        (writeRow (branchRow req.toV2)) 0 req.toV2.branches
        (s.writeRows (throughLog env .push req.toV2 s)) =
      Program.firstFailure (branchRefusal env .pushV2 req.toV2)
        (writeRow (branchRow req.toV2)) 0 req.toV2.branches
        (s.writeRows (throughLog env .pushV2 req.toV2 s)) :=
    branchFailure_eq (forgetIndex_of_rows throughLog_noIndex)
  have hexisting : (HubStorage.insertPatches
        (s.writeRows (throughBlobs env .push req.toV2 s req.toV2.blobs.length)).storage
        req.toV2.repoId req.toV2.patches).1 =
      (HubStorage.insertPatches
        (s.writeRows (throughBlobs env .pushV2 req.toV2 s req.toV2.blobs.length)).storage
        req.toV2.repoId req.toV2.patches).1 :=
    existing_congr (by rw [← throughBlobs_noIndex]; rfl) _ _
  unfold outcome
  rw [hblobs, hbranches, hexisting]
  rfl

/-- The two handlers answer alike; the first also writes the index. -/
theorem handlePushV2_eq : handlePushV2 env req.toV2 s =
    ((outcome env .push req.toV2 s).2,
      s.writeRows (rowsUpTo env .push req.toV2 s (outcome env .push req.toV2 s).1).noIndex) := by
  unfold handlePushV2
  rw [handle_run, outcome_pushV2, rowsUpTo_noIndex]

theorem BlobsStored.unique {n m : Nat} (hn : BlobsStored env req s n) (hm : BlobsStored env req s m) :
    n = m := by
  cases hn with
  | upTo _ _ hn =>
    cases hm with
    | upTo _ _ hm => exact congrArg Prod.fst (Option.some.inj (hn.symm.trans hm))
    | all _ _ hm => cases hn.symm.trans hm
  | all _ _ hn =>
    cases hm with
    | upTo _ _ hm => cases hn.symm.trans hm
    | all => rfl

/-- The index rows of a push are those of the blobs that are stored. -/
theorem outcome_index : (∃ n, BlobsStored env req s n ∧
      (rowsUpTo env .push req.toV2 s (outcome env .push req.toV2 s).1).index =
        blobIndex env req 0 (req.blobs.take n)) ∨
    ((∀ n, ¬ BlobsStored env req s n) ∧ (outcome env .push req.toV2 s).1 = .refused) := by
  unfold outcome
  cases hauth : (authenticateAt env .push req.toV2 s).1 with
  | error e =>
    refine .inr ⟨fun n h => ?_, rfl⟩
    cases h with
    | upTo hok => cases hauth.symm.trans hok
    | all hok => cases hauth.symm.trans hok
  | ok _ =>
    unfold faultOf
    cases hrepo : env.fault .ensureRepo with
    | some e =>
      refine .inr ⟨fun n h => ?_, rfl⟩
      cases h with
      | upTo _ hok => cases hrepo.symm.trans hok
      | all _ hok => cases hrepo.symm.trans hok
    | none =>
      refine .inl ?_
      have hdelta : Program.firstFailure (deltaRefusal env req.toV2.repoId)
          (writeRow (deltaRow env req.toV2.repoId)) 0 req.toV2.deltas
          (s.writeRows (repoRow req.toV2)) = none := rfl
      simp only [Option.map_none, hdelta, throughDeltas_nil]
      have hlength : req.blobs.take req.blobs.length = req.blobs := List.take_length
      cases hblob : Program.firstFailure (blobCheck env) (writeRow (blobRow env .push req.toV2)) 0
          req.toV2.blobs (s.writeRows (repoRow req.toV2)) with
      | some p => exact ⟨p.1, .upTo hauth hrepo hblob, throughBlobs_index p.1⟩
      | none =>
        refine ⟨_, .all hauth hrepo hblob, ?_⟩
        rw [hlength]
        dsimp only
        split
        · refine (throughBlobs_index req.blobs.length).trans ?_
          rw [hlength]
        · split
          · exact throughBranches_index _
          · exact throughEnd_index

theorem handlePushV2_eq_iff : handlePushV2 env req.toV2 s = handlePush env req s ↔
    ∀ n, BlobsStored env req s n → s.IndexStored (blobIndex env req 0 (req.blobs.take n)) := by
  unfold handlePush
  rw [handlePushV2_eq, handle_run, Prod.ext_iff, and_iff_right rfl, Server.writeRows_noIndex_iff]
  rcases @outcome_index env req s with ⟨n, hn, hindex⟩ | ⟨hnone, hstop⟩
  · rw [hindex]
    exact ⟨fun h m hm => hm.unique hn ▸ h, fun h => h n hn⟩
  · rw [hstop]
    refine ⟨fun _ n hn => absurd hn (hnone n), fun _ => ⟨?_, ?_⟩⟩
    · rintro hash row ⟨⟩
    · rintro row ⟨⟩

/-! ### Batches -/

end Content

def PushRequest.toBatch (req : PushRequest) : BatchPatchRequest :=
  ⟨req.repoId, req.patches, req.branches, req.blobs, req.signature, req.force⟩

section Batch
variable (env : Env) (req : PushRequest) (s : Server)

/-- The store in which the batch handler comes to the `n`-th branch. -/
def batchStore (n : Nat) : HubStorage :=
  (s.writeRows (throughBranches env .batchPush req.toBatch.toV2 s n)).storage

/-- By the rules for branches, `handle_push` refuses to move the branch. -/
def RefusesToMove (n : Nat) (branch : BranchProto) (store : HubStorage) : Prop :=
  isNonFastForward env req.toV2 n branch store = true ∨
    (isProtected env req.toV2 n branch store = true ∧ isOwner req.toV2 branch = false)

structure OnePolicy : Prop where
  same : handlePushV2 env req.toV2 s = handlePush env req s
  batch : ∀ n branch, req.branches[n]? = some branch →
    n < setCount req.toBatch.toV2 (outcome env .batchPush req.toBatch.toV2 s).1 →
    ¬ RefusesToMove env req n branch (batchStore env req s n)

/-- The batch handler sets the `n`-th branch. -/
structure BatchReaches (n : Nat) : Prop where
  repo : env.fault .ensureRepo = none
  blobs : Program.firstFailure (blobCheck env) (writeRow (blobRow env .batchPush req.toBatch.toV2)) 0
    req.blobs (s.writeRows (repoRow req.toV2)) = none
  patches : req.patches = [] ∨ env.fault .insertPatches = none
  branches : ∀ m e, Program.firstFailure (branchRefusal env .batchPush req.toBatch.toV2)
    (writeRow (branchRow req.toV2)) 0 req.branches
    (s.writeRows (throughLog env .batchPush req.toBatch.toV2 s)) = some (m, e) → n < m

variable {env req s}

theorem batchReaches_iff {n : Nat} {branch : BranchProto} (hn : req.branches[n]? = some branch) :
    n < setCount req.toBatch.toV2 (outcome env .batchPush req.toBatch.toV2 s).1 ↔
      BatchReaches env req s n := by
  have hlt : n < req.branches.length := (List.getElem?_eq_some_iff.mp hn).1
  have hauth : (authenticateAt env .batchPush req.toBatch.toV2 s).1 = .ok () := rfl
  have hdelta : Program.firstFailure (deltaRefusal env req.toBatch.toV2.repoId)
      (writeRow (deltaRow env req.toBatch.toV2.repoId)) 0 req.toBatch.toV2.deltas
      (s.writeRows (repoRow req.toBatch.toV2)) = none := rfl
  unfold outcome faultOf
  rw [hauth]
  cases hrepo : env.fault .ensureRepo with
  | some e =>
    refine iff_of_false (Nat.not_lt_zero n) fun h => ?_
    cases hrepo.symm.trans h.repo
  | none =>
    simp only [Option.map_none, hdelta]
    cases hblob : Program.firstFailure (blobCheck env)
        (writeRow (blobRow env .batchPush req.toBatch.toV2)) 0 req.toBatch.toV2.blobs
        (s.writeRows (throughDeltas env req.toBatch.toV2 s req.toBatch.toV2.deltas.length)) with
    | some p =>
      refine iff_of_false (Nat.not_lt_zero n) fun h => ?_
      cases hblob.symm.trans h.blobs
    | none =>
      have hpatch : (if req.toBatch.toV2.patches = [] then none
          else (env.fault .insertPatches).map Refusal.storage) = none ↔
          (req.patches = [] ∨ env.fault .insertPatches = none) := by
        change (if req.patches = [] then none else _) = none ↔ _
        split
        · rename_i hnil
          exact iff_of_true rfl (.inl hnil)
        · rename_i hsome
          rw [Option.map_eq_none_iff, or_iff_right hsome]
      cases hfault : (if req.toBatch.toV2.patches = [] then none
          else (env.fault .insertPatches).map Refusal.storage) with
      | some e =>
        refine iff_of_false (Nat.not_lt_zero n) fun h => ?_
        rw [hfault] at hpatch
        cases hpatch.mpr h.patches
      | none =>
        cases hbranch : Program.firstFailure (branchRefusal env .batchPush req.toBatch.toV2)
            (writeRow (branchRow req.toBatch.toV2)) 0 req.toBatch.toV2.branches
            (s.writeRows (throughLog env .batchPush req.toBatch.toV2 s)) with
        | some p =>
          constructor
          · intro h
            refine ⟨hrepo, hblob, hpatch.mp hfault, fun m e hfail => ?_⟩
            rw [show p = (m, e) from Option.some.inj (hbranch.symm.trans hfail)] at h
            exact h
          · exact fun h => h.branches p.1 p.2 hbranch
        | none =>
          refine iff_of_true hlt ⟨hrepo, hblob, hpatch.mp hfault, fun m e hfail => ?_⟩
          cases hbranch.symm.trans hfail

/-- At a branch that is set, the batch handler's own rules hold. -/
theorem BatchReaches.passes {n : Nat} {branch : BranchProto} (h : BatchReaches env req s n)
    (hn : req.branches[n]? = some branch) :
    ¬ (isProtected env req.toV2 n branch (batchStore env req s n) = true ∧
      isOwner req.toV2 branch = false ∧ req.force = false) := by
  have hcheck := Program.check_eq_none hn h.branches
  have hstore : Program.writeAll (writeRow (branchRow req.toV2)) 0 (req.branches.take n)
      (s.writeRows (throughLog env .batchPush req.toBatch.toV2 s)) =
      s.writeRows (throughBranches env .batchPush req.toBatch.toV2 s n) := by
    rw [writeAll_writeRow, ← Server.writeRows_append]
    rfl
  rw [hstore, Nat.zero_add] at hcheck
  rintro ⟨hprotected, howner, hforce⟩
  unfold branchRefusal at hcheck
  split at hcheck
  · cases hcheck
  · split at hcheck
    · cases hcheck
    · rename_i hnot
      refine hnot ⟨hprotected, howner, ?_⟩
      rintro ⟨-, hforced⟩
      cases hforce.symm.trans hforced

/-- The endpoints agree exactly when the index rows of the stored blobs are there already, and
no branch that the batch handler sets is moved backwards against what the client knows, or by
force although it is protected. -/
theorem onePolicy_iff (env : Env) (req : PushRequest) (s : Server) : OnePolicy env req s ↔
    (∀ n, BlobsStored env req s n → s.IndexStored (blobIndex env req 0 (req.blobs.take n))) ∧
      ∀ n branch, req.branches[n]? = some branch → BatchReaches env req s n →
        isNonFastForward env req.toV2 n branch (batchStore env req s n) = false ∧
        ¬ (req.force = true ∧ isProtected env req.toV2 n branch (batchStore env req s n) = true ∧
          isOwner req.toV2 branch = false) := by
  constructor
  · intro h
    refine ⟨handlePushV2_eq_iff.mp h.same, fun n branch hn hreach => ?_⟩
    have hmoves := h.batch n branch hn ((batchReaches_iff hn).mpr hreach)
    constructor
    · rw [← Bool.not_eq_true]
      exact fun hback => hmoves (.inl hback)
    · rintro ⟨-, hprotected⟩
      exact hmoves (.inr hprotected)
  · rintro ⟨hindex, hbranches⟩
    refine ⟨handlePushV2_eq_iff.mpr hindex, fun n branch hn hset => ?_⟩
    have hreach := (batchReaches_iff hn).mp hset
    obtain ⟨hforward, hforce⟩ := hbranches n branch hn hreach
    rintro (hback | ⟨hprotected, howner⟩)
    · cases hforward.symm.trans hback
    · cases hreq : req.force with
      | true => exact hforce ⟨hreq, hprotected, howner⟩
      | false => exact hreach.passes hn ⟨hprotected, howner, hreq⟩

def forcedPush : PushRequest where
  repoId := "r"
  patches := [⟨⟨"a"⟩, "create", [], none, "", [], "ann", "", 0⟩]
  branches := [⟨"main", ⟨"a"⟩⟩]
  blobs := [⟨⟨"h"⟩, "text", false⟩]
  signature := none
  knownBranches := none
  force := true

/-- Forced onto a protected branch: the first handler refuses and has indexed the blob, the
second refuses without, and the batch handler moves the branch. -/
theorem endpoints_disagree :
    ¬ OnePolicy plainEnv forcedPush guardedHub ∧
      (handlePush plainEnv forcedPush guardedHub).1 = .error (.protectedBranch "main") ∧
      (handleBatchPush plainEnv forcedPush.toBatch guardedHub).2.storage.branches.get
        (key "r" "main") = some "a" := by
  refine ⟨fun h => ?_, by decide +kernel, by decide +kernel⟩
  have hrow := congrArg (fun r => r.2.storage.blobMetadata.contains "h") h.same
  have hfirst : (handlePush plainEnv forcedPush guardedHub).2.storage.blobMetadata.contains "h" =
      true := by decide +kernel
  have hsecond : (handlePushV2 plainEnv forcedPush.toV2 guardedHub).2.storage.blobMetadata.contains
      "h" = false := by decide +kernel
  exact Bool.false_ne_true (hsecond.symm.trans (hrow.trans hfirst))

end Batch
end Suture.Wire
