import Suture.Wire.Rejected

/-!
# What blobs hash to

The hub stores bytes under the hash that comes with them, and over the bytes that were
there. It stays addressed by content as long as what comes is.
-/

namespace Suture.Wire
set_option autoImplicit false
open Foundation

variable (contentHash : Bytes → String)

/-- Each blob is stored under its hash. -/
def Addressed (blobs : SortedMap Key Bytes) : Prop :=
  ∀ repoId hash data, blobs.get (key repoId hash) = some data → contentHash data = hash

structure ContentAddressed (s : Server) : Prop where
  database : Addressed contentHash s.storage.blobs
  backend : ∀ blobs, s.blobBackend = some blobs → Addressed contentHash blobs

def Collision : Prop := ∃ a b, a ≠ b ∧ contentHash a = contentHash b

/-! ### Requests -/

/-- What a push gets stored as a blob hashes to the name it is given: a delta that can be
applied, with what it comes to, and a blob of the list, up to the first that is refused. -/
structure HonestPush (env : Env) (endpoint : Endpoint) (req : PushRequestV2) (s : Server) : Prop where
  deltas : ∀ k delta data, req.deltas[k]? = some delta →
    (authenticateAt env endpoint req s).1 = .ok () → env.fault .ensureRepo = none →
    (∀ m e, Program.firstFailure (deltaRefusal env req.repoId) (writeRow (deltaRow env req.repoId)) 0
      req.deltas (s.writeRows (repoRow req)) = some (m, e) → k < m) →
    deltaContent env req.repoId k delta (s.writeRows (throughDeltas env req s k)) = some data →
    contentHash data = delta.targetHash.value
  blobs : ∀ k blob data, req.blobs[k]? = some blob →
    (authenticateAt env endpoint req s).1 = .ok () → env.fault .ensureRepo = none →
    Program.firstFailure (deltaRefusal env req.repoId) (writeRow (deltaRow env req.repoId)) 0
      req.deltas (s.writeRows (repoRow req)) = none →
    (∀ m e, Program.firstFailure (blobCheck env) (writeRow (blobRow env endpoint req)) 0 req.blobs
      (s.writeRows (throughDeltas env req s req.deltas.length)) = some (m, e) → k < m) →
    env.base64Decode blob.data = .ok data → contentHash data = blob.hash.value

/-- The blobs of the upstream that can be stored hash to their names. -/
def HonestSync (env : Env) (upstream : PullResponse) : Prop :=
  ∀ k blob data, upstream.blobs[k]? = some blob → env.fault (.syncBlob k) = none →
    env.base64Decode blob.data = .ok data → contentHash data = blob.hash.value

inductive HubRequest where
  | push (req : PushRequest)
  | pushV2 (req : PushRequestV2)
  | batchPush (req : BatchPatchRequest)
  | mirrorSync (localRepo : String) (upstream : PullResponse)

/-- What the hub is left with, whatever it answers. -/
def serve (env : Env) (s : Server) : HubRequest → Server
  | .push req => (handlePush env req s).2
  | .pushV2 req => (handlePushV2 env req s).2
  | .batchPush req => (handleBatchPush env req s).2
  | .mirrorSync localRepo upstream => handleMirrorSync env localRepo upstream s

def Honest (env : Env) (s : Server) : HubRequest → Prop
  | .push req => HonestPush contentHash env .push req.toV2 s
  | .pushV2 req => HonestPush contentHash env .pushV2 req s
  | .batchPush req => HonestPush contentHash env .batchPush req.toV2 s
  | .mirrorSync _ upstream => HonestSync contentHash env upstream

/-- Runs in which every request is honest where it is served. -/
inductive HonestRun : Server → Server → Prop where
  | refl (s : Server) : HonestRun s s
  | step {s t : Server} (run : HonestRun s t) (env : Env) (request : HubRequest)
    (honest : Honest contentHash env t request) : HonestRun s (serve env t request)

/-! ### One request -/

variable {contentHash}

def HonestRows (contentHash : Bytes → String) (rows : List (Key × Bytes)) : Prop :=
  ∀ repoId hash data, (key repoId hash, data) ∈ rows → contentHash data = hash

theorem Addressed.putRows {blobs : SortedMap Key Bytes} (h : Addressed contentHash blobs)
    {rows : List (Key × Bytes)} (hrows : HonestRows contentHash rows) :
    Addressed contentHash (blobs.putRows rows) := by
  induction rows generalizing blobs with
  | nil => exact h
  | cons row rows ih =>
    refine ih (fun repoId hash data hdata => ?_) fun repoId hash data hmem =>
      hrows repoId hash data (List.mem_cons_of_mem _ hmem)
    rw [SortedMap.get_insert] at hdata
    split at hdata
    · rename_i hkey
      obtain rfl := Option.some.inj hdata
      refine hrows repoId hash row.2 ?_
      rw [hkey]
      exact List.mem_cons_self ..
    · exact h repoId hash data hdata

theorem ContentAddressed.writeRows {s : Server} (h : ContentAddressed contentHash s) {r : Rows}
    (hrows : HonestRows contentHash r.blobs) : ContentAddressed contentHash (s.writeRows r) where
  database := by
    change Addressed contentHash (if s.blobBackend = none then _ else _)
    split
    · exact h.database.putRows hrows
    · exact h.database
  backend := by
    intro blobs hblobs
    obtain ⟨old, hold, rfl⟩ := Option.map_eq_some_iff.mp hblobs
    exact (h.backend old hold).putRows hrows

/-- A part of collected rows comes from one item. -/
theorem mem_collect {α β : Type} (part : Rows → List β)
    (happend : ∀ r r', part (r ++ r') = part r ++ part r') (hempty : part .empty = [])
    {row : Nat → α → Server → Rows} {k : Nat} {as : List α} {s : Server} {x : β}
    (h : x ∈ part (collect row k as s)) : ∃ j a, as[j]? = some a ∧
      x ∈ part (row (k + j) a (s.writeRows (collect row k (as.take j) s))) := by
  induction as generalizing k s with
  | nil =>
    rw [collect, hempty] at h
    cases h
  | cons a as ih =>
    rw [collect, happend] at h
    rcases List.mem_append.mp h with h | h
    · refine ⟨0, a, rfl, ?_⟩
      rw [List.take_zero, collect, s.writeRows_empty]
      exact h
    · obtain ⟨j, b, hj, hx⟩ := ih h
      refine ⟨j + 1, b, hj, ?_⟩
      rw [List.take_succ_cons, collect, Server.writeRows_append, show k + (j + 1) = k + 1 + j by omega]
      exact hx

theorem getElem?_of_take {α : Type} {l : List α} {n k : Nat} {a : α} (h : (l.take n)[k]? = some a) :
    k < n ∧ l[k]? = some a := by
  rw [List.getElem?_take] at h
  split at h
  · rename_i hlt
    exact ⟨hlt, h⟩
  · cases h

section Push
variable {env : Env} {endpoint : Endpoint} {req : PushRequestV2} {s : Server}

theorem honest_deltas (hauth : (authenticateAt env endpoint req s).1 = .ok ())
    (hrepo : env.fault .ensureRepo = none) (h : HonestPush contentHash env endpoint req s) {n : Nat}
    (hn : ∀ m e, Program.firstFailure (deltaRefusal env req.repoId)
      (writeRow (deltaRow env req.repoId)) 0 req.deltas (s.writeRows (repoRow req)) = some (m, e) →
      n ≤ m) :
    HonestRows contentHash (throughDeltas env req s n).blobs := by
  intro repoId hash data hmem
  have hmem : (key repoId hash, data) ∈ (collect (deltaRow env req.repoId) 0 (req.deltas.take n)
    (s.writeRows (repoRow req))).blobs := hmem
  obtain ⟨k, delta, hk, hrow⟩ := mem_collect Rows.blobs (fun _ _ => rfl) rfl hmem
  obtain ⟨hlt, hget⟩ := getElem?_of_take hk
  rw [List.take_take, min_eq_left (Nat.le_of_lt hlt), ← Server.writeRows_append, Nat.zero_add] at hrow
  unfold deltaRow at hrow
  split at hrow
  · cases hrow
  · rename_i content hcontent
    obtain ⟨hkey, rfl⟩ := Prod.mk.inj (List.mem_singleton.mp hrow)
    obtain ⟨-, rfl⟩ := Prod.mk.inj (toLex_inj.mp hkey)
    exact h.deltas k delta _ hget hauth hrepo
      (fun m e hfail => Nat.lt_of_lt_of_le hlt (hn m e hfail)) hcontent

theorem honest_blobs (hauth : (authenticateAt env endpoint req s).1 = .ok ())
    (hrepo : env.fault .ensureRepo = none) (h : HonestPush contentHash env endpoint req s)
    (hdelta : Program.firstFailure (deltaRefusal env req.repoId)
      (writeRow (deltaRow env req.repoId)) 0 req.deltas (s.writeRows (repoRow req)) = none) {n : Nat}
    (hn : ∀ m e, Program.firstFailure (blobCheck env) (writeRow (blobRow env endpoint req)) 0 req.blobs
      (s.writeRows (throughDeltas env req s req.deltas.length)) = some (m, e) → n ≤ m) :
    HonestRows contentHash (throughBlobs env endpoint req s n).blobs := by
  intro repoId hash data hmem
  rcases List.mem_append.mp (show (key repoId hash, data) ∈
      (throughDeltas env req s req.deltas.length).blobs ++ (collect (blobRow env endpoint req) 0
        (req.blobs.take n) (s.writeRows (throughDeltas env req s req.deltas.length))).blobs from hmem)
    with hmem | hmem
  · refine honest_deltas hauth hrepo h (fun m e hfail => ?_) repoId hash data hmem
    rw [hdelta] at hfail
    cases hfail
  · obtain ⟨k, blob, hk, hrow⟩ := mem_collect Rows.blobs (fun _ _ => rfl) rfl hmem
    obtain ⟨hlt, hget⟩ := getElem?_of_take hk
    unfold blobRow at hrow
    split at hrow
    · cases hrow
    · rename_i content hcontent
      obtain ⟨hkey, rfl⟩ := Prod.mk.inj (List.mem_singleton.mp hrow)
      obtain ⟨-, rfl⟩ := Prod.mk.inj (toLex_inj.mp hkey)
      exact h.blobs k blob _ hget hauth hrepo hdelta
        (fun m e hfail => Nat.lt_of_lt_of_le hlt (hn m e hfail)) hcontent

theorem logRow_blobs (call : Call) (entry : ReplicationEntry) : (logRow env call entry).blobs = [] := by
  unfold logRow
  split <;> rfl

theorem patchLogRow_blobs (k : Nat) (patch : PatchProto) (t : Server) :
    (patchLogRow env k patch t).blobs = [] := logRow_blobs _ _

theorem branchLogRow_blobs (k : Nat) (branch : BranchProto) (t : Server) :
    (branchLogRow env req k branch t).blobs = [] := logRow_blobs _ _

theorem branchRow_blobs (k : Nat) (branch : BranchProto) (t : Server) :
    (branchRow req k branch t).blobs = [] := rfl

theorem throughLog_blobs : (throughLog env endpoint req s).blobs =
    (throughBlobs env endpoint req s req.blobs.length).blobs := by
  change ((throughBlobs env endpoint req s req.blobs.length).blobs ++ []) ++
    (collect (patchLogRow env) 0 _ _).blobs = _
  rw [collect_part Rows.blobs (fun _ _ => rfl) rfl patchLogRow_blobs, List.append_nil, List.append_nil]

theorem throughBranches_blobs (n : Nat) : (throughBranches env endpoint req s n).blobs =
    (throughBlobs env endpoint req s req.blobs.length).blobs := by
  change (throughLog env endpoint req s).blobs ++ (collect (branchRow req) 0 _ _).blobs = _
  rw [throughLog_blobs, collect_part Rows.blobs (fun _ _ => rfl) rfl branchRow_blobs, List.append_nil]

theorem throughEnd_blobs : (throughEnd env endpoint req s).blobs =
    (throughBlobs env endpoint req s req.blobs.length).blobs := by
  change (throughBranches env endpoint req s req.branches.length).blobs ++
    (collect (branchLogRow env req) 0 _ _).blobs = _
  rw [throughBranches_blobs, collect_part Rows.blobs (fun _ _ => rfl) rfl branchLogRow_blobs,
    List.append_nil]

theorem honest_rowsUpTo (h : HonestPush contentHash env endpoint req s) :
    HonestRows contentHash (rowsUpTo env endpoint req s (outcome env endpoint req s).1).blobs := by
  unfold outcome
  cases hauth : (authenticateAt env endpoint req s).1 with
  | error e => exact nofun
  | ok _ =>
    unfold faultOf
    cases hrepo : env.fault .ensureRepo with
    | some e => exact nofun
    | none =>
      simp only [Option.map_none]
      cases hdelta : Program.firstFailure (deltaRefusal env req.repoId)
          (writeRow (deltaRow env req.repoId)) 0 req.deltas (s.writeRows (repoRow req)) with
      | some p =>
        refine honest_deltas hauth hrepo h fun m e hfail => ?_
        rw [hdelta] at hfail
        cases hfail
        exact Nat.le_refl _
      | none =>
        cases hblob : Program.firstFailure (blobCheck env) (writeRow (blobRow env endpoint req)) 0
            req.blobs (s.writeRows (throughDeltas env req s req.deltas.length)) with
        | some p =>
          refine honest_blobs hauth hrepo h hdelta fun m e hfail => ?_
          rw [hblob] at hfail
          cases hfail
          exact Nat.le_refl _
        | none =>
          have hall : HonestRows contentHash (throughBlobs env endpoint req s req.blobs.length).blobs := by
            refine honest_blobs hauth hrepo h hdelta fun m e hfail => ?_
            rw [hblob] at hfail
            cases hfail
          dsimp only
          split
          · exact hall
          · split
            · rw [← throughBranches_blobs] at hall
              exact hall
            · rw [← throughEnd_blobs] at hall
              exact hall

end Push

/-! ### Runs -/

/-- The invariant, and that no name is without its bytes afterwards. -/
structure Moved (contentHash : Bytes → String) (s t : Server) : Prop where
  addressed : ContentAddressed contentHash s → ContentAddressed contentHash t
  present : ∀ k, s.blobTable.contains k = true → t.blobTable.contains k = true

theorem Moved.refl (s : Server) : Moved contentHash s s := ⟨id, fun _ => id⟩

theorem Moved.trans {s t u : Server} (h : Moved contentHash s t) (h' : Moved contentHash t u) :
    Moved contentHash s u := ⟨h'.addressed ∘ h.addressed, fun k => h'.present k ∘ h.present k⟩

theorem contains_putRows {blobs : SortedMap Key Bytes} {k : Key} (h : blobs.contains k = true)
    (rows : List (Key × Bytes)) : (blobs.putRows rows).contains k = true := by
  rw [SortedMap.contains_eq, SortedMap.get_putRows]
  obtain ⟨data, hdata⟩ := Option.isSome_iff_exists.mp h
  rw [hdata]
  cases lastRow rows k <;> rfl

theorem moved_writeRows (s : Server) {r : Rows} (h : HonestRows contentHash r.blobs) :
    Moved contentHash s (s.writeRows r) where
  addressed := fun hs => hs.writeRows h
  present := fun k hk => by
    rw [Server.blobTable_writeRows]
    exact contains_putRows hk r.blobs

theorem moved_handle {env : Env} {endpoint : Endpoint} {req : PushRequestV2} {s : Server}
    (h : HonestPush contentHash env endpoint req s) :
    Moved contentHash s (handle env endpoint req s).2 := by
  rw [handle_run]
  exact moved_writeRows s (honest_rowsUpTo h)

theorem moved_setStorage (s : Server) {f : HubStorage → HubStorage}
    (h : (f s.storage).blobs = s.storage.blobs) : Moved contentHash s (s.setStorage f) where
  addressed := fun hs => ⟨by
    change Addressed contentHash (f s.storage).blobs
    rw [h]
    exact hs.database, hs.backend⟩
  present := fun k hk => by
    have htable : (s.setStorage f).blobTable = s.blobTable := by
      unfold Server.blobTable Server.setStorage
      rw [h]
    rw [htable]
    exact hk

theorem moved_syncBlobs {env : Env} (localRepo : String) {k : Nat} {blobs : List BlobRef} {s : Server}
    (h : ∀ j blob data, blobs[j]? = some blob → env.fault (.syncBlob (k + j)) = none →
      env.base64Decode blob.data = .ok data → contentHash data = blob.hash.value) :
    Moved contentHash s (Program.writeAll (syncBlob env localRepo) k blobs s) := by
  induction blobs generalizing k s with
  | nil => exact .refl s
  | cons blob blobs ih =>
    refine Moved.trans (t := syncBlob env localRepo k blob s) ?_ (ih fun j b data hj hfault => ?_)
    · unfold syncBlob
      split
      · exact .refl s
      · rename_i data hdata
        unfold blobRefusal faultOf
        split
        · exact .refl s
        · rename_i hnone
          rw [putBlob_eq]
          refine moved_writeRows s fun repoId hash data' hmem => ?_
          obtain ⟨hkey, rfl⟩ := Prod.mk.inj (List.mem_singleton.mp hmem)
          obtain ⟨-, rfl⟩ := Prod.mk.inj (toLex_inj.mp hkey)
          refine h 0 blob _ rfl ?_ hdata
          split at hnone
          · cases hnone
          · exact Option.map_eq_none_iff.mp hnone
    · refine h (j + 1) b data hj ?_
      rw [show k + (j + 1) = k + 1 + j by omega]
      exact hfault

theorem moved_serve {env : Env} {s : Server} {request : HubRequest}
    (h : Honest contentHash env s request) : Moved contentHash s (serve env s request) := by
  cases request with
  | push req => exact moved_handle h
  | pushV2 req => exact moved_handle h
  | batchPush req => exact moved_handle h
  | mirrorSync localRepo upstream =>
    have hblobs : Moved contentHash s (Program.writeAll (syncBlob env localRepo) 0 upstream.blobs s) :=
      moved_syncBlobs localRepo fun j blob data hj hfault hdata =>
        h j blob data hj (Nat.zero_add j ▸ hfault) hdata
    refine hblobs.trans (Moved.trans (t := syncPatches env localRepo upstream.patches
      (Program.writeAll (syncBlob env localRepo) 0 upstream.blobs s)) ?_ ?_)
    · unfold syncPatches
      split
      · refine moved_setStorage _ ?_
        rw [insertPatches_storage]
      · exact .refl _
    · refine Program.writeAll_of_step (P := Moved contentHash _) (fun k branch t ht => ht.trans ?_) 0
        upstream.branches (.refl _)
      unfold syncBranch
      split
      · exact moved_setStorage _ rfl
      · exact .refl _

theorem Server.eq_or_collision {s t : Server} (hs : ContentAddressed contentHash s)
    (h : Moved contentHash s t) {repoId hash : String} {data : Bytes}
    (hdata : s.blobTable.get (key repoId hash) = some data) :
    t.blobTable.get (key repoId hash) = some data ∨ Collision contentHash := by
  have hread : ∀ u : Server, ContentAddressed contentHash u → ∀ d,
      u.blobTable.get (key repoId hash) = some d → contentHash d = hash := fun u hu d hd => by
    unfold Server.blobTable at hd
    cases hbackend : u.blobBackend with
    | none =>
      rw [hbackend] at hd
      exact hu.database repoId hash d hd
    | some blobs =>
      rw [hbackend] at hd
      exact hu.backend blobs hbackend repoId hash d hd
  have hin : s.blobTable.contains (key repoId hash) = true := by
    rw [SortedMap.contains_eq, hdata]
    rfl
  obtain ⟨data', hdata'⟩ := Option.isSome_iff_exists.mp (h.present _ hin)
  by_cases heq : data = data'
  · exact .inl (heq ▸ hdata')
  · exact .inr ⟨data, data', heq,
      (hread s hs data hdata).trans (hread t (h.addressed hs) data' hdata').symm⟩

/-- In every run of honest requests the hub stays addressed by content, and bytes that were
stored stay, unless two contents have one hash. -/
theorem honestRun_contentAddressed {s t : Server} (hrun : HonestRun contentHash s t)
    (hs : ContentAddressed contentHash s) : ContentAddressed contentHash t ∧
      ∀ repoId hash data, s.blobTable.get (key repoId hash) = some data →
        t.blobTable.get (key repoId hash) = some data ∨ Collision contentHash := by
  have hmoved : Moved contentHash s t := by
    induction hrun with
    | refl => exact .refl s
    | step run env request honest ih => exact ih.trans (moved_serve honest)
  exact ⟨hmoved.addressed hs, fun _ _ _ hdata => Server.eq_or_collision hs hmoved hdata⟩

/-- Each byte is spelled as a character. -/
def spell (data : Bytes) : String := String.ofList (data.map fun b => Char.ofNat b.toNat)

def freshHub : Server where
  storage :=
    { repos := .empty, patches := .empty, branches := .empty, blobs := .empty
      branchProtection := .empty, authorizedKeys := .empty, tokens := .empty
      blobMetadata := .empty, blobTrigrams := .empty, replicationLog := [], maxBlobSize := 100 }
  blobBackend := none
  noAuth := false

def pushOfBlob (hash text : String) : PushRequest where
  repoId := "r"
  patches := []
  branches := []
  blobs := [⟨⟨hash⟩, text, false⟩]
  signature := none
  knownBranches := none
  force := false

theorem freshHub_addressed (contentHash : Bytes → String) : ContentAddressed contentHash freshHub :=
  ⟨nofun, nofun⟩

theorem honestRun_one_push : ContentAddressed spell
    (serve plainEnv freshHub (.push (pushOfBlob "h" "h"))) := by
  refine (honestRun_contentAddressed (.step (.refl freshHub) plainEnv (.push (pushOfBlob "h" "h"))
    ⟨nofun, fun k blob data hk _ _ _ _ hdata => ?_⟩) (freshHub_addressed spell)).1
  cases k with
  | succ k => cases hk
  | zero =>
    cases hk
    cases hdata
    decide +kernel

/-- Two pushes under one name; the second replaces the bytes of the first. -/
theorem stored_bytes_replaced :
    (serve plainEnv freshHub (.push (pushOfBlob "h" "h"))).blobTable.get (key "r" "h") =
        some (utf8 "h") ∧
      (handlePush plainEnv (pushOfBlob "h" "x")
        (serve plainEnv freshHub (.push (pushOfBlob "h" "h")))).1 = .ok [] ∧
      (serve plainEnv (serve plainEnv freshHub (.push (pushOfBlob "h" "h")))
        (.push (pushOfBlob "h" "x"))).blobTable.get (key "r" "h") = some (utf8 "x") ∧
      ¬ ContentAddressed spell (serve plainEnv
        (serve plainEnv freshHub (.push (pushOfBlob "h" "h"))) (.push (pushOfBlob "h" "x"))) := by
  have hreplaced : (serve plainEnv (serve plainEnv freshHub (.push (pushOfBlob "h" "h")))
      (.push (pushOfBlob "h" "x"))).storage.blobs.get (key "r" "h") = some (utf8 "x") := by
    decide +kernel
  refine ⟨by decide +kernel, by decide +kernel, hreplaced, fun h => ?_⟩
  have hhash := h.database "r" "h" (utf8 "x") hreplaced
  revert hhash
  decide +kernel

end Suture.Wire
