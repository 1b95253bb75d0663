import Suture.Foundation.Rows
import Suture.Wire.Server

/-!
# How far a push gets

The rows that a push writes up to where it stops, and the store after them. Every handler
comes to writing such rows.

Where a request is refused, and the rows that are written before. Each part of the handler
is a loop of checked writes; together they write the rows up to the stop.
-/

namespace Suture.Wire
set_option autoImplicit false
open Foundation

@[ext] structure Rows where
  repos : List String
  blobs : List (Key × Bytes)
  index : List IndexRow
  patches : List (Key × PatchProto)
  log : List ReplicationEntry
  branches : List (Key × String)

namespace Rows

def empty : Rows := ⟨[], [], [], [], [], []⟩

instance : Append Rows where
  append r r' := ⟨r.repos ++ r'.repos, r.blobs ++ r'.blobs, r.index ++ r'.index,
    r.patches ++ r'.patches, r.log ++ r'.log, r.branches ++ r'.branches⟩

def metadata (r : Rows) : List (String × BlobMetadata) :=
  r.index.filterMap fun
    | .metadata hash row => some (hash, row)
    | .trigram .. => none

def trigrams (r : Rows) : List (Key × String) :=
  r.index.filterMap fun
    | .metadata .. => none
    | .trigram trigram hash repoId => some (key trigram hash, repoId)

theorem metadata_append (r r' : Rows) : (r ++ r').metadata = r.metadata ++ r'.metadata :=
  List.filterMap_append ..

theorem trigrams_append (r r' : Rows) : (r ++ r').trigrams = r.trigrams ++ r'.trigrams :=
  List.filterMap_append ..

end Rows

namespace Server

def writeRows (s : Server) (r : Rows) : Server :=
  { s with
    storage :=
      { s.storage with
        repos := r.repos.foldl (fun repos id => repos.insert id) s.storage.repos
        patches := s.storage.patches.addRows r.patches
        branches := s.storage.branches.putRows r.branches
        blobs := if s.blobBackend = none then s.storage.blobs.putRows r.blobs else s.storage.blobs
        blobMetadata := s.storage.blobMetadata.putRows r.metadata
        blobTrigrams := s.storage.blobTrigrams.addRows r.trigrams
        replicationLog := s.storage.replicationLog ++ r.log }
    blobBackend := s.blobBackend.map fun blobs => blobs.putRows r.blobs }

theorem writeRows_empty (s : Server) : s.writeRows .empty = s := by
  obtain ⟨storage, backend, noAuth⟩ := s
  cases backend with
  | none =>
    change Server.mk { storage with replicationLog := storage.replicationLog ++ [] } none noAuth = _
    rw [List.append_nil]
  | some blobs =>
    change Server.mk { storage with replicationLog := storage.replicationLog ++ [] } (some blobs) noAuth = _
    rw [List.append_nil]

theorem writeRows_append (s : Server) (r r' : Rows) :
    s.writeRows (r ++ r') = (s.writeRows r).writeRows r' := by
  obtain ⟨storage, backend, noAuth⟩ := s
  have hrepos : (r ++ r').repos = r.repos ++ r'.repos := rfl
  have hlog : (r ++ r').log = r.log ++ r'.log := rfl
  unfold writeRows
  simp only [Rows.metadata_append, Rows.trigrams_append, SortedMap.putRows_append,
    SortedMap.addRows_append, hrepos, hlog, List.foldl_append, ← List.append_assoc,
    show (r ++ r').patches = r.patches ++ r'.patches from rfl,
    show (r ++ r').branches = r.branches ++ r'.branches from rfl,
    show (r ++ r').blobs = r.blobs ++ r'.blobs from rfl]
  cases backend with
  | none => rfl
  | some blobs => rfl

/-- Every row is there as the last of its key says. -/
structure Stored (s : Server) (r : Rows) : Prop where
  repos : ∀ id ∈ r.repos, id ∈ s.storage.repos
  blobs : ∀ k data, lastRow r.blobs k = some data → s.blobTable.get k = some data
  metadata : ∀ hash row, lastRow r.metadata hash = some row →
    s.storage.blobMetadata.get hash = some row
  trigrams : ∀ row ∈ r.trigrams, s.storage.blobTrigrams.contains row.1 = true
  patches : ∀ row ∈ r.patches, s.storage.patches.contains row.1 = true
  log : r.log = []
  branches : ∀ k target, lastRow r.branches k = some target →
    s.storage.branches.get k = some target

theorem blobTable_writeRows (s : Server) (r : Rows) :
    (s.writeRows r).blobTable = s.blobTable.putRows r.blobs := by
  obtain ⟨storage, backend, noAuth⟩ := s
  cases backend with
  | none => rfl
  | some blobs => rfl

theorem foldl_insert_eq_self_iff {ids : List String} {repos : SortedSet String} :
    ids.foldl (fun repos id => repos.insert id) repos = repos ↔ ∀ id ∈ ids, id ∈ repos := by
  constructor
  · intro h id hid
    rw [← h]
    exact SortedSet.mem_foldl_insert.mpr (.inl hid)
  · intro h
    exact SortedSet.ext fun id => SortedSet.mem_foldl_insert.trans
      ⟨fun hid => hid.elim (h id) (fun hid => hid), .inr⟩

/-- Rows leave the store alone exactly when they are there. -/
theorem writeRows_eq_self_iff {s : Server} {r : Rows} : s.writeRows r = s ↔ s.Stored r := by
  constructor
  · intro h
    have hstorage := congrArg Server.storage h
    have hblobs := blobTable_writeRows s r
    rw [h] at hblobs
    have hlog := congrArg HubStorage.replicationLog hstorage
    exact
      { repos := foldl_insert_eq_self_iff.mp (congrArg HubStorage.repos hstorage)
        blobs := SortedMap.putRows_eq_self_iff.mp hblobs.symm
        metadata := SortedMap.putRows_eq_self_iff.mp (congrArg HubStorage.blobMetadata hstorage)
        trigrams := SortedMap.addRows_eq_self_iff.mp (congrArg HubStorage.blobTrigrams hstorage)
        patches := SortedMap.addRows_eq_self_iff.mp (congrArg HubStorage.patches hstorage)
        log := List.append_right_eq_self.mp hlog
        branches := SortedMap.putRows_eq_self_iff.mp (congrArg HubStorage.branches hstorage) }
  · intro h
    obtain ⟨storage, backend, noAuth⟩ := s
    unfold writeRows
    rw [foldl_insert_eq_self_iff.mpr h.repos, SortedMap.putRows_eq_self_iff.mpr h.metadata,
      SortedMap.addRows_eq_self_iff.mpr h.trigrams, SortedMap.addRows_eq_self_iff.mpr h.patches,
      h.log, List.append_nil, SortedMap.putRows_eq_self_iff.mpr h.branches]
    have hblobs := SortedMap.putRows_eq_self_iff.mpr h.blobs
    cases backend with
    | none =>
      change storage.blobs.putRows r.blobs = storage.blobs at hblobs
      rw [if_pos rfl, hblobs]
      rfl
    | some blobs =>
      change blobs.putRows r.blobs = blobs at hblobs
      rw [if_neg (Option.some_ne_none blobs), Option.map_some, hblobs]

end Server

/-! ### The stops -/

/-! ### One item -/

section Items
variable (env : Env)

def blobsRow (repoId hash : String) (data : Bytes) : Rows :=
  { Rows.empty with blobs := [(key repoId hash, data)] }

/-- What a delta comes to, if its base is there and it can be read. -/
def deltaContent (repoId : String) (k : Nat) (delta : BlobDelta) (s : Server) : Option Bytes :=
  match delta.encoding with
  | .binaryPatch =>
    match env.fault (.getDeltaBase k), s.blobTable.get (key repoId delta.baseHash.value),
        env.base64Decode delta.deltaData with
    | none, some baseData, .ok deltaBytes => some (env.applyDelta baseData deltaBytes)
    | _, _, _ => none
  | .fullBlob => (env.base64Decode delta.deltaData).toOption

def deltaRefusal (repoId : String) (k : Nat) (delta : BlobDelta) (s : Server) : Option Refusal :=
  match delta.encoding with
  | .binaryPatch => (deltaContent env repoId k delta s).bind fun data =>
      blobRefusal env (.storeDelta k) .deltaStorage data s
  | .fullBlob =>
    match env.base64Decode delta.deltaData with
    | .error e => some (.badDelta e)
    | .ok data => blobRefusal env (.storeDelta k) .storage data s

def deltaRow (repoId : String) (k : Nat) (delta : BlobDelta) (s : Server) : Rows :=
  match deltaContent env repoId k delta s with
  | none => .empty
  | some data => blobsRow repoId delta.targetHash.value data

/-- The rows of the index up to the first that cannot be written. -/
def writableRows (k : Nat) : Nat → List IndexRow → List IndexRow
  | _, [] => []
  | j, row :: rest =>
    if env.fault (.indexBlob k j) = none then row :: writableRows k (j + 1) rest else []

def blobCheck (k : Nat) (blob : BlobRef) (s : Server) : Option Refusal :=
  match env.base64Decode blob.data with
  | .error e => some (.badBlob e)
  | .ok data => blobRefusal env (.storeBlob k) .storage data s

def indexRowsOf (req : PushRequestV2) (k : Nat) (blob : BlobRef) (data : Bytes) : List IndexRow :=
  writableRows env k 0 (indexRows req.repoId blob.hash.value data
    ((req.patches.find? fun p => p.payload = blob.hash.value).bind PatchProto.targetPath))

def blobRow (endpoint : Endpoint) (req : PushRequestV2) (k : Nat) (blob : BlobRef) (_ : Server) :
    Rows :=
  match env.base64Decode blob.data with
  | .error _ => .empty
  | .ok data =>
    { blobsRow req.repoId blob.hash.value data with
      index := if endpoint.indexed then indexRowsOf env req k blob data else [] }

def logRow (call : Call) (entry : ReplicationEntry) : Rows :=
  if env.fault call = none then { Rows.empty with log := [entry] } else .empty

def patchEntry (patch : PatchProto) : ReplicationEntry :=
  ⟨"insert", "patches", patch.id.value, none, env.now⟩

def branchEntry (req : PushRequestV2) (branch : BranchProto) : ReplicationEntry :=
  ⟨"set", "branches", req.repoId ++ ":" ++ branch.name, some branch.targetId.value, env.now⟩

def patchLogRow (k : Nat) (patch : PatchProto) (_ : Server) : Rows :=
  logRow env (.logPatch k) (patchEntry env patch)

def branchLogRow (req : PushRequestV2) (k : Nat) (branch : BranchProto) (_ : Server) : Rows :=
  logRow env (.logBranch k) (branchEntry env req branch)

def branchRow (req : PushRequestV2) (_ : Nat) (branch : BranchProto) (_ : Server) : Rows :=
  { Rows.empty with branches := [(key req.repoId branch.name, branch.targetId.value)] }

def patchRows (req : PushRequestV2) : Rows :=
  { Rows.empty with patches := req.patches.map fun p => (key req.repoId p.id.value, p) }

def repoRow (req : PushRequestV2) : Rows := { Rows.empty with repos := [req.repoId] }

end Items

/-! ### Loops -/

variable {α : Type}

def writeRow (row : Nat → α → Server → Rows) (k : Nat) (a : α) (s : Server) : Server :=
  s.writeRows (row k a s)

/-- The rows of a list, each in the store that those before it leave. -/
def collect (row : Nat → α → Server → Rows) : Nat → List α → Server → Rows
  | _, [], _ => .empty
  | k, a :: as, s => row k a s ++ collect row (k + 1) as (s.writeRows (row k a s))

theorem writeAll_writeRow (row : Nat → α → Server → Rows) (k : Nat) (as : List α) (s : Server) :
    Program.writeAll (writeRow row) k as s = s.writeRows (collect row k as s) := by
  induction as generalizing k s with
  | nil => exact (s.writeRows_empty).symm
  | cons a as ih =>
    rw [Program.writeAll, ih, collect, Server.writeRows_append]
    rfl

/-- A part of the rows that no item has. -/
theorem collect_part {β : Type} (part : Rows → List β)
    (happend : ∀ r r', part (r ++ r') = part r ++ part r') (hempty : part .empty = [])
    {row : Nat → α → Server → Rows} (h : ∀ k a s, part (row k a s) = []) (k : Nat) (as : List α)
    (s : Server) : part (collect row k as s) = [] := by
  induction as generalizing k s with
  | nil => exact hempty
  | cons a as ih => rw [collect, happend, h, ih, List.append_nil]

/-- A loop of checked rows, in the store that earlier rows leave. -/
theorem forEachFrom_rows {f : Nat → α → Handler Unit} {check : Nat → α → Server → Option Refusal}
    {row : Nat → α → Server → Rows} (hf : ∀ k a, f k a = .checkedWrite (check k a) (writeRow row k a))
    (as : List α) (s : Server) (rows : Rows) :
    Program.forEachFrom f 0 as (s.writeRows rows) =
      match Program.firstFailure check (writeRow row) 0 as (s.writeRows rows) with
      | none =>
        (.ok (), s.writeRows (rows ++ collect row 0 (as.take as.length) (s.writeRows rows)))
      | some (n, e) => (.error e, s.writeRows (rows ++ collect row 0 (as.take n) (s.writeRows rows))) := by
  rw [Program.forEachFrom_checked hf]
  cases Program.firstFailure check (writeRow row) 0 as (s.writeRows rows) with
  | none =>
    refine Prod.ext rfl ((writeAll_writeRow row 0 as _).trans ?_)
    rw [List.take_length]
    exact (Server.writeRows_append ..).symm
  | some p =>
    refine Prod.ext rfl ((writeAll_writeRow row 0 (as.take p.1) _).trans ?_)
    exact (Server.writeRows_append ..).symm

section Items
variable (env : Env)

theorem putBlob_eq (s : Server) (repoId hash : String) (data : Bytes) :
    s.putBlob repoId hash data = s.writeRows (blobsRow repoId hash data) := by
  obtain ⟨storage, backend, noAuth⟩ := s
  unfold Server.putBlob Server.writeRows
  cases backend with
  | none => simp [blobsRow, Rows.empty, Rows.metadata, Rows.trigrams, SortedMap.addRows,
      SortedMap.putRows, Server.setStorage]
  | some blobs => simp [blobsRow, Rows.empty, Rows.metadata, Rows.trigrams, SortedMap.addRows,
      SortedMap.putRows]

theorem writeIndexRow_eq (s : Server) (row : IndexRow) :
    s.writeIndexRow row = s.writeRows { Rows.empty with index := [row] } := by
  obtain ⟨storage, backend, noAuth⟩ := s
  unfold Server.writeIndexRow Server.writeRows
  cases row with
  | metadata hash row =>
    cases backend <;> simp [Rows.empty, Rows.metadata, Rows.trigrams, SortedMap.addRows,
      SortedMap.putRows, Server.setStorage]
  | trigram trigram hash repoId =>
    by_cases h : storage.blobTrigrams.contains (key trigram hash) = true <;>
      cases backend <;> simp [Rows.empty, Rows.metadata, Rows.trigrams, SortedMap.addRows,
        SortedMap.putRows, Server.setStorage, h]

theorem storeDelta_eq (repoId : String) (k : Nat) (delta : BlobDelta) :
    storeDelta env repoId k delta =
      .checkedWrite (deltaRefusal env repoId k delta) (writeRow (deltaRow env repoId) k delta) := by
  funext s
  unfold storeDelta Program.checkedWrite deltaRefusal writeRow deltaRow deltaContent
  cases delta.encoding with
  | binaryPatch =>
    refine (Program.read_bind _ s).trans ?_
    cases env.fault (.getDeltaBase k) with
    | some e => exact Prod.ext rfl s.writeRows_empty.symm
    | none =>
      cases s.blobTable.get (key repoId delta.baseHash.value) with
      | none => exact Prod.ext rfl s.writeRows_empty.symm
      | some baseData =>
        cases env.base64Decode delta.deltaData with
        | error e => exact Prod.ext rfl s.writeRows_empty.symm
        | ok deltaBytes =>
          unfold blobStore Program.checkedWrite
          simp only [putBlob_eq]
          rfl
  | fullBlob =>
    cases env.base64Decode delta.deltaData with
    | error e => rfl
    | ok data =>
      unfold blobStore Program.checkedWrite
      simp only [putBlob_eq]
      rfl

theorem indexBlob_state (k j : Nat) (rows : List IndexRow) (s : Server) :
    (Program.forEachFrom (fun j row => Program.checkedWrite
      (fun _ => faultOf env (.indexBlob k j) .storage) fun s => s.writeIndexRow row) j rows s).2 =
      s.writeRows { Rows.empty with index := writableRows env k j rows } := by
  induction rows generalizing j s with
  | nil => exact s.writeRows_empty.symm
  | cons row rows ih =>
    rw [Program.forEachFrom, writableRows]
    cases hfault : env.fault (.indexBlob k j) with
    | some e =>
      rw [Program.bind_of_error (e := .storage e) (t := s) (by
        unfold Program.checkedWrite faultOf
        rw [hfault]
        rfl), if_neg (Option.some_ne_none e)]
      exact s.writeRows_empty.symm
    | none =>
      rw [Program.bind_of_ok (a := ()) (t := s.writeIndexRow row) (by
        unfold Program.checkedWrite faultOf
        rw [hfault]
        rfl), if_pos rfl, ih, writeIndexRow_eq, ← Server.writeRows_append]
      rfl

theorem storeBlob_eq (endpoint : Endpoint) (req : PushRequestV2) (k : Nat) (blob : BlobRef) :
    storeBlob env endpoint req k blob =
      .checkedWrite (blobCheck env k blob) (writeRow (blobRow env endpoint req) k blob) := by
  funext s
  unfold storeBlob Program.checkedWrite blobCheck writeRow blobRow
  cases env.base64Decode blob.data with
  | error e => rfl
  | ok data =>
    cases hrefusal : blobRefusal env (.storeBlob k) .storage data s with
    | some e =>
      refine (Program.bind_of_error (e := e) (t := s) ?_).trans ?_
      · unfold blobStore Program.checkedWrite
        rw [hrefusal]
      · simp only [hrefusal]
    | none =>
      refine (Program.bind_of_ok (a := ())
        (t := s.writeRows (blobsRow req.repoId blob.hash.value data)) ?_).trans ?_
      · unfold blobStore Program.checkedWrite
        rw [hrefusal, ← putBlob_eq]
      · simp only [hrefusal]
        cases endpoint.indexed with
        | false => rfl
        | true =>
          refine Prod.ext rfl ?_
          change (indexBlob env k _ _).2 = _
          unfold indexBlob
          rw [indexBlob_state, ← Server.writeRows_append]
          rfl

theorem setBranch_eq (endpoint : Endpoint) (req : PushRequestV2) (k : Nat) (branch : BranchProto) :
    setBranch env endpoint req k branch =
      .checkedWrite (branchRefusal env endpoint req k branch) (writeRow (branchRow req) k branch) := by
  funext s
  unfold setBranch
  congr 1
  funext s
  unfold writeRow Server.writeRows
  obtain ⟨storage, backend, noAuth⟩ := s
  cases backend <;> simp [branchRow, Rows.empty, Rows.metadata, Rows.trigrams, SortedMap.addRows,
    SortedMap.putRows, Server.setStorage]

theorem ensureRepo_eq (req : PushRequestV2) : ensureRepo env req.repoId =
    .checkedWrite (fun _ => faultOf env .ensureRepo .storage) fun s => s.writeRows (repoRow req) := by
  unfold ensureRepo
  congr 1
  funext s
  unfold Server.writeRows
  obtain ⟨storage, backend, noAuth⟩ := s
  cases backend <;> simp [repoRow, Rows.empty, Rows.metadata, Rows.trigrams, SortedMap.addRows,
    SortedMap.putRows, Server.setStorage]

theorem logOperation_eq (call : Call) (entry : ReplicationEntry) (s : Server) :
    logOperation env call entry s = (.ok (), s.writeRows (logRow env call entry)) := by
  unfold logOperation Program.modify logRow
  refine Prod.ext rfl ?_
  change (if env.fault call = none then _ else s) = _
  split
  · unfold Server.writeRows
    obtain ⟨storage, backend, noAuth⟩ := s
    cases backend <;> simp [Rows.empty, Rows.metadata, Rows.trigrams, SortedMap.addRows,
      SortedMap.putRows, Server.setStorage, HubStorage.log]
  · exact s.writeRows_empty.symm

theorem logOperations_run {call : Nat → Call} {entry : α → ReplicationEntry} (k : Nat) (as : List α)
    (s : Server) (rows : Rows) :
    Program.forEachFrom (fun k a => logOperation env (call k) (entry a)) k as (s.writeRows rows) =
      (.ok (), s.writeRows (rows ++ collect (fun k a _ => logRow env (call k) (entry a)) k as
        (s.writeRows rows))) := by
  rw [Server.writeRows_append]
  generalize s.writeRows rows = t
  induction as generalizing k t with
  | nil => exact Prod.ext rfl t.writeRows_empty.symm
  | cons a as ih =>
    rw [Program.forEachFrom, Program.bind_of_ok (logOperation_eq env (call k) (entry a) t), ih,
      collect, Server.writeRows_append]

theorem insertPatches_storage (store : HubStorage) (repoId : String) (patches : List PatchProto) :
    (store.insertPatches repoId patches).2 = { store with
      patches := store.patches.addRows (patches.map fun p => (key repoId p.id.value, p)) } := by
  induction patches generalizing store with
  | nil => rfl
  | cons patch rest ih =>
    rw [HubStorage.insertPatches]
    rw [List.map_cons]
    unfold SortedMap.addRows
    rw [List.foldl_cons]
    split_ifs
    · exact ih store
    · exact ih _

theorem insertPatchesBatch_run (req : PushRequestV2) (s : Server) :
    insertPatchesBatchWithExisting env req.repoId req.patches s =
      match if req.patches = [] then none else faultOf env .insertPatches .storage with
      | some e => (.error e, s)
      | none => (.ok (s.storage.insertPatches req.repoId req.patches).1, s.writeRows (patchRows req)) := by
  have hwrite : ({ s with storage := (s.storage.insertPatches req.repoId req.patches).2 } : Server) =
      s.writeRows (patchRows req) := by
    rw [insertPatches_storage]
    unfold Server.writeRows
    obtain ⟨storage, backend, noAuth⟩ := s
    cases backend <;> simp [patchRows, Rows.empty, Rows.metadata, Rows.trigrams, SortedMap.addRows,
      SortedMap.putRows]
  unfold insertPatchesBatchWithExisting
  cases faultOf env .insertPatches .storage with
  | none =>
    rw [ite_self]
    exact Prod.ext rfl hwrite
  | some e =>
    by_cases h : req.patches = []
    · rw [if_pos h]
      refine Prod.ext ?_ ?_
      · simp [h, HubStorage.insertPatches]
      · rw [← hwrite]
        simp [h, HubStorage.insertPatches]
    · simp only [if_neg h]

theorem authenticate_state (req : PushRequestV2) (s : Server) : (authenticate env req s).2 = s := by
  refine Program.Quiet.bind (D := .ofView id) Program.quiet_read (fun t => ?_) s
  cases req.signature with
  | some signature =>
    refine (Program.quiet_require _ _).bind fun _ => ?_
    split
    · split
      · exact Program.quiet_fail _
      · exact Program.quiet_pure _
    · exact Program.quiet_pure _
  | none =>
    dsimp only
    split
    · exact Program.quiet_require _ _
    · exact Program.quiet_pure _

end Items

/-! ### The whole push -/

inductive Stop where
  | refused
  | delta (n : Nat)
  | blob (n : Nat)
  | patches
  | branch (n : Nat)
  | done
deriving DecidableEq, Repr

section Whole
variable (env : Env) (endpoint : Endpoint) (req : PushRequestV2) (s : Server)

def throughDeltas (n : Nat) : Rows :=
  repoRow req ++ collect (deltaRow env req.repoId) 0 (req.deltas.take n) (s.writeRows (repoRow req))

def throughBlobs (n : Nat) : Rows :=
  let rows := throughDeltas env req s req.deltas.length
  rows ++ collect (blobRow env endpoint req) 0 (req.blobs.take n) (s.writeRows rows)

def throughLog : Rows :=
  let rows := throughBlobs env endpoint req s req.blobs.length ++ patchRows req
  rows ++ collect (patchLogRow env) 0 req.patches (s.writeRows rows)

def throughBranches (n : Nat) : Rows :=
  let rows := throughLog env endpoint req s
  rows ++ collect (branchRow req) 0 (req.branches.take n) (s.writeRows rows)

def throughEnd : Rows :=
  let rows := throughBranches env endpoint req s req.branches.length
  rows ++ collect (branchLogRow env req) 0 req.branches (s.writeRows rows)

def rowsUpTo : Stop → Rows
  | .refused => .empty
  | .delta n => throughDeltas env req s n
  | .blob n => throughBlobs env endpoint req s n
  | .patches => throughBlobs env endpoint req s req.blobs.length
  | .branch n => throughBranches env endpoint req s n
  | .done => throughEnd env endpoint req s

/-- The checks in their order, each in the store that the rows before it leave. -/
def outcome : Stop × Except Refusal (List HashProto) :=
  match (authenticateAt env endpoint req s).1, faultOf env .ensureRepo .storage with
  | .error e, _ | _, some e => (.refused, .error e)
  | .ok _, none =>
    match Program.firstFailure (deltaRefusal env req.repoId) (writeRow (deltaRow env req.repoId)) 0
        req.deltas (s.writeRows (repoRow req)) with
    | some (n, e) => (.delta n, .error e)
    | none =>
      match Program.firstFailure (blobCheck env) (writeRow (blobRow env endpoint req)) 0 req.blobs
          (s.writeRows (throughDeltas env req s req.deltas.length)) with
      | some (n, e) => (.blob n, .error e)
      | none =>
        match if req.patches = [] then none else faultOf env .insertPatches .storage with
        | some e => (.patches, .error e)
        | none =>
          match Program.firstFailure (branchRefusal env endpoint req) (writeRow (branchRow req)) 0
              req.branches (s.writeRows (throughLog env endpoint req s)) with
          | some (n, e) => (.branch n, .error e)
          | none => (.done, .ok (HubStorage.insertPatches
              (s.writeRows (throughBlobs env endpoint req s req.blobs.length)).storage
              req.repoId req.patches).1)

theorem authenticateAt_run :
    authenticateAt env endpoint req s = ((authenticateAt env endpoint req s).1, s) := by
  unfold authenticateAt
  split
  · exact Prod.ext rfl (authenticate_state env req s)
  · rfl

theorem ensureRepo_run : ensureRepo env req.repoId s =
    match faultOf env .ensureRepo .storage with
    | some e => (.error e, s)
    | none => (.ok (), s.writeRows (repoRow req)) := by
  rw [ensureRepo_eq]
  unfold Program.checkedWrite
  cases faultOf env .ensureRepo .storage <;> rfl

theorem storeDeltas_run :
    Program.forEachFrom (storeDelta env req.repoId) 0 req.deltas (s.writeRows (repoRow req)) =
      match Program.firstFailure (deltaRefusal env req.repoId) (writeRow (deltaRow env req.repoId)) 0
        req.deltas (s.writeRows (repoRow req)) with
      | none => (.ok (), s.writeRows (throughDeltas env req s req.deltas.length))
      | some (n, e) => (.error e, s.writeRows (throughDeltas env req s n)) :=
  forEachFrom_rows (storeDelta_eq env req.repoId) req.deltas s (repoRow req)

theorem storeBlobs_run :
    Program.forEachFrom (storeBlob env endpoint req) 0 req.blobs
        (s.writeRows (throughDeltas env req s req.deltas.length)) =
      match Program.firstFailure (blobCheck env) (writeRow (blobRow env endpoint req)) 0 req.blobs
        (s.writeRows (throughDeltas env req s req.deltas.length)) with
      | none => (.ok (), s.writeRows (throughBlobs env endpoint req s req.blobs.length))
      | some (n, e) => (.error e, s.writeRows (throughBlobs env endpoint req s n)) :=
  forEachFrom_rows (storeBlob_eq env endpoint req) req.blobs s
    (throughDeltas env req s req.deltas.length)

theorem pushBranches_run :
    pushBranches env endpoint req (s.writeRows (throughLog env endpoint req s)) =
      match Program.firstFailure (branchRefusal env endpoint req) (writeRow (branchRow req)) 0
        req.branches (s.writeRows (throughLog env endpoint req s)) with
      | some (n, e) => (.error e, s.writeRows (throughBranches env endpoint req s n))
      | none => (.ok (), s.writeRows (throughEnd env endpoint req s)) := by
  have hloop := forEachFrom_rows (setBranch_eq env endpoint req) req.branches s
    (throughLog env endpoint req s)
  unfold pushBranches
  cases hfail : Program.firstFailure (branchRefusal env endpoint req) (writeRow (branchRow req)) 0
      req.branches (s.writeRows (throughLog env endpoint req s)) with
  | some p =>
    rw [hfail] at hloop
    exact Program.bind_of_error hloop
  | none =>
    rw [hfail] at hloop
    rw [Program.bind_of_ok hloop]
    exact logOperations_run env 0 req.branches s _

theorem pushPatches_run :
    pushPatches env req (s.writeRows (throughBlobs env endpoint req s req.blobs.length)) =
      match if req.patches = [] then none else faultOf env .insertPatches .storage with
      | some e => (.error e, s.writeRows (throughBlobs env endpoint req s req.blobs.length))
      | none => (.ok (HubStorage.insertPatches
          (s.writeRows (throughBlobs env endpoint req s req.blobs.length)).storage
          req.repoId req.patches).1, s.writeRows (throughLog env endpoint req s)) := by
  have hinsert := insertPatchesBatch_run env req
    (s.writeRows (throughBlobs env endpoint req s req.blobs.length))
  unfold pushPatches
  cases hfault : (if req.patches = [] then none else faultOf env .insertPatches .storage) with
  | some e =>
    rw [hfault] at hinsert
    exact Program.bind_of_error hinsert
  | none =>
    rw [hfault, ← Server.writeRows_append] at hinsert
    rw [Program.bind_of_ok hinsert]
    exact Program.bind_of_ok (logOperations_run env 0 req.patches s _)

/-- A push writes the rows up to where it stops. -/
theorem handle_run : handle env endpoint req s = ((outcome env endpoint req s).2,
    s.writeRows (rowsUpTo env endpoint req s (outcome env endpoint req s).1)) := by
  have hauth := authenticateAt_run env endpoint req s
  have hensure := ensureRepo_run env req s
  have hdeltas := storeDeltas_run env req s
  have hblobs := storeBlobs_run env endpoint req s
  have hpatches := pushPatches_run env endpoint req s
  have hbranches := pushBranches_run env endpoint req s
  unfold handle outcome
  cases hok : (authenticateAt env endpoint req s).1 with
  | error e =>
    rw [hok] at hauth
    rw [Program.bind_of_error hauth]
    exact Prod.ext rfl s.writeRows_empty.symm
  | ok _ =>
    rw [hok] at hauth
    rw [Program.bind_of_ok hauth]
    cases hfault : faultOf env .ensureRepo .storage with
    | some e =>
      rw [hfault] at hensure
      rw [Program.bind_of_error hensure]
      exact Prod.ext rfl s.writeRows_empty.symm
    | none =>
      rw [hfault] at hensure
      rw [Program.bind_of_ok hensure]
      cases hdelta : Program.firstFailure (deltaRefusal env req.repoId)
          (writeRow (deltaRow env req.repoId)) 0 req.deltas (s.writeRows (repoRow req)) with
      | some p =>
        rw [hdelta] at hdeltas
        exact Program.bind_of_error hdeltas
      | none =>
        rw [hdelta] at hdeltas
        rw [Program.bind_of_ok hdeltas]
        cases hblob : Program.firstFailure (blobCheck env) (writeRow (blobRow env endpoint req)) 0
            req.blobs (s.writeRows (throughDeltas env req s req.deltas.length)) with
        | some p =>
          rw [hblob] at hblobs
          exact Program.bind_of_error hblobs
        | none =>
          rw [hblob] at hblobs
          rw [Program.bind_of_ok hblobs]
          cases hpatch : (if req.patches = [] then none
              else faultOf env .insertPatches .storage) with
          | some e =>
            rw [hpatch] at hpatches
            exact Program.bind_of_error hpatches
          | none =>
            rw [hpatch] at hpatches
            rw [Program.bind_of_ok hpatches]
            cases hbranch : Program.firstFailure (branchRefusal env endpoint req)
                (writeRow (branchRow req)) 0 req.branches
                (s.writeRows (throughLog env endpoint req s)) with
            | some p =>
              rw [hbranch] at hbranches
              exact Program.bind_of_error hbranches
            | none =>
              rw [hbranch] at hbranches
              exact Program.bind_of_ok hbranches

/-! ### The branches that are set -/

/-- How many branches are set before the stop. -/
def setCount (req : PushRequestV2) : Stop → Nat
  | .branch n => n
  | .done => req.branches.length
  | _ => 0

def branchTargets (req : PushRequestV2) (branches : List BranchProto) : List (Key × String) :=
  branches.map fun b => (key req.repoId b.name, b.targetId.value)

theorem collect_branchRow (k : Nat) (branches : List BranchProto) (t : Server) :
    (collect (branchRow req) k branches t).branches = branchTargets req branches := by
  induction branches generalizing k t with
  | nil => rfl
  | cons branch branches ih =>
    change (branchRow req k branch t).branches ++ (collect (branchRow req) (k + 1) branches _).branches = _
    rw [ih]
    rfl

theorem logRow_branches (call : Call) (entry : ReplicationEntry) :
    (logRow env call entry).branches = [] := by
  unfold logRow
  split <;> rfl

theorem patchLogRow_branches (k : Nat) (patch : PatchProto) (t : Server) :
    (patchLogRow env k patch t).branches = [] := logRow_branches env _ _

theorem branchLogRow_branches (k : Nat) (branch : BranchProto) (t : Server) :
    (branchLogRow env req k branch t).branches = [] := logRow_branches env _ _

theorem deltaRow_branches (k : Nat) (delta : BlobDelta) (t : Server) :
    (deltaRow env req.repoId k delta t).branches = [] := by
  unfold deltaRow
  split <;> rfl

theorem blobRow_branches (k : Nat) (blob : BlobRef) (t : Server) :
    (blobRow env endpoint req k blob t).branches = [] := by
  unfold blobRow
  split <;> rfl

theorem throughBlobs_branches (n : Nat) : (throughBlobs env endpoint req s n).branches = [] := by
  change ([] ++ (collect (deltaRow env req.repoId) 0 _ _).branches) ++
    (collect (blobRow env endpoint req) 0 _ _).branches = []
  rw [collect_part Rows.branches (fun _ _ => rfl) rfl (deltaRow_branches env req),
    collect_part Rows.branches (fun _ _ => rfl) rfl (blobRow_branches env endpoint req)]
  rfl

theorem throughLog_branches : (throughLog env endpoint req s).branches = [] := by
  change ((throughBlobs env endpoint req s req.blobs.length).branches ++ []) ++
    (collect (patchLogRow env) 0 _ _).branches = []
  rw [throughBlobs_branches, collect_part Rows.branches (fun _ _ => rfl) rfl (patchLogRow_branches env)]
  rfl

theorem throughBranches_branches (n : Nat) :
    (throughBranches env endpoint req s n).branches = branchTargets req (req.branches.take n) := by
  change (throughLog env endpoint req s).branches ++ (collect (branchRow req) 0 _ _).branches = _
  rw [throughLog_branches, collect_branchRow, List.nil_append]

theorem rowsUpTo_branches (stop : Stop) : (rowsUpTo env endpoint req s stop).branches =
    branchTargets req (req.branches.take (setCount req stop)) := by
  cases stop with
  | refused => rfl
  | delta n =>
    change [] ++ (collect (deltaRow env req.repoId) 0 _ _).branches = _
    rw [collect_part Rows.branches (fun _ _ => rfl) rfl (deltaRow_branches env req)]
    rfl
  | blob n => exact throughBlobs_branches env endpoint req s n
  | patches => exact throughBlobs_branches env endpoint req s _
  | branch n => exact throughBranches_branches env endpoint req s n
  | done =>
    change (throughBranches env endpoint req s req.branches.length).branches ++
      (collect (branchLogRow env req) 0 _ _).branches = _
    rw [throughBranches_branches, collect_part Rows.branches (fun _ _ => rfl) rfl
      (branchLogRow_branches env req), List.append_nil]
    rfl

/-- A push sets the branches before its stop, and no other row of a branch. -/
theorem handle_branches : (handle env endpoint req s).2.storage.branches =
    s.storage.branches.putRows (branchTargets req
      (req.branches.take (setCount req (outcome env endpoint req s).1))) := by
  rw [handle_run, ← rowsUpTo_branches]
  rfl

end Whole
end Suture.Wire
