import Mathlib.Data.Prod.Lex
import Mathlib.Data.String.Basic
import Suture.Foundation.Steps
import Suture.Hub.Storage
import Suture.Wire.Signing

/-!
# The hub server

The tables of the hub that a push reads and writes, and the three handlers of pushes. A
handler holds the lock of the store from its first row to its last. Base64, the delta
format and Ed25519 are parameters; so is which calls of the database fail.
-/

namespace Suture.Wire
set_option autoImplicit false
open Foundation

/-- A repository and a name in it. -/
abbrev Key := String ×ₗ String

def key (repoId name : String) : Key := toLex (repoId, name)

structure BlobMetadata where
  repoId : String
  size : Nat
  isText : Bool
  path : Option String
deriving DecidableEq, Repr

structure ReplicationEntry where
  operation : String
  tableName : String
  rowId : String
  data : Option String
  timestamp : Nat
deriving DecidableEq, Repr

structure HubStorage where
  repos : SortedSet String
  patches : SortedMap Key PatchProto
  branches : SortedMap Key String
  blobs : SortedMap Key Bytes
  branchProtection : SortedSet Key
  authorizedKeys : SortedMap String Bytes
  tokens : SortedSet String
  blobMetadata : SortedMap String BlobMetadata
  blobTrigrams : SortedMap Key String
  replicationLog : List ReplicationEntry
  maxBlobSize : Nat
deriving DecidableEq

/-- With a blob backend the blobs are there, and not in the database. -/
structure Server where
  storage : HubStorage
  blobBackend : Option (SortedMap Key Bytes)
  noAuth : Bool
deriving DecidableEq

/-- The calls of the database that may fail; items of a list by their position. -/
inductive Call where
  | hasAuthorizedKeys
  | hasTokens
  | ensureRepo
  | getDeltaBase (k : Nat)
  | storeDelta (k : Nat)
  | storeBlob (k : Nat)
  | indexBlob (k statement : Nat)
  | insertPatches
  | logPatch (k : Nat)
  | getBranchTarget (k : Nat)
  | isAncestor (k : Nat)
  | isBranchProtected (k : Nat)
  | setBranch (k : Nat)
  | logBranch (k : Nat)
  | syncBlob (k : Nat)
  | syncPatches
  | syncBranch (k : Nat)
deriving DecidableEq, Repr

structure Env where
  base64Decode : String → Except String Bytes
  applyDelta : Bytes → Bytes → Bytes
  scheme : SignatureScheme
  authors : List String → List String
  now : Nat
  fault : Call → Option String

/-! ### Requests and answers -/

inductive DeltaEncoding where
  | binaryPatch
  | fullBlob
deriving DecidableEq, Repr

structure BlobDelta where
  baseHash : HashProto
  targetHash : HashProto
  encoding : DeltaEncoding
  deltaData : String
deriving DecidableEq, Repr

structure PushRequestV2 where
  repoId : String
  patches : List PatchProto
  branches : List BranchProto
  blobs : List BlobRef
  deltas : List BlobDelta
  signature : Option Bytes
  knownBranches : Option (List BranchProto)
  force : Bool
deriving DecidableEq, Repr

structure BatchPatchRequest where
  repoId : String
  patches : List PatchProto
  branches : List BranchProto
  blobs : List BlobRef
  signature : Option Bytes
  force : Bool
deriving DecidableEq, Repr

inductive StatusCode where
  | badRequest
  | forbidden
  | conflict
  | internalServerError
deriving DecidableEq, Repr

inductive HubErrorCode where
  | authFailed
  | conflict
  | insufficientPermissions
  | internalError
deriving DecidableEq, Repr

structure Refusal where
  status : StatusCode
  error : String
  errorCode : HubErrorCode
deriving DecidableEq, Repr

namespace Refusal

def storage (e : String) : Refusal := ⟨.internalServerError, "storage error: " ++ e, .internalError⟩

def deltaStorage (e : String) : Refusal :=
  ⟨.internalServerError, "storage error reconstructing delta blob: " ++ e, .internalError⟩

def badBlob (e : String) : Refusal := ⟨.badRequest, "invalid base64 in blob: " ++ e, .internalError⟩

def badDelta (e : String) : Refusal :=
  ⟨.badRequest, "invalid base64 in delta blob: " ++ e, .internalError⟩

def nonFastForward (branch : String) : Refusal :=
  ⟨.conflict, "branch '" ++ branch ++ "' rejected: non-fast-forward push (use --force to override)",
    .conflict⟩

def protectedBranch (branch : String) : Refusal :=
  ⟨.forbidden, "branch '" ++ branch ++ "' is protected and can only be updated by its owner",
    .insufficientPermissions⟩

def badSignature (e : String) : Refusal :=
  ⟨.forbidden, "authentication failed: " ++ e, .authFailed⟩

def noSignature : Refusal :=
  ⟨.forbidden, "authentication required: no signature provided", .authFailed⟩

def keysUnknown : Refusal := ⟨.internalServerError, "database error", .internalError⟩

end Refusal

/-! ### The store -/

/-- A search in batches; it gives up when more than 100 000 patches have been visited. -/
def isAncestorBatched (parentsOf : String → List String) (ancestor : String)
    (visited : SortedSet String) (frontier : List String) : Bool :=
  let fresh := (SortedSet.ofList frontier).elems.filter fun id => decide (id ∉ visited)
  if _hfresh : fresh = [] then false
  else
    let parents := fresh.flatMap parentsOf
    let visited' := fresh.foldl (fun s a => s.insert a) visited
    if ancestor ∈ parents then true
    else if _hlimit : visited'.elems.length > 100000 then false
    else
      isAncestorBatched parentsOf ancestor visited' (parents.filter fun id => decide (id ∉ visited'))
termination_by 100001 - visited.elems.length
decreasing_by
  have hnodup : fresh.Nodup := (SortedSet.nodup _).filter _
  have hlength := Hub.length_foldl_insert hnodup (s := visited) fun a ha =>
    of_decide_eq_true (List.mem_filter.mp ha).2
  have hpos := List.length_pos_of_ne_nil _hfresh
  simp only [visited', fresh] at *
  omega

namespace HubStorage

def parentIdsOf (store : HubStorage) (repoId id : String) : List String :=
  ((store.patches.get (key repoId id)).map fun p => p.parentIds.map HashProto.value).getD []

def isAncestor (store : HubStorage) (repoId ancestorId descendantId : String) : Bool :=
  ancestorId = descendantId ||
    isAncestorBatched (store.parentIdsOf repoId) ancestorId .empty [descendantId]

/-- Rows that are there stay; returns the ids that were there. -/
def insertPatches (store : HubStorage) (repoId : String) : List PatchProto → List HashProto × HubStorage
  | [] => ([], store)
  | patch :: rest =>
    if store.patches.contains (key repoId patch.id.value) then
      let (existing, store) := store.insertPatches repoId rest
      (patch.id :: existing, store)
    else
      insertPatches { store with patches := store.patches.insert (key repoId patch.id.value) patch }
        repoId rest

def log (store : HubStorage) (entry : ReplicationEntry) : HubStorage :=
  { store with replicationLog := store.replicationLog ++ [entry] }

end HubStorage

/-- The windows of three bytes of a text. -/
def windows : Bytes → List String
  | a :: b :: c :: rest =>
    String.ofList ([a, b, c].map fun x => Char.ofNat x.toNat) :: windows (b :: c :: rest)
  | _ => []

/-- The rows that index a blob, in the order in which they are written. -/
inductive IndexRow where
  | metadata (hash : String) (row : BlobMetadata)
  | trigram (trigram hash repoId : String)
deriving DecidableEq, Repr

def indexRows (repoId hash : String) (data : Bytes) (path : Option String) : List IndexRow :=
  let isText := data.all fun b => b < 128
  .metadata hash ⟨repoId, data.length, isText, path⟩ ::
    if isText then (windows data).eraseDups.map fun t => .trigram t hash repoId else []

namespace Server

def setStorage (s : Server) (f : HubStorage → HubStorage) : Server := { s with storage := f s.storage }

def writeIndexRow (s : Server) : IndexRow → Server
  | .metadata hash row =>
    s.setStorage fun store => { store with blobMetadata := store.blobMetadata.insert hash row }
  | .trigram trigram hash repoId =>
    if s.storage.blobTrigrams.contains (key trigram hash) then s
    else s.setStorage fun store =>
      { store with blobTrigrams := store.blobTrigrams.insert (key trigram hash) repoId }

def blobTable (s : Server) : SortedMap Key Bytes := s.blobBackend.getD s.storage.blobs

def putBlob (s : Server) (repoId hash : String) (data : Bytes) : Server :=
  match s.blobBackend with
  | none => s.setStorage fun store => { store with blobs := store.blobs.insert (key repoId hash) data }
  | some blobs => { s with blobBackend := some (blobs.insert (key repoId hash) data) }

end Server

/-! ### Pushes -/

abbrev Handler (α : Type) := Program Server Refusal α

/-- What the three handlers do differently. -/
structure Endpoint where
  authenticated : Bool
  indexed : Bool
  forceProtected : Bool
deriving DecidableEq, Repr

variable (env : Env)

def faultOf (call : Call) (refusal : String → Refusal) : Option Refusal := (env.fault call).map refusal

/-- The database limits the size of a blob. -/
def blobRefusal (call : Call) (refusal : String → Refusal) (data : Bytes) (s : Server) :
    Option Refusal :=
  if s.blobBackend = none ∧ s.storage.maxBlobSize < data.length then
    some (refusal ("blob exceeds maximum allowed size of " ++ toString s.storage.maxBlobSize ++ " bytes"))
  else faultOf env call refusal

def blobStore (call : Call) (refusal : String → Refusal) (repoId hash : String) (data : Bytes) :
    Handler Unit :=
  .checkedWrite (blobRefusal env call refusal data) fun s => s.putBlob repoId hash data

def ensureRepo (repoId : String) : Handler Unit :=
  .checkedWrite (fun _ => faultOf env .ensureRepo .storage) fun s =>
    s.setStorage fun store => { store with repos := store.repos.insert repoId }

/-- The signature counts if there are keys; without one, there must be no keys and no tokens. -/
def authenticate (req : PushRequestV2) : Handler Unit := do
  let s ← .read
  let hasKeys := s.storage.authorizedKeys.entries ≠ []
  match req.signature with
  | some signature =>
    .require (env.fault .hasAuthorizedKeys = none) .keysUnknown
    if hasKeys then
      match verifyPushSignature env.scheme s.storage.authorizedKeys env.authors
          { repoId := req.repoId, patches := req.patches, branches := req.branches, blobs := req.blobs
            signature := req.signature, knownBranches := req.knownBranches, force := req.force }
          signature with
      | .error e => .fail (.badSignature e)
      | .ok _ => pure ()
  | none =>
    if !s.noAuth then
      .require (env.fault .hasAuthorizedKeys = none ∧ env.fault .hasTokens = none ∧ ¬ hasKeys ∧
        s.storage.tokens.elems = []) .noSignature

def storeDelta (repoId : String) (k : Nat) (delta : BlobDelta) : Handler Unit :=
  match delta.encoding with
  | .binaryPatch => do
    let s ← .read
    match env.fault (.getDeltaBase k), s.blobTable.get (key repoId delta.baseHash.value),
        env.base64Decode delta.deltaData with
    | none, some baseData, .ok deltaBytes =>
      blobStore env (.storeDelta k) .deltaStorage repoId delta.targetHash.value
        (env.applyDelta baseData deltaBytes)
    | _, _, _ => pure ()
  | .fullBlob =>
    match env.base64Decode delta.deltaData with
    | .error e => .fail (.badDelta e)
    | .ok data => blobStore env (.storeDelta k) .storage repoId delta.targetHash.value data

/-- Stops at the first row that cannot be written. -/
def indexBlob (k : Nat) (rows : List IndexRow) : Handler Unit :=
  .forEachFrom (fun j row =>
    .checkedWrite (fun _ => faultOf env (.indexBlob k j) .storage) fun s => s.writeIndexRow row) 0 rows

def storeBlob (endpoint : Endpoint) (req : PushRequestV2) (k : Nat) (blob : BlobRef) : Handler Unit :=
  match env.base64Decode blob.data with
  | .error e => .fail (.badBlob e)
  | .ok data => do
    blobStore env (.storeBlob k) .storage req.repoId blob.hash.value data
    if endpoint.indexed then
      let path := (req.patches.find? fun p => p.payload = blob.hash.value).bind PatchProto.targetPath
      let _ ← (indexBlob env k (indexRows req.repoId blob.hash.value data path)).attempt

/-- One transaction. -/
def insertPatchesBatchWithExisting (repoId : String) (patches : List PatchProto) :
    Handler (List HashProto) := fun s =>
  match faultOf env .insertPatches .storage with
  | some e => if patches = [] then (.ok [], s) else (.error e, s)
  | none =>
    let (existing, store) := s.storage.insertPatches repoId patches
    (.ok existing, { s with storage := store })

/-- An entry that cannot be written is left out. -/
def logOperation (call : Call) (entry : ReplicationEntry) : Handler Unit :=
  .modify fun s => if env.fault call = none then s.setStorage fun store => store.log entry else s

def isNonFastForward (req : PushRequestV2) (k : Nat) (branch : BranchProto) (store : HubStorage) :
    Bool :=
  !req.force &&
    match (req.knownBranches.getD []).find? fun kb => kb.name = branch.name with
    | none => false
    | some knownBranch =>
      knownBranch.targetId ≠ branch.targetId &&
        match env.fault (.getBranchTarget k), store.branches.get (key req.repoId branch.name) with
        | none, some currentTarget =>
          env.fault (.isAncestor k) = none &&
            !store.isAncestor req.repoId currentTarget branch.targetId.value
        | _, _ => false

def isProtected (req : PushRequestV2) (k : Nat) (branch : BranchProto) (store : HubStorage) : Bool :=
  env.fault (.isBranchProtected k) = none &&
    decide (key req.repoId branch.name ∈ store.branchProtection)

/-- All patches of the push are by the author that the branch is named after. -/
def isOwner (req : PushRequestV2) (branch : BranchProto) : Bool :=
  req.patches ≠ [] && req.patches.all fun p => p.author = branch.name

def branchRefusal (endpoint : Endpoint) (req : PushRequestV2) (k : Nat) (branch : BranchProto)
    (s : Server) : Option Refusal :=
  if isNonFastForward env req k branch s.storage then some (.nonFastForward branch.name)
  else if isProtected env req k branch s.storage ∧ isOwner req branch = false ∧
      ¬ (endpoint.forceProtected ∧ req.force) then
    some (.protectedBranch branch.name)
  else faultOf env (.setBranch k) .storage

def setBranch (endpoint : Endpoint) (req : PushRequestV2) (k : Nat) (branch : BranchProto) :
    Handler Unit :=
  .checkedWrite (branchRefusal env endpoint req k branch) fun s =>
    s.setStorage fun store =>
      { store with branches := store.branches.insert (key req.repoId branch.name) branch.targetId.value }

def authenticateAt (endpoint : Endpoint) (req : PushRequestV2) : Handler Unit :=
  if endpoint.authenticated then authenticate env req else pure ()

/-- The branches are set one after the other, and logged when all are set. -/
def pushBranches (endpoint : Endpoint) (req : PushRequestV2) : Handler Unit := do
  .forEachFrom (setBranch env endpoint req) 0 req.branches
  .forEachFrom (fun k branch => logOperation env (.logBranch k)
    ⟨"set", "branches", req.repoId ++ ":" ++ branch.name, some branch.targetId.value, env.now⟩)
    0 req.branches

def pushPatches (req : PushRequestV2) : Handler (List HashProto) := do
  let existing ← insertPatchesBatchWithExisting env req.repoId req.patches
  .forEachFrom (fun k patch => logOperation env (.logPatch k)
    ⟨"insert", "patches", patch.id.value, none, env.now⟩) 0 req.patches
  return existing

/-- What the three handlers have in common; returns the ids of the pushed patches that were
there. -/
def handle (endpoint : Endpoint) (req : PushRequestV2) : Handler (List HashProto) := do
  authenticateAt env endpoint req
  ensureRepo env req.repoId
  .forEachFrom (storeDelta env req.repoId) 0 req.deltas
  .forEachFrom (storeBlob env endpoint req) 0 req.blobs
  let existing ← pushPatches env req
  pushBranches env endpoint req
  return existing

namespace Endpoint

def push : Endpoint := ⟨true, true, false⟩
def pushV2 : Endpoint := ⟨true, false, false⟩
def batchPush : Endpoint := ⟨false, false, true⟩

end Endpoint

def PushRequest.toV2 (req : PushRequest) : PushRequestV2 where
  repoId := req.repoId
  patches := req.patches
  branches := req.branches
  blobs := req.blobs
  deltas := []
  signature := req.signature
  knownBranches := req.knownBranches
  force := req.force

def BatchPatchRequest.toV2 (req : BatchPatchRequest) : PushRequestV2 where
  repoId := req.repoId
  patches := req.patches
  branches := req.branches
  blobs := req.blobs
  deltas := []
  signature := req.signature
  knownBranches := none
  force := req.force

def handlePush (req : PushRequest) : Handler (List HashProto) := handle env .push req.toV2

def handlePushV2 (req : PushRequestV2) : Handler (List HashProto) := handle env .pushV2 req

def handleBatchPush (req : BatchPatchRequest) : Handler (List HashProto) :=
  handle env .batchPush req.toV2

/-! ### Mirrors -/

structure PullResponse where
  patches : List PatchProto
  branches : List BranchProto
  blobs : List BlobRef
deriving DecidableEq, Repr

/-- What cannot be stored is left out. -/
def syncBlob (localRepo : String) (k : Nat) (blob : BlobRef) (s : Server) : Server :=
  match env.base64Decode blob.data with
  | .error _ => s
  | .ok data =>
    match blobRefusal env (.syncBlob k) .storage data s with
    | some _ => s
    | none => s.putBlob localRepo blob.hash.value data

def syncPatches (localRepo : String) (patches : List PatchProto) (s : Server) : Server :=
  if env.fault .syncPatches = none then
    s.setStorage fun store => (store.insertPatches localRepo patches).2
  else s

def syncBranch (localRepo : String) (k : Nat) (branch : BranchProto) (s : Server) : Server :=
  if env.fault (.syncBranch k) = none then
    s.setStorage fun store =>
      { store with branches := store.branches.insert (key localRepo branch.name) branch.targetId.value }
  else s

/-- What a mirror takes from the answer of its upstream. -/
def handleMirrorSync (localRepo : String) (upstream : PullResponse) (s : Server) : Server :=
  let s := Program.writeAll (syncBlob env localRepo) 0 upstream.blobs s
  let s := syncPatches env localRepo upstream.patches s
  Program.writeAll (syncBranch env localRepo) 0 upstream.branches s

end Suture.Wire
