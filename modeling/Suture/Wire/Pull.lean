import Suture.Foundation.DepthFirst
import Suture.Wire.Base64
import Suture.Wire.Rejected
import Suture.Wire.Tables

/-!
# Pulls with their blobs

A pull returns the patches that the client does not have, and the blobs that they name. A
payload names a blob by the hash as hex text or in base64, or for a batch by a list of
changes. Pushes write blobs to the backend where there is one.
-/

namespace Suture.Wire
set_option autoImplicit false
open Foundation

/-! ### The patches of a pull -/

/-- The links from each patch to its parents, as far as they are kept. -/
def patchGraph (patches : List PatchProto) (keep : String → Bool) : Edges String where
  next id := ((patches.find? fun p => p.id.value = id).map fun p =>
    (p.parentIds.map HashProto.value).filter keep).getD []
  sources := patches.map fun p => p.id.value
  mem_sources := by
    intro id parent hparent
    cases hfind : patches.find? fun p => p.id.value = id with
    | none =>
      rw [hfind] at hparent
      cases hparent
    | some patch =>
      have hid := List.find?_some hfind
      rw [← of_decide_eq_true hid]
      exact List.mem_map.mpr ⟨patch, List.mem_of_find?_eq_some hfind, rfl⟩

/-- The known targets that are stored, and all below them. -/
def collectAncestors (allPatches : List PatchProto) (knownBranches : List BranchProto) :
    SortedSet String :=
  let stack := (knownBranches.map fun b => b.targetId.value).filter fun id =>
    allPatches.any fun p => p.id.value = id
  .ofList ((patchGraph allPatches fun _ => true).taken .empty stack.reverse)

/-- Depth-first, parents before children. -/
def visitPatch (patches : List PatchProto) : Nat → List String × List PatchProto → String →
    List String × List PatchProto
  | 0, state, _ => state
  | fuel + 1, (visited, order), id =>
    if id ∈ visited then (visited, order)
    else
      match patches.find? fun p => p.id.value = id with
      | none => (visited, order)
      | some patch =>
        let (visited, order) := (patch.parentIds.map HashProto.value).foldl
          (visitPatch patches fuel) (id :: visited, order)
        (visited, order ++ [patch])

def topologicalSort (patches : List PatchProto) : List PatchProto :=
  ((patches.map fun p => p.id.value).foldl (visitPatch patches patches.length) ([], [])).2

/-- The set of the second search is turned into a list in some order. -/
def collectNewPatches (arrange : List String → List String) (allPatches : List PatchProto)
    (clientAncestors : SortedSet String) : List PatchProto :=
  let stack := allPatches.map fun p => p.id.value
  let reachable := SortedSet.ofList
    ((patchGraph allPatches fun _ => true).taken .empty stack.reverse)
  let newIds := reachable.elems.filter fun id => decide (id ∉ clientAncestors)
  let seen := SortedSet.ofList
    ((patchGraph allPatches fun id => decide (id ∉ clientAncestors)).taken .empty newIds.reverse)
  topologicalSort ((arrange seen.elems).filterMap fun id =>
    allPatches.find? fun p => p.id.value = id)

/-! ### The blobs that patches name -/

/-- A number that is no `u64` is nothing. -/
abbrev ParsedJson := Driver.Value (Option UInt64)

/-- What is read of a payload by other libraries, and what deltas are made by. -/
structure PayloadLibrary where
  fromUtf8Lossy : Bytes → String
  fromStr : String → Option (List ParsedJson)
  computeDelta : Bytes → Bytes → Bytes

/-- The bytes of an array; items that are no numbers are passed over. -/
def arrayBytes (items : List ParsedJson) : Bytes :=
  items.filterMap fun
    | .scalar (.number n) => n.map UInt64.toUInt8
    | _ => none

/-- The text in the payload of a change. -/
def changeText (change : ParsedJson) : Option String :=
  match change with
  | .object entries =>
    match (entries.find? fun e => decide (e.1 = "payload")).map Prod.snd with
    | some (.array items) => String.fromUTF8? ⟨(arrayBytes items).toArray⟩
    | _ => none
  | _ => none

section Named
variable (lib : PayloadLibrary)

/-- The hashes that the hub reads off a patch. -/
def hashesOf (patch : PatchProto) : List String :=
  if patch.operationType = "batch" then
    match base64Decode patch.payload with
    | none => []
    | some decoded =>
      match lib.fromStr (lib.fromUtf8Lossy decoded) with
      | none => []
      | some changes => changes.filterMap changeText
  else if patch.payload = "" then []
  else if patch.payload.toList.all isHexDigit then [patch.payload]
  else
    match base64Decode patch.payload with
    | some decoded => [lib.fromUtf8Lossy decoded]
    | none => [patch.payload]

def neededHashes (patches : List PatchProto) : SortedSet String :=
  .ofList (patches.flatMap (hashesOf lib))

end Named

/-! ### The handlers -/

structure PullRequest where
  repoId : String
  knownBranches : List BranchProto
  maxDepth : Option UInt32
deriving DecidableEq, Repr

structure ClientCapabilities where
  supportsDelta : Bool
  supportsCompression : Bool
  maxBlobSize : UInt64
deriving DecidableEq, Repr

structure PullRequestV2 where
  repoId : String
  knownBranches : List BranchProto
  maxDepth : Option UInt32
  knownBlobHashes : List HashProto
  capabilities : ClientCapabilities
deriving DecidableEq, Repr

structure PullResponseV2 where
  patches : List PatchProto
  branches : List BranchProto
  blobs : List BlobRef
  deltas : List BlobDelta
deriving DecidableEq, Repr

inductive PullError where
  | repoNotFound (repoId : String)
deriving DecidableEq, Repr

def PullError.text : PullError → String
  | .repoNotFound repoId => "repo not found: " ++ repoId

namespace HubStorage
variable (store : HubStorage)

def getAllPatchesUnbounded (repoId : String) : List PatchProto :=
  ((rowsOf store.patches repoId).map Prod.snd).insertionSort fun a b => earlier a b

def getBranches (repoId : String) : List BranchProto :=
  (rowsOf store.branches repoId).map fun row => ⟨row.1, ⟨row.2⟩⟩

/-- A blob above the bound is sent without its data. -/
def blobRef (row : String × Bytes) : BlobRef :=
  if row.2.length > store.maxBlobSize then ⟨⟨row.1⟩, "", true⟩
  else ⟨⟨row.1⟩, base64Encode row.2, false⟩

/-- The blobs as a query: the repository and each hash are variables of it. -/
def getBlobs (maxVariables : Nat) (repoId : String) (hashes : List String) :
    Except DatabaseError (List BlobRef) :=
  if hashes = [] then .ok []
  else if maxVariables < hashes.length + 1 then .error .tooManyVariables
  else .ok (((rowsOf store.blobs repoId).filter fun row => decide (row.1 ∈ hashes)).map
    store.blobRef)

end HubStorage

namespace Server
variable (lib : PayloadLibrary) (maxVariables : Nat) (arrange : List String → List String)
  (s : Server)

def blobGet (repoId hash : String) : Option Bytes := s.blobTable.get (key repoId hash)

/-- The patches that are new to the client, at most so many of them. -/
def newPatches (repoId : String) (knownBranches : List BranchProto) (maxDepth : Option UInt32) :
    List PatchProto :=
  let allPatches := s.storage.getAllPatchesUnbounded repoId
  let new := collectNewPatches arrange allPatches (collectAncestors allPatches knownBranches)
  match maxDepth with
  | some depth => new.take depth.toNat
  | none => new

/-- A query that fails is as one that finds no blobs. -/
def blobsOf (repoId : String) (patches : List PatchProto) : List BlobRef :=
  match s.storage.getBlobs maxVariables repoId (neededHashes lib patches).elems with
  | .ok blobs => blobs
  | .error _ => []

def handlePull (req : PullRequest) : Except PullError PullResponse :=
  if req.repoId ∈ s.storage.repos then
    let patches := s.newPatches arrange req.repoId req.knownBranches req.maxDepth
    .ok {
      patches := patches
      branches := s.storage.getBranches req.repoId
      blobs := s.blobsOf lib maxVariables req.repoId patches }
  else .error (.repoNotFound req.repoId)

/-- What a client that takes deltas is sent for one hash. -/
def deltaStep (repoId : String) (known : List String) (sent : List BlobRef × List BlobDelta)
    (hash : String) : List BlobRef × List BlobDelta :=
  match s.blobGet repoId hash with
  | none =>
    match s.storage.getBlobs maxVariables repoId [hash] with
    | .ok (blob :: _) => (sent.1 ++ [blob], sent.2)
    | _ => sent
  | some target =>
    if hash ∈ known then
      match s.blobGet repoId hash with
      | none => (sent.1 ++ [⟨⟨hash⟩, base64Encode target, false⟩], sent.2)
      | some base =>
        if base = target then sent
        else
          let delta := lib.computeDelta base target
          if delta.length < target.length then
            (sent.1, sent.2 ++ [⟨⟨hash⟩, ⟨hash⟩, .binaryPatch, base64Encode delta⟩])
          else (sent.1 ++ [⟨⟨hash⟩, base64Encode target, false⟩], sent.2)
    else (sent.1 ++ [⟨⟨hash⟩, base64Encode target, false⟩], sent.2)

def handlePullV2 (req : PullRequestV2) : Except PullError PullResponseV2 :=
  if req.repoId ∈ s.storage.repos then
    let patches := s.newPatches arrange req.repoId req.knownBranches req.maxDepth
    let (blobs, deltas) :=
      if req.capabilities.supportsDelta then
        (neededHashes lib patches).elems.foldl
          (s.deltaStep lib maxVariables req.repoId (req.knownBlobHashes.map HashProto.value)) ([], [])
      else (s.blobsOf lib maxVariables req.repoId patches, [])
    .ok {
      patches := patches
      branches := s.storage.getBranches req.repoId
      blobs := blobs
      deltas := deltas }
  else .error (.repoNotFound req.repoId)

end Server

/-! ### Blobs that arrive -/

section Names
variable (lib : PayloadLibrary) (patch : PatchProto)

/-- The patch names the blob, in one of the ways in which payloads are written. -/
inductive Names : String → Prop where
  | hex (hop : patch.operationType ≠ "batch") (hsome : patch.payload ≠ "")
    (hdigits : patch.payload.toList.all isHexDigit = true) : Names patch.payload
  | base64 {decoded : Bytes} (hop : patch.operationType ≠ "batch") (hsome : patch.payload ≠ "")
    (hdecode : base64Decode patch.payload = some decoded) : Names (lib.fromUtf8Lossy decoded)
  | plain (hop : patch.operationType ≠ "batch") (hsome : patch.payload ≠ "")
    (hdecode : base64Decode patch.payload = none) : Names patch.payload
  | change {decoded : Bytes} {changes : List ParsedJson} {change : ParsedJson} {hash : String}
    (hop : patch.operationType = "batch") (hdecode : base64Decode patch.payload = some decoded)
    (hparse : lib.fromStr (lib.fromUtf8Lossy decoded) = some changes) (hchange : change ∈ changes)
    (htext : changeText change = some hash) : Names hash

/-- The payload is hex digits other than the hash. -/
def OtherHex (hash : String) : Prop :=
  patch.operationType ≠ "batch" ∧ patch.payload.toList.all isHexDigit = true ∧ patch.payload ≠ hash

variable {lib patch} {hash : String}

/-- Hex digits are read as such, even where they are base64 too. -/
theorem mem_hashesOf : hash ∈ hashesOf lib patch ↔ Names lib patch hash ∧ ¬ OtherHex patch hash := by
  constructor
  · intro h
    unfold hashesOf at h
    split at h
    · rename_i hop
      refine ⟨?_, fun hother => hother.1 hop⟩
      split at h
      · cases h
      · rename_i decoded hdecode
        split at h
        · cases h
        · rename_i changes hparse
          obtain ⟨change, hchange, htext⟩ := List.mem_filterMap.mp h
          exact .change hop hdecode hparse hchange htext
    · rename_i hop
      split at h
      · cases h
      · rename_i hsome
        split at h
        · rename_i hdigits
          obtain rfl := List.mem_singleton.mp h
          exact ⟨.hex hop hsome hdigits, fun hother => hother.2.2 rfl⟩
        · rename_i hdigits
          refine ⟨?_, fun hother => hdigits hother.2.1⟩
          split at h
          · rename_i decoded hdecode
            obtain rfl := List.mem_singleton.mp h
            exact .base64 hop hsome hdecode
          · rename_i hdecode
            obtain rfl := List.mem_singleton.mp h
            exact .plain hop hsome hdecode
  · rintro ⟨hnames, hother⟩
    have hread : ∀ {h : String}, patch.operationType ≠ "batch" → ¬ OtherHex patch h →
        patch.payload.toList.all isHexDigit = true → patch.payload = h :=
      fun hop hother hdigits => by_contra fun hne => hother ⟨hop, hdigits, hne⟩
    unfold hashesOf
    cases hnames with
    | hex hop hsome hdigits =>
      rw [if_neg hop, if_neg hsome, if_pos hdigits]
      exact List.mem_singleton.mpr rfl
    | @base64 decoded hop hsome hdecode =>
      rw [if_neg hop, if_neg hsome, hdecode]
      split
      · rename_i hdigits
        exact List.mem_singleton.mpr (hread hop hother hdigits).symm
      · exact List.mem_singleton.mpr rfl
    | plain hop hsome hdecode =>
      rw [if_neg hop, if_neg hsome, hdecode]
      split <;> exact List.mem_singleton.mpr rfl
    | change hop hdecode hparse hchange htext =>
      rw [if_pos hop, hdecode]
      dsimp only
      rw [hparse]
      exact List.mem_filterMap.mpr ⟨_, hchange, htext⟩

end Names

section Arrival
variable {lib : PayloadLibrary} {maxVariables : Nat} {arrange : List String → List String}
  {s : Server} {repoId : String} {patches : List PatchProto} {hash : String} {data : Bytes}

theorem base64Encode_inj {data data' : Bytes} (h : base64Encode data = base64Encode data') :
    data = data' := by
  have hdecoded := congrArg base64Decode h
  rw [base64Decode_base64Encode, base64Decode_base64Encode] at hdecoded
  exact Option.some.inj hdecoded

/-- The blob is sent with its bytes. -/
def Sent (blobs : List BlobRef) (hash : String) (data : Bytes) : Prop :=
  ⟨⟨hash⟩, base64Encode data, false⟩ ∈ blobs

theorem sent_blobRef_iff {store : HubStorage} {hashes : List String} :
    Sent (((rowsOf store.blobs repoId).filter fun row => decide (row.1 ∈ hashes)).map store.blobRef)
        hash data ↔
      hash ∈ hashes ∧ store.blobs.get (key repoId hash) = some data ∧
        data.length ≤ store.maxBlobSize := by
  rw [Sent, List.mem_map]
  constructor
  · rintro ⟨⟨name, bytes⟩, hrow, hblob⟩
    obtain ⟨hrow, hin⟩ := List.mem_filter.mp hrow
    unfold HubStorage.blobRef at hblob
    split at hblob
    · cases congrArg BlobRef.truncated hblob
    · rename_i hsize
      obtain ⟨⟨rfl⟩, hdata, -⟩ := BlobRef.mk.inj hblob
      obtain rfl := base64Encode_inj hdata
      exact ⟨of_decide_eq_true hin, mem_rowsOf.mp hrow, Nat.le_of_not_lt hsize⟩
  · rintro ⟨hin, hrow, hsize⟩
    refine ⟨(hash, data), List.mem_filter.mpr ⟨mem_rowsOf.mpr hrow, decide_eq_true hin⟩, ?_⟩
    rw [HubStorage.blobRef, if_neg (Nat.not_lt.mpr hsize)]

/-- A push has stored the blob: where pushes store it now, or before there was a backend. -/
def Stored (s : Server) (repoId hash : String) (data : Bytes) : Prop :=
  s.blobGet repoId hash = some data ∨ s.storage.blobs.get (key repoId hash) = some data

/-- What it takes for a blob that is named to be sent: it is read off a patch, the database takes
the query, and the database has it, of a size that is sent. -/
structure Served (lib : PayloadLibrary) (maxVariables : Nat) (s : Server) (repoId : String)
    (patches : List PatchProto) (hash : String) (data : Bytes) : Prop where
  read : ∃ patch ∈ patches, Names lib patch hash ∧ ¬ OtherHex patch hash
  taken : (neededHashes lib patches).elems.length < maxVariables
  stored : s.storage.blobs.get (key repoId hash) = some data
  whole : data.length ≤ s.storage.maxBlobSize

theorem sent_blobsOf_iff :
    Sent (s.blobsOf lib maxVariables repoId patches) hash data ↔
      Served lib maxVariables s repoId patches hash data := by
  have hneeded : hash ∈ (neededHashes lib patches).elems ↔
      ∃ patch ∈ patches, Names lib patch hash ∧ ¬ OtherHex patch hash := by
    rw [← SortedSet.mem_def, neededHashes, SortedSet.mem_ofList, List.mem_flatMap]
    simp only [mem_hashesOf]
  unfold Server.blobsOf HubStorage.getBlobs
  constructor
  · intro hsent
    split at hsent
    · rename_i blobs hblobs
      split at hblobs
      · cases hblobs
        exact absurd hsent List.not_mem_nil
      · split at hblobs
        · cases hblobs
        · cases hblobs
          obtain ⟨hin, hrow, hsize⟩ := sent_blobRef_iff.mp hsent
          exact ⟨hneeded.mp hin, by omega, hrow, hsize⟩
    · exact absurd hsent List.not_mem_nil
  · intro hserved
    have hin := hneeded.mpr hserved.read
    have htaken := hserved.taken
    rw [if_neg (List.ne_nil_of_mem hin), if_neg (by omega)]
    exact sent_blobRef_iff.mpr ⟨hin, hserved.stored, hserved.whole⟩

/-- Which of the blobs that the patches of a pull name are sent with it. -/
theorem pulled_blobs_iff (lib : PayloadLibrary) (maxVariables : Nat)
    (arrange : List String → List String) (s : Server) :
    (∀ req response, s.handlePull lib maxVariables arrange req = .ok response →
      ∀ patch ∈ response.patches, ∀ hash data, Names lib patch hash →
        Stored s req.repoId hash data →
          (Sent response.blobs hash data ↔
            Served lib maxVariables s req.repoId response.patches hash data)) ∧
    ∀ req response, s.handlePullV2 lib maxVariables arrange req = .ok response →
      req.capabilities.supportsDelta = false →
        ∀ patch ∈ response.patches, ∀ hash data, Names lib patch hash →
          Stored s req.repoId hash data →
            (Sent response.blobs hash data ↔
              Served lib maxVariables s req.repoId response.patches hash data) := by
  constructor
  · intro req response h patch _ hash data _ _
    unfold Server.handlePull at h
    split at h
    · cases h
      exact sent_blobsOf_iff
    · cases h
  · intro req response h hdelta patch _ hash data _ _
    unfold Server.handlePullV2 at h
    split at h
    · rw [hdelta] at h
      cases h
      exact sent_blobsOf_iff
    · cases h

end Arrival

section Backend

def plainPayloads : PayloadLibrary where
  fromUtf8Lossy data := String.ofList (data.map fun b => Char.ofNat b.toNat)
  fromStr _ := none
  computeDelta _ target := target

def namedPatch : PatchProto := ⟨⟨"a"⟩, "create", [], none, "abc1", [], "ann", "", 0⟩

def oneBlob : PushRequest where
  repoId := "r"
  patches := [namedPatch]
  branches := [⟨"main", ⟨"a"⟩⟩]
  blobs := [⟨⟨"abc1"⟩, "text", false⟩]
  signature := none
  knownBranches := none
  force := false

/-- The hub after the push, with a backend or without. -/
def pushedHub (blobBackend : Option (SortedMap Key Bytes)) : Server :=
  (handlePush plainEnv oneBlob { guardedHub with
    storage := { guardedHub.storage with branchProtection := .empty }
    blobBackend := blobBackend }).2

theorem names_namedPatch : Names plainPayloads namedPatch "abc1" :=
  .hex (by decide) (by decide) (by decide)

theorem served_pushedHub :
    Served plainPayloads 32766 (pushedHub none) "r" [namedPatch] "abc1" (utf8 "text") where
  read := ⟨namedPatch, List.mem_singleton.mpr rfl, names_namedPatch, fun hother => hother.2.2 rfl⟩
  taken := by decide +kernel
  stored := by decide +kernel
  whole := by decide +kernel

theorem pulled_blobs_iff_pushedHub :
    (∃ response, (pushedHub none).handlePull plainPayloads 32766 id ⟨"r", [], none⟩ = .ok response ∧
        Sent response.blobs "abc1" (utf8 "text")) ∧
      ∃ response, (pushedHub none).handlePullV2 plainPayloads 32766 id
          ⟨"r", [], none, [], ⟨false, false, 0⟩⟩ = .ok response ∧
        Sent response.blobs "abc1" (utf8 "text") := by
  have hpull : (pushedHub none).handlePull plainPayloads 32766 id ⟨"r", [], none⟩ =
      .ok ⟨[namedPatch], oneBlob.branches, [⟨⟨"abc1"⟩, base64Encode (utf8 "text"), false⟩]⟩ := by
    decide +kernel
  have hpullV2 : (pushedHub none).handlePullV2 plainPayloads 32766 id
      ⟨"r", [], none, [], ⟨false, false, 0⟩⟩ =
        .ok ⟨[namedPatch], oneBlob.branches, [⟨⟨"abc1"⟩, base64Encode (utf8 "text"), false⟩], []⟩ := by
    decide +kernel
  obtain ⟨hv1, hv2⟩ := pulled_blobs_iff plainPayloads 32766 id (pushedHub none)
  have hmem : namedPatch ∈ [namedPatch] := List.mem_singleton.mpr rfl
  have hstored : Stored (pushedHub none) "r" "abc1" (utf8 "text") := .inl (by decide +kernel)
  exact ⟨⟨_, hpull, (hv1 _ _ hpull _ hmem _ _ names_namedPatch hstored).mpr served_pushedHub⟩,
    ⟨_, hpullV2, (hv2 _ _ hpullV2 rfl _ hmem _ _ names_namedPatch hstored).mpr served_pushedHub⟩⟩

/-- With a backend the pull does not find what the push stored. -/
theorem backend_blob_not_sent : ¬ ∀ (s : Server) (req : PullRequest) (response : PullResponse),
    s.handlePull plainPayloads 32766 id req = .ok response →
      ∀ patch ∈ response.patches, ∀ hash data, Names plainPayloads patch hash →
        Stored s req.repoId hash data → Sent response.blobs hash data := by
  intro h
  have hpull : (pushedHub (some .empty)).handlePull plainPayloads 32766 id ⟨"r", [], none⟩ =
      .ok ⟨[namedPatch], oneBlob.branches, []⟩ := by
    decide +kernel
  have hsent := h _ _ _ hpull namedPatch (List.mem_singleton.mpr rfl) "abc1" (utf8 "text")
    names_namedPatch (.inl (by decide +kernel))
  exact absurd hsent List.not_mem_nil

end Backend
end Suture.Wire
