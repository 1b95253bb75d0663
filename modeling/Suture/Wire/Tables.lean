import Suture.Wire.Server
import Suture.Wire.Tree

/-!
# The tables of the hub

The tables behind the hub's reads, and these reads. Where the query asks for no order, the
rows come in the order of their keys.
-/

namespace Suture.Wire
set_option autoImplicit false
open Foundation

/-! ### Rows -/

/-- The touch set and the parents are JSON, as they are in the row. -/
structure PatchRow where
  operationType : String
  touchSet : Json
  targetPath : Option String
  payload : String
  parentIds : Json
  author : String
  message : String
  timestamp : Int64
deriving DecidableEq

def PatchRow.ofProto (patch : PatchProto) : PatchRow where
  operationType := patch.operationType
  touchSet := Transfer.string.list.write patch.touchSet
  targetPath := patch.targetPath
  payload := patch.payload
  parentIds := Transfer.string.list.write (patch.parentIds.map HashProto.value)
  author := patch.author
  message := patch.message
  timestamp := patch.timestamp.toInt64

/-- A list that cannot be parsed is empty. -/
def PatchRow.toProto (patchId : String) (row : PatchRow) : PatchProto where
  id := ⟨patchId⟩
  operationType := row.operationType
  touchSet := (Transfer.string.list.read row.touchSet).getD []
  targetPath := row.targetPath
  payload := row.payload
  parentIds := ((Transfer.string.list.read row.parentIds).getD []).map HashProto.mk
  author := row.author
  message := row.message
  timestamp := row.timestamp.toUInt64

@[simp] theorem PatchRow.toProto_ofProto (patch : PatchProto) :
    (PatchRow.ofProto patch).toProto patch.id.value = patch := by
  unfold ofProto toProto
  simp only [Transfer.read_write, Transfer.list_image, Transfer.string_image, Option.getD_some,
    List.map_id, List.map_map, UInt64.toUInt64_toInt64]
  have hparents : patch.parentIds.map (HashProto.mk ∘ id ∘ HashProto.value) = patch.parentIds :=
    List.map_id _
  rw [hparents]

structure KeyRow where
  rowid : Int
  publicKey : Bytes
  addedAt : String
deriving DecidableEq, Repr

structure TokenRow where
  createdAt : Int
  description : Option String
  expiresAt : Int
  scopes : String
deriving DecidableEq, Repr

structure UserRow where
  displayName : String
  role : String
  apiToken : Option String
  createdAt : Int
deriving DecidableEq, Repr

structure IssueRow where
  repoId : String
  title : String
  body : String
  status : String
  author : String
  assignee : Option String
  labels : List String
  createdAt : Int
  updatedAt : Int
  closedAt : Option Int
deriving DecidableEq, Repr

structure IssueCommentRow where
  issueId : Int
  author : String
  body : String
  createdAt : Int
deriving DecidableEq, Repr

structure PullRequestRow where
  repoId : String
  title : String
  body : String
  status : String
  author : String
  sourceBranch : String
  targetBranch : String
  createdAt : Int
  updatedAt : Int
  mergedAt : Option Int
  mergedBy : Option String
deriving DecidableEq, Repr

structure PrReviewRow where
  prId : Int
  reviewer : String
  verdict : String
  body : String
  createdAt : Int
deriving DecidableEq, Repr

structure WebhookRow where
  repoId : String
  url : String
  events : List String
  secret : Option String
  createdAt : UInt64
  active : Bool
deriving DecidableEq, Repr

structure WikiPageRow where
  repoId : String
  title : String
  content : String
  author : String
  updatedAt : Int
deriving DecidableEq, Repr

structure WikiHistoryRow where
  pageId : Int
  content : String
  author : String
  editedAt : Int
deriving DecidableEq, Repr

structure ReleaseRow where
  repoId : String
  tag : String
  title : String
  body : String
  author : String
  prerelease : Bool
  createdAt : Int
deriving DecidableEq, Repr

/-- A repository has its visibility, a file of the index its path. -/
structure Database where
  repos : SortedMap String String
  patches : SortedMap Key PatchRow
  branches : SortedMap Key String
  blobs : SortedMap Key Bytes
  branchProtection : SortedSet Key
  authorizedKeys : SortedMap String KeyRow
  tokens : SortedMap String TokenRow
  users : SortedMap String UserRow
  issues : SortedMap Int IssueRow
  issueComments : SortedMap Int IssueCommentRow
  pullRequests : SortedMap Int PullRequestRow
  prReviews : SortedMap Int PrReviewRow
  webhooks : SortedMap String WebhookRow
  wikiPages : SortedMap Int WikiPageRow
  wikiHistory : SortedMap Int WikiHistoryRow
  releases : SortedMap Int ReleaseRow
  blobTrigrams : SortedMap Key String
  blobMetadata : SortedMap String (Option String)
deriving DecidableEq

structure Limits where
  maxBlobSize : Nat
  maxPageSize : Nat
deriving DecidableEq, Repr

/-- What the reads take from other libraries. -/
structure Library where
  sha256 : Bytes → Bytes
  base64Decode : String → Option Bytes
  fromUtf8Lossy : Bytes → String
  splitWhitespace : String → List String
  trimLowercase : String → String
  like : String → String → Bool

inductive StorageError where
  | webhookNotFound (id : String)
  | blobTooLarge (maxBlobSize : Nat)
deriving DecidableEq, Repr

/-- What the database itself refuses. -/
inductive DatabaseError where
  | tooManyVariables
  | datatypeMismatch
  | foreignKeyViolated
deriving DecidableEq, Repr

def StorageError.text : StorageError → String
  | .webhookNotFound id => "webhook not found: " ++ id
  | .blobTooLarge limit =>
    "blob exceeds maximum allowed size of " ++ toString limit ++ " bytes"

/-! ### Queries -/

section Queries
variable {α : Type}

/-- The rows of a repository, in the order of their names. -/
def rowsOf (table : SortedMap Key α) (repoId : String) : List (String × α) :=
  (table.entries.filter fun e => (ofLex e.1).1 = repoId).map fun e => ((ofLex e.1).2, e.2)

theorem mem_rowsOf {table : SortedMap Key α} {repoId name : String} {row : α} :
    (name, row) ∈ rowsOf table repoId ↔ table.get (key repoId name) = some row := by
  unfold rowsOf
  rw [← SortedMap.mem_entries, List.mem_map]
  constructor
  · rintro ⟨⟨k, v⟩, he, heq⟩
    obtain ⟨he, hrepo⟩ := List.mem_filter.mp he
    cases heq
    rw [← of_decide_eq_true hrepo]
    exact he
  · intro h
    exact ⟨(key repoId name, row), List.mem_filter.mpr ⟨h, decide_eq_true rfl⟩, rfl⟩

variable {κ : Type} [LinearOrder κ]

def select (table : SortedMap κ α) (keep : α → Bool) : List (κ × α) :=
  table.entries.filter fun e => keep e.2

def newestFirst (time : α → Int) (rows : List (κ × α)) : List (κ × α) :=
  rows.insertionSort fun a b => time b.2 ≤ time a.2

def oldestFirst (time : α → Int) (rows : List (κ × α)) : List (κ × α) :=
  rows.insertionSort fun a b => time a.2 ≤ time b.2

end Queries

def lowerHex (data : Bytes) : String :=
  String.ofList (data.flatMap fun b => [Nat.digitChar (b.toNat / 16), Nat.digitChar (b.toNat % 16)])

def isHexDigit (c : Char) : Bool :=
  c.isDigit || ('a' ≤ c && c ≤ 'f') || ('A' ≤ c && c ≤ 'F')

/-- The windows of three bytes that are text. -/
def trigramsOf : Bytes → List String
  | a :: b :: c :: rest => (String.fromUTF8? ⟨#[a, b, c]⟩).toList ++ trigramsOf (b :: c :: rest)
  | _ => []

structure SshKeyInfo where
  id : Int
  username : String
  publicKey : String
  fingerprint : String
  createdAt : Int
deriving DecidableEq, Repr

structure CodeSearchResult where
  blobHash : String
  repoId : String
  path : Option String
  matchCount : Nat
  snippet : String
deriving DecidableEq, Repr

/-- By the time that the row has, then by id. -/
def earlier (a b : PatchProto) : Bool :=
  a.timestamp.toInt64 < b.timestamp.toInt64 ||
    (a.timestamp = b.timestamp && a.id.value ≤ b.id.value)

def computeSshFingerprint (lib : Library) (publicKey : String) : String :=
  match lib.splitWhitespace publicKey with
  | _ :: part :: _ =>
    match lib.base64Decode part with
    | some bytes => "SHA256:" ++ base64Encode (lib.sha256 bytes)
    | none => "unknown"
  | _ => "unknown"

def blobRef (limits : Limits) (row : String × Bytes) : BlobRef :=
  if row.2.length > limits.maxBlobSize then ⟨⟨row.1⟩, "", true⟩
  else ⟨⟨row.1⟩, base64Encode row.2, false⟩

namespace Database
variable (d : Database)

/-! ### Repositories -/

def listRepos : List String := d.repos.keys

def repoCount : Nat := d.repos.entries.length

def repoExists (repoId : String) : Bool := d.repos.contains repoId

def getRepoVisibility (repoId : String) : String := (d.repos.get repoId).getD "private"

def searchRepos (lib : Library) (query : String) : List String :=
  d.repos.keys.filter fun repoId => lib.like ("%" ++ query ++ "%") repoId

/-! ### Patches -/

def patchesOf (repoId : String) : List PatchProto :=
  (rowsOf d.patches repoId).map fun row => row.2.toProto row.1

def getPatch (repoId patchId : String) : Option PatchProto :=
  (d.patches.get (key repoId patchId)).map fun row => row.toProto patchId

def getPatchesBatch (repoId : String) (ids : List String) : List (String × PatchProto) :=
  ids.filterMap fun id => (d.getPatch repoId id).map fun patch => (id, patch)

def getAllPatchesUnbounded (repoId : String) : List PatchProto :=
  (d.patchesOf repoId).insertionSort fun a b => earlier a b

/-- An offset from 2^63 on is negative to the database. -/
def getAllPatches (limits : Limits) (repoId : String) (offset limit : Nat) : List PatchProto :=
  ((d.getAllPatchesUnbounded repoId).drop (if offset < 2 ^ 63 then offset else 0)).take
    (max (min limit limits.maxPageSize) 1)

def patchCount (repoId : String) : Nat := (rowsOf d.patches repoId).length

def totalPatchCount : Nat := d.patches.entries.length

def searchPatches (lib : Library) (repoId query : String) : List PatchProto :=
  ((d.patchesOf repoId).filter fun patch =>
    lib.like ("%" ++ query ++ "%") patch.author || lib.like ("%" ++ query ++ "%") patch.message).take 50

/-! ### Branches -/

def getBranches (repoId : String) : List BranchProto :=
  (rowsOf d.branches repoId).map fun row => ⟨row.1, ⟨row.2⟩⟩

def getBranchTarget (repoId name : String) : Option String := d.branches.get (key repoId name)

def isBranchProtected (repoId name : String) : Bool := decide (key repoId name ∈ d.branchProtection)

/-! ### Blobs -/

def getBlob (repoId hash : String) : Option Bytes := d.blobs.get (key repoId hash)

def getAllBlobs (limits : Limits) (repoId : String) : List BlobRef :=
  (rowsOf d.blobs repoId).map (blobRef limits)

def getBlobs (limits : Limits) (repoId : String) (hashes : List String) : List BlobRef :=
  ((rowsOf d.blobs repoId).filter fun row => decide (row.1 ∈ hashes)).map (blobRef limits)

def totalBlobStats : Nat × Nat :=
  (d.blobs.entries.length, (d.blobs.entries.map fun e => e.2.length).sum)

/-! ### Keys, users and tokens -/

def getAuthorizedKey (author : String) : Option Bytes :=
  (d.authorizedKeys.get author).map KeyRow.publicKey

def hasAuthorizedKeys : Bool := d.authorizedKeys.entries ≠ []

def listSshKeys (lib : Library) (username : String) : List SshKeyInfo :=
  (d.authorizedKeys.get username).toList.map fun row =>
    let publicKey := lib.fromUtf8Lossy row.publicKey
    ⟨row.rowid, username, publicKey, computeSshFingerprint lib publicKey, row.addedAt.utf8ByteSize⟩

def getUser (username : String) : Option UserRow := d.users.get username

def getUserByToken (lib : Library) (token : String) : Option (String × UserRow) :=
  (select d.users fun row => row.apiToken = some (lowerHex (lib.sha256 (utf8 token)))).head?

def listUsers : List (String × UserRow) := d.users.entries

def userCount : Nat := d.users.entries.length

def hasUsers : Bool := d.users.entries ≠ []

def validToken (lib : Library) (now : Int) (token : String) : Option TokenRow :=
  (d.tokens.get (lowerHex (lib.sha256 (utf8 token)))).filter fun row => now < row.expiresAt

def verifyToken (lib : Library) (now : Int) (token : String) : Bool :=
  (d.validToken lib now token).isSome

def getTokenScopes (lib : Library) (now : Int) (token : String) : List String :=
  match d.validToken lib now token with
  | none => []
  | some row => ((row.scopes.splitOn ",").map lib.trimLowercase).filter fun scope => scope ≠ ""

def hasTokens : Bool := d.tokens.entries ≠ []

/-! ### Issues, pull requests and webhooks -/

def listIssues (repoId : String) (status : Option String) : List (Int × IssueRow) :=
  newestFirst IssueRow.updatedAt
    (select d.issues fun row => row.repoId = repoId && status.all fun s => row.status = s)

def getIssue (issueId : Int) : Option IssueRow := d.issues.get issueId

def listIssueComments (issueId : Int) : List (Int × IssueCommentRow) :=
  oldestFirst IssueCommentRow.createdAt (select d.issueComments fun row => row.issueId = issueId)

def listPullRequests (repoId : String) (status : Option String) : List (Int × PullRequestRow) :=
  newestFirst PullRequestRow.updatedAt
    (select d.pullRequests fun row => row.repoId = repoId && status.all fun s => row.status = s)

def getPullRequest (prId : Int) : Option PullRequestRow := d.pullRequests.get prId

def listPrReviews (prId : Int) : List (Int × PrReviewRow) :=
  oldestFirst PrReviewRow.createdAt (select d.prReviews fun row => row.prId = prId)

def listWebhooks (repoId : String) : List (String × WebhookRow) :=
  oldestFirst (fun row => row.createdAt.toInt64.toInt) (select d.webhooks fun row => row.repoId = repoId)

def getWebhook (id : String) : Except StorageError WebhookRow :=
  match d.webhooks.get id with
  | some row => .ok row
  | none => .error (.webhookNotFound id)

/-! ### Wiki and releases -/

def getWikiPage (repoId title : String) : Option (Int × WikiPageRow) :=
  (select d.wikiPages fun row => row.repoId = repoId && row.title = title).head?

def listWikiPages (repoId : String) : List (Int × WikiPageRow) :=
  (select d.wikiPages fun row => row.repoId = repoId).insertionSort fun a b => a.2.title ≤ b.2.title

def getWikiHistory (repoId title : String) : List (Int × WikiHistoryRow) :=
  match d.getWikiPage repoId title with
  | none => []
  | some (pageId, _) =>
    newestFirst WikiHistoryRow.editedAt (select d.wikiHistory fun row => row.pageId = pageId)

def listReleases (repoId : String) : List (Int × ReleaseRow) :=
  newestFirst ReleaseRow.createdAt (select d.releases fun row => row.repoId = repoId)

def getRelease (id : Int) : Option ReleaseRow := d.releases.get id

/-! ### Code search -/

/-- The blobs of a repository that have some of the trigrams, those with most of them first. -/
def searchCode (lib : Library) (repoId query : String) (limit : Nat) : List CodeSearchResult :=
  let trigrams := if (utf8 query).length < 3 then [] else trigramsOf (utf8 query)
  let hits := (select d.blobTrigrams fun row => row = repoId).filterMap fun e =>
    if (ofLex e.1).1 ∈ trigrams then some (ofLex e.1).2 else none
  let counts := (SortedSet.ofList hits).elems.map fun hash => (hash, hits.count hash)
  ((counts.insertionSort fun a b => b.2 ≤ a.2).take limit).map fun e =>
    { blobHash := e.1
      repoId := repoId
      path := (d.blobMetadata.get e.1).getD none
      matchCount := e.2
      snippet := ((d.getBlob repoId e.1).map fun data => lib.fromUtf8Lossy (data.take 200)).getD "" }

end Database
end Suture.Wire
