import Suture.Foundation.Numbered
import Suture.Foundation.SortedMap
import Suture.Foundation.SortedSet
import Suture.Wire.Rejected
import Suture.Wire.Tables

/-!
# Tokens and their scopes

A token has scopes: to read, to write, to administer. Every handler that changes the hub asks
whether there is a valid token. Which scopes it has is found out on the way, and used by none
of them.
-/

namespace Suture.Wire
set_option autoImplicit false
open Foundation

/-! ### The hub -/

structure MirrorRow where
  repoName : String
  upstreamUrl : String
  upstreamRepo : String
  lastSync : Option Int
  status : String
deriving DecidableEq, Repr

/-- The server with the tables that its handlers look at besides. The storage has the hashes of
the tokens, of which the rows are here. -/
structure HubServer where
  server : Server
  tokens : SortedMap String TokenRow
  users : SortedMap String UserRow
  mirrors : SortedMap Int MirrorRow
deriving DecidableEq

inductive AuthCall where
  | hasAuthorizedKeys
  | hasTokens
  | verifyToken
  | getTokenScopes
  | getUserByToken
deriving DecidableEq, Repr

/-- The statements of the other handlers. -/
inductive Statement where
  | protectBranch
  | unprotectBranch
  | ensureRepo
  | deleteRepo (k : Nat)
  | setBranch
  | deleteBranch (k : Nat)
  | addMirror
  | getMirrorByRepo
  | getMirror
  | updateMirrorStatus (status : String)
deriving DecidableEq, Repr

structure UpstreamAnswer where
  success : Bool
  error : Option String
  pulled : PullResponse
deriving DecidableEq, Repr

/-- What a handler meets: the limit of its caller, the calls that fail, and other libraries. -/
structure HubEnv extends Env where
  retryAfter : Option Nat
  authFault : AuthCall → Bool
  statementFault : Statement → Option String
  sha256 : Bytes → Bytes
  trimLowercase : String → String
  decompress : Bytes → Except String Bytes
  validateMirrorUrl : String → Option String
  pullUpstream : String → String → Except String UpstreamAnswer

/-! ### Answers -/

inductive Status where
  | badRequest
  | unauthorized
  | forbidden
  | conflict
  | tooManyRequests
  | internalServerError
deriving DecidableEq, Repr

inductive ErrorCode where
  | push (code : HubErrorCode)
  | rateLimited
  | invalidRequest
  | mirrorNotFound
  | mirrorSyncFailed
deriving DecidableEq, Repr

structure Denial where
  status : Status
  error : Option String
  errorCode : Option ErrorCode
deriving DecidableEq, Repr

inductive Answer where
  | done
  | pushed (existingPatches : List HashProto)
  | repoCreated (repoId : String)
  | mirrorAdded (mirrorId : Int)
  | synced (patchesSynced branchesSynced : Nat)
deriving DecidableEq, Repr

abbrev HubHandler := Program HubServer Denial Answer

namespace Denial

def ofRefusal (refusal : Refusal) : Denial where
  status :=
    match refusal.status with
    | .badRequest => .badRequest
    | .forbidden => .forbidden
    | .conflict => .conflict
    | .internalServerError => .internalServerError
  error := some refusal.error
  errorCode := some (.push refusal.errorCode)

def rateLimited : Denial := ⟨.tooManyRequests, some "rate limit exceeded", some .rateLimited⟩

def authFailed (status : Status) : Denial :=
  ⟨status, some "authentication failed", some (.push .authFailed)⟩

def mirrorUnauthorized (status : Status) : Denial :=
  ⟨status, some "unauthorized", some (.push .authFailed)⟩

def unauthorized (status : Status) : Denial := ⟨status, some "unauthorized", none⟩

def readerPush : Denial :=
  ⟨.forbidden, some "insufficient permissions: readers cannot push",
    some (.push .insufficientPermissions)⟩

def storage (e : String) : Denial := ⟨.internalServerError, some e, none⟩

end Denial

/-! ### Authentication -/

inductive TokenScope where
  | read
  | write
  | admin
deriving DecidableEq, Repr

inductive Role where
  | admin
  | member
  | reader
deriving DecidableEq, Repr

namespace Role

def parse (s : String) : Role :=
  if s = "admin" then .admin else if s = "member" then .member else .reader

def rank : Role → Nat
  | .admin => 3
  | .member => 2
  | .reader => 1

end Role

/-- The token of an authorization header. -/
def bearerToken (authorization : String) : Option String :=
  if authorization.toList.take 7 = "Bearer ".toList then
    some (String.ofList (authorization.toList.drop 7))
  else none

section Auth
variable (env : HubEnv) (h : HubServer) (authorization : Option String)

namespace TokenScope

def parse (s : String) : Option TokenScope :=
  let name := env.trimLowercase s
  if name = "read" then some .read
  else if name = "write" then some .write
  else if name = "admin" then some .admin
  else none

def containsScope (scopes : List TokenScope) (required : TokenScope) : Bool :=
  scopes.any fun s => s = required || s = .admin

end TokenScope

def tokenHash (token : String) : String := lowerHex (env.sha256 (utf8 token))

/-- The row of a token that has not expired. -/
def liveToken (token : String) : Option TokenRow :=
  (h.tokens.get (tokenHash env token)).filter fun row => row.expiresAt > env.now

def tokenScopes (row : TokenRow) : List String :=
  ((row.scopes.toList.splitOn ',').map fun s => env.trimLowercase (.ofList s)).filter
    fun s => s ≠ ""

def getTokenScopes (token : String) : List String :=
  ((liveToken env h token).map (tokenScopes env)).getD []

/-- The scopes of the caller. Without scopes that are known, a token may read and write. -/
def checkAuth : Except Status (List TokenScope) :=
  let authKeysConfigured :=
    env.authFault .hasAuthorizedKeys || decide (h.server.storage.authorizedKeys.entries ≠ [])
  let tokensExist := env.authFault .hasTokens || decide (h.tokens.entries ≠ [])
  if h.server.noAuth then .ok [.read, .write, .admin]
  else if !authKeysConfigured && !tokensExist then .ok [.read, .write, .admin]
  else
    match authorization.bind bearerToken with
    | none => .error .unauthorized
    | some token =>
      if !env.authFault .verifyToken && (liveToken env h token).isSome then
        let scopes :=
          if env.authFault .getTokenScopes then ["read", "write"] else getTokenScopes env h token
        let parsed := scopes.filterMap (TokenScope.parse env)
        .ok (if parsed = [] then [.read, .write] else parsed)
      else .error .unauthorized

/-- Asks for a scope; no handler calls it. -/
def checkAuthWithScope (required : TokenScope) : Except Status (List TokenScope) :=
  match checkAuth env h authorization with
  | .error status => .error status
  | .ok scopes =>
    if TokenScope.containsScope scopes required then .ok scopes else .error .forbidden

def resolveUser : Option UserRow :=
  match authorization.bind bearerToken with
  | none => none
  | some token =>
    if env.authFault .getUserByToken then none
    else
      ((select h.users fun row => row.apiToken = some (tokenHash env token)).head?).map Prod.snd

/-- Readers must not push. -/
def isReader : Bool :=
  !h.server.noAuth &&
    match resolveUser env h authorization with
    | some user => decide ((Role.parse user.role).rank < Role.member.rank)
    | none => false

end Auth

/-! ### What the handlers do once they let the caller through -/

section Operations
variable (env : HubEnv)

/-- A statement of the storage. -/
def execute (statement : Statement) (write : HubStorage → HubStorage) : Program HubServer Denial Unit :=
  .checkedWrite (fun _ => (env.statementFault statement).map Denial.storage)
    fun h => { h with server := h.server.setStorage write }

def onServer (handler : Handler (List HashProto)) : HubHandler := fun h =>
  match handler h.server with
  | (.ok existing, s) => (.ok (.pushed existing), { h with server := s })
  | (.error refusal, s) => (.error (.ofRefusal refusal), { h with server := s })

def protectBranch (repoId branch : String) : HubHandler := do
  execute env .protectBranch fun store =>
    { store with branchProtection := store.branchProtection.insert (key repoId branch) }
  return .done

def unprotectBranch (repoId branch : String) : HubHandler := do
  execute env .unprotectBranch fun store =>
    { store with branchProtection := store.branchProtection.erase (key repoId branch) }
  return .done

def createRepo (repoId : String) : HubHandler := do
  execute env .ensureRepo fun store => { store with repos := store.repos.insert repoId }
  return .repoCreated repoId

def inRepo (repoId : String) (k : Key) : Bool := decide ((ofLex k).1 = repoId)

def deleteRepo (repoId : String) : HubHandler := do
  execute env (.deleteRepo 0) fun store =>
    { store with patches := store.patches.retain fun k _ => !inRepo repoId k }
  execute env (.deleteRepo 1) fun store =>
    { store with branches := store.branches.retain fun k _ => !inRepo repoId k }
  execute env (.deleteRepo 2) fun store =>
    { store with blobs := store.blobs.retain fun k _ => !inRepo repoId k }
  execute env (.deleteRepo 3) fun store =>
    { store with
      branchProtection := .ofList (store.branchProtection.elems.filter fun k => !inRepo repoId k) }
  execute env (.deleteRepo 4) fun store => { store with repos := store.repos.erase repoId }
  return .done

def createBranch (repoId name target : String) : HubHandler := do
  execute env .setBranch fun store =>
    { store with branches := store.branches.insert (key repoId name) target }
  return .done

def deleteBranch (repoId name : String) : HubHandler := do
  execute env (.deleteBranch 0) fun store =>
    { store with branches := store.branches.erase (key repoId name) }
  execute env (.deleteBranch 1) fun store =>
    { store with branchProtection := store.branchProtection.erase (key repoId name) }
  return .done

/-- Each blob is decompressed before the push is handled. -/
def decompressBlobs : List BlobRef → Except Denial (List BlobRef)
  | [] => .ok []
  | blob :: rest =>
    match env.base64Decode blob.data with
    | .error e =>
      .error ⟨.badRequest, some ("invalid base64 in compressed blob: " ++ e),
        some (.push .internalError)⟩
    | .ok compressed =>
      match env.decompress compressed with
      | .error e => .error ⟨.badRequest, some e, some (.push .internalError)⟩
      | .ok data =>
        match decompressBlobs rest with
        | .error e => .error e
        | .ok blobs => .ok ({ blob with data := base64Encode data } :: blobs)

def compressedPush (req : PushRequest) : HubHandler := fun h =>
  match decompressBlobs env req.blobs with
  | .error e => (.error e, h)
  | .ok blobs => onServer (handlePush env.toEnv { req with blobs := blobs }) h

/-- The number above the last. -/
def nextMirrorId (mirrors : SortedMap Int MirrorRow) : Int :=
  match mirrors.keys.getLast? with
  | none => 1
  | some id => id + 1

def mirrorSetup (repoName upstreamUrl upstreamRepo : String) : HubHandler := do
  match env.validateMirrorUrl upstreamUrl with
  | some e => .fail ⟨.badRequest, some ("invalid upstream URL: " ++ e), some .invalidRequest⟩
  | none =>
    let h ← .read
    let mirrorId := nextMirrorId h.mirrors
    .checkedWrite (fun _ => (env.statementFault .addMirror).map fun e =>
        ⟨.badRequest, some ("failed to register mirror: " ++ e), some (.push .internalError)⟩)
      fun h => { h with
        mirrors := h.mirrors.insert mirrorId ⟨repoName, upstreamUrl, upstreamRepo, none, "idle"⟩ }
    .checkedWrite (fun _ => (env.statementFault .ensureRepo).map fun e =>
        ⟨.badRequest, some ("failed to create repo: " ++ e), some (.push .internalError)⟩)
      fun h => { h with
        server := h.server.setStorage fun store =>
          { store with repos := store.repos.insert repoName } }
    return .mirrorAdded mirrorId

/-- The time of the last sync stays where no new one is given. -/
def setMirrorStatus (mirrorId : Int) (status : String) (lastSync : Option Int) (h : HubServer) :
    HubServer :=
  match h.mirrors.get mirrorId with
  | none => h
  | some row =>
    { h with
      mirrors := h.mirrors.insert mirrorId
        { row with status := status, lastSync := lastSync.or row.lastSync } }

/-- A status that cannot be written is left as it is. -/
def tryMirrorStatus (mirrorId : Int) (status : String) (lastSync : Option Int) (h : HubServer) :
    HubServer :=
  if env.statementFault (.updateMirrorStatus status) = none then
    setMirrorStatus mirrorId status lastSync h
  else h

/-- The mirror of the request, or the first of its repository. -/
def resolveMirror (mirrorId : Int) (localRepo : Option String) (h : HubServer) : Option Int :=
  if mirrorId = 0 then
    if env.statementFault .getMirrorByRepo = none then
      ((select h.mirrors fun row => row.repoName = localRepo.getD "").head?).map Prod.fst
    else none
  else some mirrorId

def countInserted (localRepo : String) (patches : List PatchProto) (s : Server) : Nat :=
  if env.fault .syncPatches = none then
    patches.length - (s.storage.insertPatches localRepo patches).1.length
  else 0

def syncFrom (mirrorId : Int) (row : MirrorRow) : HubHandler := do
  match env.pullUpstream row.upstreamUrl row.upstreamRepo with
  | .error e =>
    .modify (tryMirrorStatus env mirrorId "error" none)
    .fail ⟨.internalServerError, some e, some .mirrorSyncFailed⟩
  | .ok answer =>
    if answer.success then
      let h ← .read
      .modify fun h =>
        { h with server := handleMirrorSync env.toEnv row.repoName answer.pulled h.server }
      .modify (tryMirrorStatus env mirrorId "idle" (some env.now))
      return .synced (countInserted env row.repoName answer.pulled.patches h.server)
        answer.pulled.branches.length
    else
      .modify (tryMirrorStatus env mirrorId "error" none)
      .fail ⟨.internalServerError, answer.error, some .mirrorSyncFailed⟩

def mirrorSync (mirrorId : Int) (localRepo : Option String) : HubHandler := do
  let h ← .read
  match resolveMirror env mirrorId localRepo h with
  | none => .fail ⟨.badRequest, some "mirror not found by local_repo", some .mirrorNotFound⟩
  | some mirrorId =>
    match env.statementFault .getMirror, h.mirrors.get mirrorId with
    | some e, _ => .fail ⟨.internalServerError, some ("database error: " ++ e),
        some (.push .internalError)⟩
    | none, none => .fail ⟨.internalServerError,
        some ("mirror " ++ toString mirrorId ++ " not found"), some .mirrorNotFound⟩
    | none, some row =>
      match env.validateMirrorUrl row.upstreamUrl with
      | some e => .fail ⟨.internalServerError, some ("invalid upstream URL: " ++ e),
          some .invalidRequest⟩
      | none =>
        .checkedWrite (fun _ => (env.statementFault (.updateMirrorStatus "syncing")).map fun e =>
            ⟨.internalServerError, some ("failed to update status: " ++ e),
              some (.push .internalError)⟩)
          (setMirrorStatus mirrorId "syncing" none)
        syncFrom env mirrorId row

end Operations

/-! ### The handlers -/

/-- The requests that change the hub. -/
inductive Mutation where
  | push (req : PushRequest)
  | pushCompressed (req : PushRequest)
  | pushV2 (req : PushRequestV2)
  | batchPush (req : BatchPatchRequest)
  | createBranch (repoId name target : String)
  | deleteBranch (repoId name : String)
  | createRepo (repoId : String)
  | deleteRepo (repoId : String)
  | protectBranch (repoId branch : String)
  | unprotectBranch (repoId branch : String)
  | mirrorSetup (repoName upstreamUrl upstreamRepo : String)
  | mirrorSync (mirrorId : Int) (localRepo : Option String)

/-- What a handler asks before it lets a caller through, and what it answers a caller without a
valid token. -/
structure Entry where
  limited : Bool
  membersOnly : Bool
  unauthorized : Status → Denial

namespace Mutation
variable (env : HubEnv)

def entry : Mutation → Entry
  | .push _ | .pushV2 _ => ⟨true, true, .authFailed⟩
  | .batchPush _ => ⟨true, false, .authFailed⟩
  | .pushCompressed _ => ⟨false, false, .authFailed⟩
  | .mirrorSetup .. | .mirrorSync .. => ⟨false, false, .mirrorUnauthorized⟩
  | _ => ⟨false, false, .unauthorized⟩

def operate : Mutation → HubHandler
  | .push req => onServer (handlePush env.toEnv req)
  | .pushCompressed req => compressedPush env req
  | .pushV2 req => onServer (handlePushV2 env.toEnv req)
  | .batchPush req => onServer (handleBatchPush env.toEnv req)
  | .createBranch repoId name target => Wire.createBranch env repoId name target
  | .deleteBranch repoId name => Wire.deleteBranch env repoId name
  | .createRepo repoId => Wire.createRepo env repoId
  | .deleteRepo repoId => Wire.deleteRepo env repoId
  | .protectBranch repoId branch => Wire.protectBranch env repoId branch
  | .unprotectBranch repoId branch => Wire.unprotectBranch env repoId branch
  | .mirrorSetup repoName upstreamUrl upstreamRepo =>
    Wire.mirrorSetup env repoName upstreamUrl upstreamRepo
  | .mirrorSync mirrorId localRepo => Wire.mirrorSync env mirrorId localRepo

/-- The limit of the caller, then the token, then the role; the scopes are not looked at. -/
def serve (m : Mutation) (authorization : Option String) : HubHandler := do
  .require (m.entry.limited = false ∨ env.retryAfter = none) .rateLimited
  let h ← .read
  match checkAuth env h authorization with
  | .error status => .fail (m.entry.unauthorized status)
  | .ok _ =>
    .require (m.entry.membersOnly = false ∨ isReader env h authorization = false) .readerPush
    m.operate env

end Mutation

/-! ### What is refused with any token -/

section Blocked
variable (env : HubEnv)

/-- The push is refused before its first write, or all that it stores before was there. -/
inductive PushBlocked (env : Env) (endpoint : Endpoint) (req : PushRequestV2) (s : Server) : Prop where
  | authentication {e : Refusal} (h : (authenticateAt env endpoint req s).1 = .error e)
  | ensureRepo (h : env.fault .ensureRepo ≠ none)
  | stored {stop : Stop} (h : RefusedAfter env endpoint req s stop)
      (hstored : s.Stored (rowsUpTo env endpoint req s stop))

def NoRows {α : Type} (table : SortedMap Key α) (repoId : String) : Prop :=
  ∀ name, table.get (key repoId name) = none

/-- A statement fails before any row is deleted. -/
def DeletionBlocked (repoId : String) (store : HubStorage) : Prop :=
  env.statementFault (.deleteRepo 0) ≠ none ∨ NoRows store.patches repoId ∧
  (env.statementFault (.deleteRepo 1) ≠ none ∨ NoRows store.branches repoId ∧
  (env.statementFault (.deleteRepo 2) ≠ none ∨ NoRows store.blobs repoId ∧
  (env.statementFault (.deleteRepo 3) ≠ none ∨
    (∀ name, key repoId name ∉ store.branchProtection) ∧
  env.statementFault (.deleteRepo 4) ≠ none)))

def UpstreamFails (row : MirrorRow) : Prop :=
  ∀ answer, env.pullUpstream row.upstreamUrl row.upstreamRepo = .ok answer → answer.success = false

/-- The status of a mirror whose sync failed. -/
def failedStatus : String :=
  if env.statementFault (.updateMirrorStatus "error") = none then "error" else "syncing"

/-- The status is written before the upstream is asked. -/
def SyncBlocked (row : MirrorRow) : Prop :=
  env.validateMirrorUrl row.upstreamUrl ≠ none ∨
    env.statementFault (.updateMirrorStatus "syncing") ≠ none ∨
    UpstreamFails env row ∧ row.status = failedStatus env

/-- What stands in the way of a request, whoever makes it. -/
def Mutation.Blocked (h : HubServer) : Mutation → Prop
  | .push req => PushBlocked env.toEnv .push req.toV2 h.server
  | .pushCompressed req => ∀ blobs, decompressBlobs env req.blobs = .ok blobs →
      PushBlocked env.toEnv .push { req with blobs := blobs }.toV2 h.server
  | .pushV2 req => PushBlocked env.toEnv .pushV2 req h.server
  | .batchPush req => PushBlocked env.toEnv .batchPush req.toV2 h.server
  | .createBranch .. => env.statementFault .setBranch ≠ none
  | .deleteBranch repoId name => env.statementFault (.deleteBranch 0) ≠ none ∨
      h.server.storage.branches.get (key repoId name) = none ∧
        env.statementFault (.deleteBranch 1) ≠ none
  | .createRepo _ => env.statementFault .ensureRepo ≠ none
  | .deleteRepo repoId => DeletionBlocked env repoId h.server.storage
  | .protectBranch .. => env.statementFault .protectBranch ≠ none
  | .unprotectBranch .. => env.statementFault .unprotectBranch ≠ none
  | .mirrorSetup _ upstreamUrl _ =>
      env.validateMirrorUrl upstreamUrl ≠ none ∨ env.statementFault .addMirror ≠ none
  | .mirrorSync mirrorId localRepo => ∀ id, resolveMirror env mirrorId localRepo h = some id →
      env.statementFault .getMirror ≠ none ∨ ∀ row, h.mirrors.get id = some row → SyncBlocked env row

end Blocked

section Refused
variable {env : HubEnv} {h : HubServer}

theorem outcome_refused {env : Env} {endpoint : Endpoint} {req : PushRequestV2} {s : Server}
    (h : (outcome env endpoint req s).1 = .refused) :
    (∃ e, (authenticateAt env endpoint req s).1 = .error e) ∨ env.fault .ensureRepo ≠ none := by
  revert h
  unfold outcome faultOf
  cases (authenticateAt env endpoint req s).1 with
  | error e => exact fun _ => .inl ⟨e, rfl⟩
  | ok _ =>
    cases env.fault .ensureRepo with
    | some e => exact fun _ => .inr (Option.some_ne_none e)
    | none =>
      simp only [Option.map_none]
      split
      · exact nofun
      · split
        · exact nofun
        · split
          · exact nofun
          · split <;> exact nofun

theorem handle_refuses_iff {env : Env} {endpoint : Endpoint} {req : PushRequestV2} {s : Server} :
    Program.Refuses (handle env endpoint req) s ↔ PushBlocked env endpoint req s := by
  unfold Program.Refuses
  rw [handle_run]
  constructor
  · rintro ⟨e, h⟩
    obtain ⟨herror, hsame⟩ := Prod.mk.inj h
    rcases refusedAfter_of_outcome herror with hearly | hlate
    · rcases outcome_refused hearly with ⟨e, hauth⟩ | hrepo
      · exact .authentication hauth
      · exact .ensureRepo hrepo
    · exact .stored hlate (Server.writeRows_eq_self_iff.mp hsame)
  · intro h
    cases h with
    | authentication hauth =>
      unfold outcome
      rw [hauth]
      exact ⟨_, Prod.ext rfl s.writeRows_empty⟩
    | ensureRepo hrepo =>
      obtain ⟨e, he⟩ := Option.ne_none_iff_exists'.mp hrepo
      unfold outcome faultOf
      rw [he]
      cases (authenticateAt env endpoint req s).1 with
      | error e => exact ⟨_, Prod.ext rfl s.writeRows_empty⟩
      | ok _ => exact ⟨_, Prod.ext rfl s.writeRows_empty⟩
    | stored hlate hstored =>
      obtain ⟨hstop, e, he⟩ := outcome_of_refusedAfter hlate
      rw [hstop]
      exact ⟨e, Prod.ext he (Server.writeRows_eq_self_iff.mpr hstored)⟩

theorem onServer_refuses_iff {handler : Handler (List HashProto)} :
    Program.Refuses (onServer handler) h ↔ Program.Refuses handler h.server := by
  unfold Program.Refuses onServer
  rcases handler h.server with ⟨e | existing, s⟩
  · constructor
    · rintro ⟨_, hrun⟩
      exact ⟨e, Prod.ext rfl (congrArg HubServer.server (Prod.mk.inj hrun).2)⟩
    · rintro ⟨_, hrun⟩
      exact ⟨_, Prod.ext rfl (congrArg (fun s => { h with server := s }) (Prod.mk.inj hrun).2)⟩
  · exact ⟨nofun, nofun⟩

/-- What is written to the storage changes the hub exactly when it changes the storage. -/
theorem setStorage_eq_iff {write : HubStorage → HubStorage} :
    { h with server := h.server.setStorage write } = h ↔
      write h.server.storage = h.server.storage := by
  constructor
  · intro hsame
    exact congrArg (fun h : HubServer => h.server.storage) hsame
  · intro hsame
    unfold Server.setStorage
    rw [hsame]

/-- A statement that leaves a table alone, with what follows it. -/
theorem quiet_execute_bind {τ : Type} {view : HubStorage → τ} {statement : Statement}
    {write : HubStorage → HubStorage} {k : Unit → HubHandler}
    (hwrite : ∀ store, view (write store) = view store)
    (hk : Program.Quiet (.ofView fun h : HubServer => view h.server.storage) (k ())) :
    Program.Quiet (.ofView fun h : HubServer => view h.server.storage)
      (execute env statement write >>= k) :=
  (Program.quiet_checkedWrite _ fun h => hwrite h.server.storage).bind fun _ => hk

theorem execute_bind_refuses_iff {τ : Type} (view : HubStorage → τ) {statement : Statement}
    {write : HubStorage → HubStorage} {k : Unit → HubHandler}
    (hwrite : ∀ store, view (write store) = view store → write store = store)
    (hk : Program.Quiet (.ofView fun h : HubServer => view h.server.storage) (k ())) :
    Program.Refuses (execute env statement write >>= k) h ↔ env.statementFault statement ≠ none ∨
      view (write h.server.storage) = view h.server.storage ∧ Program.Refuses (k ()) h := by
  have hcheck : (env.statementFault statement).map Denial.storage ≠ none ↔
      env.statementFault statement ≠ none := not_congr Option.map_eq_none_iff
  refine (Program.refuses_checkedWrite_bind _ (fun hsame => ?_) hk).trans (or_congr hcheck ?_)
  · exact setStorage_eq_iff.mpr (hwrite _ hsame)
  · refine and_congr_left fun _ => setStorage_eq_iff.trans ⟨fun hsame => congrArg view hsame, ?_⟩
    exact hwrite _

/-- One statement, and then the answer. -/
theorem execute_refuses_iff {statement : Statement} {write : HubStorage → HubStorage} {a : Answer} :
    Program.Refuses (do execute env statement write; return a) h ↔
      env.statementFault statement ≠ none := by
  refine (execute_bind_refuses_iff id ?_ ?_).trans ?_
  · exact fun _ hsame => hsame
  · exact Program.quiet_pure a
  · exact ⟨fun hor => hor.resolve_right fun hand => Program.not_refuses_pure a hand.2, .inl⟩

theorem get_retain_other {α : Type} (table : SortedMap Key α) {repoId other : String}
    (hne : other ≠ repoId) (name : String) :
    (table.retain fun k _ => !inRepo repoId k).get (key other name) = table.get (key other name) := by
  have hkeep : inRepo repoId (key other name) = false := decide_eq_false hne
  rw [SortedMap.get_retain]
  cases table.get (key other name) <;> simp [hkeep]

theorem get_retain_same {α : Type} (table : SortedMap Key α) (repoId name : String) :
    (table.retain fun k _ => !inRepo repoId k).get (key repoId name) = none := by
  have hdrop : inRepo repoId (key repoId name) = true := decide_eq_true rfl
  rw [SortedMap.get_retain]
  cases table.get (key repoId name) <;> simp [hdrop]

theorem retain_rows_iff {α : Type} {table : SortedMap Key α} {repoId : String} :
    (table.retain fun k _ => !inRepo repoId k) = table ↔ NoRows table repoId := by
  constructor
  · intro hsame name
    rw [← hsame]
    exact get_retain_same table repoId name
  · intro hnone
    refine SortedMap.ext fun k => ?_
    by_cases hrepo : (ofLex k).1 = repoId
    · subst hrepo
      exact (get_retain_same table _ (ofLex k).2).trans (hnone (ofLex k).2).symm
    · exact get_retain_other table hrepo (ofLex k).2

theorem mem_protection_deleted {protection : SortedSet Key} {repoId : String} {k : Key} :
    k ∈ SortedSet.ofList (protection.elems.filter fun k => !inRepo repoId k) ↔
      k ∈ protection ∧ inRepo repoId k = false := by
  rw [SortedSet.mem_ofList, List.mem_filter, Bool.not_eq_eq_eq_not, Bool.not_true]
  exact Iff.rfl

theorem protection_rows_iff {protection : SortedSet Key} {repoId : String} :
    .ofList (protection.elems.filter fun k => !inRepo repoId k) = protection ↔
      ∀ name, key repoId name ∉ protection := by
  have hdrop : ∀ name, inRepo repoId (key repoId name) = true := fun _ => decide_eq_true rfl
  constructor
  · intro hsame name hmem
    rw [← hsame, mem_protection_deleted, hdrop] at hmem
    cases hmem.2
  · intro hnone
    refine SortedSet.ext fun k => mem_protection_deleted.trans (and_iff_left_of_imp fun hmem => ?_)
    refine decide_eq_false ?_
    rintro rfl
    exact hnone (ofLex k).2 hmem

theorem deleteRepo_refuses_iff {repoId : String} :
    Program.Refuses (deleteRepo env repoId) h ↔ DeletionBlocked env repoId h.server.storage := by
  unfold deleteRepo DeletionBlocked
  refine (execute_bind_refuses_iff HubStorage.patches ?_ ?_).trans
    (or_congr Iff.rfl (and_congr retain_rows_iff ?_))
  · exact fun store => congrArg fun table => { store with patches := table }
  · exact quiet_execute_bind (fun _ => rfl) (quiet_execute_bind (fun _ => rfl)
      (quiet_execute_bind (fun _ => rfl) (quiet_execute_bind (fun _ => rfl) (Program.quiet_pure _))))
  refine (execute_bind_refuses_iff HubStorage.branches ?_ ?_).trans
    (or_congr Iff.rfl (and_congr retain_rows_iff ?_))
  · exact fun store => congrArg fun table => { store with branches := table }
  · exact quiet_execute_bind (fun _ => rfl) (quiet_execute_bind (fun _ => rfl)
      (quiet_execute_bind (fun _ => rfl) (Program.quiet_pure _)))
  refine (execute_bind_refuses_iff HubStorage.blobs ?_ ?_).trans
    (or_congr Iff.rfl (and_congr retain_rows_iff ?_))
  · exact fun store => congrArg fun table => { store with blobs := table }
  · exact quiet_execute_bind (fun _ => rfl)
      (quiet_execute_bind (fun _ => rfl) (Program.quiet_pure _))
  refine (execute_bind_refuses_iff HubStorage.branchProtection ?_ ?_).trans
    (or_congr Iff.rfl (and_congr protection_rows_iff execute_refuses_iff))
  · exact fun store => congrArg fun table => { store with branchProtection := table }
  · exact quiet_execute_bind (fun _ => rfl) (Program.quiet_pure _)

theorem deleteBranch_refuses_iff {repoId name : String} :
    Program.Refuses (deleteBranch env repoId name) h ↔
      env.statementFault (.deleteBranch 0) ≠ none ∨
        h.server.storage.branches.get (key repoId name) = none ∧
          env.statementFault (.deleteBranch 1) ≠ none := by
  unfold deleteBranch
  refine (execute_bind_refuses_iff HubStorage.branches ?_ ?_).trans
    (or_congr Iff.rfl (and_congr SortedMap.erase_eq_self_iff execute_refuses_iff))
  · exact fun store => congrArg fun table => { store with branches := table }
  · exact quiet_execute_bind (fun _ => rfl) (Program.quiet_pure _)

theorem compressedPush_refuses_iff {req : PushRequest} :
    Program.Refuses (compressedPush env req) h ↔
      ∀ blobs, decompressBlobs env req.blobs = .ok blobs →
        PushBlocked env.toEnv .push { req with blobs := blobs }.toV2 h.server := by
  unfold compressedPush Program.Refuses
  cases decompressBlobs env req.blobs with
  | error e => exact ⟨fun _ _ => nofun, fun _ => ⟨e, rfl⟩⟩
  | ok blobs =>
    refine (onServer_refuses_iff.trans handle_refuses_iff).trans ⟨fun hblocked _ hok => ?_, ?_⟩
    · rwa [← Except.ok.inj hok]
    · exact fun hall => hall blobs rfl

/-! ### Mirrors -/

theorem get_nextMirrorId (mirrors : SortedMap Int MirrorRow) :
    mirrors.get (nextMirrorId mirrors) = none := by
  by_contra hsome
  unfold nextMirrorId at hsome
  cases hlast : mirrors.keys.getLast? with
  | none =>
    have hmem := SortedMap.mem_keys.mpr hsome
    rw [List.getLast?_eq_none_iff.mp hlast] at hmem
    cases hmem
  | some id =>
    simp only [hlast] at hsome
    have hle := SortedMap.le_of_getLast? hlast hsome
    omega

theorem mirrorSetup_refuses_iff {repoName upstreamUrl upstreamRepo : String} :
    Program.Refuses (mirrorSetup env repoName upstreamUrl upstreamRepo) h ↔
      env.validateMirrorUrl upstreamUrl ≠ none ∨ env.statementFault .addMirror ≠ none := by
  unfold mirrorSetup
  cases env.validateMirrorUrl upstreamUrl with
  | some e => exact ⟨fun _ => .inl (Option.some_ne_none e), fun _ => Program.refuses_fail _⟩
  | none =>
    refine (Program.refuses_checkedWrite_bind HubServer.mirrors ?_ ?_).trans ?_
    · exact congrArg fun mirrors => { h with mirrors := mirrors }
    · exact (Program.quiet_checkedWrite _ fun _ => rfl).bind fun _ => Program.quiet_pure _
    · have hnew := get_nextMirrorId h.mirrors
      rw [ne_eq, Option.map_eq_none_iff]
      constructor
      · rintro (hfault | ⟨hsame, -⟩)
        · exact .inr hfault
        · have hmirrors := congrArg HubServer.mirrors hsame
          simp only at hmirrors
          rw [← hmirrors, SortedMap.get_insert, if_pos ?_] at hnew
          · cases hnew
          · rw [hmirrors]
      · exact fun hor => .inl (hor.resolve_left nofun)

theorem setMirrorStatus_eq_iff {mirrorId : Int} {row : MirrorRow}
    (hrow : h.mirrors.get mirrorId = some row) {status : String} :
    setMirrorStatus mirrorId status none h = h ↔ row.status = status := by
  unfold setMirrorStatus
  rw [hrow]
  simp only [Option.none_or]
  constructor
  · intro hsame
    have hmirrors := congrArg (fun h => h.mirrors.get mirrorId) hsame
    simp only [SortedMap.get_insert, if_true, hrow, Option.some.injEq] at hmirrors
    exact (congrArg MirrorRow.status hmirrors).symm
  · rintro rfl
    refine congrArg (fun mirrors => { h with mirrors := mirrors }) (SortedMap.ext fun id => ?_)
    rw [SortedMap.get_insert]
    split
    · rename_i hid
      rw [hid, hrow]
    · rfl

/-- What is left of a sync that failed. -/
theorem tryMirrorStatus_error {mirrorId : Int} {row : MirrorRow}
    (hrow : h.mirrors.get mirrorId = some row) :
    tryMirrorStatus env mirrorId "error" none (setMirrorStatus mirrorId "syncing" none h) =
      setMirrorStatus mirrorId (failedStatus env) none h := by
  unfold tryMirrorStatus failedStatus
  split
  · unfold setMirrorStatus
    simp only [hrow, SortedMap.get_insert, if_true, Option.none_or]
    refine congrArg (fun mirrors => { h with mirrors := mirrors }) (SortedMap.ext fun id => ?_)
    simp only [SortedMap.get_insert]
    split <;> rfl
  · rfl

theorem syncFrom_run (env : HubEnv) (h : HubServer) (mirrorId : Int) (row : MirrorRow) :
    (UpstreamFails env row → ∃ e, syncFrom env mirrorId row h =
        (.error e, tryMirrorStatus env mirrorId "error" none h)) ∧
      (¬ UpstreamFails env row → ∃ a t, syncFrom env mirrorId row h = (.ok a, t)) := by
  unfold UpstreamFails syncFrom
  cases env.pullUpstream row.upstreamUrl row.upstreamRepo with
  | error e => exact ⟨fun _ => ⟨_, rfl⟩, fun hfails => absurd nofun hfails⟩
  | ok answer =>
    dsimp only
    cases hsuccess : answer.success with
    | true =>
      refine ⟨fun hfails => ?_, fun _ => ⟨_, _, rfl⟩⟩
      have := hfails answer rfl
      simp [hsuccess] at this
    | false =>
      refine ⟨fun _ => ⟨_, rfl⟩, fun hfails => ?_⟩
      refine absurd (fun other hother => ?_) hfails
      rw [← Except.ok.inj hother]
      exact hsuccess

/-- The status is set, and then the sync fails or not. -/
theorem syncRow_refuses_iff {mirrorId : Int} {row : MirrorRow}
    (hrow : h.mirrors.get mirrorId = some row) (failure : String → Denial) :
    Program.Refuses (do
      .checkedWrite (fun _ => (env.statementFault (.updateMirrorStatus "syncing")).map failure)
        (setMirrorStatus mirrorId "syncing" none)
      syncFrom env mirrorId row) h ↔
      env.statementFault (.updateMirrorStatus "syncing") ≠ none ∨
        UpstreamFails env row ∧ row.status = failedStatus env := by
  obtain ⟨hfails, hsucceeds⟩ := syncFrom_run env (setMirrorStatus mirrorId "syncing" none h) mirrorId row
  rw [tryMirrorStatus_error hrow] at hfails
  unfold Program.Refuses
  cases hfault : env.statementFault (.updateMirrorStatus "syncing") with
  | some e =>
    refine ⟨fun _ => .inl (Option.some_ne_none e), fun _ => ⟨failure e, Program.bind_of_error ?_⟩⟩
    rfl
  | none =>
    refine Iff.trans ?_ (or_iff_right (not_not_intro rfl)).symm
    change (∃ e, syncFrom env mirrorId row (setMirrorStatus mirrorId "syncing" none h) = _) ↔ _
    by_cases hup : UpstreamFails env row
    · obtain ⟨e, hrun⟩ := hfails hup
      rw [hrun]
      constructor
      · rintro ⟨_, hsame⟩
        exact ⟨hup, (setMirrorStatus_eq_iff hrow).mp (Prod.mk.inj hsame).2⟩
      · exact fun hand => ⟨e, Prod.ext rfl ((setMirrorStatus_eq_iff hrow).mpr hand.2)⟩
    · obtain ⟨a, t, hrun⟩ := hsucceeds hup
      rw [hrun]
      exact ⟨nofun, fun hand => absurd hand.1 hup⟩

theorem mirrorSync_refuses_iff {mirrorId : Int} {localRepo : Option String} :
    Program.Refuses (mirrorSync env mirrorId localRepo) h ↔
      ∀ id, resolveMirror env mirrorId localRepo h = some id →
        env.statementFault .getMirror ≠ none ∨
          ∀ row, h.mirrors.get id = some row → SyncBlocked env row := by
  unfold mirrorSync
  rw [Program.Refuses, Program.read_bind]
  cases hid : resolveMirror env mirrorId localRepo h with
  | none => exact ⟨fun _ _ => nofun, fun _ => ⟨_, rfl⟩⟩
  | some id =>
    simp only [Option.some.injEq, forall_eq']
    cases hfault : env.statementFault .getMirror with
    | some e => exact ⟨fun _ => .inl (Option.some_ne_none e), fun _ => ⟨_, rfl⟩⟩
    | none =>
      refine Iff.trans ?_ (or_iff_right (not_not_intro rfl)).symm
      cases hrow : h.mirrors.get id with
      | none => exact ⟨fun _ _ => nofun, fun _ => ⟨_, rfl⟩⟩
      | some row =>
        simp only [Option.some.injEq, forall_eq']
        unfold SyncBlocked
        cases env.validateMirrorUrl row.upstreamUrl with
        | some e => exact ⟨fun _ => .inl (Option.some_ne_none e), fun _ => ⟨_, rfl⟩⟩
        | none =>
          refine Iff.trans ?_ (or_iff_right (not_not_intro rfl)).symm
          exact syncRow_refuses_iff hrow _

/-- What an operation that is let through refuses, and leaves alone. -/
theorem operate_refuses_iff (m : Mutation) : Program.Refuses (m.operate env) h ↔ m.Blocked env h := by
  cases m with
  | push req => exact onServer_refuses_iff.trans handle_refuses_iff
  | pushCompressed req => exact compressedPush_refuses_iff
  | pushV2 req => exact onServer_refuses_iff.trans handle_refuses_iff
  | batchPush req => exact onServer_refuses_iff.trans handle_refuses_iff
  | createBranch repoId name target => exact execute_refuses_iff
  | deleteBranch repoId name => exact deleteBranch_refuses_iff
  | createRepo repoId => exact execute_refuses_iff
  | deleteRepo repoId => exact deleteRepo_refuses_iff
  | protectBranch repoId branch => exact execute_refuses_iff
  | unprotectBranch repoId branch => exact execute_refuses_iff
  | mirrorSetup repoName upstreamUrl upstreamRepo => exact mirrorSetup_refuses_iff
  | mirrorSync mirrorId localRepo => exact mirrorSync_refuses_iff

end Refused

/-! ### Tokens that may only read -/

section ReadOnly
variable (env : HubEnv) (h : HubServer)

/-- A token that is stored with scopes among which there is neither `write` nor `admin`. -/
structure ReadOnly (token : String) (row : TokenRow) : Prop where
  stored : h.tokens.get (tokenHash env token) = some row
  noWrite : "write" ∉ tokenScopes env row
  noAdmin : "admin" ∉ tokenScopes env row

/-- The caller is within its limit, its token is accepted, and it is no reader where readers
are turned away. -/
structure Mutation.Admitted (m : Mutation) (authorization : Option String) (row : TokenRow) : Prop where
  limit : m.entry.limited = false ∨ env.retryAfter = none
  verified : env.authFault .verifyToken = false
  live : row.expiresAt > env.now
  role : m.entry.membersOnly = false ∨ isReader env h authorization = false

variable {env h} {authorization token : String} {row : TokenRow}

theorem liveToken_of_stored (hstored : h.tokens.get (tokenHash env token) = some row) :
    (liveToken env h token).isSome = decide (row.expiresAt > env.now) := by
  unfold liveToken
  rw [hstored, Option.filter_some]
  split <;> simp_all

/-- Whether a token passes does not depend on its scopes. -/
theorem checkAuth_of_stored (henabled : h.server.noAuth = false)
    (htoken : bearerToken authorization = some token)
    (hstored : h.tokens.get (tokenHash env token) = some row) :
    (env.authFault .verifyToken = false ∧ row.expiresAt > env.now ∧
        ∃ scopes, checkAuth env h (some authorization) = .ok scopes) ∨
      ¬ (env.authFault .verifyToken = false ∧ row.expiresAt > env.now) ∧
        checkAuth env h (some authorization) = .error .unauthorized := by
  have hexist : h.tokens.entries ≠ [] :=
    List.ne_nil_of_mem (SortedMap.mem_entries.mpr hstored)
  unfold checkAuth
  simp only [henabled, Bool.false_eq_true, if_false, hexist, ne_eq, not_false_eq_true, decide_true,
    Bool.or_true, Bool.not_true, Bool.and_false, Option.bind_some, htoken,
    liveToken_of_stored hstored, Bool.and_eq_true, Bool.not_eq_eq_eq_not, decide_eq_true_eq]
  split
  · rename_i hlive
    exact .inl ⟨hlive.1, hlive.2, _, rfl⟩
  · rename_i hlive
    exact .inr ⟨hlive, rfl⟩

theorem getTokenScopes_of_live (hstored : h.tokens.get (tokenHash env token) = some row)
    (hlive : row.expiresAt > env.now) : getTokenScopes env h token = tokenScopes env row := by
  unfold getTokenScopes liveToken
  rw [hstored, Option.filter_some, if_pos (decide_eq_true hlive)]
  rfl

theorem parse_ne {scope : String} (hsame : env.trimLowercase scope = scope) {s : TokenScope}
    (hparse : TokenScope.parse env scope = some s) :
    (s = .write → scope = "write") ∧ (s = .admin → scope = "admin") := by
  unfold TokenScope.parse at hparse
  rw [hsame] at hparse
  dsimp only at hparse
  split at hparse
  · cases hparse
    exact ⟨nofun, nofun⟩
  · split at hparse
    · rename_i hwrite
      cases hparse
      exact ⟨fun _ => hwrite, nofun⟩
    · split at hparse
      · rename_i hadmin
        cases hparse
        exact ⟨nofun, fun _ => hadmin⟩
      · cases hparse

/-- Where the scope to write is asked for, a token that may read and no more is turned away. -/
theorem checkAuthWithScope_write (henabled : h.server.noAuth = false)
    (htoken : bearerToken authorization = some token) (hread : ReadOnly env h token row)
    (hknown : "read" ∈ tokenScopes env row) (hlive : row.expiresAt > env.now)
    (hverified : env.authFault .verifyToken = false) (hscopes : env.authFault .getTokenScopes = false)
    (hsame : ∀ s, env.trimLowercase (env.trimLowercase s) = env.trimLowercase s) :
    checkAuthWithScope env h (some authorization) .write = .error .forbidden := by
  have hnormal : ∀ scope ∈ tokenScopes env row, env.trimLowercase scope = scope := by
    intro scope hscope
    obtain ⟨part, -, rfl⟩ := List.mem_map.mp (List.mem_filter.mp hscope).1
    exact hsame _
  have hmem : TokenScope.read ∈ (tokenScopes env row).filterMap (TokenScope.parse env) := by
    refine List.mem_filterMap.mpr ⟨"read", hknown, ?_⟩
    unfold TokenScope.parse
    rw [hnormal _ hknown]
    rfl
  have hmissing : TokenScope.containsScope
      ((tokenScopes env row).filterMap (TokenScope.parse env)) .write = false := by
    unfold TokenScope.containsScope
    refine List.any_eq_false.mpr fun s hs => ?_
    obtain ⟨scope, hscope, hparse⟩ := List.mem_filterMap.mp hs
    obtain ⟨hwrite, hadmin⟩ := parse_ne (hnormal scope hscope) hparse
    simp only [Bool.or_eq_true, decide_eq_true_eq]
    rintro (rfl | rfl)
    · exact hread.noWrite (hwrite rfl ▸ hscope)
    · exact hread.noAdmin (hadmin rfl ▸ hscope)
  have hexist : h.tokens.entries ≠ [] :=
    List.ne_nil_of_mem (SortedMap.mem_entries.mpr hread.stored)
  have hok : checkAuth env h (some authorization) =
      .ok ((tokenScopes env row).filterMap (TokenScope.parse env)) := by
    unfold checkAuth
    simp only [henabled, Bool.false_eq_true, if_false, hexist, ne_eq, not_false_eq_true, decide_true,
      Bool.or_true, Bool.not_true, Bool.and_false, Option.bind_some, htoken,
      liveToken_of_stored hread.stored, hverified, hlive, Bool.not_false, Bool.and_self, if_true,
      hscopes, getTokenScopes_of_live hread.stored hlive, List.ne_nil_of_mem hmem]
  unfold checkAuthWithScope
  rw [hok]
  simp only [hmissing, Bool.false_eq_true, if_false]

/-- A token that may only read is refused exactly when the request does not come that far, or
would be refused whatever the token. -/
theorem read_only_refused_iff (henabled : h.server.noAuth = false)
    (htoken : bearerToken authorization = some token) (hread : ReadOnly env h token row)
    (m : Mutation) : Program.Refuses (m.serve env (some authorization)) h ↔
      ¬ m.Admitted env h (some authorization) row ∨ m.Blocked env h := by
  unfold Mutation.serve
  rw [Program.refuses_require_bind]
  by_cases hlimit : m.entry.limited = false ∨ env.retryAfter = none
  swap
  · exact ⟨fun _ => .inl fun hadm => hlimit hadm.limit, fun _ => .inl hlimit⟩
  refine (or_iff_right (not_not_intro hlimit)).trans ?_
  rw [Program.Refuses, Program.read_bind]
  rcases checkAuth_of_stored henabled htoken hread.stored with
    ⟨hverified, hlive, scopes, hok⟩ | ⟨hlive, herror⟩
  · rw [hok]
    refine (Program.refuses_require_bind _ _ _).trans (or_congr (not_congr ?_) (operate_refuses_iff m))
    exact ⟨fun hrole => ⟨hlimit, hverified, hlive, hrole⟩, Mutation.Admitted.role⟩
  · rw [herror]
    exact ⟨fun _ => .inl fun hadm => hlive ⟨hadm.verified, hadm.live⟩, fun _ => ⟨_, rfl⟩⟩

/-- No limit, no statement that fails, and texts as they are. -/
def openEnv : HubEnv where
  toEnv := plainEnv
  retryAfter := none
  authFault := fun _ => false
  statementFault := fun _ => none
  sha256 := id
  trimLowercase := id
  decompress := .ok
  validateMirrorUrl := fun _ => none
  pullUpstream := fun _ _ => .error "unreachable"

def auditorRow : TokenRow := ⟨0, some "auditor", 100, "read"⟩

/-- The hub with the protected branch, and a token to read. -/
def auditedHub : HubServer where
  server := { guardedHub with
    storage := { guardedHub.storage with tokens := .ofList [tokenHash openEnv "abc"] } }
  tokens := .insert (tokenHash openEnv "abc") auditorRow .empty
  users := .empty
  mirrors := .empty

theorem readOnly_auditorRow : ReadOnly openEnv auditedHub "abc" auditorRow where
  stored := by decide +kernel
  noWrite := by decide +kernel
  noAdmin := by decide +kernel

theorem read_only_refused_iff_auditor :
    Program.Refuses ((Mutation.deleteRepo "r").serve openEnv (some "Bearer abc")) auditedHub ↔
      ¬ (Mutation.deleteRepo "r").Admitted openEnv auditedHub (some "Bearer abc") auditorRow ∨
        (Mutation.deleteRepo "r").Blocked openEnv auditedHub :=
  read_only_refused_iff rfl (by decide +kernel) readOnly_auditorRow _

/-- The token to read takes the protection off the branch. -/
theorem read_only_token_unprotects : ReadOnly openEnv auditedHub "abc" auditorRow ∧
    auditedHub.server.noAuth = false ∧ bearerToken "Bearer abc" = some "abc" ∧
      ¬ Program.Refuses ((Mutation.unprotectBranch "r" "main").serve openEnv (some "Bearer abc"))
        auditedHub := by
  refine ⟨readOnly_auditorRow, rfl, by decide +kernel, ?_⟩
  rintro ⟨e, hrun⟩
  have hdone : ((Mutation.unprotectBranch "r" "main").serve openEnv (some "Bearer abc")
      auditedHub).1 = .ok .done := by decide +kernel
  rw [hrun] at hdone
  cases hdone

end ReadOnly
end Suture.Wire
