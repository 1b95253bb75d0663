import Suture.Wire.Backup

/-!
# What a restored hub shows

Every read of the hub, and when a restored hub gives the same answers: nothing outside the
repositories' patches, branches and blobs comes back.
-/

namespace Suture.Wire
set_option autoImplicit false
open Foundation

/-- A blob backend is known by its answers. -/
structure Hub where
  database : Database
  limits : Limits
  blobBackend : Option (String → String → Except String (Option Bytes))

def Hub.blobGet (hub : Hub) (repoId hash : String) : Except String (Option Bytes) :=
  match hub.blobBackend with
  | none => .ok (hub.database.getBlob repoId hash)
  | some backend => backend repoId hash

/-- The answers of a database, with the limits and the libraries that the reads use. -/
structure SameReads (lib : Library) (limits : Limits) (d d' : Database) : Prop where
  listRepos : d'.listRepos = d.listRepos
  repoCount : d'.repoCount = d.repoCount
  repoExists : ∀ r, d'.repoExists r = d.repoExists r
  getRepoVisibility : ∀ r, d'.getRepoVisibility r = d.getRepoVisibility r
  searchRepos : ∀ query, d'.searchRepos lib query = d.searchRepos lib query
  getPatch : ∀ r id, d'.getPatch r id = d.getPatch r id
  getPatchesBatch : ∀ r ids, d'.getPatchesBatch r ids = d.getPatchesBatch r ids
  getAllPatches : ∀ r offset limit,
    d'.getAllPatches limits r offset limit = d.getAllPatches limits r offset limit
  getAllPatchesUnbounded : ∀ r, d'.getAllPatchesUnbounded r = d.getAllPatchesUnbounded r
  patchCount : ∀ r, d'.patchCount r = d.patchCount r
  totalPatchCount : d'.totalPatchCount = d.totalPatchCount
  searchPatches : ∀ r query, d'.searchPatches lib r query = d.searchPatches lib r query
  getBranches : ∀ r, d'.getBranches r = d.getBranches r
  getBranchTarget : ∀ r name, d'.getBranchTarget r name = d.getBranchTarget r name
  isBranchProtected : ∀ r name, d'.isBranchProtected r name = d.isBranchProtected r name
  getBlob : ∀ r hash, d'.getBlob r hash = d.getBlob r hash
  getAllBlobs : ∀ r, d'.getAllBlobs limits r = d.getAllBlobs limits r
  getBlobs : ∀ r hashes, d'.getBlobs limits r hashes = d.getBlobs limits r hashes
  totalBlobStats : d'.totalBlobStats = d.totalBlobStats
  getAuthorizedKey : ∀ author, d'.getAuthorizedKey author = d.getAuthorizedKey author
  hasAuthorizedKeys : d'.hasAuthorizedKeys = d.hasAuthorizedKeys
  listSshKeys : ∀ username, d'.listSshKeys lib username = d.listSshKeys lib username
  getUser : ∀ username, d'.getUser username = d.getUser username
  getUserByToken : ∀ token, d'.getUserByToken lib token = d.getUserByToken lib token
  listUsers : d'.listUsers = d.listUsers
  userCount : d'.userCount = d.userCount
  hasUsers : d'.hasUsers = d.hasUsers
  verifyToken : ∀ now token, d'.verifyToken lib now token = d.verifyToken lib now token
  getTokenScopes : ∀ now token, d'.getTokenScopes lib now token = d.getTokenScopes lib now token
  hasTokens : d'.hasTokens = d.hasTokens
  listIssues : ∀ r status, d'.listIssues r status = d.listIssues r status
  getIssue : ∀ id, d'.getIssue id = d.getIssue id
  listIssueComments : ∀ id, d'.listIssueComments id = d.listIssueComments id
  listPullRequests : ∀ r status, d'.listPullRequests r status = d.listPullRequests r status
  getPullRequest : ∀ id, d'.getPullRequest id = d.getPullRequest id
  listPrReviews : ∀ id, d'.listPrReviews id = d.listPrReviews id
  listWebhooks : ∀ r, d'.listWebhooks r = d.listWebhooks r
  getWebhook : ∀ id, d'.getWebhook id = d.getWebhook id
  getWikiPage : ∀ r title, d'.getWikiPage r title = d.getWikiPage r title
  listWikiPages : ∀ r, d'.listWikiPages r = d.listWikiPages r
  getWikiHistory : ∀ r title, d'.getWikiHistory r title = d.getWikiHistory r title
  listReleases : ∀ r, d'.listReleases r = d.listReleases r
  getRelease : ∀ id, d'.getRelease id = d.getRelease id
  searchCode : ∀ r query limit,
    d'.searchCode lib r query limit = d.searchCode lib r query limit

/-- A restore from the backup succeeds, and everything reads as before. -/
def RestoreUndoes (lib : Library) (hub : Hub) : Prop :=
  ∀ now version outputDir, ∃ manifest dir stats d',
    createBackup now version outputDir none hub.database = .ok (manifest, dir) ∧
    restoreBackup hub.limits .fresh dir = (.ok stats, d') ∧
    SameReads lib hub.limits hub.database d' ∧
    ∀ r hash, (Hub.mk d' hub.limits none).blobGet r hash = hub.blobGet r hash

/-- Nothing is stored but private repositories with their patches, branches and blobs. -/
structure OnlyRepos (d : Database) : Prop where
  visibility : ∀ r v, d.repos.get r = some v → v = "private"
  patches : ∀ k row, d.patches.get k = some row → d.repos.contains (ofLex k).1 = true
  branches : ∀ k target, d.branches.get k = some target → d.repos.contains (ofLex k).1 = true
  blobs : ∀ k data, d.blobs.get k = some data → d.repos.contains (ofLex k).1 = true
  branchProtection : d.branchProtection = .empty
  authorizedKeys : d.authorizedKeys = .empty
  tokens : d.tokens = .empty
  users : d.users = .empty
  issues : d.issues = .empty
  issueComments : d.issueComments = .empty
  pullRequests : d.pullRequests = .empty
  prReviews : d.prReviews = .empty
  webhooks : d.webhooks = .empty
  wikiPages : d.wikiPages = .empty
  releases : d.releases = .empty
  blobTrigrams : ∀ k r, d.blobTrigrams.get k = some r → (utf8 (ofLex k).1).length ≠ 3

/-! ### Tables read back -/

theorem eq_empty_of_select {κ α β : Type} [LinearOrder κ] [DecidableEq β] {table : SortedMap κ α}
    {column : α → β} (h : ∀ b, (select table fun row => column row = b) = []) : table = .empty := by
  refine SortedMap.ext fun k => ?_
  cases hget : table.get k with
  | none => rfl
  | some row =>
    have hnone := List.filter_eq_nil_iff.mp (h (column row)) (k, row) (SortedMap.mem_entries.mpr hget)
    exact absurd (decide_eq_true rfl) hnone

theorem eq_nil_of_insertionSort {α : Type} {r : α → α → Prop} [DecidableRel r] {l : List α}
    (h : l.insertionSort r = []) : l = [] := by
  have hperm := List.perm_insertionSort r l
  rw [h] at hperm
  exact hperm.nil_eq.symm

theorem eq_empty_of_entries {κ α : Type} [LinearOrder κ] {table : SortedMap κ α}
    (h : table.entries = []) : table = .empty := by
  refine SortedMap.ext fun k => ?_
  rw [SortedMap.get, h]
  rfl

/-! ### Trigrams -/

theorem fromUTF8?_eq_some {data : ByteArray} {t : String} :
    String.fromUTF8? data = some t ↔ t.toByteArray = data := by
  unfold String.fromUTF8?
  constructor
  · intro h
    split at h
    · cases h
      rfl
    · cases h
  · rintro rfl
    rw [dif_pos t.isValidUTF8]
    rfl

theorem utf8EncodeChar_ofNat {b : UInt8} (h : b < 128) :
    String.utf8EncodeChar (Char.ofNat b.toNat) = [b] := by
  have hall : ∀ n < 128, String.utf8EncodeChar (Char.ofNat n) = [UInt8.ofNat n] := by
    decide +kernel
  rw [hall b.toNat (UInt8.lt_iff_toNat_lt.mp h), UInt8.ofNat_toNat]

/-- Bytes of ASCII are text. -/
theorem exists_text_of_ascii {data : List UInt8} (h : ∀ b ∈ data, b < 128) :
    ∃ t : String, String.fromUTF8? ⟨data.toArray⟩ = some t := by
  refine ⟨String.ofList (data.map fun b => Char.ofNat b.toNat), ?_⟩
  have hbytes : (data.map fun b => Char.ofNat b.toNat).flatMap String.utf8EncodeChar = data := by
    rw [List.flatMap_map, List.flatMap_congr fun b hb => utf8EncodeChar_ofNat (h b hb)]
    exact List.flatMap_singleton' data
  rw [fromUTF8?_eq_some, String.toByteArray_ofList, List.utf8Encode, hbytes]
  exact ByteArray.ext (Array.toList_inj.mp List.toList_data_toByteArray)

theorem length_of_mem_trigramsOf {t : String} {data : Bytes} (h : t ∈ trigramsOf data) :
    (utf8 t).length = 3 := by
  fun_induction trigramsOf data with
  | case1 a b c rest ih =>
    rcases List.mem_append.mp h with h | h
    · have hbytes := fromUTF8?_eq_some.mp (Option.mem_toList.mp h)
      unfold utf8
      rw [String.toUTF8_eq_toByteArray, hbytes]
      rfl
    · exact ih h
  | case2 => cases h

theorem trigramsOf_utf8 {t : String} (h : (utf8 t).length = 3) : trigramsOf (utf8 t) = [t] := by
  obtain ⟨a, b, c, habc⟩ := List.length_eq_three.mp h
  have hbytes : t.toByteArray = ⟨#[a, b, c]⟩ := by
    have : t.toByteArray.data = #[a, b, c] := Array.toList_inj.mp habc
    rw [← this]
  rw [habc, trigramsOf, fromUTF8?_eq_some.mpr hbytes]
  rfl
theorem searchCode_eq_nil {d : Database} (h : ∀ k r, d.blobTrigrams.get k = some r →
    (utf8 (ofLex k).1).length ≠ 3) (lib : Library) (repoId query : String) (limit : Nat) :
    d.searchCode lib repoId query limit = [] := by
  have hhits : ∀ trigrams : List String, (∀ t ∈ trigrams, (utf8 t).length = 3) →
      ((select d.blobTrigrams fun row => row = repoId).filterMap fun e =>
        if (ofLex e.1).1 ∈ trigrams then some (ofLex e.1).2 else none) = [] := by
    intro trigrams htrigrams
    refine List.filterMap_eq_nil_iff.mpr fun e he => if_neg fun hin => ?_
    exact h e.1 e.2 (SortedMap.mem_entries.mp (List.mem_filter.mp he).1) (htrigrams _ hin)
  unfold Database.searchCode
  dsimp only
  rw [hhits]
  · change List.map _ (List.take limit []) = []
    rw [List.take_nil]
    rfl
  · intro t ht
    split at ht
    · cases ht
    · exact length_of_mem_trigramsOf ht

theorem searchCode_ne_nil {d : Database} {k : Key} {repoId : String}
    (hrow : d.blobTrigrams.get k = some repoId) (hlength : (utf8 (ofLex k).1).length = 3)
    (lib : Library) : d.searchCode lib repoId (ofLex k).1 1 ≠ [] := by
  unfold Database.searchCode
  rw [if_neg (by omega), trigramsOf_utf8 hlength]
  intro hnil
  have hnil := List.map_eq_nil_iff.mp hnil
  rw [List.take_eq_nil_iff] at hnil
  rcases hnil with hzero | hnil
  · cases hzero
  · have hnil := List.map_eq_nil_iff.mp (eq_nil_of_insertionSort hnil)
    have hhit : (ofLex k).2 ∈ SortedSet.ofList
        ((select d.blobTrigrams fun row => row = repoId).filterMap fun e =>
          if (ofLex e.1).1 ∈ [(ofLex k).1] then some (ofLex e.1).2 else none) := by
      refine SortedSet.mem_ofList.mpr (List.mem_filterMap.mpr ⟨(k, repoId), ?_, ?_⟩)
      · exact List.mem_filter.mpr ⟨SortedMap.mem_entries.mpr hrow, decide_eq_true rfl⟩
      · exact if_pos (List.mem_singleton.mpr rfl)
    have hmem : (ofLex k).2 ∈ SortedSet.elems _ := hhit
    rw [hnil] at hmem
    cases hmem

/-! ### The answers of a restored database -/

theorem rowsOf_mapValues {α β : Type} (f : Key → α → β) (table : SortedMap Key α) (repoId : String) :
    rowsOf (table.mapValues f) repoId =
      (rowsOf table repoId).map fun row => (row.1, f (key repoId row.1) row.2) := by
  unfold rowsOf SortedMap.mapValues
  dsimp only
  rw [List.filter_map, List.map_map, List.map_map]
  refine List.map_congr_left fun e he => ?_
  have hrepo : (ofLex e.1).1 = repoId := of_decide_eq_true (List.mem_filter.mp he).2
  rw [← hrepo]
  rfl

/-- Only the tables that are restored, and the patches as they are written again. -/
def afterRestore (d : Database) : Database :=
  { Database.fresh with
    repos := d.repos, patches := normalized d, branches := d.branches, blobs := d.blobs }

theorem patchesOf_afterRestore (d : Database) (repoId : String) :
    (afterRestore d).patchesOf repoId = d.patchesOf repoId := by
  unfold Database.patchesOf afterRestore normalized
  dsimp only
  rw [rowsOf_mapValues, List.map_map]
  exact List.map_congr_left fun row _ => PatchRow.toProto_ofProto (row.2.toProto row.1)

theorem getPatch_afterRestore (d : Database) (repoId patchId : String) :
    (afterRestore d).getPatch repoId patchId = d.getPatch repoId patchId := by
  unfold Database.getPatch afterRestore normalized
  dsimp only
  rw [SortedMap.get_mapValues, Option.map_map]
  cases d.patches.get (key repoId patchId) with
  | none => rfl
  | some row => exact congrArg some (PatchRow.toProto_ofProto (row.toProto patchId))

theorem sameReads_afterRestore {d : Database} (h : OnlyRepos d) (lib : Library) (limits : Limits) :
    SameReads lib limits d (afterRestore d) := by
  have hpatches := patchesOf_afterRestore d
  have hpatch := getPatch_afterRestore d
  have hsearch := searchCode_eq_nil h.blobTrigrams lib
  have hsearch' := searchCode_eq_nil (d := afterRestore d) (fun _ _ hrow => by cases hrow) lib
  obtain ⟨repos, patches, branches, blobs, protection, keys, tokens, users, issues, comments,
    pullRequests, reviews, webhooks, wikiPages, wikiHistory, releases, trigrams, metadata⟩ := d
  obtain ⟨-, -, -, -, hprotection, hkeys, htokens, husers, hissues, hcomments, hpulls, hreviews,
    hwebhooks, hpages, hreleases, -⟩ := h
  cases hprotection; cases hkeys; cases htokens; cases husers; cases hissues; cases hcomments
  cases hpulls; cases hreviews; cases hwebhooks; cases hpages; cases hreleases
  exact
    { listRepos := rfl
      repoCount := rfl
      repoExists := fun _ => rfl
      getRepoVisibility := fun _ => rfl
      searchRepos := fun _ => rfl
      getPatch := hpatch
      getPatchesBatch := fun r ids => by
        unfold Database.getPatchesBatch
        simp only [hpatch]
      getAllPatches := fun r offset limit => by
        unfold Database.getAllPatches Database.getAllPatchesUnbounded
        rw [hpatches]
      getAllPatchesUnbounded := fun r => by
        unfold Database.getAllPatchesUnbounded
        rw [hpatches]
      patchCount := fun r => by
        have hlength := congrArg List.length (hpatches r)
        unfold Database.patchesOf at hlength
        rwa [List.length_map, List.length_map] at hlength
      totalPatchCount := List.length_map ..
      searchPatches := fun r query => by
        unfold Database.searchPatches
        rw [hpatches]
      getBranches := fun _ => rfl
      getBranchTarget := fun _ _ => rfl
      isBranchProtected := fun _ _ => rfl
      getBlob := fun _ _ => rfl
      getAllBlobs := fun _ => rfl
      getBlobs := fun _ _ => rfl
      totalBlobStats := rfl
      getAuthorizedKey := fun _ => rfl
      hasAuthorizedKeys := rfl
      listSshKeys := fun _ => rfl
      getUser := fun _ => rfl
      getUserByToken := fun _ => rfl
      listUsers := rfl
      userCount := rfl
      hasUsers := rfl
      verifyToken := fun _ _ => rfl
      getTokenScopes := fun _ _ => rfl
      hasTokens := rfl
      listIssues := fun _ _ => rfl
      getIssue := fun _ => rfl
      listIssueComments := fun _ => rfl
      listPullRequests := fun _ _ => rfl
      getPullRequest := fun _ => rfl
      listPrReviews := fun _ => rfl
      listWebhooks := fun _ => rfl
      getWebhook := fun _ => rfl
      getWikiPage := fun _ _ => rfl
      listWikiPages := fun _ => rfl
      getWikiHistory := fun _ _ => rfl
      listReleases := fun _ => rfl
      getRelease := fun _ => rfl
      searchCode := fun r query limit => (hsearch' r query limit).trans (hsearch r query limit).symm }

/-- What is restored when every row belongs to a private repository. -/
theorem Restored.eq_afterRestore {d d' : Database} (h : Restored d d.listRepos.reverse d')
    (honly : OnlyRepos d) : d' = afterRestore d := by
  have hlisted : ∀ r, r ∈ d.listRepos.reverse ↔ d.repos.contains r = true := fun r => by
    rw [List.mem_reverse, SortedMap.contains_eq, Option.isSome_iff_ne_none]
    exact SortedMap.mem_keys
  have hrepos : d'.repos = d.repos := SortedMap.ext fun r => by
    rw [h.repos, if_congr (hlisted r) rfl rfl, SortedMap.contains_eq]
    cases hget : d.repos.get r with
    | none => rfl
    | some v => rw [honly.visibility r v hget]; rfl
  have hpatches : d'.patches = normalized d := SortedMap.ext fun k => by
    rw [h.patches, if_congr (hlisted _) rfl rfl]
    unfold normalized
    rw [SortedMap.get_mapValues]
    cases hget : d.patches.get k with
    | none => exact ite_self _
    | some row => rw [if_pos (honly.patches k row hget)]
  have hbranches : d'.branches = d.branches := SortedMap.ext fun k => by
    rw [h.branches, if_congr (hlisted _) rfl rfl]
    cases hget : d.branches.get k with
    | none => exact ite_self _
    | some target => rw [if_pos (honly.branches k target hget)]
  have hblobs : d'.blobs = d.blobs := SortedMap.ext fun k => by
    rw [h.blobs, if_congr (hlisted _) rfl rfl]
    cases hget : d.blobs.get k with
    | none => exact ite_self _
    | some data => rw [if_pos (honly.blobs k data hget)]
  rw [h.others, hrepos, hpatches, hbranches, hblobs]
  rfl

theorem contains_of_ite_eq_some {d : Database} {α : Type} {o : Option α} {r : String} {row : α}
    (h : (if r ∈ d.listRepos.reverse then o else none) = some row) : d.repos.contains r = true := by
  split at h
  · rename_i hlisted
    rw [SortedMap.contains_eq, Option.isSome_iff_ne_none]
    exact SortedMap.mem_keys.mp (List.mem_reverse.mp hlisted)
  · cases h

/-- The other tables are empty after a restore, so they were empty before. -/
theorem onlyRepos_of_sameReads {d d' : Database} (h : Restored d d.listRepos.reverse d')
    {lib : Library} {limits : Limits} (hsame : SameReads lib limits d d') : OnlyRepos d := by
  have hlost := hsame
  rw [h.others] at hlost
  constructor
  case visibility =>
    intro r v hv
    have hlisted : r ∈ d.listRepos.reverse := by
      refine List.mem_reverse.mpr (SortedMap.mem_keys.mpr ?_)
      rw [hv]
      exact Option.some_ne_none v
    have hread := hsame.getRepoVisibility r
    unfold Database.getRepoVisibility at hread
    rw [h.repos, if_pos hlisted, hv] at hread
    exact hread.symm
  case patches =>
    intro k row hrow
    have hread := hsame.getPatch (ofLex k).1 (ofLex k).2
    change (d'.patches.get k).map _ = (d.patches.get k).map _ at hread
    rw [hrow, Option.map_some, Option.map_eq_some_iff] at hread
    obtain ⟨row', hrow', -⟩ := hread
    rw [h.patches] at hrow'
    exact contains_of_ite_eq_some hrow'
  case branches =>
    intro k target htarget
    have hread := hsame.getBranchTarget (ofLex k).1 (ofLex k).2
    change d'.branches.get k = d.branches.get k at hread
    rw [htarget, h.branches] at hread
    exact contains_of_ite_eq_some hread
  case blobs =>
    intro k data hdata
    have hread := hsame.getBlob (ofLex k).1 (ofLex k).2
    change d'.blobs.get k = d.blobs.get k at hread
    rw [hdata, h.blobs] at hread
    exact contains_of_ite_eq_some hread
  case branchProtection =>
    refine SortedSet.ext fun k => ⟨fun hk => ?_, fun hk => nomatch hk⟩
    have hread := hlost.isBranchProtected (ofLex k).1 (ofLex k).2
    exact absurd (hread.trans (decide_eq_true hk)) Bool.false_ne_true
  case authorizedKeys =>
    exact eq_empty_of_entries (not_not.mp (of_decide_eq_false hlost.hasAuthorizedKeys.symm))
  case tokens => exact eq_empty_of_entries (not_not.mp (of_decide_eq_false hlost.hasTokens.symm))
  case users => exact eq_empty_of_entries hlost.listUsers.symm
  case issues => exact SortedMap.ext fun id => (hlost.getIssue id).symm
  case issueComments =>
    exact eq_empty_of_select fun id => eq_nil_of_insertionSort (hlost.listIssueComments id).symm
  case pullRequests => exact SortedMap.ext fun id => (hlost.getPullRequest id).symm
  case prReviews =>
    exact eq_empty_of_select fun id => eq_nil_of_insertionSort (hlost.listPrReviews id).symm
  case webhooks =>
    exact eq_empty_of_select fun r => eq_nil_of_insertionSort (hlost.listWebhooks r).symm
  case wikiPages =>
    exact eq_empty_of_select fun r => eq_nil_of_insertionSort (hlost.listWikiPages r).symm
  case releases => exact SortedMap.ext fun id => (hlost.getRelease id).symm
  case blobTrigrams =>
    intro k r hrow hlength
    refine searchCode_ne_nil hrow hlength lib ?_
    exact (hlost.searchCode r (ofLex k).1 1).symm.trans
      (searchCode_eq_nil (fun _ _ hnone => by cases hnone) lib r (ofLex k).1 1)

/-! ### When a restore undoes the backup -/

/-- Only private repositories, with all their blobs in the database and none too large. -/
structure Restorable (hub : Hub) : Prop where
  database : OnlyRepos hub.database
  fits : ∀ k data, hub.database.blobs.get k = some data → data.length ≤ hub.limits.maxBlobSize
  backend : ∀ backend, hub.blobBackend = some backend →
    ∀ r hash, backend r hash = .ok (hub.database.getBlob r hash)

theorem restoreBackup_manifest {limits : Limits} {d d' backup : Database} {now version : String}
    {stats : RestoreStats} (h : restoreFromDb limits d backup = (.ok stats, d'))
    (hcount : stats.reposRestored = backup.repos.entries.length) :
    restoreBackup limits d ⟨some (.ok (buildManifest now version backup)), some backup⟩ =
      (.ok stats, d') := by
  unfold restoreBackup
  dsimp only
  rw [if_neg fun hne => hne rfl, h]
  exact if_neg fun hne => hne hcount

theorem restoreFromDb_of_restoreBackup {limits : Limits} {d d' backup : Database}
    {now version : String} {stats : RestoreStats}
    (h : restoreBackup limits d ⟨some (.ok (buildManifest now version backup)), some backup⟩ =
      (.ok stats, d')) : restoreFromDb limits d backup = (.ok stats, d') := by
  unfold restoreBackup at h
  dsimp only at h
  rw [if_neg fun hne => hne rfl] at h
  split at h
  · cases h
  · rename_i stats₁ d₁ hrun
    split at h
    · cases h
    · cases h
      exact hrun

theorem restoreUndoes_of_restorable (lib : Library) {hub : Hub} (h : Restorable hub) :
    RestoreUndoes lib hub := by
  intro now version outputDir
  have hfits : ∀ r ∈ hub.database.listRepos, ∀ row ∈ rowsOf hub.database.blobs r,
      row.2.length ≤ hub.limits.maxBlobSize := fun r _ row hrow => h.fits _ _ (mem_rowsOf.mp hrow)
  obtain ⟨stats, d', hrun, hcount, hrestored⟩ :=
    restoreRepos_restored hub.database.listRepos hfits (restored_nil hub.database) ⟨0, 0, 0⟩
  rw [List.append_nil] at hrestored
  have hcount : stats.reposRestored = hub.database.repos.entries.length := by
    rw [hcount, Nat.zero_add, Database.listRepos, SortedMap.keys, List.length_map]
  have hd' := hrestored.eq_afterRestore h.database
  refine ⟨_, _, stats, d', rfl, restoreBackup_manifest hrun hcount, ?_, fun r hash => ?_⟩
  · rw [hd']
    exact sameReads_afterRestore h.database lib hub.limits
  · rw [hd']
    unfold Hub.blobGet
    cases hbackend : hub.blobBackend with
    | none => rfl
    | some backend => exact (h.backend backend hbackend r hash).symm

theorem restorable_of_restoreUndoes {lib : Library} {hub : Hub} (h : RestoreUndoes lib hub) :
    Restorable hub := by
  obtain ⟨manifest, dir, stats, d', hbackup, hrestore, hsame, hblobs⟩ := h "" "" ""
  cases hbackup
  have hrun := restoreFromDb_of_restoreBackup hrestore
  have hfits := fits_of_restoreRepos hrun
  obtain ⟨stats', d'', hrun', -, hrestored⟩ :=
    restoreRepos_restored hub.database.listRepos hfits (restored_nil hub.database) ⟨0, 0, 0⟩
  rw [List.append_nil] at hrestored
  cases (Prod.ext_iff.mp (hrun.symm.trans hrun')).2
  have honly := onlyRepos_of_sameReads hrestored hsame
  refine ⟨honly, fun k data hdata => ?_, fun backend hbackend r hash => ?_⟩
  · have hlisted : (ofLex k).1 ∈ hub.database.listRepos := by
      refine SortedMap.mem_keys.mpr ?_
      exact Option.isSome_iff_ne_none.mp (honly.blobs k data hdata)
    exact hfits _ hlisted ((ofLex k).2, data) (mem_rowsOf.mpr hdata)
  · have hread := hblobs r hash
    unfold Hub.blobGet at hread
    rw [hbackend] at hread
    exact hread.symm.trans (congrArg Except.ok (hsame.getBlob r hash))

/-- A restore undoes the backup exactly if there is nothing but private repositories, whose
blobs are in the database and not too large. -/
theorem restoreUndoes_iff (lib : Library) (hub : Hub) : RestoreUndoes lib hub ↔ Restorable hub :=
  ⟨restorable_of_restoreUndoes, restoreUndoes_of_restorable lib⟩

/-- One repository whose branch `main` is protected. -/
def protectedHub : Hub :=
  ⟨(Database.fresh.ensureRepo "r").protectBranch "r" "main", ⟨52428800, 10000⟩, none⟩

theorem protection_not_restored :
    protectedHub.database.isBranchProtected "r" "main" = true ∧
      ∀ lib, ¬ RestoreUndoes lib protectedHub := by
  have hprotected : protectedHub.database.isBranchProtected "r" "main" = true := by decide
  refine ⟨hprotected, fun lib h => ?_⟩
  obtain ⟨manifest, dir, stats, d', hbackup, hrestore, hsame, -⟩ := h "" "" ""
  cases hbackup
  have hread := (hsame.isBranchProtected "r" "main").trans hprotected
  have hrestored : d' = _ := (congrArg Prod.snd hrestore).symm
  rw [hrestored] at hread
  revert hread
  decide

end Suture.Wire
