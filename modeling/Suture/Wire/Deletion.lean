import Suture.Wire.CodeSearch
import Suture.Wire.Scopes

/-!
# What is left of a deleted repository

The reads that are keyed by a repository, and the five tables of which a deletion takes its
rows. What the other tables say of the repository stays.
-/

namespace Suture.Wire
set_option autoImplicit false
open Foundation

/-! ### The reads of a repository -/

namespace Database
variable (d : Database)

def parentIdsOf (repoId id : String) : List String :=
  ((d.getPatch repoId id).map fun p => p.parentIds.map HashProto.value).getD []

def getPatchesAt (repoId tipId : String) : List PatchProto :=
  ((d.getPatchesBatch repoId (discover (d.parentIdsOf repoId) .empty [tipId]).elems).map
    Prod.snd).insertionSort fun a b => older a b

def getTreeAtBranch (repoId branch : String) : List TreeEntry :=
  match d.getBranchTarget repoId branch with
  | none => []
  | some tipId =>
    let patches := (d.getPatchesAt repoId tipId).insertionSort fun a b => older a b
    (patches.foldl replay .empty).entries.map fun e => ⟨e.1, e.2⟩

end Database

/-- A fork and its parent have the time of the fork. -/
structure HubDatabase extends Database where
  forkRelationships : SortedMap Key Int
deriving DecidableEq

/-- What is read by the id of one repository. -/
structure RepoView where
  repoExists : Bool
  getRepoVisibility : String
  getPatch : String → Option PatchProto
  getAllPatches : Nat → Nat → List PatchProto
  getAllPatchesUnbounded : List PatchProto
  patchCount : Nat
  searchPatches : String → List PatchProto
  getBranches : List BranchProto
  getBranchTarget : String → Option String
  isBranchProtected : String → Bool
  getPatchesAt : String → List PatchProto
  getTreeAtBranch : String → List TreeEntry
  getBlob : String → Option Bytes
  getAllBlobs : List BlobRef
  getBlobs : List String → List BlobRef
  searchCode : String → Nat → List CodeSearchResult
  listIssues : Option String → List (Int × IssueRow)
  listPullRequests : Option String → List (Int × PullRequestRow)
  listWebhooks : List (String × WebhookRow)
  getWikiPage : String → Option (Int × WikiPageRow)
  listWikiPages : List (Int × WikiPageRow)
  getWikiHistory : String → List (Int × WikiHistoryRow)
  listReleases : List (Int × ReleaseRow)
  getForkParent : Option String
  listForks : List String

/-- There is no repository; a repository without a row counts as private. -/
def RepoView.empty : RepoView where
  repoExists := false
  getRepoVisibility := "private"
  getPatch _ := none
  getAllPatches _ _ := []
  getAllPatchesUnbounded := []
  patchCount := 0
  searchPatches _ := []
  getBranches := []
  getBranchTarget _ := none
  isBranchProtected _ := false
  getPatchesAt _ := []
  getTreeAtBranch _ := []
  getBlob _ := none
  getAllBlobs := []
  getBlobs _ := []
  searchCode _ _ := []
  listIssues _ := []
  listPullRequests _ := []
  listWebhooks := []
  getWikiPage _ := none
  listWikiPages := []
  getWikiHistory _ := []
  listReleases := []
  getForkParent := none
  listForks := []

namespace HubDatabase
variable (lib : Library) (limits : Limits) (d : HubDatabase) (repoId : String)

def getForkParent : Option String := (rowsOf d.forkRelationships repoId).head?.map Prod.fst

def listForks : List String :=
  (d.forkRelationships.entries.filter fun e => (ofLex e.1).2 = repoId).map fun e => (ofLex e.1).1

def view : RepoView where
  repoExists := d.repoExists repoId
  getRepoVisibility := d.getRepoVisibility repoId
  getPatch := d.getPatch repoId
  getAllPatches := d.getAllPatches limits repoId
  getAllPatchesUnbounded := d.getAllPatchesUnbounded repoId
  patchCount := d.patchCount repoId
  searchPatches := d.searchPatches lib repoId
  getBranches := d.getBranches repoId
  getBranchTarget := d.getBranchTarget repoId
  isBranchProtected := d.isBranchProtected repoId
  getPatchesAt := d.getPatchesAt repoId
  getTreeAtBranch := d.getTreeAtBranch repoId
  getBlob := d.getBlob repoId
  getAllBlobs := d.getAllBlobs limits repoId
  getBlobs := d.getBlobs limits repoId
  searchCode := d.searchCode lib repoId
  listIssues := d.listIssues repoId
  listPullRequests := d.listPullRequests repoId
  listWebhooks := d.listWebhooks repoId
  getWikiPage := d.getWikiPage repoId
  listWikiPages := d.listWikiPages repoId
  getWikiHistory := d.getWikiHistory repoId
  listReleases := d.listReleases repoId
  getForkParent := d.getForkParent repoId
  listForks := d.listForks repoId

/-! ### Deletion -/

def fresh : HubDatabase := ⟨.fresh, .empty⟩

def ensureRepo : HubDatabase := { d with toDatabase := d.toDatabase.ensureRepo repoId }

/-- Where foreign keys are checked, a repository with webhooks keeps its row. -/
def Deletable (foreignKeys : Bool) (repos : SortedMap String String)
    (webhooks : SortedMap String WebhookRow) : Prop :=
  foreignKeys = false ∨ repos.contains repoId = false ∨
    (select webhooks fun row => row.repoId = repoId) = []
deriving Decidable

def deleteRepo (foreignKeys : Bool) : Program HubDatabase DatabaseError Unit := do
  .modify fun d => { d with patches := d.patches.retain fun k _ => !inRepo repoId k }
  .modify fun d => { d with branches := d.branches.retain fun k _ => !inRepo repoId k }
  .modify fun d => { d with blobs := d.blobs.retain fun k _ => !inRepo repoId k }
  .modify fun d => { d with
    branchProtection := .ofList (d.branchProtection.elems.filter fun k => !inRepo repoId k) }
  let d ← .read
  .require (Deletable repoId foreignKeys d.repos d.webhooks) .foreignKeyViolated
  .modify fun d => { d with repos := d.repos.erase repoId }

end HubDatabase

/-! ### Tables that agree on some rows -/

section Tables
variable {κ α : Type} [LinearOrder κ]

theorem select_congr {table table' : SortedMap κ α} {keep : α → Bool}
    (h : ∀ k row, keep row = true → (table.get k = some row ↔ table'.get k = some row)) :
    select table keep = select table' keep := by
  have hretain : table.retain (fun _ => keep) = table'.retain fun _ => keep := by
    refine SortedMap.ext fun k => ?_
    rw [SortedMap.get_retain, SortedMap.get_retain]
    refine Option.ext fun row => ?_
    rw [Option.filter_eq_some_iff, Option.filter_eq_some_iff]
    exact and_congr_left fun hkeep => h k row hkeep
  exact congrArg SortedMap.entries hretain

theorem rowsOf_congr {table table' : SortedMap Key α} {repoId : String}
    (h : ∀ name, table.get (key repoId name) = table'.get (key repoId name)) :
    rowsOf table repoId = rowsOf table' repoId := by
  have hretain : (table.retain fun k _ => inRepo repoId k) =
      table'.retain fun k _ => inRepo repoId k := by
    refine SortedMap.retain_congr fun k hk => ?_
    obtain rfl := of_decide_eq_true hk
    exact h (ofLex k).2
  exact congrArg (List.map _) (congrArg SortedMap.entries hretain)

theorem hits_eq (d : Database) (trigrams : List String) (repoId : String) :
    hits d trigrams repoId = (d.blobTrigrams.retain fun k row =>
      row = repoId && decide ((ofLex k).1 ∈ trigrams)).entries.map fun e => (ofLex e.1).2 := by
  unfold hits select SortedMap.retain
  rw [← List.filterMap_eq_map', List.filterMap_filter, List.filterMap_filter]
  refine List.filterMap_congr fun e _ => ?_
  by_cases hrow : e.2 = repoId <;> by_cases ht : (ofLex e.1).1 ∈ trigrams <;> simp [hrow, ht]

theorem hits_congr {d e : Database} {repoId : String} {trigrams : List String}
    (h : ∀ t ∈ trigrams, ∀ hash, d.blobTrigrams.get (key t hash) = some repoId ↔
      e.blobTrigrams.get (key t hash) = some repoId) :
    hits d trigrams repoId = hits e trigrams repoId := by
  have hretain : (d.blobTrigrams.retain fun k row =>
      row = repoId && decide ((ofLex k).1 ∈ trigrams)) = e.blobTrigrams.retain fun k row =>
      row = repoId && decide ((ofLex k).1 ∈ trigrams) := by
    refine SortedMap.ext fun k => Option.ext fun row => ?_
    rw [SortedMap.get_retain, SortedMap.get_retain, Option.filter_eq_some_iff,
      Option.filter_eq_some_iff]
    refine and_congr_left fun hkeep => ?_
    obtain ⟨hrow, ht⟩ := Bool.and_eq_true_iff.mp hkeep
    obtain rfl := of_decide_eq_true hrow
    exact h _ (of_decide_eq_true ht) (ofLex k).2
  rw [hits_eq, hits_eq, hretain]

end Tables

/-- The same rows of a repository, and of the pages and blobs that are read with them. -/
structure SameRows (d e : HubDatabase) (repoId : String) : Prop where
  repos : d.repos.get repoId = e.repos.get repoId
  patches : ∀ id, d.patches.get (key repoId id) = e.patches.get (key repoId id)
  branches : ∀ name, d.branches.get (key repoId name) = e.branches.get (key repoId name)
  blobs : ∀ hash, d.blobs.get (key repoId hash) = e.blobs.get (key repoId hash)
  protection : ∀ name, key repoId name ∈ d.branchProtection ↔ key repoId name ∈ e.branchProtection
  trigrams : ∀ t hash, (utf8 t).length = 3 → (d.blobTrigrams.get (key t hash) = some repoId ↔
    e.blobTrigrams.get (key t hash) = some repoId)
  metadata : ∀ t hash, (utf8 t).length = 3 → d.blobTrigrams.get (key t hash) = some repoId →
    d.blobMetadata.get hash = e.blobMetadata.get hash
  issues : ∀ id row, row.repoId = repoId → (d.issues.get id = some row ↔ e.issues.get id = some row)
  pullRequests : ∀ id row, row.repoId = repoId →
    (d.pullRequests.get id = some row ↔ e.pullRequests.get id = some row)
  webhooks : ∀ id row, row.repoId = repoId →
    (d.webhooks.get id = some row ↔ e.webhooks.get id = some row)
  wikiPages : ∀ id row, row.repoId = repoId →
    (d.wikiPages.get id = some row ↔ e.wikiPages.get id = some row)
  wikiHistory : ∀ id page, d.wikiPages.get id = some page → page.repoId = repoId →
    ∀ k row, row.pageId = id → (d.wikiHistory.get k = some row ↔ e.wikiHistory.get k = some row)
  releases : ∀ id row, row.repoId = repoId →
    (d.releases.get id = some row ↔ e.releases.get id = some row)
  forkParents : ∀ parent, d.forkRelationships.get (key repoId parent) =
    e.forkRelationships.get (key repoId parent)
  forks : ∀ fork, d.forkRelationships.get (key fork repoId) =
    e.forkRelationships.get (key fork repoId)

namespace SameRows
variable {lib : Library} {limits : Limits} {d e : HubDatabase} {repoId : String}

theorem patchesOf (h : SameRows d e repoId) : d.patchesOf repoId = e.patchesOf repoId := by
  unfold Database.patchesOf
  rw [rowsOf_congr h.patches]

theorem getPatch (h : SameRows d e repoId) : d.getPatch repoId = e.getPatch repoId := by
  funext id
  unfold Database.getPatch
  rw [h.patches]

theorem getPatchesAt (h : SameRows d e repoId) : d.getPatchesAt repoId = e.getPatchesAt repoId := by
  funext tipId
  unfold Database.getPatchesAt Database.getPatchesBatch Database.parentIdsOf
  rw [h.getPatch]

theorem getTreeAtBranch (h : SameRows d e repoId) :
    d.getTreeAtBranch repoId = e.getTreeAtBranch repoId := by
  funext branch
  unfold Database.getTreeAtBranch Database.getBranchTarget
  rw [h.branches, h.getPatchesAt]

theorem searchCode (h : SameRows d e repoId) :
    d.searchCode lib repoId = e.searchCode lib repoId := by
  funext query limit
  let trigrams := if (utf8 query).length < 3 then [] else trigramsOf (utf8 query)
  have hlength : ∀ t ∈ trigrams, (utf8 t).length = 3 := by
    intro t ht
    simp only [trigrams] at ht
    split at ht
    · cases ht
    · exact length_of_mem_trigramsOf ht
  have hhits : hits d.toDatabase trigrams repoId = hits e.toDatabase trigrams repoId :=
    hits_congr fun t ht hash => h.trigrams t hash (hlength t ht)
  change ((((SortedSet.ofList (hits d.toDatabase trigrams repoId)).elems.map fun hash =>
    (hash, (hits d.toDatabase trigrams repoId).count hash)).insertionSort _).take limit).map _ =
    ((((SortedSet.ofList (hits e.toDatabase trigrams repoId)).elems.map fun hash =>
    (hash, (hits e.toDatabase trigrams repoId).count hash)).insertionSort _).take limit).map _
  rw [← hhits]
  refine List.map_congr_left fun result hresult => ?_
  have hmem := (List.perm_insertionSort _ _).mem_iff.mp (List.mem_of_mem_take hresult)
  obtain ⟨hash, hhash, rfl⟩ := List.mem_map.mp hmem
  obtain ⟨t, ht, hrow⟩ := mem_hits.mp (SortedSet.mem_ofList.mp hhash)
  unfold Database.getBlob
  rw [h.metadata t hash (hlength t ht) hrow, h.blobs]

theorem getWikiPage (h : SameRows d e repoId) : d.getWikiPage repoId = e.getWikiPage repoId := by
  funext title
  unfold Database.getWikiPage
  rw [select_congr fun id row hkeep => ?_]
  exact h.wikiPages id row (of_decide_eq_true (Bool.and_eq_true_iff.mp hkeep).1)

theorem getWikiHistory (h : SameRows d e repoId) :
    d.getWikiHistory repoId = e.getWikiHistory repoId := by
  funext title
  unfold Database.getWikiHistory
  rw [← h.getWikiPage]
  cases hpage : d.getWikiPage repoId title with
  | none => rfl
  | some p =>
    have hmem := List.mem_filter.mp (List.mem_of_head? hpage)
    have hrepo := of_decide_eq_true (Bool.and_eq_true_iff.mp hmem.2).1
    dsimp only
    rw [select_congr fun k row hkeep => ?_]
    exact h.wikiHistory p.1 p.2 (SortedMap.mem_entries.mp hmem.1) hrepo k row
      (of_decide_eq_true hkeep)

theorem view (h : SameRows d e repoId) : d.view lib limits repoId = e.view lib limits repoId := by
  unfold HubDatabase.view
  rw [RepoView.mk.injEq]
  refine ⟨?_, ?_, h.getPatch, ?_, ?_, ?_, ?_, ?_, ?_, ?_, h.getPatchesAt, h.getTreeAtBranch, ?_, ?_, ?_,
    h.searchCode, ?_, ?_, ?_, h.getWikiPage, ?_, h.getWikiHistory, ?_, ?_, ?_⟩
  · unfold Database.repoExists SortedMap.contains
    rw [h.repos]
  · unfold Database.getRepoVisibility
    rw [h.repos]
  · funext offset limit
    unfold Database.getAllPatches Database.getAllPatchesUnbounded
    rw [h.patchesOf]
  · unfold Database.getAllPatchesUnbounded
    rw [h.patchesOf]
  · unfold Database.patchCount
    rw [rowsOf_congr h.patches]
  · funext query
    unfold Database.searchPatches
    rw [h.patchesOf]
  · unfold Database.getBranches
    rw [rowsOf_congr h.branches]
  · funext name
    exact h.branches name
  · funext name
    exact decide_eq_decide.mpr (h.protection name)
  · funext hash
    exact h.blobs hash
  · unfold Database.getAllBlobs
    rw [rowsOf_congr h.blobs]
  · funext hashes
    unfold Database.getBlobs
    rw [rowsOf_congr h.blobs]
  · funext status
    unfold Database.listIssues
    rw [select_congr fun id row hkeep => ?_]
    exact h.issues id row (of_decide_eq_true (Bool.and_eq_true_iff.mp hkeep).1)
  · funext status
    unfold Database.listPullRequests
    rw [select_congr fun id row hkeep => ?_]
    exact h.pullRequests id row (of_decide_eq_true (Bool.and_eq_true_iff.mp hkeep).1)
  · unfold Database.listWebhooks
    rw [select_congr fun id row hkeep => h.webhooks id row (of_decide_eq_true hkeep)]
  · unfold Database.listWikiPages
    rw [select_congr fun id row hkeep => h.wikiPages id row (of_decide_eq_true hkeep)]
  · unfold Database.listReleases
    rw [select_congr fun id row hkeep => h.releases id row (of_decide_eq_true hkeep)]
  · unfold HubDatabase.getForkParent
    rw [rowsOf_congr h.forkParents]
  · have hretain : (d.forkRelationships.retain fun k _ => decide ((ofLex k).2 = repoId)) =
        e.forkRelationships.retain fun k _ => decide ((ofLex k).2 = repoId) := by
      refine SortedMap.retain_congr fun k hk => ?_
      obtain rfl := of_decide_eq_true hk
      exact h.forks (ofLex k).1
    exact congrArg (List.map _) (congrArg SortedMap.entries hretain)

end SameRows

/-! ### What a deletion does -/

section Deletion
variable {lib : Library} {limits : Limits} {foreignKeys : Bool} {d : HubDatabase} {repoId : String}

/-- The rows that are taken; the row of the repository stays where a webhook refers to it. -/
def HubDatabase.deleted (foreignKeys : Bool) (repoId : String) (d : HubDatabase) : HubDatabase :=
  ((HubDatabase.deleteRepo repoId foreignKeys) d).2

theorem deleted_eq : d.deleted foreignKeys repoId = { d with
    patches := d.patches.retain fun k _ => !inRepo repoId k
    branches := d.branches.retain fun k _ => !inRepo repoId k
    blobs := d.blobs.retain fun k _ => !inRepo repoId k
    branchProtection := .ofList (d.branchProtection.elems.filter fun k => !inRepo repoId k)
    repos := if HubDatabase.Deletable repoId foreignKeys d.repos d.webhooks then d.repos.erase repoId
      else d.repos } := by
  unfold HubDatabase.deleted HubDatabase.deleteRepo
  simp only [Program.modify_bind, Program.read_bind]
  by_cases h : HubDatabase.Deletable repoId foreignKeys d.repos d.webhooks
  · rw [Program.require_bind h, if_pos h]
    rfl
  · rw [Program.require_bind_of_not h, if_neg h]

/-- Other repositories read as before, whatever is stored. -/
theorem sameRows_deleted_other {other : String} (hne : other ≠ repoId) :
    SameRows (d.deleted foreignKeys repoId) d other := by
  rw [deleted_eq]
  exact
    { repos := by
        dsimp only
        split
        · rw [SortedMap.get_erase, if_neg hne]
        · rfl
      patches := get_retain_other d.patches hne
      branches := get_retain_other d.branches hne
      blobs := get_retain_other d.blobs hne
      protection := fun name => by
        have hkeep : inRepo repoId (key other name) = false := decide_eq_false hne
        exact mem_protection_deleted.trans (and_iff_left hkeep)
      trigrams := fun _ _ _ => Iff.rfl
      metadata := fun _ _ _ _ => rfl
      issues := fun _ _ _ => Iff.rfl
      pullRequests := fun _ _ _ => Iff.rfl
      webhooks := fun _ _ _ => Iff.rfl
      wikiPages := fun _ _ _ => Iff.rfl
      wikiHistory := fun _ _ _ _ _ _ _ => Iff.rfl
      releases := fun _ _ _ => Iff.rfl
      forkParents := fun _ => rfl
      forks := fun _ => rfl }

/-- No table from which nothing is deleted has a row of the repository. -/
structure NothingElse (d : HubDatabase) (repoId : String) : Prop where
  trigrams : ∀ t hash, (utf8 t).length = 3 → d.blobTrigrams.get (key t hash) ≠ some repoId
  issues : ∀ id row, d.issues.get id = some row → row.repoId ≠ repoId
  pullRequests : ∀ id row, d.pullRequests.get id = some row → row.repoId ≠ repoId
  webhooks : ∀ id row, d.webhooks.get id = some row → row.repoId ≠ repoId
  wikiPages : ∀ id row, d.wikiPages.get id = some row → row.repoId ≠ repoId
  releases : ∀ id row, d.releases.get id = some row → row.repoId ≠ repoId
  forkParents : ∀ parent, d.forkRelationships.get (key repoId parent) = none
  forks : ∀ fork, d.forkRelationships.get (key fork repoId) = none

theorem NothingElse.deletable (h : NothingElse d repoId) :
    HubDatabase.Deletable repoId foreignKeys d.repos d.webhooks := by
  refine .inr (.inr (List.filter_eq_nil_iff.mpr fun e he hrepo => ?_))
  exact h.webhooks e.1 e.2 (SortedMap.mem_entries.mp he) (of_decide_eq_true hrepo)

/-- Rows that neither table has. -/
theorem iff_of_none {κ α : Type} [LinearOrder κ] {table : SortedMap κ α} {repoOf : α → String}
    (h : ∀ id row, table.get id = some row → repoOf row ≠ repoId) (id : κ) (row : α)
    (hrow : repoOf row = repoId) :
    table.get id = some row ↔ (SortedMap.empty : SortedMap κ α).get id = some row :=
  ⟨fun hget => absurd hrow (h id row hget), nofun⟩

/-- After the deletion, the repository has its row or none, and nothing else. -/
theorem NothingElse.sameRows (h : NothingElse d repoId) {repos repos' : SortedMap String String}
    (hrepos : repos.get repoId = repos'.get repoId) :
    SameRows { d.deleted foreignKeys repoId with repos := repos }
      { HubDatabase.fresh with repos := repos' } repoId := by
  rw [deleted_eq]
  exact
    { repos := hrepos
      patches := get_retain_same d.patches repoId
      branches := get_retain_same d.branches repoId
      blobs := get_retain_same d.blobs repoId
      protection := fun name => by
        have hdrop : inRepo repoId (key repoId name) = true := decide_eq_true rfl
        refine mem_protection_deleted.trans ⟨fun hand => ?_, nofun⟩
        rw [hdrop] at hand
        cases hand.2
      trigrams := fun t hash hlength => ⟨fun hrow => absurd hrow (h.trigrams t hash hlength), nofun⟩
      metadata := fun t hash hlength hrow => absurd hrow (h.trigrams t hash hlength)
      issues := iff_of_none h.issues
      pullRequests := iff_of_none h.pullRequests
      webhooks := iff_of_none h.webhooks
      wikiPages := iff_of_none h.wikiPages
      wikiHistory := fun id page hpage hrepo => absurd hrepo (h.wikiPages id page hpage)
      releases := iff_of_none h.releases
      forkParents := h.forkParents
      forks := h.forks }

theorem getPatchesAt_fresh (repoId tipId : String) :
    HubDatabase.fresh.getPatchesAt repoId tipId = [] := by
  have hnone : HubDatabase.fresh.getPatchesBatch repoId
      (discover (HubDatabase.fresh.parentIdsOf repoId) .empty [tipId]).elems = [] :=
    List.filterMap_eq_nil_iff.mpr fun _ _ => rfl
  unfold Database.getPatchesAt
  rw [hnone]
  rfl

theorem view_fresh (lib : Library) (limits : Limits) (repoId : String) :
    HubDatabase.fresh.view lib limits repoId = .empty := by
  unfold HubDatabase.view RepoView.empty
  rw [RepoView.mk.injEq]
  refine ⟨rfl, rfl, rfl, ?_, rfl, rfl, rfl, rfl, rfl, rfl, ?_, rfl, rfl, rfl, rfl, ?_, rfl, rfl, rfl,
    rfl, rfl, rfl, rfl, rfl, rfl⟩
  · funext offset limit
    have hdrop : HubDatabase.fresh.getAllPatchesUnbounded repoId = [] := rfl
    unfold Database.getAllPatches
    rw [hdrop, List.drop_nil, List.take_nil]
  · funext tipId
    exact getPatchesAt_fresh repoId tipId
  · funext query limit
    exact searchCode_eq_nil (fun _ _ hrow => by cases hrow) lib repoId query limit

/-- The reads of the repository are empty, a repository created again is as in a fresh hub, and
the reads of the others are what they were. -/
structure ErasesExactly (lib : Library) (limits : Limits) (foreignKeys : Bool) (d : HubDatabase)
    (repoId : String) : Prop where
  erased : (d.deleted foreignKeys repoId).view lib limits repoId = .empty
  recreated : ((d.deleted foreignKeys repoId).ensureRepo repoId).view lib limits repoId =
    (HubDatabase.fresh.ensureRepo repoId).view lib limits repoId
  others : ∀ other, other ≠ repoId →
    (d.deleted foreignKeys repoId).view lib limits other = d.view lib limits other

/-- No row of a table that is empty when it is read. -/
theorem ne_of_select_eq_nil {κ α : Type} [LinearOrder κ] {table : SortedMap κ α} {keep : α → Bool}
    (h : select table keep = []) {id : κ} {row : α} (hget : table.get id = some row) :
    keep row ≠ true :=
  List.filter_eq_nil_iff.mp h (id, row) (SortedMap.mem_entries.mpr hget)

theorem NothingElse.of_erased (h : (d.deleted foreignKeys repoId).view lib limits repoId = .empty) :
    NothingElse d repoId := by
  have hsearch := congrArg RepoView.searchCode h
  rw [deleted_eq] at h
  exact
    { trigrams := fun t hash hlength hrow => by
        have hrow' : (d.deleted foreignKeys repoId).blobTrigrams.get (key t hash) = some repoId := by
          rw [deleted_eq]
          exact hrow
        exact searchCode_ne_nil hrow' hlength lib (congrFun (congrFun hsearch t) 1)
      issues := fun id row hget hrepo => by
        have hnil := eq_nil_of_insertionSort (congrFun (congrArg RepoView.listIssues h) none)
        exact ne_of_select_eq_nil hnil hget (by rw [hrepo]; simp)
      pullRequests := fun id row hget hrepo => by
        have hnil := eq_nil_of_insertionSort (congrFun (congrArg RepoView.listPullRequests h) none)
        exact ne_of_select_eq_nil hnil hget (by rw [hrepo]; simp)
      webhooks := fun id row hget hrepo => by
        have hnil := eq_nil_of_insertionSort (congrArg RepoView.listWebhooks h)
        exact ne_of_select_eq_nil hnil hget (decide_eq_true hrepo)
      wikiPages := fun id row hget hrepo => by
        have hnil := eq_nil_of_insertionSort (congrArg RepoView.listWikiPages h)
        exact ne_of_select_eq_nil hnil hget (decide_eq_true hrepo)
      releases := fun id row hget hrepo => by
        have hnil := eq_nil_of_insertionSort (congrArg RepoView.listReleases h)
        exact ne_of_select_eq_nil hnil hget (decide_eq_true hrepo)
      forkParents := fun parent => by
        have hnil := List.head?_eq_none_iff.mp
          (Option.map_eq_none_iff.mp (congrArg RepoView.getForkParent h))
        cases hget : d.forkRelationships.get (key repoId parent) with
        | none => rfl
        | some time =>
          have hmem := mem_rowsOf.mpr hget
          rw [show rowsOf d.forkRelationships repoId = [] from hnil] at hmem
          cases hmem
      forks := fun fork => by
        have hnil := List.filter_eq_nil_iff.mp
          (List.map_eq_nil_iff.mp (congrArg RepoView.listForks h))
        cases hget : d.forkRelationships.get (key fork repoId) with
        | none => rfl
        | some time =>
          exact absurd (decide_eq_true rfl) (hnil (key fork repoId, time)
            (SortedMap.mem_entries.mpr hget)) }

end Deletion

theorem get_ensureRepo_of_none {d : HubDatabase} {repoId : String} (h : d.repos.get repoId = none) :
    (d.ensureRepo repoId).repos.get repoId = some "private" := by
  have hnew : d.repos.contains repoId = false := by
    rw [SortedMap.contains_eq, h]
    rfl
  unfold HubDatabase.ensureRepo Database.ensureRepo
  rw [hnew]
  exact (SortedMap.get_insert d.repos repoId repoId "private").trans (if_pos rfl)

theorem delete_erases_iff (lib : Library) (limits : Limits) (foreignKeys : Bool) (d : HubDatabase)
    (repoId : String) :
    ErasesExactly lib limits foreignKeys d repoId ↔ NothingElse d repoId := by
  constructor
  · exact fun h => .of_erased h.erased
  · intro h
    have hrepos : (d.deleted foreignKeys repoId).repos.get repoId = none := by
      rw [deleted_eq, if_pos h.deletable, SortedMap.get_erase, if_pos rfl]
    have hcreated : ((d.deleted foreignKeys repoId).ensureRepo repoId).repos.get repoId =
        (HubDatabase.fresh.ensureRepo repoId).repos.get repoId :=
      (get_ensureRepo_of_none hrepos).trans (get_ensureRepo_of_none rfl).symm
    exact
      { erased := by
          have hsame : SameRows (d.deleted foreignKeys repoId) .fresh repoId := h.sameRows hrepos
          rw [hsame.view, view_fresh]
        recreated := by
          unfold HubDatabase.ensureRepo
          rw [Database.ensureRepo_eq, Database.ensureRepo_eq]
          exact (h.sameRows hcreated).view
        others := fun other hne => (sameRows_deleted_other hne).view }

/-- A repository with one open issue. -/
def openIssue : HubDatabase :=
  { HubDatabase.fresh.ensureRepo "r" with
    issues := SortedMap.empty.insert 1 ⟨"r", "a", "", "open", "alice", none, [], 0, 0, none⟩ }

/-- The issue outlives its repository, and is an issue of the next one with that name. -/
theorem issue_outlives_repo :
    (openIssue.deleted true "r").repoExists "r" = false ∧
      ((openIssue.deleted true "r").ensureRepo "r").listIssues "r" none =
        [(1, ⟨"r", "a", "", "open", "alice", none, [], 0, 0, none⟩)] ∧
      ∀ lib limits foreignKeys, ¬ ErasesExactly lib limits foreignKeys openIssue "r" := by
  refine ⟨by decide, by decide, fun lib limits foreignKeys h => ?_⟩
  have hnil : (openIssue.deleted foreignKeys "r").listIssues "r" none = [] :=
    congrFun (congrArg RepoView.listIssues h.erased) none
  revert hnil
  cases foreignKeys with
  | false => decide
  | true => decide

end Suture.Wire
