import Suture.Repo.Reachable
import Suture.Wire.Server

/-!
# The tree that the hub shows

The hub replays the patches below a branch by itself. It looks for operations under other
names than the command line sends them, so it finds none.
-/

namespace Suture.Wire
set_option autoImplicit false
open Foundation Common Patches Engine Repo

/-! ### What the command line sends -/

/-- `Display` of the operations. -/
def displayOperationType : OperationType → String
  | .create => "create"
  | .delete => "delete"
  | .modify => "modify"
  | .move => "move"
  | .metadata => "metadata"
  | .merge => "merge"
  | .identity => "identity"
  | .batch => "batch"

def base64Char (n : Nat) : Char :=
  "ABCDEFGHIJKLMNOPQRSTUVWXYZabcdefghijklmnopqrstuvwxyz0123456789+/".toList.getD n '='

/-- Three bytes are four digits; a shorter end is padded. -/
def base64Chars : Bytes → List Char
  | a :: b :: c :: rest =>
    let n := a.toNat * 65536 + b.toNat * 256 + c.toNat
    [n / 262144, n / 4096 % 64, n / 64 % 64, n % 64].map base64Char ++ base64Chars rest
  | [a, b] =>
    let n := a.toNat * 256 + b.toNat
    [n / 1024, n / 16 % 64, n * 4 % 64].map base64Char ++ ['=']
  | [a] => [a.toNat / 4, a.toNat * 16 % 64].map base64Char ++ ['=', '=']
  | [] => []

def base64Encode (data : Bytes) : String := String.ofList (base64Chars data)

section Client
variable {H : Type} [Hashing H]

def textBytes : Text H → Bytes
  | .empty => []
  | .hex hash => utf8 (Hashing.toHex hash)
  | .utf8 text => utf8 text
  | .binary data => data

def payloadBytes : Payload H → Bytes
  | .text text => textBytes text
  | .changes fileChanges => utf8 (Hashing.changesJson fileChanges)

def patchToProto (patch : Patch H) : PatchProto where
  id := ⟨Hashing.toHex patch.id⟩
  operationType := displayOperationType patch.operationType
  touchSet := patch.touchSet.elems
  targetPath := patch.targetPath
  payload := base64Encode (payloadBytes patch.payload)
  parentIds := patch.parentIds.map fun id => ⟨Hashing.toHex id⟩
  author := patch.author
  message := patch.message
  timestamp := .ofNat patch.timestamp

end Client

/-! ### What the hub reads -/

structure TreeEntry where
  path : String
  contentHash : String
deriving DecidableEq, Repr

/-- The ids that a search in batches visits; it stops when there are more than 100 000. -/
def discover (parentsOf : String → List String) (visited : SortedSet String)
    (frontier : List String) : SortedSet String :=
  let fresh := (SortedSet.ofList frontier).elems.filter fun id => decide (id ∉ visited)
  if _hfresh : fresh = [] then visited
  else
    let visited' := fresh.foldl (fun s a => s.insert a) visited
    if _hlimit : visited'.elems.length > 100000 then visited'
    else discover parentsOf visited'
      ((fresh.flatMap parentsOf).filter fun id => decide (id ∉ visited'))
termination_by 100001 - visited.elems.length
decreasing_by
  have hnodup : fresh.Nodup := (SortedSet.nodup _).filter _
  have hlength := Hub.length_foldl_insert hnodup (s := visited) fun a ha =>
    of_decide_eq_true (List.mem_filter.mp ha).2
  have hpos := List.length_pos_of_ne_nil _hfresh
  simp only [visited', fresh] at *
  omega

/-- By time, then by id. -/
def older (a b : PatchProto) : Bool :=
  a.timestamp < b.timestamp || (a.timestamp = b.timestamp && a.id.value ≤ b.id.value)

/-- What a patch does to the tree that is shown. -/
def replay (tree : SortedMap String String) (patch : PatchProto) : SortedMap String String :=
  match patch.targetPath with
  | none => tree
  | some path =>
    if patch.operationType = "Create" ∨ patch.operationType = "Modify" then
      tree.insert path patch.payload
    else if patch.operationType = "Delete" then tree.erase path
    else tree

namespace HubStorage

def getPatchesBatch (store : HubStorage) (repoId : String) (ids : List String) : List PatchProto :=
  ids.filterMap fun id => store.patches.get (key repoId id)

def getPatchesAt (store : HubStorage) (repoId tipId : String) : List PatchProto :=
  (store.getPatchesBatch repoId
    (discover (store.parentIdsOf repoId) .empty [tipId]).elems).insertionSort fun a b => older a b

def getTreeAtBranch (store : HubStorage) (repoId branch : String) : List TreeEntry :=
  match store.branches.get (key repoId branch) with
  | none => []
  | some tipId =>
    let patches := (store.getPatchesAt repoId tipId).insertionSort fun a b => older a b
    (patches.foldl replay .empty).entries.map fun e => ⟨e.1, e.2⟩

end HubStorage

/-! ### The two trees -/

section Trees
variable {H : Type} [LinearOrder H] [Hashing H]

/-- The rows of a repository on the hub are patches of the client. -/
def StoredAsSent (s : Repository H) (store : HubStorage) (repoId : String) : Prop :=
  ∀ id proto, store.patches.get (key repoId id) = some proto →
    ∃ id' patch, s.dag.getPatch id' = some patch ∧ proto = patchToProto patch

/-- The hub shows the paths and hashes of the client's tree. -/
def ShowsTree (store : HubStorage) (repoId branch : String) (s : Repository H) (target : H) : Prop :=
  ∃ tree, (snapshotFresh target s).1 = .ok tree ∧
    store.getTreeAtBranch repoId branch = tree.entries.map fun e => ⟨e.1, Hashing.toHex e.2⟩

omit [LinearOrder H] in
theorem replay_patchToProto (patch : Patch H)
    (tree : SortedMap String String) : replay tree (patchToProto patch) = tree := by
  unfold replay patchToProto
  cases patch.targetPath with
  | none => rfl
  | some path => cases patch.operationType <;> rfl

/-- No patch of the client is an operation to the hub. -/
theorem getTreeAtBranch_eq_nil {s : Repository H} {store : HubStorage}
    {repoId : String} (h : StoredAsSent s store repoId) (branch : String) :
    store.getTreeAtBranch repoId branch = [] := by
  have hreplay : ∀ patches : List PatchProto,
      (∀ proto ∈ patches, ∃ patch : Patch H, proto = patchToProto patch) →
      patches.foldl replay .empty = .empty := by
    intro patches
    induction patches with
    | nil => exact fun _ => rfl
    | cons proto rest ih =>
      intro hsent
      obtain ⟨patch, rfl⟩ := hsent _ (List.mem_cons_self ..)
      rw [List.foldl_cons, replay_patchToProto]
      exact ih fun proto hproto => hsent proto (List.mem_cons_of_mem _ hproto)
  unfold HubStorage.getTreeAtBranch
  split
  · rfl
  · rename_i tipId _
    dsimp only
    rw [hreplay _ fun proto hproto => ?_]
    · rfl
    · have hrow := (List.perm_insertionSort _ _).mem_iff.mp hproto
      have hrow := (List.perm_insertionSort _ _).mem_iff.mp hrow
      obtain ⟨id, -, hget⟩ := List.mem_filterMap.mp hrow
      obtain ⟨-, patch, -, hsent⟩ := h id proto hget
      exact ⟨patch, hsent⟩

end Trees

/-- The hub after the patches and the branch `main` of a repository have come in. -/
def hubOf (s : Repository Hash) : HubStorage :=
  let store : HubStorage :=
    { repos := .empty, patches := .empty, branches := .empty, blobs := .empty
      branchProtection := .empty, authorizedKeys := .empty, tokens := .empty, blobMetadata := .empty
      blobTrigrams := .empty, replicationLog := [], maxBlobSize := 100 }
  let store := (store.insertPatches "r" (s.dag.nodes.map fun e => patchToProto e.2.patch)).2
  { store with
    branches := store.branches.insert (key "r" "main") (Hashing.toHex (tipOf "main" s)) }

theorem storedAsSent_hubOf {s : Repository Hash}
    (h : ((hubOf s).patches.entries.all fun row => s.dag.nodes.any fun e =>
      s.dag.getPatch e.1 = some e.2.patch && row.2 = patchToProto e.2.patch) = true) :
    StoredAsSent s (hubOf s) "r" := by
  intro id proto hget
  have hrow := List.all_eq_true.mp h _ (SortedMap.mem_entries.mpr hget)
  obtain ⟨e, -, he⟩ := List.any_eq_true.mp hrow
  obtain ⟨hpatch, hproto⟩ := (Bool.and_eq_true _ _).mp he
  exact ⟨e.1, e.2.patch, of_decide_eq_true hpatch, of_decide_eq_true hproto⟩

/-- One file, added and committed. -/
def oneFile : Repository Hash := sample [.editFile "a" [49], .add "a", .commit "first"]

end Suture.Wire
