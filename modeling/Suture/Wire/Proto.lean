import Suture.Driver.Structured

/-!
# Messages of the push protocol

The sender and the receiver each have a type of their own for the same JSON. A
`Transfer` writes the one, reads the other, and says what becomes of a value.

The command line and the hub declare the messages separately. `Cli` holds what the command
line has for itself; the rest is the hub's.
-/

namespace Suture.Wire
set_option autoImplicit false

abbrev Json := Driver.Value Nat

namespace Json

def null : Json := .scalar .null

def record (fields : List (String × Json)) : Json := .object fields

def entries : Json → List (String × Json)
  | Driver.Value.object entries => entries
  | _ => []

/-- The first entry of that name. -/
def field (name : String) (json : Json) : Option Json :=
  ((entries json).find? fun e => decide (e.1 = name)).map Prod.snd

@[simp] theorem field_cons (name key : String) (value : Json) (fields : List (String × Json)) :
    field name (record ((key, value) :: fields)) =
      if key = name then some value else field name (record fields) := by
  unfold field
  change (List.find? _ ((key, value) :: fields)).map Prod.snd = _
  rw [List.find?_cons]
  by_cases h : key = name
  · rw [if_pos h, decide_eq_true h]
    rfl
  · rw [if_neg h, decide_eq_false h]
    rfl

@[simp] theorem field_nil (name : String) : field name (record []) = none := rfl

end Json

structure Transfer (α β : Type) where
  write : α → Json
  read : Json → Option β
  image : α → β
  read_write : ∀ a, read (write a) = some (image a)

namespace Transfer
variable {α β : Type}

def string : Transfer String String where
  write := fun s => .scalar (.string s)
  read
    | .scalar (.string s) => some s
    | _ => none
  image := id
  read_write := fun _ => rfl

@[simp] theorem string_image : string.image = id := rfl

def bool : Transfer Bool Bool where
  write := fun b => .scalar (.bool b)
  read
    | .scalar (.bool b) => some b
    | _ => none
  image := id
  read_write := fun _ => rfl

@[simp] theorem bool_image : bool.image = id := rfl

def u64 : Transfer UInt64 UInt64 where
  write := fun n => .scalar (.number n.toNat)
  read
    | .scalar (.number n) => if n < 2 ^ 64 then some (.ofNat n) else none
    | _ => none
  image := id
  read_write := fun n => by
    change (if n.toNat < 2 ^ 64 then some (UInt64.ofNat n.toNat) else none) = some n
    rw [if_pos n.toNat_lt, UInt64.ofNat_toNat]

@[simp] theorem u64_image : u64.image = id := rfl

def u8 : Transfer UInt8 UInt8 where
  write := fun n => .scalar (.number n.toNat)
  read
    | .scalar (.number n) => if n < 2 ^ 8 then some (.ofNat n) else none
    | _ => none
  image := id
  read_write := fun n => by
    change (if n.toNat < 2 ^ 8 then some (UInt8.ofNat n.toNat) else none) = some n
    rw [if_pos n.toNat_lt, UInt8.ofNat_toNat]

@[simp] theorem u8_image : u8.image = id := rfl

def readItems (read : Json → Option β) : List Json → Option (List β)
  | [] => some []
  | item :: rest => do
    let b ← read item
    let bs ← readItems read rest
    return b :: bs

theorem readItems_write (t : Transfer α β) (l : List α) :
    readItems t.read (l.map t.write) = some (l.map t.image) := by
  induction l with
  | nil => rfl
  | cons a l ih =>
    rw [List.map_cons, readItems, t.read_write, ih]
    rfl

def list (t : Transfer α β) : Transfer (List α) (List β) where
  write := fun l => .array (l.map t.write)
  read
    | .array items => readItems t.read items
    | _ => none
  image := List.map t.image
  read_write := t.readItems_write

@[simp] theorem list_image (t : Transfer α β) : t.list.image = List.map t.image := rfl

/-- `none` is written as null, which no value of `t` is. -/
def nullable (t : Transfer α β) (hnull : ∀ a, t.write a ≠ Json.null) :
    Transfer (Option α) (Option β) where
  write
    | none => Json.null
    | some a => t.write a
  read := fun json => if json = Json.null then some none else (t.read json).map some
  image := Option.map t.image
  read_write := fun a => by
    cases a with
    | none => rw [if_pos rfl]; rfl
    | some a =>
      rw [if_neg (hnull a), t.read_write]
      rfl

@[simp] theorem nullable_image (t : Transfer α β) (hnull : ∀ a, t.write a ≠ Json.null) :
    (t.nullable hnull).image = Option.map t.image := rfl

theorem nullable_null (t : Transfer α β) (hnull : ∀ a, t.write a ≠ Json.null) :
    (t.nullable hnull).read Json.null = some none := (t.nullable hnull).read_write none

theorem nullable_write (t : Transfer α β) (hnull : ∀ a, t.write a ≠ Json.null) (a : α) :
    (t.nullable hnull).read (t.write a) = some (some (t.image a)) :=
  (t.nullable hnull).read_write (some a)

end Transfer

/-! ### The messages -/

abbrev Bytes := List UInt8

structure HashProto where
  value : String
deriving DecidableEq, Repr

structure PatchProto where
  id : HashProto
  operationType : String
  touchSet : List String
  targetPath : Option String
  payload : String
  parentIds : List HashProto
  author : String
  message : String
  timestamp : UInt64
deriving DecidableEq, Repr

structure BranchProto where
  name : String
  targetId : HashProto
deriving DecidableEq, Repr

structure BlobRef where
  hash : HashProto
  data : String
  truncated : Bool
deriving DecidableEq, Repr

structure PushRequest where
  repoId : String
  patches : List PatchProto
  branches : List BranchProto
  blobs : List BlobRef
  signature : Option Bytes
  knownBranches : Option (List BranchProto)
  force : Bool
deriving DecidableEq, Repr

namespace Cli

structure BlobRef where
  hash : HashProto
  data : String
deriving DecidableEq, Repr

structure PushRequest where
  repoId : String
  patches : List PatchProto
  branches : List BranchProto
  blobs : List BlobRef
  signature : Option Bytes
  knownBranches : List BranchProto
  force : Bool
deriving DecidableEq, Repr

end Cli

/-! ### The bytes that are signed -/

def utf8 (s : String) : Bytes := s.toUTF8.data.toList

/-- Eight bytes, the lowest first. -/
def toLeBytes (n : UInt64) : Bytes := (List.range 8).map fun i => UInt8.ofNat (n.toNat / 256 ^ i)

/-- Numbers with the same lowest digits leave the same remainder. -/
theorem mod_pow_eq {b n k : Nat} (count : Nat)
    (h : ∀ i < count, n / b ^ i % b = k / b ^ i % b) : n % b ^ count = k % b ^ count := by
  induction count with
  | zero => rw [Nat.pow_zero, Nat.mod_one, Nat.mod_one]
  | succ count ih =>
    have hlower := ih fun i hi => h i (by omega)
    rw [Nat.mod_pow_succ, Nat.mod_pow_succ, hlower, h count (by omega)]

theorem toLeBytes_inj {n k : UInt64} (h : toLeBytes n = toLeBytes k) : n = k := by
  have hbyte : ∀ i < 8, n.toNat / 256 ^ i % 256 = k.toNat / 256 ^ i % 256 := by
    intro i hi
    have := congrArg (fun bytes => (bytes[i]?).map UInt8.toNat) h
    simpa [toLeBytes, hi] using this
  have hmod : n.toNat % 2 ^ 64 = k.toNat % 2 ^ 64 := mod_pow_eq 8 hbyte
  apply UInt64.toNat_inj.mp
  rwa [Nat.mod_eq_of_lt n.toNat_lt, Nat.mod_eq_of_lt k.toNat_lt] at hmod

theorem length_toLeBytes (n : UInt64) : (toLeBytes n).length = 8 := by simp [toLeBytes]

def patchBytes (patch : PatchProto) : Bytes :=
  utf8 patch.id.value ++ [0] ++ utf8 patch.operationType ++ [0] ++ utf8 patch.author ++ [0] ++
    utf8 patch.message ++ [0] ++ toLeBytes patch.timestamp ++ [0]

def branchBytes (branch : BranchProto) : Bytes :=
  utf8 branch.name ++ [0] ++ utf8 branch.targetId.value ++ [0]

/-- The length of a list, and its items. -/
def countedBytes {α : Type} (itemBytes : α → Bytes) (items : List α) : Bytes :=
  toLeBytes (.ofNat items.length) ++ items.flatMap itemBytes

def Cli.canonicalPushBytes (req : Cli.PushRequest) : Bytes :=
  utf8 req.repoId ++ [0] ++ countedBytes patchBytes req.patches ++
    countedBytes branchBytes req.branches ++ countedBytes branchBytes req.knownBranches ++
    [if req.force then 1 else 0]

def canonicalPushBytes (req : PushRequest) : Bytes :=
  utf8 req.repoId ++ [0] ++ countedBytes patchBytes req.patches ++
    countedBytes branchBytes req.branches

/-! ### JSON -/

namespace Transfer

def hash : Transfer HashProto HashProto where
  write := fun h => Json.record [("value", string.write h.value)]
  read := fun json => do
    let value ← (Json.field "value" json).bind string.read
    return ⟨value⟩
  image := id
  read_write := fun h => by simp [read_write]

@[simp] theorem hash_image : hash.image = id := rfl

def patch : Transfer PatchProto PatchProto where
  write := fun p => Json.record
    [("id", hash.write p.id), ("operation_type", string.write p.operationType),
      ("touch_set", string.list.write p.touchSet),
      ("target_path", (string.nullable (fun _ => nofun)).write p.targetPath),
      ("payload", string.write p.payload), ("parent_ids", hash.list.write p.parentIds),
      ("author", string.write p.author), ("message", string.write p.message),
      ("timestamp", u64.write p.timestamp)]
  read := fun json => do
    let id ← (Json.field "id" json).bind hash.read
    let operationType ← (Json.field "operation_type" json).bind string.read
    let touchSet ← (Json.field "touch_set" json).bind string.list.read
    let targetPath ← (string.nullable (fun _ => nofun)).read
      ((Json.field "target_path" json).getD Json.null)
    let payload ← (Json.field "payload" json).bind string.read
    let parentIds ← (Json.field "parent_ids" json).bind hash.list.read
    let author ← (Json.field "author" json).bind string.read
    let message ← (Json.field "message" json).bind string.read
    let timestamp ← (Json.field "timestamp" json).bind u64.read
    return ⟨id, operationType, touchSet, targetPath, payload, parentIds, author, message, timestamp⟩
  image := id
  read_write := fun p => by simp [read_write]

@[simp] theorem patch_image : patch.image = id := rfl

def branch : Transfer BranchProto BranchProto where
  write := fun b => Json.record
    [("name", string.write b.name), ("target_id", hash.write b.targetId)]
  read := fun json => do
    let name ← (Json.field "name" json).bind string.read
    let targetId ← (Json.field "target_id" json).bind hash.read
    return ⟨name, targetId⟩
  image := id
  read_write := fun b => by simp [read_write]

@[simp] theorem branch_image : branch.image = id := rfl

/-- The hub has one field more. -/
def blob : Transfer Cli.BlobRef BlobRef where
  write := fun b => Json.record [("hash", hash.write b.hash), ("data", string.write b.data)]
  read := fun json => do
    let h ← (Json.field "hash" json).bind hash.read
    let data ← (Json.field "data" json).bind string.read
    let truncated ← (Json.field "truncated" json).elim (some false) bool.read
    return ⟨h, data, truncated⟩
  image := fun b => ⟨b.hash, b.data, false⟩
  read_write := fun b => by simp [read_write]

@[simp] theorem blob_image (b : Cli.BlobRef) : blob.image b = ⟨b.hash, b.data, false⟩ := rfl

/-- No signature and no known branches are not written; the hub reads each as `none`. -/
def pushRequest : Transfer Cli.PushRequest PushRequest where
  write := fun req => Json.record <|
    [("repo_id", string.write req.repoId), ("patches", patch.list.write req.patches),
      ("branches", branch.list.write req.branches), ("blobs", blob.list.write req.blobs)] ++
    (match req.signature with
      | none => []
      | some signature => [("signature", u8.list.write signature)]) ++
    (match req.knownBranches with
      | [] => []
      | known => [("known_branches", branch.list.write known)]) ++
    [("force", bool.write req.force)]
  read := fun json => do
    let repoId ← (Json.field "repo_id" json).bind string.read
    let patches ← (Json.field "patches" json).bind patch.list.read
    let branches ← (Json.field "branches" json).bind branch.list.read
    let blobs ← (Json.field "blobs" json).bind blob.list.read
    let signature ← (u8.list.nullable (fun _ => nofun)).read
      ((Json.field "signature" json).getD Json.null)
    let knownBranches ← (branch.list.nullable (fun _ => nofun)).read
      ((Json.field "known_branches" json).getD Json.null)
    let force ← (Json.field "force" json).elim (some false) bool.read
    return ⟨repoId, patches, branches, blobs, signature, knownBranches, force⟩
  image := fun req =>
    { repoId := req.repoId, patches := req.patches, branches := req.branches
      blobs := req.blobs.map blob.image, signature := req.signature
      knownBranches := if req.knownBranches = [] then none else some req.knownBranches
      force := req.force }
  read_write := fun req => by
    obtain ⟨repoId, patches, branches, blobs, signature, known, force⟩ := req
    cases signature <;> cases known <;> simp [read_write, nullable_null, nullable_write]

end Transfer
end Suture.Wire
