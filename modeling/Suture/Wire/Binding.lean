import Suture.Foundation.Codec
import Suture.Wire.Signing

/-!
# What a push signature binds

The signed bytes leave out the force flag and everything of a patch beside its id, operation,
author, message and time, so no request is bound. What they cover they tell apart, as long as no
text has a NUL in it.
-/

namespace Suture.Wire
set_option autoImplicit false
open Foundation

/-- The parts of a request that decide what the push does. -/
structure SamePush (req req' : PushRequest) : Prop where
  repoId : req.repoId = req'.repoId
  patches : req.patches = req'.patches
  branches : req.branches = req'.branches
  force : req.force = req'.force

/-- A signature of `req` is one of no other push. -/
def Bound (req : PushRequest) : Prop :=
  ∀ req', canonicalPushBytes req = canonicalPushBytes req' → SamePush req req'

/-- What the bytes cover of a patch. -/
def PatchProto.signed (patch : PatchProto) : (((String × String) × String) × String) × UInt64 :=
  ((((patch.id.value, patch.operationType), patch.author), patch.message), patch.timestamp)

def BranchProto.signed (branch : BranchProto) : String × String :=
  (branch.name, branch.targetId.value)

/-- What the bytes cover of a request. -/
structure SignedParts (req req' : PushRequest) : Prop where
  repoId : req.repoId = req'.repoId
  patches : req.patches.map PatchProto.signed = req'.patches.map PatchProto.signed
  branches : req.branches = req'.branches

/-! ### Texts without a NUL -/

def NulFree (s : String) : Prop := 0 ∉ utf8 s

structure PatchProto.NulFree (patch : PatchProto) : Prop where
  id : Wire.NulFree patch.id.value
  operationType : Wire.NulFree patch.operationType
  author : Wire.NulFree patch.author
  message : Wire.NulFree patch.message

structure BranchProto.NulFree (branch : BranchProto) : Prop where
  name : Wire.NulFree branch.name
  targetId : Wire.NulFree branch.targetId.value

/-- No signed text has a NUL, and the numbers of items fit eight bytes. -/
structure PushRequest.NulFree (req : PushRequest) : Prop where
  repoId : Wire.NulFree req.repoId
  patchCount : req.patches.length < 2 ^ 64
  patches : ∀ patch ∈ req.patches, patch.NulFree
  branchCount : req.branches.length < 2 ^ 64
  branches : ∀ branch ∈ req.branches, branch.NulFree

theorem utf8_inj {s t : String} (h : utf8 s = utf8 t) : s = t := by
  apply String.toByteArray_inj.mp
  apply ByteArray.ext
  exact Array.toList_inj.mp h

section Fields
variable {α : Type} {valid : α → Prop}

theorem tells_text (field : α → String) (hfield : ∀ a, valid a → NulFree (field a)) :
    Tells (fun a => utf8 (field a) ++ [0]) field valid :=
  .terminated hfield fun _ _ => utf8_inj

theorem tells_time (field : α → UInt64) :
    Tells (fun a => toLeBytes (field a) ++ [0]) field valid := by
  apply Tells.fixed (n := 9)
  · intro a
    rw [List.length_append, length_toLeBytes]
    rfl
  · intro a b _ _ h
    exact toLeBytes_inj (List.append_cancel_right h)

end Fields

theorem tells_count : Tells (fun n : Nat => toLeBytes (.ofNat n)) id (· < 2 ^ 64) := by
  apply Tells.fixed fun n => length_toLeBytes _
  intro n m hn hm h
  have heq := congrArg UInt64.toNat (toLeBytes_inj h)
  rwa [UInt64.toNat_ofNat_of_lt' hn, UInt64.toNat_ofNat_of_lt' hm] at heq

theorem tells_patch : Tells patchBytes PatchProto.signed PatchProto.NulFree := by
  have hid := tells_text (fun p : PatchProto => p.id.value) fun _ h => PatchProto.NulFree.id h
  have hoperation := tells_text PatchProto.operationType fun _ h => PatchProto.NulFree.operationType h
  have hauthor := tells_text PatchProto.author fun _ h => PatchProto.NulFree.author h
  have hmessage := tells_text PatchProto.message fun _ h => PatchProto.NulFree.message h
  have h := (((hid.append hoperation).append hauthor).append hmessage).append
    (tells_time PatchProto.timestamp)
  intro p q s t hp hq heq
  apply h p q s t hp hq
  simp only [patchBytes, List.append_assoc] at heq ⊢
  exact heq

theorem tells_branch : Tells branchBytes BranchProto.signed BranchProto.NulFree := by
  have hname := tells_text BranchProto.name fun _ h => BranchProto.NulFree.name h
  have htarget := tells_text (fun b : BranchProto => b.targetId.value)
    fun _ h => BranchProto.NulFree.targetId h
  intro b c s t hb hc heq
  apply (hname.append htarget) b c s t hb hc
  simp only [branchBytes, List.append_assoc] at heq ⊢
  exact heq

theorem branch_signed_injective : Function.Injective BranchProto.signed := by
  intro b c h
  obtain ⟨name, targetId⟩ := b
  obtain ⟨name', targetId'⟩ := c
  simp only [BranchProto.signed, Prod.mk.injEq] at h
  obtain ⟨rfl, h⟩ := h
  congr 1
  exact congrArg HashProto.mk h

/-! ### What is bound -/

theorem tells_request : Tells canonicalPushBytes
    (fun req => ((req.repoId, req.patches.map PatchProto.signed), req.branches.map BranchProto.signed))
    PushRequest.NulFree := by
  have hrepoId := tells_text PushRequest.repoId fun _ h => PushRequest.NulFree.repoId h
  have hpatches := ((tells_count.counted tells_patch).comap PushRequest.patches).mono
    fun _ h => ⟨PushRequest.NulFree.patchCount h, h.patches⟩
  have hbranches := ((tells_count.counted tells_branch).comap PushRequest.branches).mono
    fun _ h => ⟨PushRequest.NulFree.branchCount h, h.branches⟩
  exact (hrepoId.append hpatches).append hbranches

/-- The bytes of a patch, made of its signed fields. -/
def signedBytes : (((String × String) × String) × String) × UInt64 → Bytes
  | ((((id, operationType), author), message), timestamp) =>
    utf8 id ++ [0] ++ utf8 operationType ++ [0] ++ utf8 author ++ [0] ++ utf8 message ++ [0] ++
      toLeBytes timestamp ++ [0]

theorem countedBytes_patches (patches : List PatchProto) : countedBytes patchBytes patches =
    countedBytes signedBytes (patches.map PatchProto.signed) := by
  unfold countedBytes
  rw [List.length_map, List.flatMap_map]
  rfl

theorem canonicalPushBytes_congr {req req' : PushRequest} (h : SignedParts req req') :
    canonicalPushBytes req = canonicalPushBytes req' := by
  unfold canonicalPushBytes
  rw [countedBytes_patches, countedBytes_patches, h.repoId, h.patches, h.branches]

/-- Without NULs the bytes of two requests are the same exactly when the signed parts are. -/
theorem canonicalPushBytes_iff {req req' : PushRequest} (h : req.NulFree) (h' : req'.NulFree) :
    canonicalPushBytes req = canonicalPushBytes req' ↔ SignedParts req req' := by
  constructor
  · intro heq
    have hkey := tells_request.key_eq h h' heq
    simp only [Prod.mk.injEq] at hkey
    obtain ⟨⟨hrepoId, hpatches⟩, hbranches⟩ := hkey
    exact ⟨hrepoId, hpatches, branch_signed_injective.list_map hbranches⟩
  · exact canonicalPushBytes_congr

/-- With the force flag turned over the bytes are the same. -/
theorem not_bound (req : PushRequest) : ¬ Bound req := by
  intro h
  have hforce := (h { req with force := !req.force } rfl).force
  cases hreq : req.force
  all_goals
    rw [hreq] at hforce
    cases hforce

/-- No request is bound by its signature; without NULs the id of the repository, the branches and
of each patch the id, operation, author, message and time are all that is. -/
theorem push_signature_binds (req req' : PushRequest) : ¬ Bound req ∧
    (req.NulFree → req'.NulFree →
      (canonicalPushBytes req = canonicalPushBytes req' ↔ SignedParts req req')) :=
  ⟨not_bound req, fun h h' => canonicalPushBytes_iff h h'⟩

/-- A push of one branch. -/
def branchPush (name target : String) : PushRequest where
  repoId := "r"
  patches := []
  branches := [⟨name, ⟨target⟩⟩]
  blobs := []
  signature := none
  knownBranches := none
  force := false

/-- A NUL moves text from the target of a branch to its name. -/
theorem nul_moves_boundary : ¬ ∀ req req' : PushRequest,
    canonicalPushBytes req = canonicalPushBytes req' → SamePush req req' := by
  intro h
  have hsame := h (branchPush "a" "b\x00c") (branchPush "a\x00b" "c") (by decide +kernel)
  exact absurd hsame.branches (by decide)

end Suture.Wire
