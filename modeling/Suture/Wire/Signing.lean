import Suture.Foundation.SortedMap
import Suture.Wire.Proto

/-!
# Signed pushes

The command line signs a request before it is sent; the hub checks the signature against
the keys of the patch authors. Ed25519 is a parameter.
-/

namespace Suture.Wire
set_option autoImplicit false
open Foundation

structure SignatureScheme where
  sign : Bytes → Bytes → Bytes
  validKey : Bytes → Bool
  verify : Bytes → Bytes → Bytes → Bool

def Cli.signPushRequest (scheme : SignatureScheme) (signingKey : Bytes) (req : Cli.PushRequest) :
    Cli.PushRequest :=
  { req with signature := some (scheme.sign signingKey (Cli.canonicalPushBytes req)) }

/-- Looks for an author whose key fits; a malformed key of 32 bytes ends the search. -/
def checkAuthors (scheme : SignatureScheme) (keys : SortedMap String Bytes)
    (canonical signature : Bytes) : List String → Except String Unit
  | [] => .error "no matching authorized key found for signature"
  | author :: rest =>
    match keys.get author with
    | none => checkAuthors scheme keys canonical signature rest
    | some key =>
      if key.length ≠ 32 then checkAuthors scheme keys canonical signature rest
      else if scheme.validKey key = false then .error "invalid public key"
      else if scheme.verify key canonical signature then .ok ()
      else checkAuthors scheme keys canonical signature rest

/-- `authors` lists the set of authors in the order in which it is visited. -/
def verifyPushSignature (scheme : SignatureScheme) (keys : SortedMap String Bytes)
    (authors : List String → List String) (req : PushRequest) (signature : Bytes) :
    Except String Unit :=
  if signature.length ≠ 64 then .error "signature must be 64 bytes"
  else checkAuthors scheme keys (canonicalPushBytes req) signature
    (authors (req.patches.map PatchProto.author))

/-- `push_compressed_handler` before it hands the request on: each blob is unpacked. -/
def inflateBlobs (inflate : String → Except String String) : List BlobRef → Except String (List BlobRef)
  | [] => .ok []
  | blob :: rest => do
    let data ← inflate blob.data
    let rest ← inflateBlobs inflate rest
    return { blob with data := data } :: rest

def pushCompressed (inflate : String → Except String String) (req : PushRequest) :
    Except String PushRequest := do
  let blobs ← inflateBlobs inflate req.blobs
  return { req with blobs := blobs }

/-! ### What is signed and what is checked -/

/-- The hub's bytes are followed by two fields that only the command line signs. -/
theorem canonicalPushBytes_cli (req : Cli.PushRequest) :
    Cli.canonicalPushBytes req = canonicalPushBytes (Transfer.pushRequest.image req) ++
      (countedBytes branchBytes req.knownBranches ++ [if req.force then 1 else 0]) := by
  unfold Cli.canonicalPushBytes canonicalPushBytes
  rw [List.append_assoc _ (countedBytes branchBytes req.knownBranches)]
  rfl

theorem canonicalPushBytes_ne (req : Cli.PushRequest) :
    canonicalPushBytes (Transfer.pushRequest.image req) ≠ Cli.canonicalPushBytes req := by
  intro h
  have hlength := congrArg List.length h
  rw [canonicalPushBytes_cli, List.length_append, List.length_append, List.length_singleton] at hlength
  omega

theorem canonicalPushBytes_pushCompressed {inflate : String → Except String String}
    {req inflated : PushRequest} (h : pushCompressed inflate req = .ok inflated) :
    canonicalPushBytes inflated = canonicalPushBytes req := by
  unfold pushCompressed at h
  cases hblobs : inflateBlobs inflate req.blobs with
  | error e =>
    rw [hblobs] at h
    cases h
  | ok blobs =>
    rw [hblobs] at h
    cases h
    rfl

theorem verify_of_checkAuthors {scheme : SignatureScheme} {keys : SortedMap String Bytes}
    {canonical signature : Bytes} {authors : List String}
    (h : checkAuthors scheme keys canonical signature authors = .ok ()) :
    ∃ author ∈ authors, ∃ key, keys.get author = some key ∧
      scheme.verify key canonical signature = true := by
  induction authors with
  | nil => cases h
  | cons author rest ih =>
    have hrest : checkAuthors scheme keys canonical signature rest = .ok () →
        ∃ author' ∈ author :: rest, ∃ key, keys.get author' = some key ∧
          scheme.verify key canonical signature = true := fun h => by
      obtain ⟨author', hmem, hkey⟩ := ih h
      exact ⟨author', List.mem_cons_of_mem _ hmem, hkey⟩
    rw [checkAuthors] at h
    split at h
    · exact hrest h
    · rename_i key hkey
      split_ifs at h with hlength hvalid hverify
      · exact hrest h
      · exact ⟨author, List.mem_cons_self .., key, hkey, hverify⟩
      · exact hrest h

/-- The hub reads the request, with its blobs packed or not, and finds the bytes that were
signed. -/
structure SignsAlike (req : Cli.PushRequest) (received : PushRequest) : Prop where
  read : Transfer.pushRequest.read (Transfer.pushRequest.write req) = some received
  same : canonicalPushBytes received = Cli.canonicalPushBytes req
  compressed : ∀ inflate inflated, pushCompressed inflate received = .ok inflated →
    canonicalPushBytes inflated = Cli.canonicalPushBytes req

/-- The hub never finds the bytes that were signed; a push that it accepts has a signature
that is also one of other bytes. -/
theorem never_signsAlike (req : Cli.PushRequest) :
    (∀ received, ¬ SignsAlike req received) ∧
      ∀ scheme signingKey keys authors inflate received inflated,
        Transfer.pushRequest.read
          (Transfer.pushRequest.write (Cli.signPushRequest scheme signingKey req)) = some received →
        pushCompressed inflate received = .ok inflated →
        verifyPushSignature scheme keys authors inflated
          (scheme.sign signingKey (Cli.canonicalPushBytes req)) = .ok () →
        ∃ author key bytes, keys.get author = some key ∧ bytes ≠ Cli.canonicalPushBytes req ∧
          scheme.verify key bytes (scheme.sign signingKey (Cli.canonicalPushBytes req)) = true := by
  constructor
  · intro received h
    have hread := h.read
    rw [Transfer.pushRequest.read_write] at hread
    cases hread
    exact canonicalPushBytes_ne req h.same
  · intro scheme signingKey keys authors inflate received inflated hread hinflate hverify
    rw [Transfer.pushRequest.read_write] at hread
    cases hread
    unfold verifyPushSignature at hverify
    split_ifs at hverify
    obtain ⟨author, -, key, hkey, hbytes⟩ := verify_of_checkAuthors hverify
    refine ⟨author, key, canonicalPushBytes inflated, hkey, ?_, hbytes⟩
    rw [canonicalPushBytes_pushCompressed hinflate]
    exact canonicalPushBytes_ne req

def signedRequest : Cli.PushRequest where
  repoId := "r"
  patches := [⟨⟨"a"⟩, "create", [], none, "", [], "ann", "", 0⟩]
  branches := [⟨"main", ⟨"a"⟩⟩]
  blobs := []
  signature := none
  knownBranches := [⟨"main", ⟨"a"⟩⟩]
  force := false

/-- A signature is the end of the message. -/
def endScheme : SignatureScheme where
  sign := fun _ message => (message.reverse ++ List.replicate 64 0).take 64
  validKey := fun _ => true
  verify := fun _ message signature =>
    signature = (message.reverse ++ List.replicate 64 0).take 64

/-- A push by the only author, signed with the key that the hub has for her. -/
theorem signed_push_refused :
    (∀ received, ¬ SignsAlike signedRequest received) ∧
      verifyPushSignature endScheme (SortedMap.empty.insert "ann" (List.replicate 32 7)) id
        (Transfer.pushRequest.image
          (Cli.signPushRequest endScheme (List.replicate 32 7) signedRequest))
        (endScheme.sign (List.replicate 32 7) (Cli.canonicalPushBytes signedRequest)) =
      .error "no matching authorized key found for signature" := by
  refine ⟨fun received h => ?_, by decide +kernel⟩
  have hread := h.read
  rw [Transfer.pushRequest.read_write] at hread
  cases hread
  exact canonicalPushBytes_ne _ h.same

end Suture.Wire
