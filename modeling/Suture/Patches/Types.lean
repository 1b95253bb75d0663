import Mathlib.Data.List.Sort
import Mathlib.Data.String.Basic
import Suture.Foundation.SortedSet

/-!
# Patches

Payload bytes are told apart by what they spell. Hashes are an arbitrary ordered
type with the functions of `Hashing`.
-/

namespace Suture.Patches
set_option autoImplicit false
open Foundation

inductive OperationType where
  | create
  | delete
  | modify
  | move
  | metadata
  | merge
  | identity
  | batch
deriving DecidableEq, Repr

/-- Bytes that are empty, a hash in hex, other text, or not text. -/
inductive Text (H : Type) where
  | empty
  | hex (hash : H)
  | utf8 (text : String)
  | binary (data : List UInt8)
deriving DecidableEq, Repr

structure FileChange (H : Type) where
  op : OperationType
  path : String
  payload : Text H
deriving DecidableEq, Repr

/-- The payload of a patch; `changes` is the JSON of a list of file changes. -/
inductive Payload (H : Type) where
  | text (t : Text H)
  | changes (fileChanges : List (FileChange H))
deriving DecidableEq, Repr

def Payload.isEmpty {H : Type} : Payload H → Bool
  | .text .empty => true
  | _ => false

abbrev TouchSet := SortedSet String

structure Patch (H : Type) where
  id : H
  parentIds : List H
  operationType : OperationType
  touchSet : TouchSet
  targetPath : Option String
  payload : Payload H
  timestamp : Nat
  author : String
  message : String
deriving DecidableEq

/-- What a patch id is the hash of: not the time. -/
structure PatchForHash (H : Type) where
  parentIds : List H
  operationType : OperationType
  touchSet : TouchSet
  targetPath : Option String
  payload : Payload H
  author : String
  message : String
deriving DecidableEq

/-- Hash functions, the texts that hashes and change lists are written as, and what bytes
that are not UTF-8 are read as. -/
class Hashing (H : Type) where
  zero : H
  fromData : List UInt8 → H
  toHex : H → String
  utf8Lossy : List UInt8 → String
  changesJson : List (FileChange H) → String
  computeId : PatchForHash H → H
  contentHash : List (String × H) → H

namespace Patch
variable {H : Type}

def isIdentity (p : Patch H) : Bool := p.operationType = .identity && p.touchSet.elems.isEmpty

def isBatch (p : Patch H) : Bool := p.operationType = .batch

def fileChanges (p : Patch H) : Option (List (FileChange H)) :=
  if p.operationType = .batch then
    match p.payload with
    | .changes fileChanges => some fileChanges
    | .text _ => none
  else none

section New
variable [Hashing H]

def new (operationType : OperationType) (touchSet : TouchSet) (targetPath : Option String)
    (payload : Payload H) (parentIds : List H) (author message : String) (timestamp : Nat) :
    Patch H where
  id := Hashing.computeId ⟨parentIds, operationType, touchSet, targetPath, payload, author, message⟩
  parentIds := parentIds
  operationType := operationType
  touchSet := touchSet
  targetPath := targetPath
  payload := payload
  timestamp := timestamp
  author := author
  message := message

/-- One patch for many file changes, in path order. -/
def newBatch (fileChanges : List (FileChange H)) (parentIds : List H) (author message : String)
    (timestamp : Nat) : Patch H :=
  let fileChanges := fileChanges.insertionSort fun a b => a.path ≤ b.path
  new .batch (.ofList (fileChanges.map FileChange.path)) none (.changes fileChanges) parentIds
    author message timestamp

end New

/-- What the paths of a batch say about its other fields. -/
structure IsBatchOf (p : Patch H) (fileChanges : List (FileChange H)) : Prop where
  operation : p.operationType = .batch
  touched : ∀ path, path ∈ p.touchSet ↔ ∃ c ∈ fileChanges, c.path = path
  payload : p.payload = .changes fileChanges

theorem IsBatchOf.fileChanges {p : Patch H} {changes : List (FileChange H)}
    (h : p.IsBatchOf changes) : p.fileChanges = some changes := by
  rw [Patch.fileChanges, if_pos h.operation, h.payload]

theorem newBatch_isBatchOf [Hashing H] (fileChanges : List (FileChange H)) (parentIds : List H)
    (author message : String) (timestamp : Nat) :
    (newBatch fileChanges parentIds author message timestamp).IsBatchOf
      (fileChanges.insertionSort fun a b => a.path ≤ b.path) where
  operation := rfl
  touched := fun path => by
    rw [newBatch, new, SortedSet.mem_ofList, List.mem_map]
  payload := rfl

end Patch
end Suture.Patches
