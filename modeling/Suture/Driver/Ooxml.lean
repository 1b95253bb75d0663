import Suture.Driver.Structured
import Suture.Engine.LineMerge
import Suture.Foundation.Rows
import Suture.Foundation.Fields
import Suture.Foundation.Search

/-!
# Office packages

A package is an archive of parts. Parts that are texts are kept as texts, others as bytes,
and the relationships of a part are found by their ids. A package that is written again has the
entries it was read from, in the order of a hash map.
-/

namespace Suture.Driver
set_option autoImplicit false
open Foundation

/-- What an archive holds: the bytes of each entry under its name, in their order. -/
structure Archive where
  entries : List (String × List UInt8)
  distinct : (entries.map Prod.fst).Nodup

namespace Archive

def get (archive : Archive) (path : String) : Option (List UInt8) := lastRow archive.entries path

end Archive

/-- Why a driver gives no result: it says so, or it ends in a panic. -/
inductive Failure where
  | parseError (message : String)
  | panic
deriving DecidableEq, Repr

def orError {α : Type} (message : String) : Option α → Except Failure α
  | some a => .ok a
  | none => .error (.parseError message)

theorem ok_of_bind {ε α β : Type} {x : Except ε α} {f : α → Except ε β} {r : β}
    (h : x >>= f = .ok r) : ∃ a, x = .ok a ∧ f a = .ok r := by
  cases x with
  | error e => cases h
  | ok a => exact ⟨a, rfl, h⟩

namespace Ooxml

def decode (bytes : List UInt8) : Option (List Char) :=
  (String.fromUTF8? ⟨bytes.toArray⟩).map String.toList

def encode (text : List Char) : List UInt8 := (String.ofList text).toByteArray.data.toList

theorem encode_of_decode {bytes : List UInt8} {text : List Char} (h : decode bytes = some text) :
    encode text = bytes := by
  obtain ⟨t, ht, rfl⟩ := Option.map_eq_some_iff.mp h
  unfold String.fromUTF8? at ht
  split at ht
  · obtain rfl := Option.some.inj ht
    rw [encode, String.ofList_toList]
    rfl
  · cases ht

theorem decode_encode (text : List Char) : decode (encode text) = some text := by
  have hread : String.fromUTF8? ⟨(encode text).toArray⟩ = some (String.ofList text) := by
    unfold encode String.fromUTF8?
    exact dif_pos (String.ofList text).isValidUTF8
  rw [decode, hread, Option.map_some, String.toList_ofList]

def contains (text : List Char) (part : String) : Bool := (find part.toList text).isSome

/-- `str::parse` for an unsigned type: an optional plus, then digits, below the bound. -/
def parseUnsigned (bound : Nat) (text : List Char) : Option Nat :=
  let digits := match text with
    | '+' :: rest => rest
    | _ => text
  if digits = [] ∨ digits.all Char.isDigit = false then none
  else
    let n := Nat.ofDigitChars 10 digits 0
    if n < bound then some n else none

def digits (n : Nat) : List Char := Nat.toDigits 10 n

/-! ### Paths and attributes -/

/-- What is behind the last slash. -/
def fileName (path : List Char) : List Char := path.rtakeWhile (· ≠ '/')

def stripSuffix (suffix l : List Char) : List Char :=
  if suffix <:+ l then l.take (l.length - suffix.length) else l

def directory (path : List Char) : List Char := ((rfind ['/'] path).map Prod.fst).getD []

def joinPath (dir name : List Char) : List Char := if dir = [] then name else dir ++ '/' :: name

def pathRelsToOwner (relsPath : List Char) : List Char :=
  joinPath (((rfind "/_rels/".toList relsPath).map Prod.fst).getD [])
    (stripSuffix ".rels".toList (fileName relsPath))

def partPathToRelsPath (partPath : List Char) : List Char :=
  joinPath (directory partPath) ("_rels/".toList ++ fileName partPath ++ ".rels".toList)

/-- A path of relationships does not look like one of a main part. -/
theorem getLast?_partPathToRelsPath (partPath : List Char) :
    (partPathToRelsPath partPath).getLast? = some 's' := by
  have hlast : ∀ l : List Char, (l ++ ".rels".toList).getLast? = some 's' := by
    intro l
    rw [List.getLast?_append]
    rfl
  unfold partPathToRelsPath joinPath
  split
  · exact hlast _
  · have happend : directory partPath ++ '/' :: ("_rels/".toList ++ fileName partPath ++ ".rels".toList) =
        directory partPath ++ '/' :: ("_rels/".toList ++ fileName partPath) ++ ".rels".toList := by
      simp
    rw [happend]
    exact hlast _

def resolveRelativePath (basePart target : List Char) : List Char :=
  match target with
  | '/' :: target => target
  | _ => joinPath (directory basePart) target

def extractAttr (xmlLine : List Char) (attrName : String) : Option (List Char) := do
  let found ← find (attrName.toList ++ ['=', '"']) xmlLine
  let value ← find ['"'] found.2
  return value.1

def parseRelsById (xml : List Char) : SortedMap String String :=
  .putRows .empty <| (Engine.splitLines xml []).filterMap fun line => do
    let trimmed := trimBy isWhiteSpace line.toList
    guard ("<Relationship".toList <+: trimmed)
    let id ← extractAttr trimmed "Id"
    let target ← extractAttr trimmed "Target"
    return (String.ofList id, String.ofList target)

end Ooxml
open Ooxml

/-! ### Packages -/

structure OoxmlPart where
  path : String
  content : List Char
deriving DecidableEq, Repr

structure OoxmlDocument where
  parts : SortedMap String OoxmlPart
  binaryParts : SortedMap String (List UInt8)
  /-- For each part the targets of its relationships, by their ids. -/
  partRels : SortedMap String (SortedMap String String)

namespace OoxmlDocument

def maxPartSize : Nat := 500 * 1024 * 1024

def isRels (path : List Char) : Bool :=
  contains path "/_rels/" && decide (".rels".toList <:+ path) && path ≠ "_rels/.rels".toList

/-- One entry is read. -/
def addEntry (doc : OoxmlDocument) (entry : String × List UInt8) : Except Failure OoxmlDocument :=
  let (path, rawBytes) := entry
  if maxPartSize ≤ rawBytes.length then
    .error (.parseError "I/O error: archive entry exceeds maximum size (500MB)")
  else match decode rawBytes with
    | none => .ok { doc with
        binaryParts := doc.binaryParts.insert path rawBytes
        parts := doc.parts.insert path ⟨path, []⟩ }
    | some content => .ok { doc with
        parts := doc.parts.insert path ⟨path, content⟩
        partRels :=
          if isRels path.toList then
            doc.partRels.insert (String.ofList (pathRelsToOwner path.toList)) (parseRelsById content)
          else doc.partRels }

def fromBytes (archive : Archive) : Except Failure OoxmlDocument :=
  archive.entries.foldlM addEntry ⟨.empty, .empty, .empty⟩

theorem nodup_keys {α : Type} (m : SortedMap String α) : m.keys.Nodup :=
  List.pairwise_map.mpr (m.sorted.imp ne_of_lt)

/-- What is written for a part. -/
def partBytes (doc : OoxmlDocument) (path : String) : Option (List UInt8) :=
  (doc.parts.get path).map fun part => (doc.binaryParts.get path).getD (encode part.content)

def toBytes (order : KeyOrder) (doc : OoxmlDocument) : Archive where
  entries := (order.arrange doc.parts.keys).filterMap fun path =>
    (doc.partBytes path).map fun bytes => (path, bytes)
  distinct := by
    rw [List.map_filterMap]
    refine List.Nodup.filterMap (fun path path' a hpath hpath' => ?_)
      ((order.perm _).nodup_iff.mpr (nodup_keys _))
    rw [Option.map_map] at hpath hpath'
    obtain ⟨_, -, rfl⟩ := Option.map_eq_some_iff.mp hpath
    obtain ⟨_, -, heq⟩ := Option.map_eq_some_iff.mp hpath'
    exact heq.symm

def getPart (doc : OoxmlDocument) (path : String) : Option OoxmlPart := doc.parts.get path

/-- The content of a part is replaced, if the part is there. -/
def setContent (doc : OoxmlDocument) (path : String) (content : List Char) : OoxmlDocument :=
  match doc.getPart path with
  | some part => { doc with parts := doc.parts.insert path { part with content := content } }
  | none => doc

/-- The first path, in the order of the hash map, that looks like the main part's. -/
def mainDocumentPath (order : KeyOrder) (doc : OoxmlDocument) : Option String :=
  (order.arrange doc.parts.keys).find? fun path =>
    decide ("document.xml".toList <:+ path.toList) || decide ("workbook.xml".toList <:+ path.toList) ||
      decide ("presentation.xml".toList <:+ path.toList)

def resolveRel (doc : OoxmlDocument) (partPath relId : String) : Option String := do
  let idMap ← doc.partRels.get partPath
  let target ← idMap.get relId
  return String.ofList (resolveRelativePath partPath.toList target.toList)

/-! ### What is read and written again -/

theorem get_toBytes (order : KeyOrder) (doc : OoxmlDocument) (path : String) :
    (doc.toBytes order).get path = doc.partBytes path := by
  refine Option.ext fun bytes => ?_
  unfold Archive.get
  rw [lastRow_eq_some_iff (doc.toBytes order).distinct]
  constructor
  · intro hmem
    obtain ⟨path', -, hpath'⟩ := List.mem_filterMap.mp hmem
    obtain ⟨bytes', hbytes', heq⟩ := Option.map_eq_some_iff.mp hpath'
    obtain ⟨rfl, rfl⟩ := Prod.mk.inj heq
    exact hbytes'
  · intro hbytes
    refine List.mem_filterMap.mpr ⟨path, ?_, by rw [hbytes]; rfl⟩
    rw [(order.perm _).mem_iff, SortedMap.mem_keys]
    intro hnone
    rw [partBytes, hnone] at hbytes
    cases hbytes

/-- A binary part is among the parts. -/
def Closed (doc : OoxmlDocument) : Prop :=
  ∀ path, doc.parts.get path = none → doc.binaryParts.get path = none

theorem partBytes_addEntry {doc doc' : OoxmlDocument} {entry : String × List UInt8}
    (hclosed : doc.Closed) (hnew : doc.parts.get entry.1 = none) (h : addEntry doc entry = .ok doc') :
    doc'.Closed ∧ ∀ path, doc'.partBytes path =
      if path = entry.1 then some entry.2 else doc.partBytes path := by
  unfold addEntry at h
  simp only at h
  split at h
  · cases h
  · split at h
    · rename_i hdecode
      cases h
      refine ⟨fun path hpath => ?_, fun path => ?_⟩
      · simp only [SortedMap.get_insert] at hpath ⊢
        split at hpath
        · cases hpath
        · rename_i hne
          rw [if_neg hne]
          exact hclosed path hpath
      · simp only [partBytes, SortedMap.get_insert]
        split <;> rfl
    · rename_i content hdecode
      cases h
      refine ⟨fun path hpath => ?_, fun path => ?_⟩
      · simp only [SortedMap.get_insert] at hpath
        split at hpath
        · cases hpath
        · exact hclosed path hpath
      · simp only [partBytes, SortedMap.get_insert]
        split
        · rename_i hpath
          rw [hpath, hclosed _ hnew, Option.map_some, Option.getD_none, encode_of_decode hdecode]
        · rfl

theorem parts_addEntry {doc doc' : OoxmlDocument} {entry : String × List UInt8}
    (h : addEntry doc entry = .ok doc') (path : String) :
    doc'.parts.get path = none ↔ path ≠ entry.1 ∧ doc.parts.get path = none := by
  unfold addEntry at h
  simp only at h
  split at h
  · cases h
  · split at h <;> cases h <;> simp only [SortedMap.get_insert] <;> split <;> simp_all

theorem partBytes_foldlM {entries : List (String × List UInt8)} (hdistinct : (entries.map Prod.fst).Nodup)
    {doc doc' : OoxmlDocument} (hclosed : doc.Closed)
    (hnew : ∀ entry ∈ entries, doc.parts.get entry.1 = none)
    (h : entries.foldlM addEntry doc = .ok doc') (path : String) :
    doc'.partBytes path = (lastRow entries path).or (doc.partBytes path) := by
  induction entries generalizing doc with
  | nil =>
    cases h
    rfl
  | cons entry entries ih =>
    rw [List.map_cons, List.nodup_cons] at hdistinct
    rw [List.foldlM_cons] at h
    cases hfirst : addEntry doc entry with
    | error e =>
      rw [hfirst] at h
      cases h
    | ok first =>
      rw [hfirst] at h
      obtain ⟨hclosed', hbytes⟩ := partBytes_addEntry hclosed (hnew entry (List.mem_cons_self ..)) hfirst
      rw [ih hdistinct.2 hclosed' (fun e he => ?_) h, hbytes, lastRow]
      · by_cases hpath : path = entry.1
        · simp [hpath]
        · simp [hpath]
      · rw [parts_addEntry hfirst]
        exact ⟨fun heq => hdistinct.1 (heq ▸ List.mem_map_of_mem he),
          hnew e (List.mem_cons_of_mem _ he)⟩

/-- What is read of a package is written for it. -/
theorem partBytes_fromBytes {archive : Archive} {doc : OoxmlDocument} (h : fromBytes archive = .ok doc)
    (path : String) : doc.partBytes path = archive.get path := by
  have hfold := @partBytes_foldlM _ archive.distinct ⟨.empty, .empty, .empty⟩ doc (fun _ _ => rfl)
    (fun _ _ => rfl) h path
  rw [hfold]
  exact Option.or_none

/-- A part is kept under its own path. -/
def Named (doc : OoxmlDocument) : Prop := ∀ path part, doc.parts.get path = some part → part.path = path

theorem Named.addEntry {doc doc' : OoxmlDocument} {entry : String × List UInt8} (hnamed : doc.Named)
    (h : addEntry doc entry = .ok doc') : doc'.Named := by
  unfold OoxmlDocument.addEntry at h
  simp only at h
  intro path part hpart
  split at h
  · cases h
  · split at h
    all_goals
      cases h
      simp only [SortedMap.get_insert] at hpart
      split at hpart
      · rename_i hpath
        cases hpart
        exact hpath.symm
      · exact hnamed path part hpart

theorem named_fromBytes {archive : Archive} {doc : OoxmlDocument} (h : fromBytes archive = .ok doc) :
    doc.Named := by
  suffices hfold : ∀ (entries : List (String × List UInt8)) (doc₀ doc : OoxmlDocument), doc₀.Named →
      entries.foldlM OoxmlDocument.addEntry doc₀ = .ok doc → doc.Named from
    hfold _ _ _ (fun _ _ hpart => by cases hpart) h
  intro entries
  induction entries with
  | nil =>
    intro doc₀ doc hnamed h
    cases h
    exact hnamed
  | cons entry entries ih =>
    intro doc₀ doc hnamed h
    rw [List.foldlM_cons] at h
    obtain ⟨first, hfirst, h⟩ := ok_of_bind h
    exact ih first doc (hnamed.addEntry hfirst) h

theorem getPart_of_mainDocumentPath {order : KeyOrder} {doc : OoxmlDocument} {path : String}
    (h : doc.mainDocumentPath order = some path) :
    (∃ part, doc.getPart path = some part) ∧ path.toList.getLast? = some 'l' ∧
      path ≠ "[Content_Types].xml" := by
  have hmem := List.mem_of_find?_eq_some h
  rw [(order.perm _).mem_iff, SortedMap.mem_keys] at hmem
  refine ⟨Option.ne_none_iff_exists'.mp hmem, ?_⟩
  have hsuffix := List.find?_some h
  refine ⟨?_, fun heq => absurd (heq ▸ hsuffix) (by decide)⟩
  simp only [Bool.or_eq_true, decide_eq_true_eq] at hsuffix
  have hlast : ∀ name : List Char, name.getLast? = some 'l' → name <:+ path.toList →
      path.toList.getLast? = some 'l' := by
    rintro name hname ⟨front, hfront⟩
    rw [← hfront, List.getLast?_append, hname]
    rfl
  rcases hsuffix with (hsuffix | hsuffix) | hsuffix
  · exact hlast _ (by decide) hsuffix
  · exact hlast _ (by decide) hsuffix
  · exact hlast _ (by decide) hsuffix

theorem getPart_setContent {doc : OoxmlDocument} {path : String} {part : OoxmlPart}
    (h : doc.getPart path = some part) (content : List Char) :
    (doc.setContent path content).getPart path = some { part with content := content } := by
  rw [setContent, h]
  simp [getPart]

theorem getPart_setContent_of_ne (doc : OoxmlDocument) {path path' : String} (content : List Char)
    (h : path' ≠ path) : (doc.setContent path content).getPart path' = doc.getPart path' := by
  unfold setContent
  split
  · simp [getPart, h]
  · rfl

@[simp] theorem binaryParts_setContent (doc : OoxmlDocument) (path : String) (content : List Char) :
    (doc.setContent path content).binaryParts = doc.binaryParts := by
  unfold setContent
  split <;> rfl

theorem partBytes_setContent (doc : OoxmlDocument) {path path' : String} (content : List Char)
    (h : path' ≠ path) : (doc.setContent path content).partBytes path' = doc.partBytes path' := by
  unfold setContent
  split
  · simp only [partBytes, SortedMap.get_insert, if_neg h]
  · rfl

end OoxmlDocument
end Suture.Driver
