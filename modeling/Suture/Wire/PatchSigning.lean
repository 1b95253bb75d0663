import Mathlib.Data.List.Sort
import Suture.Wire.Binding

/-!
# What a patch signature binds

The signed bytes write the touched paths one after the other without their number, each ended
by a NUL, and put the target after them in the same way. Two patches with the same bytes agree
exactly when their texts have NULs at the same places.
-/

namespace Suture.Wire
set_option autoImplicit false
open Foundation

abbrev PatchId := Vector UInt8 32

def hexChar (digit : UInt8) : Char := "0123456789abcdef".toList.getD digit.toNat '0'

namespace PatchId

def toHex (hash : PatchId) : String :=
  String.ofList (hash.toList.flatMap fun byte : UInt8 =>
    [hexChar (byte >>> 4), hexChar (byte &&& 0x0f)])

end PatchId

def targetBytes : Option String → Bytes
  | some path => utf8 path
  | none => [0xFF]

def canonicalPatchBytes (operationType : String) (touchSet : List String)
    (targetPath : Option String) (payload : Bytes) (parentIds : List PatchId)
    (author message : String) (timestamp : UInt64) : Bytes :=
  utf8 operationType ++ [0] ++
    (touchSet.insertionSort (· ≤ ·)).flatMap (fun touch => utf8 touch ++ [0]) ++
    (targetBytes targetPath ++ [0]) ++
    (toLeBytes (.ofNat payload.length) ++ payload) ++
    (parentIds.insertionSort fun a b => a.toHex ≤ b.toHex).flatMap
      (fun parent => utf8 parent.toHex ++ [0]) ++
    (toLeBytes timestamp ++ [0]) ++ (utf8 author ++ [0]) ++ utf8 message

/-- What `canonicalPatchBytes` is given; a vector has less than `2 ^ 64` bytes. -/
structure PatchFields where
  operationType : String
  touchSet : List String
  targetPath : Option String
  payload : Bytes
  parentIds : List PatchId
  author : String
  message : String
  timestamp : UInt64
  payload_lt : payload.length < 2 ^ 64

namespace PatchFields

def bytes (p : PatchFields) : Bytes :=
  canonicalPatchBytes p.operationType p.touchSet p.targetPath p.payload p.parentIds p.author
    p.message p.timestamp

def sortedTouches (p : PatchFields) : List String := p.touchSet.insertionSort (· ≤ ·)

def sortedParents (p : PatchFields) : List PatchId :=
  p.parentIds.insertionSort fun a b => a.toHex ≤ b.toHex

end PatchFields

/-- The same patch, with the touched paths and the parents taken as sets. -/
structure SamePatch (p q : PatchFields) : Prop where
  operationType : p.operationType = q.operationType
  touchSet : ∀ touch, touch ∈ p.touchSet ↔ touch ∈ q.touchSet
  targetPath : p.targetPath = q.targetPath
  payload : p.payload = q.payload
  parentIds : ∀ parent, parent ∈ p.parentIds ↔ parent ∈ q.parentIds
  timestamp : p.timestamp = q.timestamp
  author : p.author = q.author
  message : p.message = q.message

def nuls (s : String) : Nat := (utf8 s).count 0

/-- The texts that are ended by a NUL have as many NULs of their own; the touched paths one by
one, so there are as many of them. -/
structure SameNuls (p q : PatchFields) : Prop where
  operationType : nuls p.operationType = nuls q.operationType
  touches : p.sortedTouches.map nuls = q.sortedTouches.map nuls
  targetPath : p.targetPath.elim 0 nuls = q.targetPath.elim 0 nuls
  author : nuls p.author = nuls q.author

/-! ### The hex of a hash, and the mark of a missing target -/

theorem utf8_ofList (l : List Char) : utf8 (String.ofList l) = l.flatMap String.utf8EncodeChar := by
  change (String.ofList l).toByteArray.data.toList = _
  rw [String.toByteArray_ofList]
  exact List.toList_data_toByteArray

theorem hexChar_mem (digit : UInt8) : hexChar digit ∈ "0123456789abcdef".toList := by
  unfold hexChar
  rw [List.getD_eq_getElem?_getD]
  cases hdigit : "0123456789abcdef".toList[digit.toNat]? with
  | none => exact List.mem_cons_self ..
  | some c => exact List.mem_of_getElem? hdigit

theorem encode_hexChar (digit : UInt8) : (String.utf8EncodeChar (hexChar digit)).length = 1 ∧
    0 ∉ String.utf8EncodeChar (hexChar digit) := by
  have hall : "0123456789abcdef".toList.all (fun c =>
      (String.utf8EncodeChar c).length = 1 ∧ 0 ∉ String.utf8EncodeChar c) = true := by
    decide +kernel
  have h := List.all_eq_true.mp hall _ (hexChar_mem digit)
  exact of_decide_eq_true h

/-- The byte that two digits are the hex of. -/
def ofHex (digits : List Char) : UInt8 :=
  .ofNat (digits.foldl (fun n c => 16 * n + "0123456789abcdef".toList.idxOf c) 0)

theorem ofHex_hexChar (byte : UInt8) :
    ofHex [hexChar (byte >>> 4), hexChar (byte &&& 0x0f)] = byte := by
  have hall : (List.range 256).all (fun n =>
      ofHex [hexChar (UInt8.ofNat n >>> 4), hexChar (UInt8.ofNat n &&& 0x0f)] = UInt8.ofNat n) =
        true := by
    decide +kernel
  have h := List.all_eq_true.mp hall byte.toNat (List.mem_range.mpr byte.toNat_lt)
  rw [UInt8.ofNat_toNat] at h
  exact of_decide_eq_true h

namespace PatchId

theorem utf8_toHex (hash : PatchId) : utf8 hash.toHex = hash.toList.flatMap fun byte : UInt8 =>
    String.utf8EncodeChar (hexChar (byte >>> 4)) ++
      String.utf8EncodeChar (hexChar (byte &&& 0x0f)) := by
  unfold toHex
  rw [utf8_ofList, List.flatMap_assoc]
  simp only [List.flatMap_cons, List.flatMap_nil, List.append_nil]

theorem length_toHex (hash : PatchId) : (utf8 hash.toHex).length = 64 := by
  have hbyte : ∀ bytes : List UInt8, (bytes.flatMap fun byte : UInt8 =>
      String.utf8EncodeChar (hexChar (byte >>> 4)) ++
        String.utf8EncodeChar (hexChar (byte &&& 0x0f))).length = 2 * bytes.length := by
    intro bytes
    induction bytes with
    | nil => rfl
    | cons byte bytes ih =>
      rw [List.flatMap_cons, List.length_append, List.length_append, (encode_hexChar _).1,
        (encode_hexChar _).1, ih, List.length_cons]
      omega
  rw [utf8_toHex, hbyte, Vector.length_toList]

theorem zero_notMem_toHex (hash : PatchId) : 0 ∉ utf8 hash.toHex := by
  rw [utf8_toHex, List.mem_flatMap]
  rintro ⟨byte, -, hmem⟩
  rcases List.mem_append.mp hmem with h | h
  · exact (encode_hexChar _).2 h
  · exact (encode_hexChar _).2 h

theorem toHex_inj {a b : PatchId} (h : a.toHex = b.toHex) : a = b := by
  have htells : Tells (fun byte : UInt8 => [hexChar (byte >>> 4), hexChar (byte &&& 0x0f)]) id
      fun _ => True := by
    apply Tells.fixed (n := 2) fun _ => rfl
    intro byte byte' _ _ h
    have hof := congrArg ofHex h
    rwa [ofHex_hexChar, ofHex_hexChar] at hof
  have hlen : a.toList.length = b.toList.length := by
    rw [Vector.length_toList, Vector.length_toList]
  have hmap := (htells.items a.toList b.toList [] [] hlen (fun _ _ => trivial) (fun _ _ => trivial)
    (congrArg (· ++ []) (String.ofList_inj.mp h))).1
  rw [List.map_id, List.map_id] at hmap
  exact Vector.toList_inj.mp hmap

end PatchId

/-! A parent has no NUL where the time after the parents is ended. -/

theorem length_parentBytes (parent : PatchId) : (utf8 parent.toHex ++ [0]).length = 65 := by
  rw [List.length_append, parent.length_toHex, List.length_singleton]

theorem parentBytes_ne_stop (parent : PatchId) : (utf8 parent.toHex ++ [0])[8]? ≠ some 0 := by
  rw [List.getElem?_append_left (by rw [parent.length_toHex]; decide)]
  exact fun h => parent.zero_notMem_toHex (List.mem_of_getElem? h)

theorem time_stop (timestamp : UInt64) (rest : Bytes) :
    (toLeBytes timestamp ++ 0 :: rest)[8]? = some 0 := by
  rw [List.getElem?_append_right (length_toLeBytes timestamp).le, length_toLeBytes]
  rfl

theorem parentBytes_inj ⦃a b : PatchId⦄ (h : utf8 a.toHex ++ [0] = utf8 b.toHex ++ [0]) : a = b :=
  PatchId.toHex_inj (utf8_inj (List.append_cancel_right h))

theorem utf8_ne_missing (path : String) : utf8 path ≠ targetBytes none := by
  intro h
  have hpath : utf8 path = path.toList.flatMap String.utf8EncodeChar := by
    rw [← utf8_ofList, String.ofList_toList]
  rw [hpath] at h
  cases hlist : path.toList with
  | nil =>
    rw [hlist] at h
    cases h
  | cons c rest =>
    rw [hlist, List.flatMap_cons] at h
    -- no character starts with the byte `0xFF`
    have hfirst := UInt8.isUTF8FirstByte_getElem_zero_utf8EncodeChar (c := c)
    cases hchar : String.utf8EncodeChar c with
    | nil => exact absurd hchar String.utf8EncodeChar_ne_nil
    | cons byte bytes =>
      simp only [hchar, List.getElem_cons_zero] at hfirst
      rw [hchar] at h
      obtain ⟨rfl, -⟩ := List.cons.inj h
      exact absurd hfirst (by decide)

theorem targetBytes_inj {target target' : Option String}
    (h : targetBytes target = targetBytes target') : target = target' := by
  cases target with
  | none =>
    cases target' with
    | none => rfl
    | some path => exact absurd h.symm (utf8_ne_missing path)
  | some path =>
    cases target' with
    | none => exact absurd h (utf8_ne_missing path)
    | some path' => exact congrArg some (utf8_inj h)

theorem count_targetBytes (target : Option String) :
    (targetBytes target).count 0 = target.elim 0 nuls := by
  cases target with
  | none => rfl
  | some path => rfl

/-! ### What is bound -/

theorem mem_of_sortedTouches_eq {p q : PatchFields} (h : p.sortedTouches = q.sortedTouches)
    (touch : String) : touch ∈ p.touchSet ↔ touch ∈ q.touchSet := by
  unfold PatchFields.sortedTouches at h
  rw [← List.mem_insertionSort (· ≤ ·), h, List.mem_insertionSort]

theorem mem_of_sortedParents_eq {p q : PatchFields} (h : p.sortedParents = q.sortedParents)
    (parent : PatchId) : parent ∈ p.parentIds ↔ parent ∈ q.parentIds := by
  unfold PatchFields.sortedParents at h
  rw [← List.mem_insertionSort fun a b : PatchId => a.toHex ≤ b.toHex, h, List.mem_insertionSort]

theorem sortedTouches_eq {p q : PatchFields} (hp : p.touchSet.Nodup) (hq : q.touchSet.Nodup)
    (h : ∀ touch, touch ∈ p.touchSet ↔ touch ∈ q.touchSet) : p.sortedTouches = q.sortedTouches := by
  apply List.Perm.eq_of_pairwise' (r := (· ≤ ·)) (List.pairwise_insertionSort _ _)
    (List.pairwise_insertionSort _ _)
  have hperm : List.Perm p.touchSet q.touchSet := (List.perm_ext_iff_of_nodup hp hq).mpr h
  exact ((List.perm_insertionSort _ _).trans hperm).trans (List.perm_insertionSort _ _).symm

theorem samePatch_of_sameNuls {p q : PatchFields} (hbytes : p.bytes = q.bytes) (h : SameNuls p q) :
    SamePatch p q := by
  unfold PatchFields.bytes canonicalPatchBytes at hbytes
  simp only [List.append_assoc, List.cons_append, List.nil_append] at hbytes
  obtain ⟨hoperation, hbytes⟩ := append_stop_inj h.operationType hbytes
  obtain ⟨htouches, hbytes⟩ := flatMap_stop_inj h.touches hbytes
  have htargetCount : (targetBytes p.targetPath).count 0 = (targetBytes q.targetPath).count 0 := by
    rw [count_targetBytes, count_targetBytes, h.targetPath]
  obtain ⟨htarget, hbytes⟩ := append_stop_inj htargetCount hbytes
  obtain ⟨hlength, hbytes⟩ := List.append_inj hbytes (by rw [length_toLeBytes, length_toLeBytes])
  have hlength : p.payload.length = q.payload.length := by
    have heq := congrArg UInt64.toNat (toLeBytes_inj hlength)
    rwa [UInt64.toNat_ofNat_of_lt' p.payload_lt, UInt64.toNat_ofNat_of_lt' q.payload_lt] at heq
  obtain ⟨hpayload, hbytes⟩ := List.append_inj hbytes hlength
  obtain ⟨hparents, hbytes⟩ := flatMap_fixed_inj length_parentBytes (by decide : 8 < 65)
    parentBytes_ne_stop (time_stop _ _) (time_stop _ _) hbytes
  obtain ⟨htime, hbytes⟩ := List.append_inj hbytes (by rw [length_toLeBytes, length_toLeBytes])
  obtain ⟨hauthor, hmessage⟩ := append_stop_inj h.author (List.cons.inj hbytes).2
  exact {
    operationType := utf8_inj hoperation
    touchSet := mem_of_sortedTouches_eq (List.map_injective_iff.mpr (fun _ _ => utf8_inj) htouches)
    targetPath := targetBytes_inj htarget
    payload := hpayload
    parentIds := mem_of_sortedParents_eq (List.map_injective_iff.mpr parentBytes_inj hparents)
    timestamp := toLeBytes_inj htime
    author := utf8_inj hauthor
    message := utf8_inj hmessage }

theorem sameNuls_of_samePatch {p q : PatchFields} (hp : p.touchSet.Nodup) (hq : q.touchSet.Nodup)
    (h : SamePatch p q) : SameNuls p q where
  operationType := by rw [h.operationType]
  touches := by rw [sortedTouches_eq hp hq h.touchSet]
  targetPath := by rw [h.targetPath]
  author := by rw [h.author]

/-- Two patches with the same bytes are the same when their texts have NULs at the same places, and,
if neither lists a path twice, only then. -/
theorem patch_signature_binds (p q : PatchFields) (hbytes : p.bytes = q.bytes) :
    (SameNuls p q → SamePatch p q) ∧
      (p.touchSet.Nodup → q.touchSet.Nodup → (SamePatch p q ↔ SameNuls p q)) :=
  ⟨samePatch_of_sameNuls hbytes, fun hp hq =>
    ⟨sameNuls_of_samePatch hp hq, samePatch_of_sameNuls hbytes⟩⟩

def samplePatch (touchSet : List String) (target : String) (payload : Bytes)
    (h : payload.length < 2 ^ 64) : PatchFields where
  operationType := "modify"
  touchSet := touchSet
  targetPath := some target
  payload := payload
  parentIds := []
  author := "alice"
  message := "test message"
  timestamp := 1000
  payload_lt := h

/-- The order in which the touched paths are listed does not matter. -/
theorem touches_reordered :
    let p := samplePatch ["a.txt", "b.txt"] "a.txt" [7] (by decide)
    let q := samplePatch ["b.txt", "a.txt"] "a.txt" [7] (by decide)
    (SameNuls p q → SamePatch p q) ∧
      (p.touchSet.Nodup → q.touchSet.Nodup → (SamePatch p q ↔ SameNuls p q)) :=
  patch_signature_binds _ _ (by decide +kernel)

/-- The length of the payload is read as a target, and the target as a touched path. No text has
a NUL here. -/
theorem touch_or_target : ¬ ∀ p q : PatchFields, p.bytes = q.bytes → SamePatch p q := by
  intro h
  have hsame := h (samplePatch ["a.txt"] "b.txt" [0, 0] (by decide))
    (samplePatch ["a.txt", "b.txt"] "\x02" [] (by decide)) (by decide +kernel)
  exact absurd hsame.payload (by decide)

end Suture.Wire
