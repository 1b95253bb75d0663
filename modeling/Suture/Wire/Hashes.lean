import Suture.Foundation.ThreeWay
import Suture.Wire.PatchSigning
import Suture.Wire.Restored
import Suture.Engine.Tree

/-!
# Hashes

A hash is read from its hex with the number parser of the standard library, which takes a plus
before a digit. The bytes that are hashed for a tree tell the tree.
-/

namespace Suture.Wire
set_option autoImplicit false
open Foundation Engine

abbrev Hash := PatchId

inductive HexError where
  | invalidHashLength (n : Nat)
  | invalidHex
deriving DecidableEq, Repr

/-! ### Reading a hash -/

/-- `char::to_digit` in base 16. -/
def toDigit (byte : UInt8) : Option Nat :=
  if 48 ≤ byte ∧ byte ≤ 57 then some (byte.toNat - 48)
  else if 97 ≤ byte ∧ byte ≤ 102 then some (byte.toNat - 87)
  else if 65 ≤ byte ∧ byte ≤ 70 then some (byte.toNat - 55)
  else none

def readDigits (digits : Bytes) : Option UInt8 :=
  (digits.foldlM (fun n byte => do
    let digit ← toDigit byte
    if n * 16 + digit < 256 then some (n * 16 + digit) else none) 0).map UInt8.ofNat

/-- `u8::from_str_radix` in base 16: a plus may stand before the digits. -/
def fromStrRadix (src : Bytes) : Option UInt8 :=
  if src = [] ∨ src = [43] ∨ src = [45] then none
  else readDigits (if src.head? = some 43 then src.tail else src)

def readByte (chunk : Bytes) : Option UInt8 :=
  (String.fromUTF8? ⟨chunk.toArray⟩).bind fun text => fromStrRadix (utf8 text)

def chunksExact : Bytes → List Bytes
  | a :: b :: rest => [a, b] :: chunksExact rest
  | _ => []

theorem length_chunksExact (src : Bytes) : (chunksExact src).length = src.length / 2 := by
  fun_induction chunksExact src with
  | case1 a b rest ih =>
    simp only [List.length_cons, ih]
    omega
  | case2 src hshort =>
    match src with
    | [] => rfl
    | [_] => simp
    | a :: b :: rest => exact (hshort a b rest rfl).elim

def fromHex (hex : String) : Except HexError Hash :=
  let src := utf8 hex
  if hlen : src.length = 64 then
    match hbytes : (chunksExact src).mapM readByte with
    | some bytes => .ok ⟨bytes.toArray, by
        have hsize := congrArg List.length (mapM_eq_some_iff.mp hbytes)
        rw [List.length_map, List.length_map, length_chunksExact, hlen] at hsize
        exact hsize.symm⟩
    | none => .error .invalidHex
  else .error (.invalidHashLength src.length)

/-! ### Texts of ASCII -/

def asciiByte (c : Char) : UInt8 := .ofNat c.toNat

theorem utf8EncodeChar_of_lt {c : Char} (h : c.toNat < 128) :
    String.utf8EncodeChar c = [asciiByte c] := by
  unfold String.utf8EncodeChar
  exact if_pos (Nat.le_of_lt_succ h)

theorem exists_high_byte {c : Char} (h : ¬ c.toNat < 128) :
    ∃ b ∈ String.utf8EncodeChar c, ¬ b < 128 := by
  have hhigh : ∀ n : Nat, 128 ≤ n → n < 256 → ¬ UInt8.ofNat n < 128 := by
    intro n hn hlt hbyte
    rw [UInt8.lt_iff_toNat_lt, UInt8.toNat_ofNat', Nat.mod_eq_of_lt hlt] at hbyte
    exact absurd hbyte (Nat.not_lt.mpr hn)
  unfold String.utf8EncodeChar
  rw [if_neg (by exact fun hle => h (Nat.lt_succ_of_le hle))]
  split
  · exact ⟨_, List.mem_cons_self .., hhigh _ (by omega) (by omega)⟩
  · split
    · exact ⟨_, List.mem_cons_self .., hhigh _ (by omega) (by omega)⟩
    · exact ⟨_, List.mem_cons_self .., hhigh _ (by omega) (by omega)⟩

theorem utf8_eq_flatMap (s : String) : utf8 s = s.toList.flatMap String.utf8EncodeChar := by
  rw [← utf8_ofList, String.ofList_toList]

theorem utf8_of_ascii {s : String} (h : ∀ c ∈ s.toList, c.toNat < 128) :
    utf8 s = s.toList.map asciiByte := by
  rw [utf8_eq_flatMap, List.map_eq_flatMap]
  exact List.flatMap_congr fun c hc => utf8EncodeChar_of_lt (h c hc)

theorem ascii_of_utf8 {s : String} (h : ∀ b ∈ utf8 s, b < 128) : ∀ c ∈ s.toList, c.toNat < 128 := by
  intro c hc
  by_contra hhigh
  obtain ⟨b, hb, hbhigh⟩ := exists_high_byte hhigh
  rw [utf8_eq_flatMap] at h
  exact hbhigh (h b (List.mem_flatMap.mpr ⟨c, hc, hb⟩))

/-! ### The texts that are read -/

def IsHexDigit (c : Char) : Prop := c ∈ "0123456789abcdefABCDEF".toList

instance : DecidablePred IsHexDigit := fun c =>
  inferInstanceAs (Decidable (c ∈ "0123456789abcdefABCDEF".toList))

/-- 64 hex digits. -/
def Spelled (s : String) : Prop := s.toList.length = 64 ∧ ∀ c ∈ s.toList, IsHexDigit c

/-- Pairs of two hex digits, or of a plus and a hex digit. -/
def SignedPairs : List Char → Prop
  | [] => True
  | [_] => False
  | c :: d :: rest => (c = '+' ∨ IsHexDigit c) ∧ IsHexDigit d ∧ SignedPairs rest

/-- A plus stands for the first digit of a byte. -/
def Signed (s : String) : Prop := s.toList.length = 64 ∧ SignedPairs s.toList ∧ '+' ∈ s.toList

/-- A plus is worth nothing. -/
def digitValue (c : Char) : Nat := (toDigit (asciiByte c)).getD 0

def pairValues : List Char → List UInt8
  | c :: d :: rest => .ofNat (16 * digitValue c + digitValue d) :: pairValues rest
  | _ => []

theorem toDigit_lt {b : UInt8} {n : Nat} (h : toDigit b = some n) : n < 16 := by
  have hall : (List.range 256).all (fun k => (toDigit (UInt8.ofNat k)).all (· < 16)) = true := by
    decide +kernel
  have hb := List.all_eq_true.mp hall b.toNat (List.mem_range.mpr b.toNat_lt)
  rw [UInt8.ofNat_toNat, h] at hb
  simpa using hb

theorem lt_of_toDigit {b : UInt8} (h : toDigit b ≠ none) : b < 128 := by
  have hall : (List.range 256).all (fun k => toDigit (UInt8.ofNat k) = none ∨ UInt8.ofNat k < 128) =
      true := by
    decide +kernel
  have hb := List.all_eq_true.mp hall b.toNat (List.mem_range.mpr b.toNat_lt)
  rw [UInt8.ofNat_toNat] at hb
  exact (of_decide_eq_true hb).resolve_left h

theorem toDigit_ne_none_iff {c : Char} (h : c.toNat < 128) :
    toDigit (asciiByte c) ≠ none ↔ IsHexDigit c := by
  have hall : (List.range 128).all (fun k => toDigit (asciiByte (Char.ofNat k)) ≠ none ↔
      IsHexDigit (Char.ofNat k)) = true := by
    decide +kernel
  have hc := List.all_eq_true.mp hall c.toNat (List.mem_range.mpr h)
  rw [Char.ofNat_toNat] at hc
  exact of_decide_eq_true hc

theorem IsHexDigit.toNat_lt {c : Char} (h : IsHexDigit c) : c.toNat < 128 := by
  have hall : "0123456789abcdefABCDEF".toList.all (fun c => c.toNat < 128) = true := by decide +kernel
  exact of_decide_eq_true (List.all_eq_true.mp hall c h)

theorem readDigits_one (b : UInt8) : readDigits [b] = (toDigit b).map UInt8.ofNat := by
  unfold readDigits
  cases hb : toDigit b with
  | none => simp [hb]
  | some n =>
    have hn : n < 256 := Nat.lt_of_lt_of_le (toDigit_lt hb) (by decide)
    simp [hb, hn]

theorem readDigits_two (a b : UInt8) : readDigits [a, b] =
    (toDigit a).bind fun m => (toDigit b).map fun n => UInt8.ofNat (16 * m + n) := by
  unfold readDigits
  cases ha : toDigit a with
  | none => simp [ha]
  | some m =>
    have hm := toDigit_lt ha
    have hm' : m < 256 := by omega
    cases hb : toDigit b with
    | none => simp [ha, hb, hm']
    | some n =>
      have hn := toDigit_lt hb
      have hsum : m * 16 + n < 256 := by omega
      simp [ha, hb, hm', hsum, mul_comm]

theorem fromStrRadix_pair (a b : UInt8) : fromStrRadix [a, b] =
    if a = 43 then (toDigit b).map UInt8.ofNat
    else (toDigit a).bind fun m => (toDigit b).map fun n => UInt8.ofNat (16 * m + n) := by
  unfold fromStrRadix
  rw [if_neg (by simp), ← readDigits_one, ← readDigits_two]
  simp only [List.head?_cons, Option.some.injEq, List.tail_cons]
  split <;> rfl

theorem lt_of_fromStrRadix {a b : UInt8} (h : fromStrRadix [a, b] ≠ none) : a < 128 ∧ b < 128 := by
  rw [fromStrRadix_pair] at h
  split at h
  · rename_i hplus
    subst hplus
    exact ⟨by decide, lt_of_toDigit fun hb => h (by rw [hb]; rfl)⟩
  · refine ⟨lt_of_toDigit fun ha => h (by rw [ha]; rfl), lt_of_toDigit fun hb => h ?_⟩
    rw [hb]
    cases toDigit a <;> rfl

/-- What is not UTF-8 has no digits either. -/
theorem readByte_pair (a b : UInt8) : readByte [a, b] = fromStrRadix [a, b] := by
  unfold readByte
  cases htext : String.fromUTF8? ⟨[a, b].toArray⟩ with
  | some text =>
    rw [Option.bind_some, utf8, String.toUTF8, fromUTF8?_eq_some.mp htext]
  | none =>
    rw [Option.bind_none, eq_comm]
    by_contra h
    obtain ⟨ha, hb⟩ := lt_of_fromStrRadix h
    obtain ⟨t, ht⟩ := @exists_text_of_ascii [a, b] (by simp [ha, hb])
    rw [ht] at htext
    cases htext

theorem asciiByte_eq_plus {c : Char} (h : c.toNat < 128) : asciiByte c = 43 ↔ c = '+' := by
  have hall : (List.range 128).all (fun k => asciiByte (Char.ofNat k) = 43 ↔ Char.ofNat k = '+') =
      true := by
    decide +kernel
  have hc := List.all_eq_true.mp hall c.toNat (List.mem_range.mpr h)
  rw [Char.ofNat_toNat] at hc
  exact of_decide_eq_true hc

theorem toDigit_asciiByte {c : Char} (h : c.toNat < 128) (hdigit : IsHexDigit c) :
    toDigit (asciiByte c) = some (digitValue c) := by
  obtain ⟨n, hn⟩ := Option.ne_none_iff_exists'.mp ((toDigit_ne_none_iff h).mpr hdigit)
  rw [digitValue, hn]
  rfl

theorem readByte_chars {c d : Char} (hc : c.toNat < 128) (hd : d.toNat < 128) {x : UInt8} :
    readByte [asciiByte c, asciiByte d] = some x ↔
      ((c = '+' ∨ IsHexDigit c) ∧ IsHexDigit d) ∧ x = .ofNat (16 * digitValue c + digitValue d) := by
  rw [readByte_pair, fromStrRadix_pair]
  by_cases hd' : IsHexDigit d
  · rw [toDigit_asciiByte hd hd']
    by_cases hplus : c = '+'
    · subst hplus
      rw [if_pos (by decide)]
      have hzero : digitValue '+' = 0 := rfl
      simp [hd', hzero, eq_comm]
    · rw [if_neg fun h => hplus ((asciiByte_eq_plus hc).mp h)]
      by_cases hc' : IsHexDigit c
      · simp [toDigit_asciiByte hc hc', hc', hd', eq_comm]
      · have hnone : toDigit (asciiByte c) = none := by
          by_contra h
          exact hc' ((toDigit_ne_none_iff hc).mp h)
        simp [hnone, hplus, hc']
  · have hnone : toDigit (asciiByte d) = none := by
      by_contra h
      exact hd' ((toDigit_ne_none_iff hd).mp h)
    rw [hnone]
    cases toDigit (asciiByte c) <;> simp [hd']

/-- The chunks of a text of ASCII. -/
theorem read_chunks_iff {cs : List Char} (hascii : ∀ c ∈ cs, c.toNat < 128) (heven : 2 ∣ cs.length)
    {bytes : List UInt8} :
    (chunksExact (cs.map asciiByte)).map readByte = bytes.map some ↔
      SignedPairs cs ∧ bytes = pairValues cs := by
  induction cs using SignedPairs.induct generalizing bytes with
  | case1 => cases bytes <;> simp [chunksExact, SignedPairs, pairValues]
  | case2 c =>
    rw [List.length_singleton] at heven
    omega
  | case3 c d rest ih =>
    have hrest {bytes} := @ih (fun c hc => hascii c (by simp [hc])) (by simpa using heven) bytes
    have hpair {x} := @readByte_chars c d (hascii c (by simp)) (hascii d (by simp)) x
    cases bytes with
    | nil => simp [chunksExact, pairValues]
    | cons x bytes =>
      simp only [List.map_cons, chunksExact, SignedPairs, pairValues, List.cons.injEq, hrest, hpair]
      tauto

theorem ascii_of_read {src : Bytes} (heven : 2 ∣ src.length) {bytes : List UInt8}
    (h : (chunksExact src).map readByte = bytes.map some) : ∀ b ∈ src, b < 128 := by
  fun_induction chunksExact src generalizing bytes with
  | case1 a b rest ih =>
    cases bytes with
    | nil => cases h
    | cons x bytes =>
      obtain ⟨hx, hrest⟩ := List.cons.inj h
      rw [readByte_pair] at hx
      obtain ⟨ha, hb⟩ := lt_of_fromStrRadix (by rw [hx]; exact Option.some_ne_none x)
      intro y hy
      rcases List.mem_cons.mp hy with rfl | hy
      · exact ha
      · rcases List.mem_cons.mp hy with rfl | hy
        · exact hb
        · exact ih (by simpa using heven) hrest y hy
  | case2 src hshort =>
    match src with
    | [] => simp
    | [_] => simp at heven
    | a :: b :: rest => exact (hshort a b rest rfl).elim

theorem SignedPairs.ascii {cs : List Char} (h : SignedPairs cs) : ∀ c ∈ cs, c.toNat < 128 := by
  induction cs using SignedPairs.induct with
  | case1 => simp
  | case2 => exact h.elim
  | case3 c d rest ih =>
    intro x hx
    rcases List.mem_cons.mp hx with rfl | hx
    · rcases h.1 with rfl | hx
      · decide
      · exact hx.toNat_lt
    · rcases List.mem_cons.mp hx with rfl | hx
      · exact h.2.1.toNat_lt
      · exact ih h.2.2 x hx

theorem fromHex_eq_ok {s : String} {h : Hash} : fromHex s = .ok h ↔
    (utf8 s).length = 64 ∧ (chunksExact (utf8 s)).map readByte = h.toList.map some := by
  unfold fromHex
  simp only
  constructor
  · intro hok
    split at hok
    · rename_i hlen
      split at hok
      · rename_i bytes hbytes
        cases hok
        exact ⟨hlen, mapM_eq_some_iff.mp hbytes⟩
      · cases hok
    · cases hok
  · rintro ⟨hlen, hmap⟩
    have hread := mapM_eq_some_iff.mpr hmap
    rw [dif_pos hlen]
    split
    · rename_i bytes hbytes
      obtain rfl := Option.some.inj (hbytes.symm.trans hread)
      exact congrArg Except.ok (Vector.toList_inj.mp rfl)
    · rename_i hnone
      rw [hread] at hnone
      cases hnone

theorem fromHex_eq_ok_iff {s : String} {h : Hash} : fromHex s = .ok h ↔
    s.toList.length = 64 ∧ SignedPairs s.toList ∧ h.toList = pairValues s.toList := by
  rw [fromHex_eq_ok]
  constructor
  · rintro ⟨hlen, hmap⟩
    have hascii := ascii_of_utf8 (ascii_of_read (by rw [hlen]; decide) hmap)
    rw [utf8_of_ascii hascii, List.length_map] at hlen
    rw [utf8_of_ascii hascii] at hmap
    exact ⟨hlen, (read_chunks_iff hascii (by rw [hlen]; decide)).mp hmap⟩
  · rintro ⟨hlen, hpairs, hvalues⟩
    rw [utf8_of_ascii hpairs.ascii, List.length_map]
    exact ⟨hlen, (read_chunks_iff hpairs.ascii (by rw [hlen]; decide)).mpr ⟨hpairs, hvalues⟩⟩

/-! ### The grammar of a hash -/

/-- A text is read exactly when it is 64 hex digits, and then the hash is written as the text in
lower case. -/
structure ExactOn (s : String) : Prop where
  accepts : (∃ h, fromHex s = .ok h) ↔ Spelled s
  lower : ∀ h, fromHex s = .ok h → h.toHex = s.toLower

theorem signedPairs_iff {cs : List Char} (heven : 2 ∣ cs.length) (hplus : '+' ∉ cs) :
    SignedPairs cs ↔ ∀ c ∈ cs, IsHexDigit c := by
  induction cs using SignedPairs.induct with
  | case1 => simp [SignedPairs]
  | case2 c =>
    rw [List.length_singleton] at heven
    omega
  | case3 c d rest ih =>
    have hc : c ≠ '+' := fun h => hplus (h ▸ List.mem_cons_self ..)
    have hrest := ih (by simpa using heven) fun h => hplus (by simp [h])
    simp [SignedPairs, hrest, hc]

def hexPair (byte : UInt8) : List Char := [hexChar (byte >>> 4), hexChar (byte &&& 0x0f)]

theorem toList_toHex (h : Hash) : h.toHex.toList = h.toList.flatMap hexPair := String.toList_ofList

theorem hexPair_chars {c d : Char} (hc : IsHexDigit c) (hd : IsHexDigit d) :
    hexPair (.ofNat (16 * digitValue c + digitValue d)) = [c.toLower, d.toLower] := by
  have hall : "0123456789abcdefABCDEF".toList.all (fun c => "0123456789abcdefABCDEF".toList.all fun d =>
      hexPair (.ofNat (16 * digitValue c + digitValue d)) = [c.toLower, d.toLower]) = true := by
    decide +kernel
  exact of_decide_eq_true (List.all_eq_true.mp (List.all_eq_true.mp hall c hc) d hd)

theorem hexPairs_pairValues {cs : List Char} (heven : 2 ∣ cs.length) (h : ∀ c ∈ cs, IsHexDigit c) :
    (pairValues cs).flatMap hexPair = cs.map Char.toLower := by
  induction cs using SignedPairs.induct with
  | case1 => rfl
  | case2 c =>
    rw [List.length_singleton] at heven
    omega
  | case3 c d rest ih =>
    rw [pairValues, List.flatMap_cons, hexPair_chars (h c (by simp)) (h d (by simp)),
      ih (by simpa using heven) fun x hx => h x (by simp [hx])]
    rfl

theorem isHexDigit_hexChar (digit : UInt8) : IsHexDigit (hexChar digit) := by
  have hall : "0123456789abcdef".toList.all (fun c => IsHexDigit c) = true := by decide +kernel
  exact of_decide_eq_true (List.all_eq_true.mp hall _ (hexChar_mem digit))

theorem pairValues_hexPairs (bytes : List UInt8) : pairValues (bytes.flatMap hexPair) = bytes := by
  have hall : (List.range 256).all (fun n =>
      pairValues (hexPair (.ofNat n)) = [UInt8.ofNat n]) = true := by
    decide +kernel
  induction bytes with
  | nil => rfl
  | cons byte bytes ih =>
    have hbyte := of_decide_eq_true
      (List.all_eq_true.mp hall byte.toNat (List.mem_range.mpr byte.toNat_lt))
    rw [UInt8.ofNat_toNat] at hbyte
    rw [List.flatMap_cons]
    change pairValues (hexPair byte) ++ pairValues (bytes.flatMap hexPair) = _
    rw [hbyte, ih]
    rfl

theorem signedPairs_hexPairs (bytes : List UInt8) : SignedPairs (bytes.flatMap hexPair) := by
  induction bytes with
  | nil => trivial
  | cons byte bytes ih => exact ⟨.inr (isHexDigit_hexChar _), isHexDigit_hexChar _, ih⟩

theorem length_hexPairs (bytes : List UInt8) : (bytes.flatMap hexPair).length = 2 * bytes.length := by
  induction bytes with
  | nil => rfl
  | cons byte bytes ih =>
    have hpair : (hexPair byte).length = 2 := rfl
    rw [List.flatMap_cons, List.length_append, ih, List.length_cons]
    omega

theorem fromHex_toHex (h : Hash) : fromHex h.toHex = .ok h := by
  rw [fromHex_eq_ok_iff, toList_toHex, pairValues_hexPairs, length_hexPairs, Vector.length_toList]
  exact ⟨rfl, signedPairs_hexPairs _, rfl⟩

theorem length_pairValues (cs : List Char) : (pairValues cs).length = cs.length / 2 := by
  fun_induction pairValues cs with
  | case1 c d rest ih =>
    simp only [List.length_cons, ih]
    omega
  | case2 cs hshort =>
    match cs with
    | [] => rfl
    | [_] => simp
    | c :: d :: rest => exact (hshort c d rest rfl).elim

/-- Every text of signed pairs is read. -/
theorem exists_fromHex {s : String} (hlen : s.toList.length = 64) (h : SignedPairs s.toList) :
    ∃ hash, fromHex s = .ok hash := by
  refine ⟨⟨(pairValues s.toList).toArray, ?_⟩, fromHex_eq_ok_iff.mpr ⟨hlen, h, rfl⟩⟩
  rw [List.size_toArray, length_pairValues, hlen]

theorem exactOn_iff (s : String) : ExactOn s ↔ ¬ Signed s := by
  refine ⟨fun hexact hsigned => ?_, fun hsigned => ?_⟩
  · obtain ⟨hlen, hpairs, hplus⟩ := hsigned
    have hdigit := (hexact.accepts.mp (exists_fromHex hlen hpairs)).2 '+' hplus
    exact absurd hdigit (by decide)
  · have hplus : ∀ h, fromHex s = .ok h → '+' ∉ s.toList := fun h hok hmem => by
      obtain ⟨hlen, hpairs, -⟩ := fromHex_eq_ok_iff.mp hok
      exact hsigned ⟨hlen, hpairs, hmem⟩
    constructor
    · constructor
      · rintro ⟨h, hok⟩
        obtain ⟨hlen, hpairs, -⟩ := fromHex_eq_ok_iff.mp hok
        exact ⟨hlen, (signedPairs_iff (by rw [hlen]; decide) (hplus h hok)).mp hpairs⟩
      · rintro ⟨hlen, hdigits⟩
        have hno : '+' ∉ s.toList := fun hmem => absurd (hdigits _ hmem) (by decide)
        exact exists_fromHex hlen ((signedPairs_iff (by rw [hlen]; decide) hno).mpr hdigits)
    · intro h hok
      obtain ⟨hlen, hpairs, hvalues⟩ := fromHex_eq_ok_iff.mp hok
      have heven : 2 ∣ s.toList.length := by rw [hlen]; decide
      have hdigits := (signedPairs_iff heven (hplus h hok)).mp hpairs
      apply String.toList_inj.mp
      rw [toList_toHex, hvalues, hexPairs_pairValues heven hdigits]
      exact String.toList_map.symm

/-- A hash is read back from its hex, and every text is read as its grammar says, unless a plus
stands for a digit. -/
theorem fromHex_exact (h : Hash) (s : String) :
    fromHex h.toHex = .ok h ∧ (ExactOn s ↔ ¬ Signed s) :=
  ⟨fromHex_toHex h, exactOn_iff s⟩

/-- A plus for every first digit. -/
theorem plus_for_digit : ¬ ∀ s, ExactOn s := by
  intro h
  have hsigned : Signed (String.ofList (List.replicate 32 ['+', 'a']).flatten) := by
    refine ⟨?_, ?_, ?_⟩
    · rw [String.toList_ofList]
      rfl
    · rw [String.toList_ofList]
      simp [List.replicate, SignedPairs]
      decide
    · rw [String.toList_ofList]
      decide
  exact (exactOn_iff _).mp (h _) hsigned

/-! ### The bytes of a tree -/

/-- What `content_hash` gives the hasher, in its order. -/
def treeBytes (tree : FileTree Hash) : Bytes :=
  tree.entries.flatMap fun e => utf8 e.1 ++ [0] ++ e.2.toList ++ [0]

theorem tells_entry : Tells (fun e : String × Hash => utf8 e.1 ++ [0] ++ e.2.toList ++ [0]) id
    fun e => NulFree e.1 := by
  have hpath := @tells_text _ (fun e : String × Hash => NulFree e.1) Prod.fst fun _ h => h
  -- a hash may have the separator in it, but all hashes have the same length
  have hhash : Tells (fun e : String × Hash => e.2.toList ++ [0]) Prod.snd fun e => NulFree e.1 := by
    apply Tells.fixed (n := 33)
    · intro e
      rw [List.length_append, Vector.length_toList]
      rfl
    · intro e e' _ _ h
      exact Vector.toList_inj.mp (List.append_cancel_right h)
  intro e e' s t he he' h
  apply (hpath.append hhash) e e' s t he he'
  simp only [List.append_assoc] at h ⊢
  exact h

/-- The bytes that are hashed tell the tree, when no path has a NUL in it. -/
theorem treeBytes_inj (t₁ t₂ : FileTree Hash) (h₁ : ∀ e ∈ t₁.entries, NulFree e.1)
    (h₂ : ∀ e ∈ t₂.entries, NulFree e.1) (h : treeBytes t₁ = treeBytes t₂) : t₁ = t₂ := by
  have hentries := tells_entry.flatMap_inj (fun e => by simp) h₁ h₂ h
  rw [List.map_id, List.map_id] at hentries
  exact SortedMap.ext fun path => by rw [SortedMap.get, SortedMap.get, hentries]

/-- Two files with the zero hash, put in in either order. -/
theorem treeBytes_inj_zeros :
    let zeros : Hash := Vector.replicate 32 0
    ((SortedMap.empty.insert "b" zeros).insert "a" zeros : FileTree Hash) =
      (SortedMap.empty.insert "a" zeros).insert "b" zeros := by
  intro zeros
  have hfree : ∀ e ∈ [("a", zeros), ("b", zeros)], NulFree e.1 := by
    intro e he
    simp only [List.mem_cons, List.not_mem_nil, or_false] at he
    rcases he with rfl | rfl
    · change 0 ∉ utf8 "a"
      decide +kernel
    · change 0 ∉ utf8 "b"
      decide +kernel
  exact treeBytes_inj _ _ hfree hfree rfl

end Suture.Wire
