import Suture.Wire.Tree

/-!
# Base64 read back

The standard alphabet, with padding: a text is read only as it would have been written.
-/

namespace Suture.Wire
set_option autoImplicit false

def base64Digit (c : Char) : Option Nat :=
  "ABCDEFGHIJKLMNOPQRSTUVWXYZabcdefghijklmnopqrstuvwxyz0123456789+/".toList.idxOf? c

/-- The bits that the last digit of a shorter end has over are zero. -/
def base64Bytes : List Char → Option Bytes
  | [] => some []
  | [c, d, '=', '='] => do
    let n := (← base64Digit c) * 64 + (← base64Digit d)
    if n % 16 = 0 then some [.ofNat (n / 16)] else none
  | [c, d, e, '='] => do
    let n := ((← base64Digit c) * 64 + (← base64Digit d)) * 64 + (← base64Digit e)
    if n % 4 = 0 then some [.ofNat (n / 1024), .ofNat (n / 4)] else none
  | c :: d :: e :: f :: rest => do
    let n := (((← base64Digit c) * 64 + (← base64Digit d)) * 64 + (← base64Digit e)) * 64 +
      (← base64Digit f)
    let data ← base64Bytes rest
    some (.ofNat (n / 65536) :: .ofNat (n / 256) :: .ofNat n :: data)
  | _ => none

def base64Decode (text : String) : Option Bytes := base64Bytes text.toList

theorem base64Digit_base64Char {n : Nat} (h : n < 64) : base64Digit (base64Char n) = some n := by
  have hall : ∀ k < 64, base64Digit (base64Char k) = some k := by decide +kernel
  exact hall n h

theorem base64Char_ne_pad {n : Nat} (h : n < 64) : base64Char n ≠ '=' := by
  have hall : ∀ k < 64, base64Char k ≠ '=' := by decide +kernel
  exact hall n h

theorem ofNat_toNat_mod {n : Nat} {a : UInt8} (h : n % 256 = a.toNat) : UInt8.ofNat n = a := by
  apply UInt8.toNat_inj.mp
  rw [UInt8.toNat_ofNat', h]

theorem base64Bytes_group {c d e f : Char} (hf : f ≠ '=') (rest : List Char) :
    base64Bytes (c :: d :: e :: f :: rest) = (do
      let n := (((← base64Digit c) * 64 + (← base64Digit d)) * 64 + (← base64Digit e)) * 64 +
        (← base64Digit f)
      let data ← base64Bytes rest
      some (.ofNat (n / 65536) :: .ofNat (n / 256) :: .ofNat n :: data)) := by
  rw [base64Bytes]
  · intro _ h
    exact absurd h hf
  · intro h
    exact absurd h hf

theorem base64Bytes_three {c d e : Char} (he : e ≠ '=') : base64Bytes [c, d, e, '='] = (do
    let n := ((← base64Digit c) * 64 + (← base64Digit d)) * 64 + (← base64Digit e)
    if n % 4 = 0 then some [.ofNat (n / 1024), .ofNat (n / 4)] else none) := by
  rw [base64Bytes]
  intro h
  exact absurd h he

theorem base64Bytes_base64Chars (data : Bytes) : base64Bytes (base64Chars data) = some data := by
  induction data using base64Chars.induct with
  | case1 a b c rest ih =>
    have ha := a.toNat_lt
    have hb := b.toNat_lt
    have hc := c.toNat_lt
    rw [base64Chars]
    simp only [List.map_cons, List.map_nil, List.cons_append, List.nil_append]
    rw [base64Bytes_group (base64Char_ne_pad (by omega)), base64Digit_base64Char (by omega),
      base64Digit_base64Char (by omega), base64Digit_base64Char (by omega),
      base64Digit_base64Char (by omega), ih]
    apply congrArg some
    congr 1
    · exact ofNat_toNat_mod (by omega)
    · congr 1
      · exact ofNat_toNat_mod (by omega)
      · congr 1
        exact ofNat_toNat_mod (by omega)
  | case2 a b =>
    have ha := a.toNat_lt
    have hb := b.toNat_lt
    rw [base64Chars]
    simp only [List.map_cons, List.map_nil, List.cons_append, List.nil_append]
    rw [base64Bytes_three (base64Char_ne_pad (by omega)), base64Digit_base64Char (by omega),
      base64Digit_base64Char (by omega), base64Digit_base64Char (by omega)]
    refine (if_pos (by omega)).trans (congrArg some ?_)
    congr 1
    · exact ofNat_toNat_mod (by omega)
    · congr 1
      exact ofNat_toNat_mod (by omega)
  | case3 a =>
    have ha := a.toNat_lt
    rw [base64Chars]
    simp only [List.map_cons, List.map_nil, List.cons_append, List.nil_append]
    rw [base64Bytes, base64Digit_base64Char (by omega), base64Digit_base64Char (by omega)]
    refine (if_pos (by omega)).trans (congrArg some ?_)
    congr 1
    exact ofNat_toNat_mod (by omega)
  | case4 => rfl

theorem base64Decode_base64Encode (data : Bytes) :
    base64Decode (base64Encode data) = some data := by
  rw [base64Decode, base64Encode, String.toList_ofList, base64Bytes_base64Chars]

end Suture.Wire
