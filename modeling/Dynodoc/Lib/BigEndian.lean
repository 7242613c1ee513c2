import Mathlib.Data.List.Induction
import Mathlib.Tactic.Ring

/-! Natural numbers in a fixed number of bytes, the highest first. -/
namespace BigEndian
open List

def encode : Nat → Nat → List UInt8
  | 0, _ => []
  | width + 1, n => encode width (n / 256) ++ [UInt8.ofNat (n % 256)]

def decode (bytes : List UInt8) : Nat := bytes.foldl (fun n byte => n * 256 + byte.toNat) 0

@[simp] theorem encode_length (width n : Nat) : (encode width n).length = width := by
  induction width generalizing n with
  | zero => rfl
  | succ width ih => rw [encode, length_append, ih, length_singleton]

theorem decode_append (bytes : List UInt8) (byte : UInt8) :
    decode (bytes ++ [byte]) = decode bytes * 256 + byte.toNat := by
  rw [decode, foldl_append]
  rfl

theorem decode_encode {width n : Nat} (small : n < 256 ^ width) :
    decode (encode width n) = n := by
  induction width generalizing n with
  | zero =>
    have zero : n = 0 := by simpa using small
    rw [zero]
    rfl
  | succ width ih =>
    have high : n / 256 < 256 ^ width := by
      rw [Nat.div_lt_iff_lt_mul (by decide)]
      exact small
    rw [encode, decode_append, ih high, UInt8.toNat_ofNat']
    omega

theorem encode_decode (bytes : List UInt8) : encode bytes.length (decode bytes) = bytes := by
  induction bytes using reverseRecOn with
  | nil => rfl
  | append_singleton bytes byte ih =>
    have small := byte.toNat_lt
    have high : (decode bytes * 256 + byte.toNat) / 256 = decode bytes := by omega
    have low : (decode bytes * 256 + byte.toNat) % 256 = byte.toNat := by omega
    rw [length_append, length_singleton, decode_append, encode, high, low, ih,
      UInt8.ofNat_toNat]

theorem encode_injective {width n m : Nat} (small : n < 256 ^ width) (small' : m < 256 ^ width)
    (same : encode width n = encode width m) : n = m := by
  rw [← decode_encode small, same, decode_encode small']

end BigEndian
