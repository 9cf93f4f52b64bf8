import Hardy.Cbor.Encode

/-!
# Foreign crates

What the bundle code relies on from the `crc` and `percent_encoding` crates,
as parameters with their documented laws.  `Crates.reference` is a plain
implementation of both.
-/

namespace Hardy

open Cbor

/-- An incremental checksum of `width` bytes (`crc::Digest`).  Feeding a
concatenation is feeding its parts in turn. -/
structure CrcAlgorithm (width : Nat) where
  State : Type
  init : State
  update : State → Bytes → State
  /-- `finalize().to_be_bytes()` -/
  finalize : State → Bytes
  update_nil : ∀ s, update s [] = s
  update_append : ∀ s a b, update s (a ++ b) = update (update s a) b
  length_finalize : ∀ s, (finalize s).length = width

/-- Alphanumerics and `-`, `_`, `.`, `~`: what `URI_ENCODE_SET` leaves as it is. -/
def isUnreserved (b : UInt8) : Bool :=
  (0x30 ≤ b && b ≤ 0x39) || (0x41 ≤ b && b ≤ 0x5A) || (0x61 ≤ b && b ≤ 0x7A) ||
    b == 0x2D || b == 0x5F || b == 0x2E || b == 0x7E

class Crates where
  /-- `CRC_16_IBM_SDLC` -/
  x25 : CrcAlgorithm 2
  /-- `CRC_32_ISCSI` -/
  castagnoli : CrcAlgorithm 4
  /-- `percent_encode(_, URI_ENCODE_SET)` -/
  percentEncode : Bytes → Bytes
  /-- `percent_decode_str` -/
  percentDecode : Bytes → Bytes
  percentDecode_encode : ∀ b, percentDecode (percentEncode b) = b
  percentEncode_chars : ∀ b, ∀ x ∈ percentEncode b, isUnreserved x ∨ x = 0x25

/-! ## A reference implementation -/

def crcBit (poly s : Nat) : Nat := if s % 2 = 1 then s / 2 ^^^ poly else s / 2

def crcByte (poly s : Nat) (b : UInt8) : Nat := Nat.repeat (crcBit poly) 8 (s ^^^ b.toNat)

def reflectedCrc (width poly : Nat) : CrcAlgorithm width where
  State := Nat
  init := 256 ^ width - 1
  update s b := b.foldl (crcByte poly) s
  finalize s := beBytes width (s ^^^ (256 ^ width - 1))
  update_nil _ := rfl
  update_append _ _ _ := List.foldl_append
  length_finalize _ := length_beBytes _ _

def hexDigit (n : Nat) : UInt8 := UInt8.ofNat (if n < 10 then 0x30 + n else 0x37 + n)

def hexValue (b : UInt8) : Option Nat :=
  if 0x30 ≤ b ∧ b ≤ 0x39 then some (b.toNat - 0x30)
  else if 0x41 ≤ b ∧ b ≤ 0x46 then some (b.toNat - 0x37)
  else if 0x61 ≤ b ∧ b ≤ 0x66 then some (b.toNat - 0x57)
  else none

def percentByte (b : UInt8) : Bytes :=
  if isUnreserved b then [b] else [0x25, hexDigit (b.toNat / 16), hexDigit (b.toNat % 16)]

def unpercent : Bytes → Bytes
  | 0x25 :: h :: l :: r =>
    match hexValue h, hexValue l with
    | some x, some y => UInt8.ofNat (x * 16 + y) :: unpercent r
    | _, _ => 0x25 :: unpercent (h :: l :: r)
  | b :: r => b :: unpercent r
  | [] => []

theorem hexValue_hexDigit {n : Nat} (h : n < 16) : hexValue (hexDigit n) = some n := by
  revert n
  decide

theorem unpercent_cons {b : UInt8} (hb : b ≠ 0x25) (r : Bytes) :
    unpercent (b :: r) = b :: unpercent r := by
  rw [unpercent]
  exact fun _ _ _ h => absurd h hb

theorem unpercent_percentByte (b : UInt8) (r : Bytes) :
    unpercent (percentByte b ++ r) = b :: unpercent r := by
  rw [percentByte]
  split
  · next h =>
      refine unpercent_cons ?_ r
      rintro rfl
      revert h
      decide
  · have hlt := b.toNat_lt
    simp only [List.cons_append, List.nil_append, unpercent,
      hexValue_hexDigit (show b.toNat / 16 < 16 by omega),
      hexValue_hexDigit (show b.toNat % 16 < 16 by omega)]
    congr 1
    rw [Nat.div_add_mod']
    exact UInt8.ofNat_toNat

theorem hexDigit_unreserved {n : Nat} (h : n < 16) : isUnreserved (hexDigit n) = true := by
  revert n
  decide

@[reducible] def Crates.reference : Crates where
  x25 := reflectedCrc 2 0x8408
  castagnoli := reflectedCrc 4 0x82F63B78
  percentEncode b := b.flatMap percentByte
  percentDecode := unpercent
  percentDecode_encode b := by
    induction b with
    | nil => rfl
    | cons x b ih => rw [List.flatMap_cons, unpercent_percentByte, ih]
  percentEncode_chars b x hx := by
    obtain ⟨y, -, hy⟩ := List.mem_flatMap.mp hx
    rw [percentByte] at hy
    split at hy
    · next h =>
        rw [List.mem_singleton.mp hy]
        exact .inl h
    · have hlt := y.toNat_lt
      simp only [List.mem_cons, List.not_mem_nil, or_false] at hy
      rcases hy with rfl | rfl | rfl
      · exact .inr rfl
      · exact .inl (hexDigit_unreserved (by omega))
      · exact .inl (hexDigit_unreserved (by omega))

end Hardy
