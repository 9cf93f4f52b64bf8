import Hardy.Error

/-!
# Checksums of blocks

Model of `bpv7/src/crc.rs`.  A block's checksum is taken over the whole block
with the bytes of the value itself set to zero.
-/

namespace Hardy

open Cbor

/-! ## Checksum types -/

def CrcType.fromCbor : Dec Error (CrcType × Bool) := newtype CrcType.ofCode .notCanonical

def CrcType.toCbor (t : CrcType) : Bytes := emitUint t.code

def CrcType.valueLen : CrcType → Nat
  | crc16X25 => 2
  | crc32Castagnoli => 4
  | _ => 0

def CrcType.headByte : CrcType → UInt8
  | crc16X25 => 0x42
  | crc32Castagnoli => 0x44
  | _ => 0

theorem CrcType.code_lt {t : CrcType} (h : t.isRecognised = true) : t.code < wordSize := by
  cases t <;> simp_all [code, wordSize, isRecognised]

/-! ## Digests -/

variable [Crates]

inductive Digest where
  | crc16 (state : (Crates.x25).State)
  | crc32 (state : (Crates.castagnoli).State)

namespace Digest

def new : CrcType → Except CrcError Digest
  | .crc16X25 => .ok (.crc16 Crates.x25.init)
  | .crc32Castagnoli => .ok (.crc32 Crates.castagnoli.init)
  | .none => .error .unexpectedCrcValue
  | .unrecognised t => .error (.invalidType t)

def push (d : Digest) (data : Bytes) : Digest :=
  match d with
  | crc16 s => crc16 (Crates.x25.update s data)
  | crc32 s => crc32 (Crates.castagnoli.update s data)

def cborHead : Digest → UInt8
  | crc16 _ => 0x42
  | crc32 _ => 0x44

def width : Digest → Nat
  | crc16 _ => 2
  | crc32 _ => 4

def pushZeros (d : Digest) : Digest := d.push (List.replicate d.width 0)

def finalize : Digest → Bytes
  | crc16 s => Crates.x25.finalize s
  | crc32 s => Crates.castagnoli.finalize s

def verify (d : Digest) (expected : Bytes) : Bool := decide (expected = d.finalize)

@[simp] theorem push_nil (d : Digest) : d.push [] = d := by
  cases d <;> simp [push, CrcAlgorithm.update_nil]

theorem push_append (d : Digest) (a b : Bytes) : d.push (a ++ b) = (d.push a).push b := by
  cases d <;> simp [push, CrcAlgorithm.update_append]

@[simp] theorem width_push (d : Digest) (a : Bytes) : (d.push a).width = d.width := by
  cases d <;> rfl

@[simp] theorem cborHead_push (d : Digest) (a : Bytes) : (d.push a).cborHead = d.cborHead := by
  cases d <;> rfl

@[simp] theorem width_pushZeros (d : Digest) : d.pushZeros.width = d.width := width_push _ _

@[simp] theorem length_finalize (d : Digest) : d.finalize.length = d.width := by
  cases d <;> exact CrcAlgorithm.length_finalize _ _

theorem new_ok {t : CrcType} {d : Digest} (h : new t = .ok d) :
    t.isRecognised = true ∧ t ≠ .none ∧ d.width = t.valueLen ∧ d.cborHead = t.headByte := by
  cases t <;> cases h <;> exact ⟨rfl, by decide, rfl, rfl⟩

end Digest

/-- The value of a block's checksum field, given what comes before and after
the field. -/
def crcValue (t : CrcType) (before after : Bytes) : Except CrcError Bytes := do
  let digest ← Digest.new t
  pure (((digest.push before).pushZeros).push after).finalize

def appendCrcValue (t : CrcType) (data : Bytes) : Except CrcError Bytes :=
  if t = .none then .ok data
  else do
    let digest ← Digest.new t
    let data := data ++ [digest.cborHead]
    pure (data ++ ((digest.push data).pushZeros).finalize)

theorem crcValue_ok {t : CrcType} {before after v : Bytes} (h : crcValue t before after = .ok v) :
    v.length = t.valueLen ∧ t.isRecognised = true ∧ t ≠ .none := by
  rw [crcValue] at h
  cases hd : Digest.new t with
  | error x => rw [hd] at h; cases h
  | ok d =>
    rw [hd] at h
    cases h
    obtain ⟨hr, hn, hw, -⟩ := Digest.new_ok hd
    refine ⟨?_, hr, hn⟩
    rw [Digest.length_finalize, Digest.width_push, Digest.width_pushZeros, Digest.width_push,
      hw]

theorem appendCrcValue_ok {t : CrcType} {data out : Bytes} (h : appendCrcValue t data = .ok out) :
    (t = .none ∧ out = data) ∨ ∃ v, t ≠ .none ∧ crcValue t (data ++ [t.headByte]) [] = .ok v ∧
      out = data ++ t.headByte :: v := by
  rw [appendCrcValue] at h
  by_cases ht : t = .none
  · rw [if_pos ht] at h
    exact .inl ⟨ht, (Except.ok.inj h).symm⟩
  · rw [if_neg ht] at h
    cases hd : Digest.new t with
    | error x => rw [hd] at h; cases h
    | ok d =>
      rw [hd] at h
      obtain ⟨-, -, -, hhead⟩ := Digest.new_ok hd
      refine .inr ⟨_, ht, by rw [crcValue, hd]; rfl, ?_⟩
      cases h
      simp only [hhead, Digest.push_nil, List.append_assoc, List.cons_append, List.nil_append]

theorem emitBytes_crcValue {t : CrcType} {before after v : Bytes}
    (h : crcValue t before after = .ok v) : emitBytes v = t.headByte :: v := by
  obtain ⟨hlen, hr, hn⟩ := crcValue_ok h
  rw [emitBytes, hlen]
  cases t <;> first | rfl | exact absurd rfl hn | cases hr

end Hardy
