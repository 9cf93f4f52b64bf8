import Hardy.Bpsec.Asb

/-!
# The RFC 9173 security contexts

The wire forms of `bpv7/src/bpsec/rfc9173`: scope flags, the parameters and
results of BIB-HMAC-SHA2 and of BCB-AES-GCM.
-/

namespace Hardy.Bpsec

open Cbor

/-! ## Scope flags -/

structure ScopeFlags where
  includePrimaryBlock : Bool := true
  includeTargetHeader : Bool := true
  includeSecurityHeader : Bool := true
  unrecognised : Option Nat := none
deriving DecidableEq, Repr

namespace ScopeFlags

def named (f : ScopeFlags) : List (Nat × Bool) :=
  [(0, f.includePrimaryBlock), (1, f.includeTargetHeader), (2, f.includeSecurityHeader)]

def bits : List Nat := [0, 1, 2]

def word (f : ScopeFlags) : Nat := packBits f.named (f.unrecognised.getD 0)

def ofWord (value : Nat) : ScopeFlags where
  includePrimaryBlock := value.testBit 0
  includeTargetHeader := value.testBit 1
  includeSecurityHeader := value.testBit 2
  unrecognised := unrecognisedOf (stripBits bits value)

def toCbor (f : ScopeFlags) : Bytes := emitUint f.word

def Canonical (f : ScopeFlags) : Prop := RestOk bits f.unrecognised

theorem word_lt {f : ScopeFlags} (h : f.Canonical) : f.word < wordSize :=
  packBits_lt (by simp [named]) h

theorem ofWord_word {f : ScopeFlags} (h : f.Canonical) : ofWord f.word = f := by
  have h' : RestOk (f.named.map Prod.fst) f.unrecognised := h
  have hbit : ∀ i ∈ bits, f.word.testBit i = f.named.any fun p => decide (p.1 = i) && p.2 :=
    fun i hi => testBit_packBits_named h' hi
  have hrest : unrecognisedOf (stripBits bits f.word) = f.unrecognised :=
    unrecognisedOf_stripBits h'
  rw [ofWord, hrest, hbit 0 (by decide), hbit 1 (by decide), hbit 2 (by decide)]
  simp [named]

end ScopeFlags

/-! ## BCB-AES-GCM -/

inductive AesVariant where
  | a128gcm
  | a256gcm
  | unrecognised (code : Nat)
deriving DecidableEq, Repr

def AesVariant.ofCode : Nat → AesVariant
  | 1 => a128gcm
  | 3 => a256gcm
  | v => unrecognised v

def AesVariant.code : AesVariant → Nat
  | a128gcm => 1
  | a256gcm => 3
  | unrecognised v => v

def Iv := { b : Bytes // 8 ≤ b.length ∧ b.length ≤ 16 }
deriving DecidableEq

def Iv.fromBytes (b : Bytes) : Except Error Iv :=
  if h : 8 ≤ b.length ∧ b.length ≤ 16 then .ok ⟨b, h⟩ else .error (.invalidIvLength b.length)

namespace AesGcm

structure Parameters where
  iv : Iv
  variant : AesVariant
  key : Option Bytes
  flags : ScopeFlags
deriving DecidableEq

structure Seen where
  iv : Option Bytes := none
  variant : Option AesVariant := none
  key : Option Bytes := none
  flags : Option ScopeFlags := none
deriving DecidableEq

def seeParameter (acc : Seen) (e : Nat × Bytes) : Except Error Seen :=
  match e.1 with
  | 1 => do pure { acc with iv := some (← decodeBox e.2) }
  | 2 => do pure { acc with variant := some (← decodeNewtype AesVariant.ofCode e.2) }
  | 3 => do pure { acc with key := some (← decodeBox e.2) }
  | 4 => do pure { acc with flags := some (← decodeNewtype ScopeFlags.ofWord e.2) }
  | id => .error (.invalidContextParameter id)

def Seen.parameters (s : Seen) : Except Error Parameters :=
  match s.iv with
  | none => .error (.missingContextParameter 1)
  | some iv => do
      let iv ← Iv.fromBytes iv
      pure ⟨iv, s.variant.getD .a256gcm, s.key, s.flags.getD {}⟩

def Parameters.fromCbor [HashOrder] (parameters : HashMap Bytes) : Except Error Parameters := do
  let seen ← (HashOrder.iter parameters).foldlM seeParameter {}
  seen.parameters

/-- `ToCbor for Parameters`: only what differs from the defaults. -/
def Parameters.toCbor (p : Parameters) : Bytes :=
  emitArray ([emitArray [emitUint 1, emitBytes p.iv.val]] ++
    (if p.variant = .a256gcm then [] else [emitArray [emitUint 2, emitUint p.variant.code]]) ++
    (match p.key with
      | none => []
      | some k => [emitArray [emitUint 3, emitBytes k]]) ++
    (if p.flags = {} then [] else [emitArray [emitUint 4, p.flags.toCbor]]))

/-- `Results(Option<Box<[u8]>>)`: a detached tag, when there is one. -/
abbrev Results := Option Bytes

def seeResult (_ : Option Bytes) (e : Nat × Bytes) : Except Error (Option Bytes) :=
  match e.1 with
  | 1 => do pure (some (← decodeBox e.2))
  | id => .error (.invalidContextResult id)

def Results.fromCbor [HashOrder] (results : HashMap Bytes) : Except Error Results :=
  (HashOrder.iter results).foldlM seeResult none

def Results.toCbor (r : Results) : Bytes :=
  match r with
  | some tag => emitArray [emitArray [emitUint 1, emitBytes tag]]
  | none => emitArray []

structure Operation where
  parameters : Parameters
  results : Results
deriving DecidableEq

def Operation.emitContext [Crates] (o : Operation) (source : Eid) : Bytes :=
  emitUint Context.bcbAesGcm.code ++ emitUint 1 ++ source.toCbor ++ o.parameters.toCbor

end AesGcm

/-! ## BIB-HMAC-SHA2 -/

inductive ShaVariant where
  | hmac256
  | hmac384
  | hmac512
  | unrecognised (code : Nat)
deriving DecidableEq, Repr

def ShaVariant.ofCode : Nat → ShaVariant
  | 5 => hmac256
  | 6 => hmac384
  | 7 => hmac512
  | v => unrecognised v

def ShaVariant.code : ShaVariant → Nat
  | hmac256 => 5
  | hmac384 => 6
  | hmac512 => 7
  | unrecognised v => v

namespace HmacSha2

structure Parameters where
  variant : ShaVariant := .hmac384
  key : Option Bytes := none
  flags : ScopeFlags := {}
deriving DecidableEq

def seeParameter (acc : Parameters) (e : Nat × Bytes) : Except Error Parameters :=
  match e.1 with
  | 1 => do pure { acc with variant := ← decodeNewtype ShaVariant.ofCode e.2 }
  | 2 => do pure { acc with key := some (← decodeBox e.2) }
  | 3 => do pure { acc with flags := ← decodeNewtype ScopeFlags.ofWord e.2 }
  | id => .error (.invalidContextParameter id)

def Parameters.fromCbor [HashOrder] (parameters : HashMap Bytes) : Except Error Parameters :=
  (HashOrder.iter parameters).foldlM seeParameter {}

def Parameters.toCbor (p : Parameters) : Bytes :=
  emitArray ((if p.variant = .hmac384 then [] else
      [emitArray [emitUint 1, emitUint p.variant.code]]) ++
    (match p.key with
      | none => []
      | some k => [emitArray [emitUint 2, emitBytes k]]) ++
    (if p.flags = {} then [] else [emitArray [emitUint 3, p.flags.toCbor]]))

abbrev Results := Bytes

def Results.fromCbor [HashOrder] (results : HashMap Bytes) : Except Error Results := do
  match ← (HashOrder.iter results).foldlM AesGcm.seeResult none with
  | some tag => pure tag
  | none => .error (.invalidContextResult 1)

def Results.toCbor (tag : Results) : Bytes := emitArray [emitArray [emitUint 1, emitBytes tag]]

structure Operation where
  parameters : Parameters
  results : Results
deriving DecidableEq

def Operation.emitContext [Crates] (o : Operation) (source : Eid) : Bytes :=
  if o.parameters = {} then emitUint Context.bibHmacSha2.code ++ emitUint 0 ++ source.toCbor
  else emitUint Context.bibHmacSha2.code ++ emitUint 1 ++ source.toCbor ++ o.parameters.toCbor

end HmacSha2

end Hardy.Bpsec
