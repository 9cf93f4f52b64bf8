import Hardy.Types

/-!
# Keys

Model of `bpv7/src/bpsec/key.rs`: the parts of a key that the security
operations read, and key sources.
-/

namespace Hardy.Bpsec

inductive KeyOperation where
  | sign
  | verify
  | encrypt
  | decrypt
  | wrapKey
  | unwrapKey
  | deriveKey
  | deriveBits
  | unknown
deriving DecidableEq, Repr

inductive KeyAlgorithm where
  | direct
  | a128kw
  | a192kw
  | a256kw
  | hs256
  | hs384
  | hs512
  | hs256A128kw
  | hs256A192kw
  | hs256A256kw
  | hs384A128kw
  | hs384A192kw
  | hs384A256kw
  | hs512A128kw
  | hs512A192kw
  | hs512A256kw
  | unknown
deriving DecidableEq, Repr

inductive EncAlgorithm where
  | a128gcm
  | a256gcm
  | unknown
deriving DecidableEq, Repr

inductive KeyType where
  | ellipticCurve
  | rsa
  | octetSequence (key : Bytes)
  | unknown
deriving DecidableEq, Repr

structure Key where
  keyType : KeyType
  keyAlgorithm : Option KeyAlgorithm := none
  encAlgorithm : Option EncAlgorithm := none
  operations : Option (List KeyOperation) := none
deriving DecidableEq, Repr

/-- `KeySource::key` -/
abbrev KeySource := Eid → List KeyOperation → Option Key

/-- `KeySet`: the first key that lists one of the operations. -/
def KeySet.source (keys : List Key) : KeySource := fun _ operations =>
  keys.find? fun k =>
    match k.operations with
    | some ops => operations.any ops.contains
    | none => false

end Hardy.Bpsec
