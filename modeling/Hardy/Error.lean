import Hardy.Bpsec.Key

/-!
# Errors

The error domains of `bpv7/src/error.rs`, `crc.rs` and `bpsec/error.rs`, with
the truncation an error stands for (`need_more`, `bpsec_need_more`).
-/

namespace Hardy

open Cbor

/-! ## Checksums -/

inductive CrcError where
  | invalidType (code : Nat)
  | unexpectedCrcValue
  | incorrectCrc
  | missingCrc
  | invalidCBOR (e : Cbor.Error)
deriving DecidableEq, Repr

/-! ## Security blocks -/

namespace Bpsec

inductive Context where
  | bibHmacSha2
  | bcbAesGcm
  | unrecognised (id : Nat)
deriving DecidableEq, Repr

inductive Error where
  | notEncrypted
  | notSigned
  | maybeHasBib (block : Nat)
  | strandsCiphertext (block : Nat)
  | mismatchedTargetResult
  | missingSecurityTarget
  | invalidSecuritySource
  | invalidBIBTarget
  | unrecognisedContext (id : Nat)
  | crcPresent
  | invalidBCBTarget
  | bcbMustShareTarget
  | invalidTargetFlags
  | invalidContextParameter (id : Nat)
  | invalidIvLength (len : Nat)
  | missingContextParameter (id : Nat)
  | invalidContextResult (id : Nat)
  | missingContextResult (id : Nat)
  | bcbMustReplicate
  | bcbDeleteFlag
  | bibMustBeEncrypted
  | duplicateOpTarget
  | noTargets
  | invalidContext (context : Context)
  | decryptionFailed
  | noKey
  | integrityCheckFailed
  | encryptionFailed
  | invalidKey (operation : KeyOperation) (key : Key)
  | invalidField (field : String) (source : Error)
  | invalidEid (e : Eid.Error)
  | notCanonical
  | unsupportedOperation
  | sourceOutOfRange (start stop sourceLen : Nat)
  | invalidCBOR (e : Cbor.Error)
  | algorithm (message : String)
deriving DecidableEq, Repr

def Error.needMore : Error → Option Nat
  | .invalidCBOR e => e.short
  | .invalidEid e => e.needMore
  | .invalidField _ source => source.needMore
  | _ => none

def Error.ofCbor : Cbor.Error → Error
  | .unexpectedTag => .notCanonical
  | e => .invalidCBOR e

instance : FromCborError Error where
  ofCbor := Error.ofCbor
  needMore := Error.needMore
  needMore_ofCbor x := by cases x <;> rfl

instance : HasInvalidField Error where
  invalidField := .invalidField
  needMore_invalidField _ _ := rfl

instance : ErrorInto Eid.Error Error where
  into := .invalidEid
  needMore_into _ := rfl

end Bpsec

/-! ## Bundles -/

inductive Error where
  | additionalData
  | invalidVersion (version : Nat)
  | possibleBpv6
  | notABundle (first : UInt8)
  | missingPayload
  | duplicateBlockNumber (number : Nat)
  | invalidBlockNumber (number : Nat) (blockType : BlockType)
  | invalidFragmentInfo (offset totalAduLength : Nat)
  | invalidHopLimit (limit : Nat)
  | duplicateBlocks (blockType : BlockType)
  | unsupported (block : Nat)
  | invalidFlags
  | altered
  | notCanonical
  | missingBlock (number : Nat)
  | invalidBPSec (e : Bpsec.Error)
  | invalidCrc (e : CrcError)
  | invalidEid (e : Eid.Error)
  | invalidCBOR (e : Cbor.Error)
  | invalidField (field : String) (source : Error)
deriving DecidableEq, Repr

def Error.needMore : Error → Option Nat
  | .invalidCBOR e => e.short
  | .invalidEid e => e.needMore
  | .invalidBPSec e => e.needMore
  | .invalidField _ source => source.needMore
  | _ => none

def Error.ofCbor : Cbor.Error → Error
  | .unexpectedTag => .notCanonical
  | e => .invalidCBOR e

instance : FromCborError Error where
  ofCbor := Error.ofCbor
  needMore := Error.needMore
  needMore_ofCbor x := by cases x <;> rfl

instance : HasInvalidField Error where
  invalidField := .invalidField
  needMore_invalidField _ _ := rfl

instance : ErrorInto Eid.Error Error where
  into := .invalidEid
  needMore_into _ := rfl

instance : ErrorInto Bpsec.Error Error where
  into := .invalidBPSec
  needMore_into _ := rfl

end Hardy
