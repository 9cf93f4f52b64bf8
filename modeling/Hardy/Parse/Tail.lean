import Hardy.Bpsec.OperationSet

/-!
# The streamed tail of an oversized payload

Model of `PayloadTail` in `bpv7/src/parse.rs`: the state machine that takes
over when the payload does not fit the buffer.  It feeds the checksum, checks
the breaks and reports completion, one run of bytes at a time.
-/

namespace Hardy

open Cbor

variable [Crates]

inductive TailPhase where
  | body
  | crcHead
  | crcValue
  | blockBreak
  | outerBreak
  | done
deriving DecidableEq, Repr

def afterBody (crcType : CrcType) (isIndefinite : Bool) : TailPhase :=
  if crcType ≠ .none then .crcHead
  else if isIndefinite then .blockBreak
  else .outerBreak

/-- `crc_value[..crc_filled]` is `crcValue`. -/
structure PayloadTail where
  digest : Option Digest
  crcType : CrcType
  isIndefinite : Bool
  phase : TailPhase
  bodyRemaining : Nat
  remaining : Nat
  crcValue : Bytes

namespace PayloadTail

def new (digest : Option Digest) (crcType : CrcType) (isIndefinite : Bool)
    (bodyRemaining remaining : Nat) : PayloadTail where
  digest := digest
  crcType := crcType
  isIndefinite := isIndefinite
  phase := if 0 < bodyRemaining then .body else afterBody crcType isIndefinite
  bodyRemaining := bodyRemaining
  remaining := remaining
  crcValue := []

def verifyCrc (t : PayloadTail) : Except Error PayloadTail :=
  match t.digest with
  | none => .ok t
  | some d =>
    if d.verify t.crcValue then .ok { t with digest := none }
    else .error (.invalidCrc .incorrectCrc)

def enterAfterBody (t : PayloadTail) : Except Error PayloadTail :=
  let t := { t with phase := afterBody t.crcType t.isIndefinite }
  if t.phase = .outerBreak then t.verifyCrc else .ok t

/-- `self.digest.as_mut()` and `push`. -/
def feed (t : PayloadTail) (data : Bytes) : PayloadTail :=
  { t with digest := t.digest.map fun d : Digest => d.push data }

/-- One turn of the loop of `push` on a run that starts with `b`: the state
after it and the number of bytes it took. -/
def turn (t : PayloadTail) (b : UInt8) (rest : Bytes) : Except Error (PayloadTail × Nat) :=
  match t.phase with
  | .body => do
      let take := min t.bodyRemaining (rest.length + 1)
      let t := t.feed ((b :: rest).take take)
      let t := { t with bodyRemaining := t.bodyRemaining - take }
      let t ← if t.bodyRemaining = 0 then t.enterAfterBody else .ok t
      pure (t, take)
  | .crcHead =>
    if b ≠ t.crcType.headByte then .error .notCanonical
    else
      let t := { t with digest := t.digest.map fun d : Digest => (d.push [b]).pushZeros }
      .ok ({ t with phase := .crcValue }, 1)
  | .crcValue => do
      let take := min (t.crcType.valueLen - t.crcValue.length) (rest.length + 1)
      let t := { t with crcValue := t.crcValue ++ (b :: rest).take take }
      let t ←
        if t.crcValue.length = t.crcType.valueLen then
          if t.isIndefinite then .ok { t with phase := .blockBreak }
          else do
            let t ← t.verifyCrc
            .ok { t with phase := .outerBreak }
        else .ok t
      pure (t, take)
  | .blockBreak =>
    if b ≠ 0xFF then .error .notCanonical
    else do
      let t ← (t.feed [0xFF]).verifyCrc
      .ok ({ t with phase := .outerBreak }, 1)
  | .outerBreak =>
    if b ≠ 0xFF then .error .notCanonical else .ok ({ t with phase := .done }, 1)
  | .done => .error .additionalData

/-- The loop of `push`; `fuel` bounds the number of turns. -/
def turns : Nat → PayloadTail → Bytes → Except Error PayloadTail
  | _, t, [] => .ok t
  | 0, t, _ => .ok t
  | fuel + 1, t, b :: rest => do
      let (t, take) ← t.turn b rest
      turns fuel t ((b :: rest).drop take)

def push (t : PayloadTail) (bytes : Bytes) : Except Error (Bool × PayloadTail) := do
  let t ← turns bytes.length t bytes
  pure (decide (t.phase = .done), { t with remaining := t.remaining - bytes.length })

end PayloadTail

end Hardy
