import Hardy.Bpa.Ingress
import Hardy.Routing.Table

/-!
# Filters

Model of the filter chains of `bpa/src/filter/chain.rs`, with the validation of
a complete bundle from `bpa/src/bundle/parse.rs` that they are checked by.  A
filter is anything that answers; the fields of the metadata that filters may
rewrite are not in the model, and neither are the cached extension fields.
-/

namespace Hardy.Bpa

open Bpsec Checks

section

variable [Crates] [HashOrder] [Ciphers]

structure Validated where
  bundle : Hardy.Bundle
  extensions : ExtensionFields
  nokeyExt : List (Nat × BlockType)

def parseValidateWithProvider (data : Bytes) (keyProvider : Hardy.Bundle → Bytes → KeySource) :
    Except Error Validated := do
  let p ← parse data
  let _ ← classifyUnsupported p.bundle.blocks p.bcbs p.bibs []
  let v ← verify p.data (keyProvider p.bundle p.data) p.bundle.blocks p.bcbs p.bibs ∅ ∅
  if !v.facts.failed.isEmpty then .error (.invalidBPSec .decryptionFailed)
  else do
    let extensions ← extractExtensionBlockFields p.data v.blocks v.decrypted
    pure ⟨⟨p.bundle.primary, v.blocks⟩, extensions, v.facts.nokeyExt⟩

/-- What `run_writers` asks of the bytes that a filter returns. -/
def revalidate (data : Bytes) (keyProvider : Hardy.Bundle → Bytes → KeySource) :
    Except Error Hardy.Bundle := do
  let v ← parseValidateWithProvider data keyProvider
  rejectUndecryptableLiveness v.nokeyExt v.bundle.primary.id.timestamp.creationTime.isSome
  pure v.bundle

end

inductive FilterError where
  | filter (message : String)
  | invalid (error : Error)

inductive ReadResult where
  | continue
  | drop (reason : Option Hardy.ReasonCode)

inductive WriteResult where
  | continue (newData : Option Bytes)
  | drop (reason : Option Hardy.ReasonCode)

def ReadFilter : Type := Bundle → Bytes → Except FilterError ReadResult

def WriteFilter : Type := Bundle → Bytes → Except FilterError WriteResult

/-- Readers first, then the writers one after the other. -/
structure Level where
  readers : List ReadFilter
  writers : List WriteFilter

def FilterChain : Type := List Level

inductive ExecResult where
  | continue (bundle : Bundle) (data : Bytes)
  | drop (bundle : Bundle) (reason : Option Hardy.ReasonCode)

def ExecResult.bundle : ExecResult → Bundle
  | .continue b _ => b
  | .drop b _ => b

def ExecResult.continued : ExecResult → Option Bundle
  | .continue b _ => some b
  | .drop _ _ => none

def ReadResult.dropped : ReadResult → Option (Option Hardy.ReasonCode)
  | .continue => none
  | .drop reason => some reason

/-- `Level::run_readers`: the reason of the first reader that drops. -/
def Level.runReaders (l : Level) (b : Bundle) (data : Bytes) :
    Except FilterError (Option (Option Hardy.ReasonCode)) := do
  let results ← l.readers.mapM fun f => f b data
  pure (results.findSome? ReadResult.dropped)

def Bundle.SameRecord (b b' : Bundle) : Prop := b'.metadata = b.metadata ∧ b'.status = b.status

theorem Bundle.SameRecord.trans {a b c : Bundle} (h : a.SameRecord b) (h' : b.SameRecord c) :
    a.SameRecord c :=
  ⟨h'.1.trans h.1, h'.2.trans h.2⟩

section

variable [Crates] [HashOrder] [Ciphers] (keyProvider : Hardy.Bundle → Bytes → KeySource)

def runWriters : List WriteFilter → Bundle → Bytes → Except FilterError ExecResult
  | [], b, data => .ok (.continue b data)
  | f :: fs, b, data => do
      match ← f b data with
      | .continue none => runWriters fs b data
      | .continue (some newData) =>
        match revalidate newData keyProvider with
        | .ok bpv7 => runWriters fs { b with bpv7 := bpv7 } newData
        | .error e => .error (.invalid e)
      | .drop reason => .ok (.drop b reason)

def FilterChain.exec : FilterChain → Bundle → Bytes → Except FilterError ExecResult
  | [], b, data => .ok (.continue b data)
  | l :: ls, b, data => do
      match ← l.runReaders b data with
      | some reason => .ok (.drop b reason)
      | none =>
        match ← runWriters keyProvider l.writers b data with
        | .continue b data => FilterChain.exec ls b data
        | .drop b reason => .ok (.drop b reason)

/-! ## What a chain leaves alone -/

variable {keyProvider}

theorem runWriters_sameRecord {fs : List WriteFilter} {b : Bundle} {data : Bytes}
    {r : ExecResult} (h : runWriters keyProvider fs b data = .ok r) : b.SameRecord r.bundle := by
  induction fs generalizing b data with
  | nil =>
    cases h
    exact ⟨rfl, rfl⟩
  | cons f fs ih =>
    obtain ⟨w, -, h⟩ := Fold.bind_ok.mp h
    cases w with
    | drop reason =>
      cases h
      exact ⟨rfl, rfl⟩
    | «continue» newData =>
      cases newData with
      | none => exact ih h
      | some newData =>
        dsimp only at h
        split at h
        · have hrest := ih h
          exact ⟨hrest.1, hrest.2⟩
        · cases h

theorem exec_sameRecord {chain : FilterChain} {b : Bundle} {data : Bytes} {r : ExecResult}
    (h : chain.exec keyProvider b data = .ok r) : b.SameRecord r.bundle := by
  induction chain generalizing b data with
  | nil =>
    cases h
    exact ⟨rfl, rfl⟩
  | cons l ls ih =>
    obtain ⟨dropped, -, h⟩ := Fold.bind_ok.mp h
    cases dropped with
    | some reason =>
      cases h
      exact ⟨rfl, rfl⟩
    | none =>
      obtain ⟨w, hw, h⟩ := Fold.bind_ok.mp h
      have hwriters := runWriters_sameRecord hw
      cases w with
      | «continue» b' data' => exact hwriters.trans (ih h)
      | drop b' reason =>
        cases h
        exact hwriters

end

end Hardy.Bpa
