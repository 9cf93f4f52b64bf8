import Hardy.Bpa.Store
import Hardy.Edit.Editor

/-!
# Reassembly

Model of `bpa/src/storage/adu_reassembly.rs`.  `pollFragments` gathers the
fragments of an application data unit, keyed by their offsets, until their
lengths add up; `reassemble` checks that they tile the unit, copies their
payloads together and rewrites the first of them into a whole bundle;
`aduReassemble` deletes what was gathered.

The fragments are gathered into a hash map in the order in which they are
delivered, and such a map may hand its entries out in an order that depends on
it: the walk over it is a parameter of its own (`walk`).
-/

namespace Hardy.Bpa

open Cbor

inductive ReassemblyResult where
  | notReady
  | done (storageName : Nat) (data : Bytes) (receivedAt : Int) (origin : Origin)
  | failed

structure Adu where
  id : Id
  storageName : Nat
  payload : Range

/-- An order in which the map of fragments hands out its entries. -/
structure AduWalk where
  iter : HashMap Adu → List (Nat × Adu)
  iter_perm : ∀ m, (iter m).Perm m.toList

def AduWalk.sorted : AduWalk := ⟨fun m => m.toList, fun _ => .refl _⟩

structure FragmentSet where
  receivedAt : Int
  origin : Origin
  adus : HashMap Adu

inductive Refusal where
  | noFirstFragment
  | missing
  | misplaced (offset covered : Nat)
  | wrongTotal
  | firstTooLong
  | beyondStoredData
  | totalMismatch
  | beyondTotal
  | unparsable (source : Error)
  | notRewritten (source : EditorError)

/-- A panic, or an early return. -/
inductive Stop where
  | panicked (message : String)
  | refused (reason : Refusal)

def saturatingAdd (a b : Nat) : Nat := min (a + b) (wordSize - 1)

def rangeLen (r : Range) : Nat := r.stop - r.start

/-- `slice::get` -/
def getRange (data : Bytes) (r : Range) : Option Bytes :=
  if r.start ≤ r.stop ∧ r.stop ≤ data.length then some (r.slice data) else none

def expect {α : Type} (x : Option α) (message : String) : Except Stop α :=
  match x with
  | some a => .ok a
  | none => .error (.panicked message)

/-- `?` on an option, or `let Some(..) = .. else { return None }`. -/
def orRefuse {α : Type} (x : Option α) (reason : Refusal) : Except Stop α :=
  match x with
  | some a => .ok a
  | none => .error (.refused reason)

def refuseIf (p : Prop) [Decidable p] (reason : Refusal) : Except Stop Unit :=
  if p then .error (.refused reason) else .ok ()

/-! ## Gathering -/

def Bundle.adu (b : Bundle) (noPayload : String) : Except Stop Adu := do
  let payload ← expect b.bpv7.blocks[1]? noPayload
  let name ← expect b.metadata.storageName "Invalid bundle in reassembly?!"
  pure ⟨b.id, name, payload.payloadRange⟩

/-- The length of the fragments gathered so far, and the fragments. -/
structure Gathered where
  total : Nat
  set : FragmentSet

def Gathered.collect (trigger : Bundle) (g : Gathered) (b : Bundle) : Except Stop Gathered :=
  if trigger.id.source = b.id.source ∧ trigger.id.timestamp = b.id.timestamp then
    match b.id.fragmentInfo with
    | none => .ok g
    | some info => do
        let adu ← b.adu "Bundle fragment without payload?!"
        let earlier := b.metadata.receivedAt < g.set.receivedAt
        pure {
          total := saturatingAdd g.total (rangeLen adu.payload)
          set := {
            receivedAt := if earlier then b.metadata.receivedAt else g.set.receivedAt
            origin := if earlier then b.metadata.origin else g.set.origin
            adus := g.set.adus.insert info.offset adu } }
  else .ok g

def Gathered.start (trigger : Bundle) : Except Stop (FragmentInfo × Gathered) := do
  let info ← expect trigger.id.fragmentInfo "Unfragmented bundle got into adu_reassemble?!"
  let adu ← trigger.adu "Bundle without payload?!"
  pure (info, {
    total := rangeLen adu.payload
    set := {
      receivedAt := trigger.metadata.receivedAt
      origin := trigger.metadata.origin
      adus := (∅ : HashMap Adu).insert info.offset adu } })

/-- `Store::poll_fragments`.  `polled` is what `poll_adu_fragments` has delivered
when it is done, or when the node shuts down (`cancelled`). -/
def pollFragments (trigger : Bundle) (polled : List Bundle) (cancelled : Bool) :
    Except Stop (Option FragmentSet) := do
  let (info, g) ← Gathered.start trigger
  let g ← polled.foldlM (Gathered.collect trigger) g
  pure (if cancelled then none else if info.totalAduLength ≤ g.total then some g.set else none)

/-! ## Putting the unit together -/

/-- The order of `(u64, u64)`. -/
def pairLe (a b : Nat × Nat) : Prop := a.1 < b.1 ∨ a.1 = b.1 ∧ a.2 ≤ b.2

instance : DecidableRel pairLe := fun _ _ => inferInstanceAs (Decidable (_ ∨ _))

def aduExtent (e : Nat × Adu) : Nat × Nat := (e.1, rangeLen e.2.payload)

def extents (adus : List (Nat × Adu)) : List (Nat × Nat) :=
  (adus.map aduExtent).insertionSort pairLe

def coveredBy : Nat → List (Nat × Nat) → Except Stop Nat
  | covered, [] => .ok covered
  | covered, (offset, len) :: l =>
    if offset ≠ covered then .error (.refused (.misplaced offset covered))
    else coveredBy (saturatingAdd covered len) l

/-- `new_data[start..start + len].copy_from_slice(data)` -/
def copyInto (buffer : Bytes) (start : Nat) (data : Bytes) : Except Stop Bytes :=
  if start + data.length ≤ buffer.length then .ok (Chunk.overwrite buffer start data)
  else .error (.panicked "range end index out of range")

def copyAdu (store : Store) (first : Adu) (total : Nat) (buffer : Bytes) (e : Nat × Adu) :
    Except Stop Bytes :=
  let adu := e.2
  if adu.storageName = first.storageName then .ok buffer
  else do
    let info ← expect adu.id.fragmentInfo "Fragment missing fragment_info in reassembly?!"
    refuseIf (info.totalAduLength ≠ total) .totalMismatch
    refuseIf (total < saturatingAdd info.offset (rangeLen adu.payload)) .beyondTotal
    let data ← orRefuse (store.loadData adu.storageName) .missing
    let payload ← orRefuse (getRange data adu.payload) .beyondStoredData
    copyInto buffer info.offset payload

/-- `reassemble` up to the rewrite: the bytes of the first fragment and the
application data unit. -/
def assembleAdu (store : Store) (walk : AduWalk) (adus : HashMap Adu) :
    Except Stop (Bytes × Bytes) := do
  let first ← orRefuse adus[0]? .noFirstFragment
  let bundle ← orRefuse (store.getMetadata first.id) .missing
  let name ← expect bundle.metadata.storageName "Invalid bundle in reassembly?!"
  let oldData ← orRefuse (store.loadData name) .missing
  let info ← expect first.id.fragmentInfo "Fragment 0 missing fragment_info in reassembly?!"
  let total := info.totalAduLength
  let covered ← coveredBy 0 (extents (walk.iter adus))
  refuseIf (covered ≠ total) .wrongTotal
  if isizeMax < total then .error (.panicked "capacity overflow")
  else do
    refuseIf (total < rangeLen first.payload) .firstTooLong
    let payload ← orRefuse (getRange oldData first.payload) .beyondStoredData
    let buffer ← copyInto (List.replicate total 0) 0 payload
    let newData ← (walk.iter adus).foldlM (copyAdu store first total) buffer
    pure (oldData, newData)

variable [Crates] [HashOrder]

def orNotRewritten {α : Type} (x : Except EditorError α) : Except Stop α :=
  match x with
  | .ok a => .ok a
  | .error (.panicked message) => .error (.panicked message)
  | .error x => .error (.refused (.notRewritten x))

def rewriteAdu (unique : Bool) (oldData newData : Bytes) : Except Stop Bytes := do
  let parsed ←
    match parse oldData with
    | .ok parsed => .ok parsed
    | .error x => .error (.refused (.unparsable x))
  let editor ← orNotRewritten
    (((Editor.new parsed.bundle parsed.data).withFragmentInfo none).mapError Prod.snd)
  let builder ← orNotRewritten ((editor.updateBlock 1).mapError Prod.snd)
  let chunks ← orNotRewritten (builder.withData newData).rebuild.rebuild
  orNotRewritten (Chunk.flattenBytes unique chunks parsed.data)

def reassembled (store : Store) (walk : AduWalk) (unique : Bool) (set : FragmentSet) :
    Except Stop Bytes := do
  let (oldData, newData) ← assembleAdu store walk set.adus
  rewriteAdu unique oldData newData

def cleanUp (store : Store) (adus : List (Nat × Adu)) : Store :=
  adus.foldl (fun s e => (s.deleteData e.2.storageName).tombstoneMetadata e.2.id) store

def aduReassemble [StorageNames] (store : Store) (walk : AduWalk) (unique : Bool)
    (trigger : Bundle) (polled : List Bundle) (cancelled : Bool) :
    Except Stop (ReassemblyResult × Store) := do
  match ← pollFragments trigger polled cancelled with
  | none => pure (.notReady, store)
  | some set =>
    match reassembled store walk unique set with
    | .ok data =>
      let (name, store) := store.saveData data
      pure (.done name data set.receivedAt set.origin, cleanUp store (walk.iter set.adus))
    | .error (.refused _) => pure (.failed, cleanUp store (walk.iter set.adus))
    | .error (.panicked message) => .error (.panicked message)

end Hardy.Bpa
