import Mathlib.Logic.Function.Basic
import Hardy.Types

/-!
# The bundle store

The storage contract of `bpa/src/storage/backend.rs` as the rest of the node
sees it through `Store`.  Metadata is kept under bundle ids, bundle data under
names that the backend makes up.  A backend that fails aborts the node, so the
operations are total.
-/

namespace Hardy.Bpa

/-- `bundle::BundleStatus` -/
inductive BundleStatus where
  | new
  | dispatchPending
  | dispatching
  | forwardPending (peer queue : Nat) (nextHop : Eid)
  | forwardAckPending (peer : Nat)
  | deliverPending (service : Eid)
  | deliveryAckPending (service : Eid)
  | aduFragment (source : Eid) (timestamp : CreationTimestamp)
  | waiting
  | waitingForService (service : Eid)
deriving DecidableEq, Repr

namespace BundleStatus

/-- A hand-off that cannot be recalled is not expired. -/
def defersExpiry : BundleStatus → Bool
  | .forwardAckPending _ | .deliveryAckPending _ => true
  | _ => false

/-- Equality up to the next hop of an assignment. -/
def sameQueue : BundleStatus → BundleStatus → Bool
  | .forwardPending peer queue _, .forwardPending peer' queue' _ => peer = peer' ∧ queue = queue'
  | a, b => a = b

end BundleStatus

inductive Origin where
  | ingress (cla : String)
  | originated
  | recovered
deriving DecidableEq, Repr

/-- `BundleMetadata`: the time of arrival, the origin and the name of the data. -/
structure BundleMetadata where
  receivedAt : Int
  origin : Origin
  storageName : Option Nat
deriving DecidableEq, Repr

structure Bundle where
  bpv7 : Hardy.Bundle
  metadata : BundleMetadata
  status : BundleStatus

def Bundle.id (b : Bundle) : Id := b.bpv7.primary.id

def Bundle.plain (n : Nat) (status : BundleStatus) : Bundle where
  bpv7 :=
    { primary :=
        { flags := {}
          id := ⟨.ipn ⟨0, 1⟩ n, ⟨some 1, 0⟩, none⟩
          crcType := .none
          destination := .ipn ⟨0, 2⟩ 1
          reportTo := .null
          lifetime := .fromMillis 1000 }
      blocks := ∅ }
  metadata := ⟨0, .originated, none⟩
  status := status

inductive Entry where
  | live (bundle : Bundle)
  | tombstone

structure Store where
  metadata : Id → Option Entry
  data : HashMap Bytes

/-- How a backend names new data. -/
class StorageNames where
  generate : HashMap Bytes → Nat
  fresh : ∀ data, data[generate data]? = none

namespace Store

def getMetadata (s : Store) (id : Id) : Option Bundle :=
  match s.metadata id with
  | some (.live b) => if b.id = id then some b else none
  | _ => none

def loadData (s : Store) (name : Nat) : Option Bytes := s.data[name]?

def saveData [StorageNames] (s : Store) (data : Bytes) : Nat × Store :=
  let name := StorageNames.generate s.data
  (name, { s with data := s.data.insert name data })

def deleteData (s : Store) (name : Nat) : Store := { s with data := s.data.erase name }

def tombstoneMetadata (s : Store) (id : Id) : Store :=
  { s with metadata := fun i =>
      if i = id then (s.metadata id).map fun _ => .tombstone else s.metadata i }

def get (s : Store) (id : Id) : Option Bundle :=
  match s.metadata id with
  | some (.live b) => some b
  | _ => none

def insertMetadata (s : Store) (b : Bundle) : Option Store :=
  match s.metadata b.id with
  | none => some { s with metadata := Function.update s.metadata b.id (some (.live b)) }
  | some _ => none

/-- The record of the caller's bundle, if it is live and has the status of the
caller's copy. -/
def current (s : Store) (b : Bundle) : Option Bundle :=
  (s.get b.id).filter fun r => r.status = b.status

/-- `Store::swap_status`: the caller's copy and the store after a swap that was
applied. -/
def swapStatus (s : Store) (b : Bundle) (status : BundleStatus) : Option (Bundle × Store) :=
  (s.current b).map fun r =>
    ({ b with status },
      { s with metadata := Function.update s.metadata b.id (some (.live { r with status })) })

def tombstoneIf (s : Store) (b : Bundle) : Option Store :=
  (s.current b).map fun _ =>
    { s with metadata := Function.update s.metadata b.id (some .tombstone) }

/-- A sweep over all live records, which gives those that `f` names another
status. -/
def reset (s : Store) (f : BundleStatus → Option BundleStatus) : Store :=
  { s with metadata := fun id =>
      match s.metadata id with
      | some (.live b) => some (.live { b with status := (f b.status).getD b.status })
      | e => e }

def resetPeerQueue (s : Store) (peer : Nat) : Store :=
  s.reset fun
    | .forwardPending p _ _ => if p = peer then some .waiting else none
    | _ => none

def resetPeerAckPending (s : Store) (peer : Nat) : Store :=
  s.reset fun
    | .forwardAckPending p => if p = peer then some .waiting else none
    | _ => none

def resetServiceQueue (s : Store) (service : Eid) : Store :=
  s.reset fun
    | .deliverPending e => if e = service then some (.waitingForService service) else none
    | _ => none

section

variable {s s' : Store} {b b' r : Bundle} {id : Id} {status : BundleStatus}

theorem get_eq_some : s.get id = some b ↔ s.metadata id = some (.live b) := by
  rw [get]
  split
  · rename_i heq
    rw [heq, Option.some.injEq, Option.some.injEq, Entry.live.injEq]
  · rename_i hne
    exact ⟨nofun, fun h => absurd h (hne b)⟩

theorem current_eq_some :
    s.current b = some r ↔ s.metadata b.id = some (.live r) ∧ r.status = b.status := by
  rw [current, Option.filter_eq_some_iff, get_eq_some, decide_eq_true_eq]

theorem swapStatus_eq_some : s.swapStatus b status = some (b', s') ↔
    ∃ r, (s.metadata b.id = some (.live r) ∧ r.status = b.status) ∧ b' = { b with status } ∧
      s' = { s with metadata :=
        Function.update s.metadata b.id (some (.live { r with status })) } := by
  rw [swapStatus, Option.map_eq_some_iff]
  refine exists_congr fun r => and_congr current_eq_some ?_
  rw [Prod.mk.injEq, eq_comm, eq_comm (b := s')]

theorem swapStatus_eq_none : s.swapStatus b status = none ↔ s.current b = none := by
  rw [swapStatus, Option.map_eq_none_iff]

theorem swapStatus_frame (h : s.swapStatus b status = some (b', s')) (hid : id ≠ b.id) :
    s'.metadata id = s.metadata id := by
  obtain ⟨r, -, -, rfl⟩ := swapStatus_eq_some.mp h
  exact Function.update_of_ne hid _ _

theorem tombstoneIf_eq_some : s.tombstoneIf b = some s' ↔
    ∃ r, (s.metadata b.id = some (.live r) ∧ r.status = b.status) ∧
      s' = { s with metadata := Function.update s.metadata b.id (some .tombstone) } := by
  rw [tombstoneIf, Option.map_eq_some_iff]
  exact exists_congr fun r => and_congr current_eq_some eq_comm

theorem tombstoneIf_eq_none : s.tombstoneIf b = none ↔ s.current b = none := by
  rw [tombstoneIf, Option.map_eq_none_iff]

theorem current_eq_none_of_not_live (h : ∀ r, s.metadata b.id ≠ some (.live r)) :
    s.current b = none := by
  rw [Option.eq_none_iff_forall_ne_some]
  exact fun r hr => h r (current_eq_some.mp hr).1

theorem reset_of_not_live {f : BundleStatus → Option BundleStatus}
    (h : ∀ r, s.metadata id ≠ some (.live r)) : (s.reset f).metadata id = s.metadata id := by
  rw [reset]
  dsimp only
  split
  · rename_i heq
    exact absurd heq (h _)
  · rfl

@[simp] theorem reset_data {f : BundleStatus → Option BundleStatus} :
    (s.reset f).data = s.data := rfl

end

end Store

theorem le_foldr_max {l : List Nat} {n : Nat} (h : n ∈ l) : n ≤ l.foldr max 0 := by
  induction l with
  | nil => cases h
  | cons m l ih =>
    rw [List.foldr_cons]
    rcases List.mem_cons.mp h with rfl | h
    · exact Nat.le_max_left _ _
    · exact (ih h).trans (Nat.le_max_right _ _)

@[reducible] def StorageNames.next : StorageNames where
  generate data := data.keys.foldr max 0 + 1
  fresh data := by
    by_contra h
    obtain ⟨v, hv⟩ := Option.ne_none_iff_exists'.mp h
    have hmem : data.keys.foldr max 0 + 1 ∈ data.keys := by
      rw [Std.ExtTreeMap.mem_keys, HashMap.mem_iff]
      exact ⟨v, hv⟩
    have := le_foldr_max hmem
    omega

end Hardy.Bpa
