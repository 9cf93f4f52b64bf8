import Mathlib.Data.Multiset.MapFold
import Mathlib.Data.Multiset.Filter
import Hardy.Storage.Sqlite

/-!
# What a metadata store is for

The ids that were inserted, each with its record or without one when it was deleted.
A write is a change of the records that it names (`target`, `effect`), and a deleted
record stays deleted.  A poll yields the records with the statuses that it selects.
The stores are compared with this ledger, each on its own.
-/

namespace Hardy.Storage

open Bpa (BundleStatus)

abbrev Slot := Id × Option Bundle

@[ext]
structure Ledger where
  slots : Multiset Slot
  nodup : (slots.map Prod.fst).Nodup

namespace Ledger

/-! ## Writes -/

def empty : Ledger := ⟨0, .nil⟩

def ids (L : Ledger) : Multiset Id := L.slots.map Prod.fst

def named (p : Id → BundleStatus → Bool) (e : Slot) : Bool := e.2.any fun b => p e.1 b.status

/-- A change of the record, or its deletion, where the condition names it. -/
def amendSlot (p : Id → BundleStatus → Bool) (f : Bundle → Option Bundle) (e : Slot) : Slot :=
  (e.1, e.2.bind fun b => if p e.1 b.status then f b else some b)

def amend (L : Ledger) (p : Id → BundleStatus → Bool) (f : Bundle → Option Bundle) : Ledger where
  slots := L.slots.map (amendSlot p f)
  nodup := by
    rw [Multiset.map_map]
    exact L.nodup

@[simp] theorem amend_slots (L : Ledger) (p : Id → BundleStatus → Bool)
    (f : Bundle → Option Bundle) : (L.amend p f).slots = L.slots.map (amendSlot p f) := rfl

variable {p : Id → BundleStatus → Bool}

theorem amendSlot_eq_self {f : Bundle → Option Bundle} {e : Slot}
    (h : named p e = false) : amendSlot p f e = e := by
  obtain ⟨id, r⟩ := e
  cases r with
  | none => rfl
  | some b =>
    have hp : p id b.status = false := h
    rw [amendSlot, Option.bind_some, hp, if_neg Bool.false_ne_true]

theorem amend_eq_self {L : Ledger} {f : Bundle → Option Bundle}
    (h : ∀ e ∈ L.slots, named p e = false) : L.amend p f = L :=
  Ledger.ext ((Multiset.map_congr rfl fun e he => amendSlot_eq_self (h e he)).trans
    (Multiset.map_id _))

def affected (L : Ledger) (p : Id → BundleStatus → Bool) : Nat := L.slots.countP (named p ·)

theorem affected_pos {L : Ledger} :
    0 < L.affected p ↔ ∃ e ∈ L.slots, named p e = true := Multiset.countP_pos

def add (L : Ledger) (b : Bundle) (h : b.id ∉ L.ids) : Ledger where
  slots := (b.id, some b) ::ₘ L.slots
  nodup := by
    rw [Multiset.map_cons, Multiset.nodup_cons]
    exact ⟨h, L.nodup⟩

def insert (L : Ledger) (b : Bundle) : Bool × Ledger :=
  if h : b.id ∈ L.ids then (false, L) else (true, L.add b h)

def target : Write → Id → BundleStatus → Bool
  | .insert _, _, _ => false
  | .replace b, id, _ => id = b.id
  | .tombstone id', id, _ => id = id'
  | .swapStatus id' expected _, id, status => status = expected && id = id'
  | .tombstoneIf id' expected, id, status => status = expected && id = id'
  | .resetPeerQueue peer, _, .forwardPending p _ _ => p = peer
  | .resetPeerAckPending peer, _, .forwardAckPending p => p = peer
  | .resetServiceQueue service, _, .deliverPending e => e = service
  | _, _, _ => false

def effect : Write → Bundle → Option Bundle
  | .insert _, b => some b
  | .replace b, _ => some b
  | .tombstone _, _ | .tombstoneIf _ _, _ => none
  | .swapStatus _ _ status, b => some { b with status }
  | .resetPeerQueue _, b | .resetPeerAckPending _, b => some { b with status := .waiting }
  | .resetServiceQueue service, b => some { b with status := .waitingForService service }

def write (L : Ledger) : Write → Ledger
  | .insert b => (L.insert b).2
  | w => L.amend (target w) (effect w)

/-- What a write reports: nothing, whether it changed a record, or how many. -/
inductive Answer where
  | done
  | changed (b : Bool)
  | count (n : Nat)
deriving DecidableEq

def answer (L : Ledger) : Write → Answer
  | .insert b => .changed (L.insert b).1
  | .replace _ | .tombstone _ => .done
  | w@(.swapStatus _ _ _) | w@(.tombstoneIf _ _) => .changed (0 < L.affected (target w))
  | w => .count (L.affected (target w))

/-! ## Reads -/

def Gets (L : Ledger) (id : Id) (r : Option Bundle) : Prop :=
  ∀ b, r = some b ↔ (id, some b) ∈ L.slots

end Ledger

inductive Poll where
  | expiry
  | waiting
  | serviceWaiting (source : Eid)
  | aduFragments (status : BundleStatus)
  | pending (status : BundleStatus) (limit : Nat)

def Poll.selects : Poll → BundleStatus → Bool
  | .expiry, status => status ≠ .new
  | .waiting, status => status = .waiting
  | .serviceWaiting source, status => status = .waitingForService source
  | .aduFragments status', status => status = status'
  | .pending status' _, status => status.sameQueue status'

namespace Ledger

def selected (L : Ledger) (p : BundleStatus → Bool) : Multiset Bundle :=
  L.slots.filterMap fun e => e.2.filter fun b => p b.status

/-- What a poll yields, in some order.  One with a limit yields the oldest. -/
def Polled (L : Ledger) (poll : Poll) (out : List Bundle) : Prop :=
  match poll with
  | .pending status limit => ∃ l rest : List Bundle,
      (l : Multiset Bundle) = L.selected (Poll.pending status limit).selects ∧
        Oldest Bundle.receivedAt limit l out rest
  | poll => (out : Multiset Bundle) = L.selected poll.selects

/-- A limit leaves out no record that is as old as one that is yielded. -/
def Clear (L : Ledger) : Poll → Prop
  | .pending status limit => ∃ l : List Bundle,
      (l : Multiset Bundle) = L.selected (Poll.pending status limit).selects ∧
        Oldest.Clear Bundle.receivedAt limit l
  | _ => True

section

variable {L : Ledger} {id : Id} {r r' : Option Bundle} {poll : Poll} {out out' : List Bundle}

theorem Gets.unique (h : L.Gets id r) (h' : L.Gets id r') : r = r' := by
  refine Option.ext fun b => ?_
  rw [h b, h' b]

theorem Polled.perm (h : L.Polled poll out) (h' : L.Polled poll out') (hclear : L.Clear poll) :
    out.Perm out' := by
  cases poll with
  | pending status limit =>
    obtain ⟨l, rest, hl, hout⟩ := h
    obtain ⟨l', rest', hl', hout'⟩ := h'
    obtain ⟨l₀, hl₀, hclear⟩ := hclear
    have hperm : ∀ {m : List Bundle},
        (m : Multiset Bundle) = L.selected (Poll.pending status limit).selects → m.Perm l₀ :=
      fun hm => Multiset.coe_eq_coe.mp (hm.trans hl₀.symm)
    exact (hout.of_perm (hperm hl)).perm_of_clear (hout'.of_perm (hperm hl')) (.refl _) hclear
  | expiry => exact Multiset.coe_eq_coe.mp (h.trans h'.symm)
  | waiting => exact Multiset.coe_eq_coe.mp (h.trans h'.symm)
  | serviceWaiting source => exact Multiset.coe_eq_coe.mp (h.trans h'.symm)
  | aduFragments status => exact Multiset.coe_eq_coe.mp (h.trans h'.symm)

end

end Ledger

end Hardy.Storage
