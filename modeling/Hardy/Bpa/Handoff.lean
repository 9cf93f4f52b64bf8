import Hardy.Bpa.Filter
import Hardy.Machine
import Hardy.Edit.Editor
import Hardy.Checks.TwoPass

/-!
# Hand-offs

`Dispatcher::forward_bundle` and `deliver_bundle`: a bundle is claimed by a swap
of its status, rewritten and filtered in memory, offered to a convergence layer
or a service, and the claim is resolved by the outcome of the offer.  The rest
of the node may change the store at every await.
-/

namespace Hardy

namespace Bpa

open Bpsec

/-! ## Offers -/

inductive Target where
  | peer (peer : Nat) (nextHop : Eid)
  | service (service : Eid)

namespace Target

def claim : Target → BundleStatus
  | .peer p _ => .forwardAckPending p
  | .service eid => .deliveryAckPending eid

def parked : Target → BundleStatus
  | .peer _ _ => .waiting
  | .service eid => .waitingForService eid

def assigned : Target → BundleStatus → Bool
  | .peer _ nextHop, .forwardPending _ _ hop => hop = nextHop
  | .peer _ _, _ => false
  | .service _, _ => true

theorem parked_ne_claim (t : Target) : t.parked ≠ t.claim := by
  cases t <;> nofun

theorem dispatching_ne_claim (t : Target) : .dispatching ≠ t.claim := by
  cases t <;> nofun

theorem dispatchPending_ne_claim (t : Target) : .dispatchPending ≠ t.claim := by
  cases t <;> nofun

end Target

inductive Answer where
  | completed
  /-- `ForwardBundleResult::Accepted` -/
  | accepted
  | noNeighbour
  /-- An error, or no key for the payload. -/
  | failed
  /-- The payload of an application does not decode. -/
  | unintelligible
deriving DecidableEq

def Answer.fits : Answer → Target → Bool
  | .completed, _ | .failed, _ => true
  | .accepted, .peer _ _ | .noNeighbour, .peer _ _ => true
  | .unintelligible, .service _ => true
  | _, _ => false

inductive OfferOutcome where
  | completed (bundle : Bundle)
  | dropped (bundle : Bundle) (reason : Option Hardy.ReasonCode)
  | parked (bundle : Bundle) (status : BundleStatus)
  | detached (bundle : Bundle)
  | lost

/-- The end of `offer_to_cla` and `offer_to_service`. -/
def Answer.outcome (t : Target) (b : Bundle) : Answer → OfferOutcome
  | .completed => .completed b
  | .accepted => .detached b
  | .noNeighbour | .failed => .parked b t.parked
  | .unintelligible => .dropped b (some .blockUnintelligible)

def Answer.sweep (s : Store) : Answer → Target → Store
  | .noNeighbour, .peer peer _ => s.resetPeerQueue peer
  | _, _ => s

/-- One hand-off: where to, the filters of its hook, and the rewrite before
them, which deliveries do not have. -/
structure Handoff where
  target : Target
  chain : FilterChain
  rewrite : Bundle → Bytes → Except EditorError (HashMap Block × Bytes)

namespace Handoff

def deliver (service : Eid) (chain : FilterChain) : Handoff where
  target := .service service
  chain := chain
  rewrite b data := .ok (b.bpv7.blocks, data)

/-! ## The system -/

/-- How far a hand-off has got, with the values it holds. -/
inductive Phase where
  | queued (bundle : Bundle)
  | loaded (bundle : Bundle) (data : Bytes)
  /-- The claim has been made. -/
  | claimed (bundle : Bundle) (data : Bytes)
  | filtered (bundle : Bundle) (data : Bytes)
  /-- The filters have failed and kept the bundle. -/
  | filterFailed (id : Id)
  /-- `resolve_offer` -/
  | resolving (outcome : OfferOutcome)
  /-- `delete_bundle` -/
  | deleting (bundle : Bundle)
  | deleted (bundle : Bundle)
  /-- `park_bundle` after its first swap. -/
  | parked (bundle : Bundle)
  | redispatched (id : Id)
  | dispatched (bundle : Bundle)
  | returned

structure State where
  store : Store
  phase : Phase
  /-- The bundle and the bytes that the hand-off has claimed. -/
  claim : Option (Bundle × Bytes)
  answer : Option Answer
  /-- Somebody else has written the record since. -/
  moved : Prop

def State.goto (s : State) (phase : Phase) : State := { s with phase }

def Filed (s : Store) : Prop := ∀ id b, s.metadata id = some (.live b) → b.id = id

/-- A change of the store that leaves the claimed bundle alone. -/
def State.Spares (s : State) (store : Store) : Prop :=
  ∀ b data, s.claim = some (b, data) → store.metadata b.id = s.store.metadata b.id ∧
    ∀ name, b.metadata.storageName = some name → store.data[name]? = s.store.data[name]?

section

variable [Crates] [HashOrder] [Ciphers] (keyProvider : Hardy.Bundle → Bytes → KeySource)
  (h : Handoff)

def filter (b : Bundle) (blocks : HashMap Block) (data : Bytes) : Except FilterError ExecResult :=
  h.chain.exec keyProvider { b with bpv7 := { b.bpv7 with blocks } } data

inductive Step : State → Unit → State → Prop where
  | unassigned {s b} (hphase : s.phase = .queued b) (hq : h.target.assigned b.status = false) :
      Step s () (s.goto .returned)
  /-- `load_data_or_drop` -/
  | load {s b name data} (hphase : s.phase = .queued b) (hq : h.target.assigned b.status = true)
      (hname : b.metadata.storageName = some name) (hdata : s.store.loadData name = some data) :
      Step s () (s.goto (.loaded b data))
  | missing {s b name} (hphase : s.phase = .queued b) (hq : h.target.assigned b.status = true)
      (hname : b.metadata.storageName = some name) (hdata : s.store.loadData name = none) :
      Step s () (s.goto (.resolving (.dropped b (some .depletedStorage))))
  | missingExpired {s b name} (hphase : s.phase = .queued b)
      (hq : h.target.assigned b.status = true) (hname : b.metadata.storageName = some name)
      (hdata : s.store.loadData name = none) : Step s () (s.goto .returned)
  | expired {s b data} (hphase : s.phase = .loaded b data) :
      Step s () (s.goto (.resolving (.dropped b (some .lifetimeExpired))))
  | claim {s b data b' store} (hphase : s.phase = .loaded b data)
      (hswap : s.store.swapStatus b h.target.claim = some (b', store)) :
      Step s () { s with store, phase := .claimed b' data, claim := some (b', data) }
  | claimLost {s b data} (hphase : s.phase = .loaded b data)
      (hswap : s.store.swapStatus b h.target.claim = none) : Step s () (s.goto .returned)
  | rewriteFailed {s b data e} (hphase : s.phase = .claimed b data)
      (hrewrite : h.rewrite b data = .error e) :
      Step s () (s.goto (.resolving (.parked b h.target.parked)))
  | filter {s b data blocks data' b' data''} (hphase : s.phase = .claimed b data)
      (hrewrite : h.rewrite b data = .ok (blocks, data'))
      (hfilter : h.filter keyProvider b blocks data' = .ok (.continue b' data'')) :
      Step s () (s.goto (.filtered b' data''))
  | filterDrop {s b data blocks data' b' reason} (hphase : s.phase = .claimed b data)
      (hrewrite : h.rewrite b data = .ok (blocks, data'))
      (hfilter : h.filter keyProvider b blocks data' = .ok (.drop b' reason)) :
      Step s () (s.goto (.resolving (.dropped b' reason)))
  | filterFailed {s b data blocks data' e} (hphase : s.phase = .claimed b data)
      (hrewrite : h.rewrite b data = .ok (blocks, data'))
      (hfilter : h.filter keyProvider b blocks data' = .error e) :
      Step s () (s.goto (.filterFailed b.id))
  | refetch {s id b} (hphase : s.phase = .filterFailed id)
      (hget : s.store.getMetadata id = some b) (hstatus : b.status = h.target.claim) :
      Step s () (s.goto (.resolving (.parked b h.target.parked)))
  | refetchLost {s id} (hphase : s.phase = .filterFailed id)
      (hget : ∀ b, s.store.getMetadata id = some b → b.status ≠ h.target.claim) :
      Step s () (s.goto (.resolving .lost))
  | answer {s b data} (a : Answer) (hphase : s.phase = .filtered b data)
      (hfits : a.fits h.target = true) :
      Step s () { s with
        store := a.sweep s.store h.target
        phase := .resolving (a.outcome h.target b)
        answer := some a }
  | complete {s b store} (hphase : s.phase = .resolving (.completed b))
      (hwin : s.store.tombstoneIf b = some store) :
      Step s () { s with store, phase := .deleting b }
  | completeLost {s b} (hphase : s.phase = .resolving (.completed b))
      (hlost : s.store.tombstoneIf b = none) : Step s () (s.goto .returned)
  | drop {s b reason store} (hphase : s.phase = .resolving (.dropped b (some reason)))
      (hwin : s.store.tombstoneIf b = some store) :
      Step s () { s with store, phase := .deleting b }
  | dropLost {s b reason} (hphase : s.phase = .resolving (.dropped b (some reason)))
      (hlost : s.store.tombstoneIf b = none) : Step s () (s.goto .returned)
  | dropSilently {s b} (hphase : s.phase = .resolving (.dropped b none)) :
      Step s () (s.goto (.deleting b))
  | deleteData {s b name} (hphase : s.phase = .deleting b)
      (hname : b.metadata.storageName = some name) :
      Step s () { s with store := s.store.deleteData name, phase := .deleted b }
  | noData {s b} (hphase : s.phase = .deleting b) (hname : b.metadata.storageName = none) :
      Step s () (s.goto (.deleted b))
  | tombstone {s b} (hphase : s.phase = .deleted b) :
      Step s () { s with store := s.store.tombstoneMetadata b.id, phase := .returned }
  | park {s b status b' store} (hphase : s.phase = .resolving (.parked b status))
      (hswap : s.store.swapStatus b status = some (b', store)) :
      Step s () { s with store, phase := .parked b' }
  | parkLost {s b status} (hphase : s.phase = .resolving (.parked b status))
      (hswap : s.store.swapStatus b status = none) : Step s () (s.goto .returned)
  /-- The table is the same, or the swap is lost: the bundle is watched. -/
  | watch {s b} (hphase : s.phase = .parked b) : Step s () (s.goto .returned)
  | redispatch {s b b' store} (hphase : s.phase = .parked b)
      (hswap : s.store.swapStatus b .dispatching = some (b', store)) :
      Step s () { s with store, phase := .redispatched b'.id }
  | reloadLost {s id} (hphase : s.phase = .redispatched id)
      (hget : s.store.getMetadata id = none) : Step s () (s.goto .returned)
  | reload {s id b} (hphase : s.phase = .redispatched id)
      (hget : s.store.getMetadata id = some b) : Step s () (s.goto (.dispatched b))
  /-- `dispatch_bundle` moves the bundle to its queue. -/
  | dispatch {s b b' store} (hphase : s.phase = .dispatched b)
      (hswap : s.store.swapStatus b .dispatchPending = some (b', store)) :
      Step s () { s with store, phase := .returned }
  | dispatchLost {s b} (hphase : s.phase = .dispatched b)
      (hswap : s.store.swapStatus b .dispatchPending = none) : Step s () (s.goto .returned)
  | detach {s b} (hphase : s.phase = .resolving (.detached b)) : Step s () (s.goto .returned)
  | lost {s} (hphase : s.phase = .resolving .lost) : Step s () (s.goto .returned)
  /-- The rest of the node leaves the claimed bundle alone. -/
  | other {s store} (hfiled : Filed store) (hspares : s.Spares store) :
      Step s () { s with store }
  /-- Another resolver moves it. -/
  | otherMoves {s store} (hfiled : Filed store) (hclaim : s.claim.isSome = true) :
      Step s () { s with store, moved := True }

/-- A copy of the bundle arrives from the queue. -/
structure Start (s : State) : Prop where
  filed : Filed s.store
  phase : ∃ b, s.phase = .queued b
  claim : s.claim = none
  answer : s.answer = none
  moved : ¬s.moved

def machine : Machine State Unit where
  start := Start
  step := Step keyProvider h

/-! ## The claim along a run -/

def Holds (record : Option Entry) : Prop :=
  ∃ r, record = some (.live r) ∧ r.status = h.target.claim

def Released (record : Option Entry) : Prop :=
  ∀ r, record = some (.live r) → r.status ≠ h.target.claim

/-- The filters give the claimed bundle another id. -/
def Renames (b : Bundle) (data : Bytes) : Prop :=
  ∃ blocks data' r, h.rewrite b data = .ok (blocks, data') ∧
    h.filter keyProvider b blocks data' = .ok r ∧ r.bundle.id ≠ b.id

/-- The copy under way is one of the claimed bundle, unless it was renamed. -/
structure Follows (b : Bundle) (data : Bytes) (b' : Bundle) : Prop where
  status : b'.status = h.target.claim
  name : b'.metadata.storageName = b.metadata.storageName
  same : b'.id = b.id ↔ ¬h.Renames keyProvider b data

/-- The bundle under an id is parked, which is the claimed one unless it was
renamed. -/
structure Parked (b : Bundle) (data : Bytes) (record : Option Entry) (id : Id) : Prop where
  same : id = b.id ↔ ¬h.Renames keyProvider b data
  holds : id ≠ b.id → h.Holds record
  released : id = b.id → h.Released record

def Gone (s : Store) (b : Bundle) : Prop :=
  ∀ name, b.metadata.storageName = some name → s.data[name]? = none

/-- What is known of a claim that nobody else has moved. -/
def Sound (b : Bundle) (data : Bytes) (answer : Option Answer) (record : Option Entry)
    (gone : Prop) : Phase → Prop
  | .queued _ | .loaded _ _ => False
  | .claimed b' data' =>
    (b' = b ∧ data' = data ∧ b.status = h.target.claim) ∧ h.Holds record ∧ answer = none
  | .filtered b' _ => h.Follows keyProvider b data b' ∧ h.Holds record ∧ answer = none
  | .filterFailed id =>
    (id = b.id ∧ ¬h.Renames keyProvider b data) ∧ h.Holds record ∧ answer = none
  | .resolving (.completed b') => h.Follows keyProvider b data b' ∧ h.Holds record
  | .resolving (.dropped b' _) =>
    h.Follows keyProvider b data b' ∧ h.Holds record ∧ answer ≠ some .completed
  | .resolving (.parked b' status) =>
    (b'.status = h.target.claim ∧ (b'.id = b.id ↔ ¬h.Renames keyProvider b data) ∧
      status = h.target.parked) ∧ h.Holds record ∧ answer ≠ some .completed
  | .resolving (.detached _) => answer = some .accepted
  | .resolving .lost => False
  | .deleting b' =>
    h.Follows keyProvider b data b' ∧ (b'.id ≠ b.id → h.Holds record) ∧
      (answer = some .completed → b'.id = b.id → record = some .tombstone)
  | .deleted b' =>
    h.Follows keyProvider b data b' ∧ (b'.id ≠ b.id → h.Holds record) ∧
      (answer = some .completed → b'.id = b.id → record = some .tombstone) ∧ gone
  | .parked b' => h.Parked keyProvider b data record b'.id ∧ answer ≠ some .completed
  | .redispatched id => h.Parked keyProvider b data record id ∧ answer ≠ some .completed
  | .dispatched b' => h.Parked keyProvider b data record b'.id ∧ answer ≠ some .completed
  | .returned => answer = some .accepted ∨
      (h.Renames keyProvider b data → h.Holds record) ∧
      (¬h.Renames keyProvider b data → h.Released record ∧
        (answer = some .completed → record = some .tombstone ∧ gone))

/-- The phases before a claim, and those of a drop that needs none. -/
def Early : Phase → Prop
  | .queued _ | .loaded _ _ | .resolving (.dropped _ (some _)) | .deleting _ | .deleted _
  | .returned => True
  | _ => False

structure Inv (s : State) : Prop where
  filed : Filed s.store
  unclaimed : s.claim = none → s.answer = none ∧ Early s.phase
  sound : ∀ b data, s.claim = some (b, data) → ¬s.moved →
    h.Sound keyProvider b data s.answer (s.store.metadata b.id) (Gone s.store b) s.phase

variable {keyProvider h} {s s' : State} {b b' : Bundle} {data : Bytes}

theorem Inv.goto (hinv : h.Inv keyProvider s) {p : Phase} (hearly : Early s.phase → Early p)
    (hsound : ∀ b data answer record gone, h.Sound keyProvider b data answer record gone s.phase →
      h.Sound keyProvider b data answer record gone p) : h.Inv keyProvider (s.goto p) := by
  refine ⟨hinv.filed, fun hc => ?_, fun b data hc hm => ?_⟩
  · obtain ⟨ha, he⟩ := hinv.unclaimed hc
    exact ⟨ha, hearly he⟩
  · exact hsound _ _ _ _ _ (hinv.sound b data hc hm)

theorem Inv.unsound (hinv : h.Inv keyProvider s) {p : Phase}
    (hs : ∀ b data answer record gone, ¬h.Sound keyProvider b data answer record gone s.phase)
    (hp : Early p) : h.Inv keyProvider (s.goto p) :=
  hinv.goto (fun _ => hp) fun _ _ _ _ _ hsound => absurd hsound (hs _ _ _ _ _)

theorem Inv.write (hinv : h.Inv keyProvider s) {p : Phase} {store : Store} (hfiled : Filed store)
    (hearly : Early s.phase → Early p)
    (hsound : ∀ b data,
      h.Sound keyProvider b data s.answer (s.store.metadata b.id) (Gone s.store b) s.phase →
      h.Sound keyProvider b data s.answer (store.metadata b.id) (Gone store b) p) :
    h.Inv keyProvider { s with store, phase := p } := by
  refine ⟨hfiled, fun hc => ?_, fun b data hc hm => ?_⟩
  · obtain ⟨ha, he⟩ := hinv.unclaimed hc
    exact ⟨ha, hearly he⟩
  · exact hsound b data (hinv.sound b data hc hm)

end

/-! ### The store -/

section

variable {h : Handoff} {b b' : Bundle}

variable {store : Store}

theorem Filed.update (hf : Filed store) {id : Id} {e : Option Entry}
    (he : ∀ r, e = some (.live r) → r.id = id) :
    Filed { store with metadata := Function.update store.metadata id e } := by
  intro i r hr
  dsimp only at hr
  by_cases hi : i = id
  · subst hi
    rw [Function.update_self] at hr
    exact he r hr
  · rw [Function.update_of_ne hi] at hr
    exact hf i r hr

variable {store store' : Store} {status : BundleStatus}

theorem Filed.swapStatus (hf : Filed store)
    (hswap : store.swapStatus b status = some (b', store')) : Filed store' := by
  obtain ⟨r, ⟨hr, -⟩, -, rfl⟩ := Store.swapStatus_eq_some.mp hswap
  refine hf.update fun r' hr' => ?_
  cases hr'
  exact hf b.id r hr

theorem Filed.tombstoneIf (hf : Filed store)
    (hwin : store.tombstoneIf b = some store') : Filed store' := by
  obtain ⟨r, -, rfl⟩ := Store.tombstoneIf_eq_some.mp hwin
  refine hf.update fun r' hr' => ?_
  cases hr'

theorem Filed.tombstoneMetadata (hf : Filed store) (id : Id) :
    Filed (store.tombstoneMetadata id) := by
  intro i r hr
  rw [Store.tombstoneMetadata] at hr
  dsimp only at hr
  split at hr
  · cases hm : store.metadata id <;> rw [hm] at hr <;> cases hr
  · exact hf i r hr

theorem Filed.reset (hf : Filed store)
    (f : BundleStatus → Option BundleStatus) : Filed (store.reset f) := by
  intro i r hr
  rw [Store.reset] at hr
  dsimp only at hr
  split at hr
  · rename_i r' heq
    cases hr
    exact hf i r' heq
  · exact hf i r hr

theorem Filed.sweep (hf : Filed store) (t : Target) (a : Answer) : Filed (a.sweep store t) := by
  rw [Answer.sweep.eq_def]
  split
  · exact hf.reset _
  · exact hf

theorem Holds.sweep {id : Id} (hh : h.Holds (store.metadata id)) (a : Answer) :
    h.Holds ((a.sweep store h.target).metadata id) := by
  rw [Answer.sweep.eq_def]
  split
  · rename_i p n ht
    obtain ⟨r, hr, hstatus⟩ := hh
    refine ⟨r, ?_, hstatus⟩
    rw [ht] at hstatus
    obtain ⟨bpv7, metadata, status⟩ := r
    cases hstatus
    simp only [Store.resetPeerQueue, Store.reset, hr, Option.getD_none]
  · exact hh

theorem metadata_swap
    (hswap : store.swapStatus b status = some (b', store')) {id : Id} (hid : b.id ≠ id) :
    store'.metadata id = store.metadata id := by
  obtain ⟨r, -, -, rfl⟩ := Store.swapStatus_eq_some.mp hswap
  exact Function.update_of_ne (Ne.symm hid) _ _

theorem released_swap
    (hswap : store.swapStatus b status = some (b', store')) (hne : status ≠ h.target.claim) :
    h.Released (store'.metadata b.id) := by
  obtain ⟨r, -, -, rfl⟩ := Store.swapStatus_eq_some.mp hswap
  intro r' hr'
  dsimp only at hr'
  rw [Function.update_self] at hr'
  cases hr'
  exact hne

theorem id_swap (hswap : store.swapStatus b status = some (b', store')) : b'.id = b.id := by
  obtain ⟨r, -, rfl, -⟩ := Store.swapStatus_eq_some.mp hswap
  rfl

theorem Holds.current (hh : h.Holds (store.metadata b.id)) (hid : b'.id = b.id)
    (hstatus : b'.status = h.target.claim) : store.current b' ≠ none := by
  obtain ⟨r, hr, hrs⟩ := hh
  have := Store.current_eq_some.mpr ⟨hid ▸ hr, hrs.trans hstatus.symm⟩
  rw [this]
  nofun

theorem gone_deleteData {name : Nat} (hname : b'.metadata.storageName = some name)
    (hsame : b'.metadata.storageName = b.metadata.storageName) :
    Gone (store.deleteData name) b := by
  intro n hn
  rw [← hsame, hname] at hn
  cases hn
  exact Std.ExtTreeMap.getElem?_erase_self

theorem getMetadata_id {id : Id} (hget : store.getMetadata id = some b) : b.id = id := by
  rw [Store.getMetadata] at hget
  split at hget
  · obtain ⟨hid, heq⟩ := Option.ite_none_right_eq_some.mp hget
    cases heq
    exact hid
  · cases hget

end

def swapped (b : Bundle) (status : BundleStatus) : Bundle := { b with status }

def putBack (store : Store) (b : Bundle) (status : BundleStatus) : Store :=
  { store with metadata := Function.update store.metadata b.id (some (.live (swapped b status))) }

theorem putBack_self (store : Store) (b : Bundle) (status : BundleStatus) :
    (putBack store b status).metadata b.id = some (.live (swapped b status)) :=
  Function.update_self ..

/-! ### The steps of the offer -/

section

variable [Crates] [HashOrder] [Ciphers] {keyProvider : Hardy.Bundle → Bytes → KeySource}
  {h : Handoff} {s s' : State} {b b' : Bundle} {data : Bytes} {answer : Option Answer} {record : Option Entry} {gone : Prop}

theorem not_renames_of_rewrite {e : EditorError} (hrewrite : h.rewrite b data = .error e) :
    ¬h.Renames keyProvider b data := by
  rintro ⟨blocks, data', r, hok, -, -⟩
  rw [hrewrite] at hok
  cases hok

theorem not_renames_of_filter {blocks : HashMap Block} {data' : Bytes} {e : FilterError}
    (hrewrite : h.rewrite b data = .ok (blocks, data'))
    (hfilter : h.filter keyProvider b blocks data' = .error e) :
    ¬h.Renames keyProvider b data := by
  rintro ⟨blocks, data', r, hok, hr, -⟩
  rw [hrewrite] at hok
  cases hok
  rw [hfilter] at hr
  cases hr

theorem follows_filter {blocks : HashMap Block} {data' : Bytes} {r : ExecResult}
    (hrewrite : h.rewrite b data = .ok (blocks, data'))
    (hfilter : h.filter keyProvider b blocks data' = .ok r) (hstatus : b.status = h.target.claim) :
    h.Follows keyProvider b data r.bundle := by
  have hsame := exec_sameRecord hfilter
  refine ⟨hsame.2.trans hstatus, congrArg _ hsame.1, ?_, fun hn => ?_⟩
  · rintro hid ⟨blocks, data', r', hok, hr, hne⟩
    rw [hrewrite] at hok
    cases hok
    rw [hfilter] at hr
    cases hr
    exact hne hid
  · by_contra hid
    exact hn ⟨blocks, data', r, hrewrite, hfilter, hid⟩

theorem sound_of_lost {store : Store} (hh : h.Holds (store.metadata b.id))
    (hstatus : b'.status = h.target.claim)
    (hsame : b'.id = b.id ↔ ¬h.Renames keyProvider b data) (hlost : store.current b' = none) :
    h.Sound keyProvider b data answer (store.metadata b.id) gone .returned := by
  refine .inr ⟨fun _ => hh, fun hn => ?_⟩
  exact absurd hlost (hh.current (hsame.mpr hn) hstatus)

theorem Parked.sound_returned {id : Id} (hp : h.Parked keyProvider b data record id)
    (ha : answer ≠ some .completed) : h.Sound keyProvider b data answer record gone .returned :=
  .inr ⟨fun hr => hp.holds fun hid => hp.same.mp hid hr,
    fun hn => ⟨hp.released (hp.same.mpr hn), fun hc => absurd hc ha⟩⟩

theorem Parked.swap {store store' : Store} {b₀ b₁ : Bundle} {status : BundleStatus}
    (hsame : b₀.id = b.id ↔ ¬h.Renames keyProvider b data)
    (hholds : b₀.id ≠ b.id → h.Holds (store.metadata b.id))
    (hswap : store.swapStatus b₀ status = some (b₁, store'))
    (hne : status ≠ h.target.claim) : h.Parked keyProvider b data (store'.metadata b.id) b₁.id := by
  rw [id_swap hswap]
  refine ⟨hsame, fun hid => ?_, fun hid => ?_⟩
  · rw [metadata_swap hswap hid]
    exact hholds hid
  · rw [← hid]
    exact released_swap hswap hne

theorem Inv.claim (hinv : h.Inv keyProvider s) (hphase : s.phase = .loaded b data) {store : Store}
    (hswap : s.store.swapStatus b h.target.claim = some (b', store)) :
    h.Inv keyProvider
      { s with store, phase := .claimed b' data, claim := some (b', data) } := by
  refine ⟨hinv.filed.swapStatus hswap, nofun, ?_⟩
  intro b₁ data₁ hc hm
  cases hc
  have hnone : s.claim = none := by
    rcases hc : s.claim with _ | ⟨b₀, data₀⟩
    · rfl
    · have := hinv.sound b₀ data₀ hc hm
      rw [hphase] at this
      exact this.elim
  obtain ⟨r, -, rfl, rfl⟩ := Store.swapStatus_eq_some.mp hswap
  refine ⟨⟨rfl, rfl, rfl⟩, ⟨{ r with status := h.target.claim }, ?_, rfl⟩,
    (hinv.unclaimed hnone).1⟩
  exact Function.update_self ..

theorem Inv.answered (hinv : h.Inv keyProvider s) (hphase : s.phase = .filtered b data)
    (a : Answer) :
    h.Inv keyProvider { s with
      store := a.sweep s.store h.target
      phase := .resolving (a.outcome h.target b)
      answer := some a } := by
  refine ⟨hinv.filed.sweep _ a, fun hc => ?_, fun b₀ data₀ hc hm => ?_⟩
  · have := (hinv.unclaimed hc).2
    rw [hphase] at this
    exact this.elim
  · have hsound := hinv.sound b₀ data₀ hc hm
    rw [hphase] at hsound
    obtain ⟨hf, hh, -⟩ := hsound
    have hh' := hh.sweep a
    cases a with
    | completed => exact ⟨hf, hh'⟩
    | accepted => exact rfl
    | noNeighbour => exact ⟨⟨hf.status, hf.same, rfl⟩, hh', nofun⟩
    | failed => exact ⟨⟨hf.status, hf.same, rfl⟩, hh', nofun⟩
    | unintelligible => exact ⟨hf, hh', nofun⟩

/-! ### The steps of the resolution -/

theorem sound_deleting {store store' : Store} (hf : h.Follows keyProvider b data b')
    (hh : h.Holds (store.metadata b.id)) (hwin : store.tombstoneIf b' = some store') :
    h.Sound keyProvider b data answer (store'.metadata b.id) gone (.deleting b') := by
  obtain ⟨r, -, rfl⟩ := Store.tombstoneIf_eq_some.mp hwin
  refine ⟨hf, fun hid => ?_, fun _ hid => ?_⟩
  · dsimp only
    rw [Function.update_of_ne (Ne.symm hid)]
    exact hh
  · dsimp only
    rw [hid, Function.update_self]

theorem sound_tombstone {store : Store} (hgone : gone)
    (hf : h.Follows keyProvider b data b')
    (hholds : b'.id ≠ b.id → h.Holds (store.metadata b.id))
    (hdone : answer = some .completed → b'.id = b.id → store.metadata b.id = some .tombstone) :
    h.Sound keyProvider b data answer ((store.tombstoneMetadata b'.id).metadata b.id) gone
      .returned := by
  refine .inr ⟨fun hr => ?_, fun hn => ⟨fun r hr => ?_, fun ha => ⟨?_, hgone⟩⟩⟩
  · have hid : b'.id ≠ b.id := fun hid => hf.same.mp hid hr
    have heq : (store.tombstoneMetadata b'.id).metadata b.id = store.metadata b.id :=
      if_neg (Ne.symm hid)
    rw [heq]
    exact hholds hid
  · have hid := hf.same.mpr hn
    rw [Store.tombstoneMetadata, hid] at hr
    dsimp only at hr
    rw [if_pos rfl] at hr
    cases hm : store.metadata b.id <;> rw [hm] at hr <;> cases hr
  · have hid := hf.same.mpr hn
    rw [Store.tombstoneMetadata, hid]
    dsimp only
    rw [if_pos rfl, hdone ha hid]
    rfl

theorem Inv.step (hinv : h.Inv keyProvider s) (hstep : Step keyProvider h s () s') :
    h.Inv keyProvider s' := by
  cases hstep with
  | unassigned hphase hq =>
    exact hinv.unsound (fun _ _ _ _ _ hs => by rw [hphase] at hs; exact hs) trivial
  | load hphase hq hname hdata =>
    exact hinv.unsound (fun _ _ _ _ _ hs => by rw [hphase] at hs; exact hs) trivial
  | missing hphase hq hname hdata =>
    exact hinv.unsound (fun _ _ _ _ _ hs => by rw [hphase] at hs; exact hs) trivial
  | missingExpired hphase hq hname hdata =>
    exact hinv.unsound (fun _ _ _ _ _ hs => by rw [hphase] at hs; exact hs) trivial
  | expired hphase =>
    exact hinv.unsound (fun _ _ _ _ _ hs => by rw [hphase] at hs; exact hs) trivial
  | claim hphase hswap => exact hinv.claim hphase hswap
  | claimLost hphase hswap =>
    exact hinv.unsound (fun _ _ _ _ _ hs => by rw [hphase] at hs; exact hs) trivial
  | rewriteFailed hphase hrewrite =>
    refine hinv.goto (fun he => by rw [hphase] at he; exact he.elim) fun _ _ _ _ _ hs => ?_
    rw [hphase] at hs
    obtain ⟨⟨rfl, rfl, hstatus⟩, hh, rfl⟩ := hs
    exact ⟨⟨hstatus, iff_of_true rfl (not_renames_of_rewrite hrewrite), rfl⟩, hh, nofun⟩
  | filter hphase hrewrite hfilter =>
    refine hinv.goto (fun he => by rw [hphase] at he; exact he.elim) fun _ _ _ _ _ hs => ?_
    rw [hphase] at hs
    obtain ⟨⟨rfl, rfl, hstatus⟩, hh, ha⟩ := hs
    exact ⟨follows_filter hrewrite hfilter hstatus, hh, ha⟩
  | filterDrop hphase hrewrite hfilter =>
    refine hinv.goto (fun he => by rw [hphase] at he; exact he.elim) fun _ _ _ _ _ hs => ?_
    rw [hphase] at hs
    obtain ⟨⟨rfl, rfl, hstatus⟩, hh, rfl⟩ := hs
    exact ⟨follows_filter hrewrite hfilter hstatus, hh, nofun⟩
  | filterFailed hphase hrewrite hfilter =>
    refine hinv.goto (fun he => by rw [hphase] at he; exact he.elim) fun _ _ _ _ _ hs => ?_
    rw [hphase] at hs
    obtain ⟨⟨rfl, rfl, -⟩, hh, ha⟩ := hs
    exact ⟨⟨rfl, not_renames_of_filter hrewrite hfilter⟩, hh, ha⟩
  | refetch hphase hget hstatus =>
    refine hinv.goto (fun he => by rw [hphase] at he; exact he.elim) fun _ _ _ _ _ hs => ?_
    rw [hphase] at hs
    obtain ⟨⟨rfl, hn⟩, hh, rfl⟩ := hs
    exact ⟨⟨hstatus, iff_of_true (getMetadata_id hget) hn, rfl⟩, hh, nofun⟩
  | refetchLost hphase hget =>
    refine hinv.write hinv.filed (fun he => by rw [hphase] at he; exact he.elim) fun b _ hs => ?_
    rw [hphase] at hs
    obtain ⟨⟨rfl, -⟩, ⟨r, hr, hstatus⟩, -⟩ := hs
    have hgot : s.store.getMetadata b.id = some r := by
      rw [Store.getMetadata, hr]
      exact if_pos (hinv.filed _ r hr)
    exact hget r hgot hstatus
  | answer a hphase hfits => exact hinv.answered hphase a
  | complete hphase hwin =>
    refine hinv.write (hinv.filed.tombstoneIf hwin) (fun _ => trivial) fun b _ hs => ?_
    rw [hphase] at hs
    exact sound_deleting hs.1 hs.2 hwin
  | completeLost hphase hlost =>
    refine hinv.write hinv.filed (fun _ => trivial) fun b _ hs => ?_
    rw [hphase] at hs
    exact sound_of_lost hs.2 hs.1.status hs.1.same (Store.tombstoneIf_eq_none.mp hlost)
  | drop hphase hwin =>
    refine hinv.write (hinv.filed.tombstoneIf hwin) (fun _ => trivial) fun b _ hs => ?_
    rw [hphase] at hs
    exact sound_deleting hs.1 hs.2.1 hwin
  | dropLost hphase hlost =>
    refine hinv.write hinv.filed (fun _ => trivial) fun b _ hs => ?_
    rw [hphase] at hs
    exact sound_of_lost hs.2.1 hs.1.status hs.1.same (Store.tombstoneIf_eq_none.mp hlost)
  | dropSilently hphase =>
    refine hinv.goto (fun _ => trivial) fun _ _ _ _ _ hs => ?_
    rw [hphase] at hs
    exact ⟨hs.1, fun _ => hs.2.1, fun ha => absurd ha hs.2.2⟩
  | deleteData hphase hname =>
    refine hinv.write hinv.filed (fun _ => trivial) fun b _ hs => ?_
    rw [hphase] at hs
    exact ⟨hs.1, hs.2.1, hs.2.2, gone_deleteData hname hs.1.name⟩
  | noData hphase hname =>
    refine hinv.write hinv.filed (fun _ => trivial) fun b _ hs => ?_
    rw [hphase] at hs
    refine ⟨hs.1, hs.2.1, hs.2.2, fun name hn => ?_⟩
    rw [← hs.1.name, hname] at hn
    cases hn
  | tombstone hphase =>
    refine hinv.write (hinv.filed.tombstoneMetadata _) (fun _ => trivial) fun b _ hs => ?_
    rw [hphase] at hs
    exact sound_tombstone hs.2.2.2 hs.1 hs.2.1 hs.2.2.1
  | park hphase hswap =>
    refine hinv.write (hinv.filed.swapStatus hswap)
      (fun he => by rw [hphase] at he; exact he.elim) fun b _ hs => ?_
    rw [hphase] at hs
    obtain ⟨⟨-, hsame, rfl⟩, hh, ha⟩ := hs
    exact ⟨.swap hsame (fun _ => hh) hswap h.target.parked_ne_claim, ha⟩
  | parkLost hphase hswap =>
    refine hinv.write hinv.filed (fun _ => trivial) fun b _ hs => ?_
    rw [hphase] at hs
    obtain ⟨⟨hstatus, hsame, -⟩, hh, -⟩ := hs
    exact sound_of_lost hh hstatus hsame (Store.swapStatus_eq_none.mp hswap)
  | watch hphase =>
    refine hinv.goto (fun _ => trivial) fun _ _ _ _ _ hs => ?_
    rw [hphase] at hs
    exact hs.1.sound_returned hs.2
  | redispatch hphase hswap =>
    refine hinv.write (hinv.filed.swapStatus hswap)
      (fun he => by rw [hphase] at he; exact he.elim) fun b _ hs => ?_
    rw [hphase] at hs
    exact ⟨.swap hs.1.same hs.1.holds hswap h.target.dispatching_ne_claim, hs.2⟩
  | reloadLost hphase hget =>
    refine hinv.goto (fun _ => trivial) fun _ _ _ _ _ hs => ?_
    rw [hphase] at hs
    exact hs.1.sound_returned hs.2
  | reload hphase hget =>
    refine hinv.goto (fun he => by rw [hphase] at he; exact he.elim) fun _ _ _ _ _ hs => ?_
    rw [hphase] at hs
    rw [← getMetadata_id hget] at hs
    exact hs
  | dispatch hphase hswap =>
    refine hinv.write (hinv.filed.swapStatus hswap) (fun _ => trivial) fun b _ hs => ?_
    rw [hphase] at hs
    exact (Parked.swap hs.1.same hs.1.holds hswap
      h.target.dispatchPending_ne_claim).sound_returned hs.2
  | dispatchLost hphase hswap =>
    refine hinv.goto (fun _ => trivial) fun _ _ _ _ _ hs => ?_
    rw [hphase] at hs
    exact hs.1.sound_returned hs.2
  | detach hphase =>
    refine hinv.goto (fun _ => trivial) fun _ _ _ _ _ hs => ?_
    rw [hphase] at hs
    exact .inl hs
  | lost hphase =>
    exact hinv.unsound (fun _ _ _ _ _ hs => by rw [hphase] at hs; exact hs) trivial
  | @other store hfiled hspares =>
    refine ⟨hfiled, hinv.unclaimed, fun b data hc hm => ?_⟩
    obtain ⟨hrecord, hdata⟩ := hspares b data hc
    have hgone : Gone store b = Gone s.store b :=
      propext (forall_congr' fun name => forall_congr' fun hname => by rw [hdata name hname])
    rw [hrecord, hgone]
    exact hinv.sound b data hc hm
  | otherMoves hfiled hclaim =>
    refine ⟨hfiled, fun hc => ?_, fun b data hc hm => absurd trivial hm⟩
    dsimp only at hc
    rw [hc] at hclaim
    cases hclaim

theorem Inv.start (hs : Start s) : h.Inv keyProvider s := by
  obtain ⟨b, hphase⟩ := hs.phase
  refine ⟨hs.filed, fun _ => ⟨hs.answer, ?_⟩, fun b data hc => ?_⟩
  · rw [hphase]
    trivial
  · rw [hs.claim] at hc
    cases hc

theorem inv_reachable (hs : (machine keyProvider h).Reachable s) : h.Inv keyProvider s :=
  hs.invariant (fun _ => Inv.start) fun _ _ _ hinv hstep => hinv.step hstep

/-! ## Claims and their resolution -/

/-- The claim on a bundle is resolved: its record has left the status of the
claim, and after a completed hand-off it is a tombstone without data. -/
structure Resolved (h : Handoff) (s : State) (b : Bundle) : Prop where
  released : h.Released (s.store.metadata b.id)
  completed : s.answer = some .completed →
    s.store.metadata b.id = some .tombstone ∧ Gone s.store b

theorem returned_sound (hs : (machine keyProvider h).Reachable s) (hreturned : s.phase = .returned)
    (hclaim : s.claim = some (b, data)) (haccepted : s.answer ≠ some .accepted)
    (hmoved : ¬s.moved) :
    (h.Renames keyProvider b data → ¬h.Resolved s b) ∧
      (¬h.Renames keyProvider b data → h.Resolved s b) := by
  have hsound := (inv_reachable hs).sound b data hclaim hmoved
  rw [hreturned] at hsound
  obtain ⟨hrenamed, hkept⟩ := hsound.resolve_left haccepted
  refine ⟨fun hren hr => ?_, fun hn => ?_⟩
  · obtain ⟨r, hr', hstatus⟩ := hrenamed hren
    exact hr.released r hr' hstatus
  · obtain ⟨hreleased, hdone⟩ := hkept hn
    exact ⟨hreleased, hdone⟩

/-- A hand-off that has returned has resolved its claim, unless the counterparty
has taken it over or another resolver has moved the record, if and only if the
filters have left the bundle its id. -/
theorem resolved_iff (hs : (machine keyProvider h).Reachable s) (hreturned : s.phase = .returned)
    (hclaim : s.claim = some (b, data)) (haccepted : s.answer ≠ some .accepted)
    (hmoved : ¬s.moved) : h.Resolved s b ↔ ¬h.Renames keyProvider b data := by
  have h := returned_sound hs hreturned hclaim haccepted hmoved
  exact ⟨fun hr hren => h.1 hren hr, h.2⟩

/-- Without filters the claim is resolved, whatever the rewrite makes of the blocks. -/
theorem resolved_of_no_filters (hchain : h.chain = []) (hs : (machine keyProvider h).Reachable s)
    (hreturned : s.phase = .returned) (hclaim : s.claim = some (b, data))
    (haccepted : s.answer ≠ some .accepted) (hmoved : ¬s.moved) : h.Resolved s b := by
  refine (returned_sound hs hreturned hclaim haccepted hmoved).2 ?_
  rintro ⟨blocks, data', r, -, hfilter, hne⟩
  rw [filter, hchain] at hfilter
  cases hfilter
  exact hne rfl

theorem reachable_answered {service : Eid} {chain : FilterChain} {store : Store} {name : Nat}
    {data' : Bytes} (hfiled : Filed store) (hlive : store.metadata b.id = some (.live b))
    (hname : b.metadata.storageName = some name) (hdata : store.loadData name = some data)
    (hfilter : (deliver service chain).filter keyProvider
      (swapped b (.deliveryAckPending service)) b.bpv7.blocks data = .ok (.continue b' data')) :
    (machine keyProvider (deliver service chain)).Reachable
      ⟨putBack store b (.deliveryAckPending service), .resolving (.completed b'),
        some (swapped b (.deliveryAckPending service), data), some .completed, False⟩ := by
  have h₀ : (machine keyProvider (deliver service chain)).Reachable
      ⟨store, .queued b, none, none, False⟩ := .start ⟨hfiled, ⟨b, rfl⟩, rfl, rfl, id⟩
  have h₁ := h₀.step () (.load rfl rfl hname hdata)
  have hswap : store.swapStatus b (.deliveryAckPending service) =
      some (swapped b (.deliveryAckPending service),
        putBack store b (.deliveryAckPending service)) :=
    Store.swapStatus_eq_some.mpr ⟨b, ⟨hlive, rfl⟩, rfl, rfl⟩
  have h₂ := h₁.step () (.claim rfl hswap)
  have h₃ := h₂.step () (.filter rfl rfl hfilter)
  exact h₃.step () (.answer .completed rfl rfl)

theorem reachable_deliver {service : Eid} {chain : FilterChain} {store : Store} {name : Nat}
    {data' : Bytes} (hfiled : Filed store) (hlive : store.metadata b.id = some (.live b))
    (hname : b.metadata.storageName = some name) (hdata : store.loadData name = some data)
    (hfilter : (deliver service chain).filter keyProvider
      (swapped b (.deliveryAckPending service)) b.bpv7.blocks data = .ok (.continue b' data'))
    (hgone : ∀ r, store.metadata b'.id ≠ some (.live r)) :
    (machine keyProvider (deliver service chain)).Reachable
      ⟨putBack store b (.deliveryAckPending service), .returned,
        some (swapped b (.deliveryAckPending service), data), some .completed, False⟩ := by
  have h₄ := reachable_answered hfiled hlive hname hdata hfilter
  refine h₄.step () (.completeLost rfl (Store.tombstoneIf_eq_none.mpr ?_))
  refine Store.current_eq_none_of_not_live fun r hr => ?_
  have hne : b'.id ≠ b.id := fun heq => hgone b (heq ▸ hlive)
  have heq : (putBack store b (.deliveryAckPending service)).metadata b'.id =
      store.metadata b'.id := Function.update_of_ne hne _ _
  exact hgone r (heq.symm.trans hr)

theorem reachable_delivered {service : Eid} {chain : FilterChain} {store : Store} {name : Nat}
    {data' : Bytes} (hfiled : Filed store) (hlive : store.metadata b.id = some (.live b))
    (hname : b.metadata.storageName = some name) (hdata : store.loadData name = some data)
    (hfilter : (deliver service chain).filter keyProvider
      (swapped b (.deliveryAckPending service)) b.bpv7.blocks data = .ok (.continue b' data'))
    (hid : b'.id = b.id) :
    ∃ s, (machine keyProvider (deliver service chain)).Reachable s ∧ s.phase = .returned ∧
      s.claim = some (swapped b (.deliveryAckPending service), data) ∧
      s.answer = some .completed ∧ ¬s.moved := by
  have h₄ := reachable_answered hfiled hlive hname hdata hfilter
  obtain ⟨hmeta, hstatus⟩ := exec_sameRecord hfilter
  have hcurrent : (putBack store b (.deliveryAckPending service)).current b' =
      some (swapped b (.deliveryAckPending service)) := by
    refine Store.current_eq_some.mpr ⟨?_, hstatus.symm⟩
    rw [hid]
    exact putBack_self store b _
  have hwin := congrArg (Option.map fun _ => { putBack store b (.deliveryAckPending service) with
    metadata := Function.update (putBack store b (.deliveryAckPending service)).metadata b'.id
      (some .tombstone) }) hcurrent
  have h₅ := h₄.step () (.complete rfl hwin)
  have hname' : b'.metadata.storageName = some name := (congrArg _ hmeta).trans hname
  have h₆ := h₅.step () (.deleteData rfl hname')
  exact ⟨_, h₆.step () (.tombstone rfl), rfl, rfl, rfl, id⟩

end

def numberedBytes (sequenceNumber : UInt8) : Bytes :=
  [0x9F, 0x88, 0x07, 0x00, 0x00, 0x82, 0x02, 0x82, 0x02, 0x01, 0x82, 0x02, 0x82, 0x01, 0x01, 0x82,
    0x01, 0x00, 0x82, 0x01, sequenceNumber, 0x19, 0x03, 0xE8, 0x85, 0x01, 0x01, 0x00, 0x00, 0x41,
    0x07, 0xFF]

def renumber (sequenceNumber : UInt8) : FilterChain :=
  [⟨[], [fun _ _ => .ok (.continue (some (numberedBytes sequenceNumber)))]⟩]

def numberedService : Eid := .ipn ⟨0, 2⟩ 1

def numbered : Bundle :=
  { Bundle.plain 1 (.deliverPending numberedService) with metadata := ⟨0, .originated, some 1⟩ }

def numberedStore : Store where
  metadata id := if id = numbered.id then some (.live numbered) else none
  data := (∅ : HashMap Bytes).insert 1 (numberedBytes 0)

def keyless : Hardy.Bundle → Bytes → KeySource := fun _ _ => KeySet.source []

theorem numberedStore_filed : Filed numberedStore := by
  intro id b hb
  rw [numberedStore] at hb
  obtain ⟨rfl, heq⟩ := Option.ite_none_right_eq_some.mp hb
  cases heq
  rfl

theorem numberedStore_loadData : numberedStore.loadData 1 = some (numberedBytes 0) :=
  Std.ExtTreeMap.getElem?_insert_self

theorem numberedStore_live : numberedStore.metadata numbered.id = some (.live numbered) := by
  simp only [numberedStore, if_true]

/-- What a filter makes of the bundle, when it has written another sequence number. -/
theorem renumber_exec [Crates] [HashOrder] [Ciphers] (sequenceNumber : UInt8) (id : Id)
    (h : (((renumber sequenceNumber).exec keyless
      (swapped numbered (.deliveryAckPending numberedService)) (numberedBytes 0)).toOption.bind
        ExecResult.continued).map Bundle.id = some id) :
    ∃ b data, (renumber sequenceNumber).exec keyless
      (swapped numbered (.deliveryAckPending numberedService)) (numberedBytes 0) =
        .ok (.continue b data) ∧ b.id = id := by
  obtain ⟨b, hb, hid⟩ := Option.map_eq_some_iff.mp h
  obtain ⟨r, hr, hb⟩ := Option.bind_eq_some_iff.mp hb
  cases r with
  | drop b reason => cases hb
  | «continue» b data =>
    cases hb
    exact ⟨b, data, Fold.ok_of_toOption hr, hid⟩

/-- A filter that writes the bundle anew and leaves it its id lets the claim be resolved. -/
theorem numbered_resolved : ∃ s b data,
    (@machine .reference .sorted Checks.Ciphers.refusing keyless
      (deliver numberedService (renumber 0))).Reachable s ∧
    s.phase = .returned ∧ s.claim = some (b, data) ∧ s.answer = some .completed ∧ ¬s.moved ∧
    (deliver numberedService (renumber 0)).Resolved s b := by
  let _ : Crates := .reference
  let _ : HashOrder := .sorted
  let _ : Ciphers := Checks.Ciphers.refusing
  obtain ⟨b', data', hexec, hid⟩ :=
    renumber_exec 0 numbered.id (by decide +kernel)
  obtain ⟨s, hs, hphase, hclaim, hanswer, hmoved⟩ :=
    @reachable_delivered _ _ _ keyless _ _ _ numberedService _ _ _ _ numberedStore_filed
      numberedStore_live rfl numberedStore_loadData hexec hid
  refine ⟨s, _, _, hs, hphase, hclaim, hanswer, hmoved, ?_⟩
  refine (resolved_iff hs hphase hclaim (by rw [hanswer]; nofun) hmoved).mpr ?_
  rintro ⟨blocks, bytes, r, hrewrite, hfilter, hne⟩
  cases hrewrite
  cases hexec.symm.trans hfilter
  exact hne hid

/-- The delivery is complete and its claim stays for good: the tombstone went
to the id that the filter made up. -/
theorem renumbered_claim_dangles : ∃ s b data,
    (@machine .reference .sorted Checks.Ciphers.refusing keyless
      (deliver numberedService (renumber 5))).Reachable s ∧
    s.phase = .returned ∧ s.claim = some (b, data) ∧ s.answer = some .completed ∧ ¬s.moved ∧
    s.store.metadata b.id = some (.live b) ∧ b.status = .deliveryAckPending numberedService := by
  let _ : Crates := .reference
  let _ : HashOrder := .sorted
  let _ : Ciphers := Checks.Ciphers.refusing
  obtain ⟨b', data', hexec, hid⟩ :=
    renumber_exec 5 ⟨.ipn ⟨0, 1⟩ 1, ⟨some 1, 5⟩, none⟩ (by decide +kernel)
  refine ⟨_, _, _, reachable_deliver numberedStore_filed numberedStore_live rfl
    numberedStore_loadData hexec fun r hr => ?_, rfl, rfl, rfl, id, putBack_self _ _ _, rfl⟩
  rw [hid] at hr
  cases hr

end Handoff

end Bpa

end Hardy
