import Hardy.Machine
import Hardy.Bpa.Store
import Hardy.Routing.Table

/-!
# Resolution of a bundle

The code paths that end the life of a stored bundle: `Dispatcher::drop_bundle`,
the completed case of `resolve_offer`, the expiry reaper, `transfer_outcome`
and the sweeps, each cut at its awaits.  They run in any number and in any
interleaving, on copies of the record that may be out of date.

A record that the backend evicts does not come back here: its id would stand
for another bundle then.
-/

namespace Hardy.Bpa

inductive Report where
  | forwarded
  | delivered
  | deleted (reason : Hardy.ReasonCode)
deriving DecidableEq

inductive OfferKind where
  | forward
  | delivery

def OfferKind.report : OfferKind → Report
  | .forward => .forwarded
  | .delivery => .delivered

inductive TransferOutcome where
  | completed
  | failed

/-- What a resolver has still to do, with the values it holds. -/
inductive Resolver where
  | dropBundle (bundle : Bundle) (reason : Hardy.ReasonCode)
  /-- `resolve_offer` with `Completed` -/
  | complete (kind : OfferKind) (bundle : Bundle)
  /-- The turn of the reaper for one of the ids that it took from its cache. -/
  | reap (id : Id)
  | transferOutcome (ownsPeer : Nat → Bool) (id : Id) (outcome : TransferOutcome)
  /-- The swap of `transfer_outcome` for a failed transfer. -/
  | transferFailed (bundle : Bundle)
  /-- The swap of `restart_bundle`. -/
  | repark (bundle : Bundle)
  /-- `remove_unconfirmed` comes to a record whose data is lost. -/
  | removeUnconfirmed (id : Id)
  /-- The report of `metadata_storage_recovery`. -/
  | orphaned (id : Id)
  /-- The tombstone is this resolver's: the reports, then the data. -/
  | resolved (bundle : Bundle) (reports : List Report)
  /-- The second half of `delete_bundle`. -/
  | tombstone (bundle : Bundle)
  | done

/-- What others notice of a resolver. -/
inductive Effect where
  /-- The record has turned from live to a tombstone. -/
  | resolved
  | reported (report : Report)
  | deletedData (name : Nat)
deriving DecidableEq

structure Event where
  resolver : Nat
  id : Id
  effect : Effect
deriving DecidableEq

/-- Where `restart_bundle` parks the checkpoint of a hand-off. -/
def reparkStatus : BundleStatus → Option BundleStatus
  | .deliverPending service | .deliveryAckPending service => some (.waitingForService service)
  | .forwardPending _ _ _ | .forwardAckPending _ => some .waiting
  | _ => none

def Store.deleteDataOf (s : Store) (b : Bundle) : Store :=
  match b.metadata.storageName with
  | some name => s.deleteData name
  | none => s

def Bundle.dataDeletion (b : Bundle) : List Effect :=
  (b.metadata.storageName.map Effect.deletedData).toList

namespace Resolver

def isEntry : Resolver → Bool
  | .dropBundle _ _ | .complete _ _ | .reap _ | .transferOutcome _ _ _ | .repark _
  | .removeUnconfirmed _ => true
  | _ => false

def id? : Resolver → Option Id
  | .dropBundle b _ | .complete _ b | .transferFailed b | .repark b | .resolved b _
  | .tombstone b => some b.id
  | .reap id | .transferOutcome _ id _ | .removeUnconfirmed id | .orphaned id => some id
  | .done => none

def claim (s : Store) (b : Bundle) (reports : List Report) : Store × Resolver × List Effect :=
  match s.tombstoneIf b with
  | some s' => (s', .resolved b reports, [.resolved])
  | none => (s, .done, [])

def step (s : Store) : Resolver → Store × Resolver × List Effect
  | .dropBundle b reason => claim s b [.deleted reason]
  | .complete kind b => claim s b [kind.report, .deleted .noAdditionalInformation]
  | .reap id =>
    match s.get id with
    | none => (s, .done, [])
    | some b =>
      if b.status.defersExpiry then (s, .done, [])
      else (s, .dropBundle b .lifetimeExpired, [])
  | .transferOutcome ownsPeer id outcome =>
    match s.getMetadata id with
    | none => (s, .done, [])
    | some b =>
      match b.status with
      | .forwardAckPending peer =>
        if ownsPeer peer then
          match outcome with
          | .completed => (s, .complete .forward b, [])
          | .failed => (s, .transferFailed b, [])
        else (s, .done, [])
      | _ => (s, .done, [])
  | .transferFailed b =>
    match s.swapStatus b .dispatching with
    | some (_, s') => (s', .done, [])
    | none => (s, .done, [])
  | .repark b =>
    match reparkStatus b.status with
    | none => (s, .done, [])
    | some parked =>
      match s.swapStatus b parked with
      | some (_, s') => (s', .done, [])
      | none => (s, .done, [])
  | .removeUnconfirmed id =>
    match s.get id with
    | none => (s, .done, [])
    | some _ =>
      ({ s with metadata := Function.update s.metadata id (some .tombstone) }, .orphaned id,
        [.resolved])
  | .orphaned _ => (s, .done, [.reported (.deleted .depletedStorage)])
  | .resolved b (report :: reports) => (s, .resolved b reports, [.reported report])
  | .resolved b [] => (s.deleteDataOf b, .tombstone b, b.dataDeletion)
  | .tombstone b => (s.tombstoneMetadata b.id, .done, [])
  | .done => (s, .done, [])

end Resolver

/-! ## The system -/

structure Resolution where
  store : Store
  history : List Event
  resolvers : Nat → Option Resolver

namespace Resolution

inductive Label where
  | start (k : Nat) (resolver : Resolver)
  | move (k : Nat)
  | resetPeerQueue (peer : Nat)
  | resetPeerAckPending (peer : Nat)
  | resetServiceQueue (service : Eid)
  /-- The rest of the node writes a live record: a swap, `update_metadata`. -/
  | rewrite (bundle : Bundle)
  | evict (id : Id)

def effects (s : Resolution) (id : Id) : List Effect :=
  (s.history.filter fun e => e.id = id).map Event.effect

def record (s : Resolution) (k : Nat) (id : Option Id) (effects : List Effect) : List Event :=
  match id with
  | some id => s.history ++ effects.map fun e => ⟨k, id, e⟩
  | none => s.history

def move (s : Resolution) (k : Nat) (r : Resolver) : Resolution :=
  let moved := r.step s.store
  { store := moved.1
    history := s.record k r.id? moved.2.2
    resolvers := Function.update s.resolvers k (some moved.2.1) }

def step (s : Resolution) : Label → Option Resolution
  | .start k r =>
    if r.isEntry ∧ (s.resolvers k).isNone then
      some { s with resolvers := Function.update s.resolvers k (some r) }
    else none
  | .move k => (s.resolvers k).map (s.move k)
  | .resetPeerQueue peer => some { s with store := s.store.resetPeerQueue peer }
  | .resetPeerAckPending peer => some { s with store := s.store.resetPeerAckPending peer }
  | .resetServiceQueue service => some { s with store := s.store.resetServiceQueue service }
  | .rewrite b =>
    (s.store.get b.id).map fun _ =>
      { s with store := { s.store with
        metadata := Function.update s.store.metadata b.id (some (.live b)) } }
  | .evict id =>
    some { s with store := { s.store with
      metadata := Function.update s.store.metadata id none } }

def Start (s : Resolution) : Prop := s.history = [] ∧ ∀ k, s.resolvers k = none

def machine : Machine Resolution Label := .ofStep Start step

/-! ## One winner -/

inductive Plan : List Report → Prop where
  | drop (reason : Hardy.ReasonCode) : Plan [.deleted reason]
  | complete (kind : OfferKind) : Plan [kind.report, .deleted .noAdditionalInformation]

def script (b : Bundle) (reports : List Report) : List Effect :=
  .resolved :: reports.map Effect.reported ++ b.dataDeletion

end Resolution

namespace Resolver

def claimed : Resolver → Option Id
  | .resolved b _ | .tombstone b => some b.id
  | .orphaned id => some id
  | _ => none

def pending : Resolver → List Effect
  | .resolved b reports => reports.map Effect.reported ++ b.dataDeletion
  | .orphaned _ => [.reported (.deleted .depletedStorage)]
  | _ => []

theorem pending_of_not_claimed (r : Resolver) (h : r.claimed = none) : r.pending = [] := by
  cases r with
  | resolved | orphaned => cases h
  | _ => rfl

end Resolver

namespace Store

/-- Records may come to rest, none wakes up. -/
def Settles (s s' : Store) : Prop :=
  ∀ id, (∀ r, s.metadata id ≠ some (.live r)) → ∀ r, s'.metadata id ≠ some (.live r)

theorem Settles.refl (s : Store) : s.Settles s := fun _ h => h

theorem Settles.update {s : Store} {b : Bundle} {id : Id} (h : s.metadata id = some (.live b))
    (e : Option Entry) :
    s.Settles { s with metadata := Function.update s.metadata id e } := by
  intro i hi
  by_cases hid : i = id
  · subst hid
    exact absurd h (hi b)
  · simpa only [Function.update_of_ne hid] using hi

theorem Settles.reset (s : Store) (f : BundleStatus → Option BundleStatus) :
    s.Settles (s.reset f) := by
  intro id h
  rw [reset_of_not_live h]
  exact h

theorem Settles.swapStatus {s s' : Store} {b b' : Bundle} {status : BundleStatus}
    (h : s.swapStatus b status = some (b', s')) : s.Settles s' := by
  obtain ⟨r, ⟨hr, -⟩, -, rfl⟩ := swapStatus_eq_some.mp h
  exact .update hr _

theorem Settles.tombstoneMetadata (s : Store) (id : Id) : s.Settles (s.tombstoneMetadata id) := by
  intro i hi r
  rw [Store.tombstoneMetadata]
  dsimp only
  split
  · cases s.metadata id <;> nofun
  · exact hi r

theorem Settles.deleteDataOf (s : Store) (b : Bundle) : s.Settles (s.deleteDataOf b) := by
  rw [Store.deleteDataOf]
  split <;> exact .refl s

end Store

namespace Resolver

inductive Moved (s : Store) (r : Resolver) : Store → Resolver → List Effect → Prop where
  /-- A look, a swap that gains nothing, or a claim that is lost. -/
  | quiet {s' r'} (hr : r.claimed = none) (hr' : r'.claimed = none) (hs : s.Settles s') :
      Moved s r s' r' []
  /-- The record turns into a tombstone. -/
  | won {id record r' b reports} (hr : r.claimed = none) (hid : r.id? = some id)
      (hlive : s.metadata id = some (.live record)) (hr' : r'.claimed = some id)
      (hplan : Resolution.Plan reports)
      (hscript : .resolved :: r'.pending <+: Resolution.script b reports) :
      Moved s r { s with metadata := Function.update s.metadata id (some .tombstone) }
        r' [.resolved]
  /-- The winner goes on. -/
  | goesOn {s' r' effects id} (hr : r.claimed = some id) (hid : r.id? = some id)
      (hr' : r'.claimed = some id ∨ r'.claimed = none) (hs : s.Settles s')
      (hpending : r.pending = effects ++ r'.pending) : Moved s r s' r' effects

theorem claim_moved {s : Store} {r : Resolver} {b : Bundle} {reports : List Report}
    (hr : r.claimed = none) (hid : r.id? = some b.id) (hplan : Resolution.Plan reports) :
    Moved s r (claim s b reports).1 (claim s b reports).2.1 (claim s b reports).2.2 := by
  rw [claim]
  split
  · rename_i s' heq
    obtain ⟨record, ⟨hlive, -⟩, rfl⟩ := Store.tombstoneIf_eq_some.mp heq
    exact .won hr hid hlive rfl hplan (List.prefix_refl _)
  · exact .quiet hr rfl (.refl s)

theorem step_moved (s : Store) (r : Resolver) :
    Moved s r (r.step s).1 (r.step s).2.1 (r.step s).2.2 := by
  cases r with
  | dropBundle b reason => exact claim_moved rfl rfl (.drop reason)
  | complete kind b => exact claim_moved rfl rfl (.complete kind)
  | reap id =>
    rw [step]
    split
    · exact .quiet rfl rfl (.refl s)
    · split <;> exact .quiet rfl rfl (.refl s)
  | transferOutcome ownsPeer id outcome =>
    rw [step]
    split
    · exact .quiet rfl rfl (.refl s)
    · split
      · split
        · cases outcome <;> exact .quiet rfl rfl (.refl s)
        · exact .quiet rfl rfl (.refl s)
      · exact .quiet rfl rfl (.refl s)
  | transferFailed b =>
    rw [step]
    split
    · rename_i heq
      exact .quiet rfl rfl (.swapStatus heq)
    · exact .quiet rfl rfl (.refl s)
  | repark b =>
    rw [step]
    split
    · exact .quiet rfl rfl (.refl s)
    · split
      · rename_i heq
        exact .quiet rfl rfl (.swapStatus heq)
      · exact .quiet rfl rfl (.refl s)
  | removeUnconfirmed id =>
    rw [step]
    split
    · exact .quiet rfl rfl (.refl s)
    · rename_i b heq
      exact .won rfl rfl (Store.get_eq_some.mp heq) rfl (.drop .depletedStorage)
        (List.prefix_append _ b.dataDeletion)
  | orphaned id => exact .goesOn rfl rfl (.inr rfl) (.refl s) rfl
  | resolved b reports =>
    cases reports with
    | nil => exact .goesOn rfl rfl (.inl rfl) (.deleteDataOf s b) (List.append_nil _).symm
    | cons report reports => exact .goesOn rfl rfl (.inl rfl) (.refl s) rfl
  | tombstone b => exact .goesOn rfl rfl (.inr rfl) (.tombstoneMetadata s b.id) rfl
  | done => exact .quiet rfl rfl (.refl s)

end Resolver

namespace Resolution

variable {s s' : Resolution} {id : Id} {k : Nat}

def pending (s : Resolution) (k : Nat) (id : Id) : List Effect :=
  match s.resolvers k with
  | some r => if r.claimed = some id then r.pending else []
  | none => []

structure Open (s : Resolution) (id : Id) : Prop where
  history : ∀ e ∈ s.history, e.id ≠ id
  resolvers : ∀ k r, s.resolvers k = some r → r.claimed ≠ some id

structure Won (s : Resolution) (id : Id) (k : Nat) : Prop where
  history : ∀ e ∈ s.history, e.id = id → e.resolver = k
  resolvers : ∀ k' r, s.resolvers k' = some r → r.claimed = some id → k' = k
  gone : ∀ r, s.store.metadata id ≠ some (.live r)
  script : ∃ b reports, Plan reports ∧ s.effects id ++ s.pending k id <+: script b reports

def Inv (s : Resolution) : Prop := ∀ id, s.Open id ∨ ∃ k, s.Won id k

/-- The part of the state that `Open` and `Won` speak of is the same for one id. -/
structure Frame (s s' : Resolution) (id : Id) : Prop where
  history : ∃ events, s'.history = s.history ++ events ∧ ∀ e ∈ events, e.id ≠ id
  resolvers : ∀ k, s'.resolvers k = s.resolvers k ∨
    (∀ r, s.resolvers k = some r → r.claimed ≠ some id) ∧
    ∀ r, s'.resolvers k = some r → r.claimed ≠ some id
  gone : (∀ r, s.store.metadata id ≠ some (.live r)) →
    ∀ r, s'.store.metadata id ≠ some (.live r)

theorem Frame.effects (h : Frame s s' id) : s'.effects id = s.effects id := by
  obtain ⟨events, heq, hne⟩ := h.history
  have hnil : events.filter (fun e => e.id = id) = [] := by
    rw [List.filter_eq_nil_iff]
    intro e he
    rw [decide_eq_true_eq]
    exact hne e he
  rw [Resolution.effects, heq, List.filter_append, hnil, List.append_nil]
  rfl

theorem pending_of_not_claimed
    (h : ∀ r, s.resolvers k = some r → r.claimed ≠ some id) : s.pending k id = [] := by
  rw [pending]
  split
  · rename_i r hr
    exact if_neg (h r hr)
  · rfl

theorem Frame.pending (h : Frame s s' id) (k : Nat) : s'.pending k id = s.pending k id := by
  rcases h.resolvers k with heq | ⟨hs, hs'⟩
  · rw [Resolution.pending, heq]
    rfl
  · rw [pending_of_not_claimed hs, pending_of_not_claimed hs']

theorem Frame.claimed (h : Frame s s' id) {k : Nat} {r : Resolver}
    (hr : s'.resolvers k = some r) (hc : r.claimed = some id) : s.resolvers k = some r := by
  rcases h.resolvers k with heq | ⟨-, hs'⟩
  · exact heq ▸ hr
  · exact absurd hc (hs' r hr)

theorem Frame.event (h : Frame s s' id) {e : Event} (he : e ∈ s'.history) (hid : e.id = id) :
    e ∈ s.history := by
  obtain ⟨events, heq, hne⟩ := h.history
  rw [heq] at he
  exact (List.mem_append.mp he).resolve_right fun he => hne e he hid

theorem Frame.openOrWon (h : Frame s s' id) (hs : s.Open id ∨ ∃ k, s.Won id k) :
    s'.Open id ∨ ∃ k, s'.Won id k := by
  rcases hs with hs | ⟨k, hs⟩
  · refine .inl ⟨fun e he hid => ?_, fun k r hr hc => ?_⟩
    · exact hs.history e (h.event he hid) hid
    · exact hs.resolvers k r (h.claimed hr hc) hc
  · refine .inr ⟨k, fun e he hid => ?_, fun k' r hr hc => ?_, h.gone hs.gone, ?_⟩
    · exact hs.history e (h.event he hid) hid
    · exact hs.resolvers k' r (h.claimed hr hc) hc
    · rw [h.effects, h.pending]
      exact hs.script

/-! ### The steps of a resolver -/

variable {r : Resolver}

theorem record_of_ne {i : Option Id} (effects : List Effect) (h : i ≠ some id) :
    ∃ events, s.record k i effects = s.history ++ events ∧ ∀ e ∈ events, e.id ≠ id := by
  cases i with
  | none => exact ⟨[], (List.append_nil _).symm, nofun⟩
  | some i =>
    refine ⟨_, rfl, fun e he => ?_⟩
    obtain ⟨_, -, rfl⟩ := List.mem_map.mp he
    exact fun hid => h (congrArg some hid)

theorem record_nil (i : Option Id) : s.record k i [] = s.history := by
  cases i with
  | none => rfl
  | some i => exact List.append_nil _

theorem effects_record (effects : List Effect) (store : Store)
    (resolvers : Nat → Option Resolver) :
    Resolution.effects ⟨store, s.record k (some id) effects, resolvers⟩ id =
      s.effects id ++ effects := by
  have hall : (effects.map fun e => (⟨k, id, e⟩ : Event)).filter (fun e => e.id = id) =
      effects.map fun e => ⟨k, id, e⟩ := by
    rw [List.filter_eq_self]
    intro e he
    obtain ⟨_, -, rfl⟩ := List.mem_map.mp he
    exact decide_eq_true rfl
  rw [Resolution.effects, record, List.filter_append, hall, List.map_append, List.map_map]
  exact congrArg _ (List.map_id _)

theorem frame_move (hk : s.resolvers k = some r) {store : Store} {r' : Resolver}
    {effects : List Effect} (hc : r.claimed ≠ some id) (hc' : r'.claimed ≠ some id)
    (hid : effects = [] ∨ r.id? ≠ some id)
    (hgone : (∀ r, s.store.metadata id ≠ some (.live r)) →
      ∀ r, store.metadata id ≠ some (.live r)) :
    Frame s ⟨store, s.record k r.id? effects, Function.update s.resolvers k (some r')⟩ id := by
  refine ⟨?_, fun k' => ?_, hgone⟩
  · rcases hid with rfl | hid
    · exact ⟨[], by rw [record_nil, List.append_nil], nofun⟩
    · exact record_of_ne effects hid
  · by_cases hkk : k' = k
    · subst hkk
      right
      constructor
      · intro r₀ hr₀
        rw [hk] at hr₀
        cases hr₀
        exact hc
      · intro r₀ hr₀
        dsimp only at hr₀
        rw [Function.update_self] at hr₀
        cases hr₀
        exact hc'
    · exact .inl (Function.update_of_ne hkk _ _)

theorem pending_of_claimed (hk : s.resolvers k = some r) (hc : r.claimed = some id) :
    s.pending k id = r.pending := by
  rw [pending, hk]
  exact if_pos hc

theorem Open.effects (h : s.Open id) : s.effects id = [] := by
  rw [Resolution.effects, List.map_eq_nil_iff, List.filter_eq_nil_iff]
  intro e he
  rw [decide_eq_true_eq]
  exact h.history e he

theorem Open.win (h : s.Open id) {r' : Resolver} {b : Bundle} {reports : List Report}
    (hr' : r'.claimed = some id) (hplan : Plan reports)
    (hscript : .resolved :: r'.pending <+: Resolution.script b reports) :
    Won ⟨{ s.store with metadata := Function.update s.store.metadata id (some .tombstone) },
      s.record k (some id) [.resolved], Function.update s.resolvers k (some r')⟩ id k := by
  constructor
  · intro e he hid
    rcases List.mem_append.mp he with he | he
    · exact absurd hid (h.history e he)
    · obtain ⟨_, -, rfl⟩ := List.mem_map.mp he
      rfl
  · intro k' r hr hc
    by_contra hk
    dsimp only at hr
    rw [Function.update_of_ne hk] at hr
    exact h.resolvers k' r hr hc
  · intro r hr
    dsimp only at hr
    rw [Function.update_self] at hr
    cases hr
  · refine ⟨b, reports, hplan, ?_⟩
    rw [effects_record, h.effects, pending_of_claimed (Function.update_self ..) hr']
    exact hscript

theorem Won.goOn (h : s.Won id k) (hk : s.resolvers k = some r) (hr : r.claimed = some id)
    {store : Store} {r' : Resolver} {effects : List Effect} (hs : s.store.Settles store)
    (hr' : r'.claimed = some id ∨ r'.claimed = none)
    (hpending : r.pending = effects ++ r'.pending) :
    Won ⟨store, s.record k (some id) effects,
      Function.update s.resolvers k (some r')⟩ id k := by
  constructor
  · intro e he hid
    rcases List.mem_append.mp he with he | he
    · exact h.history e he hid
    · obtain ⟨_, -, rfl⟩ := List.mem_map.mp he
      rfl
  · intro k' r₀ hr₀ hc
    by_contra hkk
    dsimp only at hr₀
    rw [Function.update_of_ne hkk] at hr₀
    exact hkk (h.resolvers k' r₀ hr₀ hc)
  · exact hs id h.gone
  · obtain ⟨b, reports, hplan, heq⟩ := h.script
    refine ⟨b, reports, hplan, ?_⟩
    have hnew : pending ⟨store, s.record k (some id) effects,
        Function.update s.resolvers k (some r')⟩ k id = r'.pending := by
      rcases hr' with hr' | hr'
      · exact pending_of_claimed (Function.update_self ..) hr'
      · rw [r'.pending_of_not_claimed hr']
        refine pending_of_not_claimed fun r₀ hr₀ => ?_
        dsimp only at hr₀
        rw [Function.update_self] at hr₀
        cases hr₀
        rw [hr']
        nofun
    rw [effects_record, hnew, List.append_assoc, ← hpending, ← pending_of_claimed hk hr]
    exact heq

theorem Inv.move (h : Inv s) (hk : s.resolvers k = some r) : Inv (s.move k r) := by
  intro id
  rw [Resolution.move]
  have hmoved := r.step_moved s.store
  generalize r.step s.store = m at hmoved ⊢
  obtain ⟨store, r', effects⟩ := m
  dsimp only at hmoved ⊢
  cases hmoved with
  | quiet hr hr' hs =>
    refine (frame_move hk ?_ ?_ (.inl rfl) (hs id)).openOrWon (h id)
    · rw [hr]
      nofun
    · rw [hr']
      nofun
  | @won i record _ _ _ hr hid hlive hr' hplan hscript =>
    by_cases hi : i = id
    · subst hi
      -- a bundle that somebody has won is not live
      have hopen : s.Open i := (h i).resolve_right fun ⟨_, hw⟩ => hw.gone record hlive
      rw [hid]
      exact .inr ⟨k, hopen.win hr' hplan hscript⟩
    · have hne : some i ≠ some id := fun heq => hi (Option.some.inj heq)
      refine (frame_move hk ?_ (hr' ▸ hne) (.inr (hid ▸ hne)) fun hgone => ?_).openOrWon (h id)
      · rw [hr]
        nofun
      · simpa only [Function.update_of_ne (Ne.symm hi)] using hgone
  | @goesOn _ _ _ i hr hid hr' hs hpending =>
    by_cases hi : i = id
    · subst hi
      rcases h i with hopen | ⟨k₀, hw⟩
      · exact absurd hr (hopen.resolvers k r hk)
      · obtain rfl := hw.resolvers k r hk hr
        rw [hid]
        exact .inr ⟨k, hw.goOn hk hr hs hr' hpending⟩
    · have hne : some i ≠ some id := fun heq => hi (Option.some.inj heq)
      refine (frame_move hk (hr ▸ hne) ?_ (.inr (hid ▸ hne)) (hs id)).openOrWon (h id)
      rcases hr' with hr' | hr' <;> rw [hr']
      · exact hne
      · nofun

/-! ### The other steps -/

theorem frame_store {store : Store} (hs : s.store.Settles store) (id : Id) :
    Frame s { s with store } id :=
  ⟨⟨[], (List.append_nil _).symm, nofun⟩, fun _ => .inl rfl, hs id⟩

theorem frame_start (hk : s.resolvers k = none) (hentry : r.isEntry = true) (id : Id) :
    Frame s { s with resolvers := Function.update s.resolvers k (some r) } id := by
  refine ⟨⟨[], (List.append_nil _).symm, nofun⟩, fun k' => ?_, fun h => h⟩
  by_cases hkk : k' = k
  · subst hkk
    right
    refine ⟨fun r₀ hr₀ => (nomatch hk.symm.trans hr₀), fun r₀ hr₀ => ?_⟩
    dsimp only at hr₀
    rw [Function.update_self] at hr₀
    cases hr₀
    cases r with
    | resolved | tombstone | orphaned => cases hentry
    | _ => nofun
  · exact .inl (Function.update_of_ne hkk _ _)

theorem settles_evict (store : Store) (id : Id) :
    store.Settles { store with metadata := Function.update store.metadata id none } := by
  intro i hi r
  dsimp only
  by_cases hid : i = id
  · rw [hid, Function.update_self]
    nofun
  · rw [Function.update_of_ne hid]
    exact hi r

theorem Inv.step {l : Label} (h : Inv s) (hstep : s.step l = some s') : Inv s' := by
  cases l with
  | start k r =>
    obtain ⟨⟨hentry, hk⟩, heq⟩ := Option.ite_none_right_eq_some.mp hstep
    cases heq
    exact fun id => (frame_start (Option.isNone_iff_eq_none.mp hk) hentry id).openOrWon (h id)
  | move k =>
    obtain ⟨r, hr, rfl⟩ := Option.map_eq_some_iff.mp hstep
    exact h.move hr
  | resetPeerQueue peer =>
    cases hstep
    exact fun id => (frame_store (.reset _ _) id).openOrWon (h id)
  | resetPeerAckPending peer =>
    cases hstep
    exact fun id => (frame_store (.reset _ _) id).openOrWon (h id)
  | resetServiceQueue service =>
    cases hstep
    exact fun id => (frame_store (.reset _ _) id).openOrWon (h id)
  | rewrite b =>
    obtain ⟨b', hb', rfl⟩ := Option.map_eq_some_iff.mp hstep
    exact fun id =>
      (frame_store (.update (Store.get_eq_some.mp hb') _) id).openOrWon (h id)
  | evict id =>
    cases hstep
    exact fun i => (frame_store (settles_evict _ id) i).openOrWon (h i)

theorem Inv.start (h : Start s) : Inv s := by
  refine fun id => .inl ⟨fun e he => ?_, fun k r hr => ?_⟩
  · rw [h.1] at he
    cases he
  · rw [h.2 k] at hr
    cases hr

theorem inv_reachable (h : machine.Reachable s) : Inv s :=
  h.invariant (fun _ => Inv.start) fun _ _ _ hs hstep => hs.step hstep

/-! ## Resolved at most once -/

end Resolution

def Resolver.claims : Resolver → Bool
  | .dropBundle _ _ | .complete _ _ | .removeUnconfirmed _ => true
  | _ => false

namespace Resolution

def Label.isSweep : Label → Bool
  | .resetPeerQueue _ | .resetPeerAckPending _ | .resetServiceQueue _ => true
  | _ => false

structure ResolvedOnce (s : Resolution) (id : Id) : Prop where
  /-- All that happens to the bundle is the doing of one resolver. -/
  one : ∀ e ∈ s.history, ∀ e' ∈ s.history, e.id = id → e'.id = id → e.resolver = e'.resolver
  /-- It begins with the tombstone, and there is one report of the deletion and
  one deletion of the data to come at most. -/
  script : s.effects id = [] ∨ ∃ b reports, Plan reports ∧ s.effects id <+: script b reports
  /-- A claim sees the record turn or changes nothing. -/
  lost : ∀ k r s', s.resolvers k = some r → r.claims = true → r.id? = some id →
    s.step (.move k) = some s' →
      ⟨k, id, .resolved⟩ ∈ s'.history ∨ s'.store = s.store ∧ s'.history = s.history
  /-- The others change nothing afterwards. -/
  silent : ∀ k, ⟨k, id, .resolved⟩ ∈ s.history → ∀ k' r s', k' ≠ k → s.resolvers k' = some r →
    r.id? = some id → s.step (.move k') = some s' →
      s'.store = s.store ∧ s'.history = s.history
  /-- The sweeps do not either. -/
  swept : ∀ k, ⟨k, id, .resolved⟩ ∈ s.history → ∀ l s', l.isSweep = true → s.step l = some s' →
    s'.store.metadata id = s.store.metadata id ∧ s'.store.data = s.store.data ∧
      s'.history = s.history

variable {s s' : Resolution} {id : Id} {k : Nat}

theorem Open.not_mem (h : s.Open id) {k : Nat} {effect : Effect} :
    (⟨k, id, effect⟩ : Event) ∉ s.history :=
  fun hmem => h.history _ hmem rfl

end Resolution

namespace Resolver

variable {s : Store} {r : Resolver} {id : Id}

theorem claim_of_gone {b : Bundle} (h : ∀ r, s.metadata b.id ≠ some (.live r))
    (reports : List Report) : claim s b reports = (s, .done, []) := by
  rw [claim, Store.tombstoneIf_eq_none.mpr (Store.current_eq_none_of_not_live h)]

theorem swapStatus_of_gone {b : Bundle} (h : ∀ r, s.metadata b.id ≠ some (.live r))
    (status : BundleStatus) : s.swapStatus b status = none :=
  Store.swapStatus_eq_none.mpr (Store.current_eq_none_of_not_live h)

theorem step_of_gone (h : ∀ r, s.metadata id ≠ some (.live r)) (hid : r.id? = some id)
    (hc : r.claimed ≠ some id) : (r.step s).1 = s ∧ (r.step s).2.2 = [] := by
  cases r with
  | dropBundle b reason =>
    cases hid
    rw [step, claim_of_gone h]
    exact ⟨rfl, rfl⟩
  | complete kind b =>
    cases hid
    rw [step, claim_of_gone h]
    exact ⟨rfl, rfl⟩
  | reap i =>
    rw [step]
    split
    · exact ⟨rfl, rfl⟩
    · split <;> exact ⟨rfl, rfl⟩
  | transferOutcome ownsPeer i outcome =>
    rw [step]
    split
    · exact ⟨rfl, rfl⟩
    · split
      · split
        · cases outcome <;> exact ⟨rfl, rfl⟩
        · exact ⟨rfl, rfl⟩
      · exact ⟨rfl, rfl⟩
  | transferFailed b =>
    cases hid
    rw [step, swapStatus_of_gone h]
    exact ⟨rfl, rfl⟩
  | repark b =>
    cases hid
    rw [step]
    split
    · exact ⟨rfl, rfl⟩
    · rw [swapStatus_of_gone h]
      exact ⟨rfl, rfl⟩
  | removeUnconfirmed i =>
    rw [step]
    split
    · exact ⟨rfl, rfl⟩
    · rename_i b heq
      cases hid
      exact absurd (Store.get_eq_some.mp heq) (h b)
  | orphaned i => exact absurd hid hc
  | resolved b reports => exact absurd hid hc
  | tombstone b => exact absurd hid hc
  | done => cases hid

theorem step_of_claims (h : r.claims = true) :
    (r.step s).2.2 = [.resolved] ∨ (r.step s).1 = s ∧ (r.step s).2.2 = [] := by
  cases r with
  | dropBundle b reason =>
    rw [step, claim]
    split
    · exact .inl rfl
    · exact .inr ⟨rfl, rfl⟩
  | complete kind b =>
    rw [step, claim]
    split
    · exact .inl rfl
    · exact .inr ⟨rfl, rfl⟩
  | removeUnconfirmed id =>
    rw [step]
    split
    · exact .inr ⟨rfl, rfl⟩
    · exact .inl rfl
  | _ => cases h

end Resolver

namespace Resolution

variable {s s' : Resolution} {id : Id} {k : Nat}

theorem ResolvedOnce.lost_of {r : Resolver} (hk : s.resolvers k = some r)
    (hclaims : r.claims = true) (hid : r.id? = some id) (hstep : s.step (.move k) = some s') :
    ⟨k, id, .resolved⟩ ∈ s'.history ∨ s'.store = s.store ∧ s'.history = s.history := by
  obtain ⟨r', hr', rfl⟩ := Option.map_eq_some_iff.mp hstep
  rw [hk] at hr'
  cases hr'
  rw [move, hid]
  rcases r.step_of_claims (s := s.store) hclaims with heff | ⟨hstore, heff⟩
  · left
    rw [heff]
    exact List.mem_append_right _ (List.mem_singleton_self _)
  · right
    rw [heff, record_nil]
    exact ⟨hstore, rfl⟩

theorem Won.silent (h : s.Won id k) {k' : Nat} {r : Resolver} (hne : k' ≠ k)
    (hk' : s.resolvers k' = some r) (hid : r.id? = some id)
    (hstep : s.step (.move k') = some s') : s'.store = s.store ∧ s'.history = s.history := by
  obtain ⟨r', hr', rfl⟩ := Option.map_eq_some_iff.mp hstep
  rw [hk'] at hr'
  cases hr'
  obtain ⟨hstore, heff⟩ :=
    Resolver.step_of_gone h.gone hid fun hc => hne (h.resolvers k' r hk' hc)
  rw [move, heff, record_nil]
  exact ⟨hstore, rfl⟩

theorem Won.swept (h : s.Won id k) {l : Label} (hl : l.isSweep = true)
    (hstep : s.step l = some s') :
    s'.store.metadata id = s.store.metadata id ∧ s'.store.data = s.store.data ∧
      s'.history = s.history := by
  cases l with
  | resetPeerQueue peer =>
    cases hstep
    refine ⟨?_, rfl, rfl⟩
    rw [Store.resetPeerQueue, Store.reset_of_not_live h.gone]
  | resetPeerAckPending peer =>
    cases hstep
    refine ⟨?_, rfl, rfl⟩
    rw [Store.resetPeerAckPending, Store.reset_of_not_live h.gone]
  | resetServiceQueue service =>
    cases hstep
    refine ⟨?_, rfl, rfl⟩
    rw [Store.resetServiceQueue, Store.reset_of_not_live h.gone]
  | _ => cases hl

/-- Over every interleaving, one resolver at most sees the record of a bundle
turn into a tombstone, and it alone reports and deletes. -/
theorem resolved_once (h : machine.Reachable s) (id : Id) : s.ResolvedOnce id := by
  rcases inv_reachable h id with hopen | ⟨k, hwon⟩
  · refine ⟨?_, .inl hopen.effects, fun k r s' => ResolvedOnce.lost_of, ?_, ?_⟩
    · exact fun e he _ _ hid _ => absurd hid (hopen.history e he)
    · exact fun k hk => absurd hk hopen.not_mem
    · exact fun k hk => absurd hk hopen.not_mem
  · refine ⟨?_, ?_, fun k r s' => ResolvedOnce.lost_of, ?_, ?_⟩
    · intro e he e' he' hid hid'
      rw [hwon.history e he hid, hwon.history e' he' hid']
    · obtain ⟨b, reports, hplan, hscript⟩ := hwon.script
      exact .inr ⟨b, reports, hplan, (List.prefix_append _ _).trans hscript⟩
    · intro k₀ hk₀ k' r s' hne hk' hid hstep
      obtain rfl : k₀ = k := hwon.history _ hk₀ rfl
      exact hwon.silent hne hk' hid hstep
    · exact fun _ _ l s' hl hstep => hwon.swept hl hstep

def stored (b : Bundle) : Resolution where
  store := ⟨fun id => if id = b.id then some (.live b) else none, ∅⟩
  history := []
  resolvers _ := none

def twoDrops (b : Bundle) : List Label :=
  [.start 0 (.dropBundle b .lifetimeExpired), .start 1 (.dropBundle b .depletedStorage),
    .move 1, .move 0, .move 1]

/-- The drop that comes second says nothing. -/
theorem twoDrops_resolved_once :
    ∃ s, machine.Reachable s ∧
      s.effects (Bundle.plain 1 .waiting).id = [.resolved, .reported (.deleted .depletedStorage)] ∧
      s.ResolvedOnce (Bundle.plain 1 .waiting).id := by
  obtain ⟨s, hs⟩ : ∃ s, Machine.runSteps step (stored (.plain 1 .waiting))
      (twoDrops (.plain 1 .waiting)) = some s := ⟨_, rfl⟩
  have hreach : machine.Reachable s :=
    Machine.reachable_runSteps (.start ⟨rfl, fun _ => rfl⟩) hs
  refine ⟨s, hreach, ?_, resolved_once hreach _⟩
  cases hs
  rfl

end Resolution

end Hardy.Bpa
