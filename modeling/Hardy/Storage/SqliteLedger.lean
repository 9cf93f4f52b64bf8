import Mathlib.Data.List.Forall2
import Hardy.Storage.Ledger
import Hardy.Storage.Readback

/-!
# The SQLite store as a ledger

The rows are the slots of a ledger, where every id, record and status is told by the
text that stands for it (`Stores`).  Each statement does to the rows what the write
does to the slots, and each poll sends what the ledger's does.
-/

namespace Hardy.Storage

open Bpa (BundleStatus)
open Ledger (named amendSlot target effect)

variable [Crates] [DebugText]

/-! ## What a text tells -/

structure KnownId (id : Id) : Prop where
  wellFormed : id.source.WellFormed
  legible : id.source.Legible

structure KnownStatus (s : BundleStatus) : Prop where
  assignable : Assignable s
  legible : ∀ e ∈ eidOf s, e.Legible

structure KnownBundle (b : Bundle) : Prop where
  decoded : b.Decoded
  legible : b.Legible

structure KnownEid (e : Eid) : Prop where
  wellFormed : e.WellFormed
  legible : e.Legible

def KnownWrite : Write → Prop
  | .insert b | .replace b => KnownBundle b
  | .swapStatus id expected status => KnownId id ∧ KnownStatus expected ∧ KnownStatus status
  | .tombstone id => KnownId id
  | .tombstoneIf id expected => KnownId id ∧ KnownStatus expected
  | .resetPeerQueue _ | .resetPeerAckPending _ => True
  | .resetServiceQueue service => KnownEid service

def KnownPoll : Poll → Prop
  | .expiry | .waiting => True
  | .serviceWaiting source => KnownEid source
  | .aduFragments status | .pending status _ => KnownStatus status

section

variable {id id' : Id} {s s' : BundleStatus} {b : Bundle} {e e' : Eid}

theorem KnownId.doc_eq (h : KnownId id) (h' : KnownId id') : id.doc = id'.doc ↔ id = id' :=
  ⟨Id.doc_inj h.wellFormed h'.wellFormed h.legible h'.legible, fun h => h ▸ rfl⟩

theorem KnownEid.display_eq (h : KnownEid e) (h' : KnownEid e') : e.display = e'.display ↔ e = e' :=
  ⟨Eid.display_inj h.wellFormed h'.wellFormed h.legible h'.legible, fun h => h ▸ rfl⟩

theorem KnownStatus.fromStatus_eq (h : KnownStatus s) (h' : KnownStatus s') :
    fromStatus s = fromStatus s' ↔ s = s' := by
  refine ⟨fun heq => ?_, fun h => h ▸ rfl⟩
  have hread := (readStatus_fromStatus h.assignable).mpr h.legible
  rw [heq, (readStatus_fromStatus h'.assignable).mpr h'.legible] at hread
  exact (Option.some.inj hread).symm

omit [DebugText] in
theorem KnownBundle.knownId (h : KnownBundle b) : KnownId b.id :=
  ⟨h.decoded.eids.source, h.legible.eids.source⟩

omit [DebugText] in
theorem KnownBundle.knownStatus (h : KnownBundle b) : KnownStatus b.status :=
  ⟨h.decoded.status, h.legible.status⟩

omit [DebugText] in
theorem KnownBundle.withStatus (h : KnownBundle b) (hs : KnownStatus s) :
    KnownBundle { b with status := s } :=
  ⟨⟨h.decoded.eids, hs.assignable⟩, ⟨h.legible.eids, hs.legible⟩⟩

omit [Crates] [DebugText] in
theorem knownStatus_waiting : KnownStatus .waiting := ⟨trivial, nofun⟩

omit [DebugText] in
omit [Crates] in
theorem KnownEid.waitingForService (h : KnownEid e) : KnownStatus (.waitingForService e) :=
  ⟨h.wellFormed, fun _ he => Option.some.inj he ▸ h.legible⟩

end

/-! ## Rows and slots -/

def Holds (c : Columns) : Option Bundle → Prop
  | some b => KnownBundle b ∧ c = b.columns
  | none => c.bundle = none ∧ c.status = .null

structure Matches (r : BundleRow) (e : Slot) : Prop where
  id : KnownId e.1
  key : r.key = e.1.doc
  data : Holds r.data e.2

structure Stores (db : Db) (L : Ledger) : Prop where
  rows : ∃ l : List Slot, (l : Multiset Slot) = L.slots ∧
    List.Forall₂ Matches db.bundles.rows l
  queue : db.waitingQueue = []

section

variable {r : BundleRow} {e : Slot} {id : Id} {b : Bundle} {s : BundleStatus}
  {p : BundleRow → Bool} {q : Id → BundleStatus → Bool} {f : Columns → Columns}
  {g : Bundle → Option Bundle}

theorem Matches.named (h : Matches r e) {c : StatusColumns → Bool} (hnull : c .null = false)
    (hlive : ∀ b, KnownBundle b → c (fromStatus b.status) = q e.1 b.status) :
    c r.data.status = named q e := by
  obtain ⟨id, rec⟩ := e
  cases rec with
  | none =>
    rw [h.data.2, hnull]
    rfl
  | some b =>
    rw [h.data.2]
    exact hlive b h.data.1

theorem Matches.isLive (h : Matches r e) : r.data.isLive = e.2.isSome := by
  obtain ⟨id, rec⟩ := e
  cases rec with
  | none =>
    rw [Columns.isLive, h.data.1]
    rfl
  | some b =>
    rw [h.data.2]
    rfl

theorem Matches.status_eq (h : Matches r e) (hs : KnownStatus s) :
    decide (r.data.status = fromStatus s) = Ledger.named (fun _ s' => s' = s) e := by
  refine h.named (c := fun c => c = fromStatus s) (by cases s <;> rfl) fun b hb => ?_
  rw [Bool.eq_iff_iff, decide_eq_true_eq, decide_eq_true_eq]
  exact hb.knownStatus.fromStatus_eq hs

theorem Matches.isLive_and (h : Matches r e) {x : Bool} (hx : x = Ledger.named q e) :
    (r.data.isLive && x) = Ledger.named q e := by
  rw [hx, h.isLive]
  obtain ⟨id, rec⟩ := e
  cases rec <;> rfl

theorem Matches.readStatus (h : Matches r (e.1, some b)) :
    readStatus r.data.status = some b.status := by
  obtain ⟨hb, hdata⟩ := h.data
  rw [hdata]
  exact (readStatus_fromStatus hb.decoded.status).mpr hb.legible.status

theorem Matches.hasStatus (h : Matches r e) (hid : KnownId id) (hs : KnownStatus s) :
    Db.hasStatus id s r = Ledger.named (fun id' s' => s' = s && id' = id) e := by
  have hkey : decide (r.key = id.doc) = decide (e.1 = id) := by
    rw [Bool.eq_iff_iff, decide_eq_true_eq, decide_eq_true_eq, h.key]
    exact h.id.doc_eq hid
  rw [Db.hasStatus, hkey]
  refine (congrArg (· && _) (h.status_eq hs)).trans ?_
  obtain ⟨id', rec⟩ := e
  cases rec <;> rfl

theorem Matches.amend (h : Matches r e)
    (hlive : ∀ b, e.2 = some b → p r = q e.1 b.status)
    (heffect : ∀ b, e.2 = some b → KnownBundle b → q e.1 b.status = true → Holds (f b.columns) (g b))
    (hdead : e.2 = none → p r = true → Holds (f r.data) none) :
    Matches (if p r then { r with data := f r.data } else r) (amendSlot q g e) := by
  obtain ⟨id, rec⟩ := e
  cases rec with
  | none =>
    split
    · next hp => exact ⟨h.id, h.key, hdead rfl hp⟩
    · exact h
  | some b =>
    have hq := hlive b rfl
    obtain ⟨hb, hdata⟩ := h.data
    by_cases hp : p r = true
    · rw [if_pos hp]
      rw [hp] at hq
      refine ⟨h.id, h.key, ?_⟩
      simp only [amendSlot, Option.bind_some, ← hq, if_true, hdata]
      exact heffect b rfl hb hq.symm
    · rw [if_neg hp]
      rw [Bool.not_eq_true] at hp
      rw [hp] at hq
      refine ⟨h.id, h.key, ?_⟩
      simp only [amendSlot, Option.bind_some, ← hq]
      exact h.data

theorem Matches.amend_named (h : Matches r e) (hp : p r = Ledger.named q e)
    (heffect : ∀ b, e.2 = some b → KnownBundle b → q e.1 b.status = true →
      Holds (f b.columns) (g b)) :
    Matches (if p r then { r with data := f r.data } else r) (amendSlot q g e) := by
  refine h.amend (fun b hb => ?_) heffect fun hnone hr => ?_
  · rw [hp, Ledger.named, hb]
    rfl
  · rw [hp, Ledger.named, hnone] at hr
    cases hr

theorem Matches.sent (h : Matches r e) (he : e.2 = some b) {st : BundleRow → Option BundleStatus}
    (hst : st r = some b.status) :
    (do let stored ← r.data.bundle.bind Doc.read
        let status ← st r
        some (stored.intoBundle status)) = some b := by
  obtain ⟨id, rec⟩ := e
  subst he
  obtain ⟨hb, hdata⟩ := h.data
  have hread := (Bundle.read_doc hb.decoded.eids).mpr hb.legible.eids
  have hbundle : r.data.bundle = some b.stored.doc := by
    rw [hdata]
    rfl
  rw [hbundle, hst, Option.bind_some, hread]
  rfl

end

/-! ## Statements -/

section Forall₂

variable {α β γ : Type} {R : α → β → Prop} {l : List α} {l' : List β}

section

omit [Crates] [DebugText]

theorem forall₂_mem (h : List.Forall₂ R l l') {a : α} (ha : a ∈ l) : ∃ b ∈ l', R a b := by
  induction h with
  | nil => cases ha
  | cons hr _ ih =>
    rcases List.mem_cons.mp ha with rfl | ha
    · exact ⟨_, List.mem_cons_self, hr⟩
    · obtain ⟨b, hb, hr⟩ := ih ha
      exact ⟨b, List.mem_cons_of_mem _ hb, hr⟩

theorem forall₂_countP (h : List.Forall₂ R l l') {p : α → Bool} {q : β → Bool}
    (hpq : ∀ a b, R a b → p a = q b) : l.countP p = l'.countP q := by
  induction h with
  | nil => rfl
  | cons hr _ ih => rw [List.countP_cons, List.countP_cons, hpq _ _ hr, ih]

theorem forall₂_filterMap (h : List.Forall₂ R l l') {f : α → Option γ} {g : β → Option γ}
    (hfg : ∀ a b, R a b → f a = g b) : l.filterMap f = l'.filterMap g := by
  induction h with
  | nil => rfl
  | cons hr _ ih => rw [List.filterMap_cons, List.filterMap_cons, hfg _ _ hr, ih]

end

end Forall₂

namespace Stores

variable {db db' : Db} {L : Ledger} {id : Id} {b : Bundle} {r : BundleRow} {e : Slot}
  {p : BundleRow → Bool} {q : Id → BundleStatus → Bool} {f : Columns → Columns}
  {g : Bundle → Option Bundle} {w : Write} {poll : Poll} {out : List Bundle}

theorem slot (h : Stores db L) (hr : r ∈ db.bundles.rows) : ∃ e ∈ L.slots, Matches r e := by
  obtain ⟨l, hl, hrows⟩ := h.rows
  obtain ⟨e, he, hm⟩ := forall₂_mem hrows hr
  exact ⟨e, hl ▸ he, hm⟩

theorem row (h : Stores db L) (he : e ∈ L.slots) : ∃ r ∈ db.bundles.rows, Matches r e := by
  obtain ⟨l, hl, hrows⟩ := h.rows
  rw [← hl] at he
  exact forall₂_mem hrows.flip he

theorem row_eq (h : Stores db L) (hid : KnownId id) (hr : db.bundles.row id.doc = some r) :
    ∃ e ∈ L.slots, Matches r e ∧ e.1 = id := by
  obtain ⟨hr, hkey⟩ := Table.row_eq_some.mp hr
  obtain ⟨e, he, hm⟩ := h.slot hr
  refine ⟨e, he, hm, (hm.id.doc_eq hid).mp ?_⟩
  rw [← hm.key, hkey]

theorem row_none (h : Stores db L) (hr : db.bundles.row id.doc = none) : id ∉ L.ids := by
  intro hmem
  obtain ⟨e, he, rfl⟩ := Multiset.mem_map.mp hmem
  obtain ⟨r, hr', hm⟩ := h.row he
  exact Table.row_eq_none.mp hr r hr' hm.key

theorem empty : Stores .empty .empty := ⟨⟨[], rfl, .nil⟩, rfl⟩

theorem update (h : Stores db L) (hstep : ∀ r e, Matches r e →
    Matches (if p r then { r with data := f r.data } else r) (amendSlot q g e)) :
    Stores (db.set (db.bundles.update p f)) (L.amend q g) := by
  obtain ⟨l, hl, hrows⟩ := h.rows
  refine ⟨⟨l.map (amendSlot q g), ?_, ?_⟩, h.queue⟩
  · rw [← Multiset.map_coe, hl]
    rfl
  · refine List.forall₂_map_left_iff.mpr (List.forall₂_map_right_iff.mpr ?_)
    exact hrows.imp fun r e hm => hstep r e hm

theorem amend (h : Stores db L)
    (hlive : ∀ r e b, Matches r e → e.2 = some b → p r = q e.1 b.status)
    (heffect : ∀ id b, KnownBundle b → q id b.status = true → Holds (f b.columns) (g b))
    (hdead : ∀ r e, Matches r e → e.2 = none → p r = true → Holds (f r.data) none) :
    Stores (db.set (db.bundles.update p f)) (L.amend q g) :=
  h.update fun r e hm => hm.amend (fun b => hlive r e b hm) (fun b _ hb => heffect e.1 b hb)
    (hdead r e hm)

theorem amend_named (h : Stores db L) (hp : ∀ r e, Matches r e → p r = named q e)
    (heffect : ∀ id b, KnownBundle b → q id b.status = true → Holds (f b.columns) (g b)) :
    Stores (db.set (db.bundles.update p f)) (L.amend q g) :=
  h.update fun r e hm => hm.amend_named (hp r e hm) fun b _ hb => heffect e.1 b hb

theorem matched (h : Stores db L) (hp : ∀ r e, Matches r e → p r = named q e) :
    db.bundles.matched p = L.affected q := by
  obtain ⟨l, hl, hrows⟩ := h.rows
  rw [Table.matched, forall₂_countP hrows hp, Ledger.affected, ← hl, Multiset.coe_countP]
  simp

theorem matched_one (h : Stores db L) {s : BundleStatus} (hid : KnownId id) (hs : KnownStatus s) :
    decide (db.bundles.matched (Db.hasStatus id s) = 1) =
      decide (0 < L.affected fun id' s' => s' = s && id' = id) := by
  have hle : db.bundles.matched (Db.hasStatus id s) ≤ 1 := by
    have hkey := Table.matched_key (t := db.bundles) (k := id.doc)
      (p := fun r => decide (r.data.status = fromStatus s))
    refine Nat.le_trans (Nat.le_of_eq hkey) ?_
    exact Bool.toNat_le _
  have hmatched : db.bundles.matched (Db.hasStatus id s) =
      L.affected fun id' s' => s' = s && id' = id := h.matched fun r e hm => hm.hasStatus hid hs
  rw [← hmatched, decide_eq_decide]
  omega

/-! ## Writes -/

theorem insert (h : Stores db L) (hb : KnownBundle b) :
    (db.insert b).1 = (L.insert b).1 ∧ Stores (db.insert b).2 (L.insert b).2 := by
  rw [Db.insert, Ledger.insert]
  cases hrow : db.bundles.row b.id.doc with
  | some r =>
    obtain ⟨e, he, hm, heq⟩ := h.row_eq hb.knownId hrow
    have hmem : b.id ∈ L.ids := heq ▸ Multiset.mem_map_of_mem Prod.fst he
    rw [dif_pos hmem, Table.insertOrIgnore_of_some hrow]
    exact ⟨rfl, h.rows, h.queue⟩
  | none =>
    obtain ⟨l, hl, hrows⟩ := h.rows
    rw [dif_neg (h.row_none hrow), Table.insertOrIgnore_of_none hrow]
    refine ⟨rfl, ⟨(b.id, some b) :: l, ?_, ?_⟩, h.queue⟩
    · rw [← Multiset.cons_coe, hl]
      rfl
    · exact .cons ⟨hb.knownId, rfl, hb, rfl⟩ hrows

theorem replace (h : Stores db L) (hb : KnownBundle b) :
    Stores (db.replace b) (L.amend (target (.replace b)) (effect (.replace b))) := by
  refine h.amend (fun r e b' hm hb' => ?_) (fun _ _ _ _ => ⟨hb, rfl⟩) fun r e hm hnone hr => ?_
  · rw [hm.isLive, hb', Option.isSome_some, Bool.true_and, target, hm.key]
    exact decide_eq_decide.mpr (hm.id.doc_eq hb.knownId)
  · rw [hm.isLive, hnone] at hr
    cases hr

theorem tombstone (h : Stores db L) (hid : KnownId id) :
    Stores (db.tombstone id) (L.amend (target (.tombstone id)) (effect (.tombstone id))) := by
  refine h.amend (fun r e b' hm _ => ?_) (fun _ _ _ _ => ⟨rfl, rfl⟩) fun _ _ _ _ _ => ⟨rfl, rfl⟩
  rw [target, hm.key]
  exact decide_eq_decide.mpr (hm.id.doc_eq hid)

theorem swapStatus {expected status : BundleStatus} (h : Stores db L) (hid : KnownId id)
    (he : KnownStatus expected) (hs : KnownStatus status) :
    Stores (db.swapStatus id expected status).2
      (L.amend (target (.swapStatus id expected status))
        (effect (.swapStatus id expected status))) :=
  h.amend_named (fun _ _ hm => hm.hasStatus hid he) fun _ _ hb _ => ⟨hb.withStatus hs, rfl⟩

theorem tombstoneIf {expected : BundleStatus} (h : Stores db L) (hid : KnownId id)
    (he : KnownStatus expected) : Stores (db.tombstoneIf id expected).2
      (L.amend (target (.tombstoneIf id expected)) (effect (.tombstoneIf id expected))) :=
  h.amend_named (fun _ _ hm => hm.hasStatus hid he) fun _ _ _ _ => ⟨rfl, rfl⟩

theorem resetPeerQueue (h : Stores db L) (peer : Nat) :
    (db.resetPeerQueue peer).1 = L.affected (target (.resetPeerQueue peer)) ∧
      Stores (db.resetPeerQueue peer).2
        (L.amend (target (.resetPeerQueue peer)) (effect (.resetPeerQueue peer))) := by
  have hp : ∀ r e, Matches r e →
      (decide (r.data.status.code = some 2) && decide (r.data.status.param1 = some (peer : Int))) =
        named (target (.resetPeerQueue peer)) e := by
    intro r e hm
    refine hm.named (c := fun c => c.code = some 2 && c.param1 = some (peer : Int)) rfl
      fun b _ => ?_
    cases b.status <;> simp [target, fromStatus, StatusColumns.plain, StatusColumns.service]
  exact ⟨h.matched hp, h.amend_named hp fun _ _ hb _ => ⟨hb.withStatus knownStatus_waiting, rfl⟩⟩

theorem resetPeerAckPending (h : Stores db L) (peer : Nat) :
    (db.resetPeerAckPending peer).1 = L.affected (target (.resetPeerAckPending peer)) ∧
      Stores (db.resetPeerAckPending peer).2
        (L.amend (target (.resetPeerAckPending peer)) (effect (.resetPeerAckPending peer))) := by
  have hp : ∀ r e, Matches r e →
      (decide (r.data.status.code = some 6) && decide (r.data.status.param1 = some (peer : Int))) =
        named (target (.resetPeerAckPending peer)) e := by
    intro r e hm
    refine hm.named (c := fun c => c.code = some 6 && c.param1 = some (peer : Int)) rfl
      fun b _ => ?_
    cases b.status <;> simp [target, fromStatus, StatusColumns.plain, StatusColumns.service]
  refine ⟨h.matched hp, h.amend_named hp fun id b hb hq => ?_⟩
  refine ⟨hb.withStatus knownStatus_waiting, ?_⟩
  -- the parameters that stay are `NULL` in this status
  cases hs : b.status with
  | forwardAckPending p =>
    rw [Bundle.columns, hs]
    rfl
  | _ =>
    rw [hs] at hq
    cases hq

theorem resetServiceQueue {service : Eid} (h : Stores db L) (hs : KnownEid service) :
    (db.resetServiceQueue service).1 = L.affected (target (.resetServiceQueue service)) ∧
      Stores (db.resetServiceQueue service).2
        (L.amend (target (.resetServiceQueue service)) (effect (.resetServiceQueue service))) := by
  have hp : ∀ r e, Matches r e →
      (decide (r.data.status.code = some 8) &&
        decide (r.data.status.param3 = some service.display)) =
        named (target (.resetServiceQueue service)) e := by
    intro r e hm
    refine hm.named (c := fun c => c.code = some 8 && c.param3 = some service.display) rfl
      fun b hb => ?_
    cases hst : b.status with
    | deliverPending e =>
      have hknown : KnownStatus (.deliverPending e) := hst ▸ hb.knownStatus
      have heid : KnownEid e := ⟨hknown.assignable, hknown.legible e rfl⟩
      simp [target, fromStatus, StatusColumns.service, heid.display_eq hs]
    | _ => simp [target, fromStatus, StatusColumns.plain, StatusColumns.service]
  refine ⟨h.matched hp, h.amend_named hp fun id b hb hq => ?_⟩
  refine ⟨hb.withStatus hs.waitingForService, ?_⟩
  cases hst : b.status with
  | deliverPending e =>
    rw [hst] at hq
    obtain rfl : e = service := of_decide_eq_true hq
    rw [Bundle.columns, hst]
    rfl
  | _ =>
    rw [hst] at hq
    cases hq

end Stores

namespace Db

def answer (db : Db) : Write → Ledger.Answer
  | .insert bundle => .changed (db.insert bundle).1
  | .replace _ | .tombstone _ => .done
  | .swapStatus id expected status => .changed (db.swapStatus id expected status).1
  | .tombstoneIf id expected => .changed (db.tombstoneIf id expected).1
  | .resetPeerQueue peer => .count (db.resetPeerQueue peer).1
  | .resetPeerAckPending peer => .count (db.resetPeerAckPending peer).1
  | .resetServiceQueue service => .count (db.resetServiceQueue service).1

def Polls (db : Db) : Poll → List Bundle → Db → Prop
  | .expiry, out, db' => out = db.pollExpiry ∧ db' = db
  | .waiting, out, db' => WaitingPoll.PollWaiting db out db'
  | .serviceWaiting source, out, db' => db.PollServiceWaiting source out ∧ db' = db
  | .aduFragments status, out, db' => db.PollAduFragments status out ∧ db' = db
  | .pending status limit, out, db' => db.PollPending status limit out ∧ db' = db

end Db

namespace Stores

variable {db db' : Db} {L : Ledger} {id : Id} {b : Bundle} {r : BundleRow} {e : Slot}
  {p : BundleRow → Bool} {q : BundleStatus → Bool} {f : BundleRow → Option BundleStatus}
  {w : Write} {poll : Poll} {out : List Bundle}

theorem write (h : Stores db L) (hw : KnownWrite w) :
    db.answer w = L.answer w ∧ Stores (db.write w) (L.write w) := by
  cases w with
  | insert b =>
    obtain ⟨hanswer, hstores⟩ := h.insert hw
    exact ⟨congrArg Ledger.Answer.changed hanswer, hstores⟩
  | replace b => exact ⟨rfl, h.replace hw⟩
  | tombstone id => exact ⟨rfl, h.tombstone hw⟩
  | swapStatus id expected status =>
    obtain ⟨hid, he, hs⟩ := hw
    exact ⟨congrArg Ledger.Answer.changed (h.matched_one hid he), h.swapStatus hid he hs⟩
  | tombstoneIf id expected =>
    obtain ⟨hid, he⟩ := hw
    exact ⟨congrArg Ledger.Answer.changed (h.matched_one hid he), h.tombstoneIf hid he⟩
  | resetPeerQueue peer =>
    obtain ⟨hanswer, hstores⟩ := h.resetPeerQueue peer
    exact ⟨congrArg Ledger.Answer.count hanswer, hstores⟩
  | resetPeerAckPending peer =>
    obtain ⟨hanswer, hstores⟩ := h.resetPeerAckPending peer
    exact ⟨congrArg Ledger.Answer.count hanswer, hstores⟩
  | resetServiceQueue service =>
    obtain ⟨hanswer, hstores⟩ := h.resetServiceQueue hw
    exact ⟨congrArg Ledger.Answer.count hanswer, hstores⟩

/-! ## Reads -/

theorem get (h : Stores db L) (hid : KnownId id) : ∃ r, db.get id = .ok r ∧ L.Gets id r := by
  cases hrow : db.bundles.row id.doc with
  | none =>
    refine ⟨none, ?_, fun b => ⟨nofun, fun hmem => ?_⟩⟩
    · rw [Db.get, Db.live, hrow]
      rfl
    · exact absurd (Multiset.mem_map_of_mem Prod.fst hmem) (h.row_none hrow)
  | some r =>
    obtain ⟨⟨id', rec⟩, he, hm, rfl⟩ := h.row_eq hid hrow
    have hunique : ∀ b, rec = some b ↔ (id', some b) ∈ L.slots := by
      refine fun b => ⟨fun hb => hb ▸ he, fun hmem => ?_⟩
      have := Multiset.inj_on_of_nodup_map L.nodup _ hmem _ he rfl
      exact (congrArg Prod.snd this).symm
    refine ⟨rec, ?_, hunique⟩
    rw [Db.get, Db.live, hrow, Option.bind_some]
    cases rec with
    | none =>
      rw [hm.data.1]
      rfl
    | some b =>
      obtain ⟨hb, hdata⟩ := hm.data
      rw [hdata]
      exact (Bundle.unpack_columns hb.decoded).mpr hb.legible

theorem sent (h : Stores db L) (hp : ∀ r e, Matches r e → p r = named (fun _ => q) e)
    (hf : ∀ r id b, Matches r (id, some b) → q b.status = true → f r = some b.status) :
    (Db.sent f (db.bundles.select p) : Multiset Bundle) = L.selected q := by
  obtain ⟨l, hl, hrows⟩ := h.rows
  rw [Ledger.selected, ← hl, Multiset.filterMap_coe, Db.sent, Table.select, List.filterMap_filter]
  refine congrArg _ (forall₂_filterMap hrows fun r e hm => ?_)
  rw [hp r e hm]
  obtain ⟨id, rec⟩ := e
  cases rec with
  | none => rfl
  | some b =>
    rw [Ledger.named, Option.any_some, Option.filter_some]
    split
    · next hq => exact hm.sent rfl (hf r id b hm hq)
    · rfl

theorem sent_oldest (h : Stores db L) (hp : ∀ r e, Matches r e → p r = named (fun _ => q) e)
    (hf : ∀ r id b, Matches r (id, some b) → q b.status = true → f r = some b.status)
    {limit : Nat} {rows rest : List BundleRow}
    (hrows : Oldest Db.received limit (db.bundles.select p) rows rest) :
    Oldest Bundle.receivedAt limit (Db.sent f (db.bundles.select p)) (Db.sent f rows)
      (Db.sent f rest) := by
  refine hrows.filterMap fun r hr => ?_
  obtain ⟨hr, hpr⟩ := List.mem_filter.mp hr
  obtain ⟨⟨id, rec⟩, -, hm⟩ := h.slot hr
  rw [hp r _ hm] at hpr
  cases rec with
  | none => cases hpr
  | some b =>
    refine ⟨b, hm.sent rfl (hf r id b hm hpr), ?_⟩
    rw [Db.received, hm.data.2]
    rfl

theorem pollExpiry (h : Stores db L) : (db.pollExpiry : Multiset Bundle) =
    L.selected Poll.expiry.selects := by
  have hp : ∀ r e, Matches r e → Db.expirable r = named (fun _ => Poll.expiry.selects) e := by
    intro r e hm
    refine hm.isLive_and (hm.named (c := fun c => c.code.isSome && c.code ≠ some 0) rfl fun b _ => ?_)
    cases b.status <;> simp [Poll.selects, fromStatus, StatusColumns.plain, StatusColumns.service]
  rw [← h.sent (f := Db.statusOf) hp fun r id b hm _ => hm.readStatus (e := (id, none))]
  exact Multiset.coe_eq_coe.mpr ((Db.expiryPages_perm db).filterMap _)

theorem quiet (h : Stores db L) : WaitingPoll.Quiet db := by
  refine ⟨h.queue, fun r hr hcode => ?_⟩
  obtain ⟨⟨id, rec⟩, -, hm⟩ := h.slot hr
  rw [hm.isLive]
  cases rec with
  | none =>
    rw [hm.data.2] at hcode
    cases hcode
  | some b => rfl

theorem pollWaiting (h : Stores db L) (hpoll : WaitingPoll.PollWaiting db out db') :
    (out : Multiset Bundle) = L.selected Poll.waiting.selects ∧ db' = db := by
  have hp : ∀ r e, Matches r e → WaitingPoll.waiting r = named (fun _ => Poll.waiting.selects) e := by
    intro r e hm
    refine hm.isLive_and (hm.named (c := fun c => c.code = some 1) rfl fun b _ => ?_)
    cases b.status <;> simp [Poll.selects, fromStatus, StatusColumns.plain, StatusColumns.service]
  obtain ⟨hout, hdb⟩ := hpoll.sent h.quiet
  rw [← h.sent hp fun r id b _ hq => congrArg some (of_decide_eq_true hq).symm]
  exact ⟨Multiset.coe_eq_coe.mpr hout, hdb⟩

theorem pollServiceWaiting {source : Eid} (h : Stores db L) (hs : KnownEid source)
    (hpoll : db.PollServiceWaiting source out) :
    (out : Multiset Bundle) = L.selected (Poll.serviceWaiting source).selects := by
  obtain ⟨rows, hrows, rfl⟩ := hpoll
  rw [← h.sent (f := fun _ => some (.waitingForService source))
    (q := (Poll.serviceWaiting source).selects) ?_ fun r id b _ hq => congrArg some (of_decide_eq_true hq).symm]
  · exact Multiset.coe_eq_coe.mpr (hrows.perm.symm.filterMap _)
  · intro r e hm
    refine hm.isLive_and (hm.named
      (c := fun c => c.code = some 5 && c.param3 = some source.display) rfl fun b hb => ?_)
    cases hst : b.status with
    | waitingForService e =>
      have hknown : KnownStatus (.waitingForService e) := hst ▸ hb.knownStatus
      have heid : KnownEid e := ⟨hknown.assignable, hknown.legible e rfl⟩
      simp [Poll.selects, fromStatus, StatusColumns.service, heid.display_eq hs]
    | _ => simp [Poll.selects, fromStatus, StatusColumns.plain, StatusColumns.service]

theorem pollAduFragments {status : BundleStatus} (h : Stores db L) (hs : KnownStatus status)
    (hpoll : db.PollAduFragments status out) :
    (out : Multiset Bundle) = L.selected (Poll.aduFragments status).selects := by
  obtain ⟨rows, hrows, rfl⟩ := hpoll
  rw [← h.sent (f := fun _ => some status) (q := (Poll.aduFragments status).selects)
    (fun r e hm => hm.isLive_and (hm.status_eq hs))
    fun r id b _ hq => congrArg some (of_decide_eq_true hq).symm]
  exact Multiset.coe_eq_coe.mpr (hrows.perm.symm.filterMap _)

theorem isQueued {status : BundleStatus} (hm : Matches r e) (hs : KnownStatus status) (limit : Nat) :
    Db.isQueued status r = named (fun _ => (Poll.pending status limit).selects) e := by
  cases hst : status with
  | forwardPending peer queue nextHop =>
    refine hm.isLive_and (hm.named (c := fun c => c.code = some 2 &&
      (c.param1 = some (peer : Int) && c.param2 = some (queue : Int))) rfl fun b _ => ?_)
    cases b.status <;> simp [Poll.selects, Bpa.BundleStatus.sameQueue, fromStatus,
      StatusColumns.plain, StatusColumns.service]
  | _ =>
    subst hst
    refine (hm.isLive_and (hm.status_eq hs)).trans ?_
    obtain ⟨id, rec⟩ := e
    cases rec with
    | none => rfl
    | some b => simp [named, Poll.selects, Bpa.BundleStatus.sameQueue]

theorem queuedStatus (status : BundleStatus) (limit : Nat) (hm : Matches r (id, some b))
    (hq : (Poll.pending status limit).selects b.status = true) :
    Db.queuedStatus status r = some b.status := by
  have hread := hm.readStatus (e := (id, none))
  cases status with
  | forwardPending peer queue nextHop =>
    rw [Db.queuedStatus, hm.data.2]
    rw [hm.data.2] at hread
    cases hst : b.status with
    | forwardPending peer' queue' nextHop' =>
      rw [hst] at hq
      obtain ⟨rfl, rfl⟩ : peer' = peer ∧ queue' = queue := by
        simpa [Poll.selects, Bpa.BundleStatus.sameQueue] using hq
      simp only [Bundle.columns, hst] at hread ⊢
      exact hread
    | _ =>
      rw [hst] at hq
      simp [Poll.selects, Bpa.BundleStatus.sameQueue] at hq
  | _ =>
    refine congrArg some ?_
    simpa [Poll.selects, Bpa.BundleStatus.sameQueue, eq_comm] using hq

theorem pollPending {status : BundleStatus} {limit : Nat} (h : Stores db L)
    (hs : KnownStatus status) (hpoll : db.PollPending status limit out) :
    L.Polled (.pending status limit) out := by
  obtain ⟨rows, rest, hrows, rfl⟩ := hpoll
  have hp := fun r e (hm : Matches r e) => isQueued hm hs limit
  have hst := fun r id b (hm : Matches r (id, some b)) => queuedStatus status limit hm
  exact ⟨_, _, h.sent hp hst, h.sent_oldest hp hst hrows⟩

theorem polls (h : Stores db L) (hk : KnownPoll poll) (hpoll : db.Polls poll out db') :
    L.Polled poll out ∧ db' = db := by
  cases poll with
  | expiry =>
    obtain ⟨rfl, hdb⟩ := hpoll
    exact ⟨h.pollExpiry, hdb⟩
  | waiting => exact h.pollWaiting hpoll
  | serviceWaiting source => exact ⟨h.pollServiceWaiting hk hpoll.1, hpoll.2⟩
  | aduFragments status => exact ⟨h.pollAduFragments hk hpoll.1, hpoll.2⟩
  | pending status limit => exact ⟨h.pollPending hk hpoll.1, hpoll.2⟩

end Stores

end Hardy.Storage
