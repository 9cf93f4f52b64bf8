import Hardy.Storage.Recovery
import Hardy.Storage.Polls

/-!
# What is read back from the SQLite store

A record comes back from its row as it was stored iff the text of each of its
endpoint ids, and of the one in its status, says all that the endpoint id says
(`unpack_columns`).  Timestamps and counters pass through signed columns unharmed.
-/

namespace Hardy.Storage

open Cbor
open Bpa (BundleStatus)

/-! ## Signed columns -/

theorem asU64_asI64 {v : Nat} (h : v < wordSize) : asU64 (asI64 v) = v := by
  rw [wordSize] at h
  rw [asU64, asI64]
  split
  · omega
  · omega

theorem asI64_ne_zero {v : Nat} (h : v < wordSize) (hpos : 0 < v) : asI64 v ≠ 0 := by
  rw [wordSize] at h
  rw [asI64]
  split
  · omega
  · omega

theorem tryU32_cast {v : Nat} (h : v ≤ Eid.u32Max) : tryU32 v = some v := by
  rw [tryU32, if_pos ⟨Int.natCast_nonneg v, Int.ofNat_le.mpr h⟩]
  rfl

/-! ## Statuses -/

def eidOf : BundleStatus → Option Eid
  | .forwardPending _ _ e | .aduFragment e _ | .waitingForService e | .deliverPending e
  | .deliveryAckPending e => some e
  | _ => none

def Assignable : BundleStatus → Prop
  | .forwardPending peer queue e => peer ≤ Eid.u32Max ∧ queue ≤ Eid.u32Max ∧ e.WellFormed
  | .forwardAckPending peer => peer ≤ Eid.u32Max
  | .aduFragment e timestamp => e.WellFormed ∧ timestamp.WellFormed
  | .waitingForService e | .deliverPending e | .deliveryAckPending e => e.WellFormed
  | _ => True

variable [Crates] [DebugText]

def readStatus (c : StatusColumns) : Option BundleStatus :=
  c.code.bind fun code => toStatus code c.param1 c.param2 c.param3

theorem parseParam_display {e : Eid} (h : e.WellFormed) :
    parseParam (some e.display) = e.readBack := Eid.fromStr_display h

theorem map_parseParam {e : Eid} (h : e.WellFormed) {f : Eid → BundleStatus}
    (hf : ∀ e e', f e = f e' → e = e') :
    (parseParam (some e.display)).map f = some (f e) ↔ e.Legible := by
  rw [parseParam_display h, ← Eid.readBack_eq_self, Option.map_eq_some_iff]
  constructor
  · rintro ⟨e', he', heq⟩
    rw [he', hf _ _ heq]
  · exact fun he => ⟨e, he, rfl⟩

omit [Crates] [DebugText] in
theorem read_creationTime {t : CreationTimestamp} (h : t.WellFormed) :
    ((some (t.creationTime.elim 0 asI64)).filter (· ≠ 0)).map asU64 = t.creationTime := by
  cases ht : t.creationTime with
  | none => rfl
  | some ms =>
    obtain ⟨hpos, hms⟩ := h.1 ms ht
    have hne := asI64_ne_zero hms hpos
    simp [hne, asU64_asI64 hms]

theorem readStatus_fromStatus {s : BundleStatus} (h : Assignable s) :
    readStatus (fromStatus s) = some s ↔ ∀ e ∈ eidOf s, e.Legible := by
  have hone : ∀ {e : Eid} {P : Prop}, (P ↔ e.Legible) → (P ↔ ∀ e' ∈ some e, e'.Legible) := by
    intro e P hP
    simpa using hP
  cases s with
  | forwardPending peer queue e =>
    obtain ⟨hpeer, hqueue, he⟩ := h
    refine hone ?_
    have hread : readStatus (fromStatus (.forwardPending peer queue e)) =
        (parseParam (some e.display)).map (.forwardPending peer queue) := by
      simp only [readStatus, fromStatus, Option.bind_some, toStatus, tryU32_cast hpeer,
        tryU32_cast hqueue]
      cases parseParam (some e.display) <;> rfl
    rw [hread]
    exact map_parseParam he fun _ _ heq => by cases heq; rfl
  | aduFragment e t =>
    obtain ⟨he, ht⟩ := h
    refine hone ?_
    have hread : readStatus (fromStatus (.aduFragment e t)) =
        (parseParam (some e.display)).map (.aduFragment · t) := by
      simp only [readStatus, fromStatus, Option.bind_some, toStatus, read_creationTime ht,
        Option.map_some, asU64_asI64 ht.2]
      cases parseParam (some e.display) <;> rfl
    rw [hread]
    exact map_parseParam he fun _ _ heq => by cases heq; rfl
  | forwardAckPending peer =>
    refine iff_of_true ?_ fun e he => by cases he
    simp only [readStatus, fromStatus, Option.bind_some, toStatus, tryU32_cast h]
    rfl
  | waitingForService e => exact hone (map_parseParam h fun _ _ heq => by cases heq; rfl)
  | deliverPending e => exact hone (map_parseParam h fun _ _ heq => by cases heq; rfl)
  | deliveryAckPending e => exact hone (map_parseParam h fun _ _ heq => by cases heq; rfl)
  | new => exact iff_of_true rfl fun e he => by cases he
  | dispatchPending => exact iff_of_true rfl fun e he => by cases he
  | dispatching => exact iff_of_true rfl fun e he => by cases he
  | waiting => exact iff_of_true rfl fun e he => by cases he

theorem code_fromStatus (s : BundleStatus) : ∃ code, (fromStatus s).code = some code := by
  cases s <;> exact ⟨_, rfl⟩

/-! ## Records -/

namespace Bundle

/-- The record is of wire blocks, with a status that is assigned. -/
structure Decoded (b : Bundle) : Prop where
  eids : b.EidsWellFormed
  status : Assignable b.status

/-- Every endpoint id of the record and of its status says in its text all that it
says. -/
structure Legible (b : Bundle) : Prop where
  eids : b.EidsLegible
  status : ∀ e ∈ eidOf b.status, e.Legible

theorem unpack_columns {b : Bundle} (h : b.Decoded) :
    Db.unpack b.columns b.stored.doc = .ok (some b) ↔ b.Legible := by
  obtain ⟨code, hcode⟩ := code_fromStatus b.status
  have hstatus := readStatus_fromStatus h.status
  have hdoc := read_doc h.eids
  rw [readStatus, hcode, Option.bind_some] at hstatus
  simp only [Db.unpack, columns, hcode]
  constructor
  · intro hread
    cases hd : b.stored.doc.read with
    | none =>
      rw [hd] at hread
      cases hread
    | some stored =>
      rw [hd] at hread
      obtain ⟨status, hs, hb⟩ := Option.map_eq_some_iff.mp (Except.ok.inj hread)
      have hstored : stored = b.stored := by
        rw [← hb]
        rfl
      have hsame : status = b.status := by
        rw [← hb]
        rfl
      rw [hstored] at hd
      rw [hsame] at hs
      exact ⟨hdoc.mp hd, hstatus.mp hs⟩
  · intro hl
    rw [hdoc.mpr hl.eids, hstatus.mpr hl.status]
    rfl

end Bundle

/-! ## Tables -/

namespace Db

def Tidy (db : Db) : Prop :=
  ∀ r ∈ db.bundles.rows, r.data.isLive = true ∨ r.data.status = .null

section

variable {db : Db} {b : Bundle} {r : BundleRow} {status : BundleStatus}

omit [Crates] [DebugText] in
theorem Tidy.isLive (h : db.Tidy) (hr : r ∈ db.bundles.rows) {code : Int}
    (hcode : r.data.status.code = some code) : r.data.isLive = true := by
  rcases h r hr with hl | hnull
  · exact hl
  · rw [hnull] at hcode
    cases hcode

omit [Crates] [DebugText] in
theorem Tidy.update (h : db.Tidy) {p : BundleRow → Bool} {f : Columns → Columns}
    (hf : ∀ r ∈ db.bundles.rows, p r = true →
      (f r.data).isLive = true ∨ (f r.data).status = .null) :
    (db.set (db.bundles.update p f)).Tidy := by
  intro r' hr'
  obtain ⟨r, hr, rfl⟩ := Table.mem_update.mp hr'
  split
  · next hp => exact hf r hr hp
  · exact h r hr

theorem Tidy.write (h : db.Tidy) (w : Write) : (db.write w).Tidy := by
  have hcode : ∀ r ∈ db.bundles.rows, ∀ id expected, hasStatus id expected r = true →
      r.data.isLive = true := by
    intro r hr id expected hp
    obtain ⟨code, hcode⟩ := code_fromStatus expected
    rw [hasStatus, Bool.and_eq_true, decide_eq_true_eq] at hp
    exact h.isLive hr (hp.1 ▸ hcode)
  have hsome : ∀ r ∈ db.bundles.rows, ∀ (code : Int) (q : Bool),
      (r.data.status.code = some code && q) = true → r.data.isLive = true := by
    intro r hr code q hp
    rw [Bool.and_eq_true, decide_eq_true_eq] at hp
    exact h.isLive hr hp.1
  cases w with
  | insert b =>
    cases hrow : db.bundles.row b.id.doc with
    | some r =>
      rw [Db.write, insert, Table.insertOrIgnore_of_some hrow]
      exact h
    | none =>
      rw [Db.write, insert, Table.insertOrIgnore_of_none hrow]
      intro r hr
      rcases List.mem_cons.mp hr with rfl | hr
      · exact .inl rfl
      · exact h r hr
  | replace b => exact h.update fun _ _ _ => .inl rfl
  | swapStatus id expected status => exact h.update fun r hr hp => .inl (hcode r hr id expected hp)
  | tombstone id => exact h.update fun _ _ _ => .inr rfl
  | tombstoneIf id expected => exact h.update fun _ _ _ => .inr rfl
  | resetPeerQueue peer => exact h.update fun r hr hp => .inl (hsome r hr _ _ hp)
  | resetPeerAckPending peer => exact h.update fun r hr hp => .inl (hsome r hr _ _ hp)
  | resetServiceQueue service => exact h.update fun r hr hp => .inl (hsome r hr _ _ hp)

def written (ws : List Write) : Db := ws.foldl write .empty

theorem written_invariant (ws : List Write) :
    (written ws).Tidy ∧ (written ws).waitingQueue = [] := by
  have hrun : ∀ (ws : List Write) (db : Db), db.Tidy → db.waitingQueue = [] →
      (ws.foldl write db).Tidy ∧ (ws.foldl write db).waitingQueue = [] := by
    intro ws
    induction ws with
    | nil => exact fun db htidy hqueue => ⟨htidy, hqueue⟩
    | cons w ws ih =>
      exact fun db htidy hqueue =>
        ih _ (htidy.write w) ((write_waitingQueue db w).trans hqueue)
  exact hrun ws .empty (fun _ hr => by cases hr) rfl

omit [Crates] [DebugText] in
theorem Tidy.quiet (h : db.Tidy) (hqueue : db.waitingQueue = []) : WaitingPoll.Quiet db where
  queue := hqueue
  live _ hr hcode := h.isLive hr hcode

/-! ## One record -/

theorem mem_sent {rows : List BundleRow} {st : BundleRow → Option BundleStatus} (hr : r ∈ rows)
    (hdata : r.data = b.columns) (hread : b.stored.doc.read = some b.stored)
    (hst : st r = some b.status) : b ∈ sent st rows := by
  refine List.mem_filterMap.mpr ⟨r, hr, ?_⟩
  have hbundle : r.data.bundle = some b.stored.doc := by
    rw [hdata]
    rfl
  rw [hbundle, hst]
  simp only [Option.bind_some, hread]
  rfl

def PollOf (db : Db) (status : BundleStatus) (out : List Bundle) : Prop :=
  match status with
  | .waiting => ∃ db', WaitingPoll.PollWaiting db out db'
  | .waitingForService e => db.PollServiceWaiting e out
  | .aduFragment _ _ => db.PollAduFragments status out
  | status => ∃ limit, db.bundles.rows.length ≤ limit ∧ db.PollPending status limit out

/-- The record is read back as it was stored, by its id and by a poll. -/
structure ReadsBack (db : Db) (b : Bundle) : Prop where
  inserted : (db.insert b).1 = true
  get : (db.insert b).2.get b.id = .ok (some b)
  confirmed : ((db.insert b).2.confirmExists b.id).1 = .ok (some (b.metadata, b.status))
  polled : ∀ out, (db.insert b).2.PollOf b.status out → b ∈ out

/-- The record reads back after any writes that leave its row free. -/
def Survives (b : Bundle) : Prop :=
  ∀ ws, (written ws).bundles.row b.id.doc = none → (written ws).ReadsBack b

theorem live_insert (h : db.bundles.row b.id.doc = none) :
    (db.insert b).2.live b.id = some (b.columns, b.stored.doc) := by
  rw [live, insert, Table.insertOrIgnore_of_none h]
  change (((db.bundles.add _ _ h).row _).bind _) = _
  rw [Table.row_add, if_pos rfl]
  rfl

theorem get_insert (h : db.bundles.row b.id.doc = none) :
    (db.insert b).2.get b.id = unpack b.columns b.stored.doc := by
  rw [get, live_insert h]

theorem legible_of_survives (hb : b.Decoded) (h : Survives b) : b.Legible := by
  have hget := (h [] rfl).get
  rw [get_insert rfl] at hget
  exact (Bundle.unpack_columns hb).mp hget

theorem confirmExists_insert (hb : b.Decoded) (hl : b.Legible)
    (h : db.bundles.row b.id.doc = none) :
    ((db.insert b).2.confirmExists b.id).1 = .ok (some (b.metadata, b.status)) := by
  obtain ⟨code, hcode⟩ := code_fromStatus b.status
  have hstatus := (readStatus_fromStatus hb.status).mpr hl.status
  rw [readStatus, hcode, Option.bind_some] at hstatus
  rw [confirmExists, live_insert h]
  simp only [Bundle.columns, hcode, (Bundle.read_doc hb.eids).mpr hl.eids, hstatus]
  rfl

theorem isQueued_columns (hb : b.Decoded) (hl : b.Legible) (hdata : r.data = b.columns) :
    isQueued b.status r = true ∧ queuedStatus b.status r = some b.status := by
  have hstatus := (readStatus_fromStatus hb.status).mpr hl.status
  cases hs : b.status with
  | forwardPending peer queue e =>
    rw [hs] at hstatus
    simp only [isQueued, queuedStatus, hdata, Bundle.columns, hs, fromStatus, Columns.isLive]
    exact ⟨by simp, hstatus⟩
  | _ => simp [isQueued, queuedStatus, isAt, hdata, Bundle.columns, hs, Columns.isLive]

theorem mem_of_pollOf (hb : b.Decoded) (hl : b.Legible) (htidy : db.Tidy)
    (hqueue : db.waitingQueue = []) (hr : r ∈ db.bundles.rows) (hdata : r.data = b.columns)
    {out : List Bundle} (hpoll : db.PollOf b.status out) : b ∈ out := by
  have hread := (Bundle.read_doc hb.eids).mpr hl.eids
  have hpending : ∀ limit, db.bundles.rows.length ≤ limit → db.PollPending b.status limit out →
      b ∈ out := by
    rintro limit hlimit ⟨rows, rest, hrows, rfl⟩
    obtain ⟨hqueued, hstatus⟩ := isQueued_columns hb hl hdata
    have hperm := hrows.perm
    rw [hrows.rest_eq_nil (Nat.le_trans (List.length_filter_le _ _) hlimit), List.append_nil] at hperm
    exact mem_sent (hperm.subset (List.mem_filter.mpr ⟨hr, hqueued⟩)) hdata hread hstatus
  cases hs : b.status with
  | waiting =>
    rw [hs] at hpoll
    obtain ⟨db', hpoll⟩ := hpoll
    refine (hpoll.sent (htidy.quiet hqueue)).1.symm.subset ?_
    refine mem_sent (List.mem_filter.mpr ⟨hr, ?_⟩) hdata hread (by rw [hs])
    simp [WaitingPoll.waiting, hdata, Bundle.columns, hs, Columns.isLive, fromStatus,
      StatusColumns.plain]
  | waitingForService e =>
    rw [hs] at hpoll
    obtain ⟨rows, hrows, rfl⟩ := hpoll
    refine mem_sent (hrows.perm.subset (List.mem_filter.mpr ⟨hr, ?_⟩)) hdata hread (by rw [hs])
    simp [hdata, Bundle.columns, hs, Columns.isLive, fromStatus, StatusColumns.service]
  | aduFragment e t =>
    rw [hs] at hpoll
    obtain ⟨rows, hrows, rfl⟩ := hpoll
    refine mem_sent (hrows.perm.subset (List.mem_filter.mpr ⟨hr, ?_⟩)) hdata hread (by rw [hs])
    simp [isAt, hdata, Bundle.columns, hs, Columns.isLive]
  | _ =>
    rw [hs] at hpoll hpending
    obtain ⟨limit, hlimit, hpoll⟩ := hpoll
    exact hpending limit hlimit hpoll

theorem readsBack_of_legible (hb : b.Decoded) (hl : b.Legible) (htidy : db.Tidy)
    (hqueue : db.waitingQueue = []) (hnone : db.bundles.row b.id.doc = none) : db.ReadsBack b where
  inserted := by
    rw [insert, Table.insertOrIgnore_of_none hnone]
  get := by
    rw [get_insert hnone]
    exact (Bundle.unpack_columns hb).mpr hl
  confirmed := confirmExists_insert hb hl hnone
  polled out hpoll := by
    have hrow : ⟨db.bundles.fresh, b.id.doc, b.columns⟩ ∈ (db.insert b).2.bundles.rows := by
      rw [insert, Table.insertOrIgnore_of_none hnone]
      exact List.mem_cons_self
    exact mem_of_pollOf hb hl (htidy.write (.insert b))
      ((write_waitingQueue db (.insert b)).trans hqueue) hrow rfl hpoll

end

/-- Two records are read back as they were stored, under a key each, iff both are
legible. -/
theorem survive_iff (b b' : Bundle) (h : b.Decoded) (h' : b'.Decoded) :
    (Survives b ∧ Survives b' ∧ (b.id ≠ b'.id → b.id.doc ≠ b'.id.doc)) ↔
      b.Legible ∧ b'.Legible := by
  constructor
  · rintro ⟨hs, hs', -⟩
    exact ⟨legible_of_survives h hs, legible_of_survives h' hs'⟩
  · rintro ⟨hl, hl'⟩
    refine ⟨fun ws hnone => ?_, fun ws hnone => ?_, fun hne heq => hne ?_⟩
    · obtain ⟨htidy, hqueue⟩ := written_invariant ws
      exact readsBack_of_legible h hl htidy hqueue hnone
    · obtain ⟨htidy, hqueue⟩ := written_invariant ws
      exact readsBack_of_legible h' hl' htidy hqueue hnone
    · exact Id.doc_inj h.eids.source h'.eids.source hl.eids.source hl'.eids.source heq

end Db

end Hardy.Storage

/-! ## Two records of one node -/

namespace Hardy.Storage.Db

local instance : Crates := .reference

local instance : DebugText := .plain

def legacy : Bundle := .plain (.legacyIpn ⟨1, 1⟩ 1) .waiting

def current : Bundle := .plain (.ipn ⟨1, 1⟩ 1) .waiting

theorem decoded_plain {e : Eid} (h : e.WellFormed) : (Bundle.plain e .waiting).Decoded := by
  refine ⟨⟨h, ?_, trivial, fun _ he => ?_, fun _ hn => ?_⟩, trivial⟩
  · exact (show (Eid.ipn ⟨0, 2⟩ 1).WellFormed by simp [Eid.WellFormed, Eid.u32Max])
  · cases he
  · cases hn

theorem legible_plain (service : Nat) : (Bundle.plain (.ipn ⟨1, 1⟩ service) .waiting).Legible :=
  ⟨⟨trivial, trivial, trivial, nofun, nofun⟩, nofun⟩

theorem neighbours_survive : Survives current ∧ Survives (.plain (.ipn ⟨1, 1⟩ 2) .waiting) ∧
    (current.id ≠ (Bundle.plain (.ipn ⟨1, 1⟩ 2) .waiting).id →
      current.id.doc ≠ (Bundle.plain (.ipn ⟨1, 1⟩ 2) .waiting).id.doc) := by
  have hdecoded : ∀ service ∈ [1, 2], (Bundle.plain (.ipn ⟨1, 1⟩ service) .waiting).Decoded :=
    fun service hs => decoded_plain (by simp_all [Eid.WellFormed, Eid.u32Max]; omega)
  exact (survive_iff _ _ (hdecoded 1 (by decide)) (hdecoded 2 (by decide))).mpr
    ⟨legible_plain 1, legible_plain 2⟩

/-- The ids of the two records have one key, and the first is not read back. -/
theorem legacy_not_survives : ¬ ∀ b b' : Bundle, b.Decoded → b'.Decoded →
    Survives b ∧ Survives b' ∧ (b.id ≠ b'.id → b.id.doc ≠ b'.id.doc) := by
  intro h
  have hlegacy : legacy.Decoded := decoded_plain (by simp [Eid.WellFormed, Eid.u32Max])
  have hcurrent : current.Decoded := decoded_plain (by simp [Eid.WellFormed, Eid.u32Max])
  obtain ⟨-, -, hkeys⟩ := h legacy current hlegacy hcurrent
  exact hkeys (fun heq => by cases congrArg Id.source heq) rfl

end Hardy.Storage.Db
