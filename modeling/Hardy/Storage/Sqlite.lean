import Hardy.Storage.Document
import Hardy.Table

/-!
# The metadata store in SQLite

Model of `sqlite-storage/src/storage.rs` over the tables of its schema.  A status is
spread over four columns (`fromStatus`, `toStatus`); a deleted bundle keeps its row
with these columns and the record nulled.  A select that asks for an order has any
result in that order, and every consumer takes what is sent.
-/

namespace Hardy.Storage

open Cbor
open Bpa (BundleStatus)

variable [Crates] [DebugText]

/-! ## Statuses -/

/-- `status_code` and `status_param1` to `status_param3`. -/
structure StatusColumns where
  code : Option Int
  param1 : Option Int
  param2 : Option Int
  param3 : Option Bytes
deriving DecidableEq

namespace StatusColumns

def null : StatusColumns := ⟨none, none, none, none⟩

def plain (code : Int) : StatusColumns := ⟨some code, none, none, none⟩

def service (code : Int) (e : Eid) : StatusColumns := ⟨some code, none, none, some e.display⟩

end StatusColumns

def asI64 (v : Nat) : Int := if v < 2 ^ 63 then v else v - 2 ^ 64

def asU64 (v : Int) : Nat := (v % 2 ^ 64).toNat

def tryU32 (v : Int) : Option Nat := if 0 ≤ v ∧ v ≤ Eid.u32Max then some v.toNat else none

def fromStatus : BundleStatus → StatusColumns
  | .new => .plain 0
  | .waiting => .plain 1
  | .forwardPending peer queue nextHop => ⟨some 2, some peer, some queue, some nextHop.display⟩
  | .aduFragment source timestamp =>
    ⟨some 3, some (timestamp.creationTime.elim 0 asI64), some (asI64 timestamp.sequenceNumber),
      some source.display⟩
  | .dispatching => .plain 4
  | .waitingForService e => .service 5 e
  | .forwardAckPending peer => ⟨some 6, some peer, none, none⟩
  | .dispatchPending => .plain 7
  | .deliverPending e => .service 8 e
  | .deliveryAckPending e => .service 9 e

def parseParam (param3 : Option Bytes) : Option Eid := param3.bind Eid.fromStr

def toStatus (code : Int) (param1 param2 : Option Int) (param3 : Option Bytes) :
    Option BundleStatus :=
  if code = 0 then some .new
  else if code = 1 then some .waiting
  else if code = 2 then do
    let peer ← param1.bind tryU32
    let queue ← param2.bind tryU32
    let nextHop ← parseParam param3
    some (.forwardPending peer queue nextHop)
  else if code = 3 then do
    let source ← parseParam param3
    let creationTime := (param1.filter (· ≠ 0)).map asU64
    let sequenceNumber ← param2.map asU64
    some (.aduFragment source ⟨creationTime, sequenceNumber⟩)
  else if code = 4 then some .dispatching
  else if code = 5 then (parseParam param3).map .waitingForService
  else if code = 6 then (param1.bind tryU32).map .forwardAckPending
  else if code = 7 then some .dispatchPending
  else if code = 8 then (parseParam param3).map .deliverPending
  else if code = 9 then (parseParam param3).map .deliveryAckPending
  else none

/-! ## The tables -/

/-- A row of `bundles`, after its row id and its key. -/
structure Columns where
  expiry : Int
  receivedAt : Int
  status : StatusColumns
  bundle : Option Doc

namespace Columns

/-- `bundle IS NOT NULL` -/
def isLive (c : Columns) : Bool := c.bundle.isSome

def withStatus (status : StatusColumns) (c : Columns) : Columns := { c with status }

/-- `SET bundle = NULL, status_code = NULL, ..` -/
def tombstoned (c : Columns) : Columns := { c with bundle := none, status := .null }

end Columns

def Bundle.columns (b : Bundle) : Columns :=
  ⟨b.expiry, b.metadata.receivedAt, fromStatus b.status, some b.stored.doc⟩

abbrev BundleRow := Row IdDoc Columns

structure Db where
  bundles : Table IdDoc Columns
  unconfirmed : List Nat
  waitingQueue : List (Nat × Int)
  unconfirmed_nodup : unconfirmed.Nodup
  waiting_nodup : (waitingQueue.map Prod.fst).Nodup

namespace Db

def empty : Db := ⟨.empty, [], [], List.nodup_nil, List.nodup_nil⟩

/-- What a query can fail with. -/
inductive Error where
  | column
  | json
deriving DecidableEq

def set (db : Db) (bundles : Table IdDoc Columns) : Db := { db with bundles }

/-! ## Single records -/

/-- A live row, as `get` and `confirm_exists` read it: the columns first, then the
document, then the status. -/
def unpack (c : Columns) (d : Doc) : Except Error (Option Bundle) :=
  match c.status.code with
  | none => .error .column
  | some code =>
    match d.read with
    | none => .error .json
    | some stored =>
      .ok ((toStatus code c.status.param1 c.status.param2 c.status.param3).map
        stored.intoBundle)

def live (db : Db) (id : Id) : Option (Columns × Doc) :=
  (db.bundles.row id.doc).bind fun r => r.data.bundle.map (r.data, ·)

def get (db : Db) (id : Id) : Except Error (Option Bundle) :=
  match db.live id with
  | some (c, d) => unpack c d
  | none => .ok none

def insert (db : Db) (bundle : Bundle) : Bool × Db :=
  let r := db.bundles.insertOrIgnore bundle.id.doc bundle.columns
  (r.1, db.set r.2)

def replace (db : Db) (bundle : Bundle) : Db :=
  db.set <| db.bundles.update (fun r => r.data.isLive && r.key = bundle.id.doc)
    fun _ => bundle.columns

def hasStatus (id : Id) (expected : BundleStatus) (r : BundleRow) : Bool :=
  r.data.status = fromStatus expected && r.key = id.doc

def swapStatus (db : Db) (id : Id) (expected status : BundleStatus) : Bool × Db :=
  (db.bundles.matched (hasStatus id expected) = 1,
    db.set <| db.bundles.update (hasStatus id expected) (.withStatus (fromStatus status)))

def tombstoneIf (db : Db) (id : Id) (expected : BundleStatus) : Bool × Db :=
  (db.bundles.matched (hasStatus id expected) = 1,
    db.set <| db.bundles.update (hasStatus id expected) .tombstoned)

def tombstone (db : Db) (id : Id) : Db :=
  db.set <| db.bundles.update (fun r => r.key = id.doc) .tombstoned

/-! ## Sweeps -/

def resetPeerQueue (db : Db) (peer : Nat) : Nat × Db :=
  let p : BundleRow → Bool := fun r =>
    r.data.status.code = some 2 && r.data.status.param1 = some (peer : Int)
  (db.bundles.matched p, db.set <| db.bundles.update p (.withStatus (fromStatus .waiting)))

/-- `param2` and `param3` stay as they are. -/
def resetPeerAckPending (db : Db) (peer : Nat) : Nat × Db :=
  let p : BundleRow → Bool := fun r =>
    r.data.status.code = some 6 && r.data.status.param1 = some (peer : Int)
  (db.bundles.matched p, db.set <| db.bundles.update p fun c =>
    c.withStatus { c.status with code := some 1, param1 := none })

def resetServiceQueue (db : Db) (service : Eid) : Nat × Db :=
  let p : BundleRow → Bool := fun r =>
    r.data.status.code = some 8 && r.data.status.param3 = some service.display
  (db.bundles.matched p, db.set <| db.bundles.update p fun c =>
    c.withStatus { c.status with code := some 5 })

/-! ## Writes -/

end Db

inductive Write where
  | insert (bundle : Bundle)
  | replace (bundle : Bundle)
  | swapStatus (id : Id) (expected status : BundleStatus)
  | tombstone (id : Id)
  | tombstoneIf (id : Id) (expected : BundleStatus)
  | resetPeerQueue (peer : Nat)
  | resetPeerAckPending (peer : Nat)
  | resetServiceQueue (service : Eid)

namespace Db

def write (db : Db) : Write → Db
  | .insert bundle => (db.insert bundle).2
  | .replace bundle => db.replace bundle
  | .swapStatus id expected status => (db.swapStatus id expected status).2
  | .tombstone id => db.tombstone id
  | .tombstoneIf id expected => (db.tombstoneIf id expected).2
  | .resetPeerQueue peer => (db.resetPeerQueue peer).2
  | .resetPeerAckPending peer => (db.resetPeerAckPending peer).2
  | .resetServiceQueue service => (db.resetServiceQueue service).2

theorem write_waitingQueue (db : Db) (w : Write) :
    (db.write w).waitingQueue = db.waitingQueue := by
  cases w <;> rfl

/-! ## Polls -/

def received (r : BundleRow) : Int := r.data.receivedAt

def sent (status : BundleRow → Option BundleStatus) (rows : List BundleRow) : List Bundle :=
  rows.filterMap fun r => do
    let stored ← r.data.bundle.bind Doc.read
    let status ← status r
    some (stored.intoBundle status)

def isAt (status : StatusColumns) (r : BundleRow) : Bool := r.data.isLive && r.data.status = status

def PollServiceWaiting (db : Db) (source : Eid) (out : List Bundle) : Prop :=
  ∃ rows, Sorts received (db.bundles.select fun r => r.data.isLive &&
      (r.data.status.code = some 5 && r.data.status.param3 = some source.display)) rows ∧
    out = sent (fun _ => some (.waitingForService source)) rows

def PollAduFragments (db : Db) (status : BundleStatus) (out : List Bundle) : Prop :=
  ∃ rows, Sorts received (db.bundles.select (isAt (fromStatus status))) rows ∧
    out = sent (fun _ => some status) rows

/-- The rows of the queue, whatever the next hop of an assignment. -/
def isQueued (status : BundleStatus) (r : BundleRow) : Bool :=
  match status with
  | .forwardPending peer queue _ => r.data.isLive && (r.data.status.code = some 2 &&
      (r.data.status.param1 = some (peer : Int) && r.data.status.param2 = some (queue : Int)))
  | status => isAt (fromStatus status) r

def queuedStatus (status : BundleStatus) (r : BundleRow) : Option BundleStatus :=
  match status with
  | .forwardPending peer queue _ => toStatus 2 (some peer) (some queue) r.data.status.param3
  | status => some status

def PollPending (db : Db) (status : BundleStatus) (limit : Nat) (out : List Bundle) : Prop :=
  ∃ rows rest, Oldest received limit (db.bundles.select (isQueued status)) rows rest ∧
    out = sent (queuedStatus status) rows

/-- The cursor `(expiry, rowid) > (?1, ?2)`; at the start every row is behind it. -/
def behind : Option (Int × Nat) → BundleRow → Bool
  | none, _ => true
  | some (expiry, id), r => expiry < r.data.expiry || (expiry = r.data.expiry && id < r.id)

/-- `ORDER BY expiry ASC, rowid ASC` -/
def expiresBefore (r r' : BundleRow) : Prop :=
  r.data.expiry < r'.data.expiry ∨ (r.data.expiry = r'.data.expiry ∧ r.id ≤ r'.id)

instance : DecidableRel expiresBefore := fun _ _ => inferInstanceAs (Decidable (_ ∨ _))

/-- `status_code != 0`, which a `NULL` code is not. -/
def expirable (r : BundleRow) : Bool :=
  r.data.isLive && (r.data.status.code.isSome && r.data.status.code ≠ some 0)

def expiryPage (db : Db) (cursor : Option (Int × Nat)) : List BundleRow :=
  ((db.bundles.select fun r => expirable r && behind cursor r).insertionSort expiresBefore).take 64

def expiryPages (db : Db) : Nat → Option (Int × Nat) → List BundleRow
  | 0, _ => []
  | fuel + 1, cursor =>
    let page := db.expiryPage cursor
    if page.length = 64 then
      page ++ db.expiryPages fuel (page.getLast?.map fun r => (r.data.expiry, r.id))
    else page

def statusOf (r : BundleRow) : Option BundleStatus :=
  r.data.status.code.bind fun code =>
    toStatus code r.data.status.param1 r.data.status.param2 r.data.status.param3

/-- Every page but the last has a row of its own, so there are no more pages than
rows. -/
def pollExpiry (db : Db) : List Bundle :=
  sent statusOf (db.expiryPages (db.bundles.rows.length + 1) none)

end Db

end Hardy.Storage
