import Hardy.Storage.Sqlite
import Mathlib.Logic.Relation

/-!
# Recovery of the SQLite store

`start_recovery` notes the row of every record, `confirm_exists` strikes one off and
`remove_unconfirmed` turns what is left into tombstones, page by page.  The update of
a page asks for the records that it removes, and `RETURNING` yields the columns after
the update: a page with a live record has a `NULL` where a record is read, and its
transaction is rolled back (`removePage_live`).  A page without one returns nothing,
which is taken for the end of the table.
-/

namespace Hardy.Storage

open Cbor
open Bpa (BundleStatus)

variable [Crates] [DebugText]

namespace Db

def liveIds (db : Db) : List Nat := (db.bundles.select fun r => r.data.isLive).map Row.id

omit [Crates] [DebugText] in
theorem liveIds_nodup (db : Db) : db.liveIds.Nodup :=
  db.bundles.ids_nodup.sublist (List.filter_sublist.map _)

def startRecovery (db : Db) : Db where
  bundles := db.bundles
  unconfirmed := db.unconfirmed ++ db.liveIds.filter fun i => !db.unconfirmed.contains i
  waitingQueue := db.waitingQueue
  unconfirmed_nodup := by
    refine List.nodup_append.mpr ⟨db.unconfirmed_nodup, db.liveIds_nodup.filter _, ?_⟩
    rintro i hi j hj rfl
    have hnot := (List.mem_filter.mp hj).2
    rw [List.contains_iff_mem.mpr hi] at hnot
    cases hnot
  waiting_nodup := db.waiting_nodup

/-- `DELETE FROM unconfirmed_bundles WHERE id = ..` -/
def strike (db : Db) (id : Id) : Db where
  bundles := db.bundles
  unconfirmed := db.unconfirmed.filter fun i => (db.bundles.row id.doc).all fun r => r.id ≠ i
  waitingQueue := db.waitingQueue
  unconfirmed_nodup := db.unconfirmed_nodup.filter _
  waiting_nodup := db.waiting_nodup

/-- `confirm_exists`: a record that cannot be read back is made a tombstone. -/
def confirmExists (db : Db) (id : Id) :
    Except Error (Option (BundleMetadata × BundleStatus)) × Db :=
  match db.live id with
  | none => (.ok none, db.strike id)
  | some (c, d) =>
    match c.status.code with
    | none => (.error .column, db.strike id)
    | some code =>
      match d.read, toStatus code c.status.param1 c.status.param2 c.status.param3 with
      | some stored, some status => (.ok (some (stored.metadata, status)), db.strike id)
      | _, _ => (.ok none, (db.strike id).tombstone id)

def onPage (page : List Nat) (r : BundleRow) : Bool := page.contains r.id && r.data.isLive

/-- A transaction of `remove_unconfirmed`, with the page that it takes from the table
and what it leaves there. -/
def removePage (db : Db) (page rest : List Nat) (hrest : rest.Nodup) :
    Except Error (List Doc × Db) :=
  if page.isEmpty then .ok ([], db)
  else
    let returned := (db.bundles.select (onPage page)).map fun r => r.data.tombstoned.bundle
    match returned.mapM id with
    | none => .error .column
    | some docs => .ok (docs,
        { db with
          bundles := db.bundles.update (onPage page) .tombstoned
          unconfirmed := rest
          unconfirmed_nodup := hrest })

def orphans (docs : List Doc) : List Bundle :=
  docs.filterMap fun d => d.read.map (·.intoBundle .new)

/-- `remove_unconfirmed`: what is sent, the result and the tables after it.  Other
writes come between two pages. -/
inductive RemoveUnconfirmed (between : Db → Db → Prop) :
    Db → List Bundle → Except Error Unit → Db → Prop where
  | failed {db : Db} {page rest : List Nat} {hrest : rest.Nodup} {x : Error} :
      Picks 64 db.unconfirmed page rest → db.removePage page rest hrest = .error x →
      RemoveUnconfirmed between db [] (.error x) db
  | done {db db' : Db} {page rest : List Nat} {hrest : rest.Nodup} :
      Picks 64 db.unconfirmed page rest → db.removePage page rest hrest = .ok ([], db') →
      RemoveUnconfirmed between db [] (.ok ()) db'
  | more {db db' db₁ db₂ : Db} {page rest : List Nat} {hrest : rest.Nodup} {d : Doc}
      {docs : List Doc} {out : List Bundle} {r : Except Error Unit} :
      Picks 64 db.unconfirmed page rest → db.removePage page rest hrest = .ok (d :: docs, db') →
      between db' db₁ → RemoveUnconfirmed between db₁ out r db₂ →
      RemoveUnconfirmed between db (orphans (d :: docs) ++ out) r db₂

/-! ## One transaction -/

section

variable {db db' : Db} {page rest : List Nat} {hrest : rest.Nodup} {docs : List Doc}

section

omit [Crates] [DebugText]

theorem removePage_eq (hpage : page ≠ []) : db.removePage page rest hrest =
    match (db.bundles.select (onPage page)).map fun r => r.data.tombstoned.bundle with
    | [] => .ok ([],
        { db with
          bundles := db.bundles.update (onPage page) .tombstoned
          unconfirmed := rest
          unconfirmed_nodup := hrest })
    | _ :: _ => .error .column := by
  have hempty : ¬ page.isEmpty = true := fun h => hpage (List.isEmpty_iff.mp h)
  rw [removePage, if_neg hempty]
  cases db.bundles.select (onPage page) with
  | nil => rfl
  | cons r rows => rfl

theorem removePage_live (hrest : rest.Nodup) {r : BundleRow} (hr : r ∈ db.bundles.rows)
    (hpage : onPage page r = true) :
    db.removePage page rest hrest = .error .column := by
  have hmem : r ∈ db.bundles.select (onPage page) := List.mem_filter.mpr ⟨hr, hpage⟩
  have hne : page ≠ [] := by
    rintro rfl
    cases hpage
  rw [removePage_eq hne]
  cases hrows : db.bundles.select (onPage page) with
  | nil =>
    rw [hrows] at hmem
    cases hmem
  | cons r rows => rfl

theorem removePage_dead (hrest : rest.Nodup) (hpage : page ≠ [])
    (h : ∀ r ∈ db.bundles.rows, onPage page r = false) :
    ∃ db', db.removePage page rest hrest = .ok ([], db') ∧ db'.bundles = db.bundles ∧
      db'.unconfirmed = rest := by
  have hnone : db.bundles.select (onPage page) = [] := by
    refine List.filter_eq_nil_iff.mpr fun r hr => ?_
    rw [h r hr]
    exact Bool.false_ne_true
  have heq : db.removePage page rest hrest = _ := removePage_eq hpage
  rw [hnone] at heq
  exact ⟨_, heq, Table.update_of_none h, rfl⟩

theorem removePage_ok (h : db.removePage page rest hrest = .ok (docs, db')) : docs = [] := by
  cases page with
  | nil =>
    cases h
    rfl
  | cons i page =>
    rw [removePage_eq (List.cons_ne_nil _ _)] at h
    split at h
    · cases h
      rfl
    · cases h

end

end

end Db

/-! ## Runs -/

/-- What other parties do between the start of the recovery and its end. -/
inductive RecoveryStep where
  | confirm (id : Id)
  | tombstone (id : Id)
  | tombstoneIf (id : Id) (expected : BundleStatus)

namespace Db

def recoveryStep (db : Db) : RecoveryStep → Db
  | .confirm id => (db.confirmExists id).2
  | .tombstone id => db.tombstone id
  | .tombstoneIf id expected => (db.tombstoneIf id expected).2

def Meanwhile : Db → Db → Prop := Relation.ReflTransGen fun db db' => ∃ step, db' = db.recoveryStep step

def recovering (db : Db) (steps : List RecoveryStep) : Db :=
  steps.foldl recoveryStep db.startRecovery

def confirmed (steps : List RecoveryStep) : List Id :=
  steps.filterMap fun
    | .confirm id => some id
    | _ => none

def isDoomed (start : Db) (confirmed : List Id) (r : BundleRow) : Bool :=
  r.data.isLive && (start.bundles.rows.any (fun r₀ => r₀.id = r.id && r₀.data.isLive) &&
    confirmed.all fun id => r.key ≠ id.doc)

/-- The removal succeeds, makes tombstones of the rows and of no other, sends each
record once and leaves nothing to confirm. -/
structure Removes (doomed : BundleRow → Bool) (db : Db) (out : List Bundle)
    (r : Except Error Unit) (db' : Db) : Prop where
  succeeds : r = .ok ()
  rows : ∀ row ∈ db.bundles.rows, ∀ row' ∈ db'.bundles.rows, row'.id = row.id →
    row'.data = if doomed row then row.data.tombstoned else row.data
  sent : out.Perm (sent (fun _ => some .new) (db.bundles.select doomed))
  unconfirmed : db'.unconfirmed = []

/-- The rows of `t'` are those of `t`, some of them as tombstones. -/
def Fades (t t' : Table IdDoc Columns) : Prop :=
  ∀ r' ∈ t'.rows, ∃ r ∈ t.rows, r.id = r'.id ∧ r.key = r'.key ∧
    (r'.data = r.data ∨ r'.data = r.data.tombstoned)

namespace Fades

variable {t t' t'' : Table IdDoc Columns}

section

omit [Crates] [DebugText]

theorem refl (t : Table IdDoc Columns) : Fades t t := fun r hr => ⟨r, hr, rfl, rfl, .inl rfl⟩

theorem trans (h : Fades t t') (h' : Fades t' t'') : Fades t t'' := by
  intro r'' hr''
  obtain ⟨r', hr', hid', hkey', hdata'⟩ := h' r'' hr''
  obtain ⟨r, hr, hid, hkey, hdata⟩ := h r' hr'
  refine ⟨r, hr, hid.trans hid', hkey.trans hkey', ?_⟩
  rcases hdata' with hdata' | hdata'
  · rw [hdata']
    exact hdata
  · right
    rw [hdata']
    rcases hdata with hdata | hdata
    · rw [hdata]
    · rw [hdata]
      rfl

theorem update (t : Table IdDoc Columns) (p : BundleRow → Bool) : Fades t (t.update p .tombstoned) := by
  intro r' hr'
  obtain ⟨r, hr, rfl⟩ := Table.mem_update.mp hr'
  refine ⟨r, hr, ?_⟩
  split
  · exact ⟨rfl, rfl, .inr rfl⟩
  · exact ⟨rfl, rfl, .inl rfl⟩

theorem isLive (h : Fades t t') {r' : BundleRow} (hr' : r' ∈ t'.rows)
    (hl : r'.data.isLive = true) : ∃ r ∈ t.rows, r.id = r'.id ∧ r.data.isLive = true := by
  obtain ⟨r, hr, hid, -, hdata⟩ := h r' hr'
  rcases hdata with hdata | hdata
  · exact ⟨r, hr, hid, hdata ▸ hl⟩
  · rw [hdata] at hl
    cases hl

end

end Fades

def wasLive (start : Db) (r : BundleRow) : Bool :=
  start.bundles.rows.any fun r₀ => r₀.id = r.id && r₀.data.isLive

structure Underway (start : Db) (confirmed : List Id) (db : Db) : Prop where
  fades : Fades start.bundles db.bundles
  noted : ∀ r ∈ db.bundles.rows, wasLive start r = true →
    (r.id ∈ db.unconfirmed ↔ ∀ id ∈ confirmed, r.key ≠ id.doc)

section

variable {start db : Db} {confirmed' : List Id}

theorem underway_startRecovery (db : Db) : Underway db [] db.startRecovery where
  fades := Fades.refl db.bundles
  noted r hr hlive := by
    refine iff_of_true ?_ nofun
    rw [wasLive, List.any_eq_true] at hlive
    obtain ⟨r₀, hr₀, heq⟩ := hlive
    rw [Bool.and_eq_true, decide_eq_true_eq] at heq
    have hmem : r.id ∈ db.liveIds :=
      List.mem_map.mpr ⟨r₀, List.mem_filter.mpr ⟨hr₀, heq.2⟩, heq.1⟩
    by_cases hin : r.id ∈ db.unconfirmed
    · exact List.mem_append_left _ hin
    · refine List.mem_append_right _ (List.mem_filter.mpr ⟨hmem, ?_⟩)
      simpa using hin

omit [Crates] in
omit [DebugText] in
theorem wasLive_congr {r r' : BundleRow} (h : r.id = r'.id) : wasLive start r = wasLive start r' := by
  rw [wasLive, wasLive, h]

theorem Underway.update (h : Underway start confirmed' db) (p : BundleRow → Bool) :
    Underway start confirmed' (db.set (db.bundles.update p .tombstoned)) where
  fades := h.fades.trans (.update db.bundles p)
  noted r' hr' hlive := by
    obtain ⟨r, hr, hid, hkey, -⟩ := Fades.update db.bundles p r' hr'
    rw [wasLive_congr hid.symm] at hlive
    rw [← hid, ← hkey]
    exact h.noted r hr hlive

theorem mem_strike {id : Id} {r : BundleRow} (hr : r ∈ db.bundles.rows) :
    r.id ∈ (db.strike id).unconfirmed ↔ r.id ∈ db.unconfirmed ∧ r.key ≠ id.doc := by
  rw [strike, List.mem_filter]
  refine and_congr_right fun _ => ?_
  cases hrow : db.bundles.row id.doc with
  | none => exact iff_of_true rfl (Table.row_eq_none.mp hrow r hr)
  | some r' =>
    obtain ⟨hr', hkey⟩ := Table.row_eq_some.mp hrow
    rw [Option.all_some, decide_eq_true_eq, not_iff_not]
    constructor
    · intro hid
      rw [← Table.eq_of_id hr' hr hid, hkey]
    · intro heq
      rw [Table.eq_of_key hr' hr (hkey.trans heq.symm)]

theorem Underway.strike (h : Underway start confirmed' db) (id : Id) :
    Underway start (confirmed' ++ [id]) (db.strike id) where
  fades := h.fades
  noted r hr hlive := by
    have hr : r ∈ db.bundles.rows := hr
    rw [mem_strike hr, h.noted r hr hlive]
    simp only [List.mem_append, List.mem_singleton]
    constructor
    · rintro ⟨hall, hne⟩ i (hi | rfl)
      · exact hall i hi
      · exact hne
    · intro hall
      exact ⟨fun i hi => hall i (.inl hi), hall id (.inr rfl)⟩

theorem Underway.step (h : Underway start confirmed' db) (step : RecoveryStep) :
    Underway start (confirmed' ++ confirmed [step]) (db.recoveryStep step) := by
  cases step with
  | confirm id =>
    have hstrike := h.strike id
    rw [recoveryStep, confirmExists]
    split
    · exact hstrike
    split
    · exact hstrike
    split
    · exact hstrike
    · exact hstrike.update _
  | tombstone id =>
    rw [show confirmed _ = [] from rfl, List.append_nil]
    exact h.update _
  | tombstoneIf id expected =>
    rw [show confirmed _ = [] from rfl, List.append_nil]
    exact h.update _

omit [Crates] [DebugText] in
theorem confirmed_cons (step : RecoveryStep) (steps : List RecoveryStep) :
    confirmed (step :: steps) = confirmed [step] ++ confirmed steps :=
  List.filterMap_append (l := [step])

theorem Underway.steps (h : Underway start confirmed' db) (steps : List RecoveryStep) :
    Underway start (confirmed' ++ confirmed steps) (steps.foldl recoveryStep db) := by
  induction steps generalizing db confirmed' with
  | nil =>
    rw [show confirmed [] = [] from rfl, List.append_nil]
    exact h
  | cons step steps ih =>
    rw [confirmed_cons, ← List.append_assoc]
    exact ih (h.step step)

theorem underway_recovering (db : Db) (steps : List RecoveryStep) :
    Underway db (confirmed steps) (db.recovering steps) :=
  (underway_startRecovery db).steps steps

theorem Underway.isDoomed_iff (h : Underway start confirmed' db) {r : BundleRow}
    (hr : r ∈ db.bundles.rows) :
    isDoomed start confirmed' r = true ↔ r.data.isLive = true ∧ r.id ∈ db.unconfirmed := by
  rw [isDoomed, Bool.and_eq_true, Bool.and_eq_true]
  refine and_congr_right fun hl => ?_
  have hwas : wasLive start r = true := by
    obtain ⟨r₀, hr₀, hid, hl₀⟩ := h.fades.isLive hr hl
    refine List.any_eq_true.mpr ⟨r₀, hr₀, ?_⟩
    rw [hl₀, hid]
    simp
  rw [h.noted r hr hwas, ← wasLive, hwas]
  simp

end

/-! ## When the removal is exact -/

section

variable {start db : Db} {S : List Id}

theorem Underway.removes (h : Underway start S db) (hlen : db.unconfirmed.length ≤ 64)
    (hnone : ∀ row ∈ db.bundles.rows, isDoomed start S row = false) {out : List Bundle}
    {r : Except Error Unit} {db' : Db} (hrun : RemoveUnconfirmed Meanwhile db out r db') :
    Removes (isDoomed start S) db out r db' := by
  have hdead : ∀ {page rest}, Picks 64 db.unconfirmed page rest →
      ∀ row ∈ db.bundles.rows, onPage page row = false := by
    intro page rest hpick row hrow
    cases hon : onPage page row with
    | false => rfl
    | true =>
      rw [onPage, Bool.and_eq_true, List.contains_iff_mem] at hon
      have hmem : row.id ∈ db.unconfirmed :=
        hpick.perm.symm.subset (List.mem_append_left _ hon.1)
      have := (h.isDoomed_iff hrow).mpr ⟨hon.2, hmem⟩
      rw [hnone row hrow] at this
      cases this
  have hsent : db.bundles.select (isDoomed start S) = [] :=
    List.filter_eq_nil_iff.mpr fun row hrow => by simp [hnone row hrow]
  -- what one page leaves, empty or not
  have hpage : ∀ {page rest hrest}, Picks 64 db.unconfirmed page rest →
      ∃ db', db.removePage page rest hrest = .ok ([], db') ∧ db'.bundles = db.bundles ∧
        db'.unconfirmed = [] := by
    intro page rest hrest hpick
    cases page with
    | nil => exact ⟨db, rfl, rfl, hpick.page_eq_nil (by decide) rfl⟩
    | cons i page =>
      obtain ⟨db', hdone, hbundles, hunconfirmed⟩ :=
        removePage_dead hrest (List.cons_ne_nil i page) (hdead hpick)
      exact ⟨db', hdone, hbundles, hunconfirmed.trans (hpick.rest_eq_nil hlen)⟩
  cases hrun with
  | failed hpick herr =>
    obtain ⟨db', hok, -⟩ := hpage hpick
    rw [hok] at herr
    cases herr
  | done hpick hok =>
    obtain ⟨_, hok', hbundles, hunconfirmed⟩ := hpage hpick
    rw [hok'] at hok
    cases hok
    refine ⟨rfl, fun row hrow row' hrow' hid => ?_, ?_, hunconfirmed⟩
    · rw [hbundles] at hrow'
      rw [hnone row hrow, Table.eq_of_id hrow' hrow hid]
      rfl
    · rw [hsent]
      exact .nil
  | more hpick hok =>
    cases removePage_ok hok

theorem Underway.of_removes (h : Underway start S db)
    (hrun : ∀ out r db', RemoveUnconfirmed Meanwhile db out r db' →
      Removes (isDoomed start S) db out r db') :
    db.unconfirmed.length ≤ 64 ∧ ∀ row ∈ db.bundles.rows, isDoomed start S row = false := by
  -- any page will do
  obtain ⟨page, rest, hpick, hrest⟩ : ∃ page rest, Picks 64 db.unconfirmed page rest ∧
      rest.Nodup := by
    obtain ⟨page, rest, hpick⟩ := exists_oldest (fun _ => 0) 64 db.unconfirmed
    have hnodup := hpick.perm.nodup_iff.mp db.unconfirmed_nodup
    exact ⟨page, rest, hpick.toPicks, (List.nodup_append.mp hnodup).2.1⟩
  have hdead : ∀ row ∈ db.bundles.rows, onPage page row = false := by
    intro row hrow
    cases hon : onPage page row with
    | false => rfl
    | true => cases (hrun _ _ _ (.failed hpick (removePage_live hrest hrow hon))).succeeds
  have hrest_nil : rest = [] := by
    cases page with
    | nil =>
      have hlen := hpick.perm.length_eq
      rw [hpick.page_eq_nil (by decide) rfl] at hlen
      exact List.length_eq_zero_iff.mp (by simpa using hlen.symm)
    | cons i page =>
      obtain ⟨db', hok, -, hunconfirmed⟩ :=
        removePage_dead hrest (List.cons_ne_nil i page) hdead
      exact hunconfirmed.symm.trans (hrun _ _ _ (.done hpick hok)).unconfirmed
  have hperm := hpick.perm
  rw [hrest_nil, List.append_nil] at hperm
  constructor
  · rw [hperm.length_eq, hpick.length]
    exact Nat.min_le_left _ _
  · intro row hrow
    refine Bool.eq_false_iff.mpr fun hdoomed => ?_
    obtain ⟨hlive, hmem⟩ := (h.isDoomed_iff hrow).mp hdoomed
    have hon : onPage page row = true := by
      rw [onPage, hlive, Bool.and_true, List.contains_iff_mem]
      exact hperm.subset hmem
    rw [hdead row hrow] at hon
    cases hon

end

/-- The removal is exact iff nothing is left to remove, and at most one page to
confirm. -/
theorem removes_iff (db : Db) (steps : List RecoveryStep) :
    (∀ out r db', RemoveUnconfirmed Meanwhile (db.recovering steps) out r db' →
      Removes (isDoomed db (confirmed steps)) (db.recovering steps) out r db') ↔
    (db.recovering steps).unconfirmed.length ≤ 64 ∧
      ∀ r ∈ (db.recovering steps).bundles.rows, isDoomed db (confirmed steps) r = false := by
  have h := underway_recovering db steps
  constructor
  · exact h.of_removes
  · rintro ⟨hlen, hnone⟩ out r db' hrun
    exact h.removes hlen hnone hrun

end Db

end Hardy.Storage

/-! ## One record that is not confirmed -/

namespace Hardy.Storage.Db

local instance : Crates := .reference

local instance : DebugText := .plain

def orphan : Db := (empty.insert (.plain (.ipn ⟨0, 1⟩ 1) .waiting)).2

/-- The removal of the record fails. -/
theorem orphan_not_removed : ¬ ∀ (db : Db) (steps : List RecoveryStep) out r db',
    RemoveUnconfirmed Meanwhile (db.recovering steps) out r db' →
      Removes (isDoomed db (confirmed steps)) (db.recovering steps) out r db' := by
  intro h
  have hpick : Picks 64 (orphan.recovering []).unconfirmed [1] [] := ⟨.refl _, rfl⟩
  have hrow : ⟨1, _, _⟩ ∈ (orphan.recovering []).bundles.rows := List.mem_cons_self
  have hfailed := removePage_live .nil hrow (show onPage [1] _ = true from rfl)
  cases (h orphan [] _ _ _ (.failed hpick hfailed)).succeeds

end Hardy.Storage.Db
