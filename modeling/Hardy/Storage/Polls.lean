import Hardy.Storage.WaitingPoll

/-!
# Polls without other writes

The two polls that read in pages, when nothing is written between the pages.  The
poll for expiry resumes behind a cursor and yields every expirable row once
(`expiryPages_eq`).  The poll for waiting bundles drains its queue table, and where
that was empty it yields every row that waits (`PollWaiting.sent`).
-/

namespace Hardy.Storage

open Cbor

/-! ## By cursor -/

namespace Db

variable {db : Db}

def expiring (db : Db) : List BundleRow := (db.bundles.select expirable).insertionSort expiresBefore

def cursorAt (rows : List BundleRow) : Option (Int × Nat) :=
  rows.getLast?.map fun r => (r.data.expiry, r.id)

theorem expiresBefore_total : Std.Total expiresBefore where
  total r r' := by
    rw [expiresBefore, expiresBefore]
    omega

theorem expiresBefore_trans : IsTrans BundleRow expiresBefore where
  trans r r' r'' h h' := by
    rw [expiresBefore] at h h' ⊢
    omega

theorem expiring_perm (db : Db) : db.expiring.Perm (db.bundles.select expirable) :=
  List.perm_insertionSort _ _

theorem expiring_sorted (db : Db) : db.expiring.Pairwise expiresBefore :=
  have := expiresBefore_total
  have := expiresBefore_trans
  List.pairwise_insertionSort _ _

theorem mem_rows_of_expiring {r : BundleRow} (h : r ∈ db.expiring) : r ∈ db.bundles.rows :=
  (List.mem_filter.mp ((expiring_perm db).subset h)).1

theorem expiresBefore_antisymm {r r' : BundleRow} (hr : r ∈ db.bundles.rows)
    (hr' : r' ∈ db.bundles.rows) (h : expiresBefore r r') (h' : expiresBefore r' r) : r = r' := by
  refine Table.eq_of_id hr hr' ?_
  rw [expiresBefore] at h h'
  omega

theorem behind_iff {r r' : BundleRow} (hr : r ∈ db.bundles.rows) (hr' : r' ∈ db.bundles.rows) :
    behind (some (r.data.expiry, r.id)) r' = true ↔ expiresBefore r r' ∧ r ≠ r' := by
  rw [behind, Bool.or_eq_true, Bool.and_eq_true, decide_eq_true_eq, decide_eq_true_eq,
    decide_eq_true_eq, expiresBefore]
  constructor
  · intro h
    refine ⟨by omega, ?_⟩
    rintro rfl
    omega
  · rintro ⟨h, hne⟩
    have hid : r.id ≠ r'.id := fun hid => hne (Table.eq_of_id hr hr' hid)
    omega

theorem filter_behind {done rest : List BundleRow} (h : db.expiring = done ++ rest) :
    db.expiring.filter (behind (cursorAt done)) = rest := by
  have hsorted := expiring_sorted db
  have hnodup : db.expiring.Nodup :=
    (expiring_perm db).nodup_iff.mpr ((List.Nodup.of_map _ db.bundles.ids_nodup).filter _)
  have hmem : ∀ r ∈ done ++ rest, r ∈ db.bundles.rows :=
    fun r hr => mem_rows_of_expiring (h ▸ hr)
  rw [h] at hsorted hnodup ⊢
  obtain ⟨hdone, -, hcross⟩ := List.pairwise_append.mp hsorted
  obtain ⟨-, -, hdisj⟩ := List.nodup_append.mp hnodup
  rcases List.eq_nil_or_concat done with rfl | ⟨init, last, rfl⟩
  · exact List.filter_eq_self.mpr fun _ _ => rfl
  rw [List.concat_eq_append] at *
  have hcursor : cursorAt (init ++ [last]) = some (last.data.expiry, last.id) := by
    rw [cursorAt, List.getLast?_append]
    rfl
  have hlast : last ∈ init ++ [last] := List.mem_append_right _ List.mem_cons_self
  have hlast_mem := hmem last (List.mem_append_left _ hlast)
  rw [hcursor, List.filter_append]
  have hgone : (init ++ [last]).filter (behind (some (last.data.expiry, last.id))) = [] := by
    refine List.filter_eq_nil_iff.mpr fun r hr hb => ?_
    have hr_mem := hmem r (List.mem_append_left _ hr)
    obtain ⟨hle, hne⟩ := (behind_iff hlast_mem hr_mem).mp hb
    rcases List.mem_append.mp hr with hinit | hr
    · have hle' := (List.pairwise_append.mp hdone).2.2 r hinit last List.mem_cons_self
      exact hne (expiresBefore_antisymm hlast_mem hr_mem hle hle')
    · exact hne (List.mem_singleton.mp hr).symm
  rw [hgone, List.nil_append]
  refine List.filter_eq_self.mpr fun r hr => ?_
  have hr_mem := hmem r (List.mem_append_right _ hr)
  exact (behind_iff hlast_mem hr_mem).mpr ⟨hcross last hlast r hr, hdisj last hlast r hr⟩

theorem expiryPage_eq (db : Db) (cursor : Option (Int × Nat)) :
    db.expiryPage cursor = (db.expiring.filter (behind cursor)).take 64 := by
  have := expiresBefore_total
  have := expiresBefore_trans
  refine congrArg (List.take 64) ?_
  refine @List.Perm.eq_of_pairwise _ expiresBefore _ _ ?_ (List.pairwise_insertionSort _ _)
    ((expiring_sorted db).sublist List.filter_sublist) ?_
  · intro r r' hr hr' h h'
    have hr := (List.mem_filter.mp ((List.perm_insertionSort _ _).subset hr)).1
    exact expiresBefore_antisymm hr (mem_rows_of_expiring (List.mem_filter.mp hr').1) h h'
  · refine (List.perm_insertionSort _ _).trans ?_
    refine List.Perm.trans (.of_eq ?_) ((expiring_perm db).symm.filter _)
    rw [Table.select, Table.select, List.filter_filter]
    simp only [Bool.and_comm]

theorem expiryPages_eq (fuel : Nat) {done rest : List BundleRow} (h : db.expiring = done ++ rest)
    (hfuel : rest.length < fuel) : db.expiryPages fuel (cursorAt done) = rest := by
  induction fuel generalizing done rest with
  | zero => omega
  | succ fuel ih =>
    rw [expiryPages, expiryPage_eq, filter_behind h]
    split
    · next hfull =>
        have hne : rest.take 64 ≠ [] := by
          intro hnil
          rw [hnil] at hfull
          cases hfull
        have hcursor : (rest.take 64).getLast?.map (fun r => (r.data.expiry, r.id)) =
            cursorAt (done ++ rest.take 64) := by
          rw [cursorAt, List.getLast?_append_of_ne_nil _ hne]
        have hlen : (rest.drop 64).length < fuel := by
          rw [List.length_take] at hfull
          rw [List.length_drop]
          omega
        rw [hcursor, ih (by rw [List.append_assoc, List.take_append_drop, h]) hlen,
          List.take_append_drop]
    · next hshort =>
        rw [List.length_take] at hshort
        exact List.take_of_length_le (by omega)

theorem expiryPages_perm (db : Db) :
    (db.expiryPages (db.bundles.rows.length + 1) none).Perm (db.bundles.select expirable) := by
  have hlen : db.expiring.length < db.bundles.rows.length + 1 := by
    rw [(expiring_perm db).length_eq]
    exact Nat.lt_succ_of_le (List.length_filter_le _ _)
  have hpages : db.expiryPages (db.bundles.rows.length + 1) (cursorAt []) = db.expiring :=
    expiryPages_eq _ rfl hlen
  rw [show none = cursorAt [] from rfl, hpages]
  exact expiring_perm db

end Db

/-! ## By queue -/

namespace WaitingPoll

variable [Crates] [DebugText]

/-- The pages of a queue: what is sent, and the tables after the last one. -/
inductive Pages : Db → List Bundle → Db → Prop where
  | last {db : Db} {page rest : List (Nat × Int)} {rows : List BundleRow}
      (h : Oldest Prod.snd 64 db.waitingQueue page rest) :
      Sorts Db.received (db.bundles.select (onPage page)) rows → rows = [] →
      Pages db [] (dequeue db page rest h)
  | page {db db' : Db} {page rest : List (Nat × Int)} {rows : List BundleRow} {out : List Bundle}
      (h : Oldest Prod.snd 64 db.waitingQueue page rest) :
      Sorts Db.received (db.bundles.select (onPage page)) rows → rows ≠ [] →
      Pages (dequeue db page rest h) out db' →
      Pages db (Db.sent (fun _ => some .waiting) rows ++ out) db'

def PollWaiting (db : Db) (out : List Bundle) (db' : Db) : Prop := Pages (refresh db) out db'

def Kept (db : Db) : Prop :=
  ∀ e ∈ db.waitingQueue, ∃ r ∈ db.bundles.rows, r.id = e.1 ∧ r.data.isLive = true

section

variable {db db' : Db} {page rest : List (Nat × Int)} {rows : List BundleRow} {out : List Bundle}

section

omit [Crates] [DebugText]

theorem Kept.page_eq_nil (hk : Kept db) (h : Oldest Prod.snd 64 db.waitingQueue page rest)
    (hnone : db.bundles.select (onPage page) = []) : page = [] := by
  cases page with
  | nil => rfl
  | cons e page =>
    obtain ⟨r, hr, hid, hl⟩ := hk e (h.perm.symm.subset (List.mem_append_left _ List.mem_cons_self))
    refine absurd ?_ (List.filter_eq_nil_iff.mp hnone r hr)
    rw [onPage, hl, hid]
    simp

theorem Kept.dequeue (hk : Kept db) (h : Oldest Prod.snd 64 db.waitingQueue page rest) :
    Kept (dequeue db page rest h) :=
  fun e he => hk e (h.perm.symm.subset (List.mem_append_right _ he))

theorem select_nil (db : Db) : db.bundles.select (onPage []) = [] :=
  List.filter_eq_nil_iff.mpr fun r _ => by simp [onPage]

theorem select_queue (h : Oldest Prod.snd 64 db.waitingQueue page rest) :
    (db.bundles.select (onPage db.waitingQueue)).Perm
      (db.bundles.select (onPage page) ++ db.bundles.select (onPage rest)) := by
  have hmap := h.perm.map Prod.fst
  have hmem : ∀ i, i ∈ db.waitingQueue.map Prod.fst ↔
      i ∈ page.map Prod.fst ∨ i ∈ rest.map Prod.fst := fun i => by
    rw [hmap.mem_iff, List.map_append, List.mem_append]
  have hdisj : ∀ i ∈ page.map Prod.fst, i ∉ rest.map Prod.fst := by
    have hnodup := hmap.nodup_iff.mp db.waiting_nodup
    rw [List.map_append] at hnodup
    exact fun i hi hi' => (List.nodup_append.mp hnodup).2.2 i hi i hi' rfl
  refine (List.filter_append_perm (fun r => (page.map Prod.fst).contains r.id) _).symm.trans ?_
  rw [Table.select, Table.select, Table.select, List.filter_filter, List.filter_filter]
  refine List.Perm.of_eq (congrArg₂ _ (List.filter_congr fun r _ => ?_)
    (List.filter_congr fun r _ => ?_))
  · rw [Bool.eq_iff_iff, onPage, onPage]
    simp only [Bool.and_eq_true, List.contains_iff_mem, hmem]
    tauto
  · rw [Bool.eq_iff_iff, onPage, onPage]
    simp only [Bool.and_eq_true, List.contains_iff_mem, hmem, Bool.not_eq_true',
      Bool.eq_false_iff, ne_eq]
    have := hdisj r.id
    tauto

end

omit [DebugText] in
theorem Pages.sent (h : Pages db out db') (hk : Kept db) :
    out.Perm (Db.sent (fun _ => some .waiting) (db.bundles.select (onPage db.waitingQueue))) ∧
      db'.bundles = db.bundles ∧ db'.unconfirmed = db.unconfirmed ∧ db'.waitingQueue = [] := by
  induction h with
  | last h hrows hnil =>
    subst hnil
    have hpage := hk.page_eq_nil h hrows.perm.eq_nil
    have hqueue := h.page_eq_nil (by decide) hpage
    refine ⟨?_, rfl, rfl, ?_⟩
    · rw [hqueue, select_nil]
      exact .nil
    · refine h.rest_eq_nil ?_
      rw [hqueue]
      exact Nat.zero_le _
  | page h hrows hne hpages ih =>
    obtain ⟨hout, hbundles⟩ := ih (hk.dequeue h)
    refine ⟨?_, hbundles⟩
    have hperm := (select_queue h).filterMap fun r : BundleRow => do
      let stored ← r.data.bundle.bind Doc.read
      let status ← some Bpa.BundleStatus.waiting
      some (stored.intoBundle status)
    rw [List.filterMap_append] at hperm
    exact ((hrows.perm.symm.filterMap _).append hout).trans hperm.symm

omit [DebugText] in
theorem exists_pages (db : Db) : ∃ out db', Pages db out db' := by
  induction hn : db.waitingQueue.length using Nat.strong_induction_on generalizing db with
  | _ n ih =>
    obtain ⟨page, rest, h⟩ := exists_oldest Prod.snd 64 db.waitingQueue
    obtain ⟨rows, hsorts⟩ := exists_sorts Db.received (db.bundles.select (onPage page))
    by_cases hnil : rows = []
    · exact ⟨_, _, .last h hsorts hnil⟩
    · have hlen : rest.length < n := by
        have hpos : page ≠ [] := by
          rintro rfl
          rw [select_nil] at hsorts
          exact hnil hsorts.perm.symm.eq_nil
        have := List.length_pos_of_ne_nil hpos
        have := h.perm.length_eq
        rw [List.length_append] at this
        omega
      obtain ⟨out, db', hpages⟩ := ih rest.length hlen (dequeue db page rest h) rfl
      exact ⟨_, _, .page h hsorts hnil hpages⟩

end

/-- A record that waits has a live row, and no entry is in the queue. -/
structure Quiet (db : Db) : Prop where
  queue : db.waitingQueue = []
  live : ∀ r ∈ db.bundles.rows, r.data.status.code = some 1 → r.data.isLive = true

def waiting (r : BundleRow) : Bool := r.data.isLive && r.data.status.code = some 1

section

omit [Crates] [DebugText]

theorem Quiet.waitingQueue {db : Db} (hq : Quiet db) :
    (refresh db).waitingQueue = waitingRows db := by
  have hnew : unqueued db = waitingRows db := by
    unfold unqueued
    rw [hq.queue]
    exact List.filter_eq_self.mpr fun _ _ => rfl
  have happend : (refresh db).waitingQueue = db.waitingQueue ++ unqueued db := rfl
  rw [happend, hq.queue, hnew, List.nil_append]

theorem Quiet.kept {db : Db} (hq : Quiet db) : Kept (refresh db) := by
  intro e he
  rw [hq.waitingQueue] at he
  obtain ⟨r, hr, rfl⟩ := List.mem_map.mp he
  obtain ⟨hr, hcode⟩ := List.mem_filter.mp hr
  exact ⟨r, hr, rfl, hq.live r hr (of_decide_eq_true hcode)⟩

theorem Quiet.select {db : Db} (hq : Quiet db) :
    (refresh db).bundles.select (onPage (refresh db).waitingQueue) = db.bundles.select waiting := by
  rw [hq.waitingQueue]
  refine List.filter_congr fun r hr => ?_
  have hmem : r.id ∈ (waitingRows db).map Prod.fst ↔ r.data.status.code = some 1 := by
    constructor
    · intro h
      obtain ⟨e, he, hid⟩ := List.mem_map.mp h
      obtain ⟨r', hr', rfl⟩ := List.mem_map.mp he
      obtain ⟨hr', hcode⟩ := List.mem_filter.mp hr'
      rw [← Table.eq_of_id hr' hr hid]
      exact of_decide_eq_true hcode
    · intro hcode
      exact List.mem_map.mpr ⟨_, List.mem_map.mpr
        ⟨r, List.mem_filter.mpr ⟨hr, decide_eq_true hcode⟩, rfl⟩, rfl⟩
  rw [Bool.eq_iff_iff, onPage, waiting, Bool.and_eq_true, Bool.and_eq_true, List.contains_iff_mem,
    hmem, decide_eq_true_eq, and_comm]

end

omit [DebugText] in
theorem PollWaiting.sent {db db' : Db} {out : List Bundle} (hq : Quiet db)
    (h : PollWaiting db out db') :
    out.Perm (Db.sent (fun _ => some .waiting) (db.bundles.select waiting)) ∧ db' = db := by
  obtain ⟨hout, hbundles, hunconfirmed, hqueue⟩ := Pages.sent h hq.kept
  rw [hq.select] at hout
  refine ⟨hout, ?_⟩
  cases db
  cases db'
  simp only [Db.mk.injEq]
  exact ⟨hbundles, hunconfirmed, hqueue.trans hq.queue.symm⟩

omit [DebugText] in
theorem exists_pollWaiting (db : Db) : ∃ out db', PollWaiting db out db' := exists_pages (refresh db)

end WaitingPoll

end Hardy.Storage
