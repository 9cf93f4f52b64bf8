import Hardy.Machine
import Hardy.Storage.Sqlite

/-!
# The poll for waiting bundles

`poll_waiting` copies the rows that wait into a queue table and then takes the queue
in pages of 64, each in a transaction of its own; other writes come between.  A page
whose records are all gone ends the poll, whatever is still in the queue.  In every
run without such a page the poll sends each record that waits from before the call to
its end, and none twice (`complete_of_intact`).
-/

namespace Hardy.Storage

open Cbor

variable [Crates] [DebugText]

namespace WaitingPoll

/-! ## The poll -/

/-- `SELECT id,received_at FROM bundles WHERE status_code = 1` -/
def waitingRows (db : Db) : List (Nat × Int) :=
  (db.bundles.select fun r => r.data.status.code = some 1).map fun r => (r.id, r.data.receivedAt)

omit [Crates] [DebugText] in
theorem waitingRows_ids (db : Db) : ((waitingRows db).map Prod.fst).Nodup := by
  rw [waitingRows, List.map_map]
  exact db.bundles.ids_nodup.sublist (List.filter_sublist.map _)

def unqueued (db : Db) : List (Nat × Int) :=
  (waitingRows db).filter fun e => !(db.waitingQueue.map Prod.fst).contains e.1

def refresh (db : Db) : Db where
  bundles := db.bundles
  unconfirmed := db.unconfirmed
  waitingQueue := db.waitingQueue ++ unqueued db
  unconfirmed_nodup := db.unconfirmed_nodup
  waiting_nodup := by
    rw [List.map_append, List.nodup_append]
    refine ⟨db.waiting_nodup, (waitingRows_ids db).sublist (List.filter_sublist.map _), ?_⟩
    rintro i hi j hj rfl
    obtain ⟨e, he, rfl⟩ := List.mem_map.mp hj
    have hnot := (List.mem_filter.mp he).2
    rw [List.contains_iff_mem.mpr hi] at hnot
    cases hnot

def dequeue (db : Db) (page rest : List (Nat × Int)) (h : Oldest Prod.snd 64 db.waitingQueue page rest) :
    Db where
  bundles := db.bundles
  unconfirmed := db.unconfirmed
  waitingQueue := rest
  unconfirmed_nodup := db.unconfirmed_nodup
  waiting_nodup := by
    have hnodup := (h.perm.map Prod.fst).nodup_iff.mp db.waiting_nodup
    rw [List.map_append] at hnodup
    exact (List.nodup_append.mp hnodup).2.1

def onPage (page : List (Nat × Int)) (r : BundleRow) : Bool :=
  (page.map Prod.fst).contains r.id && r.data.isLive

def readable (r : BundleRow) : Bool := (r.data.bundle.bind Doc.read).isSome

def waits (r : BundleRow) : Bool := r.data.status.code = some 1 && readable r

inductive Phase where
  | called
  | paging
  | returned
deriving DecidableEq

/-- A call in progress, with the rows whose records it sent, page by page.  `steady`
are the rows with a record that has been waiting since before the call. -/
structure State where
  db : Db
  phase : Phase
  out : List (List BundleRow)
  steady : List Nat

def State.after (s : State) (db : Db) : State :=
  { s with
    db := db
    steady := s.steady.filter fun i => db.bundles.rows.any fun r => r.id = i && waits r }

inductive Label where
  | write (w : Write)
  | refresh
  | page (page rest : List (Nat × Int))

inductive Step : State → Label → State → Prop where
  | write {s : State} (w : Write) : Step s (.write w) (s.after (s.db.write w))
  | refresh {s : State} : s.phase = .called →
      Step s .refresh { s with db := refresh s.db, phase := .paging }
  | last {s : State} {page rest : List (Nat × Int)} {rows : List BundleRow}
      (h : Oldest Prod.snd 64 s.db.waitingQueue page rest) : s.phase = .paging →
      Sorts Db.received (s.db.bundles.select (onPage page)) rows → rows = [] →
      Step s (.page page rest) { s with db := dequeue s.db page rest h, phase := .returned }
  | page {s : State} {page rest : List (Nat × Int)} {rows : List BundleRow}
      (h : Oldest Prod.snd 64 s.db.waitingQueue page rest) : s.phase = .paging →
      Sorts Db.received (s.db.bundles.select (onPage page)) rows → rows ≠ [] →
      Step s (.page page rest)
        { s with db := dequeue s.db page rest h, out := s.out ++ [rows.filter readable] }

def machine : Machine State Label where
  start s := s.phase = .called ∧ s.out = [] ∧
    s.steady = (s.db.bundles.select waits).map Row.id
  step := Step

def Intact (s : State) : Label → Prop
  | .page page rest => (∃ r ∈ s.db.bundles.rows, onPage page r = true) ∨ rest = []
  | _ => True

/-- The call sent each record that waited all the time, none twice, and each page in
the order of reception. -/
structure Complete (s : State) : Prop where
  all : ∀ i ∈ s.steady, i ∈ s.out.flatten.map Row.id
  once : (s.out.flatten.map Row.id).Nodup
  ordered : ∀ page ∈ s.out, page.Pairwise fun r r' => Db.received r ≤ Db.received r'

/-! ## What one step preserves -/

def State.sentIds (s : State) : List Nat := s.out.flatten.map Row.id

def State.queued (s : State) : List Nat := s.db.waitingQueue.map Prod.fst

structure Inv (s : State) : Prop where
  steady : ∀ i ∈ s.steady, ∃ r ∈ s.db.bundles.rows, r.id = i ∧ waits r = true
  once : (s.sentIds ++ s.queued).Nodup
  called : s.phase = .called → s.out = []
  covered : s.phase = .paging → ∀ i ∈ s.steady, i ∈ s.sentIds ∨ i ∈ s.queued
  returned : s.phase = .returned → ∀ i ∈ s.steady, i ∈ s.sentIds
  ordered : ∀ page ∈ s.out, page.Pairwise fun r r' => Db.received r ≤ Db.received r'

section

variable {s : State} {page rest : List (Nat × Int)} {rows : List BundleRow}

theorem inv_of_start (h : machine.start s) : Inv s := by
  obtain ⟨hphase, hout, hsteady⟩ := h
  refine ⟨?_, ?_, fun _ => hout, ?_, ?_, ?_⟩
  · intro i hi
    rw [hsteady] at hi
    obtain ⟨r, hr, rfl⟩ := List.mem_map.mp hi
    obtain ⟨hr, hw⟩ := List.mem_filter.mp hr
    exact ⟨r, hr, rfl, hw⟩
  · rw [State.sentIds, hout]
    exact s.db.waiting_nodup
  · intro hp
    rw [hphase] at hp
    cases hp
  · intro hp
    rw [hphase] at hp
    cases hp
  · rw [hout]
    exact nofun

theorem Inv.write (h : Inv s) (w : Write) : Inv (s.after (s.db.write w)) := by
  have hqueued : (s.after (s.db.write w)).queued = s.queued :=
    congrArg (List.map Prod.fst) (s.db.write_waitingQueue w)
  have hsub : ∀ i ∈ (s.after (s.db.write w)).steady, i ∈ s.steady :=
    fun i hi => (List.mem_filter.mp hi).1
  refine ⟨?_, ?_, h.called, ?_, ?_, h.ordered⟩
  · intro i hi
    obtain ⟨r, hr, heq⟩ := List.any_eq_true.mp (List.mem_filter.mp hi).2
    rw [Bool.and_eq_true, decide_eq_true_eq] at heq
    exact ⟨r, hr, heq⟩
  · rw [hqueued]
    exact h.once
  · intro hp i hi
    rw [hqueued]
    exact h.covered hp i (hsub i hi)
  · exact fun hp i hi => h.returned hp i (hsub i hi)

omit [DebugText] in
theorem mem_refresh {db : Db} {r : BundleRow} (hr : r ∈ db.bundles.rows) (hw : waits r = true) :
    r.id ∈ (refresh db).waitingQueue.map Prod.fst := by
  rw [waits, Bool.and_eq_true] at hw
  have hrow : (r.id, r.data.receivedAt) ∈ waitingRows db :=
    List.mem_map.mpr ⟨r, List.mem_filter.mpr ⟨hr, hw.1⟩, rfl⟩
  rw [refresh, List.map_append, List.mem_append]
  by_cases hin : r.id ∈ db.waitingQueue.map Prod.fst
  · exact .inl hin
  · refine .inr (List.mem_map.mpr ⟨_, List.mem_filter.mpr ⟨hrow, ?_⟩, rfl⟩)
    rw [Bool.not_eq_true']
    exact Bool.eq_false_iff.mpr fun hc => hin (List.contains_iff_mem.mp hc)

omit [DebugText] in
theorem Inv.refresh (h : Inv s) (hphase : s.phase = .called) :
    Inv { s with db := refresh s.db, phase := .paging } := by
  have hout := h.called hphase
  refine ⟨h.steady, ?_, nofun, ?_, nofun, h.ordered⟩
  · rw [State.sentIds, hout]
    exact (WaitingPoll.refresh s.db).waiting_nodup
  · intro _ i hi
    obtain ⟨r, hr, rfl, hw⟩ := h.steady i hi
    exact .inr (mem_refresh hr hw)

omit [DebugText] in
theorem onPage_of_waits {r : BundleRow} (hw : waits r = true) (hi : r.id ∈ page.map Prod.fst) :
    onPage page r = true := by
  rw [waits, Bool.and_eq_true] at hw
  rw [onPage, List.contains_iff_mem.mpr hi, Bool.true_and, Columns.isLive]
  cases hb : r.data.bundle with
  | none =>
    rw [readable, hb] at hw
    cases hw.2
  | some d => rfl

omit [Crates] [DebugText] in
theorem mem_queued (h : Oldest Prod.snd 64 s.db.waitingQueue page rest) {i : Nat} :
    i ∈ s.queued ↔ i ∈ page.map Prod.fst ∨ i ∈ rest.map Prod.fst := by
  rw [State.queued, (h.perm.map Prod.fst).mem_iff, List.map_append, List.mem_append]

omit [DebugText] in
theorem Inv.ends (hs : Inv s) (h : Oldest Prod.snd 64 s.db.waitingQueue page rest)
    (hphase : s.phase = .paging) (hnone : s.db.bundles.select (onPage page) = [])
    (hintact : Intact s (.page page rest)) :
    Inv { s with db := dequeue s.db page rest h, phase := .returned } := by
  have hdead : ∀ r ∈ s.db.bundles.rows, onPage page r ≠ true := fun r hr =>
    List.filter_eq_nil_iff.mp hnone r hr
  have hrest : rest = [] := by
    rcases hintact with ⟨r, hr, hon⟩ | hrest
    · exact absurd hon (hdead r hr)
    · exact hrest
  subst hrest
  refine ⟨hs.steady, ?_, nofun, nofun, ?_, hs.ordered⟩
  · exact (List.nodup_append.mp hs.once).1.append .nil (List.disjoint_nil_right _)
  · intro _ i hi
    rcases hs.covered hphase i hi with hsent | hq
    · exact hsent
    · obtain ⟨r, hr, rfl, hw⟩ := hs.steady i hi
      rcases (mem_queued h).mp hq with hpage | hrest'
      · exact absurd (onPage_of_waits hw hpage) (hdead r hr)
      · cases hrest'

omit [DebugText] in
/-- A page sends each of its rows with a record that waits. -/
theorem Inv.sends (hs : Inv s) (h : Oldest Prod.snd 64 s.db.waitingQueue page rest)
    (hphase : s.phase = .paging)
    (hrows : Sorts Db.received (s.db.bundles.select (onPage page)) rows) :
    Inv { s with db := dequeue s.db page rest h, out := s.out ++ [rows.filter readable] } := by
  have hsentIds : ∀ db phase steady, (State.mk db phase (s.out ++ [rows.filter readable]) steady).sentIds =
      s.sentIds ++ (rows.filter readable).map Row.id := by
    intro db phase steady
    simp [State.sentIds]
  have hpage : ∀ i ∈ (rows.filter readable).map Row.id, i ∈ page.map Prod.fst := by
    intro i hi
    obtain ⟨r, hr, rfl⟩ := List.mem_map.mp hi
    have hr := hrows.perm.symm.subset (List.mem_filter.mp hr).1
    have hon := (List.mem_filter.mp hr).2
    rw [onPage, Bool.and_eq_true] at hon
    exact List.contains_iff_mem.mp hon.1
  refine ⟨hs.steady, ?_, fun hp => ?_, ?_, fun hp => ?_, ?_⟩
  · rw [hsentIds]
    have honce := hs.once
    have hqueue : s.queued.Perm (page.map Prod.fst ++ rest.map Prod.fst) := by
      rw [← List.map_append]
      exact h.perm.map Prod.fst
    rw [((List.Perm.refl s.sentIds).append hqueue).nodup_iff] at honce
    obtain ⟨hout, hpr, hdisj⟩ := List.nodup_append.mp honce
    obtain ⟨-, hrest, hdisj'⟩ := List.nodup_append.mp hpr
    have hnodup : ((rows.filter readable).map Row.id).Nodup := by
      refine List.Nodup.sublist (List.filter_sublist.map _) ?_
      rw [← (hrows.perm.map Row.id).nodup_iff]
      exact s.db.bundles.ids_nodup.sublist (List.filter_sublist.map _)
    rw [List.append_assoc]
    refine List.nodup_append.mpr ⟨hout, List.nodup_append.mpr ⟨hnodup, hrest, ?_⟩, ?_⟩
    · exact fun i hi => hdisj' i (hpage i hi)
    · intro i hi j hj
      refine hdisj i hi j (List.mem_append.mpr ?_)
      exact (List.mem_append.mp hj).imp_left (hpage j)
  · rw [hphase] at hp
    cases hp
  · intro _ i hi
    rw [hsentIds, List.mem_append]
    rcases hs.covered hphase i hi with hsent | hq
    · exact .inl (.inl hsent)
    · obtain ⟨r, hr, rfl, hw⟩ := hs.steady i hi
      refine ((mem_queued h).mp hq).imp_left fun hin => .inr (List.mem_map_of_mem ?_)
      have hon := onPage_of_waits hw hin
      rw [waits, Bool.and_eq_true] at hw
      exact List.mem_filter.mpr
        ⟨hrows.perm.subset (List.mem_filter.mpr ⟨hr, hon⟩), hw.2⟩
  · rw [hphase] at hp
    cases hp
  · intro p hp
    rcases List.mem_append.mp hp with hp | hp
    · exact hs.ordered p hp
    · rw [List.mem_singleton.mp hp]
      exact hrows.sorted.sublist List.filter_sublist

theorem Inv.step {s' : State} {l : Label} (hs : Inv s) (hintact : Intact s l)
    (hstep : Step s l s') : Inv s' := by
  cases hstep with
  | write w => exact hs.write w
  | refresh hphase => exact hs.refresh hphase
  | last h hphase hrows hnil =>
    subst hnil
    exact hs.ends h hphase hrows.perm.eq_nil hintact
  | page h hphase hrows hne => exact hs.sends h hphase hrows

end

/-- A call whose pages all have a live record, but the last, sends each record that
waits from before the call to its end. -/
theorem complete_of_intact : ∀ s, (machine.only Intact).Reachable s → s.phase = .returned →
    Complete s := by
  intro s hs hphase
  have hinv : Inv s := by
    refine hs.invariant (I := Inv) ?_ ?_
    · exact fun s h => inv_of_start h
    · rintro s l s' hi ⟨hintact, hstep⟩
      exact hi.step hintact hstep
  exact ⟨hinv.returned hphase, (List.nodup_append.mp hinv.once).1, hinv.ordered⟩

end WaitingPoll

end Hardy.Storage

/-! ## Two calls -/

namespace Hardy.Storage.WaitingPoll

local instance : Crates := .reference

local instance : DebugText := .plain

def row (dead i : Nat) : BundleRow :=
  let c := (Bundle.plain (.ipn ⟨0, 1⟩ 1) .waiting).columns
  ⟨i, ⟨[], ⟨some i, 0⟩, none⟩, if i < dead then c.tombstoned else c⟩

/-- The first records are deleted, the others wait; the queue is of an earlier call. -/
def store (records dead queued : Nat) : Db where
  bundles :=
    { rows := (List.range records).map (row dead)
      ids_nodup := by
        rw [List.map_map]
        exact List.nodup_range.map fun i j h => h
      keys_nodup := by
        rw [List.map_map]
        exact List.nodup_range.map fun i j h => by simpa [row] using h }
  unconfirmed := []
  waitingQueue := (List.range queued).map fun i => (i, (i : Int))
  unconfirmed_nodup := List.nodup_nil
  waiting_nodup := by
    rw [List.map_map]
    exact List.nodup_range.map fun i j h => h

def sent : State := ⟨store 3 1 0, .returned, [[row 1 1, row 1 2]], [1, 2]⟩

/-- Two records are sent behind an entry of the queue whose record is gone. -/
theorem complete_sent : Complete sent := by
  have hqueue : (refresh (store 3 1 1)).waitingQueue = [(0, 0), (1, 0), (2, 0)] := rfl
  have hpage : Oldest Prod.snd 64 (refresh (store 3 1 1)).waitingQueue [(0, 0), (1, 0), (2, 0)] [] :=
    ⟨⟨.of_eq hqueue, rfl⟩, by decide, nofun⟩
  have hempty : Oldest Prod.snd 64 (store 3 1 0).waitingQueue [] [] :=
    ⟨⟨.nil, rfl⟩, .nil, nofun⟩
  have hstart : (machine.only Intact).Reachable ⟨store 3 1 1, .called, [], [1, 2]⟩ :=
    .start ⟨rfl, rfl, rfl⟩
  have hrefresh : (machine.only Intact).Reachable ⟨refresh (store 3 1 1), .paging, [], [1, 2]⟩ :=
    .step .refresh hstart ⟨trivial, .refresh rfl⟩
  have hrows : (refresh (store 3 1 1)).bundles.select (onPage [(0, 0), (1, 0), (2, 0)]) =
      [row 1 1, row 1 2] := rfl
  have hsent : (machine.only Intact).Reachable
      ⟨store 3 1 0, .paging, [[row 1 1, row 1 2]], [1, 2]⟩ := by
    refine .step (.page [(0, 0), (1, 0), (2, 0)] []) hrefresh ⟨.inr rfl, ?_⟩
    exact Step.page (s := ⟨refresh (store 3 1 1), .paging, [], [1, 2]⟩) hpage rfl
      ⟨.of_eq hrows, .cons (fun r hr => by cases List.mem_singleton.mp hr; exact Int.le_refl _)
        (List.pairwise_singleton _ _)⟩ (List.cons_ne_nil _ _)
  exact complete_of_intact sent
    (.step (.page [] []) hsent ⟨.inr rfl, .last hempty rfl ⟨.of_eq rfl, .nil⟩ rfl⟩) rfl

/-- The queue is of an earlier call: its first 64 records were deleted since. -/
def leftBehind : Db := store 65 64 65

def missing : State := ⟨leftBehind, .called, [], [64]⟩

def deletedPage : List (Nat × Int) := (List.range 64).map fun i => (i, (i : Int))

/-- The record after the page is not sent. -/
theorem leftBehind_missed : ¬ ∀ s, machine.Reachable s → s.phase = .returned → Complete s := by
  intro h
  have hstart : machine.Reachable missing := .start ⟨rfl, rfl, rfl⟩
  have hrefresh : machine.Reachable { missing with db := refresh leftBehind, phase := .paging } :=
    .step .refresh hstart (.refresh rfl)
  have hqueue : (refresh leftBehind).waitingQueue = deletedPage ++ [(64, 64)] := rfl
  have hpage : Oldest Prod.snd 64 (refresh leftBehind).waitingQueue deletedPage [(64, 64)] := by
    refine ⟨⟨.of_eq hqueue, rfl⟩, ?_, ?_⟩
    · refine List.pairwise_map.mpr (List.pairwise_lt_range.imp fun hlt => ?_)
      exact Int.ofNat_le.mpr (Nat.le_of_lt hlt)
    · intro a ha b hb
      obtain ⟨i, hi, rfl⟩ := List.mem_map.mp ha
      rw [List.mem_singleton.mp hb]
      exact Int.ofNat_le.mpr (Nat.le_of_lt (List.mem_range.mp hi))
  have hnone : (refresh leftBehind).bundles.select (onPage deletedPage) = [] := rfl
  have hlast : machine.Reachable
      { missing with db := dequeue (refresh leftBehind) _ _ hpage, phase := .returned } :=
    .step _ hrefresh (.last hpage rfl ⟨.of_eq hnone, .nil⟩ rfl)
  cases (h _ hlast rfl).all 64 List.mem_cons_self

end Hardy.Storage.WaitingPoll
