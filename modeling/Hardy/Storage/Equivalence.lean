import Hardy.Storage.SqliteLedger
import Hardy.Storage.MemoryLedger

/-!
# The two stores side by side

One sequence of calls to both stores.  Both keep the same ledger, and then answer and
poll alike, as long as each `replace` is of an id that the store has or had, and each
poll is for what both of them yield (`agree_of_safe`).  A `replace` of an id that was
never inserted is ignored by one store and inserted by the other (`stray_not_agree`).
-/

namespace Hardy.Storage.Equivalence

open Memory (MetadataMemStorage)

structure State where
  db : Db
  memory : MetadataMemStorage

/-- The calls, a write with what the store in memory reads of the clock. -/
inductive Call where
  | write (w : Write) (now now' : Int)
  | get (id : Id)
  | poll (p : Poll)

section

variable [Crates] [DebugText]

inductive Step : State → Call → State → Prop where
  | write {st : State} (w : Write) (now now' : Int) :
      Step st (.write w now now') ⟨st.db.write w, Memory.step st.memory (Memory.op now now' w)⟩
  | get {st : State} (id : Id) : Step st (.get id) st
  | poll {st : State} {p : Poll} {out out' : List Bundle} {db' : Db} :
      st.db.Polls p out db' → st.memory.Polls p out' → Step st (.poll p) ⟨db', st.memory⟩

def machine (maxBundles : Nat) : Machine State Call where
  start st := st.db = .empty ∧ (Memory.machine maxBundles).start st.memory
  step := Step

/-- Every endpoint id of the call survives its text form, and no entry is evicted. -/
def Within (st : State) : Call → Prop
  | .write w _ _ => KnownWrite w ∧ st.memory.HasRoom w
  | .get id => KnownId id
  | .poll p => KnownPoll p

/-- A `replace` is of an id that is known, a poll for fragments is for records with
offsets, and a limit does not part records of one time. -/
def Safe (st : State) : Call → Prop
  | .write w _ _ => st.memory.ReplacesKnown w
  | .get _ => True
  | .poll p => st.memory.YieldsFragments p ∧ st.memory.ledger.Clear p

/-- Both stores answer alike, a poll up to the order. -/
def Agree (st : State) : Call → Prop
  | .write w now now' => st.db.answer w = st.memory.answer now now' w
  | .get id => st.db.get id = .ok (st.memory.get id)
  | .poll p => (∃ out db', st.db.Polls p out db') ∧ (∃ out, st.memory.Polls p out) ∧
      ∀ out db' out', st.db.Polls p out db' → st.memory.Polls p out' → out.Perm out'

section

variable {maxBundles : Nat} {st st' : State} {call : Call}

theorem exists_polls (db : Db) (p : Poll) : ∃ out db', db.Polls p out db' := by
  cases p with
  | expiry => exact ⟨_, db, rfl, rfl⟩
  | waiting => exact WaitingPoll.exists_pollWaiting db
  | serviceWaiting source =>
    obtain ⟨rows, hrows⟩ := exists_sorts Db.received _
    exact ⟨_, db, ⟨rows, hrows, rfl⟩, rfl⟩
  | aduFragments status =>
    obtain ⟨rows, hrows⟩ := exists_sorts Db.received _
    exact ⟨_, db, ⟨rows, hrows, rfl⟩, rfl⟩
  | pending status limit =>
    obtain ⟨rows, rest, hrows⟩ := exists_oldest Db.received limit _
    exact ⟨_, db, ⟨rows, rest, hrows, rfl⟩, rfl⟩

theorem step_stores (h : Stores st.db st.memory.ledger) (hw : Within st call) (hs : Safe st call)
    (hstep : Step st call st') : Stores st'.db st'.memory.ledger := by
  cases hstep with
  | write w now now' =>
    have hledger := (MetadataMemStorage.ledger_write now now' hw.2 hs).2
    rw [hledger]
    exact (h.write hw.1).2
  | get id => exact h
  | poll hdb hmem =>
    obtain ⟨-, rfl⟩ := h.polls hw hdb
    exact h

theorem agree_of_stores (h : Stores st.db st.memory.ledger) (hw : Within st call)
    (hs : Safe st call) : Agree st call := by
  cases call with
  | write w now now' =>
    have hanswer := (MetadataMemStorage.ledger_write now now' hw.2 hs).1
    exact (h.write hw.1).1.trans hanswer.symm
  | get id =>
    obtain ⟨r, hget, hr⟩ := h.get hw
    exact hget.trans (congrArg _ (hr.unique (st.memory.get_gets id)))
  | poll p =>
    refine ⟨exists_polls st.db p, MetadataMemStorage.exists_polls p, fun out db' out' hdb hmem => ?_⟩
    exact (h.polls hw hdb).1.perm (MetadataMemStorage.polls hmem hs.1) hs.2

end

/-- In every run of safe calls, the results of the two stores are the same. -/
theorem agree_of_safe (maxBundles : Nat) (st : State)
    (h : ((machine maxBundles).only fun st call => Within st call ∧ Safe st call).Reachable st)
    (call : Call) (hw : Within st call) (hs : Safe st call) : Agree st call := by
  have hstores : Stores st.db st.memory.ledger := by
    refine h.invariant (I := fun st => Stores st.db st.memory.ledger) ?_ ?_
    · rintro ⟨db, memory⟩ ⟨rfl, hpos, rfl⟩
      exact Stores.empty
    · rintro st call st' hinv ⟨⟨hw, hs⟩, hstep⟩
      exact step_stores hinv hw hs hstep
  exact agree_of_stores hstores hw hs

end

/-! ## A record that was never inserted -/

local instance : Crates := .reference

local instance : DebugText := .plain

def stores : State := ⟨.empty, .new 1 Nat.one_pos⟩

theorem knownBundle_current : KnownBundle Db.current where
  decoded := Db.decoded_plain (by simp [Eid.WellFormed, Eid.u32Max])
  legible := by
    refine ⟨⟨trivial, trivial, trivial, fun _ he => ?_, fun _ hn => ?_⟩, fun _ he => ?_⟩
    · cases he
    · cases hn
    · cases he

def State.after (st : State) (w : Write) : State :=
  ⟨st.db.write w, Memory.step st.memory (Memory.op 0 0 w)⟩

/-- A record that is in both is replaced, and then asked for. -/
theorem replaced_agree : Agree ((stores.after (.insert Db.current)).after (.replace Db.current))
    (.poll .waiting) := by
  have hheld : (stores.after (.insert Db.current)).memory.peek Db.current.id ≠ none := nofun
  have hinsert : ((machine 1).only fun st call => Within st call ∧ Safe st call).Reachable
      (stores.after (.insert Db.current)) :=
    .step (.write (.insert Db.current) 0 0) (.start (s := stores) ⟨rfl, Nat.one_pos, rfl⟩)
      ⟨⟨⟨knownBundle_current, .inr Nat.one_pos⟩, trivial⟩, .write _ 0 0⟩
  exact agree_of_safe 1 _ (.step (.write (.replace Db.current) 0 0) hinsert
    ⟨⟨⟨knownBundle_current, .inl hheld⟩, hheld⟩, .write _ 0 0⟩) _ trivial ⟨trivial, trivial⟩

/-- One store has the record afterwards, the other does not. -/
theorem stray_not_agree : ¬ ∀ (maxBundles : Nat) (st : State),
    ((machine maxBundles).only Within).Reachable st →
      ∀ call, Within st call → Agree st call := by
  intro h
  have hstart : ((machine 1).only Within).Reachable stores := .start ⟨rfl, Nat.one_pos, rfl⟩
  have hstep : ((machine 1).only Within).Reachable
      ⟨stores.db.write (.replace Db.current),
        Memory.step stores.memory (Memory.op 0 0 (.replace Db.current))⟩ :=
    .step (.write (.replace Db.current) 0 0) hstart
      ⟨⟨knownBundle_current, .inr Nat.one_pos⟩, .write (.replace Db.current) 0 0⟩
  have hget := h 1 _ hstep (.get Db.current.id) knownBundle_current.knownId
  cases Except.ok.inj hget

end Hardy.Storage.Equivalence
