import Hardy.Machine
import Mathlib.Data.Finset.Basic

/-!
# Connection pools

Model of `tcpclv4/src/connection/mod.rs`: the sessions with one remote address, from
`register_session` to the return of `unregister_session`, and the forwards that use
their connections, cut at every lock and every await.

A pool is known by the number of its `Arc<ConnectionPool>`, and a connection by the
session that holds the receiver of its `tx`.
-/

namespace Hardy.Tcpcl.Connection

inductive OnBusy where
  | dial
  | queue
deriving DecidableEq

/-- What the sessions and the forwards bring with them, and `max_idle`. -/
structure Setup (A S N F : Type) where
  localAddr : S → A
  nodeId : S → Option N
  onBusy : F → OnBusy
  maxIdle : Nat

/-- `ConnectionPoolInner`. An entry of `active` is under the local address of its
session, and `idle` is a stack whose top is its last. -/
structure ConnectionPool (S N : Type) where
  active : List S
  idle : List S
  peers : Finset N

inductive Phase where
  | absent
  /-- The connection is in the pool, and `add_peer` is to come. -/
  | joined (pool : Nat)
  /-- `sink.add_peer` is under way. -/
  | adding (pool : Nat)
  /-- The sink has not taken the peer. -/
  | refused (pool : Nat)
  | running (pool : Nat)
  /-- `run` has returned. -/
  | closed (pool : Nat)
  /-- `unregister_session` has found a pool in the registry. -/
  | leaving (pool : Nat)
  /-- `remove` has left the pool empty, and `sink.remove_peer` is to come. -/
  | emptied (pool : Nat)
  /-- `remove` has returned true. -/
  | reported (pool : Nat)
  /-- `unregister_session` has returned. -/
  | gone
deriving DecidableEq

inductive Stage (S : Type) where
  | popping
  | sending (conn : S)
  | waiting (conn : S)
  /-- The outcome is there. -/
  | answered (conn : S)
  | failed (conn : S)
  /-- There was no idle connection. -/
  | deciding
  | choosing
  | queueing (conn : S)
  | queued (conn : S)
  | queueFailed (conn : S)
deriving DecidableEq

structure Forward (S : Type) where
  pool : Nat
  retries : Nat
  stage : Stage S
deriving DecidableEq

/-- What the sink is told: a successful `add_peer`, or `remove_peer`. -/
inductive Report where
  | added
  | removed
deriving DecidableEq

/-- The part of a registry that is for one remote address, its sessions and its
forwards. -/
structure State (S N F : Type) where
  registry : Option Nat
  pools : Nat → ConnectionPool S N
  next : Nat
  sessions : S → Phase
  forwards : F → Option (Forward S)
  reports : List Report

/-- The steps: of a session, of the sink's answer to its `add_peer`, of a forward, of
the channels that a forward waits for, and the random pick of an active connection. -/
inductive Label (S F : Type) where
  | session (c : S)
  | answer (c : S) (ok : Bool)
  | forward (f : F)
  | sent (f : F) (ok : Bool)
  | replied (f : F) (ok : Bool)
  | choose (f : F) (c : S)

variable {A S N F : Type} [DecidableEq A] [DecidableEq S] [DecidableEq N] [DecidableEq F]

namespace ConnectionPool

variable (pool : ConnectionPool S N)

def new (conn : S) : ConnectionPool S N := ⟨[], [conn], ∅⟩

def add (conn : S) : ConnectionPool S N := { pool with idle := pool.idle ++ [conn] }

def removeActive (localAddr : S → A) (addr : A) : ConnectionPool S N :=
  { pool with active := pool.active.filter (localAddr · ≠ addr) }

def pop (localAddr : S → A) : Option (S × ConnectionPool S N) :=
  pool.idle.getLast?.map fun conn =>
    (conn, { pool with
      active := pool.active.filter (localAddr · ≠ localAddr conn) ++ [conn]
      idle := pool.idle.dropLast })

def Room (maxIdle : Nat) : Prop := pool.idle.length + pool.active.length < maxIdle

instance (maxIdle : Nat) : Decidable (pool.Room maxIdle) :=
  inferInstanceAs (Decidable (_ < _))

def giveBack (localAddr : S → A) (maxIdle : Nat) (conn : S) : ConnectionPool S N :=
  let pool := pool.removeActive localAddr (localAddr conn)
  if pool.Room maxIdle then pool.add conn else pool

def isEmpty : Bool := pool.active.isEmpty && pool.idle.isEmpty

def remove (localAddr : S → A) (addr : A) : ConnectionPool S N :=
  let pool := { pool.removeActive localAddr addr with
    idle := pool.idle.filter (localAddr · ≠ addr) }
  if pool.isEmpty then { pool with peers := ∅ } else pool

end ConnectionPool

namespace Phase

def registering : Phase → Bool
  | absent | joined _ | adding _ | refused _ => true
  | _ => false

def receiving : Phase → Bool
  | joined _ | adding _ | refused _ | running _ => true
  | _ => false

/-- The session is between the calls of `register_session` and the return of
`unregister_session`. -/
def present (ph : Phase) : Prop := ph ≠ absent ∧ ph ≠ gone

end Phase

def Stage.conn : Stage S → Option S
  | sending c | waiting c | answered c | failed c | queueing c | queued c | queueFailed c => some c
  | _ => none

namespace State

open Function (update)

def initial : State S N F where
  registry := none
  pools _ := ⟨[], [], ∅⟩
  next := 0
  sessions _ := .absent
  forwards _ := none
  reports := []

def setSession (s : State S N F) (c : S) (ph : Phase) : State S N F :=
  { s with sessions := update s.sessions c ph }

def setPool (s : State S N F) (p : Nat) (pool : ConnectionPool S N) : State S N F :=
  { s with pools := update s.pools p pool }

def setForward (s : State S N F) (f : F) (v : Option (Forward S)) : State S N F :=
  { s with forwards := update s.forwards f v }

/-- `register_session`, up to `add_peer`. -/
def registerSession (s : State S N F) (c : S) : State S N F :=
  match s.registry with
  | some p => (s.setPool p ((s.pools p).add c)).setSession c (.joined p)
  | none =>
    { (s.setPool s.next (.new c)).setSession c (.joined s.next) with
      registry := some s.next
      next := s.next + 1 }

/-- `add_peer`, up to the call of the sink. -/
def addPeer (s : State S N F) (c : S) (p : Nat) : Option N → State S N F
  | none => s.setSession c (.running p)
  | some n =>
    let pool := s.pools p
    if n ∈ pool.peers then s.setSession c (.running p)
    else (s.setPool p { pool with peers := insert n pool.peers }).setSession c (.adding p)

/-- The sink has not taken the node id, and the pool drops it. -/
def dropPeer (s : State S N F) (c : S) (p : Nat) : Option N → State S N F
  | none => s.setSession c (.running p)
  | some n =>
    let pool := s.pools p
    (s.setPool p { pool with peers := pool.peers.erase n }).setSession c (.running p)

/-- `ConnectionPool::remove`, up to `sink.remove_peer`. -/
def remove (s : State S N F) (localAddr : S → A) (c : S) (p : Nat) : State S N F :=
  let pool := (s.pools p).remove localAddr (localAddr c)
  (s.setPool p pool).setSession c (if pool.isEmpty then .emptied p else .gone)

def forget (s : State S N F) (c : S) (p : Nat) : State S N F :=
  { s.setSession c .gone with
    registry := if s.registry = some p then none else s.registry }

def goSession (cfg : Setup A S N F) (s : State S N F) (c : S) : Option (State S N F) :=
  match s.sessions c with
  | .absent => some (s.registerSession c)
  | .joined p => some (s.addPeer c p (cfg.nodeId c))
  | .adding _ => none
  | .refused p => some (s.dropPeer c p (cfg.nodeId c))
  | .running p => some (s.setSession c (.closed p))
  | .closed _ => some (s.setSession c (match s.registry with
      | some q => .leaving q
      | none => .gone))
  | .leaving p => some (s.remove cfg.localAddr c p)
  | .emptied p => some { s.setSession c (.reported p) with reports := s.reports ++ [.removed] }
  | .reported p => some (s.forget c p)
  | .gone => none

def answer (s : State S N F) (c : S) (ok : Bool) : Option (State S N F) :=
  match s.sessions c, ok with
  | .adding p, true =>
    some { s.setSession c (.running p) with reports := s.reports ++ [.added] }
  | .adding p, false => some (s.setSession c (.refused p))
  | _, _ => none

def MAX_RETRIES : Nat := 3

def setStage (s : State S N F) (f : F) (v : Forward S) (stage : Stage S) : State S N F :=
  s.setForward f (some { v with stage })

def goForward (cfg : Setup A S N F) (s : State S N F) (f : F) (v : Forward S) :
    Option (State S N F) :=
  let pool := s.pools v.pool
  match v.stage with
  | .popping => match pool.pop cfg.localAddr with
      | some (c, pool) => some ((s.setPool v.pool pool).setStage f v (.sending c))
      | none => some (s.setStage f v .deciding)
  | .answered c =>
    some ((s.setPool v.pool (pool.giveBack cfg.localAddr cfg.maxIdle c)).setForward f none)
  | .failed c =>
    some ((s.setPool v.pool (pool.removeActive cfg.localAddr (cfg.localAddr c))).setStage f v
      .popping)
  | .deciding =>
    if cfg.onBusy f = .dial ∧
        (cfg.maxIdle = 0 ∨ pool.active.length + pool.idle.length < cfg.maxIdle) then
      some (s.setForward f none)
    else some (s.setStage f v .choosing)
  | .choosing =>
    if pool.active ≠ [] then none
    else if v.retries + 1 ≥ MAX_RETRIES then some (s.setForward f none)
    else some (s.setForward f (some ⟨v.pool, v.retries + 1, .popping⟩))
  | .queueFailed c =>
    some ((s.setPool v.pool (pool.removeActive cfg.localAddr (cfg.localAddr c))).setStage f v
      .choosing)
  | _ => none

/-- `forward` takes the pool from the registry. -/
def startForward (s : State S N F) (f : F) : State S N F :=
  match s.registry with
  | some p => s.setForward f (some ⟨p, 0, .popping⟩)
  | none => s

/-- `tx.send` fails once the receiver is dropped. -/
def sent (s : State S N F) (f : F) (v : Forward S) (ok : Bool) : Option (State S N F) :=
  match v.stage with
  | .sending c =>
    if ok then
      if (s.sessions c).receiving then some (s.setStage f v (.waiting c)) else none
    else if (s.sessions c).registering then none else some (s.setStage f v (.failed c))
  | .queueing c =>
    if ok then
      if (s.sessions c).receiving then some (s.setStage f v (.queued c)) else none
    else if (s.sessions c).registering then none else some (s.setStage f v (.queueFailed c))
  | _ => none

/-- A session that runs reports the outcome of a transfer, and one that is done with
registering may drop it. -/
def replied (s : State S N F) (f : F) (v : Forward S) (ok : Bool) : Option (State S N F) :=
  match v.stage with
  | .waiting c =>
    if (s.sessions c).registering then none
    else if ok then
      if (s.sessions c).receiving then some (s.setStage f v (.answered c)) else none
    else some (s.setStage f v (.failed c))
  | .queued c =>
    if (s.sessions c).registering then none
    else if ok then
      if (s.sessions c).receiving then some (s.setForward f none) else none
    else some (s.setStage f v (.queueFailed c))
  | _ => none

def choose (s : State S N F) (f : F) (v : Forward S) (c : S) : Option (State S N F) :=
  if v.stage = .choosing ∧ c ∈ (s.pools v.pool).active then some (s.setStage f v (.queueing c))
  else none

def step (cfg : Setup A S N F) (s : State S N F) : Label S F → Option (State S N F)
  | .session c => s.goSession cfg c
  | .answer c ok => s.answer c ok
  | .forward f => match s.forwards f with
      | none => some (s.startForward f)
      | some v => s.goForward cfg f v
  | .sent f ok => (s.forwards f).bind (s.sent f · ok)
  | .replied f ok => (s.forwards f).bind (s.replied f · ok)
  | .choose f c => (s.forwards f).bind (s.choose f · c)

end State

def machine (cfg : Setup A S N F) : Machine (State S N F) (Label S F) :=
  .ofStep (· = State.initial) (State.step cfg)

end Hardy.Tcpcl.Connection
