import Hardy.Machine
import Mathlib.Algebra.Group.Nat.Defs
import Mathlib.Logic.Function.Basic

/-!
# The RPC proxy

Model of `proto/src/proxy.rs` at both ends of a connection: calls, the writer and the reader of
each end, and the tasks of its handler, each cut where others can come between.  A bounded queue
or a permit only delays who waits for it, so the queues have no bound here.  The streams lose
their ends at any time, and so do their readers.

Every message carries where it comes from.  No step looks at that.
-/

namespace Hardy.Proto

inductive Side where
  | client
  | server
deriving DecidableEq

namespace Side

def firstId : Side → Nat
  | client => 1
  | server => 2

def peer : Side → Side
  | client => server
  | server => client

@[simp] theorem peer_peer (e : Side) : e.peer.peer = e := by
  cases e <;> rfl

@[simp] theorem peer_ne (e : Side) : e.peer ≠ e := by
  cases e <;> nofun

end Side

structure Status where
  code : Nat
  message : String
deriving DecidableEq

def Status.cancelled (message : String) : Status := ⟨1, message⟩

/-- Where a message comes from: the call of an end, by its number, or the handler of another
message. -/
inductive Origin where
  | request (caller : Side) (call : Nat)
  | response (answered : Origin)
deriving DecidableEq

variable {S R : Type}

structure Msg (S : Type) where
  msgId : Nat
  msg : S
  origin : Origin

inductive Ret (S : Type) where
  | message (m : Msg S)
  | connectionClosed

/-- How far a call has got. -/
inductive Phase (S : Type) where
  /-- it has its id -/
  | begun
  | registered
  /-- the writer has closed -/
  | unsent
  | sent
  | returned (ret : Option (Ret S))
  /-- its future is dropped -/
  | dropped

structure Call (S : Type) where
  msgId : Nat
  msg : S
  phase : Phase S
  /-- what is in its oneshot -/
  ret : Option (Ret S)

structure Task (S : Type) where
  request : Msg S
  permit : Bool

inductive Reader where
  | running
  | cancelling
  /-- the calls that are left to fail, by their ids -/
  | failing (calls : Nat → Option Nat)
  | exited

/-- The result of `call`, where `read` is what `RecvMsg::msg` makes of a message. -/
def result (read : S → Except Status R) : Option (Ret S) → Except Status (Option R)
  | none => .ok none
  | some (.message m) => (read m.msg).map some
  | some .connectionClosed => .error (.cancelled "Connection closed")

structure State (S : Type) where
  nextMsgId : Side → Nat
  /-- how many calls have begun -/
  begun : Side → Nat
  calls : Side → Nat → Option (Call S)
  /-- the pending map, from ids to calls -/
  pending : Side → Option (Nat → Option Nat)
  queue : Side → List (Msg S)
  writing : Side → Bool
  /-- the outbound stream -/
  wire : Side → List (Msg S)
  wireOpen : Side → Bool
  reader : Side → Reader
  cancelled : Side → Bool
  tasks : Side → List (Task S)

open Function

namespace State

/-- `RpcProxy::run` at both ends -/
def start : State S where
  nextMsgId := Side.firstId
  begun _ := 0
  calls _ _ := none
  pending _ := some fun _ => none
  queue _ := []
  writing _ := true
  wire _ := []
  wireOpen _ := true
  reader _ := .running
  cancelled _ := false
  tasks _ := []

def modifyCall (s : State S) (e : Side) (k : Nat) (f : Call S → Call S) : State S :=
  { s with calls := update s.calls e (update (s.calls e) k ((s.calls e k).map f)) }

def setPhase (s : State S) (e : Side) (k : Nat) (phase : Phase S) : State S :=
  s.modifyCall e k ({ · with phase })

/-- `ret.send` -/
def complete (s : State S) (e : Side) (k : Nat) (ret : Ret S) : State S :=
  s.modifyCall e k ({ · with ret := some ret })

/-- The end of `writer_task`: what is in its queue is lost. -/
def closeWriter (s : State S) (e : Side) : State S :=
  { s with
    queue := update s.queue e []
    writing := update s.writing e false
    wireOpen := update s.wireOpen e false }

/-- The reader of `e` has read the first message. -/
def setWire (s : State S) (e : Side) (wire : List (Msg S)) : State S :=
  { s with wire := update s.wire e.peer wire }

/-- The oneshot of a call cannot be completed any more. -/
def Orphaned (s : State S) (e : Side) (k : Nat) : Prop :=
  (∀ map, s.pending e = some map → ∀ id, map id ≠ some k) ∧
    ∀ map, s.reader e = .failing map → ∀ id, map id ≠ some k

end State

inductive Label where
  | call (e : Side)
  | other

section

variable (read : S → Except Status R) (permits : Nat)

inductive Step : State S → Label → State S → Prop where
  /-- `call` takes an id. -/
  | call {s : State S} (e : Side) (msg : S) :
      Step s (.call e)
        { s with
          nextMsgId := update s.nextMsgId e ((s.nextMsgId e + 2) % 2 ^ 32)
          begun := update s.begun e (s.begun e + 1)
          calls := update s.calls e (update (s.calls e) (s.begun e)
            (some ⟨s.nextMsgId e, msg, .begun, none⟩)) }
  | register {s : State S} {e k c map} (hc : s.calls e k = some c) (hphase : c.phase = .begun)
      (hmap : s.pending e = some map) :
      Step s .other
        { s.setPhase e k .registered with
          pending := update s.pending e (some (update map c.msgId (some k))) }
  | registerClosed {s : State S} {e k c} (hc : s.calls e k = some c) (hphase : c.phase = .begun)
      (hmap : s.pending e = none) :
      Step s .other (s.setPhase e k (.returned none))
  | send {s : State S} {e k c} (hc : s.calls e k = some c) (hphase : c.phase = .registered)
      (hw : s.writing e = true) :
      Step s .other
        { s.setPhase e k .sent with
          queue := update s.queue e (s.queue e ++ [⟨c.msgId, c.msg, .request e k⟩]) }
  | sendClosed {s : State S} {e k c} (hc : s.calls e k = some c) (hphase : c.phase = .registered)
      (hw : s.writing e = false) :
      Step s .other (s.setPhase e k .unsent)
  /-- The call takes itself out of the map. -/
  | forget {s : State S} {e k c} (hc : s.calls e k = some c) (hphase : c.phase = .unsent) :
      Step s .other
        { s.setPhase e k (.returned none) with
          pending := update s.pending e ((s.pending e).map fun map => update map c.msgId none) }
  | receive {s : State S} {e k c ret} (hc : s.calls e k = some c) (hphase : c.phase = .sent)
      (hret : c.ret = some ret) :
      Step s .other (s.setPhase e k (.returned (some ret)))
  | receiveClosed {s : State S} {e k c} (hc : s.calls e k = some c) (hphase : c.phase = .sent)
      (hret : c.ret = none) (hgone : s.Orphaned e k) :
      Step s .other (s.setPhase e k (.returned none))
  | drop {s : State S} {e k c} (hc : s.calls e k = some c)
      (hphase : c.phase = .registered ∨ c.phase = .sent) :
      Step s .other (s.setPhase e k .dropped)
  | write {s : State S} {e m queue} (hq : s.queue e = m :: queue) (hw : s.writing e = true)
      (hopen : s.wireOpen e = true) :
      Step s .other
        { s with
          queue := update s.queue e queue
          wire := update s.wire e (s.wire e ++ [m]) }
  /-- The outbound channel is closed, or the pool is cancelled. -/
  | stopWriting {s : State S} {e} (hw : s.writing e = true)
      (hstop : s.wireOpen e = false ∧ s.queue e ≠ [] ∨ s.cancelled e = true) :
      Step s .other (s.closeWriter e)
  /-- The connection is lost after some of the messages. -/
  | lose {s : State S} {e wire} (hwire : wire <+: s.wire e) :
      Step s .other
        { s with wire := update s.wire e wire, wireOpen := update s.wireOpen e false }
  /-- `dispatch`, with an id of the map -/
  | dispatchResponse {s : State S} {e m wire map k} (hr : s.reader e = .running)
      (hwire : s.wire e.peer = m :: wire) (hmap : s.pending e = some map)
      (hk : map m.msgId = some k) :
      Step s .other
        { (s.complete e k (.message m)).setWire e wire with
          pending := update s.pending e (some (update map m.msgId none)) }
  | dispatchRequest {s : State S} {e m wire r} (hr : s.reader e = .running)
      (hwire : s.wire e.peer = m :: wire) (hk : (s.pending e).bind (· m.msgId) = none)
      (hread : read m.msg = .ok r) :
      Step s .other { s.setWire e wire with tasks := update s.tasks e (s.tasks e ++ [⟨m, false⟩]) }
  | dispatchError {s : State S} {e m wire status} (hr : s.reader e = .running)
      (hwire : s.wire e.peer = m :: wire) (hk : (s.pending e).bind (· m.msgId) = none)
      (hread : read m.msg = .error status) :
      Step s .other (s.setWire e wire)
  /-- The stream has ended or failed, or the pool is cancelled. -/
  | stopReading {s : State S} {e} (hr : s.reader e = .running) :
      Step s .other
        { s with
          reader := update s.reader e .cancelling
          cancelled := update s.cancelled e true }
  | take {s : State S} {e} (hr : s.reader e = .cancelling) :
      Step s .other
        { s with
          reader := update s.reader e (.failing ((s.pending e).getD fun _ => none))
          pending := update s.pending e none }
  | fail {s : State S} {e map id k} (hr : s.reader e = .failing map) (hk : map id = some k) :
      Step s .other
        { s.complete e k .connectionClosed with
          reader := update s.reader e (.failing (update map id none)) }
  | exit {s : State S} {e map} (hr : s.reader e = .failing map) (hmap : ∀ id, map id = none) :
      Step s .other { s with reader := update s.reader e .exited }
  /-- `cancel`, `shutdown`, or the drop of the proxy -/
  | cancel {s : State S} (e : Side) :
      Step s .other { s with cancelled := update s.cancelled e true }
  | permit {s : State S} {e m l l'} (ht : s.tasks e = l ++ ⟨m, false⟩ :: l')
      (hpermits : (s.tasks e).countP (·.permit) < permits) :
      Step s .other { s with tasks := update s.tasks e (l ++ ⟨m, true⟩ :: l') }
  /-- The pool is cancelled, there is no response, or the writer has closed. -/
  | endTask {s : State S} {e t l l'} (ht : s.tasks e = l ++ t :: l')
      (hend : t.permit = true ∨ s.cancelled e = true) :
      Step s .other { s with tasks := update s.tasks e (l ++ l') }
  | respond {s : State S} {e m l l'} (ht : s.tasks e = l ++ ⟨m, true⟩ :: l')
      (hw : s.writing e = true) (response : S) :
      Step s .other
        { s with
          tasks := update s.tasks e (l ++ l')
          queue := update s.queue e (s.queue e ++ [⟨m.msgId, response, .response m.origin⟩]) }

def proxies : Machine (State S) Label where
  start s := s = .start
  step := Step read permits

end

/-- Fewer than `2 ^ 31` calls at each end. -/
def FewCalls (s : State S) : Label → Prop
  | .call e => s.begun e + 1 < 2 ^ 31
  | .other => True

end Hardy.Proto
