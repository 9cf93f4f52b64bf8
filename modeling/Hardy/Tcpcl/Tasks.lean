import Hardy.Tcpcl.Segmentation

/-!
# The tasks of a session

The reader of a session beside its ingest task and its writer, which they reach through
queues.  The reader goes on where it would wait for the writer or for room in a queue, so
there are more interleavings here than there can be.  The ingest task stops where the
BPA fails or the writer has closed, and the reader finds that out with its next item.
-/

namespace Hardy.Tcpcl

open Cbor

inductive Dispatched where
  | accepted
  | refused
  | failed
deriving DecidableEq, Repr

structure Tasks where
  reader : State
  /-- the ingest queue, and the item that the ingest task is at -/
  queue : List Ingest
  busy : Option Ingest
  stopped : Bool
  /-- the queue of the writer, and what it has written -/
  writer : List Message
  closed : Bool
  written : List Message
  /-- the segments that the peer has sent, and what the reader has done -/
  arrived : List TransferSegmentMessage
  events : List Event
deriving DecidableEq, Repr

inductive TaskLabel where
  | reader (l : Label)
  /-- the ingest task takes an item -/
  | take
  /-- and is done with it -/
  | settle (r : Dispatched)
  /-- and finds the writer closed -/
  | lost
  | write
  | keepalive
  | close
deriving DecidableEq, Repr

def Label.segment (l : Label) : Option TransferSegmentMessage :=
  match l.input with
  | .peer (.transferSegment msg) => some msg
  | _ => none

def Event.item : Event → Option Ingest
  | .queue item => some item
  | _ => none

def Event.message : Event → Option Message
  | .send msg => some msg
  | .feed msg => some (.transferSegment msg)
  | _ => none

namespace Tasks

def Queues (t : Tasks) (events : List Event) : Prop :=
  received events = [] ∨ (events.filterMap Event.item = [] ↔ t.stopped = true)

instance (t : Tasks) (events : List Event) : Decidable (t.Queues events) :=
  inferInstanceAs (Decidable (_ ∨ _))

def readerStep (t : Tasks) (l : Label) : Option Tasks :=
  match State.step t.reader l with
  | some (reader, events) =>
    if t.Queues events then
      some { t with
        reader
        queue := t.queue ++ events.filterMap Event.item
        writer := t.writer ++ events.filterMap Event.message
        arrived := t.arrived ++ l.segment.toList
        events := t.events ++ events }
    else none
  | none => none

def take (t : Tasks) : Option Tasks :=
  match t.stopped, t.busy, t.queue with
  | false, none, item :: queue => some { t with busy := some item, queue }
  | _, _, _ => none

/-- `run_ingest`: the item is dealt with, and the answer fed to the writer. -/
def settle (t : Tasks) (r : Dispatched) : Option Tasks :=
  match t.busy with
  | some (.ack ack) => some { t with busy := none, writer := t.writer ++ [.transferAck ack] }
  | some (.dispatch _ ack) =>
    match r with
    | .accepted => some { t with busy := none, writer := t.writer ++ [.transferAck ack] }
    | .refused => some { t with
        busy := none
        writer := t.writer ++ [.transferRefuse ⟨.notAcceptable, ack.transferId⟩] }
    | .failed => some { t with busy := none, stopped := true }
  | none => none

def lost (t : Tasks) : Option Tasks :=
  match t.busy with
  | some _ => some { t with busy := none, stopped := true }
  | none => none

def write (t : Tasks) : Option Tasks :=
  match t.closed, t.writer with
  | false, msg :: writer => some { t with writer, written := t.written ++ [msg] }
  | _, _ => none

def keepalive (t : Tasks) : Option Tasks :=
  if t.closed then none else some { t with written := t.written ++ [.keepalive] }

def step (t : Tasks) : TaskLabel → Option Tasks
  | .reader l => t.readerStep l
  | .take => t.take
  | .settle r => t.settle r
  | .lost => t.lost
  | .write => t.write
  | .keepalive => t.keepalive
  | .close => some { t with closed := true }

def new (segmentMtu transferMru : UInt64) : Tasks where
  reader := ⟨.new segmentMtu transferMru, .main⟩
  queue := []
  busy := none
  stopped := false
  writer := []
  closed := false
  written := []
  arrived := []
  events := []

def machine (segmentMtu transferMru : UInt64) : Machine Tasks TaskLabel :=
  Machine.ofStep (· = new segmentMtu transferMru) step

end Tasks

/-! ## Answers -/

/-- An answer to segments of the peer, or the dispatch that it will come from. -/
inductive Answer where
  | ack (msg : TransferAckMessage)
  | dispatch (msg : TransferAckMessage)
  | refuse (transferId : UInt64)
deriving DecidableEq, Repr

def Answer.transferId : Answer → UInt64
  | .ack msg | .dispatch msg => msg.transferId
  | .refuse id => id

def Message.answer : Message → Option Answer
  | .transferAck ack => some (.ack ack)
  | .transferRefuse msg => some (.refuse msg.transferId)
  | _ => none

def Ingest.answer : Ingest → Answer
  | .ack msg => .ack msg
  | .dispatch _ msg => .dispatch msg

def XferAck.message (ack : XferAck) : TransferAckMessage :=
  ⟨ack.flags, ack.transferId, .ofNat ack.acknowledgedLength⟩

def ackMessages (run : List TransferSegmentMessage) : List TransferAckMessage :=
  (expectedAcks 0 run).map XferAck.message

/-- The answers to a transfer: acknowledgements of its first segments, and at the end a
dispatch, or a refusal where there are more segments. -/
inductive Answers (id : UInt64) (acks : List TransferAckMessage) (n : Nat) :
    List Answer → Prop where
  | acks {given : List TransferAckMessage} (h : given <+: acks) :
      Answers id acks n (given.map .ack)
  | dispatch {given : List TransferAckMessage} {ack : TransferAckMessage}
      (h : given ++ [ack] <+: acks) : Answers id acks n (given.map .ack ++ [.dispatch ack])
  | refuse {given : List TransferAckMessage} (h : given <+: acks) (hn : given.length < n) :
      Answers id acks n (given.map .ack ++ [.refuse id])

section

variable {id : UInt64} {acks acks' : List TransferAckMessage} {n n' : Nat} {s s' : List Answer}

theorem Answers.mono (h : Answers id acks n s) (hacks : acks <+: acks') (hn : n ≤ n') :
    Answers id acks' n' s := by
  cases h with
  | acks h => exact .acks (h.trans hacks)
  | dispatch h => exact .dispatch (h.trans hacks)
  | refuse h hlt => exact .refuse (h.trans hacks) (hlt.trans_le hn)

theorem prefix_concat {α : Type} {l l' : List α} {a : α} (h : l' <+: l ++ [a]) :
    l' <+: l ∨ l' = l ++ [a] :=
  (List.prefix_concat_iff.mp h).symm

theorem Answers.of_front (h : Answers id acks n s) (hs : s' <+: s) : Answers id acks n s' := by
  have hgiven : ∀ {given : List TransferAckMessage}, given <+: acks → s' <+: given.map .ack →
      Answers id acks n s' := fun {given} hg hp => by
    obtain ⟨given', hgiven', rfl⟩ := List.prefix_map_iff.mp hp
    exact .acks (hgiven'.trans hg)
  cases h with
  | acks h => exact hgiven h hs
  | dispatch h =>
    rcases prefix_concat hs with hs | rfl
    · exact hgiven ((List.prefix_append _ _).trans h) hs
    · exact .dispatch h
  | refuse h hlt =>
    rcases prefix_concat hs with hs | rfl
    · exact hgiven h hs
    · exact .refuse h hlt

theorem map_ack_concat_eq {given : List TransferAckMessage} {x y : Answer} {pre post : List Answer}
    (h : given.map .ack ++ [x] = pre ++ y :: post) (hy : ∀ msg, y ≠ .ack msg) :
    given.map .ack = pre ∧ x = y ∧ post = [] := by
  rcases List.append_eq_append_iff.mp h with ⟨c, hpre, hx⟩ | ⟨c, hgiven, hpost⟩
  · cases c with
    | nil =>
      cases hx
      exact ⟨(hpre.trans (List.append_nil _)).symm, rfl, rfl⟩
    | cons z c => cases c <;> cases hx
  · cases c with
    | nil =>
      cases hpost
      exact ⟨hgiven.trans (List.append_nil _), rfl, rfl⟩
    | cons z c =>
      obtain ⟨rfl, -⟩ := List.cons.inj hpost
      have hmem : y ∈ given.map .ack := hgiven ▸ List.mem_append_right pre List.mem_cons_self
      obtain ⟨msg, -, hmsg⟩ := List.mem_map.mp hmem
      exact absurd hmsg.symm (hy msg)

theorem Answers.settle {msg : TransferAckMessage} {pre post : List Answer}
    (h : Answers id acks n (pre ++ .dispatch msg :: post)) (hn : acks.length ≤ n) :
    Answers id acks n (pre ++ .ack msg :: post) ∧ Answers id acks n (pre ++ .refuse id :: post) := by
  have hne : ∀ m, Answer.dispatch msg ≠ .ack m := fun m h => Answer.noConfusion h
  generalize hs : pre ++ .dispatch msg :: post = s at h
  cases h with
  | acks hgiven =>
    have hmem : Answer.dispatch msg ∈ pre ++ .dispatch msg :: post :=
      List.mem_append_right pre List.mem_cons_self
    rw [hs] at hmem
    obtain ⟨m, -, hm⟩ := List.mem_map.mp hmem
    exact absurd hm.symm (hne m)
  | @dispatch given m hgiven =>
    obtain ⟨rfl, heq, rfl⟩ := map_ack_concat_eq hs.symm hne
    cases heq
    refine ⟨?_, .refuse ((List.prefix_append _ _).trans hgiven) ?_⟩
    · have hmap : (given ++ [msg]).map Answer.ack = given.map Answer.ack ++ [.ack msg] :=
        List.map_append
      rw [← hmap]
      exact .acks hgiven
    · have hlength := hgiven.length_le
      rw [List.length_append, List.length_singleton] at hlength
      omega
  | refuse hgiven hlt =>
    obtain ⟨-, heq, -⟩ := map_ack_concat_eq hs.symm hne
    cases heq

end

end Hardy.Tcpcl
