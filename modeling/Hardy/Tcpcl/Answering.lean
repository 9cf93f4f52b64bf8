import Hardy.Tcpcl.Tasks

/-!
# Answers to transfers

What the writer, its queue and the ingest task hold for a transfer of the peer, in this
order, is acknowledgements of its first segments, and a dispatch or a refusal at most
behind them.  So it is where a refusal by the reader overtakes no acknowledgement, and
the peer neither uses an id twice nor mixes transfers.
-/

namespace Hardy.Tcpcl

open Cbor

def segmentsFor (id : UInt64) (run : List TransferSegmentMessage) : List TransferSegmentMessage :=
  run.filter (·.transferId = id)

def answersFor (id : UInt64) (stream : List Answer) : List Answer :=
  stream.filter (·.transferId = id)

section

variable {id : UInt64} {run : List TransferSegmentMessage} {msg : TransferSegmentMessage}

theorem segmentsFor_concat_self (h : msg.transferId = id) :
    segmentsFor id (run ++ [msg]) = segmentsFor id run ++ [msg] := by
  refine (List.filter_append ..).trans (congrArg (segmentsFor id run ++ ·) ?_)
  exact List.filter_cons_of_pos (decide_eq_true h)

theorem segmentsFor_concat_ne (h : msg.transferId ≠ id) :
    segmentsFor id (run ++ [msg]) = segmentsFor id run := by
  refine ((List.filter_append ..).trans (congrArg (segmentsFor id run ++ ·) ?_)).trans
    (List.append_nil _)
  exact List.filter_cons_of_neg (by rwa [decide_eq_true_iff])

theorem segmentsFor_mono (id : UInt64) (run : List TransferSegmentMessage)
    (msg : TransferSegmentMessage) : segmentsFor id run <+: segmentsFor id (run ++ [msg]) := by
  rw [segmentsFor, segmentsFor, List.filter_append]
  exact List.prefix_append _ _

theorem answersFor_append (id : UInt64) (s s' : List Answer) :
    answersFor id (s ++ s') = answersFor id s ++ answersFor id s' :=
  List.filter_append ..

theorem answersFor_cons_self {x : Answer} (h : x.transferId = id) (s : List Answer) :
    answersFor id (x :: s) = x :: answersFor id s :=
  List.filter_cons_of_pos (decide_eq_true h)

theorem answersFor_cons_ne {x : Answer} (h : x.transferId ≠ id) (s : List Answer) :
    answersFor id (x :: s) = answersFor id s :=
  List.filter_cons_of_neg (by rwa [decide_eq_true_iff])

theorem answersFor_eq_nil {s : List Answer} (h : ∀ x ∈ s, x.transferId ≠ id) :
    answersFor id s = [] := by
  refine List.filter_eq_nil_iff.mpr fun x hx => ?_
  rw [decide_eq_true_iff]
  exact h x hx

theorem segmentsFor_eq_nil (h : ∀ m ∈ run, m.transferId ≠ id) : segmentsFor id run = [] := by
  refine List.filter_eq_nil_iff.mpr fun m hm => ?_
  rw [decide_eq_true_iff]
  exact h m hm

end

theorem ackMessages_concat (run : List TransferSegmentMessage) (msg : TransferSegmentMessage) :
    ackMessages (run ++ [msg]) = ackMessages run ++ [Session.ackOf msg (dataOf run)] := by
  rw [ackMessages, expectedAcks_concat, List.map_append, Nat.zero_add, ← List.length_append]
  rfl

theorem length_ackMessages (run : List TransferSegmentMessage) :
    (ackMessages run).length = run.length := by
  have h : ∀ n, (expectedAcks n run).length = run.length := by
    induction run with
    | nil => exact fun _ => rfl
    | cons msg run ih => exact fun n => congrArg (· + 1) (ih _)
  rw [ackMessages, List.length_map, h]

/-! ## The ledger -/

structure Ledger where
  mru : UInt64
  ingressBundle : Option Bytes
  refusing : Option UInt64
  stopped : Bool
  arrived : List TransferSegmentMessage
  received : List TransferSegmentMessage
  stream : List Answer

namespace Ledger

def Begun (v : Ledger) (id : UInt64) : Prop :=
  ∃ msg ∈ v.arrived, msg.messageFlags.start = true ∧ msg.transferId = id

def current (v : Ledger) : Option UInt64 :=
  match v.ingressBundle with
  | some _ => v.received.getLast?.map (·.transferId)
  | none => none

def acks (v : Ledger) (id : UInt64) : List TransferAckMessage :=
  ackMessages (segmentsFor id v.received)

/-- The transfer has no answers but acknowledgements, of all its segments while the
ingest task runs. -/
structure Open (v : Ledger) (id : UInt64) (bundle : Bytes) : Prop where
  data : dataOf (segmentsFor id v.received) = bundle
  given : ∃ given, answersFor id v.stream = given.map .ack ∧ given <+: v.acks id
  exact : v.stopped = false → answersFor id v.stream = (v.acks id).map .ack

def InOrder (arrived : List TransferSegmentMessage) (id : UInt64) : Prop :=
  ∀ msg ∈ (segmentsFor id arrived).head?, msg.messageFlags.start = true

structure Answering (v : Ledger) : Prop where
  received : ∀ msg ∈ v.received, v.Begun msg.transferId
  stream : ∀ x ∈ v.stream, v.Begun x.transferId
  length : ∀ id, (segmentsFor id v.received).length ≤ (segmentsFor id v.arrived).length
  size : ∀ id, (dataOf (segmentsFor id v.received)).length ≤ v.mru.toNat
  answers : ∀ id, Answers id (v.acks id) (segmentsFor id v.arrived).length
    (answersFor id v.stream)
  current : ∀ bundle, v.ingressBundle = some bundle → v.refusing = none ∧
    ∃ id, v.current = some id ∧ v.Open id bundle
  inOrder : ∀ id, InOrder v.arrived id →
    segmentsFor id v.received <+: segmentsFor id v.arrived ∧
      (v.current = some id → segmentsFor id v.received = segmentsFor id v.arrived)

theorem Begun.concat {v : Ledger} {id : UInt64} (h : v.Begun id) (msg : TransferSegmentMessage) :
    ∃ m ∈ v.arrived ++ [msg], m.messageFlags.start = true ∧ m.transferId = id := by
  obtain ⟨m, hm, h⟩ := h
  exact ⟨m, List.mem_append_left _ hm, h⟩

theorem Answering.begun_current {v : Ledger} (h : v.Answering) {id : UInt64}
    (hid : v.current = some id) : v.Begun id := by
  unfold Ledger.current at hid
  split at hid
  · obtain ⟨msg, hmsg, rfl⟩ := Option.map_eq_some_iff.mp hid
    exact h.received msg (List.mem_of_getLast? hmsg)
  · cases hid

theorem InOrder.of_concat {arrived : List TransferSegmentMessage} {id : UInt64}
    {msg : TransferSegmentMessage} (h : InOrder (arrived ++ [msg]) id) : InOrder arrived id := by
  intro m hm
  refine h m ?_
  obtain ⟨tail, htail⟩ := segmentsFor_mono id arrived msg
  rw [← htail, List.head?_append, Option.mem_def.mp hm]
  rfl

structure Arrives (v v' : Ledger) (msg : TransferSegmentMessage) : Prop where
  mru : v'.mru = v.mru
  stopped : v'.stopped = v.stopped
  arrived : v'.arrived = v.arrived ++ [msg]
  fresh : msg.messageFlags.start = true → ¬ v.Begun msg.transferId
  received : v'.received = v.received
  bundle : v'.ingressBundle = none ∨
    v'.ingressBundle = v.ingressBundle ∧ v'.refusing = v.refusing ∧
      msg.messageFlags.start = true

section

variable {v v' : Ledger} {msg : TransferSegmentMessage}

theorem Arrives.begun (ha : Arrives v v' msg) {id : UInt64} (h : v.Begun id) : v'.Begun id := by
  unfold Begun
  rw [ha.arrived]
  exact h.concat msg

theorem Arrives.current (ha : Arrives v v' msg) (h : v.Answering) {bundle : Bytes}
    (hb : v'.ingressBundle = some bundle) : v.ingressBundle = some bundle ∧
      v'.current = v.current ∧ v'.refusing = v.refusing ∧ v.current ≠ some msg.transferId := by
  rcases ha.bundle with hnone | ⟨hsame, hrefusing, hstart⟩
  · cases hnone.symm.trans hb
  · refine ⟨hsame.symm.trans hb, ?_, hrefusing, fun hid => ha.fresh hstart (h.begun_current hid)⟩
    unfold Ledger.current
    rw [hsame, ha.received]

theorem Arrives.answering (ha : Arrives v v' msg) (h : v.Answering)
    (hstream : ∀ x ∈ v'.stream, v'.Begun x.transferId)
    (hother : ∀ id, id ≠ msg.transferId → answersFor id v'.stream = answersFor id v.stream)
    (hself : Answers msg.transferId (v.acks msg.transferId)
      (segmentsFor msg.transferId v'.arrived).length (answersFor msg.transferId v'.stream)) :
    v'.Answering where
  received m hm := ha.begun (h.received m (ha.received ▸ hm))
  stream := hstream
  length id := by
    rw [ha.received, ha.arrived]
    exact (h.length id).trans (segmentsFor_mono id v.arrived msg).length_le
  size id := by
    rw [ha.received, ha.mru]
    exact h.size id
  answers id := by
    unfold acks
    rw [ha.received]
    by_cases hid : id = msg.transferId
    · subst hid
      exact hself
    · rw [hother id hid, ha.arrived, segmentsFor_concat_ne (Ne.symm hid)]
      exact h.answers id
  current bundle hb := by
    obtain ⟨hb, hcurrent, hrefusing, hne⟩ := ha.current h hb
    obtain ⟨hnone, id, hid, hopen⟩ := h.current bundle hb
    have hother := hother id fun heq => hne (heq ▸ hid)
    refine ⟨hrefusing.trans hnone, id, hcurrent.trans hid, ?_, ?_, fun hs => ?_⟩
    · rw [ha.received]
      exact hopen.data
    · unfold acks
      rw [hother, ha.received]
      exact hopen.given
    · unfold acks
      rw [hother, ha.received]
      exact hopen.exact (ha.stopped ▸ hs)
  inOrder id hin := by
    rw [ha.arrived] at hin
    obtain ⟨hbefore, heq⟩ := h.inOrder id hin.of_concat
    rw [ha.received, ha.arrived]
    refine ⟨hbefore.trans (segmentsFor_mono id v.arrived msg), fun hid => ?_⟩
    cases hb : v'.ingressBundle with
    | none =>
      unfold Ledger.current at hid
      rw [hb] at hid
      cases hid
    | some bundle =>
      obtain ⟨-, hcurrent, -, hne⟩ := ha.current h hb
      rw [hcurrent] at hid
      rw [segmentsFor_concat_ne fun heq => hne (heq ▸ hid)]
      exact heq hid

end

structure Accepts (v v' : Ledger) (msg : TransferSegmentMessage) (bundle : Bytes)
    (x : Answer) : Prop where
  mru : v'.mru = v.mru
  stopped : v'.stopped = v.stopped
  arrived : v'.arrived = v.arrived ++ [msg]
  received : v'.received = v.received ++ [msg]
  size : (bundle ++ msg.data).length ≤ v.mru.toNat
  stream : v'.stream = if v.stopped then v.stream else v.stream ++ [x]
  answer : x = .ack (Session.ackOf msg bundle) ∧ v'.refusing = none ∧
      v'.ingressBundle = some (bundle ++ msg.data) ∨
    x = .dispatch (Session.ackOf msg bundle) ∧ v'.ingressBundle = none

theorem Answering.open_first {v : Ledger} (h : v.Answering) {msg : TransferSegmentMessage}
    (hfresh : ¬ v.Begun msg.transferId) : v.Open msg.transferId [] ∧
      (InOrder (v.arrived ++ [msg]) msg.transferId →
        segmentsFor msg.transferId v.received = segmentsFor msg.transferId v.arrived) := by
  have hreceived : segmentsFor msg.transferId v.received = [] :=
    segmentsFor_eq_nil fun m hm hid => hfresh (hid ▸ h.received m hm)
  have hstream : answersFor msg.transferId v.stream = [] :=
    answersFor_eq_nil fun x hx hid => hfresh (hid ▸ h.stream x hx)
  have hacks : v.acks msg.transferId = [] := by
    rw [acks, hreceived]
    rfl
  refine ⟨⟨?_, ⟨[], hstream, List.nil_prefix⟩, fun _ => ?_⟩, fun hin => ?_⟩
  · rw [hreceived]
    rfl
  · rw [hstream, hacks]
    rfl
  · rw [hreceived]
    cases harrived : segmentsFor msg.transferId v.arrived with
    | nil => rfl
    | cons m rest =>
      -- the first of them would have begun the transfer
      have hm : m ∈ segmentsFor msg.transferId v.arrived := harrived ▸ List.mem_cons_self
      obtain ⟨hmem, hid⟩ := List.mem_filter.mp hm
      have hstart := hin.of_concat m (by rw [harrived]; rfl)
      exact absurd ⟨m, hmem, hstart, of_decide_eq_true hid⟩ hfresh

section

variable {v v' : Ledger} {msg : TransferSegmentMessage} {bundle : Bytes} {x : Answer}

theorem Accepts.transferId (ha : Accepts v v' msg bundle x) : x.transferId = msg.transferId := by
  rcases ha.answer with ⟨rfl, -⟩ | ⟨rfl, -⟩ <;> rfl

theorem Accepts.acks_self (ha : Accepts v v' msg bundle x) (hopen : v.Open msg.transferId bundle) :
    v'.acks msg.transferId = v.acks msg.transferId ++ [Session.ackOf msg bundle] := by
  rw [acks, ha.received, segmentsFor_concat_self rfl, ackMessages_concat, hopen.data]
  rfl

theorem Accepts.answersFor_ne (ha : Accepts v v' msg bundle x) {id : UInt64}
    (hid : id ≠ msg.transferId) : answersFor id v'.stream = answersFor id v.stream := by
  rw [ha.stream]
  split
  · rfl
  · rw [answersFor_append, answersFor_cons_ne (ha.transferId ▸ hid.symm)]
    exact List.append_nil _

theorem Accepts.answersFor_self (ha : Accepts v v' msg bundle x)
    (hopen : v.Open msg.transferId bundle) (hs : v.stopped = false) :
    answersFor msg.transferId v'.stream = (v.acks msg.transferId).map .ack ++ [x] := by
  rw [ha.stream, if_neg (Bool.eq_false_iff.mp hs), answersFor_append, hopen.exact hs,
    answersFor_cons_self ha.transferId]
  rfl

theorem Accepts.answers_self (ha : Accepts v v' msg bundle x) (h : v.Answering)
    (hopen : v.Open msg.transferId bundle) :
    Answers msg.transferId (v'.acks msg.transferId)
      (segmentsFor msg.transferId v'.arrived).length (answersFor msg.transferId v'.stream) := by
  have hacks := ha.acks_self hopen
  cases hs : v.stopped with
  | true =>
    rw [ha.stream, if_pos hs, hacks, ha.arrived]
    exact (h.answers _).mono (List.prefix_append _ _) (segmentsFor_mono ..).length_le
  | false =>
    rw [ha.answersFor_self hopen hs]
    rcases ha.answer with ⟨rfl, -⟩ | ⟨rfl, -⟩
    · have hmap : (v'.acks msg.transferId).map Answer.ack =
          (v.acks msg.transferId).map Answer.ack ++ [.ack (Session.ackOf msg bundle)] := by
        rw [hacks, List.map_append]
        rfl
      rw [← hmap]
      exact .acks List.prefix_rfl
    · rw [hacks]
      exact .dispatch List.prefix_rfl

theorem Accepts.open_self (ha : Accepts v v' msg bundle x) (hopen : v.Open msg.transferId bundle)
    (hx : x = .ack (Session.ackOf msg bundle)) :
    v'.Open msg.transferId (bundle ++ msg.data) := by
  have hacks := ha.acks_self hopen
  have hmap : (v'.acks msg.transferId).map Answer.ack =
      (v.acks msg.transferId).map Answer.ack ++ [x] := by
    rw [hacks, List.map_append, hx]
    rfl
  refine ⟨?_, ?_, fun hs => ?_⟩
  · rw [ha.received, segmentsFor_concat_self rfl]
    exact dataOf_concat hopen.data msg
  · cases hs : v.stopped with
    | true =>
      obtain ⟨given, hgiven, hbefore⟩ := hopen.given
      rw [ha.stream, if_pos hs, hacks]
      exact ⟨given, hgiven, hbefore.trans (List.prefix_append _ _)⟩
    | false =>
      rw [ha.answersFor_self hopen hs, ← hmap]
      exact ⟨_, rfl, List.prefix_rfl⟩
  · rw [ha.answersFor_self hopen (ha.stopped ▸ hs), hmap]

theorem Accepts.current_self (ha : Accepts v v' msg bundle x) {b : Bytes}
    (hb : v'.ingressBundle = some b) : v'.current = some msg.transferId := by
  unfold Ledger.current
  rw [hb, ha.received, List.getLast?_concat]
  rfl

theorem Accepts.answering (ha : Accepts v v' msg bundle x) (h : v.Answering)
    (hbegun : v'.Begun msg.transferId) (hopen : v.Open msg.transferId bundle)
    (hin : InOrder (v.arrived ++ [msg]) msg.transferId →
      segmentsFor msg.transferId v.received = segmentsFor msg.transferId v.arrived) :
    v'.Answering := by
  have hmono : ∀ {id}, v.Begun id → v'.Begun id := fun {id} hb => by
    unfold Begun
    rw [ha.arrived]
    exact hb.concat msg
  refine ⟨fun m hm => ?_, fun y hy => ?_, fun id => ?_, fun id => ?_, fun id => ?_,
    fun b hb => ?_, fun id hin' => ?_⟩
  · rw [ha.received] at hm
    rcases List.mem_append.mp hm with hm | hm
    · exact hmono (h.received m hm)
    · cases List.mem_singleton.mp hm
      exact hbegun
  · rw [ha.stream] at hy
    split at hy
    · exact hmono (h.stream y hy)
    · rcases List.mem_append.mp hy with hy | hy
      · exact hmono (h.stream y hy)
      · cases List.mem_singleton.mp hy
        exact ha.transferId ▸ hbegun
  · have hlength := h.length id
    rw [ha.received, ha.arrived]
    by_cases hid : msg.transferId = id
    · rw [segmentsFor_concat_self hid, segmentsFor_concat_self hid, List.length_append,
        List.length_append]
      omega
    · rwa [segmentsFor_concat_ne hid, segmentsFor_concat_ne hid]
  · rw [ha.received, ha.mru]
    by_cases hid : msg.transferId = id
    · subst hid
      rw [segmentsFor_concat_self rfl, dataOf_concat hopen.data]
      exact ha.size
    · rw [segmentsFor_concat_ne hid]
      exact h.size id
  · by_cases hid : id = msg.transferId
    · subst hid
      exact ha.answers_self h hopen
    · unfold acks
      rw [ha.answersFor_ne hid, ha.received, ha.arrived, segmentsFor_concat_ne (Ne.symm hid),
        segmentsFor_concat_ne (Ne.symm hid)]
      exact h.answers id
  · rcases ha.answer with ⟨hx, hrefusing, hb'⟩ | ⟨-, hnone⟩
    · cases hb'.symm.trans hb
      exact ⟨hrefusing, _, ha.current_self hb, ha.open_self hopen hx⟩
    · cases hnone.symm.trans hb
  · rw [ha.arrived] at hin'
    rw [ha.received, ha.arrived]
    by_cases hid : id = msg.transferId
    · subst hid
      rw [segmentsFor_concat_self rfl, segmentsFor_concat_self rfl, hin hin']
      exact ⟨List.prefix_rfl, fun _ => rfl⟩
    · rw [segmentsFor_concat_ne (Ne.symm hid), segmentsFor_concat_ne (Ne.symm hid)]
      refine ⟨(h.inOrder id hin'.of_concat).1, fun hcurrent => ?_⟩
      cases hb : v'.ingressBundle with
      | none =>
        unfold Ledger.current at hcurrent
        rw [hb] at hcurrent
        cases hcurrent
      | some b => exact absurd (Option.some.inj (hcurrent.symm.trans (ha.current_self hb))) hid

end

theorem Answering.settle {v : Ledger} (h : v.Answering) {pre post : List Answer}
    {msg : TransferAckMessage} {y : Answer} (hs : v.stream = pre ++ .dispatch msg :: post)
    (hy : y = .ack msg ∨ y = .refuse msg.transferId) :
    Answering { v with stream := pre ++ y :: post } := by
  have hid : y.transferId = msg.transferId := by rcases hy with rfl | rfl <;> rfl
  have hother : ∀ id, msg.transferId ≠ id →
      answersFor id (pre ++ y :: post) = answersFor id v.stream := fun id hne => by
    have hne' : (Answer.dispatch msg).transferId ≠ id := hne
    rw [hs, answersFor_append, answersFor_append, answersFor_cons_ne (hid ▸ hne),
      answersFor_cons_ne hne']
  refine ⟨h.received, fun x hx => ?_, h.length, h.size, fun id => ?_, fun b hb => ?_, h.inOrder⟩
  · rcases List.mem_append.mp hx with hx | hx
    · exact h.stream x (hs ▸ List.mem_append_left _ hx)
    · rcases List.mem_cons.mp hx with rfl | hx
      · rw [hid]
        exact h.stream (.dispatch msg) (hs ▸ List.mem_append_right _ List.mem_cons_self)
      · exact h.stream x (hs ▸ List.mem_append_right _ (List.mem_cons_of_mem _ hx))
  · by_cases heq : msg.transferId = id
    · subst heq
      have hanswers := h.answers msg.transferId
      have hself : (Answer.dispatch msg).transferId = msg.transferId := rfl
      rw [hs, answersFor_append, answersFor_cons_self hself] at hanswers
      have hlength := h.length msg.transferId
      rw [← length_ackMessages] at hlength
      obtain ⟨hack, hrefuse⟩ := hanswers.settle hlength
      dsimp only
      rw [answersFor_append, answersFor_cons_self hid]
      rcases hy with rfl | rfl
      · exact hack
      · exact hrefuse
    · rw [hother id heq]
      exact h.answers id
  · obtain ⟨hrefusing, id, hcurrent, hopen⟩ := h.current b hb
    obtain ⟨given, hgiven, hbefore⟩ := hopen.given
    have hne : msg.transferId ≠ id := fun heq => by
      have hmem : Answer.dispatch msg ∈ answersFor id v.stream :=
        List.mem_filter.mpr ⟨hs ▸ List.mem_append_right _ List.mem_cons_self, decide_eq_true heq⟩
      rw [hgiven] at hmem
      obtain ⟨m, -, hm⟩ := List.mem_map.mp hmem
      cases hm
    refine ⟨hrefusing, id, hcurrent, hopen.data, ⟨given, (hother id hne).trans hgiven, hbefore⟩,
      fun hstopped => (hother id hne).trans (hopen.exact hstopped)⟩

theorem Answering.stop {v : Ledger} (h : v.Answering) {stream : List Answer}
    (hs : stream <+: v.stream) : Answering { v with stream, stopped := true } := by
  have hbefore : ∀ id, answersFor id stream <+: answersFor id v.stream := fun id => hs.filter _
  refine ⟨h.received, fun x hx => h.stream x (hs.subset hx), h.length, h.size,
    fun id => (h.answers id).of_front (hbefore id), fun b hb => ?_, h.inOrder⟩
  obtain ⟨hrefusing, id, hcurrent, hopen⟩ := h.current b hb
  obtain ⟨given, hgiven, hacks⟩ := hopen.given
  obtain ⟨given', hgiven', heq⟩ := List.prefix_map_iff.mp (hgiven ▸ hbefore id)
  exact ⟨hrefusing, id, hcurrent, hopen.data, ⟨given', heq, hgiven'.trans hacks⟩,
    fun hstopped => Bool.noConfusion hstopped⟩

end Ledger

/-! ## Steps -/

namespace Tasks

def pending (t : Tasks) : List Ingest :=
  if t.stopped then [] else t.busy.toList ++ t.queue

def stream (t : Tasks) : List Answer :=
  (t.written ++ t.writer).filterMap Message.answer ++ t.pending.map Ingest.answer

def ledger (t : Tasks) : Ledger where
  mru := t.reader.session.transferMru
  ingressBundle := t.reader.session.ingressBundle
  refusing := t.reader.session.refusing
  stopped := t.stopped
  arrived := t.arrived
  received := Tcpcl.received t.events
  stream := t.stream

/-- The peer uses no id twice and mixes no transfers, and a transfer that grows beyond
the MRU has no acknowledgement left with the ingest task. -/
def Orderly (t : Tasks) (l : TaskLabel) : Prop :=
  ∀ l' msg, l = .reader l' → l'.input = .peer (.transferSegment msg) →
    (msg.messageFlags.start = true → ¬ t.ledger.Begun msg.transferId) ∧
    (msg.messageFlags.start = false → t.reader.session.ingressBundle ≠ none →
      t.ledger.current = some msg.transferId) ∧
    ∀ bundle refusing, t.reader.session.Adds msg bundle refusing →
      t.reader.session.transferMru.toNat < msg.data.length + bundle.length →
      ∀ item ∈ t.pending, item.answer.transferId ≠ msg.transferId

end Tasks

theorem item_inbound (events : List Event) :
    (inbound events).filterMap Event.item = events.filterMap Event.item := by
  induction events with
  | nil => rfl
  | cons ev events ih =>
    cases ev with
    | send msg => cases msg <;> exact ih
    | queue item => exact congrArg (item :: ·) ih
    | received => exact ih
    | feed => exact ih
    | sendOnce => exact ih
    | acknowledged => exact ih
    | refused => exact ih
    | completed => exact ih

theorem answer_inbound (events : List Event) :
    ((inbound events).filterMap Event.message).filterMap Message.answer =
      (events.filterMap Event.message).filterMap Message.answer := by
  induction events with
  | nil => rfl
  | cons ev events ih =>
    cases ev with
    | send msg =>
      cases msg with
      | transferAck m => exact congrArg (Answer.ack m :: ·) ih
      | transferRefuse m => exact congrArg (Answer.refuse m.transferId :: ·) ih
      | sessionInit => exact ih
      | sessionTerm => exact ih
      | keepalive => exact ih
      | transferSegment => exact ih
      | reject => exact ih
    | queue item => exact ih
    | received => exact ih
    | feed => exact ih
    | sendOnce => exact ih
    | acknowledged => exact ih
    | refused => exact ih
    | completed => exact ih

namespace Tasks

def sent (t : Tasks) : List Answer := (t.written ++ t.writer).filterMap Message.answer

theorem stream_eq (t : Tasks) : t.stream = t.sent ++ t.pending.map Ingest.answer := rfl

def read (t : Tasks) (l : Label) (reader : State) (events : List Event) : Tasks :=
  { t with
    reader
    queue := t.queue ++ events.filterMap Event.item
    writer := t.writer ++ events.filterMap Event.message
    arrived := t.arrived ++ l.segment.toList
    events := t.events ++ events }

theorem readerStep_eq_some {t t' : Tasks} {l : Label} (h : t.readerStep l = some t') :
    ∃ reader events, State.step t.reader l = some (reader, events) ∧ t.Queues events ∧
      t' = t.read l reader events := by
  unfold readerStep at h
  split at h
  · next reader events hstep =>
      split at h
      · next hqueues =>
          cases h
          exact ⟨reader, events, hstep, hqueues, rfl⟩
      · cases h
  · cases h

theorem pending_read (t : Tasks) (l : Label) (reader : State) (events : List Event) :
    (t.read l reader events).pending =
      t.pending ++ if t.stopped then [] else events.filterMap Event.item := by
  obtain ⟨_, queue, busy, stopped, _⟩ := t
  cases stopped with
  | true => rfl
  | false => exact (List.append_assoc busy.toList queue (events.filterMap Event.item)).symm

theorem stream_read (t : Tasks) (l : Label) (reader : State) (events : List Event) :
    (t.read l reader events).stream =
      (t.sent ++ ((inbound events).filterMap Event.message).filterMap Message.answer) ++
        (t.pending ++ if t.stopped then [] else (inbound events).filterMap Event.item).map
          Ingest.answer := by
  rw [answer_inbound, item_inbound, stream_eq, pending_read, sent, sent, ← List.filterMap_append,
    List.append_assoc]
  rfl

theorem stream_read_nil {t : Tasks} {l : Label} {reader : State} {events : List Event}
    (h : inbound events = []) : (t.read l reader events).stream = t.stream := by
  rw [stream_read, h, stream_eq]
  split <;> exact congrArg₂ (· ++ ·) (List.append_nil _)
    (congrArg (List.map Ingest.answer) (List.append_nil _))

theorem stream_read_refuse {t : Tasks} {l : Label} {reader : State} {events : List Event}
    {msg : TransferRefuseMessage} (h : inbound events = [.send (.transferRefuse msg)]) :
    (t.read l reader events).stream =
      (t.sent ++ [.refuse msg.transferId]) ++ t.pending.map Ingest.answer := by
  rw [stream_read, h]
  split <;> exact congrArg₂ (· ++ ·) rfl (congrArg (List.map Ingest.answer) (List.append_nil _))

section

variable {t : Tasks} {l : Label} {reader : State} {events : List Event}
  {msg : TransferSegmentMessage}

theorem arrived_read (hinput : l.input = .peer (.transferSegment msg)) :
    (t.read l reader events).ledger.arrived = t.ledger.arrived ++ [msg] := by
  have hsegment : l.segment = some msg := by
    unfold Label.segment
    rw [hinput]
  exact congrArg (fun o => t.arrived ++ Option.toList o) hsegment

structure Opened (v : Ledger) (msg : TransferSegmentMessage) (bundle : Bytes) : Prop where
  begun : ∃ m ∈ v.arrived ++ [msg], m.messageFlags.start = true ∧ m.transferId = msg.transferId
  isOpen : v.Open msg.transferId bundle
  all : Ledger.InOrder (v.arrived ++ [msg]) msg.transferId →
    segmentsFor msg.transferId v.received = segmentsFor msg.transferId v.arrived

theorem opened_first {v : Ledger} (h : v.Answering) (hstart : msg.messageFlags.start = true)
    (hfresh : ¬ v.Begun msg.transferId) : Opened v msg [] where
  begun := ⟨msg, List.mem_append_right _ (List.mem_singleton_self msg), hstart, rfl⟩
  isOpen := (h.open_first hfresh).1
  all := (h.open_first hfresh).2

theorem opened_of_adds {bundle : Bytes} {refusing : Option UInt64} (h : t.ledger.Answering)
    (hc : t.Orderly (.reader l)) (hinput : l.input = .peer (.transferSegment msg))
    (hadds : t.reader.session.Adds msg bundle refusing) :
    refusing = none ∧ Opened t.ledger msg bundle := by
  obtain ⟨hfresh, hcontinues, -⟩ := hc l msg rfl hinput
  cases hadds with
  | first hstart hnone => exact ⟨rfl, opened_first h hstart (hfresh hstart)⟩
  | next hstart hid hopen =>
    have hne : t.reader.session.ingressBundle ≠ none := fun hnone => by
      cases hopen.symm.trans hnone
    have hcurrent := hcontinues hstart hne
    obtain ⟨hrefusing, id, hid', hisOpen⟩ := h.current bundle hopen
    cases hid'.symm.trans hcurrent
    refine ⟨hrefusing, (h.begun_current hcurrent).concat msg, hisOpen, fun hin => ?_⟩
    exact (h.inOrder _ hin.of_concat).2 hcurrent

theorem answering_read_nil (h : t.ledger.Answering)
    (ha : t.ledger.Arrives (t.read l reader events).ledger msg) (hevents : inbound events = []) :
    (t.read l reader events).ledger.Answering := by
  have hstream : (t.read l reader events).ledger.stream = t.ledger.stream :=
    stream_read_nil hevents
  refine ha.answering h (fun x hx => ?_) (fun id _ => ?_) ?_
  · rw [hstream] at hx
    exact ha.begun (h.stream x hx)
  · rw [hstream]
  · rw [hstream, ha.arrived]
    exact (h.answers _).mono List.prefix_rfl (segmentsFor_mono ..).length_le

theorem answering_read_refuse {bundle : Bytes} {reasonCode : TransferRefuseReasonCode}
    (h : t.ledger.Answering) (ha : t.ledger.Arrives (t.read l reader events).ledger msg)
    (hopened : Opened t.ledger msg bundle)
    (hpending : ∀ item ∈ t.pending, item.answer.transferId ≠ msg.transferId)
    (hevents : inbound events = [.send (.transferRefuse ⟨reasonCode, msg.transferId⟩)]) :
    (t.read l reader events).ledger.Answering := by
  have hstream : (t.read l reader events).ledger.stream =
      (t.sent ++ [.refuse msg.transferId]) ++ t.pending.map Ingest.answer :=
    stream_read_refuse hevents
  have hself : (Answer.refuse msg.transferId).transferId = msg.transferId := rfl
  have hnone : answersFor msg.transferId (t.pending.map Ingest.answer) = [] :=
    answersFor_eq_nil fun x hx => by
      obtain ⟨item, hitem, rfl⟩ := List.mem_map.mp hx
      exact hpending item hitem
  refine ha.answering h (fun x hx => ?_) (fun id hid => ?_) ?_
  · rw [hstream, List.append_assoc] at hx
    rcases List.mem_append.mp hx with hx | hx
    · exact ha.begun (h.stream x (List.mem_append_left _ hx))
    · rcases List.mem_cons.mp hx with rfl | hx
      · unfold Ledger.Begun
        rw [ha.arrived]
        exact hopened.begun
      · exact ha.begun (h.stream x (List.mem_append_right _ hx))
  · rw [hstream, List.append_assoc, answersFor_append, List.singleton_append,
      answersFor_cons_ne (hself ▸ hid.symm), ← answersFor_append]
    rfl
  · obtain ⟨given, hgiven, hbefore⟩ := hopened.isOpen.given
    have hold : answersFor msg.transferId t.sent = given.map .ack := by
      rw [← hgiven, ← List.append_nil (answersFor msg.transferId t.sent), ← hnone,
        ← answersFor_append]
      rfl
    have hlength : given.length < (segmentsFor msg.transferId (t.ledger.arrived ++ [msg])).length := by
      have hacks := hbefore.length_le
      have hreceived := h.length msg.transferId
      rw [Ledger.acks, length_ackMessages] at hacks
      rw [segmentsFor_concat_self rfl, List.length_append, List.length_singleton]
      omega
    rw [hstream, ha.arrived, answersFor_append, answersFor_append, hnone, hold,
      answersFor_cons_self hself, List.append_nil]
    exact .refuse hbefore hlength

theorem queues_added {item : Ingest} {fault : Option SessionError} (hqueues : t.Queues events)
    (hevents : inbound events = match fault with
      | none => [.received msg, .queue item]
      | some _ => [.received msg]) :
    inbound events = .received msg :: if t.stopped then [] else [.queue item] := by
  unfold Queues at hqueues
  rw [← received_inbound, ← item_inbound] at hqueues
  cases fault with
  | none =>
    rw [hevents] at hqueues ⊢
    rcases hqueues with hnone | hiff
    · cases hnone
    · rw [if_neg fun hs => List.cons_ne_nil _ _ (hiff.mpr hs)]
  | some e =>
    rw [hevents] at hqueues ⊢
    rcases hqueues with hnone | hiff
    · cases hnone
    · rw [if_pos (hiff.mp rfl)]

theorem stream_read_added {item : Ingest}
    (hevents : inbound events = .received msg :: if t.stopped then [] else [.queue item]) :
    (t.read l reader events).stream =
      if t.stopped then t.stream else t.stream ++ [item.answer] := by
  rw [stream_read, hevents, stream_eq]
  split
  · exact congrArg₂ (· ++ ·) (List.append_nil _) (congrArg _ (List.append_nil _))
  · exact (congrArg₂ (· ++ ·) (List.append_nil t.sent) List.map_append).trans
      (List.append_assoc ..).symm

theorem received_read_added {item : Ingest}
    (hevents : inbound events = .received msg :: if t.stopped then [] else [.queue item]) :
    (t.read l reader events).ledger.received = t.ledger.received ++ [msg] := by
  have h : received events = [msg] := by
    rw [← received_inbound, hevents]
    split <;> rfl
  dsimp only [ledger, read]
  rw [received_append, h]

theorem answering_read_added {bundle : Bytes} {item : Ingest} (h : t.ledger.Answering)
    (hinput : l.input = .peer (.transferSegment msg)) (hopened : Opened t.ledger msg bundle)
    (hmru : reader.session.transferMru = t.reader.session.transferMru)
    (hfits : msg.data.length + bundle.length ≤ t.reader.session.transferMru.toNat)
    (hevents : inbound events = .received msg :: if t.stopped then [] else [.queue item])
    (hanswer : item.answer = .ack (Session.ackOf msg bundle) ∧ reader.session.refusing = none ∧
        reader.session.ingressBundle = some (bundle ++ msg.data) ∨
      item.answer = .dispatch (Session.ackOf msg bundle) ∧ reader.session.ingressBundle = none) :
    (t.read l reader events).ledger.Answering := by
  have ha : t.ledger.Accepts (t.read l reader events).ledger msg bundle item.answer := {
    mru := hmru
    stopped := rfl
    arrived := arrived_read hinput
    received := received_read_added hevents
    size := by
      rw [List.length_append, Nat.add_comm]
      exact hfits
    stream := stream_read_added hevents
    answer := hanswer }
  refine ha.answering h ?_ hopened.isOpen hopened.all
  unfold Ledger.Begun
  rw [ha.arrived]
  exact hopened.begun

theorem arrives_read (hinput : l.input = .peer (.transferSegment msg))
    (hc : t.Orderly (.reader l)) (hmru : reader.session.transferMru = t.reader.session.transferMru)
    (hevents : received events = [])
    (hbundle : reader.session.ingressBundle = none ∨
      reader.session.ingressBundle = t.reader.session.ingressBundle ∧
        reader.session.refusing = t.reader.session.refusing ∧ msg.messageFlags.start = true) :
    t.ledger.Arrives (t.read l reader events).ledger msg where
  mru := hmru
  stopped := rfl
  arrived := arrived_read hinput
  fresh := (hc l msg rfl hinput).1
  received := by
    dsimp only [ledger, read]
    rw [received_append, hevents, List.append_nil]
  bundle := hbundle

theorem received_of_inbound {es : List Event} (h : inbound events = es) (hes : received es = []) :
    received events = [] := by
  rw [← received_inbound, h, hes]

theorem answering_transfer (h : t.ledger.Answering) (hc : t.Orderly (.reader l))
    (hqueues : t.Queues events) (hinput : l.input = .peer (.transferSegment msg))
    (hsame : (t.reader.session.onTransfer msg l.fault).session.SameInbound reader.session)
    (hevents : inbound events = inbound (t.reader.session.onTransfer msg l.fault).events) :
    (t.read l reader events).ledger.Answering := by
  have htakes := t.reader.session.onTransfer_takes msg l.fault
  have hmru := hsame.transferMru.trans (Session.onTransfer_transferMru ..)
  rw [← hevents, ← hsame.ingressBundle, ← hsame.refusing] at htakes
  have hnothing : inbound events = [] → reader.session.ingressBundle = none →
      (t.read l reader events).ledger.Answering := fun hnone hclosed =>
    answering_read_nil h (arrives_read hinput hc hmru (received_of_inbound hnone rfl)
      (.inl hclosed)) hnone
  generalize hi : reader.session.ingressBundle = ingressBundle at htakes
  generalize hr : reader.session.refusing = refusing at htakes
  generalize he : inbound events = es at htakes
  cases htakes with
  | outOfOrder => exact hnothing he hi
  | unexpected => exact hnothing he hi
  | swallowed hstart hid =>
    refine hnothing he ?_
    cases hopen : t.reader.session.ingressBundle with
    | none => exact hi.trans hopen
    | some bundle =>
      -- what is swallowed would be the transfer of the bundle
      obtain ⟨hrefusing, -⟩ := h.current bundle hopen
      cases hid.symm.trans hrefusing
  | tooLong hadds hlong =>
    cases hfault : l.fault with
    | some e =>
      rw [hfault] at he
      exact hnothing he hi
    | none =>
      rw [hfault] at he
      obtain ⟨-, hopened⟩ := opened_of_adds h hc hinput hadds
      have ha := arrives_read hinput hc hmru (received_of_inbound he rfl) (.inl hi)
      exact answering_read_refuse h ha hopened ((hc l msg rfl hinput).2.2 _ _ hadds hlong) he
  | added hadds hfits hfinish =>
    obtain ⟨hrefusing, hopened⟩ := opened_of_adds h hc hinput hadds
    exact answering_read_added h hinput hopened hmru hfits (queues_added hqueues he)
      (.inl ⟨rfl, hr.trans hrefusing, hi⟩)
  | completed hadds hfits hfinish =>
    obtain ⟨-, hopened⟩ := opened_of_adds h hc hinput hadds
    exact answering_read_added h hinput hopened hmru hfits (queues_added hqueues he)
      (.inr ⟨rfl, hi⟩)

theorem pending_ne (h : t.ledger.Answering) {id : UInt64} (hid : ¬ t.ledger.Begun id) :
    ∀ item ∈ t.pending, item.answer.transferId ≠ id := fun _ hitem heq =>
  hid (heq ▸ h.stream _ (List.mem_append_right _ (List.mem_map_of_mem hitem)))

theorem answering_tooLate (h : t.ledger.Answering) (hc : t.Orderly (.reader l))
    (hinput : l.input = .peer (.transferSegment msg)) (hstart : msg.messageFlags.start = true)
    (hsame : t.reader.session.SameInbound reader.session)
    (hevents : inbound events = match l.fault with
      | none => [.send (.transferRefuse ⟨.sessionTerminating, msg.transferId⟩)]
      | some _ => []) :
    (t.read l reader events).ledger.Answering := by
  have hfresh := (hc l msg rfl hinput).1 hstart
  have hbundle := And.intro hsame.ingressBundle (And.intro hsame.refusing hstart)
  cases hfault : l.fault with
  | none =>
    rw [hfault] at hevents
    have ha := arrives_read hinput hc hsame.transferMru (received_of_inbound hevents rfl)
      (.inr hbundle)
    exact answering_read_refuse h ha (opened_first h hstart hfresh) (pending_ne h hfresh) hevents
  | some e =>
    rw [hfault] at hevents
    have ha := arrives_read hinput hc hsame.transferMru (received_of_inbound hevents rfl)
      (.inr hbundle)
    exact answering_read_nil h ha hevents

theorem ledger_read (hinput : ∀ msg, l.input ≠ .peer (.transferSegment msg))
    (hsame : t.reader.session.SameInbound reader.session) (hevents : inbound events = []) :
    (t.read l reader events).ledger = t.ledger := by
  have harrived : t.arrived ++ l.segment.toList = t.arrived := by
    unfold Label.segment
    split
    · next msg h => exact absurd h (hinput msg)
    · exact List.append_nil _
  have hreceived : received (t.events ++ events) = received t.events := by
    rw [received_append, received_of_inbound hevents rfl, List.append_nil]
  have hstream : (t.read l reader events).stream = t.stream := stream_read_nil hevents
  unfold ledger
  rw [hstream]
  dsimp only [read]
  rw [hsame.transferMru, hsame.ingressBundle, hsame.refusing, harrived, hreceived]

theorem answering_reader {t' : Tasks} (h : t.ledger.Answering) (hc : t.Orderly (.reader l))
    (hreader : t.readerStep l = some t') : t'.ledger.Answering := by
  obtain ⟨reader, events, hstep, hqueues, rfl⟩ := readerStep_eq_some hreader
  cases State.step_inbound hstep with
  | none hinput hsame hevents =>
    rw [ledger_read hinput hsame hevents]
    exact h
  | transfer msg hinput hsame hevents =>
    exact answering_transfer h hc hqueues hinput hsame hevents
  | tooLate msg hinput hstart _ hsame hevents =>
    exact answering_tooLate h hc hinput hstart hsame hevents

end

section

variable {t t' : Tasks}

/-- The answers are in order, and a task that has stopped is at no item. -/
structure Sound (t : Tasks) : Prop where
  answering : t.ledger.Answering
  idle : t.stopped = true → t.busy = none

theorem answering_moved {stream : List Answer} (hreader : t'.reader = t.reader)
    (harrived : t'.arrived = t.arrived) (hevents : t'.events = t.events)
    (hstream : t'.stream = stream)
    (h : Ledger.Answering { t.ledger with stopped := t'.stopped, stream }) :
    t'.ledger.Answering := by
  unfold ledger at h ⊢
  rwa [hreader, harrived, hevents, hstream]

theorem take_sound (h : t.Sound) (hstep : t.take = some t') : t'.Sound := by
  unfold take at hstep
  split at hstep
  · next item queue hstopped hbusy hqueue =>
      cases hstep
      have hstream : stream { t with busy := some item, queue } = t.stream := by
        rw [stream_eq, stream_eq, pending, pending, hbusy, hqueue]
        rfl
      exact ⟨answering_moved (t := t) rfl rfl rfl hstream h.answering,
        fun hs => Bool.noConfusion (hstopped.symm.trans hs)⟩
  · cases hstep

theorem stream_of_busy {item : Ingest} (h : t.Sound) (hbusy : t.busy = some item) :
    t.stopped = false ∧ t.stream = t.sent ++ item.answer :: t.queue.map Ingest.answer := by
  have hs : t.stopped = false := Bool.eq_false_iff.mpr fun hs => by
    cases (h.idle hs).symm.trans hbusy
  refine ⟨hs, ?_⟩
  rw [stream_eq, pending, if_neg (Bool.eq_false_iff.mp hs), hbusy]
  rfl

theorem stream_settled {msg : Message} {x : Answer} (hs : t.stopped = false)
    (hx : msg.answer = some x) :
    stream { t with busy := none, writer := t.writer ++ [msg] } =
      t.sent ++ x :: t.queue.map Ingest.answer := by
  rw [stream_eq, sent, sent, pending]
  dsimp only
  rw [if_neg (Bool.eq_false_iff.mp hs), ← List.append_assoc,
    List.filterMap_append (l := t.written ++ t.writer), List.append_assoc]
  refine congrArg (t.sent ++ ·) ?_
  rw [List.filterMap_cons_some hx]
  rfl

theorem fed_sound {item : Ingest} {msg : Message} {x : Answer} (h : t.Sound)
    (hbusy : t.busy = some item) (hx : msg.answer = some x)
    (hitem : item.answer = x ∨ ∃ ack, item.answer = .dispatch ack ∧
      (x = .ack ack ∨ x = .refuse ack.transferId)) :
    Sound { t with busy := none, writer := t.writer ++ [msg] } := by
  obtain ⟨hs, hstream⟩ := stream_of_busy h hbusy
  refine ⟨answering_moved (t := t) rfl rfl rfl (stream_settled hs hx) ?_, fun _ => rfl⟩
  rcases hitem with heq | ⟨ack, hdispatch, hy⟩
  · rw [← heq, ← hstream]
    exact h.answering
  · rw [hdispatch] at hstream
    exact h.answering.settle hstream hy

theorem stop_sound (h : t.Sound) : Sound { t with busy := none, stopped := true } := by
  have hstream : stream { t with busy := none, stopped := true } = t.sent := List.append_nil _
  exact ⟨answering_moved (t := t) rfl rfl rfl hstream
    (h.answering.stop (List.prefix_append _ _)), fun _ => rfl⟩

theorem settle_sound {r : Dispatched} (h : t.Sound) (hstep : t.settle r = some t') : t'.Sound := by
  unfold settle at hstep
  split at hstep
  · next ack hbusy =>
      cases hstep
      exact fed_sound h hbusy rfl (.inl rfl)
  · next ack hbusy =>
      cases r with
      | accepted =>
        cases hstep
        exact fed_sound h hbusy rfl (.inr ⟨ack, rfl, .inl rfl⟩)
      | refused =>
        cases hstep
        exact fed_sound h hbusy rfl (.inr ⟨ack, rfl, .inr rfl⟩)
      | failed =>
        cases hstep
        exact stop_sound h
  · cases hstep

theorem lost_sound (h : t.Sound) (hstep : t.lost = some t') : t'.Sound := by
  unfold lost at hstep
  split at hstep
  · cases hstep
    exact stop_sound h
  · cases hstep

theorem write_sound (h : t.Sound) (hstep : t.write = some t') : t'.Sound := by
  unfold write at hstep
  split at hstep
  · next msg writer hclosed hwriter =>
      cases hstep
      have hstream : stream { t with writer, written := t.written ++ [msg] } = t.stream := by
        rw [stream_eq, stream_eq, sent, sent, hwriter]
        dsimp only
        rw [List.append_assoc, List.singleton_append]
        rfl
      exact ⟨answering_moved (t := t) rfl rfl rfl hstream h.answering, h.idle⟩
  · cases hstep

theorem keepalive_sound (h : t.Sound) (hstep : t.keepalive = some t') : t'.Sound := by
  unfold keepalive at hstep
  split at hstep
  · cases hstep
  · cases hstep
    have hstream : stream { t with written := t.written ++ [.keepalive] } = t.stream := by
      rw [stream_eq, stream_eq, sent, sent]
      dsimp only
      rw [List.append_assoc, List.filterMap_append, List.filterMap_append,
        List.filterMap_append (l := t.written)]
      rfl
    exact ⟨answering_moved (t := t) rfl rfl rfl hstream h.answering, h.idle⟩

theorem readerStep_sound {l : Label} (h : t.Sound) (hc : t.Orderly (.reader l))
    (hstep : t.readerStep l = some t') : t'.Sound := by
  refine ⟨answering_reader h.answering hc hstep, ?_⟩
  obtain ⟨reader, events, -, -, rfl⟩ := readerStep_eq_some hstep
  exact h.idle

theorem sound_new (segmentMtu transferMru : UInt64) : (new segmentMtu transferMru).Sound where
  answering := {
    received := nofun
    stream := nofun
    length := fun _ => Nat.le_refl _
    size := fun _ => Nat.zero_le _
    answers := fun _ => Answers.acks (List.nil_prefix (l := []))
    current := fun _ h => by cases h
    inOrder := fun _ _ => ⟨List.prefix_rfl, fun _ => rfl⟩ }
  idle _ := rfl

theorem sound_step {l : TaskLabel} (h : t.Sound) (hc : t.Orderly l) (hstep : t.step l = some t') :
    t'.Sound := by
  cases l with
  | reader l => exact readerStep_sound h hc hstep
  | take => exact take_sound h hstep
  | settle r => exact settle_sound h hstep
  | lost => exact lost_sound h hstep
  | write => exact write_sound h hstep
  | keepalive => exact keepalive_sound h hstep
  | close =>
    cases hstep
    exact ⟨h.answering, h.idle⟩

theorem sound_of_reachable {segmentMtu transferMru : UInt64}
    (h : ((machine segmentMtu transferMru).only Orderly).Reachable t) : t.Sound := by
  refine h.invariant (fun s hs => ?_) fun s l s' hs hstep => ?_
  · cases hs
    exact sound_new segmentMtu transferMru
  · exact sound_step hs hstep.1 hstep.2

end

end Tasks

end Hardy.Tcpcl
