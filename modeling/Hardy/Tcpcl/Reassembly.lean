import Hardy.Tcpcl.Inbound

/-!
# Reassembly

A bundle that goes to the BPA is the data of a run of segments that were added one after
the other.  The segments that continue a transfer are not checked to be of it: they are
where the peer sends no segment of another transfer in between.
-/

namespace Hardy.Tcpcl

open Cbor

def received (events : List Event) : List TransferSegmentMessage :=
  events.filterMap fun
    | .received msg => some msg
    | _ => none

@[simp] theorem received_append (events events' : List Event) :
    received (events ++ events') = received events ++ received events' :=
  List.filterMap_append

theorem received_inbound (events : List Event) : received (inbound events) = received events := by
  induction events with
  | nil => rfl
  | cons ev events ih =>
    cases ev with
    | send msg => cases msg <;> exact ih
    | received msg => exact congrArg (msg :: ·) ih
    | queue item => exact ih
    | feed => exact ih
    | sendOnce => exact ih
    | acknowledged => exact ih
    | refused => exact ih
    | completed => exact ih

/-- Segments of one transfer, from its first one on and without its last one. -/
structure Begun (id : UInt64) (run : List TransferSegmentMessage) : Prop where
  transferId : ∀ msg ∈ run, msg.transferId = id
  start : ∀ i msg, run[i]? = some msg → (msg.messageFlags.start = true ↔ i = 0)
  finish : ∀ msg ∈ run, msg.messageFlags.finish = false

structure Whole (id : UInt64) (run : List TransferSegmentMessage) : Prop where
  ne_nil : run ≠ []
  transferId : ∀ msg ∈ run, msg.transferId = id
  start : ∀ i msg, run[i]? = some msg → (msg.messageFlags.start = true ↔ i = 0)
  finish : ∀ i msg, run[i]? = some msg → (msg.messageFlags.finish = true ↔ i + 1 = run.length)

section

variable {id : UInt64} {run : List TransferSegmentMessage} {msg : TransferSegmentMessage}

theorem Begun.nil (id : UInt64) : Begun id [] where
  transferId _ h := absurd h List.not_mem_nil
  start i m h := by cases h
  finish _ h := absurd h List.not_mem_nil

theorem getElem?_concat {α : Type} {l : List α} {a b : α} {i : Nat}
    (h : (l ++ [a])[i]? = some b) : l[i]? = some b ∧ i < l.length ∨ a = b ∧ i = l.length := by
  rcases Nat.lt_trichotomy i l.length with hlt | heq | hgt
  · rw [List.getElem?_append_left hlt] at h
    exact .inl ⟨h, hlt⟩
  · rw [heq, List.getElem?_concat_length] at h
    exact .inr ⟨Option.some.inj h, heq⟩
  · rw [List.getElem?_eq_none (by rw [List.length_append, List.length_singleton]; omega)] at h
    cases h

theorem Begun.transferId_concat (h : Begun id run) (hid : msg.transferId = id) :
    ∀ m ∈ run ++ [msg], m.transferId = id := by
  intro m hm
  rcases List.mem_append.mp hm with hm | hm
  · exact h.transferId m hm
  · cases List.mem_singleton.mp hm
    exact hid

theorem Begun.start_concat (h : Begun id run)
    (hstart : msg.messageFlags.start = true ↔ run = []) (i : Nat) (m : TransferSegmentMessage)
    (hm : (run ++ [msg])[i]? = some m) : m.messageFlags.start = true ↔ i = 0 := by
  rcases getElem?_concat hm with ⟨hm, -⟩ | ⟨rfl, rfl⟩
  · exact h.start i m hm
  · rw [hstart, List.length_eq_zero_iff]

theorem Begun.added (h : Begun id run) (hid : msg.transferId = id)
    (hstart : msg.messageFlags.start = true ↔ run = []) (hfinish : msg.messageFlags.finish = false) :
    Begun id (run ++ [msg]) where
  transferId := h.transferId_concat hid
  start := h.start_concat hstart
  finish m hm := by
    rcases List.mem_append.mp hm with hm | hm
    · exact h.finish m hm
    · cases List.mem_singleton.mp hm
      exact hfinish

theorem Begun.completed (h : Begun id run) (hid : msg.transferId = id)
    (hstart : msg.messageFlags.start = true ↔ run = []) (hfinish : msg.messageFlags.finish = true) :
    Whole id (run ++ [msg]) where
  ne_nil := List.append_ne_nil_of_right_ne_nil run (List.cons_ne_nil msg [])
  transferId := h.transferId_concat hid
  start := h.start_concat hstart
  finish i m hm := by
    rw [List.length_append, List.length_singleton, Nat.add_right_cancel_iff]
    rcases getElem?_concat hm with ⟨hm, hlt⟩ | ⟨rfl, rfl⟩
    · rw [h.finish m (List.mem_of_getElem? hm)]
      exact iff_of_false Bool.false_ne_true hlt.ne
    · exact iff_of_true hfinish rfl

end

/-! ## Runs -/

def dataOf (run : List TransferSegmentMessage) : Bytes := run.flatMap (·.data)

theorem dataOf_concat {run : List TransferSegmentMessage} {bundle : Bytes}
    (h : dataOf run = bundle) (msg : TransferSegmentMessage) :
    dataOf (run ++ [msg]) = bundle ++ msg.data := by
  rw [← h, dataOf, List.flatMap_append, List.flatMap_singleton]
  rfl

/-- A bundle that goes to the BPA is what the segments before it, of one transfer, hold. -/
def OneTransfer (mru : UInt64) (pre : List Event) : Event → Prop
  | .queue (.dispatch bundle ack) => ∃ old run, received pre = old ++ run ∧
      Whole ack.transferId run ∧ dataOf run = bundle ∧ bundle.length ≤ mru.toNat ∧
      ack.acknowledgedLength.toNat = bundle.length
  | _ => True

def Continues (p : State × List Event) (l : Label) : Prop :=
  ∀ msg bundle, l.input = .peer (.transferSegment msg) → msg.messageFlags.start = false →
    p.1.session.ingressBundle = some bundle →
    msg.data.length + bundle.length ≤ p.1.session.transferMru.toNat →
    ∀ last ∈ (received p.2).getLast?, msg.transferId = last.transferId

/-- The bundle that is reassembled is what the last segments hold. -/
structure Reassembling (mru : UInt64) (p : State × List Event) : Prop where
  transferMru : p.1.session.transferMru = mru
  bundle : ∀ bundle, p.1.session.ingressBundle = some bundle → ∃ old run id,
    received p.2 = old ++ run ∧ run ≠ [] ∧ Begun id run ∧ dataOf run = bundle
  dispatched : Machine.Each (OneTransfer mru) p.2

variable {p : State × List Event} {mru : UInt64}

theorem Reassembling.adds (h : Reassembling mru p)
    {l : Label} (hc : Continues p l) {msg : TransferSegmentMessage}
    (hinput : l.input = .peer (.transferSegment msg)) {bundle : Bytes} {refusing : Option UInt64}
    (hadds : p.1.session.Adds msg bundle refusing)
    (hfits : msg.data.length + bundle.length ≤ p.1.session.transferMru.toNat) :
    ∃ old run, received p.2 = old ++ run ∧ Begun msg.transferId run ∧
      (msg.messageFlags.start = true ↔ run = []) ∧ dataOf run = bundle := by
  cases hadds with
  | first hstart hopen =>
    exact ⟨received p.2, [], (List.append_nil _).symm, .nil _, iff_of_true hstart rfl, rfl⟩
  | next hstart hid hopen =>
    obtain ⟨old, run, id, hreceived, hne, hbegun, hdata⟩ := h.bundle bundle hopen
    have hlast : run.getLast hne ∈ (received p.2).getLast? := by
      rw [hreceived, List.getLast?_append_of_ne_nil _ hne]
      exact List.getLast?_eq_getLast_of_ne_nil hne
    have heq : msg.transferId = id := (hc msg bundle hinput hstart hopen hfits _ hlast).trans
      (hbegun.transferId _ (List.getLast_mem hne))
    refine ⟨old, run, hreceived, heq ▸ hbegun, iff_of_false ?_ hne, hdata⟩
    rw [hstart]
    exact Bool.false_ne_true

/-- What a step has to keep: the bundle is the old one, or what the last segments hold,
and what goes to the BPA is one transfer. -/
structure Keeps (mru : UInt64) (p : State × List Event) (bundle : Option Bytes)
    (events : List Event) : Prop where
  bundle : ∀ b, bundle = some b → (p.1.session.ingressBundle = some b ∧ received events = []) ∨
    ∃ old run id, received (p.2 ++ events) = old ++ run ∧ run ≠ [] ∧ Begun id run ∧ dataOf run = b
  dispatched : ∀ pre ev post, events = pre ++ ev :: post → OneTransfer mru (p.2 ++ pre) ev

variable {events : List Event}

theorem keeps_dispatched
    (h : ∀ b ack, .queue (.dispatch b ack) ∉ events) (pre : List Event) (ev : Event)
    (post : List Event) (heq : events = pre ++ ev :: post) : OneTransfer mru (p.2 ++ pre) ev := by
  unfold OneTransfer
  split
  · next b ack =>
      exact absurd (heq ▸ List.mem_append_right pre List.mem_cons_self) (h b ack)
  · trivial

theorem Keeps.same
    (hreceived : received events = []) (h : ∀ b ack, .queue (.dispatch b ack) ∉ events) :
    Keeps mru p p.1.session.ingressBundle events where
  bundle _ hb := .inl ⟨hb, hreceived⟩
  dispatched := keeps_dispatched h

theorem Keeps.none (h : ∀ b ack, .queue (.dispatch b ack) ∉ events) : Keeps mru p none events where
  bundle _ hb := by cases hb
  dispatched := keeps_dispatched h

section

variable {mru : UInt64} {p : State × List Event} {l : Label} {msg : TransferSegmentMessage}

theorem Reassembling.keeps (h : Reassembling mru p) (hc : Continues p l)
    (hinput : l.input = .peer (.transferSegment msg)) {bundle : Option Bytes}
    {refusing : Option UInt64} {fault : Option SessionError}
    (htakes : p.1.session.Takes msg fault bundle refusing events) : Keeps mru p bundle events := by
  cases htakes with
  | outOfOrder hstart hopen => exact .none fun _ _ => List.not_mem_nil
  | swallowed hstart hid => exact .same rfl fun _ _ => List.not_mem_nil
  | unexpected hstart hid hopen => exact .none fun _ _ => List.not_mem_nil
  | tooLong hadds hlong =>
    refine .none fun b ack hmem => ?_
    cases fault with
    | none => cases List.mem_singleton.mp hmem
    | some e => exact List.not_mem_nil hmem
  | @added bundle refusing hadds hfits hfinish =>
    obtain ⟨old, run, hreceived, hbegun, hstart, hdata⟩ := h.adds hc hinput hadds hfits
    have hrun := hbegun.added rfl hstart hfinish
    have hall : received p.2 ++ [msg] = old ++ (run ++ [msg]) := by
      rw [hreceived, List.append_assoc]
    have hwhole := dataOf_concat hdata msg
    have hne : run ++ [msg] ≠ [] := List.concat_ne_nil _ _
    refine ⟨fun b hb => .inr ?_, keeps_dispatched fun b ack hmem => ?_⟩
    · cases hb
      refine ⟨old, run ++ [msg], msg.transferId, ?_, hne, hrun, hwhole⟩
      rw [received_append, ← hall]
      cases fault <;> rfl
    · cases fault with
      | none =>
        rcases List.mem_cons.mp hmem with heq | hmem
        · cases heq
        · cases List.mem_singleton.mp hmem
      | some e => cases List.mem_singleton.mp hmem
  | @completed bundle refusing hadds hfits hfinish =>
    obtain ⟨old, run, hreceived, hbegun, hstart, hdata⟩ := h.adds hc hinput hadds hfits
    have hrun := hbegun.completed rfl hstart hfinish
    have hwhole := dataOf_concat hdata msg
    have hlength : (bundle ++ msg.data).length ≤ mru.toNat := by
      rw [List.length_append, Nat.add_comm, ← h.transferMru]
      exact hfits
    have hone : OneTransfer mru (p.2 ++ [.received msg])
        (.queue (.dispatch (bundle ++ msg.data) (Session.ackOf msg bundle))) := by
      refine ⟨old, run ++ [msg], ?_, hrun, hwhole, hlength, ?_⟩
      · rw [received_append, hreceived, List.append_assoc]
        rfl
      · exact UInt64.toNat_ofNat_of_lt' (hlength.trans_lt mru.toNat_lt)
    refine ⟨nofun, fun pre ev post heq => ?_⟩
    cases fault with
    | none =>
      rcases pre with _ | ⟨ev₀, _ | ⟨ev₁, pre⟩⟩
      · cases heq
        trivial
      · cases heq
        exact hone
      · cases pre <;> cases heq
    | some e =>
      rcases pre with _ | ⟨ev₀, pre⟩
      · cases heq
        trivial
      · cases pre <;> cases heq

end

theorem Reassembling.of_keeps {σ' : State} (h : Reassembling mru p)
    (hmru : σ'.session.transferMru = p.1.session.transferMru)
    (hkeeps : Keeps mru p σ'.session.ingressBundle (inbound events)) :
    Reassembling mru (σ', p.2 ++ events) where
  transferMru := hmru.trans h.transferMru
  bundle b hopen := by
    rcases hkeeps.bundle b hopen with ⟨hopen, hnone⟩ | hrun
    · obtain ⟨old, run, id, hreceived, hrun⟩ := h.bundle b hopen
      refine ⟨old, run, id, ?_, hrun⟩
      rw [received_append, ← received_inbound events, hnone, hreceived]
      exact List.append_nil _
    · rwa [received_append, received_inbound, ← received_append] at hrun
  dispatched := by
    refine h.dispatched.append fun pre ev post heq => ?_
    unfold OneTransfer
    split
    · next bundle ack =>
        -- the events that are not about inbound transfers stand aside
        have hinbound : inbound events =
            inbound pre ++ .queue (.dispatch bundle ack) :: inbound post := by
          rw [heq, inbound_append]
          rfl
        obtain ⟨old, run, hreceived, hrun⟩ := hkeeps.dispatched _ _ _ hinbound
        refine ⟨old, run, ?_, hrun⟩
        rw [received_append, ← received_inbound pre, ← received_append]
        exact hreceived
    · trivial

theorem reassembling_step {l : Label} {σ' : State} (h : Reassembling mru p) (hc : Continues p l)
    (hstep : State.step p.1 l = some (σ', events)) : Reassembling mru (σ', p.2 ++ events) := by
  cases State.step_inbound hstep with
  | none _ hsame hevents =>
    refine h.of_keeps hsame.transferMru ?_
    rw [hsame.ingressBundle, hevents]
    exact .same rfl fun _ _ => List.not_mem_nil
  | transfer msg hinput hsame hevents =>
    have htakes := p.1.session.onTransfer_takes msg l.fault
    rw [← hsame.ingressBundle, ← hevents] at htakes
    refine h.of_keeps (hsame.transferMru.trans ?_) (h.keeps hc hinput htakes)
    exact p.1.session.onTransfer_transferMru msg l.fault
  | tooLate msg hinput hstart hcontrol hsame hevents =>
    refine h.of_keeps hsame.transferMru ?_
    rw [hsame.ingressBundle, hevents]
    cases l.fault with
    | none => exact .same rfl fun b ack hmem => by cases List.mem_singleton.mp hmem
    | some e => exact .same rfl fun _ _ => List.not_mem_nil

/-- Every bundle that goes to the BPA is one transfer, where no segment continues the
transfer of another. -/
theorem dispatched_oneTransfer {mtu mru : UInt64} {σ : State} {events : List Event}
    (h : ((State.machine mtu mru).only Continues).Reachable (σ, events)) :
    Machine.Each (OneTransfer mru) events := by
  refine (h.invariant (I := Reassembling mru) ?_ ?_).dispatched
  · rintro ⟨σ, events⟩ ⟨hnew, rfl⟩
    cases hnew
    exact ⟨rfl, nofun, Machine.each_nil⟩
  · rintro p l ⟨σ', events'⟩ hp ⟨hc, events, hstep, rfl⟩
    exact reassembling_step hp hc hstep

/-! ### Two segments, of one transfer and of two -/

def firstSegment : TransferSegmentMessage := ⟨⟨true, false, 0⟩, 1, [], [1]⟩

def lastSegment (id : UInt64) : TransferSegmentMessage := ⟨⟨false, true, 0⟩, id, [], [2]⟩

def segmentEvents (id : UInt64) : List Event :=
  [.received firstSegment, .queue (.ack ⟨⟨true, false, 0⟩, 1, 1⟩),
    .received (lastSegment id), .queue (.dispatch [1, 2] ⟨⟨false, true, 0⟩, id, 2⟩)]

theorem twoSegments_oneTransfer : Machine.Each (OneTransfer 100) (segmentEvents 1) := by
  have hstart : ((State.machine 10 100).only Continues).Reachable
      (⟨.new 10 100, .main⟩, []) := .start ⟨State.isNew_new 10 100, rfl⟩
  have hfirst : ((State.machine 10 100).only Continues).Reachable
      (⟨{ Session.new 10 100 with ingressBundle := some [1] }, .main⟩,
        (segmentEvents 1).take 2) := by
    refine .step ⟨.peer (.transferSegment firstSegment), none⟩ hstart
      ⟨fun msg bundle hinput hs hopen => ?_, _, rfl, rfl⟩
    cases hopen
  have hboth : ((State.machine 10 100).only Continues).Reachable
      (⟨.new 10 100, .main⟩, segmentEvents 1) := by
    refine .step ⟨.peer (.transferSegment (lastSegment 1)), none⟩ hfirst
      ⟨fun msg bundle hinput hs hopen hfits last hlast => ?_, _, rfl, rfl⟩
    cases hinput
    cases Option.some.inj hlast
    rfl
  exact dispatched_oneTransfer hboth

/-- Segments of two transfers make one bundle. -/
theorem twoTransfers_not_oneTransfer :
    ¬ ∀ (mtu mru : UInt64) (σ : State) (events : List Event),
      (State.machine mtu mru).Reachable (σ, events) → Machine.Each (OneTransfer mru) events := by
  intro h
  have hrun : Machine.runSteps (Machine.emit State.step) (⟨.new 10 100, .main⟩, [])
      [⟨.peer (.transferSegment firstSegment), none⟩,
        ⟨.peer (.transferSegment (lastSegment 2)), none⟩] =
      some (⟨.new 10 100, .main⟩, segmentEvents 2) := rfl
  obtain ⟨old, run, hreceived, hwhole, hdata, -⟩ :=
    h 10 100 _ _ (Machine.reachable_emit (State.isNew_new 10 100) hrun)
      ((segmentEvents 2).take 3) (.queue (.dispatch [1, 2] ⟨⟨false, true, 0⟩, 2, 2⟩)) [] rfl
  have hreceived : [firstSegment, lastSegment 2] = old ++ run := hreceived
  rcases old with _ | ⟨m, _ | ⟨m', old⟩⟩
  · -- both segments, of which the first is of another transfer
    have hmem : firstSegment ∈ run := by
      rw [List.nil_append] at hreceived
      rw [← hreceived]
      exact List.mem_cons_self
    have hid := hwhole.transferId firstSegment hmem
    revert hid
    decide
  · obtain ⟨-, rfl⟩ := List.cons.inj hreceived
    cases hdata
  · obtain ⟨-, hrest⟩ := List.cons.inj hreceived
    obtain ⟨-, hrest⟩ := List.cons.inj hrest
    rw [(List.append_eq_nil_iff.mp hrest.symm).2] at hdata
    cases hdata

end Hardy.Tcpcl
