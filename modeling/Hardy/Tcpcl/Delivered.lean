import Hardy.Tcpcl.Roundtrip
import Hardy.Tcpcl.Segmentation

/-!
# Transfers from one session to another

The segments of some bundles, written one after the other and cut into chunks by the
network, reach the ingest task of the other session as these bundles, and are answered
with the acknowledgements that the sender expects.
-/

namespace Hardy.Tcpcl

open Cbor

/-! ## What comes of it -/

/-- The bundles that go to the BPA. -/
def dispatched (events : List Event) : List Bytes :=
  events.filterMap fun
    | .queue (.dispatch bundle _) => some bundle
    | _ => none

def acknowledgements (events : List Event) : List TransferAckMessage :=
  events.filterMap fun
    | .queue (.dispatch _ ack) => some ack
    | .queue (.ack ack) => some ack
    | _ => none

theorem dispatched_append (events events' : List Event) :
    dispatched (events ++ events') = dispatched events ++ dispatched events' :=
  List.filterMap_append

theorem acknowledgements_append (events events' : List Event) :
    acknowledgements (events ++ events') = acknowledgements events ++ acknowledgements events' :=
  List.filterMap_append

/-- A session that waits in the loop of `run` gets these messages, and waits there again. -/
def Session.Gets (s : Session) (msgs : List Message) (s' : Session) (events : List Event) : Prop :=
  ∀ before, Machine.runSteps (Machine.emit State.step) (⟨s, .main⟩, before)
    (msgs.map fun msg => ⟨.peer msg, none⟩) = some (⟨s', .main⟩, before ++ events)

theorem runSteps_append {S L : Type} {f : S → L → Option S} (s : S) (ls ls' : List L) :
    Machine.runSteps f s (ls ++ ls') =
      (Machine.runSteps f s ls).bind (Machine.runSteps f · ls') := by
  induction ls generalizing s with
  | nil => rfl
  | cons l ls ih =>
    rw [List.cons_append, Machine.runSteps, Machine.runSteps, Option.bind_assoc]
    exact congrArg _ (funext fun t => ih t)

namespace Session

variable {s s' s'' : Session} {msgs msgs' : List Message} {events events' : List Event}

theorem Gets.nil (s : Session) : s.Gets [] s [] := fun before => by
  rw [List.append_nil]
  rfl

theorem Gets.cons {msg : Message}
    (h : State.mainStep s ⟨.peer msg, none⟩ = some (⟨s', .main⟩, events))
    (h' : s'.Gets msgs s'' events') : s.Gets (msg :: msgs) s'' (events ++ events') :=
  fun before => by
    rw [List.map_cons, Machine.runSteps, Machine.emit, State.step, h, ← List.append_assoc]
    exact h' (before ++ events)

theorem Gets.append (h : s.Gets msgs s' events) (h' : s'.Gets msgs' s'' events') :
    s.Gets (msgs ++ msgs') s'' (events ++ events') := fun before => by
  rw [List.map_append, runSteps_append, h before, ← List.append_assoc]
  exact h' (before ++ events)

end Session

/-! ## One transfer -/

/-- The session is where the segments behind `bundle` are due. -/
def Session.Awaits (s : Session) (start : Bool) (bundle : Bytes) : Prop :=
  if start then s.ingressBundle = none ∧ bundle = []
  else s.ingressBundle = some bundle ∧ s.refusing = none

theorem Session.added {s : Session} {bundle : Bytes} (msg : TransferSegmentMessage)
    (h : s.Awaits msg.messageFlags.start bundle)
    (hfits : msg.data.length + bundle.length ≤ s.transferMru.toNat) :
    State.mainStep s ⟨.peer (.transferSegment msg), none⟩ = some (⟨{ s with
        refusing := none
        ingressBundle := if msg.messageFlags.finish then none else some (bundle ++ msg.data) },
        .main⟩,
      [.received msg, .queue (if msg.messageFlags.finish then
        .dispatch (bundle ++ msg.data) (ackOf msg bundle) else .ack (ackOf msg bundle))]) := by
  have hon : s.onTransfer msg none = { s with refusing := none }.append bundle msg none := by
    unfold Awaits at h
    unfold onTransfer
    split at h
    · next hstart =>
        obtain ⟨hnone, rfl⟩ := h
        rw [if_pos hstart, hnone]
    · next hstart =>
        obtain ⟨hsome, hrefusing⟩ := h
        have hself : { s with refusing := none } = s := by rw [← hrefusing]
        rw [hself, if_neg hstart, if_neg (by rw [hrefusing]; simp), hsome]
  show some ((s.onTransfer msg none).andThen (State.stay .main) State.fail) = _
  rw [hon, append, if_neg (Nat.not_lt.mpr hfits)]
  cases msg.messageFlags.finish <;> rfl

theorem Session.gets_transfer (mtu : Nat) (id : UInt64) (start : Bool) (rest : Bytes) {s : Session}
    {bundle : Bytes} (h : s.Awaits start bundle)
    (hfits : bundle.length + rest.length ≤ s.transferMru.toNat) :
    ∃ events, s.Gets ((segmentsOf mtu id start rest).map .transferSegment)
        { s with refusing := none, ingressBundle := none } events ∧
      dispatched events = [bundle ++ rest] ∧
      List.Forall₂ XferAck.Matches (expectedAcks bundle.length (segmentsOf mtu id start rest))
        (acknowledgements events) := by
  induction start, rest using segmentsOf.induct mtu generalizing s bundle with
  | case1 start rest hlt ih =>
    have hlen := List.length_take_of_le hlt.1.le
    have hadded := added ⟨⟨start, false, 0⟩, id, [], rest.take mtu⟩ h (by dsimp only; omega)
    have hawaits : Awaits { s with
        refusing := none, ingressBundle := some (bundle ++ rest.take mtu) } false
      (bundle ++ rest.take mtu) := ⟨rfl, rfl⟩
    obtain ⟨events, hgets, hdispatched, hacks⟩ := ih hawaits
      (by rw [List.length_append, List.length_drop]; dsimp only; omega)
    rw [segmentsOf, if_pos hlt]
    refine ⟨_, Gets.cons hadded hgets, ?_, ?_⟩
    · rw [dispatched_append, hdispatched, List.append_assoc, List.take_append_drop]
      rfl
    · rw [acknowledgements_append]
      rw [List.length_append] at hacks
      exact .cons ⟨rfl, rfl, congrArg UInt64.ofNat List.length_append.symm⟩ hacks
  | case2 start rest hlt =>
    have hadded := added ⟨⟨start, true, 0⟩, id, [], rest⟩ h (by dsimp only; omega)
    rw [segmentsOf, if_neg hlt]
    refine ⟨_, Gets.cons hadded (.nil _), rfl, ?_⟩
    exact .cons ⟨rfl, rfl, congrArg UInt64.ofNat List.length_append.symm⟩ .nil

/-! ## Any number of transfers -/

theorem segmentsOf_buildable {mtu : Nat} {id : UInt64} {start : Bool} {rest : Bytes}
    (h : rest.length < 2 ^ 64) : ∀ msg ∈ segmentsOf mtu id start rest, msg.Buildable := by
  have hone : ∀ (flags : SegmentFlags) (data : Bytes), flags.reserved = 0 → data.length < 2 ^ 64 →
      TransferSegmentMessage.Buildable ⟨flags, id, [], data⟩ := fun flags data hflags hdata =>
    { messageFlags := by rw [SegmentFlags.Masked, hflags]; rfl
      first := fun _ => rfl
      length := nofun
      flags := nofun
      total := Nat.two_pow_pos 32
      data := hdata }
  induction start, rest using segmentsOf.induct mtu with
  | case1 start rest hlt ih =>
    rw [segmentsOf, if_pos hlt]
    refine List.forall_mem_cons.mpr ⟨hone _ _ rfl ?_, ih ?_⟩
    · exact (List.length_take_le' mtu rest).trans_lt h
    · rw [List.length_drop]
      omega
  | case2 start rest hlt =>
    rw [segmentsOf, if_neg hlt]
    exact List.forall_mem_singleton.mpr (hone _ _ rfl h)

def transfersOf (mtu : Nat) (bundles : List (UInt64 × Bytes)) : List TransferSegmentMessage :=
  bundles.flatMap fun b => segmentsOf mtu b.1 true b.2

def acksOf (mtu : Nat) (bundles : List (UInt64 × Bytes)) : List XferAck :=
  bundles.flatMap fun b => expectedAcks 0 (segmentsOf mtu b.1 true b.2)

theorem Session.gets_transfers (mtu : Nat) {s : Session} {bundles : List (UInt64 × Bytes)}
    (h : s.ingressBundle = none) (hfits : ∀ b ∈ bundles, b.2.length ≤ s.transferMru.toNat) :
    ∃ s' events, s.Gets ((transfersOf mtu bundles).map .transferSegment) s' events ∧
      s'.ingressBundle = none ∧ dispatched events = bundles.map (·.2) ∧
      List.Forall₂ XferAck.Matches (acksOf mtu bundles) (acknowledgements events) := by
  induction bundles generalizing s with
  | nil => exact ⟨s, [], .nil s, h, rfl, .nil⟩
  | cons b bundles ih =>
    obtain ⟨hb, hbundles⟩ := List.forall_mem_cons.mp hfits
    obtain ⟨events, hgets, hdispatched, hacks⟩ :=
      gets_transfer mtu b.1 true b.2 (s := s) ⟨h, rfl⟩ ((Nat.zero_add _).trans_le hb)
    obtain ⟨s', events', hgets', hs', hdispatched', hacks'⟩ :=
      ih (s := { s with refusing := none, ingressBundle := none }) rfl hbundles
    refine ⟨s', events ++ events', ?_, hs', ?_, ?_⟩
    · rw [transfersOf, List.flatMap_cons, List.map_append]
      exact hgets.append hgets'
    · rw [dispatched_append, hdispatched, hdispatched']
      rfl
    · rw [acknowledgements_append]
      exact List.rel_append hacks hacks'

theorem transfersOf_size {mtu : Nat} {bundles : List (UInt64 × Bytes)}
    (h : ∀ b ∈ bundles, 0 < mtu ∨ b.2 = []) :
    ∀ msg ∈ transfersOf mtu bundles, msg.data.length ≤ mtu := by
  intro msg hmsg
  obtain ⟨b, hb, hmsg⟩ := List.mem_flatMap.mp hmsg
  exact segmentsOf_size (h b hb) msg hmsg

/-- The bundles that one session cuts to its MTU, feeds to the writer and has carried in chunks
of any size go to the BPA of the other session in their order, and are acknowledged. -/
theorem transfers_delivered [Crates] (segmentMtu : UInt64) {mru : UInt64} (mtu : Nat)
    (bundles : List (UInt64 × Bytes)) (chunks : List Bytes)
    (hmtu : ∀ b ∈ bundles, 0 < mtu ∨ b.2 = [])
    (hfits : ∀ b ∈ bundles, b.2.length ≤ mru.toNat)
    (hchunks : chunks.flatten =
      (transfersOf mtu bundles).flatMap fun msg => (Message.transferSegment msg).encode) :
    (∀ msg ∈ transfersOf mtu bundles, msg.data.length ≤ mtu) ∧
    ∃ msgs s' events, FrameDecoder.feedAll Message.decode chunks = .ok (msgs, []) ∧
      (Session.new segmentMtu mru).Gets msgs s' events ∧ s'.ingressBundle = none ∧
      dispatched events = bundles.map (·.2) ∧
      List.Forall₂ XferAck.Matches (acksOf mtu bundles) (acknowledgements events) := by
  obtain ⟨s', events, hgets, hrest⟩ :=
    Session.gets_transfers mtu (s := .new segmentMtu mru) rfl hfits
  refine ⟨transfersOf_size hmtu, _, s', events,
    message_framing.feedAll_eq (fun msg hmsg => ?_) ?_, hgets, hrest⟩
  · obtain ⟨seg, hseg, rfl⟩ := List.mem_map.mp hmsg
    obtain ⟨b, hb, hseg⟩ := List.mem_flatMap.mp hseg
    exact ⟨segmentsOf_buildable ((hfits b hb).trans_lt mru.toNat_lt) seg hseg, trivial⟩
  · rw [hchunks, List.flatMap_map]

theorem twoTransfers_delivered :
    (∀ msg ∈ transfersOf 2 [(7, [1, 2, 3]), (8, [4])], msg.data.length ≤ 2) ∧
    ∃ msgs s' events,
    @FrameDecoder.feedAll _ _ _ (@Message.decode .reference)
      [[1, 2, 0, 0, 0, 0, 0, 0, 0, 7, 0, 0, 0, 0, 0, 0, 0, 0, 0, 0, 0, 2, 1, 2, 1, 1, 0, 0, 0],
        [0, 0, 0, 0, 7, 0, 0, 0, 0, 0, 0, 0, 1, 3, 1, 3, 0, 0, 0, 0, 0, 0, 0, 8, 0, 0, 0, 0, 0, 0,
          0, 0, 0, 0, 0, 1, 4]] = .ok (msgs, []) ∧
      (Session.new 9 9).Gets msgs s' events ∧ s'.ingressBundle = none ∧
      dispatched events = [[1, 2, 3], [4]] ∧
      List.Forall₂ XferAck.Matches (acksOf 2 [(7, [1, 2, 3]), (8, [4])])
        (acknowledgements events) := by
  refine @transfers_delivered .reference 9 9 2 [(7, [1, 2, 3]), (8, [4])] _ ?_ ?_ ?_
  · exact fun b _ => .inl Nat.two_pos
  · decide
  · rw [transfersOf, List.flatMap_cons, segmentsOf, if_pos (by decide), segmentsOf,
      if_neg (by decide), List.flatMap_singleton, segmentsOf, if_neg (by decide)]
    rfl

end Hardy.Tcpcl
