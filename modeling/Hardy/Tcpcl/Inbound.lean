import Hardy.Tcpcl.Acknowledged

/-!
# Inbound transfers

What a step of the task does for the transfers of the peer: most steps nothing, and the
rest a call of `on_transfer`, or the refusal of a transfer that begins too late.
-/

namespace Hardy.Tcpcl

open Cbor

def Event.inbound : Event → Bool
  | .received _ | .queue _ | .send (.transferRefuse _) | .send (.transferAck _) => true
  | _ => false

def inbound (events : List Event) : List Event := events.filter Event.inbound

@[simp] theorem inbound_append (events events' : List Event) :
    inbound (events ++ events') = inbound events ++ inbound events' :=
  List.filter_append ..

namespace Session

structure SameInbound (s s' : Session) : Prop where
  transferMru : s'.transferMru = s.transferMru
  ingressBundle : s'.ingressBundle = s.ingressBundle
  refusing : s'.refusing = s.refusing

theorem SameInbound.refl (s : Session) : s.SameInbound s := ⟨rfl, rfl, rfl⟩

theorem SameInbound.trans {s s' s'' : Session} (h : s.SameInbound s') (h' : s'.SameInbound s'') :
    s.SameInbound s'' :=
  ⟨h'.transferMru.trans h.transferMru, h'.ingressBundle.trans h.ingressBundle,
    h'.refusing.trans h.refusing⟩

inductive Adds (s : Session) (msg : TransferSegmentMessage) : Bytes → Option UInt64 → Prop where
  | first (hstart : msg.messageFlags.start = true) (hopen : s.ingressBundle = none) :
      Adds s msg [] none
  | next {bundle : Bytes} (hstart : msg.messageFlags.start = false)
      (hid : s.refusing ≠ some msg.transferId) (hopen : s.ingressBundle = some bundle) :
      Adds s msg bundle s.refusing

def ackOf (msg : TransferSegmentMessage) (bundle : Bytes) : TransferAckMessage :=
  ⟨msg.messageFlags, msg.transferId, .ofNat (bundle ++ msg.data).length⟩

/-- What a segment of the peer does: the bundle and the swallowed transfer after it, and
the events, which lack the last one where there is a fault. -/
inductive Takes (s : Session) (msg : TransferSegmentMessage) (fault : Option SessionError) :
    Option Bytes → Option UInt64 → List Event → Prop where
  /-- a transfer is cut short by another one, which is swallowed -/
  | outOfOrder (hstart : msg.messageFlags.start = true) (hopen : s.ingressBundle ≠ none) :
      Takes s msg fault none (if msg.messageFlags.finish then none else some msg.transferId) []
  /-- the segment is of a transfer that is swallowed -/
  | swallowed (hstart : msg.messageFlags.start = false) (hid : s.refusing = some msg.transferId) :
      Takes s msg fault s.ingressBundle
        (if msg.messageFlags.finish then none else s.refusing) []
  /-- there is nothing to add the segment to -/
  | unexpected (hstart : msg.messageFlags.start = false)
      (hid : s.refusing ≠ some msg.transferId) (hopen : s.ingressBundle = none) :
      Takes s msg fault none s.refusing []
  /-- the bundle grows beyond the MRU -/
  | tooLong {bundle : Bytes} {refusing : Option UInt64} (hadds : s.Adds msg bundle refusing)
      (hlong : s.transferMru.toNat < msg.data.length + bundle.length) :
      Takes s msg fault none (if msg.messageFlags.finish then none else some msg.transferId)
        (match fault with
          | none => [.send (.transferRefuse ⟨.notAcceptable, msg.transferId⟩)]
          | some _ => [])
  /-- the segment is added -/
  | added {bundle : Bytes} {refusing : Option UInt64} (hadds : s.Adds msg bundle refusing)
      (hfits : msg.data.length + bundle.length ≤ s.transferMru.toNat)
      (hfinish : msg.messageFlags.finish = false) :
      Takes s msg fault (some (bundle ++ msg.data)) refusing
        (match fault with
          | none => [.received msg, .queue (.ack (ackOf msg bundle))]
          | some _ => [.received msg])
  /-- the segment is added, and the bundle is whole -/
  | completed {bundle : Bytes} {refusing : Option UInt64} (hadds : s.Adds msg bundle refusing)
      (hfits : msg.data.length + bundle.length ≤ s.transferMru.toNat)
      (hfinish : msg.messageFlags.finish = true) :
      Takes s msg fault none refusing
        (match fault with
          | none => [.received msg, .queue (.dispatch (bundle ++ msg.data) (ackOf msg bundle))]
          | some _ => [.received msg])

theorem inbound_unexpectedMsg {α : Type} (s : Session) (t : MessageType)
    (fault : Option SessionError) (result : Except SessionError α) :
    inbound (s.unexpectedMsg t fault result).events = [] := by
  cases fault <;> rfl

theorem inbound_rejectMsg {α : Type} (s : Session) (reasonCode : MessageRejectionReasonCode)
    (n : UInt8) (fault : Option SessionError) (result : Except SessionError α) :
    inbound (s.rejectMsg reasonCode n fault result).events = [] := by
  cases fault <;> rfl

theorem append_takes {s : Session} (s' : Session) {bundle : Bytes}
    {msg : TransferSegmentMessage} (hadds : s.Adds msg bundle s'.refusing) (hmru : s'.transferMru = s.transferMru)
    (fault : Option SessionError) :
    s.Takes msg fault (s'.append bundle msg fault).session.ingressBundle
      (s'.append bundle msg fault).session.refusing
      (inbound (s'.append bundle msg fault).events) := by
  unfold append
  rw [hmru]
  split
  · next hlong =>
      have h : s.Takes msg fault _ _ _ := .tooLong hadds hlong
      cases fault <;> exact h
  · next hfits =>
      dsimp only
      split
      · next hfinish =>
          have h : s.Takes msg fault _ _ _ := .completed hadds (Nat.not_lt.mp hfits) hfinish
          cases fault <;> exact h
      · next hfinish =>
          have h : s.Takes msg fault _ _ _ :=
            .added hadds (Nat.not_lt.mp hfits) (Bool.eq_false_iff.mpr hfinish)
          cases fault <;> exact h

theorem onTransfer_takes (s : Session) (msg : TransferSegmentMessage)
    (fault : Option SessionError) :
    s.Takes msg fault (s.onTransfer msg fault).session.ingressBundle
      (s.onTransfer msg fault).session.refusing (inbound (s.onTransfer msg fault).events) := by
  unfold onTransfer
  split
  · next hstart =>
      split
      · next bundle hopen =>
          rw [inbound_unexpectedMsg, unexpectedMsg_session]
          exact .outOfOrder hstart fun hnone => Option.some_ne_none _ (hopen.symm.trans hnone)
      · next hopen => exact append_takes { s with refusing := none } (.first hstart hopen) rfl fault
  · next hstart =>
      have hstart := Bool.eq_false_iff.mpr hstart
      split
      · next hid => exact .swallowed hstart hid
      · next hid =>
          split
          · next hopen =>
              rw [inbound_unexpectedMsg, unexpectedMsg_session, hopen]
              exact .unexpected hstart hid hopen
          · next bundle hopen => exact append_takes s (.next hstart hid hopen) rfl fault

theorem onPeerMsgWhileSending_apart (s : Session) {msg : Message} (fault : Option SessionError)
    (hmsg : ∀ m, msg ≠ .transferSegment m) :
    s.SameInbound (s.onPeerMsgWhileSending msg fault).session ∧
      inbound (s.onPeerMsgWhileSending msg fault).events = [] := by
  have hreject : ∀ (s' : Session) (r : Except SessionError SendState) (n : UInt8),
      s.SameInbound s' → s.SameInbound (s'.rejectMsg .unexpected n fault r).session ∧
        inbound (s'.rejectMsg .unexpected n fault r).events = [] := fun s' r n h =>
    ⟨by rwa [rejectMsg_session], inbound_rejectMsg ..⟩
  unfold onPeerMsgWhileSending
  split
  · exact ⟨.refl s, rfl⟩
  · next m => exact absurd rfl (hmsg m)
  · split
    · split
      · exact ⟨⟨rfl, rfl, rfl⟩, rfl⟩
      · exact hreject _ _ _ ⟨rfl, rfl, rfl⟩
    · exact hreject _ _ _ (.refl s)
  · split
    · split
      · exact ⟨⟨rfl, rfl, rfl⟩, rfl⟩
      · exact hreject _ _ _ (.refl s)
    · exact hreject _ _ _ (.refl s)
  · exact hreject _ _ _ (.refl s)

theorem onTransfer_transferMru (s : Session) (msg : TransferSegmentMessage)
    (fault : Option SessionError) :
    (s.onTransfer msg fault).session.transferMru = s.transferMru := by
  obtain ⟨ingressBundle, refusing, h⟩ := s.onTransfer_session msg fault
  rw [h]

end Session

namespace State

open Session

/-- What a step does for the transfers of the peer. -/
inductive Inbound (σ : State) (l : Label) (σ' : State) (events : List Event) : Prop where
  /-- nothing -/
  | none (hinput : ∀ msg, l.input ≠ .peer (.transferSegment msg))
      (hsame : σ.session.SameInbound σ'.session) (hevents : inbound events = [])
  /-- a segment is dealt with -/
  | transfer (msg : TransferSegmentMessage) (hinput : l.input = .peer (.transferSegment msg))
      (hsame : (σ.session.onTransfer msg l.fault).session.SameInbound σ'.session)
      (hevents : inbound events = inbound (σ.session.onTransfer msg l.fault).events)
  /-- a transfer begins where the session ends -/
  | tooLate (msg : TransferSegmentMessage) (hinput : l.input = .peer (.transferSegment msg))
      (hstart : msg.messageFlags.start = true) (hcontrol : σ.control = .terminating)
      (hsame : σ.session.SameInbound σ'.session)
      (hevents : inbound events = match l.fault with
        | .none => [.send (.transferRefuse ⟨.sessionTerminating, msg.transferId⟩)]
        | some _ => [])

/-- A step, or a part of one, that leaves the transfers of the peer alone. -/
def Apart (s : Session) (p : State × List Event) : Prop :=
  s.SameInbound p.1.session ∧ inbound p.2 = []

section

variable {α : Type} {s : Session} {t : Transfer}

theorem sameInbound_sendSegment (s : Session) (t : Transfer) :
    s.SameInbound (s.sendSegment t).1 := by
  unfold Session.sendSegment
  split <;> exact ⟨rfl, rfl, rfl⟩

theorem apart_sendOnce (s : Session) (bundle : Bytes) : Apart s (s.sendOnce bundle) := by
  have h := sameInbound_sendSegment { s with transferId := s.transferId + 1 }
    ⟨bundle, s.transferId, bundle, true, 0, none⟩
  exact ⟨⟨h.transferMru, h.ingressBundle, h.refusing⟩, rfl⟩

theorem apart_sentOnce (s : Session) (bundle : Bytes) (r : Option TransferRefuseReasonCode) :
    Apart s (s.sentOnce bundle r) := by
  unfold Session.sentOnce
  split
  · exact ⟨.refl s, rfl⟩
  · exact ⟨.refl s, rfl⟩
  · exact apart_sendOnce s bundle
  · exact ⟨.refl s, rfl⟩
  · exact ⟨.refl s, rfl⟩

theorem apart_forwardToPeer (s : Session) (bundle : Bytes) : Apart s (s.forwardToPeer bundle) := by
  unfold Session.forwardToPeer
  split
  · exact ⟨.refl s, rfl⟩
  · exact apart_sendOnce s bundle

theorem apart_drained (s : Session) (t : Transfer) : Apart s (s.drained t) := by
  unfold Session.drained
  split
  · exact apart_sentOnce s t.bundle none
  · exact ⟨.refl s, rfl⟩

theorem apart_fed (s : Session) (t : Transfer) (segment : TransferSegmentMessage) :
    Apart s (s.fed t segment) := by
  unfold Session.fed
  split
  · exact apart_drained s t
  · exact ⟨sameInbound_sendSegment s t, rfl⟩

theorem apart_sentState (s : Session) (t : Transfer) (r : SendState) :
    Apart s (s.sentState t r) := by
  unfold Session.sentState
  split
  · exact apart_sentOnce s t.bundle _
  · split
    · exact ⟨.refl s, rfl⟩
    · exact apart_drained s t

theorem apart_terminating (s : Session) (u : Unit) : Apart s (terminating s u) :=
  ⟨.refl s, rfl⟩

theorem apart_stay (control : Control) (s : Session) (u : Unit) : Apart s (stay control s u) :=
  ⟨.refl s, rfl⟩

variable {failed : Session → SessionError → State} {next : Session → α → State × List Event}

theorem andThen_inbound {r : Reply α} (hnext : ∀ s a, Apart s (next s a))
    (hfailed : ∀ (s : Session) e, s.SameInbound (failed s e).session) :
    r.session.SameInbound (r.andThen next failed).1.session ∧
      inbound (r.andThen next failed).2 = inbound r.events := by
  refine Reply.andThen_of (P := fun p => r.session.SameInbound p.1.session ∧
    inbound p.2 = inbound r.events) (fun a _ => ?_) fun e _ => ⟨hfailed r.session e, rfl⟩
  obtain ⟨hsame, hevents⟩ := hnext r.session a
  exact ⟨hsame, by rw [inbound_append, hevents, List.append_nil]⟩

theorem sameInbound_fail (s : Session) (e : SessionError) : s.SameInbound (fail s e).session :=
  .refl s

theorem sameInbound_finish (s : Session) (e : SessionError) :
    s.SameInbound (finish s e).session := .refl s

theorem andThen_apart {r : Reply α} (hsession : s.SameInbound r.session)
    (hevents : inbound r.events = []) (hnext : ∀ s a, Apart s (next s a))
    (hfailed : ∀ (s : Session) e, s.SameInbound (failed s e).session) : Apart s (r.andThen next failed) := by
  obtain ⟨hsame, hinbound⟩ := andThen_inbound (r := r) hnext hfailed
  exact ⟨hsession.trans hsame, hinbound.trans hevents⟩

theorem unexpectedMsg_apart (m : MessageType) (fault : Option SessionError)
    (result : Except SessionError α) (hnext : ∀ s a, Apart s (next s a))
    (hfailed : ∀ (s : Session) e, s.SameInbound (failed s e).session) :
    Apart s ((s.unexpectedMsg m fault result).andThen next failed) := by
  refine andThen_apart ?_ (inbound_unexpectedMsg s m fault result) hnext hfailed
  rw [unexpectedMsg_session]
  exact .refl s

theorem onPeerFault_apart (control : Control) (e : SessionError) (fault : Option SessionError)
    (hfailed : ∀ (s : Session) e, s.SameInbound (failed s e).session) :
    Apart s (onPeerFault s control failed e fault) := by
  unfold onPeerFault
  split
  · refine andThen_apart ?_ (inbound_rejectMsg ..) (apart_stay control) hfailed
    rw [rejectMsg_session]
    exact .refl s
  · exact ⟨hfailed s _, rfl⟩

theorem sessionTerm_apart {next : Session → Unit → State × List Event}
    (msg : SessionTermMessage) (fault : Option SessionError)
    (hnext : ∀ s a, Apart s (next s a)) :
    Apart s ((s.send (.sessionTerm msg) fault (.ok ())).andThen next finish) := by
  refine andThen_apart ?_ ?_ hnext sameInbound_finish
  · rw [send_session]
    exact .refl s
  · cases fault <;> rfl

theorem apart_epilogue (s : Session) (cla : Bool) (fault : Option SessionError)
    (e : SessionError) : Apart s (epilogue s cla fault e) := by
  have hshutdown : ∀ reasonCode, Apart s (shutdown s reasonCode cla fault) := fun reasonCode => by
    unfold shutdown
    split
    · exact ⟨.refl s, rfl⟩
    · exact sessionTerm_apart _ fault (apart_stay _)
  unfold epilogue
  split
  · exact sessionTerm_apart _ fault apart_terminating
  all_goals first
    | exact hshutdown _
    | exact ⟨.refl s, rfl⟩

end

theorem Apart.inbound {σ : State} {l : Label} {p : State × List Event}
    (h : Apart σ.session p) (hinput : ∀ msg, l.input ≠ .peer (.transferSegment msg)) :
    Inbound σ l p.1 p.2 := .none hinput h.1 h.2

theorem input_ne {l : Label} {i : Input} (h : l.input = i)
    (hi : ∀ msg, i ≠ .peer (.transferSegment msg)) (msg : TransferSegmentMessage) :
    l.input ≠ .peer (.transferSegment msg) := h ▸ hi msg

theorem peer_ne {l : Label} {msg : Message} (h : l.input = .peer msg)
    (hmsg : ∀ m, msg = .transferSegment m → False) (m : TransferSegmentMessage) :
    l.input ≠ .peer (.transferSegment m) := fun hm => hmsg m (Input.peer.inj (h.symm.trans hm))

section

variable {s : Session} {l : Label} {p : State × List Event}

theorem mainStep_inbound (hstep : mainStep s l = some p) : Inbound ⟨s, .main⟩ l p.1 p.2 := by
  unfold mainStep at hstep
  split at hstep
  · next hinput =>
      cases hstep
      exact .none (input_ne hinput fun _ h => Input.noConfusion h) (.refl s) rfl
  · next hinput =>
      cases hstep
      exact .none (input_ne hinput fun _ h => Input.noConfusion h) (.refl s) rfl
  · next hinput =>
      cases hstep
      exact (apart_forwardToPeer s _).inbound (input_ne hinput fun _ h => Input.noConfusion h)
  · next hinput =>
      cases hstep
      exact .none (input_ne hinput fun _ h => Input.noConfusion h) (.refl s) rfl
  · next msg hinput =>
      cases hstep
      obtain ⟨hsame, hevents⟩ := andThen_inbound (r := s.onTransfer msg l.fault)
        (apart_stay .main) sameInbound_fail
      exact .transfer msg hinput hsame hevents
  · next hinput =>
      cases hstep
      exact .none (peer_ne hinput fun _ h => Message.noConfusion h) (.refl s) rfl
  · next hsegment _ hinput =>
      cases hstep
      exact (unexpectedMsg_apart _ _ _ (apart_stay .main) sameInbound_fail).inbound
        (peer_ne hinput hsegment)
  · next hinput =>
      cases hstep
      exact (onPeerFault_apart .main _ _ sameInbound_fail).inbound
        (input_ne hinput fun _ h => Input.noConfusion h)
  · cases hstep

theorem sendingStep_inbound {t : Transfer} (hstep : sendingStep s t l = some p) :
    Inbound ⟨s, .sending t⟩ l p.1 p.2 := by
  unfold sendingStep at hstep
  split at hstep
  · next msg hinput =>
      cases hstep
      have hnext := fun (s : Session) r => apart_sentState s t r
      by_cases hsegment : ∃ m, msg = .transferSegment m
      · obtain ⟨m, rfl⟩ := hsegment
        obtain ⟨hsame, hevents⟩ := andThen_inbound
          (r := s.onPeerMsgWhileSending (.transferSegment m) l.fault) hnext sameInbound_fail
        exact .transfer m hinput hsame hevents
      · obtain ⟨hsession, hevents⟩ := s.onPeerMsgWhileSending_apart l.fault
          (fun m h => hsegment ⟨m, h⟩)
        exact (andThen_apart hsession hevents hnext sameInbound_fail).inbound
          (peer_ne hinput fun m h => hsegment ⟨m, h⟩)
  · next hinput =>
      cases hstep
      exact (onPeerFault_apart _ _ _ sameInbound_fail).inbound
        (input_ne hinput fun _ h => Input.noConfusion h)
  · next hinput _ =>
      cases hstep
      exact .none (input_ne hinput fun _ h => Input.noConfusion h) (apart_fed s t _).1
        (apart_fed s t _).2
  · next hinput _ =>
      cases hstep
      exact .none (input_ne hinput fun _ h => Input.noConfusion h) (.refl s) rfl
  · cases hstep

theorem terminatingStep_inbound (hstep : terminatingStep s l = some p) :
    Inbound ⟨s, .terminating⟩ l p.1 p.2 := by
  unfold terminatingStep at hstep
  split at hstep
  · next msg hinput =>
      split at hstep
      · next hstart =>
          cases hstep
          obtain ⟨hsame, hevents⟩ := andThen_inbound (r := s.send (.transferRefuse
            ⟨.sessionTerminating, msg.transferId⟩) l.fault (.ok ())) apart_terminating
            sameInbound_finish
          rw [send_session] at hsame
          refine .tooLate msg hinput hstart rfl hsame (hevents.trans ?_)
          cases l.fault <;> rfl
      · cases hstep
        obtain ⟨hsame, hevents⟩ := andThen_inbound (r := s.onTransfer msg l.fault)
          apart_terminating sameInbound_finish
        exact .transfer msg hinput hsame hevents
  · next hsegment hinput =>
      cases hstep
      exact (unexpectedMsg_apart _ _ _ apart_terminating sameInbound_finish).inbound
        (peer_ne hinput hsegment)
  · next hinput =>
      cases hstep
      exact (onPeerFault_apart _ _ _ sameInbound_finish).inbound
        (input_ne hinput fun _ h => Input.noConfusion h)
  · cases hstep

theorem shuttingDownStep_inbound (hstep : shuttingDownStep s l = some p) :
    Inbound ⟨s, .shuttingDown⟩ l p.1 p.2 := by
  unfold shuttingDownStep at hstep
  split at hstep
  · next hinput =>
      cases hstep
      exact .none (input_ne hinput fun _ h => Input.noConfusion h) (.refl s) rfl
  · next hinput =>
      cases hstep
      exact .none (peer_ne hinput fun _ h => Message.noConfusion h) (.refl s) rfl
  · next msg hinput =>
      cases hstep
      obtain ⟨hsame, hevents⟩ := andThen_inbound (r := s.onTransfer msg l.fault)
        (apart_stay .shuttingDown) sameInbound_finish
      exact .transfer msg hinput hsame hevents
  · next hsegment hinput =>
      cases hstep
      exact (unexpectedMsg_apart _ _ _ (apart_stay .shuttingDown) sameInbound_finish).inbound
        (peer_ne hinput hsegment)
  · next hinput =>
      cases hstep
      exact (onPeerFault_apart _ _ _ sameInbound_finish).inbound
        (input_ne hinput fun _ h => Input.noConfusion h)
  · cases hstep

end

theorem step_inbound {σ σ' : State} {l : Label} {events : List Event}
    (hstep : step σ l = some (σ', events)) : Inbound σ l σ' events := by
  obtain ⟨s, control⟩ := σ
  cases control with
  | main => exact mainStep_inbound hstep
  | sending t => exact sendingStep_inbound hstep
  | failed e =>
    unfold step at hstep
    dsimp only at hstep
    split at hstep
    · next cla hinput =>
        have h := apart_epilogue s cla l.fault e
        rw [Option.some.inj hstep] at h
        exact .none (input_ne hinput fun _ h => Input.noConfusion h) h.1 h.2
    · cases hstep
  | terminating => exact terminatingStep_inbound hstep
  | shuttingDown => exact shuttingDownStep_inbound hstep
  | finished => cases hstep

end State

end Hardy.Tcpcl
