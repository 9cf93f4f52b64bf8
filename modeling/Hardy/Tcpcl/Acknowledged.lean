import Hardy.Tcpcl.Session

/-!
# Acknowledgements

No acknowledgement is outstanding where the task waits in `run`, and those that are
outstanding where it sends are of the transfer that is sent.  An acknowledgement that
is the expected one is taken where it is sent, and rejected in the loops of
`on_terminate` and `shutdown`, which do not look at what is outstanding.
-/

namespace Hardy.Tcpcl

open Cbor

def Event.Quiet : Event → Prop
  | .send _ | .queue _ | .received _ => True
  | _ => False

def Quiet (events : List Event) : Prop := ∀ ev ∈ events, ev.Quiet

namespace Session

variable {α : Type}

@[simp] theorem send_session (s : Session) (msg : Message) (fault : Option SessionError)
    (result : Except SessionError α) : (s.send msg fault result).session = s := by
  cases fault <;> rfl

@[simp] theorem rejectMsg_session (s : Session) (reasonCode : MessageRejectionReasonCode)
    (n : UInt8) (fault : Option SessionError) (result : Except SessionError α) :
    (s.rejectMsg reasonCode n fault result).session = s :=
  send_session s _ fault result

@[simp] theorem unexpectedMsg_session (s : Session) (t : MessageType)
    (fault : Option SessionError) (result : Except SessionError α) :
    (s.unexpectedMsg t fault result).session = s :=
  send_session s _ fault result

@[simp] theorem enqueue_session (s : Session) (msg : TransferSegmentMessage) (item : Ingest)
    (fault : Option SessionError) : (s.enqueue msg item fault).session = s := by
  cases fault <;> rfl

theorem append_session (s : Session) (bundle : Bytes) (msg : TransferSegmentMessage)
    (fault : Option SessionError) : ∃ ingressBundle refusing,
      (s.append bundle msg fault).session = { s with ingressBundle, refusing } := by
  unfold append
  split
  · exact ⟨_, _, send_session ..⟩
  · dsimp only
    split <;> exact ⟨_, _, enqueue_session ..⟩

theorem send_quiet (s : Session) (msg : Message) (fault : Option SessionError)
    (result : Except SessionError α) : Quiet (s.send msg fault result).events := by
  intro ev h
  cases fault with
  | none =>
    cases List.mem_singleton.mp h
    trivial
  | some e => exact absurd h List.not_mem_nil

theorem send_error (s : Session) (msg : Message) (fault : Option SessionError) (e : SessionError) :
    ∃ e', (s.send msg fault (.error e : Except SessionError α)).result = .error e' := by
  cases fault with
  | none => exact ⟨e, rfl⟩
  | some e' => exact ⟨e', rfl⟩

theorem enqueue_quiet (s : Session) (msg : TransferSegmentMessage) (item : Ingest)
    (fault : Option SessionError) : Quiet (s.enqueue msg item fault).events := by
  intro ev h
  cases fault with
  | none =>
    rcases List.mem_cons.mp h with rfl | h
    · trivial
    · cases List.mem_singleton.mp h
      trivial
  | some e =>
    cases List.mem_singleton.mp h
    trivial

theorem append_quiet (s : Session) (bundle : Bytes) (msg : TransferSegmentMessage)
    (fault : Option SessionError) : Quiet (s.append bundle msg fault).events := by
  unfold append
  split
  · exact send_quiet _ _ _ _
  · dsimp only
    split <;> exact enqueue_quiet _ _ _ _

theorem onTransfer_quiet (s : Session) (msg : TransferSegmentMessage)
    (fault : Option SessionError) : Quiet (s.onTransfer msg fault).events := by
  unfold onTransfer
  split
  · split
    · exact send_quiet _ _ _ _
    · exact append_quiet _ _ _ _
  · split
    · exact nofun
    · split
      · exact send_quiet _ _ _ _
      · exact append_quiet _ _ _ _

theorem onTransfer_session (s : Session) (msg : TransferSegmentMessage)
    (fault : Option SessionError) : ∃ ingressBundle refusing,
      (s.onTransfer msg fault).session = { s with ingressBundle, refusing } := by
  unfold onTransfer
  split
  · split
    · exact ⟨_, _, unexpectedMsg_session ..⟩
    · obtain ⟨ingressBundle, refusing, h⟩ := append_session { s with refusing := none } [] msg fault
      exact ⟨ingressBundle, refusing, h⟩
  · split
    · exact ⟨_, _, rfl⟩
    · split
      · exact ⟨_, _, unexpectedMsg_session ..⟩
      · exact append_session ..

theorem filter_acks_eq_nil (s : Session) {current id : UInt64} {ack : XferAck}
    {acks : List XferAck} (h : ∀ ack ∈ s.acks, ack.transferId = current)
    (hacks : s.acks = ack :: acks) (hid : ack.transferId = id) :
    s.acks.filter (·.transferId ≠ id) = [] := by
  refine List.filter_eq_nil_iff.mpr fun b hb => ?_
  have hhead := h ack (hacks ▸ List.mem_cons_self)
  rw [h b hb, ← hhead, hid, decide_eq_true_iff]
  exact fun hne => hne rfl

inductive Answer (s : Session) : Message → Reply SendState → Prop where
  /-- nothing -/
  | other {msg : Message} {r : Reply SendState} (hmsg : ∀ m, msg ≠ .transferAck m)
      (hsession : ∃ ingressBundle refusing, r.session = { s with ingressBundle, refusing })
      (hquiet : Quiet r.events)
      (hresult : r.result = .ok .continue ∨ ∃ e, r.result = .error e) : Answer s msg r
  /-- it is the acknowledgement that is expected next -/
  | acknowledged {m : TransferAckMessage} {ack : XferAck} {acks : List XferAck}
      (hacks : s.acks = ack :: acks) (hmatches : ack.Matches m) :
      Answer s (.transferAck m) ⟨{ s with acks }, [.acknowledged m], .ok .continue⟩
  /-- it is an acknowledgement that is not -/
  | mismatched {m : TransferAckMessage} {r : Reply SendState}
      (hacks : ∀ ack acks, s.acks = ack :: acks → ¬ ack.Matches m)
      (hsession : r.session = { s with acks := s.acks.tail })
      (hquiet : Quiet r.events) (hresult : ∃ e, r.result = .error e) :
      Answer s (.transferAck m) r
  /-- the transfer is refused -/
  | refused {m : TransferRefuseMessage} {ack : XferAck} {acks : List XferAck}
      (hacks : s.acks = ack :: acks) (hid : ack.transferId = m.transferId) :
      Answer s (.transferRefuse m)
        ⟨{ s with acks := s.acks.filter (·.transferId ≠ m.transferId) },
          [.refused m.reasonCode], .ok (.refused m.reasonCode)⟩

theorem onPeerMsgWhileSending_answer (s : Session) (msg : Message) (fault : Option SessionError) :
    Answer s msg (s.onPeerMsgWhileSending msg fault) := by
  unfold onPeerMsgWhileSending
  split
  · refine .other (fun m h => Message.noConfusion h) ⟨_, _, rfl⟩ (fun ev h => ?_) (.inr ⟨_, rfl⟩)
    exact absurd h List.not_mem_nil
  · next m =>
      refine .other (fun m h => Message.noConfusion h) (onTransfer_session s m fault)
        (onTransfer_quiet s m fault) ?_
      dsimp only
      cases (s.onTransfer m fault).result with
      | ok _ => exact .inl rfl
      | error e => exact .inr ⟨e, rfl⟩
  · next m =>
      split
      · next ack acks hacks =>
          split
          · next hmatches => exact .acknowledged hacks hmatches
          · next hmatches =>
              refine .mismatched (fun ack' acks' h => ?_) ?_ (send_quiet _ _ _ _) (send_error ..)
              · obtain ⟨rfl, -⟩ := List.cons.inj (hacks.symm.trans h)
                exact hmatches
              · rw [hacks]
                exact rejectMsg_session ..
      · next hacks =>
          refine .mismatched (fun ack' acks' h => ?_) ?_ (send_quiet _ _ _ _) (send_error ..)
          · exact absurd (hacks.symm.trans h) (List.cons_ne_nil _ _).symm
          · refine (rejectMsg_session ..).trans ?_
            cases s
            cases hacks
            rfl
  · next m =>
      split
      · next ack acks hacks =>
          split
          · next hid => exact .refused hacks hid
          · refine .other (fun m h => Message.noConfusion h)
              ⟨_, _, rejectMsg_session ..⟩ (send_quiet _ _ _ _) (.inr (send_error ..))
      · refine .other (fun m h => Message.noConfusion h)
          ⟨_, _, rejectMsg_session ..⟩ (send_quiet _ _ _ _) (.inr (send_error ..))
  · next h₁ h₂ h₃ h₄ =>
      refine .other (fun m h => h₃ m h) ⟨_, _, unexpectedMsg_session ..⟩ (send_quiet _ _ _ _) ?_
      cases fault with
      | none => exact .inl rfl
      | some e => exact .inr ⟨e, rfl⟩

end Session

namespace State

def Outstanding (σ : State) : Prop :=
  match σ.control with
  | .main => σ.session.acks = []
  | .sending t => ∀ ack ∈ σ.session.acks, ack.transferId = t.transferId
  | _ => True

variable {s : Session} {t : Transfer}

theorem outstanding_sendSegment (h : ∀ ack ∈ s.acks, ack.transferId = t.transferId) :
    Outstanding ⟨(s.sendSegment t).1, .sending (s.sendSegment t).2⟩ := by
  have hid : (s.sendSegment t).2.transferId = t.transferId := by
    unfold Session.sendSegment
    split <;> rfl
  have hacks : ∃ ack : XferAck, ack.transferId = t.transferId ∧
      (s.sendSegment t).1.acks = s.acks ++ [ack] := by
    unfold Session.sendSegment
    split <;> exact ⟨_, rfl, rfl⟩
  obtain ⟨ack, hack, hacks⟩ := hacks
  intro a ha
  rw [hid]
  rw [hacks, List.mem_append, List.mem_singleton] at ha
  rcases ha with ha | rfl
  · exact h a ha
  · exact hack

theorem outstanding_sendOnce (bundle : Bytes) (h : s.acks = []) :
    Outstanding (s.sendOnce bundle).1 := by
  refine outstanding_sendSegment fun ack hack => ?_
  rw [show _ = ([] : List XferAck) from h] at hack
  exact absurd hack List.not_mem_nil

theorem outstanding_sentOnce (bundle : Bytes) (h : s.acks = [])
    (r : Option TransferRefuseReasonCode) : Outstanding (s.sentOnce bundle r).1 := by
  unfold Session.sentOnce
  split
  · exact h
  · exact h
  · exact outstanding_sendOnce bundle h
  · trivial
  · trivial

theorem outstanding_drained
    (h : ∀ ack ∈ s.acks, ack.transferId = t.transferId) : Outstanding (s.drained t).1 := by
  unfold Session.drained
  split
  · next hnil => exact outstanding_sentOnce t.bundle hnil none
  · exact h

theorem outstanding_fed (segment : TransferSegmentMessage)
    (h : ∀ ack ∈ s.acks, ack.transferId = t.transferId) : Outstanding (s.fed t segment).1 := by
  unfold Session.fed
  split
  · exact outstanding_drained h
  · exact outstanding_sendSegment h

theorem outstanding_answer {msg : Message} {r : Reply SendState}
    (h : ∀ ack ∈ s.acks, ack.transferId = t.transferId) (ha : s.Answer msg r) :
    Outstanding (r.andThen (fun s r => s.sentState t r) fail).1 := by
  refine Reply.andThen_of (P := fun p => Outstanding p.1) (fun a hok => ?_) fun e _ => trivial
  -- what goes on goes on with a part of what was outstanding
  have hcontinue : (∀ ack ∈ r.session.acks, ack.transferId = t.transferId) →
      Outstanding (r.session.sentState t .continue).1 := fun h => by
    dsimp only [Session.sentState]
    split
    · exact h
    · exact outstanding_drained h
  cases ha with
  | other hmsg hsession hquiet hresult =>
    obtain ⟨ingressBundle, refusing, hs⟩ := hsession
    rcases hresult with hr | ⟨e, hr⟩
    · cases hok.symm.trans hr
      exact hcontinue (hs ▸ h)
    · cases hok.symm.trans hr
  | acknowledged hacks hmatches =>
    cases hok
    exact hcontinue fun ack hack => h ack (hacks ▸ List.mem_cons_of_mem _ hack)
  | mismatched hacks hsession hquiet hresult =>
    obtain ⟨e, hr⟩ := hresult
    cases hok.symm.trans hr
  | @refused m ack acks hacks hid =>
    cases hok
    exact outstanding_sentOnce t.bundle (s.filter_acks_eq_nil h hacks hid) _

variable {p : State × List Event}

theorem outstanding_mainStep {l : Label}
    (h : s.acks = []) (hstep : mainStep s l = some p) : Outstanding p.1 := by
  have hstay : ∀ r : Reply Unit, r.session.acks = [] →
      Outstanding (r.andThen (stay .main) fail).1 := fun r hr =>
    Reply.andThen_of (P := fun p => Outstanding p.1) (fun _ _ => hr) fun _ _ => trivial
  unfold mainStep at hstep
  split at hstep
  · cases hstep
    trivial
  · cases hstep
    trivial
  · next bundle _ =>
      cases hstep
      unfold Session.forwardToPeer
      split
      · trivial
      · exact outstanding_sendOnce bundle h
  · cases hstep
    trivial
  · next msg _ =>
      cases hstep
      obtain ⟨ingressBundle, refusing, hs⟩ := s.onTransfer_session msg l.fault
      exact hstay _ (hs ▸ h)
  · cases hstep
    trivial
  · cases hstep
    exact hstay _ ((congrArg Session.acks (s.unexpectedMsg_session ..)).trans h)
  · cases hstep
    unfold onPeerFault
    split
    · exact hstay _ ((congrArg Session.acks (s.rejectMsg_session ..)).trans h)
    · trivial
  · cases hstep

theorem outstanding_sendingStep {l : Label}
    (h : ∀ ack ∈ s.acks, ack.transferId = t.transferId) (hstep : sendingStep s t l = some p) :
    Outstanding p.1 := by
  unfold sendingStep at hstep
  split at hstep
  · next msg _ =>
      cases hstep
      exact outstanding_answer h (s.onPeerMsgWhileSending_answer msg l.fault)
  · cases hstep
    unfold onPeerFault
    split
    · refine Reply.andThen_of (P := fun p => Outstanding p.1) (fun _ _ => ?_) fun _ _ => trivial
      exact fun ack hack => h ack (by rwa [Session.rejectMsg_session] at hack)
    · trivial
  · next segment _ _ =>
      cases hstep
      exact outstanding_fed segment h
  · cases hstep
    trivial
  · cases hstep

/-- The task is behind the loop of `run`, and has begun to end the session. -/
def Closing (σ : State) : Prop :=
  match σ.control with
  | .main | .sending _ | .failed _ => False
  | _ => True

section

variable {α : Type} {s : Session} {fault : Option SessionError}

theorem closing_andThen {r : Reply α} {next : Session → α → State × List Event}
    (hnext : ∀ s a, Closing (next s a).1) : Closing (r.andThen next finish).1 :=
  Reply.andThen_of (P := fun p => Closing p.1) (fun a _ => hnext r.session a) fun _ _ => trivial

theorem closing_terminating (s : Session) (u : Unit) : Closing (terminating s u).1 := by
  unfold terminating
  by_cases hnil : s.acks = []
  · rw [if_pos hnil]
    trivial
  · rw [if_neg hnil]
    trivial

theorem closing_shutdown (s : Session) (reasonCode : SessionTermReasonCode) (cla : Bool)
    (fault : Option SessionError) : Closing (shutdown s reasonCode cla fault).1 := by
  unfold shutdown
  split
  · trivial
  · exact closing_andThen fun _ _ => trivial

theorem closing_epilogue (s : Session) (cla : Bool) (fault : Option SessionError)
    (e : SessionError) : Closing (epilogue s cla fault e).1 := by
  unfold epilogue
  split
  · exact closing_andThen closing_terminating
  all_goals first
    | trivial
    | exact closing_shutdown ..

theorem closing_onPeerFault (control : Control) (hcontrol : ∀ s, Closing ⟨s, control⟩)
    (e : SessionError) : Closing (onPeerFault s control finish e fault).1 := by
  unfold onPeerFault
  split
  · exact closing_andThen fun s _ => hcontrol s
  · trivial

theorem closing_terminatingStep {l : Label}
    (hstep : terminatingStep s l = some p) : Closing p.1 := by
  unfold terminatingStep at hstep
  split at hstep
  · split at hstep
    · cases hstep
      exact closing_andThen closing_terminating
    · cases hstep
      exact closing_andThen closing_terminating
  · cases hstep
    exact closing_andThen closing_terminating
  · cases hstep
    exact closing_onPeerFault .terminating (fun _ => trivial) _
  · cases hstep

theorem closing_shuttingDownStep {l : Label}
    (hstep : shuttingDownStep s l = some p) : Closing p.1 := by
  unfold shuttingDownStep at hstep
  split at hstep
  · cases hstep
    trivial
  · cases hstep
    trivial
  · cases hstep
    exact closing_andThen fun _ _ => trivial
  · cases hstep
    exact closing_andThen fun _ _ => trivial
  · cases hstep
    exact closing_onPeerFault .shuttingDown (fun _ => trivial) _
  · cases hstep

end

theorem Closing.outstanding {σ : State} (h : Closing σ) : Outstanding σ := by
  unfold Closing at h
  unfold Outstanding
  split
  · next hc =>
      rw [hc] at h
      exact h.elim
  · next hc =>
      rw [hc] at h
      exact h.elim
  · trivial

theorem outstanding_step {σ : State} {l : Label} (h : Outstanding σ)
    (hstep : step σ l = some p) : Outstanding p.1 := by
  obtain ⟨s, control⟩ := σ
  cases control with
  | main => exact outstanding_mainStep h hstep
  | sending t => exact outstanding_sendingStep h hstep
  | failed e =>
    unfold step at hstep
    dsimp only at hstep
    split at hstep
    · cases hstep
      exact (closing_epilogue ..).outstanding
    · cases hstep
  | terminating => exact (closing_terminatingStep hstep).outstanding
  | shuttingDown => exact (closing_shuttingDownStep hstep).outstanding
  | finished => cases hstep

theorem outstanding_of_reachable {mtu mru : UInt64}
    (h : (machine mtu mru).Reachable p) : Outstanding p.1 := by
  refine h.invariant (I := fun p => Outstanding p.1) ?_ ?_
  · rintro p ⟨hnew, -⟩
    rw [hnew]
    exact rfl
  · rintro p l p' hp ⟨events, hstep, -⟩
    exact outstanding_step (p := (p'.1, events)) hp hstep

/-! ## What is acknowledged -/

section

variable {s : Session} {msg : TransferAckMessage} {fault : Option SessionError}
  {p : State × List Event}

theorem session_of_terminating (hstep : step ⟨s, .terminating⟩ ⟨.peer (.transferAck msg), fault⟩ =
    some p) : p.1.session = s := by
  cases hstep
  refine Reply.andThen_of (P := fun p => p.1.session = s) (fun _ _ => ?_) fun _ _ => ?_
  all_goals exact Session.unexpectedMsg_session ..

theorem session_of_shuttingDown (hstep : step ⟨s, .shuttingDown⟩
    ⟨.peer (.transferAck msg), fault⟩ = some p) : p.1.session = s := by
  cases hstep
  refine Reply.andThen_of (P := fun p => p.1.session = s) (fun _ _ => ?_) fun _ _ => ?_
  all_goals exact Session.unexpectedMsg_session ..

theorem acks_of_sending {ack : XferAck} {acks : List XferAck}
    (hacks : s.acks = ack :: acks) (hmatches : ack.Matches msg)
    (hstep : step ⟨s, .sending t⟩ ⟨.peer (.transferAck msg), fault⟩ = some p) :
    p.1.session.acks = acks ∧ ∀ m, .send (.reject m) ∉ p.2 := by
  have hreply : s.onPeerMsgWhileSending (.transferAck msg) fault =
      ⟨{ s with acks }, [.acknowledged msg], .ok .continue⟩ := by
    unfold Session.onPeerMsgWhileSending
    dsimp only
    rw [hacks]
    exact if_pos hmatches
  have hstep : (s.onPeerMsgWhileSending (.transferAck msg) fault).andThen
      (fun s r => s.sentState t r) fail = p := Option.some.inj hstep
  rw [hreply] at hstep
  subst hstep
  dsimp only [Reply.andThen, Session.sentState]
  split
  · exact ⟨rfl, fun m h => by cases List.mem_singleton.mp h⟩
  · unfold Session.drained
    split
    · exact ⟨rfl, fun m h => by simp [Session.sentOnce] at h⟩
    · exact ⟨rfl, fun m h => by cases List.mem_singleton.mp h⟩

end

theorem runSteps_terminating (hacks : s.acks ≠ []) (msgs : List TransferAckMessage) :
    Machine.runSteps (fun σ l => (step σ l).map (·.1)) ⟨s, .terminating⟩
      (msgs.map fun msg => ⟨.peer (.transferAck msg), none⟩) = some ⟨s, .terminating⟩ := by
  induction msgs with
  | nil => rfl
  | cons msg msgs ih =>
    have hstep : step ⟨s, .terminating⟩ ⟨.peer (.transferAck msg), none⟩ =
        some (⟨s, if s.acks = [] then .finished else .terminating⟩,
          [.send (.reject ⟨.unexpected, MessageType.xferAck.toU8⟩)]) := rfl
    rw [List.map_cons, Machine.runSteps, hstep, if_neg hacks]
    exact ih

/-- The acknowledgement that is expected is taken where a transfer is sent, and nowhere
else; the loop of `on_terminate` takes none. -/
theorem ack_taken_iff {mtu mru : UInt64} {σ σ' : State} {tr events : List Event}
    (h : (machine mtu mru).Reachable (σ, tr)) {ack : XferAck} {acks : List XferAck}
    (hacks : σ.session.acks = ack :: acks) {msg : TransferAckMessage} (hmatches : ack.Matches msg)
    {fault : Option SessionError}
    (hstep : step σ ⟨.peer (.transferAck msg), fault⟩ = some (σ', events)) :
    ((σ'.session.acks = acks ∧ ∀ m, .send (.reject m) ∉ events) ↔ ∃ t, σ.control = .sending t) ∧
      (σ.control = .terminating → ∀ msgs : List TransferAckMessage,
        Machine.runSteps (fun σ l => (step σ l).map (·.1)) σ
          (msgs.map fun msg => ⟨.peer (.transferAck msg), none⟩) = some σ) := by
  obtain ⟨s, control⟩ := σ
  have hkeeps : σ'.session = s →
      ¬ (σ'.session.acks = acks ∧ ∀ m, .send (.reject m) ∉ events) := fun hs hp => by
    rw [hs] at hp
    exact List.cons_ne_self ack acks (hacks.symm.trans hp.1)
  cases control with
  | main => exact absurd (hacks.symm.trans (outstanding_of_reachable h)) (List.cons_ne_nil _ _)
  | sending t =>
    exact ⟨iff_of_true (acks_of_sending hacks hmatches hstep) ⟨t, rfl⟩,
      fun hc => Control.noConfusion hc⟩
  | failed e => cases hstep
  | terminating =>
    refine ⟨iff_of_false (hkeeps (session_of_terminating hstep)) ?_, fun _ msgs => ?_⟩
    · exact fun ⟨t, hc⟩ => Control.noConfusion hc
    · have hne : s.acks ≠ [] := fun hnil => List.cons_ne_nil _ _ (hacks.symm.trans hnil)
      exact runSteps_terminating hne msgs
  | shuttingDown =>
    refine ⟨iff_of_false (hkeeps (session_of_shuttingDown hstep)) ?_, ?_⟩
    · exact fun ⟨t, hc⟩ => Control.noConfusion hc
    · exact fun hc => Control.noConfusion hc
  | finished => cases hstep

/-! ### One segment, before and after the peer ends the session -/

def segmentSent : List Label := [⟨.bundle [1], none⟩, ⟨.room, none⟩]

def peerTerminates : List Label :=
  [⟨.peer (.sessionTerm ⟨⟨false, 0⟩, .unknown⟩), none⟩, ⟨.epilogue false, none⟩]

def segmentAck : TransferAckMessage := ⟨⟨true, true, 0⟩, 0, 1⟩

def unacknowledged : Session :=
  { Session.new 10 10 with transferId := 1, acks := [⟨⟨true, true, 0⟩, 0, 1⟩] }

theorem reachable_segmentSent : ∃ tr, (machine 10 10).Reachable
    (⟨unacknowledged, .sending ⟨[1], 0, [], true, 1, none⟩⟩, tr) := by
  have hrun : Machine.runSteps (Machine.emit step) (⟨.new 10 10, .main⟩, []) segmentSent =
      some (⟨unacknowledged, .sending ⟨[1], 0, [], true, 1, none⟩⟩,
        [.sendOnce 0 [1], .feed ⟨⟨true, true, 0⟩, 0, [], [1]⟩]) := rfl
  exact ⟨_, Machine.reachable_emit (isNew_new 10 10) hrun⟩

theorem reachable_peerTerminates : ∃ tr,
    (machine 10 10).Reachable (⟨unacknowledged, .terminating⟩, tr) := by
  have hrun : Machine.runSteps (Machine.emit step) (⟨.new 10 10, .main⟩, [])
      (segmentSent ++ peerTerminates) = some (⟨unacknowledged, .terminating⟩,
        [.sendOnce 0 [1], .feed ⟨⟨true, true, 0⟩, 0, [], [1]⟩,
          .send (.sessionTerm ⟨⟨true, 0⟩, .unknown⟩)]) := rfl
  exact ⟨_, Machine.reachable_emit (isNew_new 10 10) hrun⟩

theorem ack_taken_while_sending :
    ({ unacknowledged with acks := [] }.acks = [] ∧
        ∀ m, .send (.reject m) ∉ [Event.acknowledged segmentAck, .completed]) ↔
      ∃ t, Control.sending ⟨[1], 0, [], true, 1, none⟩ = .sending t := by
  obtain ⟨tr, h⟩ := reachable_segmentSent
  have hstep : step ⟨unacknowledged, .sending ⟨[1], 0, [], true, 1, none⟩⟩
      ⟨.peer (.transferAck segmentAck), none⟩ =
      some (⟨{ unacknowledged with acks := [] }, .main⟩,
        [.acknowledged segmentAck, .completed]) := rfl
  exact (ack_taken_iff h rfl ⟨rfl, rfl, rfl⟩ hstep).1

/-- In `on_terminate` the acknowledgement that is expected is rejected. -/
theorem ack_rejected_while_terminating :
    ¬ ∀ (mtu mru : UInt64) (σ σ' : State) (tr events : List Event),
      (machine mtu mru).Reachable (σ, tr) →
      ∀ (ack : XferAck) (acks : List XferAck) (msg : TransferAckMessage),
        σ.session.acks = ack :: acks → ack.Matches msg →
        step σ ⟨.peer (.transferAck msg), none⟩ = some (σ', events) →
        σ'.session.acks = acks ∧ ∀ m, .send (.reject m) ∉ events := by
  intro h
  obtain ⟨tr, hreach⟩ := reachable_peerTerminates
  have htaken := h 10 10 _ _ tr _ hreach _ _ segmentAck rfl ⟨rfl, rfl, rfl⟩ rfl
  exact List.cons_ne_nil _ _ htaken.1

end State

end Hardy.Tcpcl
