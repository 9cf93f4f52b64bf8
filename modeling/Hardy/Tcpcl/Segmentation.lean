import Hardy.Tcpcl.Reassembly

/-!
# Segmentation

The transfers of a session, told from what it does: a bundle is cut into segments of at
most the MTU, and what is fed to the writer is the first of them, or all.  With an MTU of
zero there is always one more segment to come.
-/

namespace Hardy.Tcpcl

open Cbor

/-! ## Plans -/

/-- The segments of a bundle, or of what is left of it.  `send_once` does not ask for `0 < mtu`:
with an MTU of zero it goes on for ever, and this is not what it sends. -/
def segmentsOf (mtu : Nat) (id : UInt64) (start : Bool) (rest : Bytes) :
    List TransferSegmentMessage :=
  if mtu < rest.length ∧ 0 < mtu then
    ⟨⟨start, false, 0⟩, id, [], rest.take mtu⟩ :: segmentsOf mtu id false (rest.drop mtu)
  else [⟨⟨start, true, 0⟩, id, [], rest⟩]
termination_by rest.length
decreasing_by
  rw [List.length_drop]
  omega

structure Segmented (mtu : Nat) (id : UInt64) (bundle : Bytes)
    (run : List TransferSegmentMessage) : Prop where
  data : dataOf run = bundle
  size : ∀ msg ∈ run, msg.data.length ≤ mtu
  whole : Whole id run

section

variable {mtu : Nat} {id : UInt64} {start : Bool} {rest : Bytes}

theorem dataOf_segmentsOf (mtu : Nat) (id : UInt64) (start : Bool) (rest : Bytes) :
    dataOf (segmentsOf mtu id start rest) = rest := by
  induction start, rest using segmentsOf.induct mtu with
  | case1 start rest hlt ih =>
    rw [segmentsOf, if_pos hlt]
    exact (congrArg (rest.take mtu ++ ·) ih).trans (List.take_append_drop mtu rest)
  | case2 start rest hlt =>
    rw [segmentsOf, if_neg hlt]
    exact List.append_nil rest

theorem segmentsOf_size (h : 0 < mtu ∨ rest = []) :
    ∀ msg ∈ segmentsOf mtu id start rest, msg.data.length ≤ mtu := by
  induction start, rest using segmentsOf.induct mtu with
  | case1 start rest hlt ih =>
    rw [segmentsOf, if_pos hlt]
    intro msg hmem
    rcases List.mem_cons.mp hmem with rfl | hmem
    · exact List.length_take_le mtu rest
    · exact ih (.inl hlt.2) msg hmem
  | case2 start rest hlt =>
    rw [segmentsOf, if_neg hlt]
    intro msg hmem
    cases List.mem_singleton.mp hmem
    rcases h with h | rfl
    · exact Nat.not_lt.mp fun hlong => hlt ⟨hlong, h⟩
    · exact Nat.zero_le mtu

theorem segmentsOf_ne_nil (mtu : Nat) (id : UInt64) (start : Bool) (rest : Bytes) :
    segmentsOf mtu id start rest ≠ [] := by
  rw [segmentsOf]
  split <;> exact List.cons_ne_nil _ _

theorem segmentsOf_flags (i : Nat) (msg : TransferSegmentMessage)
    (h : (segmentsOf mtu id start rest)[i]? = some msg) :
    msg.transferId = id ∧ (msg.messageFlags.start = true ↔ i = 0 ∧ start = true) ∧
      (msg.messageFlags.finish = true ↔ i + 1 = (segmentsOf mtu id start rest).length) := by
  induction start, rest using segmentsOf.induct mtu generalizing i with
  | case1 start rest hlt ih =>
    rw [segmentsOf, if_pos hlt] at h ⊢
    have hpos := List.length_pos_iff.mpr (segmentsOf_ne_nil mtu id false (rest.drop mtu))
    rw [List.length_cons]
    cases i with
    | zero =>
      cases h
      refine ⟨rfl, ⟨fun hs => ⟨rfl, hs⟩, fun hs => hs.2⟩, iff_of_false Bool.false_ne_true ?_⟩
      omega
    | succ i =>
      obtain ⟨hid, hstart, hfinish⟩ := ih i h
      refine ⟨hid, iff_of_false ?_ ?_, hfinish.trans Nat.add_right_cancel_iff.symm⟩
      · exact fun hs => Bool.false_ne_true (hstart.mp hs).2
      · exact fun hs => Nat.succ_ne_zero i hs.1
  | case2 start rest hlt =>
    rw [segmentsOf, if_neg hlt] at h ⊢
    cases i with
    | zero =>
      cases h
      exact ⟨rfl, ⟨fun hs => ⟨rfl, hs⟩, fun hs => hs.2⟩, iff_of_true rfl rfl⟩
    | succ i => cases h

theorem segmentsOf_segmented {bundle : Bytes} (h : 0 < mtu ∨ bundle = []) :
    Segmented mtu id bundle (segmentsOf mtu id true bundle) where
  data := dataOf_segmentsOf mtu id true bundle
  size := segmentsOf_size h
  whole :=
    { ne_nil := segmentsOf_ne_nil mtu id true bundle
      transferId := fun msg hmem => by
        obtain ⟨i, hi⟩ := List.mem_iff_getElem?.mp hmem
        exact (segmentsOf_flags i msg hi).1
      start := fun i msg hi => (segmentsOf_flags i msg hi).2.1.trans (and_iff_left rfl)
      finish := fun i msg hi => (segmentsOf_flags i msg hi).2.2 }

end

/-- The acknowledgements of some segments, behind `length` bytes of the transfer. -/
def expectedAcks (length : Nat) : List TransferSegmentMessage → List XferAck
  | [] => []
  | msg :: run =>
    ⟨msg.messageFlags, msg.transferId, length + msg.data.length⟩ ::
      expectedAcks (length + msg.data.length) run

theorem length_dataOf_cons (msg : TransferSegmentMessage) (run : List TransferSegmentMessage) :
    (dataOf (msg :: run)).length = msg.data.length + (dataOf run).length :=
  List.length_append

theorem expectedAcks_append (n : Nat) (run run' : List TransferSegmentMessage) :
    expectedAcks n (run ++ run') =
      expectedAcks n run ++ expectedAcks (n + (dataOf run).length) run' := by
  induction run generalizing n with
  | nil => rfl
  | cons msg run ih =>
    rw [List.cons_append, expectedAcks, ih, expectedAcks, length_dataOf_cons, Nat.add_assoc]
    rfl

theorem expectedAcks_concat (length : Nat) (run : List TransferSegmentMessage)
    (msg : TransferSegmentMessage) :
    expectedAcks length (run ++ [msg]) = expectedAcks length run ++
      [⟨msg.messageFlags, msg.transferId, length + (dataOf run).length + msg.data.length⟩] :=
  expectedAcks_append length run [msg]

/-! ## Attempts -/

structure Attempt where
  transferId : UInt64
  bundle : Bytes
  segments : List TransferSegmentMessage
  acks : List TransferAckMessage
  refused : Option TransferRefuseReasonCode
  completed : Bool

def record : List Attempt → Event → List Attempt
  | as, .sendOnce transferId bundle => ⟨transferId, bundle, [], [], none, false⟩ :: as
  | a :: as, .feed msg => { a with segments := a.segments ++ [msg] } :: as
  | a :: as, .acknowledged msg => { a with acks := a.acks ++ [msg] } :: as
  | a :: as, .refused reasonCode => { a with refused := some reasonCode } :: as
  | a :: as, .completed => { a with completed := true } :: as
  | as, _ => as

def attempts (events : List Event) : List Attempt := events.foldl record []

theorem attempts_append (events events' : List Event) :
    attempts (events ++ events') = events'.foldl record (attempts events) :=
  List.foldl_append

theorem foldl_record_quiet {events : List Event} (h : Quiet events) (as : List Attempt) :
    events.foldl record as = as := by
  induction events with
  | nil => rfl
  | cons ev events ih =>
    have hev : record as ev = as := by
      have hquiet := h ev List.mem_cons_self
      cases ev <;> first
        | exact hquiet.elim
        | (cases as <;> rfl)
    rw [List.foldl_cons, hev]
    exact ih fun ev hmem => h ev (List.mem_cons_of_mem _ hmem)

/-- What is fed is the first of the segments of the bundle; where the outcome is
`Completed` it is all of them, each acknowledged in turn, or the peer has refused the
transfer as completed. -/
def Attempt.Sound (mtu : Nat) (a : Attempt) : Prop :=
  ∃ run, Segmented mtu a.transferId a.bundle run ∧ a.segments <+: run ∧
    (a.completed = true → a.refused = some .completed ∨
      a.refused = none ∧ a.segments = run ∧
        List.Forall₂ XferAck.Matches (expectedAcks 0 run) a.acks)

structure Numbered (s : Session) (as : List Attempt) : Prop where
  next : s.transferId = .ofNat as.length
  transferIds : as.map (·.transferId) = (List.range as.length).reverse.map .ofNat

def Transfer.remaining (mtu : Nat) (t : Transfer) : List TransferSegmentMessage :=
  match t.offered with
  | none => []
  | some msg => msg ::
      if msg.messageFlags.finish then [] else segmentsOf mtu t.transferId t.start t.rest

structure Sending (mtu : Nat) (s : Session) (t : Transfer) (a : Attempt) : Prop where
  transferId : a.transferId = t.transferId
  bundle : a.bundle = t.bundle
  refused : a.refused = none
  completed : a.completed = false
  sized : 0 < mtu ∨ t.bundle = []
  rest : 0 < mtu ∨ t.rest = []
  plan : a.segments ++ t.remaining mtu = segmentsOf mtu t.transferId true t.bundle
  length : t.cumulativeAcknowledgedLength = (dataOf (a.segments ++ t.offered.toList)).length
  acks : ∃ done, expectedAcks 0 (a.segments ++ t.offered.toList) = done ++ s.acks ∧
    List.Forall₂ XferAck.Matches done a.acks

structure Books (mtu : UInt64) (s : Session) (as : List Attempt) : Prop where
  segmentMtu : s.segmentMtu = mtu
  numbered : Numbered s as
  sound : ∀ a ∈ as, a.Sound mtu.toNat

structure Booked (mtu : UInt64) (σ : State) (as : List Attempt) : Prop where
  books : Books mtu σ.session as
  sending : ∀ t, σ.control = .sending t → ∃ a rest, as = a :: rest ∧
    Sending mtu.toNat σ.session t a

section

variable {mtu : Nat} {s : Session} {t : Transfer} {a : Attempt}

theorem Sending.sound (h : Sending mtu s t a) : a.Sound mtu := by
  have hplan := h.plan
  rw [← h.transferId, ← h.bundle] at hplan
  refine ⟨_, segmentsOf_segmented (h.bundle ▸ h.sized), hplan ▸ List.prefix_append _ _, fun hc => ?_⟩
  rw [h.completed] at hc
  exact absurd hc Bool.false_ne_true

theorem Sending.sound_completed (h : Sending mtu s t a) (hoffered : t.offered = none)
    (hacks : s.acks = []) : Attempt.Sound mtu { a with completed := true } := by
  have hplan := h.plan
  rw [Transfer.remaining, hoffered, List.append_nil, ← h.transferId, ← h.bundle] at hplan
  obtain ⟨done, hexpected, hdone⟩ := h.acks
  rw [hoffered, Option.toList_none, hacks, List.append_nil, List.append_nil] at hexpected
  refine ⟨_, segmentsOf_segmented (h.bundle ▸ h.sized), hplan ▸ List.prefix_rfl, fun _ => ?_⟩
  refine .inr ⟨h.refused, hplan, ?_⟩
  rw [← hplan, hexpected]
  exact hdone

theorem Sending.sound_refused (h : Sending mtu s t a) (reasonCode : TransferRefuseReasonCode) :
    Attempt.Sound mtu { a with refused := some reasonCode } ∧
      (reasonCode = .completed →
        Attempt.Sound mtu { a with refused := some reasonCode, completed := true }) := by
  obtain ⟨run, hrun, hbefore, -⟩ := h.sound
  refine ⟨⟨run, hrun, hbefore, fun hc => ?_⟩, fun hr => ⟨run, hrun, hbefore, fun _ => .inl ?_⟩⟩
  · exact absurd (h.completed.symm.trans hc) Bool.false_ne_true
  · rw [hr]

end

/-! ## Steps -/

theorem sendSegment_segmentMtu (s : Session) (t : Transfer) :
    (s.sendSegment t).1.segmentMtu = s.segmentMtu := by
  unfold Session.sendSegment
  split <;> rfl

theorem sendSegment_transferId (s : Session) (t : Transfer) :
    (s.sendSegment t).1.transferId = s.transferId := by
  unfold Session.sendSegment
  split <;> rfl

variable {t : Transfer}

theorem sendSegment_spec {mtu : Nat} {s : Session} (hmtu : s.segmentMtu.toNat = mtu)
    (hrest : 0 < mtu ∨ t.rest = []) : ∃ msg, (s.sendSegment t).2.offered = some msg ∧
      (s.sendSegment t).2.remaining mtu = segmentsOf mtu t.transferId t.start t.rest ∧
      (s.sendSegment t).2.bundle = t.bundle ∧ (s.sendSegment t).2.transferId = t.transferId ∧
      (s.sendSegment t).2.cumulativeAcknowledgedLength =
        t.cumulativeAcknowledgedLength + msg.data.length ∧
      (0 < mtu ∨ (s.sendSegment t).2.rest = []) ∧
      (s.sendSegment t).1.acks = s.acks ++ [⟨msg.messageFlags, msg.transferId,
        t.cumulativeAcknowledgedLength + msg.data.length⟩] := by
  subst hmtu
  unfold Session.sendSegment
  split
  · next hlt =>
      have hpos : 0 < s.segmentMtu.toNat := hrest.resolve_right fun hnil => by
        rw [hnil] at hlt
        exact Nat.not_lt_zero _ hlt
      refine ⟨_, rfl, ?_, rfl, rfl, rfl, .inl hpos, rfl⟩
      rw [segmentsOf, if_pos ⟨hlt, hpos⟩]
      rfl
  · next hlt =>
      refine ⟨_, rfl, ?_, rfl, rfl, rfl, .inr rfl, rfl⟩
      rw [segmentsOf, if_neg fun h => hlt h.1]
      rfl

section

variable {mtu : UInt64} {s s' : Session} {as : List Attempt}

theorem Books.of_eq (h : Books mtu s as) (hmtu : s'.segmentMtu = s.segmentMtu)
    (hid : s'.transferId = s.transferId) : Books mtu s' as :=
  ⟨hmtu.trans h.segmentMtu, ⟨hid.trans h.numbered.next, h.numbered.transferIds⟩, h.sound⟩

theorem Books.cons {a a' : Attempt} (h : Books mtu s (a :: as)) (hid : a'.transferId = a.transferId)
    (hsound : a'.Sound mtu.toNat) : Books mtu s (a' :: as) where
  segmentMtu := h.segmentMtu
  numbered := ⟨h.numbered.next, (congrArg (· :: as.map _) hid).trans h.numbered.transferIds⟩
  sound b hb := by
    rcases List.mem_cons.mp hb with rfl | hb
    · exact hsound
    · exact h.sound b (List.mem_cons_of_mem _ hb)

theorem Booked.of_books {σ : State} (h : Books mtu σ.session as)
    (hcontrol : ∀ t, σ.control ≠ .sending t) : Booked mtu σ as :=
  ⟨h, fun t ht => absurd ht (hcontrol t)⟩

theorem Sending.of_acks {n : Nat} {a : Attempt} (h : Sending n s t a)
    (hacks : s'.acks = s.acks) : Sending n s' t a :=
  { h with acks := hacks ▸ h.acks }

theorem Sending.sendSegment {a : Attempt} (hmtu : s.segmentMtu = mtu)
    (hid : a.transferId = t.transferId) (hbundle : a.bundle = t.bundle) (hrefused : a.refused = none)
    (hcompleted : a.completed = false) (hsized : 0 < mtu.toNat ∨ t.bundle = [])
    (hrest : 0 < mtu.toNat ∨ t.rest = [])
    (hplan : a.segments ++ segmentsOf mtu.toNat t.transferId t.start t.rest =
      segmentsOf mtu.toNat t.transferId true t.bundle)
    (hlength : t.cumulativeAcknowledgedLength = (dataOf a.segments).length)
    (hacks : ∃ done, expectedAcks 0 a.segments = done ++ s.acks ∧
      List.Forall₂ XferAck.Matches done a.acks) :
    Sending mtu.toNat (s.sendSegment t).1 (s.sendSegment t).2 a := by
  obtain ⟨msg, hoffered, hremaining, hb, hi, hl, hr, hs⟩ :=
    sendSegment_spec (congrArg UInt64.toNat hmtu) hrest
  refine ⟨hid.trans hi.symm, hbundle.trans hb.symm, hrefused, hcompleted, hb ▸ hsized, hr, ?_, ?_, ?_⟩
  · rw [hremaining, hi, hb]
    exact hplan
  · rw [hl, hoffered, Option.toList_some, dataOf_concat rfl, List.length_append, hlength]
  · obtain ⟨done, hexpected, hdone⟩ := hacks
    refine ⟨done, ?_, hdone⟩
    rw [hoffered, Option.toList_some, expectedAcks_concat, hexpected, hs, hlength, Nat.zero_add,
      List.append_assoc]

theorem booked_sendOnce {bundle : Bytes} (h : Books mtu s as) (hacks : s.acks = [])
    (hsized : 0 < mtu.toNat ∨ bundle = []) :
    Booked mtu (s.sendOnce bundle).1 ((s.sendOnce bundle).2.foldl record as) := by
  have hsending := Sending.sendSegment (s := { s with transferId := s.transferId + 1 })
    (t := ⟨bundle, s.transferId, bundle, true, 0, none⟩)
    (a := ⟨s.transferId, bundle, [], [], none, false⟩) h.segmentMtu rfl rfl rfl rfl hsized hsized
    rfl rfl ⟨[], hacks.symm, .nil⟩
  refine ⟨⟨?_, ⟨?_, ?_⟩, ?_⟩, fun t ht => ⟨_, as, rfl, ?_⟩⟩
  · exact (sendSegment_segmentMtu ..).trans h.segmentMtu
  · refine (sendSegment_transferId ..).trans ?_
    rw [h.numbered.next, ← UInt64.ofNat_one, ← UInt64.ofNat_add]
    rfl
  · have hrange := congrArg (s.transferId :: ·) h.numbered.transferIds
    refine hrange.trans ?_
    rw [h.numbered.next, ← List.map_cons, ← List.reverse_concat, ← List.range_succ]
    rfl
  · intro a ha
    rcases List.mem_cons.mp ha with rfl | ha
    · exact hsending.sound
    · exact h.sound a ha
  · cases ht
    exact hsending

variable {t : Transfer} {a : Attempt}

theorem booked_sentOnce {bundle : Bytes} {r : Option TransferRefuseReasonCode}
    (h : Books mtu s (a :: as)) (hacks : s.acks = []) (hsized : 0 < mtu.toNat ∨ bundle = [])
    (hcompleted : r = none ∨ r = some .completed →
      Attempt.Sound mtu.toNat { a with completed := true }) :
    Booked mtu (s.sentOnce bundle r).1 ((s.sentOnce bundle r).2.foldl record (a :: as)) := by
  unfold Session.sentOnce
  split
  · exact .of_books (h.cons rfl (hcompleted (.inl rfl))) fun t ht => Control.noConfusion ht
  · exact .of_books (h.cons rfl (hcompleted (.inr rfl))) fun t ht => Control.noConfusion ht
  · exact booked_sendOnce h hacks hsized
  · exact .of_books h fun t ht => Control.noConfusion ht
  · exact .of_books h fun t ht => Control.noConfusion ht

theorem booked_drained (h : Books mtu s (a :: as))
    (hsending : Sending mtu.toNat s { t with offered := none } a) :
    Booked mtu (s.drained t).1 ((s.drained t).2.foldl record (a :: as)) := by
  unfold Session.drained
  split
  · next hacks =>
      exact booked_sentOnce h hacks hsending.sized fun _ => hsending.sound_completed rfl hacks
  · refine ⟨h, fun t' ht' => ⟨a, as, rfl, ?_⟩⟩
    cases ht'
    exact hsending

theorem booked_fed {msg : TransferSegmentMessage} (h : Books mtu s (a :: as))
    (hsending : Sending mtu.toNat s t a) (hoffered : t.offered = some msg) :
    Booked mtu (s.fed t msg).1 ((.feed msg :: (s.fed t msg).2).foldl record (a :: as)) := by
  obtain ⟨hid, hbundle, hrefused, hcompleted, hsized, hrest, hplan, hlength, hacks⟩ := hsending
  rw [hoffered] at hlength hacks
  rw [Transfer.remaining, hoffered] at hplan
  dsimp only at hplan
  have hbooks : Books mtu s ({ a with segments := a.segments ++ [msg] } :: as) := by
    refine h.cons rfl ⟨_, segmentsOf_segmented (hbundle ▸ hsized), ?_, fun hc => ?_⟩
    · rw [hid, hbundle, ← hplan]
      exact ⟨_, List.append_assoc a.segments [msg] _⟩
    · exact absurd (hcompleted.symm.trans hc) Bool.false_ne_true
  rw [List.foldl_cons]
  unfold Session.fed
  split
  · next hfinish =>
      refine booked_drained hbooks ⟨hid, hbundle, hrefused, hcompleted, hsized, hrest, ?_, ?_, ?_⟩
      · rw [if_pos hfinish] at hplan
        exact (List.append_nil _).trans hplan
      · exact hlength.trans (congrArg (fun run => (dataOf run).length) (List.append_nil _).symm)
      · obtain ⟨done, hexpected, hdone⟩ := hacks
        exact ⟨done, (congrArg (expectedAcks 0) (List.append_nil _)).trans hexpected, hdone⟩
  · next hfinish =>
      rw [if_neg hfinish] at hplan
      refine ⟨hbooks.of_eq (sendSegment_segmentMtu s t) (sendSegment_transferId s t),
        fun t' ht' => ⟨_, as, rfl, ?_⟩⟩
      · cases ht'
        refine Sending.sendSegment h.segmentMtu hid hbundle hrefused hcompleted hsized hrest ?_
          hlength hacks
        rw [List.append_assoc]
        exact hplan

theorem booked_continue (h : Books mtu s (a :: as)) (hsending : Sending mtu.toNat s t a) :
    Booked mtu (s.sentState t .continue).1 ((s.sentState t .continue).2.foldl record (a :: as)) := by
  dsimp only [Session.sentState]
  split
  · refine ⟨h, fun t' ht' => ⟨a, as, rfl, ?_⟩⟩
    cases ht'
    exact hsending
  · next hoffered =>
      refine booked_drained h ?_
      rw [← hoffered]
      exact hsending

theorem booked_answer {msg : Message} {r : Reply SendState} (h : Books mtu s (a :: as))
    (hsending : Sending mtu.toNat s t a) (hout : ∀ ack ∈ s.acks, ack.transferId = t.transferId)
    (ha : s.Answer msg r) :
    Booked mtu (r.andThen (fun s r => s.sentState t r) State.fail).1
      ((r.andThen (fun s r => s.sentState t r) State.fail).2.foldl record (a :: as)) := by
  refine Reply.andThen_of (P := fun p => Booked mtu p.1 (p.2.foldl record (a :: as)))
    (fun sent hok => ?_) fun e herror => ?_
  · rw [List.foldl_append]
    cases ha with
    | other hmsg hsession hquiet hresult =>
      obtain ⟨ingressBundle, refusing, hs⟩ := hsession
      rcases hresult with hr | ⟨e, hr⟩
      · cases hok.symm.trans hr
        rw [foldl_record_quiet hquiet, hs]
        exact booked_continue (h.of_eq rfl rfl) (hsending.of_acks rfl)
      · cases hok.symm.trans hr
    | @acknowledged m ack acks hacks hmatches =>
      cases hok
      have hsending' : Sending mtu.toNat { s with acks } t { a with acks := a.acks ++ [m] } := by
        refine { hsending with acks := ?_ }
        obtain ⟨done, hexpected, hdone⟩ := hsending.acks
        refine ⟨done ++ [ack], ?_, List.rel_append hdone (.cons hmatches .nil)⟩
        rw [hexpected, hacks, List.append_assoc]
        rfl
      have hbooks : Books mtu s ({ a with acks := a.acks ++ [m] } :: as) :=
        h.cons rfl hsending'.sound
      exact booked_continue (hbooks.of_eq rfl rfl) hsending'
    | mismatched hacks hsession hquiet hresult =>
      obtain ⟨e, hr⟩ := hresult
      cases hok.symm.trans hr
    | @refused m ack acks hacks hid =>
      cases hok
      obtain ⟨hrefused, hcompleted⟩ := hsending.sound_refused m.reasonCode
      have hbooks : Books mtu s ({ a with refused := some m.reasonCode } :: as) :=
        h.cons rfl hrefused
      refine booked_sentOnce (hbooks.of_eq rfl rfl) (s.filter_acks_eq_nil hout hacks hid)
        hsending.sized fun hr => hcompleted ?_
      exact Option.some.inj (hr.resolve_left (Option.some_ne_none _))
  · have hfail : ∀ t, (State.fail r.session e).control ≠ .sending t := fun t ht =>
      Control.noConfusion ht
    cases ha with
    | other hmsg hsession hquiet hresult =>
      obtain ⟨ingressBundle, refusing, hs⟩ := hsession
      rw [foldl_record_quiet hquiet]
      refine .of_books (h.of_eq ?_ ?_) hfail
      all_goals
        dsimp only [State.fail]
        rw [hs]
    | acknowledged hacks hmatches => cases herror
    | mismatched hacks hsession hquiet hresult =>
      rw [foldl_record_quiet hquiet]
      refine .of_books (h.of_eq ?_ ?_) hfail
      all_goals
        dsimp only [State.fail]
        rw [hsession]
    | refused hacks hid => cases herror

/-- A step, or a part of one, that is not about the transfers that are sent. -/
structure Aside (s : Session) (p : State × List Event) : Prop where
  segmentMtu : p.1.session.segmentMtu = s.segmentMtu
  transferId : p.1.session.transferId = s.transferId
  control : ∀ t, p.1.control ≠ .sending t
  quiet : Quiet p.2

theorem Aside.booked {p : State × List Event} (h : Books mtu s as) (hp : Aside s p) :
    Booked mtu p.1 (p.2.foldl record as) := by
  rw [foldl_record_quiet hp.quiet]
  exact .of_books (h.of_eq hp.segmentMtu hp.transferId) hp.control

end

section

variable {α : Type} {s : Session} {r : Reply α} {next : Session → α → State × List Event}
  {failed : Session → SessionError → State}

theorem Aside.andThen (hmtu : r.session.segmentMtu = s.segmentMtu)
    (hid : r.session.transferId = s.transferId) (hquiet : Quiet r.events)
    (hnext : ∀ s a, Aside s (next s a)) (hfailed : ∀ s e, Aside s (failed s e, [])) :
    Aside s (r.andThen next failed) := by
  refine Reply.andThen_of (P := Aside s) (fun a _ => ?_) fun e _ => ?_
  · obtain ⟨hmtu', hid', hcontrol, hquiet'⟩ := hnext r.session a
    refine ⟨hmtu'.trans hmtu, hid'.trans hid, hcontrol, fun ev hev => ?_⟩
    exact (List.mem_append.mp hev).elim (hquiet ev) (hquiet' ev)
  · obtain ⟨hmtu', hid', hcontrol, -⟩ := hfailed r.session e
    exact ⟨hmtu'.trans hmtu, hid'.trans hid, hcontrol, hquiet⟩

theorem quiet_nil : Quiet [] := nofun

theorem aside_send (msg : Message) (fault : Option SessionError) (result : Except SessionError α)
    (hnext : ∀ s a, Aside s (next s a)) (hfailed : ∀ s e, Aside s (failed s e, [])) :
    Aside s ((s.send msg fault result).andThen next failed) := by
  refine .andThen ?_ ?_ (s.send_quiet msg fault result) hnext hfailed
  all_goals rw [Session.send_session]

theorem aside_onTransfer {next : Session → Unit → State × List Event}
    (msg : TransferSegmentMessage) (fault : Option SessionError)
    (hnext : ∀ s a, Aside s (next s a)) (hfailed : ∀ s e, Aside s (failed s e, [])) :
    Aside s ((s.onTransfer msg fault).andThen next failed) := by
  obtain ⟨ingressBundle, refusing, hs⟩ := s.onTransfer_session msg fault
  refine .andThen ?_ ?_ (s.onTransfer_quiet msg fault) hnext hfailed
  all_goals rw [hs]

theorem aside_of_control {s : Session} {control : Control} (h : ∀ t, control ≠ .sending t) :
    Aside s (⟨s, control⟩, []) := ⟨rfl, rfl, h, quiet_nil⟩

theorem aside_fail (s : Session) (e : SessionError) : Aside s (State.fail s e, []) :=
  aside_of_control fun _ h => Control.noConfusion h

theorem aside_finish (s : Session) (e : SessionError) : Aside s (State.finish s e, []) :=
  aside_of_control fun _ h => Control.noConfusion h

theorem aside_terminating (s : Session) (u : Unit) : Aside s (State.terminating s u) :=
  aside_of_control fun _ h => by
    split at h <;> cases h

theorem aside_onPeerFault {control : Control} (hcontrol : ∀ t, control ≠ .sending t)
    (hfailed : ∀ s e, Aside s (failed s e, [])) (e : SessionError) (fault : Option SessionError) :
    Aside s (State.onPeerFault s control failed e fault) := by
  unfold State.onPeerFault
  split
  · exact aside_send _ fault _ (fun s _ => aside_of_control hcontrol) hfailed
  · exact hfailed s _

theorem aside_epilogue (s : Session) (cla : Bool) (fault : Option SessionError)
    (e : SessionError) : Aside s (State.epilogue s cla fault e) := by
  have hfinished : Aside s (⟨s, .finished⟩, []) := aside_of_control fun _ h => Control.noConfusion h
  have hshutdown : ∀ reasonCode, Aside s (State.shutdown s reasonCode cla fault) :=
    fun reasonCode => by
      unfold State.shutdown
      split
      · exact hfinished
      · exact aside_send _ fault _
          (fun s _ => aside_of_control fun _ h => Control.noConfusion h) aside_finish
  unfold State.epilogue
  split
  · exact aside_send _ fault _ aside_terminating aside_finish
  all_goals first
    | exact hshutdown _
    | exact hfinished

theorem aside_terminatingStep {l : Label} {p : State × List Event}
    (hstep : State.terminatingStep s l = some p) : Aside s p := by
  unfold State.terminatingStep at hstep
  split at hstep
  · split at hstep
    · cases hstep
      exact aside_send _ _ _ aside_terminating aside_finish
    · cases hstep
      exact aside_onTransfer _ _ aside_terminating aside_finish
  · cases hstep
    exact aside_send _ _ _ aside_terminating aside_finish
  · cases hstep
    exact aside_onPeerFault (fun t h => Control.noConfusion h) aside_finish _ _
  · cases hstep

theorem aside_shuttingDownStep {l : Label} {p : State × List Event}
    (hstep : State.shuttingDownStep s l = some p) : Aside s p := by
  have hstay : ∀ s a, Aside s (State.stay .shuttingDown s a) := fun s _ =>
    aside_of_control fun _ h => Control.noConfusion h
  unfold State.shuttingDownStep at hstep
  split at hstep
  · cases hstep
    exact aside_finish s .io
  · cases hstep
    exact aside_finish s .io
  · cases hstep
    exact aside_onTransfer _ _ hstay aside_finish
  · cases hstep
    exact aside_send _ _ _ hstay aside_finish
  · cases hstep
    exact aside_onPeerFault (fun t h => Control.noConfusion h) aside_finish _ _
  · cases hstep

end

/-! ## Runs -/

/-- A bundle is forwarded only where the MTU lets it be cut up. -/
def Sizable (p : State × List Event) (l : Label) : Prop :=
  ∀ bundle, l.input = .bundle bundle → 0 < p.1.session.segmentMtu.toNat ∨ bundle = []

section

variable {mtu : UInt64} {s : Session} {as : List Attempt} {l : Label} {p : State × List Event}

theorem booked_mainStep (h : Books mtu s as) (hacks : s.acks = [])
    (hsized : ∀ bundle, l.input = .bundle bundle → 0 < mtu.toNat ∨ bundle = [])
    (hstep : State.mainStep s l = some p) : Booked mtu p.1 (p.2.foldl record as) := by
  have hstay : ∀ s a, Aside s (State.stay .main s a) := fun s _ =>
    aside_of_control fun _ h => Control.noConfusion h
  unfold State.mainStep at hstep
  split at hstep
  · cases hstep
    exact (aside_fail s _).booked h
  · cases hstep
    exact (aside_fail s _).booked h
  · next bundle hinput =>
      cases hstep
      unfold Session.forwardToPeer
      split
      · exact (aside_fail s _).booked h
      · exact booked_sendOnce h hacks (hsized bundle hinput)
  · cases hstep
    exact (aside_fail s _).booked h
  · cases hstep
    exact (aside_onTransfer _ _ hstay aside_fail).booked h
  · cases hstep
    exact (aside_fail s _).booked h
  · cases hstep
    exact (aside_send _ _ _ hstay aside_fail).booked h
  · cases hstep
    exact (aside_onPeerFault (fun t h => Control.noConfusion h) aside_fail _ _).booked h
  · cases hstep

theorem booked_sendingStep {a : Attempt} (h : Books mtu s (a :: as))
    (hsending : Sending mtu.toNat s t a) (hout : ∀ ack ∈ s.acks, ack.transferId = t.transferId)
    (hstep : State.sendingStep s t l = some p) : Booked mtu p.1 (p.2.foldl record (a :: as)) := by
  unfold State.sendingStep at hstep
  split at hstep
  · next msg _ =>
      cases hstep
      exact booked_answer h hsending hout (s.onPeerMsgWhileSending_answer msg l.fault)
  · cases hstep
    unfold State.onPeerFault
    split
    · next n _ =>
        have hquiet : Quiet (s.rejectMsg .unknownType n l.fault (.ok ())).events :=
          s.send_quiet _ _ _
        refine Reply.andThen_of (P := fun p => Booked mtu p.1 (p.2.foldl record (a :: as)))
          (fun _ _ => ?_) fun e _ => ?_
        · rw [List.foldl_append, foldl_record_quiet hquiet, Session.rejectMsg_session]
          refine ⟨h, fun t' ht' => ⟨a, as, rfl, ?_⟩⟩
          cases ht'
          exact hsending
        · rw [foldl_record_quiet hquiet, Session.rejectMsg_session]
          exact (aside_fail s e).booked h
    · exact (aside_fail s _).booked h
  · next segment _ hoffered =>
      cases hstep
      exact booked_fed h hsending hoffered
  · cases hstep
    exact (aside_fail s _).booked h
  · cases hstep

end

theorem booked_step {mtu : UInt64} {σ σ' : State} {events tr : List Event} {l : Label}
    (hout : σ.Outstanding) (h : Booked mtu σ (attempts tr)) (hsized : Sizable (σ, tr) l)
    (hstep : State.step σ l = some (σ', events)) : Booked mtu σ' (attempts (tr ++ events)) := by
  rw [attempts_append]
  obtain ⟨s, control⟩ := σ
  cases control with
  | main =>
    refine booked_mainStep h.books hout (fun bundle hinput => ?_) hstep
    rw [← h.books.segmentMtu]
    exact hsized bundle hinput
  | sending t =>
    obtain ⟨a, rest, has, hsending⟩ := h.sending t rfl
    have hbooks := h.books
    rw [has] at hbooks ⊢
    exact booked_sendingStep hbooks hsending hout hstep
  | failed e =>
    unfold State.step at hstep
    dsimp only at hstep
    split at hstep
    · next cla _ =>
        have haside := aside_epilogue s cla l.fault e
        rw [Option.some.inj hstep] at haside
        exact haside.booked h.books
    · cases hstep
  | terminating => exact (aside_terminatingStep hstep).booked h.books
  | shuttingDown => exact (aside_shuttingDownStep hstep).booked h.books
  | finished => cases hstep

/-- What the session feeds to the writer, and what it reports as completed, is sound
wherever bundles are cut up with an MTU that is not zero; and no transfer id is used for
two attempts until they have all been used. -/
theorem attempts_sound {localMtu : Option UInt64} {peerSegmentMru mru : UInt64} {σ : State}
    {events : List Event}
    (h : ((State.machine (negotiateSegmentMtu localMtu peerSegmentMru) mru).only Sizable).Reachable
      (σ, events)) :
    (∀ a ∈ attempts events, a.Sound (negotiateSegmentMtu localMtu peerSegmentMru).toNat) ∧
      ((attempts events).length ≤ 2 ^ 64 →
        ((attempts events).map (·.transferId)).Nodup) := by
  have hbooked : State.Outstanding σ ∧ Booked (negotiateSegmentMtu localMtu peerSegmentMru) σ
      (attempts events) := by
    refine h.invariant (I := fun p => p.1.Outstanding ∧ Booked _ p.1 (attempts p.2)) ?_ ?_
    · rintro ⟨σ, events⟩ ⟨hnew, rfl⟩
      cases hnew
      refine ⟨rfl, ⟨rfl, ⟨rfl, rfl⟩, nofun⟩, fun t ht => ?_⟩
      cases ht
    · rintro p l ⟨σ', events'⟩ ⟨hout, hp⟩ ⟨hsized, events, hstep, rfl⟩
      exact ⟨State.outstanding_step (p := (σ', events)) hout hstep,
        booked_step hout hp hsized hstep⟩
  refine ⟨hbooked.2.books.sound, fun hlength => ?_⟩
  rw [hbooked.2.books.numbered.transferIds, List.map_reverse, List.nodup_reverse]
  -- the ids of fewer than `2 ^ 64` attempts are their numbers
  refine List.Nodup.map_on (fun i hi j hj heq => ?_) List.nodup_range
  have hnat := congrArg UInt64.toNat heq
  rw [UInt64.toNat_ofNat_of_lt' ((List.mem_range.mp hi).trans_le hlength),
    UInt64.toNat_ofNat_of_lt' ((List.mem_range.mp hj).trans_le hlength)] at hnat
  exact hnat

/-! ### A bundle of three bytes, and a peer that takes none -/

def twoSegments : List Label :=
  [⟨.room, none⟩, ⟨.room, none⟩, ⟨.peer (.transferAck ⟨⟨true, false, 0⟩, 0, 2⟩), none⟩,
    ⟨.peer (.transferAck ⟨⟨false, true, 0⟩, 0, 3⟩), none⟩]

def twoSegmentsEvents : List Event :=
  [.sendOnce 0 [1, 2, 3], .feed ⟨⟨true, false, 0⟩, 0, [], [1, 2]⟩,
    .feed ⟨⟨false, true, 0⟩, 0, [], [3]⟩, .acknowledged ⟨⟨true, false, 0⟩, 0, 2⟩,
    .acknowledged ⟨⟨false, true, 0⟩, 0, 3⟩, .completed]

theorem twoSegments_sound : (∀ a ∈ attempts twoSegmentsEvents, a.Sound 2) ∧
    ((attempts twoSegmentsEvents).map (·.transferId)).Nodup := by
  have hbundle : ((State.machine (negotiateSegmentMtu (some 2) 5) 9).only Sizable).Reachable
      (((Session.new 2 9).sendOnce [1, 2, 3]).1, [.sendOnce 0 [1, 2, 3]]) := by
    have hstart : ((State.machine (negotiateSegmentMtu (some 2) 5) 9).only Sizable).Reachable
        (⟨.new (negotiateSegmentMtu (some 2) 5) 9, .main⟩, []) := .start ⟨rfl, rfl⟩
    exact .step ⟨.bundle [1, 2, 3], none⟩ hstart
      ⟨fun bundle _ => .inl (by decide), [.sendOnce 0 [1, 2, 3]], rfl, rfl⟩
  have hrun : Machine.runSteps (Machine.emit State.step)
      (((Session.new 2 9).sendOnce [1, 2, 3]).1, [.sendOnce 0 [1, 2, 3]]) twoSegments =
      some (⟨{ Session.new 2 9 with transferId := 1 }, .main⟩, twoSegmentsEvents) := rfl
  have hsound := attempts_sound (Machine.reachable_only_emit hbundle (fun p l hl bundle hinput => by
    simp only [twoSegments, List.mem_cons, List.not_mem_nil, or_false] at hl
    rcases hl with rfl | rfl | rfl | rfl <;> cases hinput) hrun)
  exact ⟨hsound.1, hsound.2 (by decide)⟩

theorem step_room {s : Session} {t : Transfer} {msg : TransferSegmentMessage}
    (hoffered : t.offered = some msg) (hfinish : msg.messageFlags.finish = false) :
    State.step ⟨s, .sending t⟩ ⟨.room, none⟩ =
      some (⟨(s.sendSegment t).1, .sending (s.sendSegment t).2⟩, [.feed msg]) := by
  show State.sendingStep s t _ = _
  unfold State.sendingStep Session.fed
  dsimp only
  rw [hoffered]
  dsimp only
  rw [hfinish]
  rfl

/-- With an MTU of zero the writer is fed segments without data, none of them the last, for as
long as it has room. -/
theorem endless {s : Session} {t : Transfer} (hmtu : s.segmentMtu = 0) (hrest : t.rest ≠ [])
    (before : List Event) (n : Nat) : ∃ (σ : State) (run : List TransferSegmentMessage),
      Machine.runSteps (Machine.emit State.step)
        (⟨(s.sendSegment t).1, .sending (s.sendSegment t).2⟩, before)
        (List.replicate n ⟨.room, none⟩) = some (σ, before ++ run.map .feed) ∧
      run.length = n ∧ ∀ msg ∈ run, msg.data = [] ∧ msg.messageFlags.finish = false := by
  induction n generalizing s t before with
  | zero => exact ⟨_, [], by rw [List.map_nil, List.append_nil]; rfl, rfl, nofun⟩
  | succ n ih =>
    have hlt : s.segmentMtu.toNat < t.rest.length := by
      rw [hmtu]
      exact List.length_pos_iff.mpr hrest
    obtain ⟨msg, hoffered, hdata, hfinish, hrest'⟩ : ∃ msg, (s.sendSegment t).2.offered = some msg ∧
        msg.data = [] ∧ msg.messageFlags.finish = false ∧ (s.sendSegment t).2.rest ≠ [] := by
      rw [Session.sendSegment, if_pos hlt, hmtu]
      exact ⟨_, rfl, rfl, rfl, hrest⟩
    obtain ⟨σ, run, hrun, hlength, hall⟩ :=
      ih ((sendSegment_segmentMtu s t).trans hmtu) hrest' (before ++ [.feed msg])
    refine ⟨σ, msg :: run, ?_, congrArg (· + 1) hlength,
      List.forall_mem_cons.mpr ⟨⟨hdata, hfinish⟩, hall⟩⟩
    rw [List.replicate_succ, Machine.runSteps, Machine.emit, step_room hoffered hfinish,
      List.map_cons, List.append_cons]
    exact hrun

/-- No segments that a peer without a segment MRU is fed make up a bundle. -/
theorem zeroMru_not_sound :
    ¬ ∀ (localMtu : Option UInt64) (peerSegmentMru mru : UInt64) (σ : State) (events : List Event),
      (State.machine (negotiateSegmentMtu localMtu peerSegmentMru) mru).Reachable (σ, events) →
      ∀ a ∈ attempts events, a.Sound (negotiateSegmentMtu localMtu peerSegmentMru).toNat := by
  intro h
  have hrun : Machine.runSteps (Machine.emit State.step) (⟨.new 0 9, .main⟩, [])
      [⟨.bundle [1], none⟩] =
      some (((Session.new 0 9).sendOnce [1]).1, [.sendOnce 0 [1]]) := rfl
  obtain ⟨run, hsegmented, -⟩ := h none 0 9 _ _
    (Machine.reachable_emit (State.isNew_new 0 9) hrun) _ List.mem_cons_self
  have hempty : dataOf run = [] := List.flatMap_eq_nil_iff.mpr fun msg hmsg =>
    List.length_eq_zero_iff.mp (Nat.le_zero.mp (hsegmented.size msg hmsg))
  rw [hsegmented.data] at hempty
  cases hempty

end Hardy.Tcpcl
