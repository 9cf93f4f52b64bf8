import Hardy.Tcpcl.Answering

/-!
# Answered transfers

What the writer emits for a transfer, and what the matcher of the peer makes of it.
-/

namespace Hardy.Tcpcl

open Cbor

/-! ## Acknowledged lengths -/

theorem expectedAcks_mono {run run' : List TransferSegmentMessage} (h : run <+: run') (n : Nat) :
    expectedAcks n run <+: expectedAcks n run' := by
  obtain ⟨rest, rfl⟩ := h
  rw [expectedAcks_append]
  exact List.prefix_append _ _

variable {run : List TransferSegmentMessage} {ack : XferAck}

theorem le_of_mem_expectedAcks {n : Nat}
    (h : ack ∈ expectedAcks n run) : n ≤ ack.acknowledgedLength ∧
      ack.acknowledgedLength ≤ n + (dataOf run).length := by
  induction run generalizing n with
  | nil => cases h
  | cons msg run ih =>
    rw [length_dataOf_cons]
    rcases List.mem_cons.mp h with rfl | h
    · dsimp only
      omega
    · have := ih h
      omega

theorem lt_of_mem_expectedAcks {n : Nat}
    (hdata : ∀ msg ∈ run, msg.data ≠ []) (h : ack ∈ expectedAcks n run) :
    n < ack.acknowledgedLength := by
  cases run with
  | nil => cases h
  | cons msg run =>
    have hpos := List.length_pos_iff.mpr (hdata msg List.mem_cons_self)
    rcases List.mem_cons.mp h with rfl | h
    · dsimp only
      omega
    · have := le_of_mem_expectedAcks h
      omega

theorem expectedAcks_le (n : Nat) (run : List TransferSegmentMessage) :
    (expectedAcks n run).Pairwise (·.acknowledgedLength ≤ ·.acknowledgedLength) := by
  induction run generalizing n with
  | nil => exact .nil
  | cons msg run ih => exact .cons (fun ack hack => (le_of_mem_expectedAcks hack).1) (ih _)

theorem expectedAcks_lt (n : Nat) (hdata : ∀ msg ∈ run.tail, msg.data ≠ []) :
    (expectedAcks n run).Pairwise (·.acknowledgedLength < ·.acknowledgedLength) := by
  induction run generalizing n with
  | nil => exact .nil
  | cons msg run ih =>
    exact .cons (fun ack hack => lt_of_mem_expectedAcks hdata hack)
      (ih _ fun m hm => hdata m (List.mem_of_mem_tail hm))

theorem transferId_of_mem_expectedAcks {id : UInt64} {n : Nat}
    (hid : ∀ msg ∈ run, msg.transferId = id) (h : ack ∈ expectedAcks n run) :
    ack.transferId = id := by
  induction run generalizing n with
  | nil => cases h
  | cons msg run ih =>
    rcases List.mem_cons.mp h with rfl | h
    · exact hid msg List.mem_cons_self
    · exact ih (fun m hm => hid m (List.mem_cons_of_mem _ hm)) h

section

variable {run : List TransferSegmentMessage} {given : List TransferAckMessage}

theorem ackMessages_pairwise {R : Nat → Nat → Prop} {S : UInt64 → UInt64 → Prop}
    (hsize : (dataOf run).length < 2 ^ 64)
    (hR : ∀ a b, a < 2 ^ 64 → b < 2 ^ 64 → R a b → S (.ofNat a) (.ofNat b))
    (h : (expectedAcks 0 run).Pairwise fun a b => R a.acknowledgedLength b.acknowledgedLength)
    (hgiven : given <+: ackMessages run) :
    given.Pairwise fun a b => S a.acknowledgedLength b.acknowledgedLength := by
  refine List.Pairwise.sublist hgiven.sublist (List.pairwise_map.mpr ?_)
  refine h.imp_of_mem fun {a b} ha hb hab => ?_
  have ha := (le_of_mem_expectedAcks ha).2
  have hb := (le_of_mem_expectedAcks hb).2
  exact hR _ _ (by omega) (by omega) hab

theorem ackMessages_le (hsize : (dataOf run).length < 2 ^ 64) (hgiven : given <+: ackMessages run) :
    given.Pairwise (·.acknowledgedLength ≤ ·.acknowledgedLength) :=
  ackMessages_pairwise hsize (fun a b ha hb h => by
    rwa [UInt64.le_iff_toNat_le, UInt64.toNat_ofNat_of_lt' ha, UInt64.toNat_ofNat_of_lt' hb])
    (expectedAcks_le 0 run) hgiven

theorem ackMessages_lt (hsize : (dataOf run).length < 2 ^ 64) (hgiven : given <+: ackMessages run)
    (hdata : ∀ msg ∈ run.tail, msg.data ≠ []) :
    given.Pairwise (·.acknowledgedLength < ·.acknowledgedLength) :=
  ackMessages_pairwise hsize (fun a b ha hb h => by
    rwa [UInt64.lt_iff_toNat_lt, UInt64.toNat_ofNat_of_lt' ha, UInt64.toNat_ofNat_of_lt' hb])
    (expectedAcks_lt 0 hdata) hgiven

end

/-! ## The matcher of the peer -/

/-- The matcher takes the messages one after the other, up to a refusal, and meets none
that it does not expect. -/
def Session.Meets : Session → List Message → Prop
  | _, [] => True
  | s, msg :: msgs =>
    match (s.onPeerMsgWhileSending msg none).result with
    | .ok .continue => (s.onPeerMsgWhileSending msg none).session.Meets msgs
    | .ok (.refused _) => msgs = []
    | .error _ => False

namespace Session

variable {s : Session}

theorem onPeerMsgWhileSending_ack {acks : List XferAck} (hacks : s.acks = ack :: acks) :
    s.onPeerMsgWhileSending (.transferAck ack.message) none =
      ⟨{ s with acks }, [.acknowledged ack.message], .ok .continue⟩ := by
  unfold onPeerMsgWhileSending
  dsimp only
  rw [hacks]
  exact if_pos ⟨rfl, rfl, rfl⟩

theorem meets_acks (done acks : List XferAck) (msgs : List Message)
    (hacks : s.acks = done ++ acks) (h : { s with acks }.Meets msgs) :
    s.Meets ((done.map XferAck.message).map .transferAck ++ msgs) := by
  induction done generalizing s with
  | nil =>
    rw [List.nil_append] at hacks
    subst hacks
    exact h
  | cons ack done ih =>
    have hreply := onPeerMsgWhileSending_ack hacks
    unfold Meets
    rw [List.map_cons, List.map_cons, List.cons_append]
    dsimp only
    rw [hreply]
    exact ih rfl h

theorem meets_refuse {acks : List XferAck} {msg : TransferRefuseMessage}
    (hacks : s.acks = ack :: acks) (hid : ack.transferId = msg.transferId) :
    s.Meets [.transferRefuse msg] := by
  unfold Meets onPeerMsgWhileSending
  dsimp only
  rw [hacks]
  dsimp only
  rw [if_pos hid]

end Session

theorem meets_answers {id : UInt64}
    {given : List TransferAckMessage} {refusals : List TransferRefuseMessage}
    {more : List XferAck} {s : Session} (hid : ∀ msg ∈ run, msg.transferId = id)
    (hgiven : given <+: ackMessages run) (hone : refusals.length ≤ 1)
    (hrefusals : ∀ msg ∈ refusals, msg.transferId = id ∧ given.length < run.length)
    (hacks : s.acks = expectedAcks 0 run ++ more) :
    s.Meets (given.map .transferAck ++ refusals.map .transferRefuse) := by
  obtain ⟨done, ⟨rest, hdone⟩, rfl⟩ := List.prefix_map_iff.mp hgiven
  rw [← hdone, List.append_assoc] at hacks
  refine Session.meets_acks done (rest ++ more) _ hacks ?_
  cases refusals with
  | nil => trivial
  | cons msg refusals =>
    cases refusals with
    | cons => exact absurd hone (by simp)
    | nil =>
      obtain ⟨heq, hlt⟩ := hrefusals msg (List.mem_singleton_self msg)
      cases rest with
      | nil =>
        -- all the segments would be acknowledged
        have hlength := length_ackMessages run
        rw [ackMessages, ← hdone, List.append_nil] at hlength
        omega
      | cons ack rest =>
        refine Session.meets_refuse rfl (Eq.trans ?_ heq.symm)
        refine transferId_of_mem_expectedAcks hid (n := 0) ?_
        rw [← hdone]
        exact List.mem_append_right _ List.mem_cons_self

/-! ## What the writer emits -/

def answersTo (id : UInt64) (written : List Message) : List Message :=
  written.filter fun msg => msg.answer.any (·.transferId = id)

theorem answersFor_written (id : UInt64) (written : List Message) :
    answersFor id (written.filterMap Message.answer) =
      (answersTo id written).filterMap Message.answer := by
  rw [answersFor, answersTo, List.filter_filterMap, List.filterMap_filter]
  refine List.filterMap_congr fun msg _ => ?_
  cases msg.answer <;> rfl

section

variable {id : UInt64} {msg : Message} {written : List Message}

theorem eq_of_answer_ack {ack : TransferAckMessage} (h : msg.answer = some (.ack ack)) :
    msg = .transferAck ack := by
  cases msg <;> cases h
  rfl

theorem eq_of_answer_refuse (h : msg.answer = some (.refuse id)) :
    ∃ m, msg = .transferRefuse m ∧ m.transferId = id := by
  cases msg <;> cases h
  exact ⟨_, rfl, rfl⟩

theorem answer_ne_dispatch (msg : Message) (ack : TransferAckMessage) :
    msg.answer ≠ some (.dispatch ack) := by
  cases msg <;> exact fun h => by cases h

theorem filterMap_answer_eq_cons {x : Answer} {xs : List Answer}
    (hanswer : ∀ msg ∈ written, msg.answer ≠ none)
    (h : written.filterMap Message.answer = x :: xs) :
    ∃ msg rest, written = msg :: rest ∧ msg.answer = some x ∧
      rest.filterMap Message.answer = xs := by
  cases written with
  | nil => cases h
  | cons msg rest =>
    obtain ⟨y, hy⟩ := Option.ne_none_iff_exists'.mp (hanswer msg List.mem_cons_self)
    rw [List.filterMap_cons_some hy] at h
    obtain ⟨rfl, hrest⟩ := List.cons.inj h
    exact ⟨msg, rest, rfl, hy, hrest⟩

theorem filterMap_answer_eq_nil (hanswer : ∀ msg ∈ written, msg.answer ≠ none)
    (h : written.filterMap Message.answer = []) : written = [] :=
  List.eq_nil_iff_forall_not_mem.mpr fun msg hmsg =>
    hanswer msg hmsg (List.filterMap_eq_nil_iff.mp h msg hmsg)

theorem filterMap_answer_eq_acks {given : List TransferAckMessage} {xs : List Answer}
    (hanswer : ∀ msg ∈ written, msg.answer ≠ none)
    (h : written.filterMap Message.answer = given.map .ack ++ xs) :
    ∃ rest, written = given.map .transferAck ++ rest ∧ rest.filterMap Message.answer = xs := by
  induction given generalizing written with
  | nil => exact ⟨written, rfl, h⟩
  | cons ack given ih =>
    obtain ⟨msg, rest, rfl, hmsg, hrest⟩ := filterMap_answer_eq_cons hanswer h
    obtain ⟨rest', rfl, hrest'⟩ := ih (fun m hm => hanswer m (List.mem_cons_of_mem _ hm)) hrest
    exact ⟨rest', by rw [eq_of_answer_ack hmsg]; rfl, hrest'⟩

theorem answers_written {acks : List TransferAckMessage} {n : Nat}
    (hanswer : ∀ msg ∈ written, msg.answer ≠ none)
    (h : Answers id acks n (written.filterMap Message.answer)) :
    ∃ (given : List TransferAckMessage) (refusals : List TransferRefuseMessage),
      written = given.map .transferAck ++ refusals.map .transferRefuse ∧ given <+: acks ∧
        refusals.length ≤ 1 ∧ ∀ msg ∈ refusals, msg.transferId = id ∧ given.length < n := by
  generalize hs : written.filterMap Message.answer = s at h
  cases h with
  | @acks given hgiven =>
    obtain ⟨rest, rfl, hrest⟩ := filterMap_answer_eq_acks hanswer
      (hs.trans (List.append_nil _).symm)
    have hnil := filterMap_answer_eq_nil
      (fun m hm => hanswer m (List.mem_append_right _ hm)) hrest
    exact ⟨given, [], by rw [hnil]; rfl, hgiven, Nat.zero_le _,
      nofun⟩
  | @dispatch given ack hgiven =>
    obtain ⟨rest, rfl, hrest⟩ := filterMap_answer_eq_acks hanswer hs
    obtain ⟨msg, -, -, hmsg, -⟩ := filterMap_answer_eq_cons
      (fun m hm => hanswer m (List.mem_append_right _ hm)) hrest
    exact absurd hmsg (answer_ne_dispatch msg ack)
  | @refuse given hgiven hlt =>
    obtain ⟨rest, rfl, hrest⟩ := filterMap_answer_eq_acks hanswer hs
    have hanswer := fun m hm => hanswer m (List.mem_append_right _ hm)
    obtain ⟨msg, rest, rfl, hmsg, hrest⟩ := filterMap_answer_eq_cons hanswer hrest
    have hnil := filterMap_answer_eq_nil (fun m hm => hanswer m (List.mem_cons_of_mem _ hm)) hrest
    obtain ⟨m, rfl, hid⟩ := eq_of_answer_refuse hmsg
    refine ⟨given, [m], by rw [hnil]; rfl, hgiven, Nat.le_refl _, fun m' hm' => ?_⟩
    cases List.mem_singleton.mp hm'
    exact ⟨hid, hlt⟩

end

/-- What a transfer is answered with: acknowledgements of its segments in order, and a
refusal at most behind them. -/
structure Tasks.Answered (t : Tasks) (id : UInt64) (given : List TransferAckMessage)
    (refusals : List TransferRefuseMessage) : Prop where
  written : answersTo id t.written = given.map .transferAck ++ refusals.map .transferRefuse
  order : given <+: ackMessages (segmentsFor id (received t.events))
  lengths : given.Pairwise (·.acknowledgedLength ≤ ·.acknowledgedLength)
  increasing : (∀ msg ∈ (segmentsFor id (received t.events)).tail, msg.data ≠ []) →
    given.Pairwise (·.acknowledgedLength < ·.acknowledgedLength)
  refusals : refusals.length ≤ 1
  segments : Ledger.InOrder t.arrived id →
    segmentsFor id (received t.events) <+: segmentsFor id t.arrived
  meets : Ledger.InOrder t.arrived id → ∀ (s : Session) (more : List XferAck),
    s.acks = expectedAcks 0 (segmentsFor id t.arrived) ++ more →
      s.Meets (answersTo id t.written)

/-- What is written for a transfer is acknowledgements in order and a refusal at most at
the end, which its sender expects, in every run where the peer uses an id once and mixes
no transfers and a refusal overtakes no acknowledgement. -/
theorem transfers_answered {segmentMtu transferMru : UInt64} {t : Tasks}
    (h : ((Tasks.machine segmentMtu transferMru).only Tasks.Orderly).Reachable t) (id : UInt64) :
    ∃ given refusals, t.Answered id given refusals := by
  have hsound := (Tasks.sound_of_reachable h).answering
  have hbefore : t.written.filterMap Message.answer <+: t.stream :=
    ((List.prefix_append _ _).filterMap _).trans (List.prefix_append _ _)
  have hanswers : Answers id _ _ (answersFor id (t.written.filterMap Message.answer)) :=
    (hsound.answers id).of_front (hbefore.filter _)
  rw [answersFor_written] at hanswers
  have hanswer : ∀ msg ∈ answersTo id t.written, msg.answer ≠ none := fun msg hmsg hnone => by
    have hany := (List.mem_filter.mp hmsg).2
    rw [hnone] at hany
    cases hany
  obtain ⟨given, refusals, hwritten, hgiven, hone, hrefusals⟩ :=
    answers_written hanswer hanswers
  have hsize : (dataOf (segmentsFor id (received t.events))).length < 2 ^ 64 :=
    Nat.lt_of_le_of_lt (hsound.size id) t.reader.session.transferMru.toNat_lt
  refine ⟨given, refusals, hwritten, hgiven, ackMessages_le hsize hgiven,
    fun hdata => ackMessages_lt hsize hgiven hdata, hone,
    fun hin => (hsound.inOrder id hin).1, fun hin s more hacks => ?_⟩
  rw [hwritten]
  refine meets_answers (fun msg hmsg => ?_) (hgiven.trans ?_) hone hrefusals hacks
  · exact of_decide_eq_true (List.mem_filter.mp hmsg).2
  · exact (expectedAcks_mono (hsound.inOrder id hin).1 0).map _

/-! ### A transfer that grows beyond the MRU -/

theorem Tasks.orderly_step {t t' : Tasks} (l : TaskLabel)
    (h : ((Tasks.machine 10 1).only Tasks.Orderly).Reachable t) (hl : t.Orderly l)
    (hs : t.step l = some t') : ((Tasks.machine 10 1).only Tasks.Orderly).Reachable t' :=
  .step l h ⟨hl, hs⟩

/-- It is refused when its first segment has been acknowledged. -/
theorem refusedLate_answered :
    ∃ t, ((Tasks.machine 10 1).only Tasks.Orderly).Reachable t ∧ answersTo 1 t.written =
        [.transferAck ⟨⟨true, false, 0⟩, 1, 1⟩, .transferRefuse ⟨.notAcceptable, 1⟩] ∧
      ∃ given refusals, t.Answered 1 given refusals := by
  have h₀ : ((Tasks.machine 10 1).only Tasks.Orderly).Reachable (Tasks.new 10 1) := .start rfl
  have h₁ := Tasks.orderly_step (.reader ⟨.peer (.transferSegment firstSegment), none⟩) h₀
    (fun l' msg hl hmsg => by
      cases hl
      cases hmsg
      exact ⟨fun _ ⟨m, hm, _⟩ => absurd hm List.not_mem_nil, fun hs => Bool.noConfusion hs,
        nofun⟩) rfl
  have h₂ := Tasks.orderly_step .take h₁ (fun _ _ hl => TaskLabel.noConfusion hl) rfl
  have h₃ := Tasks.orderly_step (.settle .accepted) h₂ (fun _ _ hl => TaskLabel.noConfusion hl) rfl
  have h₄ := Tasks.orderly_step .write h₃ (fun _ _ hl => TaskLabel.noConfusion hl) rfl
  have h₅ := Tasks.orderly_step (.reader ⟨.peer (.transferSegment (lastSegment 1)), none⟩) h₄
    (fun l' msg hl hmsg => by
      cases hl
      cases hmsg
      exact ⟨fun hs => Bool.noConfusion hs, fun _ _ => rfl,
        nofun⟩) rfl
  have h₆ := Tasks.orderly_step .write h₅ (fun _ _ hl => TaskLabel.noConfusion hl) rfl
  exact ⟨_, h₆, rfl, transfers_answered h₆ 1⟩

def refusedEarly : List TaskLabel :=
  [.reader ⟨.peer (.transferSegment firstSegment), none⟩,
    .reader ⟨.peer (.transferSegment (lastSegment 1)), none⟩, .write, .take, .settle .accepted,
    .write]

/-- An acknowledgement follows the refusal of its transfer. -/
theorem refusedEarly_not_answered :
    ¬ ∀ (segmentMtu transferMru : UInt64) (t : Tasks),
      (Tasks.machine segmentMtu transferMru).Reachable t → ∀ id : UInt64,
        ∃ given refusals, t.Answered id given refusals := by
  intro h
  obtain ⟨t, hrun, hwritten⟩ : ∃ t, Machine.runSteps Tasks.step (Tasks.new 10 1) refusedEarly = some t ∧
      answersTo 1 t.written =
        [.transferRefuse ⟨.notAcceptable, 1⟩, .transferAck ⟨⟨true, false, 0⟩, 1, 1⟩] :=
    ⟨_, rfl, rfl⟩
  obtain ⟨given, refusals, hanswered⟩ := h 10 1 t (Machine.reachable_runSteps (.start rfl) hrun) 1
  have hshape := hanswered.written.symm.trans hwritten
  cases given with
  | nil =>
    cases refusals with
    | nil => cases hshape
    | cons msg refusals =>
      obtain ⟨-, hrest⟩ := List.cons.inj hshape
      cases refusals <;> cases hrest
  | cons ack given => cases hshape

end Hardy.Tcpcl
