import Hardy.Machine
import Hardy.Bpa.Store
import Hardy.Routing.Table

/-!
# Activations of `process_bundle`

One stored record and the dispatch tasks that hold a copy of it: copies of
`poll_waiting`, which claim nothing, and copies from the dispatch queue, which
claim by a swap.  The tasks are cut at their awaits and run in any
interleaving, and the rest of the node may change the record between two steps.

The record of a bundle stays in a status until somebody changes it; the stays
are counted.
-/

namespace Hardy.Bpa.Activation

/-- What a task does about its bundle: the outcome of the expiry checkpoint and
the lookup. -/
inductive Verdict where
  | expired
  | drop (reason : Option Hardy.ReasonCode)
  | admin
  | deliver (service : Eid)
  /-- `Deliver`, of a fragment. -/
  | reassemble
  | forward (peer queue : Nat) (nextHop : Eid)
  /-- No route, or none that is left. -/
  | park (status : BundleStatus)
deriving DecidableEq

inductive Phase where
  | begun
  | routed (verdict : Verdict)
  /-- `administrative_bundle` -/
  | admin
  /-- The assertions of a status report that the service is still to hear. -/
  | notifying (assertions : Nat)
  /-- `delete_bundle`: the data, then the record. -/
  | deleting
  | tombstoning
  /-- The bundle is assigned to a queue, which may be closed; where to park it
  then. -/
  | queued (parked : BundleStatus)
  /-- `park_bundle` after its first swap. -/
  | parked
  | redispatched
  | done
deriving DecidableEq

structure Task where
  /-- The status of the copy. -/
  copy : BundleStatus
  /-- The stay in which the copy was taken. -/
  stay : Nat
  phase : Phase
  /-- The stay in which the task has first changed something. -/
  acted : Option Nat

def Task.Waits (t : Task) : Prop := t.acted = none ∧ t.phase ≠ .done

structure State where
  /-- The status of the record, none for a tombstone. -/
  status : Option BundleStatus
  stay : Nat
  data : Bool
  /-- The tasks that have notified the service, one entry a notification. -/
  notified : List Nat
  tasks : Nat → Option Task
  /-- The record has come back to the status of a copy in use. -/
  revisited : Prop

namespace State

def setTask (s : State) (k : Nat) (t : Task) : State :=
  { s with tasks := Function.update s.tasks k (some t) }

def write (s : State) (status : Option BundleStatus) : State :=
  if s.status = status then s
  else { s with
    status := status
    stay := s.stay + 1
    revisited := s.revisited ∨ ∃ k t, s.tasks k = some t ∧ t.Waits ∧ some t.copy = status }

def act (s : State) (t : Task) : Option Nat := t.acted.or (some s.stay)

def swap (s : State) (k : Nat) (t : Task) (status : BundleStatus) (next : Phase) : State :=
  if s.status = some t.copy then
    if status = t.copy then s.setTask k { t with phase := next }
    else (s.setTask k { t with copy := status, phase := next, acted := s.act t }).write
      (some status)
  else s.setTask k { t with phase := .done }

def drop (s : State) (k : Nat) (t : Task) : State :=
  if s.status = some t.copy then
    (s.setTask k { t with phase := .deleting, acted := s.act t }).write none
  else s.setTask k { t with phase := .done }

def goto (s : State) (k : Nat) (t : Task) (next : Phase) : State :=
  s.setTask k { t with phase := next }

end State

inductive Label where
  /-- `poll_waiting` takes a copy. -/
  | poll (k : Nat)
  /-- The consumer of the dispatch queue claims a copy. -/
  | dequeue (k : Nat)
  /-- The reaper, a sweep or anybody else writes the record. -/
  | other (status : Option BundleStatus) (data : Bool)
  | route (k : Nat) (verdict : Verdict)
  | act (k : Nat)
  /-- The peer is not known, or the queue is closed. -/
  | refused (k : Nat)
  | sent (k : Nat)
  /-- No administrative record, or none that can be read. -/
  | adminDrop (k : Nat)
  /-- No key yet, or no service yet. -/
  | adminPark (k : Nat) (status : BundleStatus)
  | adminReport (k : Nat) (assertions : Nat)
  /-- `ReassemblyResult::NotReady` -/
  | notReady (k : Nat) (source : Eid) (timestamp : CreationTimestamp)
  /-- `ReassemblyResult::Done` or `Failed`: the fragments are deleted. -/
  | reassembled (k : Nat)
  | watch (k : Nat)
  | redispatch (k : Nat)

def taskStep (s : State) (k : Nat) (t : Task) : Label → Option State
  | .route _ verdict => if t.phase = .begun then some (s.goto k t (.routed verdict)) else none
  | .act _ =>
    match t.phase with
    | .routed .expired | .routed (.drop (some _)) => some (s.drop k t)
    | .routed (.drop none) => some (s.goto k t .deleting)
    | .routed .admin => some (s.goto k t .admin)
    | .routed (.deliver service) =>
      some (s.swap k t (.deliverPending service) (.queued (.waitingForService service)))
    | .routed (.forward peer queue nextHop) =>
      some (s.swap k t (.forwardPending peer queue nextHop) (.queued .waiting))
    | .routed (.park status) => some (s.swap k t status .parked)
    | .notifying (n + 1) =>
      some { s.setTask k { t with phase := .notifying n, acted := s.act t } with
        notified := s.notified ++ [k] }
    | .notifying 0 => some (s.goto k t .deleting)
    | .deleting =>
      some { s.setTask k { t with phase := .tombstoning, acted := s.act t } with
        data := false }
    | .tombstoning => some ((s.goto k t .done).write none)
    | .redispatched => some (s.swap k t .dispatchPending .done)
    | _ => none
  | .refused _ =>
    match t.phase with
    | .routed (.forward _ _ _) => some (s.goto k t (.routed (.park .waiting)))
    | .queued parked => some (s.swap k t parked .parked)
    | _ => none
  | .sent _ =>
    match t.phase with
    | .queued _ => some (s.goto k t .done)
    | _ => none
  | .adminDrop _ => if t.phase = .admin then some (s.drop k t) else none
  | .adminPark _ status => if t.phase = .admin then some (s.swap k t status .done) else none
  | .adminReport _ assertions =>
    if t.phase = .admin then some (s.goto k t (.notifying assertions)) else none
  | .notReady _ source timestamp =>
    match t.phase with
    | .routed .reassemble => some (s.swap k t (.aduFragment source timestamp) .done)
    | _ => none
  | .reassembled _ =>
    match t.phase with
    | .routed .reassemble =>
      some { (s.setTask k { t with phase := .done, acted := s.act t }).write none with
        data := false }
    | _ => none
  | .watch _ => if t.phase = .parked then some (s.goto k t .done) else none
  | .redispatch _ =>
    if t.phase = .parked then some (s.swap k t .dispatching .redispatched) else none
  | _ => none

def Label.task : Label → Option Nat
  | .poll _ | .dequeue _ | .other _ _ => none
  | .route k _ | .act k | .refused k | .sent k | .adminDrop k | .adminPark k _ | .adminReport k _
  | .notReady k _ _ | .reassembled k | .watch k | .redispatch k => some k

def step (s : State) (l : Label) : Option State :=
  match l with
  | .poll k =>
    if s.status = some .waiting ∧ (s.tasks k).isNone then
      some (s.setTask k ⟨.waiting, s.stay, .begun, none⟩)
    else none
  | .dequeue k =>
    if (s.tasks k).isNone then
      if s.status = some .dispatchPending then
        some ((s.write (some .dispatching)).setTask k ⟨.dispatching, s.stay + 1, .begun, none⟩)
      else some s
    else none
  | .other status data => some { s.write status with data := data }
  | l => l.task.bind fun k => (s.tasks k).bind fun t => taskStep s k t l

def Start (s : State) : Prop := (∀ k, s.tasks k = none) ∧ ¬s.revisited

def machine : Machine State Label := .ofStep Start step

/-- The steps that act without a claim: a drop without a reason, a status report
for a service, and the end of a reassembly. -/
def Unclaimed (s : State) : Label → Prop
  | .act k => ∃ t, s.tasks k = some t ∧ t.phase = .routed (.drop none)
  | .adminReport _ _ | .reassembled _ => True
  | _ => False

/-! ## One task acts in a stay -/

def Phase.Owned : Phase → Prop
  | .notifying _ | .deleting | .tombstoning => True
  | _ => False

structure Inv (s : State) : Prop where
  fresh : ∀ k t, s.tasks k = some t → t.stay ≤ s.stay
  /-- A copy of an earlier stay is out of date. -/
  stale : ¬s.revisited → ∀ k t, s.tasks k = some t → t.Waits → t.stay ≠ s.stay →
    s.status ≠ some t.copy
  owned : ∀ k t, s.tasks k = some t → t.phase.Owned → t.acted ≠ none
  /-- Who acts ends the stay. -/
  acted : ∀ k t n, s.tasks k = some t → t.acted = some n → n < s.stay
  one : ∀ k k' t t' n, s.tasks k = some t → s.tasks k' = some t' → t.acted = some n →
    t'.acted = some n → k = k'
  own : ¬s.revisited → ∀ k t n, s.tasks k = some t → t.acted = some n → t.stay = n

variable {s s' : State} {k : Nat} {t t' : Task} {status : Option BundleStatus}

theorem setTask_self : (s.setTask k t).tasks k = some t := Function.update_self ..

theorem setTask_ne {k' : Nat} (h : k' ≠ k) : (s.setTask k t).tasks k' = s.tasks k' :=
  Function.update_of_ne h _ _

theorem forall_setTask {P : Nat → Task → Prop} (h : ∀ k' t', s.tasks k' = some t' → P k' t')
    (hk : P k t) : ∀ k' t', (s.setTask k t).tasks k' = some t' → P k' t' := by
  intro k' t' ht'
  by_cases hkk : k' = k
  · subst hkk
    rw [setTask_self] at ht'
    cases ht'
    exact hk
  · rw [setTask_ne hkk] at ht'
    exact h k' t' ht'

theorem one_setTask {n : Nat}
    (h : ∀ k k' t t', s.tasks k = some t → s.tasks k' = some t' → t.acted = some n →
      t'.acted = some n → k = k')
    (hk : t.acted = some n → ∀ k' t', s.tasks k' = some t' → t'.acted = some n → k' = k) :
    ∀ k₁ k₂ t₁ t₂, (s.setTask k t).tasks k₁ = some t₁ → (s.setTask k t).tasks k₂ = some t₂ →
      t₁.acted = some n → t₂.acted = some n → k₁ = k₂ := by
  intro k₁ k₂ t₁ t₂ h₁ h₂ ha₁ ha₂
  by_cases hk₁ : k₁ = k
  · by_cases hk₂ : k₂ = k
    · rw [hk₁, hk₂]
    · subst hk₁
      rw [setTask_self] at h₁
      cases h₁
      rw [setTask_ne hk₂] at h₂
      exact (hk ha₁ k₂ t₂ h₂ ha₂).symm
  · rw [setTask_ne hk₁] at h₁
    by_cases hk₂ : k₂ = k
    · subst hk₂
      rw [setTask_self] at h₂
      cases h₂
      exact hk ha₂ k₁ t₁ h₁ ha₁
    · rw [setTask_ne hk₂] at h₂
      exact h k₁ k₂ t₁ t₂ h₁ h₂ ha₁ ha₂

theorem Inv.setTask (h : Inv s) (hk : s.tasks k = some t) (hphase : t.phase ≠ .done)
    (hstay : t'.stay = t.stay) (hacted : t'.acted = t.acted)
    (hcopy : t'.copy = t.copy ∨ t.acted ≠ none) (howned : t'.phase.Owned → t.acted ≠ none) :
    Inv (s.setTask k t') := by
  constructor
  · refine forall_setTask h.fresh ?_
    rw [hstay]
    exact h.fresh k t hk
  · intro hr
    refine forall_setTask (h.stale hr) fun hw hne => ?_
    have ha : t.acted = none := hacted ▸ hw.1
    rw [hcopy.resolve_right (not_not_intro ha)]
    exact h.stale hr k t hk ⟨ha, hphase⟩ (hstay ▸ hne)
  · refine forall_setTask h.owned fun ho => ?_
    rw [hacted]
    exact howned ho
  · intro k' t'' n ht''
    revert n
    refine forall_setTask (P := fun _ t => ∀ n, t.acted = some n → n < s.stay)
      (fun k t hk n => h.acted k t n hk) (fun n hn => ?_) k' t'' ht''
    exact h.acted k t n hk (hacted ▸ hn)
  · intro k₁ k₂ t₁ t₂ n
    refine one_setTask (fun k k' t t' => h.one k k' t t' n) (fun hn k' u hu hun => ?_) k₁ k₂ t₁ t₂
    exact h.one k' k u t n hu hk hun (hacted ▸ hn)
  · intro hr k' t'' n ht''
    revert n
    refine forall_setTask (P := fun _ t => ∀ n, t.acted = some n → t.stay = n)
      (fun k t hk n => h.own hr k t n hk) (fun n hn => ?_) k' t'' ht''
    rw [hstay]
    exact h.own hr k t n hk (hacted ▸ hn)

theorem write_tasks : (s.write status).tasks = s.tasks := by
  rw [State.write]
  split <;> rfl

theorem Inv.write (h : Inv s) (status : Option BundleStatus) : Inv (s.write status) := by
  rw [State.write]
  split
  · exact h
  · refine ⟨fun k t hk => (h.fresh k t hk).trans (Nat.le_succ _), fun hr k t hk hw _ hst => ?_,
      h.owned, fun k t n hk hn => (h.acted k t n hk hn).trans (Nat.lt_succ_self _), h.one,
      fun hr => h.own fun h => hr (.inl h)⟩
    exact hr (.inr ⟨k, t, hk, hw, hst.symm⟩)

theorem Inv.win (h : Inv s) (hk : s.tasks k = some t) (hphase : t.phase ≠ .done)
    (hcurrent : s.status = some t.copy) (hne : status ≠ s.status) (hstay : t'.stay = t.stay)
    (hacted : t'.acted = s.act t) : Inv ((s.setTask k t').write status) := by
  by_cases ha : t.acted = none
  · have hact : t'.acted = some s.stay := by
      rw [hacted, State.act, ha]
      rfl
    rw [State.write, if_neg fun heq => hne heq.symm]
    constructor
    · refine forall_setTask (fun k t hk => (h.fresh k t hk).trans (Nat.le_succ _)) ?_
      rw [hstay]
      exact (h.fresh k t hk).trans (Nat.le_succ _)
    · intro hr k' u hu hw _ hst
      exact hr (.inr ⟨k', u, hu, hw, hst.symm⟩)
    · refine forall_setTask h.owned fun _ => ?_
      rw [hact]
      nofun
    · intro k' u n hu
      revert n
      refine forall_setTask (P := fun _ t => ∀ n, t.acted = some n → n < s.stay + 1)
        (fun k t hk n hn => (h.acted k t n hk hn).trans (Nat.lt_succ_self _)) (fun n hn => ?_) k' u hu
      rw [hact] at hn
      cases hn
      exact Nat.lt_succ_self _
    · intro k₁ k₂ t₁ t₂ n
      refine one_setTask (fun k k' t t' => h.one k k' t t' n) (fun hn k' u hu hun => ?_) k₁ k₂ t₁ t₂
      rw [hact] at hn
      cases hn
      exact absurd (h.acted k' u _ hu hun) (Nat.lt_irrefl _)
    · intro hr k' u n hu
      have hr' : ¬s.revisited := fun h => hr (.inl h)
      revert n
      refine forall_setTask (P := fun _ t => ∀ n, t.acted = some n → t.stay = n)
        (fun k t hk n => h.own hr' k t n hk) (fun n hn => ?_) k' u hu
      rw [hact] at hn
      cases hn
      rw [hstay]
      by_contra hold
      exact h.stale hr' k t hk ⟨ha, hphase⟩ hold hcurrent
  · refine (h.setTask hk hphase hstay ?_ (.inr ha) fun _ => ha).write status
    rw [hacted, State.act]
    obtain ⟨n, hn⟩ := Option.ne_none_iff_exists'.mp ha
    rw [hn]
    rfl

theorem Inv.goto (h : Inv s) (hk : s.tasks k = some t) (hphase : t.phase ≠ .done) {next : Phase}
    (hnext : next.Owned → t.acted ≠ none) : Inv (s.goto k t next) :=
  h.setTask hk hphase rfl rfl (.inl rfl) hnext

theorem Inv.swap (h : Inv s) (hk : s.tasks k = some t) (hphase : t.phase ≠ .done)
    (status : BundleStatus) {next : Phase} (hnext : ¬next.Owned) :
    Inv (s.swap k t status next) := by
  rw [State.swap]
  split
  · rename_i hcurrent
    split
    · exact h.goto hk hphase fun ho => absurd ho hnext
    · rename_i hne
      refine h.win hk hphase hcurrent (fun heq => hne ?_) rfl rfl
      rw [hcurrent] at heq
      exact Option.some.inj heq
  · exact h.goto hk hphase nofun

theorem Inv.drop (h : Inv s) (hk : s.tasks k = some t) (hphase : t.phase ≠ .done) :
    Inv (s.drop k t) := by
  rw [State.drop]
  split
  · rename_i hcurrent
    refine h.win hk hphase hcurrent ?_ rfl rfl
    rw [hcurrent]
    nofun
  · exact h.goto hk hphase nofun

theorem Inv.effects (h : Inv s) (data : Bool) (notified : List Nat) :
    Inv { s with data, notified } :=
  ⟨h.fresh, h.stale, h.owned, h.acted, h.one, h.own⟩

theorem Inv.owner (h : Inv s) (hk : s.tasks k = some t) (hphase : t.phase.Owned) {next : Phase} :
    Inv (s.setTask k { t with phase := next, acted := s.act t }) := by
  have ha := h.owned k t hk hphase
  have hact : s.act t = t.acted := by
    obtain ⟨n, hn⟩ := Option.ne_none_iff_exists'.mp ha
    rw [State.act, hn]
    rfl
  refine h.setTask hk (fun hd => ?_) rfl hact (.inl rfl) fun _ => ha
  rw [hd] at hphase
  exact hphase

theorem Inv.taskStep {l : Label} (h : Inv s) (hk : s.tasks k = some t) (hl : l.task = some k)
    (hclaims : ¬Unclaimed s l) (hstep : taskStep s k t l = some s') : Inv s' := by
  cases l with
  | poll | dequeue | other => cases hl
  | route _ verdict =>
    obtain ⟨hphase, heq⟩ := Option.ite_none_right_eq_some.mp hstep
    cases heq
    exact h.goto hk (by rw [hphase]; nofun) nofun
  | act k' =>
    cases hl
    rw [Activation.taskStep] at hstep
    split at hstep
    case h_1 hphase =>
      cases hstep
      exact h.drop hk (by rw [hphase]; nofun)
    case h_2 hphase =>
      cases hstep
      exact h.drop hk (by rw [hphase]; nofun)
    case h_3 hphase => exact absurd ⟨t, hk, hphase⟩ hclaims
    case h_4 hphase =>
      cases hstep
      exact h.goto hk (by rw [hphase]; nofun) nofun
    case h_5 hphase =>
      cases hstep
      exact h.swap hk (by rw [hphase]; nofun) _ id
    case h_6 hphase =>
      cases hstep
      exact h.swap hk (by rw [hphase]; nofun) _ id
    case h_7 hphase =>
      cases hstep
      exact h.swap hk (by rw [hphase]; nofun) _ id
    case h_8 hphase =>
      cases hstep
      exact (h.owner hk (by rw [hphase]; trivial)).effects _ _
    case h_9 hphase =>
      cases hstep
      exact h.goto hk (by rw [hphase]; nofun) fun _ => h.owned k t hk (by rw [hphase]; trivial)
    case h_10 hphase =>
      cases hstep
      exact (h.owner hk (by rw [hphase]; trivial)).effects _ _
    case h_11 hphase =>
      cases hstep
      refine Inv.write ?_ none
      exact h.goto hk (by rw [hphase]; nofun) nofun
    case h_12 hphase =>
      cases hstep
      exact h.swap hk (by rw [hphase]; nofun) _ id
    case h_13 => cases hstep
  | refused _ =>
    rw [Activation.taskStep] at hstep
    split at hstep
    case h_1 hphase =>
      cases hstep
      exact h.goto hk (by rw [hphase]; nofun) nofun
    case h_2 hphase =>
      cases hstep
      exact h.swap hk (by rw [hphase]; nofun) _ id
    case h_3 => cases hstep
  | sent _ =>
    rw [Activation.taskStep] at hstep
    split at hstep
    case h_1 hphase =>
      cases hstep
      exact h.goto hk (by rw [hphase]; nofun) nofun
    case h_2 => cases hstep
  | adminDrop _ =>
    obtain ⟨hphase, heq⟩ := Option.ite_none_right_eq_some.mp hstep
    cases heq
    exact h.drop hk (by rw [hphase]; nofun)
  | adminPark _ status =>
    obtain ⟨hphase, heq⟩ := Option.ite_none_right_eq_some.mp hstep
    cases heq
    exact h.swap hk (by rw [hphase]; nofun) _ id
  | adminReport _ _ => exact absurd trivial hclaims
  | notReady _ source timestamp =>
    rw [Activation.taskStep] at hstep
    split at hstep
    case h_1 hphase =>
      cases hstep
      exact h.swap hk (by rw [hphase]; nofun) _ id
    case h_2 => cases hstep
  | reassembled _ => exact absurd trivial hclaims
  | watch _ =>
    obtain ⟨hphase, heq⟩ := Option.ite_none_right_eq_some.mp hstep
    cases heq
    exact h.goto hk (by rw [hphase]; nofun) nofun
  | redispatch _ =>
    obtain ⟨hphase, heq⟩ := Option.ite_none_right_eq_some.mp hstep
    cases heq
    exact h.swap hk (by rw [hphase]; nofun) _ id

theorem Inv.launch (h : Inv s) (hstay : t.stay = s.stay) (hphase : ¬t.phase.Owned)
    (hacted : t.acted = none) : Inv (s.setTask k t) := by
  constructor
  · exact forall_setTask h.fresh hstay.le
  · exact fun hr => forall_setTask (h.stale hr) fun _ hne => absurd hstay hne
  · exact forall_setTask h.owned fun ho => absurd ho hphase
  · intro k' u n hu
    revert n
    refine forall_setTask (P := fun _ t => ∀ n, t.acted = some n → n < s.stay)
      (fun k t hk n => h.acted k t n hk) (fun n hn => ?_) k' u hu
    rw [hacted] at hn
    cases hn
  · intro k₁ k₂ t₁ t₂ n
    refine one_setTask (fun k k' t t' => h.one k k' t t' n) (fun hn => ?_) k₁ k₂ t₁ t₂
    rw [hacted] at hn
    cases hn
  · intro hr k' u n hu
    revert n
    refine forall_setTask (P := fun _ t => ∀ n, t.acted = some n → t.stay = n)
      (fun k t hk n => h.own hr k t n hk) (fun n hn => ?_) k' u hu
    rw [hacted] at hn
    cases hn

theorem step_of_task {l : Label} (hl : l.task = some k) (hstep : step s l = some s') :
    ∃ t, s.tasks k = some t ∧ taskStep s k t l = some s' := by
  cases l with
  | poll | dequeue | other => cases hl
  | _ =>
    cases hl
    exact Option.bind_eq_some_iff.mp hstep

theorem Inv.step {l : Label} (h : Inv s) (hclaims : ¬Unclaimed s l)
    (hstep : step s l = some s') : Inv s' := by
  cases hl : l.task with
  | some k =>
    obtain ⟨t, hk, hstep⟩ := step_of_task hl hstep
    exact h.taskStep hk hl hclaims hstep
  | none =>
    cases l with
    | poll k =>
      obtain ⟨-, heq⟩ := Option.ite_none_right_eq_some.mp hstep
      cases heq
      exact h.launch rfl id rfl
    | dequeue k =>
      obtain ⟨-, heq⟩ := Option.ite_none_right_eq_some.mp hstep
      split at heq
      · rename_i hpending
        cases heq
        refine (h.write _).launch ?_ id rfl
        rw [State.write, if_neg]
        rw [hpending]
        nofun
      · cases heq
        exact h
    | other status data =>
      cases hstep
      exact (h.write status).effects data _
    | _ => cases hl

theorem Inv.start (h : Start s) : Inv s := by
  obtain ⟨hnone, -⟩ := h
  refine ⟨fun k t hk => ?_, fun _ k t hk => ?_, fun k t hk => ?_, fun k t n hk => ?_,
    fun k k' t t' n hk => ?_, fun _ k t n hk => ?_⟩ <;> rw [hnone k] at hk <;> cases hk

theorem inv_reachable (h : (machine.only fun s l => ¬Unclaimed s l).Reachable s) : Inv s :=
  h.invariant (fun _ => Inv.start) fun _ _ _ hinv hstep => hinv.step hstep.1 hstep.2

/-! ## The others leave everything alone -/

/-- The record, its data and the services are the same. -/
structure Untouched (s s' : State) : Prop where
  status : s'.status = s.status
  data : s'.data = s.data
  notified : s'.notified = s.notified

theorem act_ne_none : s.act t ≠ none := by
  rw [State.act]
  cases t.acted <;> nofun

theorem untouched_goto (next : Phase) : Untouched s (s.goto k t next) := ⟨rfl, rfl, rfl⟩

theorem untouched_swap {status : BundleStatus} {next : Phase}
    (hk : (s.swap k t status next).tasks k = some t') (ha : t'.acted = none) :
    Untouched s (s.swap k t status next) := by
  rw [State.swap] at hk ⊢
  split at hk
  · rename_i hcurrent
    rw [if_pos hcurrent]
    split at hk
    · rename_i hsame
      rw [if_pos hsame]
      exact ⟨rfl, rfl, rfl⟩
    · rw [write_tasks, setTask_self] at hk
      cases hk
      exact absurd ha act_ne_none
  · rename_i hlost
    rw [if_neg hlost]
    exact ⟨rfl, rfl, rfl⟩

theorem untouched_drop (hk : (s.drop k t).tasks k = some t') (ha : t'.acted = none) :
    Untouched s (s.drop k t) := by
  rw [State.drop] at hk ⊢
  split at hk
  · rw [write_tasks, setTask_self] at hk
    cases hk
    exact absurd ha act_ne_none
  · rename_i hlost
    rw [if_neg hlost]
    exact ⟨rfl, rfl, rfl⟩

theorem untouched_taskStep {l : Label} (h : Inv s) (hk : s.tasks k = some t)
    (hstep : taskStep s k t l = some s') (hk' : s'.tasks k = some t') (ha : t'.acted = none) :
    Untouched s s' := by
  cases l with
  | poll | dequeue | other => cases hstep
  | route _ verdict =>
    obtain ⟨-, heq⟩ := Option.ite_none_right_eq_some.mp hstep
    cases heq
    exact untouched_goto _
  | act _ =>
    rw [taskStep] at hstep
    split at hstep <;> cases hstep
    case h_1 | h_2 => exact untouched_drop hk' ha
    case h_3 | h_4 | h_9 => exact untouched_goto _
    case h_5 | h_6 | h_7 | h_12 => exact untouched_swap hk' ha
    case h_8 | h_10 =>
      have := setTask_self.symm.trans hk'
      cases this
      exact absurd ha act_ne_none
    case h_11 hphase =>
      rw [write_tasks, State.goto, setTask_self] at hk'
      cases hk'
      exact absurd ha (h.owned k t hk (by rw [hphase]; trivial))
  | refused _ =>
    rw [taskStep] at hstep
    split at hstep <;> cases hstep
    · exact untouched_goto _
    · exact untouched_swap hk' ha
  | sent _ =>
    rw [taskStep] at hstep
    split at hstep <;> cases hstep
    exact untouched_goto _
  | adminDrop _ =>
    obtain ⟨-, heq⟩ := Option.ite_none_right_eq_some.mp hstep
    cases heq
    exact untouched_drop hk' ha
  | adminPark _ status =>
    obtain ⟨-, heq⟩ := Option.ite_none_right_eq_some.mp hstep
    cases heq
    exact untouched_swap hk' ha
  | adminReport _ _ =>
    obtain ⟨-, heq⟩ := Option.ite_none_right_eq_some.mp hstep
    cases heq
    exact untouched_goto _
  | notReady _ source timestamp =>
    rw [taskStep] at hstep
    split at hstep <;> cases hstep
    exact untouched_swap hk' ha
  | reassembled _ =>
    rw [taskStep] at hstep
    split at hstep <;> cases hstep
    rw [write_tasks, setTask_self] at hk'
    cases hk'
    exact absurd ha act_ne_none
  | watch _ =>
    obtain ⟨-, heq⟩ := Option.ite_none_right_eq_some.mp hstep
    cases heq
    exact untouched_goto _
  | redispatch _ =>
    obtain ⟨-, heq⟩ := Option.ite_none_right_eq_some.mp hstep
    cases heq
    exact untouched_swap hk' ha

structure OneActs (s : State) : Prop where
  /-- In one stay of the record one task at most acts on it. -/
  inStay : ∀ k k' t t' n, s.tasks k = some t → s.tasks k' = some t' → t.acted = some n →
    t'.acted = some n → k = k'
  /-- Of the copies of one stay one at most comes to anything, unless the record
  has come back to their status while they were in use. -/
  ofStay : ¬s.revisited → ∀ k k' t t', s.tasks k = some t → s.tasks k' = some t' →
    t.acted ≠ none → t'.acted ≠ none → t.stay = t'.stay → k = k'
  /-- A task that does not act leaves everything alone. -/
  others : ∀ l k s' t', l.task = some k → step s l = some s' → s'.tasks k = some t' →
    t'.acted = none → Untouched s s'

/-- In every run without a step that acts unclaimed, one task at most acts. -/
theorem one_acts (h : (machine.only fun s l => ¬Unclaimed s l).Reachable s) : OneActs s := by
  have hinv := inv_reachable h
  refine ⟨hinv.one, fun hr k k' t t' hk hk' ha ha' hstay => ?_, fun l k s' t' hl hstep hk' ha => ?_⟩
  · obtain ⟨n, hn⟩ := Option.ne_none_iff_exists'.mp ha
    obtain ⟨n', hn'⟩ := Option.ne_none_iff_exists'.mp ha'
    have heq : n = n' := by
      rw [← hinv.own hr k t n hk hn, hstay, hinv.own hr k' t' n' hk' hn']
    exact hinv.one k k' t t' n hk hk' hn (heq ▸ hn')
  · obtain ⟨t, hk, hstep⟩ := step_of_task hl hstep
    exact untouched_taskStep hinv hk hstep hk' ha

def waitingRecord : State where
  status := some .waiting
  stay := 0
  data := true
  notified := []
  tasks _ := none
  revisited := False

theorem waitingRecord_start : Start waitingRecord := ⟨fun _ => rfl, id⟩

theorem reachable_next (h : (machine.only fun s l => ¬Unclaimed s l).Reachable s) (l : Label)
    (hclaims : ¬Unclaimed s l) (hstep : step s l = some s') :
    (machine.only fun s l => ¬Unclaimed s l).Reachable s' :=
  h.step l ⟨hclaims, hstep⟩

/-- Two polls, two lookups of the same route, one assignment. -/
theorem one_acts_twoPolls : ∃ s, (machine.only fun s l => ¬Unclaimed s l).Reachable s ∧
    s.status = some (.forwardPending 7 0 .null) ∧ OneActs s := by
  have h₀ : (machine.only fun s l => ¬Unclaimed s l).Reachable waitingRecord :=
    .start waitingRecord_start
  have h₁ := reachable_next h₀ (.poll 0) id rfl
  have h₂ := reachable_next h₁ (.poll 1) id rfl
  have h₃ := reachable_next h₂ (.route 0 (.forward 7 0 .null)) id rfl
  have h₄ := reachable_next h₃ (.route 1 (.forward 7 0 .null)) id rfl
  have h₅ := reachable_next h₄ (.act 1) (by rintro ⟨t, ht, hp⟩; cases ht; cases hp) rfl
  have h₆ := reachable_next h₅ (.act 0) (by rintro ⟨t, ht, hp⟩; cases ht; cases hp) rfl
  exact ⟨_, h₆, rfl, one_acts h₆⟩

/-- Two polls take a copy each of a status report that waited for a key. -/
def twoReports : List Label :=
  [.poll 0, .poll 1, .route 0 .admin, .route 1 .admin, .act 0, .act 1, .adminReport 0 1,
    .adminReport 1 1, .act 0, .act 1]

/-- Both notify the service. -/
theorem twoReports_both_act : ∃ s, machine.Reachable s ∧ ¬s.revisited ∧ s.notified = [0, 1] ∧
    ¬OneActs s := by
  obtain ⟨s, hs⟩ : ∃ s, Machine.runSteps step waitingRecord twoReports = some s := ⟨_, rfl⟩
  have hreach : machine.Reachable s :=
    Machine.reachable_runSteps (.start waitingRecord_start) hs
  cases hs
  refine ⟨_, hreach, id, rfl, fun h => ?_⟩
  exact absurd (h.inStay 0 1 _ _ 0 rfl rfl rfl rfl) Nat.zero_ne_one

end Hardy.Bpa.Activation
