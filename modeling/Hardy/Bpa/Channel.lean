import Hardy.Machine
import Hardy.Bpa.Store

/-!
# The hybrid channel

Model of `bpa/src/storage/channel.rs`.  A bundle is sent by moving its stored
status to the status of the channel and offering it to a bounded buffer.  When
the buffer is full the bundle stays behind in the store, and a poller moves it
into the buffer later on, a page of rows at a time.

Senders, the poller, the receiver and the rest of the node run in any
interleaving; a send and a poll are cut wherever they touch what they share.
Bundles are known by their ids.
-/

namespace Hardy.Bpa.Channel

inductive ChannelState where
  | «open»
  | draining
  | congested
  | closing
deriving DecidableEq

inductive Sending where
  /-- `swap_status` was applied. -/
  | swapped (id : Id)
  | loaded (id : Id) (state : ChannelState)
  /-- `try_send` found the buffer full. -/
  | full (id : Id)
  | notifying (id : Id)
deriving DecidableEq

def Sending.id : Sending → Id
  | swapped id | loaded id _ | full id | notifying id => id

/-- The rows of a poll that are still to be checked, whether there may be more
in the store, and whether a row has been pushed. -/
structure Page where
  rows : List Id
  full : Bool
  pushed : Bool
deriving DecidableEq

inductive Poller where
  /-- At `notified` -/
  | waiting
  | loading
  | opening (current : ChannelState)
  /-- `poll_once` -/
  | polling
  | checking (page : Page)
  | pushing (id : Id) (page : Page)
  /-- The drain is complete. -/
  | reopening
  | releasing
  | exited
deriving DecidableEq

structure State where
  /-- The stored status is that of the channel. -/
  queued : Id → Bool
  expired : Id → Bool
  /-- Delivered since the status was last moved to that of the channel. -/
  delivered : Id → Bool
  buffer : List Id
  channel : ChannelState
  /-- A notification is pending. -/
  permit : Bool
  poller : Poller
  senders : Nat → Option Sending

inductive Label where
  | swap (k : Nat) (id : Id)
  | load (k : Nat)
  | offer (k : Nat)
  | cas (k : Nat)
  | notify (k : Nat)
  | recv
  /-- The receiver claims a bundle, or a sweep, the reaper or anybody else
  moves it on. -/
  | leave (id : Id)
  | expire (id : Id)
  | close
  | wake
  | pollLoad
  | pollCas
  | poll
  | check
  | push
  | endPoll
  | reopen
  | release
deriving DecidableEq

def State.setSender (s : State) (k : Nat) (sending : Option Sending) : State :=
  { s with senders := Function.update s.senders k sending }

variable (cap : Nat)

/-- `Sender::send_to` from one access of what is shared to the next. -/
def sendStep (s : State) (k : Nat) (sending : Sending) : Label → Option State
  | .load _ =>
    match sending with
    | .swapped id => some (s.setSender k (some (.loaded id s.channel)))
    | _ => none
  | .offer _ =>
    match sending with
    | .loaded id .open =>
      if s.channel = .closing then some (s.setSender k (some (.notifying id)))
      else if s.buffer.length < cap then
        some { s.setSender k none with buffer := s.buffer ++ [id] }
      else some (s.setSender k (some (.full id)))
    | .loaded id .congested => some (s.setSender k (some (.notifying id)))
    | .loaded _ .closing => some (s.setSender k none)
    | _ => none
  | .cas _ =>
    match sending with
    | .full id =>
      some { s.setSender k (some (.notifying id)) with
        channel := if s.channel = .open then .draining else s.channel }
    | .loaded id .draining =>
      some { s.setSender k (some (.notifying id)) with
        channel := if s.channel = .draining then .congested else s.channel }
    | _ => none
  | .notify _ =>
    match sending with
    | .notifying _ => some { s.setSender k none with permit := true }
    | _ => none
  | _ => none

def shouldReopen (buffered : Nat) : Bool := buffered ≤ cap / 2

/-- `poll_queue` and `poll_once`, apart from `poll_pending`. -/
def pollerStep (s : State) : Label → Option State
  | .wake =>
    if s.poller = .waiting ∧ s.permit then some { s with permit := false, poller := .loading }
    else none
  | .pollLoad =>
    if s.poller = .loading then
      some { s with poller := if s.channel = .closing then .exited else .opening s.channel }
    else none
  | .pollCas =>
    match s.poller with
    | .opening current =>
      if s.channel = current then some { s with channel := .draining, poller := .polling }
      else some { s with poller := if s.channel = .closing then .exited else .opening s.channel }
    | _ => none
  | .check =>
    match s.poller with
    | .checking ⟨id :: rows, full, pushed⟩ =>
      if s.expired id then some { s with poller := .checking ⟨rows, full, pushed⟩ }
      else some { s with poller := .pushing id ⟨rows, full, pushed⟩ }
    | _ => none
  | .push =>
    match s.poller with
    | .pushing id page =>
      if s.channel = .closing then some { s with poller := .exited }
      else if s.buffer.length < cap then
        some { s with buffer := s.buffer ++ [id], poller := .checking { page with pushed := true } }
      else none
    | _ => none
  | .endPoll =>
    match s.poller with
    | .checking ⟨[], _, pushed⟩ =>
      some { s with poller := if pushed then .polling else .reopening }
    | _ => none
  | .reopen =>
    if s.poller = .reopening then
      some { s with poller := if shouldReopen cap s.buffer.length then .releasing else .waiting }
    else none
  | .release =>
    if s.poller = .releasing then
      if s.channel = .draining then some { s with channel := .open, poller := .waiting }
      else some { s with poller := .loading }
    else none
  | _ => none

def next (s : State) : Label → Option State
  | .swap k id =>
    if (s.senders k).isNone then
      some { s.setSender k (some (.swapped id)) with
        queued := Function.update s.queued id true
        delivered := Function.update s.delivered id (s.queued id && s.delivered id) }
    else none
  | .load k => (s.senders k).bind fun sending => sendStep cap s k sending (.load k)
  | .offer k => (s.senders k).bind fun sending => sendStep cap s k sending (.offer k)
  | .cas k => (s.senders k).bind fun sending => sendStep cap s k sending (.cas k)
  | .notify k => (s.senders k).bind fun sending => sendStep cap s k sending (.notify k)
  | .recv =>
    match s.buffer with
    | id :: buffer => some { s with buffer, delivered := Function.update s.delivered id true }
    | [] => none
  | .leave id => some { s with queued := Function.update s.queued id false }
  | .expire id => some { s with expired := Function.update s.expired id true }
  | .close => some { s with channel := .closing, permit := true }
  | label => pollerStep cap s label

variable (receivedAt : Id → Int)

/-- `MetadataStorage::poll_pending` for a page of `cap` rows. -/
structure PollPending (s : State) (rows : List Id) : Prop where
  nodup : rows.Nodup
  queued : ∀ id ∈ rows, s.queued id = true
  limit : rows.length ≤ cap
  complete : rows.length < cap → ∀ id, s.queued id = true → id ∈ rows
  oldest : ∀ id ∈ rows, ∀ j, s.queued j = true → j ∉ rows → receivedAt id ≤ receivedAt j
  ordered : rows.Pairwise fun a b => receivedAt a ≤ receivedAt b

inductive Step : State → Label → State → Prop where
  | next {s s' : State} {label : Label} : next cap s label = some s' → Step s label s'
  | poll {s : State} {rows : List Id} : s.poller = .polling → PollPending cap receivedAt s rows →
      Step s .poll { s with poller := .checking ⟨rows, rows.length = cap, false⟩ }

structure Start (s : State) : Prop where
  delivered : ∀ id, s.delivered id = false
  buffer : s.buffer = []
  channel : s.channel = .open
  permit : s.permit = true
  poller : s.poller = .waiting
  senders : ∀ k, s.senders k = none

def machine : Machine State Label := ⟨Start, Step cap receivedAt⟩

/-! ## Bundles that are left in the store -/

/-- The bundle has been delivered, is in the buffer, or is being sent. -/
def Covered (s : State) (id : Id) : Prop :=
  s.delivered id = true ∨ id ∈ s.buffer ∨ ∃ k sending, s.senders k = some sending ∧ sending.id = id

structure Spilled (s : State) (id : Id) : Prop where
  queued : s.queued id = true
  unexpired : s.expired id = false
  uncovered : ¬Covered s id

/-- The poller is going to poll again, or it has the row of the bundle.  A full
page leaves it open what comes next. -/
def Poller.Finds (id : Id) : Poller → Prop
  | .loading | .opening _ | .polling | .pushing _ _ => True
  | .checking page => id ∈ page.rows ∨ page.pushed = true ∨ page.full = true
  | _ => False

/-- A poll that finds nothing but expired rows on a full page leaves no bundle
behind. -/
def Exhaustive (s : State) : Label → Prop
  | .endPoll => s.poller = .checking ⟨[], true, false⟩ → s.permit = false → ∀ id, ¬Spilled s id
  | _ => True

structure Inv (s : State) : Prop where
  found : ∀ id, Spilled s id → s.permit = true ∨ s.poller.Finds id
  sending : ∀ k id, s.senders k ≠ some (.loaded id .closing)

variable {cap receivedAt} {s s' : State} {label : Label} {k : Nat} {sending : Sending} {id : Id}

theorem Start.inv (h : Start s) : Inv s := by
  refine ⟨fun id _ => .inl h.permit, fun k id => ?_⟩
  rw [h.senders k]
  nofun

theorem Inv.mono (h : Inv s) (hspilled : ∀ id, Spilled s' id → Spilled s id)
    (hfinds : ∀ id, Spilled s' id → s.permit = true ∨ s.poller.Finds id →
      s'.permit = true ∨ s'.poller.Finds id)
    (hsending : ∀ k id, s'.senders k ≠ some (.loaded id .closing)) : Inv s' :=
  ⟨fun id hid => hfinds id hid (h.found id (hspilled id hid)), hsending⟩

theorem Inv.ofPoller (h : Inv s) {poller : Poller} {channel : ChannelState} {permit : Bool}
    (hfinds : ∀ id, Spilled s id → s.permit = true ∨ s.poller.Finds id →
      permit = true ∨ poller.Finds id) : Inv { s with channel, permit, poller } :=
  h.mono (fun _ hid => ⟨hid.queued, hid.unexpired, hid.uncovered⟩)
    (fun id hid => hfinds id ⟨hid.queued, hid.unexpired, hid.uncovered⟩) h.sending

theorem Covered.setSender (hc : Covered s id) (hk : s.senders k = some sending)
    (hdelivered : s'.delivered = s.delivered) (hbuffer : s.buffer ⊆ s'.buffer)
    {after : Option Sending} (hsenders : s'.senders = Function.update s.senders k after)
    (hself : sending.id = id → Covered s' id) : Covered s' id := by
  rcases hc with hd | hb | ⟨j, x, hj, rfl⟩
  · rw [← hdelivered] at hd
    exact .inl hd
  · exact .inr (.inl (hbuffer hb))
  · by_cases hjk : j = k
    · subst hjk
      cases hk.symm.trans hj
      exact hself rfl
    · refine .inr (.inr ⟨j, x, ?_, rfl⟩)
      rw [hsenders, Function.update_of_ne hjk]
      exact hj

theorem Inv.ofSender (h : Inv s) (hk : s.senders k = some sending) {after : Option Sending}
    {buffer : List Id} {channel : ChannelState} {permit : Bool} (hbuffer : s.buffer ⊆ buffer)
    (hpermit : s.permit = true → permit = true)
    (hself : (∃ x, after = some x ∧ x.id = sending.id) ∨ sending.id ∈ buffer ∨ permit = true)
    (hafter : ∀ id, after ≠ some (.loaded id .closing)) :
    Inv { s.setSender k after with buffer, channel, permit } := by
  refine ⟨fun id hid => ?_, fun j id hj => ?_⟩
  · by_cases hp : permit = true
    · exact .inl hp
    · have hspilled : Spilled s id := by
        refine ⟨hid.queued, hid.unexpired, fun hc => hid.uncovered ?_⟩
        refine hc.setSender hk rfl hbuffer rfl ?_
        rintro rfl
        rcases hself with ⟨x, rfl, hx⟩ | hb | hp'
        · exact .inr (.inr ⟨k, x, Function.update_self .., hx⟩)
        · exact .inr (.inl hb)
        · exact absurd hp' hp
      rcases h.found id hspilled with hp' | hf
      · exact absurd (hpermit hp') hp
      · exact .inr hf
  · by_cases hjk : j = k
    · subst hjk
      rw [State.setSender] at hj
      dsimp only at hj
      rw [Function.update_self] at hj
      exact hafter id hj
    · rw [State.setSender] at hj
      dsimp only at hj
      rw [Function.update_of_ne hjk] at hj
      exact h.sending j id hj

theorem Inv.sendStep (h : Inv s) (hopen : s.channel ≠ .closing) (hk : s.senders k = some sending)
    (hs : sendStep cap s k sending label = some s') : Inv s' := by
  unfold Channel.sendStep at hs
  split at hs
  · split at hs
    · next id =>
        cases hs
        refine h.ofSender hk (List.Subset.refl _) (fun h => h) (.inl ⟨_, rfl, rfl⟩) ?_
        intro id' he
        exact hopen (Sending.loaded.inj (Option.some.inj he)).2
    · cases hs
  · split at hs
    · next id =>
        split at hs
        · contradiction
        · split at hs
          · cases hs
            refine h.ofSender hk (List.subset_append_left _ _) (fun h => h) (.inr (.inl ?_)) nofun
            exact List.mem_append_right _ (List.mem_singleton_self _)
          · cases hs
            exact h.ofSender hk (List.Subset.refl _) (fun h => h) (.inl ⟨_, rfl, rfl⟩) nofun
    · next id =>
        cases hs
        exact h.ofSender hk (List.Subset.refl _) (fun h => h) (.inl ⟨_, rfl, rfl⟩) nofun
    · next id => exact absurd hk (h.sending k id)
    · cases hs
  · split at hs
    · next id =>
        cases hs
        exact h.ofSender hk (List.Subset.refl _) (fun h => h) (.inl ⟨_, rfl, rfl⟩) nofun
    · next id =>
        cases hs
        exact h.ofSender hk (List.Subset.refl _) (fun h => h) (.inl ⟨_, rfl, rfl⟩) nofun
    · cases hs
  · split at hs
    · cases hs
      exact h.ofSender hk (List.Subset.refl _) (fun _ => rfl) (.inr (.inr rfl)) nofun
    · cases hs
  · cases hs

theorem Inv.skip (h : Inv s) {rows : List Id} {full pushed : Bool}
    (hp : s.poller = .checking ⟨id :: rows, full, pushed⟩) (he : s.expired id = true) :
    Inv { s with poller := .checking ⟨rows, full, pushed⟩ } := by
  refine h.ofPoller fun j hj hfound => hfound.imp (fun h => h) fun hf => ?_
  rw [hp] at hf
  rcases hf with hmem | hf
  · rcases List.mem_cons.mp hmem with rfl | hmem
    · rw [hj.unexpired] at he
      cases he
    · exact .inl hmem
  · exact .inr hf

theorem Inv.push (h : Inv s) {page : Page} :
    Inv { s with buffer := s.buffer ++ [id], poller := .checking { page with pushed := true } } := by
  refine h.mono (fun j hj => ⟨hj.queued, hj.unexpired, fun hc => hj.uncovered ?_⟩)
    (fun _ _ _ => .inr (.inr (.inl rfl))) h.sending
  exact hc.imp (fun h => h) (Or.imp (List.mem_append_left _) fun h => h)

theorem Inv.endPoll (h : Inv s) {full : Bool} (hc : Exhaustive s .endPoll)
    (hp : s.poller = .checking ⟨[], full, false⟩) : Inv { s with poller := .reopening } := by
  refine h.ofPoller fun j hj hfound => ?_
  rcases hfound with hpermit | hf
  · exact .inl hpermit
  · rw [hp] at hf
    rcases hf with hf | hf | rfl
    · cases hf
    · cases hf
    · cases hpermit : s.permit with
      | true => exact .inl rfl
      | false => exact absurd hj (hc hp hpermit j)

theorem Inv.pollerStep (h : Inv s) (hopen : s.channel ≠ .closing) (hc : Exhaustive s label)
    (hs : pollerStep cap s label = some s') : Inv s' := by
  unfold Channel.pollerStep at hs
  split at hs
  · split at hs
    · cases hs
      exact h.ofPoller fun _ _ _ => .inr trivial
    · cases hs
  · split at hs
    · cases hs
      exact h.ofPoller fun _ _ _ => .inr trivial
    · cases hs
  · split at hs
    · split at hs
      · cases hs
        exact h.ofPoller fun _ _ _ => .inr trivial
      · cases hs
        exact h.ofPoller fun _ _ _ => .inr trivial
    · cases hs
  · split at hs
    · next id rows full pushed hp =>
        split at hs
        · next he =>
            cases hs
            exact h.skip hp he
        · cases hs
          exact h.ofPoller fun _ _ _ => .inr trivial
    · cases hs
  · split at hs
    · next id page hp =>
        rw [if_neg hopen] at hs
        split at hs
        · cases hs
          exact h.push
        · cases hs
    · cases hs
  · split at hs
    · next full pushed hp =>
        cases hs
        cases pushed with
        | true => exact h.ofPoller fun _ _ _ => .inr trivial
        | false => exact h.endPoll hc hp
    · cases hs
  · split at hs
    · next hp =>
        cases hs
        refine h.ofPoller fun _ _ hfound => .inl (hfound.resolve_right ?_)
        rw [hp]
        exact fun hf => hf
    · cases hs
  · split at hs
    · next hp =>
        split at hs
        · cases hs
          refine h.ofPoller fun _ _ hfound => .inl (hfound.resolve_right ?_)
          rw [hp]
          exact fun hf => hf
        · cases hs
          exact h.ofPoller fun _ _ _ => .inr trivial
    · cases hs
  · cases hs

theorem Inv.swap (h : Inv s) (hk : s.senders k = none) :
    Inv { s.setSender k (some (.swapped id)) with
      queued := Function.update s.queued id true
      delivered := Function.update s.delivered id (s.queued id && s.delivered id) } := by
  refine h.mono (fun j hj => ?_) (fun _ _ hf => hf) fun j id' hj => ?_
  · have hne : j ≠ id := by
      rintro rfl
      exact hj.uncovered (.inr (.inr ⟨k, .swapped j, Function.update_self .., rfl⟩))
    have hqueued := hj.queued
    dsimp only at hqueued
    rw [Function.update_of_ne hne] at hqueued
    refine ⟨hqueued, hj.unexpired, fun hc => hj.uncovered ?_⟩
    rcases hc with hd | hb | ⟨i, x, hi, rfl⟩
    · refine .inl ?_
      dsimp only
      rw [Function.update_of_ne hne]
      exact hd
    · exact .inr (.inl hb)
    · refine .inr (.inr ⟨i, x, ?_, rfl⟩)
      have hik : i ≠ k := by
        rintro rfl
        rw [hk] at hi
        cases hi
      exact (Function.update_of_ne hik _ _).trans hi
  · by_cases hjk : j = k
    · subst hjk
      cases (Function.update_self ..).symm.trans hj
    · exact h.sending j id' ((Function.update_of_ne hjk _ _).symm.trans hj)

theorem Inv.recv (h : Inv s) {buffer : List Id} (hb : s.buffer = id :: buffer) :
    Inv { s with buffer, delivered := Function.update s.delivered id true } := by
  refine h.mono (fun j hj => ⟨hj.queued, hj.unexpired, fun hc => hj.uncovered ?_⟩)
    (fun _ _ hf => hf) h.sending
  by_cases hji : j = id
  · rw [hji]
    exact .inl (Function.update_self ..)
  · rcases hc with hd | hmem | hsend
    · exact .inl ((Function.update_of_ne hji _ _).trans hd)
    · rw [hb] at hmem
      exact .inr (.inl ((List.mem_cons.mp hmem).resolve_left hji))
    · exact .inr (.inr hsend)

theorem Inv.leave (h : Inv s) : Inv { s with queued := Function.update s.queued id false } := by
  refine h.mono (fun j hj => ?_) (fun _ _ hf => hf) h.sending
  have hqueued := hj.queued
  dsimp only at hqueued
  have hne : j ≠ id := by
    rintro rfl
    rw [Function.update_self] at hqueued
    cases hqueued
  rw [Function.update_of_ne hne] at hqueued
  exact ⟨hqueued, hj.unexpired, hj.uncovered⟩

theorem Inv.expire (h : Inv s) : Inv { s with expired := Function.update s.expired id true } := by
  refine h.mono (fun j hj => ?_) (fun _ _ hf => hf) h.sending
  have hunexpired := hj.unexpired
  dsimp only at hunexpired
  have hne : j ≠ id := by
    rintro rfl
    rw [Function.update_self] at hunexpired
    cases hunexpired
  rw [Function.update_of_ne hne] at hunexpired
  exact ⟨hj.queued, hunexpired, hj.uncovered⟩

theorem Inv.poll (h : Inv s) {rows : List Id} (hrows : PollPending cap receivedAt s rows) :
    Inv { s with poller := .checking ⟨rows, rows.length = cap, false⟩ } := by
  refine h.ofPoller fun id hid _ => .inr ?_
  by_cases hfull : rows.length = cap
  · exact .inr (.inr (decide_eq_true hfull))
  · exact .inl (hrows.complete (lt_of_le_of_ne hrows.limit hfull) id hid.queued)

theorem next_cases (hn : next cap s label = some s') :
    (∃ k sending, s.senders k = some sending ∧ sendStep cap s k sending label = some s') ∨
    pollerStep cap s label = some s' ∨
    (∃ k id, s.senders k = none ∧ s' = { s.setSender k (some (.swapped id)) with
      queued := Function.update s.queued id true
      delivered := Function.update s.delivered id (s.queued id && s.delivered id) }) ∨
    (∃ id buffer, s.buffer = id :: buffer ∧
      s' = { s with buffer, delivered := Function.update s.delivered id true }) ∨
    (∃ id, s' = { s with queued := Function.update s.queued id false }) ∨
    (∃ id, s' = { s with expired := Function.update s.expired id true }) ∨
    s' = { s with channel := .closing, permit := true } := by
  cases label with
  | swap k id =>
    simp only [next] at hn
    split at hn
    · next hk =>
        cases hn
        exact .inr (.inr (.inl ⟨k, id, Option.isNone_iff_eq_none.mp hk, rfl⟩))
    · cases hn
  | load k => exact .inl ⟨k, Option.bind_eq_some_iff.mp hn⟩
  | offer k => exact .inl ⟨k, Option.bind_eq_some_iff.mp hn⟩
  | cas k => exact .inl ⟨k, Option.bind_eq_some_iff.mp hn⟩
  | notify k => exact .inl ⟨k, Option.bind_eq_some_iff.mp hn⟩
  | recv =>
    simp only [next] at hn
    split at hn
    · next id buffer hb =>
        cases hn
        exact .inr (.inr (.inr (.inl ⟨id, buffer, hb, rfl⟩)))
    · cases hn
  | leave id =>
    cases hn
    exact .inr (.inr (.inr (.inr (.inl ⟨id, rfl⟩))))
  | expire id =>
    cases hn
    exact .inr (.inr (.inr (.inr (.inr (.inl ⟨id, rfl⟩)))))
  | close =>
    cases hn
    exact .inr (.inr (.inr (.inr (.inr (.inr rfl)))))
  | _ => exact .inr (.inl hn)

theorem Inv.step (h : Inv s) (hopen : s.channel ≠ .closing) (hc : Exhaustive s label)
    (hstep : Step cap receivedAt s label s') : Inv s' ∨ s'.channel = .closing := by
  cases hstep with
  | next hn =>
    rcases next_cases hn with ⟨k, sending, hk, hs⟩ | hs | ⟨k, id, hk, rfl⟩ | ⟨id, buffer, hb, rfl⟩ |
      ⟨id, rfl⟩ | ⟨id, rfl⟩ | rfl
    · exact .inl (h.sendStep hopen hk hs)
    · exact .inl (h.pollerStep hopen hc hs)
    · exact .inl (h.swap hk)
    · exact .inl (h.recv hb)
    · exact .inl h.leave
    · exact .inl h.expire
    · exact .inr rfl
  | poll _ hrows => exact .inl (h.poll hrows)

/-! ## Closing -/

theorem sendStep_frame (hs : sendStep cap s k sending label = some s') :
    s'.poller = s.poller ∧ (s.channel = .closing → s'.channel = .closing) := by
  unfold sendStep at hs
  simp only [State.setSender] at hs
  grind

theorem pollerStep_frame (hp : s.poller ≠ .opening .closing)
    (hs : pollerStep cap s label = some s') :
    s'.poller ≠ .opening .closing ∧ (s.channel = .closing → s'.channel = .closing) := by
  unfold pollerStep at hs
  grind

theorem closing_step (hp : s.poller ≠ .opening .closing)
    (hstep : Step cap receivedAt s label s') :
    s'.poller ≠ .opening .closing ∧ (s.channel = .closing → s'.channel = .closing) := by
  cases hstep with
  | next hn =>
    rcases next_cases hn with ⟨k, sending, -, hs⟩ | hs | ⟨k, id, -, rfl⟩ | ⟨id, buffer, -, rfl⟩ |
      ⟨id, rfl⟩ | ⟨id, rfl⟩ | rfl
    · obtain ⟨hpoller, hclosing⟩ := sendStep_frame hs
      exact ⟨hpoller ▸ hp, hclosing⟩
    · exact pollerStep_frame hp hs
    · exact ⟨hp, fun h => h⟩
    · exact ⟨hp, fun h => h⟩
    · exact ⟨hp, fun h => h⟩
    · exact ⟨hp, fun h => h⟩
    · exact ⟨hp, fun _ => rfl⟩
  | poll _ _ => exact ⟨nofun, fun h => h⟩

theorem reachable_inv
    (hs : ((machine cap receivedAt).only Exhaustive).Reachable s) :
    s.poller ≠ .opening .closing ∧ (s.channel = .closing ∨ Inv s) := by
  refine hs.invariant
    (I := fun s => s.poller ≠ .opening .closing ∧ (s.channel = .closing ∨ Inv s)) ?_ ?_
  · intro s (hs : Start s)
    refine ⟨?_, .inr hs.inv⟩
    rw [hs.poller]
    nofun
  · rintro s label s' ⟨hp, h⟩ ⟨hc, hstep⟩
    obtain ⟨hp', hclosing⟩ := closing_step hp hstep
    refine ⟨hp', ?_⟩
    by_cases hopen : s.channel = .closing
    · exact .inl (hclosing hopen)
    · exact ((h.resolve_left hopen).step hopen hc hstep).symm

def State.Idle (s : State) : Prop := s.poller = .waiting ∧ s.permit = false

variable (cap receivedAt)

/-- While the poller is idle and the channel is open no bundle is left in the
store, in every run in which no poll gives up on a full page that way. -/
theorem nothing_spilled (hs : ((machine cap receivedAt).only Exhaustive).Reachable s)
    (hidle : s.Idle) (hopen : s.channel = .open) (id : Id) (hqueued : s.queued id = true)
    (hunexpired : s.expired id = false) :
    s.delivered id = true ∨ id ∈ s.buffer ∨
      ∃ k sending, s.senders k = some sending ∧ sending.id = id := by
  by_contra hno
  rcases (reachable_inv hs).2 with hclosing | h
  · rw [hopen] at hclosing
    cases hclosing
  · rcases h.found id ⟨hqueued, hunexpired, hno⟩ with hpermit | hf
    · rw [hidle.2] at hpermit
      cases hpermit
    · rw [hidle.1] at hf
      exact hf

/-! ## A channel for one bundle -/

def sampleStart : State where
  queued _ := false
  expired _ := false
  delivered _ := false
  buffer := []
  channel := .open
  permit := true
  poller := .waiting
  senders _ := none

def sampleId (n : Nat) : Id := (Bundle.plain n .new).id

/-- The first bundle takes the room in the buffer, the second is left in the
store, and the first expires when it has been delivered.  The poller is about
to poll. -/
def beforePoll : Option State :=
  Machine.runSteps (next 1) sampleStart
    [.swap 0 (sampleId 0), .load 0, .offer 0, .swap 1 (sampleId 1), .load 1, .offer 1, .cas 1,
      .notify 1, .recv, .expire (sampleId 0), .wake, .pollLoad, .pollCas]

/-- The page holds the first bundle only. -/
def afterPoll : Option State :=
  beforePoll.bind fun s =>
    Machine.runSteps (next 1)
      { s with poller := .checking ⟨[sampleId 0], [sampleId 0].length = 1, false⟩ }
      [.check, .endPoll, .reopen, .release]

def sampleMachine : Machine State Label := machine 1 fun _ => 0

theorem sample_step (h : next 1 s label = some s') : sampleMachine.step s label s' := Step.next h

theorem afterPoll_reachable (h : afterPoll = some s') : sampleMachine.Reachable s' := by
  obtain ⟨s, hs, hrun⟩ := Option.bind_eq_some_iff.mp h
  have hstart : sampleMachine.Reachable sampleStart :=
    .start ⟨fun _ => rfl, rfl, rfl, rfl, rfl, fun _ => rfl⟩
  have hreach := hstart.runSteps (fun _ _ _ => sample_step) hs
  have hpolling : beforePoll.map State.poller = some .polling := by decide
  have hqueued : beforePoll.map (fun s => s.queued (sampleId 0)) = some true := by decide
  rw [hs] at hpolling hqueued
  have hrows : PollPending 1 (fun _ => 0) s [sampleId 0] := {
    nodup := List.nodup_cons.mpr ⟨List.not_mem_nil, List.nodup_nil⟩
    queued := fun id hid => by
      rw [List.mem_singleton.mp hid]
      exact Option.some.inj hqueued
    limit := le_rfl
    complete := fun h => absurd h (lt_irrefl 1)
    oldest := fun _ _ _ _ _ => le_rfl
    ordered := List.pairwise_singleton _ _ }
  have hstep : sampleMachine.step s .poll _ := Step.poll (Option.some.inj hpolling) hrows
  have hpolled := hreach.step .poll hstep
  exact hpolled.runSteps (fun _ _ _ => sample_step) hrun

theorem afterPoll_some : ∃ s, afterPoll = some s ∧ ∀ k, s.senders k = none := by
  refine ⟨_, rfl, fun k => ?_⟩
  rcases k with _ | _ | k <;> rfl

/-- The second bundle is left in the store of an open channel whose poller is
idle. -/
theorem afterPoll_spilled :
    ¬ ∀ s, sampleMachine.Reachable s → s.Idle → s.channel = .open →
      ∀ id, s.queued id = true → s.expired id = false →
        s.delivered id = true ∨ id ∈ s.buffer ∨
          ∃ k sending, s.senders k = some sending ∧ sending.id = id := by
  intro hall
  obtain ⟨s, hs, hsenders⟩ := afterPoll_some
  have hview : afterPoll.map (fun s => (s.poller, s.permit, s.channel, s.buffer)) =
      some (.waiting, false, .open, []) := by decide
  have hsecond : afterPoll.map (fun s => (s.queued (sampleId 1), s.expired (sampleId 1),
      s.delivered (sampleId 1))) = some (true, false, false) := by decide
  rw [hs] at hview hsecond
  simp only [Option.map_some, Option.some.injEq, Prod.mk.injEq] at hview hsecond
  obtain ⟨hpoller, hpermit, hchannel, hbuffer⟩ := hview
  obtain ⟨hqueued, hunexpired, hundelivered⟩ := hsecond
  rcases hall s (afterPoll_reachable hs) ⟨hpoller, hpermit⟩ hchannel _ hqueued hunexpired with
    hd | hb | ⟨k, sending, hk, -⟩
  · rw [hundelivered] at hd
    cases hd
  · rw [hbuffer] at hb
    cases hb
  · rw [hsenders k] at hk
    cases hk

def quietNext (s : State) (label : Label) : Option State :=
  if label = .endPoll then none else next 1 s label

theorem quietNext_step (h : quietNext s label = some s') :
    (sampleMachine.only Exhaustive).step s label s' := by
  rw [quietNext] at h
  split at h
  · cases h
  · next hne =>
      refine ⟨?_, sample_step h⟩
      cases label <;> trivial

def sent : Option State :=
  (Machine.runSteps quietNext sampleStart [.wake, .pollLoad, .pollCas]).bind fun s =>
    Machine.runSteps quietNext { s with poller := .reopening }
      [.reopen, .release, .swap 0 (sampleId 0), .load 0, .offer 0]

theorem sent_reachable (h : sent = some s') : (sampleMachine.only Exhaustive).Reachable s' := by
  obtain ⟨s, hs, hrun⟩ := Option.bind_eq_some_iff.mp h
  have hstart : (sampleMachine.only Exhaustive).Reachable sampleStart :=
    .start ⟨fun _ => rfl, rfl, rfl, rfl, rfl, fun _ => rfl⟩
  have hreach := hstart.runSteps (fun _ _ _ => quietNext_step) hs
  obtain ⟨s₀, hs₀, hpolling, hqueued⟩ : ∃ s₀,
      Machine.runSteps quietNext sampleStart [.wake, .pollLoad, .pollCas] = some s₀ ∧
        s₀.poller = .polling ∧ ∀ id, s₀.queued id = false := ⟨_, rfl, rfl, fun _ => rfl⟩
  cases hs.symm.trans hs₀
  have hrows : PollPending 1 (fun _ => 0) s [] := {
    nodup := List.nodup_nil
    queued := nofun
    limit := Nat.zero_le 1
    complete := fun _ id hid => by
      rw [hqueued id] at hid
      cases hid
    oldest := nofun
    ordered := .nil }
  have hpoll : (sampleMachine.only Exhaustive).step s .poll _ :=
    ⟨trivial, Step.poll hpolling hrows⟩
  have hend : (sampleMachine.only Exhaustive).step
      { s with poller := .checking ⟨[], ([] : List Id).length = 1, false⟩ } .endPoll
      { s with poller := .reopening } := by
    refine ⟨fun hfull => ?_, Step.next rfl⟩
    simp at hfull
  exact ((hreach.step .poll hpoll).step .endPoll hend).runSteps (fun _ _ _ => quietNext_step) hrun

theorem sent_nothing_spilled :
    ∃ s, (sampleMachine.only Exhaustive).Reachable s ∧ s.Idle ∧ s.channel = .open ∧
      (s.delivered (sampleId 0) = true ∨ sampleId 0 ∈ s.buffer ∨
        ∃ k sending, s.senders k = some sending ∧ sending.id = sampleId 0) := by
  obtain ⟨s, hs⟩ : ∃ s, sent = some s := ⟨_, rfl⟩
  have hview : sent.map (fun s => (s.poller, s.permit, s.channel)) =
      some (.waiting, false, .open) := by decide
  have hfirst : sent.map (fun s => (s.queued (sampleId 0), s.expired (sampleId 0))) =
      some (true, false) := by decide
  rw [hs] at hview hfirst
  simp only [Option.map_some, Option.some.injEq, Prod.mk.injEq] at hview hfirst
  obtain ⟨hpoller, hpermit, hchannel⟩ := hview
  have hreach := sent_reachable hs
  exact ⟨s, hreach, ⟨hpoller, hpermit⟩, hchannel,
    nothing_spilled 1 (fun _ => 0) hreach ⟨hpoller, hpermit⟩ hchannel _ hfirst.1 hfirst.2⟩

end Hardy.Bpa.Channel
