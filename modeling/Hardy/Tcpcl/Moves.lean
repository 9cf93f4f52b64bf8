import Hardy.Tcpcl.Connection

/-!
# The steps of sessions and forwards

Two races can keep a peer. A forward may give a connection back after the session has
been taken out of the pool, where nothing removes it any more; and a session may join a
pool after it has been found empty, and is dropped with it from the registry. What the
other steps change, one constructor for each way a step goes.
-/

namespace Hardy.Tcpcl.Connection

variable {A S N F : Type}

def Phase.member : Phase → Option Nat
  | joined p | adding p | refused p | running p | closed p | leaving p => some p
  | _ => none

def Phase.withdrawing : Phase → Option Nat
  | emptied p | reported p => some p
  | _ => none

def ConnectionPool.Lists (pool : ConnectionPool S N) (c : S) : Prop :=
  c ∈ pool.active ∨ c ∈ pool.idle

namespace State

def Open (s : State S N F) (p : Nat) : Prop :=
  s.registry = some p ∧ ∀ d, (s.sessions d).withdrawing ≠ some p

def Holds (s : State S N F) (f : F) (c : S) : Prop :=
  ∃ v, s.forwards f = some v ∧ v.stage.conn = some c

/-- No other session has the address, nor has a connection that a forward still uses. -/
def Unused (s : State S N F) (cfg : Setup A S N F) (c : S) : Prop :=
  (∀ d, (s.sessions d).present → cfg.localAddr d ≠ cfg.localAddr c) ∧
    ∀ f d, s.Holds f d → cfg.localAddr d ≠ cfg.localAddr c

/-- A connection that a forward gives back finds no room, or its session is yet to be
taken out of a pool that is open; and a session that registers joins no pool that has
been found empty, from an address that is not in use. -/
def Fit [DecidableEq A] (cfg : Setup A S N F) (s : State S N F) : Label S F → Prop
  | .session c => s.sessions c = .absent →
      (∀ p, s.registry = some p → s.Open p) ∧ s.Unused cfg c
  | .forward f => ∀ v c, s.forwards f = some v → v.stage = .answered c →
      ((s.pools v.pool).removeActive cfg.localAddr (cfg.localAddr c)).Room cfg.maxIdle →
        s.Open v.pool ∧ (s.sessions c).member = some v.pool
  | _ => True

end State

/-! ## What a step changes -/

/-- The session of the connection has once been running. -/
def Stage.settled : Stage S → Bool
  | answered _ | failed _ | queueFailed _ => true
  | _ => false

inductive Advance (p : Nat) : Phase → Phase → Prop where
  | add : Advance p (.joined p) (.adding p)
  | skip : Advance p (.joined p) (.running p)
  | refuse : Advance p (.adding p) (.refused p)
  | drop : Advance p (.refused p) (.running p)
  | close : Advance p (.running p) (.closed p)

namespace State

open Function (update)

inductive Move [DecidableEq A] [DecidableEq S] [DecidableEq F] (cfg : Setup A S N F)
    (s : State S N F) : State S N F → Prop where
  | join {c : S} {p : Nat} : s.sessions c = .absent → s.Open p → s.Unused cfg c →
      Move cfg s ((s.setPool p ((s.pools p).add c)).setSession c (.joined p))
  | create {c : S} : s.sessions c = .absent → s.registry = none → s.Unused cfg c →
      Move cfg s { (s.setPool s.next (.new c)).setSession c (.joined s.next) with
        registry := some s.next
        next := s.next + 1 }
  | advance {c : S} {p : Nat} {ph ph' : Phase} {peers : Finset N} : s.sessions c = ph →
      Advance p ph ph' →
      Move cfg s ((s.setPool p { s.pools p with peers }).setSession c ph')
  | enlist {c : S} {p : Nat} : s.sessions c = .adding p →
      Move cfg s { s.setSession c (.running p) with reports := s.reports ++ [.added] }
  | find {c : S} {p q : Nat} : s.sessions c = .closed p → s.registry = some q →
      Move cfg s (s.setSession c (.leaving q))
  | miss {c : S} {p : Nat} : s.sessions c = .closed p → s.registry = none →
      Move cfg s (s.setSession c .gone)
  | remove {c : S} {p : Nat} : s.sessions c = .leaving p →
      Move cfg s (s.remove cfg.localAddr c p)
  | report {c : S} {p : Nat} : s.sessions c = .emptied p →
      Move cfg s { s.setSession c (.reported p) with reports := s.reports ++ [.removed] }
  | forget {c : S} {p : Nat} : s.sessions c = .reported p → Move cfg s (s.forget c p)
  /-- A forward goes on with its connection, or picks an active one. -/
  | pass {f : F} {w : Option (Forward S)} :
      (∀ v c, w = some v → v.stage.conn = some c →
        (s.Holds f c ∨ ∃ p, (s.pools p).Lists c) ∧
          (v.stage.settled = true → (s.sessions c).registering = false)) →
      Move cfg s (s.setForward f w)
  | pop {f : F} {v : Forward S} {c : S} {pool : ConnectionPool S N} :
      (s.pools v.pool).pop cfg.localAddr = some (c, pool) →
      Move cfg s ((s.setPool v.pool pool).setStage f v (.sending c))
  | giveBack {f : F} {p : Nat} {c : S} : s.Holds f c → s.Open p →
      (s.sessions c).member = some p → (s.sessions c).registering = false →
      Move cfg s ((s.setPool p (((s.pools p).removeActive cfg.localAddr
        (cfg.localAddr c)).add c)).setForward f none)
  | drop {f : F} {p : Nat} {c : S} {w : Option (Forward S)} : s.Holds f c →
      (s.sessions c).registering = false → (∀ v, w = some v → v.stage.conn = none) →
      Move cfg s ((s.setPool p ((s.pools p).removeActive cfg.localAddr
        (cfg.localAddr c))).setForward f w)

/-- The session of a connection that a forward is done with has been running. -/
def Settled (s : State S N F) : Prop :=
  ∀ f v c, s.forwards f = some v → v.stage.conn = some c → v.stage.settled = true →
    (s.sessions c).registering = false

variable {cfg : Setup A S N F} {s s' : State S N F}

theorem setPool_self (p : Nat) : s.setPool p (s.pools p) = s := by
  simp [setPool]

theorem setForward_self [DecidableEq F] (f : F) : s.setForward f (s.forwards f) = s := by
  simp [setForward]

variable {v : Forward S} {c : S}

theorem Holds.of_stage {f : F} (hv : s.forwards f = some v)
    (hc : v.stage.conn = some c) : s.Holds f c := ⟨v, hv, hc⟩

variable [DecidableEq A] [DecidableEq S] [DecidableEq F]

theorem Move.run {p : Nat} {ph ph' : Phase} (hph : s.sessions c = ph)
    (hnext : Advance p ph ph') : Move cfg s (s.setSession c ph') := by
  have hmove : Move cfg s ((s.setPool p { s.pools p with
      peers := (s.pools p).peers }).setSession c ph') := .advance hph hnext
  rwa [setPool_self] at hmove

theorem registerSession_move (hph : s.sessions c = .absent)
    (hopen : ∀ p, s.registry = some p → s.Open p) (hunused : s.Unused cfg c) :
    Move cfg s (s.registerSession c) := by
  unfold registerSession
  split
  · next p hp => exact .join hph (hopen p hp) hunused
  · next hnone => exact .create hph hnone hunused

theorem addPeer_move [DecidableEq N] {p : Nat} (hph : s.sessions c = .joined p) (n : Option N) :
    Move cfg s (s.addPeer c p n) := by
  cases n with
  | none => exact .run hph .skip
  | some n =>
    simp only [addPeer]
    split
    · exact .run hph .skip
    · exact .advance hph .add

theorem dropPeer_move [DecidableEq N] {p : Nat} (hph : s.sessions c = .refused p) (n : Option N) :
    Move cfg s (s.dropPeer c p n) := by
  cases n with
  | none => exact .run hph .drop
  | some n => exact .advance hph .drop

theorem goSession_move [DecidableEq N] (hfit : s.Fit cfg (.session c))
    (h : s.goSession cfg c = some s') : Move cfg s s' := by
  unfold goSession at h
  split at h
  case h_1 hph =>
    cases h
    obtain ⟨hopen, hunused⟩ := hfit hph
    exact registerSession_move hph hopen hunused
  case h_2 p hph =>
    cases h
    exact addPeer_move hph _
  case h_3 => cases h
  case h_4 p hph =>
    cases h
    exact dropPeer_move hph _
  case h_5 p hph =>
    cases h
    exact .run hph .close
  case h_6 p hph =>
    cases h
    split
    · next hq => exact .find hph hq
    · next hnone => exact .miss hph hnone
  case h_7 p hph =>
    cases h
    exact .remove hph
  case h_8 p hph =>
    cases h
    exact .report hph
  case h_9 p hph =>
    cases h
    exact .forget hph
  case h_10 => cases h

theorem answer_move {ok : Bool} (h : s.answer c ok = some s') : Move cfg s s' := by
  unfold answer at h
  split at h
  · next p hph =>
      cases h
      exact .enlist hph
  · next p hph =>
      cases h
      exact .run hph .refuse
  · cases h

theorem Move.release {f : F} {w : Option (Forward S)}
    (hw : ∀ v, w = some v → v.stage.conn = none) : Move cfg s (s.setForward f w) := by
  refine .pass fun v c hv hc => ?_
  rw [hw v hv] at hc
  cases hc

theorem Move.keep {f : F} {stage : Stage S} (hv : s.forwards f = some v)
    (hc : v.stage.conn = some c) (hstage : stage.conn = some c)
    (hset : stage.settled = true → (s.sessions c).registering = false) :
    Move cfg s (s.setStage f v stage) := by
  refine .pass fun v' c' hv' hc' => ?_
  cases hv'
  rw [hstage] at hc'
  cases hc'
  exact ⟨.inl ⟨v, hv, hc⟩, hset⟩

theorem goForward_move {f : F} (hset : s.Settled) (hv : s.forwards f = some v)
    (hfit : s.Fit cfg (.forward f)) (h : s.goForward cfg f v = some s') : Move cfg s s' := by
  obtain ⟨p, retries, stage⟩ := v
  cases stage with
  | popping =>
    simp only [goForward] at h
    split at h
    · next hpop =>
        cases h
        exact .pop (v := ⟨p, retries, .popping⟩) hpop
    · cases h
      exact .release fun v hv => by cases hv; rfl
  | answered c =>
    have hheld : s.Holds f c := .of_stage hv rfl
    have hran := hset f _ c hv rfl rfl
    simp only [goForward, ConnectionPool.giveBack] at h
    cases h
    split
    · next hroom =>
        obtain ⟨hopen, hmember⟩ := hfit _ c hv rfl hroom
        exact .giveBack hheld hopen hmember hran
    · exact .drop hheld hran nofun
  | failed c =>
    cases h
    exact .drop (.of_stage hv rfl) (hset f _ c hv rfl rfl) fun v hv => by cases hv; rfl
  | deciding =>
    simp only [goForward] at h
    split at h
    · cases h
      exact .release nofun
    · cases h
      exact .release fun v hv => by cases hv; rfl
  | choosing =>
    simp only [goForward] at h
    split at h
    · cases h
    · split at h
      · cases h
        exact .release nofun
      · cases h
        exact .release fun v hv => by cases hv; rfl
  | queueFailed c =>
    cases h
    exact .drop (.of_stage hv rfl) (hset f _ c hv rfl rfl) fun v hv => by cases hv; rfl
  | sending | waiting | queueing | queued => cases h

theorem sent_move {f : F} {ok : Bool} (hv : s.forwards f = some v)
    (h : s.sent f v ok = some s') : Move cfg s s' := by
  unfold sent at h
  split at h
  · next c hstage =>
      have hc : v.stage.conn = some c := by rw [hstage]; rfl
      split at h
      · split at h <;> cases h
        exact .keep hv hc rfl nofun
      · split at h <;> cases h
        next hran => exact .keep hv hc rfl fun _ => Bool.eq_false_iff.mpr hran
  · next c hstage =>
      have hc : v.stage.conn = some c := by rw [hstage]; rfl
      split at h
      · split at h <;> cases h
        exact .keep hv hc rfl nofun
      · split at h <;> cases h
        next hran => exact .keep hv hc rfl fun _ => Bool.eq_false_iff.mpr hran
  · cases h

theorem replied_move {f : F} {ok : Bool} (hv : s.forwards f = some v)
    (h : s.replied f v ok = some s') : Move cfg s s' := by
  unfold replied at h
  split at h
  · next c hstage =>
      have hc : v.stage.conn = some c := by rw [hstage]; rfl
      split at h
      · cases h
      · next hran =>
          have hset : (s.sessions c).registering = false := Bool.eq_false_iff.mpr hran
          split at h
          · split at h <;> cases h
            exact .keep hv hc rfl fun _ => hset
          · cases h
            exact .keep hv hc rfl fun _ => hset
  · next c hstage =>
      have hc : v.stage.conn = some c := by rw [hstage]; rfl
      split at h
      · cases h
      · next hran =>
          have hset : (s.sessions c).registering = false := Bool.eq_false_iff.mpr hran
          split at h
          · split at h <;> cases h
            exact .release nofun
          · cases h
            exact .keep hv hc rfl fun _ => hset
  · cases h

theorem choose_move {f : F} (h : s.choose f v c = some s') : Move cfg s s' := by
  unfold choose at h
  split at h
  · next hc =>
      cases h
      refine .pass fun v' c' hv' hc' => ?_
      cases hv'
      cases hc'
      exact ⟨.inr ⟨v.pool, .inl hc.2⟩, nofun⟩
  · cases h

theorem startForward_move (f : F) (hset : s.Settled) : Move cfg s (s.startForward f) := by
  unfold startForward
  split
  · exact .release fun v hv => by cases hv; rfl
  · have hmove : Move cfg s (s.setForward f (s.forwards f)) :=
      .pass fun v c hv hc => ⟨.inl ⟨v, hv, hc⟩, hset f v c hv hc⟩
    rwa [setForward_self] at hmove

theorem step_move [DecidableEq N] {l : Label S F} (hset : s.Settled) (hfit : s.Fit cfg l)
    (h : s.step cfg l = some s') : Move cfg s s' := by
  cases l with
  | session c => exact goSession_move hfit h
  | answer c ok => exact answer_move h
  | forward f =>
    simp only [step] at h
    split at h
    · cases h
      exact startForward_move f hset
    · next v hv => exact goForward_move hset hv hfit h
  | sent f ok =>
    obtain ⟨v, hv, h⟩ := Option.bind_eq_some_iff.mp h
    exact sent_move hv h
  | replied f ok =>
    obtain ⟨v, hv, h⟩ := Option.bind_eq_some_iff.mp h
    exact replied_move hv h
  | choose f c =>
    obtain ⟨v, hv, h⟩ := Option.bind_eq_some_iff.mp h
    exact choose_move h

end State

/-! ## What the lists hold -/

namespace ConnectionPool

variable [DecidableEq A] {pool : ConnectionPool S N} {localAddr : S → A} {addr : A} {c d : S}

theorem lists_new : (ConnectionPool.new (N := N) c).Lists d ↔ d = c := by
  simp [new, Lists]

theorem lists_add : (pool.add c).Lists d ↔ pool.Lists d ∨ d = c := by
  simp [add, Lists, or_assoc]

theorem lists_removeActive (h : (pool.removeActive localAddr addr).Lists d) : pool.Lists d := by
  simp only [removeActive, Lists, List.mem_filter] at h
  exact h.imp And.left id

theorem lists_removeActive_of_ne (h : pool.Lists d) (hne : localAddr d ≠ addr) :
    (pool.removeActive localAddr addr).Lists d := by
  simpa [removeActive, Lists, hne] using h

theorem lists_remove :
    (pool.remove localAddr addr).Lists d ↔ pool.Lists d ∧ localAddr d ≠ addr := by
  simp only [remove]
  split <;> simp [removeActive, Lists, or_and_right]

theorem isEmpty_iff : pool.isEmpty = true ↔ ∀ d, ¬pool.Lists d := by
  simp [isEmpty, Lists, List.eq_nil_iff_forall_not_mem, forall_and]

variable {pool' : ConnectionPool S N}

theorem pop_eq_some (h : pool.pop localAddr = some (c, pool')) :
    ∃ idle, pool.idle = idle ++ [c] ∧ pool' = { pool with
      active := pool.active.filter (localAddr · ≠ localAddr c) ++ [c]
      idle := idle } := by
  obtain ⟨c', hlast, heq⟩ := Option.map_eq_some_iff.mp h
  cases heq
  obtain ⟨idle, hidle⟩ := List.getLast?_eq_some_iff.mp hlast
  exact ⟨idle, hidle, by rw [hidle, List.dropLast_concat]⟩

theorem lists_of_pop (h : pool.pop localAddr = some (c, pool')) : pool.Lists c := by
  obtain ⟨idle, hidle, -⟩ := pop_eq_some h
  exact .inr (by simp [hidle])

theorem lists_pop (h : pool.pop localAddr = some (c, pool'))
    (hd : pool'.Lists d) : pool.Lists d := by
  obtain ⟨idle, hidle, rfl⟩ := pop_eq_some h
  simp only [Lists, hidle, List.mem_append, List.mem_filter, List.mem_singleton] at hd ⊢
  tauto

theorem lists_pop_of_ne (h : pool.pop localAddr = some (c, pool'))
    (hd : pool.Lists d) (hne : localAddr d = localAddr c → d = c) : pool'.Lists d := by
  obtain ⟨idle, hidle, rfl⟩ := pop_eq_some h
  by_cases heq : localAddr d = localAddr c
  · exact .inl (by simp [hne heq])
  · simp only [Lists, hidle, List.mem_append, List.mem_filter, List.mem_singleton,
      decide_eq_true_eq] at hd ⊢
    tauto

end ConnectionPool

end Hardy.Tcpcl.Connection
