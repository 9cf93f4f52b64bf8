import Hardy.Tcpcl.Moves

/-!
# A peer goes with its last session

Where no step takes part in one of the two races, the lists hold only sessions that are
yet to be taken out, and the pool that the registry has is never one that was found
empty while a session is in it. So the last session takes its pool out of the registry,
and tells the sink after the last `add_peer`.
-/

namespace Hardy.Tcpcl.Connection

variable {A S N F : Type}

namespace State

/-- Every session that has registered has been unregistered, and no forward is
running. -/
def Quiet (s : State S N F) : Prop :=
  (∀ c, s.sessions c = .absent ∨ s.sessions c = .gone) ∧ ∀ f, s.forwards f = none

/-- The sink is told to remove the peer after it has last added it. -/
def Removed (reports : List Report) : Prop :=
  ∀ pre post, reports = pre ++ .added :: post → .removed ∈ post

/-- No list has the connection of a session that is taken out, and the peer is gone
with its last session. -/
structure Withdrawn (s : State S N F) : Prop where
  listed : ∀ p c, (s.pools p).Lists c → (s.sessions c).member = some p
  quiet : s.Quiet → s.registry = none ∧ Removed s.reports

end State

/-! ## What holds in every run -/

/-- The pool in which a session has its connection while it registers. -/
def Phase.joining : Phase → Option Nat
  | joined p | adding p => some p
  | _ => none

/-- The pool that a session has joined and that may still be in the registry. -/
def Phase.Within (ph : Phase) (p : Nat) : Prop := ph.member = some p ∨ ph.withdrawing = some p

variable {ph : Phase} {p : Nat}

theorem Phase.present_of_member (h : ph.member = some p) : ph.present := by
  constructor <;> rintro rfl <;> cases h

theorem Advance.member {ph ph' : Phase} (h : Advance p ph ph') :
    ph.member = some p ∧ ph'.member = some p ∧ ph'.withdrawing = none := by
  cases h <;> exact ⟨rfl, rfl, rfl⟩

theorem Phase.withdrawing_of_member (h : ph.member = some p) : ph.withdrawing = none := by
  cases ph <;> first | rfl | cases h

theorem Phase.present_of_joining (h : ph.joining = some p) : ph.present := by
  constructor <;> rintro rfl <;> cases h

theorem Phase.registering_of_joining (h : ph.joining = some p) : ph.registering = true := by
  cases ph <;> first | rfl | cases h

namespace State

open Function (update)

def Listed (s : State S N F) : Prop :=
  ∀ p c, (s.pools p).Lists c → (s.sessions c).member = some p ∧ s.Open p

def Joining (s : State S N F) : Prop :=
  ∀ p c, (s.sessions c).joining = some p → (s.pools p).Lists c

def Known (s : State S N F) : Prop :=
  ∀ p, s.registry = some p → ∃ d, (s.sessions d).Within p

def Fresh (s : State S N F) : Prop :=
  (∀ p, s.registry = some p → p < s.next) ∧ ∀ d p, (s.sessions d).Within p → p < s.next

def Address (cfg : Setup A S N F) (s : State S N F) : Prop :=
  ∀ c d, (s.sessions c).present → (s.sessions d).present →
    cfg.localAddr c = cfg.localAddr d → c = d

/-- The address of a connection that a forward uses is of no other session. -/
def Holding (cfg : Setup A S N F) (s : State S N F) : Prop :=
  ∀ f c d, s.Holds f c → (s.sessions d).present → cfg.localAddr c = cfg.localAddr d → c = d

/-- The peer is removed after it has been added, or its pool is in the registry and
no session is about to drop it. -/
def Reported (s : State S N F) : Prop :=
  ∀ pre post, s.reports = pre ++ .added :: post → .removed ∈ post ∨
    ∃ p, s.registry = some p ∧ ∀ d, s.sessions d ≠ .reported p

structure Inv (cfg : Setup A S N F) (s : State S N F) : Prop where
  listed : s.Listed
  joining : s.Joining
  known : s.Known
  fresh : s.Fresh
  settled : s.Settled
  address : s.Address cfg
  holding : s.Holding cfg
  reported : s.Reported

variable {cfg : Setup A S N F} {s s' : State S N F}

variable {c : S}

theorem Inv.absent (h : s.Inv cfg) (hph : s.sessions c = .absent) (p : Nat) :
    ¬(s.pools p).Lists c := by
  intro hc
  have hmember := (h.listed p c hc).1
  rw [hph] at hmember
  cases hmember

theorem Inv.lists_none (h : s.Inv cfg) (hnone : s.registry = none) (p : Nat) (d : S) :
    ¬(s.pools p).Lists d := by
  intro hd
  have hp := (h.listed p d hd).2.1
  rw [hnone] at hp
  cases hp

/-! ### A session moves -/

section

variable [DecidableEq S]

/-- The lists lose no session but the one that moves, and gain no other. -/
structure Only (s s' : State S N F) (c : S) (ph : Phase) : Prop where
  sessions : s'.sessions = update s.sessions c ph
  forwards : s'.forwards = s.forwards
  lost : ∀ p d, d ≠ c → (s.pools p).Lists d → (s.sessions d).joining = some p →
    (s'.pools p).Lists d
  gained : ∀ p d, d ≠ c → (s'.pools p).Lists d → (s.pools p).Lists d

theorem Only.sessions_ne {c d : S} (h : s.Only s' c ph) (hne : d ≠ c) :
    s'.sessions d = s.sessions d := by
  rw [h.sessions, Function.update_of_ne hne]

theorem Only.sessions_self (h : s.Only s' c ph) : s'.sessions c = ph := by
  rw [h.sessions, Function.update_self]

theorem Listed.move (h : s.Listed) (honly : s.Only s' c ph)
    (hregistry : ∀ p d, (s'.pools p).Lists d → s'.registry = some p)
    (hself : ∀ p, (s'.pools p).Lists c →
      ph.member = some p ∧ ∀ e, (s.sessions e).withdrawing ≠ some p)
    (hempty : ∀ p d, ph.withdrawing = some p → ¬(s'.pools p).Lists d) : s'.Listed := by
  intro p d hd
  have hsplit : (s'.sessions d).member = some p ∧ ∀ e, (s.sessions e).withdrawing ≠ some p := by
    by_cases hdc : d = c
    · subst hdc
      rw [honly.sessions_self]
      exact hself p hd
    · rw [honly.sessions_ne hdc]
      obtain ⟨hmember, hopen⟩ := h p d (honly.gained p d hdc hd)
      exact ⟨hmember, hopen.2⟩
  refine ⟨hsplit.1, hregistry p d hd, fun e => ?_⟩
  by_cases hec : e = c
  · subst hec
    rw [honly.sessions_self]
    exact fun hph => hempty p d hph hd
  · rw [honly.sessions_ne hec]
    exact hsplit.2 e

theorem Joining.move (h : s.Joining) (honly : s.Only s' c ph)
    (hself : ∀ p, ph.joining = some p → (s'.pools p).Lists c) : s'.Joining := by
  intro p d hd
  by_cases hdc : d = c
  · subst hdc
    rw [honly.sessions_self] at hd
    exact hself p hd
  · rw [honly.sessions_ne hdc] at hd
    exact honly.lost p d hdc (h p d hd) hd

theorem Only.known (honly : s.Only s' c ph)
    (hself : ∀ p, s'.registry = some p → ph.Within p ∨ ∃ d, d ≠ c ∧ (s.sessions d).Within p) :
    s'.Known := by
  intro p hp
  rcases hself p hp with hph | ⟨d, hdc, hd⟩
  · exact ⟨c, by rwa [honly.sessions_self]⟩
  · exact ⟨d, by rwa [honly.sessions_ne hdc]⟩

theorem Settled.move (h : s.Settled) (honly : s.Only s' c ph)
    (hself : (s.sessions c).registering = false → ph.registering = false) : s'.Settled := by
  intro f v d hv hd hset
  rw [honly.forwards] at hv
  have hran := h f v d hv hd hset
  by_cases hdc : d = c
  · subst hdc
    rw [honly.sessions_self]
    exact hself hran
  · rwa [honly.sessions_ne hdc]

theorem Only.present {c d : S} (h : s.Only s' c ph)
    (hself : (s.sessions c).present) (hd : (s'.sessions d).present) : (s.sessions d).present := by
  by_cases hdc : d = c
  · rwa [hdc]
  · rwa [h.sessions_ne hdc] at hd

theorem Address.move (h : s.Address cfg) (honly : s.Only s' c ph)
    (hself : (s.sessions c).present ∨ s.Unused cfg c) : s'.Address cfg := by
  intro d e hd he heq
  rcases hself with hself | hself
  · exact h d e (honly.present hself hd) (honly.present hself he) heq
  · by_cases hdc : d = c
    · by_cases hec : e = c
      · rw [hdc, hec]
      · rw [honly.sessions_ne hec] at he
        subst hdc
        exact absurd heq.symm (hself.1 e he)
    · rw [honly.sessions_ne hdc] at hd
      by_cases hec : e = c
      · subst hec
        exact absurd heq (hself.1 d hd)
      · rw [honly.sessions_ne hec] at he
        exact h d e hd he heq

theorem Holding.move (h : s.Holding cfg) (honly : s.Only s' c ph)
    (hself : (s.sessions c).present ∨ s.Unused cfg c) : s'.Holding cfg := by
  intro f d e hd he heq
  have hheld : s.Holds f d := by
    obtain ⟨v, hv, hc⟩ := hd
    exact ⟨v, honly.forwards ▸ hv, hc⟩
  rcases hself with hself | hself
  · exact h f d e hheld (honly.present hself he) heq
  · by_cases hec : e = c
    · subst hec
      exact absurd heq (hself.2 f d hheld)
    · rw [honly.sessions_ne hec] at he
      exact h f d e hheld he heq

theorem Only.of_pool {pool : ConnectionPool S N}
    (hsessions : s'.sessions = update s.sessions c ph) (hforwards : s'.forwards = s.forwards)
    (hpools : s'.pools = update s.pools p pool)
    (hlost : ∀ d, d ≠ c → (s.pools p).Lists d → (s.sessions d).joining = some p → pool.Lists d)
    (hgained : ∀ d, d ≠ c → pool.Lists d → (s.pools p).Lists d) : s.Only s' c ph where
  sessions := hsessions
  forwards := hforwards
  lost q d hdc hd hjoin := by
    rw [hpools, Function.update_apply]
    split
    · next hq =>
        subst hq
        exact hlost d hdc hd hjoin
    · exact hd
  gained q d hdc hd := by
    rw [hpools, Function.update_apply] at hd
    split at hd
    · next hq =>
        subst hq
        exact hgained d hdc hd
    · exact hd

theorem Only.of_pools (hsessions : s'.sessions = update s.sessions c ph)
    (hforwards : s'.forwards = s.forwards) (hpools : s'.pools = s.pools) : s.Only s' c ph :=
  ⟨hsessions, hforwards, fun _ _ _ hd _ => hpools ▸ hd, fun _ _ _ hd => hpools ▸ hd⟩

theorem Fresh.move (h : s.Fresh) (honly : s.Only s' c ph)
    (hnext : s.next ≤ s'.next) (hregistry : ∀ p, s'.registry = some p → p < s'.next)
    (hself : ∀ p, ph.Within p → p < s'.next) : s'.Fresh := by
  refine ⟨hregistry, fun d p hd => ?_⟩
  by_cases hdc : d = c
  · subst hdc
    rw [honly.sessions_self] at hd
    exact hself p hd
  · rw [honly.sessions_ne hdc] at hd
    exact lt_of_lt_of_le (h.2 d p hd) hnext

theorem Reported.move (h : s.Reported) (honly : s.Only s' c ph) (hreports : s'.reports = s.reports)
    (hregistry : ∀ p, s.registry = some p → (∀ d, s.sessions d ≠ .reported p) →
      s'.registry = some p)
    (hself : ∀ p, ph ≠ .reported p) : s'.Reported := by
  intro pre post heq
  rcases h pre post (hreports ▸ heq) with hremoved | ⟨p, hp, hopen⟩
  · exact .inl hremoved
  · refine .inr ⟨p, hregistry p hp hopen, fun d => ?_⟩
    by_cases hdc : d = c
    · subst hdc
      rw [honly.sessions_self]
      exact hself p
    · rw [honly.sessions_ne hdc]
      exact hopen d

theorem Inv.join (h : s.Inv cfg) (hph : s.sessions c = .absent)
    (hopen : s.Open p) (hunused : s.Unused cfg c) :
    ((s.setPool p ((s.pools p).add c)).setSession c (.joined p)).Inv cfg := by
  have honly : s.Only ((s.setPool p ((s.pools p).add c)).setSession c (.joined p)) c
      (.joined p) :=
    .of_pool rfl rfl rfl (fun _ _ hd _ => ConnectionPool.lists_add.mpr (.inl hd))
      fun _ hdc hd => (ConnectionPool.lists_add.mp hd).resolve_right hdc
  refine ⟨h.listed.move honly ?_ ?_ nofun, h.joining.move honly ?_,
    honly.known ?_, h.fresh.move honly le_rfl h.fresh.1 ?_, h.settled.move honly ?_,
    h.address.move honly (.inr hunused), h.holding.move honly (.inr hunused),
    h.reported.move honly rfl (fun _ hp _ => hp) nofun⟩
  · intro q d hd
    simp only [setSession, setPool, Function.update_apply] at hd
    split at hd
    · next hq =>
        subst hq
        exact hopen.1
    · exact (h.listed q d hd).2.1
  · intro q hc
    simp only [setSession, setPool, Function.update_apply] at hc
    split at hc
    · next hq =>
        subst hq
        exact ⟨rfl, hopen.2⟩
    · exact absurd hc (h.absent hph q)
  · rintro q ⟨⟩
    simp only [setSession, setPool, Function.update_self]
    exact ConnectionPool.lists_add.mpr (.inr rfl)
  · intro q hq
    cases hopen.1.symm.trans hq
    exact .inl (.inl rfl)
  · rintro q (⟨⟨⟩⟩ | ⟨⟨⟩⟩)
    exact h.fresh.1 _ hopen.1
  · rw [hph]
    exact fun hran => by cases hran

theorem Inv.create (h : s.Inv cfg) (hph : s.sessions c = .absent)
    (hnone : s.registry = none) (hunused : s.Unused cfg c) :
    State.Inv cfg { (s.setPool s.next (.new c)).setSession c (.joined s.next) with
      registry := some s.next
      next := s.next + 1 } := by
  have honly : s.Only { (s.setPool s.next (.new c)).setSession c (.joined s.next) with
      registry := some s.next
      next := s.next + 1 } c (.joined s.next) :=
    .of_pool rfl rfl rfl (fun d _ hd _ => absurd hd (h.lists_none hnone _ d))
      fun _ hdc hd => absurd (ConnectionPool.lists_new.mp hd) hdc
  have hnext : ∀ e, (s.sessions e).withdrawing ≠ some s.next :=
    fun e he => absurd (h.fresh.2 e _ (.inr he)) (lt_irrefl _)
  refine ⟨h.listed.move honly ?_ ?_ nofun, h.joining.move honly ?_,
    honly.known ?_, h.fresh.move honly (Nat.le_succ _) ?_ ?_, h.settled.move honly ?_,
    h.address.move honly (.inr hunused), h.holding.move honly (.inr hunused),
    h.reported.move honly rfl ?_ nofun⟩
  · intro q d hd
    simp only [setSession, setPool, Function.update_apply] at hd
    split at hd
    · next hq => rw [hq]
    · exact absurd hd (h.lists_none hnone q d)
  · intro q hc
    simp only [setSession, setPool, Function.update_apply] at hc
    split at hc
    · next hq =>
        subst hq
        exact ⟨rfl, hnext⟩
    · exact absurd hc (h.lists_none hnone q c)
  · rintro q ⟨⟩
    simp only [setSession, setPool, Function.update_self]
    exact ConnectionPool.lists_new.mpr rfl
  · rintro q ⟨⟩
    exact .inl (.inl rfl)
  · rintro q ⟨⟩
    exact Nat.lt_succ_self _
  · rintro q (⟨⟨⟩⟩ | ⟨⟨⟩⟩)
    exact Nat.lt_succ_self _
  · rw [hph]
    exact fun hran => by cases hran
  · intro p hp
    rw [hnone] at hp
    cases hp

theorem Inv.move (h : s.Inv cfg) (honly : s.Only s' c ph)
    (hpresent : (s.sessions c).present) (hnext : s'.next = s.next)
    (hback : ∀ p, s'.registry = some p → s.registry = some p)
    (hkeep : ∀ p, s.registry = some p → (∀ d, s.sessions d ≠ .reported p) →
      s'.registry = some p)
    (hmember : ∀ p, (s'.pools p).Lists c → (s.pools p).Lists c ∧ ph.member = some p)
    (hempty : ∀ p d, ph.withdrawing = some p → ¬(s'.pools p).Lists d)
    (hjoining : ∀ p, ph.joining = some p → (s'.pools p).Lists c)
    (hknown : ∀ p, s'.registry = some p → (s.sessions c).Within p →
      ph.Within p ∨ ∃ d, d ≠ c ∧ (s.sessions d).Within p)
    (hwithin : ∀ p, ph.Within p → (s.sessions c).Within p ∨ s.registry = some p)
    (hran : (s.sessions c).registering = false → ph.registering = false)
    (hreported : s'.Reported) : s'.Inv cfg := by
  have hopen : ∀ p d, (s'.pools p).Lists d → s.Open p := by
    intro p d hd
    by_cases hdc : d = c
    · subst hdc
      exact (h.listed p d (hmember p hd).1).2
    · exact (h.listed p d (honly.gained p d hdc hd)).2
  refine ⟨h.listed.move honly ?_ ?_ hempty, h.joining.move honly hjoining, honly.known ?_,
    h.fresh.move honly hnext.ge ?_ ?_, h.settled.move honly hran,
    h.address.move honly (.inl hpresent), h.holding.move honly (.inl hpresent), hreported⟩
  · intro p d hd
    refine hkeep p (hopen p d hd).1 fun e he => (hopen p d hd).2 e ?_
    rw [he]
    rfl
  · exact fun p hc => ⟨(hmember p hc).2, (hopen p c hc).2⟩
  · intro p hp
    obtain ⟨d, hd⟩ := h.known p (hback p hp)
    by_cases hdc : d = c
    · subst hdc
      exact hknown p hp hd
    · exact .inr ⟨d, hdc, hd⟩
  · intro p hp
    rw [hnext]
    exact h.fresh.1 p (hback p hp)
  · intro p hp
    rw [hnext]
    exact (hwithin p hp).elim (h.fresh.2 c p) (h.fresh.1 p)

theorem Inv.advance (h : s.Inv cfg) {ph' : Phase} {peers : Finset N}
    (hnext : Advance p (s.sessions c) ph') :
    ((s.setPool p { s.pools p with peers }).setSession c ph').Inv cfg := by
  obtain ⟨hmember, hmember', hquiet⟩ := hnext.member
  have honly : s.Only ((s.setPool p { s.pools p with peers }).setSession c ph') c ph' :=
    .of_pool rfl rfl rfl (fun _ _ hd _ => hd) fun _ _ hd => hd
  have hlists : ∀ q, (((s.setPool p { s.pools p with peers }).setSession c ph').pools q).Lists c ↔
      (s.pools q).Lists c := by
    intro q
    simp only [setSession, setPool, Function.update_apply]
    split
    · next hq =>
        subst hq
        rfl
    · rfl
  have hwithin : ∀ q, ph'.Within q ↔ (s.sessions c).Within q := by
    intro q
    rw [Phase.Within, Phase.Within, hmember, hmember', hquiet,
      Phase.withdrawing_of_member hmember]
  refine h.move honly (Phase.present_of_member hmember) rfl (fun _ => id) (fun _ hp _ => hp)
    (fun q hq => ?_) (fun q d hq => ?_) (fun q hq => ?_) (fun q _ hq => .inl ((hwithin q).mpr hq))
    (fun q hq => .inl ((hwithin q).mp hq)) ?_ (h.reported.move honly rfl (fun _ hp _ => hp) ?_)
  · have hold := (hlists q).mp hq
    have hq' := (h.listed q c hold).1
    rw [hmember] at hq'
    exact ⟨hold, hmember'.trans hq'⟩
  · rw [hquiet] at hq
    cases hq
  · refine (hlists q).mpr (h.joining q c ?_)
    generalize s.sessions c = ph at hnext
    cases hnext <;> first | exact hq | cases hq
  · generalize s.sessions c = ph at hnext
    cases hnext <;> intro hran <;> first | rfl | cases hran
  · generalize s.sessions c = ph at hnext
    cases hnext <;> exact fun _ hph => by cases hph

theorem Inv.enlist (h : s.Inv cfg) (hph : s.sessions c = .adding p) :
    State.Inv cfg { s.setSession c (.running p) with reports := s.reports ++ [.added] } := by
  have honly : s.Only { s.setSession c (.running p) with reports := s.reports ++ [.added] } c
      (.running p) := .of_pools rfl rfl rfl
  have hlists : (s.pools p).Lists c := h.joining p c (by rw [hph]; rfl)
  refine h.move honly (by rw [hph]; exact ⟨nofun, nofun⟩) rfl (fun _ => id) (fun _ hp _ => hp)
    (fun q hq => ⟨hq, ?_⟩) nofun nofun ?_ ?_ (fun _ => rfl) fun pre post _ => ?_
  · have hq' := (h.listed q c hq).1
    rw [hph] at hq'
    exact hq'
  · rw [hph]
    rintro q - (⟨⟨⟩⟩ | ⟨⟨⟩⟩)
    exact .inl (.inl rfl)
  · rw [hph]
    rintro q (⟨⟨⟩⟩ | ⟨⟨⟩⟩)
    exact .inl (.inl rfl)
  · have hopen := (h.listed p c hlists).2
    refine .inr ⟨p, hopen.1, fun d hd => ?_⟩
    by_cases hdc : d = c
    · subst hdc
      rw [honly.sessions_self] at hd
      cases hd
    · rw [honly.sessions_ne hdc] at hd
      exact hopen.2 d (by rw [hd]; rfl)

theorem Inv.find (h : s.Inv cfg) {p q : Nat} (hph : s.sessions c = .closed p)
    (hq : s.registry = some q) : (s.setSession c (.leaving q)).Inv cfg := by
  have honly : s.Only (s.setSession c (.leaving q)) c (.leaving q) := .of_pools rfl rfl rfl
  refine h.move honly (by rw [hph]; exact ⟨nofun, nofun⟩) rfl (fun _ => id) (fun _ hp _ => hp)
    (fun q' hc => ⟨hc, hq.symm.trans (h.listed q' c hc).2.1⟩) nofun nofun ?_ ?_ (fun _ => rfl)
    (h.reported.move honly rfl (fun _ hp _ => hp) nofun)
  · exact fun q' hq' _ => .inl (.inl (hq.symm.trans hq'))
  · rintro q' (⟨⟨⟩⟩ | ⟨⟨⟩⟩)
    exact .inr hq

theorem Inv.miss (h : s.Inv cfg) (hph : s.sessions c = .closed p)
    (hnone : s.registry = none) : (s.setSession c .gone).Inv cfg := by
  have honly : s.Only (s.setSession c .gone) c .gone := .of_pools rfl rfl rfl
  refine h.move honly (by rw [hph]; exact ⟨nofun, nofun⟩) rfl (fun _ => id) (fun _ hp _ => hp)
    (fun q hc => absurd hc (h.lists_none hnone q c)) nofun nofun ?_ ?_ (fun _ => rfl)
    (h.reported.move honly rfl (fun _ hp _ => hp) nofun)
  · exact fun q hq _ => nomatch hnone.symm.trans hq
  · rintro q (⟨⟨⟩⟩ | ⟨⟨⟩⟩)

theorem Inv.remove [DecidableEq A] (h : s.Inv cfg)
    (hph : s.sessions c = .leaving p) : (s.remove cfg.localAddr c p).Inv cfg := by
  have hpresent : (s.sessions c).present := by rw [hph]; exact ⟨nofun, nofun⟩
  have haddr : ∀ d, d ≠ c → (s.sessions d).present → cfg.localAddr d ≠ cfg.localAddr c :=
    fun d hdc hd heq => hdc (h.address d c hd hpresent heq)
  generalize hpool : (s.pools p).remove cfg.localAddr (cfg.localAddr c) = pool
  have hout : ∀ d, pool.Lists d ↔ (s.pools p).Lists d ∧ cfg.localAddr d ≠ cfg.localAddr c := by
    rw [← hpool]
    exact fun d => ConnectionPool.lists_remove
  have hpools : (s.remove cfg.localAddr c p).pools = update s.pools p pool := by
    rw [← hpool]
    rfl
  have honly : s.Only (s.remove cfg.localAddr c p) c
      (if pool.isEmpty then .emptied p else .gone) :=
    .of_pool (by rw [← hpool]; rfl) rfl hpools
      (fun d hdc hd hjoin => (hout d).mpr ⟨hd, haddr d hdc (Phase.present_of_joining hjoin)⟩)
      fun d _ hd => ((hout d).mp hd).1
  refine h.move honly hpresent rfl (fun _ => id) (fun _ hp _ => hp) ?_ ?_ ?_ ?_ ?_ ?_
    (h.reported.move honly rfl (fun _ hp _ => hp) ?_)
  · intro q hc
    rw [hpools, Function.update_apply] at hc
    split at hc
    · exact absurd rfl ((hout c).mp hc).2
    · next hq =>
        have hmember := (h.listed q c hc).1
        rw [hph] at hmember
        exact absurd (Option.some.inj hmember).symm hq
  · intro q d hq hd
    split at hq
    · next hempty =>
        cases hq
        rw [hpools, Function.update_self] at hd
        exact ConnectionPool.isEmpty_iff.mp hempty d hd
    · cases hq
  · intro q hq
    split at hq <;> cases hq
  · rw [hph]
    rintro q - (⟨⟨⟩⟩ | ⟨⟨⟩⟩)
    by_cases hempty : pool.isEmpty
    · rw [if_pos hempty]
      exact .inl (.inr rfl)
    · rw [ConnectionPool.isEmpty_iff] at hempty
      push Not at hempty
      obtain ⟨e, he⟩ := hempty
      obtain ⟨hlisted, hne⟩ := (hout e).mp he
      exact .inr ⟨e, fun hec => hne (by rw [hec]), .inl (h.listed _ e hlisted).1⟩
  · rw [hph]
    intro q hq
    split at hq
    · rcases hq with ⟨⟨⟩⟩ | ⟨⟨⟩⟩
      exact .inl (.inl rfl)
    · rcases hq with ⟨⟨⟩⟩ | ⟨⟨⟩⟩
  · intro _
    split <;> rfl
  · intro q hq
    split at hq <;> cases hq

theorem Removed.append (reports : List Report) : Removed (reports ++ [.removed]) := by
  intro pre post heq
  rcases List.append_eq_append_iff.mp heq with ⟨pre', -, hpre'⟩ | ⟨post', -, hpost'⟩
  · cases pre' with
    | nil => cases hpre'
    | cons o pre' => cases pre' <;> cases hpre'
  · cases post' with
    | nil => cases hpost'
    | cons o post' =>
      obtain ⟨-, rfl⟩ := List.cons.inj hpost'
      exact List.mem_append_right _ (List.mem_singleton_self _)

theorem Inv.report (h : s.Inv cfg) (hph : s.sessions c = .emptied p) :
    State.Inv cfg { s.setSession c (.reported p) with reports := s.reports ++ [.removed] } := by
  have honly : s.Only { s.setSession c (.reported p) with reports := s.reports ++ [.removed] } c
      (.reported p) := .of_pools rfl rfl rfl
  refine h.move honly (by rw [hph]; exact ⟨nofun, nofun⟩) rfl (fun _ => id) (fun _ hp _ => hp)
    (fun q hc => ?_) ?_ nofun ?_ ?_ (fun _ => rfl)
    fun pre post heq => .inl (Removed.append _ pre post heq)
  · have hmember := (h.listed q c hc).1
    rw [hph] at hmember
    cases hmember
  · rintro q d ⟨⟩ hd
    exact (h.listed _ d hd).2.2 c (by rw [hph]; rfl)
  · rw [hph]
    rintro q - (⟨⟨⟩⟩ | ⟨⟨⟩⟩)
    exact .inl (.inr rfl)
  · rw [hph]
    rintro q (⟨⟨⟩⟩ | ⟨⟨⟩⟩)
    exact .inl (.inr rfl)

theorem Inv.forget (h : s.Inv cfg) (hph : s.sessions c = .reported p) : (s.forget c p).Inv cfg := by
  have honly : s.Only (s.forget c p) c .gone := .of_pools rfl rfl rfl
  have hkeep : ∀ q, s.registry = some q → (∀ d, s.sessions d ≠ .reported q) →
      (s.forget c p).registry = some q := by
    intro q hq hnot
    have hne : s.registry ≠ some p := by
      intro hp
      cases hq.symm.trans hp
      exact hnot c hph
    exact (if_neg hne).trans hq
  have hback : ∀ q, (s.forget c p).registry = some q → s.registry = some q ∧ q ≠ p := by
    intro q hq
    simp only [State.forget] at hq
    split at hq
    · cases hq
    · next hne => exact ⟨hq, by rintro rfl; exact hne hq⟩
  refine h.move honly (by rw [hph]; exact ⟨nofun, nofun⟩) rfl (fun q hq => (hback q hq).1) hkeep
    (fun q hc => ?_) nofun nofun ?_ ?_ (fun _ => rfl) (h.reported.move honly rfl hkeep nofun)
  · have hmember := (h.listed q c hc).1
    rw [hph] at hmember
    cases hmember
  · rw [hph]
    rintro q hq (⟨⟨⟩⟩ | ⟨⟨⟩⟩)
    exact absurd rfl (hback _ hq).2
  · rintro q (⟨⟨⟩⟩ | ⟨⟨⟩⟩)

end

/-! ### A forward moves -/

theorem Inv.lists_removeActive [DecidableEq A] (h : s.Inv cfg) {f : F} {p q : Nat} {c d : S} (hc : s.Holds f c)
    (hran : (s.sessions c).registering = false) (hd : (s.pools p).Lists d)
    (hjoin : (s.sessions d).joining = some q) :
    ((s.pools p).removeActive cfg.localAddr (cfg.localAddr c)).Lists d := by
  refine ConnectionPool.lists_removeActive_of_ne hd fun heq => ?_
  have hcd := h.holding f c d hc (Phase.present_of_joining hjoin) heq.symm
  subst hcd
  rw [Phase.registering_of_joining hjoin] at hran
  cases hran

section

variable [DecidableEq F]

theorem Inv.forward (h : s.Inv cfg) {f : F} {w : Option (Forward S)}
    (hsessions : s'.sessions = s.sessions) (hforwards : s'.forwards = update s.forwards f w)
    (hregistry : s'.registry = s.registry) (hnext : s'.next = s.next)
    (hreports : s'.reports = s.reports)
    (hheld : ∀ v c, w = some v → v.stage.conn = some c →
      (s.Holds f c ∨ ∃ p, (s.pools p).Lists c) ∧
        (v.stage.settled = true → (s.sessions c).registering = false))
    (hlisted : ∀ p d, (s'.pools p).Lists d →
      (s.pools p).Lists d ∨ (s.sessions d).member = some p ∧ s.Open p)
    (hjoining : ∀ p d, (s.pools p).Lists d → (s.sessions d).joining = some p →
      (s'.pools p).Lists d) : s'.Inv cfg := by
  have hopen : ∀ p, s.Open p → s'.Open p := by
    intro p hp
    refine ⟨hregistry.trans hp.1, fun d => ?_⟩
    rw [hsessions]
    exact hp.2 d
  have hholds : ∀ g c, s'.Holds g c → (∃ g, s.Holds g c) ∨ ∃ p, (s.pools p).Lists c := by
    rintro g c ⟨v, hv, hc⟩
    rw [hforwards, Function.update_apply] at hv
    split at hv
    · exact (hheld v c hv hc).1.imp (fun hf => ⟨f, hf⟩) id
    · exact .inl ⟨g, v, hv, hc⟩
  refine ⟨?_, ?_, ?_, ?_, ?_, ?_, ?_, ?_⟩
  · intro p d hd
    rw [hsessions]
    rcases hlisted p d hd with hold | ⟨hmember, hp⟩
    · obtain ⟨hmember, hp⟩ := h.listed p d hold
      exact ⟨hmember, hopen p hp⟩
    · exact ⟨hmember, hopen p hp⟩
  · intro p d hd
    rw [hsessions] at hd
    exact hjoining p d (h.joining p d hd) hd
  · intro p hp
    rw [hsessions]
    exact h.known p (hregistry ▸ hp)
  · refine ⟨fun p hp => ?_, fun d p hd => ?_⟩
    · rw [hnext]
      exact h.fresh.1 p (hregistry ▸ hp)
    · rw [hsessions] at hd
      rw [hnext]
      exact h.fresh.2 d p hd
  · intro g v c hv hc hset
    rw [hsessions]
    rw [hforwards, Function.update_apply] at hv
    split at hv
    · exact (hheld v c hv hc).2 hset
    · exact h.settled g v c hv hc hset
  · intro c d hc hd
    rw [hsessions] at hc hd
    exact h.address c d hc hd
  · intro g c d hc hd heq
    rw [hsessions] at hd
    rcases hholds g c hc with ⟨g', hg'⟩ | ⟨p, hp⟩
    · exact h.holding g' c d hg' hd heq
    · exact h.address c d (Phase.present_of_member (h.listed p c hp).1) hd heq
  · intro pre post heq
    rcases h.reported pre post (hreports ▸ heq) with hremoved | ⟨p, hp, hnot⟩
    · exact .inl hremoved
    · refine .inr ⟨p, hregistry.trans hp, fun d => ?_⟩
      rw [hsessions]
      exact hnot d

theorem Inv.pass (h : s.Inv cfg) {f : F} {w : Option (Forward S)}
    (hheld : ∀ v c, w = some v → v.stage.conn = some c →
      (s.Holds f c ∨ ∃ p, (s.pools p).Lists c) ∧
        (v.stage.settled = true → (s.sessions c).registering = false)) :
    (s.setForward f w).Inv cfg :=
  h.forward rfl rfl rfl rfl rfl hheld (fun _ _ hd => .inl hd) fun _ _ hd _ => hd

theorem Inv.pop [DecidableEq A] (h : s.Inv cfg) {f : F} {v : Forward S} {pool : ConnectionPool S N}
    (hpop : (s.pools v.pool).pop cfg.localAddr = some (c, pool)) :
    ((s.setPool v.pool pool).setStage f v (.sending c)).Inv cfg := by
  have hc := ConnectionPool.lists_of_pop hpop
  refine h.forward (w := some { v with stage := .sending c }) rfl rfl rfl rfl rfl ?_ ?_ ?_
  · rintro v' c' ⟨⟩ ⟨⟩
    exact ⟨.inr ⟨_, hc⟩, nofun⟩
  · intro p d hd
    simp only [setStage, setForward, setPool, Function.update_apply] at hd
    split at hd
    · next hp =>
        subst hp
        exact .inl (ConnectionPool.lists_pop hpop hd)
    · exact .inl hd
  · intro p d hd _
    simp only [setStage, setForward, setPool, Function.update_apply]
    split
    · next hp =>
        subst hp
        refine ConnectionPool.lists_pop_of_ne hpop hd fun heq => ?_
        exact h.address d c (Phase.present_of_member (h.listed _ d hd).1)
          (Phase.present_of_member (h.listed _ c hc).1) heq
    · exact hd

theorem Inv.giveBack [DecidableEq A] (h : s.Inv cfg) {f : F} (hc : s.Holds f c)
    (hopen : s.Open p) (hmember : (s.sessions c).member = some p)
    (hran : (s.sessions c).registering = false) :
    ((s.setPool p (((s.pools p).removeActive cfg.localAddr
      (cfg.localAddr c)).add c)).setForward f none).Inv cfg := by
  refine h.forward (w := none) rfl rfl rfl rfl rfl nofun ?_ ?_
  · intro q d hd
    simp only [setForward, setPool, Function.update_apply] at hd
    split at hd
    · next hq =>
        subst hq
        rcases ConnectionPool.lists_add.mp hd with hd | rfl
        · exact .inl (ConnectionPool.lists_removeActive hd)
        · exact .inr ⟨hmember, hopen⟩
    · exact .inl hd
  · intro q d hd hjoin
    simp only [setForward, setPool, Function.update_apply]
    split
    · next hq =>
        subst hq
        exact ConnectionPool.lists_add.mpr (.inl (h.lists_removeActive hc hran hd hjoin))
    · exact hd

theorem Inv.drop [DecidableEq A] (h : s.Inv cfg) {f : F} {w : Option (Forward S)}
    (hc : s.Holds f c) (hran : (s.sessions c).registering = false)
    (hw : ∀ v, w = some v → v.stage.conn = none) :
    ((s.setPool p ((s.pools p).removeActive cfg.localAddr
      (cfg.localAddr c))).setForward f w).Inv cfg := by
  refine h.forward (w := w) rfl rfl rfl rfl rfl ?_ ?_ ?_
  · intro v d hv hd
    rw [hw v hv] at hd
    cases hd
  · intro q d hd
    simp only [setForward, setPool, Function.update_apply] at hd
    split at hd
    · next hq =>
        subst hq
        exact .inl (ConnectionPool.lists_removeActive hd)
    · exact .inl hd
  · intro q d hd hjoin
    simp only [setForward, setPool, Function.update_apply]
    split
    · next hq =>
        subst hq
        exact h.lists_removeActive hc hran hd hjoin
    · exact hd

end

/-! ## Runs -/

theorem inv_initial : (initial : State S N F).Inv cfg where
  listed p c hc := by rcases hc with hc | hc <;> cases hc
  joining _ _ := nofun
  known _ := nofun
  fresh := ⟨nofun, fun _ _ h => by rcases h with ⟨⟨⟩⟩ | ⟨⟨⟩⟩⟩
  settled _ _ _ := nofun
  address _ _ hc := absurd rfl hc.1
  holding f c d hc := by
    obtain ⟨v, hv, -⟩ := hc
    cases hv
  reported pre post heq := absurd heq.symm (List.append_ne_nil_of_right_ne_nil _ (List.cons_ne_nil _ _))

theorem Inv.withdrawn (h : s.Inv cfg) : s.Withdrawn where
  listed p c hc := (h.listed p c hc).1
  quiet hquiet := by
    have hnone : s.registry = none := by
      by_contra hsome
      obtain ⟨p, hp⟩ := Option.ne_none_iff_exists'.mp hsome
      obtain ⟨d, hd⟩ := h.known p hp
      rcases hquiet.1 d with hph | hph <;> rw [hph] at hd <;> rcases hd with ⟨⟨⟩⟩ | ⟨⟨⟩⟩
    refine ⟨hnone, fun pre post heq => ?_⟩
    rcases h.reported pre post heq with hremoved | ⟨p, hp, -⟩
    · exact hremoved
    · cases hnone.symm.trans hp

section

variable [DecidableEq A] [DecidableEq S] [DecidableEq F]

theorem Move.inv (hm : Move cfg s s') (h : s.Inv cfg) : s'.Inv cfg := by
  cases hm with
  | join hph hopen hunused => exact h.join hph hopen hunused
  | create hph hnone hunused => exact h.create hph hnone hunused
  | advance hph hnext =>
    subst hph
    exact h.advance hnext
  | enlist hph => exact h.enlist hph
  | find hph hq => exact h.find hph hq
  | miss hph hnone => exact h.miss hph hnone
  | remove hph => exact h.remove hph
  | report hph => exact h.report hph
  | forget hph => exact h.forget hph
  | pass hheld => exact h.pass hheld
  | pop hpop => exact h.pop hpop
  | giveBack hc hopen hmember hran => exact h.giveBack hc hopen hmember hran
  | drop hc hran hw => exact h.drop hc hran hw

theorem inv_of_reachable [DecidableEq N] (h : ((machine cfg).only (Fit cfg)).Reachable s) :
    s.Inv cfg := by
  refine h.invariant (I := State.Inv cfg) ?_ ?_
  · rintro s rfl
    exact inv_initial
  · rintro s l s' hi ⟨hfit, hstep⟩
    exact (step_move hi.settled hfit hstep).inv hi

/-- Where no session joins a pool that has been found empty, and no connection goes
back to a pool that its session has been taken out of, the peer goes with its last
session. -/
theorem withdrawn_of_reachable [DecidableEq N]
    (h : ((machine cfg).only (Fit cfg)).Reachable s) : s.Withdrawn :=
  (inv_of_reachable h).withdrawn

end

end State

def twoSessions : Setup Bool Bool Unit Unit where
  localAddr := id
  nodeId _ := some ()
  onBusy _ := .dial
  maxIdle := 6

/-- The second session serves a forward and is unregistered before the forward gives
its connection back; then the first session is unregistered. -/
def givenBack : List (Label Bool Unit) :=
  [.session false, .session false, .answer false true, .session true, .session true,
    .forward (), .forward (), .sent () true, .replied () true,
    .session true, .session true, .session true, .forward (),
    .session false, .session false, .session false]

/-- A connection that goes back after its session has ended keeps the peer. -/
theorem State.not_withdrawn : ¬∀ s, (machine twoSessions).Reachable s → s.Withdrawn := by
  intro h
  obtain ⟨s, hrun, hregistry, hsessions, hforwards⟩ :
      ∃ s, Machine.runSteps (State.step twoSessions) State.initial givenBack = some s ∧
        s.registry = some 0 ∧ (∀ c, s.sessions c = .gone) ∧ ∀ f, s.forwards f = none :=
    ⟨_, rfl, rfl, fun c => by cases c <;> rfl, fun _ => rfl⟩
  have hreach : (machine twoSessions).Reachable s :=
    Machine.reachable_runSteps (.start rfl) hrun
  have hquiet : s.Quiet := ⟨fun c => .inr (hsessions c), hforwards⟩
  cases hregistry.symm.trans ((h s hreach).quiet hquiet).1

theorem State.only_step {s s' : State Bool Unit Unit} (l : Label Bool Unit)
    (h : ((machine twoSessions).only (Fit twoSessions)).Reachable s) (hfit : s.Fit twoSessions l)
    (hs : s.step twoSessions l = some s') :
    ((machine twoSessions).only (Fit twoSessions)).Reachable s' :=
  h.step l ⟨hfit, hs⟩

/-- A session that serves a forward, and goes when its connection is back. -/
theorem State.served_withdrawn : ∃ s : State Bool Unit Unit,
    s.sessions false = .gone ∧ s.reports = [.added, .removed] ∧ s.Withdrawn := by
  have h₁ := only_step (.session false) (.start rfl) ?_ rfl
  · have h₂ := only_step (.session false) h₁ nofun rfl
    have h₃ := only_step (.answer false true) h₂ trivial rfl
    have h₄ := only_step (.forward ()) h₃ nofun rfl
    have h₅ := only_step (.forward ()) h₄ ?_ rfl
    · have h₆ := only_step (.sent () true) h₅ trivial rfl
      have h₇ := only_step (.replied () true) h₆ trivial rfl
      have h₈ := only_step (.forward ()) h₇ ?_ rfl
      · have h₉ := only_step (.session false) h₈ nofun rfl
        have h₁₀ := only_step (.session false) h₉ nofun rfl
        have h₁₁ := only_step (.session false) h₁₀ nofun rfl
        have h₁₂ := only_step (.session false) h₁₁ nofun rfl
        have h₁₃ := only_step (.session false) h₁₂ nofun rfl
        exact ⟨_, rfl, rfl, withdrawn_of_reachable h₁₃⟩
      · intro v c hv hc _
        cases hv
        cases hc
        exact ⟨⟨rfl, fun d => by cases d <;> nofun⟩, rfl⟩
    · intro v c hv hc
      cases hv
      cases hc
  · refine fun _ => ⟨nofun, fun d hd => absurd rfl hd.1, fun f d hd => ?_⟩
    obtain ⟨v, hv, -⟩ := hd
    cases hv

end Hardy.Tcpcl.Connection
