import Hardy.Proto.Proxy
import Mathlib.Tactic.Tauto

/-!
# Calls and their responses

Over every run of two ends on opposite sides a call returns the response to its own request, the
handler of an end sees the requests of the other end and nothing else, and when a reader is gone
no call waits for it (`correlated`).

The ids of the two sides are odd and even.  A message about a call is in one place at most, and
while it is on its way the call is in the pending map.
-/

namespace Hardy.Proto

open Function

variable {S R : Type}

def idOf (e : Side) (k : Nat) : Nat := e.firstId + 2 * k

theorem idOf_inj {e e' : Side} {k k' : Nat} (h : idOf e k = idOf e' k') : e = e' ∧ k = k' := by
  cases e <;> cases e' <;> simp only [idOf, Side.firstId] at h
  · exact ⟨rfl, by omega⟩
  · omega
  · omega
  · exact ⟨rfl, by omega⟩

/-! ## Messages -/

def Origin.about : Origin → Side × Nat
  | request caller call => (caller, call)
  | response answered => answered.about

/-- A request of `e`. -/
def Asks (e : Side) (m : Msg S) : Prop := ∃ k, m.origin = .request e k ∧ m.msgId = idOf e k

def Answers (e : Side) (m : Msg S) : Prop :=
  ∃ k, m.origin = .response (.request e k) ∧ m.msgId = idOf e k

namespace State

def copiesAt (s : State S) (e : Side) (p : Side × Nat) : Nat :=
  (s.queue e).countP (·.origin.about = p) + (s.wire e).countP (·.origin.about = p) +
    (s.tasks e).countP (·.request.origin.about = p)

def copies (s : State S) (p : Side × Nat) : Nat := s.copiesAt .client p + s.copiesAt .server p

theorem copies_eq (s : State S) (e : Side) (p : Side × Nat) :
    s.copies p = s.copiesAt e p + s.copiesAt e.peer p := by
  cases e
  · rfl
  · exact Nat.add_comm _ _

/-- The oneshot of a call is where its response, or the end of the reader, finds it. -/
def Held (s : State S) (e : Side) (k : Nat) : Prop :=
  (∃ map, s.pending e = some map ∧ map (idOf e k) = some k) ∨
    ∃ map, s.reader e = .failing map ∧ map (idOf e k) = some k

end State

def Phase.Waiting : Phase S → Prop
  | registered | unsent | sent | dropped => True
  | _ => False

def Phase.Past : Phase S → Prop
  | sent | returned _ | dropped => True
  | _ => False

structure Waits (s : State S) (e : Side) (k : Nat) (c : Call S) : Prop where
  held : c.ret = none → s.Held e k
  /-- before the request is sent -/
  ready : ¬ c.phase.Past → ∀ map, s.pending e = some map → map (idOf e k) = some k

/-! ## Invariants -/

structure Numbered (s : State S) : Prop where
  next : ∀ e, s.nextMsgId e = idOf e (s.begun e) % 2 ^ 32
  ids : ∀ e k c, s.calls e k = some c → c.msgId = idOf e k ∧ k < s.begun e

/-- An end sends its own requests and responses to those of the other end. -/
structure Placed (s : State S) : Prop where
  sent : ∀ e, ∀ m ∈ s.queue e ++ s.wire e, Asks e m ∨ Answers e.peer m
  served : ∀ e, ∀ t ∈ s.tasks e, Asks e.peer t.request

/-- Oneshots are completed with what is meant for them. -/
structure Settled (s : State S) : Prop where
  ids : ∀ e map id k, s.pending e = some map → map id = some k → id = idOf e k
  reader : ∀ e, s.pending e = none ↔ (∃ map, s.reader e = .failing map) ∨ s.reader e = .exited
  waits : ∀ e k c, s.calls e k = some c → c.phase.Waiting → Waits s e k c
  rets : ∀ e k c m, s.calls e k = some c →
    c.ret = some (.message m) ∨ c.phase = .returned (some (.message m)) →
      m.origin = .response (.request e k)

/-- A message about a call is in one place, and its call is in the map. -/
structure Once (s : State S) : Prop where
  once : ∀ p, s.copies p ≤ 1
  past : ∀ e k, 0 < s.copies (e, k) → ∃ c, s.calls e k = some c ∧ c.phase.Past
  pending : ∀ e k, 0 < s.copies (e, k) → ∀ map, s.pending e = some map → map (idOf e k) = some k

structure Inv (s : State S) : Prop where
  numbered : Numbered s
  placed : Placed s
  settled : Settled s
  once : Once s

/-! ## One call -/

namespace State

variable {s : State S} {e e' : Side} {k k' : Nat} {f : Call S → Call S}

theorem modifyCall_calls : (s.modifyCall e k f).calls e' k' =
    if e' = e ∧ k' = k then (s.calls e k).map f else s.calls e' k' := by
  unfold modifyCall
  by_cases he : e' = e
  · subst he
    by_cases hk : k' = k
    · subst hk
      simp
    · simp [hk]
  · simp [he]

theorem modifyCall_self : (s.modifyCall e k f).calls e k = (s.calls e k).map f := by
  rw [modifyCall_calls, if_pos ⟨rfl, rfl⟩]

theorem modifyCall_cases {c : Call S} (h : (s.modifyCall e k f).calls e' k' = some c) :
    (e' = e ∧ k' = k ∧ ∃ c₀, s.calls e k = some c₀ ∧ f c₀ = c) ∨ s.calls e' k' = some c := by
  rw [modifyCall_calls] at h
  split at h
  · next heq => exact .inl ⟨heq.1, heq.2, Option.map_eq_some_iff.mp h⟩
  · exact .inr h

end State

section Steps

variable {s s' : State S} {e : Side} {k : Nat}

variable {f : Call S → Call S}

theorem Numbered.modifyCall (h : Numbered s)
    (hf : ∀ c, (f c).msgId = c.msgId) : Numbered (s.modifyCall e k f) where
  next := h.next
  ids e' k' c hc := by
    rcases State.modifyCall_cases hc with ⟨rfl, rfl, c₀, hc₀, rfl⟩ | hc
    · rw [hf]
      exact h.ids _ _ _ hc₀
    · exact h.ids _ _ _ hc

theorem Settled.modifyCall (h : Settled s)
    (hwaits : ∀ c, s.calls e k = some c → (f c).phase.Waiting → Waits s e k (f c))
    (hrets : ∀ c m, s.calls e k = some c →
      (f c).ret = some (.message m) ∨ (f c).phase = .returned (some (.message m)) →
        m.origin = .response (.request e k)) : Settled (s.modifyCall e k f) where
  ids := h.ids
  reader := h.reader
  waits e' k' c hc hphase := by
    rcases State.modifyCall_cases hc with ⟨rfl, rfl, c₀, hc₀, rfl⟩ | hc
    · obtain ⟨hheld, hready⟩ := hwaits c₀ hc₀ hphase
      exact ⟨hheld, hready⟩
    · obtain ⟨hheld, hready⟩ := h.waits _ _ _ hc hphase
      exact ⟨hheld, hready⟩
  rets e' k' c m hc hm := by
    rcases State.modifyCall_cases hc with ⟨rfl, rfl, c₀, hc₀, rfl⟩ | hc
    · exact hrets c₀ m hc₀ hm
    · exact h.rets _ _ _ _ hc hm

theorem Settled.setPhase (h : Settled s) {c : Call S} (hc : s.calls e k = some c)
    {phase : Phase S} (hwaits : phase.Waiting → Waits s e k { c with phase })
    (hreturned : ∀ ret, phase = .returned (some ret) → c.ret = some ret) :
    Settled (s.setPhase e k phase) := by
  refine h.modifyCall (fun c₀ hc₀ hphase => ?_) fun c₀ m hc₀ hm => ?_
  · obtain rfl := Option.some.inj (hc.symm.trans hc₀)
    exact hwaits hphase
  · obtain rfl := Option.some.inj (hc.symm.trans hc₀)
    exact h.rets e k c m hc (.inl (hm.elim id fun hm => hreturned _ hm))

theorem Once.mono (h : Once s) (hcopies : ∀ p, s'.copies p ≤ s.copies p)
    (hcalls : ∀ e k c, s.calls e k = some c → c.phase.Past →
      ∃ c', s'.calls e k = some c' ∧ c'.phase.Past)
    (hpending : ∀ e k map', 0 < s'.copies (e, k) → s'.pending e = some map' →
      ∃ map, s.pending e = some map ∧ (map (idOf e k) = some k → map' (idOf e k) = some k)) :
    Once s' where
  once p := Nat.le_trans (hcopies p) (h.once p)
  past e k hpos := by
    obtain ⟨c, hc, hphase⟩ := h.past e k (Nat.lt_of_lt_of_le hpos (hcopies _))
    exact hcalls e k c hc hphase
  pending e k hpos map' hmap' := by
    obtain ⟨map, hmap, hkeep⟩ := hpending e k map' hpos hmap'
    exact hkeep (h.pending e k (Nat.lt_of_lt_of_le hpos (hcopies _)) map hmap)

theorem Once.fewer (h : Once s) (hcopies : ∀ p, s'.copies p ≤ s.copies p)
    (hcalls : s'.calls = s.calls) (hpending : s'.pending = s.pending) : Once s' :=
  h.mono hcopies (fun _ _ c hc hphase => ⟨c, hcalls ▸ hc, hphase⟩)
    fun _ _ map _ hmap => ⟨map, hpending ▸ hmap, id⟩

theorem past_modifyCall
    (hf : ∀ c, s.calls e k = some c → c.phase.Past → (f c).phase.Past) {e' : Side} {k' : Nat}
    {c : Call S} (hc : s.calls e' k' = some c) (hphase : c.phase.Past) :
    ∃ c', (s.modifyCall e k f).calls e' k' = some c' ∧ c'.phase.Past := by
  rw [State.modifyCall_calls]
  split
  · next heq =>
      obtain ⟨rfl, rfl⟩ := heq
      exact ⟨f c, by rw [hc, Option.map_some], hf c hc hphase⟩
  · exact ⟨c, hc, hphase⟩

theorem Once.modifyCall (h : Once s)
    (hf : ∀ c, s.calls e k = some c → c.phase.Past → (f c).phase.Past) :
    Once (s.modifyCall e k f) :=
  h.mono (fun _ => Nat.le_refl _) (fun _ _ _ => past_modifyCall hf)
    fun _ _ map _ hmap => ⟨map, hmap, id⟩

end Steps

/-! ## The steps -/

section

variable {s : State S} {e : Side} {k : Nat}

theorem Settled.congr {s' : State S} (h : Settled s) (hcalls : s'.calls = s.calls)
    (hpending : s'.pending = s.pending) (hreader : s'.reader = s.reader) : Settled s' where
  ids := hpending ▸ h.ids
  reader := hpending ▸ hreader ▸ h.reader
  waits e k c hc hphase := by
    obtain ⟨hheld, hready⟩ := h.waits e k c (hcalls ▸ hc) hphase
    refine ⟨fun hret => ?_, hpending ▸ hready⟩
    unfold State.Held
    rw [hpending, hreader]
    exact hheld hret
  rets := hcalls ▸ h.rets

/-- `call` -/
theorem inv_call (h : Inv s) (hfew : s.begun e + 1 < 2 ^ 31) (msg : S) :
    Inv { s with
      nextMsgId := update s.nextMsgId e ((s.nextMsgId e + 2) % 2 ^ 32)
      begun := update s.begun e (s.begun e + 1)
      calls := update s.calls e (update (s.calls e) (s.begun e)
        (some ⟨s.nextMsgId e, msg, .begun, none⟩)) } := by
  have hnew : s.calls e (s.begun e) = none := by
    by_contra hne
    obtain ⟨c, hc⟩ := Option.ne_none_iff_exists'.mp hne
    exact absurd (h.numbered.ids e _ c hc).2 (Nat.lt_irrefl _)
  have hid : s.nextMsgId e = idOf e (s.begun e) := by
    rw [h.numbered.next, Nat.mod_eq_of_lt]
    cases e <;> simp only [idOf, Side.firstId] <;> omega
  have hold : ∀ {e' k' c}, update s.calls e (update (s.calls e) (s.begun e)
      (some ⟨s.nextMsgId e, msg, .begun, none⟩)) e' k' = some c →
      (e' = e ∧ k' = s.begun e ∧ c = ⟨s.nextMsgId e, msg, .begun, none⟩) ∨
        s.calls e' k' = some c := by
    intro e' k' c hc
    by_cases he : e' = e
    · subst he
      rw [update_self] at hc
      by_cases hk : k' = s.begun e'
      · subst hk
        rw [update_self] at hc
        exact .inl ⟨rfl, rfl, (Option.some.inj hc).symm⟩
      · rw [update_of_ne hk] at hc
        exact .inr hc
    · rw [update_of_ne he] at hc
      exact .inr hc
  refine ⟨⟨fun e' => ?_, fun e' k' c hc => ?_⟩, ⟨h.placed.sent, h.placed.served⟩,
    ⟨h.settled.ids, h.settled.reader, fun e' k' c hc hphase => ?_, fun e' k' c m hc hm => ?_⟩,
    h.once.mono (fun _ => Nat.le_refl _) (fun e' k' c hc hphase => ⟨c, ?_, hphase⟩)
      fun _ _ map _ hmap => ⟨map, hmap, id⟩⟩
  · by_cases he : e' = e
    · subst he
      simp only [update_self, hid, idOf]
      omega
    · simp only [update_of_ne he]
      exact h.numbered.next e'
  · rcases hold hc with ⟨rfl, rfl, rfl⟩ | hc
    · simp only [update_self]
      exact ⟨hid, Nat.lt_succ_self _⟩
    · obtain ⟨hmsg, hlt⟩ := h.numbered.ids e' k' c hc
      refine ⟨hmsg, ?_⟩
      by_cases he : e' = e
      · subst he
        simp only [update_self]
        omega
      · simpa only [update_of_ne he] using hlt
  · rcases hold hc with ⟨rfl, rfl, rfl⟩ | hc
    · exact hphase.elim
    · obtain ⟨hheld, hready⟩ := h.settled.waits e' k' c hc hphase
      exact ⟨hheld, hready⟩
  · rcases hold hc with ⟨rfl, rfl, rfl⟩ | hc
    · rcases hm with hm | hm <;> cases hm
    · exact h.settled.rets e' k' c m hc hm
  · by_cases he : e' = e
    · subst he
      have hk : k' ≠ s.begun e' := fun hk => by
        rw [hk, hnew] at hc
        cases hc
      simpa only [update_self, update_of_ne hk] using hc
    · simpa only [update_of_ne he] using hc

variable {c : Call S}

theorem inv_setPhase (h : Inv s) (hc : s.calls e k = some c) {phase : Phase S}
    (hwaits : phase.Waiting → Waits s e k { c with phase })
    (hreturned : ∀ ret, phase = .returned (some ret) → c.ret = some ret)
    (hpast : c.phase.Past → phase.Past) : Inv (s.setPhase e k phase) where
  numbered := h.numbered.modifyCall fun _ => rfl
  placed := ⟨h.placed.sent, h.placed.served⟩
  settled := h.settled.setPhase hc hwaits hreturned
  once := h.once.modifyCall fun c₀ hc₀ hphase => by
    obtain rfl := Option.some.inj (hc.symm.trans hc₀)
    exact hpast hphase

theorem inv_return (h : Inv s) (hc : s.calls e k = some c) {ret : Option (Ret S)}
    (hret : ∀ r, ret = some r → c.ret = some r) : Inv (s.setPhase e k (.returned ret)) :=
  inv_setPhase h hc (fun hw => hw.elim) (fun r hr => hret r (Phase.returned.inj hr))
    fun _ => trivial

theorem inv_wait (h : Inv s) (hc : s.calls e k = some c) {phase : Phase S}
    (hw : c.phase.Waiting) (hnot : ∀ ret, phase ≠ .returned ret) (hpast : c.phase.Past → phase.Past) :
    Inv (s.setPhase e k phase) := by
  obtain ⟨hheld, hready⟩ := h.settled.waits e k c hc hw
  exact inv_setPhase h hc (fun _ => ⟨hheld, fun hnp => hready fun hp => hnp (hpast hp)⟩)
    (fun _ hr => absurd hr (hnot _)) hpast

theorem inv_traffic {s' : State S} (h : Inv s) (hnext : s'.nextMsgId = s.nextMsgId)
    (hbegun : s'.begun = s.begun) (hcalls : s'.calls = s.calls)
    (hpending : s'.pending = s.pending) (hreader : s'.reader = s.reader) (hplaced : Placed s')
    (hcopies : ∀ p, s'.copies p ≤ s.copies p) : Inv s' where
  numbered := by
    refine ⟨?_, ?_⟩
    · rw [hnext, hbegun]
      exact h.numbered.next
    · rw [hcalls, hbegun]
      exact h.numbered.ids
  placed := hplaced
  settled := h.settled.congr hcalls hpending hreader
  once := h.once.fewer hcopies hcalls hpending

variable {m : Msg S}

theorem inv_write (h : Inv s) {queue : List (Msg S)} (hq : s.queue e = m :: queue) :
    Inv { s with
      queue := update s.queue e queue
      wire := update s.wire e (s.wire e ++ [m]) } := by
  refine inv_traffic h rfl rfl rfl rfl rfl ⟨fun e' m' hm => ?_, h.placed.served⟩ fun p => ?_
  · by_cases he : e' = e
    · subst he
      refine h.placed.sent e' m' ?_
      simp only [update_self, List.mem_append, List.mem_singleton] at hm
      simp only [hq, List.mem_append, List.mem_cons]
      tauto
    · simp only [update_of_ne he] at hm
      exact h.placed.sent e' m' hm
  · simp only [State.copies_eq _ e, State.copiesAt, update_self, update_of_ne (Side.peer_ne e), hq,
      List.countP_append, List.countP_cons, List.countP_nil]
    omega

theorem inv_closeWriter (h : Inv s) : Inv (s.closeWriter e) := by
  refine inv_traffic h rfl rfl rfl rfl rfl ⟨fun e' m hm => ?_, h.placed.served⟩ fun p => ?_
  · by_cases he : e' = e
    · subst he
      refine h.placed.sent e' m (List.mem_append_right _ ?_)
      simpa [State.closeWriter] using hm
    · simp only [State.closeWriter, update_of_ne he] at hm
      exact h.placed.sent e' m hm
  · simp only [State.copies_eq _ e, State.copiesAt, State.closeWriter, update_self,
      update_of_ne (Side.peer_ne e), List.countP_nil]
    omega

variable {wire : List (Msg S)}

theorem inv_lose (h : Inv s) (hwire : wire <+: s.wire e) :
    Inv { s with wire := update s.wire e wire, wireOpen := update s.wireOpen e false } := by
  refine inv_traffic h rfl rfl rfl rfl rfl ⟨fun e' m hm => ?_, h.placed.served⟩ fun p => ?_
  · by_cases he : e' = e
    · subst he
      refine h.placed.sent e' m ?_
      simp only [update_self] at hm
      exact (List.mem_append.mp hm).elim (List.mem_append_left _) fun hm =>
        List.mem_append_right _ (hwire.subset hm)
    · simp only [update_of_ne he] at hm
      exact h.placed.sent e' m hm
  · have hle : wire.countP (·.origin.about = p) ≤ (s.wire e).countP (·.origin.about = p) :=
      hwire.sublist.countP_le
    simp only [State.copies_eq _ e, State.copiesAt, update_self, update_of_ne (Side.peer_ne e)]
    omega

theorem inv_spawn (h : Inv s) {tasks : List (Task S)}
    (hwire : s.wire e.peer = m :: wire) (htasks : tasks = [] ∨ tasks = [⟨m, false⟩] ∧ Asks e.peer m) :
    Inv { s.setWire e wire with tasks := update s.tasks e (s.tasks e ++ tasks) } := by
  refine inv_traffic h rfl rfl rfl rfl rfl ⟨fun e' m' hm => ?_, fun e' t ht => ?_⟩ fun p => ?_
  · by_cases he : e' = e.peer
    · subst he
      refine h.placed.sent e.peer m' ?_
      simp only [State.setWire, update_self, List.mem_append] at hm
      simp only [hwire, List.mem_append, List.mem_cons]
      tauto
    · simp only [State.setWire, update_of_ne he] at hm
      exact h.placed.sent e' m' hm
  · by_cases he : e' = e
    · subst he
      simp only [update_self, List.mem_append] at ht
      rcases ht with ht | ht
      · exact h.placed.served e' t ht
      · rcases htasks with rfl | ⟨rfl, hasks⟩
        · cases ht
        · obtain rfl := List.mem_singleton.mp ht
          exact hasks
    · simp only [update_of_ne he] at ht
      exact h.placed.served e' t ht
  · have hle : tasks.countP (·.request.origin.about = p) ≤ [m].countP (·.origin.about = p) := by
      rcases htasks with rfl | ⟨rfl, -⟩
      · exact Nat.zero_le _
      · simp only [List.countP_cons, List.countP_nil]
        exact Nat.le_refl _
    simp only [State.copies_eq _ e, State.copiesAt, State.setWire, update_self,
      update_of_ne (Side.peer_ne e), update_of_ne (Side.peer_ne e).symm, hwire, List.countP_append,
      List.countP_cons, List.countP_nil] at hle ⊢
    omega

theorem inv_read (h : Inv s) (hwire : s.wire e.peer = m :: wire) : Inv (s.setWire e wire) := by
  have hspawn : Inv { s.setWire e wire with tasks := update s.tasks e (s.tasks e ++ []) } :=
    inv_spawn h hwire (.inl rfl)
  rw [List.append_nil, update_eq_self] at hspawn
  exact hspawn

theorem inv_permit (h : Inv s) {l l' : List (Task S)} (ht : s.tasks e = l ++ ⟨m, false⟩ :: l') :
    Inv { s with tasks := update s.tasks e (l ++ ⟨m, true⟩ :: l') } := by
  refine inv_traffic h rfl rfl rfl rfl rfl ⟨h.placed.sent, fun e' t ht' => ?_⟩ fun p => ?_
  · by_cases he : e' = e
    · subst he
      have hmem := h.placed.served e'
      simp only [ht, List.mem_append, List.mem_cons] at hmem
      simp only [update_self, List.mem_append, List.mem_cons] at ht'
      rcases ht' with ht' | rfl | ht'
      · exact hmem t (.inl ht')
      · exact hmem ⟨m, false⟩ (.inr (.inl rfl))
      · exact hmem t (.inr (.inr ht'))
    · simp only [update_of_ne he] at ht'
      exact h.placed.served e' t ht'
  · simp only [State.copies_eq _ e, State.copiesAt, update_self, update_of_ne (Side.peer_ne e), ht,
      List.countP_append, List.countP_cons]
    omega

theorem inv_finish (h : Inv s) {t : Task S} {l l' : List (Task S)} (ht : s.tasks e = l ++ t :: l')
    {out : List (Msg S)} (hout : out = [] ∨ ∃ response,
      out = [⟨t.request.msgId, response, .response t.request.origin⟩]) :
    Inv { s with
      tasks := update s.tasks e (l ++ l')
      queue := update s.queue e (s.queue e ++ out) } := by
  have hserved := h.placed.served e
  simp only [ht, List.mem_append, List.mem_cons] at hserved
  refine inv_traffic h rfl rfl rfl rfl rfl ⟨fun e' m hm => ?_, fun e' t' ht' => ?_⟩ fun p => ?_
  · by_cases he : e' = e
    · subst he
      simp only [update_self, List.mem_append] at hm
      rcases hm with (hm | hm) | hm
      · exact h.placed.sent e' m (List.mem_append_left _ hm)
      · rcases hout with rfl | ⟨response, rfl⟩
        · cases hm
        · obtain rfl := List.mem_singleton.mp hm
          obtain ⟨k, horigin, hid⟩ := hserved t (.inr (.inl rfl))
          exact .inr ⟨k, congrArg Origin.response horigin, hid⟩
      · exact h.placed.sent e' m (List.mem_append_right _ hm)
    · simp only [update_of_ne he] at hm
      exact h.placed.sent e' m hm
  · by_cases he : e' = e
    · subst he
      simp only [update_self, List.mem_append] at ht'
      exact hserved t' (ht'.elim .inl fun ht' => .inr (.inr ht'))
    · simp only [update_of_ne he] at ht'
      exact h.placed.served e' t' ht'
  · have hle : out.countP (·.origin.about = p) ≤ [t].countP (·.request.origin.about = p) := by
      rcases hout with rfl | ⟨response, rfl⟩
      · exact Nat.zero_le _
      · simp only [List.countP_cons, List.countP_nil, Origin.about]
        exact Nat.le_refl _
    simp only [State.copies_eq _ e, State.copiesAt, update_self, update_of_ne (Side.peer_ne e), ht,
      List.countP_append, List.countP_cons, List.countP_nil] at hle ⊢
    omega

theorem inv_endTask (h : Inv s) {t : Task S} {l l' : List (Task S)}
    (ht : s.tasks e = l ++ t :: l') : Inv { s with tasks := update s.tasks e (l ++ l') } := by
  have hfinish : Inv { s with
      tasks := update s.tasks e (l ++ l')
      queue := update s.queue e (s.queue e ++ []) } := inv_finish h ht (.inl rfl)
  rw [List.append_nil, update_eq_self] at hfinish
  exact hfinish

theorem copies_eq_zero (h : Inv s) (hc : s.calls e k = some c) (hphase : ¬ c.phase.Past) :
    s.copies (e, k) = 0 := by
  by_contra hne
  obtain ⟨c', hc', hpast⟩ := h.once.past e k (Nat.pos_of_ne_zero hne)
  obtain rfl := Option.some.inj (hc.symm.trans hc')
  exact hphase hpast

theorem inv_setPending (h : Inv s) {map map' : Nat → Option Nat} (hmap : s.pending e = some map)
    (hids : ∀ id k, map' id = some k → id = idOf e k)
    (hkeep : ∀ k, map (idOf e k) = some k → map' (idOf e k) = some k ∨ s.copies (e, k) = 0 ∧
      ∀ c, s.calls e k = some c → c.phase.Waiting → c.phase.Past ∧ c.ret ≠ none) :
    Inv { s with pending := update s.pending e (some map') } := by
  refine ⟨⟨h.numbered.next, h.numbered.ids⟩, ⟨h.placed.sent, h.placed.served⟩,
    ⟨fun e' map'' id k hmap'' hk => ?_, fun e' => ?_,
      fun e' k c hc hw => ⟨fun hret => ?_, fun hnp map'' hmap'' => ?_⟩, h.settled.rets⟩,
    ⟨h.once.once, h.once.past, fun e' k hpos map'' hmap'' => ?_⟩⟩
  · by_cases he : e' = e
    · subst he
      simp only [update_self, Option.some.injEq] at hmap''
      subst hmap''
      exact hids id k hk
    · simp only [update_of_ne he] at hmap''
      exact h.settled.ids e' map'' id k hmap'' hk
  · by_cases he : e' = e
    · subst he
      simp only [update_self, reduceCtorEq, ← h.settled.reader e', hmap]
    · simp only [update_of_ne he]
      exact h.settled.reader e'
  · by_cases he : e' = e
    · subst he
      rcases (h.settled.waits e' k c hc hw).held hret with ⟨map₀, hmap₀, hk⟩ | hfailing
      · obtain rfl := Option.some.inj (hmap.symm.trans hmap₀)
        rcases hkeep k hk with hk | ⟨-, hnot⟩
        · exact .inl ⟨map', update_self _ _ _, hk⟩
        · exact absurd hret (hnot c hc hw).2
      · exact .inr hfailing
    · rcases (h.settled.waits e' k c hc hw).held hret with ⟨map₀, hmap₀, hk⟩ | hfailing
      · exact .inl ⟨map₀, by simpa only [update_of_ne he] using hmap₀, hk⟩
      · exact .inr hfailing
  · by_cases he : e' = e
    · subst he
      simp only [update_self, Option.some.injEq] at hmap''
      subst hmap''
      rcases hkeep k ((h.settled.waits e' k c hc hw).ready hnp map hmap) with hk | ⟨-, hnot⟩
      · exact hk
      · exact absurd (hnot c hc hw).1 hnp
    · simp only [update_of_ne he] at hmap''
      exact (h.settled.waits e' k c hc hw).ready hnp map'' hmap''
  · by_cases he : e' = e
    · subst he
      simp only [update_self, Option.some.injEq] at hmap''
      subst hmap''
      have hpos' : 0 < s.copies (e', k) := hpos
      rcases hkeep k (h.once.pending e' k hpos map hmap) with hk | ⟨hzero, -⟩
      · exact hk
      · omega
    · simp only [update_of_ne he] at hmap''
      exact h.once.pending e' k hpos map'' hmap''

variable {map : Nat → Option Nat}

theorem inv_register (h : Inv s) (hc : s.calls e k = some c)
    (hphase : c.phase = .begun) (hmap : s.pending e = some map) :
    Inv { s.setPhase e k .registered with
      pending := update s.pending e (some (update map c.msgId (some k))) } := by
  have hid := (h.numbered.ids e k c hc).1
  have hin : Inv { s with pending := update s.pending e (some (update map c.msgId (some k))) } := by
    refine inv_setPending h hmap (fun id k' hk' => ?_) fun k' hk' => .inl ?_
    · by_cases hi : id = c.msgId
      · subst hi
        rw [update_self] at hk'
        rw [← Option.some.inj hk', hid]
      · rw [update_of_ne hi] at hk'
        exact h.settled.ids e map id k' hmap hk'
    · by_cases hi : idOf e k' = c.msgId
      · rw [hi, update_self, (idOf_inj (hi.trans hid)).2]
      · rw [update_of_ne hi, hk']
  have hk : update map c.msgId (some k) (idOf e k) = some k := by
    rw [← hid, update_self]
  refine inv_setPhase hin hc (fun _ => ⟨fun _ => .inl ⟨_, update_self _ _ _, hk⟩, ?_⟩) nofun ?_
  · intro _ map' hmap'
    simp only [update_self, Option.some.injEq] at hmap'
    exact hmap' ▸ hk
  · rw [hphase]
    exact False.elim

theorem inv_remove (h : Inv s) (hmap : s.pending e = some map) (hzero : s.copies (e, k) = 0)
    (hwaits : ∀ c, s.calls e k = some c → c.phase.Waiting → c.phase.Past ∧ c.ret ≠ none) :
    Inv { s with pending := update s.pending e (some (update map (idOf e k) none)) } := by
  refine inv_setPending h hmap (fun id k' hk' => ?_) fun k' hk' => ?_
  · by_cases hi : id = idOf e k
    · subst hi
      rw [update_self] at hk'
      cases hk'
    · rw [update_of_ne hi] at hk'
      exact h.settled.ids e map id k' hmap hk'
  · by_cases hk : k' = k
    · subst hk
      exact .inr ⟨hzero, hwaits⟩
    · left
      rw [update_of_ne fun heq => hk (idOf_inj heq).2, hk']

theorem inv_forget (h : Inv s) (hc : s.calls e k = some c) (hphase : c.phase = .unsent) :
    Inv { s.setPhase e k (.returned none) with
      pending := update s.pending e ((s.pending e).map fun map => update map c.msgId none) } := by
  have hreturned : Inv (s.setPhase e k (.returned none)) := inv_return h hc nofun
  cases hmap : s.pending e with
  | none =>
    have hsame : update s.pending e none = s.pending := by
      rw [← hmap, update_eq_self]
    rw [Option.map_none, hsame]
    exact hreturned
  | some map =>
    rw [Option.map_some, (h.numbered.ids e k c hc).1]
    have hzero : s.copies (e, k) = 0 := copies_eq_zero h hc (by rw [hphase]; exact id)
    refine inv_remove hreturned hmap hzero fun c' hc' hw => ?_
    rw [State.setPhase, State.modifyCall_self, hc] at hc'
    obtain rfl := Option.some.inj hc'
    exact hw.elim

theorem inv_send (h : Inv s) (hc : s.calls e k = some c) (hphase : c.phase = .registered) :
    Inv { s.setPhase e k .sent with
      queue := update s.queue e (s.queue e ++ [⟨c.msgId, c.msg, .request e k⟩]) } := by
  have hwaiting : c.phase.Waiting := by
    rw [hphase]
    trivial
  have hnp : ¬ c.phase.Past := by
    rw [hphase]
    exact id
  have hsent : Inv (s.setPhase e k .sent) := inv_wait h hc hwaiting nofun fun _ => trivial
  have hzero := copies_eq_zero h hc hnp
  have hready := (h.settled.waits e k c hc hwaiting).ready hnp
  have hcopies : ∀ p, State.copies { s.setPhase e k .sent with
      queue := update s.queue e (s.queue e ++ [⟨c.msgId, c.msg, .request e k⟩]) } p =
      s.copies p + if (e, k) = p then 1 else 0 := by
    intro p
    simp only [State.copies_eq _ e, State.copiesAt, State.setPhase, State.modifyCall, update_self,
      update_of_ne (Side.peer_ne e), List.countP_append, List.countP_cons, List.countP_nil,
      Origin.about]
    by_cases hp : (e, k) = p
    · simp only [hp, decide_true, if_true]
      omega
    · simp only [hp, decide_false, Bool.false_eq_true, if_false]
      omega
  refine ⟨⟨hsent.numbered.next, hsent.numbered.ids⟩, ⟨fun e' m hm => ?_, hsent.placed.served⟩,
    hsent.settled.congr rfl rfl rfl, ⟨fun p => ?_, fun e' k' hpos => ?_, fun e' k' hpos => ?_⟩⟩
  · by_cases he : e' = e
    · subst he
      simp only [update_self, List.mem_append, List.mem_singleton] at hm
      rcases hm with (hm | rfl) | hm
      · exact h.placed.sent e' m (List.mem_append_left _ hm)
      · exact .inl ⟨k, rfl, (h.numbered.ids e' k c hc).1⟩
      · exact h.placed.sent e' m (List.mem_append_right _ hm)
    · simp only [update_of_ne he] at hm
      exact h.placed.sent e' m hm
  · rw [hcopies]
    split
    · next hp =>
        subst hp
        omega
    · exact h.once.once p
  · rw [hcopies] at hpos
    by_cases hp : (e, k) = (e', k')
    · obtain ⟨rfl, rfl⟩ := Prod.mk.inj hp
      exact ⟨{ c with phase := .sent }, by
        rw [State.setPhase, State.modifyCall_self, hc, Option.map_some], trivial⟩
    · rw [if_neg hp] at hpos
      exact hsent.once.past e' k' hpos
  · rw [hcopies] at hpos
    by_cases hp : (e, k) = (e', k')
    · obtain ⟨rfl, rfl⟩ := Prod.mk.inj hp
      exact hready
    · rw [if_neg hp] at hpos
      exact h.once.pending e' k' hpos

theorem inv_complete (h : Inv s) {ret : Ret S}
    (hret : ∀ m, ret = .message m → m.origin = .response (.request e k)) :
    Inv (s.complete e k ret) := by
  refine ⟨h.numbered.modifyCall fun _ => rfl, ⟨h.placed.sent, h.placed.served⟩,
    h.settled.modifyCall (fun c hc hw => ⟨nofun, ?_⟩) fun c m hc hm => ?_,
    h.once.modifyCall fun _ _ hp => hp⟩
  · exact (h.settled.waits e k c hc hw).ready
  · rcases hm with hm | hm
    · exact hret m (Option.some.inj hm)
    · exact h.settled.rets e k c m hc (.inr hm)

theorem response_of_pending (h : Inv s)
    (hwire : s.wire e.peer = m :: wire) (hmap : s.pending e = some map)
    (hk : map m.msgId = some k) : m.msgId = idOf e k ∧ m.origin = .response (.request e k) := by
  have hid := h.settled.ids e map _ k hmap hk
  have hsent := h.placed.sent e.peer m (List.mem_append_right _ (hwire ▸ List.mem_cons_self))
  rw [Side.peer_peer] at hsent
  rcases hsent with ⟨k', -, hm⟩ | ⟨k', horigin, hm⟩
  · exact absurd (idOf_inj (hm.symm.trans hid)).1 (Side.peer_ne e)
  · refine ⟨hid, ?_⟩
    rw [horigin, (idOf_inj (hm.symm.trans hid)).2]

theorem inv_dispatchResponse (h : Inv s) (hwire : s.wire e.peer = m :: wire)
    (hmap : s.pending e = some map)
    (hk : map m.msgId = some k) :
    Inv { (s.complete e k (.message m)).setWire e wire with
      pending := update s.pending e (some (update map m.msgId none)) } := by
  obtain ⟨hid, horigin⟩ := response_of_pending h hwire hmap hk
  have hcompleted : Inv (s.complete e k (.message m)) :=
    inv_complete h fun m' hm => (by cases hm; exact horigin)
  have hread : Inv ((s.complete e k (.message m)).setWire e wire) := inv_read hcompleted hwire
  have habout : m.origin.about = (e, k) := by
    rw [horigin]
    rfl
  have hcopies : s.copies (e, k) = ((s.complete e k (.message m)).setWire e wire).copies (e, k) + 1 := by
    simp only [State.copies_eq _ e, State.copiesAt, State.setWire, State.complete, State.modifyCall,
      update_self, update_of_ne (Side.peer_ne e).symm, hwire, List.countP_cons, habout, decide_true,
      if_true]
    omega
  have honce := h.once.once (e, k)
  rw [hid]
  refine inv_remove hread hmap (by omega) fun c hc hw => ?_
  obtain ⟨c₀, hc₀, hpast⟩ := h.once.past e k (by omega)
  have hc' : (s.complete e k (.message m)).calls e k = some c := hc
  rw [State.complete, State.modifyCall_self, hc₀] at hc'
  obtain rfl := Option.some.inj hc'
  exact ⟨hpast, nofun⟩

theorem Inv.exists_pending (h : Inv s) (hf : ∀ map, s.reader e ≠ .failing map)
    (he : s.reader e ≠ .exited) : ∃ map, s.pending e = some map := by
  refine Option.ne_none_iff_exists'.mp fun hnone => ?_
  rcases (h.settled.reader e).mp hnone with ⟨map, hr⟩ | hr
  · exact hf map hr
  · exact he hr

theorem asks_of_not_pending (h : Inv s)
    (hr : s.reader e = .running) (hwire : s.wire e.peer = m :: wire)
    (hk : (s.pending e).bind (· m.msgId) = none) : Asks e.peer m := by
  have hsent := h.placed.sent e.peer m (List.mem_append_right _ (hwire ▸ List.mem_cons_self))
  rw [Side.peer_peer] at hsent
  rcases hsent with hasks | ⟨k, horigin, hm⟩
  · exact hasks
  have hpos : 0 < s.copies (e, k) := by
    simp only [State.copies_eq _ e, State.copiesAt, hwire, List.countP_cons, horigin, Origin.about,
      decide_true, if_true]
    omega
  obtain ⟨map, hmap⟩ := h.exists_pending (fun _ hf => by cases hr.symm.trans hf)
    fun hf => by cases hr.symm.trans hf
  rw [hmap, Option.bind_some, hm, h.once.pending e k hpos map hmap] at hk
  cases hk

theorem inv_setReader (h : Inv s) {reader : Reader}
    (hreader : s.pending e = none ↔ (∃ map, reader = .failing map) ∨ reader = .exited)
    (hkeep : ∀ k map, s.reader e = .failing map → map (idOf e k) = some k →
      (∃ map', reader = .failing map' ∧ map' (idOf e k) = some k) ∨
        ∀ c, s.calls e k = some c → c.ret ≠ none) :
    Inv { s with reader := update s.reader e reader } := by
  refine ⟨⟨h.numbered.next, h.numbered.ids⟩, ⟨h.placed.sent, h.placed.served⟩,
    ⟨h.settled.ids, fun e' => ?_, fun e' k c hc hw => ⟨fun hret => ?_,
      (h.settled.waits e' k c hc hw).ready⟩, h.settled.rets⟩,
    ⟨h.once.once, h.once.past, h.once.pending⟩⟩
  · by_cases he : e' = e
    · subst he
      simpa only [update_self] using hreader
    · simpa only [update_of_ne he] using h.settled.reader e'
  · rcases (h.settled.waits e' k c hc hw).held hret with hpending | ⟨map, hmap, hk⟩
    · exact .inl hpending
    · by_cases he : e' = e
      · subst he
        rcases hkeep k map hmap hk with ⟨map', hmap', hk'⟩ | hnot
        · exact .inr ⟨map', by simpa only [update_self] using hmap', hk'⟩
        · exact absurd hret (hnot c hc)
      · exact .inr ⟨map, by simpa only [update_of_ne he] using hmap, hk⟩

theorem inv_take (h : Inv s) (hr : s.reader e = .cancelling) :
    Inv { s with
      reader := update s.reader e (.failing ((s.pending e).getD fun _ => none))
      pending := update s.pending e none } := by
  obtain ⟨map, hmap⟩ := h.exists_pending (fun _ hf => by cases hr.symm.trans hf)
    fun hf => by cases hr.symm.trans hf
  rw [hmap, Option.getD_some]
  refine ⟨⟨h.numbered.next, h.numbered.ids⟩, ⟨h.placed.sent, h.placed.served⟩,
    ⟨fun e' map' id k hmap' => ?_, fun e' => ?_, fun e' k c hc hw => ⟨fun hret => ?_,
      fun hnp map' hmap' => ?_⟩, h.settled.rets⟩,
    ⟨h.once.once, h.once.past, fun e' k hpos map' hmap' => ?_⟩⟩
  · by_cases he : e' = e
    · subst he
      simp only [update_self, reduceCtorEq] at hmap'
    · simp only [update_of_ne he] at hmap'
      exact h.settled.ids e' map' id k hmap'
  · by_cases he : e' = e
    · subst he
      simp only [update_self, true_iff]
      exact .inl ⟨map, rfl⟩
    · simpa only [update_of_ne he] using h.settled.reader e'
  · by_cases he : e' = e
    · subst he
      rcases (h.settled.waits e' k c hc hw).held hret with ⟨map₀, hmap₀, hk⟩ | ⟨map₀, hmap₀, hk⟩
      · obtain rfl := Option.some.inj (hmap.symm.trans hmap₀)
        exact .inr ⟨map, update_self _ _ _, hk⟩
      · rw [hr] at hmap₀
        cases hmap₀
    · rcases (h.settled.waits e' k c hc hw).held hret with ⟨map₀, hmap₀, hk⟩ | ⟨map₀, hmap₀, hk⟩
      · exact .inl ⟨map₀, by simpa only [update_of_ne he] using hmap₀, hk⟩
      · exact .inr ⟨map₀, by simpa only [update_of_ne he] using hmap₀, hk⟩
  · by_cases he : e' = e
    · subst he
      simp only [update_self, reduceCtorEq] at hmap'
    · simp only [update_of_ne he] at hmap'
      exact (h.settled.waits e' k c hc hw).ready hnp map' hmap'
  · by_cases he : e' = e
    · subst he
      simp only [update_self, reduceCtorEq] at hmap'
    · simp only [update_of_ne he] at hmap'
      exact h.once.pending e' k hpos map' hmap'

theorem inv_fail (h : Inv s) {id : Nat} (hr : s.reader e = .failing map) (hk : map id = some k) :
    Inv { s.complete e k .connectionClosed with
      reader := update s.reader e (.failing (update map id none)) } := by
  have hcompleted : Inv (s.complete e k .connectionClosed) := inv_complete h nofun
  refine inv_setReader hcompleted ?_ fun k' map₀ hmap₀ hk' => ?_
  · refine iff_of_true ?_ (.inl ⟨_, rfl⟩)
    exact (h.settled.reader e).mpr (.inl ⟨map, hr⟩)
  · obtain rfl : map = map₀ := Reader.failing.inj (hr.symm.trans hmap₀)
    by_cases hid : idOf e k' = id
    · right
      rw [hid, hk] at hk'
      obtain rfl := Option.some.inj hk'
      intro c hc hret
      rw [State.complete, State.modifyCall_self] at hc
      obtain ⟨c₀, -, rfl⟩ := Option.map_eq_some_iff.mp hc
      cases hret
    · exact .inl ⟨_, rfl, by rw [update_of_ne hid, hk']⟩

theorem inv_stopReading (h : Inv s) (hr : s.reader e = .running) :
    Inv { s with
      reader := update s.reader e .cancelling
      cancelled := update s.cancelled e true } := by
  have hreader := h.settled.reader e
  rw [hr] at hreader
  have hset : Inv { s with reader := update s.reader e .cancelling } := by
    refine inv_setReader h ?_ fun k map hmap => ?_
    · rw [hreader]
      simp
    · rw [hr] at hmap
      cases hmap
  exact inv_traffic hset rfl rfl rfl rfl rfl ⟨hset.placed.sent, hset.placed.served⟩
    fun _ => Nat.le_refl _

theorem inv_exit (h : Inv s) (hr : s.reader e = .failing map)
    (hmap : ∀ id, map id = none) : Inv { s with reader := update s.reader e .exited } := by
  refine inv_setReader h (iff_of_true ?_ (.inr rfl)) fun k map₀ hmap₀ hk => ?_
  · exact (h.settled.reader e).mpr (.inl ⟨map, hr⟩)
  · obtain rfl : map = map₀ := Reader.failing.inj (hr.symm.trans hmap₀)
    rw [hmap] at hk
    cases hk

end

theorem inv_start : Inv (State.start : State S) where
  numbered := by
    refine ⟨fun e => ?_, nofun⟩
    cases e <;> rfl
  placed := ⟨nofun, nofun⟩
  settled := by
    refine ⟨fun e map id k hmap hk => ?_, fun e => ?_, nofun, nofun⟩
    · obtain rfl := Option.some.inj hmap
      cases hk
    · simp [State.start]
  once := ⟨fun _ => Nat.zero_le _, nofun, nofun⟩

variable {read : S → Except Status R}

theorem inv_step {permits : Nat} {s s' : State S} {l : Label}
    (h : Inv s) (hfew : FewCalls s l) (hstep : Step read permits s l s') : Inv s' := by
  cases hstep with
  | call e msg => exact inv_call h hfew msg
  | register hc hphase hmap => exact inv_register h hc hphase hmap
  | registerClosed hc hphase hmap => exact inv_return h hc nofun
  | send hc hphase hw => exact inv_send h hc hphase
  | sendClosed hc hphase hw =>
    exact inv_wait h hc (by rw [hphase]; trivial) nofun (by rw [hphase]; exact False.elim)
  | forget hc hphase => exact inv_forget h hc hphase
  | receive hc hphase hret => exact inv_return h hc fun r hr => Option.some.inj hr ▸ hret
  | receiveClosed hc hphase hret hgone => exact inv_return h hc nofun
  | drop hc hphase =>
    refine inv_wait h hc ?_ nofun fun _ => trivial
    rcases hphase with hphase | hphase <;> rw [hphase] <;> trivial
  | write hq hw hopen => exact inv_write h hq
  | stopWriting hw hstop => exact inv_closeWriter h
  | lose hwire => exact inv_lose h hwire
  | dispatchResponse hr hwire hmap hk => exact inv_dispatchResponse h hwire hmap hk
  | dispatchRequest hr hwire hk hread =>
    exact inv_spawn h hwire (.inr ⟨rfl, asks_of_not_pending h hr hwire hk⟩)
  | dispatchError hr hwire hk hread => exact inv_read h hwire
  | stopReading hr => exact inv_stopReading h hr
  | take hr => exact inv_take h hr
  | fail hr hk => exact inv_fail h hr hk
  | exit hr hmap => exact inv_exit h hr hmap
  | cancel e =>
    exact inv_traffic h rfl rfl rfl rfl rfl ⟨h.placed.sent, h.placed.served⟩
      fun _ => Nat.le_refl _
  | permit ht hpermits => exact inv_permit h ht
  | endTask ht hend => exact inv_endTask h ht
  | respond ht hw response => exact inv_finish h ht (.inr ⟨response, rfl⟩)

/-! ## Calls return what was meant for them -/

structure Correlated (read : S → Except Status R) (s : State S) : Prop where
  /-- a call returns the response to its own request -/
  own : ∀ e k c ret r, s.calls e k = some c → c.phase = .returned ret →
    result read ret = .ok (some r) →
      ∃ m, ret = some (.message m) ∧ m.origin = .response (.request e k) ∧ read m.msg = .ok r
  /-- nothing else completes it -/
  completed : ∀ e k c m, s.calls e k = some c → c.ret = some (.message m) →
    m.origin = .response (.request e k)
  /-- the handler sees requests of the other end -/
  handled : ∀ e, ∀ t ∈ s.tasks e, ∃ k, t.request.origin = .request e.peer k
  /-- a registered call has its outcome when the reader has exited -/
  outcome : ∀ e k c, s.reader e = .exited → s.calls e k = some c →
    c.phase = .registered ∨ c.phase = .sent → c.ret ≠ none
  /-- and no other call can be registered -/
  closed : ∀ e, s.reader e = .exited → s.pending e = none

theorem correlated_of_inv {s : State S} (h : Inv s) : Correlated read s where
  own e k c ret r hc hphase hret := by
    cases ret with
    | none => cases hret
    | some ret =>
      cases ret with
      | connectionClosed => cases hret
      | message m =>
        refine ⟨m, rfl, h.settled.rets e k c m hc (.inr hphase), ?_⟩
        cases hread : read m.msg with
        | error status =>
          rw [result, hread] at hret
          cases hret
        | ok r' =>
          rw [result, hread] at hret
          cases hret
          rfl
  completed e k c m hc hret := h.settled.rets e k c m hc (.inl hret)
  handled e t ht := by
    obtain ⟨k, horigin, -⟩ := h.placed.served e t ht
    exact ⟨k, horigin⟩
  outcome e k c hr hc hphase hret := by
    have hw : c.phase.Waiting := by
      rcases hphase with hphase | hphase <;> rw [hphase] <;> trivial
    rcases (h.settled.waits e k c hc hw).held hret with ⟨map, hmap, -⟩ | ⟨map, hmap, -⟩
    · rw [(h.settled.reader e).mpr (.inr hr)] at hmap
      cases hmap
    · rw [hr] at hmap
      cases hmap
  closed e hr := (h.settled.reader e).mpr (.inr hr)

theorem registered_of_modifyCall {s : State S} {e e' : Side} {k k' : Nat} {f : Call S → Call S}
    {c' : Call S} (hc' : (s.modifyCall e' k' f).calls e k = some c')
    (hphase : c'.phase = .registered)
    (hf : e = e' → ∀ c, (f c).phase = .registered → c.phase = .registered) :
    ∃ c, s.calls e k = some c ∧ c.phase = .registered := by
  rcases State.modifyCall_cases hc' with ⟨rfl, rfl, c, hc, rfl⟩ | hc
  · exact ⟨c, hc, hf rfl c hphase⟩
  · exact ⟨c', hc, hphase⟩

theorem registered_of_closed {permits : Nat} {s s' : State S}
    {l : Label} (hstep : Step read permits s l s') {e : Side} (hclosed : s.pending e = none) {k : Nat}
    {c' : Call S} (hc' : s'.calls e k = some c') (hphase : c'.phase = .registered) :
    ∃ c, s.calls e k = some c ∧ c.phase = .registered := by
  cases hstep with
  | call e' msg =>
    by_cases he : e = e'
    · subst he
      simp only [update_self] at hc'
      by_cases hk : k = s.begun e
      · subst hk
        rw [update_self] at hc'
        obtain rfl := Option.some.inj hc'
        cases hphase
      · rw [update_of_ne hk] at hc'
        exact ⟨c', hc', hphase⟩
    · simp only [update_of_ne he] at hc'
      exact ⟨c', hc', hphase⟩
  | register hc hbegun hmap =>
    refine registered_of_modifyCall hc' hphase fun he => ?_
    subst he
    rw [hclosed] at hmap
    cases hmap
  | dispatchResponse hr hwire hmap hk => exact registered_of_modifyCall hc' hphase fun _ _ => id
  | fail hr hk => exact registered_of_modifyCall hc' hphase fun _ _ => id
  | registerClosed => exact registered_of_modifyCall hc' hphase fun _ _ => nofun
  | send => exact registered_of_modifyCall hc' hphase fun _ _ => nofun
  | sendClosed => exact registered_of_modifyCall hc' hphase fun _ _ => nofun
  | forget => exact registered_of_modifyCall hc' hphase fun _ _ => nofun
  | receive => exact registered_of_modifyCall hc' hphase fun _ _ => nofun
  | receiveClosed => exact registered_of_modifyCall hc' hphase fun _ _ => nofun
  | drop => exact registered_of_modifyCall hc' hphase fun _ _ => nofun
  | _ => exact ⟨c', hc', hphase⟩

/-- Over every run of the two ends, with fewer than `2 ^ 31` calls each. -/
theorem correlated (read : S → Except Status R) (permits : Nat) (s : State S)
    (h : ((proxies read permits).only FewCalls).Reachable s) :
    Correlated read s ∧ ∀ l s', Step read permits s l s' → ∀ e k c', s.reader e = .exited →
      s'.calls e k = some c' → c'.phase = .registered →
        ∃ c, s.calls e k = some c ∧ c.phase = .registered := by
  have hinv : Inv s := by
    refine h.invariant ?_ ?_
    · rintro _ rfl
      exact inv_start
    · rintro s l s' hs ⟨hfew, hstep⟩
      exact inv_step hs hfew hstep
  have hcorrelated : Correlated read s := correlated_of_inv hinv
  exact ⟨hcorrelated, fun l s' hstep e k c' hr hc' hphase =>
    registered_of_closed hstep (hcorrelated.closed e hr) hc' hphase⟩

theorem reachable_step {permits : Nat} {s s' : State S} {l : Label}
    (h : ((proxies read permits).only FewCalls).Reachable s) (hfew : FewCalls s l)
    (hstep : Step read permits s l s') : ((proxies read permits).only FewCalls).Reachable s' :=
  .step l h ⟨hfew, hstep⟩

theorem reachable_other {permits : Nat} {s s' : State S}
    (h : ((proxies read permits).only FewCalls).Reachable s) (hstep : Step read permits s .other s') :
    ((proxies read permits).only FewCalls).Reachable s' := by
  have hfew : FewCalls s .other := trivial
  exact reachable_step h hfew hstep

/-- The client asks 7 and the server responds 8. -/
theorem answered_correlated : ∃ (s : State Nat) (c : Call Nat) (m : Msg Nat),
    ((proxies (Except.ok : Nat → Except Status Nat) 1).only FewCalls).Reachable s ∧
      s.calls .client 0 = some c ∧ c.phase = .returned (some (.message m)) ∧ m.msg = 8 ∧
      Correlated (Except.ok : Nat → Except Status Nat) s := by
  have hstart : ((proxies (Except.ok : Nat → Except Status Nat) 1).only FewCalls).Reachable .start :=
    .start rfl
  have hfew : FewCalls (State.start : State Nat) (.call .client) :=
    show 0 + 1 < 2 ^ 31 by decide
  have h := reachable_step hstart hfew (.call .client 7)
  have h := reachable_other h (.register (e := .client) (k := 0) rfl rfl rfl)
  have h := reachable_other h (.send (e := .client) (k := 0) rfl rfl rfl)
  have h := reachable_other h (.write (e := .client) rfl rfl rfl)
  have h := reachable_other h (.dispatchRequest (e := .server) rfl rfl rfl rfl)
  have h := reachable_other h (.permit (e := .server) (l := []) rfl (by decide))
  have h := reachable_other h (.respond (e := .server) (l := []) rfl rfl 8)
  have h := reachable_other h (.write (e := .server) rfl rfl rfl)
  have h := reachable_other h (.dispatchResponse (e := .client) rfl rfl rfl rfl)
  have h := reachable_other h (.receive (e := .client) (k := 0) rfl rfl rfl)
  exact ⟨_, _, _, h, rfl, rfl, rfl, (correlated _ 1 _ h).1⟩

end Hardy.Proto
