import Hardy.Routing.Rib

/-!
# Withdrawing routes

A withdrawal takes entries out of the table, so a lookup of one endpoint never
starts to find something (`RouteTable.findRecurse_isSome_mono`).  The decision
for a bundle can: a `Reflect` entry sends the lookup on to the previous node,
and hides the routes behind it where that node is unreachable (`Uncovers`).
-/

namespace Hardy.Routing

section

variable [Globs]

/-! ## The decision for a bundle -/

omit [Globs] in
theorem selectPeer_ne_none {ecmpHash : Eid × Eid × Option Nat → Nat} {peers : List (Nat × Eid)}
    {b : Subject} (h : peers ≠ []) : selectPeer ecmpHash peers b ≠ none := by
  have hlen := List.length_pos_iff.mpr h
  simp only [selectPeer, ne_eq, Option.map_eq_none_iff, List.getElem?_eq_none_iff, not_le]
  split
  · exact Nat.mod_lt _ hlen
  · exact hlen

namespace RouteTable

variable {t t' : RouteTable} {b : Subject}

theorem resolve_proper {r : LookupResult} (h : t.resolve b = some r) :
    r ≠ .forwardEcmp [] ∧ r ≠ .reflect := by
  rw [resolve] at h
  split at h
  · have hr := findRecurse_proper h
    exact ⟨hr.peers, fun h => Bool.false_ne_true (hr.reflected h)⟩
  · rename_i hne
    exact ⟨(findRecurse_proper h).peers, fun h' => hne (h' ▸ h)⟩

/-- What hid a usable route of `t` is gone in `t'`. -/
structure Uncovers (t t' : RouteTable) (b : Subject) : Prop where
  reflects : t.findRecurse b.destination true [] = some .reflect
  unreachable : t.findRecurse b.previous false [] = none
  usable : ∃ r, t'.findRecurse b.destination true [] = some r ∧ r ≠ .reflect

theorem resolve_uncovers (hsub : ∀ p e, t'.Has p e → t.Has p e) :
    t.resolve b = none ∧ t'.resolve b ≠ none ↔ Uncovers t t' b := by
  have hmono : ∀ {dest reflect}, t.findRecurse dest reflect [] = none →
      t'.findRecurse dest reflect [] = none := by
    intro dest reflect h
    by_contra hne
    have := findRecurse_isSome_mono hsub (Option.isSome_iff_ne_none.mpr hne)
    simp [h] at this
  constructor
  · rintro ⟨hbefore, hafter⟩
    rw [resolve] at hbefore
    split at hbefore
    · rename_i hreflects
      refine ⟨hreflects, hbefore, ?_⟩
      rw [resolve] at hafter
      split at hafter
      · exact absurd (hmono hbefore) hafter
      · rename_i hne
        obtain ⟨r, hr⟩ := Option.ne_none_iff_exists'.mp hafter
        exact ⟨r, hr, fun h => hne (h ▸ hr)⟩
    · refine absurd ?_ hafter
      rw [resolve, hmono hbefore]
  · rintro ⟨hreflects, hunreachable, r, hr, hne⟩
    constructor
    · rw [resolve, hreflects]
      exact hunreachable
    · rw [resolve]
      split
      · rename_i h
        exact absurd (Option.some.inj (hr.symm.trans h)) hne
      · rw [hr]
        nofun

end RouteTable

namespace Rib

variable {σ : Type} {r : Rib σ} {b : Subject}

theorem find_eq_none : r.find b = none ↔ r.table.resolve b = none := by
  constructor
  · intro h
    cases hres : r.table.resolve b with
    | none => rfl
    | some res =>
      have hp := RouteTable.resolve_proper hres
      rw [find, hres] at h
      cases res with
      | forwardEcmp peers =>
        exact absurd h (selectPeer_ne_none fun h => hp.1 (h ▸ rfl))
      | reflect => exact absurd rfl hp.2
      | _ => cases h
  · intro h
    rw [find, h]

end Rib

/-! ## Resets -/

namespace Rib

variable {σ : Type} [QueueResets σ] {r r' r'' : Rib σ}

open QueueResets

/-- Nothing but the store differs. -/
structure Frame (r r' : Rib σ) : Prop where
  table : r'.table = r.table
  wakeups : r'.wakeups = r.wakeups

structure Same (r r' : Rib σ) : Prop extends Frame r r' where
  queued : ∀ p, queued p r'.store = queued p r.store
  inFlight : ∀ p, inFlight p r'.store = inFlight p r.store

omit [Globs] [QueueResets σ] in
theorem Frame.trans (h : Frame r r') (h' : Frame r' r'') : Frame r r'' :=
  ⟨h'.table.trans h.table, h'.wakeups.trans h.wakeups⟩

omit [Globs] in
theorem Same.refl (r : Rib σ) : Same r r := ⟨⟨rfl, rfl⟩, fun _ => rfl, fun _ => rfl⟩

omit [Globs] in
theorem Same.trans (h : Same r r') (h' : Same r' r'') : Same r r'' :=
  ⟨h.toFrame.trans h'.toFrame, fun p => (h'.queued p).trans (h.queued p),
    fun p => (h'.inFlight p).trans (h.inFlight p)⟩

/-- The reset moves a bundle exactly where `H` holds, and does nothing where it
moves none. -/
structure Sweeps (reset : Rib σ → Bool × Rib σ) (H : Rib σ → Prop) : Prop where
  moved : ∀ r, (reset r).1 = true ↔ H r
  quiet : ∀ r, (reset r).1 = false → Same r (reset r).2
  frame : ∀ r, Frame r (reset r).2

section

omit [Globs]

theorem Sweeps.same {reset : Rib σ → Bool × Rib σ} {H : Rib σ → Prop} (h : Sweeps reset H)
    (hr : ¬H r) : (reset r).1 = false ∧ Same r (reset r).2 := by
  have hfalse : (reset r).1 = false := Bool.eq_false_iff.mpr fun ht => hr ((h.moved r).mp ht)
  exact ⟨hfalse, h.quiet r hfalse⟩

omit [QueueResets σ] in
theorem resetAll_cons {α : Type} (reset : Rib σ → α → Bool × Rib σ) (r : Rib σ) (k : α)
    (keys : List α) :
    resetAll reset r (k :: keys) =
      ((reset r k).1 || (resetAll reset (reset r k).2 keys).1,
        (resetAll reset (reset r k).2 keys).2) := by
  have hacc : ∀ (keys : List α) (b : Bool) (r : Rib σ),
      keys.foldl (fun acc key => (acc.1 || (reset acc.2 key).1, (reset acc.2 key).2)) (b, r) =
      (b || (resetAll reset r keys).1, (resetAll reset r keys).2) := by
    intro keys
    induction keys with
    | nil => simp [resetAll]
    | cons k keys ih =>
      intro b r
      rw [resetAll, List.foldl_cons, List.foldl_cons]
      simp only [ih, Bool.false_or, Bool.or_assoc]
  rw [resetAll, List.foldl_cons]
  simp only [hacc, Bool.false_or]

theorem Sweeps.all {α : Type} {reset : Rib σ → α → Bool × Rib σ} {H : α → Rib σ → Prop}
    (h : ∀ k, Sweeps (reset · k) (H k)) (hsame : ∀ k r r', Same r r' → (H k r' ↔ H k r))
    (keys : List α) : Sweeps (resetAll reset · keys) fun r => ∃ k ∈ keys, H k r := by
  induction keys with
  | nil => exact ⟨fun r => by simp [resetAll], fun r _ => .refl r, fun r => ⟨rfl, rfl⟩⟩
  | cons k keys ih =>
    refine ⟨fun r => ?_, fun r hr => ?_, fun r => ?_⟩
    · rw [resetAll_cons, Bool.or_eq_true, (h k).moved, ih.moved, List.exists_mem_cons_iff]
      by_cases hk : H k r
      · simp [hk]
      · have hs := ((h k).same hk).2
        simp only [hsame _ _ _ hs]
    · rw [resetAll_cons, Bool.or_eq_false_iff] at hr
      rw [resetAll_cons]
      exact ((h k).quiet r hr.1).trans (ih.quiet _ hr.2)
    · rw [resetAll_cons]
      exact ((h k).frame r).trans (ih.frame _)

end

def Queued (peer : Nat) (r : Rib σ) : Prop := queued peer r.store = true

def Serves (peer : Nat) (r : Rib σ) : Prop := Queued peer r ∨ inFlight peer r.store = true

/-- The next hop leads to a peer with bundles in its queue. -/
def QueuedVia (via : Eid) (r : Rib σ) : Prop :=
  ∃ peers, r.table.findPeers via = some peers ∧ ∃ p ∈ peers, Queued p r

section

omit [Globs]

theorem sweeps_resetPeerQueue (p : Nat) : Sweeps (fun r : Rib σ => r.resetPeerQueue p) (Queued p) where
  moved r := by rw [resetPeerQueue, Queued, ← resetPeerQueue_count]
  quiet r hr := by
    have hp : queued p r.store = false := by rw [← resetPeerQueue_count]; exact hr
    refine ⟨⟨rfl, rfl⟩, fun q => ?_, fun q => inFlight_resetPeerQueue p q r.store⟩
    refine (queued_resetPeerQueue p q r.store).trans ?_
    by_cases h : q = p
    · simp [h, hp]
    · simp [h]
  frame _ := ⟨rfl, rfl⟩

theorem sweeps_resetPeerAckPending (p : Nat) :
    Sweeps (fun r : Rib σ => r.resetPeerAckPending p) fun r => inFlight p r.store = true where
  moved r := by rw [resetPeerAckPending, ← resetPeerAckPending_count]
  quiet r hr := by
    have hp : inFlight p r.store = false := by rw [← resetPeerAckPending_count]; exact hr
    refine ⟨⟨rfl, rfl⟩, fun q => queued_resetPeerAckPending p q r.store, fun q => ?_⟩
    refine (inFlight_resetPeerAckPending p q r.store).trans ?_
    by_cases h : q = p
    · simp [h, hp]
    · simp [h]
  frame _ := ⟨rfl, rfl⟩

theorem sweeps_resetPeerQueues (peers : List Nat) :
    Sweeps (fun r : Rib σ => r.resetPeerQueues peers) fun r => ∃ p ∈ peers, Queued p r :=
  .all sweeps_resetPeerQueue (fun p _ _ hs => by rw [Queued, Queued, hs.queued]) peers

end

theorem sweeps_resetVia (via : Eid) : Sweeps (fun r : Rib σ => r.resetVia via) (QueuedVia via) where
  moved r := by
    rw [resetVia, QueuedVia]
    split
    · rename_i peers h
      rw [(sweeps_resetPeerQueues peers).moved, h]
      simp
    · rename_i h
      simp [h]
  quiet r hr := by
    rw [resetVia] at hr ⊢
    split at hr
    · exact (sweeps_resetPeerQueues _).quiet r hr
    · exact .refl r
  frame r := by
    rw [resetVia]
    split
    · exact (sweeps_resetPeerQueues _).frame r
    · exact ⟨rfl, rfl⟩

omit [Globs] in
theorem sweeps_resetPeer (p : Nat) : Sweeps (fun r : Rib σ => r.resetPeer p) (Serves p) where
  moved r := by
    rw [resetPeer, Bool.or_eq_true, (sweeps_resetPeerQueue p).moved,
      (sweeps_resetPeerAckPending p).moved, Serves]
    refine or_congr_right' fun hq => ?_
    rw [((sweeps_resetPeerQueue p).same hq).2.inFlight]
  quiet r hr := by
    rw [resetPeer, Bool.or_eq_false_iff] at hr
    exact ((sweeps_resetPeerQueue p).quiet r hr.1).trans
      ((sweeps_resetPeerAckPending p).quiet _ hr.2)
  frame r := ((sweeps_resetPeerQueue p).frame r).trans ((sweeps_resetPeerAckPending p).frame _)

end Rib

/-! ## Withdrawals -/

inductive Withdrawal where
  | remove (pattern : EidPattern) (source : String) (action : Action) (priority : Nat)
  | removeBySource (source : String)

namespace Rib

variable {σ : Type} [QueueResets σ]

def withdraw (r : Rib σ) : Withdrawal → Bool × Rib σ
  | .remove pattern source action priority => r.remove pattern source action priority
  | .removeBySource source =>
    ((r.table.removeBySource source).1.removedCount != 0, r.removeBySource source)

omit [QueueResets σ] in
/-- The table that a withdrawal leaves. -/
def remaining (r : Rib σ) : Withdrawal → RouteTable
  | .remove pattern source action priority =>
    (r.table.remove (r.expandPattern pattern) ⟨r.expandAction action, source⟩ priority).2
  | .removeBySource source => (r.table.removeBySource source).2

/-- The routes go together with bundles that were on their way over them, or
with a service. -/
def Frees (r : Rib σ) (w : Withdrawal) : Prop :=
  let left := { r with table := r.remaining w }
  match w with
  | .remove _ _ action _ =>
    match r.expandAction action with
    | .route (.via via) => QueuedVia via left
    | .internal (.forward peer) => Serves peer left
    | .internal (.localService _) => True
    | _ => False
  | .removeBySource source =>
    let removed := (r.table.removeBySource source).1
    removed.hasLocal = true ∨ (∃ via ∈ removed.vias, QueuedVia via left) ∨
      ∃ peer ∈ removed.forwardPeers, Serves peer left

theorem afterRemoval_sweeps (action : Action) :
    Sweeps (fun r : Rib σ => r.afterRemoval action) fun r =>
      match action with
      | .route (.via via) => QueuedVia via r
      | .internal (.forward peer) => Serves peer r
      | .internal (.localService _) => True
      | _ => False := by
  rcases action with (via | _ | _) | (peer | service | _)
  case route.via => exact sweeps_resetVia via
  case internal.forward => exact sweeps_resetPeer peer
  case internal.localService =>
    exact ⟨fun _ => by simp [afterRemoval], fun _ h => by simp [afterRemoval] at h, fun _ => ⟨rfl, rfl⟩⟩
  all_goals exact ⟨fun _ => by simp [afterRemoval], fun r _ => .refl r, fun _ => ⟨rfl, rfl⟩⟩

omit [Globs] [QueueResets σ] in
theorem notifyIf_table (wake : Bool) (r : Rib σ) : (notifyIf wake r).table = r.table := by
  cases wake <;> rfl

omit [Globs] [QueueResets σ] in
theorem lt_notifyIf {wake : Bool} {r : Rib σ} {n : Nat} (h : r.wakeups = n) :
    n < (notifyIf wake r).wakeups ↔ wake = true := by
  cases wake <;> simp [notifyIf, h]

theorem remove_spec {r : Rib σ} {pattern : EidPattern} {source : String} {action : Action}
    {priority : Nat} (h : (r.remove pattern source action priority).1 = true) :
    (r.remove pattern source action priority).2.table =
        r.remaining (.remove pattern source action priority) ∧
      (r.wakeups < (r.remove pattern source action priority).2.wakeups ↔
        r.Frees (.remove pattern source action priority)) := by
  have hs : Sweeps (fun r : Rib σ => r.afterRemoval _) _ := afterRemoval_sweeps (r.expandAction action)
  rw [remove] at h ⊢
  dsimp only at h ⊢
  split at h
  · cases h
  rename_i hrem
  rw [if_neg hrem]
  constructor
  · rw [notifyIf_table, (hs.frame _).table]
    rfl
  · have hleft := hs.frame { r with table := r.remaining (.remove pattern source action priority) }
    exact (lt_notifyIf (n := r.wakeups) hleft.wakeups).trans (hs.moved _)

theorem removeBySource_spec {r : Rib σ} {source : String}
    (h : (r.table.removeBySource source).1.removedCount ≠ 0) :
    (r.removeBySource source).table = r.remaining (.removeBySource source) ∧
      (r.wakeups < (r.removeBySource source).wakeups ↔ r.Frees (.removeBySource source)) := by
  have hv : Sweeps (fun s : Rib σ => resetAll resetVia s (r.table.removeBySource source).1.vias) _ :=
    .all sweeps_resetVia (fun via _ _ hs => by
      simp only [QueuedVia, Queued, hs.table, hs.queued]) _
  have hp : Sweeps
      (fun s : Rib σ => resetAll resetPeer s (r.table.removeBySource source).1.forwardPeers) _ :=
    .all sweeps_resetPeer (fun p _ _ hs => by
      simp only [Serves, Queued, hs.queued, hs.inFlight]) _
  rw [removeBySource]
  dsimp only
  rw [if_neg h]
  constructor
  · rw [notifyIf_table, (hp.frame _).table, (hv.frame _).table]
    rfl
  · have hleft := (hv.frame { r with table := r.remaining (.removeBySource source) }).trans
      (hp.frame _)
    refine (lt_notifyIf (n := r.wakeups) hleft.wakeups).trans ?_
    rw [Bool.or_eq_true, Bool.or_eq_true, hv.moved, hp.moved, Frees, or_assoc]
    refine or_congr_right' fun _ => or_congr_right' fun hvia => ?_
    have hsame := (hv.same hvia).2
    simp only [Serves, Queued, hsame.queued, hsame.inFlight]

omit [QueueResets σ] in
theorem remaining_has (r : Rib σ) (w : Withdrawal) (p : EidPattern) (e : Entry)
    (h : (r.remaining w).Has p e) : r.table.Has p e := by
  cases w with
  | remove pattern source action priority => exact RouteTable.remove_has h
  | removeBySource source => exact RouteTable.removeBySource_has h

theorem remaining_of_not (r : Rib σ) {w : Withdrawal} (h : (r.withdraw w).1 = false)
    (b : Subject) : ¬r.table.Uncovers (r.remaining w) b := by
  rintro ⟨hreflects, -, res, hres, hne⟩
  suffices (r.remaining w).findRecurse b.destination true [] =
      r.table.findRecurse b.destination true [] from
    hne (Option.some.inj (hres.symm.trans (this.trans hreflects)))
  cases w with
  | remove pattern source action priority =>
    rw [remaining, RouteTable.remove_of_not]
    rw [withdraw, remove] at h
    dsimp only at h
    split at h
    · rename_i hnot
      simpa using hnot
    · cases h
  | removeBySource source =>
    refine RouteTable.findRecurse_withoutSource (List.length_eq_zero_iff.mp ?_)
    simpa [withdraw, RouteTable.removeBySource] using h

end Rib

/-- A withdrawal wakes up every bundle that it makes routable, exactly where it
uncovers no route behind a `Reflect` or takes bundles out of queues as well. -/
theorem withdraw_wakes_iff {σ : Type} [QueueResets σ] (r : Rib σ) (w : Withdrawal) (b : Subject) :
    ((r.withdraw w).1 = true → r.find b = none → (r.withdraw w).2.find b ≠ none →
        r.wakeups < (r.withdraw w).2.wakeups) ↔
      (r.table.Uncovers (r.remaining w) b → r.Frees w) := by
  by_cases hok : (r.withdraw w).1 = true
  · have hspec : (r.withdraw w).2.table = r.remaining w ∧
        (r.wakeups < (r.withdraw w).2.wakeups ↔ r.Frees w) := by
      cases w with
      | remove pattern source action priority => exact Rib.remove_spec hok
      | removeBySource source => exact Rib.removeBySource_spec (bne_iff_ne.mp hok)
    rw [← RouteTable.resolve_uncovers (r.remaining_has w), ← hspec.1, Rib.find_eq_none, ne_eq,
      Rib.find_eq_none, hspec.2, and_imp]
    exact ⟨fun h => h hok, fun h _ => h⟩
  · have hsame := r.remaining_of_not (Bool.eq_false_iff.mpr hok)
    exact ⟨fun _ hu => absurd hu (hsame b), fun _ h => absurd h hok⟩

end

/-! ## A route that hides another

Node 1 reflects what is for node 5 back to where it came from, and has a
gateway to node 5 that comes second. -/

namespace Detour

local instance : Globs := .literal

def node (n : Nat) : EidPattern := .ofIpnNodeId ⟨0, n⟩

def rib : Except Error (Rib Statuses) := do
  let r : Rib Statuses := ⟨.new ⟨some ⟨0, 1⟩, none⟩, fun _ => 0, [.waiting], 0⟩
  let (_, r) ← r.add (node 4) "neighbours" (.internal (.forward 77)) 0
  let (_, r) ← r.add (node 5) "diagnostics" (.route .reflect) 10
  let (_, r) ← r.add (node 5) "gateway" (.route (.via (.ipn ⟨0, 4⟩ 0))) 20
  return r

def subject : Subject := ⟨.ipn ⟨0, 5⟩ 1, .ipn ⟨0, 9⟩ 1, some (.ipn ⟨0, 9⟩ 0), none⟩

def reflectGone : Withdrawal := .remove (node 5) "diagnostics" (.route .reflect) 10

end Detour

local instance : Globs := .literal in
theorem withdraw_leaves_routable_asleep :
    ∃ r : Rib Statuses, Detour.rib = .ok r ∧ (r.withdraw Detour.reflectGone).1 = true ∧
      r.find Detour.subject = none ∧
      (r.withdraw Detour.reflectGone).2.find Detour.subject ≠ none ∧
      ¬r.wakeups < (r.withdraw Detour.reflectGone).2.wakeups := by
  have h : Detour.rib.toOption.map (fun r =>
      decide ((r.withdraw Detour.reflectGone).1 = true ∧ r.find Detour.subject = none ∧
        (r.withdraw Detour.reflectGone).2.find Detour.subject ≠ none ∧
        ¬r.wakeups < (r.withdraw Detour.reflectGone).2.wakeups)) = some true := by decide
  cases hr : Detour.rib with
  | error e => simp [hr, Except.toOption] at h
  | ok r =>
    rw [hr] at h
    exact ⟨r, rfl, of_decide_eq_true (Option.some.inj h)⟩

end Hardy.Routing
