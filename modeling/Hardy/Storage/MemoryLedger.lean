import Hardy.Storage.Ledger
import Hardy.Storage.Memory

/-!
# The store in memory as a ledger

The entries of the map, in any order, are the slots of a ledger (`ledger`).  Where no
entry is evicted, and `replace` is only used on an id that the store holds, each
operation does to the entries what the write does to the slots.
-/

namespace Hardy.Storage.Memory

open Bpa (BundleStatus)
open Ledger (named amendSlot target effect)

/-! ## Entries and slots -/

def slot (e : Id × Entry) : Slot := (e.1, e.2.record)

def MetadataMemStorage.ledger (s : MetadataMemStorage) : Ledger where
  slots := (s.inner.entries.entries.map slot : List Slot)
  nodup := by
    rw [Multiset.map_coe, Multiset.coe_nodup, List.map_map]
    exact s.inner.entries.nodup

def op (now now' : Int) : Write → Op
  | .insert bundle => .insert bundle now now'
  | .replace bundle => .replace bundle now now'
  | .swapStatus id expected status => .swapStatus id expected status
  | .tombstone id => .tombstone id now now'
  | .tombstoneIf id expected => .tombstoneIf id expected now now'
  | .resetPeerQueue peer => .resetPeerQueue peer
  | .resetPeerAckPending peer => .resetPeerAckPending peer
  | .resetServiceQueue service => .resetServiceQueue service

namespace MetadataMemStorage

def answer (s : MetadataMemStorage) (now now' : Int) : Write → Ledger.Answer
  | .insert bundle => .changed (s.insert bundle now now').1
  | .replace _ | .tombstone _ => .done
  | .swapStatus id expected status => .changed (s.swapStatus id expected status).1
  | .tombstoneIf id expected => .changed (s.tombstoneIf id expected now now').1
  | .resetPeerQueue peer => .count (s.resetPeerQueue peer).1
  | .resetPeerAckPending peer => .count (s.resetPeerAckPending peer).1
  | .resetServiceQueue service => .count (s.resetServiceQueue service).1

def Polls (s : MetadataMemStorage) : Poll → List Bundle → Prop
  | .expiry => s.PollExpiry
  | .waiting => s.PollWaiting
  | .serviceWaiting source => s.PollServiceWaiting source
  | .aduFragments status => s.PollAduFragments status
  | .pending status limit => s.PollPending status limit

def HasRoom (s : MetadataMemStorage) : Write → Prop
  | .insert b | .replace b =>
    s.peek b.id ≠ none ∨ s.inner.entries.entries.length < s.maxBundles
  | _ => True

/-- The write replaces no record but one that the store has, or has deleted. -/
def ReplacesKnown (s : MetadataMemStorage) : Write → Prop
  | .replace b => s.peek b.id ≠ none
  | _ => True

def YieldsFragments (s : MetadataMemStorage) : Poll → Prop
  | .aduFragments status => ∀ b ∈ s.live, b.status = status → b.id.fragmentInfo.isSome = true
  | _ => True

variable {s s' : MetadataMemStorage} {id k : Id} {e old : Entry} {b : Bundle} {r : Option Bundle}
  {p : Id → BundleStatus → Bool} {f : Bundle → Option Bundle} {now now' : Int} {w : Write}

theorem mem_slots : (id, r) ∈ s.ledger.slots ↔ ∃ e, s.peek id = some e ∧ e.record = r := by
  rw [ledger, Multiset.mem_coe, List.mem_map]
  constructor
  · rintro ⟨⟨k, e⟩, he, heq⟩
    cases heq
    exact ⟨e, Lru.peek_eq_some.mpr he, rfl⟩
  · rintro ⟨e, he, rfl⟩
    exact ⟨(id, e), Lru.peek_eq_some.mp he, rfl⟩

theorem mem_ids : id ∈ s.ledger.ids ↔ s.peek id ≠ none := by
  rw [Ledger.ids, Multiset.mem_map]
  constructor
  · rintro ⟨⟨k, r⟩, hmem, rfl⟩ hnone
    obtain ⟨e, he, -⟩ := mem_slots.mp hmem
    rw [hnone] at he
    cases he
  · intro hne
    obtain ⟨e, he⟩ := Option.ne_none_iff_exists'.mp hne
    exact ⟨(id, e.record), mem_slots.mpr ⟨e, he, rfl⟩, rfl⟩

theorem get_gets (s : MetadataMemStorage) (id : Id) : s.ledger.Gets id (s.get id) := by
  intro b
  rw [mem_slots, get]
  cases hp : s.peek id with
  | none => simp
  | some e => cases e <;> simp [Entry.record]

/-! ## One entry -/

theorem ledger_perm (h : s'.inner.entries.entries.Perm s.inner.entries.entries) :
    s'.ledger = s.ledger := Ledger.ext (Multiset.coe_eq_coe.mpr (h.map slot))

theorem apply_perm (now now' : Int)
    (h : ¬ (e.isLive && (s.peek id).any Entry.isTombstone) = true) :
    (s.apply id e now now').inner.entries.entries.Perm (s.inner.entries.push id e).entries := by
  rw [peek] at h
  rw [apply, Inner.checkWatermark_entries, Inner.upsert, if_neg h]
  dsimp only
  split
  · exact Lru.demote_perm
  · exact .refl _

theorem apply_refused (h : (e.isLive && (s.peek id).any Entry.isTombstone) = true) :
    (s.apply id e now now').ledger = s.ledger := by
  refine ledger_perm (.of_eq ?_)
  rw [peek] at h
  rw [apply, Inner.checkWatermark_entries, Inner.upsert, if_pos h]

theorem slots_of_some (h : s.peek id = some old) : s.ledger.slots =
    (id, old.record) ::ₘ (without s.inner.entries.entries id).map slot := by
  refine Multiset.coe_eq_coe.mpr ?_
  exact (perm_of_mem s.inner.entries.nodup (Lru.peek_eq_some.mp h)).map slot

theorem apply_of_some (h : s.peek id = some old)
    (hrefused : ¬ (e.isLive && (s.peek id).any Entry.isTombstone) = true)
    (hkey : amendSlot p f (id, old.record) = (id, e.record))
    (hrest : ∀ k st, k ≠ id → p k st = false) :
    (s.apply id e now now').ledger = s.ledger.amend p f := by
  have hperm := (apply_perm now now' hrefused).map slot
  rw [Lru.push_of_some h] at hperm
  refine Ledger.ext ((Multiset.coe_eq_coe.mpr hperm).trans ?_)
  rw [Ledger.amend_slots, slots_of_some h, Multiset.map_cons, hkey, Multiset.map_coe, List.map_map]
  refine congrArg (fun l : List Slot => ((id, e.record) ::ₘ (l : Multiset Slot)))
    (List.map_congr_left fun x hx => ?_)
  refine (Ledger.amendSlot_eq_self ?_).symm
  have hne := (mem_without.mp hx).2
  rw [named, slot]
  cases x.2.record with
  | none => rfl
  | some b => exact hrest x.1 b.status hne

/-! ## Live records -/

theorem affected_pos : 0 < s.ledger.affected p ↔
    ∃ id b, s.peek id = some (.live b) ∧ p id b.status = true := by
  rw [Ledger.affected_pos]
  constructor
  · rintro ⟨⟨id, r⟩, he, hn⟩
    obtain ⟨e, hpeek, rfl⟩ := mem_slots.mp he
    cases e with
    | live b => exact ⟨id, b, hpeek, hn⟩
    | tombstone x => cases hn
  · rintro ⟨id, b, hb, hp⟩
    exact ⟨(id, some b), mem_slots.mpr ⟨_, hb, rfl⟩, hp⟩

theorem amend_none (h : ∀ id b, s.peek id = some (.live b) → p id b.status = false) :
    s.ledger.amend p f = s.ledger ∧ s.ledger.affected p = 0 := by
  have hzero : ¬ 0 < s.ledger.affected p := by
    rw [affected_pos]
    rintro ⟨id, b, hb, hp⟩
    rw [h id b hb] at hp
    cases hp
  refine ⟨Ledger.amend_eq_self fun e he => Bool.eq_false_iff.mpr fun hn => hzero ?_,
    Nat.eq_zero_of_not_pos hzero⟩
  exact Ledger.affected_pos.mpr ⟨e, he, hn⟩

theorem modify_slots (g : Id → Bundle → Bundle) :
    (s.modify g).ledger.slots = s.ledger.slots.map fun e => (e.1, e.2.map (g e.1)) := by
  simp only [ledger, modify, Lru.mapValues, Multiset.map_coe, List.map_map]
  refine congrArg _ (List.map_congr_left fun e _ => ?_)
  obtain ⟨id, e⟩ := e
  cases e <;> rfl

/-! ## Writes -/

theorem ledger_insert (now now' : Int) (h : s.HasRoom (.insert b)) :
    (s.insert b now now').1 = (s.ledger.insert b).1 ∧
      (s.insert b now now').2.ledger = (s.ledger.insert b).2 := by
  rw [insert, Ledger.insert, Lru.contains]
  cases hp : s.peek b.id with
  | some e =>
    have hmem : b.id ∈ s.ledger.ids := mem_ids.mpr (by rw [hp]; exact Option.some_ne_none e)
    rw [peek] at hp
    rw [dif_pos hmem, hp]
    exact ⟨rfl, rfl⟩
  | none =>
    have hmem : b.id ∉ s.ledger.ids := fun hmem => mem_ids.mp hmem hp
    have hroom := h.resolve_left fun hne => hne hp
    have hperm := apply_perm (s := s) (e := .live b) now now' (by rw [hp]; simp)
    rw [Lru.push_of_room hp hroom] at hperm
    rw [peek] at hp
    rw [dif_neg hmem, hp]
    exact ⟨rfl, Ledger.ext (Multiset.coe_eq_coe.mpr (hperm.map slot))⟩

theorem ledger_replace (h : s.ReplacesKnown (.replace b)) : (s.replace b now now').ledger =
    s.ledger.amend (target (.replace b)) (effect (.replace b)) := by
  obtain ⟨e, he⟩ := Option.ne_none_iff_exists'.mp h
  cases e with
  | live b' =>
    refine apply_of_some he (by rw [he]; exact Bool.false_ne_true) ?_ fun k st hk => decide_eq_false hk
    simp [amendSlot, target, effect, Entry.record]
  | tombstone x =>
    refine (apply_refused (by rw [he]; rfl)).trans (amend_none fun id b' hb' => ?_).1.symm
    refine decide_eq_false fun hid => ?_
    rw [hid, he] at hb'
    cases hb'

theorem ledger_tombstone : (s.tombstone id now now').ledger =
    s.ledger.amend (target (.tombstone id)) (effect (.tombstone id)) := by
  rw [tombstone]
  cases hp : s.peek id with
  | none =>
    refine (amend_none fun k b hb => decide_eq_false fun hid => ?_).1.symm
    rw [hid, hp] at hb
    cases hb
  | some e =>
    cases e with
    | live b =>
      refine apply_of_some hp Bool.false_ne_true ?_ fun k st hk => decide_eq_false hk
      simp [amendSlot, target, effect, Entry.record]
    | tombstone x =>
      exact apply_of_some hp Bool.false_ne_true rfl fun k st hk => decide_eq_false hk

def isCurrent (id : Id) (expected : BundleStatus) (k : Id) (status : BundleStatus) : Bool :=
  status = expected && k = id

theorem affected_current (s : MetadataMemStorage) (id : Id) (expected : BundleStatus) :
    (s.current id expected).isSome = decide (0 < s.ledger.affected (isCurrent id expected)) := by
  rw [Bool.eq_iff_iff, decide_eq_true_eq, affected_pos, Option.isSome_iff_exists]
  constructor
  · rintro ⟨b, hc⟩
    obtain ⟨hb, hstatus⟩ := current_eq_some.mp hc
    exact ⟨id, b, hb, by simp [isCurrent, hstatus]⟩
  · rintro ⟨k, b, hb, hp⟩
    obtain ⟨hstatus, rfl⟩ : b.status = expected ∧ k = id := by simpa [isCurrent] using hp
    exact ⟨b, current_eq_some.mpr ⟨hb, hstatus⟩⟩

theorem amend_current {expected : BundleStatus} (hc : s.current id expected = none) :
    s.ledger.amend (isCurrent id expected) f = s.ledger := by
  refine (amend_none fun k b hb => Bool.eq_false_iff.mpr fun hp => ?_).1
  have hpos := affected_current s id expected
  rw [hc, decide_eq_true (affected_pos.mpr ⟨k, b, hb, hp⟩)] at hpos
  cases hpos

theorem ledger_tombstoneIf (id : Id) {expected : BundleStatus} :
    (s.tombstoneIf id expected now now').1 =
        decide (0 < s.ledger.affected (target (.tombstoneIf id expected))) ∧
      (s.tombstoneIf id expected now now').2.ledger =
        s.ledger.amend (target (.tombstoneIf id expected)) (effect (.tombstoneIf id expected)) := by
  refine ⟨Eq.trans ?_ (affected_current s id expected), ?_⟩
  · rw [tombstoneIf]
    cases s.current id expected <;> rfl
  · rw [tombstoneIf]
    cases hc : s.current id expected with
    | some b =>
      obtain ⟨hb, hstatus⟩ := current_eq_some.mp hc
      refine apply_of_some hb Bool.false_ne_true ?_ fun k st hk => ?_
      · simp [amendSlot, target, effect, Entry.record, hstatus]
      · simp [target, hk]
    | none => exact (amend_current hc).symm

theorem ledger_swapStatus (id : Id) {expected status : BundleStatus} :
    (s.swapStatus id expected status).1 =
        decide (0 < s.ledger.affected (target (.swapStatus id expected status))) ∧
      (s.swapStatus id expected status).2.ledger =
        s.ledger.amend (target (.swapStatus id expected status))
          (effect (.swapStatus id expected status)) := by
  refine ⟨Eq.trans ?_ (affected_current s id expected), ?_⟩
  · rw [swapStatus]
    cases s.current id expected <;> rfl
  · rw [swapStatus]
    cases hc : s.current id expected with
    | some b =>
      obtain ⟨hb, hstatus⟩ := current_eq_some.mp hc
      refine (ledger_perm (s := s.modify _) Lru.promote_perm).trans (Ledger.ext ?_)
      rw [modify_slots, Ledger.amend_slots]
      refine Multiset.map_congr rfl fun e he => ?_
      obtain ⟨k, r⟩ := e
      cases r with
      | none => rfl
      | some b' =>
        by_cases hk : k = id
        · -- the record of the id is the one with the status
          obtain ⟨e, hpeek, hrec⟩ := mem_slots.mp he
          rw [hk, hb] at hpeek
          cases hpeek
          cases hrec
          simp [amendSlot, target, effect, hk, hstatus]
        · simp [amendSlot, target, hk]
    | none => exact (amend_current hc).symm

theorem ledger_reset {g : BundleStatus → Option BundleStatus}
    (hp : ∀ id st, target w id st = (g st).isSome)
    (hf : ∀ b st, g b.status = some st → effect w b = some { b with status := st }) :
    (s.reset g).1 = s.ledger.affected (target w) ∧
      (s.reset g).2.ledger = s.ledger.amend (target w) (effect w) := by
  constructor
  · rw [Ledger.affected, ledger, Multiset.coe_countP, List.countP_map, reset, Lru.count]
    refine List.countP_congr fun e _ => ?_
    obtain ⟨id, e⟩ := e
    cases e <;> simp [slot, Entry.record, named, hp]
  · refine Ledger.ext ?_
    rw [reset, modify_slots, Ledger.amend_slots]
    refine Multiset.map_congr rfl fun e _ => ?_
    obtain ⟨id, r⟩ := e
    cases r with
    | none => rfl
    | some b =>
      rw [amendSlot, Option.map_some, Option.bind_some, hp]
      cases hg : g b.status with
      | none => rfl
      | some st => rw [Option.isSome_some, if_pos rfl, hf b st hg, Option.getD_some]

theorem ledger_resetPeerQueue (peer : Nat) :
    (s.resetPeerQueue peer).1 = s.ledger.affected (target (.resetPeerQueue peer)) ∧
      (s.resetPeerQueue peer).2.ledger =
        s.ledger.amend (target (.resetPeerQueue peer)) (effect (.resetPeerQueue peer)) := by
  refine ledger_reset (fun id st => ?_) fun b st hst => ?_
  · cases st with
    | forwardPending p queue nextHop => by_cases h : p = peer <;> simp [target, h]
    | _ => rfl
  · split at hst
    · split at hst
      · cases hst
        rfl
      · cases hst
    · cases hst

theorem ledger_resetPeerAckPending (peer : Nat) :
    (s.resetPeerAckPending peer).1 = s.ledger.affected (target (.resetPeerAckPending peer)) ∧
      (s.resetPeerAckPending peer).2.ledger =
        s.ledger.amend (target (.resetPeerAckPending peer)) (effect (.resetPeerAckPending peer)) := by
  refine ledger_reset (fun id st => ?_) fun b st hst => ?_
  · cases st with
    | forwardAckPending p => by_cases h : p = peer <;> simp [target, h]
    | _ => rfl
  · split at hst
    · split at hst
      · cases hst
        rfl
      · cases hst
    · cases hst

theorem ledger_resetServiceQueue (service : Eid) :
    (s.resetServiceQueue service).1 = s.ledger.affected (target (.resetServiceQueue service)) ∧
      (s.resetServiceQueue service).2.ledger =
        s.ledger.amend (target (.resetServiceQueue service)) (effect (.resetServiceQueue service)) := by
  refine ledger_reset (fun id st => ?_) fun b st hst => ?_
  · cases st with
    | deliverPending e => by_cases h : e = service <;> simp [target, h]
    | _ => rfl
  · split at hst
    · split at hst
      · cases hst
        rfl
      · cases hst
    · cases hst

theorem ledger_write (now now' : Int) (hroom : s.HasRoom w) (hknown : s.ReplacesKnown w) :
    s.answer now now' w = s.ledger.answer w ∧
      (step s (op now now' w)).ledger = s.ledger.write w := by
  cases w with
  | insert b =>
    obtain ⟨hanswer, hledger⟩ := ledger_insert now now' hroom
    exact ⟨congrArg Ledger.Answer.changed hanswer, hledger⟩
  | replace b => exact ⟨rfl, ledger_replace hknown⟩
  | tombstone id => exact ⟨rfl, ledger_tombstone⟩
  | swapStatus id expected status =>
    obtain ⟨hanswer, hledger⟩ := ledger_swapStatus (s := s) id
    exact ⟨congrArg Ledger.Answer.changed hanswer, hledger⟩
  | tombstoneIf id expected =>
    obtain ⟨hanswer, hledger⟩ := ledger_tombstoneIf (s := s) id
    exact ⟨congrArg Ledger.Answer.changed hanswer, hledger⟩
  | resetPeerQueue peer =>
    obtain ⟨hanswer, hledger⟩ := ledger_resetPeerQueue (s := s) peer
    exact ⟨congrArg Ledger.Answer.count hanswer, hledger⟩
  | resetPeerAckPending peer =>
    obtain ⟨hanswer, hledger⟩ := ledger_resetPeerAckPending (s := s) peer
    exact ⟨congrArg Ledger.Answer.count hanswer, hledger⟩
  | resetServiceQueue service =>
    obtain ⟨hanswer, hledger⟩ := ledger_resetServiceQueue (s := s) service
    exact ⟨congrArg Ledger.Answer.count hanswer, hledger⟩

/-! ## Polls -/

theorem selected_live (p : BundleStatus → Bool) :
    s.ledger.selected p = (s.live.filter fun b => p b.status : List Bundle) := by
  rw [Ledger.selected, ledger, Multiset.filterMap_coe, List.filterMap_map, live,
    List.filter_filterMap]
  rfl

theorem aduFragments_selected {status : BundleStatus} {out : List Bundle}
    (h : s.PollAduFragments status out) (hf : s.YieldsFragments (.aduFragments status)) :
    s.ledger.Polled (.aduFragments status) out := by
  obtain ⟨entries, hentries, rfl⟩ := h
  have hmap : ((s.live.filter fun v => v.status = status).filterMap fun v =>
      v.id.fragmentInfo.map fun fi => (fi.offset, v)).map Prod.snd =
        s.live.filter fun v => v.status = status := by
    rw [List.map_filterMap]
    refine (List.filterMap_congr fun b hb => ?_).trans List.filterMap_some
    obtain ⟨hb, hstatus⟩ := List.mem_filter.mp hb
    obtain ⟨fi, hfi⟩ := Option.isSome_iff_exists.mp (hf b hb (of_decide_eq_true hstatus))
    rw [hfi]
    rfl
  refine (Multiset.coe_eq_coe.mpr ((hentries.perm.map Prod.snd).symm.trans ?_)).trans
    (selected_live _).symm
  exact .of_eq hmap

theorem polls {poll : Poll} {out : List Bundle} (h : s.Polls poll out) (hf : s.YieldsFragments poll) :
    s.ledger.Polled poll out := by
  have hsorts : ∀ {time : Bundle → Int} {p : BundleStatus → Bool},
      Sorts time (s.live.filter fun b => p b.status) out →
        (out : Multiset Bundle) = s.ledger.selected p := by
    intro time p hsorts
    rw [selected_live]
    exact Multiset.coe_eq_coe.mpr hsorts.perm.symm
  cases poll with
  | expiry => exact hsorts (p := Poll.expiry.selects) h
  | waiting => exact hsorts (p := Poll.waiting.selects) h
  | serviceWaiting source => exact hsorts (p := (Poll.serviceWaiting source).selects) h
  | aduFragments status => exact aduFragments_selected h hf
  | pending status limit =>
    obtain ⟨entries, hentries, rfl⟩ := h
    exact ⟨_, _, (selected_live _).symm, hentries.oldest limit⟩

theorem exists_polls (poll : Poll) : ∃ out, s.Polls poll out := by
  cases poll with
  | aduFragments status =>
    obtain ⟨entries, hentries⟩ := exists_sorts (fun e : Nat × Bundle => (e.1 : Int)) _
    exact ⟨_, entries, hentries, rfl⟩
  | pending status limit =>
    obtain ⟨entries, hentries⟩ := exists_sorts Bundle.receivedAt _
    exact ⟨_, entries, hentries, rfl⟩
  | expiry => exact exists_sorts _ _
  | waiting => exact exists_sorts _ _
  | serviceWaiting source => exact exists_sorts _ _

end MetadataMemStorage

end Hardy.Storage.Memory
