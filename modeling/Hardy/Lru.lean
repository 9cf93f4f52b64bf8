import Mathlib.Data.List.Nodup
import Mathlib.Data.List.Perm.Basic

/-!
# Bounded maps in order of use

A map of at most `cap` entries, the most recently used one first: the cache of the
`lru` crate.  A push of a new key onto a full map displaces the last entry.  The
keys are distinct and the bound holds by construction, so what is proved here is
what the operations do to lookups (`peek_push_of_some`, `peek_pop`, ...) and to the
number of values of a kind (`count_push`, ...).
-/

namespace Hardy

/-! ## Association lists with distinct keys -/

section Entries

variable {κ α : Type} [DecidableEq κ] {l l' : List (κ × α)} {k k' : κ} {v : α}

theorem lookup_eq_some (hl : (l.map Prod.fst).Nodup) : l.lookup k = some v ↔ (k, v) ∈ l := by
  induction l with
  | nil => simp
  | cons e l ih =>
    obtain ⟨k₀, v₀⟩ := e
    rw [List.map_cons, List.nodup_cons] at hl
    rw [List.lookup_cons, List.mem_cons]
    by_cases hk : k = k₀
    · subst hk
      simp only [beq_self_eq_true, Option.some.injEq, Prod.mk.injEq, true_and]
      refine ⟨fun h => .inl h.symm, ?_⟩
      rintro (h | h)
      · exact h.symm
      · exact absurd (List.mem_map_of_mem (f := Prod.fst) h) hl.1
    · rw [beq_false_of_ne hk]
      simp only [ih hl.2, Prod.mk.injEq, hk, false_and, false_or]

theorem lookup_eq_none (hl : (l.map Prod.fst).Nodup) :
    l.lookup k = none ↔ k ∉ l.map Prod.fst := by
  rw [Option.eq_none_iff_forall_ne_some]
  simp [lookup_eq_some hl]

theorem lookup_perm (hl : (l.map Prod.fst).Nodup) (h : l.Perm l') : l.lookup k = l'.lookup k := by
  ext v
  rw [lookup_eq_some hl, lookup_eq_some ((h.map _).nodup_iff.mp hl), h.mem_iff]

def without (l : List (κ × α)) (k : κ) : List (κ × α) := l.filter fun e => e.1 ≠ k

theorem mem_without {e : κ × α} : e ∈ without l k ↔ e ∈ l ∧ e.1 ≠ k := by
  simp [without]

theorem without_nodup (hl : (l.map Prod.fst).Nodup) : ((without l k).map Prod.fst).Nodup :=
  hl.sublist (List.filter_sublist.map _)

theorem not_mem_without : k ∉ (without l k).map Prod.fst := by
  simp [without]

theorem lookup_without (hl : (l.map Prod.fst).Nodup) :
    (without l k).lookup k' = if k' = k then none else l.lookup k' := by
  ext v
  rw [lookup_eq_some (without_nodup hl), mem_without]
  split
  · next h => simp [h]
  · next h => simp [h, lookup_eq_some hl]

theorem without_of_not_mem (h : k ∉ l.map Prod.fst) : without l k = l := by
  refine List.filter_eq_self.mpr fun e he => decide_eq_true fun heq => h ?_
  exact heq ▸ List.mem_map_of_mem he

theorem perm_of_mem (hl : (l.map Prod.fst).Nodup) (h : (k, v) ∈ l) :
    l.Perm ((k, v) :: without l k) := by
  induction l with
  | nil => cases h
  | cons e l ih =>
    rw [List.map_cons, List.nodup_cons] at hl
    rcases List.mem_cons.mp h with rfl | h
    · have hrest := without_of_not_mem hl.1
      rw [without] at hrest ⊢
      rw [List.filter_cons_of_neg (by simp), hrest]
    · have hne : e.1 ≠ k := fun heq => hl.1 (heq ▸ List.mem_map_of_mem h)
      rw [without, List.filter_cons_of_pos (by simpa using hne)]
      exact (List.Perm.cons _ (ih hl.2 h)).trans (List.Perm.swap _ _ _)

end Entries

structure Lru (κ α : Type) where
  cap : Nat
  entries : List (κ × α)
  pos : 0 < cap
  nodup : (entries.map Prod.fst).Nodup
  length_le : entries.length ≤ cap

namespace Lru

variable {κ α : Type} [DecidableEq κ]

/-! ## Operations -/

def empty (cap : Nat) (h : 0 < cap) : Lru κ α where
  cap := cap
  entries := []
  pos := h
  nodup := .nil
  length_le := Nat.zero_le _

def peek (c : Lru κ α) (k : κ) : Option α := c.entries.lookup k

def contains (c : Lru κ α) (k : κ) : Bool := (c.peek k).isSome

def pop (c : Lru κ α) (k : κ) : Lru κ α where
  cap := c.cap
  entries := without c.entries k
  pos := c.pos
  nodup := without_nodup c.nodup
  length_le := Nat.le_trans (List.length_filter_le _ _) c.length_le

/-- A full map loses its last entry. -/
def shrink (c : Lru κ α) : Lru κ α where
  cap := c.cap
  entries := if c.entries.length = c.cap then c.entries.dropLast else c.entries
  pos := c.pos
  nodup := by
    split
    · exact c.nodup.sublist ((List.dropLast_sublist _).map _)
    · exact c.nodup
  length_le := by
    have := c.length_le
    split
    · rw [List.length_dropLast]
      omega
    · exact this

omit [DecidableEq κ] in
theorem shrink_length (c : Lru κ α) : c.shrink.entries.length < c.cap := by
  have hpos := c.pos
  have hle := c.length_le
  rw [shrink]
  dsimp only
  split
  · rw [List.length_dropLast]
    omega
  · omega

def front (c : Lru κ α) (k : κ) (v : α) (hk : k ∉ c.entries.map Prod.fst)
    (hroom : c.entries.length < c.cap) : Lru κ α where
  cap := c.cap
  entries := (k, v) :: c.entries
  pos := c.pos
  nodup := List.nodup_cons.mpr ⟨hk, c.nodup⟩
  length_le := hroom

omit [DecidableEq κ] in
theorem not_mem_shrink {c : Lru κ α} {k : κ} (h : k ∉ c.entries.map Prod.fst) :
    k ∉ c.shrink.entries.map Prod.fst := by
  intro hmem
  rw [shrink] at hmem
  dsimp only at hmem
  split at hmem
  · exact h (((List.dropLast_sublist _).map _).subset hmem)
  · exact h hmem

/-- The entry that goes when a new key needs room. -/
def victim (c : Lru κ α) : Option (κ × α) :=
  if c.entries.length = c.cap then c.entries.getLast? else none

/-- What a push of the key displaces: its own value, or the least recently used
entry. -/
def displaced (c : Lru κ α) (k : κ) : Option (κ × α) :=
  match c.peek k with
  | some old => some (k, old)
  | none => c.victim

/-- `push`, without the displaced entry. -/
def push (c : Lru κ α) (k : κ) (v : α) : Lru κ α :=
  (c.pop k).shrink.front k v (not_mem_shrink not_mem_without) (shrink_length _)

theorem push_entries (c : Lru κ α) (k : κ) (v : α) :
    (c.push k v).entries = (k, v) :: (c.pop k).shrink.entries := rfl

def reorder (c : Lru κ α) (l : List (κ × α)) (h : c.entries.Perm l) : Lru κ α where
  cap := c.cap
  entries := l
  pos := c.pos
  nodup := (h.map _).nodup_iff.mp c.nodup
  length_le := h.length_eq ▸ c.length_le

def promote (c : Lru κ α) (k : κ) : Lru κ α :=
  match h : c.peek k with
  | some v => c.reorder ((k, v) :: without c.entries k)
      (perm_of_mem c.nodup ((lookup_eq_some c.nodup).mp h))
  | none => c

def demote (c : Lru κ α) (k : κ) : Lru κ α :=
  match h : c.peek k with
  | some v => c.reorder (without c.entries k ++ [(k, v)])
      ((perm_of_mem c.nodup ((lookup_eq_some c.nodup).mp h)).trans (List.perm_append_singleton _ _).symm)
  | none => c

def mapValues (f : κ → α → α) (c : Lru κ α) : Lru κ α where
  cap := c.cap
  entries := c.entries.map fun e => (e.1, f e.1 e.2)
  pos := c.pos
  nodup := by
    rw [List.map_map]
    exact c.nodup
  length_le := by
    rw [List.length_map]
    exact c.length_le

/-! ## Lookups -/

section

variable {c : Lru κ α} {k k' : κ} {v old : α}

theorem peek_eq_some : c.peek k = some v ↔ (k, v) ∈ c.entries := lookup_eq_some c.nodup

@[simp] theorem peek_empty (cap : Nat) (h : 0 < cap) : (empty cap h : Lru κ α).peek k = none := rfl

theorem peek_pop : (c.pop k).peek k' = if k' = k then none else c.peek k' := lookup_without c.nodup

theorem pop_of_none (h : c.peek k = none) : c.pop k = c := by
  have := without_of_not_mem ((lookup_eq_none c.nodup).mp h)
  cases c
  simpa only [pop, mk.injEq, true_and] using this

theorem peek_shrink : c.shrink.peek k = c.peek k ∨ c.shrink.peek k = none := by
  cases h : c.shrink.peek k with
  | none => exact .inr rfl
  | some v =>
    refine .inl (peek_eq_some.mpr ?_).symm
    have hmem := peek_eq_some.mp h
    rw [shrink] at hmem
    dsimp only at hmem
    split at hmem
    · exact (List.dropLast_sublist _).subset hmem
    · exact hmem

theorem peek_push_self : (c.push k v).peek k = some v := by
  rw [peek, push_entries, List.lookup_cons, beq_self_eq_true]

theorem peek_push_of_ne (h : k' ≠ k) : (c.push k v).peek k' = (c.pop k).shrink.peek k' := by
  rw [peek, push_entries, List.lookup_cons, beq_false_of_ne h]
  rfl

theorem peek_push (h : k' ≠ k) :
    (c.push k v).peek k' = c.peek k' ∨ (c.push k v).peek k' = none := by
  rw [peek_push_of_ne h]
  rcases peek_shrink (c := c.pop k) (k := k') with hs | hs
  · rw [hs, peek_pop, if_neg h]
    exact .inl rfl
  · exact .inr hs

theorem length_pop (h : c.peek k = some v) : (c.pop k).entries.length + 1 = c.entries.length :=
  (perm_of_mem c.nodup (peek_eq_some.mp h)).length_eq.symm

omit [DecidableEq κ] in
theorem shrink_of_room (h : c.entries.length < c.cap) : c.shrink = c := by
  cases c
  simp only [shrink, mk.injEq, true_and]
  exact if_neg (Nat.ne_of_lt h)

theorem pop_room (hk : c.peek k = some old) : (c.pop k).entries.length < (c.pop k).cap := by
  have hlen := length_pop hk
  have hle := c.length_le
  exact Nat.lt_of_lt_of_le (by omega) hle

theorem peek_push_of_some (hk : c.peek k = some old) (h : k' ≠ k) :
    (c.push k v).peek k' = c.peek k' := by
  rw [peek_push_of_ne h, shrink_of_room (pop_room hk), peek_pop, if_neg h]

theorem push_of_some (hk : c.peek k = some old) :
    (c.push k v).entries = (k, v) :: without c.entries k := by
  rw [push_entries, shrink_of_room (pop_room hk)]
  rfl

theorem push_of_room (hk : c.peek k = none) (h : c.entries.length < c.cap) :
    (c.push k v).entries = (k, v) :: c.entries := by
  rw [push_entries, pop_of_none hk, shrink_of_room h]

theorem promote_perm : (c.promote k).entries.Perm c.entries := by
  rw [promote]
  split
  · next h => exact (perm_of_mem c.nodup (peek_eq_some.mp h)).symm
  · exact .refl _

theorem demote_perm : (c.demote k).entries.Perm c.entries := by
  rw [demote]
  split
  · next h =>
      exact (List.perm_append_singleton _ _).trans (perm_of_mem c.nodup (peek_eq_some.mp h)).symm
  · exact .refl _

@[simp] theorem peek_reorder {l : List (κ × α)} (h : c.entries.Perm l) :
    (c.reorder l h).peek k = c.peek k := (lookup_perm c.nodup h).symm

@[simp] theorem peek_promote : (c.promote k).peek k' = c.peek k' := by
  rw [promote]
  split
  · exact peek_reorder _
  · rfl

@[simp] theorem peek_demote : (c.demote k).peek k' = c.peek k' := by
  rw [demote]
  split
  · exact peek_reorder _
  · rfl

@[simp] theorem promote_cap : (c.promote k).cap = c.cap := by
  rw [promote]
  split
  · rfl
  · rfl

@[simp] theorem demote_cap : (c.demote k).cap = c.cap := by
  rw [demote]
  split
  · rfl
  · rfl

theorem peek_mapValues (f : κ → α → α) : (c.mapValues f).peek k = (c.peek k).map (f k) := by
  ext v
  rw [peek_eq_some, Option.map_eq_some_iff]
  simp only [mapValues, List.mem_map, Prod.mk.injEq, Prod.exists, peek_eq_some]
  constructor
  · rintro ⟨k₀, v₀, hmem, rfl, rfl⟩
    exact ⟨v₀, hmem, rfl⟩
  · rintro ⟨v₀, hmem, rfl⟩
    exact ⟨k, v₀, hmem, rfl, rfl⟩

/-! ## How many values are of a kind -/

def count (p : α → Bool) (c : Lru κ α) : Nat := c.entries.countP fun e => p e.2

def tally (p : α → Bool) : Option (κ × α) → Nat
  | some e => (p e.2).toNat
  | none => 0

variable {p q : α → Bool}

theorem count_pop (h : c.peek k = some v) : (c.pop k).count p + (p v).toNat = c.count p := by
  rw [count, count, (perm_of_mem c.nodup (peek_eq_some.mp h)).countP_eq, List.countP_cons]
  cases p v <;> rfl

omit [DecidableEq κ] in
theorem count_shrink : c.shrink.count p + tally p c.victim = c.count p := by
  rw [victim, count, shrink]
  dsimp only
  split
  · next hfull =>
      have hne : c.entries ≠ [] := by
        have := c.pos
        rintro h
        rw [h] at hfull
        exact absurd hfull (Nat.ne_of_lt this)
      rw [List.getLast?_eq_some_getLast hne, tally, count]
      conv_rhs => rw [← List.dropLast_append_getLast hne]
      rw [List.countP_append, List.countP_singleton]
      cases p (c.entries.getLast hne).2 <;> rfl
  · rfl

theorem count_push :
    (c.push k v).count p + tally p (c.displaced k) = c.count p + (p v).toNat := by
  have hfront : (c.push k v).count p = (c.pop k).shrink.count p + (p v).toNat := by
    rw [count, push_entries, List.countP_cons]
    cases p v <;> rfl
  rw [hfront, displaced]
  cases hk : c.peek k with
  | some old =>
    have hpop := count_pop (p := p) hk
    rw [shrink_of_room (pop_room hk), tally]
    dsimp only
    omega
  | none =>
    have hshrink := count_shrink (c := c) (p := p)
    rw [pop_of_none hk]
    dsimp only
    omega

omit [DecidableEq κ] in
@[simp] theorem count_reorder {l : List (κ × α)} (h : c.entries.Perm l) :
    (c.reorder l h).count p = c.count p := h.countP_eq _ |>.symm

@[simp] theorem count_promote : (c.promote k).count p = c.count p := by
  rw [promote]
  split
  · exact count_reorder _
  · rfl

@[simp] theorem count_demote : (c.demote k).count p = c.count p := by
  rw [demote]
  split
  · exact count_reorder _
  · rfl

omit [DecidableEq κ] in
theorem count_mapValues {f : κ → α → α} (h : ∀ k v, p (f k v) = p v) :
    (c.mapValues f).count p = c.count p := by
  rw [count, mapValues, List.countP_map, count]
  congr 1
  funext e
  exact h _ _

omit [DecidableEq κ] in
theorem count_add_count (h : ∀ v, q v = !p v) : c.count p + c.count q = c.entries.length := by
  rw [count, count, List.length_eq_countP_add_countP fun e : κ × α => p e.2]
  simp [h]

end

end Lru

end Hardy
