import Mathlib.Algebra.Order.Ring.Nat
import Mathlib.Data.List.Basic
import Mathlib.Order.Basic

/-!
# Sorted lists as maps and sets

`BTreeMap` and `BTreeSet` as the lists of their entries, which the operations
keep in the order of the keys.  Nothing here asks the order to be lawful: the
facts about membership hold for any comparison.
-/

namespace Hardy.Sorted

section Map

variable {κ ν : Type} [Ord κ]

def get (k : κ) : List (κ × ν) → Option ν
  | [] => none
  | (k', v) :: m => if compare k k' = .eq then some v else get k m

/-- The entry under `k` becomes `f` of what is there. -/
def upsert (k : κ) (f : Option ν → ν) : List (κ × ν) → List (κ × ν)
  | [] => [(k, f none)]
  | (k', v) :: m =>
    match compare k k' with
    | .lt => (k, f none) :: (k', v) :: m
    | .eq => (k', f (some v)) :: m
    | .gt => (k', v) :: upsert k f m

/-- The entry under `k` becomes `f` of itself, or goes. -/
def update (k : κ) (f : ν → Option ν) : List (κ × ν) → List (κ × ν)
  | [] => []
  | (k', v) :: m =>
    if compare k k' = .eq then
      match f v with
      | some w => (k', w) :: m
      | none => m
    else (k', v) :: update k f m

variable {m : List (κ × ν)}

theorem mem_update {k : κ} {f : ν → Option ν} {p : κ × ν}
    (h : p ∈ update k f m) : p ∈ m ∨ ∃ v, (p.1, v) ∈ m ∧ f v = some p.2 := by
  induction m with
  | nil => cases h
  | cons q m ih =>
    obtain ⟨k', v⟩ := q
    rw [update] at h
    split at h
    · split at h
      · rename_i w hw
        rcases List.mem_cons.mp h with rfl | h
        · exact .inr ⟨v, List.mem_cons_self, hw⟩
        · exact .inl (List.mem_cons_of_mem _ h)
      · exact .inl (List.mem_cons_of_mem _ h)
    · rcases List.mem_cons.mp h with rfl | h
      · exact .inl List.mem_cons_self
      · rcases ih h with h | ⟨v', h, hf⟩
        · exact .inl (List.mem_cons_of_mem _ h)
        · exact .inr ⟨v', List.mem_cons_of_mem _ h, hf⟩

theorem mem_get {k : κ} {v : ν} (h : get k m = some v) : ∃ k', (k', v) ∈ m := by
  induction m with
  | nil => cases h
  | cons q m ih =>
    rw [get] at h
    split at h
    · cases h
      exact ⟨q.1, List.mem_cons_self⟩
    · obtain ⟨k', hk'⟩ := ih h
      exact ⟨k', List.mem_cons_of_mem _ hk'⟩

theorem mem_upsert {k : κ} {f : Option ν → ν} {p : κ × ν}
    (h : p ∈ upsert k f m) : p ∈ m ∨ p = (k, f none) ∨ ∃ v, (p.1, v) ∈ m ∧ p.2 = f (some v) := by
  induction m with
  | nil => exact .inr (.inl (List.mem_singleton.mp h))
  | cons q m ih =>
    obtain ⟨k', v⟩ := q
    rw [upsert] at h
    split at h
    · rcases List.mem_cons.mp h with rfl | h
      · exact .inr (.inl rfl)
      · exact .inl h
    · rcases List.mem_cons.mp h with rfl | h
      · exact .inr (.inr ⟨v, List.mem_cons_self, rfl⟩)
      · exact .inl (List.mem_cons_of_mem _ h)
    · rcases List.mem_cons.mp h with rfl | h
      · exact .inl List.mem_cons_self
      · rcases ih h with h | h | ⟨v', h, hf⟩
        · exact .inl (List.mem_cons_of_mem _ h)
        · exact .inr (.inl h)
        · exact .inr (.inr ⟨v', List.mem_cons_of_mem _ h, hf⟩)

theorem upsert_ne_nil {k : κ} {f : Option ν → ν} : upsert k f m ≠ [] := by
  cases m with
  | nil => nofun
  | cons p m =>
    rw [upsert]
    split <;> nofun

end Map

section Set

variable {α : Type} [Ord α]

/-- `BTreeSet::insert`: whether the element is new, and the set with it. -/
def insert (a : α) : List α → Bool × List α
  | [] => (true, [a])
  | b :: s =>
    match compare a b with
    | .lt => (true, a :: b :: s)
    | .eq => (false, b :: s)
    | .gt => ((insert a s).1, b :: (insert a s).2)

variable {s : List α}

theorem insert_ne_nil {a : α} : (insert a s).2 ≠ [] := by
  cases s with
  | nil => nofun
  | cons b s =>
    rw [insert]
    split <;> nofun

theorem mem_insert {a b : α} (h : b ∈ (insert a s).2) : b = a ∨ b ∈ s := by
  induction s with
  | nil => exact .inl (List.mem_singleton.mp h)
  | cons c s ih =>
    rw [insert] at h
    split at h
    · exact List.mem_cons.mp h
    · exact .inr h
    · rcases List.mem_cons.mp h with rfl | h
      · exact .inr List.mem_cons_self
      · exact (ih h).imp id (List.mem_cons_of_mem _)

theorem mem_insert_of_mem {a b : α} (h : b ∈ s) : b ∈ (insert a s).2 := by
  induction s with
  | nil => cases h
  | cons c s ih =>
    rw [insert]
    split
    · exact List.mem_cons_of_mem _ h
    · exact h
    · rcases List.mem_cons.mp h with rfl | h
      · exact List.mem_cons_self
      · exact List.mem_cons_of_mem _ (ih h)

theorem mem_insert_self {a : α} (heq : ∀ b, compare a b = .eq → a = b) : a ∈ (insert a s).2 := by
  induction s with
  | nil => exact List.mem_singleton_self a
  | cons c s ih =>
    rw [insert]
    split
    · exact List.mem_cons_self
    · next hc => exact heq c hc ▸ List.mem_cons_self
    · exact List.mem_cons_of_mem _ ih

theorem sum_insert_le (f : α → Nat) {a : α} : ((insert a s).2.map f).sum ≤ f a + (s.map f).sum := by
  induction s with
  | nil => exact Nat.le_refl _
  | cons c s ih =>
    rw [insert]
    split
    · exact Nat.le_refl _
    · exact Nat.le_add_left _ _
    · rw [List.map_cons, List.map_cons, List.sum_cons, List.sum_cons]
      omega

theorem insert_pairwise {R : α → α → Prop} {a : α} (h : s.Pairwise R)
    (hlt : ∀ b, compare a b = .lt → R a b) (hgt : ∀ b, compare a b = .gt → R b a)
    (htrans : ∀ b c, R a b → R b c → R a c) : (insert a s).2.Pairwise R := by
  induction s with
  | nil => exact List.pairwise_singleton R a
  | cons c s ih =>
    obtain ⟨hc, hs⟩ := List.pairwise_cons.mp h
    rw [insert]
    split
    · next hac =>
        refine List.pairwise_cons.mpr ⟨fun b hb => ?_, h⟩
        rcases List.mem_cons.mp hb with rfl | hb
        · exact hlt b hac
        · exact htrans c b (hlt c hac) (hc b hb)
    · exact h
    · next hac =>
        refine List.pairwise_cons.mpr ⟨fun b hb => ?_, ih hs⟩
        rcases mem_insert hb with rfl | hb
        · exact hgt c hac
        · exact hc b hb

/-- `BTreeSet::remove`: the set without the element, if it is there. -/
def remove (a : α) : List α → Option (List α)
  | [] => none
  | b :: s => if compare a b = .eq then some s else (remove a s).map (b :: ·)

theorem mem_remove {a b : α} {s s' : List α} (h : remove a s = some s') (hb : b ∈ s') :
    b ∈ s := by
  induction s generalizing s' with
  | nil => cases h
  | cons c s ih =>
    rw [remove] at h
    split at h
    · cases h
      exact List.mem_cons_of_mem _ hb
    · obtain ⟨r, hr, rfl⟩ := Option.map_eq_some_iff.mp h
      rcases List.mem_cons.mp hb with rfl | hb
      · exact List.mem_cons_self
      · exact List.mem_cons_of_mem _ (ih hr hb)

theorem remove_sublist {a : α} {s s' : List α} (h : remove a s = some s') : s'.Sublist s := by
  induction s generalizing s' with
  | nil => cases h
  | cons c s ih =>
    rw [remove] at h
    split at h
    · cases h
      exact List.sublist_cons_self c s
    · obtain ⟨r, hr, rfl⟩ := Option.map_eq_some_iff.mp h
      exact (ih hr).cons_cons c

end Set

/-- A level of a map that has run empty is taken out. -/
def nonempty {α : Type} (l : List α) : Option (List α) := if l.isEmpty then none else some l

theorem nonempty_eq_some {α : Type} {l l' : List α} (h : nonempty l = some l') : l' = l := by
  rw [nonempty] at h
  split at h
  · cases h
  · exact (Option.some.inj h).symm

theorem nonempty_ne_nil {α : Type} {l l' : List α} (h : nonempty l = some l') : l' ≠ [] := by
  cases l with
  | nil => cases h
  | cons a l =>
    cases h
    nofun

theorem nonempty_getD {α : Type} (l : List α) : (nonempty l).getD [] = l := by
  cases l <;> rfl

theorem flatMap_nonempty {κ α β γ : Type} (f : κ × α → List β) (g : κ → List β → List γ)
    (hg : ∀ k, g k [] = []) (l : List (κ × α)) :
    (l.filterMap fun p => (nonempty (f p)).map (p.1, ·)).flatMap (fun p => g p.1 p.2) =
      l.flatMap fun p => g p.1 (f p) := by
  induction l with
  | nil => rfl
  | cons p l ih =>
    rw [List.filterMap_cons, List.flatMap_cons, ← ih]
    cases hleft : f p with
    | nil => rw [hg]; rfl
    | cons b bs => rfl

end Hardy.Sorted
