import Std.Data.TreeMap.Lemmas
import Hardy.Sorted

/-!
# Sorted maps and sets under a lawful order

Where the comparison is that of a total preorder and the entries are in its order, a
lookup after an operation is one before it, or finds what the operation has put there.
Keys that compare as equal are one key.
-/

namespace Hardy.Sorted

section

variable {κ ν : Type} [Ord κ] [Std.TransOrd κ] {k k' : κ} {m : List (κ × ν)}

/-! ## Maps -/

def Keyed (m : List (κ × ν)) : Prop := m.Pairwise fun p q => compare p.1 q.1 = .lt

section

omit [Std.TransOrd κ]

theorem get_cons {p : κ × ν} :
    get k (p :: m) = if compare k p.1 = .eq then some p.2 else get k m := rfl

theorem get_eq_none (h : ∀ p ∈ m, compare k p.1 ≠ .eq) : get k m = none := by
  induction m with
  | nil => rfl
  | cons p m ih =>
    rw [get_cons, if_neg (h p List.mem_cons_self)]
    exact ih fun q hq => h q (List.mem_cons_of_mem _ hq)

theorem mem_of_get {v : ν} (h : get k m = some v) : ∃ p ∈ m, compare k p.1 = .eq ∧ p.2 = v := by
  induction m with
  | nil => cases h
  | cons p m ih =>
    rw [get_cons] at h
    split at h
    · next heq =>
        cases h
        exact ⟨p, List.mem_cons_self, heq, rfl⟩
    · obtain ⟨q, hq, hrest⟩ := ih h
      exact ⟨q, List.mem_cons_of_mem _ hq, hrest⟩

end

theorem get_congr (h : compare k k' = .eq) : get k m = get k' m := by
  induction m with
  | nil => rfl
  | cons p m ih => rw [get_cons, get_cons, Std.TransCmp.congr_left h, ih]

theorem get_tail {p : κ × ν} (h : Keyed (p :: m)) (hk : compare k p.1 ≠ .gt) :
    get k m = none := by
  refine get_eq_none fun q hq heq => ?_
  have hlt := (List.pairwise_cons.mp h).1 q hq
  have hle : (compare k p.1).isLE := by
    cases hc : compare k p.1 with
    | lt => rfl
    | eq => rfl
    | gt => exact absurd hc hk
  have hcontra := Std.TransCmp.lt_of_isLE_of_lt hle hlt
  rw [heq] at hcontra
  cases hcontra

theorem get_upsert (h : Keyed m) (f : Option ν → ν) :
    get k' (upsert k f m) = if compare k' k = .eq then some (f (get k m)) else get k' m := by
  induction m with
  | nil => rfl
  | cons p m ih =>
    obtain ⟨k₀, v⟩ := p
    rw [upsert]
    cases hc : compare k k₀ with
    | lt =>
      have hnone : get k ((k₀, v) :: m) = none := by
        rw [get_cons, if_neg (by rw [hc]; exact Ordering.noConfusion)]
        exact get_tail h (by rw [hc]; exact Ordering.noConfusion)
      rw [hnone]
      rfl
    | eq =>
      have hsome : get k ((k₀, v) :: m) = some v := by
        rw [get_cons, if_pos hc]
      rw [hsome]
      dsimp only
      rw [get_cons, get_cons, Std.TransCmp.congr_right (Std.OrientedCmp.eq_symm hc)]
      split
      · rfl
      · rfl
    | gt =>
      have hrest : get k ((k₀, v) :: m) = get k m := by
        rw [get_cons, if_neg (by rw [hc]; exact Ordering.noConfusion)]
      rw [hrest]
      dsimp only
      rw [get_cons, get_cons, ih (List.pairwise_cons.mp h).2]
      by_cases heq : compare k' k = .eq
      · have hgt : compare k' k₀ = .gt := (Std.TransCmp.congr_left heq).trans hc
        rw [if_neg (by rw [hgt]; exact Ordering.noConfusion), if_pos heq, if_pos heq]
      · rw [if_neg heq, if_neg heq]

omit [Std.TransOrd κ] in
theorem key_of_upsert {f : Option ν → ν} {q : κ × ν} (h : q ∈ upsert k f m) :
    q.1 = k ∨ ∃ p ∈ m, p.1 = q.1 := by
  induction m with
  | nil =>
    cases List.mem_singleton.mp h
    exact .inl rfl
  | cons p m ih =>
    rw [upsert] at h
    cases hc : compare k p.1 with
    | lt =>
      rw [hc] at h
      rcases List.mem_cons.mp h with rfl | h
      · exact .inl rfl
      · exact .inr ⟨q, h, rfl⟩
    | eq =>
      rw [hc] at h
      rcases List.mem_cons.mp h with rfl | h
      · exact .inr ⟨p, List.mem_cons_self, rfl⟩
      · exact .inr ⟨q, List.mem_cons_of_mem _ h, rfl⟩
    | gt =>
      rw [hc] at h
      rcases List.mem_cons.mp h with rfl | h
      · exact .inr ⟨p, List.mem_cons_self, rfl⟩
      · rcases ih h with heq | ⟨p', hp', heq⟩
        · exact .inl heq
        · exact .inr ⟨p', List.mem_cons_of_mem _ hp', heq⟩

theorem keyed_upsert (h : Keyed m) (f : Option ν → ν) : Keyed (upsert k f m) := by
  induction m with
  | nil => exact List.pairwise_singleton _ _
  | cons p m ih =>
    obtain ⟨k₀, v⟩ := p
    obtain ⟨hfirst, hm⟩ := List.pairwise_cons.mp h
    rw [upsert]
    cases hc : compare k k₀ with
    | lt =>
      refine List.pairwise_cons.mpr ⟨fun q hq => ?_, h⟩
      rcases List.mem_cons.mp hq with rfl | hq
      · exact hc
      · exact Std.TransCmp.lt_trans hc (hfirst q hq)
    | eq => exact List.pairwise_cons.mpr ⟨hfirst, hm⟩
    | gt =>
      refine List.pairwise_cons.mpr ⟨fun q hq => ?_, ih hm⟩
      rcases key_of_upsert hq with heq | ⟨p, hp, heq⟩
      · rw [heq]
        exact Std.OrientedCmp.lt_of_gt hc
      · rw [← heq]
        exact hfirst p hp

theorem get_update (h : Keyed m) (f : ν → Option ν) :
    get k' (update k f m) = if compare k' k = .eq then (get k m).bind f else get k' m := by
  induction m with
  | nil =>
    rw [update]
    split
    · rfl
    · rfl
  | cons p m ih =>
    obtain ⟨k₀, v⟩ := p
    rw [update, get_cons]
    by_cases hc : compare k k₀ = .eq
    · have hnone : get k' m = none ∨ ¬ compare k' k = .eq := by
        by_cases heq : compare k' k = .eq
        · refine .inl (get_tail h ?_)
          rw [Std.TransCmp.congr_left heq, hc]
          exact Ordering.noConfusion
        · exact .inr heq
      rw [if_pos hc, if_pos hc, Option.bind_some]
      cases hv : f v with
      | none =>
        dsimp only
        rw [get_cons, ← Std.TransCmp.congr_right hc]
        split
        · next heq => exact hnone.resolve_right (not_not_intro heq)
        · rfl
      | some w =>
        dsimp only
        rw [get_cons, get_cons, ← Std.TransCmp.congr_right hc]
        split
        · rfl
        · rfl
    · rw [if_neg hc, if_neg hc, get_cons, get_cons, ih (List.pairwise_cons.mp h).2]
      by_cases heq : compare k' k = .eq
      · rw [if_neg (by rw [Std.TransCmp.congr_left heq]; exact hc), if_pos heq, if_pos heq]
      · rw [if_neg heq, if_neg heq]

section

omit [Std.TransOrd κ]

theorem key_of_update {f : ν → Option ν} {q : κ × ν} (h : q ∈ update k f m) :
    ∃ p ∈ m, p.1 = q.1 := by
  rcases mem_update h with h | ⟨v, h, -⟩
  · exact ⟨q, h, rfl⟩
  · exact ⟨(q.1, v), h, rfl⟩

theorem keyed_update (h : Keyed m) (f : ν → Option ν) : Keyed (update k f m) := by
  induction m with
  | nil => exact h
  | cons p m ih =>
    obtain ⟨hfirst, hm⟩ := List.pairwise_cons.mp h
    rw [update]
    split
    · split
      · exact List.pairwise_cons.mpr ⟨hfirst, hm⟩
      · exact hm
    · refine List.pairwise_cons.mpr ⟨fun q hq => ?_, ih hm⟩
      obtain ⟨p', hp', heq⟩ := key_of_update hq
      rw [← heq]
      exact hfirst p' hp'

theorem keyed_filterMap {ν' : Type} {f : κ × ν → Option (κ × ν')}
    (h : Keyed m) (hf : ∀ p q, f p = some q → q.1 = p.1) : Keyed (m.filterMap f) := by
  refine List.pairwise_filterMap.mpr (h.imp fun {p q} hlt p' hp q' hq => ?_)
  rw [hf p p' hp, hf q q' hq]
  exact hlt

end

/-! ## Runs over keys that the order tells apart -/

/-- One operation on a map: an entry is put in or replaced, changed or removed. -/
inductive MapOp (κ ν : Type) where
  | upsert (k : κ) (f : Option ν → ν)
  | update (k : κ) (f : ν → Option ν)

namespace MapOp

def key : MapOp κ ν → κ
  | .upsert k _ => k
  | .update k _ => k

def run (m : List (κ × ν)) : MapOp κ ν → List (κ × ν)
  | .upsert k f => Sorted.upsert k f m
  | .update k f => Sorted.update k f m

def denote [DecidableEq κ] (F : κ → Option ν) : MapOp κ ν → κ → Option ν
  | .upsert k f => Function.update F k (some (f (F k)))
  | .update k f => Function.update F k ((F k).bind f)

end MapOp

structure Linear (S : κ → Prop) : Prop where
  refl : ∀ a, S a → compare a a = .eq
  swap : ∀ a b, S a → S b → compare b a = (compare a b).swap
  antisymm : ∀ a b, S a → S b → (compare a b).isLE → (compare b a).isLE → a = b
  trans : ∀ a b c, S a → S b → S c → (compare a b).isLE → (compare b c).isLE → (compare a c).isLE
  total : ∀ a b, S a → S b → (compare a b).isLE ∨ (compare b a).isLE
  eq_iff : ∀ a b, S a → S b → (compare a b = .eq ↔ a = b)

theorem Linear.of_eq {S : κ → Prop} (heq : ∀ a b, S a → S b → compare a b = .eq → a = b) :
    Linear S where
  refl _ _ := Std.ReflCmp.compare_self
  swap _ _ _ _ := Std.OrientedCmp.eq_swap
  antisymm a b ha hb hab hba := heq a b ha hb (Std.OrientedCmp.isLE_antisymm hab hba)
  trans _ _ _ _ _ _ := Std.TransCmp.isLE_trans
  total a b _ _ := by
    have hswap : compare b a = (compare a b).swap := Std.OrientedCmp.eq_swap
    rw [hswap]
    cases compare a b <;> simp
  eq_iff a b ha hb := ⟨heq a b ha hb, fun h => h ▸ Std.ReflCmp.compare_self⟩

/-- The map is that of the function: in order, without a key twice, and with the entries of the
function and no others. -/
structure Represents (S : κ → Prop) (F : κ → Option ν) (m : List (κ × ν)) : Prop where
  keyed : Keyed m
  nodup : (m.map Prod.fst).Nodup
  keys : ∀ p ∈ m, S p.1
  find : ∀ k, S k → get k m = F k
  mem : ∀ k v, S k → ((k, v) ∈ m ↔ F k = some v)

theorem keyed_nodup (h : Keyed m) : (m.map Prod.fst).Nodup := by
  refine List.pairwise_map.mpr (h.imp fun {p q} hlt heq => ?_)
  have hself : compare q.1 q.1 = .eq := Std.ReflCmp.compare_self
  rw [heq, hself] at hlt
  cases hlt

theorem get_of_mem (h : Keyed m) {v : ν} (hmem : (k, v) ∈ m) : get k m = some v := by
  induction m with
  | nil => cases hmem
  | cons p m ih =>
    rw [get_cons]
    rcases List.mem_cons.mp hmem with rfl | hrest
    · rw [if_pos Std.ReflCmp.compare_self]
    · have hlt := (List.pairwise_cons.mp h).1 _ hrest
      have hne : compare k p.1 ≠ .eq := fun heq => by
        rw [Std.OrientedCmp.eq_symm heq] at hlt
        cases hlt
      rw [if_neg hne]
      exact ih (List.pairwise_cons.mp h).2 hrest

section

variable {S : κ → Prop} {F : κ → Option ν}

theorem Represents.of_get (hS : Linear S) (h : Keyed m) (hkeys : ∀ p ∈ m, S p.1)
    (hget : ∀ k, S k → get k m = F k) : Represents S F m where
  keyed := h
  nodup := keyed_nodup h
  keys := hkeys
  find := hget
  mem k v hk := by
    rw [← hget k hk]
    constructor
    · exact get_of_mem h
    · intro hsome
      obtain ⟨⟨k', _⟩, hp, heq, rfl⟩ := mem_of_get hsome
      obtain rfl := (hS.eq_iff k k' hk (hkeys _ hp)).mp heq
      exact hp

theorem Represents.step [DecidableEq κ] (hS : Linear S) (h : Represents S F m) {op : MapOp κ ν}
    (hop : S op.key) : Represents S (op.denote F) (op.run m) := by
  have hupdate : ∀ {k k' : κ} {o o' : Option ν}, S k → S k' → o' = F k' →
      (if compare k' k = .eq then o else o') = Function.update F k o k' := by
    intro k k' o o' hk hk' ho
    by_cases heq : k' = k
    · subst heq
      rw [if_pos (hS.refl _ hk), Function.update_self]
    · rw [if_neg (mt (hS.eq_iff _ _ hk' hk).mp heq), Function.update_of_ne heq, ho]
  cases op with
  | upsert k f =>
    refine .of_get hS (keyed_upsert h.keyed f) (fun p hp => ?_) fun k' hk' => ?_
    · rcases key_of_upsert hp with heq | ⟨q, hq, heq⟩
      · exact heq ▸ hop
      · exact heq ▸ h.keys q hq
    · refine (get_upsert h.keyed f).trans ?_
      rw [h.find k hop]
      exact hupdate hop hk' (h.find k' hk')
  | update k f =>
    refine .of_get hS (keyed_update h.keyed f) (fun p hp => ?_) fun k' hk' => ?_
    · obtain ⟨q, hq, heq⟩ := key_of_update hp
      exact heq ▸ h.keys q hq
    · refine (get_update h.keyed f).trans ?_
      rw [h.find k hop]
      exact hupdate hop hk' (h.find k' hk')

theorem Represents.foldl [DecidableEq κ] (hS : Linear S) {ops : List (MapOp κ ν)}
    (h : Represents S F m) (hops : ∀ op ∈ ops, S op.key) :
    Represents S (ops.foldl MapOp.denote F) (ops.foldl MapOp.run m) := by
  induction ops generalizing F m with
  | nil => exact h
  | cons op ops ih =>
    exact ih (h.step hS (hops op List.mem_cons_self)) fun o ho =>
      hops o (List.mem_cons_of_mem _ ho)

theorem Represents.nil (hS : Linear S) : Represents S (fun _ => none) ([] : List (κ × ν)) :=
  .of_get hS .nil nofun fun _ _ => rfl

end

end

/-! ## Sets -/

section

variable {α : Type} [Ord α] [Std.TransOrd α] {a b : α} {s s' : List α}

def Strict (s : List α) : Prop := s.Pairwise fun a b => compare a b = .lt

/-- `BTreeSet::contains` -/
def Has (a : α) (s : List α) : Prop := ∃ b ∈ s, compare a b = .eq

theorem has_insert : Has b (insert a s).2 ↔ compare b a = .eq ∨ Has b s := by
  have hself : ∃ c ∈ (insert a s).2, compare a c = .eq := by
    induction s with
    | nil => exact ⟨a, List.mem_singleton_self a, Std.ReflCmp.compare_self⟩
    | cons c s ih =>
      rw [insert]
      cases hc : compare a c with
      | lt => exact ⟨a, List.mem_cons_self, Std.ReflCmp.compare_self⟩
      | eq => exact ⟨c, List.mem_cons_self, hc⟩
      | gt =>
        obtain ⟨d, hd, heq⟩ := ih
        exact ⟨d, List.mem_cons_of_mem _ hd, heq⟩
  constructor
  · rintro ⟨c, hc, heq⟩
    rcases mem_insert hc with rfl | hc
    · exact .inl heq
    · exact .inr ⟨c, hc, heq⟩
  · rintro (heq | ⟨c, hc, heq⟩)
    · obtain ⟨c, hc, hac⟩ := hself
      exact ⟨c, hc, Std.TransCmp.eq_trans heq hac⟩
    · exact ⟨c, mem_insert_of_mem hc, heq⟩

theorem insert_fst (h : Strict s) : (insert a s).1 = true ↔ ¬ Has a s := by
  induction s with
  | nil =>
    refine ⟨fun _ hhas => ?_, fun _ => rfl⟩
    obtain ⟨b, hb, -⟩ := hhas
    exact List.not_mem_nil hb
  | cons c s ih =>
    obtain ⟨hfirst, hs⟩ := List.pairwise_cons.mp h
    rw [insert]
    cases hc : compare a c with
    | lt =>
      refine ⟨fun _ hhas => ?_, fun _ => rfl⟩
      obtain ⟨b, hb, heq⟩ := hhas
      rcases List.mem_cons.mp hb with rfl | hb
      · cases hc.symm.trans heq
      · cases (Std.TransCmp.lt_trans hc (hfirst b hb)).symm.trans heq
    | eq =>
      refine ⟨fun hf => ?_, fun hnot => absurd ⟨c, List.mem_cons_self, hc⟩ hnot⟩
      cases hf
    | gt =>
      refine (ih hs).trans (not_congr ⟨?_, ?_⟩)
      · rintro ⟨b, hb, heq⟩
        exact ⟨b, List.mem_cons_of_mem _ hb, heq⟩
      · rintro ⟨b, hb, heq⟩
        rcases List.mem_cons.mp hb with rfl | hb
        · cases hc.symm.trans heq
        · exact ⟨b, hb, heq⟩

theorem strict_insert (h : Strict s) : Strict (insert a s).2 :=
  insert_pairwise h (fun _ => id) (fun _ hc => Std.OrientedCmp.lt_of_gt hc)
    fun _ _ => Std.TransCmp.lt_trans

omit [Std.TransOrd α] in
theorem strict_remove (h : Strict s) (hr : remove a s = some s') : Strict s' :=
  h.sublist (remove_sublist hr)

omit [Std.TransOrd α] in
theorem remove_eq_none : remove a s = none ↔ ¬ Has a s := by
  induction s with
  | nil => exact ⟨fun _ ⟨b, hb, _⟩ => List.not_mem_nil hb, fun _ => rfl⟩
  | cons c s ih =>
    rw [remove]
    split
    · next heq => exact ⟨fun h => (by cases h), fun hnot => absurd ⟨c, List.mem_cons_self, heq⟩ hnot⟩
    · next hne =>
        rw [Option.map_eq_none_iff, ih]
        refine not_congr ⟨?_, ?_⟩
        · rintro ⟨b, hb, heq⟩
          exact ⟨b, List.mem_cons_of_mem _ hb, heq⟩
        · rintro ⟨b, hb, heq⟩
          rcases List.mem_cons.mp hb with rfl | hb
          · exact absurd heq hne
          · exact ⟨b, hb, heq⟩

theorem has_remove (h : Strict s) (hr : remove a s = some s') :
    Has b s' ↔ Has b s ∧ compare b a ≠ .eq := by
  induction s generalizing s' with
  | nil => cases hr
  | cons c s ih =>
    obtain ⟨hfirst, hs⟩ := List.pairwise_cons.mp h
    rw [remove] at hr
    split at hr
    · next heq =>
        cases hr
        constructor
        · rintro ⟨d, hd, hbd⟩
          refine ⟨⟨d, List.mem_cons_of_mem _ hd, hbd⟩, fun hba => ?_⟩
          have hcd := hfirst d hd
          rw [Std.TransCmp.congr_left (Std.OrientedCmp.eq_symm heq),
            Std.TransCmp.congr_left (Std.OrientedCmp.eq_symm hba), hbd] at hcd
          cases hcd
        · rintro ⟨⟨d, hd, hbd⟩, hne⟩
          rcases List.mem_cons.mp hd with rfl | hd
          · exact absurd (Std.TransCmp.eq_trans hbd (Std.OrientedCmp.eq_symm heq)) hne
          · exact ⟨d, hd, hbd⟩
    · next hne =>
        obtain ⟨r, hrest, rfl⟩ := Option.map_eq_some_iff.mp hr
        constructor
        · rintro ⟨d, hd, hbd⟩
          rcases List.mem_cons.mp hd with rfl | hd
          · refine ⟨⟨d, List.mem_cons_self, hbd⟩, fun hba => hne ?_⟩
            exact Std.TransCmp.eq_trans (Std.OrientedCmp.eq_symm hba) hbd
          · obtain ⟨⟨d', hd', hbd'⟩, hba⟩ := (ih hs hrest).mp ⟨d, hd, hbd⟩
            exact ⟨⟨d', List.mem_cons_of_mem _ hd', hbd'⟩, hba⟩
        · rintro ⟨⟨d, hd, hbd⟩, hba⟩
          rcases List.mem_cons.mp hd with rfl | hd
          · exact ⟨d, List.mem_cons_self, hbd⟩
          · obtain ⟨d', hd', hbd'⟩ := (ih hs hrest).mpr ⟨⟨d, hd, hbd⟩, hba⟩
            exact ⟨d', List.mem_cons_of_mem _ hd', hbd'⟩

end

end Hardy.Sorted
