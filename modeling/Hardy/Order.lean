import Hardy.Fold
import Hardy.Types

/-!
# Walks over hash maps

A loop over a hash map that succeeds does so in every order of the map and
with the same result, when the steps for two different keys can be exchanged.
-/

namespace Hardy

variable {ε σ β γ : Type}

theorem HashOrder.mem_iter [HashOrder] {m : HashMap β} {e : Nat × β} :
    e ∈ iter m ↔ m[e.1]? = some e.2 := by
  rw [(iter_perm m).mem_iff]
  exact Std.ExtTreeMap.mem_toList_iff_getElem?_eq_some

theorem HashOrder.iter_pairwise [HashOrder] (m : HashMap β) :
    (iter m).Pairwise fun a b => a.1 ≠ b.1 := by
  refine (iter_perm m).symm.pairwise ?_ fun h => h.symm
  refine Std.ExtTreeMap.distinct_keys_toList.imp fun h he => h ?_
  rw [Nat.compare_eq_eq]
  exact he

theorem foldlM_iter {step : σ → Nat × β → Except ε σ}
    (hswap : ∀ {s a b s₁ s₂}, a.1 ≠ b.1 → step s a = .ok s₁ → step s₁ b = .ok s₂ →
      ∃ s₁', step s b = .ok s₁' ∧ step s₁' a = .ok s₂)
    (o o' : HashOrder) {m : HashMap β} {s s' : σ} (h : (o.iter m).foldlM step s = .ok s') :
    (o'.iter m).foldlM step s = .ok s' :=
  Fold.foldlM_perm (R := fun a b => a.1 ≠ b.1) (fun h => h.symm) hswap
    ((o.iter_perm m).trans (o'.iter_perm m).symm) (@HashOrder.iter_pairwise _ o m) h

theorem forM_iter {f : Nat × β → Except ε Unit} [HashOrder] {m : HashMap β} :
    (HashOrder.iter m).forM f = .ok () ↔ ∀ (k : Nat) (v : β), m[k]? = some v → f (k, v) = .ok () := by
  rw [Fold.forM_ok]
  constructor
  · exact fun h k v hv => h (k, v) (HashOrder.mem_iter.mpr hv)
  · exact fun h e he => h e.1 e.2 (HashOrder.mem_iter.mp he)

theorem HashMap.insert_comm {m : HashMap β} {k k' : Nat} (hne : k ≠ k') (v v' : β) :
    (m.insert k v).insert k' v' = (m.insert k' v').insert k v := by
  refine Std.ExtTreeMap.ext_getElem? fun n => ?_
  simp only [HashMap.getElem?_insert]
  split
  · next h =>
      subst h
      rw [if_neg hne.symm]
  · rfl

theorem foldl_modify {l : List (Nat × γ)} (hl : l.Pairwise fun a b => a.1 ≠ b.1) (f : β → β)
    (m : HashMap β) (n : Nat) :
    (l.foldl (fun m e => m.modify e.1 f) m)[n]? =
      if n ∈ l.map Prod.fst then m[n]?.map f else m[n]? := by
  induction l generalizing m with
  | nil => rfl
  | cons e l ih =>
    obtain ⟨hne, hl⟩ := List.pairwise_cons.mp hl
    rw [List.foldl_cons, ih hl, List.map_cons, HashMap.getElem?_modify]
    by_cases hn : n = e.1
    · have hnot : e.1 ∉ l.map Prod.fst := by
        intro hmem
        obtain ⟨a, ha, he⟩ := List.mem_map.mp hmem
        exact hne a ha he.symm
      subst hn
      simp [hnot]
    · simp only [List.mem_cons, hn, false_or, if_false]

/-! ## Maps of pairs -/

def HashMap.ofPairs (l : List (Nat × β)) : HashMap β :=
  l.foldl (fun m e => m.insert e.1 e.2) ∅

variable {l : List (Nat × β)}

theorem HashMap.getElem?_foldl_insert
    (hl : l.Pairwise fun a b => a.1 ≠ b.1) (m : HashMap β) {k : Nat} {v : β} :
    (l.foldl (fun m e => m.insert e.1 e.2) m)[k]? = some v ↔
      (k, v) ∈ l ∨ k ∉ l.map Prod.fst ∧ m[k]? = some v := by
  induction l generalizing m with
  | nil => simp
  | cons e l ih =>
    obtain ⟨hne, hl⟩ := List.pairwise_cons.mp hl
    have hnot : e.1 ∉ l.map Prod.fst := by
      intro hmem
      obtain ⟨a, ha, he⟩ := List.mem_map.mp hmem
      exact hne a ha he.symm
    rw [List.foldl_cons, ih hl, List.map_cons, HashMap.getElem?_insert, List.mem_cons,
      List.mem_cons]
    by_cases hk : k = e.1
    · subst hk
      have hpair : ∀ w, (e.1, w) ∉ l := fun w hw => hnot (List.mem_map.mpr ⟨_, hw, rfl⟩)
      simp [hnot, hpair, Prod.ext_iff, eq_comm]
    · simp [hk, Prod.ext_iff]

theorem HashMap.getElem?_ofPairs (hl : l.Pairwise fun a b => a.1 ≠ b.1)
    {k : Nat} {v : β} : (ofPairs l)[k]? = some v ↔ (k, v) ∈ l := by
  rw [ofPairs, getElem?_foldl_insert hl]
  simp

theorem HashMap.ext_some {m m' : HashMap β} (h : ∀ (k : Nat) v, m[k]? = some v ↔ m'[k]? = some v) :
    m = m' := by
  refine Std.ExtTreeMap.ext_getElem? fun k => ?_
  exact Option.ext fun v => h k v

theorem HashMap.ofPairs_iter [HashOrder] (m : HashMap β) : ofPairs (HashOrder.iter m) = m := by
  refine ext_some fun k v => ?_
  rw [getElem?_ofPairs (HashOrder.iter_pairwise m), HashOrder.mem_iter]

theorem nodup_of_keys (hl : l.Pairwise fun a b => a.1 ≠ b.1) : l.Nodup :=
  hl.imp fun hne he => hne (congrArg Prod.fst he)

theorem HashOrder.iter_ofPairs [HashOrder]
    (hl : l.Pairwise fun a b => a.1 ≠ b.1) : (iter (HashMap.ofPairs l)).Perm l := by
  refine (List.perm_ext_iff_of_nodup (nodup_of_keys (iter_pairwise _)) (nodup_of_keys hl)).mpr ?_
  intro e
  rw [mem_iter, HashMap.getElem?_ofPairs hl]

theorem foldlM_ofPairs [HashOrder] {step : σ → Nat × β → Except ε σ}
    (hswap : ∀ {s a b s₁ s₂}, a.1 ≠ b.1 → step s a = .ok s₁ → step s₁ b = .ok s₂ →
      ∃ s₁', step s b = .ok s₁' ∧ step s₁' a = .ok s₂) (hl :
    l.Pairwise fun a b => a.1 ≠ b.1) {s s' : σ}
    (h : l.foldlM step s = .ok s') : (HashOrder.iter (HashMap.ofPairs l)).foldlM step s = .ok s' :=
  Fold.foldlM_perm (R := fun a b => a.1 ≠ b.1) (fun h => h.symm) hswap
    (HashOrder.iter_ofPairs hl).symm hl h

end Hardy
