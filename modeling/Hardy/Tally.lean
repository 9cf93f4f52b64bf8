import Hardy.Order

/-!
# Counting in maps

How many entries of a map a test accepts, and what one insertion or removal does to
that number.
-/

namespace Hardy.HashMap

variable {β : Type} {m : HashMap β} {k : Nat} {v : β}

def tally (p : β → Bool) (m : HashMap β) : Nat := m.toList.countP fun e => p e.2

theorem erase_insert_self : (m.insert k v).erase k = m.erase k := by
  refine Std.ExtTreeMap.ext_getElem? fun n => ?_
  rw [getElem?_erase, getElem?_erase, getElem?_insert]
  split
  · rfl
  · rfl

theorem erase_of_none (h : m[k]? = none) : m.erase k = m := by
  refine Std.ExtTreeMap.ext_getElem? fun n => ?_
  rw [getElem?_erase]
  split
  · next heq =>
      subst heq
      exact h.symm
  · rfl

theorem toList_perm (h : m[k]? = some v) : m.toList.Perm ((k, v) :: (m.erase k).toList) := by
  have hnodup : ∀ m : HashMap β, m.toList.Nodup := fun m =>
    (@HashOrder.iter_pairwise β .sorted m).imp fun hne heq => hne (congrArg Prod.fst heq)
  have hmem : ∀ (m : HashMap β) e, e ∈ m.toList ↔ m[e.1]? = some e.2 := fun m e =>
    @HashOrder.mem_iter β .sorted m e
  refine (List.perm_ext_iff_of_nodup (hnodup m) (List.nodup_cons.mpr ⟨?_, hnodup _⟩)).mpr ?_
  · rw [hmem, getElem?_erase, if_pos rfl]
    exact fun h => by cases h
  · rintro ⟨k', v'⟩
    rw [hmem, List.mem_cons, hmem, getElem?_erase, Prod.mk.injEq]
    dsimp only
    by_cases heq : k' = k
    · subst heq
      rw [h, if_pos rfl, Option.some.injEq]
      constructor
      · exact fun h => .inl ⟨rfl, h.symm⟩
      · rintro (⟨-, h⟩ | h)
        · exact h.symm
        · cases h
    · rw [if_neg heq]
      exact ⟨.inr, fun h => h.resolve_left fun h => heq h.1⟩

theorem tally_eq_erase (p : β → Bool) (h : m[k]? = some v) :
    tally p m = tally p (m.erase k) + if p v then 1 else 0 := by
  unfold tally
  rw [(toList_perm h).countP_eq, List.countP_cons]

theorem tally_insert (p : β → Bool) :
    tally p (m.insert k v) = tally p (m.erase k) + if p v then 1 else 0 := by
  have hself : (m.insert k v)[k]? = some v := by rw [getElem?_insert, if_pos rfl]
  rw [tally_eq_erase p hself, erase_insert_self]

theorem tally_eq_zero {p : β → Bool} :
    tally p m = 0 ↔ ∀ (k : Nat) (v : β), m[k]? = some v → p v = false := by
  unfold tally
  rw [List.countP_eq_zero]
  constructor
  · intro h k v hv
    exact eq_false_of_ne_true (h (k, v) ((@HashOrder.mem_iter β .sorted m (k, v)).mpr hv))
  · intro h e he
    rw [h e.1 e.2 ((@HashOrder.mem_iter β .sorted m e).mp he)]
    exact Bool.false_ne_true

end Hardy.HashMap
