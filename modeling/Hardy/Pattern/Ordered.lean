import Hardy.Coded
import Hardy.Pattern.Specificity

/-!
# The order of patterns

The comparisons of endpoint ids and of patterns go by codes, so that a sorted list of
patterns is a map in which keys that compare as equal are one key.  Two patterns whose
ranges are canonical compare as equal only if they are the same.
-/

namespace Hardy

open Coded

/-! ## Endpoint ids -/

instance : Coded IpnNodeId where
  code n := code n.allocatorId ++ code n.nodeNumber
  compare_append a b r r' := by
    rw [List.append_assoc, List.append_assoc, compare_append, compare_append]
    exact (then_then ..).symm

def Eid.code : Eid → List Int
  | .null => [0]
  | .localNode serviceNumber => 1 :: Coded.code serviceNumber
  | .legacyIpn fqnn serviceNumber => 2 :: (Coded.code fqnn ++ Coded.code serviceNumber)
  | .ipn fqnn serviceNumber => 3 :: (Coded.code fqnn ++ Coded.code serviceNumber)
  | .dtn nodeName serviceName => 4 :: (Coded.code nodeName ++ Coded.code serviceName)
  | .unknown scheme ssp => 5 :: (Coded.code scheme ++ Coded.code ssp)

instance : Coded Eid where
  code := Eid.code
  compare_append a b r r' := by
    cases a <;> cases b <;> simp only [Eid.code, List.cons_append, List.nil_append,
      List.append_assoc, compare_cons, compare_append, compare_same]
    all_goals first | rfl | exact (then_then ..).symm | exact (then_single ..).symm

theorem eq_of_then {α : Type} [Ord α] [Std.LawfulEqOrd α] {o : Ordering} {a b : α}
    (h : o.then ((compare a b).then .eq) = .eq) : o = .eq ∧ a = b := by
  obtain ⟨ho, hab⟩ := Ordering.then_eq_eq.mp h
  rw [Ordering.then_eq, Std.compare_eq_iff_eq] at hab
  exact ⟨ho, hab⟩

theorem IpnNodeId.eq_of_compare {a b : IpnNodeId} (h : compare a b = .eq) : a = b := by
  obtain ⟨ha, hn⟩ := Ordering.then_eq_eq.mp h
  rw [Ordering.then_eq, Std.compare_eq_iff_eq] at hn
  cases a
  cases b
  cases Std.compare_eq_iff_eq.mp ha
  cases hn
  rfl

theorem Eid.eq_of_compare {a b : Eid} (h : compare a b = .eq) : a = b := by
  cases a with
  | null => cases b <;> first | rfl | cases h
  | localNode s =>
    cases b with
    | localNode s' =>
      have h : (compare s s').then .eq = .eq := h
      rw [Ordering.then_eq, Std.compare_eq_iff_eq] at h
      rw [h]
    | _ => cases h
  | legacyIpn n s =>
    cases b with
    | legacyIpn n' s' =>
      obtain ⟨hn, hs⟩ := eq_of_then h
      rw [IpnNodeId.eq_of_compare hn, hs]
    | _ => cases h
  | ipn n s =>
    cases b with
    | ipn n' s' =>
      obtain ⟨hn, hs⟩ := eq_of_then h
      rw [IpnNodeId.eq_of_compare hn, hs]
    | _ => cases h
  | dtn n s =>
    cases b with
    | dtn n' s' =>
      obtain ⟨hn, hs⟩ := eq_of_then h
      rw [Std.compare_eq_iff_eq.mp hn, hs]
    | _ => cases h
  | unknown n s =>
    cases b with
    | unknown n' s' =>
      obtain ⟨hn, hs⟩ := eq_of_then h
      rw [Std.compare_eq_iff_eq.mp hn, hs]
    | _ => cases h

/-! ## Patterns of the `ipn` scheme -/

def IpnInterval.code : IpnInterval → List Int
  | .number n => [(n : Int), 0]
  | .range s e => [(s : Int), ((e - s : Nat) : Int)]

instance : Coded IpnInterval where
  code := IpnInterval.code
  compare_append a b r r' := by
    have hnat : ∀ m n : Nat, compare (m : Int) (n : Int) = compare m n := fun m n => by
      rw [Int.compare_eq_ite_lt, Nat.compare_eq_ite_lt]
      simp only [Int.ofNat_lt]
    cases a <;> cases b <;> simp only [IpnInterval.code, List.cons_append, List.nil_append,
      compare_cons]
    · rw [hnat]
      rfl
    · rw [hnat, ← Int.natCast_zero, hnat]
      exact (Ordering.then_assoc ..).symm
    · rw [hnat, ← Int.natCast_zero, hnat]
      exact (Ordering.then_assoc ..).symm
    · rw [hnat, hnat]
      exact (Ordering.then_assoc ..).symm

def IpnPattern.code : IpnPattern → List Int
  | .wildcard => [0]
  | .single n => 1 :: Coded.code n
  | .range intervals => 2 :: Coded.code intervals

instance : Coded IpnPattern where
  code := IpnPattern.code
  compare_append a b r r' := by
    cases a <;> cases b <;> simp only [IpnPattern.code, List.cons_append, List.nil_append,
      compare_cons, compare_append, compare_same]
    all_goals first | rfl | exact (then_single ..).symm

instance : Coded IpnPatternItem where
  code p := code p.allocatorId ++ (code p.nodeNumber ++ code p.serviceNumber)
  compare_append a b r r' := by
    simp only [List.append_assoc, compare_append]
    rw [IpnPatternItem.compare_eq, Ordering.then_assoc, Ordering.then_assoc]

/-! ## Patterns of the `dtn` scheme -/

def DtnPatternItem.code : DtnPatternItem → List Int
  | .none => [0]
  | .any => [1]
  | .exact nodeName serviceName => 2 :: (Coded.code nodeName ++ Coded.code serviceName)
  | .glob pattern => 3 :: Coded.code pattern

instance : Coded DtnPatternItem where
  code := DtnPatternItem.code
  compare_append a b r r' := by
    cases a <;> cases b <;> simp only [DtnPatternItem.code, List.cons_append, List.nil_append,
      List.append_assoc, compare_cons, compare_append, compare_same]
    all_goals first | rfl | exact (then_then ..).symm | exact (then_single ..).symm

/-! ## Patterns -/

def EidPatternItem.code : EidPatternItem → List Int
  | .anyNumericScheme scheme => 0 :: Coded.code scheme
  | .anyTextScheme scheme => 1 :: Coded.code scheme
  | .ipn item => 2 :: Coded.code item
  | .dtn item => 3 :: Coded.code item

instance : Coded EidPatternItem where
  code := EidPatternItem.code
  compare_append a b r r' := by
    cases a <;> cases b <;> simp only [EidPatternItem.code, List.cons_append,
      compare_cons, compare_append, compare_same]
    all_goals first | rfl | exact (then_single ..).symm

def EidPattern.code (p : EidPattern) : List Int :=
  -(p.score : Int) :: match p with
    | .any => [0]
    | .set items => 1 :: Coded.code items

instance : Coded EidPattern where
  code := EidPattern.code
  compare_append p q r r' := by
    have hscore : compare (-(p.score : Int)) (-(q.score : Int)) = compare q.score p.score := by
      rw [Int.compare_eq_ite_lt, Nat.compare_eq_ite_lt]
      simp only [Int.neg_lt_neg_iff, Int.ofNat_lt]
    have hcmp : compare p q = (compare q.score p.score).then (p.tieBreak q) := rfl
    rw [hcmp, Ordering.then_assoc]
    refine (compare_cons _ _ _ _).trans ?_
    rw [hscore]
    congr 1
    cases p with
    | any => cases q <;> exact compare_cons _ _ _ _
    | set items =>
      cases q with
      | any => exact compare_cons 1 0 _ _
      | set items' =>
        refine (compare_cons 1 1 (code items ++ r) (code items' ++ r')).trans ?_
        rw [compare_same, compare_append]
        rfl

/-! ## Canonical patterns -/

theorem IpnInterval.eq_of_compare {i j : IpnInterval} (hi : i.Valid) (hj : j.Valid)
    (h : compare i j = .eq) : i = j := by
  cases i with
  | number n =>
    cases j with
    | number n' => rw [Std.compare_eq_iff_eq.mp (show compare n n' = .eq from h)]
    | range s e =>
      obtain ⟨-, h⟩ := Ordering.then_eq_eq.mp h
      rw [Std.compare_eq_iff_eq] at h
      have hlt : s < e := hj.1
      omega
  | range s e =>
    obtain ⟨hs, he⟩ := hi
    cases j with
    | number n' =>
      obtain ⟨-, h⟩ := Ordering.then_eq_eq.mp h
      rw [Std.compare_eq_iff_eq] at h
      omega
    | range s' e' =>
      obtain ⟨hs', he'⟩ := hj
      obtain ⟨hstart, hlength⟩ := Ordering.then_eq_eq.mp h
      rw [Std.compare_eq_iff_eq] at hstart hlength
      obtain rfl : e = e' := by omega
      rw [hstart]

theorem Coded.eq_of_compare_list {α : Type} [Ord α] {P : α → Prop}
    (heq : ∀ a b, P a → P b → compare a b = .eq → a = b) {l l' : List α} (hl : ∀ a ∈ l, P a)
    (hl' : ∀ a ∈ l', P a) (h : compare l l' = .eq) : l = l' := by
  induction l generalizing l' with
  | nil => cases l' <;> first | rfl | cases h
  | cons a l ih =>
    cases l' with
    | nil => cases h
    | cons b l' =>
      have hlist : compare (a :: l) (b :: l') = (compare a b).then (compare l l') :=
        List.compareLex_cons_cons
      obtain ⟨hab, hll⟩ := Ordering.then_eq_eq.mp (hlist ▸ h)
      rw [heq a b (hl a List.mem_cons_self) (hl' b List.mem_cons_self) hab,
        ih (fun c hc => hl c (List.mem_cons_of_mem _ hc))
          (fun c hc => hl' c (List.mem_cons_of_mem _ hc)) hll]

theorem IpnPattern.eq_of_compare {p q : IpnPattern} (hp : p.Canonical) (hq : q.Canonical)
    (h : compare p q = .eq) : p = q := by
  cases p with
  | wildcard => cases q <;> first | rfl | cases h
  | single n =>
    cases q with
    | single n' =>
      have h : (compare n n').then .eq = .eq := h
      rw [Ordering.then_eq, Std.compare_eq_iff_eq] at h
      rw [h]
    | _ => cases h
  | range l =>
    cases q with
    | range l' =>
      rw [IpnPattern.compare_range] at h
      rw [Coded.eq_of_compare_list (fun _ _ => IpnInterval.eq_of_compare) hp.valid hq.valid h]
    | _ => cases h

theorem IpnPatternItem.eq_of_compare {p q : IpnPatternItem} (hp : p.Canonical)
    (hq : q.Canonical) (h : compare p q = .eq) : p = q := by
  rw [IpnPatternItem.compare_eq, Ordering.then_eq_eq, Ordering.then_eq_eq] at h
  obtain ⟨ha, hn, hs⟩ := h
  cases p
  cases q
  cases IpnPattern.eq_of_compare hp.allocatorId hq.allocatorId ha
  cases IpnPattern.eq_of_compare hp.nodeNumber hq.nodeNumber hn
  cases IpnPattern.eq_of_compare hp.serviceNumber hq.serviceNumber hs
  rfl

theorem DtnPatternItem.eq_of_compare {p q : DtnPatternItem} (h : compare p q = .eq) : p = q := by
  cases p with
  | none => cases q <;> first | rfl | cases h
  | any => cases q <;> first | rfl | cases h
  | exact n s =>
    cases q with
    | exact n' s' =>
      obtain ⟨hn, hs⟩ := eq_of_then h
      rw [Std.compare_eq_iff_eq.mp hn, hs]
    | _ => cases h
  | glob g =>
    cases q with
    | glob g' =>
      have h : (compare g g').then .eq = .eq := h
      rw [Ordering.then_eq, Std.compare_eq_iff_eq] at h
      rw [h]
    | _ => cases h

theorem EidPatternItem.eq_of_compare {i j : EidPatternItem} (hi : i.Canonical) (hj : j.Canonical)
    (h : compare i j = .eq) : i = j := by
  cases i with
  | anyNumericScheme n =>
    cases j with
    | anyNumericScheme n' =>
      have h : (compare n n').then .eq = .eq := h
      rw [Ordering.then_eq, Std.compare_eq_iff_eq] at h
      rw [h]
    | _ => cases h
  | anyTextScheme s =>
    cases j with
    | anyTextScheme s' =>
      have h : (compare s s').then .eq = .eq := h
      rw [Ordering.then_eq, Std.compare_eq_iff_eq] at h
      rw [h]
    | _ => cases h
  | ipn p =>
    cases j with
    | ipn q =>
      have h : (compare p q).then .eq = .eq := h
      rw [Ordering.then_eq] at h
      rw [IpnPatternItem.eq_of_compare hi hj h]
    | _ => cases h
  | dtn p =>
    cases j with
    | dtn q =>
      have h : (compare p q).then .eq = .eq := h
      rw [Ordering.then_eq] at h
      rw [DtnPatternItem.eq_of_compare h]
    | _ => cases h

theorem EidPattern.eq_of_compare {p q : EidPattern} (hp : p.Canonical) (hq : q.Canonical)
    (h : compare p q = .eq) : p = q := by
  have hcmp : compare p q = (compare q.score p.score).then (p.tieBreak q) := rfl
  obtain ⟨-, h⟩ := Ordering.then_eq_eq.mp (hcmp ▸ h)
  cases p with
  | any => cases q <;> first | rfl | cases h
  | set items =>
    cases q with
    | any => cases h
    | set items' =>
      rw [Coded.eq_of_compare_list (fun _ _ => EidPatternItem.eq_of_compare) hp hq h]

end Hardy
