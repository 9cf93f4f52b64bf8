import Hardy.Pattern.Roundtrip

/-!
# The sets of ranges and of `ipn` patterns

A range is the normal form of the set that its text denotes: two texts are read as one range just
when they denote one set (`IpnPattern.parseRange_eq_iff`).  The inclusion test of `ipn` items goes
part by part.  It never says yes where it should not; it says no where a wildcard faces a range of
all numbers, and where a part has a number that is in no EID of the item
(`EidPattern.isSubset_exact_iff`).
-/

namespace Hardy

open Grammar

namespace IpnInterval

theorem isSubset_iff {i j : IpnInterval} (hi : i.Valid) (hj : j.Valid) :
    i.isSubset j = true ↔ j.bounds.1 ≤ i.bounds.1 ∧ i.bounds.2 ≤ j.bounds.2 := by
  cases i with
  | number n =>
    cases j with
    | number n' =>
      simp only [isSubset, bounds, beq_iff_eq]
      omega
    | range s e => simp [isSubset, bounds]
  | range s e =>
    cases j with
    | number n =>
      have hlt : s < e := hi.1
      simp only [isSubset, bounds, Bool.false_eq_true, false_iff]
      omega
    | range s' e' => simp [isSubset, bounds]

theorem bounds_le {i : IpnInterval} (h : i.Valid) : i.bounds.1 ≤ i.bounds.2 := by
  cases i with
  | number n => exact le_refl n
  | range s e => exact h.1.le

end IpnInterval

namespace IpnPattern

/-! ## The normal form -/

def rangeIntervals : Parser UInt8 (List (Nat × Nat)) :=
  preceded [0x5B] (terminated (separated parseInterval 0x2C) [0x5D])

theorem parseRange_eq : parseRange = map merge rangeIntervals := rfl

/-- The text lists the number. -/
def Denotes (t : Bytes) (v : Nat) : Prop :=
  ∃ l u, rangeIntervals t = some (l, u) ∧ Intervals.Covers l v

/-- A single number, or intervals that ascend with a gap of a number at least between them. -/
def Normal : IpnPattern → Prop
  | .wildcard => False
  | .single n => n ≤ Eid.u32Max
  | .range l => (∀ i ∈ l, i.Valid) ∧ (l.map IpnInterval.bounds).Pairwise fun i j => i.2 + 1 < j.1

theorem rangeIntervals_yields :
    Yields rangeIntervals fun l => l ≠ [] ∧ ∀ b ∈ l, b.1 ≤ b.2 ∧ b.2 ≤ Eid.u32Max :=
  parseInterval_yields.separated.terminated.preceded

theorem matches_ofIntervals {l : List IpnInterval} {v : Nat} :
    (ofIntervals l).matches v = true ↔ Intervals.Covers (l.map IpnInterval.bounds) v := by
  rw [← matches_range, ofIntervals.eq_def]
  split
  · simp [IpnPattern.matches, IpnInterval.matches]
  · rfl

theorem matches_merge {l : List (Nat × Nat)} (hne : l ≠ []) (hvalid : ∀ b ∈ l, b.1 ≤ b.2)
    {v : Nat} : (merge l).matches v = true ↔ Intervals.Covers l v := by
  have hperm : (sortByStart l).Perm l := List.perm_insertionSort _ l
  have hsorted := sortByStart_sorted l
  have hcovers : Intervals.Covers (sortByStart l) v ↔ Intervals.Covers l v := by
    simp only [Intervals.Covers, hperm.mem_iff]
  rw [merge]
  cases hl : sortByStart l with
  | nil => exact absurd (hl ▸ hperm).nil_eq hne.symm
  | cons first rest =>
    rw [hl] at hperm hsorted hcovers
    have hin : ∀ b ∈ first :: rest, b.1 ≤ b.2 := fun b hb => hvalid b (hperm.mem_iff.mp hb)
    obtain ⟨hsep, -⟩ := Intervals.coalesce_separated hin hsorted
    have hbounds : ((Intervals.coalesce first rest).map IpnInterval.ofBounds).map
        IpnInterval.bounds = Intervals.coalesce first rest := by
      rw [List.map_map]
      refine (List.map_congr_left fun b hb => ?_).trans (List.map_id _)
      have hb := hsep.inhabited b hb
      simp only [Function.comp_apply, IpnInterval.ofBounds, id]
      split
      · next heq => exact Prod.ext rfl heq.symm
      · rfl
    show (ofIntervals ((Intervals.coalesce first rest).map IpnInterval.ofBounds)).matches v = true ↔ _
    rw [matches_ofIntervals, hbounds, Intervals.coalesce_covers hin hsorted, hcovers]

theorem merge_ne_wildcard (l : List (Nat × Nat)) : merge l ≠ .wildcard := by
  rw [merge]
  split
  · exact IpnPattern.noConfusion
  · rw [ofIntervals.eq_def]
    split <;> exact IpnPattern.noConfusion

theorem parseRange_denotes {t u : Bytes} {x : IpnPattern} (h : parseRange t = some (x, u)) :
    x.Canonical ∧ x ≠ .wildcard ∧ ∀ v, x.matches v = true ↔ Denotes t v := by
  obtain ⟨⟨l, u'⟩, hl, heq⟩ := Option.map_eq_some_iff.mp (parseRange_eq ▸ h)
  obtain ⟨rfl, rfl⟩ := Prod.mk.inj heq
  obtain ⟨hne, hvalid⟩ := rangeIntervals_yields t l u' hl
  refine ⟨merge_canonical hne hvalid, merge_ne_wildcard l, fun v => ?_⟩
  rw [matches_merge hne fun b hb => (hvalid b hb).1]
  constructor
  · exact fun hv => ⟨l, u', hl, hv⟩
  · rintro ⟨l', u'', hl', hv⟩
    rw [hl] at hl'
    cases hl'
    exact hv

theorem Canonical.normal {x : IpnPattern} (h : x.Canonical) (hw : x ≠ .wildcard) : x.Normal := by
  cases x with
  | wildcard => exact hw rfl
  | single n => exact h
  | range l => exact ⟨CanonicalRange.valid h, (CanonicalRange.separated h).gaps⟩

/-- The interval of all numbers, `[0+]`. -/
def full : IpnPattern := .range [.range 0 Eid.u32Max]

theorem full_canonical : full.Canonical where
  valid i hi := by
    obtain rfl := List.mem_singleton.mp hi
    exact ⟨by decide, le_refl _⟩
  separated := ⟨by simp [IpnInterval.bounds], List.pairwise_singleton _ _⟩
  nonempty := by simp
  several n := by simp

theorem eq_of_all {y : IpnPattern} (hy : y.Canonical) (h : Sub .wildcard y) :
    y = .wildcard ∨ y = full := by
  by_cases hw : y = .wildcard
  · exact .inl hw
  · refine .inr (eq_of_same hy full_canonical hw nofun (fun v hv _ => ?_) fun v hv _ => h v hv rfl)
    exact matches_range.mpr ⟨_, List.mem_singleton_self _, Nat.zero_le v, hv⟩

/-- Two texts are read as one range just when they denote one set, and what is read is in normal
form. -/
theorem parseRange_eq_iff {t t' u u' : Bytes} {x y : IpnPattern}
    (h : parseRange t = some (x, u)) (h' : parseRange t' = some (y, u')) :
    (x = y ↔ ∀ v, Denotes t v ↔ Denotes t' v) ∧ x.Normal := by
  obtain ⟨hx, hxw, hdenotes⟩ := parseRange_denotes h
  obtain ⟨hy, hyw, hdenotes'⟩ := parseRange_denotes h'
  refine ⟨⟨?_, fun hsame => ?_⟩, hx.normal hxw⟩
  · rintro rfl v
    exact (hdenotes v).symm.trans (hdenotes' v)
  · have hxy : ∀ v, x.matches v = true ↔ y.matches v = true := fun v =>
      (hdenotes v).trans ((hsame v).trans (hdenotes' v).symm)
    exact eq_of_same hx hy hxw hyw (fun v _ => (hxy v).mp) fun v _ => (hxy v).mpr

/-- `[1-3,5]` and `[5,3-2,1]` -/
theorem parseRange_eq_iff_reordered : parseRange [0x5B, 0x31, 0x2D, 0x33, 0x2C, 0x35, 0x5D] =
    parseRange [0x5B, 0x35, 0x2C, 0x33, 0x2D, 0x32, 0x2C, 0x31, 0x5D] ∧
    ∀ v, Denotes [0x5B, 0x31, 0x2D, 0x33, 0x2C, 0x35, 0x5D] v ↔
      Denotes [0x5B, 0x35, 0x2C, 0x33, 0x2D, 0x32, 0x2C, 0x31, 0x5D] v := by
  have h : parseRange [0x5B, 0x31, 0x2D, 0x33, 0x2C, 0x35, 0x5D] =
      some (.range [.range 1 3, .number 5], []) := by decide
  have h' : parseRange [0x5B, 0x35, 0x2C, 0x33, 0x2D, 0x32, 0x2C, 0x31, 0x5D] =
      some (.range [.range 1 3, .number 5], []) := by decide
  exact ⟨h.trans h'.symm, (parseRange_eq_iff h h').1.mp rfl⟩

/-! ## Inclusion of parts -/

/-- The test of two parts is right but for a wildcard, which is within a wildcard only. -/
theorem isSubset_iff {x y : IpnPattern} (hx : x.Canonical) (hy : y.Canonical) :
    x.isSubset y = true ↔ Sub x y ∧ (x = .wildcard → y = .wildcard) := by
  cases y with
  | wildcard => cases x <;> simp [IpnPattern.isSubset, Sub, IpnPattern.matches]
  | single n =>
    cases x with
    | wildcard => simp [IpnPattern.isSubset]
    | single m =>
      have hself : (single m).matches m = true := by simp [IpnPattern.matches]
      simp only [IpnPattern.isSubset, beq_iff_eq, reduceCtorEq, false_imp_iff, and_true]
      constructor
      · rintro rfl
        exact fun _ _ h => h
      · intro hsub
        exact (beq_iff_eq.mp (hsub m hx hself)).symm
    | range l =>
      refine iff_of_false (by simp [IpnPattern.isSubset]) fun h => ?_
      cases eq_single_of_sub hx h.1
  | range m =>
    cases x with
    | wildcard => simp [IpnPattern.isSubset]
    | single n =>
      have hself : (single n).matches n = true := by simp [IpnPattern.matches]
      have htest : (single n).isSubset (.range m) = (range m).matches n := rfl
      rw [htest]
      simp only [reduceCtorEq, false_imp_iff, and_true]
      constructor
      · intro hn v _ hv
        simp only [IpnPattern.matches, beq_iff_eq] at hv
        exact hv ▸ hn
      · exact fun hsub => hsub n hx hself
    | range l =>
      simp only [IpnPattern.isSubset, List.all_eq_true, List.any_eq_true, reduceCtorEq,
        false_imp_iff, and_true]
      constructor
      · intro h v _ hv
        obtain ⟨_, hb, hle, hge⟩ := matches_range.mp hv
        obtain ⟨i, hi, rfl⟩ := List.mem_map.mp hb
        obtain ⟨j, hj, hij⟩ := h i hi
        have hbounds := (IpnInterval.isSubset_iff (CanonicalRange.valid hx i hi)
          (CanonicalRange.valid hy j hj)).mp hij
        exact matches_range.mpr
          ⟨_, List.mem_map_of_mem hj, hbounds.1.trans hle, hge.trans hbounds.2⟩
      · intro hsub i hi
        have hvalid := CanonicalRange.valid hx i hi
        -- the numbers of an interval follow each other
        obtain ⟨_, hb, hbounds⟩ := (CanonicalRange.separated hy).within
          (IpnInterval.bounds_le hvalid) fun v hv hvle =>
            matches_range.mp (hsub v (hvle.trans hvalid.le)
              (matches_range.mpr ⟨_, List.mem_map_of_mem hi, hv, hvle⟩))
        obtain ⟨j, hj, rfl⟩ := List.mem_map.mp hb
        exact ⟨j, hj, (IpnInterval.isSubset_iff hvalid (CanonicalRange.valid hy j hj)).mpr
          hbounds⟩

/-- The numbers of `x`, but for those that are lost, are numbers of `y`. -/
def SubBut (lost : Nat → Prop) (x y : IpnPattern) : Prop :=
  ∀ v ≤ Eid.u32Max, x.matches v = true → ¬ lost v → y.matches v = true

def Faced (x y : IpnPattern) : Prop := x = .wildcard ∧ y = full

/-- A number of `x` that is lost is not one of `y`. -/
def Strays (lost : Nat → Prop) (x y : IpnPattern) : Prop :=
  ∃ v ≤ Eid.u32Max, x.matches v = true ∧ lost v ∧ y.matches v = false

theorem isSubset_of_subBut {lost : Nat → Prop} {x y : IpnPattern} (hx : x.Canonical)
    (hy : y.Canonical) (h : SubBut lost x y) :
    x.isSubset y = true ↔ ¬ Faced x y ∧ ¬ Strays lost x y := by
  rw [isSubset_iff hx hy]
  constructor
  · rintro ⟨hsub, hwild⟩
    refine ⟨?_, ?_⟩
    · rintro ⟨hxw, hfull⟩
      cases (hwild hxw).symm.trans hfull
    · rintro ⟨v, hv, hm, -, hno⟩
      rw [hsub v hv hm] at hno
      cases hno
  · rintro ⟨hfaced, hstrays⟩
    have hsub : Sub x y := by
      intro v hv hm
      by_cases hlost : lost v
      · by_contra hno
        exact hstrays ⟨v, hv, hm, hlost, Bool.eq_false_iff.mpr hno⟩
      · exact h v hv hm hlost
    refine ⟨hsub, ?_⟩
    rintro rfl
    exact (eq_of_all hy hsub).resolve_right fun hfull => hfaced ⟨rfl, hfull⟩

end IpnPattern

/-! ## Inclusion of items -/

/-- The numbers are of 32 bits, as those of every value of the type are. -/
def Eid.Numbered (e : Eid) : Prop :=
  ∀ a n s, e.ipnParts = some (a, n, s) → a ≤ u32Max ∧ n ≤ u32Max ∧ s ≤ u32Max

namespace IpnPatternItem

variable {p q : IpnPatternItem}

/-- A number of the allocator part that is in no EID of the item: 0, before the node 0 alone,
where the service is not 0. -/
def LostAllocator (p : IpnPatternItem) (v : Nat) : Prop :=
  v = 0 ∧ p.nodeNumber = .single 0 ∧ p.serviceNumber.matches 0 = false

def LostNode (p : IpnPatternItem) (v : Nat) : Prop :=
  v = 0 ∧ p.allocatorId = .single 0 ∧ p.serviceNumber.matches 0 = false

/-- The node `0.0` has the service 0 only. -/
def LostService (p : IpnPatternItem) (v : Nat) : Prop :=
  v ≠ 0 ∧ p.allocatorId = .single 0 ∧ p.nodeNumber = .single 0

/-- The parts are within those of the other item, but for the numbers that are lost. -/
structure Covered (p q : IpnPatternItem) : Prop where
  allocatorId : IpnPattern.SubBut p.LostAllocator p.allocatorId q.allocatorId
  nodeNumber : IpnPattern.SubBut p.LostNode p.nodeNumber q.nodeNumber
  serviceNumber : IpnPattern.SubBut p.LostService p.serviceNumber q.serviceNumber

/-- Each part is within the other pattern's. -/
structure Within (p q : IpnPatternItem) : Prop where
  allocatorId : p.allocatorId.Sub q.allocatorId
  nodeNumber : p.nodeNumber.Sub q.nodeNumber
  serviceNumber : p.serviceNumber.Sub q.serviceNumber

/-- A wildcard part stands before the interval of all numbers. -/
def Faced (p q : IpnPatternItem) : Prop :=
  p.allocatorId.Faced q.allocatorId ∨ p.nodeNumber.Faced q.nodeNumber ∨
    p.serviceNumber.Faced q.serviceNumber

/-- A part has a number that is in no EID of the item, and that is outside the other's part. -/
def Strays (p q : IpnPatternItem) : Prop :=
  IpnPattern.Strays p.LostAllocator p.allocatorId q.allocatorId ∨
    IpnPattern.Strays p.LostNode p.nodeNumber q.nodeNumber ∨
      IpnPattern.Strays p.LostService p.serviceNumber q.serviceNumber

theorem exists_ne_zero {x : IpnPattern} (hx : x.Canonical) (h : x ≠ .single 0) :
    ∃ v ≤ Eid.u32Max, x.matches v = true ∧ v ≠ 0 := by
  by_contra hnot
  refine h (IpnPattern.eq_single_of_sub hx fun v hv hm => ?_)
  have hzero : v = 0 := by
    by_contra hne
    exact hnot ⟨v, hv, hm, hne⟩
  simp [IpnPattern.matches, hzero]

theorem eq_zero_of_single {x : IpnPattern} {v : Nat} (hx : x = .single 0)
    (h : x.matches v = true) : v = 0 := by
  subst hx
  exact (beq_iff_eq.mp h).symm

/-! A number that is not lost is in an EID of the item. -/

theorem exists_of_allocator (hp : p.Canonical) {v : Nat} (hv : v ≤ Eid.u32Max)
    (hm : p.allocatorId.matches v = true) (hlost : ¬ p.LostAllocator v) :
    ∃ n s, IpnTriple v n s ∧ p.Has v n s := by
  obtain ⟨n, hn, hmn⟩ := IpnPattern.exists_matches hp.nodeNumber
  obtain ⟨s, hs, hms⟩ := IpnPattern.exists_matches hp.serviceNumber
  by_cases hzero : v = 0
  · by_cases hnode : p.nodeNumber = .single 0
    · have hservice : p.serviceNumber.matches 0 = true := by
        by_contra hno
        exact hlost ⟨hzero, hnode, Bool.eq_false_iff.mpr hno⟩
      exact ⟨n, 0, ⟨hv, hn, Nat.zero_le _, fun _ _ => rfl⟩, hm, hmn, hservice⟩
    · obtain ⟨n, hn, hmn, hpos⟩ := exists_ne_zero hp.nodeNumber hnode
      exact ⟨n, s, ⟨hv, hn, hs, fun _ h => absurd h hpos⟩, hm, hmn, hms⟩
  · exact ⟨n, s, ⟨hv, hn, hs, fun h => absurd h hzero⟩, hm, hmn, hms⟩

theorem exists_of_node (hp : p.Canonical) {v : Nat} (hv : v ≤ Eid.u32Max)
    (hm : p.nodeNumber.matches v = true) (hlost : ¬ p.LostNode v) :
    ∃ a s, IpnTriple a v s ∧ p.Has a v s := by
  obtain ⟨a, ha, hma⟩ := IpnPattern.exists_matches hp.allocatorId
  obtain ⟨s, hs, hms⟩ := IpnPattern.exists_matches hp.serviceNumber
  by_cases hzero : v = 0
  · by_cases halloc : p.allocatorId = .single 0
    · have hservice : p.serviceNumber.matches 0 = true := by
        by_contra hno
        exact hlost ⟨hzero, halloc, Bool.eq_false_iff.mpr hno⟩
      exact ⟨a, 0, ⟨ha, hv, Nat.zero_le _, fun _ _ => rfl⟩, hma, hm, hservice⟩
    · obtain ⟨a, ha, hma, hpos⟩ := exists_ne_zero hp.allocatorId halloc
      exact ⟨a, s, ⟨ha, hv, hs, fun h => absurd h hpos⟩, hma, hm, hms⟩
  · exact ⟨a, s, ⟨ha, hv, hs, fun _ h => absurd h hzero⟩, hma, hm, hms⟩

theorem exists_of_service (hp : p.Canonical) {v : Nat} (hv : v ≤ Eid.u32Max)
    (hm : p.serviceNumber.matches v = true) (hlost : ¬ p.LostService v) :
    ∃ a n, IpnTriple a n v ∧ p.Has a n v := by
  obtain ⟨a, ha, hma⟩ := IpnPattern.exists_matches hp.allocatorId
  obtain ⟨n, hn, hmn⟩ := IpnPattern.exists_matches hp.nodeNumber
  by_cases hzero : v = 0
  · exact ⟨a, n, ⟨ha, hn, hv, fun _ _ => hzero⟩, hma, hmn, hm⟩
  · by_cases halloc : p.allocatorId = .single 0
    · obtain ⟨n, hn, hmn, hpos⟩ := exists_ne_zero hp.nodeNumber fun hnode =>
        hlost ⟨hzero, halloc, hnode⟩
      exact ⟨a, n, ⟨ha, hn, hv, fun _ h => absurd h hpos⟩, hma, hmn, hm⟩
    · obtain ⟨a, ha, hma, hpos⟩ := exists_ne_zero hp.allocatorId halloc
      exact ⟨a, n, ⟨ha, hn, hv, fun h => absurd h hpos⟩, hma, hmn, hm⟩

theorem within_iff_has : (∀ e : Eid, e.WellFormed → p.matches e = true → q.matches e = true) ↔
    ∀ a n s, IpnTriple a n s → p.Has a n s → q.Has a n s := by
  constructor
  · intro h a n s ht hps
    obtain ⟨e, he, hparts⟩ := ht.exists_eid
    obtain ⟨_, _, _, heq, hqs⟩ := matches_iff.mp (h e he (matches_iff.mpr ⟨a, n, s, hparts, hps⟩))
    cases hparts.symm.trans heq
    exact hqs
  · intro h e he hm
    obtain ⟨a, n, s, hparts, hps⟩ := matches_iff.mp hm
    exact matches_iff.mpr ⟨a, n, s, hparts, h a n s (Eid.ipnParts_triple he hparts) hps⟩

theorem within_iff (hp : p.Canonical) :
    (∀ e : Eid, e.WellFormed → p.matches e = true → q.matches e = true) ↔ Covered p q := by
  rw [within_iff_has]
  constructor
  · intro h
    refine ⟨fun v hv hm hlost => ?_, fun v hv hm hlost => ?_, fun v hv hm hlost => ?_⟩
    · obtain ⟨n, s, ht, hps⟩ := exists_of_allocator hp hv hm hlost
      exact (h v n s ht hps).1
    · obtain ⟨a, s, ht, hps⟩ := exists_of_node hp hv hm hlost
      exact (h a v s ht hps).2.1
    · obtain ⟨a, n, ht, hps⟩ := exists_of_service hp hv hm hlost
      exact (h a n v ht hps).2.2
  · rintro ⟨ha, hn, hs⟩ a n s ht ⟨hpa, hpn, hps⟩
    refine ⟨ha a ht.allocatorId hpa ?_, hn n ht.nodeNumber hpn ?_, hs s ht.serviceNumber hps ?_⟩
    · rintro ⟨hzero, hnode, hservice⟩
      rw [ht.null hzero (eq_zero_of_single hnode hpn), hservice] at hps
      cases hps
    · rintro ⟨hzero, halloc, hservice⟩
      rw [ht.null (eq_zero_of_single halloc hpa) hzero, hservice] at hps
      cases hps
    · rintro ⟨hpos, halloc, hnode⟩
      exact hpos (ht.null (eq_zero_of_single halloc hpa) (eq_zero_of_single hnode hpn))

theorem within_all_iff (hp : p.Canonical) :
    (∀ e : Eid, e.Numbered → p.matches e = true → q.matches e = true) ↔ Within p q := by
  obtain ⟨a, ha, hma⟩ := IpnPattern.exists_matches hp.allocatorId
  obtain ⟨n, hn, hmn⟩ := IpnPattern.exists_matches hp.nodeNumber
  obtain ⟨s, hs, hms⟩ := IpnPattern.exists_matches hp.serviceNumber
  constructor
  · intro h
    have hhas : ∀ {a n s : Nat}, a ≤ Eid.u32Max → n ≤ Eid.u32Max → s ≤ Eid.u32Max →
        p.Has a n s → q.Has a n s := by
      intro a n s ha hn hs hhas
      have hnumbered : (Eid.ipn ⟨a, n⟩ s).Numbered := by
        rintro _ _ _ ⟨⟩
        exact ⟨ha, hn, hs⟩
      obtain ⟨_, _, _, ⟨⟩, hq⟩ :=
        matches_iff.mp (h _ hnumbered (matches_iff.mpr ⟨a, n, s, rfl, hhas⟩))
      exact hq
    exact ⟨fun v hv hm => (hhas hv hn hs ⟨hm, hmn, hms⟩).1,
      fun v hv hm => (hhas ha hv hs ⟨hma, hm, hms⟩).2.1,
      fun v hv hm => (hhas ha hn hv ⟨hma, hmn, hm⟩).2.2⟩
  · rintro ⟨ha, hn, hs⟩ e he hm
    obtain ⟨a, n, s, hparts, hpa, hpn, hps⟩ := matches_iff.mp hm
    obtain ⟨hva, hvn, hvs⟩ := he a n s hparts
    exact matches_iff.mpr ⟨a, n, s, hparts, ha a hva hpa, hn n hvn hpn, hs s hvs hps⟩

theorem isSubset_iff_parts : p.isSubset q = true ↔
    p.allocatorId.isSubset q.allocatorId = true ∧ p.nodeNumber.isSubset q.nodeNumber = true ∧
      p.serviceNumber.isSubset q.serviceNumber = true := by
  simp [IpnPatternItem.isSubset, and_assoc]

theorem within_of_isSubset (hp : p.Canonical) (hq : q.Canonical) (h : p.isSubset q = true) :
    Within p q := by
  obtain ⟨ha, hn, hs⟩ := isSubset_iff_parts.mp h
  exact ⟨((IpnPattern.isSubset_iff hp.allocatorId hq.allocatorId).mp ha).1,
    ((IpnPattern.isSubset_iff hp.nodeNumber hq.nodeNumber).mp hn).1,
    ((IpnPattern.isSubset_iff hp.serviceNumber hq.serviceNumber).mp hs).1⟩

theorem Within.covered (h : Within p q) : Covered p q :=
  ⟨fun v hv hm _ => h.allocatorId v hv hm, fun v hv hm _ => h.nodeNumber v hv hm,
    fun v hv hm _ => h.serviceNumber v hv hm⟩

theorem isSubset_of_covered (hp : p.Canonical) (hq : q.Canonical) (h : Covered p q) :
    p.isSubset q = true ↔ ¬ (Faced p q ∨ Strays p q) := by
  rw [isSubset_iff_parts, IpnPattern.isSubset_of_subBut hp.allocatorId hq.allocatorId h.allocatorId,
    IpnPattern.isSubset_of_subBut hp.nodeNumber hq.nodeNumber h.nodeNumber,
    IpnPattern.isSubset_of_subBut hp.serviceNumber hq.serviceNumber h.serviceNumber]
  simp only [Faced, Strays]
  tauto

theorem Within.not_strays (h : Within p q) : ¬ Strays p q := by
  rintro (⟨v, hv, hm, -, hno⟩ | ⟨v, hv, hm, -, hno⟩ | ⟨v, hv, hm, -, hno⟩)
  · exact Bool.false_ne_true (hno.symm.trans (h.allocatorId v hv hm))
  · exact Bool.false_ne_true (hno.symm.trans (h.nodeNumber v hv hm))
  · exact Bool.false_ne_true (hno.symm.trans (h.serviceNumber v hv hm))

end IpnPatternItem

/-! ## Inclusion of patterns -/

namespace EidPatternItem

def OfIpn : EidPatternItem → Prop
  | .ipn _ => True
  | .anyNumericScheme n => n = 2
  | .anyTextScheme s => s = ipnScheme
  | .dtn _ => False

theorem parse_yields [Crates] [GlobSyntax] :
    Yields parse fun i => i.Canonical ∧ (i.OfIpn → ∃ p, i = .ipn p) := by
  refine Yields.alt (Yields.alt ?_ ?_) ?_
  · exact IpnPatternItem.parse_canonical.map fun p hp => ⟨hp, fun _ => ⟨p, rfl⟩⟩
  · intro t i u h
    obtain ⟨_, -, hi⟩ := Option.map_eq_some_iff.mp h
    cases hi
    exact ⟨trivial, False.elim⟩
  · intro t i u h
    have hplain := parseAnySspItem_plain t i u h
    cases i with
    | ipn p => exact ⟨hplain, fun _ => ⟨p, rfl⟩⟩
    | dtn d => exact ⟨trivial, False.elim⟩
    | anyNumericScheme n =>
      refine ⟨trivial, fun hn => ?_⟩
      have hlt : 2 < n := hplain.1
      have hn : n = 2 := hn
      omega
    | anyTextScheme s => exact ⟨trivial, fun hs => absurd hs hplain.2.2.2⟩

end EidPatternItem

namespace EidPattern

variable [Crates] [GlobSyntax]

theorem fromStr_items {s : Bytes} {items : List EidPatternItem} (h : fromStr s = some (.set items)) :
    ∀ i ∈ items, i.Canonical ∧ (i.OfIpn → ∃ p, i = .ipn p) := by
  rcases fromStr_cases h with ⟨-, hany⟩ | ⟨items', heq, -, hitems⟩
  · cases hany
  · cases heq
    intro i hi
    obtain ⟨t, -, hwhole⟩ := (mapM_some hitems).2 i hi
    exact EidPatternItem.parse_yields t i [] (whole_eq_some.mp hwhole)

/-- Between two parsed items of the `ipn` scheme the test is exact but where the one is within the
other and a wildcard of it stands before the interval of all numbers, or a part of it has a number
that is in none of its EIDs and outside the other's part.  Over all values of the type every number
of a part is in an EID. -/
theorem isSubset_exact_iff [Globs] {s s' : Bytes} {i j : EidPatternItem}
    (h : fromStr s = some (.set [i])) (h' : fromStr s' = some (.set [j])) (hi : i.OfIpn)
    (hj : j.OfIpn) : ∃ p q, i = .ipn p ∧ j = .ipn q ∧
      (((EidPattern.set [i]).isSubset (.set [j]) = true ↔ ∀ e : Eid, e.WellFormed →
        (EidPattern.set [i]).matches e = true → (EidPattern.set [j]).matches e = true) ↔
          ¬ (IpnPatternItem.Covered p q ∧
            (IpnPatternItem.Faced p q ∨ IpnPatternItem.Strays p q))) ∧
      (((EidPattern.set [i]).isSubset (.set [j]) = true ↔ ∀ e : Eid, e.Numbered →
        (EidPattern.set [i]).matches e = true → (EidPattern.set [j]).matches e = true) ↔
          ¬ (IpnPatternItem.Within p q ∧ IpnPatternItem.Faced p q)) := by
  obtain ⟨hp, hipn⟩ := fromStr_items h i (List.mem_singleton_self i)
  obtain ⟨hq, hipn'⟩ := fromStr_items h' j (List.mem_singleton_self j)
  obtain ⟨p, rfl⟩ := hipn hi
  obtain ⟨q, rfl⟩ := hipn' hj
  have htest : (EidPattern.set [.ipn p]).isSubset (.set [.ipn q]) = p.isSubset q := by
    simp [EidPattern.isSubset, EidPatternItem.isSubset]
  have hmatch : ∀ (r : IpnPatternItem) (e : Eid),
      (EidPattern.set [.ipn r]).matches e = r.matches e := fun r e => matches_single (.ipn r) e
  have hwithin := IpnPatternItem.within_of_isSubset hp hq
  refine ⟨p, q, rfl, rfl, ?_, ?_⟩
  · simp only [htest, hmatch, IpnPatternItem.within_iff hp]
    constructor
    · rintro hexact ⟨hcovered, hwrong⟩
      exact (IpnPatternItem.isSubset_of_covered hp hq hcovered).mp (hexact.mpr hcovered) hwrong
    · intro hright
      refine ⟨fun hyes => (hwithin hyes).covered, fun hcovered => ?_⟩
      exact (IpnPatternItem.isSubset_of_covered hp hq hcovered).mpr fun hwrong =>
        hright ⟨hcovered, hwrong⟩
  · simp only [htest, hmatch, IpnPatternItem.within_all_iff hp]
    constructor
    · rintro hexact ⟨hw, hfaced⟩
      exact (IpnPatternItem.isSubset_of_covered hp hq hw.covered).mp (hexact.mpr hw) (.inl hfaced)
    · intro hright
      refine ⟨hwithin, fun hw => (IpnPatternItem.isSubset_of_covered hp hq hw.covered).mpr ?_⟩
      exact fun hwrong => hwrong.elim (fun hfaced => hright ⟨hw, hfaced⟩) hw.not_strays

end EidPattern

/-! ## Two spellings of all allocators -/

namespace EidPattern.Spans

local instance reference : Crates := .reference
local instance anyGlob : GlobSyntax := ⟨fun _ => true⟩
local instance exactGlob : Globs := .literal

/-- `ipn:0.3.4` -/
def oneService : Bytes := [0x69, 0x70, 0x6E, 0x3A, 0x30, 0x2E, 0x33, 0x2E, 0x34]

/-- `ipn:0.3.*` -/
def allServices : Bytes := [0x69, 0x70, 0x6E, 0x3A, 0x30, 0x2E, 0x33, 0x2E, 0x2A]

theorem oneService_exact : (EidPattern.set [.ipn ⟨.single 0, .single 3, .single 4⟩]).isSubset
    (.set [.ipn ⟨.single 0, .single 3, .wildcard⟩]) = true ↔ ∀ e : Eid, e.WellFormed →
      (EidPattern.set [.ipn ⟨.single 0, .single 3, .single 4⟩]).matches e = true →
        (EidPattern.set [.ipn ⟨.single 0, .single 3, .wildcard⟩]).matches e = true := by
  have hread : fromStr oneService =
      some (.set [.ipn ⟨.single 0, .single 3, .single 4⟩]) := by decide
  have hread' : fromStr allServices =
      some (.set [.ipn ⟨.single 0, .single 3, .wildcard⟩]) := by decide
  obtain ⟨_, _, ⟨⟩, ⟨⟩, hexact, -⟩ := isSubset_exact_iff hread hread' trivial trivial
  refine hexact.mpr ?_
  rintro ⟨-, (⟨⟨⟩, -⟩ | ⟨⟨⟩, -⟩ | ⟨⟨⟩, -⟩) |
    (⟨v, -, -, ⟨-, ⟨⟩, -⟩, -⟩ | ⟨v, -, hm, ⟨rfl, -⟩, -⟩ | ⟨v, -, -, ⟨-, -, ⟨⟩⟩, -⟩)⟩
  cases hm

/-- `ipn:*.5.1` -/
def everyAllocator : Bytes := [0x69, 0x70, 0x6E, 0x3A, 0x2A, 0x2E, 0x35, 0x2E, 0x31]

/-- `ipn:[0+].5.1` -/
def allAllocators : Bytes :=
  [0x69, 0x70, 0x6E, 0x3A, 0x5B, 0x30, 0x2B, 0x5D, 0x2E, 0x35, 0x2E, 0x31]

/-- The wildcard stands for the numbers of the interval, and is no part of it by the test. -/
theorem everyAllocator_not_exact : ¬ ∀ s s' i j, fromStr s = some (.set [i]) →
    fromStr s' = some (.set [j]) → i.OfIpn → j.OfIpn →
      ((EidPattern.set [i]).isSubset (.set [j]) = true ↔ ∀ e : Eid, e.WellFormed →
        (EidPattern.set [i]).matches e = true → (EidPattern.set [j]).matches e = true) := by
  intro h
  have hread : fromStr everyAllocator =
      some (.set [.ipn ⟨.wildcard, .single 5, .single 1⟩]) := by decide
  have hread' : fromStr allAllocators =
      some (.set [.ipn ⟨IpnPattern.full, .single 5, .single 1⟩]) := by decide
  have hno := (h _ _ _ _ hread hread' trivial trivial).mpr fun e he hm => by
    rw [matches_single] at hm ⊢
    obtain ⟨a, n, s, hparts, -, hn, hs⟩ := IpnPatternItem.matches_iff.mp hm
    refine IpnPatternItem.matches_iff.mpr ⟨a, n, s, hparts, ?_, hn, hs⟩
    exact IpnPattern.matches_range.mpr
      ⟨_, List.mem_singleton_self _, Nat.zero_le a, (Eid.ipnParts_triple he hparts).allocatorId⟩
  cases hno

end EidPattern.Spans

end Hardy
