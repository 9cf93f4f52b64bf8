import Hardy.Pattern.Canonical

/-!
# The order of patterns and what they match

`EidPattern::cmp` sorts by the specificity score, with a structural order where
the scores tie.  `EidPattern.cmp_eq_lt_iff` says, for a pattern that is strictly
within another one, exactly when it comes first: the score of `ipn` patterns
never falls, but it ties for ranges in one power of two, and the structural order
knows nothing of what a pattern matches.
-/

namespace Hardy

/-! ## The numbers of an endpoint -/

def Eid.ipnParts : Eid → Option (Nat × Nat × Nat)
  | .null => some (0, 0, 0)
  | .localNode s => some (0, Eid.u32Max, s)
  | .legacyIpn fqnn s | .ipn fqnn s => some (fqnn.allocatorId, fqnn.nodeNumber, s)
  | .dtn _ _ | .unknown _ _ => none

/-- The numbers of some endpoint: node `0.0` has the null endpoint only. -/
structure IpnTriple (a n s : Nat) : Prop where
  allocatorId : a ≤ Eid.u32Max
  nodeNumber : n ≤ Eid.u32Max
  serviceNumber : s ≤ Eid.u32Max
  null : a = 0 → n = 0 → s = 0

theorem Eid.ipnParts_triple {e : Eid} (h : e.WellFormed) {a n s : Nat}
    (hp : e.ipnParts = some (a, n, s)) : IpnTriple a n s := by
  have hmax : 0 < Eid.u32Max := by simp [Eid.u32Max]
  cases e with
  | null =>
    cases hp
    exact ⟨Nat.zero_le _, Nat.zero_le _, Nat.zero_le _, fun _ _ => rfl⟩
  | localNode s =>
    cases hp
    exact ⟨Nat.zero_le _, le_refl _, h, fun _ h => absurd h hmax.ne'⟩
  | legacyIpn fqnn s =>
    cases hp
    exact ⟨h.2.1, h.2.2.1, h.2.2.2, fun h0 => absurd h0 h.1.ne'⟩
  | ipn fqnn s =>
    cases hp
    exact ⟨h.1, h.2.1, h.2.2.1, fun ha hn => absurd hn (h.2.2.2 ha).1.ne'⟩
  | dtn _ _ => cases hp
  | unknown _ _ => cases hp

theorem IpnTriple.exists_eid {a n s : Nat} (h : IpnTriple a n s) :
    ∃ e : Eid, e.WellFormed ∧ e.ipnParts = some (a, n, s) := by
  by_cases ha : a = 0
  · subst ha
    by_cases hn : n = 0
    · subst hn
      obtain rfl := h.null rfl rfl
      exact ⟨.null, trivial, rfl⟩
    · by_cases hmax : n = Eid.u32Max
      · subst hmax
        exact ⟨.localNode s, h.serviceNumber, rfl⟩
      · refine ⟨.ipn ⟨0, n⟩ s, ⟨h.allocatorId, h.nodeNumber, h.serviceNumber, fun _ => ?_⟩, rfl⟩
        exact ⟨Nat.pos_of_ne_zero hn, lt_of_le_of_ne h.nodeNumber hmax⟩
  · exact ⟨.ipn ⟨a, n⟩ s,
      ⟨h.allocatorId, h.nodeNumber, h.serviceNumber, fun h0 => absurd h0 ha⟩, rfl⟩

namespace IpnPatternItem

def Has (p : IpnPatternItem) (a n s : Nat) : Prop :=
  p.allocatorId.matches a = true ∧ p.nodeNumber.matches n = true ∧ p.serviceNumber.matches s = true

theorem matches_iff {p : IpnPatternItem} {e : Eid} :
    p.matches e = true ↔ ∃ a n s, e.ipnParts = some (a, n, s) ∧ p.Has a n s := by
  cases e <;> simp [IpnPatternItem.matches, Eid.ipnParts, Has, and_assoc]

structure Canonical (p : IpnPatternItem) : Prop where
  allocatorId : p.allocatorId.Canonical
  nodeNumber : p.nodeNumber.Canonical
  serviceNumber : p.serviceNumber.Canonical

structure Monotonic (p : IpnPatternItem) : Prop where
  node : (¬ ∃ n, p.allocatorId = .single n) → p.nodeNumber = .wildcard
  service : (¬ ∃ n, p.nodeNumber = .single n) → p.serviceNumber = .wildcard

theorem monotonic_of_score {p : IpnPatternItem} (hc : p.Canonical)
    (h : p.specificityScore.isSome) : p.Monotonic := by
  rw [specificityScore] at h
  have ha := IpnPattern.isExact_iff hc.allocatorId
  have hn := IpnPattern.isExact_iff hc.nodeNumber
  split at h
  · cases h
  split at h
  · cases h
  rename_i h1 h2
  simp only [Bool.and_eq_true, Bool.not_eq_true', bne_iff_ne, ne_eq, not_and, not_not] at h1 h2
  refine ⟨fun hno => h1 ?_, fun hno => h2 ?_⟩
  · exact Bool.eq_false_iff.mpr fun h => hno (ha.mp h)
  · exact Bool.eq_false_iff.mpr fun h => hno (hn.mp h)

theorem score_eq {p : IpnPatternItem} (h : p.specificityScore.isSome) :
    p.specificityScore = some ((if p.allocatorId.isExact && p.nodeNumber.isExact &&
      p.serviceNumber.isExact then 256 else 0) + (p.allocatorId.literalBits +
        p.nodeNumber.literalBits + p.serviceNumber.literalBits)) := by
  rw [specificityScore] at h ⊢
  split at h
  · cases h
  split at h
  · cases h
  rename_i h1 h2
  rw [if_neg h1, if_neg h2]

end IpnPatternItem

/-! ## One component -/

namespace IpnPattern

/-- In a tie, the broader component comes first: a wildcard, or a range whose
intervals do. -/
def Crossed (x y : IpnPattern) : Prop :=
  match x, y with
  | .range l, .wildcard => 2 ^ 31 < total l
  | .range l, .range l' => (range l).literalBits = (range l').literalBits ∧ compare l l' ≠ .lt
  | _, _ => False

theorem literalBits_lt_of_not_single {y : IpnPattern} (hy : y.Canonical)
    (h : ¬ ∃ n, y = .single n) : y.literalBits < 32 := by
  cases y with
  | wildcard => simp [literalBits]
  | single n => exact absurd ⟨n, rfl⟩ h
  | range l => exact literalBits_range_lt (CanonicalRange.two_le_total hy)

theorem crossed_iff {x y : IpnPattern} (hx : x.Canonical) (hy : y.Canonical)
    (hxs : ¬ ∃ n, x = .single n) (hys : ¬ ∃ n, y = .single n) (hsub : Sub x y)
    (hnot : ¬ Sub y x) :
    y.literalBits ≤ x.literalBits ∧
      (¬ x.Crossed y ↔ y.literalBits < x.literalBits ∨ compare x y = .lt) := by
  cases x with
  | wildcard => exact absurd (fun _ _ _ => rfl) hnot
  | single n => exact absurd ⟨n, rfl⟩ hxs
  | range l =>
    cases y with
    | wildcard =>
      have hzero := literalBits_range_eq_zero (CanonicalRange.two_le_total hx)
      have hbits : (wildcard).literalBits = 0 := rfl
      have hcmp : compare (range l) wildcard = .gt := rfl
      rw [Crossed, ← hzero, hbits, hcmp]
      refine ⟨Nat.zero_le _, ?_⟩
      simp [Nat.pos_iff_ne_zero]
    | single n => exact absurd ⟨n, rfl⟩ hys
    | range l' =>
      have hle := literalBits_le_of_total (CanonicalRange.total_le_of_sub hx hy hsub)
      refine ⟨hle, ?_⟩
      rw [Crossed, compare_range]
      constructor
      · intro h
        by_contra hno
        push Not at hno
        exact h ⟨by omega, hno.2⟩
      · rintro h ⟨heq, hne⟩
        rcases h with h | h
        · omega
        · exact hne h

end IpnPattern

/-! ## `ipn` items -/

namespace IpnPatternItem

variable {p q : IpnPatternItem}

def Crossed (p q : IpnPatternItem) : Prop :=
  if p.allocatorId ≠ q.allocatorId then p.allocatorId.Crossed q.allocatorId
  else if p.nodeNumber ≠ q.nodeNumber then p.nodeNumber.Crossed q.nodeNumber
  else p.serviceNumber.Crossed q.serviceNumber

structure Sub (p q : IpnPatternItem) : Prop where
  allocatorId : p.allocatorId.Sub q.allocatorId
  nodeNumber : p.nodeNumber.Sub q.nodeNumber
  serviceNumber : p.serviceNumber.Sub q.serviceNumber

theorem exists_pos_of_not_single {x : IpnPattern} (hx : x.Canonical) (h : ¬ ∃ n, x = .single n) :
    ∃ v ≤ Eid.u32Max, x.matches v = true ∧ 0 < v := by
  by_contra hno
  push Not at hno
  refine h ⟨0, IpnPattern.eq_single_of_sub hx fun v hv hm => ?_⟩
  have := hno v hv hm
  simp only [IpnPattern.matches, beq_iff_eq]
  omega

/-- What holds for all endpoints holds component by component. -/
theorem sub_of_within (hp : p.Canonical) (hpm : p.Monotonic) (hqm : q.Monotonic)
    (hsub : ∀ a n s, IpnTriple a n s → p.Has a n s → q.Has a n s)
    (hsome : ∃ a n s, IpnTriple a n s ∧ p.Has a n s)
    (hmore : ∃ a n s, IpnTriple a n s ∧ q.Has a n s ∧ ¬ p.Has a n s) : p.Sub q := by
  obtain ⟨a, n, s⟩ := p
  have hone : 1 ≤ Eid.u32Max := by simp [Eid.u32Max]
  by_cases ha : ∃ x, a = .single x
  · obtain ⟨x, rfl⟩ := ha
    have hx : x ≤ Eid.u32Max := hp.allocatorId
    have hxm : (IpnPattern.single x).matches x = true := by simp [IpnPattern.matches]
    by_cases hn : ∃ y, n = .single y
    · obtain ⟨y, rfl⟩ := hn
      have hy : y ≤ Eid.u32Max := hp.nodeNumber
      have hym : (IpnPattern.single y).matches y = true := by simp [IpnPattern.matches]
      have hfront : ∀ z, IpnTriple x y z → s.matches z = true →
          (IpnPattern.single x).Sub q.allocatorId ∧ (IpnPattern.single y).Sub q.nodeNumber := by
        intro z hz hzm
        have hq := hsub x y z hz ⟨hxm, hym, hzm⟩
        refine ⟨fun v _ hv => ?_, fun v _ hv => ?_⟩ <;>
          simp only [IpnPattern.matches, beq_iff_eq] at hv <;> subst hv
        · exact hq.1
        · exact hq.2.1
      obtain ⟨x', y', z, hz, hx', hy', hzm⟩ := hsome
      simp only [IpnPattern.matches, beq_iff_eq] at hx' hy'
      subst hx' hy'
      obtain ⟨hsa, hsn⟩ := hfront z hz hzm
      refine ⟨hsa, hsn, fun v hv hvm => ?_⟩
      by_cases hzero : x = 0 ∧ y = 0
      · -- only the null endpoint is seen of this item, so `q` must have more nodes
        obtain ⟨rfl, rfl⟩ := hzero
        have hwild : q.serviceNumber = .wildcard := by
          by_contra hne
          obtain ⟨y, hqn⟩ := Classical.not_not.mp fun h => hne (hqm.service h)
          obtain ⟨x, hqa⟩ := Classical.not_not.mp fun h => by
            rw [hqm.node h] at hqn
            cases hqn
          obtain ⟨a1, n1, s1, ht, hq1, hp1⟩ := hmore
          have hx0 := hsa 0 hx hxm
          have hy0 := hsn 0 hy hym
          rw [hqa] at hx0
          rw [hqn] at hy0
          have ha1 := hq1.1
          have hn1 := hq1.2.1
          rw [hqa] at ha1
          rw [hqn] at hn1
          simp only [IpnPattern.matches, beq_iff_eq] at hx0 hy0 ha1 hn1
          have ha0 : a1 = 0 := by omega
          have hn0 : n1 = 0 := by omega
          subst ha0 hn0
          obtain rfl := ht.null rfl rfl
          obtain rfl := hz.null rfl rfl
          exact hp1 ⟨hxm, hym, hzm⟩
        rw [hwild]
        rfl
      · have htriple : IpnTriple x y v := ⟨hx, hy, hv, fun hx0 hy0 => absurd ⟨hx0, hy0⟩ hzero⟩
        exact (hsub x y v htriple ⟨hxm, hym, hvm⟩).2.2
    · obtain rfl : s = .wildcard := hpm.service hn
      obtain ⟨y, hy, hym, hpos⟩ := exists_pos_of_not_single hp.nodeNumber hn
      have hq := fun v (hv : v ≤ Eid.u32Max) (hvm : n.matches v = true) =>
        hsub x v 0 ⟨hx, hv, Nat.zero_le _, fun _ _ => rfl⟩ ⟨hxm, hvm, rfl⟩
      refine ⟨fun v _ hv => ?_, fun v hv hvm => (hq v hv hvm).2.1, fun v hv _ => ?_⟩
      · simp only [IpnPattern.matches, beq_iff_eq] at hv
        subst hv
        exact (hq y hy hym).1
      · exact (hsub x y v ⟨hx, hy, hv, fun _ h => absurd h hpos.ne'⟩ ⟨hxm, hym, rfl⟩).2.2
  · obtain rfl : n = .wildcard := hpm.node ha
    obtain rfl : s = .wildcard := hpm.service (by simp)
    obtain ⟨x, hx, hxm⟩ := IpnPattern.exists_matches hp.allocatorId
    refine ⟨fun v hv hvm => ?_, fun v hv _ => ?_, fun v hv _ => ?_⟩
    · exact (hsub v 1 0 ⟨hv, hone, Nat.zero_le _, fun _ _ => rfl⟩ ⟨hvm, rfl, rfl⟩).1
    · exact (hsub x v 0 ⟨hx, hv, Nat.zero_le _, fun _ _ => rfl⟩ ⟨hxm, rfl, rfl⟩).2.1
    · exact (hsub x 1 v ⟨hx, hone, hv, fun _ h => absurd h one_ne_zero⟩ ⟨hxm, rfl, rfl⟩).2.2

theorem sub_of_matches (hp : p.Canonical) (hq : q.Canonical) (hps : p.specificityScore.isSome)
    (hqs : q.specificityScore.isSome)
    (hsub : ∀ e : Eid, e.WellFormed → p.matches e = true → q.matches e = true)
    (hsome : ∃ e : Eid, e.WellFormed ∧ p.matches e = true)
    (hmore : ∃ e : Eid, e.WellFormed ∧ q.matches e = true ∧ p.matches e = false) :
    p.Sub q ∧ ∃ a n s, IpnTriple a n s ∧ q.Has a n s ∧ ¬ p.Has a n s := by
  have htriple : ∀ a n s, IpnTriple a n s → p.Has a n s → q.Has a n s := by
    intro a n s ht hhas
    obtain ⟨e, he, hparts⟩ := ht.exists_eid
    obtain ⟨_, _, _, hparts', hhas'⟩ := matches_iff.mp
      (hsub e he (matches_iff.mpr ⟨a, n, s, hparts, hhas⟩))
    cases hparts.symm.trans hparts'
    exact hhas'
  obtain ⟨e, he, hpe⟩ := hsome
  obtain ⟨e', he', hqe', hpe'⟩ := hmore
  obtain ⟨a, n, s, hparts, hhas⟩ := matches_iff.mp hpe
  obtain ⟨a', n', s', hparts', hhas'⟩ := matches_iff.mp hqe'
  have hnot : ¬ p.Has a' n' s' := fun h => by
    rw [matches_iff.mpr ⟨a', n', s', hparts', h⟩] at hpe'
    cases hpe'
  have hmore : ∃ a n s, IpnTriple a n s ∧ q.Has a n s ∧ ¬ p.Has a n s :=
    ⟨a', n', s', Eid.ipnParts_triple he' hparts', hhas', hnot⟩
  exact ⟨sub_of_within hp (monotonic_of_score hp hps) (monotonic_of_score hq hqs) htriple
    ⟨a, n, s, Eid.ipnParts_triple he hparts, hhas⟩ hmore, hmore⟩

theorem compare_eq (p q : IpnPatternItem) : compare p q =
    (compare p.allocatorId q.allocatorId).then
      ((compare p.nodeNumber q.nodeNumber).then (compare p.serviceNumber q.serviceNumber)) := by
  simp [compare, instOrdIpnPatternItem.ord]

def score (p : IpnPatternItem) : Nat := p.specificityScore.getD 0

theorem isExact_eq_false {x : IpnPattern} (hx : x.Canonical) (h : ¬ ∃ n, x = .single n) :
    x.isExact = false :=
  Bool.eq_false_iff.mpr fun he => h ((IpnPattern.isExact_iff hx).mp he)

theorem score_of_not_exact (h : p.specificityScore.isSome)
    (hx : (p.allocatorId.isExact && p.nodeNumber.isExact && p.serviceNumber.isExact) = false) :
    p.score =
      p.allocatorId.literalBits + p.nodeNumber.literalBits + p.serviceNumber.literalBits := by
  simp [score, score_eq h, hx]

theorem bits_le_score (h : p.specificityScore.isSome) :
    p.allocatorId.literalBits + p.nodeNumber.literalBits + p.serviceNumber.literalBits ≤
      p.score := by
  simp [score, score_eq h]

theorem score_component {x y : IpnPattern} (rest : Nat) (hx : x.Canonical) (hy : y.Canonical)
    (hsub : x.Sub y) (hnot : ¬ y.Sub x) {sp sq : Nat} {order : Ordering}
    (hsq : sq = rest + y.literalBits)
    (hsingle : ∀ n, x = .single n → rest + 32 ≤ sp)
    (hother : (¬ ∃ n, x = .single n) → sp = rest + x.literalBits ∧ order = compare x y) :
    sq ≤ sp ∧ ((sq < sp ∨ (sq = sp ∧ order = .lt)) ↔ ¬ x.Crossed y) := by
  have hys : ¬ ∃ n, y = .single n := by
    rintro ⟨n, rfl⟩
    refine hnot ?_
    rw [IpnPattern.eq_single_of_sub hx hsub]
    exact fun _ _ h => h
  have hbits := IpnPattern.literalBits_lt_of_not_single hy hys
  by_cases hxs : ∃ n, x = .single n
  · obtain ⟨n, rfl⟩ := hxs
    have hlt : sq < sp := by
      have := hsingle n rfl
      omega
    exact ⟨hlt.le, by simp [hlt, IpnPattern.Crossed]⟩
  · obtain ⟨rfl, rfl⟩ := hother hxs
    obtain ⟨hle, hiff⟩ := IpnPattern.crossed_iff hx hy hxs hys hsub hnot
    rw [hiff, hsq]
    refine ⟨by omega, ?_⟩
    constructor
    · rintro (h | h)
      · exact .inl (by omega)
      · exact .inr h.2
    · rintro (h | h)
      · exact .inl (by omega)
      · by_cases heq : y.literalBits = x.literalBits
        · exact .inr ⟨by omega, h⟩
        · exact .inl (by omega)

theorem eq_or_not_single {x y : IpnPattern} (hx : x.Canonical) (hy : y.Canonical) (hsub : x.Sub y)
    (hsub' : y.Sub x) : x = y ∨ ((¬ ∃ n, x = .single n) ∧ ¬ ∃ n, y = .single n) := by
  have hfull : ∀ z : IpnPattern, IpnPattern.wildcard.Sub z → ¬ ∃ n, z = .single n := by
    rintro z hz ⟨n, rfl⟩
    have hcanonical : IpnPattern.wildcard.Canonical := trivial
    cases IpnPattern.eq_single_of_sub hcanonical hz
  rcases IpnPattern.eq_of_sub_sub hx hy hsub hsub' with h | ⟨h, h'⟩
  · exact .inl h
  · exact .inr ⟨hfull x h, hfull y h'⟩

/-- The score of an item within another one does not fall, and it ties with the
structural order the wrong way round exactly where the items are crossed. -/
theorem score_sub (hp : p.Canonical) (hq : q.Canonical) (hps : p.specificityScore.isSome)
    (hqs : q.specificityScore.isSome) (hsub : p.Sub q)
    (hmore : ∃ a n s, IpnTriple a n s ∧ q.Has a n s ∧ ¬ p.Has a n s) :
    q.score ≤ p.score ∧
      ((q.score < p.score ∨ (q.score = p.score ∧ compare p q = .lt)) ↔ ¬ p.Crossed q) := by
  obtain ⟨hpnode, hpservice⟩ := monotonic_of_score hp hps
  obtain ⟨hqnode, hqservice⟩ := monotonic_of_score hq hqs
  obtain ⟨a1, n1, s1, ht, hqhas, hphas⟩ := hmore
  have hple := bits_le_score hps
  have hpscore := score_of_not_exact hps
  have hqscore := score_of_not_exact hqs
  obtain ⟨a, n, s⟩ := p
  obtain ⟨a', n', s'⟩ := q
  obtain ⟨hsa, hsn, hss⟩ := hsub
  obtain ⟨hpa, hpn, hpsv⟩ := hp
  obtain ⟨hqa, hqn, hqsv⟩ := hq
  dsimp only at *
  have hrefl : ∀ x : IpnPattern, x.Sub x := fun _ _ _ h => h
  have hwild : IpnPattern.wildcard.literalBits = 0 := rfl
  have hbits : ∀ z, (IpnPattern.single z).literalBits = 32 := fun _ => rfl
  -- a component that is a single number on the broader side is the same on both
  have hnarrow : ∀ {x y : IpnPattern},
      x.Canonical → x.Sub y → ¬ y.Sub x → ¬ ∃ z, y = .single z := by
    rintro x y hx hsub hnot ⟨z, rfl⟩
    exact hnot (IpnPattern.eq_single_of_sub hx hsub ▸ hrefl _)
  rw [compare_eq]
  by_cases ha : a'.Sub a
  · obtain rfl : a = a' := by
      refine (eq_or_not_single hpa hqa hsa ha).resolve_right fun ⟨h, h'⟩ => ?_
      obtain rfl : n = .wildcard := hpnode h
      obtain rfl : s = .wildcard := hpservice (by simp)
      exact hphas ⟨ha _ ht.allocatorId hqhas.1, rfl, rfl⟩
    by_cases hn : n'.Sub n
    · obtain rfl : n = n' := by
        refine (eq_or_not_single hpn hqn hsn hn).resolve_right fun ⟨h, h'⟩ => ?_
        obtain rfl : s = .wildcard := hpservice h
        exact hphas ⟨hqhas.1, hn _ ht.nodeNumber hqhas.2.1, rfl⟩
      have hs : ¬ s'.Sub s := fun h => hphas ⟨hqhas.1, hqhas.2.1, h _ ht.serviceNumber hqhas.2.2⟩
      have hs' := hnarrow hpsv hss hs
      obtain ⟨y, rfl⟩ : ∃ y, n = .single y := by
        by_contra h
        rw [hpservice h, hqservice h] at hs
        exact hs (hrefl _)
      obtain ⟨x, rfl⟩ : ∃ x, a = .single x := by
        by_contra h
        cases hpnode h
      have hcrossed :
          Crossed ⟨.single x, .single y, s⟩ ⟨.single x, .single y, s'⟩ = s.Crossed s' := by
        simp [Crossed]
      rw [hcrossed, IpnPattern.compare_self, IpnPattern.compare_self]
      refine score_component 64 hpsv hqsv hss hs ?_ ?_ ?_
      · rw [hqscore (by simp [isExact_eq_false hqsv hs']), hbits, hbits]
      · rintro z rfl
        rw [hbits, hbits, hbits] at hple
        omega
      · intro hs
        rw [hpscore (by simp [isExact_eq_false hpsv hs]), hbits, hbits]
        exact ⟨rfl, rfl⟩
    · have hne : n ≠ n' := fun h => hn (h ▸ hrefl _)
      have hn' := hnarrow hpn hsn hn
      obtain rfl : s' = .wildcard := hqservice hn'
      obtain ⟨x, rfl⟩ : ∃ x, a = .single x := by
        by_contra h
        exact hne ((hpnode h).trans (hqnode h).symm)
      have hcrossed : Crossed ⟨.single x, n, s⟩ ⟨.single x, n', .wildcard⟩ = n.Crossed n' := by
        simp [Crossed, hne]
      rw [hcrossed, IpnPattern.compare_self]
      refine score_component 32 hpn hqn hsn hn ?_ ?_ ?_
      · rw [hqscore (by simp [isExact_eq_false hqn hn']), hwild, hbits]
        omega
      · rintro z rfl
        rw [hbits, hbits] at hple
        omega
      · intro hs
        obtain rfl : s = .wildcard := hpservice hs
        rw [hpscore (by simp [isExact_eq_false hpn hs]), hwild, hbits, IpnPattern.compare_self]
        refine ⟨by omega, ?_⟩
        cases compare n n' <;> rfl
  · have hne : a ≠ a' := fun h => ha (h ▸ hrefl _)
    have ha' := hnarrow hpa hsa ha
    obtain rfl : n' = .wildcard := hqnode ha'
    obtain rfl : s' = .wildcard := hqservice (by simp)
    have hcrossed : Crossed ⟨a, n, s⟩ ⟨a', .wildcard, .wildcard⟩ = a.Crossed a' := by
      simp [Crossed, hne]
    rw [hcrossed]
    refine score_component 0 hpa hqa hsa ha ?_ ?_ ?_
    · rw [hqscore (by simp [isExact_eq_false hqa ha']), hwild]
      omega
    · rintro z rfl
      rw [hbits] at hple
      omega
    · intro hs
      obtain rfl : n = .wildcard := hpnode hs
      obtain rfl : s = .wildcard := hpservice (by simp)
      rw [hpscore (by simp [isExact_eq_false hpa hs]), hwild, IpnPattern.compare_self]
      refine ⟨by omega, ?_⟩
      cases compare a a' <;> rfl

end IpnPatternItem

/-! ## Items -/

namespace EidPatternItem

variable [Globs] {i j : EidPatternItem} {e : Eid}

omit [Globs] in
def Canonical : EidPatternItem → Prop
  | .ipn i => i.Canonical
  | _ => True

omit [Globs] in
def score (i : EidPatternItem) : Nat := i.specificityScore.getD 0

omit [Globs] in
def scheme? : EidPatternItem → Option Nat
  | .anyNumericScheme n => some n
  | .anyTextScheme s => numericSchemeOfText s
  | .dtn .any => some 1
  | _ => none

theorem matches_of_scheme {n : Nat} (h : i.scheme? = some n) (he : e.WellFormed) :
    i.matches e = true ↔ e.numericScheme = some n := by
  match i, h with
  | .anyNumericScheme m, h =>
    cases h
    simp [EidPatternItem.matches]
  | .anyTextScheme s, h =>
    have h : numericSchemeOfText s = some n := h
    simp [EidPatternItem.matches, h]
  | .dtn .any, h =>
    cases h
    cases e <;> simp [EidPatternItem.matches, DtnPatternItem.matches, Eid.numericScheme]

omit [Globs] in
theorem scheme_of_ipn {p : IpnPatternItem} (h : p.matches e = true) :
    e = .null ∨ e.numericScheme = some 2 := by
  cases e <;> simp_all [IpnPatternItem.matches, Eid.numericScheme]

/-- The condition for an item that matches something, and is strictly within
another one, to come first. -/
def Sorts (i j : EidPatternItem) : Prop :=
  match i, j with
  | .ipn p, .ipn q => ¬ p.Crossed q
  | .dtn (.exact n d), .dtn (.glob g) =>
    (dtn (.glob g)).score ≤ (dtn (.exact n d)).score
  | .dtn (.glob f), .dtn (.glob g) =>
    (dtn (.glob g)).score < (dtn (.glob f)).score ∨
      ((dtn (.glob g)).score = (dtn (.glob f)).score ∧ compare f g = .lt)
  | i, .anyNumericScheme _ => i.score ≠ 0
  | i, .anyTextScheme _ => i.score ≠ 0
  | i, .dtn .any => i.score ≠ 0
  | _, _ => True

omit [Globs] in
def Precedes (i j : EidPatternItem) : Prop :=
  j.score < i.score ∨ (j.score = i.score ∧ compare i j = .lt)

theorem precedes_scheme {n : Nat} (hj : j.scheme? = some n)
    (hsub : ∀ e : Eid, e.WellFormed → i.matches e = true → j.matches e = true)
    (hsome : ∃ e : Eid, e.WellFormed ∧ i.matches e = true)
    (hmore : ∃ e : Eid, e.WellFormed ∧ j.matches e = true ∧ i.matches e = false) :
    i.Precedes j ↔ i.Sorts j := by
  obtain ⟨e, he, hei⟩ := hsome
  have hen := (matches_of_scheme hj he).mp (hsub e he hei)
  -- an item for a whole scheme would be the same one
  have hi : i.scheme? = none := by
    by_contra h
    obtain ⟨m, hm⟩ := Option.ne_none_iff_exists'.mp h
    have hem := (matches_of_scheme hm he).mp hei
    obtain rfl : m = n := by simpa [hem] using hen
    obtain ⟨e', he', hj', hi'⟩ := hmore
    rw [(matches_of_scheme hm he').mpr ((matches_of_scheme hj he').mp hj')] at hi'
    cases hi'
  -- and any other one comes after `j` in the structural order
  have hgt : compare i j = .gt := by
    match i, hi with
    | .anyTextScheme s, hi =>
      have hi : numericSchemeOfText s = none := hi
      simp [EidPatternItem.matches, hi] at hei
    | .ipn p, _ =>
      match j, hj with
      | .anyNumericScheme _, _ => rfl
      | .anyTextScheme _, _ => rfl
      | .dtn .any, hj =>
        cases hj
        rcases scheme_of_ipn hei with rfl | h
        · cases hen
        · simp [h] at hen
    | .dtn .none, _ =>
      have hnull : e.isNull = true := hei
      cases e with
      | null => cases hen
      | _ => cases hnull
    | .dtn (.exact _ _), _ =>
      match j, hj with
      | .anyNumericScheme _, _ => rfl
      | .anyTextScheme _, _ => rfl
      | .dtn .any, _ => rfl
    | .dtn (.glob _), _ =>
      match j, hj with
      | .anyNumericScheme _, _ => rfl
      | .anyTextScheme _, _ => rfl
      | .dtn .any, _ => rfl
  have hzero : j.score = 0 ∧ (i.Sorts j ↔ i.score ≠ 0) := by
    match j, hj with
    | .anyNumericScheme _, _ => exact ⟨rfl, by rcases i with _ | _ | _ | (_ | _ | _ | _) <;> rfl⟩
    | .anyTextScheme _, _ => exact ⟨rfl, by rcases i with _ | _ | _ | (_ | _ | _ | _) <;> rfl⟩
    | .dtn .any, _ => exact ⟨rfl, by rcases i with _ | _ | _ | (_ | _ | _ | _) <;> rfl⟩
  rw [hzero.2, Precedes, hzero.1, hgt]
  simp [Nat.pos_iff_ne_zero]

section

omit [Globs]

theorem literalBits_le (x : IpnPattern) : x.literalBits ≤ 32 := by
  cases x with
  | wildcard => simp [IpnPattern.literalBits]
  | single n => simp [IpnPattern.literalBits]
  | range l =>
    rw [IpnPattern.literalBits_range]
    split <;> omega

theorem score_of_all {q : IpnPatternItem} (hq : q.Canonical) (hqs : q.specificityScore.isSome)
    (hall : ∀ e : Eid, e.WellFormed → e.numericScheme = some 2 → q.matches e = true) :
    q.score = 0 := by
  have hmonotonic := IpnPatternItem.monotonic_of_score hq hqs
  have hfull : IpnPattern.wildcard.Sub q.allocatorId := by
    intro v hv _
    have hone : 1 ≤ Eid.u32Max := by simp [Eid.u32Max]
    have hm := hall (.ipn ⟨v, 1⟩ 0) ⟨hv, hone, Nat.zero_le _, fun _ => by simp [Eid.u32Max]⟩ rfl
    obtain ⟨a, n, s, hparts, hhas⟩ := IpnPatternItem.matches_iff.mp hm
    cases hparts
    exact hhas.1
  have hnot : ¬ ∃ n, q.allocatorId = .single n := by
    rintro ⟨n, hn⟩
    rw [hn] at hfull
    have hcanonical : IpnPattern.wildcard.Canonical := trivial
    cases IpnPattern.eq_single_of_sub hcanonical hfull
  have hnode := hmonotonic.node hnot
  have hservice := hmonotonic.service (by simp [hnode])
  have hbits : q.allocatorId.literalBits = 0 := by
    have hc := hq.allocatorId
    cases ha : q.allocatorId with
    | wildcard => rfl
    | single n => exact absurd ⟨n, ha⟩ hnot
    | range l =>
      rw [ha] at hc hfull
      rw [IpnPattern.literalBits_range_eq_zero (IpnPattern.CanonicalRange.two_le_total hc),
        IpnPattern.CanonicalRange.total_of_full hc hfull]
      omega
  rw [IpnPatternItem.score_of_not_exact hqs
    (by simp [IpnPatternItem.isExact_eq_false hq.allocatorId hnot]), hbits, hnode, hservice]
  rfl

theorem exact_null {q : IpnPatternItem} (hnull : q.matches .null = true) (hq : q.Canonical)
    (hexact : (q.allocatorId.isExact && q.nodeNumber.isExact && q.serviceNumber.isExact) = true)
    (he : e.WellFormed) (h : q.matches e = true) : e = .null := by
  simp only [Bool.and_eq_true] at hexact
  obtain ⟨a, ha⟩ := (IpnPattern.isExact_iff hq.allocatorId).mp hexact.1.1
  obtain ⟨n, hn⟩ := (IpnPattern.isExact_iff hq.nodeNumber).mp hexact.1.2
  obtain ⟨s, hs⟩ := (IpnPattern.isExact_iff hq.serviceNumber).mp hexact.2
  obtain ⟨_, _, _, hparts, h0⟩ := IpnPatternItem.matches_iff.mp hnull
  cases hparts
  obtain ⟨a', n', s', hparts, h1⟩ := IpnPatternItem.matches_iff.mp h
  simp only [IpnPatternItem.Has, ha, hn, hs, IpnPattern.matches, beq_iff_eq] at h0 h1
  obtain ⟨rfl, rfl, rfl⟩ := h0
  obtain ⟨rfl, rfl, rfl⟩ := h1
  cases e with
  | null => rfl
  | localNode s => simp [Eid.ipnParts, Eid.u32Max] at hparts
  | legacyIpn fqnn s =>
    simp only [Eid.ipnParts, Option.some.injEq, Prod.mk.injEq] at hparts
    exact absurd hparts.1 he.1.ne'
  | ipn fqnn s =>
    simp only [Eid.ipnParts, Option.some.injEq, Prod.mk.injEq] at hparts
    exact absurd hparts.2.1 (he.2.2.2 hparts.1).1.ne'
  | dtn _ _ => cases hparts
  | unknown _ _ => cases hparts

end

/-- Strictly within an `ipn` item. -/
theorem precedes_ipn {q : IpnPatternItem} (hi : i.Canonical) (hq : q.Canonical)
    (his : i.specificityScore.isSome) (hqs : q.specificityScore.isSome)
    (hsub : ∀ e : Eid, e.WellFormed → i.matches e = true → q.matches e = true)
    (hsome : ∃ e : Eid, e.WellFormed ∧ i.matches e = true)
    (hmore : ∃ e : Eid, e.WellFormed ∧ q.matches e = true ∧ i.matches e = false) :
    i.Precedes (.ipn q) ↔ i.Sorts (.ipn q) := by
  obtain ⟨e, he, hei⟩ := hsome
  have heq := hsub e he hei
  obtain ⟨e', he', hq', hi'⟩ := hmore
  by_cases hscheme : i.scheme? = none
  · match i, hi, his, hscheme with
    | .anyTextScheme s, _, _, hscheme =>
      have hscheme : numericSchemeOfText s = none := hscheme
      simp [EidPatternItem.matches, hscheme] at hei
    | .ipn p, hi, his, _ =>
      have hcompare : compare (ipn p) (ipn q) = compare p q := by
        simp [compare, instOrdEidPatternItem.ord]
      obtain ⟨hcomponents, hmore⟩ :=
        IpnPatternItem.sub_of_matches hi hq his hqs hsub ⟨e, he, hei⟩ ⟨e', he', hq', hi'⟩
      rw [Precedes, hcompare]
      exact (IpnPatternItem.score_sub hi hq his hqs hcomponents hmore).2
    | .dtn .none, _, _, _ =>
      have hnull : e.isNull = true := hei
      obtain rfl : e = .null := by
        cases e with
        | null => rfl
        | _ => cases hnull
      have hlt : q.score < 256 := by
        by_cases hexact : (q.allocatorId.isExact && q.nodeNumber.isExact &&
            q.serviceNumber.isExact) = true
        · rw [exact_null heq hq hexact he' hq'] at hi'
          cases hi'
        · rw [IpnPatternItem.score_of_not_exact hqs (Bool.eq_false_iff.mpr hexact)]
          have := literalBits_le q.allocatorId
          have := literalBits_le q.nodeNumber
          have := literalBits_le q.serviceNumber
          omega
      exact ⟨fun _ => trivial, fun _ => .inl hlt⟩
    | .dtn (.exact _ _), _, _, _ =>
      cases e <;> first | cases hei | cases heq
    | .dtn (.glob _), _, _, _ =>
      cases e <;> first | cases hei | cases heq
  · obtain ⟨m, hm⟩ := Option.ne_none_iff_exists'.mp hscheme
    have hem := (matches_of_scheme hm he).mp hei
    obtain rfl : m = 2 := by
      rcases scheme_of_ipn heq with rfl | h
      · cases hem
      · simpa [h] using hem.symm
    have hzero := score_of_all hq hqs fun e he h => hsub e he ((matches_of_scheme hm he).mpr h)
    match i, hm with
    | .anyNumericScheme _, _ => exact ⟨fun _ => trivial, fun _ => .inr ⟨hzero, rfl⟩⟩
    | .anyTextScheme _, _ => exact ⟨fun _ => trivial, fun _ => .inr ⟨hzero, rfl⟩⟩

theorem matches_glob {g : Bytes} (h : (dtn (.glob g)).matches e = true) :
    e.numericScheme = some 1 ∧ ∃ n d, e = .dtn n d := by
  cases e with
  | dtn n d => exact ⟨rfl, n, d, rfl⟩
  | _ => cases h

theorem precedes_glob {g : Bytes}
    (hsub : ∀ e : Eid, e.WellFormed → i.matches e = true → (dtn (.glob g)).matches e = true)
    (hsome : ∃ e : Eid, e.WellFormed ∧ i.matches e = true)
    (hmore : ∃ e : Eid, e.WellFormed ∧ (dtn (.glob g)).matches e = true ∧ i.matches e = false) :
    i.Precedes (.dtn (.glob g)) ↔ i.Sorts (.dtn (.glob g)) := by
  obtain ⟨e, he, hei⟩ := hsome
  obtain ⟨hen, n, d, rfl⟩ := matches_glob (hsub e he hei)
  obtain ⟨e', he', hg, hi'⟩ := hmore
  have hi : i.scheme? = none := by
    by_contra h
    obtain ⟨m, hm⟩ := Option.ne_none_iff_exists'.mp h
    have hem := (matches_of_scheme hm he).mp hei
    obtain rfl : m = 1 := by simpa [hem] using hen
    rw [(matches_of_scheme hm he').mpr (matches_glob hg).1] at hi'
    cases hi'
  match i, hi with
  | .anyTextScheme s, hi =>
    have hi : numericSchemeOfText s = none := hi
    simp [EidPatternItem.matches, hi] at hei
  | .ipn _, _ => cases hei
  | .dtn .none, _ => cases hei
  | .dtn (.exact n' d'), _ =>
    have hlt : compare (dtn (.exact n' d')) (dtn (.glob g)) = .lt := rfl
    rw [Precedes, hlt, Sorts, le_iff_lt_or_eq]
    simp
  | .dtn (.glob f), _ =>
    have hcompare : compare (dtn (.glob f)) (dtn (.glob g)) = compare f g := by
      simp [compare, instOrdEidPatternItem.ord, instOrdDtnPatternItem.ord]
    rw [Precedes, hcompare, Sorts]

theorem not_within_one (e₀ : Eid) (hj : ∀ e : Eid, j.matches e = true → e = e₀)
    (hsub : ∀ e : Eid, e.WellFormed → i.matches e = true → j.matches e = true)
    (hsome : ∃ e : Eid, e.WellFormed ∧ i.matches e = true)
    (hmore : ∃ e : Eid, e.WellFormed ∧ j.matches e = true ∧ i.matches e = false) : False := by
  obtain ⟨e, he, hei⟩ := hsome
  obtain ⟨e', he', hj', hi'⟩ := hmore
  rw [hj e' hj', ← hj e (hsub e he hei), hei] at hi'
  cases hi'

theorem precedes_iff_sorts (hi : i.Canonical) (hj : j.Canonical)
    (his : i.specificityScore.isSome) (hjs : j.specificityScore.isSome)
    (hsub : ∀ e : Eid, e.WellFormed → i.matches e = true → j.matches e = true)
    (hsome : ∃ e : Eid, e.WellFormed ∧ i.matches e = true)
    (hmore : ∃ e : Eid, e.WellFormed ∧ j.matches e = true ∧ i.matches e = false) :
    i.Precedes j ↔ i.Sorts j := by
  by_cases hscheme : j.scheme? = none
  · match j, hj, hjs, hscheme with
    | .anyTextScheme s, _, _, hscheme =>
      have hscheme : numericSchemeOfText s = none := hscheme
      obtain ⟨e, -, h, -⟩ := hmore
      simp [EidPatternItem.matches, hscheme] at h
    | .ipn q, hj, hjs, _ => exact precedes_ipn hi hj his hjs hsub hsome hmore
    | .dtn .none, _, _, _ =>
      refine (not_within_one .null (fun e h => ?_) hsub hsome hmore).elim
      cases e with
      | null => rfl
      | _ => cases h
    | .dtn (.exact n d), _, _, _ =>
      refine (not_within_one (.dtn n d) (fun e h => ?_) hsub hsome hmore).elim
      cases e with
      | dtn n' d' =>
        simp only [EidPatternItem.matches, DtnPatternItem.matches, Bool.and_eq_true,
          beq_iff_eq] at h
        rw [h.1, h.2]
      | _ => cases h
    | .dtn (.glob g), _, _, _ => exact precedes_glob hsub hsome hmore
  · obtain ⟨m, hm⟩ := Option.ne_none_iff_exists'.mp hscheme
    exact precedes_scheme hm hsub hsome hmore

end EidPatternItem

/-! ## Patterns -/

namespace EidPattern

variable [Globs] {p q : EidPattern}

omit [Globs] in
def Canonical : EidPattern → Prop
  | .any => True
  | .set items => ∀ i ∈ items, i.Canonical

def IsAtom (p : EidPattern) : Prop := p.intoAtoms = [p]

def score (p : EidPattern) : Nat := p.specificityScore.getD 0

def tieBreak (p q : EidPattern) : Ordering :=
  match p, q with
  | .any, .any => .eq
  | .any, .set _ => .lt
  | .set _, .any => .gt
  | .set a, .set b => compare a b

def Precedes (p q : EidPattern) : Prop :=
  q.score < p.score ∨ (q.score = p.score ∧ p.tieBreak q = .lt)

omit [Globs] in
theorem cmp_eq_lt : p.cmp q = .lt ↔ p.Precedes q := by
  have hcmp : p.cmp q = (compare q.score p.score).then (p.tieBreak q) := rfl
  rw [hcmp, Precedes]
  rcases Nat.lt_trichotomy q.score p.score with h | h | h
  · simp [Nat.compare_eq_lt.mpr h, h]
  · simp [h]
  · simp [Nat.compare_eq_gt.mpr h, h.not_gt, h.ne']

/-- Every endpoint of `p` is one of `q`, which has one more. -/
structure StrictlyWithin (p q : EidPattern) : Prop where
  sub : ∀ e : Eid, e.WellFormed → p.matches e = true → q.matches e = true
  more : ∃ e : Eid, e.WellFormed ∧ q.matches e = true ∧ p.matches e = false

/-- No EID matches. -/
def Barren (p : EidPattern) : Prop := ∀ e : Eid, e.WellFormed → p.matches e = false

/-- The condition for a pattern that matches something to come before one that it
is strictly within. -/
def Sorts (p q : EidPattern) : Prop :=
  match p, q with
  | p, .any => p.score ≠ 0
  | .set [i], .set [j] => i.Sorts j
  | _, _ => True

omit [Globs] in
theorem isAtom_cases (h : p.IsAtom) (hs : p.specificityScore.isSome) :
    p = .any ∨ ∃ i, p = .set [i] := by
  match p, h, hs with
  | .any, _, _ => exact .inl rfl
  | .set [], _, hs => cases hs
  | .set [i], _, _ => exact .inr ⟨i, rfl⟩
  | .set (i :: j :: items), h, _ =>
    have hlen := congrArg List.length h
    simp [intoAtoms] at hlen

theorem matches_single (i : EidPatternItem) (e : Eid) :
    (set [i]).matches e = i.matches e := by
  simp [EidPattern.matches]

omit [Globs] in
theorem tieBreak_single (i j : EidPatternItem) : (set [i]).tieBreak (.set [j]) = compare i j := by
  show List.compareLex compare [i] [j] = compare i j
  rw [List.compareLex]
  cases compare i j <;> rfl

/-- When a pattern that is strictly within another one comes before it. -/
theorem cmp_eq_lt_iff (hp : p.IsAtom) (hq : q.IsAtom) (hps : p.specificityScore.isSome)
    (hqs : q.specificityScore.isSome) (hpc : p.Canonical) (hqc : q.Canonical)
    (h : p.StrictlyWithin q) :
    p.cmp q = .lt ↔ (p.Barren ∧ p.Precedes q) ∨ (¬ p.Barren ∧ p.Sorts q) := by
  rw [cmp_eq_lt]
  by_cases hbarren : p.Barren
  · simp [hbarren]
  simp only [hbarren, false_and, not_false_eq_true, true_and, false_or]
  rcases isAtom_cases hp hps with rfl | ⟨i, rfl⟩
  · obtain ⟨e, -, -, hm⟩ := h.more
    cases hm
  rcases isAtom_cases hq hqs with rfl | ⟨j, rfl⟩
  · have hzero : (any).score = 0 := rfl
    have htie : (set [i]).tieBreak .any = .gt := rfl
    rw [Precedes, hzero, htie]
    simp [Sorts, Nat.pos_iff_ne_zero]
  · have hsub := h.sub
    have hmore := h.more
    simp only [Barren, not_forall, matches_single, Bool.not_eq_false] at hbarren hsub hmore
    obtain ⟨e, he, hei⟩ := hbarren
    rw [Precedes, tieBreak_single]
    exact EidPatternItem.precedes_iff_sorts (hpc i (List.mem_singleton_self i))
      (hqc j (List.mem_singleton_self j)) hps hqs hsub ⟨e, he, hei⟩ hmore

end EidPattern

/-! ## Services of node 3 -/

namespace EidPattern.NodeThree

local instance : Globs := .literal

def services (s : IpnPattern) : EidPattern := .set [.ipn ⟨.single 0, .single 3, s⟩]

theorem matches_services {s : IpnPattern} {e : Eid} :
    (services s).matches e = true ↔
      ∃ v, e.ipnParts = some (0, 3, v) ∧ s.matches v = true := by
  rw [services, matches_single]
  refine IpnPatternItem.matches_iff.trans ?_
  simp only [IpnPatternItem.Has, IpnPattern.matches, beq_iff_eq]
  constructor
  · rintro ⟨_, _, v, hparts, rfl, rfl, hv⟩
    exact ⟨v, hparts, hv⟩
  · rintro ⟨v, hparts, hv⟩
    exact ⟨0, 3, v, hparts, rfl, rfl, hv⟩

theorem strictlyWithin_services {s s' : IpnPattern} {v : Nat} (hv : v ≤ Eid.u32Max)
    (hsub : ∀ v, s.matches v = true → s'.matches v = true) (hin : s'.matches v = true)
    (hout : s.matches v = false) : (services s).StrictlyWithin (services s') := by
  refine ⟨fun e _ hm => ?_, .ipn ⟨0, 3⟩ v, ?_, ?_, ?_⟩
  · obtain ⟨v, hparts, hs⟩ := matches_services.mp hm
    exact matches_services.mpr ⟨v, hparts, hsub v hs⟩
  · exact ⟨Nat.zero_le _, by simp [Eid.u32Max], hv, fun _ => by simp [Eid.u32Max]⟩
  · exact matches_services.mpr ⟨v, rfl, hin⟩
  · refine Bool.eq_false_iff.mpr fun hm => ?_
    obtain ⟨w, hparts, hs⟩ := matches_services.mp hm
    cases hparts
    rw [hout] at hs
    cases hs

/-- `ipn:3.[5-7]` is strictly within `ipn:3.[4-7]`, which comes first. -/
theorem broader_range_first :
    (services (.range [.range 5 7])).IsAtom ∧ (services (.range [.range 4 7])).IsAtom ∧
    (services (.range [.range 5 7])).specificityScore = some 94 ∧
    (services (.range [.range 4 7])).specificityScore = some 94 ∧
    (services (.range [.range 5 7])).StrictlyWithin (services (.range [.range 4 7])) ∧
    (services (.range [.range 5 7])).cmp (services (.range [.range 4 7])) = .gt := by
  refine ⟨rfl, rfl, by decide, by decide, ?_, by decide⟩
  refine strictlyWithin_services (v := 4) (by simp [Eid.u32Max]) (fun v hv => ?_) rfl rfl
  simp only [IpnPattern.matches, IpnInterval.matches, List.any_cons, List.any_nil, Bool.or_false,
    Bool.and_eq_true, decide_eq_true_eq] at hv ⊢
  omega

/-- `ipn:3.5` comes before `ipn:3.*`. -/
theorem service_before_wildcard :
    (services (.single 5)).StrictlyWithin (services .wildcard) ∧
      (services (.single 5)).cmp (services .wildcard) = .lt := by
  have hwithin : (services (.single 5)).StrictlyWithin (services .wildcard) :=
    strictlyWithin_services (v := 4) (by simp [Eid.u32Max]) (fun _ _ => rfl) rfl rfl
  have hcanonical : ∀ s : IpnPattern, s.Canonical → (services s).Canonical := by
    intro s hs i hi
    rw [List.mem_singleton.mp hi]
    exact ⟨Nat.zero_le _, by simp [IpnPattern.Canonical, Eid.u32Max], hs⟩
  have hlive : ¬ (services (.single 5)).Barren := fun h => by
    have hnone := h (.ipn ⟨0, 3⟩ 5) ⟨Nat.zero_le _, by simp [Eid.u32Max], by simp [Eid.u32Max],
      fun _ => by simp [Eid.u32Max]⟩
    cases hnone
  have hatom : ∀ s, (services s).IsAtom := fun _ => rfl
  have hscored : (services (.single 5)).specificityScore.isSome ∧
      (services .wildcard).specificityScore.isSome := ⟨rfl, rfl⟩
  refine ⟨hwithin, (cmp_eq_lt_iff (hatom _) (hatom _) hscored.1 hscored.2 (hcanonical _ ?_)
    (hcanonical _ ?_) hwithin).mpr (.inr ⟨hlive, ?_⟩)⟩
  · simp [IpnPattern.Canonical, Eid.u32Max]
  · trivial
  · simp [Sorts, services, EidPatternItem.Sorts, IpnPatternItem.Crossed, IpnPattern.Crossed]

end EidPattern.NodeThree

end Hardy
