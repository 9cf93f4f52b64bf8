import Hardy.Pattern.Specificity
import Hardy.Pattern.Text

/-!
# The text of `ipn` patterns

The parser yields canonical patterns only (`IpnPatternItem.parse_canonical`), and
it reads the displayed form of a canonical pattern back
(`IpnPatternItem.parse_display`).

Each part is read up to the first character that it cannot have, so the parts of
a text are read one by one (`Local.next`).
-/

namespace Hardy

open Grammar

/-! ## Numbers -/

theorem isNonZeroDigit_digit {d : Nat} (h : d < 10) :
    0 < d → isNonZeroDigit (UInt8.ofNat (0x30 + d)) = true := by
  revert d
  decide

theorem isDigit_digit {d : Nat} (h : d < 10) : isDigit (UInt8.ofNat (0x30 + d)) = true := by
  revert d
  decide

theorem digit_toNat {d : Nat} (h : d < 10) : (UInt8.ofNat (0x30 + d)).toNat - 0x30 = d := by
  revert d
  decide

theorem decimal_digits (n : Nat) : (decimal n).all isDigit = true := by
  rw [decimal]
  split
  · rfl
  · simp only [List.all_map, List.all_reverse, List.all_eq_true, Function.comp_apply]
    exact fun d hd => isDigit_digit (Nat.digits_lt_base (by omega) hd)

theorem decimal_step {n : Nat} (h : 10 ≤ n) :
    decimal n = decimal (n / 10) ++ [UInt8.ofNat (0x30 + n % 10)] := by
  rw [decimal, decimal, if_neg (by omega), if_neg (by omega),
    Nat.digits_def' (by omega) (by omega : 0 < n)]
  simp

theorem decimal_small {n : Nat} (h : n < 10) : decimal n = [UInt8.ofNat (0x30 + n)] := by
  revert n
  decide

theorem numeral_append (a : Bytes) (d : UInt8) :
    numeral (a ++ [d]) = numeral a * 10 + (d.toNat - 0x30) := by
  simp [numeral]

theorem numeral_decimal (n : Nat) : numeral (decimal n) = n := by
  induction n using Nat.strong_induction_on with
  | _ n ih =>
    by_cases h : n < 10
    · rw [decimal_small h]
      have hd := digit_toNat h
      simpa [numeral] using hd
    · rw [decimal_step (by omega), numeral_append, ih (n / 10) (by omega),
        digit_toNat (Nat.mod_lt n (by omega))]
      omega

theorem decimal_first {n : Nat} (h : 0 < n) :
    ∃ c t, decimal n = c :: t ∧ isNonZeroDigit c = true := by
  induction n using Nat.strong_induction_on with
  | _ n ih =>
    by_cases hn : n < 10
    · exact ⟨_, [], decimal_small hn, isNonZeroDigit_digit hn h⟩
    · obtain ⟨c, t, ht, hc⟩ := ih (n / 10) (by omega) (by omega)
      exact ⟨c, t ++ _, by rw [decimal_step (by omega), ht]; rfl, hc⟩

theorem not_mem_decimal {n : Nat} {b : UInt8} (hb : isDigit b = false) : b ∉ decimal n := by
  intro hm
  have := List.all_eq_true.mp (decimal_digits n) b hm
  rw [hb] at this
  cases this

theorem parseNonZeroDecimal_decimal {limit n : Nat} (h : 0 < n) (hn : n < limit) :
    parseNonZeroDecimal limit (decimal n) = some (n, []) := by
  obtain ⟨c, t, ht, hc⟩ := decimal_first h
  have hdigits : t.all isDigit = true := by
    have hall := decimal_digits n
    rw [ht, List.all_cons, Bool.and_eq_true] at hall
    exact hall.2
  have hvalue : numeral (c :: t) = n := ht ▸ numeral_decimal n
  rw [ht]
  simp [parseNonZeroDecimal, Grammar.bind, Grammar.oneOf, hc, Grammar.tryMap,
    takeWhile_whole hdigits, hvalue, hn]

theorem decUint_decimal {n : Nat} (hn : n ≤ Eid.u32Max) : decUint (decimal n) = some (n, []) := by
  rw [Eid.u32Max] at hn
  by_cases h : n = 0
  · rw [h]
    decide
  · rw [decUint, Grammar.alt, parseNonZeroDecimal_decimal (by omega) (by omega)]
    rfl

theorem isNonZeroDigit_iff {b : UInt8} :
    isNonZeroDigit b = true ↔ 0x31 ≤ b.toNat ∧ b.toNat ≤ 0x39 := by
  simp [isNonZeroDigit, UInt8.le_iff_toNat_le]

theorem isDigit_of_nonZero {b : UInt8} (h : isNonZeroDigit b = true) : isDigit b = true := by
  have hb := isNonZeroDigit_iff.mp h
  simp only [isDigit, UInt8.le_iff_toNat_le, Bool.and_eq_true, decide_eq_true_eq]
  exact ⟨Nat.le_of_succ_le hb.1, hb.2⟩

theorem le_foldl_numeral (digits : Bytes) (v : Nat) :
    v ≤ digits.foldl (fun v d => v * 10 + (d.toNat - 0x30)) v := by
  induction digits generalizing v with
  | nil => exact le_refl v
  | cons d digits ih =>
    have hstep : v ≤ v * 10 + (d.toNat - 0x30) := by omega
    exact hstep.trans (ih _)

theorem numeral_pos {first : UInt8} {digits : Bytes} (h : isNonZeroDigit first = true) :
    0 < numeral (first :: digits) := by
  have hfirst := (isNonZeroDigit_iff.mp h).1
  have hle := le_foldl_numeral digits (0 * 10 + (first.toNat - 0x30))
  rw [numeral, List.foldl_cons]
  omega

theorem parseNonZeroDecimal_yields (limit : Nat) :
    Yields (parseNonZeroDecimal limit) fun n => 0 < n ∧ n < limit := by
  refine (Yields.oneOf isNonZeroDigit).bind fun first hfirst =>
    (Yields.takeWhile isDigit).tryMap fun digits n _ hn => ?_
  split at hn
  · rename_i hlt
    cases hn
    exact ⟨numeral_pos hfirst, hlt⟩
  · cases hn

theorem decUint_yields : Yields decUint fun n => n ≤ Eid.u32Max := by
  refine Yields.alt ?_ ?_
  · intro t n u h
    have := (parseNonZeroDecimal_yields _ t n u h).2
    rw [Eid.u32Max]
    omega
  · intro t n u h
    obtain ⟨_, -, hn⟩ := Option.map_eq_some_iff.mp h
    cases hn
    exact Nat.zero_le _

variable {stop : UInt8}

theorem parseNonZeroDecimal_local (h : isDigit stop = false) (limit : Nat) :
    Local stop (parseNonZeroDecimal limit) := by
  have hfirst : isNonZeroDigit stop = false := by
    cases hc : isNonZeroDigit stop with
    | false => rfl
    | true => rw [isDigit_of_nonZero hc] at h; exact h
  exact (Local.oneOf hfirst).bind fun _ => (Local.takeWhile h).tryMap _

theorem decUint_local (h : isDigit stop = false) : Local stop decUint := by
  refine (parseNonZeroDecimal_local h _).alt ((Local.literal ?_).map _)
  intro hm
  rw [List.mem_singleton.mp hm] at h
  cases h

/-! ## Intervals -/

namespace IpnPattern

theorem parseInterval_yields :
    Yields parseInterval fun b => b.1 ≤ b.2 ∧ b.2 ≤ Eid.u32Max := by
  have hplus : Yields (map (fun _ => Eid.u32Max) (literal [0x2B] : Parser UInt8 Unit))
      fun n => n ≤ Eid.u32Max := by
    intro t n u h
    obtain ⟨_, -, hn⟩ := Option.map_eq_some_iff.mp h
    cases hn
    exact le_refl _
  refine decUint_yields.bind fun start hstart =>
    (hplus.alt decUint_yields.preceded).opt.map fun stop hstop => ?_
  have hle : stop.getD start ≤ Eid.u32Max := by
    cases stop with
    | none => exact hstart
    | some e => exact hstop e rfl
  exact ⟨min_le_max, max_le hstart hle⟩

def isIntervalChar (b : UInt8) : Bool := isDigit b || b == 0x2B || b == 0x2D

theorem parseInterval_local (h : isIntervalChar stop = false) : Local stop parseInterval := by
  simp only [isIntervalChar, Bool.or_eq_false_iff, beq_eq_false_iff_ne, ne_eq] at h
  obtain ⟨⟨hdigit, hplus⟩, hminus⟩ := h
  exact (decUint_local hdigit).bind fun _ => Local.map _ <| Local.opt <|
    ((Local.literal (by simpa using hplus)).map _).alt
      (Local.preceded (by simpa using hminus) (decUint_local hdigit))

theorem parseInterval_display {i : IpnInterval} (hi : i.Valid) :
    parseInterval i.display = some (i.bounds, []) := by
  cases i with
  | number n =>
    rw [IpnInterval.display, parseInterval, Grammar.bind, decUint_decimal hi]
    simp [Grammar.map, Grammar.opt, Grammar.alt, literal, preceded, Grammar.bind,
      IpnInterval.bounds]
  | range s e =>
    have hs : s ≤ Eid.u32Max := hi.1.le.trans hi.2
    have hmin : min s e = s := min_eq_left hi.1.le
    have hmax : max s e = e := max_eq_right hi.1.le
    rw [IpnInterval.display, parseInterval, Grammar.bind]
    split
    · rename_i he
      rw [(decUint_local (by decide)).next (not_mem_decimal (by decide)) (decUint_decimal hs)]
      simp [Grammar.map, Grammar.opt, Grammar.alt, literal, IpnInterval.bounds, ← he, hmin, hmax]
    · rw [(decUint_local (by decide)).next (not_mem_decimal (by decide)) (decUint_decimal hs)]
      simp [Grammar.map, Grammar.opt, Grammar.alt, literal, preceded, Grammar.bind,
        decUint_decimal hi.2, IpnInterval.bounds, hmin, hmax]

theorem display_interval {i : IpnInterval} : i.display.all isIntervalChar = true := by
  have hdecimal : ∀ n, (decimal n).all isIntervalChar = true := by
    intro n
    refine List.all_eq_true.mpr fun b hb => ?_
    simp [isIntervalChar, List.all_eq_true.mp (decimal_digits n) b hb]
  cases i with
  | number n => exact hdecimal n
  | range s e =>
    rw [IpnInterval.display]
    split <;> simp [hdecimal] <;> rfl

theorem not_mem_of_all {f : UInt8 → Bool} {t : Bytes} {b : UInt8} (ht : t.all f = true)
    (hb : f b = false) : b ∉ t := by
  intro hm
  have hf := List.all_eq_true.mp ht b hm
  rw [hb] at hf
  cases hf

/-! ## Ranges -/

theorem sortByStart_sorted (l : List (Nat × Nat)) :
    (sortByStart l).Pairwise fun i j => i.1 ≤ j.1 := by
  have htotal : Std.Total fun i j : Nat × Nat => i.1 ≤ j.1 := ⟨fun i j => Nat.le_total i.1 j.1⟩
  have htrans : IsTrans (Nat × Nat) fun i j => i.1 ≤ j.1 := ⟨fun _ _ _ => Nat.le_trans⟩
  exact List.pairwise_insertionSort _ l

theorem sortByStart_of_separated {l : List (Nat × Nat)} (h : Intervals.Separated l) :
    sortByStart l = l := by
  refine List.Pairwise.insertionSort_eq (h.gaps.imp_of_mem fun {i j} hi _ hgap => ?_)
  have := h.inhabited i hi
  omega

theorem ofBounds_valid {b : Nat × Nat} (h : b.1 ≤ b.2) (hle : b.2 ≤ Eid.u32Max) :
    (IpnInterval.ofBounds b).Valid ∧ (IpnInterval.ofBounds b).bounds = b := by
  rw [IpnInterval.ofBounds]
  split
  · rename_i heq
    exact ⟨h.trans hle, Prod.ext rfl heq.symm⟩
  · exact ⟨⟨by omega, hle⟩, rfl⟩

variable {l : List IpnInterval}

theorem ofIntervals_canonical (hvalid : ∀ i ∈ l, i.Valid)
    (hsep : Intervals.Separated (l.map IpnInterval.bounds)) (hne : l ≠ []) :
    (ofIntervals l).Canonical := by
  rw [ofIntervals.eq_def]
  split
  · exact hvalid _ (List.mem_singleton_self _)
  · rename_i hseveral
    exact ⟨hvalid, hsep, hne, hseveral⟩

theorem ofIntervals_of_canonical (h : CanonicalRange l) : ofIntervals l = .range l := by
  rw [ofIntervals.eq_def]
  split
  · exact absurd rfl (h.several _)
  · rfl

theorem merge_canonical {l : List (Nat × Nat)} (hne : l ≠ [])
    (hvalid : ∀ b ∈ l, b.1 ≤ b.2 ∧ b.2 ≤ Eid.u32Max) : (merge l).Canonical := by
  have hperm : (sortByStart l).Perm l := List.perm_insertionSort _ l
  have hsorted := sortByStart_sorted l
  rw [merge]
  cases hl : sortByStart l with
  | nil => exact absurd (hl ▸ hperm).nil_eq hne.symm
  | cons first rest =>
    rw [hl] at hperm hsorted
    have hin : ∀ b ∈ first :: rest, b.1 ≤ b.2 ∧ b.2 ≤ Eid.u32Max :=
      fun b hb => hvalid b (hperm.mem_iff.mp hb)
    obtain ⟨hsep, -⟩ := Intervals.coalesce_separated (fun b hb => (hin b hb).1) hsorted
    -- an end of a joined interval is covered, so it is a number of 32 bits
    have hle : ∀ b ∈ Intervals.coalesce first rest, b.2 ≤ Eid.u32Max := by
      intro b hb
      have hcovers : Intervals.Covers (Intervals.coalesce first rest) b.2 :=
        ⟨b, hb, hsep.inhabited b hb, le_refl _⟩
      obtain ⟨c, hc, -, hbc⟩ :=
        (Intervals.coalesce_covers (fun b hb => (hin b hb).1) hsorted).mp hcovers
      exact hbc.trans (hin c hc).2
    have hvals : ∀ b ∈ Intervals.coalesce first rest,
        (IpnInterval.ofBounds b).Valid ∧ (IpnInterval.ofBounds b).bounds = b :=
      fun b hb => ofBounds_valid (hsep.inhabited b hb) (hle b hb)
    have hbounds : ((Intervals.coalesce first rest).map IpnInterval.ofBounds).map
        IpnInterval.bounds = Intervals.coalesce first rest := by
      rw [List.map_map]
      exact (List.map_congr_left fun b hb => (hvals b hb).2).trans (List.map_id _)
    refine ofIntervals_canonical ?_ ?_ ?_
    · intro i hi
      obtain ⟨b, hb, rfl⟩ := List.mem_map.mp hi
      exact (hvals b hb).1
    · rw [hbounds]
      exact hsep
    · exact List.map_eq_nil_iff.not.mpr (Intervals.coalesce_ne_nil first rest)

theorem merge_bounds (h : CanonicalRange l) : merge (l.map IpnInterval.bounds) = .range l := by
  rw [merge, sortByStart_of_separated h.separated]
  obtain ⟨i, l, rfl⟩ := List.exists_cons_of_ne_nil h.nonempty
  have hmerged : Intervals.coalesce i.bounds (l.map IpnInterval.bounds) =
      (i :: l).map IpnInterval.bounds := Intervals.coalesce_of_separated h.separated
  have hof : ((i :: l).map IpnInterval.bounds).map IpnInterval.ofBounds = i :: l := by
    rw [List.map_map]
    exact (List.map_congr_left fun j hj => IpnInterval.ofBounds_bounds (h.valid j hj)).trans
      (List.map_id _)
  simp only [List.map_cons, hmerged]
  rw [← List.map_cons, ← List.map_cons, hof]
  exact ofIntervals_of_canonical h

theorem parseRange_canonical : Yields parseRange Canonical :=
  parseInterval_yields.separated.terminated.preceded.map fun _ h => merge_canonical h.1 h.2

def isPartChar (b : UInt8) : Bool :=
  isIntervalChar b || b == 0x2A || b == 0x2C || b == 0x5B || b == 0x5D

theorem parseRange_local (h : isPartChar stop = false) : Local stop parseRange := by
  simp only [isPartChar, Bool.or_eq_false_iff, beq_eq_false_iff_ne, ne_eq] at h
  obtain ⟨⟨⟨⟨hinterval, -⟩, hcomma⟩, hopen⟩, hclose⟩ := h
  exact Local.map _ <| Local.preceded (by simpa using hopen) <|
    Local.terminated ((parseInterval_local hinterval).separated hcomma) (by simpa using hclose)

theorem parseRange_display (h : CanonicalRange l) :
    parseRange (0x5B :: ([0x2C].intercalate (l.map IpnInterval.display) ++ [0x5D])) =
      some (.range l, []) := by
  have hcomma : Local 0x2C parseInterval := parseInterval_local rfl
  have hlocal : Local 0x5D (separated parseInterval 0x2C) :=
    (parseInterval_local rfl).separated (by decide)
  have hread := (separated_intercalate hcomma h.nonempty fun i _ =>
    not_mem_of_all display_interval rfl).mpr fun i hi => parseInterval_display (h.valid i hi)
  have hclose : (0x5D : UInt8) ∉ [0x2C].intercalate (l.map IpnInterval.display) := by
    refine not_mem_intercalate (by decide) fun t ht => ?_
    obtain ⟨i, -, rfl⟩ := List.mem_map.mp ht
    exact not_mem_of_all display_interval rfl
  have hnext := @Local.next _ _ _ _ hlocal _ [] _ hclose hread
  simp [parseRange, Grammar.map, preceded, Grammar.bind, literal, terminated, hnext,
    merge_bounds h]

/-! ## Parts -/

theorem parsePart_canonical : Yields parsePart Canonical := by
  refine Yields.alt ?_ ((decUint_yields.map fun _ h => h).alt parseRange_canonical)
  intro t n u h
  obtain ⟨_, -, hn⟩ := Option.map_eq_some_iff.mp h
  cases hn
  trivial

theorem parsePart_local (h : isPartChar stop = false) : Local stop parsePart := by
  have hdigit : isDigit stop = false := by
    simp only [isPartChar, isIntervalChar, Bool.or_eq_false_iff] at h
    exact h.1.1.1.1.1.1
  refine ((Local.literal ?_).map _).alt (((decUint_local hdigit).map _).alt (parseRange_local h))
  intro hm
  rw [List.mem_singleton.mp hm] at h
  cases h

theorem display_of_canonical (h : CanonicalRange l) : (range l).display =
    0x5B :: ([0x2C].intercalate (l.map IpnInterval.display) ++ [0x5D]) := by
  rw [IpnPattern.display]
  exact fun n hl => h.several n hl

theorem parsePart_display {x : IpnPattern} (h : x.Canonical) :
    parsePart x.display = some (x, []) := by
  cases x with
  | wildcard => rfl
  | single n =>
    have hstar : literal [0x2A] (decimal n) = none :=
      literal_none_of_not_mem (not_mem_decimal rfl)
    rw [IpnPattern.display, parsePart, Grammar.alt, Grammar.map, hstar]
    simp [Grammar.alt, Grammar.map, decUint_decimal h]
  | range l =>
    rw [display_of_canonical h, parsePart, Grammar.alt, Grammar.alt, parseRange_display h]
    rfl

theorem display_part (x : IpnPattern) : x.display.all isPartChar = true := by
  have hdecimal : ∀ n, (decimal n).all isPartChar = true := by
    intro n
    refine List.all_eq_true.mpr fun b hb => ?_
    simp [isPartChar, isIntervalChar, List.all_eq_true.mp (decimal_digits n) b hb]
  have hrange : ∀ l : List IpnInterval,
      (0x5B :: ([0x2C].intercalate (l.map IpnInterval.display) ++ [0x5D])).all isPartChar := by
    intro l
    simp only [List.all_cons, List.all_append, List.all_nil, Bool.and_true, Bool.and_eq_true]
    refine ⟨rfl, List.all_eq_true.mpr fun b hb => ?_, rfl⟩
    by_contra hnot
    refine absurd hb (not_mem_intercalate ?_ ?_)
    · rintro rfl
      exact hnot rfl
    · intro t ht hmem
      obtain ⟨i, -, rfl⟩ := List.mem_map.mp ht
      have := List.all_eq_true.mp display_interval b hmem
      exact hnot (by simp [isPartChar, this])
  rw [IpnPattern.display.eq_def]
  split
  · rfl
  · exact hdecimal _
  · exact hdecimal _
  · exact hrange _

end IpnPattern

/-! ## Items -/

namespace IpnPatternItem

open IpnPattern

theorem ofParts_canonical {a b : IpnPattern} (ha : a.Canonical) (hb : b.Canonical)
    {c : Option IpnPattern} (hc : ∀ x ∈ c, x.Canonical) : (ofParts a b c).Canonical := by
  cases c with
  | none => exact ⟨Nat.zero_le _, ha, hb⟩
  | some c => exact ⟨ha, hb, hc c rfl⟩

theorem parse_canonical : Yields parse Canonical := by
  refine Yields.preceded (Yields.alt ?_ (Yields.alt ?_ ?_))
  · intro t i u h
    obtain ⟨_, -, hi⟩ := Option.map_eq_some_iff.mp h
    cases hi
    exact ⟨trivial, trivial, trivial⟩
  · exact parsePart_canonical.preceded.map fun c hc => ⟨Nat.zero_le _, le_refl _, hc⟩
  · exact parsePart_canonical.bind fun a ha => parsePart_canonical.preceded.bind fun b hb =>
      parsePart_canonical.preceded.opt.map fun c hc => ofParts_canonical ha hb hc

def isIpnChar (b : UInt8) : Bool :=
  isPartChar b || b == 0x21 || b == 0x2E || ipnColon.contains b

theorem parse_local (h : isIpnChar stop = false) : Local stop parse := by
  simp only [isIpnChar, Bool.or_eq_false_iff, beq_eq_false_iff_ne, ne_eq] at h
  obtain ⟨⟨⟨hpart, hbang⟩, hdot⟩, hipn⟩ := h
  have hstar : stop ≠ 0x2A := by
    rintro rfl
    cases hpart
  have hdotted : Local stop (preceded [0x2E] parsePart) :=
    (parsePart_local hpart).preceded (by simpa using hdot)
  refine Local.preceded (by simpa using hipn) (Local.alt ?_ (Local.alt ?_ ?_))
  · exact (Local.literal (by simpa using hstar)).map _
  · exact ((parsePart_local hpart).preceded (by simp [hbang, hdot])).map _
  · exact (parsePart_local hpart).bind fun _ => hdotted.bind fun _ => hdotted.opt.map _

theorem parseParts_two {x y : IpnPattern} (hx : x.Canonical) (hy : y.Canonical) :
    parseParts (x.display ++ 0x2E :: y.display) = some (⟨.single 0, x, y⟩, []) := by
  have hdot : Local 0x2E parsePart := parsePart_local rfl
  have hfirst := @Local.next _ _ _ _ hdot _ y.display _ (not_mem_of_all (display_part x) rfl)
    (parsePart_display hx)
  simp [parseParts, Grammar.bind, hfirst, preceded, literal, parsePart_display hy, Grammar.map,
    Grammar.opt, ofParts]

theorem parseParts_three {x y z : IpnPattern} (hx : x.Canonical) (hy : y.Canonical)
    (hz : z.Canonical) :
    parseParts (x.display ++ 0x2E :: (y.display ++ 0x2E :: z.display)) = some (⟨x, y, z⟩, []) := by
  have hdot : Local 0x2E parsePart := parsePart_local rfl
  have hfirst := @Local.next _ _ _ _ hdot _ (y.display ++ 0x2E :: z.display) _
    (not_mem_of_all (display_part x) rfl) (parsePart_display hx)
  have hsecond := @Local.next _ _ _ _ hdot _ z.display _ (not_mem_of_all (display_part y) rfl)
    (parsePart_display hy)
  simp [parseParts, Grammar.bind, hfirst, hsecond, preceded, literal, parsePart_display hz,
    Grammar.map, Grammar.opt, ofParts]

theorem display_first {x : IpnPattern} (h : x.Canonical) :
    x.display = [0x2A] ∨ ∃ c t, x.display = c :: t ∧ c ≠ 0x2A ∧ c ≠ 0x21 := by
  cases x with
  | wildcard => exact .inl rfl
  | single n =>
    obtain ⟨c, t, ht⟩ : ∃ c t, decimal n = c :: t := by
      rcases Nat.eq_zero_or_pos n with rfl | hn
      · exact ⟨0x30, [], rfl⟩
      · obtain ⟨c, t, ht, -⟩ := decimal_first hn
        exact ⟨c, t, ht⟩
    have hc : isDigit c = true :=
      List.all_eq_true.mp (decimal_digits n) c (ht ▸ List.mem_cons_self)
    refine .inr ⟨c, t, ht, ?_, ?_⟩ <;> rintro rfl <;> cases hc
  | range l => exact .inr ⟨0x5B, _, display_of_canonical h, by decide, by decide⟩

theorem parse_of_part {x : IpnPattern} (hx : x.Canonical) (r : Bytes) :
    parse (ipnColon ++ (x.display ++ 0x2E :: r)) = parseParts (x.display ++ 0x2E :: r) := by
  have hsome : ∀ t, literal ipnColon (ipnColon ++ t) = some ((), t) := literal_append ipnColon
  have hshort : literal [0x2A, 0x2A] (x.display ++ 0x2E :: r) = none ∧
      literal [0x21, 0x2E] (x.display ++ 0x2E :: r) = none := by
    rcases display_first hx with hw | ⟨c, t, ht, hstar, hbang⟩
    · rw [hw]
      exact ⟨rfl, rfl⟩
    · rw [ht]
      simp [literal, hstar.symm, hbang.symm]
  simp only [parse, preceded, Grammar.bind, Grammar.alt, Grammar.map, hsome, hshort.1, hshort.2,
    Option.bind_some, Option.bind_none, Option.map_none, Option.none_or]

theorem parse_display {i : IpnPatternItem} (h : i.Canonical) :
    parse (ipnColon ++ i.display) = some (i, []) := by
  obtain ⟨a, n, s⟩ := i
  rw [display]
  split
  · rename_i hany
    rw [hany]
    rfl
  · split
    · rename_i hzero
      rw [parse_of_part h.nodeNumber, parseParts_two h.nodeNumber h.serviceNumber]
      rw [← hzero]
    · rw [parse_of_part h.allocatorId,
        parseParts_three h.allocatorId h.nodeNumber h.serviceNumber]

end IpnPatternItem

end Hardy
