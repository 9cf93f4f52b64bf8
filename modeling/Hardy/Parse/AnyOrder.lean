import Hardy.Parse.Coverage

/-!
# Every order of the hash maps

The source walks its hash maps in an order that it does not know.  A parse
that succeeds in one order succeeds in every order and yields the same bundle:
the decoders of the operation sets do not depend on the order, and two BCBs
whose checks succeed have no target in common, so their stamps commute.
-/

namespace Hardy

open Cbor Bpsec

/-! ## One order for another -/

theorem stampTargets_order {Op : Type} (o o' : HashOrder) (ops : OperationSet Op)
    (stamp : Block → Block) (blocks : HashMap Block) :
    @stampTargets o Op ops stamp blocks = @stampTargets o' Op ops stamp blocks := by
  refine Std.ExtTreeMap.ext_getElem? fun n => ?_
  rw [@getElem?_stampTargets o, @getElem?_stampTargets o']

theorem stampBcb_order (o o' : HashOrder) {m m' : HashMap Block} {e : Nat × BcbSet}
    (h : @stampBcb o m e = .ok m') : @stampBcb o' m e = .ok m' := by
  obtain ⟨hcheck, rfl⟩ := (@stampBcb_ok _ _ o _).mp h
  refine (@stampBcb_ok _ _ o' _).mpr ⟨?_, stampTargets_order o o' _ _ _⟩
  exact (@BcbSet.check_ok _ o' _ _).mpr ((@BcbSet.check_ok _ o _ _).mp hcheck)

theorem stampBib_order [Crates] (o o' : HashOrder) {data : Bytes} {s s' : BibPass} {bib : Nat}
    (h : @stampBib _ o data s bib = .ok s') : @stampBib _ o' data s bib = .ok s' := by
  obtain ⟨block, hb, hcase⟩ := (@stampBib_ok o _ _ _ _ _).mp h
  refine (@stampBib_ok o' _ _ _ _ _).mpr ⟨block, hb, ?_⟩
  rcases hcase with hskip | ⟨hc, ops, hd, hcheck, rfl⟩
  · exact .inl hskip
  · refine .inr ⟨hc, ops, BibSet.decode_order o o' hd, ?_, ?_⟩
    · exact (@BibSet.check_ok _ o' _ _).mpr ((@BibSet.check_ok _ o _ _).mp hcheck)
    · unfold stampedBib
      rw [stampTargets_order o o']

/-! ## Two BCBs -/

theorem BcbSet.check_congr [HashOrder] {ops : BcbSet} {bcb : Nat} {m m' : HashMap Block}
    (hlay : SameLayout m m') (hsame : ∀ t, t ∈ ops.operations → m'[t]? = m[t]?)
    (h : ops.check bcb m = .ok ()) : ops.check bcb m' = .ok () := by
  obtain ⟨block, hb, hdel, htargets⟩ := BcbSet.check_ok.mp h
  obtain ⟨block', hb', he⟩ := hlay.symm.get hb
  have hflags : block'.flags = block.flags :=
    show block'.layout.flags = block.layout.flags by rw [he]
  refine BcbSet.check_ok.mpr ⟨block', hb', hflags ▸ hdel, fun t ht => ?_⟩
  obtain ⟨b, htarget⟩ := htargets t ht
  rw [hflags]
  exact ⟨b, { htarget with get := (hsame t ht).trans htarget.get }⟩

theorem stampBcb_swap [HashOrder] {m m₁ m₂ : HashMap Block} {a b : Nat × BcbSet} (hne : a.1 ≠ b.1)
    (ha : stampBcb m a = .ok m₁) (hb : stampBcb m₁ b = .ok m₂) :
    ∃ m₁', stampBcb m b = .ok m₁' ∧ stampBcb m₁' a = .ok m₂ := by
  have hlay₁ := stampBcb_sameLayout ha
  obtain ⟨hca, rfl⟩ := stampBcb_ok.mp ha
  obtain ⟨hcb, rfl⟩ := stampBcb_ok.mp hb
  -- the second check rejects a target of the first set
  have hdisj : ∀ t, t ∈ a.2.operations → t ∉ b.2.operations := by
    intro t hta htb
    obtain ⟨_, -, -, htargets⟩ := BcbSet.check_ok.mp hcb
    obtain ⟨block, ht⟩ := htargets t htb
    have hget := ht.get
    rw [getElem?_stampTargets, if_pos hta] at hget
    obtain ⟨block', -, rfl⟩ := Option.map_eq_some_iff.mp hget
    exact hne (ht.unclaimed a.1 rfl)
  have hsame : ∀ t, t ∈ b.2.operations →
      m[t]? = (stampTargets a.2 (fun b => { b with bcb := some a.1 }) m)[t]? := by
    intro t ht
    rw [getElem?_stampTargets, if_neg fun hta => hdisj t hta ht]
  have hcb' : b.2.check b.1 m = .ok () := BcbSet.check_congr hlay₁.symm hsame hcb
  have hb' : stampBcb m b = .ok (stampTargets b.2 (fun b' => { b' with bcb := some b.1 }) m) :=
    stampBcb_ok.mpr ⟨hcb', rfl⟩
  refine ⟨_, hb', stampBcb_ok.mpr ⟨?_, ?_⟩⟩
  · refine BcbSet.check_congr (stampBcb_sameLayout hb') (fun t ht => ?_) hca
    rw [getElem?_stampTargets, if_neg (hdisj t ht)]
  · refine Std.ExtTreeMap.ext_getElem? fun n => ?_
    simp only [getElem?_stampTargets]
    by_cases hna : n ∈ a.2.operations
    · rw [if_pos hna, if_pos hna, if_neg (hdisj n hna), if_neg (hdisj n hna)]
    · rw [if_neg hna, if_neg hna]

/-! ## Parsing -/

theorem validate_order [Crates] (o o' : HashOrder) {f : Finished} {data : Bytes}
    {r : HashMap Block × HashMap BibSet} (h : @Finished.validate _ o f data = .ok r) :
    @Finished.validate _ o' f data = .ok r := by
  obtain ⟨m₁, s, h₁, h₂, hm, hs⟩ := (@validate_ok o _ data f r.1 r.2).mp h
  have hswap : ∀ {m a b m₁ m₂}, a.1 ≠ b.1 → @stampBcb o m a = .ok m₁ → @stampBcb o m₁ b = .ok m₂ →
      ∃ m₁', @stampBcb o m b = .ok m₁' ∧ @stampBcb o m₁' a = .ok m₂ :=
    fun hne ha hb => @stampBcb_swap o _ _ _ _ _ hne ha hb
  have hiter := foldlM_iter hswap o o' h₁
  refine (@validate_ok o' _ data f r.1 r.2).mpr ⟨m₁, s, ?_, ?_, hm, hs⟩
  · exact Fold.foldlM_mono (fun h => stampBcb_order o o' h) hiter
  · exact Fold.foldlM_mono (fun h => stampBib_order o o' h) h₂

theorem finish_order [Crates] (o o' : HashOrder) {f : Finished} {data : Bytes} {p : Parsed}
    (h : @Finished.finish _ o f data = .ok p) : @Finished.finish _ o' f data = .ok p := by
  unfold Finished.finish at h ⊢
  split at h
  · next hnone =>
      rw [if_pos hnone]
      exact h
  · next hsome =>
      rw [if_neg hsome]
      obtain ⟨r, hv, h⟩ := Fold.bind_ok.mp h
      exact Fold.bind_ok.mpr ⟨r, validate_order o o' hv, h⟩

theorem Advances.order [Crates] (o o' : HashOrder) {w w' : Walk} {c c' : Cursor UInt8 Nat}
    (h : @Advances _ o w c w' c') : @Advances _ o' w c w' c' := by
  cases h with
  | start hw h => exact @Advances.start _ o' _ _ _ hw h
  | primary hw h => exact @Advances.primary _ o' _ _ _ _ hw h
  | @block c₁ _ bundle header head _ hw hhead htype h =>
    refine @Advances.block _ o' _ _ _ _ _ _ _ _ hw hhead htype ?_
    obtain ⟨body, c₂, hb, h⟩ := Scan.bind_ok h
    obtain ⟨ops, c₃, hops, h⟩ := Scan.bind_ok h
    refine (Scan.bind_eq_of_ok hb _).trans ((Scan.bind_eq_of_ok ?_ _).trans h)
    rw [verdict_ok] at hops ⊢
    refine ⟨?_, hops.2⟩
    have hops := hops.1
    unfold bcbOps at hops ⊢
    split at hops
    · next ht =>
        rw [if_pos ht]
        obtain ⟨set, hd, he⟩ := Fold.map_ok.mp hops
        exact Fold.map_ok.mpr ⟨set, BcbSet.decode_order o o' hd, he⟩
    · next ht =>
        rw [if_neg ht]
        exact hops

theorem Completes.order [Crates] (o o' : HashOrder) {data : Bytes} {f : Finished}
    (h : @Completes _ o data f) : @Completes _ o' data f := by
  obtain ⟨w, c, hr, hp⟩ := h
  refine ⟨w, c, hr.lift id fun s s' h => ?_, hp⟩
  exact (@round_inl _ o' _ _ _ _ _).mpr (((@round_inl _ o _ _ _ _ _).mp h).order o o')

/-- Whatever the order of the hash maps, a bundle parses to the same index, and
the coverage in it is that of its operation sets. -/
theorem parse_covered [Crates] [o : HashOrder] {b : Bytes} {p : Parsed} (h : parse b = .ok p) :
    (∀ o' : HashOrder, @parse _ o' b = .ok p) ∧ p.Covered := by
  obtain ⟨f, hf, hfin⟩ := parse_ok.mp h
  constructor
  · intro o'
    exact (@parse_ok _ o' _ _).mpr ⟨f, hf.order o o', finish_order o o' hfin⟩
  · obtain ⟨l, payload, hc⟩ := hf.complete
    exact finish_covered hc.indexed hfin

/-- The bundle of appendix A.3 of RFC 9173, from the tests of the source: a BIB
on the primary block and on an extension block, and a BCB on the payload. -/
def rfc9173A3 : Bytes :=
  [0x9F, 0x88, 0x07, 0x00, 0x00, 0x82, 0x02, 0x82, 0x01, 0x02, 0x82, 0x02, 0x82, 0x02, 0x01, 0x82,
    0x02, 0x82, 0x02, 0x01, 0x82, 0x00, 0x18, 0x28, 0x1A, 0x00, 0x0F, 0x42, 0x40, 0x85, 0x0B,
    0x03, 0x00, 0x00, 0x58, 0x5C, 0x82, 0x00, 0x02, 0x01, 0x01, 0x82, 0x02, 0x82, 0x03, 0x00,
    0x82, 0x82, 0x01, 0x05, 0x82, 0x03, 0x00, 0x82, 0x81, 0x82, 0x01, 0x58, 0x20, 0xCA, 0xC6,
    0xCE, 0x8E, 0x4C, 0x5D, 0xAE, 0x57, 0x98, 0x8B, 0x75, 0x7E, 0x49, 0xA6, 0xDD, 0x14, 0x31,
    0xDC, 0x04, 0x76, 0x35, 0x41, 0xB2, 0x84, 0x50, 0x98, 0x26, 0x5B, 0xC8, 0x17, 0x24, 0x1B,
    0x81, 0x82, 0x01, 0x58, 0x20, 0x3E, 0xD6, 0x14, 0xC0, 0xD9, 0x7F, 0x49, 0xB3, 0x63, 0x36,
    0x27, 0x77, 0x9A, 0xA1, 0x8A, 0x33, 0x8D, 0x21, 0x2B, 0xF3, 0xC9, 0x2B, 0x97, 0x75, 0x9D,
    0x97, 0x39, 0xCD, 0x50, 0x72, 0x55, 0x96, 0x85, 0x0C, 0x04, 0x01, 0x00, 0x58, 0x34, 0x81,
    0x01, 0x02, 0x01, 0x82, 0x02, 0x82, 0x02, 0x01, 0x83, 0x82, 0x01, 0x4C, 0x54, 0x77, 0x65,
    0x6C, 0x76, 0x65, 0x31, 0x32, 0x31, 0x32, 0x31, 0x32, 0x82, 0x02, 0x01, 0x82, 0x04, 0x00,
    0x81, 0x81, 0x82, 0x01, 0x50, 0xEF, 0xA4, 0xB5, 0xAC, 0x01, 0x08, 0xE3, 0x81, 0x6C, 0x56,
    0x06, 0x47, 0x98, 0x01, 0xBC, 0x04, 0x85, 0x07, 0x02, 0x00, 0x00, 0x43, 0x19, 0x01, 0x2C,
    0x85, 0x01, 0x01, 0x00, 0x00, 0x58, 0x23, 0x3A, 0x09, 0xC1, 0xE6, 0x3F, 0xE2, 0x3A, 0x7F,
    0x66, 0xA5, 0x9C, 0x73, 0x03, 0x83, 0x72, 0x41, 0xE0, 0x70, 0xB0, 0x26, 0x19, 0xFC, 0x59,
    0xC5, 0x21, 0x4A, 0x22, 0xF0, 0x8C, 0xD7, 0x07, 0x95, 0xE7, 0x3E, 0x9A, 0xFF]

theorem rfc9173A3_covered : ∃ p, @parse .reference .sorted rfc9173A3 = .ok p ∧
    (∀ o : HashOrder, @parse .reference o rfc9173A3 = .ok p) ∧ p.Covered := by
  have hok : (@parse .reference .sorted rfc9173A3).toOption.isSome = true := by
    decide +kernel
  cases h : @parse .reference .sorted rfc9173A3 with
  | error x => rw [h] at hok; cases hok
  | ok p => exact ⟨p, rfl, @parse_covered .reference .sorted _ p h⟩

end Hardy
