import Hardy.Pattern.IpnText

/-!
# The text of `dtn` patterns

A node name and a demux are percent-decoded when a glob is parsed, and the glob
that they make is decoded once more.
-/

namespace Hardy

open Cbor Grammar

/-- `percent_encoding`: a byte outside the set is `%` and two hexadecimal digits,
and such an escape is read back to its byte. -/
class PercentCoding [Crates] : Prop where
  encode_eq : ∀ b, Crates.percentEncode b = b.flatMap percentByte
  decode_eq : ∀ b, Crates.percentDecode b = unpercent b

theorem PercentCoding.reference : @PercentCoding .reference :=
  @PercentCoding.mk .reference (fun _ => rfl) fun _ => rfl

/-! ## Escapes and separators -/

theorem unpercent_skip {h l : UInt8} (hn : hexValue h = none ∨ hexValue l = none) (r : Bytes) :
    unpercent (0x25 :: h :: l :: r) = 0x25 :: unpercent (h :: l :: r) := by
  rw [unpercent]
  split
  · rename_i hh hl
    rcases hn with hn | hn
    · rw [hn] at hh
      cases hh
    · rw [hn] at hl
      cases hl
  · rfl

theorem unpercent_append {c : UInt8} (hc : hexValue c = none) (hne : c ≠ 0x25) (a d : Bytes) :
    unpercent (a ++ c :: d) = unpercent a ++ c :: unpercent d := by
  fun_induction unpercent a with
  | case1 h l r x y hx hy ih => simp [unpercent, hx, hy, ih]
  | case2 h l r hn ih =>
    have hnone : hexValue h = none ∨ hexValue l = none := by
      cases hh : hexValue h with
      | none => exact .inl rfl
      | some x =>
        cases hl : hexValue l with
        | none => exact .inr rfl
        | some y => exact (hn x y hh hl).elim
    exact (unpercent_skip hnone _).trans (congrArg _ ih)
  | case3 b r hn ih =>
    by_cases hb : b = 0x25
    · -- the text before the split is too short for an escape
      subst hb
      rcases r with _ | ⟨h, _ | ⟨l, r⟩⟩
      · cases d with
        | nil => simp [unpercent, unpercent_cons hne]
        | cons l d => exact (unpercent_skip (.inl hc) d).trans (congrArg _ ih)
      · exact (unpercent_skip (.inr hc) d).trans (congrArg _ ih)
      · exact (hn h l r rfl rfl).elim
    · exact (unpercent_cons hb _).trans (congrArg _ ih)
  | case4 => exact unpercent_cons hne d

theorem mem_unpercent {c : UInt8} (hc : hexValue c = none) (hne : c ≠ 0x25) {u : Bytes}
    (h : c ∈ u) : c ∈ unpercent u := by
  obtain ⟨a, d, rfl⟩ := List.append_of_mem h
  rw [unpercent_append hc hne]
  exact List.mem_append_right _ List.mem_cons_self

theorem validUtf8_one {x : UInt8} (h : x < 0x80) (r : Bytes) :
    validUtf8 (x :: r) = validUtf8 r := by
  rw [validUtf8.eq_def]
  simp only [if_pos h]

theorem follows_false {c : UInt8} (hc : c < 0x80) :
    isCont c = false ∧ (∀ x, isLead3 x c = false) ∧ ∀ x, isLead4 x c = false := by
  have hlow : ∀ k : UInt8, 0x80 ≤ k → decide (k ≤ c) = false := by
    intro k hk
    refine decide_eq_false (UInt8.not_le.mpr ?_)
    exact UInt8.lt_of_lt_of_le hc hk
  have hcont : isCont c = false := by simp [isCont, hlow 0x80 (by decide)]
  refine ⟨hcont, fun x => ?_, fun x => ?_⟩
  · simp [isLead3, hcont, hlow 0xA0 (by decide), hlow 0x80 (by decide)]
  · simp [isLead4, hcont, hlow 0x90 (by decide), hlow 0x80 (by decide)]

theorem validUtf8_append {c : UInt8} (hc : c < 0x80) (a d : Bytes) :
    validUtf8 (a ++ c :: d) = (validUtf8 a && validUtf8 d) := by
  obtain ⟨hcont, hlead3, hlead4⟩ := follows_false hc
  have hone := validUtf8_one hc d
  induction hn : a.length using Nat.strong_induction_on generalizing a with
  | _ n ih =>
    rcases a with _ | ⟨x, r⟩
    · simpa [validUtf8] using hone
    by_cases hx : x < 0x80
    · rw [List.cons_append, validUtf8_one hx, validUtf8_one hx]
      exact ih r.length (by simp at hn; omega) r rfl
    -- the bytes of a longer character all stand before the split
    rcases r with _ | ⟨y, _ | ⟨z, _ | ⟨w, r⟩⟩⟩
    · rw [List.cons_append, List.nil_append, validUtf8.eq_def, validUtf8.eq_def [x]]
      rcases d with _ | ⟨d1, _ | ⟨d2, d⟩⟩ <;> simp [hx, hcont, hlead3, hlead4]
    · rw [List.cons_append, List.cons_append, List.nil_append, validUtf8.eq_def,
        validUtf8.eq_def [x, y]]
      rcases d with _ | ⟨d1, d⟩ <;> simp [hx, hc, hcont, hone, validUtf8, Bool.and_assoc]
    · have hz : validUtf8 (z :: c :: d) = (validUtf8 [z] && validUtf8 d) :=
        ih 1 (by simp at hn; omega) [z] rfl
      rw [List.cons_append, List.cons_append, List.cons_append, List.nil_append,
        validUtf8.eq_def, validUtf8.eq_def [x, y, z]]
      simp only [hx, if_false, hz, hone, hcont]
      split
      · rw [Bool.and_assoc]
      · split <;> simp [validUtf8]
    · have hz : validUtf8 (z :: w :: (r ++ c :: d)) =
          (validUtf8 (z :: w :: r) && validUtf8 d) :=
        ih (r.length + 2) (by simp at hn; omega) (z :: w :: r) rfl
      have hw : validUtf8 (w :: (r ++ c :: d)) = (validUtf8 (w :: r) && validUtf8 d) :=
        ih (r.length + 1) (by simp at hn; omega) (w :: r) rfl
      have hr : validUtf8 (r ++ c :: d) = (validUtf8 r && validUtf8 d) :=
        ih r.length (by simp at hn; omega) r rfl
      rw [List.cons_append, List.cons_append, List.cons_append, List.cons_append,
        validUtf8.eq_def, validUtf8.eq_def (x :: y :: z :: w :: r)]
      simp only [hx, if_false, hz, hw, hr]
      split
      · rw [Bool.and_assoc]
      · split <;> simp only [Bool.and_assoc]

/-! ## The text of a glob -/

/-- What `Display` leaves of a glob as it is. -/
def showByte (b : UInt8) : Bytes :=
  if isWild b || b == 0x2F || b == 0x5D then [b] else percentByte b

/-- Escapes begin with `%`, which stands nowhere else. -/
def Escaping (f : UInt8 → Bytes) : Prop :=
  ∀ b, (∃ x, x ≠ 0x25 ∧ f b = [x]) ∨ ∃ x y, x ≠ 0x25 ∧ y ≠ 0x25 ∧ f b = [0x25, x, y]

theorem replaceEscape_cons {h l c b : UInt8} (hb : b ≠ 0x25) (r : Bytes) :
    replaceEscape h l c (b :: r) = b :: replaceEscape h l c r := by
  rw [replaceEscape]
  exact fun _ _ _ hp => absurd hp hb

/-- The escape `%hl` of a byte is the character `c`. -/
def putBack (h l c : UInt8) (f : UInt8 → Bytes) (b : UInt8) : Bytes :=
  if f b = [0x25, h, l] then [c] else f b

theorem replaceEscape_flatMap {f : UInt8 → Bytes} (hf : Escaping f) (h l c : UInt8) (t : Bytes) :
    replaceEscape h l c (t.flatMap f) = t.flatMap (putBack h l c f) := by
  induction t with
  | nil => rfl
  | cons b t ih =>
    rw [List.flatMap_cons, List.flatMap_cons, ← ih, putBack]
    rcases hf b with ⟨x, hx, hfb⟩ | ⟨x, y, hx, hy, hfb⟩
    · rw [hfb]
      simp [replaceEscape_cons hx]
    · rw [hfb]
      by_cases heq : x = h ∧ y = l
      · simp [replaceEscape, heq]
      · simp [replaceEscape, heq, replaceEscape_cons hx, replaceEscape_cons hy]

theorem Escaping.putBack {f : UInt8 → Bytes} (hf : Escaping f) (h l c : UInt8)
    (hc : c ≠ 0x25) : Escaping (putBack h l c f) := by
  intro b
  rw [Hardy.putBack]
  split
  · exact .inl ⟨c, hc, rfl⟩
  · exact hf b

theorem escaping_percentByte : Escaping percentByte := by
  intro b
  rw [percentByte]
  split
  · rename_i hb
    refine .inl ⟨b, ?_, rfl⟩
    rintro rfl
    revert hb
    decide
  · have hlt := b.toNat_lt
    have hdigit : ∀ n < 16, hexDigit n ≠ 0x25 := by decide
    exact .inr ⟨_, _, hdigit _ (by omega), hdigit _ (by omega), rfl⟩

theorem wild_cases {b : UInt8} (h : isWild b = true) : b = 0x3F ∨ b = 0x2A ∨ b = 0x5B := by
  simpa [isWild, or_assoc] using h

theorem special_cases {b : UInt8} (h : (isWild b || b == 0x2F || b == 0x5D) = true) :
    b = 0x3F ∨ b = 0x2A ∨ b = 0x5B ∨ b = 0x2F ∨ b = 0x5D := by
  simpa [isWild, or_assoc] using h

theorem unreserved_chars {b : UInt8} (h : isUnreserved b = true) : isDemux b = true ∧
    isWild b = false ∧ isNodeName b = true ∧ isNodeGlob b = true ∧ b ≠ 0x2F := by
  have hname : Eid.isRegname b = true := by simp [Eid.isRegname, h]
  have hwild : isWild b = false := by
    rw [← Bool.not_eq_true]
    intro hw
    rcases wild_cases hw with rfl | rfl | rfl <;> revert h <;> decide
  refine ⟨by grind [isUnreserved, isDemux], hwild, ?_, by simp [isNodeGlob, hname], ?_⟩
  · simp only [isWild, Bool.or_eq_false_iff] at hwild
    simp only [isNodeName, hname, bne, hwild.1.2, Bool.not_false, Bool.and_self]
  · rintro rfl
    revert h
    decide

theorem percentByte_ne {b h l c : UInt8} (hc : unpercent [0x25, h, l] = [c]) (hb : b ≠ c) :
    percentByte b ≠ [0x25, h, l] := by
  intro heq
  have hread : unpercent (percentByte b) = [b] := by
    have := unpercent_percentByte b []
    rwa [List.append_nil] at this
  rw [heq, hc] at hread
  exact hb (List.head_eq_of_cons_eq hread).symm

theorem putBack_other {f : UInt8 → Bytes} {b h l c : UInt8} (hf : f b = percentByte b)
    (hc : unpercent [0x25, h, l] = [c]) (hb : b ≠ c) : putBack h l c f b = percentByte b := by
  rw [putBack, if_neg, hf]
  rw [hf]
  exact percentByte_ne hc hb

theorem putBack_percentByte (b : UInt8) :
    putBack 0x35 0x44 0x5D (putBack 0x35 0x42 0x5B (putBack 0x33 0x46 0x3F
      (putBack 0x32 0x46 0x2F (putBack 0x32 0x41 0x2A percentByte)))) b = showByte b := by
  by_cases hb : (isWild b || b == 0x2F || b == 0x5D) = true
  · rcases special_cases hb with rfl | rfl | rfl | rfl | rfl <;> decide
  · rw [showByte, if_neg hb]
    simp only [isWild, Bool.or_eq_true, beq_iff_eq, not_or] at hb
    obtain ⟨⟨⟨⟨hquery, hstar⟩, hopen⟩, hslash⟩, hclose⟩ := hb
    have h1 := putBack_other rfl (h := 0x32) (l := 0x41) (by decide) hstar
    have h2 := putBack_other h1 (h := 0x32) (l := 0x46) (by decide) hslash
    have h3 := putBack_other h2 (h := 0x33) (l := 0x46) (by decide) hquery
    have h4 := putBack_other h3 (h := 0x35) (l := 0x42) (by decide) hopen
    exact putBack_other h4 (by decide) hclose

theorem displayGlob_eq [Crates] [PercentCoding] (t : Bytes) :
    displayGlob t = t.flatMap showByte := by
  have h1 := escaping_percentByte.putBack 0x32 0x41 0x2A (by decide)
  have h2 := h1.putBack 0x32 0x46 0x2F (by decide)
  have h3 := h2.putBack 0x33 0x46 0x3F (by decide)
  have h4 := h3.putBack 0x35 0x42 0x5B (by decide)
  rw [displayGlob, PercentCoding.encode_eq, replaceEscape_flatMap escaping_percentByte,
    replaceEscape_flatMap h1, replaceEscape_flatMap h2, replaceEscape_flatMap h3,
    replaceEscape_flatMap h4]
  exact congrArg (t.flatMap ·) (funext putBack_percentByte)

theorem unpercent_showByte (b : UInt8) (r : Bytes) :
    unpercent (showByte b ++ r) = b :: unpercent r := by
  rw [showByte]
  split
  · rename_i hb
    refine unpercent_cons ?_ r
    rintro rfl
    revert hb
    decide
  · exact unpercent_percentByte b r

theorem unpercent_show (t : Bytes) : unpercent (t.flatMap showByte) = t := by
  induction t with
  | nil => rfl
  | cons b t ih => rw [List.flatMap_cons, unpercent_showByte, ih]

theorem showByte_chars (b : UInt8) : (showByte b).all isDemux = true ∧
    (showByte b).any isWild = isWild b ∧
    (showByte b).all isNodeName = !(isWild b || b == 0x2F || b == 0x5D) ∧
    (showByte b).all isNodeGlob = !(b == 0x2F || b == 0x5D) ∧
    (showByte b).contains 0x2F = (b == 0x2F) := by
  by_cases hb : (isWild b || b == 0x2F || b == 0x5D) = true
  · rcases special_cases hb with rfl | rfl | rfl | rfl | rfl <;> decide
  · rw [showByte, if_neg hb, percentByte]
    simp only [Bool.not_eq_true, Bool.or_eq_false_iff, beq_eq_false_iff_ne] at hb
    obtain ⟨⟨hwild, hslash⟩, hclose⟩ := hb
    split
    · next hu =>
        obtain ⟨h1, -, h3, h4, -⟩ := unreserved_chars hu
        simp [h1, h3, h4, hwild, hslash, hclose, hslash.symm]
    · have hlt := b.toNat_lt
      have hpercent : isDemux 0x25 = true ∧ isWild 0x25 = false ∧ isNodeName 0x25 = true ∧
          isNodeGlob 0x25 = true := by decide
      obtain ⟨h1, h2, h3, h4, h5⟩ :=
        unreserved_chars (hexDigit_unreserved (n := b.toNat / 16) (by omega))
      obtain ⟨l1, l2, l3, l4, l5⟩ :=
        unreserved_chars (hexDigit_unreserved (n := b.toNat % 16) (by omega))
      simp [h1, h2, h3, h4, h5.symm, l1, l2, l3, l4, l5.symm, hpercent, hwild, hslash, hclose]

section

variable {t : Bytes}

theorem show_demux : (t.flatMap showByte).all isDemux = true := by
  simp [List.all_flatMap, fun b => (showByte_chars b).1]

theorem show_wild : (t.flatMap showByte).any isWild = t.any isWild := by
  simp [List.any_flatMap, fun b => (showByte_chars b).2.1]

theorem show_nodeGlob (hslash : 0x2F ∉ t) :
    (t.flatMap showByte).all isNodeGlob = true ↔ 0x5D ∉ t := by
  simp only [List.all_flatMap, fun b => (showByte_chars b).2.2.2.1, List.all_eq_true]
  constructor
  · intro h hm
    have hb := h _ hm
    simp at hb
  · intro h b hb
    have hs : b ≠ 0x2F := fun h' => hslash (h' ▸ hb)
    have hc : b ≠ 0x5D := fun h' => h (h' ▸ hb)
    simp [hs, hc]

theorem show_slash (hslash : 0x2F ∉ t) : 0x2F ∉ t.flatMap showByte := by
  intro hm
  obtain ⟨b, hb, hin⟩ := List.mem_flatMap.mp hm
  have hc := (showByte_chars b).2.2.2.2
  rw [List.contains_iff_mem.mpr hin] at hc
  exact hslash (eq_of_beq hc.symm ▸ hb)

end

/-! ## Node name and demux -/

section

variable {α : Type} {f : UInt8 → Bool} {g : Bytes → Option Bytes}

theorem dropWhile_of_not_all {c : UInt8} {a : Bytes} (ha : c ∉ a) (h : ¬ a.all f = true)
    (r : Bytes) : ∃ x t, x ≠ c ∧ (a ++ r).dropWhile f = x :: t := by
  induction a with
  | nil => exact absurd rfl h
  | cons y a ih =>
    cases hy : f y with
    | false =>
      refine ⟨y, a ++ r, fun hc => ha (hc ▸ List.mem_cons_self), ?_⟩
      simp [hy]
    | true =>
      obtain ⟨x, t, hx, ht⟩ := ih (fun hm => ha (List.mem_cons_of_mem y hm))
        (by simpa [hy] using h)
      exact ⟨x, t, hx, by simpa [hy] using ht⟩

theorem readNode_append (hf : f 0x2F = false) {a : Bytes} (ha : 0x2F ∉ a) (d : Bytes) :
    terminated (tryMap g (takeWhile f)) [0x2F] (a ++ 0x2F :: d) =
      if a.all f then (g a).map (·, d) else none := by
  rw [terminated, Grammar.bind, Grammar.tryMap, Grammar.takeWhile]
  split
  · rename_i hall
    have hall : ∀ b ∈ a, f b = true := List.all_eq_true.mp hall
    have htake : (a ++ 0x2F :: d).takeWhile f = a := by
      rw [List.takeWhile_append_of_pos hall]
      simp [hf]
    have hdrop : (a ++ 0x2F :: d).dropWhile f = 0x2F :: d := by
      rw [List.dropWhile_append_of_pos hall]
      simp [hf]
    simp only [htake, hdrop, Option.bind_some]
    cases g a <;> simp [Grammar.map, literal]
  · rename_i hall
    -- the names stop before the separator
    obtain ⟨x, r, hx, hdrop⟩ := dropWhile_of_not_all ha hall (0x2F :: d)
    simp only [hdrop, Option.bind_some]
    cases g ((a ++ 0x2F :: d).takeWhile f) <;> simp [Grammar.map, literal, hx.symm]

theorem readNode_none {t : Bytes} (ht : 0x2F ∉ t) :
    terminated (tryMap g (takeWhile f)) [0x2F] t = none := by
  have hrest : 0x2F ∉ t.dropWhile f := fun hm => ht ((List.dropWhile_suffix f).subset hm)
  rw [terminated, Grammar.bind, Grammar.tryMap, Grammar.takeWhile, Option.bind_some]
  cases g (t.takeWhile f) <;> simp [Grammar.map, literal_none_of_not_mem hrest]

theorem takeWhile_eq_tryMap (f : UInt8 → Bool) : takeWhile f = tryMap some (takeWhile f) := by
  funext t
  simp [Grammar.takeWhile, Grammar.tryMap]

end

namespace DtnPatternItem

variable [Crates] [GlobSyntax]

/-- What `parse_dtn_exact_ssp` makes of a node name and a demux. -/
def exactValue (nodeName demux : Bytes) : Option DtnPatternItem :=
  if nodeName.all isNodeName then (decodeUtf8 nodeName).bind (ofExact · demux) else Option.none

/-- What `parse_dtn_glob` makes of them. -/
def globValue (nodeName demux : Bytes) : Option DtnPatternItem :=
  if nodeName.all isNodeGlob then ofGlob nodeName demux else Option.none

/-- What `parse_dtn_fullssp` makes of them. -/
def sspValue (nodeName demux : Bytes) : Option DtnPatternItem :=
  (exactValue nodeName demux).or (globValue nodeName demux)

theorem parseSsp_append {a : Bytes} (ha : 0x2F ∉ a) (d : Bytes) :
    alt parseExactSsp parseGlob (a ++ 0x2F :: d) =
      (sspValue a (d.takeWhile isDemux)).map (·, d.dropWhile isDemux) := by
  have hexact : parseExactSsp (a ++ 0x2F :: d) =
      (exactValue a (d.takeWhile isDemux)).map (·, d.dropWhile isDemux) := by
    rw [parseExactSsp, Grammar.bind, parseNodeName, readNode_append rfl ha, exactValue]
    split
    · cases decodeUtf8 a <;> simp [Grammar.tryMap, Grammar.takeWhile]
    · rfl
  have hglob : parseGlob (a ++ 0x2F :: d) =
      (globValue a (d.takeWhile isDemux)).map (·, d.dropWhile isDemux) := by
    rw [parseGlob, Grammar.bind, takeWhile_eq_tryMap isNodeGlob, readNode_append rfl ha, globValue]
    split
    · simp [Grammar.tryMap, Grammar.takeWhile]
    · rfl
  rw [Grammar.alt, hexact, hglob, sspValue]
  cases exactValue a (d.takeWhile isDemux) <;> simp

theorem parseSsp_none {t : Bytes} (ht : 0x2F ∉ t) :
    alt parseExactSsp parseGlob t = Option.none := by
  rw [Grammar.alt, parseExactSsp, parseGlob, Grammar.bind, Grammar.bind, parseNodeName,
    readNode_none ht, takeWhile_eq_tryMap isNodeGlob, readNode_none ht]
  rfl

variable [PercentCoding]

omit [GlobSyntax] in
theorem decodeUtf8_eq_some {t r : Bytes} :
    decodeUtf8 t = some r ↔ unpercent t = r ∧ validUtf8 (unpercent t) = true := by
  rw [decodeUtf8, PercentCoding.decode_eq]
  split <;> simp_all

variable {i : DtnPatternItem}

theorem newGlob_eq_some {t : Bytes} : newGlob t = some i ↔
    i = .glob (unpercent t) ∧ validUtf8 (unpercent t) = true ∧
      GlobSyntax.accepts (unpercent t) = true := by
  rw [newGlob]
  constructor
  · intro h
    obtain ⟨g, hg, hi⟩ := Option.bind_eq_some_iff.mp h
    obtain ⟨rfl, hvalid⟩ := decodeUtf8_eq_some.mp hg
    split at hi
    · rename_i hacc
      cases hi
      exact ⟨rfl, hvalid, hacc⟩
    · cases hi
  · rintro ⟨rfl, hvalid, hacc⟩
    rw [decodeUtf8_eq_some.mpr ⟨rfl, hvalid⟩]
    simp [hacc]

omit [Crates] [GlobSyntax] [PercentCoding] in
theorem unpercent_slash (a d : Bytes) :
    unpercent (a ++ 0x2F :: d) = unpercent a ++ 0x2F :: unpercent d :=
  unpercent_append (by decide) (by decide) a d

structure Globbed (text g : Bytes) : Prop where
  wild : text.any isWild = true
  decoded : g = unpercent (unpercent text)
  utf8 : validUtf8 g = true
  accepted : GlobSyntax.accepts g = true

theorem ofGlob_eq_some {a d : Bytes} (h : ofGlob a d = some i) :
    validUtf8 (unpercent a) = true ∧ validUtf8 (unpercent d) = true ∧
      newGlob (unpercent (a ++ 0x2F :: d)) = some i := by
  obtain ⟨n, hn, h⟩ := Option.bind_eq_some_iff.mp h
  obtain ⟨m, hm, h⟩ := Option.bind_eq_some_iff.mp h
  obtain ⟨rfl, hvn⟩ := decodeUtf8_eq_some.mp hn
  obtain ⟨rfl, hvm⟩ := decodeUtf8_eq_some.mp hm
  exact ⟨hvn, hvm, by rwa [unpercent_slash]⟩

section

omit [Crates] [GlobSyntax] [PercentCoding]

theorem nodeName_wild {t : Bytes} (h : t.all isNodeName = true) : t.any isWild = false := by
  have hbyte : ∀ b, isNodeName b = true → isWild b = false := by
    intro b hb
    rw [← Bool.not_eq_true]
    intro hw
    rcases wild_cases hw with rfl | rfl | rfl <;> revert hb <;> decide
  refine List.any_eq_false.mpr fun b hb => ?_
  simp [hbyte b (List.all_eq_true.mp h b hb)]

theorem nodeName_of_glob {t : Bytes} (h : t.all isNodeGlob = true) (hw : t.any isWild = false) :
    t.all isNodeName = true := by
  have hbyte : ∀ b, isNodeGlob b = true → isWild b = false → isNodeName b = true := by
    grind [isNodeGlob, isNodeName, isWild]
  refine List.all_eq_true.mpr fun b hb => ?_
  exact hbyte b (List.all_eq_true.mp h b hb) (by simpa using List.any_eq_false.mp hw b hb)

theorem nodeGlob_of_nodeName (b : UInt8) (h : isNodeName b = true) : isNodeGlob b = true := by
  simp only [isNodeName, Bool.and_eq_true] at h
  simp [isNodeGlob, h.1]

theorem nodeName_of_unreserved (b : UInt8) (h : isUnreserved b = true) : isNodeName b = true :=
  (unreserved_chars h).2.2.1

theorem any_wild_append (a d : Bytes) :
    (a ++ 0x2F :: d).any isWild = (a.any isWild || d.any isWild) := by
  rw [List.any_append, List.any_cons]
  rfl

end

theorem globbed_of_newGlob {a d : Bytes}
    (hw : (a ++ 0x2F :: d).any isWild = true) (h : newGlob (unpercent (a ++ 0x2F :: d)) = some i) :
    ∃ g, i = .glob g ∧ Globbed (a ++ 0x2F :: d) g := by
  obtain ⟨rfl, hvalid, hacc⟩ := newGlob_eq_some.mp h
  exact ⟨_, rfl, hw, rfl, hvalid, hacc⟩

theorem sspValue_cases {a d : Bytes} (h : sspValue a d = some i) :
    (∃ g, i = .glob g ∧ Globbed (a ++ 0x2F :: d) g) ∨
      ((a ++ 0x2F :: d).any isWild = false ∧ ∃ n, i = .exact n d ∧ validUtf8 n = true) := by
  rcases Option.or_eq_some_iff.mp h with h | ⟨hnone, h⟩
  · rw [exactValue, Option.ite_none_right_eq_some] at h
    obtain ⟨hall, h⟩ := h
    obtain ⟨n, hn, h⟩ := Option.bind_eq_some_iff.mp h
    obtain ⟨rfl, hvalid⟩ := decodeUtf8_eq_some.mp hn
    rw [ofExact] at h
    split at h
    · rename_i hd
      obtain ⟨m, hm, h⟩ := Option.bind_eq_some_iff.mp h
      obtain ⟨rfl, -⟩ := decodeUtf8_eq_some.mp hm
      refine .inl (globbed_of_newGlob ?_ ?_)
      · rw [any_wild_append, hd, Bool.or_true]
      · rwa [unpercent_slash]
    · rename_i hd
      cases h
      refine .inr ⟨?_, _, rfl, hvalid⟩
      rw [any_wild_append, nodeName_wild hall, Bool.eq_false_iff.mpr hd]
      rfl
  · rw [globValue, Option.ite_none_right_eq_some] at h
    obtain ⟨hall, h⟩ := h
    obtain ⟨hvalid, -, h⟩ := ofGlob_eq_some h
    refine .inl (globbed_of_newGlob ?_ h)
    by_contra hw
    -- without wildcards the text would have been taken as exact
    rw [Bool.not_eq_true, any_wild_append, Bool.or_eq_false_iff] at hw
    rw [exactValue, if_pos (nodeName_of_glob hall hw.1),
      decodeUtf8_eq_some.mpr ⟨rfl, hvalid⟩] at hnone
    simp [ofExact, hw.2] at hnone

theorem sspValue_show {a b : Bytes} (ha : 0x2F ∉ a) (hvalid : validUtf8 (a ++ 0x2F :: b) = true)
    (hwild : (a ++ 0x2F :: b).any isWild = true) :
    sspValue (a.flatMap showByte) (b.flatMap showByte) =
      if 0x5D ∈ a then Option.none else newGlob (a ++ 0x2F :: b) := by
  obtain ⟨hva, hvb⟩ : validUtf8 a = true ∧ validUtf8 b = true := by
    rwa [validUtf8_append (by decide), Bool.and_eq_true] at hvalid
  have hna : decodeUtf8 (a.flatMap showByte) = some a :=
    decodeUtf8_eq_some.mpr (by rw [unpercent_show]; exact ⟨rfl, hva⟩)
  have hnb : decodeUtf8 (b.flatMap showByte) = some b :=
    decodeUtf8_eq_some.mpr (by rw [unpercent_show]; exact ⟨rfl, hvb⟩)
  have hglob : ofGlob (a.flatMap showByte) (b.flatMap showByte) =
      newGlob (a ++ 0x2F :: b) := by
    rw [ofGlob, hna, hnb]
    rfl
  rw [sspValue, globValue, hglob]
  by_cases hclose : 0x5D ∈ a
  · have hnot : ¬ (a.flatMap showByte).all isNodeGlob = true :=
      fun h => (show_nodeGlob ha).mp h hclose
    have hname : ¬ (a.flatMap showByte).all isNodeName = true := by
      intro h
      refine hnot (List.all_eq_true.mpr fun c hc => ?_)
      exact nodeGlob_of_nodeName c (List.all_eq_true.mp h c hc)
    rw [exactValue, if_neg hname, if_neg hnot, if_pos hclose]
    rfl
  · rw [if_neg hclose, if_pos ((show_nodeGlob ha).mpr hclose), exactValue]
    split
    · rename_i hname
      have hwa : a.any isWild = false := by
        rw [← show_wild]
        exact nodeName_wild hname
      have hwb : b.any isWild = true := by
        rwa [any_wild_append, hwa, Bool.false_or] at hwild
      have hexact : ofExact a (b.flatMap showByte) = newGlob (a ++ 0x2F :: b) := by
        rw [ofExact, show_wild, if_pos hwb, hnb]
        rfl
      rw [hna, Option.bind_some, hexact, Option.or_self]
    · rfl

/-! ## Items -/

section

omit [PercentCoding]

theorem sspValue_exact {n d : Bytes} (hn : validUtf8 n = true) (hd : d.any isWild = false) :
    sspValue (Crates.percentEncode n) d = some (.exact n d) := by
  have hname : (Crates.percentEncode n).all isNodeName = true := by
    refine List.all_eq_true.mpr fun x hx => ?_
    rcases Crates.percentEncode_chars n x hx with h | rfl
    · exact nodeName_of_unreserved x h
    · rfl
  have hdecode : decodeUtf8 (Crates.percentEncode n) = some n := by
    rw [decodeUtf8, Crates.percentDecode_encode, if_pos hn]
  rw [sspValue, exactValue, if_pos hname, hdecode, Option.bind_some, ofExact, hd]
  rfl

theorem parse_ssp (t : Bytes) :
    parse (dtnColon ++ 0x2F :: 0x2F :: t) = alt parseExactSsp parseGlob t := by
  simp [parse, preceded, Grammar.bind, Grammar.alt, Grammar.map, literal,
    Eid.noneText]

theorem parse_exact {n d : Bytes} (hn : validUtf8 n = true) (hd : d.all isDemux = true)
    (hw : d.any isWild = false) :
    parse (dtnColon ++ (exact n d).display) = some (.exact n d, []) := by
  have hslash : 0x2F ∉ Crates.percentEncode n := by
    intro hm
    rcases Crates.percentEncode_chars n _ hm with h | h
    · cases h
    · cases h
  have hall : ∀ b ∈ d, isDemux b = true := List.all_eq_true.mp hd
  rw [display, parse_ssp, parseSsp_append hslash, List.takeWhile_eq_self_iff.mpr hall,
    List.dropWhile_eq_nil_iff.mpr hall, sspValue_exact hn hw]
  rfl

end

/-- The escapes of a text are gone after two decodings, and there is no `]` in
the node name of what they leave. -/
def Settled (text : Bytes) : Prop :=
  unpercent (unpercent (unpercent text)) = unpercent (unpercent text) ∧
    0x5D ∉ (unpercent (unpercent text)).takeWhile (· != 0x2F)

omit [Crates] [GlobSyntax] [PercentCoding] in
theorem wild_unpercent {t : Bytes} (h : t.any isWild = true) : (unpercent t).any isWild = true := by
  have hbyte : ∀ b, isWild b = true → hexValue b = Option.none ∧ b ≠ 0x25 := by
    intro b hw
    rcases wild_cases hw with rfl | rfl | rfl <;> decide
  obtain ⟨b, hb, hw⟩ := List.any_eq_true.mp h
  exact List.any_eq_true.mpr ⟨b, mem_unpercent (hbyte b hw).1 (hbyte b hw).2 hb, hw⟩

theorem parse_glob {text g : Bytes} (hslash : 0x2F ∈ text) (h : Globbed text g) :
    parse (dtnColon ++ (glob g).display) = some (.glob g, []) ↔ Settled text := by
  have hwild : g.any isWild = true := h.decoded ▸ wild_unpercent (wild_unpercent h.wild)
  have hmem : 0x2F ∈ g := by
    rw [h.decoded]
    exact mem_unpercent (by decide) (by decide) (mem_unpercent (by decide) (by decide) hslash)
  obtain ⟨a, b, hg, ha⟩ := List.eq_append_cons_of_mem hmem
  have htake : g.takeWhile (· != 0x2F) = a := by
    rw [hg, List.takeWhile_append_of_pos]
    · simp
    · intro c hc
      have hne : c ≠ 0x2F := fun hc' => ha (hc' ▸ hc)
      simpa using hne
  have hshow : g.flatMap showByte = a.flatMap showByte ++ 0x2F :: b.flatMap showByte := by
    rw [hg, List.flatMap_append, List.flatMap_cons]
    rfl
  have hvalue : sspValue (a.flatMap showByte) (b.flatMap showByte) =
      if 0x5D ∈ a then Option.none else newGlob g := by
    rw [sspValue_show ha (hg ▸ h.utf8) (hg ▸ hwild), hg]
  have hall : ∀ c ∈ b.flatMap showByte, isDemux c = true := List.all_eq_true.mp show_demux
  rw [display, displayGlob_eq, parse_ssp, hshow, parseSsp_append (show_slash ha),
    List.takeWhile_eq_self_iff.mpr hall, List.dropWhile_eq_nil_iff.mpr hall, hvalue, Settled,
    ← h.decoded, htake]
  by_cases hclose : 0x5D ∈ a
  · simp [hclose]
  · rw [if_neg hclose, and_iff_left hclose]
    constructor
    · intro hread
      obtain ⟨i, hi, heq⟩ := Option.map_eq_some_iff.mp hread
      cases heq
      have := (newGlob_eq_some.mp hi).1
      exact (DtnPatternItem.glob.inj this).symm
    · intro hsettled
      rw [newGlob_eq_some.mpr ⟨by rw [hsettled], by rw [hsettled]; exact h.utf8,
        by rw [hsettled]; exact h.accepted⟩]
      rfl

end DtnPatternItem

end Hardy
