import Hardy.Pattern.DtnText

/-!
# Patterns through their text

A pattern is stored and sent as its text.  The displayed form of a parsed pattern
is parsed to the same pattern again, but for a glob of the `dtn` scheme that has
an escape or a `]` left after it was decoded twice
(`EidPattern.fromStr_display_iff`).
-/

namespace Hardy

open Cbor Grammar

/-- `"dtn://"` -/
def dtnSlashes : Bytes := dtnColon ++ [0x2F, 0x2F]

namespace EidPatternItem

open DtnPatternItem (Globbed Settled)

variable [Crates] [GlobSyntax]

theorem parse_local : Local 0x7C (parse : Parser UInt8 EidPatternItem) := by
  have hdemux : ∀ (f : Bytes → Option DtnPatternItem), Local (0x7C : UInt8)
      (tryMap f (takeWhile isDemux)) := fun f => (Local.takeWhile rfl).tryMap f
  have hdtn : Local 0x7C DtnPatternItem.parse := by
    refine Local.preceded (by decide) (Local.alt ((Local.literal (by decide)).map _)
      (Local.alt ((Local.literal (by decide)).map _) (Local.preceded (by decide) ?_)))
    refine Local.alt (Local.bind ?_ fun _ => hdemux _) (Local.bind ?_ fun _ => hdemux _)
    · exact ((Local.takeWhile rfl).tryMap _).terminated (by decide)
    · exact (Local.takeWhile rfl).terminated (by decide)
  have hscheme : Local 0x7C parseScheme :=
    (Local.oneOf rfl).bind fun _ => (Local.takeWhile rfl).map _
  refine Local.alt (((IpnPatternItem.parse_local rfl).map _).alt (hdtn.map _)) ?_
  exact (hscheme.alt ((parseNonZeroDecimal_local rfl _).map _)).terminated (by decide)

def Plain : EidPatternItem → Prop
  | .ipn i => i.Canonical
  | .dtn .none | .dtn .any => True
  | .dtn (.exact n d) => validUtf8 n = true ∧ d.all isDemux = true ∧ d.any isWild = false
  | .dtn (.glob _) => False
  | .anyNumericScheme n => 2 < n ∧ n < 2 ^ 64
  | .anyTextScheme s => s.all isSchemeChar = true ∧ (∃ c ∈ s.head?, isAlpha c = true) ∧
      s ≠ dtnScheme ∧ s ≠ ipnScheme

omit [Crates] [GlobSyntax] in
theorem parseAnySspItem_plain : Yields parseAnySspItem Plain := by
  refine Yields.terminated (Yields.alt ?_ ?_)
  · refine (Yields.oneOf isAlpha).bind fun c hc =>
      (Yields.takeWhile isSchemeChar).map fun r hr => ?_
    rw [ofTextScheme]
    split
    · trivial
    · split
      · exact ⟨trivial, trivial, trivial⟩
      · rename_i hdtn hipn
        exact ⟨by simp [hr, isSchemeChar, hc], ⟨c, rfl, hc⟩, hdtn, hipn⟩
  · refine (parseNonZeroDecimal_yields _).map fun n hn => ?_
    rw [ofNumericScheme]
    split
    · trivial
    · split
      · exact ⟨trivial, trivial, trivial⟩
      · exact ⟨by omega, hn.2⟩

theorem parse_slashes (t : Bytes) :
    parse (dtnSlashes ++ t) =
      (alt DtnPatternItem.parseExactSsp DtnPatternItem.parseGlob t).map
        fun r => (.dtn r.1, r.2) := by
  have hipn : IpnPatternItem.parse (dtnSlashes ++ t) = none := rfl
  have hdtn : DtnPatternItem.parse (dtnSlashes ++ t) =
      alt DtnPatternItem.parseExactSsp DtnPatternItem.parseGlob t := DtnPatternItem.parse_ssp t
  have hany : parseAnySspItem (dtnSlashes ++ t) = none := rfl
  rw [parse, Grammar.alt, Grammar.alt, Grammar.map, hipn, Grammar.map, hdtn, hany]
  simp

theorem parse_dtn_cases {t r : Bytes} {x : DtnPatternItem}
    (h : DtnPatternItem.parse t = some (x, r)) :
    x = .none ∨ x = .any ∨ ∃ u, t = dtnSlashes ++ u := by
  obtain ⟨⟨_, v⟩, hcolon, hx⟩ := Option.bind_eq_some_iff.mp h
  rcases Option.or_eq_some_iff.mp hx with hnone | ⟨-, hx⟩
  · obtain ⟨_, -, hi⟩ := Option.map_eq_some_iff.mp hnone
    exact .inl (Prod.mk.inj hi).1.symm
  · rcases Option.or_eq_some_iff.mp hx with hall | ⟨-, hssp⟩
    · obtain ⟨_, -, hi⟩ := Option.map_eq_some_iff.mp hall
      exact .inr (.inl (Prod.mk.inj hi).1.symm)
    · obtain ⟨⟨_, w⟩, hslashes, -⟩ := Option.bind_eq_some_iff.mp hssp
      have hv : v = [0x2F, 0x2F] ++ w := literal_eq_some.mp hslashes
      refine .inr (.inr ⟨w, ?_⟩)
      rw [literal_eq_some.mp hcolon, hv, dtnSlashes, List.append_assoc]

variable {i : EidPatternItem}

theorem whole_cases [PercentCoding] {t : Bytes} (h : whole parse t = some i) :
    (∃ u g, t = dtnSlashes ++ u ∧ 0x2F ∈ u ∧ i = .dtn (.glob g) ∧ Globbed u g) ∨
      (i.Plain ∧ ∀ u, t = dtnSlashes ++ u → u.any isWild = false) := by
  have hread := whole_eq_some.mp h
  by_cases ht : ∃ u, t = dtnSlashes ++ u
  · obtain ⟨u, rfl⟩ := ht
    rw [parse_slashes] at hread
    obtain ⟨⟨x, r⟩, hx, hi⟩ := Option.map_eq_some_iff.mp hread
    cases hi
    by_cases hslash : 0x2F ∈ u
    · obtain ⟨a, d, rfl, ha⟩ := List.eq_append_cons_of_mem hslash
      rw [DtnPatternItem.parseSsp_append ha] at hx
      obtain ⟨y, hy, heq⟩ := Option.map_eq_some_iff.mp hx
      obtain ⟨rfl, hdrop⟩ := Prod.mk.inj heq
      have hall : ∀ b ∈ d, isDemux b = true := List.dropWhile_eq_nil_iff.mp hdrop
      rw [List.takeWhile_eq_self_iff.mpr hall] at hy
      rcases DtnPatternItem.sspValue_cases hy with ⟨g, rfl, hg⟩ | ⟨hw, n, rfl, hn⟩
      · exact .inl ⟨_, g, rfl, hslash, rfl, hg⟩
      · have hwd := hw
        rw [DtnPatternItem.any_wild_append, Bool.or_eq_false_iff] at hwd
        refine .inr ⟨⟨hn, List.all_eq_true.mpr hall, hwd.2⟩, fun u hu => ?_⟩
        rw [← List.append_cancel_left hu]
        exact hw
    · rw [DtnPatternItem.parseSsp_none hslash] at hx
      cases hx
  · refine .inr ⟨?_, fun u hu => absurd ⟨u, hu⟩ ht⟩
    rcases Option.or_eq_some_iff.mp hread with hscheme | ⟨-, hany⟩
    · rcases Option.or_eq_some_iff.mp hscheme with hipn | ⟨-, hdtn⟩
      · obtain ⟨⟨x, r⟩, hx, hi⟩ := Option.map_eq_some_iff.mp hipn
        cases hi
        exact IpnPatternItem.parse_canonical t x _ hx
      · obtain ⟨⟨x, r⟩, hx, hi⟩ := Option.map_eq_some_iff.mp hdtn
        cases hi
        rcases parse_dtn_cases hx with rfl | rfl | hu
        · trivial
        · trivial
        · exact absurd hu ht
    · exact parseAnySspItem_plain t i _ hany

theorem parse_of_other {t : Bytes} (hipn : literal ipnColon t = none)
    (hdtn : literal dtnColon t = none) : parse t = parseAnySspItem t := by
  have hi : IpnPatternItem.parse t = none := by
    rw [IpnPatternItem.parse, preceded, Grammar.bind, hipn]
    rfl
  have hd : DtnPatternItem.parse t = none := by
    rw [DtnPatternItem.parse, preceded, Grammar.bind, hdtn]
    rfl
  rw [parse, Grammar.alt, Grammar.alt, Grammar.map, hi, Grammar.map, hd]
  rfl

theorem parse_numeric {n : Nat} (h : 2 < n) (hlt : n < 2 ^ 64) :
    parse (decimal n ++ anySsp) = some (.anyNumericScheme n, []) := by
  have hletter : ∀ c, isDigit c = false → c ∉ anySsp → c ∉ decimal n ++ anySsp := by
    intro c hc hany hm
    rcases List.mem_append.mp hm with hm | hm
    · exact not_mem_decimal hc hm
    · exact hany hm
  obtain ⟨c, r, hcr, hc⟩ := decimal_first (n := n) (by omega)
  have halpha : isAlpha c = false := by
    have hbyte : ∀ b, isNonZeroDigit b = true → isAlpha b = false := by
      grind [isNonZeroDigit, isAlpha]
    exact hbyte c hc
  have hscheme : parseScheme (decimal n ++ anySsp) = none := by
    rw [hcr, parseScheme, Grammar.bind, List.cons_append, Grammar.oneOf, halpha]
    rfl
  have hnumber : parseNonZeroDecimal (2 ^ 64) (decimal n ++ anySsp) = some (n, anySsp) :=
    (parseNonZeroDecimal_local rfl _).next (not_mem_decimal rfl)
      (parseNonZeroDecimal_decimal (by omega) hlt)
  rw [parse_of_other (literal_none_of_not_mem (hletter _ rfl (by decide)))
    (literal_none_of_not_mem (hletter _ rfl (by decide))), parseAnySspItem, terminated,
    Grammar.bind, Grammar.alt, hscheme, Grammar.map, hnumber]
  simp [ofNumericScheme, Grammar.map, literal, show n ≠ 1 by omega, show n ≠ 2 by omega]

theorem parse_text {s : Bytes} (h : s.all isSchemeChar = true)
    (hfirst : ∃ c ∈ s.head?, isAlpha c = true) (hdtn : s ≠ dtnScheme) (hipn : s ≠ ipnScheme) :
    parse (s ++ anySsp) = some (.anyTextScheme s, []) := by
  have hcolon : 0x3A ∉ s := IpnPattern.not_mem_of_all h rfl
  -- a scheme that goes on to the colon of another one is that scheme
  have hother : ∀ scheme : Bytes, s ≠ scheme →
      literal (scheme ++ [0x3A]) (s ++ anySsp) = none := by
    intro scheme hne
    cases hl : literal (scheme ++ [0x3A]) (s ++ anySsp) with
    | none => rfl
    | some q =>
      have heq : s ++ 0x3A :: [0x2A, 0x2A] = scheme ++ 0x3A :: q.2 :=
        (literal_eq_some.mp hl).trans (List.append_assoc _ _ _)
      exact absurd ((List.append_cons_inj_of_notMem hcolon (by decide)).mp heq).1 hne
  obtain ⟨c, hc, halpha⟩ := hfirst
  obtain ⟨r, rfl⟩ : ∃ r, s = c :: r := by
    cases s with
    | nil => cases hc
    | cons d r => cases hc; exact ⟨r, rfl⟩
  have hr : r.all isSchemeChar = true := by
    rw [List.all_cons, Bool.and_eq_true] at h
    exact h.2
  have hrest : takeWhile isSchemeChar (r ++ anySsp) = some (r, anySsp) :=
    (Local.takeWhile rfl).next (fun hm => hcolon (List.mem_cons_of_mem c hm)) (takeWhile_whole hr)
  rw [parse_of_other (hother ipnScheme hipn) (hother dtnScheme hdtn),
    parseAnySspItem, terminated, Grammar.bind, Grammar.alt, parseScheme, Grammar.bind,
    List.cons_append, Grammar.oneOf, halpha]
  simp [Grammar.map, hrest, ofTextScheme, hdtn, hipn, literal]

theorem parse_dtn (x : DtnPatternItem) : parse (dtnColon ++ x.display) = some (.dtn x, []) ↔
    DtnPatternItem.parse (dtnColon ++ x.display) = some (x, []) := by
  have hssp : ∀ t, parse (dtnColon ++ 0x2F :: 0x2F :: t) = some (.dtn x, []) ↔
      DtnPatternItem.parse (dtnColon ++ 0x2F :: 0x2F :: t) = some (x, []) := by
    intro t
    have hslashes : dtnColon ++ 0x2F :: 0x2F :: t = dtnSlashes ++ t := rfl
    rw [DtnPatternItem.parse_ssp, hslashes, parse_slashes]
    cases alt DtnPatternItem.parseExactSsp DtnPatternItem.parseGlob t with
    | none => simp
    | some q => simp [Prod.ext_iff]
  cases x with
  | none => exact iff_of_true rfl rfl
  | any => exact iff_of_true rfl rfl
  | exact n d => exact hssp _
  | glob g => exact hssp _

theorem parse_display_plain (h : i.Plain) : parse i.display = some (i, []) := by
  match i, h with
  | .ipn i, h =>
    rw [display, parse, Grammar.alt, Grammar.alt, Grammar.map, IpnPatternItem.parse_display h]
    rfl
  | .dtn .none, _ => rfl
  | .dtn .any, _ => rfl
  | .dtn (.exact n d), h => exact (parse_dtn _).mpr (DtnPatternItem.parse_exact h.1 h.2.1 h.2.2)
  | .anyNumericScheme n, h => exact parse_numeric h.1 h.2
  | .anyTextScheme s, h => exact parse_text h.1 h.2.1 h.2.2.1 h.2.2.2

section

omit [GlobSyntax]

theorem display_glob_chars [PercentCoding] (g : Bytes) :
    0x7C ∉ (EidPatternItem.dtn (.glob g)).display := by
  have hshow : 0x7C ∉ g.flatMap showByte := IpnPattern.not_mem_of_all show_demux rfl
  rw [display, DtnPatternItem.display, displayGlob_eq]
  simp [dtnColon, hshow]

theorem display_plain_chars (h : i.Plain) : 0x7C ∉ i.display := by
  have hpart : ∀ x : IpnPattern, 0x7C ∉ x.display :=
    fun x => IpnPattern.not_mem_of_all (IpnPattern.display_part x) rfl
  match i, h with
  | .ipn i, _ =>
    rw [display, IpnPatternItem.display]
    split
    · decide
    · split <;> simp [ipnColon, hpart]
  | .dtn .none, _ => exact (by decide : 0x7C ∉ dtnColon ++ Eid.noneText)
  | .dtn .any, _ => exact (by decide : 0x7C ∉ dtnColon ++ [0x2A, 0x2A])
  | .dtn (.exact n d), h =>
    have hname : 0x7C ∉ Crates.percentEncode n := by
      intro hm
      rcases Crates.percentEncode_chars n _ hm with hc | hc <;> cases hc
    have hdemux : 0x7C ∉ d := IpnPattern.not_mem_of_all h.2.1 rfl
    simp [display, DtnPatternItem.display, dtnColon, hname, hdemux]
  | .anyNumericScheme n, _ =>
    have hnumber : 0x7C ∉ decimal n := not_mem_decimal rfl
    simp [display, anySsp, hnumber]
  | .anyTextScheme s, h =>
    have hscheme : 0x7C ∉ s := IpnPattern.not_mem_of_all h.1 rfl
    simp [display, anySsp, hscheme]

theorem display_first (h : i.Plain ∨ ∃ g, i = .dtn (.glob g)) :
    ∃ c r, i.display = c :: r ∧ c ≠ 0x2A := by
  match i, h with
  | .ipn i, _ => exact ⟨0x69, _, rfl, by decide⟩
  | .dtn x, _ => exact ⟨0x64, _, rfl, by decide⟩
  | .anyNumericScheme n, .inl h =>
    obtain ⟨c, r, hcr, hc⟩ := decimal_first (show 0 < n by have := h.1; omega)
    refine ⟨c, r ++ anySsp, by rw [display, hcr]; rfl, ?_⟩
    rintro rfl
    cases hc
  | .anyTextScheme s, .inl h =>
    obtain ⟨c, hc, halpha⟩ := h.2.1
    cases s with
    | nil => cases hc
    | cons d r =>
      cases hc
      refine ⟨c, r ++ anySsp, rfl, ?_⟩
      rintro rfl
      cases halpha

end

end EidPatternItem

namespace EidPattern

open EidPatternItem DtnPatternItem

variable [Crates] [GlobSyntax]

theorem fromStr_cases {s : Bytes} {p : EidPattern} (h : fromStr s = some p) :
    (s = anyText ∧ p = .any) ∨ ∃ items, p = .set items ∧ items ≠ [] ∧
      (s.splitOn 0x7C).mapM (whole EidPatternItem.parse) = some items := by
  rcases Option.or_eq_some_iff.mp (whole_eq_some.mp h) with hany | ⟨-, hset⟩
  · obtain ⟨⟨_, u⟩, hl, heq⟩ := Option.map_eq_some_iff.mp hany
    obtain ⟨hp, hu⟩ := Prod.mk.inj heq
    have hs : s = anyText ++ u := literal_eq_some.mp hl
    have hu : u = [] := hu
    rw [hu, List.append_nil] at hs
    exact .inl ⟨hs, hp.symm⟩
  · obtain ⟨⟨items, u⟩, hsep, heq⟩ := Option.map_eq_some_iff.mp hset
    obtain ⟨hp, hu⟩ := Prod.mk.inj heq
    have hu : u = [] := hu
    subst hu
    have hne : items ≠ [] := by
      obtain ⟨q, -, hq⟩ := Option.map_eq_some_iff.mp hsep
      rw [← (Prod.mk.inj hq).1]
      exact List.cons_ne_nil _ _
    refine .inr ⟨items, hp.symm, hne, ?_⟩
    rw [← separated_whole EidPatternItem.parse_local]
    exact whole_eq_some.mpr hsep

theorem fromStr_display_set {items : List EidPatternItem} (hne : items ≠ [])
    (hchars : ∀ i ∈ items, 0x7C ∉ i.display ∧ ∃ c r, i.display = c :: r ∧ c ≠ 0x2A) :
    fromStr (display (.set items)) = some (.set items) ↔
      ∀ i ∈ items, EidPatternItem.parse i.display = some (i, []) := by
  have hlit : literal anyText (display (.set items)) = Option.none := by
    obtain ⟨i, items, rfl⟩ := List.exists_cons_of_ne_nil hne
    obtain ⟨-, c, r, hi, hc⟩ := hchars i List.mem_cons_self
    obtain ⟨t, ht⟩ : ∃ t, display (.set (i :: items)) = c :: t := by
      rw [display, List.map_cons, hi]
      cases items with
      | nil => exact ⟨r, List.intercalate_singleton⟩
      | cons j items => exact ⟨_, List.intercalate_cons_cons⟩
    simp [ht, literal, anyText, hc.symm]
  have hsep : separated EidPatternItem.parse 0x7C (display (.set items)) = some (items, []) ↔
      ∀ i ∈ items, EidPatternItem.parse i.display = some (i, []) := by
    have hread := @separated_intercalate _ _ _ _ _ _ EidPatternItem.parse_local
      EidPatternItem.display id items hne fun i hi => (hchars i hi).1
    rwa [List.map_id] at hread
  rw [← hsep, fromStr, whole_eq_some, Grammar.alt, Grammar.map, hlit, Grammar.map]
  cases separated EidPatternItem.parse 0x7C (display (.set items)) with
  | none => simp
  | some q => simp [Prod.ext_iff]

variable [PercentCoding]

/-- A pattern is displayed as a text for it exactly when the escapes of its globs
are gone after two decodings, and leave no `]` in a node name. -/
theorem fromStr_display_iff {s : Bytes} {p : EidPattern} (h : fromStr s = some p) :
    fromStr p.display = some p ↔
      ∀ u, dtnSlashes ++ u ∈ s.splitOn 0x7C → u.any isWild = true → Settled u := by
  rcases fromStr_cases h with ⟨rfl, rfl⟩ | ⟨items, rfl, hne, hitems⟩
  · refine iff_of_true rfl fun u hu _ => ?_
    have hsplit : anyText.splitOn 0x7C = [anyText] := List.splitOn_eq_singleton (by decide)
    rw [hsplit, List.mem_singleton] at hu
    cases hu
  · obtain ⟨hread, hfrom⟩ := mapM_some hitems
    rw [fromStr_display_set hne]
    · constructor
      · intro hall u hu hw
        obtain ⟨i, hi, hwhole⟩ := hread _ hu
        rcases whole_cases hwhole with ⟨v, g, hv, hslash, rfl, hg⟩ | ⟨-, hplain⟩
        · cases List.append_cancel_left hv
          exact (parse_glob hslash hg).mp ((parse_dtn _).mp (hall _ hi))
        · rw [hplain u rfl] at hw
          cases hw
      · intro hall i hi
        obtain ⟨t, ht, hwhole⟩ := hfrom i hi
        rcases whole_cases hwhole with ⟨u, g, rfl, hslash, rfl, hg⟩ | ⟨hplain, -⟩
        · exact (parse_dtn _).mpr ((parse_glob hslash hg).mpr (hall u ht hg.wild))
        · exact parse_display_plain hplain
    · intro i hi
      obtain ⟨t, -, hwhole⟩ := hfrom i hi
      rcases whole_cases hwhole with ⟨_, g, -, -, rfl, -⟩ | ⟨hplain, -⟩
      · exact ⟨display_glob_chars g, display_first (.inr ⟨g, rfl⟩)⟩
      · exact ⟨display_plain_chars hplain, display_first (.inl hplain)⟩

/-! ## Two globs -/

namespace Escapes

def closed : Bytes → Bool
  | [] => true
  | b :: r => (b != 0x5B || r.contains 0x5D) && closed r

@[reducible] def brackets : GlobSyntax := ⟨closed⟩

/-- `dtn://n/**` -/
def everyService : Bytes := [0x64, 0x74, 0x6E, 0x3A, 0x2F, 0x2F, 0x6E, 0x2F, 0x2A, 0x2A]

/-- `dtn://[ab%5D/x` -/
def escapedBracket : Bytes :=
  [0x64, 0x74, 0x6E, 0x3A, 0x2F, 0x2F, 0x5B, 0x61, 0x62, 0x25, 0x35, 0x44, 0x2F, 0x78]

omit [Crates] [GlobSyntax] [PercentCoding] in
theorem everyService_again : @fromStr .reference brackets
    (@display .reference (.set [.dtn (.glob [0x6E, 0x2F, 0x2A, 0x2A])])) =
      some (.set [.dtn (.glob [0x6E, 0x2F, 0x2A, 0x2A])]) := by
  have hread : @fromStr .reference brackets everyService =
      some (.set [.dtn (.glob [0x6E, 0x2F, 0x2A, 0x2A])]) := by decide
  refine (@fromStr_display_iff .reference brackets .reference _ _ hread).mpr fun u hu _ => ?_
  have hsplit : everyService.splitOn 0x7C = [dtnSlashes ++ [0x6E, 0x2F, 0x2A, 0x2A]] :=
    List.splitOn_eq_singleton (by decide)
  rw [hsplit, List.mem_singleton] at hu
  rw [List.append_cancel_left hu]
  exact ⟨by decide, by decide +kernel⟩

omit [Crates] [GlobSyntax] [PercentCoding] in
/-- The escape is gone from the text that is displayed, where a node name may not
have its bracket. -/
theorem escapedBracket_lost : ¬ ∀ s p, @fromStr .reference brackets s = some p →
    @fromStr .reference brackets (@display .reference p) = some p := by
  intro h
  have hread : @fromStr .reference brackets escapedBracket =
      some (.set [.dtn (.glob [0x5B, 0x61, 0x62, 0x5D, 0x2F, 0x78])]) := by decide
  have hagain : @fromStr .reference brackets
      (@display .reference (.set [.dtn (.glob [0x5B, 0x61, 0x62, 0x5D, 0x2F, 0x78])])) =
        Option.none := by decide
  have hsame := h _ _ hread
  rw [hagain] at hsame
  cases hsame

end Escapes

end EidPattern

end Hardy
