import Hardy.Parse.Push

/-!
# A parsed bundle tiles its bytes

The block index of a parsed bundle covers the bytes between the two brackets
of the bundle array, each byte once.
-/

namespace Hardy

open Cbor Bpsec

/-- `Bundle::encoded_len`; the source expects the payload block to be there. -/
def Bundle.encodedLen (b : Bundle) : Option Nat := b.blocks[1]?.map fun p => p.extent.stop + 1

/-- The extents of the blocks tile `1..stop`, from the primary block to the
payload block. -/
structure TilesBytes (blocks : HashMap Block) (stop : Nat) : Prop where
  nonempty : ∀ (n : Nat) (b : Block), blocks[n]? = some b → b.extent.start < b.extent.stop
  disjoint : ∀ (n n' : Nat) (b b' : Block), blocks[n]? = some b → blocks[n']? = some b' → n ≠ n' →
    b.extent.Disjoint b'.extent
  cover : ∀ pos, (1 ≤ pos ∧ pos < stop) ↔ ∃ (n : Nat) (b : Block), blocks[n]? = some b ∧
    b.extent.start ≤ pos ∧ pos < b.extent.stop
  primary_first : ∃ primary, blocks[0]? = some primary ∧ primary.blockType = .primary ∧
    ∀ (n : Nat) (b : Block), blocks[n]? = some b → n ≠ 0 → primary.extent.stop ≤ b.extent.start
  payload_last : ∃ payload, blocks[1]? = some payload ∧ payload.blockType = .payload ∧
    ∀ (n : Nat) (b : Block), blocks[n]? = some b → n ≠ 1 → b.extent.stop ≤ payload.extent.start
  inside : ∀ (n : Nat) (b : Block), blocks[n]? = some b → b.payloadRange.Inside b.extent
  unique : ∀ (n n' : Nat) (b b' : Block), blocks[n]? = some b → blocks[n']? = some b' →
    b.blockType.isUnique = true → b'.blockType = b.blockType → n' = n

theorem extents_of {blocks : HashMap Block} {n : Nat} {b : Block} (h : blocks[n]? = some b) :
    extents blocks n = some b.extent := by
  rw [extents, h]
  rfl

theorem Indexed.tilesBytes {blocks : HashMap Block} {bibs : List Nat} {bcbs : HashMap BcbSet}
    {l : List Nat} {stop : Nat} (h : Indexed blocks bibs bcbs (l ++ [1]) stop) :
    TilesBytes blocks stop := by
  have hmem : ∀ {n : Nat} {b : Block}, blocks[n]? = some b → n ∈ l ++ [1] :=
    fun hb => (h.mem _).mpr (HashMap.mem_iff.mpr ⟨_, hb⟩)
  refine ⟨?_, ?_, ?_, ?_, ?_, h.inside, h.unique⟩
  · intro n b hb
    obtain ⟨r, hr, -, hlt, -⟩ := h.tiles.mem (hmem hb)
    cases (extents_of hb).symm.trans hr
    exact hlt
  · exact fun n n' b b' hb hb' hne =>
      h.tiles.disjoint (hmem hb) (hmem hb') hne (extents_of hb) (extents_of hb')
  · intro pos
    rw [h.tiles.cover]
    constructor
    · rintro ⟨n, -, r, hr, hin⟩
      obtain ⟨b, hb, rfl⟩ := Option.map_eq_some_iff.mp hr
      exact ⟨n, b, hb, hin⟩
    · rintro ⟨n, b, hb, hin⟩
      exact ⟨n, hmem hb, b.extent, extents_of hb, hin⟩
  · obtain ⟨l', hl'⟩ : ∃ l', l ++ [1] = 0 :: l' := by
      have hhead := h.head
      cases hl : l ++ [1] with
      | nil => rw [hl] at hhead; cases hhead
      | cons a l' => rw [hl] at hhead; cases hhead; exact ⟨l', rfl⟩
    have htiles := h.tiles
    rw [hl'] at htiles hmem
    obtain ⟨r, hr, -, -, hrest⟩ := htiles
    obtain ⟨primary, hp, rfl⟩ := Option.map_eq_some_iff.mp hr
    refine ⟨primary, hp, (h.number 0 primary hp).1.mpr rfl, fun n b hb hne => ?_⟩
    obtain ⟨s, hs, hle, -, -⟩ := hrest.mem (List.mem_of_ne_of_mem hne (hmem hb))
    cases (extents_of hb).symm.trans hs
    exact hle
  · obtain ⟨z, htiles, r, hr, hz, -⟩ := tiles_append.mp h.tiles
    obtain ⟨payload, hp, rfl⟩ := Option.map_eq_some_iff.mp hr
    refine ⟨payload, hp, (h.number 1 payload hp).2.mpr rfl, fun n b hb hne => ?_⟩
    have hn : n ∈ l := by
      rcases List.mem_append.mp (hmem hb) with hl | hl
      · exact hl
      · exact absurd (List.mem_singleton.mp hl) hne
    obtain ⟨s, hs, -, -, hle⟩ := htiles.mem hn
    cases (extents_of hb).symm.trans hs
    rw [hz]
    exact hle

theorem SameLayout.same {m m' : HashMap Block} (h : SameLayout m m') {n : Nat} {b' : Block}
    (hb : m'[n]? = some b') : ∃ b : Block, m[n]? = some b ∧ b.extent = b'.extent ∧
      b.blockType = b'.blockType ∧ b.payloadRange = b'.payloadRange := by
  obtain ⟨b, hb, he⟩ := h.get hb
  refine ⟨b, hb, ?_, ?_, ?_⟩
  · exact show b.layout.extent = _ by rw [← he]; rfl
  · exact show b.layout.blockType = _ by rw [← he]; rfl
  · exact show b.layout.payloadRange = _ by rw [← he]; rfl

theorem TilesBytes.sameLayout {m m' : HashMap Block} {stop : Nat} (h : TilesBytes m stop)
    (hl : SameLayout m m') : TilesBytes m' stop := by
  refine ⟨?_, ?_, ?_, ?_, ?_, ?_, ?_⟩
  · intro n b' hb'
    obtain ⟨b, hb, he, -, -⟩ := hl.same hb'
    rw [← he]
    exact h.nonempty n b hb
  · intro n k b' c' hb' hc' hne
    obtain ⟨b, hb, he, -, -⟩ := hl.same hb'
    obtain ⟨c, hc, he', -, -⟩ := hl.same hc'
    rw [← he, ← he']
    exact h.disjoint n k b c hb hc hne
  · intro pos
    rw [h.cover]
    constructor
    · rintro ⟨n, b, hb, hin⟩
      obtain ⟨b', hb', he, -, -⟩ := hl.symm.same hb
      exact ⟨n, b', hb', by rw [he]; exact hin⟩
    · rintro ⟨n, b', hb', hin⟩
      obtain ⟨b, hb, he, -, -⟩ := hl.same hb'
      exact ⟨n, b, hb, by rw [he]; exact hin⟩
  · obtain ⟨primary, hp, ht, hfirst⟩ := h.primary_first
    obtain ⟨primary', hp', he, ht', -⟩ := hl.symm.same hp
    refine ⟨primary', hp', ht'.trans ht, fun n b' hb' hne => ?_⟩
    obtain ⟨b, hb, heb, -, -⟩ := hl.same hb'
    rw [he, ← heb]
    exact hfirst n b hb hne
  · obtain ⟨payload, hp, ht, hlast⟩ := h.payload_last
    obtain ⟨payload', hp', he, ht', -⟩ := hl.symm.same hp
    refine ⟨payload', hp', ht'.trans ht, fun n b' hb' hne => ?_⟩
    obtain ⟨b, hb, heb, -, -⟩ := hl.same hb'
    rw [he, ← heb]
    exact hlast n b hb hne
  · intro n b' hb'
    obtain ⟨b, hb, he, -, hr⟩ := hl.same hb'
    rw [← he, ← hr]
    exact h.inside n b hb
  · intro n k b' c' hb' hc' hu ht
    obtain ⟨b, hb, -, hbt, -⟩ := hl.same hb'
    obtain ⟨c, hc, -, hct, -⟩ := hl.same hc'
    refine h.unique n k b c hb hc (hbt ▸ hu) ?_
    rw [hbt, hct]
    exact ht

theorem tilesBytes_of_parse [Crates] [HashOrder] {b : Bytes} {p : Parsed} (h : parse b = .ok p) :
    ∃ stop, b.length = stop + 1 ∧ TilesBytes p.bundle.blocks stop := by
  obtain ⟨f, hf, hfin⟩ := parse_ok.mp h
  obtain ⟨l, payload, hc⟩ := hf.complete
  exact ⟨payload.extent.stop, hc.length, hc.indexed.tilesBytes.sameLayout (finish_ok hfin).2.2.2⟩

/-- The block index of a parsed bundle tiles the bytes between the brackets of
the bundle, and gives its length. -/
theorem parse_tilesBytes [Crates] [HashOrder] {b : Bytes} {p : Parsed} (h : parse b = .ok p) :
    ∃ stop, b.length = stop + 1 ∧ TilesBytes p.bundle.blocks stop ∧
      p.bundle.encodedLen = some b.length := by
  obtain ⟨f, hf, hfin⟩ := parse_ok.mp h
  obtain ⟨l, payload, hc⟩ := hf.complete
  obtain ⟨-, -, -, hlay⟩ := finish_ok hfin
  obtain ⟨payload', hp', he, -, -⟩ := hlay.symm.same hc.get_payload
  refine ⟨payload.extent.stop, hc.length, hc.indexed.tilesBytes.sameLayout hlay, ?_⟩
  rw [Bundle.encodedLen, hp', Option.map_some, he, hc.length]

def hopCountBundle : Bytes :=
  [0x9F, 0x89, 0x07, 0x04, 0x02, 0x82, 0x02, 0x82, 0x02, 0x03, 0x82, 0x02, 0x82, 0x01, 0x02,
    0x82, 0x01, 0x00, 0x82, 0x05, 0x06, 0x19, 0x03, 0xE8, 0x44, 0xC7, 0x3F, 0x3A, 0x66, 0x85,
    0x0A, 0x02, 0x00, 0x00, 0x44, 0x82, 0x18, 0x1E, 0x00, 0x86, 0x01, 0x01, 0x00, 0x01, 0x43,
    0x01, 0x02, 0x03, 0x42, 0xDA, 0x12, 0xFF]

theorem hopCountBundle_tilesBytes :
    ∃ p, @parse .reference .sorted hopCountBundle = .ok p ∧
      ∃ stop, hopCountBundle.length = stop + 1 ∧ TilesBytes p.bundle.blocks stop ∧
        p.bundle.encodedLen = some hopCountBundle.length := by
  have hok : (@parse .reference .sorted hopCountBundle).toOption.isSome = true := by
    decide +kernel
  cases h : @parse .reference .sorted hopCountBundle with
  | error x => rw [h] at hok; cases hok
  | ok p => exact ⟨p, rfl, @parse_tilesBytes .reference .sorted _ p h⟩

end Hardy
