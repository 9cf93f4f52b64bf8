import Hardy.Build.Builder

/-!
# Bundles of the builder parse back

`Builder::build` and the parser were written apart.  The templates of a
builder become wires (`Written`), so what `build` returns is a bundle whose
index the parser reads back, when the words of its flags are in the form that
the decoder gives them.
-/

namespace Hardy

open Cbor Bpsec

/-! ## Conditions -/

namespace Builder

def template (b : Builder) : Nat → Option BlockTemplate
  | 0 => none
  | 1 => some b.payload
  | n + 2 => b.extensions[n]?

end Builder

/-- What the parser asks of the header of a block. -/
structure BlockTemplate.Stated (t : BlockTemplate) : Prop where
  code_lt : t.block.blockType.code < wordSize
  rest_lt : ∀ u, t.block.flags.unrecognised = some u → u < wordSize
  crcType : t.block.crcType.isRecognised = true

/-- The configurations that are meant to parse back, with the numbers in them
in the range of their machine types. -/
structure Builder.Stated [Crates] (b : Builder) (timestamp : CreationTimestamp) : Prop where
  source : b.source.Decodable
  destination : b.destination.Decodable
  reportTo : ∀ e, b.reportTo = some e → e.Decodable
  flagsOk : (b.primary timestamp).flagsOk = true
  rest_lt : ∀ u, b.bundleFlags.unrecognised = some u → u < wordSize
  crcType : b.crcType.isRecognised = true
  lifetime : ∃ ms, b.lifetime = .fromMillis ms
  timestamp : timestamp.WellFormed
  payload : b.payload.Stated
  extensions : ∀ t ∈ b.extensions, t.Stated
  report : b.bundleFlags.isAdminRecord = true ∨ b.source.isNull = true →
    ∀ t ∈ b.payload :: b.extensions, t.block.flags.reportOnFailure = false
  unique : b.extensions.Pairwise fun t t' => t.block.blockType.isUnique = true →
    t'.block.blockType ≠ t.block.blockType
  insecure : ∀ t ∈ b.extensions,
    t.block.blockType ≠ .blockIntegrity ∧ t.block.blockType ≠ .blockSecurity

/-- The flag words of a builder are in the form that the decoder gives them: no
rest of zero, and no named bit in a rest. -/
structure Builder.FlagsCanonical (b : Builder) : Prop where
  bundle : b.bundleFlags.Canonical
  blocks : ∀ t ∈ b.payload :: b.extensions, t.block.flags.Canonical

/-! ## Templates and wires -/

section

variable [Crates]

def Wire.Of (x : Wire) (t : BlockTemplate) (number : Nat) : Prop :=
  t.data = some x.body ∧ x.header = t.block.header number x.body

theorem Block.emit_wire {b block : Block} {number : Nat} {data bytes : Bytes}
    (h : b.emit number data = .ok (block, bytes)) (he : b.Emittable number)
    (hlen : bytes.length < wordSize) :
    ∃ x : Wire, x.body = data ∧ x.header = b.header number data ∧ x.bytes = bytes := by
  obtain ⟨out, hcrc, hb⟩ := Fold.bind_ok.mp h
  obtain ⟨-, rfl⟩ := Prod.mk.inj (Except.ok.inj hb)
  rw [Block.emitArray_eq] at hcrc
  have hstart := b.length_headBytes number data
  have hplain : Plain (b.headBytes number data.length) := by
    simp only [Block.headBytes, List.append_assoc]
    exact emitUintMinor_plain (by decide) _ _
  obtain ⟨v, htrailer, rfl⟩ : ∃ v, TrailerOk b.crcType false
      (b.headBytes number data.length ++ data) v ∧
      out = b.headBytes number data.length ++ (data ++ trailerBytes b.crcType false v) := by
    rcases appendCrcValue_ok hcrc with ⟨hn, rfl⟩ | ⟨v, hn, hv, rfl⟩
    · exact ⟨[], by simp [TrailerOk, hn], by simp [trailerBytes, breakBytes, hn]⟩
    · exact ⟨v, by simpa [TrailerOk, hn, breakBytes] using hv,
        by simp [trailerBytes, breakBytes, hn]⟩
  have hstop : (b.dataRange number data).stop = (b.dataRange number data).start + data.length :=
    rfl
  have hstop_lt : (b.dataRange number data).stop < wordSize := by
    simp only [List.length_append] at hlen
    omega
  refine ⟨{
    header := b.header number data
    head := b.headBytes number data.length
    body := data
    crc := v
    reads := parseField_reads (Block.reads_header he data hstop_lt) hplain "block"
    plain := ?_
    dataEnd := by rw [hstart]; rfl
    trailer := htrailer }, rfl, rfl, rfl⟩
  obtain ⟨b, tail, hb, -, hne⟩ := hplain
  rw [hb]
  simpa [isBreak] using hne

theorem Block.emit_block {b block : Block} {number start : Nat} {data bytes : Bytes}
    (h : b.emit number data = .ok (block, bytes)) (hbib : b.bib = .none) (hbcb : b.bcb = none)
    {x : Wire} (hx : x.header = b.header number data) (hbytes : x.bytes = bytes) :
    { block with extent := ⟨start, start + bytes.length⟩ } = x.header.block start := by
  obtain ⟨out, -, hb⟩ := Fold.bind_ok.mp h
  obtain ⟨rfl, rfl⟩ := Prod.mk.inj (Except.ok.inj hb)
  have hend := x.extentEnd_eq start
  rw [BlockHeader.block, hend, hbytes, hx, Block.header, hbib, hbcb]

variable {t : BlockTemplate}

theorem BlockTemplate.build_wire {number : Nat} {array out : Bytes}
    {block : Block} (h : t.build number array = .ok (block, out)) (hf : t.Fresh)
    (he : t.block.Emittable number) (hlen : out.length < wordSize) :
    ∃ x : Wire, x.Of t number ∧ out = array ++ x.bytes ∧
      block = x.header.block array.length := by
  unfold build at h
  split at h
  · cases h
  · next data hdata =>
      split at h
      · cases h
      · next b bytes hemit =>
          obtain ⟨rfl, rfl⟩ := Prod.mk.inj (Except.ok.inj h)
          rw [List.length_append] at hlen
          obtain ⟨x, rfl, hx, rfl⟩ := Block.emit_wire hemit he (by omega)
          exact ⟨x, ⟨hdata, hx⟩, rfl, Block.emit_block hemit hf.bib hf.bcb hx rfl⟩

theorem buildBlock_wire (bundle : Bundle) {array : Bytes} {number : Nat}
    {s : HashMap Block × Bytes} (h : buildBlock (bundle.blocks, array) number t = .ok s)
    (hf : t.Fresh) (he : t.block.Emittable number) (hlen : s.2.length < wordSize) :
    ∃ x : Wire, x.Of t number ∧ s = ((bundle.add x.header array.length).blocks, array ++ x.bytes) := by
  obtain ⟨⟨block, out⟩, hb, hs⟩ := Fold.bind_ok.mp h
  obtain rfl := Except.ok.inj hs
  obtain ⟨x, hx, rfl, rfl⟩ := BlockTemplate.build_wire hb hf he hlen
  refine ⟨x, hx, ?_⟩
  rw [Bundle.add, hx.2]
  rfl

def Written : Nat → List BlockTemplate → List Wire → Prop
  | _, [], [] => True
  | number, t :: l, x :: xs => x.Of t number ∧ Written (number + 1) l xs
  | _, _, _ => False

structure BlockTemplate.Extension (t : BlockTemplate) : Prop where
  fresh : t.Fresh
  stated : t.Stated
  flags : t.block.flags.Canonical
  not_primary : t.block.blockType ≠ .primary
  not_payload : t.block.blockType ≠ .payload

omit [Crates] in
theorem BlockTemplate.Extension.emittable (h : t.Extension) {number : Nat}
    (h2 : 2 ≤ number) (hlt : number < wordSize) : t.block.Emittable number := by
  refine ⟨hlt, ?_, ⟨h.fresh.canonical, h.stated.code_lt⟩, h.flags, h.stated.crcType⟩
  have h0 : number ≠ 0 := by omega
  have h1 : number ≠ 1 := by omega
  simp [BlockHeader.numberOk, h0, h1, h.not_primary, h.not_payload]

theorem buildBlock_length {s s' : HashMap Block × Bytes} {number : Nat}
    (h : buildBlock s number t = .ok s') : s.2.length ≤ s'.2.length := by
  obtain ⟨⟨block, out⟩, hb, hs⟩ := Fold.bind_ok.mp h
  obtain rfl := Except.ok.inj hs
  unfold BlockTemplate.build at hb
  repeat' split at hb
  · cases hb
  · cases hb
  · obtain ⟨-, rfl⟩ := Prod.mk.inj (Except.ok.inj hb)
    simp

variable {l : List BlockTemplate}

theorem buildExtensions_length {number : Nat} {s s' : HashMap Block × Bytes}
    (h : buildExtensions number s l = .ok s') :
    s.2.length ≤ s'.2.length := by
  induction l generalizing number s with
  | nil =>
    obtain rfl := Except.ok.inj h
    exact le_rfl
  | cons t l ih =>
    obtain ⟨s₁, h₁, h₂⟩ := Fold.bind_ok.mp h
    exact (buildBlock_length h₁).trans (ih h₂)

theorem buildExtensions_wires (bundle : Bundle) {array : Bytes} {number : Nat}
    {s : HashMap Block × Bytes}
    (h : buildExtensions number (bundle.blocks, array) l = .ok s)
    (hl : ∀ t ∈ l, t.Extension) (h2 : 2 ≤ number) (hn : number ≤ array.length)
    (hlen : s.2.length < wordSize) :
    ∃ xs, Written number l xs ∧
      s = ((bundle.addAll array.length xs).blocks, array ++ wireBytes xs) := by
  induction l generalizing bundle array number with
  | nil =>
    obtain rfl := Except.ok.inj h
    exact ⟨[], trivial, by simp [Bundle.addAll]⟩
  | cons t l ih =>
    obtain ⟨s₁, h₁, h₂⟩ := Fold.bind_ok.mp h
    have hlen₁ := (buildExtensions_length h₂).trans_lt hlen
    have hlen₀ : array.length < wordSize := (buildBlock_length h₁).trans_lt hlen₁
    have ht := hl t List.mem_cons_self
    obtain ⟨x, hx, rfl⟩ := buildBlock_wire bundle h₁ ht.fresh
      (ht.emittable h2 (hn.trans_lt hlen₀)) hlen₁
    have hpos := x.bytes_pos
    obtain ⟨xs, hw, rfl⟩ := ih _ h₂ (fun t ht => hl t (List.mem_cons_of_mem _ ht)) (by omega)
      (by rw [List.length_append]; omega)
    refine ⟨x :: xs, ⟨hx, hw⟩, ?_⟩
    rw [List.length_append, wireBytes_cons, List.append_assoc, Bundle.addAll]

/-! ## What the wires say -/

theorem Written.get {number : Nat} {xs : List Wire}
    (h : Written number l xs) {i : Nat} (ht : l[i]? = some t) : ∃ x ∈ xs, x.Of t (number + i) := by
  induction l generalizing number xs i with
  | nil => cases ht
  | cons t' l ih =>
    cases xs with
    | nil => cases h
    | cons x xs =>
      obtain ⟨hx, h⟩ := h
      cases i with
      | zero =>
        obtain rfl := Option.some.inj ht
        exact ⟨x, List.mem_cons_self, hx⟩
      | succ i =>
        obtain ⟨y, hy, hof⟩ := ih h ht
        refine ⟨y, List.mem_cons_of_mem _ hy, ?_⟩
        rw [Nat.add_right_comm] at hof
        exact hof

theorem Written.mem {number : Nat} {xs : List Wire}
    (h : Written number l xs) {x : Wire} (hx : x ∈ xs) : ∃ t ∈ l, ∃ n, number ≤ n ∧ x.Of t n := by
  induction l generalizing number xs with
  | nil =>
    cases xs with
    | nil => cases hx
    | cons y xs => cases h
  | cons t l ih =>
    cases xs with
    | nil => cases h
    | cons y xs =>
      obtain ⟨hy, h⟩ := h
      rcases List.mem_cons.mp hx with rfl | hx
      · exact ⟨t, List.mem_cons_self, number, le_rfl, hy⟩
      · obtain ⟨t', ht', n, hn, hof⟩ := ih h hx
        exact ⟨t', List.mem_cons_of_mem _ ht', n, by omega, hof⟩

theorem Wire.Of.number {x : Wire} {n : Nat} (h : x.Of t n) : x.header.number = n := by
  rw [h.2]
  rfl

theorem Wire.Of.blockType {x : Wire} {n : Nat} (h : x.Of t n) :
    x.header.blockType = t.block.blockType := by
  rw [h.2]
  rfl

theorem Wire.Of.flags {x : Wire} {n : Nat} (h : x.Of t n) : x.header.flags = t.block.flags := by
  rw [h.2]
  rfl

theorem Written.numbers {number : Nat} {xs : List Wire}
    (h : Written number l xs) : xs.Pairwise fun x y => y.header.number ≠ x.header.number := by
  induction l generalizing number xs with
  | nil =>
    cases xs with
    | nil => exact .nil
    | cons y xs => cases h
  | cons t l ih =>
    cases xs with
    | nil => cases h
    | cons x xs =>
      obtain ⟨hx, h⟩ := h
      refine .cons (fun y hy => ?_) (ih h)
      obtain ⟨t', -, n, hn, hof⟩ := h.mem hy
      rw [hof.number, hx.number]
      omega

theorem Written.types {number : Nat} {xs : List Wire}
    (h : Written number l xs) (hl : l.Pairwise fun t t' => t.block.blockType.isUnique = true →
      t'.block.blockType ≠ t.block.blockType) :
    xs.Pairwise fun x y => x.header.blockType.isUnique = true →
      y.header.blockType ≠ x.header.blockType := by
  induction l generalizing number xs with
  | nil =>
    cases xs with
    | nil => exact .nil
    | cons y xs => cases h
  | cons t l ih =>
    cases xs with
    | nil => cases h
    | cons x xs =>
      obtain ⟨hx, h⟩ := h
      obtain ⟨ht, hl⟩ := List.pairwise_cons.mp hl
      refine .cons (fun y hy => ?_) (ih h hl)
      obtain ⟨t', ht', n, -, hof⟩ := h.mem hy
      rw [hof.blockType, hx.blockType]
      exact ht t' ht'

/-! ## The bundle -/

theorem PrimaryBlock.emit_plain {p : PrimaryBlock} {e : Bytes} (h : p.emit = .ok e) : Plain e := by
  unfold PrimaryBlock.emit at h
  split at h
  · next b hb =>
      obtain rfl := Except.ok.inj h
      rcases appendCrcValue_ok hb with ⟨-, rfl⟩ | ⟨v, -, -, rfl⟩
      · exact emitArray_plain _
      · rw [emitArray, List.append_assoc]
        exact emitUintMinor_plain (by decide) _ _
  · cases h

variable {timestamp : CreationTimestamp}

theorem Builder.Stated.primary_wellFormed {b : Builder}
    (h : b.Stated timestamp) (hf : b.bundleFlags.Canonical) : (b.primary timestamp).WellFormed := by
  obtain ⟨ms, hms⟩ := h.lifetime
  have hle : ms * 1000000 ≤ (wordSize - 1) * 1000000 := by
    have := b.lifetime_le
    rw [hms] at this
    exact this
  refine ⟨hf, h.crcType, Eid.wellFormed_of_decodable h.destination,
    Eid.wellFormed_of_decodable h.source, ?_, h.timestamp, ⟨ms, ?_, hms⟩, ?_, fun f hf => ?_⟩
  · cases hr : b.reportTo with
    | none =>
      simp only [Builder.primary, hr, Option.getD_none]
      exact Eid.wellFormed_of_decodable h.source
    | some e =>
      simp only [Builder.primary, hr, Option.getD_some]
      exact Eid.wellFormed_of_decodable (h.reportTo e hr)
  · have : 0 < wordSize := by decide
    omega
  · exact b.whole.symm
  · cases hf

theorem Walk.recordAll_plain (w : Walk) (bundle : Bundle) (start : Nat) {xs : List Wire}
    (h : ∀ x ∈ xs, x.header.blockType ≠ .blockIntegrity) :
    (w.recordAll bundle start (xs.map fun x => (x, none))).pendingBibs = w.pendingBibs ∧
      (w.recordAll bundle start (xs.map fun x => (x, none))).bcbs = w.bcbs := by
  induction xs generalizing w bundle start with
  | nil => exact ⟨rfl, rfl⟩
  | cons x xs ih =>
    have hx := h x List.mem_cons_self
    obtain ⟨hp, hb⟩ := ih (w.record bundle x.header start none) (bundle.add x.header start)
      (start + x.bytes.length) fun y hy => h y (List.mem_cons_of_mem _ hy)
    rw [List.map_cons, recordAll, hp, hb]
    exact ⟨if_neg hx, rfl⟩

theorem Builder.build_wires {b : Builder} {bundle : Bundle}
    {data : Bytes} (h : b.build timestamp = .ok (bundle, data))
    (hs : ∀ t ∈ b.payload :: b.extensions, t.Stated)
    (hf : ∀ t ∈ b.payload :: b.extensions, t.block.flags.Canonical)
    (hlen : data.length < wordSize) :
    ∃ pb xs payload, (b.primary timestamp).emit = .ok pb ∧ Written 2 b.extensions xs ∧
      payload.Of b.payload 1 ∧ data = bundleBytes pb (xs ++ [payload]) ∧
      bundle = (primaryBundle (b.primary timestamp) 1 (1 + pb.length)).addAll (1 + pb.length)
        (xs ++ [payload]) := by
  obtain ⟨pb, hpb, h⟩ := Fold.bind_ok.mp h
  obtain ⟨s, hext, h⟩ := Fold.bind_ok.mp h
  obtain ⟨s', hpay, h⟩ := Fold.bind_ok.mp h
  obtain ⟨rfl, rfl⟩ := Prod.mk.inj (Except.ok.inj h)
  have hpb : (b.primary timestamp).emit = .ok pb := by
    revert hpb
    cases (b.primary timestamp).emit with
    | error x => exact fun h => by cases h
    | ok e => exact fun h => congrArg _ (Except.ok.inj h)
  have hpos : 0 < pb.length := by
    obtain ⟨_, _, rfl, -⟩ := PrimaryBlock.emit_plain hpb
    simp
  rw [List.length_append] at hlen
  have hlen' : s'.2.length < wordSize := by omega
  have hlen₁ := (buildBlock_length hpay).trans_lt hlen'
  have hextension : ∀ t ∈ b.extensions, t.Extension := fun t ht =>
    ⟨b.extensions_fresh t ht, hs t (List.mem_cons_of_mem _ ht), hf t (List.mem_cons_of_mem _ ht),
      (b.extensions_type t ht).1, (b.extensions_type t ht).2⟩
  obtain ⟨xs, hxs, rfl⟩ := buildExtensions_wires
    (primaryBundle (b.primary timestamp) 1 (1 + pb.length)) hext hextension le_rfl
    (by rw [List.length_cons]; omega) hlen₁
  have hemit : b.payload.block.Emittable 1 :=
    ⟨by decide, by rw [b.payload_type]; rfl, ⟨b.payload_fresh.canonical, (hs _ List.mem_cons_self).code_lt⟩,
      hf _ List.mem_cons_self, (hs _ List.mem_cons_self).crcType⟩
  obtain ⟨payload, hpayload, rfl⟩ := buildBlock_wire
    ((primaryBundle (b.primary timestamp) 1 (1 + pb.length)).addAll (0x9F :: pb).length xs) hpay b.payload_fresh hemit hlen'
  refine ⟨pb, xs, payload, hpb, hxs, hpayload, ?_, ?_⟩
  · simp [bundleBytes, wireBytes_append]
  · have hstart : (0x9F :: pb).length = 1 + pb.length := by
      rw [List.length_cons, Nat.add_comm]
    rw [List.length_append, hstart, Bundle.addAll_append, Bundle.addAll, Bundle.addAll]
    have hprimary := Bundle.addAll_primary
      (primaryBundle (b.primary timestamp) 1 (1 + pb.length)) (1 + pb.length) xs
    rw [Bundle.add, hprimary]
    rfl

theorem Builder.Stated.admissible {b : Builder}
    (hs : b.Stated timestamp) {xs : List Wire} {payload : Wire} (hxs : Written 2 b.extensions xs)
    (hpayload : payload.Of b.payload 1) (stop : Nat) :
    Admissible (primaryBundle (b.primary timestamp) 1 stop) [] (xs ++ [payload]) := by
  have hpay : payload.header.blockType = .payload := hpayload.blockType.trans b.payload_type
  have hnum : ∀ x ∈ xs, 2 ≤ x.header.number := by
    intro x hx
    obtain ⟨t, -, n, hn, hof⟩ := hxs.mem hx
    rw [hof.number]
    exact hn
  have hnot : ∀ x ∈ xs, x.header.blockType ≠ .payload := by
    intro x hx
    obtain ⟨t, ht, n, -, hof⟩ := hxs.mem hx
    rw [hof.blockType]
    exact (b.extensions_type t ht).2
  refine ⟨fun _ _ _ => List.not_mem_nil, ?_, ?_, ?_, ?_⟩
  · refine List.pairwise_append.mpr ⟨hxs.types hs.unique, List.pairwise_singleton _ _, ?_⟩
    intro x hx y hy _
    rw [List.mem_singleton.mp hy, hpay]
    exact (hnot x hx).symm
  · intro x hx
    have hne : x.header.number ≠ 0 := by
      rcases List.mem_append.mp hx with hx | hx
      · have := hnum x hx
        omega
      · rw [List.mem_singleton.mp hx, hpayload.number]
        exact Nat.one_ne_zero
    rw [← Bool.not_eq_true, Std.ExtTreeMap.contains_iff_mem, HashMap.mem_iff]
    rintro ⟨block, hb⟩
    rw [primaryBundle, HashMap.getElem?_insert, if_neg hne] at hb
    simp at hb
  · refine List.pairwise_append.mpr ⟨hxs.numbers, List.pairwise_singleton _ _, ?_⟩
    intro x hx y hy
    rw [List.mem_singleton.mp hy, hpayload.number]
    have := hnum x hx
    omega
  · intro hp x hx
    rcases List.mem_append.mp hx with hx | hx
    · obtain ⟨t, ht, n, -, hof⟩ := hxs.mem hx
      rw [hof.flags]
      exact hs.report hp t (List.mem_cons_of_mem _ ht)
    · rw [List.mem_singleton.mp hx, hpayload.flags]
      exact hs.report hp _ List.mem_cons_self

theorem Builder.build_bare {b : Builder} {bundle : Bundle}
    {data : Bytes} (h : b.build timestamp = .ok (bundle, data)) (hbare : b.extensions = [])
    (hs : b.payload.Stated) (hf : b.payload.block.flags.Canonical) (hlen : data.length < wordSize) :
    ∃ pb payload, (b.primary timestamp).emit = .ok pb ∧ payload.Of b.payload 1 ∧
      data = bundleBytes pb [payload] ∧
      bundle = (primaryBundle (b.primary timestamp) 1 (1 + pb.length)).addAll (1 + pb.length)
        [payload] := by
  obtain ⟨pb, xs, payload, hpb, hxs, hof, hdata, hbundle⟩ := b.build_wires h
    (by simpa [hbare] using hs) (by simpa [hbare] using hf) hlen
  rw [hbare] at hxs
  cases xs with
  | nil => exact ⟨pb, payload, hpb, hof, hdata, hbundle⟩
  | cons x xs => exact absurd hxs id

theorem appendCrcValue_isOk {t : CrcType} (h : t.isRecognised = true) (data : Bytes) :
    ∃ out, appendCrcValue t data = .ok out := by
  cases t with
  | unrecognised v => cases h
  | none => exact ⟨_, rfl⟩
  | crc16X25 => exact ⟨_, rfl⟩
  | crc32Castagnoli => exact ⟨_, rfl⟩

theorem Builder.build_isOk {b : Builder} (timestamp : CreationTimestamp) (hbare : b.extensions = [])
    (hcrc : b.crcType.isRecognised = true) (hs : b.payload.Stated)
    (hdata : b.payload.data.isSome = true) : ∃ r, b.build timestamp = .ok r := by
  obtain ⟨body, hbody⟩ := Option.isSome_iff_exists.mp hdata
  obtain ⟨pb, hpb⟩ : ∃ pb, (b.primary timestamp).emit = .ok pb := by
    obtain ⟨out, hout⟩ := appendCrcValue_isOk (t := (b.primary timestamp).crcType) hcrc
      (emitArray ((b.primary timestamp).items ++
        if (b.primary timestamp).crcType = .none then [] else [[]]))
    exact ⟨out, by rw [PrimaryBlock.emit, hout]⟩
  obtain ⟨out, hout⟩ := appendCrcValue_isOk hs.crcType (b.payload.block.emitArray 1 body)
  have hemit : b.payload.block.emit 1 body = .ok
      ({ b.payload.block with data := b.payload.block.dataRange 1 body }, out) := by
    rw [Block.emit, hout]
    rfl
  rw [Builder.build, hpb, hbare]
  simp only [Except.mapError, buildExtensions, buildBlock, BlockTemplate.build, hbody, hemit]
  exact ⟨_, rfl⟩

variable [HashOrder]

theorem parse_of_wires {primary : PrimaryBlock} {pb : Bytes} {xs : List Wire} {payload : Wire}
    (hp : ∀ st r, parseField PrimaryBlock.fromCbor "primary block" ⟨st, pb ++ r⟩ =
      .ok (primary, ⟨st + pb.length, r⟩))
    (hflags : primary.flagsOk = true)
    (ha : Admissible (primaryBundle primary 1 (1 + pb.length)) [] (xs ++ [payload]))
    (ht : ∀ x ∈ xs, x.header.blockType ≠ .payload) (hpay : payload.header.blockType = .payload)
    (hbib : ∀ x ∈ xs, x.header.blockType ≠ .blockIntegrity)
    (hbcb : ∀ x ∈ xs, x.header.blockType ≠ .blockSecurity)
    (hlen : (bundleBytes pb (xs ++ [payload])).length ≤ wordSize) :
    parse (bundleBytes pb (xs ++ [payload])) = .ok ⟨bundleBytes pb (xs ++ [payload]),
      (primaryBundle primary 1 (1 + pb.length)).addAll (1 + pb.length) (xs ++ [payload]), ∅, ∅⟩ := by
  have hmap : (xs.map fun x => (x, (none : Option BcbSet))).map Prod.fst = xs := by
    rw [List.map_map]
    exact List.map_id xs
  have hcomp := completes_of_wires (l := xs.map fun x => (x, none)) hp hflags
    (by rw [hmap]; exact ha) (by simpa using ht) hpay
    (by
      intro e he
      obtain ⟨x, hx, rfl⟩ := List.mem_map.mp he
      exact if_neg (hbcb x hx))
    (by rw [hmap]; exact hlen)
  rw [hmap] at hcomp
  refine parse_ok.mpr ⟨_, hcomp, ?_⟩
  obtain ⟨hpending, hbcbs⟩ := Walk.recordAll_plain
    { state := .blocks (primaryBundle primary 1 (1 + pb.length)) }
    (primaryBundle primary 1 (1 + pb.length)) (1 + pb.length) hbib
  simp only [Finished.finish, Walk.finished, hpending, hbcbs]
  rw [if_pos (by simp), Bundle.addAll_append]
  rfl

theorem parse_bare {pb : Bytes} {primary : PrimaryBlock} {payload : Wire}
    (hof : payload.Of t 1) (htype : t.block.blockType = .payload)
    (hreport : t.block.flags.reportOnFailure = false)
    (hreads : Reads PrimaryBlock.fromCbor pb (primary, true)) (hplain : Plain pb)
    (hflags : primary.flagsOk = true) (hlen : (bundleBytes pb [payload]).length ≤ wordSize) :
    ∃ p, parse (bundleBytes pb [payload]) = .ok p ∧ p.bundle.primary = primary ∧
      ∃ block, p.bundle.blocks[1]? = some block ∧
        block.payload (bundleBytes pb [payload]) = t.data := by
  have hpay : payload.header.blockType = .payload := hof.blockType.trans htype
  have ha : Admissible (primaryBundle primary 1 (1 + pb.length)) [] [payload] := by
    refine ⟨fun _ _ _ => List.not_mem_nil, List.pairwise_singleton _ _, ?_,
      List.pairwise_singleton _ _, fun _ x hx => ?_⟩
    · intro x hx
      obtain rfl := List.mem_singleton.mp hx
      rw [hof.number, ← Bool.not_eq_true, Std.ExtTreeMap.contains_iff_mem, HashMap.mem_iff]
      rintro ⟨block, hb⟩
      rw [primaryBundle, HashMap.getElem?_insert, if_neg Nat.one_ne_zero] at hb
      simp at hb
    · obtain rfl := List.mem_singleton.mp hx
      rw [hof.flags]
      exact hreport
  have hparse := @parse_of_wires _ _ primary pb [] payload (parseField_reads hreads hplain _)
    hflags ha (by simp) hpay (by simp) (by simp) hlen
  refine ⟨_, hparse, Bundle.addAll_primary _ _ _, ?_⟩
  obtain ⟨block, hget, hbody⟩ := Bundle.addAll_payload
    (primaryBundle primary 1 (1 + pb.length)) ha.numbers List.mem_cons_self (0x9F :: pb) [0xFF]
  rw [hof.number, List.length_cons, Nat.add_comm pb.length] at hget
  exact ⟨block, hget, hbody.trans hof.1.symm⟩

end

/-- What `build` returns parses back: to the same bundle, with the data of each
template in its block. -/
theorem build_parse [Crates] [HashOrder] {b : Builder} {timestamp : CreationTimestamp}
    {bundle : Bundle} {data : Bytes} (hs : b.Stated timestamp) (hf : b.FlagsCanonical)
    (h : b.build timestamp = .ok (bundle, data)) (hlen : data.length < wordSize) :
    ∃ p, parse data = .ok p ∧ p.bundle = bundle ∧
      ∀ n t, b.template n = some t → ∃ block, p.bundle.blocks[n]? = some block ∧
        block.payload data = t.data := by
  obtain ⟨pb, xs, payload, hpb, hxs, hpayload, rfl, rfl⟩ := b.build_wires h
    (List.forall_mem_cons.mpr ⟨hs.payload, hs.extensions⟩) hf.blocks hlen
  have ha := hs.admissible hxs hpayload (1 + pb.length)
  have htype : ∀ x ∈ xs, x.header.blockType ≠ .payload ∧ x.header.blockType ≠ .blockIntegrity ∧
      x.header.blockType ≠ .blockSecurity := by
    intro x hx
    obtain ⟨t, ht, n, -, hof⟩ := hxs.mem hx
    rw [hof.blockType]
    exact ⟨(b.extensions_type t ht).2, hs.insecure t ht⟩
  have hpb_lt : pb.length < wordSize := by
    rw [bundleBytes, List.length_cons, List.length_append] at hlen
    omega
  have hreads := PrimaryBlock.reads_emit (hs.primary_wellFormed hf.bundle) hpb hpb_lt
  refine ⟨_, parse_of_wires (parseField_reads hreads (PrimaryBlock.emit_plain hpb) _) hs.flagsOk ha
    (fun x hx => (htype x hx).1) (hpayload.blockType.trans b.payload_type)
    (fun x hx => (htype x hx).2.1) (fun x hx => (htype x hx).2.2) hlen.le, rfl, ?_⟩
  intro n t ht
  obtain ⟨x, hx, hof⟩ : ∃ x ∈ xs ++ [payload], x.Of t n := by
    rcases n with _ | _ | n
    · cases ht
    · obtain rfl := Option.some.inj ht
      exact ⟨payload, by simp, hpayload⟩
    · obtain ⟨x, hx, hof⟩ := hxs.get ht
      rw [Nat.add_comm] at hof
      exact ⟨x, List.mem_append_left _ hx, hof⟩
  obtain ⟨block, hget, hpay⟩ := Bundle.addAll_payload
    (primaryBundle (b.primary timestamp) 1 (1 + pb.length)) ha.numbers hx (0x9F :: pb)
    [0xFF]
  rw [hof.number, List.length_cons, Nat.add_comm pb.length] at hget
  exact ⟨block, hget, hpay.trans hof.1.symm⟩

def hopCountBuilder : Builder :=
  ((Builder.new (.ipn ⟨0, 1⟩ 0) (.ipn ⟨0, 2⟩ 0)).withHopCount ⟨30, 0, by decide, by decide⟩)
    |>.withPayload [0x48, 0x69]

theorem Eid.decodable_of_wellFormed [Crates] {e : Eid} (h : e.WellFormed)
    (hlen : e.toCbor.length < wordSize) : e.Decodable :=
  ⟨_, _, _, Eid.reads_toCbor h hlen []⟩

theorem hopCountBuilder_stated [Crates] {flags : BundleFlags}
    (hrest : ∀ u, flags.unrecognised = some u → u < wordSize)
    (hadmin : flags.isAdminRecord = false) :
    (hopCountBuilder.withFlags flags).Stated ⟨none, 0⟩ := by
  have heid : ∀ n, n = 1 ∨ n = 2 → (Eid.ipn ⟨0, n⟩ 0).Decodable := by
    intro n hn
    refine Eid.decodable_of_wellFormed ⟨Nat.zero_le _, ?_, Nat.zero_le _, fun _ => ⟨?_, ?_⟩⟩ ?_
    · rcases hn with rfl | rfl <;> decide
    · rcases hn with rfl | rfl <;> decide
    · rcases hn with rfl | rfl <;> decide
    · rcases hn with rfl | rfl <;> exact (by decide : (5 : Nat) < wordSize)
  have hext : (hopCountBuilder.withFlags flags).extensions = [.new .hopCount
      { reportOnFailure := true, mustReplicate := true } .crc32Castagnoli
      (some [0x82, 0x18, 0x1E, 0x00])] := rfl
  have hlifetime : hopCountBuilder.lifetime = .fromMillis 86400000 := by
    decide
  refine {
    source := heid 1 (.inl rfl)
    destination := heid 2 (.inr rfl)
    reportTo := nofun
    flagsOk := ?_
    rest_lt := hrest
    crcType := rfl
    lifetime := ⟨86400000, hlifetime⟩
    timestamp := ⟨nofun, by decide⟩
    payload := ⟨show 1 < wordSize by decide, nofun, rfl⟩
    extensions := fun t ht => ?_
    report := fun h => ?_
    unique := List.pairwise_singleton _ _
    insecure := fun t ht => ?_ }
  · have hsource : hopCountBuilder.source.isNull = false := rfl
    simp only [PrimaryBlock.flagsOk, Builder.primary, Builder.withFlags, hsource, hadmin,
      Bool.false_and, Bool.not_false, Bool.and_self]
  · rw [hext] at ht
    rw [List.mem_singleton.mp ht]
    exact ⟨by decide, nofun, rfl⟩
  · rcases h with h | h
    · rw [show (hopCountBuilder.withFlags flags).bundleFlags.isAdminRecord = false from hadmin] at h
      cases h
    · cases h
  · rw [hext] at ht
    rw [List.mem_singleton.mp ht]
    exact ⟨by decide, by decide⟩

theorem hopCountBuilder_parse : ∃ bundle data,
    @Builder.build .reference (hopCountBuilder.withFlags {}) ⟨none, 0⟩ = .ok (bundle, data) ∧
      ∃ p, @parse .reference .sorted data = .ok p ∧ p.bundle = bundle ∧
        ∀ n t, (hopCountBuilder.withFlags {}).template n = some t →
          ∃ block, p.bundle.blocks[n]? = some block ∧ block.payload data = t.data := by
  have hlen : (@Builder.build .reference (hopCountBuilder.withFlags {}) ⟨none, 0⟩).toOption.map
      (fun r => r.2.length) = some 62 := by
    decide +kernel
  cases h : @Builder.build .reference (hopCountBuilder.withFlags {}) ⟨none, 0⟩ with
  | error x => rw [h] at hlen; cases hlen
  | ok r =>
    rw [h] at hlen
    refine ⟨r.1, r.2, rfl, @build_parse .reference .sorted _ _ _ _
      (@hopCountBuilder_stated .reference _ nofun rfl) ⟨?_, ?_⟩ h ?_⟩
    · exact nofun
    · intro t ht
      rcases List.mem_cons.mp ht with rfl | ht
      · exact nofun
      · rw [List.mem_singleton.mp ht]
        exact nofun
    · exact (Option.some.inj hlen : r.2.length = 62) ▸ (by decide)

/-- A rest of zero is written as no rest. -/
theorem zeroRest_not_parse : ∃ bundle data,
    @Builder.Stated .reference (hopCountBuilder.withFlags { unrecognised := some 0 }) ⟨none, 0⟩ ∧
      @Builder.build .reference (hopCountBuilder.withFlags { unrecognised := some 0 }) ⟨none, 0⟩ =
        .ok (bundle, data) ∧
      data.length < wordSize ∧ ¬ ∃ p, @parse .reference .sorted data = .ok p ∧ p.bundle = bundle := by
  have hflags : (@Builder.build .reference (hopCountBuilder.withFlags { unrecognised := some 0 })
      ⟨none, 0⟩).toOption.map (fun r => (r.2.length, r.1.primary.flags.unrecognised,
        (@parse .reference .sorted r.2).toOption.map fun p => p.bundle.primary.flags.unrecognised)) =
      some (62, some 0, some none) := by
    decide +kernel
  cases h : @Builder.build .reference (hopCountBuilder.withFlags { unrecognised := some 0 })
      ⟨none, 0⟩ with
  | error x => rw [h] at hflags; cases hflags
  | ok r =>
    rw [h] at hflags
    obtain ⟨hlen, hrest⟩ := Prod.mk.inj (Option.some.inj hflags)
    obtain ⟨hbuilt, hparsed⟩ := Prod.mk.inj hrest
    refine ⟨r.1, r.2, @hopCountBuilder_stated .reference _
      (by rintro u ⟨⟩; decide) rfl, rfl, ?_, ?_⟩
    · exact (hlen : r.2.length = 62) ▸ (by decide)
    · rintro ⟨p, hp, he⟩
      rw [hp] at hparsed
      have hnone : p.bundle.primary.flags.unrecognised = none := Option.some.inj hparsed
      rw [he] at hnone
      exact absurd (hbuilt.symm.trans hnone) (by decide)

end Hardy
