import Mathlib.Data.List.Forall2
import Hardy.Cbor.Encode

/-!
# Item trees

The items that the `Encoder` of `cbor/src/encode.rs` and its `Array`, `Map`,
`ByteStream` and `TextStream` helpers can write, and the walk over them with
`parse_value` and `Series`.  The walk reads back the tree that was written
(`walk_emit`), whatever follows it.

The items of a map are its keys and values in turn, as both the encoder and
the decoder count them.
-/

namespace Hardy.Cbor

/-- A finite data item.  Texts are kept as their UTF-8 bytes. -/
inductive Item where
  | integer (v : Int)
  | bool (b : Bool)
  | undefined
  | bytes (b : Bytes)
  | byteStream (chunks : List Bytes)
  | text (t : Bytes)
  | textStream (chunks : List Bytes)
  | array (definite : Bool) (items : List Item)
  | map (definite : Bool) (items : List Item)
  | tagged (tag : Nat) (item : Item)

/-! ## Emission -/

/-- The integer types of `impl_uint_to_cbor` and `impl_int_to_cbor`. -/
def emitInt (v : Int) : Bytes :=
  if 0 ≤ v then emitUintMinor 0 v.toNat else emitUintMinor 1 (v.natAbs - 1)

/-- `emit_byte_stream` and `emit_text_stream`: major types 2 and 3. -/
def emitStream (major : Nat) (chunks : List Bytes) : Bytes :=
  markerByte major 31 :: (chunks.flatMap (fun c => emitUintMinor major c.length ++ c) ++ [0xFF])

/-- `Sequence<D>`, apart from the encoder that it writes to. -/
structure Sequence where
  count : Option Nat
  idx : Nat

namespace Sequence

def major (D : Nat) : Nat := if D = 1 then 4 else 5

def new (D : Nat) (count : Option Nat) : Sequence × Bytes :=
  (⟨count.map fun c => c * D % wordSize, 0⟩,
    match count with
    | some c => emitUintMinor (major D) c
    | none => [markerByte (major D) 31])

/-- `next_field`; `none` is the panic on too many items. -/
def nextField (s : Sequence) : Option Sequence :=
  match s.count with
  | some count => if count < s.idx + 1 then none else some { s with idx := s.idx + 1 }
  | none => some { s with idx := s.idx + 1 }

/-- `end`; `none` is the panic on too few items. -/
def finish (s : Sequence) : Option Bytes :=
  match s.count with
  | none => some [0xFF]
  | some count => if s.idx ≠ count then none else some []

/-- The closure of `emit_array` or `emit_map`, emitting these fields. -/
def fill (s : Sequence) : List Bytes → Option Bytes
  | [] => s.finish
  | e :: fields => do
      let s ← s.nextField
      let rest ← s.fill fields
      pure (e ++ rest)

end Sequence

/-- `emit_array` and `emit_map` -/
def emitSequence (D : Nat) (count : Option Nat) (fields : List Bytes) : Option Bytes := do
  let (s, head) := Sequence.new D count
  let rest ← s.fill fields
  pure (head ++ rest)

mutual

/-- The bytes of an item.  A definite sequence declares the count it has. -/
def Item.emit : Item → Option Bytes
  | .integer v => some (emitInt v)
  | .bool b => some (emitBool b)
  | .undefined => some [0xF7]
  | .bytes b => some (emitBytes b)
  | .byteStream chunks => some (emitStream 2 chunks)
  | .text t => some (emitString t)
  | .textStream chunks => some (emitStream 3 chunks)
  | .array definite items => do
      let fields ← emitItems items
      emitSequence 1 (if definite then some items.length else none) fields
  | .map definite items => do
      let fields ← emitItems items
      emitSequence 2 (if definite then some (items.length / 2) else none) fields
  | .tagged tag item => do
      let e ← item.emit
      pure (emitUintMinor 6 tag ++ e)

def emitItems : List Item → Option (List Bytes)
  | [] => some []
  | x :: items => do
      let e ← x.emit
      let rest ← emitItems items
      pure (e :: rest)

end

mutual

def Item.Valid : Item → Prop
  | .integer v => -wordSize ≤ v ∧ v < wordSize
  | .text t => validUtf8 t = true
  | .textStream chunks => ∀ c ∈ chunks, validUtf8 c = true
  | .array _ items => ValidItems items
  | .map _ items => items.length % 2 = 0 ∧ ValidItems items
  | .tagged tag item => tag < wordSize ∧ item.Valid
  | _ => True

def ValidItems : List Item → Prop
  | [] => True
  | x :: items => x.Valid ∧ ValidItems items

end

/-! ## The walk -/

def tagAll (tags : List Nat) (x : Item) : Item := tags.foldr .tagged x

/-- The items of a series, by `try_parse_value` up to its end. -/
def walkRound (D : Nat) (nested : Dec Error (Item × Bool)) (acc : List Item × Bool) :
    Ser Error ((List Item × Bool) ⊕ (List Item × Bool)) := do
  match ← Series.tryItem D nested with
  | none => pure (.inr acc)
  | some (x, s) => pure (.inl (acc.1 ++ [x], acc.2 && s))

def walkItems (D : Nat) (nested : Dec Error (Item × Bool)) (shortest : Bool) :
    Ser Error (List Item × Bool) :=
  Scan.loop .tooBig (walkRound D nested) ([], shortest)

/-- The closure that makes a tree of a value.  The flag says that every head
so far was in its shortest form. -/
def walkValue (nested : Dec Error (Item × Bool)) (v : Value) (shortest : Bool) (tags : List Nat) :
    Ser Error (Item × Bool) :=
  match v with
  | .unsignedInteger n => pure (tagAll tags (.integer n), shortest)
  | .negativeInteger n => pure (tagAll tags (.integer (-1 - n)), shortest)
  | .bytes _ b => pure (tagAll tags (.bytes b), shortest)
  | .byteStream chunks => pure (tagAll tags (.byteStream chunks), shortest)
  | .text t => pure (tagAll tags (.text t), shortest)
  | .textStream chunks => pure (tagAll tags (.textStream chunks), shortest)
  | .array definite => do
      let (items, s) ← walkItems 1 nested shortest
      pure (tagAll tags (.array definite items), s)
  | .map definite => do
      let (items, s) ← walkItems 2 nested shortest
      pure (tagAll tags (.map definite items), s)
  | .false => pure (tagAll tags (.bool Bool.false), shortest)
  | .true => pure (tagAll tags (.bool Bool.true), shortest)
  | .undefined => pure (tagAll tags .undefined, shortest)
  | v => throw (.incorrectType "Item" (v.itemType tags))

def walk : Nat → Dec Error (Item × Bool)
  | 0 => throw .maxRecursion
  | depth + 1 => parseValue (walkValue (walk depth))

/-! ## What is emitted -/

theorem Sequence.fill_indefinite (idx : Nat) (fields : List Bytes) :
    (Sequence.mk none idx).fill fields = some (fields.flatten ++ [0xFF]) := by
  induction fields generalizing idx with
  | nil => rfl
  | cons e fields ih => simp [fill, nextField, ih]

variable {fields : List Bytes}

theorem Sequence.fill_definite {count idx : Nat} {out : Bytes}
    (h : (Sequence.mk (some count) idx).fill fields = some out) :
    idx + fields.length = count ∧ out = fields.flatten := by
  induction fields generalizing idx out with
  | nil =>
    simp only [fill, finish] at h
    split at h
    · cases h
    · next hidx =>
        rw [not_not] at hidx
        exact ⟨hidx, (Option.some.inj h).symm⟩
  | cons e fields ih =>
    obtain ⟨s, hs, h⟩ := Option.bind_eq_some_iff.mp h
    obtain ⟨rest, hrest, h⟩ := Option.bind_eq_some_iff.mp h
    obtain rfl := Option.some.inj h
    simp only [nextField] at hs
    split at hs
    · cases hs
    · obtain rfl := Option.some.inj hs
      obtain ⟨hlen, rfl⟩ := ih hrest
      rw [List.length_cons, List.flatten_cons]
      exact ⟨by omega, rfl⟩

variable {e : Bytes}

theorem emitSequence_definite {D count : Nat} (h : emitSequence D (some count) fields = some e) :
    fields.length = count * D % wordSize ∧
      e = emitUintMinor (Sequence.major D) count ++ fields.flatten := by
  obtain ⟨rest, hrest, h⟩ := Option.bind_eq_some_iff.mp h
  obtain rfl := Option.some.inj h
  obtain ⟨hlen, rfl⟩ := Sequence.fill_definite hrest
  exact ⟨(Nat.zero_add _).symm.trans hlen, rfl⟩

theorem emitSequence_indefinite {D : Nat} (h : emitSequence D none fields = some e) :
    e = markerByte (Sequence.major D) 31 :: (fields.flatten ++ [0xFF]) := by
  obtain ⟨rest, hrest, h⟩ := Option.bind_eq_some_iff.mp h
  obtain rfl := Option.some.inj h
  obtain rfl := Option.some.inj ((Sequence.fill_indefinite 0 fields).symm.trans hrest)
  rfl

variable {items : List Item}

theorem emitItems_forall (h : emitItems items = some fields) :
    List.Forall₂ (fun x e => x.emit = some e) items fields := by
  induction items generalizing fields with
  | nil =>
    rw [emitItems] at h
    obtain rfl := Option.some.inj h
    exact .nil
  | cons x items ih =>
    rw [emitItems] at h
    obtain ⟨e, he, h⟩ := Option.bind_eq_some_iff.mp h
    obtain ⟨rest, hrest, h⟩ := Option.bind_eq_some_iff.mp h
    obtain rfl := Option.some.inj h
    exact .cons he (ih hrest)

def Opens (e : Bytes) : Prop := ∃ b tail, e = b :: tail ∧ b ≠ 0xFF

theorem emitUintMinor_opens {major : Nat} (v : Nat) (r : Bytes) :
    Opens (emitUintMinor major v ++ r) := by
  have hbyte : ∀ minor, minor < 28 → markerByte major minor ≠ 0xFF := by
    intro minor hm h
    have := congrArg UInt8.toNat h
    simp only [markerByte, UInt8.toNat_ofNat'] at this
    simp at this
    omega
  rw [emitUintMinor]
  split
  · exact ⟨_, _, rfl, hbyte v (by omega)⟩
  split
  · exact ⟨_, _, rfl, hbyte 24 (by omega)⟩
  split
  · exact ⟨_, _, rfl, hbyte 25 (by omega)⟩
  split
  · exact ⟨_, _, rfl, hbyte 26 (by omega)⟩
  · exact ⟨_, _, rfl, hbyte 27 (by omega)⟩

theorem emitSequence_opens {D : Nat} {count : Option Nat}
    (h : emitSequence D count fields = some e) : Opens e := by
  have hmajor : Sequence.major D = 4 ∨ Sequence.major D = 5 := by
    rw [Sequence.major]
    split <;> simp
  cases count with
  | none =>
    refine ⟨_, _, emitSequence_indefinite h, ?_⟩
    rcases hmajor with hm | hm <;> rw [hm] <;> decide
  | some count =>
    rw [(emitSequence_definite h).2]
    exact emitUintMinor_opens _ _

theorem Item.emit_opens {x : Item} (h : x.emit = some e) : Opens e := by
  have hnil : ∀ major v : Nat, Opens (emitUintMinor major v) := fun major v => by
    have hopens : Opens (emitUintMinor major v ++ []) := emitUintMinor_opens v []
    rwa [List.append_nil] at hopens
  cases x with
  | integer v =>
    rw [emit] at h
    obtain rfl := Option.some.inj h
    rw [emitInt]
    split
    · exact hnil _ _
    · exact hnil _ _
  | bool b =>
    rw [emit] at h
    obtain rfl := Option.some.inj h
    exact ⟨_, _, rfl, by cases b <;> decide⟩
  | undefined =>
    rw [emit] at h
    obtain rfl := Option.some.inj h
    exact ⟨_, _, rfl, by decide⟩
  | bytes b =>
    rw [emit] at h
    obtain rfl := Option.some.inj h
    exact emitUintMinor_opens _ _
  | text t =>
    rw [emit] at h
    obtain rfl := Option.some.inj h
    exact emitUintMinor_opens _ _
  | byteStream chunks =>
    rw [emit] at h
    obtain rfl := Option.some.inj h
    exact ⟨_, _, rfl, by decide⟩
  | textStream chunks =>
    rw [emit] at h
    obtain rfl := Option.some.inj h
    exact ⟨_, _, rfl, by decide⟩
  | array definite items =>
    rw [emit] at h
    obtain ⟨fields, -, h⟩ := Option.bind_eq_some_iff.mp h
    exact emitSequence_opens h
  | map definite items =>
    rw [emit] at h
    obtain ⟨fields, -, h⟩ := Option.bind_eq_some_iff.mp h
    exact emitSequence_opens h
  | tagged tag item =>
    rw [emit] at h
    obtain ⟨e, -, h⟩ := Option.bind_eq_some_iff.mp h
    obtain rfl := Option.some.inj h
    exact emitUintMinor_opens _ _

/-! ## Heads with tags -/

def Heads (e : Bytes) (marker : Marker) : Prop :=
  ∀ acc st r, Scan.loop .tooBig headRound acc ⟨st, e ++ r⟩ =
    .ok ((⟨acc.1, marker⟩, acc.2), ⟨st + e.length, r⟩)

theorem heads_byte {b : UInt8} {marker : Marker}
    (h : ∀ acc st r, headRound acc ⟨st, b :: r⟩ = .ok (.inr (⟨acc.1, marker⟩, acc.2), ⟨st + 1, r⟩)) :
    Heads [b] marker :=
  fun acc st r => Scan.loop_of_stop headRound_progress (h acc st r)

theorem heads_false : Heads [0xF4] .false := heads_byte fun _ _ _ => rfl

theorem heads_true : Heads [0xF5] .true := heads_byte fun _ _ _ => rfl

theorem heads_undefined : Heads [0xF7] .undefined := heads_byte fun _ _ _ => rfl

theorem heads_emit {major v : Nat} (hM : major ≤ 5) (hv : v < wordSize) :
    Heads (emitUintMinor major v) (.ofMajor major v) :=
  fun acc st r => headLoop_emit hM hv acc st r

theorem heads_indefinite {major : Nat} (h2 : 2 ≤ major) (h5 : major ≤ 5) :
    Heads [markerByte major 31] (.ofIndefinite major) := by
  refine heads_byte fun acc st r => ?_
  interval_cases major <;> rfl

def tagBytes (tags : List Nat) : Bytes := tags.flatMap (emitUintMinor 6)

theorem headRound_tag {tag : Nat} (ht : tag < wordSize) (acc : List Nat × Bool) (st : Nat)
    (r : Bytes) : headRound acc ⟨st, emitUintMinor 6 tag ++ r⟩ =
      .ok (.inl (acc.1 ++ [tag], acc.2), ⟨st + (emitUintMinor 6 tag).length, r⟩) := by
  obtain ⟨minor, tail, hminor, heq, harg⟩ := emitUintMinor_spec ht 6
  have hmaj := majorOf_markerByte (show 6 < 8 by omega) (show minor < 32 by omega)
  have hmin := minorOf_markerByte 6 (show minor < 32 by omega)
  rw [heq, List.cons_append, headRound, Scan.bind_eq_of_ok (byte_cons _ _ _), if_pos hmaj, hmin,
    Scan.bind_eq_of_ok (harg _ _)]
  simp [Nat.add_assoc, Nat.add_comm 1]

theorem head_tags {tags : List Nat} (ht : ∀ t ∈ tags, t < wordSize) {marker : Marker}
    (he : Heads e marker) (st : Nat) (r : Bytes) :
    Head.fromCbor ⟨st, tagBytes tags ++ (e ++ r)⟩ = .ok ((⟨tags, marker⟩, true),
      ⟨st + (tagBytes tags).length + e.length, r⟩) := by
  have hloop : ∀ acc st, Scan.loop .tooBig headRound acc ⟨st, tagBytes tags ++ (e ++ r)⟩ =
      .ok ((⟨acc.1 ++ tags, marker⟩, acc.2), ⟨st + (tagBytes tags).length + e.length, r⟩) := by
    induction tags with
    | nil =>
      intro acc st
      have := he acc st r
      rw [List.append_nil]
      exact this
    | cons t tags ih =>
      intro acc st
      have hround := headRound_tag (ht t List.mem_cons_self) acc st (tagBytes tags ++ (e ++ r))
      have hsplit : tagBytes (t :: tags) = emitUintMinor 6 t ++ tagBytes tags := rfl
      rw [hsplit, List.append_assoc, Scan.loop_of_continue headRound_progress hround,
        ih fun t' ht' => ht t' (List.mem_cons_of_mem _ ht')]
      simp [Nat.add_assoc]
  rw [Head.fromCbor_eq]
  exact hloop ([], true) st

/-! ## Reading series -/

section

variable {D : Nat} {nested : Dec Error (Item × Bool)}

theorem walkRound_item {c c' : Cursor UInt8 Series} {x : Item} {s : Bool}
    (h : Series.tryItem D nested c = .ok (some (x, s), c')) (acc : List Item × Bool) :
    walkRound D nested acc c = .ok (.inl (acc.1 ++ [x], acc.2 && s), c') := by
  rw [walkRound, Scan.bind_eq_of_ok h]
  rfl

theorem walkRound_end {c c' : Cursor UInt8 Series}
    (h : Series.tryItem D nested c = .ok (none, c')) (acc : List Item × Bool) :
    walkRound D nested acc c = .ok (.inr acc, c') := by
  rw [walkRound, Scan.bind_eq_of_ok h]
  rfl

theorem tryItem_reads_open {off p : Nat} {a : Item × Bool} (h : Reads nested e a)
    (he : Opens e) (r : Bytes) :
    Series.tryItem D nested ⟨⟨none, off, p⟩, e ++ r⟩ =
      .ok (some a, ⟨⟨none, off + e.length, p + 1⟩, r⟩) := by
  obtain ⟨b, tail, rfl, hb⟩ := he
  have hitem : Series.item D nested ⟨⟨none, off, p⟩, b :: tail ++ r⟩ =
      .ok (a, ⟨⟨none, off + (b :: tail).length, p + 1⟩, r⟩) := by
    rw [Series.item, List.cons_append, unlessEnd_cons rfl hb, ← List.cons_append]
    exact Scan.within_ok.mpr ⟨(b :: tail).length, h r, rfl⟩
  rw [Series.tryItem, List.cons_append, unlessEnd_cons rfl hb, ← List.cons_append]
  exact Scan.bind_eq_of_ok hitem _

theorem tryItem_break {off p : Nat} (hD : 0 < D) (hp : p % D = 0) (r : Bytes) :
    Series.tryItem D nested ⟨⟨none, off, p⟩, 0xFF :: r⟩ =
      .ok (none, ⟨⟨some p, off + 1, p⟩, r⟩) := by
  rw [Series.tryItem, unlessEnd_break rfl hD, if_pos hp]
  rfl

theorem walkItems_definite {n off p fuel : Nat}
    (h : List.Forall₂ (fun x e => Reads nested e (x, true)) items fields)
    (hn : p + fields.length = n) (hfuel : fields.length < fuel) (acc : List Item) (r : Bytes) :
    Scan.loopFuel .tooBig (walkRound D nested) fuel (acc, true)
        ⟨⟨some n, off, p⟩, fields.flatten ++ r⟩ =
      .ok ((acc ++ items, true), ⟨⟨some n, off + fields.flatten.length, n⟩, r⟩) := by
  induction h generalizing acc off p fuel with
  | nil =>
    obtain ⟨fuel, rfl⟩ : ∃ k, fuel = k + 1 := ⟨fuel - 1, by omega⟩
    obtain rfl : p = n := by simpa using hn
    rw [Scan.loopFuel_succ, List.flatten_nil, List.nil_append,
      walkRound_end (tryItem_end r), List.append_nil]
    rfl
  | @cons x e items fields hx _ ih =>
    obtain ⟨fuel, rfl⟩ : ∃ k, fuel = k + 1 := ⟨fuel - 1, by omega⟩
    rw [List.length_cons] at hn hfuel
    have htry : Series.tryItem D nested ⟨⟨some n, off, p⟩, e ++ (fields.flatten ++ r)⟩ = _ :=
      tryItem_reads hx (show p < n by omega) _
    rw [Scan.loopFuel_succ, List.flatten_cons, List.append_assoc, walkRound_item htry]
    dsimp only
    rw [Bool.and_self, ih (by omega) (by omega)]
    simp [Nat.add_assoc]

theorem walkItems_indefinite {off p fuel : Nat}
    (hD : 0 < D) (h : List.Forall₂ (fun x e => Reads nested e (x, true) ∧ Opens e) items fields)
    (hp : (p + fields.length) % D = 0) (hfuel : fields.length < fuel) (acc : List Item)
    (r : Bytes) :
    Scan.loopFuel .tooBig (walkRound D nested) fuel (acc, true)
        ⟨⟨none, off, p⟩, fields.flatten ++ 0xFF :: r⟩ =
      .ok ((acc ++ items, true), ⟨⟨some (p + fields.length), off + fields.flatten.length + 1,
        p + fields.length⟩, r⟩) := by
  induction h generalizing acc off p fuel with
  | nil =>
    obtain ⟨fuel, rfl⟩ : ∃ k, fuel = k + 1 := ⟨fuel - 1, by omega⟩
    have hp' : p % D = 0 := hp
    rw [Scan.loopFuel_succ, List.flatten_nil, List.nil_append,
      walkRound_end (tryItem_break hD hp' r), List.append_nil]
    rfl
  | @cons x e items fields hx _ ih =>
    obtain ⟨fuel, rfl⟩ : ∃ k, fuel = k + 1 := ⟨fuel - 1, by omega⟩
    rw [List.length_cons] at hp hfuel
    have htry : Series.tryItem D nested ⟨⟨none, off, p⟩, e ++ (fields.flatten ++ 0xFF :: r)⟩ =
      _ := tryItem_reads_open hx.1 hx.2 _
    rw [Scan.loopFuel_succ, List.flatten_cons, List.append_assoc, walkRound_item htry]
    dsimp only
    rw [Bool.and_self, ih (by rw [Nat.add_assoc, Nat.add_comm 1]; exact hp) (by omega)]
    simp [Nat.add_assoc, Nat.add_comm 1]

theorem length_le_flatten (h : List.Forall₂ (fun _ e => Opens e) items fields) :
    fields.length ≤ fields.flatten.length := by
  induction h with
  | nil => exact le_rfl
  | cons he _ ih =>
    obtain ⟨b, tail, rfl, -⟩ := he
    simp only [List.length_cons, List.flatten_cons, List.length_append]
    omega

theorem withSeries_closed {count n : Option Nat} (hn : Series.itemCount D count = .ok n)
    {α : Type} {body : Ser Error α} {st st' m : Nat} {d r : Bytes} {a : α}
    (h : body ⟨⟨n, st, 0⟩, d⟩ = .ok (a, ⟨⟨some m, st', m⟩, r⟩)) :
    withSeries D count body ⟨st, d⟩ = .ok (a, ⟨st', r⟩) := by
  rw [withSeries, overSeries, hn]
  refine Scan.within_ok.mpr ⟨⟨some m, st', m⟩, ?_, rfl⟩
  rw [Scan.bind_eq_of_ok h]
  exact complete_reads a r

theorem withSeries_walk (hD : 0 < D)
    (h : List.Forall₂ (fun x e => Reads nested e (x, true) ∧ Opens e) items fields)
    (definite : Bool) (count : Nat) (hcount : definite = true → fields.length = count * max D 1)
    (hlt : definite = true → count * max D 1 < wordSize)
    (hpar : fields.length % D = 0) (make : List Item → Item) (st : Nat) (r : Bytes) :
    withSeries D (if definite then some count else none)
        (walkItems D nested true >>= fun p => pure (make p.1, p.2))
        ⟨st, fields.flatten ++ ((if definite then [] else [0xFF]) ++ r)⟩ =
      .ok ((make items, true), ⟨st + fields.flatten.length +
        (if definite then ([] : Bytes) else [0xFF]).length, r⟩) := by
  have hlen := length_le_flatten (h.imp fun _ _ h => h.2)
  cases definite with
  | true =>
    have hn : Series.itemCount D (some count) = .ok (some fields.length) := by
      rw [Series.itemCount, if_pos (hlt rfl), hcount rfl]
    have hread : List.Forall₂ (fun x e => Reads nested e (x, true)) items fields :=
      h.imp fun _ _ h => h.1
    have hfuel : fields.length < (fields.flatten ++ r).length + 1 := by
      rw [List.length_append]
      omega
    have hwalk : walkItems D nested true ⟨⟨some fields.length, st, 0⟩, fields.flatten ++ r⟩ = _ :=
      walkItems_definite hread (Nat.zero_add _) hfuel [] r
    exact withSeries_closed hn (Scan.bind_eq_of_ok hwalk _)
  | false =>
    have hfuel : fields.length < (fields.flatten ++ 0xFF :: r).length + 1 := by
      rw [List.length_append]
      omega
    have hpar' : (0 + fields.length) % D = 0 := by
      rw [Nat.zero_add]
      exact hpar
    have hwalk : walkItems D nested true ⟨⟨none, st, 0⟩, fields.flatten ++ 0xFF :: r⟩ = _ :=
      walkItems_indefinite hD h hpar' hfuel [] r
    exact withSeries_closed rfl (Scan.bind_eq_of_ok hwalk _)

end

/-! ## Reading streams -/

variable {f : Bytes → Except Error Bytes} {want : Marker → Option Nat}

theorem chunkRound_reads {major : Nat} (hM : major ≤ 5) {b : Bytes}
    (hwant : want (.ofMajor major b.length) = some b.length) (hf : f b = .ok b) {st : Nat}
    (hlen : st + (emitUintMinor major b.length ++ b).length < wordSize) (acc : List Bytes × Bool)
    (r : Bytes) :
    chunkRound want f acc ⟨st, emitUintMinor major b.length ++ b ++ r⟩ =
      .ok (.inl (acc.1 ++ [b], acc.2), ⟨st + (emitUintMinor major b.length ++ b).length, r⟩) := by
  rw [List.length_append] at hlen
  obtain ⟨y, tail, heq, -, hne⟩ := emitUintMinor_cons hM b.length
  have hhead := head_emit hM (show b.length < wordSize by omega) st (b ++ r)
  have hext := extent_reads (show st + (emitUintMinor major b.length).length + b.length <
    wordSize by omega) r
  have hbreak : isBreak y = false := by simpa [isBreak] using hne
  rw [List.append_assoc, chunkRound]
  rw [heq, List.cons_append] at hhead ⊢
  rw [Scan.onNext_cons, hbreak, if_neg Bool.false_ne_true, Scan.bind_eq_of_ok hhead]
  dsimp only
  rw [hwant]
  dsimp only
  rw [← heq, Scan.bind_eq_of_ok hext, hf, List.length_append, Bool.and_true, Nat.add_assoc]
  rfl

theorem chunks_reads {major : Nat} (hM : major ≤ 5) (hwant : ∀ n, want (.ofMajor major n) = some n)
    (hshort : ∀ b x, f b = .error x → x.short = none) {cs : List Bytes}
    (hf : ∀ c ∈ cs, f c = .ok c) {st : Nat}
    (hlen : st + (cs.flatMap fun c => emitUintMinor major c.length ++ c).length < wordSize)
    (acc : List Bytes) (r : Bytes) :
    Scan.loop .tooBig (chunkRound want f) (acc, true)
        ⟨st, cs.flatMap (fun c => emitUintMinor major c.length ++ c) ++ 0xFF :: r⟩ =
      .ok ((acc ++ cs, true),
        ⟨st + (cs.flatMap fun c => emitUintMinor major c.length ++ c).length + 1, r⟩) := by
  have hp : Scan.Progress (chunkRound want f) := chunkRound_progress hshort
  induction cs generalizing acc st with
  | nil =>
    rw [List.append_nil]
    exact Scan.loop_of_stop hp rfl
  | cons c cs ih =>
    rw [List.flatMap_cons, List.length_append] at hlen
    have hround := chunkRound_reads hM (hwant c.length) (hf c List.mem_cons_self)
      (show st + (emitUintMinor major c.length ++ c).length < wordSize by omega) (acc, true)
      (cs.flatMap (fun c => emitUintMinor major c.length ++ c) ++ 0xFF :: r)
    rw [List.flatMap_cons, List.append_assoc, Scan.loop_of_continue hp hround,
      ih (fun c hc => hf c (List.mem_cons_of_mem _ hc)) (by omega)]
    simp [Nat.add_assoc]

theorem emitStream_append (major : Nat) (cs : List Bytes) (r : Bytes) :
    emitStream major cs ++ r = [markerByte major 31] ++
      (cs.flatMap (fun c => emitUintMinor major c.length ++ c) ++ 0xFF :: r) := by
  simp [emitStream]

theorem stream_reads {major : Nat} (hM : major ≤ 5) (hwant : ∀ n, want (.ofMajor major n) = some n)
    (hshort : ∀ b x, f b = .error x → x.short = none) {cs : List Bytes}
    (hf : ∀ c ∈ cs, f c = .ok c) {st : Nat} (hlen : st + (emitStream major cs).length < wordSize)
    (r : Bytes) :
    chunks want f true ⟨st + [markerByte major 31].length,
        cs.flatMap (fun c => emitUintMinor major c.length ++ c) ++ 0xFF :: r⟩ =
      .ok ((cs, true), ⟨st + (emitStream major cs).length, r⟩) := by
  have hsize : (emitStream major cs).length =
      1 + (cs.flatMap fun c => emitUintMinor major c.length ++ c).length + 1 := by
    simp [emitStream, Nat.add_comm]
  have hread := chunks_reads hM hwant hshort hf
    (show st + 1 + (cs.flatMap fun c => emitUintMinor major c.length ++ c).length < wordSize by
      omega) [] r
  rw [hsize, ← Nat.add_assoc, ← Nat.add_assoc]
  exact hread

/-! ## Reading items -/

section

variable {nested : Dec Error (Item × Bool)} {tags : List Nat}

def Walked (nested : Dec Error (Item × Bool)) (tags : List Nat) (e : Bytes) (x : Item) : Prop :=
  ∀ r, parseValue (walkValue nested) ⟨0, tagBytes tags ++ (e ++ r)⟩ =
    .ok ((tagAll tags x, true), ⟨(tagBytes tags).length + e.length, r⟩)

theorem walked_integer (ht : ∀ t ∈ tags, t < wordSize) {v : Int}
    (hv : -wordSize ≤ v ∧ v < wordSize) : Walked nested tags (emitInt v) (.integer v) := by
  intro r
  rw [emitInt]
  split
  · next h0 =>
      have hhead := head_tags ht (heads_emit (Nat.zero_le 5)
        (show v.toNat < wordSize by omega)) 0 r
      rw [parseValue, Scan.bind_eq_of_ok (lift_ok hhead), Nat.zero_add]
      show Except.ok ((tagAll tags (.integer (v.toNat : Int)), true), _) = _
      rw [Int.toNat_of_nonneg h0]
  · next h0 =>
      have hhead := head_tags ht (heads_emit (show 1 ≤ 5 by decide)
        (show v.natAbs - 1 < wordSize by omega)) 0 r
      rw [parseValue, Scan.bind_eq_of_ok (lift_ok hhead), Nat.zero_add]
      show Except.ok ((tagAll tags (.integer (-1 - ((v.natAbs - 1 : Nat) : Int))), true), _) = _
      rw [show -1 - ((v.natAbs - 1 : Nat) : Int) = v by omega]

theorem walked_bytes (ht : ∀ t ∈ tags, t < wordSize) {b : Bytes}
    (hlen : (tagBytes tags).length + (emitBytes b).length < wordSize) :
    Walked nested tags (emitBytes b) (.bytes b) := by
  intro r
  rw [emitBytes, List.length_append] at hlen
  have hhead := head_tags ht (heads_emit (show 2 ≤ 5 by decide)
    (show b.length < wordSize by omega)) 0 (b ++ r)
  rw [Nat.zero_add] at hhead
  have hend : (tagBytes tags).length + (emitUintMinor 2 b.length).length + b.length < wordSize := by
    omega
  have hext := extent_reads hend r
  rw [parseValue, emitBytes, List.append_assoc, Scan.bind_eq_of_ok (lift_ok hhead)]
  show ((Scan.look id : Dec Error Nat) >>= _) _ = _
  rw [Scan.bind_apply, Scan.look]
  dsimp only
  rw [Scan.bind_eq_of_ok (lift_ok hext), List.length_append, ← Nat.add_assoc]
  rfl

theorem walked_text (ht : ∀ t ∈ tags, t < wordSize) {t : Bytes} (hutf : validUtf8 t = true)
    (hlen : (tagBytes tags).length + (emitString t).length < wordSize) :
    Walked nested tags (emitString t) (.text t) := by
  intro r
  rw [emitString, List.length_append] at hlen
  have hhead := head_tags ht (heads_emit (show 3 ≤ 5 by decide)
    (show t.length < wordSize by omega)) 0 (t ++ r)
  rw [Nat.zero_add] at hhead
  have hend : (tagBytes tags).length + (emitUintMinor 3 t.length).length + t.length < wordSize := by
    omega
  have hext := extent_reads hend r
  have hutf' : fromUtf8 t = .ok t := if_pos hutf
  rw [parseValue, emitString, List.append_assoc, Scan.bind_eq_of_ok (lift_ok hhead)]
  show ((lift (extent t.length) : Dec Error Bytes) >>= _) _ = _
  rw [Scan.bind_eq_of_ok (lift_ok hext), hutf', Scan.bind_eq_of_ok (lift_ok rfl),
    List.length_append, ← Nat.add_assoc]
  rfl

theorem walked_byteStream (ht : ∀ t ∈ tags, t < wordSize) {cs : List Bytes}
    (hlen : (tagBytes tags).length + (emitStream 2 cs).length < wordSize) :
    Walked nested tags (emitStream 2 cs) (.byteStream cs) := by
  intro r
  have hhead := head_tags ht (heads_indefinite (show 2 ≤ 2 by decide) (by decide)) 0
    (cs.flatMap (fun c => emitUintMinor 2 c.length ++ c) ++ 0xFF :: r)
  have hchunks : chunks Marker.bytesLen .ok true _ = _ :=
    stream_reads (by decide) (fun _ => rfl) (fun _ _ h => by cases h) (fun _ _ => rfl) hlen r
  rw [parseValue, emitStream_append, Scan.bind_eq_of_ok (lift_ok hhead), Nat.zero_add]
  exact Scan.bind_eq_of_ok (lift_ok hchunks) _

theorem walked_textStream (ht : ∀ t ∈ tags, t < wordSize) {cs : List Bytes}
    (hutf : ∀ c ∈ cs, validUtf8 c = true)
    (hlen : (tagBytes tags).length + (emitStream 3 cs).length < wordSize) :
    Walked nested tags (emitStream 3 cs) (.textStream cs) := by
  intro r
  have hhead := head_tags ht (heads_indefinite (show 2 ≤ 3 by decide) (by decide)) 0
    (cs.flatMap (fun c => emitUintMinor 3 c.length ++ c) ++ 0xFF :: r)
  have hshort : ∀ b x, fromUtf8 b = .error x → x.short = none := by
    intro b x h
    rw [fromUtf8] at h
    split at h <;> cases h
    rfl
  have hchunks : chunks Marker.textLen fromUtf8 true _ = _ :=
    stream_reads (by decide) (fun _ => rfl) hshort (fun c hc => if_pos (hutf c hc)) hlen r
  rw [parseValue, emitStream_append, Scan.bind_eq_of_ok (lift_ok hhead), Nat.zero_add]
  exact Scan.bind_eq_of_ok (lift_ok hchunks) _

theorem walked_bool (ht : ∀ t ∈ tags, t < wordSize) (b : Bool) :
    Walked nested tags (emitBool b) (.bool b) := by
  intro r
  cases b with
  | false =>
    have hhead := head_tags ht heads_false 0 r
    rw [emitBool, parseValue]
    refine (Scan.bind_eq_of_ok (lift_ok hhead) _).trans ?_
    rw [Nat.zero_add]
    rfl
  | true =>
    have hhead := head_tags ht heads_true 0 r
    rw [emitBool, parseValue]
    refine (Scan.bind_eq_of_ok (lift_ok hhead) _).trans ?_
    rw [Nat.zero_add]
    rfl

theorem walked_undefined (ht : ∀ t ∈ tags, t < wordSize) :
    Walked nested tags [0xF7] .undefined := by
  intro r
  have hhead := head_tags ht heads_undefined 0 r
  rw [parseValue]
  refine (Scan.bind_eq_of_ok (lift_ok hhead) _).trans ?_
  rw [Nat.zero_add]
  rfl

theorem emitSequence_parts {D count : Nat} {definite : Bool}
    (h : emitSequence D (if definite then some count else none) fields = some e)
    (hcount : count < wordSize) :
    ∃ head, Heads head (if definite then .ofMajor (Sequence.major D) count
        else .ofIndefinite (Sequence.major D)) ∧
      e = head ++ (fields.flatten ++ if definite then [] else [0xFF]) ∧
      (definite = true → fields.length = count * D % wordSize) := by
  have hmajor : Sequence.major D = 4 ∨ Sequence.major D = 5 := by
    rw [Sequence.major]
    split <;> simp
  cases definite with
  | true =>
    obtain ⟨hlen, rfl⟩ := emitSequence_definite h
    exact ⟨_, heads_emit (by omega) hcount, by simp, fun _ => hlen⟩
  | false =>
    rw [emitSequence_indefinite h]
    exact ⟨_, heads_indefinite (by omega) (by omega), rfl, nofun⟩

theorem emitSequence_length {D : Nat} {count : Option Nat}
    (h : emitSequence D count fields = some e) : fields.flatten.length < e.length := by
  cases count with
  | none =>
    rw [emitSequence_indefinite h, List.length_cons, List.length_append]
    omega
  | some count =>
    have hpos : 0 < (emitUintMinor (Sequence.major D) count).length := by
      rw [emitUintMinor]
      repeat' split
      all_goals simp
    rw [(emitSequence_definite h).2, List.length_append]
    omega

theorem walked_array (ht : ∀ t ∈ tags, t < wordSize) {definite : Bool}
    (h : List.Forall₂ (fun x e => Reads nested e (x, true) ∧ Opens e) items fields)
    (he : emitSequence 1 (if definite then some items.length else none) fields = some e)
    (hlen : e.length < wordSize) : Walked nested tags e (.array definite items) := by
  intro r
  have hfields := h.length_eq
  have hle := (length_le_flatten (h.imp fun _ _ h => h.2)).trans_lt (emitSequence_length he)
  obtain ⟨head, hhead, rfl, -⟩ := emitSequence_parts he (by omega)
  have hcount : fields.length = items.length * max 1 1 := by
    rw [hfields]
    exact (Nat.mul_one _).symm
  have hseries := withSeries_walk Nat.one_pos h definite items.length (fun _ => hcount)
    (fun _ => by rw [← hcount]; omega) (Nat.mod_one _)
    (fun xs => tagAll tags (.array definite xs)) ((tagBytes tags).length + head.length) r
  rw [parseValue, List.append_assoc, List.append_assoc,
    Scan.bind_eq_of_ok (lift_ok (head_tags ht hhead 0 _)), Nat.zero_add]
  simp only [List.length_append, ← Nat.add_assoc] at hseries ⊢
  cases definite with
  | true => exact hseries
  | false => exact hseries

theorem walked_map (ht : ∀ t ∈ tags, t < wordSize) {definite : Bool}
    (h : List.Forall₂ (fun x e => Reads nested e (x, true) ∧ Opens e) items fields)
    (heven : items.length % 2 = 0)
    (he : emitSequence 2 (if definite then some (items.length / 2) else none) fields = some e)
    (hlen : e.length < wordSize) : Walked nested tags e (.map definite items) := by
  intro r
  have hfields := h.length_eq
  have hle := (length_le_flatten (h.imp fun _ _ h => h.2)).trans_lt (emitSequence_length he)
  obtain ⟨head, hhead, rfl, -⟩ := emitSequence_parts he (by omega)
  have hpairs : fields.length = items.length / 2 * max 2 1 := by
    rw [Nat.max_eq_left (by decide)]
    omega
  have hseries := withSeries_walk Nat.two_pos h definite (items.length / 2) (fun _ => hpairs)
    (fun _ => by rw [← hpairs]; omega) (by omega)
    (fun xs => tagAll tags (.map definite xs)) ((tagBytes tags).length + head.length) r
  rw [parseValue, List.append_assoc, List.append_assoc,
    Scan.bind_eq_of_ok (lift_ok (head_tags ht hhead 0 _)), Nat.zero_add]
  simp only [List.length_append, ← Nat.add_assoc] at hseries ⊢
  cases definite with
  | true => exact hseries
  | false => exact hseries

end

/-! ## Trees -/

theorem emitItems_read {nested : Dec Error (Item × Bool)} {n : Nat}
    (hn : ∀ y e, y.Valid → y.emit = some e → e.length < wordSize → e.length < n →
      Reads nested e (y, true)) (hx : ValidItems items)
    (h : emitItems items = some fields) (hlen : fields.flatten.length < wordSize)
    (hlt : fields.flatten.length < n) :
    List.Forall₂ (fun x e => Reads nested e (x, true) ∧ Opens e) items fields := by
  have hall := emitItems_forall h
  clear h
  induction hall with
  | nil => exact .nil
  | @cons x e items fields he _ ih =>
    rw [ValidItems] at hx
    rw [List.flatten_cons, List.length_append] at hlen hlt
    exact .cons ⟨hn x e hx.1 he (by omega) (by omega), Item.emit_opens he⟩
      (ih hx.2 (by omega) (by omega))

theorem tagBytes_concat (tags : List Nat) (tag : Nat) :
    tagBytes (tags ++ [tag]) = tagBytes tags ++ emitUintMinor 6 tag := by
  simp [tagBytes]

/-- An item is read back behind any tags, given that the items in it are. -/
theorem Item.walked {nested : Dec Error (Item × Bool)} {n : Nat}
    (hn : ∀ y e, y.Valid → y.emit = some e → e.length < wordSize → e.length < n →
      Reads nested e (y, true)) :
    (x : Item) → x.Valid → ∀ (tags : List Nat) (e : Bytes), (∀ t ∈ tags, t < wordSize) →
      x.emit = some e → (tagBytes tags).length + e.length < wordSize → e.length ≤ n →
      Walked nested tags e x
  | .integer v, hx, tags, e, ht, he, _, _ => by
      rw [emit] at he
      rw [Valid] at hx
      obtain rfl := Option.some.inj he
      exact walked_integer ht hx
  | .bool b, _, tags, e, ht, he, _, _ => by
      rw [emit] at he
      obtain rfl := Option.some.inj he
      exact walked_bool ht b
  | .undefined, _, tags, e, ht, he, _, _ => by
      rw [emit] at he
      obtain rfl := Option.some.inj he
      exact walked_undefined ht
  | .bytes b, _, tags, e, ht, he, hlen, _ => by
      rw [emit] at he
      obtain rfl := Option.some.inj he
      exact walked_bytes ht hlen
  | .byteStream cs, _, tags, e, ht, he, hlen, _ => by
      rw [emit] at he
      obtain rfl := Option.some.inj he
      exact walked_byteStream ht hlen
  | .text t, hx, tags, e, ht, he, hlen, _ => by
      rw [emit] at he
      rw [Valid] at hx
      obtain rfl := Option.some.inj he
      exact walked_text ht hx hlen
  | .textStream cs, hx, tags, e, ht, he, hlen, _ => by
      rw [emit] at he
      rw [Valid] at hx
      obtain rfl := Option.some.inj he
      exact walked_textStream ht hx hlen
  | .array definite items, hx, tags, e, ht, he, hlen, hle => by
      rw [emit] at he
      rw [Valid] at hx
      obtain ⟨fields, hfields, he⟩ := Option.bind_eq_some_iff.mp he
      have hlt := emitSequence_length he
      exact walked_array ht (emitItems_read hn hx hfields (by omega) (by omega)) he (by omega)
  | .map definite items, hx, tags, e, ht, he, hlen, hle => by
      rw [emit] at he
      rw [Valid] at hx
      obtain ⟨fields, hfields, he⟩ := Option.bind_eq_some_iff.mp he
      have hlt := emitSequence_length he
      exact walked_map ht (emitItems_read hn hx.2 hfields (by omega) (by omega)) hx.1 he (by omega)
  | .tagged tag item, hx, tags, e, ht, he, hlen, hle => by
      rw [emit] at he
      rw [Valid] at hx
      obtain ⟨e, hitem, he⟩ := Option.bind_eq_some_iff.mp he
      obtain rfl := Option.some.inj he
      rw [List.length_append] at hlen hle
      have hall : ∀ t ∈ tags ++ [tag], t < wordSize := by
        intro t hmem
        rcases List.mem_append.mp hmem with hmem | hmem
        · exact ht t hmem
        · rw [List.mem_singleton.mp hmem]
          exact hx.1
      intro r
      -- the tag joins the ones in front of it
      have hitem := Item.walked hn item hx.2 (tags ++ [tag]) e hall hitem
        (by rw [tagBytes_concat, List.length_append]; omega) (by omega) r
      rw [tagBytes_concat, List.append_assoc, List.length_append] at hitem
      rw [List.append_assoc, hitem, List.length_append, ← Nat.add_assoc]
      simp [tagAll]

theorem walk_reads (n : Nat) : ∀ (x : Item) (e : Bytes), x.Valid → x.emit = some e →
    e.length < wordSize → e.length ≤ n → Reads (walk n) e (x, true) := by
  induction n with
  | zero =>
    intro x e _ he _ hle
    obtain ⟨b, tail, rfl, -⟩ := Item.emit_opens he
    cases hle
  | succ n ih =>
    intro x e hx he hlen hle r
    have hnested : ∀ y e, y.Valid → y.emit = some e → e.length < wordSize → e.length < n + 1 →
        Reads (walk n) e (y, true) :=
      fun y e hy he hlen hlt => ih y e hy he hlen (Nat.lt_succ_iff.mp hlt)
    have := Item.walked hnested x hx [] e (by simp) he
      (by rw [show (tagBytes []).length = 0 from rfl]; omega) hle r
    simpa [tagBytes, tagAll, walk] using this

/-- What the encoder writes for an item is walked to the same item: every head
in its shortest form, every byte of it and none behind it. -/
theorem walk_emit {x : Item} (hx : x.Valid) {e : Bytes} (he : x.emit = some e)
    (hlen : e.length < wordSize) {n : Nat} (hn : e.length ≤ n) (r : Bytes) :
    walk n ⟨0, e ++ r⟩ = .ok ((x, true), ⟨e.length, r⟩) :=
  walk_reads n x e hx he hlen hn r

/-- `24([_ -20, {"a": (_ h'01', h'0203')}, true, undefined])` -/
def nestedItem : Item :=
  .tagged 24 (.array false [.integer (-20), .map true [.text [0x61], .byteStream [[1], [2, 3]]],
    .bool true, .undefined])

theorem nestedItem_walk : ∃ e, nestedItem.emit = some e ∧
    ∀ r, walk e.length ⟨0, e ++ r⟩ = .ok ((nestedItem, true), ⟨e.length, r⟩) := by
  refine ⟨_, rfl, walk_emit ?_ rfl (by decide) le_rfl⟩
  simp [nestedItem, Item.Valid, ValidItems, wordSize, validUtf8]

end Hardy.Cbor
