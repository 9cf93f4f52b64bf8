import Mathlib.Tactic.IntervalCases
import Hardy.Scan

/-!
# CBOR item heads

Model of `cbor/src/decode/head.rs`: the head of one data item is a run of
tags, a marker byte and up to eight bytes of argument.  `Head.fromCbor`
follows the source in reading nine bytes at once when it can and falling
back to single reads near the end of the slice.  `Head.fromCbor_eq` shows
that both readings are the plain loop `readHead`, which is what every later
proof works with.
-/

namespace Hardy

abbrev Bytes := List UInt8

/-- Sizes and offsets are `usize` and `u64`, both of 64 bits. -/
def wordSize : Nat := 2 ^ 64

namespace Cbor

/-- The payload-free shape of an item. -/
inductive ItemKind where
  | unsignedInteger
  | negativeInteger
  | definiteBytes
  | indefiniteBytes
  | definiteText
  | indefiniteText
  | definiteArray
  | indefiniteArray
  | definiteMap
  | indefiniteMap
  | false
  | true
  | null
  | undefined
  | simple (v : Nat)
  | float
deriving DecidableEq, Repr

structure ItemType where
  tagged : Bool
  kind : ItemKind
deriving DecidableEq, Repr

/-- `cbor::decode::Error`.  The standard library's own error values inside
`InvalidUtf8` and `TryFromIntError` are dropped: nothing reads them. -/
inductive Error where
  | tooBig
  | needMoreData (n : Nat)
  | additionalItems
  | noMoreItems
  | invalidMinorValue (minor : Nat)
  | incorrectType (expected : String) (found : ItemType)
  | unexpectedTag
  | invalidChunk
  | invalidSimpleType (v : Nat)
  | partialMap
  | maxRecursion
  | invalidUtf8
  | tryFromIntError
  | precisionLoss
deriving DecidableEq, Repr

def Error.short : Error → Option Nat
  | .needMoreData n => some n
  | _ => none

/-- Error types that CBOR errors convert into, with the truncation an error
stands for.  Conversion loses no truncation. -/
class FromCborError (ε : Type) where
  ofCbor : Error → ε
  needMore : ε → Option Nat
  needMore_ofCbor : ∀ x, needMore (ofCbor x) = x.short

export FromCborError (ofCbor needMore needMore_ofCbor)

attribute [simp] needMore_ofCbor

instance : FromCborError Error where
  ofCbor x := x
  needMore := Error.short
  needMore_ofCbor _ := rfl

/-- A float as it stands on the wire: its width in bytes and its bits. -/
structure FloatBits where
  width : Nat
  bits : Nat
deriving DecidableEq, Repr

inductive Marker where
  | unsignedInteger (v : Nat)
  | negativeInteger (v : Nat)
  | bytes (len : Option Nat)
  | text (len : Option Nat)
  | array (count : Option Nat)
  | map (count : Option Nat)
  | false
  | true
  | null
  | undefined
  | simple (v : Nat)
  | float (v : FloatBits)
deriving DecidableEq, Repr

def Marker.itemKind : Marker → ItemKind
  | .unsignedInteger _ => .unsignedInteger
  | .negativeInteger _ => .negativeInteger
  | .bytes (some _) => .definiteBytes
  | .bytes none => .indefiniteBytes
  | .text (some _) => .definiteText
  | .text none => .indefiniteText
  | .array (some _) => .definiteArray
  | .array none => .indefiniteArray
  | .map (some _) => .definiteMap
  | .map none => .indefiniteMap
  | .false => .false
  | .true => .true
  | .null => .null
  | .undefined => .undefined
  | .simple v => .simple v
  | .float _ => .float

structure Head where
  tags : List Nat
  marker : Marker
deriving DecidableEq, Repr

def Head.itemType (h : Head) : ItemType :=
  { tagged := !h.tags.isEmpty, kind := h.marker.itemKind }

/-- A decoder of one item: its state is the offset into the slice it was
given. -/
abbrev Dec (ε α : Type) := Scan ε UInt8 Nat α

/-- The `?` that converts a CBOR error. -/
def lift {ε σ α : Type} [FromCborError ε] (m : Scan Error UInt8 σ α) : Scan ε UInt8 σ α :=
  Scan.mapErr ofCbor m

theorem lift_ok {ε σ α : Type} [FromCborError ε] {m : Scan Error UInt8 σ α}
    {c c' : Cursor UInt8 σ} {a : α} (h : m c = .ok (a, c')) :
    (lift m : Scan ε UInt8 σ α) c = .ok (a, c') :=
  Scan.mapErr_ok.mpr h

def byte : Dec Error UInt8 := Scan.next (· + ·) (.needMoreData 1)

def takeBytes (n : Nat) : Dec Error Bytes := Scan.take (· + ·) .needMoreData n

@[simp] theorem byte_nil (st : Nat) : byte ⟨st, []⟩ = .error (.needMoreData 1) := rfl

@[simp] theorem byte_cons (st : Nat) (b : UInt8) (rest : Bytes) :
    byte ⟨st, b :: rest⟩ = .ok (b, ⟨st + 1, rest⟩) := rfl

/-- `marker >> 5` -/
def majorOf (m : UInt8) : Nat := m.toNat / 32

/-- `marker & 0x1F` -/
def minorOf (m : UInt8) : Nat := m.toNat % 32

/-- `from_be_bytes` -/
def beNat (b : Bytes) : Nat := b.foldl (fun acc x => acc * 256 + x.toNat) 0

/-! ## Arguments -/

def toArray (n : Nat) (data : Bytes) : Except Error Bytes :=
  if data.length < n then .error (.needMoreData (n - data.length)) else .ok (data.take n)

/-- `parse_uint_minor`: the argument of a marker, whether its encoding was
the shortest one, and its length. -/
def parseUintMinor (minor : Nat) (data : Bytes) : Except Error (Nat × Bool × Nat) :=
  match minor with
  | 24 =>
    match data with
    | val :: _ => .ok (val.toNat, val.toNat > 23, 1)
    | [] => .error (.needMoreData 1)
  | 25 => do
      let v := beNat (← toArray 2 data)
      pure (v, v > 255, 2)
  | 26 => do
      let v := beNat (← toArray 4 data)
      pure (v, v > 65535, 4)
  | 27 => do
      let v := beNat (← toArray 8 data)
      pure (v, v > 4294967295, 8)
  | val => if val < 24 then .ok (val, true, 0) else .error (.invalidMinorValue minor)

/-- `parse_uint_minor_fast`: the same on eight bytes known to be there. -/
def parseUintMinorFast (minor : Nat) (b0 b1 b2 b3 b4 b5 b6 b7 : UInt8) :
    Except Error (Nat × Bool × Nat) :=
  if minor < 24 then .ok (minor, true, 0)
  else
    match minor with
    | 24 => .ok (b0.toNat, b0.toNat > 23, 1)
    | 25 => let v := beNat [b0, b1]; .ok (v, v > 255, 2)
    | 26 => let v := beNat [b0, b1, b2, b3]; .ok (v, v > 65535, 4)
    | 27 => let v := beNat [b0, b1, b2, b3, b4, b5, b6, b7]; .ok (v, v > 4294967295, 8)
    | _ => .error (.invalidMinorValue minor)

/-! ## Floats

Whether a float could have been written in fewer bytes.  `m * 2 ^ e` with
`m` odd fits a format of `p` significant bits whose smallest quantum is
`2 ^ emin` and whose values stay below `2 ^ emax`. -/

/-- Strip factors of two off `m`, counting them into `e`. -/
def oddPart : Nat → Nat → Int → Nat × Int
  | 0, m, e => (m, e)
  | k + 1, m, e => if m % 2 = 0 then oddPart k (m / 2) (e + 1) else (m, e)

def fitsFormat (p : Nat) (emin emax : Int) (m : Nat) (e : Int) : Bool :=
  let (m, e) := oddPart 64 m e
  m < 2 ^ p && emin ≤ e && (Nat.log2 m + 1 : Int) + e ≤ emax

/-- A finite non-zero float of the format with `f` fraction bits and `x`
exponent bits, as `m * 2 ^ e`. -/
def scaled (f x bits : Nat) : Nat × Int :=
  let frac := bits % 2 ^ f
  let ex := bits / 2 ^ f % 2 ^ x
  let bias : Int := 2 ^ (x - 1) - 1
  if ex = 0 then (frac, 1 - bias - f) else (2 ^ f + frac, ex - bias - f)

/-- `v.classify()` is NaN, infinite or zero. -/
def isSpecial (f x bits : Nat) : Bool :=
  bits / 2 ^ f % 2 ^ x = 2 ^ x - 1 || bits % 2 ^ (f + x) = 0

/-- The FP32 value has no exact FP16 form. -/
def fp32Shortest (bits : Nat) : Bool :=
  !isSpecial 23 8 bits && !(let (m, e) := scaled 23 8 bits; fitsFormat 11 (-24) 16 m e)

/-- The FP64 value has no exact FP32 form (`f32::from_f64` always succeeds,
so the source's further FP16 test is never reached). -/
def fp64Shortest (bits : Nat) : Bool :=
  !isSpecial 52 11 bits && !(let (m, e) := scaled 52 11 bits; fitsFormat 24 (-149) 128 m e)

/-! ## The head -/

def Marker.ofMajor (major v : Nat) : Marker :=
  match major with
  | 0 => .unsignedInteger v
  | 1 => .negativeInteger v
  | 2 => .bytes (some v)
  | 3 => .text (some v)
  | 4 => .array (some v)
  | _ => .map (some v)

def Marker.ofIndefinite (major : Nat) : Marker :=
  match major with
  | 2 => .bytes none
  | 3 => .text none
  | 4 => .array none
  | _ => .map none

/-- One round of `parse_tags`. -/
def tagRound (acc : List Nat × Bool) : Dec Error ((List Nat × Bool) ⊕ (List Nat × Bool)) :=
  fun c =>
    match c.rest with
    | marker :: b0 :: b1 :: b2 :: b3 :: b4 :: b5 :: b6 :: b7 :: _ =>
      if majorOf marker = 6 then do
        let (tag, s, o) ← parseUintMinorFast (minorOf marker) b0 b1 b2 b3 b4 b5 b6 b7
        .ok (.inl (acc.1 ++ [tag], acc.2 && s), ⟨c.st + 1 + o, c.rest.drop (1 + o)⟩)
      else .ok (.inr acc, c)
    | marker :: rest =>
      if majorOf marker = 6 then do
        let (tag, s, o) ← parseUintMinor (minorOf marker) rest
        .ok (.inl (acc.1 ++ [tag], acc.2 && s), ⟨c.st + 1 + o, rest.drop o⟩)
      else .ok (.inr acc, c)
    | [] => .ok (.inr acc, c)

def parseTags : Dec Error (List Nat × Bool) := Scan.loop .tooBig tagRound ([], true)

/-- `parse_uint_minor` at the cursor, moving past what it read. -/
def argument (minor : Nat) : Dec Error (Nat × Bool) := fun c => do
  let (v, s, len) ← parseUintMinor minor c.rest
  .ok ((v, s), ⟨c.st + len, c.rest.drop len⟩)

/-- The match on `(major, minor)` that reads an argument byte by byte.
Major type 6 does not get here: the tags have been consumed. -/
def slowMarker (marker : UInt8) (shortest : Bool) : Dec Error (Marker × Bool) :=
  let arg (f : Nat → Marker) : Dec Error (Marker × Bool) := do
    let (v, s) ← argument (minorOf marker)
    pure (f v, shortest && s)
  match majorOf marker, minorOf marker with
  | 0, _ => arg .unsignedInteger
  | 1, _ => arg .negativeInteger
  | 2, 31 => pure (.bytes none, shortest)
  | 2, _ => arg fun v => .bytes (some v)
  | 3, 31 => pure (.text none, shortest)
  | 3, _ => arg fun v => .text (some v)
  | 4, 31 => pure (.array none, shortest)
  | 4, _ => arg fun v => .array (some v)
  | 5, 31 => pure (.map none, shortest)
  | 5, _ => arg fun v => .map (some v)
  | _, 20 => pure (.false, shortest)
  | _, 21 => pure (.true, shortest)
  | _, 22 => pure (.null, shortest)
  | _, 23 => pure (.undefined, shortest)
  | _, 24 => do
      let v ← byte
      if v.toNat < 32 then throw (.invalidSimpleType v.toNat)
      else pure (.simple v.toNat, shortest)
  | _, 25 => do
      let v ← takeBytes 2
      pure (.float ⟨2, beNat v⟩, shortest)
  | _, 26 => do
      let v ← takeBytes 4
      pure (.float ⟨4, beNat v⟩, shortest && fp32Shortest (beNat v))
  | _, 27 => do
      let v ← takeBytes 8
      pure (.float ⟨8, beNat v⟩, shortest && fp64Shortest (beNat v))
  | _, minor =>
    if minor < 20 then pure (.simple minor, shortest)
    else throw (.invalidSimpleType minor)

/-- The marker after the tags, with the nine-byte fast path. -/
def parseMarker (shortest : Bool) : Dec Error (Marker × Bool) := fun c =>
  match c.rest with
  | marker :: b0 :: b1 :: b2 :: b3 :: b4 :: b5 :: b6 :: b7 :: rest =>
    let major := majorOf marker
    let minor := minorOf marker
    if major ≤ 5 then
      if minor = 31 ∧ 2 ≤ major then
        .ok ((.ofIndefinite major, shortest), ⟨c.st + 1, c.rest.drop 1⟩)
      else do
        let (v, s, len) ← parseUintMinorFast minor b0 b1 b2 b3 b4 b5 b6 b7
        .ok ((.ofMajor major v, shortest && s), ⟨c.st + 1 + len, c.rest.drop (1 + len)⟩)
    else
      slowMarker marker shortest
        ⟨c.st + 1, b0 :: b1 :: b2 :: b3 :: b4 :: b5 :: b6 :: b7 :: rest⟩
  | marker :: rest => slowMarker marker shortest ⟨c.st + 1, rest⟩
  | [] => .error (.needMoreData 1)

def Head.fromCbor : Dec Error (Head × Bool) := do
  let (tags, shortest) ← parseTags
  let (marker, shortest) ← parseMarker shortest
  pure (⟨tags, marker⟩, shortest)

/-! ## The head as a plain loop -/

/-- The bytes of argument a minor value announces and the largest value a
shorter form could have carried. -/
def argSize : Nat → Option (Nat × Nat)
  | 24 => some (1, 23)
  | 25 => some (2, 255)
  | 26 => some (4, 65535)
  | 27 => some (8, 4294967295)
  | _ => none

theorem parseUintMinor_eq (minor : Nat) (data : Bytes) :
    parseUintMinor minor data =
      if minor < 24 then .ok (minor, true, 0)
      else match argSize minor with
        | some (n, lim) =>
          (toArray n data).map fun b => (beNat b, decide (beNat b > lim), n)
        | none => .error (.invalidMinorValue minor) := by
  rw [parseUintMinor.eq_def]
  split
  · cases data with
    | nil => rfl
    | cons b data => simp [argSize, toArray, beNat, Except.map]
  · cases h : toArray 2 data <;> simp [argSize, h, Except.map, bind, Except.bind, pure,
      Except.pure]
  · cases h : toArray 4 data <;> simp [argSize, h, Except.map, bind, Except.bind, pure,
      Except.pure]
  · cases h : toArray 8 data <;> simp [argSize, h, Except.map, bind, Except.bind, pure,
      Except.pure]
  · next h24 h25 h26 h27 =>
      simp only [argSize]

theorem parseUintMinorFast_eq (minor : Nat) (b0 b1 b2 b3 b4 b5 b6 b7 : UInt8)
    (rest : Bytes) :
    parseUintMinorFast minor b0 b1 b2 b3 b4 b5 b6 b7 =
      parseUintMinor minor (b0 :: b1 :: b2 :: b3 :: b4 :: b5 :: b6 :: b7 :: rest) := by
  rw [parseUintMinor_eq, parseUintMinorFast.eq_def]
  by_cases h : minor < 24
  · rw [if_pos h, if_pos h]
  · rw [if_neg h, if_neg h]
    have hlen : ∀ n, n ≤ 8 →
        ¬(b0 :: b1 :: b2 :: b3 :: b4 :: b5 :: b6 :: b7 :: rest).length < n := by
      intro n hn
      simp only [List.length_cons]
      omega
    split <;> simp only [argSize, toArray]
    · rw [if_neg (hlen 1 (by decide))]
      simp [Except.map, beNat]
    · rw [if_neg (hlen 2 (by decide))]
      rfl
    · rw [if_neg (hlen 4 (by decide))]
      rfl
    · rw [if_neg (hlen 8 (by decide))]
      rfl

theorem argument_eq (minor : Nat) :
    argument minor =
      if minor < 24 then pure (minor, true)
      else match argSize minor with
        | some (n, lim) => do
            let v ← takeBytes n
            pure (beNat v, decide (beNat v > lim))
        | none => throw (.invalidMinorValue minor) := by
  funext c
  rw [argument, parseUintMinor_eq]
  by_cases h : minor < 24
  · simp only [if_pos h]
    rfl
  · simp only [if_neg h]
    cases argSize minor with
    | none => rfl
    | some p =>
      obtain ⟨n, lim⟩ := p
      simp only [Scan.bind_apply, takeBytes, Scan.take, toArray]
      split <;> rfl

/-- One marker byte: another tag, or the item's own marker. -/
def headRound (acc : List Nat × Bool) : Dec Error ((List Nat × Bool) ⊕ (Head × Bool)) := do
  let marker ← byte
  if majorOf marker = 6 then
    let (tag, s) ← argument (minorOf marker)
    pure (.inl (acc.1 ++ [tag], acc.2 && s))
  else
    let (marker, s) ← slowMarker marker acc.2
    pure (.inr (⟨acc.1, marker⟩, s))

def readHead : Dec Error (Head × Bool) := Scan.loop .tooBig headRound ([], true)

theorem slowMarker_of_le {marker : UInt8} (h5 : majorOf marker ≤ 5) (shortest : Bool) :
    slowMarker marker shortest =
      if minorOf marker = 31 ∧ 2 ≤ majorOf marker then
        pure (.ofIndefinite (majorOf marker), shortest)
      else
        argument (minorOf marker) >>= fun p =>
          pure (.ofMajor (majorOf marker) p.1, shortest && p.2) := by
  rw [slowMarker.eq_def]
  generalize hM : majorOf marker = major at h5
  by_cases h31 : minorOf marker = 31
  · rw [h31]
    interval_cases major <;> simp [Marker.ofIndefinite, Marker.ofMajor]
  · interval_cases major <;> simp [h31, Marker.ofMajor]

theorem argument_bind {α : Type} (minor st : Nat) (rest : Bytes) (f : Nat → Bool → α) :
    (parseUintMinor minor rest >>= fun p =>
      (.ok (f p.1 p.2.1, ⟨st + p.2.2, rest.drop p.2.2⟩) :
        Except Error (α × Cursor UInt8 Nat))) =
      (argument minor >>= fun p => pure (f p.1 p.2)) ⟨st, rest⟩ := by
  rw [Scan.bind_apply, argument]
  cases parseUintMinor minor rest <;> rfl

theorem parseMarker_eq (shortest : Bool) :
    parseMarker shortest = byte >>= fun marker => slowMarker marker shortest := by
  funext c
  obtain ⟨st, rest⟩ := c
  rw [parseMarker]
  split
  · next marker b0 b1 b2 b3 b4 b5 b6 b7 rest h =>
      cases h
      rw [Scan.bind_eq_of_ok (byte_cons st marker _)]
      by_cases h5 : majorOf marker ≤ 5
      · simp only [if_pos h5]
        rw [slowMarker_of_le h5]
        split
        · rfl
        · rw [parseUintMinorFast_eq _ _ _ _ _ _ _ _ _ rest]
          simp only [Nat.add_comm 1, List.drop_succ_cons]
          exact argument_bind _ _ _ fun v s =>
            (Marker.ofMajor (majorOf marker) v, shortest && s)
      · simp only [if_neg h5]
  · next marker rest _ h =>
      cases h
      rfl
  · next h =>
      cases h
      rfl

theorem tagRound_cons (acc : List Nat × Bool) (st : Nat) (marker : UInt8) (rest : Bytes) :
    tagRound acc ⟨st, marker :: rest⟩ =
      if majorOf marker = 6 then
        (argument (minorOf marker) >>= fun p =>
          pure (Sum.inl (acc.1 ++ [p.1], acc.2 && p.2))) ⟨st + 1, rest⟩
      else .ok (.inr acc, ⟨st, marker :: rest⟩) := by
  rw [tagRound]
  split
  · next marker' b0 b1 b2 b3 b4 b5 b6 b7 rest' h =>
      cases h
      split
      · rw [parseUintMinorFast_eq _ _ _ _ _ _ _ _ _ rest']
        simp only [Nat.add_comm 1, List.drop_succ_cons]
        exact argument_bind _ _ _ fun v s => Sum.inl (acc.1 ++ [v], acc.2 && s)
      · rfl
  · next marker' rest' _ h =>
      cases h
      split
      · exact argument_bind _ _ _ fun v s => Sum.inl (acc.1 ++ [v], acc.2 && s)
      · rfl
  · next h => cases h

/-! ## The contract of the head decoder -/

/-- Item decoders that survive truncation. -/
abbrev Resumes {ε α : Type} [FromCborError ε] (m : Dec ε α) : Prop :=
  Scan.Resumable needMore id m

/-- Item decoders that look at their first byte before anything else. -/
abbrev Starts {ε α : Type} [FromCborError ε] (m : Dec ε α) : Prop :=
  Scan.Hungry needMore m

theorem Resumes.lift {ε α : Type} [FromCborError ε] {m : Dec Error α} (hm : Resumes m) :
    Resumes (lift m : Dec ε α) :=
  .mapErr needMore_ofCbor hm

theorem Starts.lift {ε α : Type} [FromCborError ε] {m : Dec Error α} (hm : Starts m) :
    Starts (lift m : Dec ε α) :=
  .mapErr needMore_ofCbor hm

theorem byte_resumes : Resumes byte :=
  ⟨Scan.next_stepwise (fun _ _ => rfl) rfl, Scan.next_settles _ _⟩

theorem byte_starts : Starts byte :=
  fun _ => ⟨.needMoreData 1, rfl, rfl⟩

theorem takeBytes_resumes (n : Nat) : Resumes (takeBytes n) := by
  refine ⟨Scan.take_stepwise (fun _ _ => ?_) (fun _ => ?_) n, Scan.take_settles _ _ n⟩ <;>
    rfl

theorem argument_resumes (minor : Nat) : Resumes (argument minor) := by
  rw [argument_eq]
  split
  · exact .pure _
  · split
    · exact (takeBytes_resumes _).map _
    · exact .throw rfl

theorem slowMarker_resumes (marker : UInt8) (shortest : Bool) :
    Resumes (slowMarker marker shortest) := by
  rw [slowMarker.eq_def]
  split
  all_goals first
    | exact .pure _
    | exact (argument_resumes _).map _
    | exact (takeBytes_resumes _).map _
    | skip
  · refine byte_resumes.bind fun v => ?_
    split
    · exact .throw rfl
    · exact .pure _
  · split
    · exact .pure _
    · exact .throw rfl

theorem headRound_resumes (acc : List Nat × Bool) : Resumes (headRound acc) := by
  refine byte_resumes.bind fun marker => ?_
  split
  · exact (argument_resumes _).map _
  · exact (slowMarker_resumes _ _).map _

theorem headRound_starts (acc : List Nat × Bool) : Starts (headRound acc) :=
  .bind byte_starts _

theorem headRound_progress : Scan.Progress headRound :=
  fun acc _ _ _ h => (headRound_resumes acc).stepwise.consumes (headRound_starts acc) h

theorem tagRound_progress : Scan.Progress tagRound := by
  rintro acc acc' ⟨st, rest⟩ c' h
  cases rest with
  | nil => cases h
  | cons marker rest =>
    rw [tagRound_cons] at h
    split at h
    · obtain ⟨u, hd, -⟩ := ((argument_resumes _).map _).stepwise.ok h
      rw [hd]
      simp only [List.length_cons, List.length_append]
      omega
    · cases h

theorem parseTags_bind (n : Nat) (acc : List Nat × Bool) (c : Cursor UInt8 Nat)
    (hn : c.rest.length < n) :
    (Scan.loop .tooBig tagRound acc >>= fun p => parseMarker p.2 >>= fun q =>
      pure (Head.mk p.1 q.1, q.2)) c = Scan.loop .tooBig headRound acc c := by
  induction n generalizing acc c with
  | zero => exact absurd hn (Nat.not_lt_zero _)
  | succ n ih =>
    obtain ⟨st, rest⟩ := c
    rw [Scan.loop_unfold headRound_progress]
    cases rest with
    | nil =>
      rw [Scan.bind_eq_of_ok (Scan.loop_of_stop tagRound_progress rfl), parseMarker_eq]
      rfl
    | cons marker rest =>
      rw [headRound, Scan.bind_eq_of_ok (byte_cons st marker rest)]
      by_cases h6 : majorOf marker = 6
      · have htag := tagRound_cons acc st marker rest
        rw [if_pos h6] at htag
        rw [if_pos h6]
        cases harg : argument (minorOf marker) ⟨st + 1, rest⟩ with
        | error x =>
          rw [Scan.bind_eq_of_error harg] at htag ⊢
          rw [Scan.bind_eq_of_error (Scan.loop_of_error tagRound_progress htag)]
        | ok p =>
          obtain ⟨⟨tag, s⟩, c'⟩ := p
          rw [Scan.bind_eq_of_ok harg] at htag ⊢
          have hlt := tagRound_progress _ _ _ _ htag
          rw [Scan.bind_apply, Scan.loop_of_continue tagRound_progress htag,
            ← Scan.bind_apply]
          exact ih _ _ (Nat.lt_of_lt_of_le hlt (Nat.le_of_lt_succ hn))
      · have htag := tagRound_cons acc st marker rest
        rw [if_neg h6] at htag
        rw [if_neg h6, Scan.bind_eq_of_ok (Scan.loop_of_stop tagRound_progress htag),
          parseMarker_eq, Scan.bind_apply, Scan.bind_eq_of_ok (byte_cons st marker rest),
          Scan.bind_apply]
        cases slowMarker marker acc.2 ⟨st + 1, rest⟩ <;> rfl

theorem Head.fromCbor_eq : Head.fromCbor = readHead := by
  funext c
  exact parseTags_bind _ _ c (Nat.lt_succ_self _)

theorem head_starts : Starts Head.fromCbor := by
  intro st
  refine ⟨.needMoreData 1, ?_, rfl⟩
  rw [Head.fromCbor_eq]
  exact Scan.loop_of_error headRound_progress rfl

theorem head_resumes : Resumes Head.fromCbor := by
  rw [Head.fromCbor_eq]
  refine .loop headRound_progress headRound_resumes (fun acc st => ⟨[0], ?_⟩) _
  have hround : headRound acc ⟨st, [0]⟩ =
      .ok (.inr (⟨acc.1, .unsignedInteger 0⟩, acc.2 && true), ⟨st + 1, []⟩) := rfl
  rw [Scan.loop_of_stop headRound_progress hround]
  exact Scan.not_waits_ok _

end Cbor

end Hardy
