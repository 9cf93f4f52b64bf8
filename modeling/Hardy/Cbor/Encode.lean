import Hardy.Cbor.Decode

/-!
# Encoding items

Model of the parts of `cbor/src/encode.rs` that the bundle protocol emits,
and the round trip with the decoders: what an emitter writes, the matching
decoder reads back as canonical, leaving whatever follows.
-/

namespace Hardy.Cbor

def beBytes : Nat → Nat → Bytes
  | 0, _ => []
  | n + 1, v => beBytes n (v / 256) ++ [UInt8.ofNat v]

/-- `(major << 5) | minor` -/
def markerByte (major minor : Nat) : UInt8 := UInt8.ofNat (major * 32 + minor)

def emitUintMinor (major val : Nat) : Bytes :=
  if val < 24 then [markerByte major val]
  else if val < 256 then markerByte major 24 :: beBytes 1 val
  else if val < 65536 then markerByte major 25 :: beBytes 2 val
  else if val < 4294967296 then markerByte major 26 :: beBytes 4 val
  else markerByte major 27 :: beBytes 8 val

def emitUint (v : Nat) : Bytes := emitUintMinor 0 v

def emitBytes (b : Bytes) : Bytes := emitUintMinor 2 b.length ++ b

def emitString (t : Bytes) : Bytes := emitUintMinor 3 t.length ++ t

/-- A definite array of items already encoded.  An item that the source
counts with `skip_value` and appends later is an empty one here. -/
def emitArray (items : List Bytes) : Bytes := emitUintMinor 4 items.length ++ items.flatten

theorem emitArray_two (a b : Bytes) : emitArray [a, b] = emitUintMinor 4 2 ++ (a ++ b) := by
  simp [emitArray]

theorem emitArray_three (a b c : Bytes) :
    emitArray [a, b, c] = emitUintMinor 4 3 ++ (a ++ (b ++ c)) := by
  simp [emitArray]

def emitBool (b : Bool) : Bytes := [if b then 0xF5 else 0xF4]

/-! ## Big-endian numbers -/

@[simp] theorem length_beBytes (n v : Nat) : (beBytes n v).length = n := by
  induction n generalizing v with
  | zero => rfl
  | succ n ih => simp [beBytes, ih]

theorem beNat_concat (l : Bytes) (x : UInt8) : beNat (l ++ [x]) = beNat l * 256 + x.toNat := by
  simp [beNat]

theorem beNat_beBytes (n v : Nat) : beNat (beBytes n v) = v % 256 ^ n := by
  induction n generalizing v with
  | zero => simp [beBytes, beNat, Nat.mod_one]
  | succ n ih =>
    have hsplit : v % 256 ^ (n + 1) = v % 256 + 256 * (v / 256 % 256 ^ n) := by
      rw [Nat.pow_succ', Nat.mod_mul]
    rw [beBytes, beNat_concat, ih, hsplit, UInt8.toNat_ofNat']
    omega

theorem beNat_beBytes_of_lt {n v : Nat} (h : v < 256 ^ n) : beNat (beBytes n v) = v := by
  rw [beNat_beBytes, Nat.mod_eq_of_lt h]

/-! ## Heads -/

theorem majorOf_markerByte {major minor : Nat} (hM : major < 8) (hm : minor < 32) :
    majorOf (markerByte major minor) = major := by
  simp only [majorOf, markerByte, UInt8.toNat_ofNat']
  omega

theorem minorOf_markerByte (major : Nat) {minor : Nat} (hm : minor < 32) :
    minorOf (markerByte major minor) = minor := by
  simp only [minorOf, markerByte, UInt8.toNat_ofNat']
  omega

theorem argument_beBytes {minor n lim v : Nat} (h24 : ¬ minor < 24)
    (hsize : argSize minor = some (n, lim)) (hlim : lim < v) (hv : v < 256 ^ n) (st : Nat)
    (r : Bytes) :
    argument minor ⟨st, beBytes n v ++ r⟩ = .ok ((v, true), ⟨st + n, r⟩) := by
  have htake : takeBytes n ⟨st, beBytes n v ++ r⟩ = .ok (beBytes n v, ⟨st + n, r⟩) := by
    simp only [takeBytes, Scan.take, List.length_append, length_beBytes]
    rw [if_neg (by omega), List.take_left' (length_beBytes n v),
      List.drop_left' (length_beBytes n v)]
  rw [argument_eq, if_neg h24, hsize]
  dsimp only
  rw [Scan.bind_eq_of_ok htake, beNat_beBytes_of_lt hv]
  simp [hlim]

theorem emitUintMinor_spec {v : Nat} (hv : v < wordSize) (major : Nat) :
    ∃ minor tail, minor < 28 ∧ emitUintMinor major v = markerByte major minor :: tail ∧
      ∀ st r, argument minor ⟨st, tail ++ r⟩ = .ok ((v, true), ⟨st + tail.length, r⟩) := by
  rw [emitUintMinor]
  split
  · next h =>
      refine ⟨v, [], by omega, rfl, fun st r => ?_⟩
      rw [argument_eq, if_pos h]
      rfl
  split
  · refine ⟨24, _, by omega, rfl, fun st r => ?_⟩
    rw [length_beBytes, argument_beBytes (by omega) rfl (by omega) (by omega)]
  split
  · refine ⟨25, _, by omega, rfl, fun st r => ?_⟩
    rw [length_beBytes, argument_beBytes (by omega) rfl (by omega) (by omega)]
  split
  · refine ⟨26, _, by omega, rfl, fun st r => ?_⟩
    rw [length_beBytes, argument_beBytes (by omega) rfl (by omega) (by omega)]
  · refine ⟨27, _, by omega, rfl, fun st r => ?_⟩
    rw [length_beBytes, argument_beBytes (by omega) rfl (by omega) hv]

theorem headLoop_emit {major v : Nat} (hM : major ≤ 5) (hv : v < wordSize)
    (acc : List Nat × Bool) (st : Nat) (r : Bytes) :
    Scan.loop .tooBig headRound acc ⟨st, emitUintMinor major v ++ r⟩ =
      .ok ((⟨acc.1, .ofMajor major v⟩, acc.2),
        ⟨st + (emitUintMinor major v).length, r⟩) := by
  obtain ⟨minor, tail, hminor, heq, harg⟩ := emitUintMinor_spec hv major
  have hmaj := majorOf_markerByte (show major < 8 by omega) (show minor < 32 by omega)
  have hmin := minorOf_markerByte major (show minor < 32 by omega)
  apply Scan.loop_of_stop headRound_progress
  rw [heq, List.cons_append, headRound, Scan.bind_eq_of_ok (byte_cons _ _ _),
    if_neg (by rw [hmaj]; omega), slowMarker_of_le (by rw [hmaj]; exact hM),
    if_neg (by rw [hmin]; omega), hmaj, hmin, Scan.bind_apply,
    Scan.bind_eq_of_ok (harg _ _)]
  simp [Nat.add_assoc, Nat.add_comm 1]

theorem head_emit {major v : Nat} (hM : major ≤ 5) (hv : v < wordSize) (st : Nat)
    (r : Bytes) :
    Head.fromCbor ⟨st, emitUintMinor major v ++ r⟩ =
      .ok ((⟨[], .ofMajor major v⟩, true), ⟨st + (emitUintMinor major v).length, r⟩) := by
  rw [Head.fromCbor_eq]
  exact headLoop_emit hM hv _ st r

theorem emitUintMinor_cons {major : Nat} (hM : major ≤ 5) (v : Nat) :
    ∃ b tail, emitUintMinor major v = b :: tail ∧ isTag b = false ∧ b ≠ 0xFF := by
  have hbyte : ∀ minor, minor < 28 →
      isTag (markerByte major minor) = false ∧ markerByte major minor ≠ 0xFF := by
    intro minor hm
    constructor
    · simp only [isTag, markerByte, UInt8.le_iff_toNat_le, UInt8.toNat_ofNat']
      simp
      omega
    · intro h
      have := congrArg UInt8.toNat h
      simp only [markerByte, UInt8.toNat_ofNat'] at this
      simp at this
      omega
  rw [emitUintMinor]
  split
  · next h => exact ⟨_, _, rfl, hbyte v (by omega)⟩
  split
  · exact ⟨_, _, rfl, hbyte 24 (by omega)⟩
  split
  · exact ⟨_, _, rfl, hbyte 25 (by omega)⟩
  split
  · exact ⟨_, _, rfl, hbyte 26 (by omega)⟩
  · exact ⟨_, _, rfl, hbyte 27 (by omega)⟩

/-! ## Reading back

`Reads m e a`: from the start of a slice the decoder `m` reads the encoding
`e` as `a` and stops right behind it. -/

section

variable {ε α β : Type} [FromCborError ε]

def Reads (m : Dec ε α) (e : Bytes) (a : α) : Prop :=
  ∀ r, m ⟨0, e ++ r⟩ = .ok (a, ⟨e.length, r⟩)

theorem u64_emit {v : Nat} (hv : v < wordSize) (st : Nat) (r : Bytes) :
    u64 ⟨st, emitUint v ++ r⟩ = .ok ((v, true), ⟨st + (emitUint v).length, r⟩) :=
  Scan.bind_eq_of_ok (head_emit (Nat.zero_le 5) hv st r) _

theorem u64_reads {v : Nat} (hv : v < wordSize) : Reads u64 (emitUint v) (v, true) :=
  fun r => by simpa using u64_emit hv 0 r

theorem head_bool (b : Bool) (st : Nat) (r : Bytes) :
    Head.fromCbor ⟨st, emitBool b ++ r⟩ =
      .ok ((⟨[], if b then .true else .false⟩, true), ⟨st + 1, r⟩) := by
  rw [Head.fromCbor_eq]
  cases b with
  | false => exact Scan.loop_of_stop headRound_progress rfl
  | true => exact Scan.loop_of_stop headRound_progress rfl

theorem bool_reads (b : Bool) : Reads bool (emitBool b) (b, true) := by
  intro r
  rw [bool, Scan.bind_eq_of_ok (head_bool b 0 r)]
  cases b <;> rfl

variable {e : Bytes} {a : α}

theorem Reads.lift {m : Dec Error α} (h : Reads m e a) : Reads (lift m : Dec ε α) e a :=
  fun r => lift_ok (h r)

/-- Encodings that begin with neither a tag nor a break byte. -/
def Plain (e : Bytes) : Prop := ∃ b tail, e = b :: tail ∧ isTag b = false ∧ b ≠ 0xFF

theorem emitUintMinor_plain {major : Nat} (hM : major ≤ 5) (v : Nat) (r : Bytes) :
    Plain (emitUintMinor major v ++ r) := by
  obtain ⟨b, tail, heq, hb⟩ := emitUintMinor_cons hM v
  exact ⟨b, tail ++ r, by rw [heq]; rfl, hb⟩

theorem emitUint_plain (v : Nat) : Plain (emitUint v) := emitUintMinor_cons (Nat.zero_le 5) v

theorem emitBool_plain (b : Bool) : Plain (emitBool b) := by
  cases b with
  | false => exact ⟨0xF4, [], rfl, by decide, by decide⟩
  | true => exact ⟨0xF5, [], rfl, by decide, by decide⟩

theorem emitArray_plain (items : List Bytes) : Plain (emitArray items) :=
  emitUintMinor_plain (by decide) _ _

variable {m : Dec ε α}

theorem untagged_of_plain (he : Plain e) (st : Nat) (r : Bytes) :
    untagged m ⟨st, e ++ r⟩ = m ⟨st, e ++ r⟩ := by
  obtain ⟨b, tail, rfl, hb, -⟩ := he
  rw [untagged, List.cons_append, Scan.onNext_cons, hb]
  rfl

theorem Reads.untagged (h : Reads m e a) (he : Plain e) : Reads (untagged m) e a :=
  fun r => (untagged_of_plain he 0 r).trans (h r)

theorem item_reads {D n p off : Nat} (h : Reads m e a) (hp : p < n) (r : Bytes) :
    Series.item D m ⟨⟨some n, off, p⟩, e ++ r⟩ =
      .ok (a, ⟨⟨some n, off + e.length, p + 1⟩, r⟩) := by
  rw [Series.item, unlessEnd_definite rfl, if_neg (Nat.not_le.mpr hp)]
  exact Scan.within_ok.mpr ⟨e.length, h r, rfl⟩

theorem tryItem_reads {D n p off : Nat} (h : Reads m e a) (hp : p < n) (r : Bytes) :
    Series.tryItem D m ⟨⟨some n, off, p⟩, e ++ r⟩ =
      .ok (some a, ⟨⟨some n, off + e.length, p + 1⟩, r⟩) := by
  rw [Series.tryItem, unlessEnd_definite rfl, if_neg (Nat.not_le.mpr hp)]
  exact Scan.bind_eq_of_ok (item_reads h hp r) _

theorem tryItem_end {D n off : Nat} (r : Bytes) :
    Series.tryItem D m ⟨⟨some n, off, n⟩, r⟩ = .ok (none, ⟨⟨some n, off, n⟩, r⟩) := by
  rw [Series.tryItem, unlessEnd_definite rfl, if_pos (Nat.le_refl n)]
  rfl

theorem complete_reads {D n off : Nat} (a : α) (r : Bytes) :
    (complete D a : Ser ε α) ⟨⟨some n, off, n⟩, r⟩ = .ok (a, ⟨⟨some n, off, n⟩, r⟩) := by
  rw [complete, unlessEnd_definite rfl, if_pos (Nat.le_refl n)]
  rfl

theorem withSeries_reads {n st : Nat} {body : Ser ε α} {e r : Bytes} (hn : n < wordSize)
    (hbody : body ⟨⟨some n, st, 0⟩, e ++ r⟩ = .ok (a, ⟨⟨some n, st + e.length, n⟩, r⟩)) :
    withSeries 1 (some n) body ⟨st, e ++ r⟩ = .ok (a, ⟨st + e.length, r⟩) := by
  have hcount : Series.itemCount 1 (some n) = .ok (some n) := by
    simp [Series.itemCount, hn]
  rw [withSeries, overSeries, hcount]
  refine Scan.within_ok.mpr ⟨⟨some n, st + e.length, n⟩, ?_, rfl⟩
  rw [Scan.bind_eq_of_ok hbody]
  exact complete_reads a r

theorem parseArray_reads {n : Nat} {f : Bool → List Nat → Ser ε α} (hn : n < wordSize)
    (hbody : ∀ off r, f true [] ⟨⟨some n, off, 0⟩, e ++ r⟩ =
      .ok (a, ⟨⟨some n, off + e.length, n⟩, r⟩)) :
    Reads (parseArray f) (emitUintMinor 4 n ++ e) a := by
  intro r
  have hhead := head_emit (show 4 ≤ 5 by decide) hn 0 (e ++ r)
  rw [parseArray, List.append_assoc, Scan.bind_eq_of_ok (lift_ok hhead), Nat.zero_add,
    List.length_append]
  exact withSeries_reads hn (hbody _ r)

theorem parseValue_reads_array {n : Nat} {f : Value → Bool → List Nat → Ser ε α} (hn : n < wordSize)
    (hbody : ∀ off r, f (.array true) true [] ⟨⟨some n, off, 0⟩, e ++ r⟩ =
      .ok (a, ⟨⟨some n, off + e.length, n⟩, r⟩)) :
    Reads (parseValue f) (emitUintMinor 4 n ++ e) a := by
  intro r
  have hhead := head_emit (show 4 ≤ 5 by decide) hn 0 (e ++ r)
  rw [parseValue, List.append_assoc, Scan.bind_eq_of_ok (lift_ok hhead), Nat.zero_add,
    List.length_append]
  exact withSeries_reads hn (hbody _ r)

omit [FromCborError ε] in
theorem onScalar_verdict {v : Except ε α} (c : Cursor UInt8 Nat) :
    onScalar (verdict v) c = verdict v c := by
  cases v <;> rfl

variable {f : Value → Bool → List Nat → Except ε α}

theorem parseValue_reads_uint {v : Nat}
    (hv : v < wordSize) (hf : f (.unsignedInteger v) true [] = .ok a) :
    Reads (parseValue fun v s t => verdict (f v s t)) (emitUint v) a := by
  intro r
  have hhead := head_emit (Nat.zero_le 5) hv 0 r
  rw [parseValue, emitUint, Scan.bind_eq_of_ok (lift_ok hhead)]
  simp only [Marker.ofMajor, onScalar_verdict, hf, Nat.zero_add]
  rfl

theorem extent_reads {b : Bytes} {st : Nat} (hb : st + b.length < wordSize) (r : Bytes) :
    extent b.length ⟨st, b ++ r⟩ = .ok (b, ⟨st + b.length, r⟩) := by
  have htake : takeBytes b.length ⟨st, b ++ r⟩ = .ok (b, ⟨st + b.length, r⟩) := by
    simp only [takeBytes, Scan.take, List.length_append]
    rw [if_neg (by omega), List.take_left' rfl, List.drop_left' rfl]
  rw [extent, Scan.bind_apply, Scan.look]
  simp only [id, if_pos hb, htake]

theorem parseValue_reads_text {t : Bytes}
    (ht : (emitString t).length < wordSize) (hutf : validUtf8 t = true)
    (hf : f (.text t) true [] = .ok a) :
    Reads (parseValue fun v s t => verdict (f v s t)) (emitString t) a := by
  intro r
  rw [emitString, List.length_append] at ht ⊢
  have hhead := head_emit (show 3 ≤ 5 by decide)
    (show t.length < wordSize by omega) 0 (t ++ r)
  have hext := lift_ok (ε := ε)
    (extent_reads ht r)
  rw [parseValue, List.append_assoc, Scan.bind_eq_of_ok (lift_ok hhead), Nat.zero_add]
  simp only [Marker.ofMajor]
  have hutf' : fromUtf8 t = .ok t := if_pos hutf
  rw [Scan.bind_eq_of_ok hext, hutf', Scan.bind_eq_of_ok (lift_ok rfl), onScalar_verdict, hf]
  rfl

theorem parseValue_reads_bytes {b : Bytes} (hb : (emitBytes b).length < wordSize)
    (hf : f (.bytes (emitUintMinor 2 b.length).length b) true [] = .ok a) :
    Reads (parseValue fun v s t => verdict (f v s t)) (emitBytes b) a := by
  intro r
  rw [emitBytes, List.length_append] at hb ⊢
  have hhead := head_emit (show 2 ≤ 5 by decide)
    (show b.length < wordSize by omega) 0 (b ++ r)
  have hext := lift_ok (ε := ε)
    (extent_reads hb r)
  rw [parseValue, List.append_assoc, Scan.bind_eq_of_ok (lift_ok hhead), Nat.zero_add]
  simp only [Marker.ofMajor]
  rw [Scan.bind_apply, Scan.look]
  simp only [id, Scan.bind_eq_of_ok hext, onScalar_verdict, hf]
  rfl

/-! ## Refusals -/

/-- The decoder gives up on the encoding, whatever comes after it. -/
def Refuses (m : Dec ε α) (e : Bytes) (x : ε) : Prop := ∀ r, m ⟨0, e ++ r⟩ = .error x

theorem Refuses.untagged {x : ε} (h : Refuses m e x) (he : Plain e) : Refuses (untagged m) e x :=
  fun r => (untagged_of_plain he 0 r).trans (h r)

theorem item_refuses {D n p off : Nat} {x : ε} (h : Refuses m e x)
    (hp : p < n) (r : Bytes) : Series.item D m ⟨⟨some n, off, p⟩, e ++ r⟩ = .error x := by
  rw [Series.item, unlessEnd_definite rfl, if_neg (Nat.not_le.mpr hp)]
  exact Scan.within_error.mpr (h r)

theorem withSeries_refuses {n st : Nat} {body : Ser ε α} {d : Bytes} {x : ε} (hn : n < wordSize)
    (hbody : body ⟨⟨some n, st, 0⟩, d⟩ = .error x) :
    withSeries 1 (some n) body ⟨st, d⟩ = .error x := by
  have hcount : Series.itemCount 1 (some n) = .ok (some n) := by
    simp [Series.itemCount, hn]
  rw [withSeries, overSeries, hcount]
  exact Scan.within_error.mpr (Scan.bind_eq_of_error hbody _)

theorem parseArray_refuses {n : Nat} {f : Bool → List Nat → Ser ε α} {x : ε} (hn : n < wordSize)
    (hbody : ∀ off r, f true [] ⟨⟨some n, off, 0⟩, e ++ r⟩ = .error x) :
    Refuses (parseArray f) (emitUintMinor 4 n ++ e) x := by
  intro r
  have hhead := head_emit (show 4 ≤ 5 by decide) hn 0 (e ++ r)
  rw [parseArray, List.append_assoc, Scan.bind_eq_of_ok (lift_ok hhead)]
  exact withSeries_refuses hn (hbody _ r)

theorem Reads.parseExact {m : Dec ε (α × Bool)} {s : Bool}
    (h : Reads m e (a, s)) : parseExact m e = .ok a := by
  have := h []
  rw [List.append_nil] at this
  rw [Cbor.parseExact, this]
  exact if_pos rfl

theorem Refuses.parseExact {m : Dec ε (α × Bool)} {x : ε} (h : Refuses m e x) :
    parseExact m e = .error x := by
  have := h []
  rw [List.append_nil] at this
  rw [Cbor.parseExact, this]

/-! ## Loops and open sequences -/

theorem length_lt_of_emitArray {items : List Bytes} (hne : ∀ x ∈ items, x ≠ [])
    (h : (emitArray items).length < wordSize) : items.length < wordSize := by
  have hle : items.length ≤ items.flatten.length := by
    clear h
    induction items with
    | nil => exact le_rfl
    | cons x items ih =>
      have hx := List.length_pos_iff.mpr (hne x List.mem_cons_self)
      have := ih fun y hy => hne y (List.mem_cons_of_mem _ hy)
      rw [List.length_cons, List.flatten_cons, List.length_append]
      omega
  rw [emitArray, List.length_append] at h
  omega

theorem Plain.ne_nil (h : Plain e) : e ≠ [] := by
  obtain ⟨b, tail, rfl, -⟩ := h
  exact List.cons_ne_nil _ _

omit [FromCborError ε] in
theorem loop_reads {γ : Type} {out : ε} {body : β → Ser ε (β ⊕ α)} (hp : Scan.Progress body)
    {enc : γ → Bytes} {l : List γ} (state : List γ → β)
    (hstep : ∀ pre x post, l = pre ++ x :: post → ∀ off r,
      body (state pre) ⟨⟨some l.length, off, pre.length⟩, enc x ++ r⟩ =
        .ok (.inl (state (pre ++ [x])),
          ⟨⟨some l.length, off + (enc x).length, pre.length + 1⟩, r⟩))
    (hstop : ∀ off r, body (state l) ⟨⟨some l.length, off, l.length⟩, r⟩ =
      .ok (.inr a, ⟨⟨some l.length, off, l.length⟩, r⟩)) (off : Nat) (r : Bytes) :
    Scan.loop out body (state []) ⟨⟨some l.length, off, 0⟩, (l.map enc).flatten ++ r⟩ =
      .ok (a, ⟨⟨some l.length, off + (l.map enc).flatten.length, l.length⟩, r⟩) := by
  have hrest : ∀ post pre off, l = pre ++ post →
      Scan.loop out body (state pre)
          ⟨⟨some l.length, off, pre.length⟩, (post.map enc).flatten ++ r⟩ =
        .ok (a, ⟨⟨some l.length, off + (post.map enc).flatten.length, l.length⟩, r⟩) := by
    intro post
    induction post with
    | nil =>
      intro pre off h
      rw [List.append_nil] at h
      rw [← h]
      exact Scan.loop_of_stop hp (hstop off r)
    | cons x post ih =>
      intro pre off h
      have hnext : l = (pre ++ [x]) ++ post := by
        rw [h, List.append_assoc]
        rfl
      have := ih (pre ++ [x]) (off + (enc x).length) hnext
      rw [List.length_append, List.length_singleton] at this
      rw [List.map_cons, List.flatten_cons, List.append_assoc,
        Scan.loop_of_continue hp (hstep pre x post h off _), this, List.length_append,
        Nat.add_assoc]
  exact hrest l [] off rfl

theorem item_reads_open (h : Reads m e a) (he : Plain e) (off p : Nat) (r : Bytes) :
    Series.item 0 m ⟨⟨none, off, p⟩, e ++ r⟩ =
      .ok (a, ⟨⟨none, off + e.length, p + 1⟩, r⟩) := by
  have hsub : subItem m ⟨⟨none, off, p⟩, e ++ r⟩ =
      .ok (a, ⟨⟨none, off + e.length, p + 1⟩, r⟩) :=
    Scan.within_ok.mpr ⟨e.length, h r, rfl⟩
  obtain ⟨b, tail, rfl, -, hb⟩ := he
  rw [List.cons_append] at hsub ⊢
  rw [Series.item, unlessEnd_cons rfl hb, hsub]

end

end Hardy.Cbor
