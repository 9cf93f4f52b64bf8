import Hardy.Cbor.Series

/-!
# Decoding single items

Model of `cbor/src/decode/mod.rs` and `impls.rs`: skipping an item of any
shape, handing an item to a closure as a `Value`, and the leaf decoders that
the bundle protocol uses.  Texts are kept as their UTF-8 bytes.
-/

namespace Hardy.Cbor

/-! ## UTF-8 -/

def isCont (b : UInt8) : Bool := 0x80 ≤ b && b ≤ 0xBF

/-- The first two bytes of a three-byte sequence. -/
def isLead3 (a b : UInt8) : Bool :=
  (a == 0xE0 && 0xA0 ≤ b && b ≤ 0xBF) || (0xE1 ≤ a && a ≤ 0xEC && isCont b) ||
    (a == 0xED && 0x80 ≤ b && b ≤ 0x9F) || (0xEE ≤ a && a ≤ 0xEF && isCont b)

/-- The first two bytes of a four-byte sequence. -/
def isLead4 (a b : UInt8) : Bool :=
  (a == 0xF0 && 0x90 ≤ b && b ≤ 0xBF) || (0xF1 ≤ a && a ≤ 0xF3 && isCont b) ||
    (a == 0xF4 && 0x80 ≤ b && b ≤ 0x8F)

/-- `core::str::from_utf8` accepts the bytes. -/
def validUtf8 : Bytes → Bool
  | [] => true
  | a :: r =>
    if a < 0x80 then validUtf8 r
    else match r with
      | [] => false
      | b :: r =>
        if 0xC2 ≤ a && a ≤ 0xDF then isCont b && validUtf8 r
        else match r with
          | [] => false
          | c :: r =>
            if isLead3 a b then isCont c && validUtf8 r
            else match r with
              | [] => false
              | d :: r => isLead4 a b && isCont c && isCont d && validUtf8 r

def fromUtf8 (b : Bytes) : Except Error Bytes :=
  if validUtf8 b then .ok b else .error .invalidUtf8

/-! ## Strings -/

def extent (len : Nat) : Dec Error Bytes := do
  let offset ← Scan.look id
  if offset + len < wordSize then takeBytes len else throw .tooBig

/-- A step that only looks at what has been read. -/
def verdict {ε σ α : Type} (r : Except ε α) : Scan ε UInt8 σ α :=
  match r with
  | .ok a => pure a
  | .error x => throw x

def isBreak (b : UInt8) : Bool := b == 0xFF

/-- One round of the loops over the chunks of an indefinite string.  `want`
picks the payload length out of an acceptable chunk head. -/
def chunkRound (want : Marker → Option Nat) (f : Bytes → Except Error Bytes)
    (acc : List Bytes × Bool) :
    Dec Error ((List Bytes × Bool) ⊕ (List Bytes × Bool)) :=
  Scan.onNext isBreak
    (byte >>= fun _ => pure (.inr acc))
    (do
      let (head, s) ← Head.fromCbor
      match want head.marker, head.tags with
      | some len, [] =>
        let b ← extent len
        let b ← verdict (f b)
        pure (.inl (acc.1 ++ [b], acc.2 && s))
      | _, _ => throw .invalidChunk)

def chunks (want : Marker → Option Nat) (f : Bytes → Except Error Bytes)
    (shortest : Bool) : Dec Error (List Bytes × Bool) :=
  Scan.loop .tooBig (chunkRound want f) ([], shortest)

def Marker.bytesLen : Marker → Option Nat
  | .bytes len => len
  | _ => none

def Marker.textLen : Marker → Option Nat
  | .text len => len
  | _ => none

/-! ## Skipping -/

def skipToEnd (D : Nat) (skip : Dec Error Bool) : Ser Error Bool :=
  Scan.loop .tooBig
    (fun shortest => unlessEnd D (pure (.inr shortest))
      (Series.item D skip >>= fun s => pure (.inl (shortest && s)))) true

/-- The body of `skip_value`; `nested` skips the items of an array or map. -/
def skipItem (nested : Nat → Option Nat → Dec Error Bool) : Dec Error Bool := do
  let (head, shortest) ← Head.fromCbor
  match head.marker with
  | .bytes (some len) => extent len >>= fun _ => pure shortest
  | .text (some len) => extent len >>= fun _ => pure shortest
  | .bytes none => chunks Marker.bytesLen .ok shortest >>= fun p => pure p.2
  | .text none => chunks Marker.textLen .ok shortest >>= fun p => pure p.2
  | .array count => nested 1 count >>= fun s => pure (shortest && s)
  | .map count => nested 2 count >>= fun s => pure (shortest && s)
  | _ => pure shortest

/-- `skip_value` with `max_recursion` levels of nesting left. -/
def skipValue : Nat → Dec Error Bool
  | 0 => skipItem fun _ _ => throw .maxRecursion
  | k + 1 => skipItem fun D count => overSeries D count (skipToEnd D (skipValue k))

/-! ## Values -/

/-- The item a closure gets to see.  `bytes` has its offset in the slice.  For
an array or map the items are the series that the closure scans. -/
inductive Value where
  | unsignedInteger (v : Nat)
  | negativeInteger (v : Nat)
  | bytes (start : Nat) (b : Bytes)
  | byteStream (chunks : List Bytes)
  | text (t : Bytes)
  | textStream (chunks : List Bytes)
  | array (definite : Bool)
  | map (definite : Bool)
  | false
  | true
  | null
  | undefined
  | simple (v : Nat)
  | float (v : FloatBits)
deriving DecidableEq, Repr

def Value.itemKind : Value → ItemKind
  | .unsignedInteger _ => .unsignedInteger
  | .negativeInteger _ => .negativeInteger
  | .bytes _ _ => .definiteBytes
  | .byteStream _ => .indefiniteBytes
  | .text _ => .definiteText
  | .textStream _ => .indefiniteText
  | .array definite => if definite then .definiteArray else .indefiniteArray
  | .map definite => if definite then .definiteMap else .indefiniteMap
  | .false => .false
  | .true => .true
  | .null => .null
  | .undefined => .undefined
  | .simple v => .simple v
  | .float _ => .float

def Value.isSeries : Value → Bool
  | .array _ => Bool.true
  | .map _ => Bool.true
  | _ => Bool.false

def Value.itemType (v : Value) (tags : List Nat) : ItemType :=
  { tagged := !tags.isEmpty, kind := v.itemKind }

section

variable {ε α : Type} [FromCborError ε]

def onScalar (m : Ser ε α) : Dec ε α := fun c =>
  match m ⟨⟨some 0, 0, 0⟩, []⟩ with
  | .error x => .error x
  | .ok (a, _) => .ok (a, c)

def parseValue (f : Value → Bool → List Nat → Ser ε α) : Dec ε α := do
  let (head, shortest) ← lift Head.fromCbor
  match head.marker with
  | .unsignedInteger v => onScalar (f (.unsignedInteger v) shortest head.tags)
  | .negativeInteger v => onScalar (f (.negativeInteger v) shortest head.tags)
  | .bytes (some len) =>
    let start ← Scan.look id
    let b ← lift (extent len)
    onScalar (f (.bytes start b) shortest head.tags)
  | .bytes none =>
    let (cs, s) ← lift (chunks Marker.bytesLen .ok shortest)
    onScalar (f (.byteStream cs) s head.tags)
  | .text (some len) =>
    let b ← lift (extent len)
    let t ← lift (verdict (fromUtf8 b))
    onScalar (f (.text t) shortest head.tags)
  | .text none =>
    let (cs, s) ← lift (chunks Marker.textLen fromUtf8 shortest)
    onScalar (f (.textStream cs) s head.tags)
  | .array count => withSeries 1 count (f (.array count.isSome) shortest head.tags)
  | .map count => withSeries 2 count (f (.map count.isSome) shortest head.tags)
  | .false => onScalar (f .false shortest head.tags)
  | .true => onScalar (f .true shortest head.tags)
  | .null => onScalar (f .null shortest head.tags)
  | .undefined => onScalar (f .undefined shortest head.tags)
  | .simple v => onScalar (f (.simple v) shortest head.tags)
  | .float v => onScalar (f (.float v) shortest head.tags)

/-! ## Leaf decoders

A decoder of type `Dec ε (α × Bool)` is a `FromCbor` implementation: the flag
says whether the encoding was canonical. -/

def isTag (b : UInt8) : Bool := 0xC0 ≤ b && b ≤ 0xDB

def untagged (m : Dec ε α) : Dec ε α :=
  Scan.onNext isTag (throw (ofCbor .unexpectedTag)) m

def u64 : Dec Error (Nat × Bool) := do
  let (head, shortest) ← Head.fromCbor
  match head.marker with
  | .unsignedInteger v => pure (v, shortest && head.tags.isEmpty)
  | _ => throw (.incorrectType "Untagged Unsigned Integer" head.itemType)

def bool : Dec Error (Bool × Bool) := do
  let (head, shortest) ← Head.fromCbor
  match head.marker with
  | .false => pure (false, shortest && head.tags.isEmpty)
  | .true => pure (true, shortest && head.tags.isEmpty)
  | _ => throw (.incorrectType "Untagged Boolean" head.itemType)

/-- `from_cbor` on a slice: the value, the canonical flag and the length. -/
def runDec (m : Dec ε α) (data : Bytes) : Except ε (α × Nat) :=
  match m ⟨0, data⟩ with
  | .error x => .error x
  | .ok (a, c) => .ok (a, c.st)

def parseExact (m : Dec ε (α × Bool)) (data : Bytes) : Except ε α :=
  match m ⟨0, data⟩ with
  | .error x => .error x
  | .ok (a, c) => if c.st = data.length then .ok a.1 else .error (ofCbor .additionalItems)

end

/-! ## Resumption -/

theorem extent_resumes (len : Nat) : Resumes (extent len) := by
  refine .bind (.look id) fun offset => ?_
  split
  · exact takeBytes_resumes len
  · exact .throw rfl

theorem verdict_resumable {ε σ α : Type} [FromCborError ε] {pos : σ → Nat}
    {r : Except ε α} (hr : ∀ x, r = .error x → needMore x = none) :
    Scan.Resumable needMore pos (verdict r : Scan ε UInt8 σ α) := by
  cases r with
  | ok a => exact .pure a
  | error x => exact .throw (hr x rfl)

section Chunks

variable {want : Marker → Option Nat} {f : Bytes → Except Error Bytes}

theorem chunkRound_resumes (hf : ∀ b x, f b = .error x → x.short = none)
    (acc : List Bytes × Bool) : Resumes (chunkRound want f acc) := by
  refine .onNext (byte_resumes.map _) ((byte_resumes.map _).eats (.bind byte_starts _))
    (.bind head_resumes fun ⟨head, s⟩ => ?_) (.bind head_starts _)
  dsimp only
  split
  · exact (extent_resumes _).bind fun b => (verdict_resumable (hf b)).map _
  · exact .throw rfl

theorem chunkRound_starts (acc : List Bytes × Bool) : Starts (chunkRound want f acc) :=
  fun st => (Scan.Hungry.bind head_starts _) st

theorem chunkRound_progress (hf : ∀ b x, f b = .error x → x.short = none) :
    Scan.Progress (chunkRound want f) :=
  fun acc _ _ _ h => (chunkRound_resumes hf acc).eats (chunkRound_starts acc) _ _ _ _ h

theorem chunks_resumes (hf : ∀ b x, f b = .error x → x.short = none) (shortest : Bool) :
    Resumes (chunks want f shortest) := by
  refine .loop (chunkRound_progress hf) (chunkRound_resumes hf)
    (fun acc st => ⟨[0xFF], ?_⟩) _
  have hround : chunkRound want f acc ⟨st, [0xFF]⟩ = .ok (.inr acc, ⟨st + 1, []⟩) := rfl
  rw [Scan.loop_of_stop (chunkRound_progress hf) hround]
  exact Scan.not_waits_ok _

end Chunks

/-! ## Skipping can be resumed -/

section Skip

variable {D : Nat} {skip : Dec Error Bool}

theorem subItem_eats {ε α : Type} [FromCborError ε] {m : Dec ε α} (hm : Resumes m)
    (hs : Starts m) : Scan.Eats (subItem m) := by
  intro st d a c h
  obtain ⟨st', h', -⟩ := Scan.within_ok.mp h
  exact hm.stepwise.consumes hs h'

theorem item_eats {ε α : Type} [FromCborError ε] {m : Dec ε α} (hD : 0 < D)
    (hm : Resumes m) (hs : Starts m) : Scan.Eats (Series.item D m) := by
  intro st d a c h
  cases hst : st.count with
  | none => exact item_grabs hD hm hs _ _ _ _ hst h
  | some n =>
    rw [Series.item, unlessEnd_definite hst] at h
    split at h
    · cases h
    · exact subItem_eats hm hs _ _ _ _ h

def skipRound (D : Nat) (skip : Dec Error Bool) (shortest : Bool) :
    Ser Error (Bool ⊕ Bool) :=
  unlessEnd D (pure (.inr shortest))
    (Series.item D skip >>= fun s => pure (.inl (shortest && s)))

theorem skipRound_walks (hD : 0 < D) (hm : Resumes skip) (hs : Starts skip)
    (shortest : Bool) : Walks (skipRound D skip shortest) :=
  unlessEnd_walks hD (.pure _) ((item_walks hD hm hs).map _)
    ((item_grabs hD hm hs).bind fun _ => .pure _)

theorem skipRound_progress (hD : 0 < D) (hm : Resumes skip) (hs : Starts skip) :
    Scan.Progress (skipRound D skip) := by
  rintro shortest s' ⟨st, d⟩ c' h
  have hpure : ∀ s, Scan.Stepwise Error.short Series.offset
      (pure (.inl (shortest && s)) : Ser Error (Bool ⊕ Bool)) := fun _ => .pure _
  have hitem := (item_eats hD hm hs).bind hpure
  cases hst : st.count with
  | some n =>
    rw [skipRound, unlessEnd_definite hst] at h
    split at h
    · cases h
    · exact hitem _ _ _ _ h
  | none =>
    exact unlessEnd_grabs hD (.pure _)
      ((item_grabs hD hm hs).bind fun _ => .pure _) _ _ _ _ hst h

theorem skipToEnd_ends (hD : 0 < D) (hm : Resumes skip) (hs : Starts skip)
    (h0 : ∀ st r, skip ⟨st, 0 :: r⟩ = .ok (true, ⟨st + 1, r⟩)) (shortest : Bool)
    (st : Series) :
    ∃ r, ¬ Waits Error.short (Scan.loop .tooBig (skipRound D skip) shortest ⟨st, r⟩) := by
  have hp := skipRound_progress hD hm hs
  cases hst : st.count with
  | none =>
    refine ⟨[0xFF], ?_⟩
    have hround : skipRound D skip shortest ⟨st, [0xFF]⟩ = _ := unlessEnd_break hst hD []
    by_cases hpar : st.parsed % D = 0
    · rw [if_pos hpar] at hround
      rw [Scan.loop_of_stop hp hround]
      exact Scan.not_waits_ok _
    · rw [if_neg hpar] at hround
      rw [Scan.loop_of_error hp hround]
      exact Scan.not_waits_error rfl
  | some n =>
    refine ⟨List.replicate (n - st.parsed) 0, ?_⟩
    generalize hk : n - st.parsed = k
    induction k generalizing st shortest with
    | zero =>
      have hround : skipRound D skip shortest ⟨st, []⟩ = _ := unlessEnd_definite hst []
      rw [if_pos (by omega)] at hround
      rw [List.replicate_zero, Scan.loop_of_stop hp hround]
      exact Scan.not_waits_ok _
    | succ k ih =>
      have hsub : subItem skip ⟨st, 0 :: List.replicate k 0⟩ =
          .ok (true, ⟨⟨some n, st.offset + 1, st.parsed + 1⟩, List.replicate k 0⟩) := by
        refine Scan.within_ok.mpr ⟨0 + 1, h0 0 _, ?_⟩
        rw [hst]
      have hround : skipRound D skip shortest ⟨st, 0 :: List.replicate k 0⟩ =
          .ok (.inl (shortest && true),
            ⟨⟨some n, st.offset + 1, st.parsed + 1⟩, List.replicate k 0⟩) := by
        rw [skipRound, unlessEnd_definite hst, if_neg (by omega), Scan.bind_apply,
          Series.item, unlessEnd_definite hst, if_neg (by omega), hsub]
        rfl
      rw [List.replicate_succ, Scan.loop_of_continue hp hround]
      exact ih _ _ rfl (by simp only; omega)

theorem skipToEnd_walks (hD : 0 < D) (hm : Resumes skip) (hs : Starts skip)
    (h0 : ∀ st r, skip ⟨st, 0 :: r⟩ = .ok (true, ⟨st + 1, r⟩)) :
    Walks (skipToEnd D skip) :=
  .loop (skipRound_progress hD hm hs) (skipRound_walks hD hm hs)
    (skipToEnd_ends hD hm hs h0) true

theorem skipItem_resumes {nested : Nat → Option Nat → Dec Error Bool}
    (hn : ∀ D, 0 < D → ∀ count, Resumes (nested D count)) : Resumes (skipItem nested) := by
  have hok : ∀ (b : Bytes) (x : Error), Except.ok b = Except.error x → x.short = none :=
    fun _ _ h => by cases h
  refine head_resumes.bind fun ⟨head, shortest⟩ => ?_
  dsimp only
  split
  · exact (extent_resumes _).map _
  · exact (extent_resumes _).map _
  · exact (chunks_resumes hok _).map _
  · exact (chunks_resumes hok _).map _
  · exact (hn 1 Nat.one_pos _).map _
  · exact (hn 2 Nat.two_pos _).map _
  · exact .pure _

theorem skipItem_starts (nested : Nat → Option Nat → Dec Error Bool) :
    Starts (skipItem nested) :=
  .bind head_starts _

theorem skipValue_starts (k : Nat) : Starts (skipValue k) := by
  cases k <;> exact skipItem_starts _

theorem head_zero (st : Nat) (r : Bytes) :
    Head.fromCbor ⟨st, 0 :: r⟩ = .ok ((⟨[], .unsignedInteger 0⟩, true), ⟨st + 1, r⟩) := by
  rw [Head.fromCbor_eq]
  exact Scan.loop_of_stop headRound_progress rfl

theorem skipValue_zero (k st : Nat) (r : Bytes) :
    skipValue k ⟨st, 0 :: r⟩ = .ok (true, ⟨st + 1, r⟩) := by
  cases k <;> exact Scan.bind_eq_of_ok (head_zero st r) _

theorem skipValue_resumes (k : Nat) : Resumes (skipValue k) := by
  induction k with
  | zero => exact skipItem_resumes fun _ _ _ => .throw rfl
  | succ k ih =>
    exact skipItem_resumes fun D hD count => overSeries_resumes count
      (skipToEnd_walks hD ih (skipValue_starts k) (skipValue_zero k))

end Skip

def skip (data : Bytes) (maxRecursion : Nat) : Except Error (Bool × Nat) :=
  match skipValue maxRecursion ⟨0, data⟩ with
  | .error x => .error x
  | .ok (s, c) => .ok (s, c.st)

/-- Skipping looks at the item only: what follows it does not matter, a part of
it is waited for by no more than what is missing, and a failure stays.  The
nine-byte path of the head reads what the byte-wise one does. -/
theorem skip_stable (d : Bytes) (k : Nat) :
    (∀ s n, skip d k = .ok (s, n) →
      n ≤ d.length ∧ (∀ e, skip (d ++ e) k = .ok (s, n)) ∧
        ∀ p, p <+: d.take n → p.length < n →
          ∃ m, skip p k = .error (.needMoreData m) ∧ 1 ≤ m ∧ m ≤ n - p.length) ∧
      (∀ x, skip d k = .error x → (∀ m, x ≠ .needMoreData m) →
        ∀ e, skip (d ++ e) k = .error x) ∧
      Head.fromCbor ⟨0, d⟩ = readHead ⟨0, d⟩ := by
  have hskip := (skipValue_resumes k).stepwise
  refine ⟨?_, ?_, by rw [Head.fromCbor_eq]⟩
  · intro s n h
    rw [skip] at h
    split at h
    · cases h
    · next s' c hc =>
        obtain ⟨rfl, rfl⟩ := Prod.mk.inj (Except.ok.inj h)
        obtain ⟨u, hd, hpos, hu⟩ := hskip.ok hc
        have hlen : c.st = u.length := by
          simp only [id] at hpos
          omega
        refine ⟨?_, fun e => ?_, fun p hp hlt => ?_⟩
        · rw [hd, hlen, List.length_append]
          omega
        · rw [skip, hd, List.append_assoc, hu]
        · rw [hd, hlen, List.take_left' rfl] at hp
          obtain ⟨q, rfl⟩ := hp
          have hq : q ≠ [] := by
            rintro rfl
            simp [hlen] at hlt
          have hall := hu []
          rw [List.append_nil] at hall
          obtain ⟨x, m, hx, hm, hpos, hle⟩ := hskip.cut hall hq
          rw [List.length_append] at hlen
          refine ⟨m, ?_, hpos, by omega⟩
          rw [skip, hx]
          cases x <;> cases hm
          rfl
  · intro x h hx e
    rw [skip] at h ⊢
    split at h
    · next y hy =>
        obtain rfl := Except.error.inj h
        have hnone : Error.short y = none := by
          cases y <;> first | rfl | exact absurd rfl (hx _)
        rw [hskip.hard hy hnone e]
    · cases h

/-! ## Values and leaves -/

section

variable {ε α : Type} [FromCborError ε]

def Scalar (m : Ser ε α) : Prop :=
  ∀ x, m ⟨⟨some 0, 0, 0⟩, []⟩ = .error x → needMore x = none

theorem onScalar_resumes {m : Ser ε α} (hm : Scalar m) : Resumes (onScalar m) := by
  cases h : m ⟨⟨some 0, 0, 0⟩, []⟩ with
  | error x =>
    have heq : onScalar m = throw x := by
      funext c
      simp only [onScalar, h]
      rfl
    rw [heq]
    exact .throw (hm x h)
  | ok p =>
    have heq : onScalar m = pure p.1 := by
      funext c
      simp only [onScalar, h]
      rfl
    rw [heq]
    exact .pure _

theorem verdict_scalar {r : Except ε α} (hr : ∀ x, r = .error x → needMore x = none) :
    Scalar (verdict r : Ser ε α) := by
  intro x h
  cases r with
  | ok a => cases h
  | error y =>
    cases h
    exact hr _ rfl

theorem fromUtf8_error (b : Bytes) (x : Error) (h : fromUtf8 b = .error x) :
    x.short = none := by
  rw [fromUtf8] at h
  split at h <;> cases h
  rfl

theorem parseValue_resumes {f : Value → Bool → List Nat → Ser ε α}
    (hf : ∀ v s t, v.isSeries = false → Scalar (f v s t))
    (hw : ∀ v s t, v.isSeries = true → Walks (f v s t)) : Resumes (parseValue f) := by
  have hok : ∀ (b : Bytes) (x : Error), Except.ok b = Except.error x → x.short = none :=
    fun _ _ h => by cases h
  have hscalar := fun v s t hv => onScalar_resumes (hf v s t hv)
  refine head_resumes.lift.bind fun ⟨head, shortest⟩ => ?_
  dsimp only
  split
  case h_3 =>
    exact .bind (.look id) fun _ => (extent_resumes _).lift.bind fun _ => hscalar _ _ _ rfl
  case h_4 => exact (chunks_resumes hok _).lift.bind fun _ => hscalar _ _ _ rfl
  case h_5 =>
    exact (extent_resumes _).lift.bind fun b =>
      (Resumes.lift (verdict_resumable (fromUtf8_error b))).bind fun _ => hscalar _ _ _ rfl
  case h_6 => exact (chunks_resumes fromUtf8_error _).lift.bind fun _ => hscalar _ _ _ rfl
  case h_7 => exact withSeries_resumes Nat.one_pos _ (hw _ _ _ rfl)
  case h_8 => exact withSeries_resumes Nat.two_pos _ (hw _ _ _ rfl)
  all_goals exact hscalar _ _ _ rfl

theorem parseValue_starts (f : Value → Bool → List Nat → Ser ε α) :
    Starts (parseValue f) :=
  .bind head_starts.lift _

theorem untagged_resumes {m : Dec ε α} (hm : Resumes m) (hs : Starts m) :
    Resumes (untagged m) :=
  .onNext (.throw (needMore_ofCbor _)) (.throw _) hm hs

theorem untagged_starts {m : Dec ε α} (hs : Starts m) : Starts (untagged m) := hs

theorem u64_resumes : Resumes u64 := by
  refine head_resumes.bind fun ⟨head, shortest⟩ => ?_
  dsimp only
  split
  · exact .pure _
  · exact .throw rfl

theorem u64_starts : Starts u64 := .bind head_starts _

end

/-! ## Ranges of the decoded numbers -/

theorem beNat_lt (b : Bytes) : beNat b < 256 ^ b.length := by
  have hfold : ∀ (b : Bytes) (acc : Nat),
      b.foldl (fun acc x => acc * 256 + x.toNat) acc < (acc + 1) * 256 ^ b.length := by
    intro b
    induction b with
    | nil => simp
    | cons x b ih =>
      intro acc
      have hx := x.toNat_lt
      calc b.foldl _ (acc * 256 + x.toNat)
          < (acc * 256 + x.toNat + 1) * 256 ^ b.length := ih _
        _ ≤ (acc + 1) * 256 * 256 ^ b.length := Nat.mul_le_mul_right _ (by omega)
        _ = (acc + 1) * 256 ^ (x :: b).length := by
            rw [List.length_cons, Nat.pow_succ', Nat.mul_assoc]
  simpa [beNat] using hfold b 0

theorem takeBytes_yields (n : Nat) : Scan.Yields (takeBytes n) fun b => b.length = n := by
  rintro ⟨st, d⟩ b c h
  simp only [takeBytes, Scan.take] at h
  split at h
  · cases h
  · next hn =>
      cases h
      exact List.length_take_of_le (Nat.not_lt.mp hn)

theorem argument_yields (minor : Nat) :
    Scan.Yields (argument minor) fun p => p.1 < wordSize := by
  rw [argument_eq]
  split
  · next h => exact .pure (Nat.lt_trans h (by decide))
  · split
    · next n lim hsize =>
        have hn : n ≤ 8 := by
          rw [argSize.eq_def] at hsize
          split at hsize <;> cases hsize <;> decide
        refine (takeBytes_yields n).bind fun b hb => .pure ?_
        calc beNat b < 256 ^ b.length := beNat_lt b
          _ ≤ 256 ^ 8 := Nat.pow_le_pow_right (by decide) (hb ▸ hn)
    · exact .throw _

def Marker.InRange : Marker → Prop
  | .unsignedInteger v => v < wordSize
  | _ => True

theorem slowMarker_yields (marker : UInt8) (shortest : Bool) :
    Scan.Yields (slowMarker marker shortest) fun p => p.1.InRange := by
  rw [slowMarker.eq_def]
  split
  all_goals first
    | exact .pure trivial
    | exact (argument_yields _).bind fun _ h => .pure h
    | exact (argument_yields _).bind fun _ _ => .pure trivial
    | exact .of_bind fun _ => .pure trivial
    | skip
  · refine .of_bind fun v => ?_
    split
    · exact .throw _
    · exact .pure trivial
  · split
    · exact .pure trivial
    · exact .throw _

theorem head_yields : Scan.Yields Head.fromCbor fun p => p.1.marker.InRange := by
  rw [Head.fromCbor_eq]
  refine .loop headRound_progress (fun acc c a c' h => ?_) _
  obtain ⟨marker, c₁, -, h⟩ := Scan.bind_ok h
  split at h
  · obtain ⟨p, c₂, -, h⟩ := Scan.bind_ok h
    cases h
  · obtain ⟨p, c₂, h₁, h⟩ := Scan.bind_ok h
    cases h
    exact slowMarker_yields _ _ _ _ _ h₁

theorem u64_yields : Scan.Yields u64 fun p => p.1 < wordSize := by
  refine head_yields.bind fun ⟨head, shortest⟩ h => ?_
  dsimp only at h ⊢
  split
  · next hv =>
      rw [hv] at h
      exact .pure h
  · exact .throw _

section

variable {ε α : Type} [FromCborError ε] {P : α → Prop}

theorem unlessEnd_yields {D : Nat} {stop more : Ser ε α} (hs : Scan.Yields stop P)
    (hm : Scan.Yields more P) : Scan.Yields (unlessEnd D stop more) P := by
  refine .of_bind fun b => ?_
  split
  · exact hs
  · exact hm

theorem item_yields {D : Nat} {m : Dec ε α} (hm : Scan.Yields m P) :
    Scan.Yields (Series.item D m) P :=
  unlessEnd_yields (.throw _) (.within hm)

theorem tryItem_yields {D : Nat} {m : Dec ε α} (hm : Scan.Yields m P) :
    Scan.Yields (Series.tryItem D m) fun o => ∀ a, o = some a → P a :=
  unlessEnd_yields (.pure nofun)
    ((item_yields hm).bind fun a ha => .pure fun _ h => by cases h; exact ha)

theorem withSeries_yields {D : Nat} {count : Option Nat} {body : Ser ε α}
    (hb : Scan.Yields body P) : Scan.Yields (withSeries D count body) P := by
  rw [withSeries, overSeries]
  split
  · exact .throw _
  · exact .within (hb.bind fun a ha => unlessEnd_yields (.pure ha) (.throw _))

theorem parseArray_yields {f : Bool → List Nat → Ser ε α}
    (hf : ∀ s t, Scan.Yields (f s t) P) : Scan.Yields (parseArray f) P := by
  refine .of_bind fun ⟨head, shortest⟩ => ?_
  dsimp only
  split
  · exact withSeries_yields (hf _ _)
  · exact .throw _

omit [FromCborError ε] in
theorem onScalar_yields {m : Ser ε α} (hm : Scan.Yields m P) :
    Scan.Yields (onScalar m) P := by
  intro c a c' h
  rw [onScalar] at h
  split at h
  · cases h
  · next heq =>
      cases h
      exact hm _ _ _ heq

theorem parseValue_yields {f : Value → Bool → List Nat → Ser ε α}
    (hf : ∀ v s t, Scan.Yields (f v s t) P) : Scan.Yields (parseValue f) P := by
  have hscalar := fun v s t => onScalar_yields (hf v s t)
  refine .of_bind fun ⟨head, shortest⟩ => ?_
  dsimp only
  split
  case h_3 => exact .of_bind fun _ => .of_bind fun _ => hscalar _ _ _
  case h_4 => exact .of_bind fun _ => hscalar _ _ _
  case h_5 => exact .of_bind fun _ => .of_bind fun _ => hscalar _ _ _
  case h_6 => exact .of_bind fun _ => hscalar _ _ _
  case h_7 => exact withSeries_yields (hf _ _ _)
  case h_8 => exact withSeries_yields (hf _ _ _)
  all_goals exact hscalar _ _ _

theorem untagged_yields {m : Dec ε α} (hm : Scan.Yields m P) :
    Scan.Yields (untagged m) P :=
  .onNext (.throw _) hm

end

end Hardy.Cbor
