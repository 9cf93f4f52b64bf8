import Hardy.Crates

/-!
# Field errors and canonical fields

The shared helpers of `bpv7/src/error.rs`: labelling an error with the field
it occurred in, and reading a field that has to be in canonical form.  They
are generic over the error domain, as in the source.
-/

namespace Hardy

open Cbor

/-- `From` between error domains.  A truncation stays one. -/
class ErrorInto (ε ε' : Type) [FromCborError ε] [FromCborError ε'] where
  into : ε → ε'
  needMore_into : ∀ x, needMore (into x) = needMore x

export ErrorInto (into needMore_into)

instance {ε : Type} [FromCborError ε] : ErrorInto ε ε where
  into x := x
  needMore_into _ := rfl

instance {ε : Type} [FromCborError ε] : ErrorInto Cbor.Error ε where
  into := ofCbor
  needMore_into := needMore_ofCbor

/-- Domains with an `InvalidField` variant.  A label hides no truncation. -/
class HasInvalidField (ε : Type) [FromCborError ε] where
  invalidField : String → ε → ε
  needMore_invalidField : ∀ field x, needMore (invalidField field x) = needMore x

export HasInvalidField (invalidField needMore_invalidField)

section

variable {ε ε' σ α : Type} [FromCborError ε] [FromCborError ε']

def convert [ErrorInto ε' ε] (m : Scan ε' UInt8 σ α) : Scan ε UInt8 σ α :=
  Scan.mapErr into m

variable [HasInvalidField ε]

def mapFieldErr [ErrorInto ε' ε] (field : String) (m : Scan ε' UInt8 σ α) :
    Scan ε UInt8 σ α :=
  Scan.mapErr (fun x => invalidField field (into x)) m

def requireCanonical [ErrorInto ε' ε] (D : Nat) (m : Dec ε' (α × Bool)) (field : String)
    (notCanonical : ε) : Ser ε α := do
  let (t, shortest) ← mapFieldErr field (Series.item D (untagged m))
  if shortest then pure t else throw (invalidField field notCanonical)

end

def parseCanonical {ε ε' α : Type} [FromCborError ε] [FromCborError ε'] [ErrorInto ε' ε]
    (m : Dec ε' (α × Bool)) (notCanonical : ε) : Dec ε α := do
  let (t, shortest) ← convert (untagged m)
  if shortest then pure t else throw notCanonical

/-- The decoders of the newtypes over `u64`, which insist on canonical form
themselves. -/
def newtype {ε α : Type} [FromCborError ε] (f : Nat → α) (notCanonical : ε) :
    Dec ε (α × Bool) := do
  let value ← parseCanonical u64 notCanonical
  pure (f value, true)

/-- `if !holds { return Err(x) }` -/
def ensure {ε σ : Type} (holds : Bool) (x : ε) : Scan ε UInt8 σ Unit :=
  if holds then pure () else throw x

/-! ## Resumption -/

theorem ensure_resumable {ε σ : Type} [FromCborError ε] {pos : σ → Nat} (holds : Bool) {x : ε}
    (hx : needMore x = none) :
    Scan.Resumable needMore pos (ensure holds x : Scan ε UInt8 σ Unit) := by
  cases holds with
  | false => exact .throw hx
  | true => exact .pure ()

theorem ensure_yields {ε σ : Type} (holds : Bool) (x : ε) :
    Scan.Yields (ensure holds x : Scan ε UInt8 σ Unit) fun _ => holds = true := by
  cases holds with
  | false => exact .throw x
  | true => exact .pure rfl

section

variable {ε ε' σ α : Type} [FromCborError ε] [FromCborError ε'] [ErrorInto ε' ε]
  {pos : σ → Nat}

theorem convert_resumable {m : Scan ε' UInt8 σ α} (hm : Scan.Resumable needMore pos m) :
    Scan.Resumable needMore pos (convert m : Scan ε UInt8 σ α) :=
  .mapErr needMore_into hm

theorem convert_starts {m : Dec ε' α} (hm : Starts m) : Starts (convert m : Dec ε α) :=
  .mapErr needMore_into hm

variable {m : Dec ε' (α × Bool)}

theorem parseCanonical_resumes (hm : Resumes m) (hs : Starts m)
    {x : ε} (hx : needMore x = none) : Resumes (parseCanonical m x) := by
  refine (convert_resumable (untagged_resumes hm hs)).bind fun ⟨t, shortest⟩ => ?_
  dsimp only
  split
  · exact .pure t
  · exact .throw hx

theorem parseCanonical_starts (hs : Starts m) (x : ε) : Starts (parseCanonical m x) :=
  .bind (convert_starts (untagged_starts hs)) _

theorem newtype_resumes (f : Nat → α) {x : ε} (hx : needMore x = none) :
    Resumes (newtype f x) :=
  (parseCanonical_resumes u64_resumes u64_starts hx).map _

theorem newtype_starts (f : Nat → α) (x : ε) : Starts (newtype f x) :=
  .bind (parseCanonical_starts u64_starts x) _

theorem parseCanonical_yields {P : α → Prop}
    (hm : Scan.Yields m fun p => P p.1) (x : ε) : Scan.Yields (parseCanonical m x) P := by
  refine (Scan.Yields.mapErr _ (untagged_yields hm)).bind fun ⟨t, shortest⟩ ht => ?_
  dsimp only
  split
  · exact .pure ht
  · exact .throw x

theorem newtype_yields {f : Nat → α} {P : α → Prop} (hf : ∀ v, v < wordSize → P (f v))
    (x : ε) : Scan.Yields (newtype f x) fun p => P p.1 :=
  (parseCanonical_yields u64_yields x).bind fun v hv => .pure (hf v hv)

variable [HasInvalidField ε]

theorem requireCanonical_yields {D : Nat} {P : α → Prop}
    (hm : Scan.Yields m fun p => P p.1) (field : String) (x : ε) :
    Scan.Yields (requireCanonical D m field x) P := by
  refine (Scan.Yields.mapErr _ (item_yields (untagged_yields hm))).bind
    fun ⟨t, shortest⟩ ht => ?_
  dsimp only
  split
  · exact .pure ht
  · exact .throw _

theorem mapFieldErr_resumable (field : String) {m : Scan ε' UInt8 σ α}
    (hm : Scan.Resumable needMore pos m) :
    Scan.Resumable needMore pos (mapFieldErr field m : Scan ε UInt8 σ α) :=
  .mapErr (fun x => by rw [needMore_invalidField, needMore_into]) hm

theorem requireCanonical_walks {D : Nat} (hD : 0 < D)
    (hm : Resumes m) (hs : Starts m) (field : String) {x : ε} (hx : needMore x = none) :
    Walks (requireCanonical D m field x) := by
  refine (mapFieldErr_resumable field
    (item_walks hD (untagged_resumes hm hs) (untagged_starts hs))).bind
      fun ⟨t, shortest⟩ => ?_
  dsimp only
  split
  · exact .pure t
  · exact .throw (by rw [needMore_invalidField, hx])

end

/-! ## Reading back -/

section

variable {ε ε' α : Type} [FromCborError ε] [FromCborError ε'] [ErrorInto ε' ε]

theorem convert_ok {σ : Type} {m : Scan ε' UInt8 σ α} {c c' : Cursor UInt8 σ} {a : α}
    (h : m c = .ok (a, c')) : (convert m : Scan ε UInt8 σ α) c = .ok (a, c') :=
  Scan.mapErr_ok.mpr h

theorem mapFieldErr_ok [HasInvalidField ε] {σ : Type} {field : String}
    {m : Scan ε' UInt8 σ α} {c c' : Cursor UInt8 σ} {a : α} (h : m c = .ok (a, c')) :
    (mapFieldErr field m : Scan ε UInt8 σ α) c = .ok (a, c') :=
  Scan.mapErr_ok.mpr h

theorem Reads.convert {m : Dec ε' α} {e : Bytes} {a : α} (h : Reads m e a) :
    Reads (convert m : Dec ε α) e a :=
  fun r => Scan.mapErr_ok.mpr (h r)

theorem parseCanonical_reads {m : Dec ε' (α × Bool)} {e : Bytes} {a : α}
    (h : Reads m e (a, true)) (he : Plain e) (x : ε) : Reads (parseCanonical m x) e a :=
  fun r => Scan.bind_eq_of_ok (Reads.convert (h.untagged he) r) _

theorem newtype_reads {f : Nat → α} {v : Nat} (hv : v < wordSize) (x : ε) :
    Reads (newtype f x) (emitUint v) (f v, true) :=
  fun r => Scan.bind_eq_of_ok (parseCanonical_reads (u64_reads hv) (emitUint_plain v) x r) _

theorem requireCanonical_reads [HasInvalidField ε] {D n p off : Nat}
    {m : Dec ε' (α × Bool)} {e : Bytes} {a : α} (h : Reads m e (a, true)) (he : Plain e)
    (hp : p < n) (field : String) (x : ε) (r : Bytes) :
    requireCanonical D m field x ⟨⟨some n, off, p⟩, e ++ r⟩ =
      .ok (a, ⟨⟨some n, off + e.length, p + 1⟩, r⟩) :=
  Scan.bind_eq_of_ok (Scan.mapErr_ok.mpr (item_reads (h.untagged he) hp r)) _

theorem mapFieldErr_refuses [HasInvalidField ε] {σ : Type} {field : String}
    {m : Scan ε' UInt8 σ α} {c : Cursor UInt8 σ} {x : ε'} (h : m c = .error x) :
    (mapFieldErr field m : Scan ε UInt8 σ α) c = .error (invalidField field (into x)) :=
  Scan.mapErr_error.mpr ⟨x, h, rfl⟩

theorem requireCanonical_refuses [HasInvalidField ε] {D n p off : Nat}
    {m : Dec ε' (α × Bool)} {e : Bytes} {x : ε'} (h : Refuses m e x) (he : Plain e)
    (hp : p < n) (field : String) (y : ε) (r : Bytes) :
    requireCanonical D m field y ⟨⟨some n, off, p⟩, e ++ r⟩ =
      .error (invalidField field (into x)) :=
  Scan.bind_eq_of_error (mapFieldErr_refuses (item_refuses (h.untagged he) hp r)) _

end

/-! ## What a success says -/

theorem takeBytes_ok {n st : Nat} {d b : Bytes} {c : Cursor UInt8 Nat} :
    takeBytes n ⟨st, d⟩ = .ok (b, c) ↔ d = b ++ c.rest ∧ b.length = n ∧ c.st = st + n := by
  obtain ⟨cst, rest⟩ := c
  simp only [takeBytes, Scan.take]
  split
  · next h =>
      refine ⟨fun h' => (by cases h'), ?_⟩
      rintro ⟨hd, hb, -⟩
      have := congrArg List.length hd
      rw [List.length_append] at this
      omega
  · next h =>
      constructor
      · intro h'
        cases h'
        exact ⟨(List.take_append_drop n d).symm, List.length_take_of_le (by omega), rfl⟩
      · rintro ⟨rfl, rfl, rfl⟩
        rw [List.take_left' rfl, List.drop_left' rfl]

theorem ensure_ok {ε σ : Type} {holds : Bool} {x : ε} {c c' : Cursor UInt8 σ} :
    ensure holds x c = .ok ((), c') ↔ holds = true ∧ c' = c := by
  cases holds with
  | false => exact ⟨nofun, fun h => by cases h.1⟩
  | true => exact Scan.pure_ok_iff.trans ⟨fun h => ⟨rfl, h.2⟩, fun h => ⟨rfl, h.2⟩⟩

theorem verdict_ok {ε σ α : Type} {r : Except ε α} {a : α} {c c' : Cursor UInt8 σ} :
    verdict r c = .ok (a, c') ↔ r = .ok a ∧ c' = c := by
  cases r with
  | error x => exact ⟨nofun, fun h => by cases h.1⟩
  | ok b =>
    refine Scan.pure_ok_iff.trans ⟨fun h => ⟨by rw [h.1], h.2⟩, fun h => ⟨?_, h.2⟩⟩
    exact (Except.ok.inj h.1).symm

theorem lift_ok_iff {ε σ α : Type} [FromCborError ε] {m : Scan Cbor.Error UInt8 σ α}
    {c c' : Cursor UInt8 σ} {a : α} : (lift m : Scan ε UInt8 σ α) c = .ok (a, c') ↔
      m c = .ok (a, c') :=
  Scan.mapErr_ok

theorem byte_ok {st : Nat} {d : Bytes} {b : UInt8} {c : Cursor UInt8 Nat} :
    byte ⟨st, d⟩ = .ok (b, c) ↔ d = b :: c.rest ∧ c.st = st + 1 := by
  obtain ⟨cst, rest⟩ := c
  cases d with
  | nil => exact ⟨nofun, fun h => by cases h.1⟩
  | cons x d =>
    constructor
    · intro h
      cases h
      exact ⟨rfl, rfl⟩
    · rintro ⟨h, rfl⟩
      cases h
      rfl

end Hardy
