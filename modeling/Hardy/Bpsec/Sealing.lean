import Hardy.Fold
import Hardy.Bpsec.Operation

/-!
# Adding security

Model of the sending side of `bpv7/src/bpsec/rfc9173`: `Operation::sign` and
`Operation::encrypt`.  A key either is used itself or wraps a content key that is drawn for
the operation; whether it does is said by its algorithm, and the wrapped key goes with the
parameters.
-/

namespace Hardy.Bpsec

/-- What adding security takes of the `aes-gcm` and `aes-kw` crates, besides what removing it
does. -/
class SealingCiphers extends Ciphers where
  /-- `Aead::encrypt`, by key, nonce, associated data and message. -/
  gcmEncrypt : Aes → Bytes → Bytes → Bytes → Bytes → Except Error Bytes
  /-- `AesKw::wrap_key`, by the key and the key to wrap. -/
  wrapKey : KeyWrap → Bytes → Bytes → Except String Bytes

open SealingCiphers

/-- The ciphers undo each other, and a wrapped key is unwrapped by no other key. -/
structure SealingCiphers.Lawful [SealingCiphers] : Prop where
  decrypt_encrypt : ∀ {aes key nonce aad msg ciphertext},
    gcmEncrypt aes key nonce aad msg = .ok ciphertext →
      Ciphers.gcmDecrypt aes key nonce aad ciphertext = some msg
  unwrap_wrap : ∀ {wrap kek cek wrapped}, wrapKey wrap kek cek = .ok wrapped →
    Ciphers.unwrapKey wrap kek wrapped = some cek
  unwrap_other : ∀ {wrap kek cek wrapped wrap' kek' cek'}, wrapKey wrap kek cek = .ok wrapped →
    Ciphers.unwrapKey wrap' kek' wrapped = some cek' → wrap' = wrap ∧ kek' = kek

/-- `rand_bytes` and `rand_array`, as the random numbers fall. -/
abbrev RandBytes := (n : Nat) → Except Error { b : Bytes // b.length = n }

def RandBytes.draw (rand : RandBytes) : Option Nat → Except Error (Option Bytes)
  | none => .ok none
  | some n => (rand n).map fun b => some b.val

namespace Key

def check (key : Key) (operation : KeyOperation) : Except Error Unit :=
  match key.operations with
  | some ops => if ops.contains operation then .ok () else .error (.invalidKey operation key)
  | none => .ok ()

def checkWrap (key : Key) (keyWrap : Option KeyWrap) : Except Error Unit :=
  if keyWrap.isSome then key.check .wrapKey else .ok ()

def orInvalid {α : Type} (key : Key) (operation : KeyOperation) : Option α → Except Error α
  | some a => .ok a
  | none => .error (.invalidKey operation key)

theorem orInvalid_ok {α : Type} {key : Key} {operation : KeyOperation} {x : Option α} {a : α} :
    key.orInvalid operation x = .ok a ↔ x = some a := by
  cases x <;> simp [orInvalid]

end Key

section

variable [SealingCiphers]

def wrapDrawn (keyWrap : Option KeyWrap) (kek : Bytes) (cek : Option Bytes) :
    Except Error (Option Bytes) :=
  match cek, keyWrap with
  | some cek, some keyWrap => ((wrapKey keyWrap kek cek).mapError .algorithm).map some
  | _, _ => .ok none

/-- The key that the message is under, and what goes with the parameters. -/
structure Drawn (keyWrap : Option KeyWrap) (kek active : Bytes) (wrapped : Option Bytes) : Prop where
  direct : keyWrap = none → active = kek ∧ wrapped = none
  wrap : ∀ w, keyWrap = some w → ∃ k, wrapped = some k ∧ wrapKey w kek active = .ok k

theorem drawn_of_ok {rand : RandBytes} {keyWrap : Option KeyWrap} {length : KeyWrap → Nat}
    {kek : Bytes} {cek wrapped : Option Bytes}
    (hdraw : rand.draw (keyWrap.map length) = .ok cek)
    (hwrap : wrapDrawn keyWrap kek cek = .ok wrapped) :
    Drawn keyWrap kek (cek.getD kek) wrapped := by
  cases keyWrap with
  | none =>
    cases hdraw
    cases hwrap
    exact ⟨fun _ => ⟨rfl, rfl⟩, nofun⟩
  | some w =>
    rcases hrand : rand (length w) with e | b
    · simp [RandBytes.draw, hrand, Except.map] at hdraw
    · rcases hkey : wrapKey w kek b.val with e | k
      · simp [RandBytes.draw, hrand, Except.map] at hdraw
        simp [wrapDrawn, ← hdraw, hkey, Except.map, Except.mapError] at hwrap
      · simp [RandBytes.draw, hrand, Except.map] at hdraw
        simp [wrapDrawn, ← hdraw, hkey, Except.map, Except.mapError] at hwrap
        subst hdraw hwrap
        exact ⟨nofun, fun _ h => (by cases h; exact ⟨k, rfl, hkey⟩)⟩

end

variable [Crates] [SealingCiphers]

/-! ## BIB-HMAC-SHA2 -/

namespace HmacSha2

def cekLength : KeyWrap → Nat
  | .aes128 => 32
  | .aes192 => 48
  | .aes256 => 64

def Operation.sign (rand : RandBytes) (jwk : Key) (scopeFlags : ScopeFlags)
    (args : OperationArgs) : Except Error Operation := do
  jwk.check .sign
  let variant ← jwk.orInvalid .sign (asVariant jwk.keyAlgorithm)
  let keyWrap := jwk.keyAlgorithm.bind KeyWrap.fromAlg
  jwk.checkWrap keyWrap
  let cek ← rand.draw (keyWrap.map cekLength)
  let kek ← jwk.orInvalid .sign jwk.octets
  let hash ← jwk.orInvalid .sign (sha variant)
  let message ← ippt scopeFlags args
  let key ← wrapDrawn keyWrap kek cek
  pure ⟨⟨variant, key, scopeFlags⟩, Ciphers.hmac hash (cek.getD kek) message⟩

structure Signed (jwk : Key) (args : OperationArgs) (o : Operation) (sha' : Sha)
    (kek active message : Bytes) : Prop where
  variant : asVariant jwk.keyAlgorithm = some o.parameters.variant
  hash : sha o.parameters.variant = some sha'
  octets : jwk.octets = some kek
  ippt : ippt o.parameters.flags args = .ok message
  drawn : Drawn (jwk.keyAlgorithm.bind KeyWrap.fromAlg) kek active o.parameters.key
  result : Ciphers.hmac sha' active message = o.results

theorem signed_of_sign {rand : RandBytes} {jwk : Key} {flags : ScopeFlags} {args : OperationArgs}
    {o : Operation} (h : Operation.sign rand jwk flags args = .ok o) :
    ∃ hash kek active message, Signed jwk args o hash kek active message := by
  unfold Operation.sign at h
  obtain ⟨_, -, h⟩ := Fold.bind_ok.mp h
  obtain ⟨variant, hvariant, h⟩ := Fold.bind_ok.mp h
  obtain ⟨_, -, h⟩ := Fold.bind_ok.mp h
  obtain ⟨cek, hcek, h⟩ := Fold.bind_ok.mp h
  obtain ⟨kek, hkek, h⟩ := Fold.bind_ok.mp h
  obtain ⟨hash, hhash, h⟩ := Fold.bind_ok.mp h
  obtain ⟨message, hmessage, h⟩ := Fold.bind_ok.mp h
  obtain ⟨key, hkey, h⟩ := Fold.bind_ok.mp h
  cases h
  exact ⟨hash, kek, cek.getD kek, message, Key.orInvalid_ok.mp hvariant, Key.orInvalid_ok.mp hhash,
    Key.orInvalid_ok.mp hkek, hmessage, drawn_of_ok hcek hkey, rfl⟩

end HmacSha2

/-! ## BCB-AES-GCM -/

namespace AesGcm

def wrapOf : Option KeyAlgorithm → Option (Option KeyWrap)
  | some .direct | none => some none
  | some alg => (KeyWrap.fromBareAlg alg).map some

omit [Crates] [SealingCiphers] in
theorem wrapOf_eq_some {alg : Option KeyAlgorithm} {keyWrap : Option KeyWrap}
    (h : wrapOf alg = some keyWrap) : alg.bind KeyWrap.fromBareAlg = keyWrap ∧
      (keyWrap = none → ¬ (alg ≠ none ∧ alg ≠ some .direct)) := by
  rcases alg with _ | alg
  · cases h
    exact ⟨rfl, fun _ hne => hne.1 rfl⟩
  · cases alg <;> simp [wrapOf, KeyWrap.fromBareAlg] at h <;>
      simp [KeyWrap.fromBareAlg, ← h]

def encVariant : Option EncAlgorithm → Option AesVariant
  | some .a128gcm => some .a128gcm
  | none | some .a256gcm => some .a256gcm
  | some .unknown => none

def aes : AesVariant → Option Aes
  | .a128gcm => some .aes128
  | .a256gcm => some .aes256
  | .unrecognised _ => none

def cekLength : Aes → Nat
  | .aes128 => 16
  | .aes256 => 32

def Operation.encrypt (rand : RandBytes) (jwk : Key) (scopeFlags : ScopeFlags)
    (args : OperationArgs) : Except Error (Operation × Bytes) := do
  let (_, payload) ← args.targetPayload
  jwk.check .encrypt
  let keyWrap ← jwk.orInvalid .encrypt (wrapOf jwk.keyAlgorithm)
  jwk.checkWrap keyWrap
  let variant ← jwk.orInvalid .encrypt (encVariant jwk.encAlgorithm)
  let cipher ← jwk.orInvalid .encrypt (aes variant)
  let cek ← rand.draw (keyWrap.map fun _ => cekLength cipher)
  let kek ← jwk.orInvalid .encrypt jwk.octets
  let aad ← buildData scopeFlags args
  let iv ← rand 12
  let ciphertext ← gcmEncrypt cipher (cek.getD kek) iv.val aad payload
  let key ← wrapDrawn keyWrap kek cek
  pure (⟨⟨⟨iv.val, by simp [iv.property]⟩, variant, key, scopeFlags⟩, none⟩, ciphertext)

structure Encrypted (jwk : Key) (args : OperationArgs) (o : Operation) (ciphertext : Bytes)
    (aes' : Aes) (block : Block) (keyWrap : Option KeyWrap) (kek active aad payload : Bytes) :
    Prop where
  target : args.targetPayload = .ok (block, payload)
  wrapOf : wrapOf jwk.keyAlgorithm = some keyWrap
  variant : encVariant jwk.encAlgorithm = some o.parameters.variant
  cipher : aes o.parameters.variant = some aes'
  octets : jwk.octets = some kek
  associated : buildData o.parameters.flags args = .ok aad
  drawn : Drawn keyWrap kek active o.parameters.key
  attached : o.results = none
  result : gcmEncrypt aes' active o.parameters.iv.val aad payload = .ok ciphertext

theorem encrypted_of_encrypt {rand : RandBytes} {jwk : Key} {flags : ScopeFlags}
    {args : OperationArgs} {o : Operation} {ciphertext : Bytes}
    (h : Operation.encrypt rand jwk flags args = .ok (o, ciphertext)) :
    ∃ cipher block keyWrap kek active aad payload,
      Encrypted jwk args o ciphertext cipher block keyWrap kek active aad payload := by
  unfold Operation.encrypt at h
  obtain ⟨⟨block, payload⟩, hpayload, h⟩ := Fold.bind_ok.mp h
  obtain ⟨_, -, h⟩ := Fold.bind_ok.mp h
  obtain ⟨keyWrap, hwrap, h⟩ := Fold.bind_ok.mp h
  obtain ⟨_, -, h⟩ := Fold.bind_ok.mp h
  obtain ⟨variant, hvariant, h⟩ := Fold.bind_ok.mp h
  obtain ⟨cipher, hcipher, h⟩ := Fold.bind_ok.mp h
  obtain ⟨cek, hcek, h⟩ := Fold.bind_ok.mp h
  obtain ⟨kek, hkek, h⟩ := Fold.bind_ok.mp h
  obtain ⟨aad, haad, h⟩ := Fold.bind_ok.mp h
  obtain ⟨iv, -, h⟩ := Fold.bind_ok.mp h
  obtain ⟨_, hresult, h⟩ := Fold.bind_ok.mp h
  obtain ⟨key, hkey, h⟩ := Fold.bind_ok.mp h
  cases h
  exact ⟨cipher, block, keyWrap, kek, cek.getD kek, aad, payload, hpayload,
    Key.orInvalid_ok.mp hwrap, Key.orInvalid_ok.mp hvariant, Key.orInvalid_ok.mp hcipher,
    Key.orInvalid_ok.mp hkek, haad, drawn_of_ok hcek hkey, rfl, hresult⟩

end AesGcm

end Hardy.Bpsec
