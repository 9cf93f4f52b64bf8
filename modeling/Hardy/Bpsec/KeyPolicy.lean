import Hardy.Pattern
import Hardy.Bpsec.Sealing

/-!
# Key policy

Model of `PatternKeySource` in `bpa-server/src/bpsec.rs`, and what the operations of
`bpv7/src/bpsec/rfc9173` make of the keys that it releases.  The bound keys are searched in
the order of the binding for one that lists any of the operations asked for.  Where the key
wraps a content key, unwrapping is one of these, and so a key that was meant for something
else can be released before the right one.
-/

namespace Hardy.Bpsec

inductive SecurityRole where
  | verifier
  | acceptor
  | source
deriving DecidableEq, Repr

def SecurityRole.serves : SecurityRole → KeyOperation → Bool
  | .verifier, .verify => true
  | .acceptor, .verify | .acceptor, .decrypt | .acceptor, .unwrapKey => true
  | .source, .sign | .source, .encrypt | .source, .wrapKey | .source, .deriveKey
  | .source, .deriveBits => true
  | _, _ => false

structure KeyBinding where
  pattern : EidPattern
  role : SecurityRole
  kids : List String

structure PatternKeySource where
  keys : String → Option Key
  bindings : List KeyBinding

namespace PatternKeySource

/-- The key under an id, when it lists one of the operations that the role serves. -/
def offer (p : PatternKeySource) (role : SecurityRole) (operations : List KeyOperation)
    (kid : String) : Option Key :=
  match p.keys kid with
  | some key =>
    match key.operations with
    | some ops => if operations.any fun op => role.serves op && ops.contains op then some key else none
    | none => none
  | none => none

def key [Globs] (p : PatternKeySource) : KeySource := fun source operations =>
  match p.bindings.find? (·.pattern.matches source) with
  | some binding =>
    if !operations.any binding.role.serves then none
    else binding.kids.findSome? (p.offer binding.role operations)
  | none => none

end PatternKeySource

def Key.Holds (key : Key) (operation : KeyOperation) : Prop :=
  ∃ ops, key.operations = some ops ∧ operation ∈ ops

namespace PatternKeySource

variable [Globs] {p : PatternKeySource} {binding : KeyBinding} {k j : Key} {s : Eid}
  {op : KeyOperation} {kid : String} {operations : List KeyOperation}

omit [Globs] in
theorem offer_eq_some {role : SecurityRole} :
    p.offer role operations kid = some k ↔
      p.keys kid = some k ∧ ∃ op ∈ operations, role.serves op = true ∧ k.Holds op := by
  have hops : ∀ j : Key, (match j.operations with
      | some ops => if operations.any fun op => role.serves op && ops.contains op then some j else none
      | none => none) = some k ↔ j = k ∧ ∃ op ∈ operations, role.serves op = true ∧ k.Holds op := by
    intro j
    split
    · next ops hops =>
        rw [Option.ite_none_right_eq_some, List.any_eq_true]
        simp only [Bool.and_eq_true, List.contains_iff_mem, Option.some.injEq]
        constructor
        · rintro ⟨⟨op, hop, hserves, hmem⟩, rfl⟩
          exact ⟨rfl, op, hop, hserves, ops, hops, hmem⟩
        · rintro ⟨rfl, op, hop, hserves, ops', hops', hmem⟩
          cases hops.symm.trans hops'
          exact ⟨⟨op, hop, hserves, hmem⟩, rfl⟩
    · next hnone =>
        refine ⟨nofun, ?_⟩
        rintro ⟨rfl, op, -, -, ops, hops, -⟩
        cases hnone.symm.trans hops
  unfold offer
  split
  · next j hj =>
      rw [hops, hj, Option.some.injEq]
  · next hnone =>
      rw [hnone]
      simp

structure Accepts (p : PatternKeySource) (s : Eid) (binding : KeyBinding) (k : Key) : Prop where
  consulted : p.bindings.find? (·.pattern.matches s) = some binding
  acceptor : binding.role = .acceptor
  bound : ∃ kid ∈ binding.kids, p.keys kid = some k

structure Alone (p : PatternKeySource) (binding : KeyBinding) (k : Key) (op : KeyOperation) :
    Prop where
  holds : k.Holds op
  only : ∀ kid ∈ binding.kids, ∀ j, p.keys kid = some j → j.Holds op → j = k

def FirstUnwrapping (p : PatternKeySource) (binding : KeyBinding) (j : Key) : Prop :=
  ∃ before kid after, binding.kids = before ++ kid :: after ∧ p.keys kid = some j ∧
    j.Holds .unwrapKey ∧ ∀ kid' ∈ before, ∀ j', p.keys kid' = some j' → ¬ j'.Holds .unwrapKey

theorem key_eq (h : Accepts p s binding k) (hop : op ∈ operations)
    (hserves : SecurityRole.acceptor.serves op = true) :
    p.key s operations = binding.kids.findSome? (p.offer .acceptor operations) := by
  have hany : operations.any SecurityRole.acceptor.serves = true :=
    List.any_eq_true.mpr ⟨op, hop, hserves⟩
  unfold key
  rw [h.consulted]
  dsimp only
  rw [h.acceptor, hany, Bool.not_true, if_neg Bool.false_ne_true]

theorem key_direct (h : Accepts p s binding k) (halone : Alone p binding k op)
    (hserves : SecurityRole.acceptor.serves op = true) : p.key s [op] = some k := by
  obtain ⟨kid, hkid, hk⟩ := h.bound
  have hoffer : ∀ kid j, p.offer .acceptor [op] kid = some j ↔ p.keys kid = some j ∧ j.Holds op :=
    fun kid j => by simp [offer_eq_some, hserves]
  rw [key_eq h (List.mem_singleton_self op) hserves]
  rcases hfound : binding.kids.findSome? (p.offer .acceptor [op]) with _ | j
  · have hnone := List.findSome?_eq_none_iff.mp hfound kid hkid
    rw [(hoffer kid k).mpr ⟨hk, halone.holds⟩] at hnone
    cases hnone
  · obtain ⟨kid', hkid', hj⟩ := List.exists_of_findSome?_eq_some hfound
    obtain ⟨hj, hholds⟩ := (hoffer kid' j).mp hj
    rw [halone.only kid' hkid' j hj hholds]

theorem key_wrapped (h : Accepts p s binding k) (halone : Alone p binding k op)
    (hunwraps : k.Holds .unwrapKey) :
    ∃ j, p.key s [.unwrapKey, op] = some j ∧ ∀ j', p.FirstUnwrapping binding j' ↔ j' = j := by
  obtain ⟨kid, hkid, hk⟩ := h.bound
  have hoffer : ∀ kid ∈ binding.kids, ∀ j, p.offer .acceptor [.unwrapKey, op] kid = some j ↔
      p.keys kid = some j ∧ j.Holds .unwrapKey := by
    intro kid hkid j
    rw [offer_eq_some]
    refine and_congr_right fun hj => ⟨?_, fun hu => ⟨.unwrapKey, by simp, rfl, hu⟩⟩
    rintro ⟨op', hop', -, hholds⟩
    simp only [List.mem_cons, List.not_mem_nil, or_false] at hop'
    rcases hop' with rfl | rfl
    · exact hholds
    · rw [halone.only kid hkid j hj hholds]
      exact hunwraps
  have hfirst : ∀ j, binding.kids.findSome? (p.offer .acceptor [.unwrapKey, op]) = some j ↔
      p.FirstUnwrapping binding j := by
    intro j
    rw [List.findSome?_eq_some_iff]
    constructor
    · rintro ⟨before, kid, after, hkids, hj, hbefore⟩
      have hmem : ∀ kid' ∈ before, kid' ∈ binding.kids := fun kid' h' => by simp [hkids, h']
      obtain ⟨hj, hu⟩ := (hoffer kid (by simp [hkids]) j).mp hj
      refine ⟨before, kid, after, hkids, hj, hu, fun kid' hkid' j' hj' hu' => ?_⟩
      have hnone := hbefore kid' hkid'
      rw [(hoffer kid' (hmem kid' hkid') j').mpr ⟨hj', hu'⟩] at hnone
      cases hnone
    · rintro ⟨before, kid, after, hkids, hj, hu, hbefore⟩
      have hmem : ∀ kid' ∈ before, kid' ∈ binding.kids := fun kid' h' => by simp [hkids, h']
      refine ⟨before, kid, after, hkids, (hoffer kid (by simp [hkids]) j).mpr ⟨hj, hu⟩,
        fun kid' hkid' => ?_⟩
      rcases hoff : p.offer .acceptor [.unwrapKey, op] kid' with _ | j'
      · rfl
      · obtain ⟨hj', hu'⟩ := (hoffer kid' (hmem kid' hkid') j').mp hoff
        exact absurd hu' (hbefore kid' hkid' j' hj')
  rw [key_eq h (List.mem_cons_self ..) rfl]
  rcases hfound : binding.kids.findSome? (p.offer .acceptor [.unwrapKey, op]) with _ | j
  · have hnone := List.findSome?_eq_none_iff.mp hfound kid hkid
    rw [(hoffer kid hkid k).mpr ⟨hk, hunwraps⟩] at hnone
    cases hnone
  · refine ⟨j, rfl, fun j' => ?_⟩
    rw [← hfirst, hfound, Option.some.injEq]
    exact eq_comm

end PatternKeySource

section

variable [Crates] [SealingCiphers] [Globs] {p : PatternKeySource} {binding : KeyBinding}
  {k j : Key} {s : Eid} {target source : Nat} {r r' : Reader} {rand : RandBytes}
  {flags : ScopeFlags}

/-! ## BIB-HMAC-SHA2 -/

namespace HmacSha2

def Wraps (k : Key) : Prop := (k.keyAlgorithm.bind KeyWrap.fromAlg).isSome

structure Alike (j k : Key) : Prop where
  variant : asVariant j.keyAlgorithm = asVariant k.keyAlgorithm
  wrap : j.keyAlgorithm.bind KeyWrap.fromAlg = k.keyAlgorithm.bind KeyWrap.fromAlg
  octets : j.octets = k.octets

variable {o : Operation} {sha' : Sha} {kek active message : Bytes}

omit [Globs] in
theorem Signed.verifyInner {args : OperationArgs} (h : Signed k args o sha' kek active message) :
    o.verifyInner active args = .ok () := by
  unfold Operation.verifyInner
  rw [h.hash]
  dsimp only
  rw [h.ippt]
  exact if_pos h.result

theorem Signed.verify_wrapped {args : OperationArgs} (h : Signed k args o sha' kek active message)
    (hlaws : SealingCiphers.Lawful) (hwraps : Wraps k)
    (hj : p.key args.bpsecSource [.unwrapKey, .verify] = some j) :
    o.verify p.key args = .ok () ↔ Alike j k := by
  obtain ⟨w, hw⟩ := Option.isSome_iff_exists.mp hwraps
  obtain ⟨wrapped, hwrapped, hwrap⟩ := h.drawn.wrap w hw
  unfold Operation.verify
  rw [hwrapped]
  dsimp only
  rw [hj]
  dsimp only
  constructor
  · intro hok
    split at hok
    · cases hok
    · next hvariant =>
        split at hok
        · next kek' w' hkek' hw' =>
            split at hok
            · next cek hcek =>
                obtain ⟨rfl, rfl⟩ := hlaws.unwrap_other hwrap hcek
                exact ⟨(Decidable.not_not.mp hvariant).symm.trans h.variant.symm, hw'.trans hw.symm,
                  hkek'.trans h.octets.symm⟩
            · cases hok
        · cases hok
  · intro halike
    rw [halike.variant, halike.wrap, halike.octets, h.variant, h.octets, hw,
      if_neg (fun hne => hne rfl)]
    dsimp only
    rw [hlaws.unwrap_wrap hwrap]
    exact h.verifyInner

theorem Signed.verify_direct {args : OperationArgs} (h : Signed k args o sha' kek active message)
    (hdirect : ¬ Wraps k) (hk : p.key args.bpsecSource [.verify] = some k) :
    o.verify p.key args = .ok () := by
  obtain ⟨rfl, hkey⟩ := h.drawn.direct (Option.not_isSome_iff_eq_none.mp hdirect)
  unfold Operation.verify
  rw [hkey]
  dsimp only
  rw [hk]
  dsimp only
  rw [h.variant, h.octets, if_neg (fun hne => hne rfl)]
  exact h.verifyInner

theorem verify_iff (hlaws : SealingCiphers.Lawful) (h : p.Accepts s binding k)
    (halone : p.Alone binding k .verify) (hunwraps : Wraps k → k.Holds .unwrapKey)
    (hsign : Operation.sign rand k flags ⟨s, target, source, r⟩ = .ok o)
    (hr : r.AgreeOn r' target source) :
    o.verify p.key ⟨s, target, source, r'⟩ = .ok () ↔
      (Wraps k → ∀ j, p.FirstUnwrapping binding j → Alike j k) := by
  obtain ⟨sha', kek, active, message, hs⟩ := signed_of_sign hsign
  have hs' : Signed k ⟨s, target, source, r'⟩ o sha' kek active message :=
    { hs with ippt := (ippt_congr s hr _).symm.trans hs.ippt }
  by_cases hwraps : Wraps k
  · obtain ⟨j, hj, hfirst⟩ := PatternKeySource.key_wrapped h halone (hunwraps hwraps)
    rw [hs'.verify_wrapped hlaws hwraps hj]
    constructor
    · intro halike _ j' hj'
      rw [(hfirst j').mp hj']
      exact halike
    · exact fun hall => hall hwraps j ((hfirst j).mpr rfl)
  · refine iff_of_true ?_ fun hw => absurd hw hwraps
    exact hs'.verify_direct hwraps (PatternKeySource.key_direct h halone rfl)

end HmacSha2

/-! ## BCB-AES-GCM -/

def Reader.encrypted (r : Reader) (target : Nat) (ciphertext : Bytes) : Reader := fun number =>
  if number = target then (r number).map fun p => (p.1, some ciphertext) else r number

namespace AesGcm

def Wraps (k : Key) : Prop := (k.keyAlgorithm.bind KeyWrap.fromBareAlg).isSome

structure Alike (j k : Key) : Prop where
  variant : encVariant j.encAlgorithm = encVariant k.encAlgorithm
  wrap : j.keyAlgorithm.bind KeyWrap.fromBareAlg = k.keyAlgorithm.bind KeyWrap.fromBareAlg
  octets : j.octets = k.octets

omit [Crates] [SealingCiphers] [Globs] in
theorem header_encrypted {number : Nat} {ciphertext : Bytes} :
    (r.encrypted target ciphertext).header number = r.header number := by
  unfold Reader.header Reader.encrypted
  split
  · rw [Option.map_map]
    rfl
  · rfl

omit [SealingCiphers] [Globs] in
theorem buildData_encrypted {ciphertext : Bytes} (htarget : target ≠ 0) :
    buildData flags ⟨s, target, source, r.encrypted target ciphertext⟩ =
      buildData flags ⟨s, target, source, r⟩ := by
  have hzero : r.encrypted target ciphertext 0 = r 0 := if_neg htarget.symm
  simp only [buildData, OperationArgs.scopePrimary, OperationArgs.scopeHeader, header_encrypted,
    hzero]

variable {o : Operation} {aes' : Aes} {block : Block} {keyWrap : Option KeyWrap}
  {kek active aad payload ciphertext : Bytes}

omit [Globs] in
theorem Encrypted.decryptMiddle_iff {args : OperationArgs} (hlaws : SealingCiphers.Lawful)
    (h : Encrypted k args o ciphertext aes' block keyWrap kek active aad payload)
    {encAlgorithm : Option EncAlgorithm} :
    o.decryptMiddle encAlgorithm active aad ciphertext = .ok payload ↔
      encVariant encAlgorithm = encVariant k.encAlgorithm := by
  rw [h.variant]
  have hgcm : o.decryptGcm aes' active aad ciphertext = .ok payload := by
    unfold Operation.decryptGcm
    rw [h.attached]
    dsimp only
    rw [hlaws.decrypt_encrypt h.result]
  have hcipher := h.cipher
  unfold Operation.decryptMiddle
  rcases hvariant : o.parameters.variant with _ | _ | code
  · rw [hvariant] at hcipher
    cases hcipher
    rcases encAlgorithm with _ | (_ | _ | _) <;> simp [encVariant, hgcm]
  · rw [hvariant] at hcipher
    cases hcipher
    rcases encAlgorithm with _ | (_ | _ | _) <;> simp [encVariant, hgcm]
  · rw [hvariant] at hcipher
    cases hcipher

structure Given (s : Eid) (target source : Nat) (r' : Reader) (o : Operation) (block : Block)
    (aad ciphertext : Bytes) : Prop where
  payload : OperationArgs.targetPayload ⟨s, target, source, r'⟩ = .ok (block, ciphertext)
  associated : buildData o.parameters.flags ⟨s, target, source, r'⟩ = .ok aad

omit [Globs] in
theorem Encrypted.given (h : Encrypted k ⟨s, target, source, r⟩ o ciphertext aes' block keyWrap kek
      active aad payload) (htarget : target ≠ 0)
    (hr : (r.encrypted target ciphertext).AgreeOn r' target source) :
    Given s target source r' o block aad ciphertext where
  payload := by
    have hpayload := h.target
    unfold OperationArgs.targetPayload at hpayload ⊢
    dsimp only at hpayload ⊢
    rw [← hr.target, Reader.encrypted, if_pos rfl]
    split at hpayload
    · next b p hb =>
        cases hpayload
        rw [hb]
        rfl
    · cases hpayload
  associated := by
    rw [← buildData_congr s hr, buildData_encrypted htarget]
    exact h.associated

theorem Encrypted.decrypt_wrapped (h : Encrypted k ⟨s, target, source, r⟩ o ciphertext aes' block
      keyWrap kek active aad payload) (hlaws : SealingCiphers.Lawful)
    (hgiven : Given s target source r' o block aad ciphertext) (hwraps : Wraps k)
    (hj : p.key s [.unwrapKey, .decrypt] = some j) :
    o.decrypt p.key ⟨s, target, source, r'⟩ = .ok payload ↔ Alike j k := by
  obtain ⟨w, hw⟩ := Option.isSome_iff_exists.mp hwraps
  obtain ⟨wrapped, hwrapped, hwrap⟩ := h.drawn.wrap w ((wrapOf_eq_some h.wrapOf).1.symm.trans hw)
  unfold Operation.decrypt
  simp only [hgiven.payload, hgiven.associated, hwrapped, hj, bind, Except.bind]
  constructor
  · intro hok
    split at hok
    · next kek' w' hkek' hw' =>
        split at hok
        · next cek hcek =>
            obtain ⟨rfl, rfl⟩ := hlaws.unwrap_other hwrap hcek
            cases (hlaws.unwrap_wrap hwrap).symm.trans hcek
            exact ⟨(h.decryptMiddle_iff hlaws).mp hok, hw'.trans hw.symm, hkek'.trans h.octets.symm⟩
        · cases hok
    · cases hok
  · intro halike
    rw [halike.wrap, halike.octets, h.octets, hw]
    dsimp only
    rw [hlaws.unwrap_wrap hwrap]
    exact (h.decryptMiddle_iff hlaws).mpr halike.variant

theorem Encrypted.decrypt_direct (h : Encrypted k ⟨s, target, source, r⟩ o ciphertext aes' block
      keyWrap kek active aad payload) (hlaws : SealingCiphers.Lawful)
    (hgiven : Given s target source r' o block aad ciphertext) (hdirect : ¬ Wraps k)
    (hk : p.key s [.decrypt] = some k) :
    o.decrypt p.key ⟨s, target, source, r'⟩ = .ok payload := by
  obtain ⟨hwrap, hnone⟩ := wrapOf_eq_some h.wrapOf
  have hnowrap : keyWrap = none := hwrap.symm.trans (Option.not_isSome_iff_eq_none.mp hdirect)
  obtain ⟨rfl, hkey⟩ := h.drawn.direct hnowrap
  unfold Operation.decrypt
  simp only [hgiven.payload, hgiven.associated, hkey, hk, bind, Except.bind]
  rw [if_neg (hnone hnowrap), h.octets]
  exact (h.decryptMiddle_iff hlaws).mpr rfl

theorem decrypt_iff (hlaws : SealingCiphers.Lawful) (h : p.Accepts s binding k)
    (halone : p.Alone binding k .decrypt) (hunwraps : Wraps k → k.Holds .unwrapKey)
    (hencrypt : Operation.encrypt rand k flags ⟨s, target, source, r⟩ = .ok (o, ciphertext))
    (htarget : target ≠ 0) (hr : (r.encrypted target ciphertext).AgreeOn r' target source)
    (hpayload : OperationArgs.targetPayload ⟨s, target, source, r⟩ = .ok (block, payload)) :
    o.decrypt p.key ⟨s, target, source, r'⟩ = .ok payload ↔
      (Wraps k → ∀ j, p.FirstUnwrapping binding j → Alike j k) := by
  obtain ⟨aes', block', keyWrap, kek, active, aad, payload', hs⟩ := encrypted_of_encrypt hencrypt
  cases hpayload.symm.trans hs.target
  have hgiven := hs.given htarget hr
  by_cases hwraps : Wraps k
  · obtain ⟨j, hj, hfirst⟩ := PatternKeySource.key_wrapped h halone (hunwraps hwraps)
    rw [hs.decrypt_wrapped hlaws hgiven hwraps hj]
    constructor
    · intro halike _ j' hj'
      rw [(hfirst j').mp hj']
      exact halike
    · exact fun hall => hall hwraps j ((hfirst j).mpr rfl)
  · refine iff_of_true ?_ fun hw => absurd hw hwraps
    exact hs.decrypt_direct hlaws hgiven hwraps (PatternKeySource.key_direct h halone rfl)

end AesGcm

/-- What was signed or encrypted with a key of an acceptor verifies or decrypts, unless the key
wraps and the first of the binding's keys that unwraps is unlike it. -/
theorem PatternKeySource.genuine_iff (hlaws : SealingCiphers.Lawful) (h : p.Accepts s binding k) :
    (∀ (rand : RandBytes) (flags : ScopeFlags) (target source : Nat) (r r' : Reader)
        (o : HmacSha2.Operation), p.Alone binding k .verify →
      (HmacSha2.Wraps k → k.Holds .unwrapKey) →
      HmacSha2.Operation.sign rand k flags ⟨s, target, source, r⟩ = .ok o →
      r.AgreeOn r' target source →
        (o.verify p.key ⟨s, target, source, r'⟩ = .ok () ↔
          (HmacSha2.Wraps k → ∀ j, p.FirstUnwrapping binding j → HmacSha2.Alike j k))) ∧
    (∀ (rand : RandBytes) (flags : ScopeFlags) (target source : Nat) (r r' : Reader)
        (o : AesGcm.Operation) (block : Block) (payload ciphertext : Bytes),
      p.Alone binding k .decrypt → (AesGcm.Wraps k → k.Holds .unwrapKey) →
      AesGcm.Operation.encrypt rand k flags ⟨s, target, source, r⟩ = .ok (o, ciphertext) →
      target ≠ 0 → (r.encrypted target ciphertext).AgreeOn r' target source →
      OperationArgs.targetPayload ⟨s, target, source, r⟩ = .ok (block, payload) →
        (o.decrypt p.key ⟨s, target, source, r'⟩ = .ok payload ↔
          (AesGcm.Wraps k → ∀ j, p.FirstUnwrapping binding j → AesGcm.Alike j k))) :=
  ⟨fun _ _ _ _ _ _ _ halone hunwraps hsign hr =>
      HmacSha2.verify_iff hlaws h halone hunwraps hsign hr,
    fun _ _ _ _ _ _ _ _ _ _ halone hunwraps hencrypt htarget hr hpayload =>
      AesGcm.decrypt_iff hlaws h halone hunwraps hencrypt htarget hr hpayload⟩

end

/-! ## Ideal ciphers

A ciphertext is the message in an envelope that shows the key.
-/

def envelope : Bytes → Bytes → Bytes
  | [], m => 0 :: m
  | b :: key, m => 1 :: b :: envelope key m

def openEnvelope : Bytes → Bytes → Option Bytes
  | [], c :: m => if c = 0 then some m else none
  | b :: key, c :: b' :: m => if c = 1 ∧ b = b' then openEnvelope key m else none
  | _, _ => none

theorem openEnvelope_envelope (key m : Bytes) : openEnvelope key (envelope key m) = some m := by
  induction key with
  | nil => rfl
  | cons b key ih => exact (if_pos ⟨rfl, rfl⟩).trans ih

theorem openEnvelope_other {key key' m m' : Bytes}
    (h : openEnvelope key' (envelope key m) = some m') : key' = key := by
  induction key generalizing key' with
  | nil =>
    rcases key' with _ | ⟨b, key'⟩
    · rfl
    · rcases m with _ | ⟨c, m⟩ <;> simp [envelope, openEnvelope] at h
  | cons b key ih =>
    rcases key' with _ | ⟨b', key'⟩
    · simp [envelope, openEnvelope] at h
    · simp only [envelope, openEnvelope, true_and, Option.ite_none_right_eq_some] at h
      rw [h.1, ih h.2]

def Sha.code : Sha → UInt8
  | .sha256 => 0
  | .sha384 => 1
  | .sha512 => 2

def Aes.code : Aes → UInt8
  | .aes128 => 0
  | .aes256 => 1

def KeyWrap.code : KeyWrap → UInt8
  | .aes128 => 0
  | .aes192 => 1
  | .aes256 => 2

theorem KeyWrap.code_inj {w w' : KeyWrap} (h : w.code = w'.code) : w = w' := by
  cases w <;> cases w' <;> first | rfl | simp [code] at h

@[reducible] def SealingCiphers.ideal : SealingCiphers where
  hmac sha key message := envelope (sha.code :: key) message
  gcmDecrypt aes key nonce aad ciphertext :=
    (openEnvelope (aes.code :: key) ciphertext).bind fun m =>
      (openEnvelope nonce m).bind (openEnvelope aad)
  gcmDecryptDetached _ _ _ _ _ _ := none
  unwrapKey wrap kek wrapped := openEnvelope (wrap.code :: kek) wrapped
  gcmEncrypt aes key nonce aad msg :=
    .ok (envelope (aes.code :: key) (envelope nonce (envelope aad msg)))
  wrapKey wrap kek cek := .ok (envelope (wrap.code :: kek) cek)

section

local instance idealCiphers : SealingCiphers := .ideal

theorem SealingCiphers.ideal_lawful : SealingCiphers.Lawful where
  decrypt_encrypt := by
    intro aes key nonce aad msg ciphertext h
    cases h
    change (openEnvelope (aes.code :: key) _).bind _ = _
    rw [openEnvelope_envelope, Option.bind_some, openEnvelope_envelope, Option.bind_some,
      openEnvelope_envelope]
  unwrap_wrap := by
    intro wrap kek cek wrapped h
    cases h
    exact openEnvelope_envelope _ _
  unwrap_other := by
    intro wrap kek cek wrapped wrap' kek' cek' h h'
    cases h
    obtain ⟨hcode, hkek⟩ := List.cons.inj (openEnvelope_other h')
    exact ⟨KeyWrap.code_inj hcode, hkek⟩

local instance idealCrates : Crates := .reference

local instance idealGlobs : Globs := .literal

def wrappingMac : Key where
  keyType := .octetSequence (List.replicate 16 1)
  keyAlgorithm := some .hs256A128kw
  operations := some [.sign, .verify, .wrapKey, .unwrapKey]

def wrappingCipher : Key where
  keyType := .octetSequence (List.replicate 32 2)
  keyAlgorithm := some .a256kw
  encAlgorithm := some .a256gcm
  operations := some [.encrypt, .decrypt, .wrapKey, .unwrapKey]

def directCipher : Key where
  keyType := .octetSequence (List.replicate 32 3)
  keyAlgorithm := some .direct
  encAlgorithm := some .a256gcm
  operations := some [.encrypt, .decrypt]

def acceptorOf (kids : List String) : KeyBinding := ⟨.any, .acceptor, kids⟩

def boundKeys (kids : List String) : PatternKeySource where
  keys := fun kid =>
    if kid = "mac" then some wrappingMac
    else if kid = "cipher" then some wrappingCipher
    else if kid = "direct" then some directCipher
    else none
  bindings := [acceptorOf kids]

def zeros : RandBytes := fun n => .ok ⟨List.replicate n 0, List.length_replicate⟩

def noScope : ScopeFlags := ⟨false, false, false, none⟩

def onePayload : Reader := fun number => if number = 1 then some ({}, some [0x41]) else none

def macSigned : HmacSha2.Operation where
  parameters := ⟨.hmac256, some (envelope (0 :: List.replicate 16 1) (List.replicate 32 0)), noScope⟩
  results := envelope (0 :: List.replicate 32 0) [0, 0x41, 0x41]

theorem sign_wrappingMac :
    HmacSha2.Operation.sign zeros wrappingMac noScope ⟨.null, 1, 2, onePayload⟩ = .ok macSigned := rfl

theorem accepts_boundKeys {kids : List String} {k : Key} (kid : String) (hkid : kid ∈ kids)
    (hk : (boundKeys kids).keys kid = some k) :
    (boundKeys kids).Accepts .null (acceptorOf kids) k := ⟨rfl, rfl, kid, hkid, hk⟩

theorem wrappingMac_holds {op : KeyOperation} (h : op ∈ [.sign, .verify, .wrapKey, .unwrapKey]) :
    wrappingMac.Holds op := ⟨_, rfl, h⟩

theorem wrappingMac_alone (kids : List String) :
    (boundKeys kids).Alone (acceptorOf kids) wrappingMac .verify := by
  refine ⟨wrappingMac_holds (by decide), fun kid _ j hj hholds => ?_⟩
  obtain ⟨ops, hops, hmem⟩ := hholds
  simp only [boundKeys] at hj
  split at hj
  · exact (Option.some.inj hj).symm
  · split at hj
    · cases hj
      cases hops
      simp at hmem
    · split at hj
      · cases hj
        cases hops
        simp at hmem
      · cases hj

theorem directCipher_alone :
    (boundKeys ["mac", "direct"]).Alone (acceptorOf ["mac", "direct"]) directCipher .decrypt := by
  refine ⟨⟨_, rfl, by decide⟩, fun kid hkid j hj hholds => ?_⟩
  obtain ⟨ops, hops, hmem⟩ := hholds
  simp only [acceptorOf, List.mem_cons, List.not_mem_nil, or_false] at hkid
  rcases hkid with rfl | rfl
  · cases hj
    cases hops
    simp at hmem
  · exact (Option.some.inj hj).symm

/-- The key for the payload comes before the one for the signature, and is released for
unwrapping. -/
theorem macSigned_not_verified :
    ¬ ∀ (p : PatternKeySource) (s : Eid) (binding : KeyBinding) (k : Key), p.Accepts s binding k →
      p.Alone binding k .verify → (HmacSha2.Wraps k → k.Holds .unwrapKey) →
      ∀ (rand : RandBytes) (flags : ScopeFlags) (target source : Nat) (r : Reader)
        (o : HmacSha2.Operation),
        HmacSha2.Operation.sign rand k flags ⟨s, target, source, r⟩ = .ok o →
          o.verify p.key ⟨s, target, source, r⟩ = .ok () := by
  intro h
  have hok := h (boundKeys ["cipher", "mac"]) .null (acceptorOf ["cipher", "mac"]) wrappingMac
    (accepts_boundKeys "mac" (by simp) rfl) (wrappingMac_alone _)
    (fun _ => wrappingMac_holds (by decide)) zeros noScope 1 2 onePayload macSigned sign_wrappingMac
  have herror : macSigned.verify (boundKeys ["cipher", "mac"]).key ⟨.null, 1, 2, onePayload⟩ =
      .error .integrityCheckFailed := rfl
  rw [herror] at hok
  cases hok

def directEncrypted : AesGcm.Operation :=
  ⟨⟨⟨List.replicate 12 0, by decide⟩, .a256gcm, none, noScope⟩, none⟩

def directCiphertext : Bytes :=
  envelope (1 :: List.replicate 32 3) (envelope (List.replicate 12 0) (envelope [0] [0x41]))

theorem encrypt_directCipher :
    AesGcm.Operation.encrypt zeros directCipher noScope ⟨.null, 1, 2, onePayload⟩ =
      .ok (directEncrypted, directCiphertext) := rfl

/-- The key for the signature comes first, and the other one does not wrap. -/
theorem macSigned_verified :
    macSigned.verify (boundKeys ["mac", "direct"]).key ⟨.null, 1, 2, onePayload⟩ = .ok () ∧
      directEncrypted.decrypt (boundKeys ["mac", "direct"]).key
        ⟨.null, 1, 2, onePayload.encrypted 1 directCiphertext⟩ = .ok [0x41] := by
  constructor
  · refine ((PatternKeySource.genuine_iff SealingCiphers.ideal_lawful
      (accepts_boundKeys "mac" (by simp) rfl)).1 zeros noScope 1 2 onePayload onePayload macSigned
      (wrappingMac_alone _) (fun _ => wrappingMac_holds (by decide)) sign_wrappingMac
      ⟨rfl, rfl, rfl⟩).mpr ?_
    rintro - j ⟨before, kid, after, hkids, hj, -, hbefore⟩
    rcases before with _ | ⟨kid', before⟩
    · cases hkids
      cases hj
      exact ⟨rfl, rfl, rfl⟩
    · obtain ⟨rfl, -⟩ := List.cons.inj hkids
      exact absurd (wrappingMac_holds (by decide)) (hbefore "mac" (by simp) wrappingMac rfl)
  · refine ((PatternKeySource.genuine_iff SealingCiphers.ideal_lawful
      (accepts_boundKeys "direct" (by simp) rfl)).2 zeros noScope 1 2 onePayload _ directEncrypted {} [0x41]
      directCiphertext directCipher_alone nofun encrypt_directCipher
      (by decide) ⟨rfl, rfl, rfl⟩ rfl).mpr nofun

end

end Hardy.Bpsec
