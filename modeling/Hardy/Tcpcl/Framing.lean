import Hardy.Tcpcl.Codec

/-!
# The stream of TCPCLv4 messages

What the decoders do on more input and on less: a result that is not `Ok(None)` stays
(`Firm`), so a message is read back behind its encoding, whatever follows, and waited
for on every part of it.  A decoder takes off the buffer what its parse has read, which
is what the lengths on the wire say only where the extension items fill theirs.
-/

namespace Hardy.Tcpcl

open Cbor Decoder

/-! ## Bytes -/

/-- Only the end of the buffer is a reason to wait. -/
def short : Option Error → Option Nat
  | none => some 1
  | some _ => none

def Reads {α : Type} (m : Decoder α) (b : Bytes) (a : α) : Prop :=
  ∀ r, m ⟨(), b ++ r⟩ = .ok (a, ⟨(), r⟩)

section

variable {α β : Type} {m : Decoder α} {k : α → Decoder β} {a : α} {b : β} {x y : Bytes}

theorem Reads.pure (a : α) : Reads (pure a) [] a := fun _ => rfl

theorem Reads.bind (hm : Reads m x a) (hk : Reads (k a) y b) : Reads (m >>= k) (x ++ y) b := by
  intro r
  rw [List.append_assoc, Scan.bind_eq_of_ok (hm (y ++ r))]
  exact hk r

theorem Reads.bind_pure (hm : Reads m x a) (hk : Reads (k a) [] b) : Reads (m >>= k) x b := by
  have h := hm.bind hk
  rwa [List.append_nil] at h

theorem Reads.need {n : Nat} {k : Unit → Decoder β} (hk : Reads (k ()) y b) (hn : n ≤ y.length) :
    Reads (need n >>= k) y b := by
  intro r
  have hneed : Decoder.need n ⟨(), y ++ r⟩ = .ok ((), ⟨(), y ++ r⟩) :=
    if_neg (Nat.not_lt.mpr (hn.trans (by rw [List.length_append]; exact Nat.le_add_right _ _)))
  rw [Scan.bind_eq_of_ok hneed]
  exact hk r

theorem reads_getU8 (b : UInt8) : Reads getU8 [b] b := fun _ => rfl

theorem reads_splitTo (b : Bytes) : Reads (splitTo b.length) b b := by
  intro r
  refine (if_neg (Nat.not_lt.mpr ?_)).trans ?_
  · exact (Nat.le_add_right _ _).trans_eq List.length_append.symm
  · rw [List.take_left, List.drop_left]

theorem reads_skipType (b : UInt8) : Reads skipType [b] () := fun _ => rfl

theorem reads_number {n v : Nat} {ν : Type} {f : Nat → ν} (hv : v < 256 ^ n) :
    Reads (splitTo n >>= fun b => pure (f (beNat b))) (beBytes n v) (f v) := by
  have hsplit := reads_splitTo (beBytes n v)
  rw [length_beBytes] at hsplit
  refine hsplit.bind_pure ?_
  rw [beNat_beBytes_of_lt hv]
  exact Reads.pure (f v)

theorem reads_getU16 (n : UInt16) : Reads getU16 (putU16 n) n := by
  have h := reads_number (f := UInt16.ofNat) (n := 2) (v := n.toNat) n.toNat_lt
  rwa [UInt16.ofNat_toNat] at h

theorem reads_getU32 (n : UInt32) : Reads getU32 (putU32 n) n := by
  have h := reads_number (f := UInt32.ofNat) (n := 4) (v := n.toNat) n.toNat_lt
  rwa [UInt32.ofNat_toNat] at h

theorem reads_getU64 (n : UInt64) : Reads getU64 (putU64 n) n := by
  have h := reads_number (f := UInt64.ofNat) (n := 8) (v := n.toNat) n.toNat_lt
  rwa [UInt64.ofNat_toNat] at h

/-! ## Firm decoders -/

abbrev Firm (m : Decoder α) : Prop := Scan.Firm short m

theorem firm_pure (a : α) : Firm (pure a : Decoder α) := Scan.Firm.const (.ok a)

theorem firm_throw (e : Error) : Firm (throw (some e) : Decoder α) where
  ok h := by cases h
  hard h _ _ := h

theorem firm_need (n : Nat) : Firm (need n) where
  ok {st d a c} h r := by
    unfold need at h ⊢
    split at h
    · cases h
    · next hn =>
        cases h
        exact if_neg (Nat.not_lt.mpr ((Nat.not_lt.mp hn).trans
          ((Nat.le_add_right _ _).trans_eq List.length_append.symm)))
  hard {st d x} h hx r := by
    unfold need at h
    split at h
    · cases h
      cases hx
    · cases h

theorem firm_getU8 : Firm getU8 where
  ok {st d a c} h r := by
    cases d with
    | nil => cases h
    | cons b d =>
      cases h
      rfl
  hard {st d x} h hx r := by
    cases d with
    | nil =>
      cases h
      cases hx
    | cons b d => cases h

theorem splitTo_apply (n : Nat) (d : Bytes) : splitTo n ⟨(), d⟩ =
    if d.length < n then .error none else .ok (d.take n, ⟨(), d.drop n⟩) := rfl

variable {c : Cursor UInt8 Unit}

theorem splitTo_ok {n : Nat} {d : Bytes} {b : Bytes}
    (h : splitTo n ⟨(), d⟩ = .ok (b, c)) : n ≤ d.length ∧ b = d.take n ∧ c = ⟨(), d.drop n⟩ := by
  rw [splitTo_apply] at h
  split at h
  · cases h
  · next hn =>
      cases h
      exact ⟨Nat.not_lt.mp hn, rfl, rfl⟩

theorem firm_splitTo (n : Nat) : Firm (splitTo n) where
  ok {st d a c} h r := by
    obtain ⟨hn, rfl, rfl⟩ := splitTo_ok h
    refine (if_neg (Nat.not_lt.mpr ?_)).trans ?_
    · exact hn.trans ((Nat.le_add_right _ _).trans_eq List.length_append.symm)
    · rw [List.take_append_of_le_length hn, List.drop_append_of_le_length hn]
  hard {st d x} h hx r := by
    rw [splitTo_apply] at h
    split at h
    · cases h
      cases hx
    · cases h

theorem firm_skipType : Firm skipType := firm_getU8.bind fun _ => firm_pure ()

theorem firm_getU16 : Firm getU16 := (firm_splitTo 2).bind fun _ => firm_pure _

theorem firm_getU32 : Firm getU32 := (firm_splitTo 4).bind fun _ => firm_pure _

theorem firm_getU64 : Firm getU64 := (firm_splitTo 8).bind fun _ => firm_pure _

theorem Firm.cut (hm : Firm m) {p q : Bytes}
    (h : m ⟨(), p ++ q⟩ = .ok (a, c)) (hc : ∀ r : Bytes, c.rest ≠ r ++ q) :
    m ⟨(), p⟩ = .error none := by
  rcases hp : m ⟨(), p⟩ with (_ | e) | ⟨b, c'⟩
  · rfl
  · rw [hm.hard hp rfl q] at h
    cases h
  · rw [hm.ok hp q] at h
    cases h
    exact absurd rfl (hc c'.rest)

/-! ## Extension items -/

theorem firm_decodeExtensions (remaining consumed : Nat) (items : List ExtensionItem) :
    Firm (decodeExtensions remaining consumed items) := by
  induction remaining using Nat.strongRecOn generalizing consumed items with
  | ind remaining ih =>
    rw [decodeExtensions]
    split
    · exact firm_pure _
    · refine (firm_need 5).bind fun _ => firm_getU8.bind fun _ => firm_getU16.bind fun _ =>
        firm_getU16.bind fun _ => (firm_splitTo _).bind fun _ => ?_
      dsimp only
      split
      · exact firm_throw _
      · exact ih _ (by omega) _ _

def extensionsLength (items : List ExtensionItem) : Nat :=
  (items.map fun e => 1 + 2 + 2 + e.itemValue.length).sum

theorem reads_item (flags : ExtensionFlags → UInt8) (items : List ExtensionItem)
    (hlength : ∀ e ∈ items, e.itemLength.toNat = e.itemValue.length)
    (hflags : ∀ e ∈ items, ExtensionFlags.ofU8 (flags e.flags) = e.flags)
    (consumed : Nat) (old : List ExtensionItem) :
    Reads (decodeExtensions (extensionsLength items) consumed old)
      (items.flatMap fun e =>
        flags e.flags :: (putU16 e.itemType ++ (putU16 e.itemLength ++ e.itemValue)))
      (old ++ items, consumed + extensionsLength items) := by
  induction items generalizing consumed old with
  | nil =>
    rw [decodeExtensions, List.append_nil]
    exact Reads.pure _
  | cons e items ih =>
    have he := hlength e List.mem_cons_self
    have hsize : extensionsLength (e :: items) =
        5 + e.itemValue.length + extensionsLength items := rfl
    have hrest := ih (fun e he => hlength e (List.mem_cons_of_mem _ he))
      (fun e he => hflags e (List.mem_cons_of_mem _ he)) (consumed + (5 + e.itemValue.length))
      (old ++ [e])
    have hbytes : (e :: items).flatMap (fun e =>
          flags e.flags :: (putU16 e.itemType ++ (putU16 e.itemLength ++ e.itemValue))) =
        [flags e.flags] ++ (putU16 e.itemType ++ (putU16 e.itemLength ++ (e.itemValue ++
          items.flatMap fun e =>
            flags e.flags :: (putU16 e.itemType ++ (putU16 e.itemLength ++ e.itemValue))))) := by
      simp only [List.flatMap_cons, List.cons_append, List.append_assoc, List.nil_append]
    rw [decodeExtensions, if_neg (by omega), hbytes]
    refine Reads.need ?_ ?_
    · refine (reads_getU8 _).bind ((reads_getU16 _).bind ((reads_getU16 _).bind ?_))
      rw [he]
      refine (reads_splitTo _).bind ?_
      dsimp only
      rw [if_neg (by omega), hflags e List.mem_cons_self]
      rw [List.append_assoc, List.singleton_append, Nat.add_assoc] at hrest
      rw [hsize, Nat.add_sub_cancel_left]
      exact hrest
    · simp only [List.length_append, List.length_singleton, putU16, length_beBytes]
      omega

/-! ## What a decoder has read -/

/-- The decoder reads `k a` bytes for `a`. -/
def Drops {α : Type} (m : Decoder α) (k : α → Nat) : Prop :=
  ∀ d a c, m ⟨(), d⟩ = .ok (a, c) → c.rest = d.drop (k a) ∧ k a ≤ d.length

theorem Drops.bind {i : Nat} {k : α → Decoder β} {l : β → Nat} (hm : Drops m fun _ => i)
    (hk : ∀ a, Drops (k a) l) : Drops (m >>= k) fun b => i + l b := by
  intro d b c h
  obtain ⟨a, c₁, h₁, h₂⟩ := Scan.bind_ok h
  obtain ⟨hrest₁, hle₁⟩ := hm d a c₁ h₁
  obtain ⟨hrest, hle⟩ := hk a c₁.rest b c h₂
  rw [hrest₁] at hrest hle
  rw [List.length_drop] at hle
  dsimp only at hle hle₁ ⊢
  exact ⟨hrest.trans List.drop_drop, by omega⟩

theorem Drops.pure (a : α) : Drops (pure a : Decoder α) fun _ => 0 := by
  intro d b c h
  cases h
  exact ⟨rfl, Nat.zero_le _⟩

theorem need_ok {n : Nat} {d : Bytes} {u : Unit}
    (h : need n ⟨(), d⟩ = .ok (u, c)) : n ≤ d.length ∧ c = ⟨(), d⟩ := by
  unfold need at h
  split at h
  · cases h
  · next hn =>
      cases h
      exact ⟨Nat.not_lt.mp hn, rfl⟩

theorem drops_need (n : Nat) : Drops (need n) fun _ => 0 := by
  intro d b c h
  obtain ⟨-, rfl⟩ := need_ok h
  exact ⟨rfl, Nat.zero_le _⟩

theorem drops_getU8 : Drops getU8 fun _ => 1 := by
  intro d b c h
  cases d with
  | nil => cases h
  | cons b d =>
    cases h
    exact ⟨rfl, Nat.le_add_left 1 _⟩

theorem drops_splitTo (n : Nat) : Drops (splitTo n) fun _ => n := by
  intro d b c h
  obtain ⟨hn, -, rfl⟩ := splitTo_ok h
  exact ⟨rfl, hn⟩

theorem drops_skipType : Drops skipType fun _ => 1 := drops_getU8.bind fun _ => Drops.pure ()

theorem drops_getU16 : Drops getU16 fun _ => 2 := (drops_splitTo 2).bind fun _ => Drops.pure _

theorem drops_getU32 : Drops getU32 fun _ => 4 := (drops_splitTo 4).bind fun _ => Drops.pure _

theorem drops_getU64 : Drops getU64 fun _ => 8 := (drops_splitTo 8).bind fun _ => Drops.pure _

/-- The declared bytes of the list that no item takes up. -/
def unfilled (remaining : Nat) (d : Bytes) : Nat :=
  if remaining < 5 then remaining
  else unfilled (remaining - (5 + beNat ((d.drop 3).take 2))) (d.drop (5 + beNat ((d.drop 3).take 2)))
termination_by remaining
decreasing_by omega

theorem getU16_ok {d : Bytes} {n : UInt16}
    (h : getU16 ⟨(), d⟩ = .ok (n, c)) : n = .ofNat (beNat (d.take 2)) ∧ c = ⟨(), d.drop 2⟩ := by
  obtain ⟨b, c₁, h₁, h₂⟩ := Scan.bind_ok h
  obtain ⟨-, rfl, rfl⟩ := splitTo_ok h₁
  cases h₂
  exact ⟨rfl, rfl⟩

theorem decodeExtensions_ok {remaining consumed : Nat} {items items' : List ExtensionItem}
    {consumed' : Nat} {d : Bytes}
    (h : decodeExtensions remaining consumed items ⟨(), d⟩ = .ok ((items', consumed'), c)) :
    ∃ used, consumed' = consumed + used ∧ c.rest = d.drop used ∧ used ≤ d.length ∧
      remaining = used + unfilled remaining d := by
  induction remaining using Nat.strongRecOn generalizing consumed items d with
  | ind remaining ih =>
    rw [decodeExtensions] at h
    split at h
    · next hlt =>
        cases h
        refine ⟨0, rfl, rfl, Nat.zero_le _, ?_⟩
        rw [unfilled, if_pos hlt, Nat.zero_add]
    · next hge =>
        obtain ⟨_, c₀, h₀, hflags⟩ := Scan.bind_ok h
        obtain ⟨flags, c₁, h₁, htype⟩ := Scan.bind_ok hflags
        obtain ⟨itemType, c₂, h₂, hlen⟩ := Scan.bind_ok htype
        obtain ⟨itemLength, c₃, h₃, hvalue⟩ := Scan.bind_ok hlen
        obtain ⟨itemValue, c₄, h₄, hlast⟩ := Scan.bind_ok hvalue
        clear h hflags htype hlen hvalue
        have hneed := need_ok h₀
        obtain ⟨hd₁, -⟩ := drops_getU8 _ _ _ h₁
        obtain ⟨-, rfl⟩ := getU16_ok h₂
        obtain ⟨hlength, rfl⟩ := getU16_ok h₃
        obtain ⟨hle, -, rfl⟩ := splitTo_ok h₄
        obtain ⟨hfive, rfl⟩ := hneed
        dsimp only at hd₁ hlength hle hlast
        rw [hd₁, List.drop_drop] at hlength
        rw [hd₁, List.drop_drop, List.drop_drop] at hle hlast
        have hbound := beNat_lt ((d.drop (1 + 2)).take 2)
        have htake : ((d.drop (1 + 2)).take 2).length = 2 := by
          rw [List.length_take, List.length_drop]
          omega
        have hnat : itemLength.toNat = beNat ((d.drop 3).take 2) := by
          rw [hlength, UInt16.toNat_ofNat', Nat.mod_eq_of_lt]
          rw [htake] at hbound
          exact hbound
        have hitem : 1 + (2 + (2 + itemLength.toNat)) = 5 + itemLength.toNat := by omega
        rw [List.drop_drop, hitem] at hlast
        split at hlast
        · cases hlast
        · next hsize =>
            obtain ⟨used, hconsumed, hrest, hused, hunfilled⟩ := ih _ (by omega) hlast
            rw [List.length_drop] at hle hused
            refine ⟨5 + itemLength.toNat + used, by omega, ?_, by omega, ?_⟩
            · rw [hrest, List.drop_drop]
            · rw [unfilled, if_neg hge, ← hnat]
              omega

/-- The number that the decoder returns goes from `base` on by what it has read. -/
def Counts (m : Decoder (α × Nat)) (base : Nat) : Prop :=
  ∀ d a n c, m ⟨(), d⟩ = .ok ((a, n), c) →
    ∃ used, n = base + used ∧ c.rest = d.drop used ∧ used ≤ d.length

theorem Counts.pure (a : α) (base : Nat) : Counts (pure (a, base)) base := by
  intro d a n c h
  cases h
  exact ⟨0, rfl, rfl, Nat.zero_le _⟩

theorem Counts.bind {base i : Nat} {m : Decoder β} {k : β → Decoder (α × Nat)}
    (hm : Drops m fun _ => i) (hk : ∀ b, Counts (k b) (base + i)) : Counts (m >>= k) base := by
  intro d a n c h
  obtain ⟨b, c₁, h₁, h₂⟩ := Scan.bind_ok h
  obtain ⟨hrest₁, hle₁⟩ := hm d b c₁ h₁
  obtain ⟨used, hn, hrest, hle⟩ := hk b c₁.rest a n c h₂
  rw [hrest₁] at hrest hle
  rw [List.length_drop] at hle
  dsimp only at hrest hle hle₁
  exact ⟨i + used, by omega, hrest.trans List.drop_drop, by omega⟩

theorem Counts.map {base : Nat} {m : Decoder (β × Nat)} {f : β → α} (hm : Counts m base) :
    Counts (m >>= fun p => match p with | (b, n) => Pure.pure (f b, n)) base := by
  intro d a n c h
  obtain ⟨⟨b, n'⟩, c₁, h₁, h₂⟩ := Scan.bind_ok h
  cases h₂
  exact hm _ _ _ _ h₁

theorem counts_decodeExtensions (remaining consumed : Nat) (items : List ExtensionItem) :
    Counts (decodeExtensions remaining consumed items) consumed := by
  intro d a n c h
  obtain ⟨used, hn, hrest, hle, -⟩ := decodeExtensions_ok h
  exact ⟨used, hn, hrest, hle⟩

end

end Hardy.Tcpcl
