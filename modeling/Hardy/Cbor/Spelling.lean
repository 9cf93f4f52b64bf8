import Mathlib.Data.List.Induction
import Hardy.Canonical

/-!
# One spelling for each item

The converse of `Reads`: a head that the decoder flags as shortest, without tags,
is the one that the encoder emits.  So what follows from a flag about the bytes
is told by `Spells m a e`: whatever the decoder `m` reads as `a` is spelled `e`.
-/

namespace Hardy.Cbor

/-! ## Big-endian numbers -/

theorem beBytes_beNat (b : Bytes) : beBytes b.length (beNat b) = b := by
  induction b using List.reverseRecOn with
  | nil => rfl
  | append_singleton b x ih =>
    have hx := x.toNat_lt
    have hdiv : (beNat b * 256 + x.toNat) / 256 = beNat b := by omega
    rw [List.length_append, List.length_singleton, beBytes, beNat_concat, hdiv, ih]
    congr 2
    apply UInt8.toNat_inj.mp
    rw [UInt8.toNat_ofNat']
    omega

theorem markerByte_eq (b : UInt8) : markerByte (majorOf b) (minorOf b) = b := by
  have hb := b.toNat_lt
  apply UInt8.toNat_inj.mp
  rw [markerByte, majorOf, minorOf, UInt8.toNat_ofNat']
  omega

/-! ## Heads -/

variable {c : Cursor UInt8 Nat}

theorem takeBytes_spelled {n st : Nat} {d b : Bytes} (h : takeBytes n ⟨st, d⟩ = .ok (b, c)) :
    d = beBytes n (beNat b) ++ c.rest ∧ beNat b < 256 ^ n := by
  obtain ⟨hd, rfl, -⟩ := takeBytes_ok.mp h
  exact ⟨by rw [beBytes_beNat]; exact hd, beNat_lt b⟩

variable {d : Bytes}

theorem argument_spelled {minor v st : Nat}
    (h : argument minor ⟨st, d⟩ = .ok ((v, true), c)) (major : Nat) :
    markerByte major minor :: d = emitUintMinor major v ++ c.rest := by
  rw [argument_eq] at h
  split at h
  · next hlt =>
      obtain ⟨hv, rfl⟩ := Scan.pure_ok_iff.mp h
      cases hv
      rw [emitUintMinor, if_pos hlt]
      rfl
  split at h
  · next n lim hsize =>
      obtain ⟨b, c₁, hb, h⟩ := Scan.bind_ok h
      obtain ⟨hv, rfl⟩ := Scan.pure_ok_iff.mp h
      obtain ⟨rfl, hlim⟩ := Prod.mk.inj hv
      have hlim := of_decide_eq_true hlim.symm
      obtain ⟨hd, hlt⟩ := takeBytes_spelled hb
      rw [emitUintMinor, hd]
      rw [argSize.eq_def] at hsize
      split at hsize
      all_goals cases hsize
      · rw [if_neg (by omega), if_pos (by omega)]
        rfl
      · rw [if_neg (by omega), if_neg (by omega), if_pos (by omega)]
        rfl
      · rw [if_neg (by omega), if_neg (by omega), if_neg (by omega), if_pos (by omega)]
        rfl
      · rw [if_neg (by omega), if_neg (by omega), if_neg (by omega), if_neg (by omega)]
        rfl
  · cases h

theorem Marker.ofMajor_inj {major major' v v' : Nat} (hM : major ≤ 5) (hM' : major' ≤ 5)
    (h : ofMajor major v = ofMajor major' v') : major = major' ∧ v = v' := by
  interval_cases major <;> interval_cases major' <;> cases h <;> exact ⟨rfl, rfl⟩

def Marker.sized : Marker → Bool
  | .unsignedInteger _ | .negativeInteger _ => Bool.true
  | .bytes len | .text len | .array len | .map len => len.isSome
  | _ => Bool.false

theorem Marker.ofMajor_sized (major v : Nat) : (ofMajor major v).sized = Bool.true := by
  rw [ofMajor.eq_def]
  split <;> rfl

theorem Marker.ofIndefinite_sized (major : Nat) : (ofIndefinite major).sized = Bool.false := by
  rw [ofIndefinite.eq_def]
  split <;> rfl

theorem slowMarker_sized {marker : UInt8} (hM : 5 < majorOf marker) (s : Bool) :
    Scan.Yields (slowMarker marker s) fun p => p.1.sized = false ∧ p.1 ≠ .array none := by
  have hle : ∀ {n}, majorOf marker = n → n ≤ 5 → False := by
    intro n h hn
    omega
  rw [slowMarker.eq_def]
  split
  all_goals first
    | exact (hle (by assumption) (by decide)).elim
    | exact .pure ⟨rfl, by simp⟩
    | exact .of_bind fun v => .pure ⟨rfl, by simp⟩
    | skip
  · refine .of_bind fun v => ?_
    split
    · exact .throw _
    · exact .pure ⟨rfl, by simp⟩
  · split
    · exact .pure ⟨rfl, by simp⟩
    · exact .throw _

theorem slowMarker_spelled {marker : UInt8} {s : Bool} {major v st : Nat} (hM : major ≤ 5)
    (h : slowMarker marker s ⟨st, d⟩ = .ok ((.ofMajor major v, true), c)) :
    marker :: d = emitUintMinor major v ++ c.rest ∧ s = true := by
  by_cases h5 : majorOf marker ≤ 5
  · rw [slowMarker_of_le h5] at h
    split at h
    · obtain ⟨hm, -⟩ := Scan.pure_ok_iff.mp h
      have := congrArg Marker.sized (Prod.mk.inj hm).1
      rw [Marker.ofMajor_sized, Marker.ofIndefinite_sized] at this
      cases this
    · obtain ⟨⟨w, t⟩, c₁, harg, h⟩ := Scan.bind_ok h
      obtain ⟨hm, rfl⟩ := Scan.pure_ok_iff.mp h
      obtain ⟨hmarker, hs⟩ := Prod.mk.inj hm
      obtain ⟨rfl, rfl⟩ := Marker.ofMajor_inj hM h5 hmarker
      obtain ⟨rfl, rfl⟩ := Bool.and_eq_true_iff.mp hs.symm
      refine ⟨?_, rfl⟩
      rw [← argument_spelled harg, markerByte_eq]
  · have hsized : (Marker.ofMajor major v).sized = false :=
      (slowMarker_sized (by omega) s _ _ _ h).1
    rw [Marker.ofMajor_sized] at hsized
    cases hsized

/-! ## The spelling of an item -/

/-- What `m` reads as `a` is `e`. -/
def Spells {ε α : Type} (m : Dec ε α) (a : α) (e : Bytes) : Prop :=
  ∀ st d c, m ⟨st, d⟩ = .ok (a, c) → d = e ++ c.rest

variable {c c' : Cursor UInt8 Nat}

theorem headRound_tags {acc acc' : List Nat × Bool}
    (h : headRound acc c = .ok (.inl acc', c')) : acc'.1 ≠ [] := by
  obtain ⟨marker, c₁, -, h⟩ := Scan.bind_ok h
  split at h
  · obtain ⟨⟨tag, s⟩, c₂, -, h⟩ := Scan.bind_ok h
    obtain ⟨hacc, -⟩ := Scan.pure_ok_iff.mp h
    cases hacc
    exact List.append_ne_nil_of_right_ne_nil _ (List.cons_ne_nil _ _)
  · obtain ⟨p, c₂, -, h⟩ := Scan.bind_ok h
    cases (Scan.pure_ok_iff.mp h).1

theorem headRound_head {acc : List Nat × Bool} {p : Head × Bool}
    (h : headRound acc c = .ok (.inr p, c')) : ∃ marker c₁,
      byte c = .ok (marker, c₁) ∧ p.1.tags = acc.1 ∧
        slowMarker marker acc.2 c₁ = .ok ((p.1.marker, p.2), c') := by
  obtain ⟨marker, c₁, hbyte, h⟩ := Scan.bind_ok h
  split at h
  · obtain ⟨q, c₂, -, h⟩ := Scan.bind_ok h
    cases (Scan.pure_ok_iff.mp h).1
  · obtain ⟨⟨m, s⟩, c₂, hslow, h⟩ := Scan.bind_ok h
    obtain ⟨hp, rfl⟩ := Scan.pure_ok_iff.mp h
    cases hp
    exact ⟨marker, c₁, hbyte, rfl, hslow⟩

theorem head_spells {major v : Nat} (hM : major ≤ 5) :
    Spells Head.fromCbor (⟨[], .ofMajor major v⟩, true) (emitUintMinor major v) := by
  intro st d c h
  rw [Head.fromCbor_eq, readHead, Scan.loop_unfold headRound_progress] at h
  split at h
  · cases h
  · next acc c₁ hround =>
      -- a tag of the first round would still be there
      have htags : ([] : List Nat) ≠ [] :=
        Scan.loop_invariant headRound_progress (P := fun acc _ => acc.1 ≠ [])
          (Q := fun p _ => p.1.tags ≠ []) (fun _ h => headRound_tags h)
          (fun hacc h => by
            obtain ⟨-, -, -, htags, -⟩ := headRound_head h
            rwa [htags])
          (Nat.lt_succ_self _) (headRound_tags hround) h
      exact absurd rfl htags
  · next p c₁ hround =>
      cases h
      obtain ⟨marker, ⟨st₁, d₁⟩, hbyte, -, hslow⟩ := headRound_head hround
      rw [(byte_ok.mp hbyte).1]
      exact (slowMarker_spelled hM hslow).1

theorem head_spells_st {major v st : Nat} (hM : major ≤ 5)
    (h : Head.fromCbor ⟨st, d⟩ = .ok ((⟨[], .ofMajor major v⟩, true), c)) :
    c.st = st + (emitUintMinor major v).length := by
  obtain ⟨u, hd, hst, -⟩ := head_resumes.stepwise.ok h
  have hu := head_spells hM _ _ _ h
  rw [hd] at hu
  rw [← List.append_cancel_right hu]
  exact hst

section

variable {ε α : Type} [FromCborError ε]

theorem Spells.untagged {m : Dec ε α} {a : α} {e : Bytes} (h : Spells m a e) :
    Spells (untagged m) a e := by
  intro st d c h'
  cases d with
  | nil => exact h _ _ _ h'
  | cons b d =>
    rw [Cbor.untagged, Scan.onNext_cons] at h'
    split at h'
    · cases h'
    · exact h _ _ _ h'

theorem u64_spells (v : Nat) : Spells u64 (v, true) (emitUint v) := by
  intro st d c h
  obtain ⟨⟨⟨tags, marker⟩, s⟩, c₁, hhead, h⟩ := Scan.bind_ok h
  dsimp only at h
  split at h
  · next w =>
      obtain ⟨hv, rfl⟩ := Scan.pure_ok_iff.mp h
      obtain ⟨rfl, hs⟩ := Prod.mk.inj hv
      obtain ⟨rfl, htags⟩ := Bool.and_eq_true_iff.mp hs.symm
      obtain rfl := List.isEmpty_iff.mp htags
      exact head_spells (Nat.zero_le 5) _ _ _ hhead
  · cases h

theorem item_ran {D n : Nat} {m : Dec ε α} {a : α} {s : Series}
    {c : Cursor UInt8 Series} (hs : s.count = some n) (h : Series.item D m ⟨s, d⟩ = .ok (a, c)) :
    (∃ len, m ⟨0, d⟩ = .ok (a, ⟨len, c.rest⟩)) ∧ c.st.count = some n ∧
      c.st.parsed = s.parsed + 1 ∧ s.parsed < n := by
  rw [Series.item, unlessEnd_definite hs] at h
  split at h
  · cases h
  · next hn =>
      obtain ⟨len, h, hst⟩ := Scan.within_ok.mp h
      rw [hst]
      exact ⟨⟨len, h⟩, hs, rfl, Nat.lt_of_not_le hn⟩

theorem item_spelled {D n : Nat} {m : Dec ε α} {a : α} {e d : Bytes} {s : Series}
    {c : Cursor UInt8 Series} (hm : Spells m a e) (hs : s.count = some n)
    (h : Series.item D m ⟨s, d⟩ = .ok (a, c)) :
    d = e ++ c.rest ∧ c.st.count = some n ∧ c.st.parsed = s.parsed + 1 ∧ s.parsed < n := by
  obtain ⟨⟨len, h⟩, hst⟩ := item_ran hs h
  exact ⟨hm _ _ _ h, hst⟩

theorem tryItem_spelled {D n : Nat} {m : Dec ε α} {o : Option α} {s : Series}
    {c : Cursor UInt8 Series} (hs : s.count = some n) (h : Series.tryItem D m ⟨s, d⟩ = .ok (o, c)) :
    (o = none ∧ c = ⟨s, d⟩ ∧ n ≤ s.parsed) ∨
      ∃ a, o = some a ∧ Series.item D m ⟨s, d⟩ = .ok (a, c) := by
  rw [Series.tryItem, unlessEnd_definite hs] at h
  split at h
  · next hn =>
      obtain ⟨rfl, rfl⟩ := Scan.pure_ok_iff.mp h
      exact .inl ⟨rfl, rfl, hn⟩
  · obtain ⟨a, c₁, hitem, h⟩ := Scan.bind_ok h
    obtain ⟨rfl, rfl⟩ := Scan.pure_ok_iff.mp h
    exact .inr ⟨a, rfl, hitem⟩

theorem itemCount_ok {D n : Nat} {k : Option Nat}
    (h : Series.itemCount D (some n) = .ok k) : k = some (n * max D 1) := by
  rw [Series.itemCount] at h
  split at h
  · exact (Except.ok.inj h).symm
  · cases h

theorem withSeries_ran {D st : Nat} {count : Option Nat} {body : Ser ε α} {a : α}
    (h : withSeries D count body ⟨st, d⟩ = .ok (a, c)) :
    ∃ n s r, Series.itemCount D count = .ok n ∧ body ⟨⟨n, st, 0⟩, d⟩ = .ok (a, ⟨s, r⟩) ∧
      ∀ k, s.count = some k → r = c.rest ∧ k ≤ s.parsed := by
  rw [withSeries, overSeries] at h
  cases hcount : Series.itemCount D count with
  | error x =>
    rw [hcount] at h
    cases h
  | ok n =>
    rw [hcount] at h
    obtain ⟨st', h, -⟩ := Scan.within_ok.mp h
    obtain ⟨b, ⟨s, r⟩, hbody, h⟩ := Scan.bind_ok h
    obtain rfl : a = b := unlessEnd_yields (P := (· = b)) (.pure rfl) (.throw _) _ _ _ h
    refine ⟨n, s, r, rfl, hbody, fun k hk => ?_⟩
    rw [complete, unlessEnd_definite hk] at h
    split at h
    · next hle => exact ⟨(congrArg Cursor.rest (Scan.pure_ok_iff.mp h).2).symm, hle⟩
    · cases h

omit [FromCborError ε] in
theorem onScalar_ok {m : Ser ε α} {a : α}
    (h : onScalar m c = .ok (a, c')) : c' = c ∧ ∃ c₀ c₁, m c₀ = .ok (a, c₁) := by
  rw [onScalar] at h
  split at h
  · cases h
  · next heq =>
      cases h
      exact ⟨rfl, _, _, heq⟩

theorem extent_spelled {len st : Nat} {d b : Bytes} (h : extent len ⟨st, d⟩ = .ok (b, c)) :
    d = b ++ c.rest ∧ b.length = len ∧ st + len < wordSize := by
  obtain ⟨off, c₁, hlook, h⟩ := Scan.bind_ok h
  cases hlook
  dsimp only at h
  split at h
  · next hfits =>
      obtain ⟨hd, hb, -⟩ := takeBytes_ok.mp h
      exact ⟨hd, hb, hfits⟩
  · cases h

/-- What `parse_value` handed to a closure that succeeded, and where the items of
an array or the bytes of a text are. -/
inductive Handed (f : Value → Bool → List Nat → Ser ε α) (head : Head) (s : Bool)
    (c₁ : Cursor UInt8 Nat) (a : α) (c : Cursor UInt8 Nat) : Prop where
  | uint {v : Nat} {c₂ c₃ : Cursor UInt8 Series} : head.marker = .unsignedInteger v →
      c₁.rest = c.rest → f (.unsignedInteger v) s head.tags c₂ = .ok (a, c₃) →
      Handed f head s c₁ a c
  | text {t : Bytes} {c₂ c₃ : Cursor UInt8 Series} : head.marker = .text (some t.length) →
      c₁.rest = t ++ c.rest → c₁.st + t.length < wordSize →
      f (.text t) s head.tags c₂ = .ok (a, c₃) → Handed f head s c₁ a c
  | array {count : Option Nat} : head.marker = .array count →
      withSeries 1 count (f (.array count.isSome) s head.tags) c₁ = .ok (a, c) →
      Handed f head s c₁ a c
  | other {v : Value} {s' : Bool} {c₂ c₃ : Cursor UInt8 Series} :
      (∀ n, v ≠ .unsignedInteger n) → (∀ t, v ≠ .text t) → (∀ b, v ≠ .array b) →
      f v s' head.tags c₂ = .ok (a, c₃) → Handed f head s c₁ a c

theorem parseValue_handed {f : Value → Bool → List Nat → Ser ε α} {a : α}
    (h : parseValue f c = .ok (a, c')) :
    ∃ head s c₁, Head.fromCbor c = .ok ((head, s), c₁) ∧ Handed f head s c₁ a c' := by
  obtain ⟨⟨head, s⟩, c₁, hhead, h⟩ := Scan.bind_ok h
  refine ⟨head, s, c₁, lift_ok_iff.mp hhead, ?_⟩
  -- closures that get neither a number, nor a text, nor an array
  have hother : ∀ (v : Value) (s' : Bool) (c₂ : Cursor UInt8 Nat),
      onScalar (f v s' head.tags) c₂ = .ok (a, c') → (∀ n, v ≠ .unsignedInteger n) →
      (∀ t, v ≠ .text t) → (∀ b, v ≠ .array b) → Handed f head s c₁ a c' := by
    intro v s' c₂ h hu ht ha
    obtain ⟨-, c₀, c₃, h⟩ := onScalar_ok h
    exact .other hu ht ha h
  obtain ⟨tags, marker⟩ := head
  cases marker with
  | unsignedInteger v =>
    obtain ⟨rfl, c₂, c₃, h⟩ := onScalar_ok h
    exact .uint rfl rfl h
  | negativeInteger v => exact hother _ _ _ h (by simp) (by simp) (by simp)
  | bytes len =>
    cases len with
    | none =>
      obtain ⟨p, c₂, -, h⟩ := Scan.bind_ok h
      exact hother _ _ _ h (by simp) (by simp) (by simp)
    | some len =>
      obtain ⟨off, c₂, -, h⟩ := Scan.bind_ok h
      obtain ⟨b, c₃, -, h⟩ := Scan.bind_ok h
      exact hother _ _ _ h (by simp) (by simp) (by simp)
  | text len =>
    cases len with
    | none =>
      obtain ⟨p, c₂, -, h⟩ := Scan.bind_ok h
      exact hother _ _ _ h (by simp) (by simp) (by simp)
    | some len =>
      obtain ⟨b, c₂, hext, h⟩ := Scan.bind_ok h
      obtain ⟨t, c₃, hutf, h⟩ := Scan.bind_ok h
      obtain ⟨hutf, rfl⟩ := verdict_ok.mp (lift_ok_iff.mp hutf)
      obtain ⟨hb, rfl, hfits⟩ := extent_spelled (lift_ok_iff.mp hext)
      rw [fromUtf8] at hutf
      split at hutf
      · cases hutf
        obtain ⟨rfl, c₄, c₅, h⟩ := onScalar_ok h
        exact .text rfl hb hfits h
      · cases hutf
  | array count => exact .array rfl h
  | map count =>
    obtain ⟨n, s', r, -, h, -⟩ := withSeries_ran h
    exact .other (by simp) (by simp) (by simp) h
  | _ => exact hother _ _ _ h (by simp) (by simp) (by simp)

end

end Hardy.Cbor
