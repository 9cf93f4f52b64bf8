import Hardy.Cbor.Spelling

/-!
# Heads of any width

The decoder takes heads that are longer than they have to be, and any tags in front of them.
`MarkerBytes` says which bytes it takes for a head, without a word about how it takes them
(`head_bytes`).
-/

namespace Hardy.Cbor

inductive HeadBytes (major : Nat) : Nat → Bytes → Prop where
  | inline {v : Nat} : v < 24 → HeadBytes major v [markerByte major v]
  | wide {n : Nat} {b : Bytes} : n < 4 → b.length = 2 ^ n →
      HeadBytes major (beNat b) (markerByte major (24 + n) :: b)

inductive TagHeads : Bytes → Prop where
  | nil : TagHeads []
  | snoc {t e : Bytes} {tag : Nat} : TagHeads t → HeadBytes 6 tag e → TagHeads (t ++ e)

/-- The bytes of a marker that has a length or a value, or of an open array. -/
structure MarkerBytes (marker : Marker) (e : Bytes) : Prop where
  sized : ∀ major v, major ≤ 5 → marker = .ofMajor major v → HeadBytes major v e
  array : marker = .array none → e = [0x9F]

variable {c : Cursor UInt8 Nat}

theorem argument_bytes {minor v st : Nat} {s : Bool} {d : Bytes}
    (h : argument minor ⟨st, d⟩ = .ok ((v, s), c)) (major : Nat) :
    ∃ e, markerByte major minor :: d = e ++ c.rest ∧ HeadBytes major v e := by
  rw [argument_eq] at h
  split at h
  · next hlt =>
      obtain ⟨hv, rfl⟩ := Scan.pure_ok_iff.mp h
      cases hv
      exact ⟨_, rfl, .inline hlt⟩
  split at h
  · next n lim hsize =>
      obtain ⟨b, c₁, hb, h⟩ := Scan.bind_ok h
      obtain ⟨hv, rfl⟩ := Scan.pure_ok_iff.mp h
      obtain ⟨rfl, -⟩ := Prod.mk.inj hv
      obtain ⟨hd, hlen, -⟩ := takeBytes_ok.mp hb
      refine ⟨markerByte major minor :: b, by rw [hd]; rfl, ?_⟩
      rw [argSize.eq_def] at hsize
      split at hsize <;> cases hsize
      · exact .wide (n := 0) (by decide) hlen
      · exact .wide (n := 1) (by decide) hlen
      · exact .wide (n := 2) (by decide) hlen
      · exact .wide (n := 3) (by decide) hlen
  · cases h

theorem slowMarker_bytes {marker : UInt8} {s s' : Bool} {m : Marker} {st : Nat} {d : Bytes}
    (h : slowMarker marker s ⟨st, d⟩ = .ok ((m, s'), c)) :
    ∃ e, marker :: d = e ++ c.rest ∧ MarkerBytes m e := by
  by_cases h5 : majorOf marker ≤ 5
  · rw [slowMarker_of_le h5] at h
    split at h
    · next hopen =>
        obtain ⟨hm, rfl⟩ := Scan.pure_ok_iff.mp h
        obtain ⟨rfl, -⟩ := Prod.mk.inj hm
        refine ⟨[marker], rfl, fun major v _ hsized => ?_, fun harray => ?_⟩
        · have := congrArg Marker.sized hsized
          rw [Marker.ofMajor_sized, Marker.ofIndefinite_sized] at this
          cases this
        · have hmajor : majorOf marker = 4 := by
            generalize majorOf marker = major at harray h5 hopen
            obtain ⟨-, h2⟩ := hopen
            interval_cases major <;> simp_all [Marker.ofIndefinite]
          rw [← markerByte_eq marker, hmajor, hopen.1]
          rfl
    · obtain ⟨⟨w, t⟩, c₁, harg, h⟩ := Scan.bind_ok h
      obtain ⟨hm, rfl⟩ := Scan.pure_ok_iff.mp h
      obtain ⟨rfl, -⟩ := Prod.mk.inj hm
      obtain ⟨e, he, hbytes⟩ := argument_bytes harg (majorOf marker)
      rw [markerByte_eq] at he
      refine ⟨e, he, fun major v hM hsized => ?_, fun harray => ?_⟩
      · obtain ⟨hmajor, hv⟩ := Marker.ofMajor_inj h5 hM hsized
        rw [← hmajor, ← hv]
        exact hbytes
      · have := Marker.ofMajor_sized (majorOf marker) w
        rw [harray] at this
        cases this
  · obtain ⟨hsized, harray⟩ := slowMarker_sized (by omega) s _ _ _ h
    obtain ⟨u, hd, -⟩ := (slowMarker_resumes marker s).stepwise.ok h
    refine ⟨marker :: u, by rw [hd]; rfl, fun major v _ hm => ?_, fun hm => absurd hm harray⟩
    rw [show m = _ from hm, Marker.ofMajor_sized] at hsized
    cases hsized

theorem head_bytes {st : Nat} {d : Bytes} {head : Head} {s : Bool}
    (h : Head.fromCbor ⟨st, d⟩ = .ok ((head, s), c)) :
    ∃ t e, d = t ++ (e ++ c.rest) ∧ TagHeads t ∧ MarkerBytes head.marker e := by
  rw [Head.fromCbor_eq, readHead] at h
  refine Scan.loop_invariant headRound_progress
    (P := fun _ c => ∃ t, d = t ++ c.rest ∧ TagHeads t)
    (Q := fun p c => ∃ t e, d = t ++ (e ++ c.rest) ∧ TagHeads t ∧ MarkerBytes p.1.marker e)
    ?_ ?_ (Nat.lt_succ_self _) ⟨[], rfl, .nil⟩ h
  · rintro acc acc' ⟨st, r⟩ c' ⟨t, hd, ht⟩ hround
    obtain ⟨marker, ⟨st₁, r₁⟩, hbyte, hround⟩ := Scan.bind_ok hround
    split at hround
    · next h6 =>
        obtain ⟨⟨tag, s⟩, c₂, harg, hround⟩ := Scan.bind_ok hround
        obtain ⟨-, rfl⟩ := Scan.pure_ok_iff.mp hround
        obtain ⟨e, he, hbytes⟩ := argument_bytes harg 6
        rw [← h6, markerByte_eq] at he
        refine ⟨t ++ e, ?_, .snoc ht hbytes⟩
        rw [hd, (byte_ok.mp hbyte).1, List.append_assoc, ← he]
    · obtain ⟨p, c₂, -, hround⟩ := Scan.bind_ok hround
      cases (Scan.pure_ok_iff.mp hround).1
  · rintro acc p ⟨st, r⟩ c' ⟨t, hd, ht⟩ hround
    obtain ⟨marker, ⟨st₁, r₁⟩, hbyte, -, hslow⟩ := headRound_head hround
    obtain ⟨e, he, hmarker⟩ := slowMarker_bytes hslow
    refine ⟨t, e, ?_, ht, hmarker⟩
    rw [hd, (byte_ok.mp hbyte).1, he]

theorem head_takes {st : Nat} {d : Bytes} {head : Head} {s : Bool}
    (h : Head.fromCbor ⟨st, d⟩ = .ok ((head, s), c)) :
    ∃ t e, d = t ++ e ++ c.rest ∧ c.st = st + (t ++ e).length ∧ TagHeads t ∧
      MarkerBytes head.marker e := by
  obtain ⟨t, e, hd, ht, he⟩ := head_bytes h
  obtain ⟨u, hu, hlen, -⟩ := head_resumes.stepwise.ok h
  obtain rfl : u = t ++ e := by
    rw [← List.append_assoc, hu] at hd
    exact List.append_cancel_right hd
  exact ⟨t, e, hu, hlen, ht, he⟩

end Hardy.Cbor
