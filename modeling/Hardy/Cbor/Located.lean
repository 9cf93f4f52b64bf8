import Hardy.Cbor.Decode

/-!
# Decoders that keep places

A decoder may return where a value stands in the data instead of the value.  `Shows` compares it
with the decoder that returns the value: both stop at the same cursor or fail with the same error,
and `f` takes the one result to the other.  The places are absolute, so the comparison is for a
cursor that is `Placed`: what is unread there is the data behind the base of the series and its
offset.
-/

namespace Hardy

namespace Scan

variable {ε τ σ α α' β β' : Type} {pos : σ → Nat} {data : List τ} {base : Nat}
  {c c' : Cursor τ σ}

/-- The unread tokens are those of the data behind `base` and what the bookkeeping adds to it. -/
structure Placed (pos : σ → Nat) (data : List τ) (base : Nat) (c : Cursor τ σ) : Prop where
  le : base + pos c.st ≤ data.length
  rest : c.rest = data.drop (base + pos c.st)

variable {m : Scan ε τ σ α}

theorem Tracks.placed (hm : Tracks pos m) (hc : Placed pos data base c) {a : α}
    (h : m c = .ok (a, c')) : Placed pos data base c' := by
  obtain ⟨u, hu, hpos⟩ := hm c.st c.rest a c' h
  rw [hc.rest] at hu
  have hlen := congrArg List.length hu
  rw [List.length_drop, List.length_append] at hlen
  have hle := hc.le
  refine ⟨by omega, ?_⟩
  rw [hpos, ← Nat.add_assoc, ← List.drop_drop, hu, List.drop_left]

/-- `m'` returns `f` of what `m` returns, and `P` holds of that. -/
structure Shows (pos : σ → Nat) (data : List τ) (base : Nat) (f : α → β) (P : α → Prop)
    (m : Scan ε τ σ α) (m' : Scan ε τ σ β) (c : Cursor τ σ) : Prop where
  same : m' c = (m c).map fun r => (f r.1, r.2)
  ok : ∀ a c', m c = .ok (a, c') → Placed pos data base c' ∧ P a

variable {f : α → β} {P : α → Prop}

theorem Tracks.shows (hm : Tracks pos m) (hc : Placed pos data base c) :
    Shows pos data base id (fun _ => True) m m c where
  same := by cases m c <;> rfl
  ok _ _ h := ⟨hm.placed hc h, trivial⟩

namespace Shows

theorem pure {a : α} (ha : P a) (hc : Placed pos data base c) :
    Shows pos data base f P (pure a : Scan ε τ σ α) (pure (f a)) c where
  same := rfl
  ok _ _ h := by
    cases h
    exact ⟨hc, ha⟩

theorem throw (x : ε) : Shows pos data base f P (throw x : Scan ε τ σ α) (throw x) c where
  same := rfl
  ok _ _ h := by cases h

theorem bind {g : α' → β'} {Q : α' → Prop} {m' : Scan ε τ σ β}
    {k : α → Scan ε τ σ α'} {k' : β → Scan ε τ σ β'} (hm : Shows pos data base f P m m' c)
    (hk : ∀ a c', m c = .ok (a, c') → Placed pos data base c' → P a →
      Shows pos data base g Q (k a) (k' (f a)) c') :
    Shows pos data base g Q (m >>= k) (m' >>= k') c := by
  constructor
  · rw [bind_apply, bind_apply, hm.same]
    cases h : m c with
    | error x => rfl
    | ok r =>
      obtain ⟨hplaced, hp⟩ := hm.ok r.1 r.2 h
      exact (hk r.1 r.2 h hplaced hp).same
  · intro b c' h
    obtain ⟨a, c₁, h₁, h₂⟩ := bind_ok h
    obtain ⟨hplaced, hp⟩ := hm.ok a c₁ h₁
    exact (hk a c₁ h₁ hplaced hp).ok b c' h₂

theorem after {γ : Type} {m : Scan ε τ σ γ} {k : γ → Scan ε τ σ α} {k' : γ → Scan ε τ σ β}
    (hm : Tracks pos m) (hc : Placed pos data base c)
    (hk : ∀ a c', m c = .ok (a, c') → Placed pos data base c' →
      Shows pos data base f P (k a) (k' a) c') : Shows pos data base f P (m >>= k) (m >>= k') c :=
  (hm.shows hc).bind fun a c' h hplaced _ => hk a c' h hplaced

theorem mapErr {ε' : Type} (e : ε → ε') {m' : Scan ε τ σ β} (hm : Shows pos data base f P m m' c) :
    Shows pos data base f P (mapErr e m) (mapErr e m') c where
  same := by
    rw [Scan.mapErr, Scan.mapErr, hm.same]
    cases m c <;> rfl
  ok a c' h := hm.ok a c' (mapErr_ok.mp h)

theorem loop (out : ε) {g : α' → β'} {I : α' → Prop} {body : α' → Scan ε τ σ (α' ⊕ α)}
    {body' : β' → Scan ε τ σ (β' ⊕ β)}
    (hbody : ∀ b c, Placed pos data base c → I b →
      Shows pos data base (Sum.map g f) (Sum.elim I P) (body b) (body' (g b)) c)
    {b : α'} (hb : I b) (hc : Placed pos data base c) :
    Shows pos data base f P (loop out body b) (loop out body' (g b)) c := by
  have hfuel : ∀ n b c, I b → Placed pos data base c →
      Shows pos data base f P (loopFuel out body n b) (loopFuel out body' n (g b)) c := by
    intro n
    induction n with
    | zero => exact fun _ _ _ _ => .throw out
    | succ n ih =>
      intro b c hb hc
      refine (hbody b c hc hb).bind fun r c' _ hplaced hr => ?_
      cases r with
      | inl b' => exact ih b' c' hr hplaced
      | inr a => exact .pure hr hplaced
  have hrun := hfuel (c.rest.length + 1) b c hb hc
  exact ⟨hrun.same, hrun.ok⟩

end Shows

end Scan

namespace Cbor

open Scan

variable {ε α β : Type} [FromCborError ε] {data : Bytes} {base : Nat} {f : α → β} {P : α → Prop}
  {c : Cursor UInt8 Series}

omit [FromCborError ε] in
theorem offset_shows {k : Nat → Ser ε α} {m' : Ser ε β}
    (h : Shows Series.offset data base f P (k c.st.offset) m' c) :
    Shows Series.offset data base f P (offset >>= k) m' c :=
  ⟨h.same, h.ok⟩

theorem unlessEnd_shows {D : Nat} {stop more : Ser ε α} {stop' more' : Ser ε β}
    (hc : Placed Series.offset data base c)
    (hs : ∀ c, Placed Series.offset data base c → Shows Series.offset data base f P stop stop' c)
    (hm : Shows Series.offset data base f P more more' c) :
    Shows Series.offset data base f P (unlessEnd D stop more) (unlessEnd D stop' more') c := by
  refine .after (.mapErr _ (atEnd_tracks D)) hc fun isEnd c' h hplaced => ?_
  cases isEnd with
  | true => exact hs c' hplaced
  | false =>
    rw [atEnd_false (mapErr_ok.mp h)]
    exact hm

theorem item_shows {D : Nat} {m : Dec ε α} {m' : Dec ε β} (hc : Placed Series.offset data base c)
    (hm : Shows id data (base + c.st.offset) f P m m' ⟨0, c.rest⟩) :
    Shows Series.offset data base f P (Series.item D m) (Series.item D m') c := by
  refine unlessEnd_shows hc (fun _ _ => .throw _) ⟨?_, fun a c' h => ?_⟩
  · rw [subItem, subItem, within, within, hm.same]
    cases m ⟨0, c.rest⟩ <;> rfl
  · obtain ⟨len, h, hst⟩ := within_ok.mp h
    obtain ⟨hplaced, hp⟩ := hm.ok a _ h
    have hle := hplaced.le
    have hrest := hplaced.rest
    simp only [id] at hle hrest
    refine ⟨⟨?_, ?_⟩, hp⟩
    · rw [hst]
      simp only
      omega
    · rw [hst, ← Nat.add_assoc]
      exact hrest

theorem complete_shows {D : Nat} {a : α} (ha : P a) (hc : Placed Series.offset data base c) :
    Shows Series.offset data base f P (complete D a : Ser ε α) (complete D (f a)) c :=
  unlessEnd_shows hc (fun _ hc => .pure ha hc) (.throw _)

theorem withSeries_shows {D : Nat} {count : Option Nat} {m : Ser ε α} {m' : Ser ε β}
    {c : Cursor UInt8 Nat} (hc : Placed id data base c)
    (hm : ∀ c, Placed Series.offset data base c → Shows Series.offset data base f P m m' c) :
    Shows id data base f P (withSeries D count m) (withSeries D count m') c := by
  rw [withSeries, withSeries, overSeries, overSeries]
  split
  · exact .throw _
  · next n _ =>
      have hstart : Placed Series.offset data base ⟨⟨n, c.st, 0⟩, c.rest⟩ := ⟨hc.le, hc.rest⟩
      have hrun := (hm _ hstart).bind (g := f) (Q := P) fun a c' _ hplaced ha =>
        complete_shows (ε := ε) (D := D) ha hplaced
      refine ⟨?_, fun a c' h => ?_⟩
      · rw [within, within, hrun.same]
        cases (m >>= fun r => complete D r) ⟨⟨n, c.st, 0⟩, c.rest⟩ <;> rfl
      · obtain ⟨st', h, hst⟩ := within_ok.mp h
        obtain ⟨hplaced, ha⟩ := hrun.ok a _ h
        refine ⟨⟨?_, ?_⟩, ha⟩
        · rw [hst]
          exact hplaced.le
        · rw [hst]
          exact hplaced.rest

theorem parseArray_shows {m : Bool → List Nat → Ser ε α} {m' : Bool → List Nat → Ser ε β}
    {c : Cursor UInt8 Nat} (hc : Placed id data base c)
    (hm : ∀ s t c, Placed Series.offset data base c →
      Shows Series.offset data base f P (m s t) (m' s t) c) :
    Shows id data base f P (parseArray m) (parseArray m') c := by
  refine .after head_resumes.lift.stepwise.tracks hc fun p c' _ hplaced => ?_
  obtain ⟨head, shortest⟩ := p
  dsimp only
  split
  · exact withSeries_shows hplaced (hm _ _)
  · exact .throw _

theorem parseSequence_shows {m : Ser ε α} {m' : Ser ε β} {c : Cursor UInt8 Nat}
    (hc : Placed id data base c)
    (hm : ∀ c', Placed Series.offset data (base + c.st) c' →
      Shows Series.offset data (base + c.st) f P m m' c') :
    Shows id data base f P (parseSequence m) (parseSequence m') c := by
  have hstart : Placed Series.offset data (base + c.st) ⟨⟨none, 0, 0⟩, c.rest⟩ :=
    ⟨hc.le, hc.rest⟩
  have hrun := (hm _ hstart).bind (g := f) (Q := P) fun a c' _ hplaced ha =>
    complete_shows (ε := ε) (D := 0) ha hplaced
  refine ⟨?_, fun a c' h => ?_⟩
  · rw [parseSequence, parseSequence, within, within, hrun.same]
    cases (m >>= fun r => complete 0 r) ⟨⟨none, 0, 0⟩, c.rest⟩ <;> rfl
  · obtain ⟨st', h, hst⟩ := within_ok.mp h
    obtain ⟨hplaced, ha⟩ := hrun.ok a _ h
    have hplace : base + (c.st + st'.offset) = base + c.st + st'.offset := (Nat.add_assoc ..).symm
    refine ⟨⟨?_, ?_⟩, ha⟩
    · rw [hst, id, hplace]
      exact hplaced.le
    · rw [hst, id, hplace]
      exact hplaced.rest

omit [FromCborError ε] in
theorem runDec_ok {m : Dec ε α} {a : α} {n : Nat} :
    runDec m data = .ok (a, n) ↔ ∃ rest, m ⟨0, data⟩ = .ok (a, ⟨n, rest⟩) := by
  unfold runDec
  cases m ⟨0, data⟩ with
  | error x =>
    constructor
    · rintro ⟨⟩
    · rintro ⟨_, ⟨⟩⟩
  | ok r =>
    constructor
    · rintro ⟨⟩
      exact ⟨r.2.rest, rfl⟩
    · rintro ⟨rest, ⟨⟩⟩
      rfl

theorem placed_item (hc : Placed Series.offset data base c) :
    Placed id data (base + c.st.offset) ⟨0, c.rest⟩ := ⟨hc.le, hc.rest⟩

end Cbor

end Hardy
