import Hardy.Cbor.Head

/-!
# Series of CBOR items

Model of `cbor/src/decode/series.rs`: the cursor over the items of an array,
a map or a bare sequence.  A `Series` holds the bookkeeping of the source's
`Series`; the bytes it has not read yet are the unread part of the scanner's
cursor, so `offset` never runs past the data.

The end of a series is found by looking at the next byte, and a look-ahead is
not resumable on its own.  What is resumable is a decision together with what
it decides about: `unlessEnd`.
-/

namespace Hardy.Cbor

/-- The bookkeeping of `Series<D>`: the number of items when it is known, the
offset into the enclosing slice and the number of items read. -/
structure Series where
  count : Option Nat
  offset : Nat
  parsed : Nat
deriving DecidableEq, Repr

abbrev Ser (ε α : Type) := Scan ε UInt8 Series α

/-- The item count that `Series::try_new` stores: a map of `n` pairs holds
`2 * n` items. -/
def Series.itemCount (D : Nat) (count : Option Nat) : Except Error (Option Nat) :=
  match count with
  | none => .ok none
  | some c => if c * max D 1 < wordSize then .ok (some (c * max D 1)) else .error .tooBig

/-- `Series::at_end`.  An indefinite series moves past its break byte and
becomes a definite one. -/
def atEnd (D : Nat) : Ser Error Bool := fun c =>
  match c.st.count with
  | some count => .ok (decide (count ≤ c.st.parsed), c)
  | none =>
    match c.rest with
    | [] =>
      if D = 0 then .ok (true, ⟨{ c.st with count := some c.st.parsed }, []⟩)
      else .error (.needMoreData 1)
    | b :: rest =>
      if 0 < D ∧ b = 0xFF then
        if c.st.parsed % D = 0 then
          .ok (true, ⟨⟨some c.st.parsed, c.st.offset + 1, c.st.parsed⟩, rest⟩)
        else .error .partialMap
      else .ok (false, c)

def isDefinite {ε : Type} : Ser ε Bool := Scan.look fun s => s.count.isSome

def offset {ε : Type} : Ser ε Nat := Scan.look Series.offset

section

variable {ε α : Type} [FromCborError ε]

def unlessEnd (D : Nat) (stop more : Ser ε α) : Ser ε α := do
  if ← lift (atEnd D) then stop else more

def complete (D : Nat) (t : α) : Ser ε α :=
  unlessEnd D (pure t) (throw (ofCbor .additionalItems))

/-- Run an item decoder on `&data[offset..]` and count the item. -/
def subItem (m : Dec ε α) : Ser ε α :=
  Scan.within (fun _ => 0)
    (fun s len => { s with parsed := s.parsed + 1, offset := s.offset + len }) m

/-- The common body of `Series::parse`, `parse_value`, `parse_array`,
`parse_map` and `skip_value`. -/
def Series.item (D : Nat) (m : Dec ε α) : Ser ε α :=
  unlessEnd D (throw (ofCbor .noMoreItems)) (subItem m)

/-- `Series::try_parse` and `try_parse_value` -/
def Series.tryItem (D : Nat) (m : Dec ε α) : Ser ε (Option α) :=
  unlessEnd D (pure none) (Series.item D m >>= fun x => pure (some x))

/-- Run a scanner over a fresh series that starts at the current offset. -/
def overSeries (D : Nat) (count : Option Nat) (body : Ser ε α) : Dec ε α :=
  match Series.itemCount D count with
  | .error x => throw (ofCbor x)
  | .ok n => Scan.within (fun offset => ⟨n, offset, 0⟩) (fun _ s => s.offset) body

/-- The same for a caller's closure, which has to use up the items. -/
def withSeries (D : Nat) (count : Option Nat) (body : Ser ε α) : Dec ε α :=
  overSeries D count (body >>= fun r => complete D r)

def parseArray (f : Bool → List Nat → Ser ε α) : Dec ε α := do
  let (head, shortest) ← lift Head.fromCbor
  match head.marker with
  | .array count => withSeries 1 count (f shortest head.tags)
  | _ => throw (ofCbor (.incorrectType "Array" head.itemType))

/-- `parse_sequence`: the items up to the end of the slice. -/
def parseSequence (f : Ser ε α) : Dec ε α :=
  Scan.within (fun _ => ⟨none, 0, 0⟩) (fun st s => st + s.offset)
    (f >>= fun r => complete 0 r)

/-! ## Deciding on the end -/

abbrev Walks (m : Ser ε α) : Prop := Scan.Resumable needMore Series.offset m

/-- Inside an indefinite series the scanner consumes input. -/
def Grabs (m : Ser ε α) : Prop :=
  ∀ st d a c, st.count = none → m ⟨st, d⟩ = .ok (a, c) → c.rest.length < d.length

variable {D : Nat} {stop more : Ser ε α} {st : Series}

theorem unlessEnd_definite {n : Nat} (hst : st.count = some n) (d : Bytes) :
    unlessEnd D stop more ⟨st, d⟩ =
      if n ≤ st.parsed then stop ⟨st, d⟩ else more ⟨st, d⟩ := by
  have h : (lift (atEnd D) : Ser ε Bool) ⟨st, d⟩ =
      .ok (decide (n ≤ st.parsed), ⟨st, d⟩) := by
    simp only [lift, Scan.mapErr_ok, atEnd, hst]
  rw [unlessEnd, Scan.bind_eq_of_ok h]
  by_cases hn : n ≤ st.parsed <;> simp [hn]

theorem unlessEnd_nil (hst : st.count = none) (hD : 0 < D) :
    unlessEnd D stop more ⟨st, []⟩ = .error (ofCbor (.needMoreData 1)) := by
  have h : (lift (atEnd D) : Ser ε Bool) ⟨st, []⟩ = .error (ofCbor (.needMoreData 1)) := by
    rw [lift, Scan.mapErr, atEnd, hst]
    simp only [if_neg (Nat.ne_of_gt hD)]
  rw [unlessEnd, Scan.bind_eq_of_error h]

/-- At the break byte an indefinite series turns into a definite one. -/
def Series.closed (st : Series) : Series := ⟨some st.parsed, st.offset + 1, st.parsed⟩

theorem unlessEnd_break (hst : st.count = none) (hD : 0 < D) (d : Bytes) :
    unlessEnd D stop more ⟨st, 0xFF :: d⟩ =
      if st.parsed % D = 0 then stop ⟨st.closed, d⟩ else .error (ofCbor .partialMap) := by
  by_cases hp : st.parsed % D = 0
  · have h : (lift (atEnd D) : Ser ε Bool) ⟨st, 0xFF :: d⟩ = .ok (true, ⟨st.closed, d⟩) := by
      simp only [lift, Scan.mapErr_ok, atEnd, hst, hD, hp, Series.closed, and_self, if_true]
    rw [unlessEnd, Scan.bind_eq_of_ok h, if_pos hp]
    rfl
  · have h : (lift (atEnd D) : Ser ε Bool) ⟨st, 0xFF :: d⟩ = .error (ofCbor .partialMap) := by
      simp only [lift, Scan.mapErr_error, atEnd, hst, hD, hp, and_self, if_true, if_false]
      exact ⟨_, rfl, rfl⟩
    rw [unlessEnd, Scan.bind_eq_of_error h, if_neg hp]

theorem unlessEnd_cons (hst : st.count = none) {b : UInt8} (hb : b ≠ 0xFF) (d : Bytes) :
    unlessEnd D stop more ⟨st, b :: d⟩ = more ⟨st, b :: d⟩ := by
  have h : (lift (atEnd D) : Ser ε Bool) ⟨st, b :: d⟩ = .ok (false, ⟨st, b :: d⟩) := by
    simp only [lift, Scan.mapErr_ok, atEnd, hst, hb, and_false, if_false]
  rw [unlessEnd, Scan.bind_eq_of_ok h]
  rfl

theorem unlessEnd_stepwise (hD : 0 < D)
    (hs : Scan.Stepwise needMore Series.offset stop)
    (hm : Scan.Stepwise needMore Series.offset more) (hg : Grabs more) :
    Scan.Stepwise needMore Series.offset (unlessEnd D stop more) where
  ok {st d a c} h := by
    cases hst : st.count with
    | some n =>
      simp only [unlessEnd_definite hst] at h ⊢
      split at h
      · next hn => simpa only [if_pos hn] using hs.ok h
      · next hn => simpa only [if_neg hn] using hm.ok h
    | none =>
      cases d with
      | nil =>
        rw [unlessEnd_nil hst hD] at h
        cases h
      | cons b d =>
        by_cases hb : b = 0xFF
        · rw [hb, unlessEnd_break hst hD] at h
          split at h
          · next hp =>
              obtain ⟨u, hd, hpos, hu⟩ := hs.ok h
              refine ⟨0xFF :: u, by rw [hb, hd]; rfl, ?_, fun r => ?_⟩
              · rw [hpos, List.length_cons]
                simp only [Series.closed]
                omega
              · rw [List.cons_append, unlessEnd_break hst hD, if_pos hp]
                exact hu r
          · cases h
        · rw [unlessEnd_cons hst hb] at h
          obtain ⟨u, hd, hpos, hu⟩ := hm.ok h
          have hlt := hg _ _ _ _ hst h
          refine ⟨u, hd, hpos, fun r => ?_⟩
          cases u with
          | nil =>
            rw [hd] at hlt
            exact absurd hlt (Nat.lt_irrefl _)
          | cons b' u =>
            obtain ⟨rfl, -⟩ := List.cons.inj hd
            rw [List.cons_append, unlessEnd_cons hst hb]
            exact hu r
  hard {st d x} h hx r := by
    cases hst : st.count with
    | some n =>
      simp only [unlessEnd_definite hst] at h ⊢
      split at h
      · next hn => simpa only [if_pos hn] using hs.hard h hx r
      · next hn => simpa only [if_neg hn] using hm.hard h hx r
    | none =>
      cases d with
      | nil =>
        rw [unlessEnd_nil hst hD] at h
        cases h
        rw [needMore_ofCbor] at hx
        cases hx
      | cons b d =>
        by_cases hb : b = 0xFF
        · rw [hb, unlessEnd_break hst hD] at h
          rw [hb, List.cons_append, unlessEnd_break hst hD]
          split at h
          · next hp => simpa only [if_pos hp] using hs.hard h hx r
          · next hp => simpa only [if_neg hp] using h
        · rw [unlessEnd_cons hst hb] at h
          rw [List.cons_append, unlessEnd_cons hst hb]
          exact hm.hard h hx r
  wait {st d x k} h hk := by
    cases hst : st.count with
    | some n =>
      simp only [unlessEnd_definite hst] at h ⊢
      split at h
      · next hn => simpa only [if_pos hn] using hs.wait h hk
      · next hn => simpa only [if_neg hn] using hm.wait h hk
    | none =>
      cases d with
      | nil =>
        rw [unlessEnd_nil hst hD] at h
        cases h
        rw [needMore_ofCbor] at hk
        cases hk
        refine ⟨Nat.one_pos, fun r hr => ?_⟩
        rw [List.length_eq_zero_iff.mp (Nat.lt_one_iff.mp hr), List.append_nil,
          unlessEnd_nil hst hD]
        exact ⟨_, 1, rfl, needMore_ofCbor _⟩
      | cons b d =>
        by_cases hb : b = 0xFF
        · rw [hb, unlessEnd_break hst hD] at h
          simp only [hb, List.cons_append, unlessEnd_break hst hD]
          split at h
          · next hp => simpa only [if_pos hp] using hs.wait h hk
          · cases h
            rw [needMore_ofCbor] at hk
            cases hk
        · rw [unlessEnd_cons hst hb] at h
          simp only [List.cons_append, unlessEnd_cons hst hb]
          exact hm.wait h hk

theorem unlessEnd_settles (hD : 0 < D) (hs : Scan.Settles needMore stop)
    (hm : Scan.Settles needMore more) : Scan.Settles needMore (unlessEnd D stop more) := by
  intro st d
  cases hst : st.count with
  | some n =>
    simp only [unlessEnd_definite hst]
    split
    · exact hs st d
    · exact hm st d
  | none =>
    have hbreak : ∀ d, ∃ r, ¬ Waits needMore
        (unlessEnd D stop more ⟨st, 0xFF :: d ++ r⟩) := by
      intro d
      obtain ⟨r, hr⟩ := hs st.closed d
      refine ⟨r, ?_⟩
      rw [List.cons_append, unlessEnd_break hst hD]
      split
      · exact hr
      · exact Scan.not_waits_error (needMore_ofCbor _)
    cases d with
    | nil =>
      obtain ⟨r, hr⟩ := hbreak []
      exact ⟨0xFF :: r, hr⟩
    | cons b d =>
      by_cases hb : b = 0xFF
      · rw [hb]
        exact hbreak d
      · simp only [List.cons_append, unlessEnd_cons hst hb]
        exact hm st (b :: d)

theorem unlessEnd_walks (hD : 0 < D) (hs : Walks stop) (hm : Walks more)
    (hg : Grabs more) : Walks (unlessEnd D stop more) :=
  ⟨unlessEnd_stepwise hD hs.stepwise hm.stepwise hg,
    unlessEnd_settles hD hs.settles hm.settles⟩

/-! ## Items -/

theorem atEnd_false {c c' : Cursor UInt8 Series} (h : atEnd D c = .ok (false, c')) :
    c' = c := by
  simp only [atEnd] at h
  split at h
  · exact ((Prod.mk.inj (Except.ok.inj h)).2).symm
  · repeat' split at h
    all_goals cases h
    rfl

theorem item_ok {m : Dec ε α} {d : Bytes} {a : α} {c : Cursor UInt8 Series}
    (h : Series.item D m ⟨st, d⟩ = .ok (a, c)) :
    ∃ len, m ⟨0, d⟩ = .ok (a, ⟨len, c.rest⟩) ∧
      c.st = { st with parsed := st.parsed + 1, offset := st.offset + len } := by
  obtain ⟨b, c₁, h₁, h₂⟩ := Scan.bind_ok h
  cases b with
  | true => cases h₂
  | false =>
    rw [atEnd_false (Scan.mapErr_ok.mp h₁)] at h₂
    rw [if_neg Bool.false_ne_true] at h₂
    exact Scan.within_ok.mp h₂

theorem complete_walks (hD : 0 < D) (t : α) : Walks (complete D t : Ser ε α) :=
  unlessEnd_walks hD (.pure t) (.throw (needMore_ofCbor _)) fun _ _ _ _ _ h => by cases h

theorem complete_grabs (t : α) : Grabs (complete 1 t : Ser ε α) := by
  intro st d a c hst h
  cases d with
  | nil =>
    rw [complete, unlessEnd_nil hst Nat.one_pos] at h
    cases h
  | cons b d =>
    by_cases hb : b = 0xFF
    · rw [complete, hb, unlessEnd_break hst Nat.one_pos, if_pos (Nat.mod_one _)] at h
      cases h
      exact Nat.lt_succ_self _
    · rw [complete, unlessEnd_cons hst hb] at h
      cases h

theorem atEnd_one_error {c : Cursor UInt8 Series} {x : Error} (h : atEnd 1 c = .error x) :
    x = .needMoreData 1 := by
  simp only [atEnd, Nat.mod_one, if_true] at h
  repeat' split at h
  all_goals cases h
  rfl

theorem atEnd_bind_walks {g : Error → ε} (hg : ∀ x, needMore (g x) = x.short) {k : Ser ε α}
    (hk : Walks k) (hgr : Grabs k) : Walks (Scan.mapErr g (atEnd 1) >>= fun _ => k) := by
  refine (unlessEnd_walks Nat.one_pos hk hk hgr).relabel fun c => ?_
  rcases h : atEnd 1 c with x | ⟨b, c'⟩
  · obtain rfl := atEnd_one_error h
    refine .inr ⟨ofCbor (.needMoreData 1), g (.needMoreData 1), 1, ?_, ?_, needMore_ofCbor _,
      hg _⟩
    · exact Scan.bind_eq_of_error (Scan.mapErr_error.mpr ⟨_, h, rfl⟩) _
    · exact Scan.bind_eq_of_error (Scan.mapErr_error.mpr ⟨_, h, rfl⟩) _
  · refine .inl ?_
    rw [Scan.bind_eq_of_ok (Scan.mapErr_ok.mpr h), unlessEnd,
      Scan.bind_eq_of_ok (show lift (atEnd 1) c = _ from Scan.mapErr_ok.mpr h), ite_self]

variable {m : Dec ε α}

theorem subItem_walks (hm : Resumes m) : Walks (subItem m) := by
  refine .within (fun st st' n h => ?_) hm
  simp only [id] at h
  simp only
  omega

theorem subItem_grabs (hm : Resumes m) (hs : Starts m) : Grabs (subItem m) := by
  intro st d a c _ h
  obtain ⟨st', h', -⟩ := Scan.within_ok.mp h
  exact hm.stepwise.consumes hs h'

theorem item_walks (hD : 0 < D) (hm : Resumes m) (hs : Starts m) :
    Walks (Series.item D m) :=
  unlessEnd_walks hD (.throw (needMore_ofCbor _)) (subItem_walks hm) (subItem_grabs hm hs)

theorem unlessEnd_grabs (hD : 0 < D) (hs : Scan.Stepwise needMore Series.offset stop)
    (hg : Grabs more) : Grabs (unlessEnd D stop more) := by
  intro st d a c hst h
  cases d with
  | nil =>
    rw [unlessEnd_nil hst hD] at h
    cases h
  | cons b d =>
    by_cases hb : b = 0xFF
    · rw [hb, unlessEnd_break hst hD] at h
      split at h
      · obtain ⟨u, hd, -⟩ := hs.ok h
        rw [hd, List.length_cons, List.length_append]
        omega
      · cases h
    · rw [unlessEnd_cons hst hb] at h
      exact hg _ _ _ _ hst h

theorem item_grabs (hD : 0 < D) (hm : Resumes m) (hs : Starts m) :
    Grabs (Series.item D m) :=
  unlessEnd_grabs hD (.throw (needMore_ofCbor _)) (subItem_grabs hm hs)

theorem Grabs.bind {β : Type} {m : Ser ε α} {k : α → Ser ε β} (hm : Grabs m)
    (hk : ∀ a, Scan.Stepwise needMore Series.offset (k a)) : Grabs (m >>= k) := by
  intro st d b c hst h
  obtain ⟨a, c₁, h₁, h₂⟩ := Scan.bind_ok h
  obtain ⟨u, hd, -⟩ := (hk a).ok h₂
  have := hm _ _ _ _ hst h₁
  rw [hd, List.length_append] at this
  omega

theorem tryItem_walks (hD : 0 < D) (hm : Resumes m) (hs : Starts m) :
    Walks (Series.tryItem D m) :=
  unlessEnd_walks hD (.pure none) ((item_walks hD hm hs).map _)
    ((item_grabs hD hm hs).bind fun _ => .pure _)

theorem itemCount_error {count : Option Nat} {x : Error}
    (h : Series.itemCount D count = .error x) : x = .tooBig := by
  cases count with
  | none => cases h
  | some c =>
    simp only [Series.itemCount] at h
    split at h <;> cases h
    rfl

theorem overSeries_resumes (count : Option Nat) {body : Ser ε α} (hb : Walks body) :
    Resumes (overSeries D count body) := by
  rw [overSeries]
  split
  · next x h =>
      rw [itemCount_error h]
      exact .throw (needMore_ofCbor _)
  · refine .within (fun st st' n h => ?_) hb
    exact h

theorem withSeries_resumes (hD : 0 < D) (count : Option Nat) {body : Ser ε α}
    (hb : Walks body) : Resumes (withSeries D count body) :=
  overSeries_resumes count (hb.bind fun r => complete_walks hD r)

theorem parseArray_resumes {f : Bool → List Nat → Ser ε α} (hf : ∀ s t, Walks (f s t)) :
    Resumes (parseArray f) := by
  refine head_resumes.lift.bind fun ⟨head, shortest⟩ => ?_
  dsimp only
  split
  · exact withSeries_resumes Nat.one_pos _ (hf _ _)
  · exact .throw (needMore_ofCbor _)

theorem parseArray_starts (f : Bool → List Nat → Ser ε α) : Starts (parseArray f) :=
  .bind head_starts.lift _

/-! ## Where a series stops -/

theorem atEnd_tracks (D : Nat) : Scan.Tracks Series.offset (atEnd D) := by
  intro st d b c h
  simp only [atEnd] at h
  split at h
  · cases h
    exact ⟨[], rfl, rfl⟩
  · repeat' split at h
    all_goals cases h
    · exact ⟨[], rfl, rfl⟩
    · exact ⟨[_], rfl, rfl⟩
    · exact ⟨[], rfl, rfl⟩

theorem unlessEnd_tracks (D : Nat) {stop more : Ser ε α} (hs : Scan.Tracks Series.offset stop)
    (hm : Scan.Tracks Series.offset more) : Scan.Tracks Series.offset (unlessEnd D stop more) := by
  refine (Scan.Tracks.mapErr _ (atEnd_tracks D)).bind fun b => ?_
  cases b with
  | true => exact hs
  | false => exact hm

omit [FromCborError ε] in
theorem subItem_tracks {m : Dec ε α} (hm : Scan.Tracks id m) :
    Scan.Tracks Series.offset (subItem m) := by
  refine .within (fun st st' n h => ?_) hm
  simp only [id] at h
  simp only
  omega

theorem item_tracks (D : Nat) {m : Dec ε α} (hm : Scan.Tracks id m) :
    Scan.Tracks Series.offset (Series.item D m) :=
  unlessEnd_tracks D (.throw _) (subItem_tracks hm)

theorem complete_tracks (D : Nat) (t : α) :
    Scan.Tracks Series.offset (complete D t : Ser ε α) :=
  unlessEnd_tracks D (.pure t) (.throw _)

theorem withSeries_tracks (D : Nat) (count : Option Nat) {body : Ser ε α}
    (hb : Scan.Tracks Series.offset body) : Scan.Tracks id (withSeries D count body) := by
  rw [withSeries, overSeries]
  split
  · exact .throw _
  · refine .within (fun st st' n h => ?_) (hb.bind fun r => complete_tracks D r)
    exact h

theorem parseArray_eats {f : Bool → List Nat → Ser ε α}
    (hf : ∀ s t, Scan.Tracks Series.offset (f s t)) :
    Scan.Tracks id (parseArray f) ∧ Scan.Eats (parseArray f) := by
  have hhead : Resumes (lift Head.fromCbor : Dec ε (Head × Bool)) := head_resumes.lift
  have hrest : ∀ p : Head × Bool, Scan.Tracks id (match p.1.marker with
      | .array count => withSeries 1 count (f p.2 p.1.tags)
      | _ => throw (ofCbor (.incorrectType "Array" p.1.itemType)) : Dec ε α) := by
    intro p
    split
    · exact withSeries_tracks 1 _ (hf _ _)
    · exact .throw _
  exact ⟨hhead.stepwise.tracks.bind hrest, Scan.Tracks.eats_bind (hhead.eats head_starts.lift) hrest⟩

end

end Hardy.Cbor
