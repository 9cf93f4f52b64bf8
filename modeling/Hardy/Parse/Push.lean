import Hardy.Parse.Layout

/-!
# Pushing a bundle in chunks

A parser that is given a bundle in chunks accepts what the one-shot parser
accepts, with the same index.  `push_outcome` says what one push has decided
about every continuation of the bytes it was given; the rest is an induction
on the chunks.
-/

namespace Hardy

open Cbor Bpsec

variable [Crates] [HashOrder]

/-! ## One push -/

/-- The parser between two pushes, after the bytes `d`. -/
structure BundleParser.Given (p : BundleParser) (d : Bytes) : Prop where
  data : p.data.getD [] = d
  rounds : Scan.Rounds (round p.chunkSize) ({}, ⟨0, d⟩) (p.walk, ⟨p.offset, d.drop p.offset⟩)

theorem BundleParser.Given.extended {p : BundleParser} {d : Bytes} (hp : p.Given d) (e : Bytes) :
    p.extended e = d ++ e := by
  rw [← hp.data, BundleParser.extended]
  cases p.data <;> rfl

theorem BundleParser.Given.append {p : BundleParser} {d : Bytes} (hp : p.Given d) (e : Bytes) :
    Scan.Rounds (round p.chunkSize) ({}, ⟨0, d ++ e⟩)
      (p.walk, ⟨p.offset, (d ++ e).drop p.offset⟩) := by
  rw [List.drop_append_of_le_length (rounds_at hp.rounds).1]
  exact Scan.Rounds.extend (round_extends _) hp.rounds e

theorem BundleParser.given_new (n : Nat) : (new n).Given [] := ⟨rfl, .refl⟩

/-- What the outcome of a push says about the bytes `d` that were given so far
and their continuations. -/
def Decided (d : Bytes) : Except Error ParserProgress → Prop
  | .error _ => ∀ e f, ¬ Completes (d ++ e) f
  | .ok (.needMore _ p) => p.Given d ∧ ∀ f, ¬ Completes d f
  | .ok (.ready data f) => data = d ∧ Completes d f ∧ ∀ e f', e ≠ [] → ¬ Completes (d ++ e) f'
  | .ok (.partialBody data tail f) => data = d ∧ tail.Sound ∧ ¬ tail.Accepts [] ∧ ∀ e,
      (∀ f', Completes (d ++ e) f' ↔ tail.Accepts e ∧ f' = f) ∧
      (tail.Accepts e → (f.finish d).map Parsed.index = (f.finish (d ++ e)).map Parsed.index)

theorem BundleParser.Given.push {p : BundleParser} {d : Bytes} (hp : p.Given d) (chunk : Bytes) :
    Decided (d ++ chunk) (p.push chunk) := by
  simp only [BundleParser.push, hp.extended chunk]
  obtain ⟨w, c, hr, hend⟩ := Scan.run_spec (Error.invalidCBOR .tooBig)
    (round_progress p.chunkSize) p.walk ⟨p.offset, (d ++ chunk).drop p.offset⟩
  have hrounds := (hp.append chunk).trans hr
  obtain ⟨hst, hrest⟩ := rounds_at hrounds
  have hlonger : ∀ e, Scan.Rounds (round p.chunkSize) ({}, ⟨0, d ++ chunk ++ e⟩)
      (w, ⟨c.st, c.rest ++ e⟩) := fun e => Scan.Rounds.extend (round_extends _) hrounds e
  rcases hend with ⟨x, hx, hrun⟩ | ⟨o, c', ho, hrun⟩
  · rw [hrun]
    dsimp only
    cases hm : x.needMore with
    | some more =>
      refine ⟨⟨rfl, ?_⟩, fun f hf => ?_⟩
      · dsimp only
        rw [← hrest]
        exact hrounds
      · have hstuck : Scan.Stuck (round p.chunkSize) (w, c) :=
          stuck_of_not_inl fun w' c' h' => by cases hx.symm.trans h'
        obtain ⟨c', hdone⟩ := (round_done (n := p.chunkSize)).mpr
          ((completes_iff hrounds hstuck).mp hf)
        cases hx.symm.trans hdone
    | none => exact fun e f => (round_hard hx hm e).not_completes (hlonger e) f
  · rw [hrun]
    cases o with
    | done f =>
      have hpay : PayloadAt w c f := round_done.mp ⟨c', ho⟩
      refine ⟨rfl, (completes_iff hrounds hpay.stuck).mpr hpay, fun e f' he => ?_⟩
      exact (hpay.dead_of_longer he).not_completes (hlonger e) f'
    | deferred f tail =>
      obtain ⟨hs, hext⟩ := deferred_extend ho
      refine ⟨rfl, hs, fun hacc => ?_, fun e => ?_⟩
      · -- a payload that is complete is not deferred
        have hpay := ((hext []).2 f).mpr ⟨hacc, rfl⟩
        rw [List.append_nil] at hpay
        obtain ⟨c'', hdone⟩ := (round_done (n := p.chunkSize)).mpr hpay
        cases ho.symm.trans hdone
      obtain ⟨hstuck, hpay⟩ := hext e
      refine ⟨fun f' => (completes_iff (hlonger e) (hstuck _)).trans (hpay f'), fun hacc => ?_⟩
      obtain ⟨l, payload, hc, hpos⟩ := ((hpay f).mpr ⟨hacc, rfl⟩).complete
        (rounds_at (hlonger e)) (rounds_ok (hlonger e))
      exact hc.finish_truncated (by rw [hpos]; exact hst)

/-! ## One-shot parsing -/

theorem Finished.Complete.checkEnd {f : Finished} {data : Bytes} {l : List Nat} {payload : Block}
    (h : f.Complete data l payload) {p : Parsed} (hp : f.finish data = .ok p) :
    p.checkEnd = .ok p := by
  obtain ⟨hdata, -, -, hlay⟩ := finish_ok hp
  obtain ⟨payload', hget, he⟩ := hlay.symm.get h.get_payload
  have hext : payload'.extent = payload.extent := show payload'.layout.extent = _ by rw [← he]; rfl
  simp only [Parsed.checkEnd, hget, hext, hdata]
  rw [if_neg (by rw [h.length]; omega), if_neg]
  rintro (hne | hne)
  · exact hne h.closed
  · exact hne h.length.symm

theorem parse_ok {data : Bytes} {p : Parsed} :
    parse data = .ok p ↔ ∃ f, Completes data f ∧ f.finish data = .ok p := by
  have hpush := (BundleParser.given_new 4096).push data
  rw [List.nil_append] at hpush
  rw [parse]
  cases hr : (BundleParser.new 4096).push data with
  | error x =>
    rw [hr] at hpush
    refine ⟨nofun, fun ⟨f, hf, _⟩ => ?_⟩
    exact absurd (by rwa [List.append_nil]) (hpush [] f)
  | ok progress =>
    rw [hr] at hpush
    cases progress with
    | needMore more q => exact ⟨nofun, fun ⟨f, hf, _⟩ => absurd hf (hpush.2 f)⟩
    | partialBody d tail f =>
      obtain ⟨-, -, hnil, hacc⟩ := hpush
      refine ⟨nofun, fun ⟨f', hf', _⟩ => ?_⟩
      exact absurd (((hacc []).1 f').mp (by rwa [List.append_nil])).1 hnil
    | ready d f =>
      obtain ⟨rfl, hf, -⟩ := hpush
      obtain ⟨l, payload, hc⟩ := hf.complete
      show (f.finish d >>= Parsed.checkEnd) = _ ↔ _
      rw [Fold.bind_ok]
      constructor
      · rintro ⟨p', hp', h⟩
        obtain rfl : p' = p := Except.ok.inj ((hc.checkEnd hp').symm.trans h)
        exact ⟨f, hf, hp'⟩
      · rintro ⟨f', hf', hp⟩
        obtain rfl := hf.unique hf'
        exact ⟨p, hp, hc.checkEnd hp⟩

def parseIndex (data : Bytes) : Option (Bundle × HashMap BcbSet × HashMap BibSet) :=
  ((parse data).map Parsed.index).toOption

theorem Completes.parseIndex_eq {data : Bytes} {f : Finished} (h : Completes data f) :
    parseIndex data = ((f.finish data).map Parsed.index).toOption := by
  rw [parseIndex]
  cases hf : f.finish data with
  | ok p => rw [parse_ok.mpr ⟨f, h, hf⟩]
  | error x =>
    cases hp : parse data with
    | error y => rfl
    | ok p =>
      obtain ⟨f', hf', hfin⟩ := parse_ok.mp hp
      rw [h.unique hf', hf] at hfin
      cases hfin

theorem parseIndex_none {data : Bytes} (h : ∀ f, ¬ Completes data f) : parseIndex data = none := by
  rw [parseIndex]
  cases hp : parse data with
  | error y => rfl
  | ok p =>
    obtain ⟨f, hf, -⟩ := parse_ok.mp hp
    exact absurd hf (h f)

/-! ## Chunks -/

/-- Push chunks until the parser reaches an end; the chunks that are left come
with it.  There is none when the chunks give out first. -/
def BundleParser.feed : BundleParser → List Bytes → Except Error (Option (ParserProgress × List Bytes))
  | _, [] => .ok none
  | p, chunk :: rest => do
      match ← p.push chunk with
      | .needMore _ p => feed p rest
      | progress => pure (some (progress, rest))

/-- Push chunks to the tail of an oversized payload.  `isDone` is what its last
push has reported. -/
def PayloadTail.drain : Bool → PayloadTail → List Bytes → Except Error Bool
  | isDone, _, [] => .ok isDone
  | _, t, chunk :: rest => do
      let (isDone, t) ← t.push chunk
      drain isDone t rest

def accepted : ParserProgress × List Bytes → Option (Bundle × HashMap BcbSet × HashMap BibSet)
  | (.needMore _ _, _) => none
  | (.ready data f, rest) =>
    if rest.all List.isEmpty then ((f.finish data).map Parsed.index).toOption else none
  | (.partialBody consumed tail f, rest) =>
    match tail.drain false rest with
    | .ok true => ((f.finish consumed).map Parsed.index).toOption
    | _ => none

/-- A streaming caller: it accepts when the parser, or the tail of an oversized
payload, reports completion and no byte is left. -/
def BundleParser.stream (p : BundleParser) (chunks : List Bytes) :
    Option (Bundle × HashMap BcbSet × HashMap BibSet) :=
  match p.feed chunks with
  | .ok (some last) => accepted last
  | _ => none

omit [HashOrder] in
theorem PayloadTail.drain_ok {t : PayloadTail} (hs : t.Sound) {isDone : Bool}
    (hd : isDone = true ↔ t.Accepts []) (chunks : List Bytes) :
    drain isDone t chunks = .ok true ↔ t.Accepts chunks.flatten := by
  induction chunks generalizing t isDone with
  | nil =>
    rw [drain, List.flatten_nil, ← hd]
    exact ⟨fun h => Except.ok.inj h, fun h => by rw [h]⟩
  | cons chunk rest ih =>
    rw [drain, List.flatten_cons]
    rcases hr : t.push chunk with x | ⟨isDone', t'⟩
    · exact ⟨nofun, fun h => absurd h (push_error hs hr _)⟩
    · obtain ⟨hs', hd', hacc⟩ := push_ok hs hr
      rw [hacc]
      exact ih hs' hd'

omit [Crates] [HashOrder] in
theorem flatten_eq_nil {chunks : List Bytes} :
    chunks.flatten = [] ↔ chunks.all List.isEmpty = true := by
  simp [List.flatten_eq_nil_iff]

theorem BundleParser.Given.stream {p : BundleParser} {d : Bytes} (hp : p.Given d)
    (hno : ∀ f, ¬ Completes d f) (chunks : List Bytes) :
    p.stream chunks = parseIndex (d ++ chunks.flatten) := by
  induction chunks generalizing p d with
  | nil =>
    rw [List.flatten_nil, List.append_nil, parseIndex_none hno]
    rfl
  | cons chunk rest ih =>
    have hpush := hp.push chunk
    rw [BundleParser.stream, BundleParser.feed, List.flatten_cons, ← List.append_assoc]
    cases hr : p.push chunk with
    | error x =>
      rw [hr] at hpush
      rw [parseIndex_none (hpush rest.flatten)]
      rfl
    | ok progress =>
      rw [hr] at hpush
      cases progress with
      | needMore more q => exact ih hpush.1 hpush.2
      | ready data f =>
        obtain ⟨rfl, hf, hlonger⟩ := hpush
        show (if rest.all List.isEmpty = true then _ else _) = _
        by_cases hrest : rest.flatten = []
        · rw [if_pos (flatten_eq_nil.mp hrest), hrest, List.append_nil, hf.parseIndex_eq]
        · rw [if_neg (fun h => hrest (flatten_eq_nil.mpr h)),
            parseIndex_none fun f' => hlonger _ f' hrest]
      | partialBody consumed tail f =>
        obtain ⟨rfl, hs, hnil, hacc⟩ := hpush
        obtain ⟨hcomp, hfin⟩ := hacc rest.flatten
        have hdrain : PayloadTail.drain false tail rest = .ok true ↔
            tail.Accepts rest.flatten :=
          PayloadTail.drain_ok hs ⟨fun h => (by cases h), fun h => absurd h hnil⟩ rest
        show (match PayloadTail.drain false tail rest with
          | .ok true => _
          | _ => none) = _
        by_cases ha : tail.Accepts rest.flatten
        · rw [hdrain.mpr ha, ((hcomp f).mpr ⟨ha, rfl⟩).parseIndex_eq, ← hfin ha]
        · rw [parseIndex_none fun f' hf' => ha ((hcomp f').mp hf').1]
          split
          · next h => exact absurd (hdrain.mp h) ha
          · rfl

/-- However a bundle is cut into chunks and whatever the chunk size, the
streaming parser with the tail accepts it when the one-shot parser does, and
they yield the same index. -/
theorem stream_eq_parse (chunkSize : Nat) (chunks : List Bytes) :
    (BundleParser.new chunkSize).stream chunks =
      ((parse chunks.flatten).map Parsed.index).toOption := by
  refine (BundleParser.given_new chunkSize).stream (fun f hf => ?_) chunks
  obtain ⟨l, payload, hc⟩ := hf.complete
  exact absurd hc.length (by simp)

end Hardy
