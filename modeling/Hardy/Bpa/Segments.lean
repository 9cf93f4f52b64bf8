import Hardy.Bpa.Ingress
import Hardy.Checks.TwoPass
import Hardy.Parse.Push

/-!
# Reception in segments

A bundle that arrives in segments is received as it is when it arrives in one
piece, as long as it ends with its last segment that has any bytes: the bytes
that are handed on are those that were sent, and the headers are verified
alike.  What a split may leave out is the verification of the payload, which
`finalize_with_provider` makes up for.
-/

namespace Hardy.Bpa

open Cbor Bpsec Checks

/-! ## Segments -/

def segments (chunks : List Bytes) (last : Bytes) : List Segment :=
  chunks.map .next ++ [.final last]

theorem saturatingAdd_eq {a b : Nat} (h : a + b < wordSize) : saturatingAdd a b = a + b := by
  unfold saturatingAdd
  omega

/-- A split does not go on, at the end of a segment, past bytes that `Whole`
holds of. -/
def EndsWith (Whole : Bytes → Prop) (chunks : List Bytes) (last : Bytes) : Prop :=
  ∀ pre post, chunks ++ [last] = pre ++ post → Whole pre.flatten → post.flatten = []

variable {chunks : List Bytes}

theorem EndsWith.tail {Whole : Bytes → Prop} {chunk : Bytes} {last : Bytes}
    (h : EndsWith Whole (chunk :: chunks) last) :
    EndsWith (fun d => Whole (chunk ++ d)) chunks last := by
  intro pre post he hw
  refine h (chunk :: pre) post ?_ hw
  rw [List.cons_append, List.cons_append, he]

theorem EndsWith.head {Whole : Bytes → Prop} {chunk : Bytes} {last : Bytes}
    (h : EndsWith Whole (chunk :: chunks) last) (hw : Whole chunk) :
    chunks.flatten ++ last = [] := by
  have := h [chunk] (chunks ++ [last]) rfl (by simpa using hw)
  simpa using this

variable [Crates]

/-! ## Draining -/

variable {maxSize : Nat}

theorem drainPayload_fits (hmax : maxSize < wordSize) {whole : Bytes}
    {segment : Segment} (hsize : whole.length + segment.bytes.length ≤ maxSize)
    (tail : PayloadTail) (stream : List Segment) :
    drainPayload maxSize whole tail (segment :: stream) =
      match tail.push segment.bytes with
      | .error _ => .error .rejected
      | .ok (isComplete, tail) =>
        if isComplete then .ok (whole ++ segment.bytes)
        else if segment.isLast then .error .rejected
        else drainPayload maxSize (whole ++ segment.bytes) tail stream := by
  rw [drainPayload]
  refine if_neg ?_
  rw [saturatingAdd_eq (by omega)]
  omega

theorem drainPayload_ok (hmax : maxSize < wordSize) {whole : Bytes}
    {tail : PayloadTail} (hs : tail.Sound) {last w : Bytes}
    (hsize : (whole ++ (chunks.flatten ++ last)).length ≤ maxSize)
    (hends : EndsWith tail.Accepts chunks last) :
    drainPayload maxSize whole tail (segments chunks last) = .ok w ↔
      tail.Accepts (chunks.flatten ++ last) ∧ w = whole ++ (chunks.flatten ++ last) := by
  induction chunks generalizing whole tail with
  | nil =>
    simp only [List.flatten_nil, List.nil_append, List.length_append] at hsize ⊢
    rw [segments, List.map_nil, List.nil_append, drainPayload_fits hmax hsize]
    simp only [Segment.bytes, Segment.isLast]
    cases hr : tail.push last with
    | error x =>
      have := PayloadTail.push_error hs hr []
      rw [List.append_nil] at this
      exact ⟨nofun, fun h => absurd h.1 this⟩
    | ok r =>
      obtain ⟨isDone, tail'⟩ := r
      obtain ⟨-, hdone, hacc⟩ := PayloadTail.push_ok hs hr
      have hlast := hacc []
      rw [List.append_nil] at hlast
      rw [hlast, ← hdone]
      cases isDone with
      | true => simp [eq_comm]
      | false => simp
  | cons chunk chunks ih =>
    simp only [List.flatten_cons, List.append_assoc, List.length_append] at hsize ⊢
    have hfits : whole.length + (Segment.next chunk).bytes.length ≤ maxSize := by
      simp only [Segment.bytes]
      omega
    rw [segments, List.map_cons, List.cons_append, drainPayload_fits hmax hfits]
    simp only [Segment.bytes, Segment.isLast]
    cases hr : tail.push chunk with
    | error x => exact ⟨nofun, fun h => absurd h.1 (PayloadTail.push_error hs hr _)⟩
    | ok r =>
      obtain ⟨isDone, tail'⟩ := r
      obtain ⟨hs', hdone, hacc⟩ := PayloadTail.push_ok hs hr
      cases isDone with
      | true =>
        have hwhole : tail.Accepts chunk := by
          have := (hacc []).mpr (hdone.mp rfl)
          rwa [List.append_nil] at this
        rw [hends.head hwhole, List.append_nil]
        simp [hwhole, eq_comm]
      | false =>
        have hends' : EndsWith tail'.Accepts chunks last := by
          intro pre post he hw
          exact hends.tail pre post he ((hacc _).mpr hw)
        have hsize' : ((whole ++ chunk) ++ (chunks.flatten ++ last)).length ≤ maxSize := by
          simp only [List.length_append]
          omega
        rw [hacc, ← List.append_assoc whole]
        exact ih hs' hsize' hends'

variable [HashOrder]

/-! ## Reading the head -/

variable {f : Finished}

theorem push_partialBody {p : BundleParser} {d chunk data : Bytes} (hp : p.Given d)
    {tail : PayloadTail} (h : p.push chunk = .ok (.partialBody data tail f))
    {e : Bytes} (hacc : tail.Accepts e) : ∃ payload : Block, f.bundle.blocks[1]? = some payload ∧
      payload.extent.start ≤ (d ++ chunk).length := by
  simp only [BundleParser.push, hp.extended chunk] at h
  obtain ⟨w, c, hr, hend⟩ := Scan.run_spec (Error.invalidCBOR .tooBig)
    (round_progress p.chunkSize) p.walk ⟨p.offset, (d ++ chunk).drop p.offset⟩
  have hrounds := (hp.append chunk).trans hr
  rcases hend with ⟨x, -, hrun⟩ | ⟨o, c', ho, hrun⟩
  · rw [hrun] at h
    dsimp only at h
    split at h <;> cases h
  · rw [hrun] at h
    cases o with
    | done f' => cases h
    | deferred f' tail' =>
      cases h
      have hlonger := Scan.Rounds.extend (round_extends _) hrounds e
      obtain ⟨-, hext⟩ := deferred_extend ho
      obtain ⟨l, payload, hc, hpos⟩ := (((hext e).2 f).mpr ⟨hacc, rfl⟩).complete
        (rounds_at hlonger) (rounds_ok hlonger)
      refine ⟨payload, hc.get_payload, ?_⟩
      rw [hpos]
      exact (rounds_at hrounds).1

/-- The head that was read is that of the bundle `b`, with its headers
resident. -/
structure Head.Of (head : Head) (b : Bytes) (q : Parsed) : Prop where
  parsed : parse b = .ok q
  index : head.parsed.index = q.index
  resident : head.headers = b.take head.headers.length
  split : SplitAt b head.headers.length q.bundle.blocks

def assemble (maxSize : Nat) (head : Head) (stream : List Segment) : Except DrainFailure Bytes :=
  match head.tail with
  | none => .ok head.headers
  | some tail => drainPayload maxSize head.headers tail stream

variable {headers : Bytes}

theorem finishHead_ok {tail : Option PayloadTail} {head : Head} :
    finishHead f headers tail = .ok head ↔
      ∃ parsed, f.finish headers = .ok parsed ∧ head = ⟨parsed, headers, tail⟩ := by
  rw [finishHead]
  cases f.finish headers with
  | error x => exact ⟨nofun, fun ⟨_, h, _⟩ => (by cases h)⟩
  | ok parsed => exact ⟨fun h => ⟨parsed, rfl, (by cases h; rfl)⟩, fun ⟨_, h, h'⟩ => (by cases h; rw [h'])⟩

theorem ready_of {d data : Bytes} (hpush : Decided d (.ok (.ready data f)))
    {e : Bytes} (hends : (∃ q, parse d = .ok q) → e = []) :
    (∀ head, finishHead f data none = .ok head →
      head.tail = none ∧ head.headers = d ++ e ∧ ∃ q, head.Of (d ++ e) q) ∧
    ∀ q, parse (d ++ e) = .ok q → ∃ head, finishHead f data none = .ok head ∧
      head.tail = none ∧ head.headers = d ++ e ∧ head.Of (d ++ e) q := by
  obtain ⟨rfl, hf, hlonger⟩ := hpush
  have hof : ∀ {q}, parse data = .ok q → Head.Of ⟨q, data, none⟩ data q := by
    intro q hq
    obtain ⟨stop, hlen, ht⟩ := tilesBytes_of_parse hq
    obtain ⟨payload, hb, -, -⟩ := ht.payload_last
    have hpos := ht.nonempty 1 payload hb
    have hcover := ((ht.cover payload.extent.start).mpr ⟨1, payload, hb, Nat.le_refl _, hpos⟩).2
    exact ⟨hq, rfl, (List.take_length).symm, splitAt_of_parse hq hb (by dsimp only; omega) (Nat.le_refl _)⟩
  constructor
  · intro head hh
    obtain ⟨q, hq, rfl⟩ := finishHead_ok.mp hh
    have hparse : parse data = .ok q := parse_ok.mpr ⟨f, hf, hq⟩
    obtain rfl := hends ⟨q, hparse⟩
    rw [List.append_nil]
    exact ⟨rfl, rfl, q, hof hparse⟩
  · intro q hq
    obtain ⟨f', hf', hfin⟩ := parse_ok.mp hq
    have he : e = [] := by
      by_contra hne
      exact hlonger e f' hne hf'
    subst he
    rw [List.append_nil] at hq hf' hfin ⊢
    obtain rfl := hf.unique hf'
    exact ⟨_, finishHead_ok.mpr ⟨q, hfin, rfl⟩, rfl, rfl, hof hq⟩

/-- A bundle whose payload is drained. -/
theorem partialBody_of (hmax : maxSize < wordSize) {p : BundleParser}
    {d chunk data : Bytes} (hp : p.Given d) {tail : PayloadTail}
    (h : p.push chunk = .ok (.partialBody data tail f)) {last : Bytes}
    (hsize : (d ++ chunk ++ (chunks.flatten ++ last)).length ≤ maxSize)
    (hends : EndsWith (fun x => ∃ q, parse (d ++ chunk ++ x) = .ok q) chunks last) :
    (∀ head whole, finishHead f data (some tail) = .ok head →
      assemble maxSize head (segments chunks last) = .ok whole →
      whole = d ++ chunk ++ (chunks.flatten ++ last) ∧
        ∃ q, head.Of (d ++ chunk ++ (chunks.flatten ++ last)) q) ∧
    ∀ q, parse (d ++ chunk ++ (chunks.flatten ++ last)) = .ok q →
      ∃ head, finishHead f data (some tail) = .ok head ∧
        assemble maxSize head (segments chunks last) =
          .ok (d ++ chunk ++ (chunks.flatten ++ last)) ∧
        head.Of (d ++ chunk ++ (chunks.flatten ++ last)) q := by
  have hpush := hp.push chunk
  rw [h] at hpush
  obtain ⟨rfl, hs, -, hacc⟩ := hpush
  have hstart := fun {e} => push_partialBody (e := e) hp h
  -- a tail that accepts makes a bundle of which `parsed` is the index
  have hwhole : ∀ {e parsed}, tail.Accepts e → f.finish (d ++ chunk) = .ok parsed →
      ∃ q, f.finish (d ++ chunk ++ e) = .ok q ∧ parse (d ++ chunk ++ e) = .ok q ∧
        parsed.index = q.index := by
    intro e parsed he hfin
    have hindex := (hacc e).2 he
    rw [hfin] at hindex
    obtain ⟨q, hq, hi⟩ := Fold.map_ok.mp hindex.symm
    exact ⟨q, hq, parse_ok.mpr ⟨f, ((hacc e).1 f).mpr ⟨he, rfl⟩, hq⟩, hi.symm⟩
  have hof : ∀ {e parsed q}, tail.Accepts e → f.finish (d ++ chunk ++ e) = .ok q →
      parse (d ++ chunk ++ e) = .ok q → parsed.index = q.index →
      Head.Of ⟨parsed, d ++ chunk, some tail⟩ (d ++ chunk ++ e) q := by
    intro e parsed q he hfin hq hi
    obtain ⟨payload, hb, hle⟩ := hstart he
    obtain ⟨-, -, -, hlay⟩ := finish_ok hfin
    obtain ⟨payload', hb', hext, -, -⟩ := hlay.symm.same hb
    refine ⟨hq, hi, (List.take_left' rfl).symm, ?_⟩
    refine splitAt_of_parse hq hb' (by rw [hext]; exact hle) ?_
    exact (List.prefix_append (d ++ chunk) e).length_le
  have htail : ∀ {parsed}, f.finish (d ++ chunk) = .ok parsed →
      EndsWith tail.Accepts chunks last := by
    intro parsed hfin pre post he hw
    obtain ⟨q, -, hq, -⟩ := hwhole hw hfin
    exact hends pre post he ⟨q, hq⟩
  constructor
  · intro head whole hh hass
    obtain ⟨parsed, hfin, rfl⟩ := finishHead_ok.mp hh
    obtain ⟨he, rfl⟩ := (drainPayload_ok hmax hs hsize (htail hfin)).mp hass
    obtain ⟨q, hq, hparse, hi⟩ := hwhole he hfin
    exact ⟨rfl, q, hof he hq hparse hi⟩
  · intro q hq
    obtain ⟨f', hf', hfin'⟩ := parse_ok.mp hq
    obtain ⟨he, rfl⟩ := ((hacc _).1 f').mp hf'
    have hindex := (hacc _).2 he
    rw [hfin'] at hindex
    obtain ⟨parsed, hfin, hi⟩ := Fold.map_ok.mp hindex
    refine ⟨_, finishHead_ok.mpr ⟨parsed, hfin, rfl⟩, ?_, hof he hfin' hq hi⟩
    exact (drainPayload_ok hmax hs hsize (htail hfin)).mpr ⟨he, rfl⟩

theorem readHead_fits (hmax : maxSize < wordSize) {total : Nat}
    {segment : Segment} (hsize : total + segment.bytes.length ≤ maxSize) (p : BundleParser)
    (stream : List Segment) :
    readHead maxSize p total (segment :: stream) =
      match p.push segment.bytes with
      | .ok (.needMore _ parser) =>
        if segment.isLast then .error (.invalid none)
        else readHead maxSize parser (total + segment.bytes.length) stream
      | .ok (.ready whole f) => (finishHead f whole none).map fun h => (h, stream)
      | .ok (.partialBody consumed tail f) =>
        if segment.isLast then .error (.invalid none)
        else (finishHead f consumed (some tail)).map fun h => (h, stream)
      | .error _ => .error (.invalid none) := by
  have hadd := saturatingAdd_eq (Nat.lt_of_le_of_lt hsize hmax)
  rw [readHead]
  simp only [hadd]
  exact if_neg (Nat.not_lt.mpr hsize)

/-- What is read of a stream, and what it is assembled to: the bundle `b`, when
`b` is one. -/
def ReadsAs (maxSize : Nat) (p : BundleParser) (total : Nat) (stream : List Segment) (b : Bytes) :
    Prop :=
  (∀ head rest whole, readHead maxSize p total stream = .ok (head, rest) →
    assemble maxSize head rest = .ok whole → whole = b ∧ ∃ q, head.Of b q) ∧
  ∀ q, parse b = .ok q → ∃ head rest, readHead maxSize p total stream = .ok (head, rest) ∧
    assemble maxSize head rest = .ok b ∧ head.Of b q

section

variable {maxSize total : Nat} {p : BundleParser} {stream rest : List Segment} {b : Bytes}

theorem ReadsAs.of_error {x : HeaderFailure} (h : readHead maxSize p total stream = .error x)
    (hb : ∀ f, ¬ Completes b f) : ReadsAs maxSize p total stream b := by
  constructor
  · intro head rest whole hr
    rw [h] at hr
    cases hr
  · intro q hq
    obtain ⟨f, hf, -⟩ := parse_ok.mp hq
    exact absurd hf (hb f)

theorem ReadsAs.of_step {p' : BundleParser} {total' : Nat} {stream' : List Segment}
    (h : readHead maxSize p total stream = readHead maxSize p' total' stream')
    (hr : ReadsAs maxSize p' total' stream' b) : ReadsAs maxSize p total stream b := by
  unfold ReadsAs at hr ⊢
  rw [h]
  exact hr

theorem ReadsAs.of_head {r : Except HeaderFailure Head}
    (h : readHead maxSize p total stream = r.map fun h => (h, rest))
    (hsound : ∀ head whole, r = .ok head → assemble maxSize head rest = .ok whole →
      whole = b ∧ ∃ q, head.Of b q)
    (hcomplete : ∀ q, parse b = .ok q → ∃ head, r = .ok head ∧
      assemble maxSize head rest = .ok b ∧ head.Of b q) :
    ReadsAs maxSize p total stream b := by
  constructor
  · intro head rest' whole hr hass
    rw [h] at hr
    obtain ⟨head', hr', he⟩ := Fold.map_ok.mp hr
    cases he
    exact hsound head whole hr' hass
  · intro q hq
    obtain ⟨head, hr, hass, hof⟩ := hcomplete q hq
    exact ⟨head, rest, h.trans (Fold.map_ok.mpr ⟨head, hr, rfl⟩), hass, hof⟩

theorem ReadsAs.of_ready {d data e : Bytes}
    (h : readHead maxSize p total stream = (finishHead f data none).map fun h => (h, rest))
    (hpush : Decided d (.ok (.ready data f))) (hends : (∃ q, parse d = .ok q) → e = []) :
    ReadsAs maxSize p total stream (d ++ e) := by
  obtain ⟨hsound, hcomplete⟩ := ready_of hpush hends
  refine .of_head h (fun head whole hh hass => ?_) fun q hq => ?_
  · obtain ⟨htail, hheaders, hof⟩ := hsound head hh
    rw [assemble, htail] at hass
    cases hass
    exact ⟨hheaders, hof⟩
  · obtain ⟨head, hh, htail, hheaders, hof⟩ := hcomplete q hq
    refine ⟨head, hh, ?_, hof⟩
    rw [assemble, htail, hheaders]

end

/-- The segments that are left of a bundle are read as its bytes are parsed. -/
theorem readHead_reads (hmax : maxSize < wordSize) {p : BundleParser} {d : Bytes}
    (hp : p.Given d) {last : Bytes} (hsize : (d ++ (chunks.flatten ++ last)).length ≤ maxSize)
    (hends : EndsWith (fun x => ∃ q, parse (d ++ x) = .ok q) chunks last) :
    ReadsAs maxSize p d.length (segments chunks last) (d ++ (chunks.flatten ++ last)) := by
  induction chunks generalizing p d with
  | nil =>
    rw [List.flatten_nil, List.nil_append] at hsize ⊢
    have hfits : d.length + (Segment.final last).bytes.length ≤ maxSize := by
      rwa [List.length_append] at hsize
    have hread := readHead_fits hmax hfits p []
    have hpush := hp.push last
    simp only [Segment.bytes, Segment.isLast, if_true] at hread
    cases hr : p.push last with
    | error x =>
      rw [hr] at hread hpush
      refine .of_error hread fun f hf => hpush [] f ?_
      rwa [List.append_nil]
    | ok progress =>
      rw [hr] at hread hpush
      cases progress with
      | needMore more p' => exact .of_error hread hpush.2
      | partialBody data tail f =>
        obtain ⟨-, -, hnil, hacc⟩ := hpush
        refine .of_error hread fun f' hf => hnil ?_
        exact (((hacc []).1 f').mp (by rwa [List.append_nil])).1
      | ready data f =>
        have := ReadsAs.of_ready hread hpush fun _ => rfl
        rwa [List.append_nil] at this
  | cons chunk chunks ih =>
    rw [List.flatten_cons, List.append_assoc, ← List.append_assoc] at hsize ⊢
    have hfits : d.length + (Segment.next chunk).bytes.length ≤ maxSize := by
      rw [List.length_append, List.length_append] at hsize
      exact Nat.le_trans (Nat.le_add_right _ _) hsize
    have hread := readHead_fits hmax hfits p (segments chunks last)
    have hpush := hp.push chunk
    have hends' : EndsWith (fun x => ∃ q, parse (d ++ chunk ++ x) = .ok q) chunks last := by
      simpa only [List.append_assoc] using hends.tail
    simp only [Segment.bytes, Segment.isLast, Bool.false_eq_true, if_false] at hread
    cases hr : p.push chunk with
    | error x =>
      rw [hr] at hread hpush
      exact .of_error hread (hpush _)
    | ok progress =>
      rw [hr] at hread hpush
      cases progress with
      | needMore more p' =>
        have hrest := ih hpush.1 hsize hends'
        rw [List.length_append] at hrest
        exact .of_step hread hrest
      | partialBody data tail f =>
        obtain ⟨hsound, hcomplete⟩ := partialBody_of hmax hp hr hsize hends'
        exact .of_head hread hsound hcomplete
      | ready data f =>
        refine .of_ready hread hpush fun hq => hends.head ?_
        exact hq

theorem readHead_final (hmax : maxSize < wordSize) {b : Bytes}
    (hsize : b.length ≤ maxSize) {head : Head} {rest : List Segment} :
    readHead maxSize (.new 4096) 0 [.final b] = .ok (head, rest) ↔
      ∃ q, parse b = .ok q ∧ head = ⟨q, b, none⟩ ∧ rest = [] := by
  have hfits : 0 + (Segment.final b).bytes.length ≤ maxSize := by
    rwa [Nat.zero_add]
  have hread := readHead_fits hmax hfits (.new 4096) []
  have hpush := (BundleParser.given_new 4096).push b
  simp only [Segment.bytes, Segment.isLast, if_true] at hread
  rw [hread]
  rw [List.nil_append] at hpush
  have hfail : (∀ f, ¬ Completes b f) → ¬ ∃ q, parse b = .ok q ∧ head = ⟨q, b, none⟩ ∧ rest = [] := by
    rintro hno ⟨q, hq, -⟩
    obtain ⟨f, hf, -⟩ := parse_ok.mp hq
    exact hno f hf
  cases hr : (BundleParser.new 4096).push b with
  | error x =>
    rw [hr] at hpush
    refine iff_of_false nofun (hfail fun f hf => hpush [] f ?_)
    rwa [List.append_nil]
  | ok progress =>
    rw [hr] at hpush
    cases progress with
    | needMore more p => exact iff_of_false nofun (hfail hpush.2)
    | partialBody data tail f =>
      obtain ⟨-, -, hnil, hacc⟩ := hpush
      refine iff_of_false nofun (hfail fun f' hf => hnil ?_)
      exact (((hacc []).1 f').mp (by rwa [List.append_nil])).1
    | ready data f =>
      obtain ⟨rfl, hf, -⟩ := hpush
      constructor
      · intro h
        obtain ⟨head', hh, he⟩ := Fold.map_ok.mp h
        cases he
        obtain ⟨q, hq, rfl⟩ := finishHead_ok.mp hh
        exact ⟨q, parse_ok.mpr ⟨f, hf, hq⟩, rfl, rfl⟩
      · rintro ⟨q, hq, rfl, rfl⟩
        obtain ⟨f', hf', hfin⟩ := parse_ok.mp hq
        obtain rfl := hf.unique hf'
        exact Fold.map_ok.mpr ⟨_, finishHead_ok.mpr ⟨q, hfin, rfl⟩, rfl⟩

theorem not_parse_nil : ¬ ∃ q, parse [] = .ok q := by
  rintro ⟨q, hq⟩
  obtain ⟨stop, hlen, -⟩ := tilesBytes_of_parse hq
  cases hlen

theorem endsWith_pair {first last : Bytes} (h : ¬ ∃ q, parse first = .ok q) :
    EndsWith (fun d => ∃ q, parse d = .ok q) [first] last := by
  intro pre post he hq
  rcases pre with _ | ⟨a, _ | ⟨b, pre⟩⟩
  · exact absurd hq not_parse_nil
  · cases he
    rw [List.flatten_cons, List.flatten_nil, List.append_nil] at hq
    exact absurd hq h
  · have hlen := congrArg List.length he
    simp only [List.length_append, List.length_cons, List.length_nil] at hlen
    have hpost : post = [] := List.eq_nil_of_length_eq_zero (by omega)
    rw [hpost]
    rfl

/-! ## Verified headers -/

theorem extractExtensionBlockFields_take {data : Bytes} {k : Nat} {blocks : HashMap Block}
    (h : SplitAt data k blocks) (decrypted : HashMap Bytes) :
    extractExtensionBlockFields (data.take k) blocks decrypted =
      extractExtensionBlockFields data blocks decrypted := by
  refine Fold.foldlM_congr (P := fun _ => True) (fun _ _ _ => trivial) (fun {s e} he _ => ?_) trivial
  have hb : blocks[e.1]? = some e.2 := HashOrder.mem_iter.mp he
  by_cases hp : e.2.blockType = .payload
  · simp only [extractField, hp]
  · have hpay := payload_take (h.resident e.1 e.2 hb (h.ne_one hb hp)) h.le
    simp only [extractField, decodeField, extract, hpay]

variable [Ciphers]

section

variable {data : Bytes} {keys : KeySource} {blocks : HashMap Block} {bcbs : HashMap BcbSet}
  {bibs : HashMap BibSet} {decrypted updates : HashMap Bytes}

/-- Only BIBs and the well-known extension blocks are decrypted. -/
def Decryptable (blocks : HashMap Block) (decrypted : HashMap Bytes) : Prop :=
  ∀ n, n ∈ decrypted → ∃ b : Block, blocks[n]? = some b ∧
    (b.blockType = .blockIntegrity ∨ isWellKnown b.blockType = true)

omit [Crates] [HashOrder] [Ciphers] in
theorem Decryptable.insert {n : Nat} {b : Block} {p : Bytes} (h : Decryptable blocks decrypted)
    (hb : blocks[n]? = some b)
    (ht : b.blockType = .blockIntegrity ∨ isWellKnown b.blockType = true) :
    Decryptable blocks (decrypted.insert n p) := by
  intro m hm
  rcases Std.ExtTreeMap.mem_insert.mp hm with he | hm
  · rw [Nat.compare_eq_eq] at he
    exact he ▸ ⟨b, hb, ht⟩
  · exact h m hm

theorem coveredBibs_decryptable {s : BibResolution} (hd : Decryptable blocks decrypted)
    (hs : decryptAndValidateCoveredBibs data keys blocks bcbs bibs decrypted updates = .ok s) :
    Decryptable blocks s.decrypted := by
  obtain ⟨s₁, h₁, h⟩ := Fold.bind_ok.mp hs
  cases h
  have hstep : Decryptable blocks s₁.decrypted := by
    refine Fold.foldlM_invariant (P := fun s : BibResolution => Decryptable blocks s.decrypted)
      (fun {s n s'} hn hs hr => ?_) hd h₁
    obtain ⟨b, hb, ht, -⟩ := mem_encryptedBibs hn
    unfold resolveBib at hr
    split at hr
    · cases hr
    · split at hr
      · cases hr
      · split at hr
        · cases hr
          exact hs
        · cases hr
          exact hs
        · cases hr
        · obtain ⟨set, -, hr⟩ := Fold.bind_ok.mp hr
          cases hr
          exact hs.insert hb (.inl ht)
  unfold BibResolution.settle
  split <;> exact hstep

theorem verify_decryptable {v : Verified} (hd : Decryptable blocks decrypted)
    (hv : verify data keys blocks bcbs bibs decrypted updates = .ok v) :
    Decryptable blocks v.decrypted := by
  obtain ⟨s, x, deferred, hs, hx, -, rfl⟩ := verify_ok.mp hv
  refine Fold.foldlM_invariant (P := fun x : ExtensionPass => Decryptable blocks x.decrypted)
    (fun {x e x'} he hx hr => ?_) (coveredBibs_decryptable hd hs) hx
  obtain ⟨b, hb, ht⟩ := mem_encryptedExtensions he
  obtain ⟨b', hb', -, htype, -⟩ := (coveredBibs_sameLayout keys bcbs bibs decrypted updates hs).same hb
  unfold decryptExtension at hr
  split at hr
  · cases hr
  · split at hr
    · cases hr
      exact hx.insert hb' (.inr (htype ▸ ht))
    · cases hr
      exact hx
    · cases hr
      exact hx
    · cases hr

theorem verify_sameLayout {v : Verified}
    (hv : verify data keys blocks bcbs bibs decrypted updates = .ok v) :
    SameLayout blocks v.blocks := by
  obtain ⟨s, x, deferred, hs, -, -, rfl⟩ := verify_ok.mp hv
  exact coveredBibs_sameLayout keys bcbs bibs decrypted updates hs

theorem verifyPayload_decrypted (h0 : 0 ∉ decrypted) (h1 : 1 ∉ decrypted) :
    verifyPayload data keys blocks bibs decrypted updates =
      verifyPayload data keys blocks bibs ∅ updates := by
  have hread : ∀ n, n ∉ decrypted → overlay blocks data decrypted updates n =
      overlay blocks data ∅ updates n := by
    intro n hn
    simp only [overlay, Std.ExtTreeMap.getElem?_eq_none hn, Std.ExtTreeMap.getElem?_empty]
  have hagree : ∀ source, (overlay blocks data decrypted updates).AgreeOn
      (overlay blocks data ∅ updates) 1 source := fun source =>
    ⟨hread 0 h0, hread 1 h1, by simp only [Reader.header, overlay, Option.map_map]; rfl⟩
  unfold verifyPayload
  congr 1
  funext e
  unfold verifyPayloadTarget
  cases e.2.operations[1]? with
  | none => rfl
  | some op =>
    cases blocks[1]? with
    | none => rfl
    | some target =>
      simp only [h1, not_false_eq_true, and_true, Std.ExtTreeMap.not_mem_empty]
      rw [BibOperation.verify_congr e.2.source (hagree e.1) op keys]

end

structure Headed (blocks : HashMap Block) : Prop where
  primary : ∀ b : Block, blocks[0]? = some b → b.blockType = .primary
  payload : ∀ b : Block, blocks[1]? = some b → b.blockType = .payload

omit [Crates] [HashOrder] [Ciphers] in
theorem Decryptable.not_mem {blocks : HashMap Block} {decrypted : HashMap Bytes}
    (h : Decryptable blocks decrypted) (hb : Headed blocks) : 0 ∉ decrypted ∧ 1 ∉ decrypted := by
  constructor
  · intro hm
    obtain ⟨b, hb', ht | ht⟩ := h 0 hm <;> rw [hb.primary b hb'] at ht <;> cases ht
  · intro hm
    obtain ⟨b, hb', ht | ht⟩ := h 1 hm <;> rw [hb.payload b hb'] at ht <;> cases ht

omit [Ciphers] in
theorem headed_of_parse {data : Bytes} {p : Parsed} (hp : parse data = .ok p) :
    Headed p.bundle.blocks := by
  obtain ⟨stop, -, ht⟩ := tilesBytes_of_parse hp
  obtain ⟨primary, hb, hbt, -⟩ := ht.primary_first
  obtain ⟨payload, hc, hct, -⟩ := ht.payload_last
  exact ⟨fun b h => by cases hb.symm.trans h; exact hbt,
    fun b h => by cases hc.symm.trans h; exact hct⟩

variable {keys : KeySource}

theorem verify_take {data : Bytes} {k : Nat} {blocks : HashMap Block}
    (h : SplitAt data k blocks) (hh : Headed blocks) {bcbs : HashMap BcbSet}
    {bibs : HashMap BibSet} :
    (∀ v, verify (data.take k) keys blocks bcbs bibs ∅ ∅ = .ok v →
      verifyPayload data keys v.blocks v.facts.deferredBibs ∅ ∅ = .ok () →
      ∃ bibs', verify data keys blocks bcbs bibs ∅ ∅ =
        .ok ⟨⟨v.facts.failed, v.facts.nokeyExt, ∅⟩, v.blocks, bibs', v.decrypted⟩) ∧
    ∀ v', verify data keys blocks bcbs bibs ∅ ∅ = .ok v' → v'.facts.deferredBibs = ∅ ∧
      ∃ v, verify (data.take k) keys blocks bcbs bibs ∅ ∅ = .ok v ∧
        verifyPayload data keys v.blocks v.facts.deferredBibs ∅ ∅ = .ok () ∧
        v.blocks = v'.blocks ∧ v.decrypted = v'.decrypted ∧ v.facts.failed = v'.facts.failed ∧
        v.facts.nokeyExt = v'.facts.nokeyExt := by
  have hagrees := h.twoPassAgrees keys bcbs bibs ∅ ∅
  have hsecond : ∀ {v}, verify (data.take k) keys blocks bcbs bibs ∅ ∅ = .ok v →
      verifyPayload data keys v.blocks v.facts.deferredBibs v.decrypted ∅ =
        verifyPayload data keys v.blocks v.facts.deferredBibs ∅ ∅ := by
    intro v hv
    obtain ⟨h0, h1⟩ := (verify_decryptable (fun n hn => absurd hn (by simp)) hv).not_mem hh
    exact verifyPayload_decrypted h0 h1
  constructor
  · intro v hv hpay
    have htwo : verifyTwoPass k data keys blocks bcbs bibs ∅ ∅ = .ok v :=
      Fold.bind_ok.mpr ⟨v, hv, Fold.bind_ok.mpr ⟨(), (hsecond hv).trans hpay, rfl⟩⟩
    obtain ⟨v', hv'⟩ := hagrees.success.mp ⟨v, htwo⟩
    obtain ⟨hb, hd, hf, hn⟩ := hagrees.outcome v v' htwo hv'
    refine ⟨v'.bibs, hv'.trans ?_⟩
    rw [hb, hd, hf, hn, ← hagrees.nothing_left v' hv']
  · intro v' hv'
    obtain ⟨v, htwo⟩ := hagrees.success.mpr ⟨v', hv'⟩
    obtain ⟨v₁, hv, ⟨⟩, hpay, h₁⟩ : ∃ v₁, verify (data.take k) keys blocks bcbs bibs ∅ ∅ = .ok v₁ ∧
        ∃ u : Unit, verifyPayload data keys v₁.blocks v₁.facts.deferredBibs v₁.decrypted ∅ =
          .ok u ∧ v₁ = v := by
      obtain ⟨v₁, hv, h₁⟩ := Fold.bind_ok.mp htwo
      obtain ⟨u, hu, h₁⟩ := Fold.bind_ok.mp h₁
      exact ⟨v₁, hv, u, hu, Except.ok.inj h₁⟩
    subst h₁
    exact ⟨hagrees.nothing_left v' hv', v₁, hv, (hsecond hv).symm.trans hpay,
      hagrees.outcome v₁ v' htwo hv'⟩

/-- What `verify_headers` does with the facts of the verification. -/
def headerVerify (headers : Bytes) (p : Parsed) (c : Classification) (v : Verified) :
    Except Error HeaderVerify := do
  let isClocked := p.bundle.primary.id.timestamp.creationTime.isSome
  let toRemove ← v.facts.failed.foldlM (dropFailed v.blocks isClocked) (queued c)
  rejectUndecryptableLiveness v.facts.nokeyExt isClocked
  let extensions ← extractExtensionBlockFields headers v.blocks v.decrypted
  pure {
    bundle := ⟨p.bundle.primary, v.blocks⟩
    extensions := extensions
    toRemove := toRemove
    reportReason := receptionReasonFor c (!v.facts.failed.isEmpty)
    deferredBibs := v.facts.deferredBibs }

variable {hv : HeaderVerify}

omit [Ciphers] in
theorem headerVerify_ok {p : Parsed} {c : Classification} {v : Verified} :
    headerVerify headers p c v = .ok hv ↔ ∃ toRemove extensions,
      v.facts.failed.foldlM (dropFailed v.blocks p.bundle.primary.id.timestamp.creationTime.isSome)
        (queued c) = .ok toRemove ∧
      rejectUndecryptableLiveness v.facts.nokeyExt
        p.bundle.primary.id.timestamp.creationTime.isSome = .ok () ∧
      extractExtensionBlockFields headers v.blocks v.decrypted = .ok extensions ∧
      hv = ⟨⟨p.bundle.primary, v.blocks⟩, extensions, toRemove,
        receptionReasonFor c (!v.facts.failed.isEmpty), v.facts.deferredBibs⟩ := by
  simp only [headerVerify, Fold.bind_ok]
  constructor
  · rintro ⟨toRemove, hr, ⟨⟩, hn, extensions, he, h⟩
    cases h
    exact ⟨toRemove, extensions, hr, hn, he, rfl⟩
  · rintro ⟨toRemove, extensions, hr, hn, he, rfl⟩
    exact ⟨toRemove, hr, (), hn, extensions, he, rfl⟩

theorem verifyHeaders_ok {p : Parsed} :
    verifyHeaders headers keys p = .ok hv ↔ ∃ c v,
      classifyUnsupported p.bundle.blocks p.bcbs p.bibs [] = .ok c ∧
      verify headers keys p.bundle.blocks p.bcbs
        (c.bibDeletable.foldl (fun m n => m.erase n) p.bibs) ∅ ∅ = .ok v ∧
      headerVerify headers p c v = .ok hv := by
  unfold verifyHeaders
  simp only [Fold.bind_ok, headerVerify]
  constructor
  · rintro ⟨c, hc, v, hv, h⟩
    exact ⟨c, v, hc, hv, h⟩
  · rintro ⟨c, v, hc, hv, h⟩
    exact ⟨c, hc, v, hv, h⟩

theorem verifyHeaders_take {data : Bytes} {k : Nat} {p : Parsed}
    (h : SplitAt data k p.bundle.blocks) (hh : Headed p.bundle.blocks) {hv' : HeaderVerify} :
    verifyHeaders data keys p = .ok hv' ↔ ∃ hv, verifyHeaders (data.take k) keys p = .ok hv ∧
      verifyPayload data keys hv.bundle.blocks hv.deferredBibs ∅ ∅ = .ok () ∧
      hv' = { hv with deferredBibs := ∅ } := by
  have hextract : ∀ {v} {bibs : HashMap BibSet}, verify (data.take k) keys p.bundle.blocks p.bcbs
      bibs ∅ ∅ = .ok v → extractExtensionBlockFields (data.take k) v.blocks v.decrypted =
        extractExtensionBlockFields data v.blocks v.decrypted := fun hv =>
    extractExtensionBlockFields_take (h.sameLayout (verify_sameLayout hv)) _
  simp only [verifyHeaders_ok, headerVerify_ok]
  constructor
  · rintro ⟨c, v', hc, hv', toRemove, extensions, hr, hl, he, rfl⟩
    obtain ⟨hnone, v, hv, hpay, hb, hd, hf, hn⟩ := (verify_take h hh).2 v' hv'
    rw [← hb, ← hf] at hr
    rw [← hn] at hl
    rw [← hb, ← hd, ← hextract hv] at he
    rw [hnone, ← hb, ← hf]
    exact ⟨_, ⟨c, v, hc, hv, toRemove, extensions, hr, hl, he, rfl⟩, hpay, rfl⟩
  · rintro ⟨hv', ⟨c, v, hc, hv, toRemove, extensions, hr, hl, he, rfl⟩, hpay, rfl⟩
    obtain ⟨bibs', hv'⟩ := (verify_take h hh).1 v hv hpay
    rw [hextract hv] at he
    exact ⟨c, _, hc, hv', toRemove, extensions, hr, hl, he, rfl⟩

/-! ## Reception -/

theorem parseHeaders_ok {stream rest : List Segment} {tail : Option PayloadTail} :
    parseHeaders maxSize keys stream = .ok (hv, headers, tail, rest) ↔ ∃ head,
      readHead maxSize (.new 4096) 0 stream = .ok (head, rest) ∧
      verifyHeaders head.headers keys head.parsed = .ok hv ∧
      headers = head.headers ∧ tail = head.tail := by
  rw [parseHeaders, Fold.bind_ok]
  constructor
  · rintro ⟨⟨head, rest'⟩, hr, h⟩
    cases hv' : verifyHeaders head.headers keys head.parsed with
    | error x => simp [hv'] at h
    | ok hv₁ =>
      simp only [hv'] at h
      cases h
      exact ⟨head, hr, hv', rfl, rfl⟩
  · rintro ⟨head, hr, hv', rfl, rfl⟩
    exact ⟨(head, rest), hr, by simp only [hv']⟩

theorem receive_ok {stream : List Segment} {whole : Bytes} :
    receive maxSize keys stream = .ok (hv, whole) ↔ ∃ head rest,
      readHead maxSize (.new 4096) 0 stream = .ok (head, rest) ∧
      verifyHeaders head.headers keys head.parsed = .ok hv ∧
      assemble maxSize head rest = .ok whole := by
  rw [receive, Fold.bind_ok]
  constructor
  · rintro ⟨⟨hv', headers, tail, rest⟩, hp, h⟩
    obtain ⟨head, hr, hv₁, rfl, rfl⟩ := parseHeaders_ok.mp (Fold.mapError_ok.mp hp)
    refine ⟨head, rest, hr, ?_⟩
    rw [assemble]
    cases htail : head.tail with
    | none =>
      simp only [htail] at h
      cases h
      exact ⟨hv₁, rfl⟩
    | some tail =>
      simp only [htail] at h
      obtain ⟨w, hw, h⟩ := Fold.bind_ok.mp h
      cases h
      exact ⟨hv₁, Fold.mapError_ok.mp hw⟩
  · rintro ⟨head, rest, hr, hv', hass⟩
    refine ⟨(hv, head.headers, head.tail, rest),
      Fold.mapError_ok.mpr (parseHeaders_ok.mpr ⟨head, hr, hv', rfl, rfl⟩), ?_⟩
    rw [assemble] at hass
    cases htail : head.tail with
    | none =>
      simp only [htail] at hass ⊢
      cases hass
      rfl
    | some tail =>
      simp only [htail] at hass ⊢
      exact Fold.bind_ok.mpr ⟨whole, Fold.mapError_ok.mpr hass, rfl⟩

theorem verifyHeaders_index {p q : Parsed}
    (h : p.index = q.index) : verifyHeaders headers keys p = verifyHeaders headers keys q := by
  obtain ⟨data, bundle, bcbs, bibs⟩ := p
  cases h
  rfl

/-- A bundle in segments, none of which goes on past a whole bundle, is
assembled to its bytes.  It is received when it is received in one piece, up
to the verification of the payload: that is left to `finalize_with_provider`
when the payload was not resident, and the rest of the outcome is the same. -/
theorem receive_segments {maxSize : Nat} (hmax : maxSize < wordSize) {chunks : List Bytes}
    {last : Bytes} (hsize : (chunks.flatten ++ last).length ≤ maxSize)
    (hends : EndsWith (fun d => ∃ q, parse d = .ok q) chunks last) (keys : KeySource) :
    (∀ hv whole, receive maxSize keys (segments chunks last) = .ok (hv, whole) →
      whole = chunks.flatten ++ last) ∧
    ∀ hv' whole, receive maxSize keys [.final (chunks.flatten ++ last)] = .ok (hv', whole) ↔
      whole = chunks.flatten ++ last ∧
      ∃ hv, receive maxSize keys (segments chunks last) = .ok (hv, whole) ∧
        verifyPayload whole keys hv.bundle.blocks hv.deferredBibs ∅ ∅ = .ok () ∧
        hv' = { hv with deferredBibs := ∅ } := by
  obtain ⟨hsound, hcomplete⟩ : ReadsAs maxSize (.new 4096) 0 (segments chunks last)
      ([] ++ (chunks.flatten ++ last)) :=
    readHead_reads hmax (BundleParser.given_new 4096) hsize hends
  rw [List.nil_append] at hsound hcomplete
  refine ⟨fun hv whole h => ?_, fun hv' whole => ?_⟩
  · obtain ⟨head, rest, hr, -, hass⟩ := receive_ok.mp h
    exact (hsound head rest whole hr hass).1
  · constructor
    · intro h
      obtain ⟨head, rest, hr, hv, hass⟩ := receive_ok.mp h
      obtain ⟨q, hq, rfl, rfl⟩ := (readHead_final hmax hsize).mp hr
      obtain rfl : chunks.flatten ++ last = whole := Except.ok.inj hass
      obtain ⟨head, rest, hr, hass, hof⟩ := hcomplete q hq
      obtain ⟨hv₁, hv₁', hpay, he⟩ := (verifyHeaders_take hof.split (headed_of_parse hq)).mp hv
      refine ⟨rfl, hv₁, receive_ok.mpr ⟨head, rest, hr, ?_, hass⟩, hpay, he⟩
      rw [verifyHeaders_index hof.index, hof.resident]
      exact hv₁'
    · rintro ⟨rfl, hv, h, hpay, rfl⟩
      obtain ⟨head, rest, hr, hv', hass⟩ := receive_ok.mp h
      obtain ⟨-, q, hof⟩ := hsound head rest _ hr hass
      rw [verifyHeaders_index hof.index, hof.resident] at hv'
      have hwhole := (verifyHeaders_take hof.split (headed_of_parse hof.parsed)).mpr
        ⟨hv, hv', hpay, rfl⟩
      exact receive_ok.mpr ⟨⟨q, _, none⟩, [], (readHead_final hmax hsize).mpr ⟨q, hof.parsed, rfl, rfl⟩,
        hwhole, rfl⟩

/-! ## A payload under an unknown context -/

/-- The front of a bundle whose payload has a BIB of an unknown context and is
too long to wait for. -/
def foreignHead : Bytes :=
  [0x9F, 0x88, 0x07, 0x00, 0x00, 0x82, 0x02, 0x82, 0x01, 0x02, 0x82, 0x02, 0x82, 0x02, 0x01, 0x82,
    0x02, 0x82, 0x02, 0x01, 0x82, 0x00, 0x18, 0x28, 0x1A, 0x00, 0x0F, 0x42, 0x40, 0x85, 0x0B,
    0x02, 0x00, 0x00, 0x50, 0x81, 0x01, 0x18, 0x4D, 0x00, 0x82, 0x02, 0x82, 0x02, 0x01, 0x81,
    0x81, 0x82, 0x01, 0x41, 0x00, 0x85, 0x01, 0x01, 0x00, 0x00, 0x59, 0x10, 0x68]

def foreignBody : Bytes := List.replicate 4200 0 ++ [0xFF]

section

omit [Crates] [HashOrder] [Ciphers]

theorem foreign_received : (@receive .reference .sorted Ciphers.refusing 8192 (KeySet.source [])
    (segments [foreignHead] foreignBody)).toOption.isSome = true := by
  decide +kernel

theorem foreign_segments :
    (@receive .reference .sorted Ciphers.refusing 8192 (KeySet.source [])
      (segments [foreignHead] foreignBody)).toOption.isSome = true ∧
    (∀ hv whole, @receive .reference .sorted Ciphers.refusing 8192 (KeySet.source [])
      (segments [foreignHead] foreignBody) = .ok (hv, whole) →
      whole = [foreignHead].flatten ++ foreignBody) ∧
    ∀ hv' whole, @receive .reference .sorted Ciphers.refusing 8192 (KeySet.source [])
        [.final ([foreignHead].flatten ++ foreignBody)] = .ok (hv', whole) ↔
      whole = [foreignHead].flatten ++ foreignBody ∧
      ∃ hv, @receive .reference .sorted Ciphers.refusing 8192 (KeySet.source [])
          (segments [foreignHead] foreignBody) = .ok (hv, whole) ∧
        @verifyPayload .reference .sorted Ciphers.refusing whole (KeySet.source [])
          hv.bundle.blocks hv.deferredBibs ∅ ∅ = .ok () ∧
        hv' = { hv with deferredBibs := ∅ } := by
  refine ⟨foreign_received, ?_⟩
  refine @receive_segments .reference .sorted Ciphers.refusing 8192 (by decide) [foreignHead]
    foreignBody (by decide +kernel) (@endsWith_pair .reference .sorted _ _ ?_) (KeySet.source [])
  rintro ⟨q, hq⟩
  have hnone : (@parse .reference .sorted foreignHead).toOption.isSome = false := by
    decide +kernel
  rw [hq] at hnone
  cases hnone

/-- The payload of a bundle in one piece is verified at once, so this one is
refused then and is not when it comes in two segments; and a bundle that ends
with a segment is taken with whatever comes behind it. -/
theorem segments_not_uniform :
    ((@receive .reference .sorted Ciphers.refusing 8192 (KeySet.source [])
        (segments [foreignHead] foreignBody)).toOption.isSome = true ∧
      (@receive .reference .sorted Ciphers.refusing 8192 (KeySet.source [])
        [.final (foreignHead ++ foreignBody)]).toOption.isSome = false) ∧
    (@receive .reference .sorted Ciphers.refusing 8192 (KeySet.source [])
        (segments [hopCountBundle] [0x00])).toOption.map Prod.snd = some hopCountBundle ∧
      (@receive .reference .sorted Ciphers.refusing 8192 (KeySet.source [])
        [.final (hopCountBundle ++ [0x00])]).toOption.isSome = false := by
  exact ⟨⟨foreign_received, by decide +kernel⟩, by decide +kernel, by decide +kernel⟩

end

end Hardy.Bpa
