import Hardy.Bibe
import Hardy.Edit.Extension

/-!
# The echo service

Model of `echo-service/src/lib.rs`, for a service that has its sink: the response to a
bundle, up to the call of `send`.
-/

namespace Hardy.Echo

open Cbor

def requestedStatusReports (flags : BundleFlags) : Bool :=
  flags.receiptReportRequested || flags.forwardReportRequested || flags.deliveryReportRequested ||
    flags.deleteReportRequested

def responseFlags (request : BundleFlags) : BundleFlags :=
  let flags : BundleFlags := { doNotFragment := request.doNotFragment }
  if requestedStatusReports request then
    { flags with
      reportStatusTime := request.reportStatusTime
      receiptReportRequested := request.receiptReportRequested
      forwardReportRequested := request.forwardReportRequested
      deliveryReportRequested := request.deliveryReportRequested
      deleteReportRequested := request.deleteReportRequested }
  else flags

def responseBuilder (request : PrimaryBlock) (payload : Bytes) : Builder :=
  let builder := (Bibe.withLifetime (.new request.destination request.id.source)
    request.lifetime).withFlags (responseFlags request.flags)
  let builder := if requestedStatusReports request.flags then
    { builder with reportTo := some request.reportTo } else builder
  builder.withPayload payload

/-! ## The response -/

def responsePrimary (request : PrimaryBlock) (timestamp : CreationTimestamp) : PrimaryBlock where
  flags := responseFlags request.flags
  id := ⟨request.destination, timestamp, none⟩
  crcType := .crc32Castagnoli
  destination := request.id.source
  reportTo := if requestedStatusReports request.flags then request.reportTo else request.destination
  lifetime := request.lifetime

variable {request : PrimaryBlock} {payload : Bytes}

theorem responseBuilder_primary (h : request.WellFormed) (timestamp : CreationTimestamp) :
    (responseBuilder request payload).primary timestamp = responsePrimary request timestamp := by
  obtain ⟨ms, hms, hlifetime⟩ := h.lifetime
  have hmin : min request.lifetime.nanos (Duration.fromMillis (wordSize - 1)).nanos =
      request.lifetime.nanos := by
    rw [hlifetime]
    refine Nat.min_eq_left (Nat.mul_le_mul_right _ ?_)
    omega
  unfold responseBuilder responsePrimary responseFlags
  cases requestedStatusReports request.flags with
  | true =>
    show PrimaryBlock.mk _ _ _ _ _ ⟨min _ _⟩ = _
    rw [hmin]
    rfl
  | false =>
    show PrimaryBlock.mk _ _ _ _ _ ⟨min _ _⟩ = _
    rw [hmin]
    rfl

theorem responseFlags_canonical (request : BundleFlags) : (responseFlags request).Canonical := by
  unfold responseFlags
  split <;> exact fun _ h => by cases h

theorem responsePrimary_wellFormed (h : request.WellFormed) {timestamp : CreationTimestamp}
    (ht : timestamp.WellFormed) : (responsePrimary request timestamp).WellFormed where
  flags := responseFlags_canonical request.flags
  crcType := rfl
  destination := h.source
  source := h.destination
  reportTo := by
    unfold responsePrimary
    dsimp only
    split
    · exact h.reportTo
    · exact h.destination
  timestamp := ht
  lifetime := h.lifetime
  fragmented := by
    unfold responsePrimary responseFlags
    split <;> rfl
  fragment := fun _ h => by cases h

/-- Whether a response can be sent: the null endpoint makes no requests. -/
def Answerable (request : PrimaryBlock) : Prop :=
  request.destination.isNull = true →
    request.flags.doNotFragment = true ∧ requestedStatusReports request.flags = false

theorem responseFlags_clear (request : BundleFlags) : (responseFlags request).isFragment = false ∧
    (responseFlags request).isAdminRecord = false ∧
    (responseFlags request).doNotFragment = request.doNotFragment := by
  unfold responseFlags
  split <;> exact ⟨rfl, rfl, rfl⟩

theorem responsePrimary_flagsOk (timestamp : CreationTimestamp) :
    (responsePrimary request timestamp).flagsOk = true ↔ Answerable request := by
  have hany : (responseFlags request.flags).anyReport = requestedStatusReports request.flags := by
    unfold responseFlags
    split
    · rfl
    · next hr => exact (Bool.eq_false_iff.mpr hr).symm
  have hflags := responseFlags_clear request.flags
  unfold PrimaryBlock.flagsOk responsePrimary Answerable
  dsimp only
  rw [hany, hflags.1, hflags.2.1, hflags.2.2]
  cases request.destination.isNull <;> simp

theorem responseBuilder_stated (request : PrimaryBlock) (payload : Bytes) :
    (responseBuilder request payload).payload.Stated ∧
    (responseBuilder request payload).extensions = [] ∧
    (responseBuilder request payload).crcType = .crc32Castagnoli ∧
    (responseBuilder request payload).payload.data = some payload ∧
    (responseBuilder request payload).payload.block.flags = { deleteBundleOnFailure := true } := by
  unfold responseBuilder
  cases requestedStatusReports request.flags with
  | true => exact ⟨⟨show 1 < wordSize by decide, nofun, rfl⟩, rfl, rfl, rfl, rfl⟩
  | false => exact ⟨⟨show 1 < wordSize by decide, nofun, rfl⟩, rfl, rfl, rfl, rfl⟩

section

variable [Crates] [HashOrder]

def echo (data : Bytes) (timestamp : CreationTimestamp) : Option Bytes :=
  match parse data with
  | .error _ => none
  | .ok parsed =>
    let primary := parsed.bundle.primary
    if primary.id.source.isNull then none
    else if primary.flags.isAdminRecord then none
    else
      match (parsed.bundle.blocks[1]?).bind (·.payload parsed.data) with
      | none => none
      | some payload =>
        match (responseBuilder primary payload).build timestamp with
        | .ok (_, response) => some response
        | .error _ => none

/-- What the response to a bundle is: it goes back to the source with the payload. -/
structure Reflects (p : Parsed) (timestamp : CreationTimestamp) (response : Bytes) : Prop where
  readable : (∃ q, parse response = .ok q) ↔ Answerable p.bundle.primary
  primary : ∀ q, parse response = .ok q →
    q.bundle.primary = responsePrimary p.bundle.primary timestamp.reread
  payload : ∀ q, parse response = .ok q → (q.bundle.blocks[1]?).bind (·.payload q.data) =
    (p.bundle.blocks[1]?).bind (·.payload p.data)

theorem built_reflects {p : Parsed} (hp : parse p.data = .ok p) {last : Nat} {now : Int}
    {bundle : Bundle} {response payload : Bytes}
    (hpayload : (p.bundle.blocks[1]?).bind (·.payload p.data) = some payload)
    (h : (responseBuilder p.bundle.primary payload).build (.now last now) = .ok (bundle, response))
    (hlen : response.length < wordSize) : Reflects p (.now last now) response := by
  have hwf := (parse_primary hp).1
  obtain ⟨hstated, hbare, -, hdata, hflags⟩ :=
    responseBuilder_stated p.bundle.primary payload
  obtain ⟨pb, wire, hpb, hof, rfl, -⟩ := Builder.build_bare h hbare hstated
    (by rw [hflags]; exact nofun) hlen
  rw [responseBuilder_primary hwf] at hpb
  have hemit : (responsePrimary p.bundle.primary (CreationTimestamp.now last now).reread).emit =
      .ok pb := by
    rw [← hpb]
    refine PrimaryBlock.emit_congr ?_ rfl
    simp only [PrimaryBlock.items, responsePrimary, CreationTimestamp.toCbor_reread]
  have hreads : Reads PrimaryBlock.fromCbor pb
      (responsePrimary p.bundle.primary (CreationTimestamp.now last now).reread, true) := by
    refine PrimaryBlock.reads_emit (responsePrimary_wellFormed hwf
      (CreationTimestamp.now_reread_wellFormed last now)) hemit ?_
    simp only [bundleBytes, List.length_cons, List.length_append] at hlen
    omega
  have hplain := PrimaryBlock.emit_plain hpb
  have hprimary : ∀ q, parse (bundleBytes pb [wire]) = .ok q → q.bundle.primary =
      responsePrimary p.bundle.primary (CreationTimestamp.now last now).reread :=
    fun q hq => parse_primary_eq hreads hplain hq
  have hreadable : Answerable p.bundle.primary → ∃ q, parse (bundleBytes pb [wire]) = .ok q ∧
      (q.bundle.blocks[1]?).bind (·.payload q.data) = some payload := by
    intro hok
    obtain ⟨q, hq, -, block, hblock, hbody⟩ := parse_bare hof (Builder.payload_type _)
      (by rw [hflags]) hreads hplain ((responsePrimary_flagsOk _).mpr hok) hlen.le
    refine ⟨q, hq, ?_⟩
    rw [hblock, Bibe.parse_data hq]
    exact hbody.trans hdata
  have hanswerable : ∀ q, parse (bundleBytes pb [wire]) = .ok q → Answerable p.bundle.primary := by
    intro q hq
    have hok := (parse_primary hq).2
    rw [hprimary q hq] at hok
    exact (responsePrimary_flagsOk _).mp hok
  refine ⟨⟨fun h => h.elim hanswerable, fun hok => ?_⟩, hprimary, fun q hq => ?_⟩
  · obtain ⟨q, hq, -⟩ := hreadable hok
    exact ⟨q, hq⟩
  · obtain ⟨q', hq', hbody⟩ := hreadable (hanswerable q hq)
    cases hq.symm.trans hq'
    rw [hpayload, hbody]

def Ignored (request : PrimaryBlock) : Prop :=
  request.id.source.isNull = true ∨ request.flags.isAdminRecord = true

variable {data : Bytes} {p : Parsed}

theorem echo_ignored (hp : parse data = .ok p) (h : Ignored p.bundle.primary)
    (timestamp : CreationTimestamp) : echo data timestamp = none := by
  simp only [echo, hp]
  rcases h with h | h <;> simp [h]

theorem echo_answers (hp : parse data = .ok p) (h : ¬ Ignored p.bundle.primary) (last : Nat)
    (now : Int) : ∃ response, echo data (.now last now) = some response ∧
      (response.length < wordSize → Reflects p (.now last now) response) := by
  have hdata := Bibe.parse_data hp
  have hin := Extensions.inPlace_of_parse hp
  obtain ⟨block, hblock⟩ := hin.payloadBlock
  have hpayload := hin.payload hblock
  have hbind : (p.bundle.blocks[1]?).bind (·.payload p.data) = block.payload p.data := by
    rw [hblock]
    rfl
  obtain ⟨hstated, hbare, hcrc, hbody, -⟩ := responseBuilder_stated p.bundle.primary
    (block.data.slice (block.extent.slice p.data))
  obtain ⟨⟨bundle, response⟩, hbuild⟩ := Builder.build_isOk (.now last now) hbare
    (by rw [hcrc]; rfl) hstated (by rw [hbody]; rfl)
  refine ⟨response, ?_, built_reflects (hdata.symm ▸ hp) (hbind.trans hpayload) hbuild⟩
  rw [Ignored, not_or] at h
  simp only [echo, hp, h.1, h.2, hbind, hpayload, hbuild]
  simp

/-- A bundle is answered unless it is to be ignored, and the answer reflects it. -/
theorem echo_reflects (hp : parse data = .ok p) (last : Nat) (now : Int) :
    (echo data (.now last now) = none ↔ Ignored p.bundle.primary) ∧
    ∀ response, echo data (.now last now) = some response → response.length < wordSize →
      Reflects p (.now last now) response := by
  by_cases h : Ignored p.bundle.primary
  · have hnone := echo_ignored hp h (.now last now)
    refine ⟨iff_of_true hnone h, fun response hr => ?_⟩
    cases hnone.symm.trans hr
  · obtain ⟨response, hsome, hreflects⟩ := echo_answers hp h last now
    refine ⟨iff_of_false (by simp [hsome]) h, fun response' hr => ?_⟩
    cases hsome.symm.trans hr
    exact hreflects

/-! ## An echo of an echo -/

/-- A bundle that two echo services send each other, by the readings of their clocks. -/
def bounce (clock : Nat → Nat × Int) : Nat → Bytes → Option Bytes
  | 0, data => some data
  | n + 1, data => (bounce clock n data).bind (echo · (.now (clock n).1 (clock n).2))

/-- The endpoints of a bundle after `n` echoes. -/
def turned (n : Nat) (ends : Eid × Eid) : Eid × Eid := if n % 2 = 0 then ends else ends.swap

omit [Crates] [HashOrder] in
theorem turned_succ (n : Nat) (ends : Eid × Eid) : turned (n + 1) ends = (turned n ends).swap := by
  unfold turned
  rcases Nat.mod_two_eq_zero_or_one n with h | h
  · rw [if_neg (by omega), if_pos h]
  · rw [if_pos (by omega), if_neg (by omega), Prod.swap_swap]

/-- What is left of a request after `n` echoes. -/
structure Bounced (p : Parsed) (n : Nat) (q : Parsed) : Prop where
  ends : (q.bundle.primary.id.source, q.bundle.primary.destination) =
    turned n (p.bundle.primary.id.source, p.bundle.primary.destination)
  lifetime : q.bundle.primary.lifetime = p.bundle.primary.lifetime
  payload : (q.bundle.blocks[1]?).bind (·.payload q.data) =
    (p.bundle.blocks[1]?).bind (·.payload p.data)
  record : q.bundle.primary.flags.isAdminRecord = false

/-- Echoes of a bundle go on, each of them to where the one before came from. -/
theorem bounces (hp : parse data = .ok p) (hsource : p.bundle.primary.id.source.isNull = false)
    (hdestination : p.bundle.primary.destination.isNull = false)
    (hrecord : p.bundle.primary.flags.isAdminRecord = false) (clock : Nat → Nat × Int) (n : Nat) :
    (∃ k ≤ n, ∃ response, bounce clock k data = some response ∧ wordSize ≤ response.length) ∨
    ∃ response q, bounce clock n data = some response ∧ parse response = .ok q ∧
      Bounced p n q := by
  induction n with
  | zero => exact .inr ⟨data, p, rfl, hp, rfl, rfl, rfl, hrecord⟩
  | succ n ih =>
    rcases ih with ⟨k, hk, hlong⟩ | ⟨response, q, hbounce, hq, h⟩
    · exact .inl ⟨k, Nat.le_succ_of_le hk, hlong⟩
    have hnull : q.bundle.primary.id.source.isNull = false ∧
        q.bundle.primary.destination.isNull = false := by
      have hends := h.ends
      unfold turned at hends
      split at hends <;> obtain ⟨h1, h2⟩ := Prod.mk.inj hends <;> rw [h1, h2]
      · exact ⟨hsource, hdestination⟩
      · exact ⟨hdestination, hsource⟩
    have hanswered : ¬ Ignored q.bundle.primary := by
      rw [Ignored, hnull.1, h.record]
      simp
    obtain ⟨next, hnext, hreflects⟩ := echo_answers hq hanswered (clock n).1 (clock n).2
    have hstep : bounce clock (n + 1) data = some next := by
      rw [bounce, hbounce]
      exact hnext
    by_cases hlen : next.length < wordSize
    · have hr := hreflects hlen
      obtain ⟨q', hq'⟩ := hr.readable.mpr fun hd => by rw [hnull.2] at hd; cases hd
      have hprimary := hr.primary q' hq'
      refine .inr ⟨next, q', hstep, hq', ?_, ?_, (hr.payload q' hq').trans h.payload, ?_⟩
      · rw [hprimary, turned_succ, ← h.ends]
        rfl
      · rw [hprimary, ← h.lifetime]
        rfl
      · rw [hprimary]
        exact (responseFlags_clear q.bundle.primary.flags).2.1
    · exact .inl ⟨n + 1, le_rfl, next, hstep, Nat.not_lt.mp hlen⟩

end

/-- What came from `ipn:2.1` to `ipn:3.1` goes back. -/
theorem requesting_reflected : ∃ p response,
    @parse .reference .sorted Bpa.requestingData = .ok p ∧
    @echo .reference .sorted Bpa.requestingData (.now 0 0) = some response ∧
    @Reflects .reference .sorted p (.now 0 0) response := by
  have hok : (@parse .reference .sorted Bpa.requestingData).toOption.isSome = true := by
    decide +kernel
  have hlen : (@echo .reference .sorted Bpa.requestingData (.now 0 0)).any
      (decide <| ·.length < wordSize) = true := by decide +kernel
  obtain ⟨p, hp⟩ := Option.isSome_iff_exists.mp hok
  obtain ⟨response, hresponse, hlen⟩ := (Option.any_eq_true _ _).mp hlen
  have hparse := Fold.ok_of_toOption hp
  exact ⟨p, response, hparse, hresponse,
    ((@echo_reflects .reference .sorted) hparse 0 0).2 response hresponse (of_decide_eq_true hlen)⟩

theorem requesting_bounces : ∃ p response q,
    @parse .reference .sorted Bpa.requestingData = .ok p ∧
    @bounce .reference .sorted (fun _ => (0, 0)) 2 Bpa.requestingData = some response ∧
    @parse .reference .sorted response = .ok q ∧ Bounced p 2 q := by
  have h : (@parse .reference .sorted Bpa.requestingData).toOption.map (fun p =>
      (p.bundle.primary.id.source.isNull, p.bundle.primary.destination.isNull,
        p.bundle.primary.flags.isAdminRecord)) = some (false, false, false) := by decide +kernel
  have hshort : ∀ k < 3, (@bounce .reference .sorted (fun _ => (0, 0)) k Bpa.requestingData).all
      (decide <| ·.length < wordSize) = true := by decide +kernel
  obtain ⟨p, hp, h⟩ := Option.map_eq_some_iff.mp h
  have hparse := Fold.ok_of_toOption hp
  obtain ⟨hsource, h⟩ := Prod.mk.inj h
  obtain ⟨hdestination, hrecord⟩ := Prod.mk.inj h
  rcases (@bounces .reference .sorted) hparse hsource hdestination hrecord (fun _ => (0, 0)) 2
    with ⟨k, hk, response, hbounce, hlong⟩ | ⟨response, q, hbounce, hq, hbounced⟩
  · have hall := hshort k (Nat.lt_succ_of_le hk)
    rw [hbounce, Option.all_some, decide_eq_true_eq] at hall
    exact absurd hall (Nat.not_lt.mpr hlong)
  · exact ⟨p, response, q, hparse, hbounce, hq, hbounced⟩

end Hardy.Echo
