import Hardy.Bpa.Report

/-!
# Status reports are sound

What becomes of a report on a bundle that the parser has accepted: another node
can parse it and decode the record in it, the record names the bundle, and no
node reports on the report.  `reports_iff` says for which node ids and reason
codes.
-/

namespace Hardy

open Cbor

/-! ## The source of a report -/

namespace Routing.NodeIds

structure InRange (ids : NodeIds) : Prop where
  ipn : ∀ fqnn, ids.ipn = some fqnn →
    fqnn.allocatorId ≤ Eid.u32Max ∧ fqnn.nodeNumber ≤ Eid.u32Max
  dtn : ∀ nodeName, ids.dtn = some nodeName → validUtf8 nodeName = true

/-- The ids have a name to report to the endpoint under: a `dtn` name, if that is
the scheme, or an `ipn` number, and not that of the null endpoint. -/
def Names (ids : NodeIds) (reportTo : Eid) : Prop :=
  (ids.dtn.isSome = true ∧ (ids.ipn = none ∨ ∃ nodeName service, reportTo = .dtn nodeName service)) ∨
    ∃ fqnn, ids.ipn = some fqnn ∧ fqnn ≠ ⟨0, 0⟩

end Routing.NodeIds

section

variable [Crates]

theorem Eid.reads_admin {n : Nat} (hn : n ≤ u32Max) : ∃ source : Eid, source.WellFormed ∧
    (source.isNull = true ↔ n = 0) ∧
      Reads fromCbor (emitArray [emitUint 2, emitArray [emitUint n, emitUint 0]]) (source, true) := by
  have hlt : n < wordSize := hn.trans_lt (by decide)
  have hreads : ∀ e, ofIpnParts n 0 none true = .ok (e, true) →
      Reads fromCbor (emitArray [emitUint 2, emitArray [emitUint n, emitUint 0]]) (e, true) :=
    fun e he => fields_reads (by decide) (sspFromCbor_ipn (ipnSsp_reads_two hlt (by decide) he))
  by_cases h0 : n = 0
  · subst h0
    exact ⟨.null, trivial, by simp [isNull], hreads _ rfl⟩
  by_cases hmax : n = u32Max
  · subst hmax
    exact ⟨.localNode 0, Nat.zero_le _, by simp [isNull, u32Max],
      hreads _ (ofIpnParts_localNode (Nat.zero_le _))⟩
  · have hpos := Nat.pos_of_ne_zero h0
    have hlt := lt_of_le_of_ne hn hmax
    exact ⟨.ipn ⟨0, n⟩ 0, ⟨Nat.zero_le _, hn, Nat.zero_le _, fun _ => ⟨hpos, hlt⟩⟩,
      by simp [isNull, h0], hreads _ (ofIpnParts_two hpos hlt (Nat.zero_le _))⟩

theorem Eid.reads_node {fqnn : IpnNodeId} {e : Eid} (he : e = .ipn fqnn 0 ∨ e = .legacyIpn fqnn 0)
    (ha : fqnn.allocatorId ≤ u32Max) (hn : fqnn.nodeNumber ≤ u32Max)
    (hlen : e.toCbor.length < wordSize) : ∃ source : Eid, source.WellFormed ∧
      (source.isNull = true ↔ fqnn = ⟨0, 0⟩) ∧ Reads fromCbor e.toCbor (source, true) := by
  obtain ⟨a, n⟩ := fqnn
  dsimp only at ha hn
  by_cases h0 : a = 0
  · -- without an allocator both forms are the array of two numbers
    subst h0
    obtain ⟨source, hwf, hnull, hreads⟩ := reads_admin hn
    refine ⟨source, hwf, by simp [hnull], ?_⟩
    rcases he with rfl | rfl
    · exact hreads
    · rw [toCbor, Nat.zero_mul, Nat.zero_add]
      exact hreads
  · have hpos := Nat.pos_of_ne_zero h0
    have hwf : e.WellFormed ∧ e.isNull = false := by
      rcases he with rfl | rfl
      · exact ⟨⟨ha, hn, Nat.zero_le _, fun h => absurd h h0⟩, rfl⟩
      · exact ⟨⟨hpos, ha, hn, Nat.zero_le _⟩, rfl⟩
    exact ⟨e, hwf.1, by simp [hwf.2, h0], reads_toCbor hwf.1 hlen⟩

theorem Routing.NodeIds.adminEndpoint_reads {ids : Routing.NodeIds} {reportTo : Eid}
    (hrange : ids.InRange) (hsome : ids.ipn.isSome = true ∨ ids.dtn.isSome = true)
    (hlen : (ids.getAdminEndpoint reportTo).toCbor.length < wordSize) :
    ∃ source : Eid, source.WellFormed ∧ (source.isNull = true ↔ ¬ ids.Names reportTo) ∧
      Reads Eid.fromCbor (ids.getAdminEndpoint reportTo).toCbor (source, true) := by
  obtain ⟨_ | fqnn, _ | nodeName⟩ := ids
  · simp at hsome
  · have hadmin : getAdminEndpoint ⟨none, some nodeName⟩ reportTo = .dtn nodeName [] := by
      cases reportTo <;> rfl
    rw [hadmin] at hlen ⊢
    have hwf : (Eid.dtn nodeName []).WellFormed := ⟨hrange.dtn nodeName rfl, rfl⟩
    exact ⟨_, hwf, by simp [Eid.isNull, Names], Eid.reads_toCbor hwf hlen⟩
  · obtain ⟨ha, hn⟩ := hrange.ipn fqnn rfl
    have hadmin : getAdminEndpoint ⟨some fqnn, none⟩ reportTo = .ipn fqnn 0 ∨
        getAdminEndpoint ⟨some fqnn, none⟩ reportTo = .legacyIpn fqnn 0 := by
      cases reportTo <;> simp [getAdminEndpoint]
    obtain ⟨source, hwf, hnull, hreads⟩ := Eid.reads_node hadmin ha hn hlen
    exact ⟨source, hwf, by simp [hnull, Names], hreads⟩
  · obtain ⟨ha, hn⟩ := hrange.ipn fqnn rfl
    by_cases hdtn : ∃ n s, reportTo = .dtn n s
    · obtain ⟨n, s, rfl⟩ := hdtn
      have hwf : (Eid.dtn nodeName []).WellFormed := ⟨hrange.dtn nodeName rfl, rfl⟩
      exact ⟨_, hwf, by simp [Eid.isNull, Names], Eid.reads_toCbor hwf hlen⟩
    · have hadmin : getAdminEndpoint ⟨some fqnn, some nodeName⟩ reportTo = .ipn fqnn 0 ∨
          getAdminEndpoint ⟨some fqnn, some nodeName⟩ reportTo = .legacyIpn fqnn 0 := by
        cases reportTo <;> simp [getAdminEndpoint] at hdtn ⊢
      obtain ⟨source, hwf, hnull, hreads⟩ := Eid.reads_node hadmin ha hn hlen
      exact ⟨source, hwf, by simp [hnull, Names, hdtn], hreads⟩

end

namespace Bpa

open StatusReport

/-! ## The bundle of a report -/

section

variable {nodeIds : Routing.NodeIds} {record : Bytes} {reportTo : Eid}

theorem reportBuilder_stated : (reportBuilder nodeIds record reportTo).payload.Stated :=
  ⟨show 1 < wordSize by decide, nofun, rfl⟩

def reportPrimary (source reportTo : Eid) (timestamp : CreationTimestamp) : PrimaryBlock where
  flags := { isAdminRecord := true }
  id := ⟨source, timestamp, none⟩
  crcType := .crc32Castagnoli
  destination := reportTo
  reportTo := source
  lifetime := .fromMillis 86400000

theorem reportBuilder_primary (timestamp : CreationTimestamp) :
    (reportBuilder nodeIds record reportTo).primary timestamp =
      reportPrimary (nodeIds.getAdminEndpoint reportTo) reportTo timestamp := rfl

theorem reportPrimary_wellFormed {source : Eid} {timestamp : CreationTimestamp}
    (hsource : source.WellFormed) (hto : reportTo.WellFormed) (ht : timestamp.WellFormed) :
    (reportPrimary source reportTo timestamp).WellFormed where
  flags := nofun
  crcType := rfl
  destination := hto
  source := hsource
  reportTo := hsource
  timestamp := ht
  lifetime := ⟨86400000, by decide, rfl⟩
  fragmented := rfl
  fragment := nofun

variable [Crates]

theorem reportPrimary_reads {admin source : Eid} {last : Nat} {now : Int} {pb : Bytes}
    (hto : reportTo.WellFormed) (hsource : source.WellFormed)
    (hreads : Reads Eid.fromCbor admin.toCbor (source, true))
    (hpb : (reportPrimary admin reportTo (.now last now)).emit = .ok pb)
    (hlen : pb.length < wordSize) : Reads PrimaryBlock.fromCbor pb
      (reportPrimary source reportTo (CreationTimestamp.now last now).reread, true) := by
  have hemit : (reportPrimary admin reportTo (CreationTimestamp.now last now).reread).emit =
      .ok pb := by
    rw [← hpb]
    refine PrimaryBlock.emit_congr ?_ rfl
    simp only [PrimaryBlock.items, reportPrimary, CreationTimestamp.toCbor_reread]
  have hwf := reportPrimary_wellFormed hsource hto (CreationTimestamp.now_reread_wellFormed last now)
  exact PrimaryBlock.reads_emit_respelled (p := reportPrimary admin reportTo _) hwf hreads hreads
    hemit hlen

theorem build_bare_types {b : Builder} {timestamp : CreationTimestamp} {bundle : Hardy.Bundle}
    {data : Bytes} (h : b.build timestamp = .ok (bundle, data)) (hbare : b.extensions = []) :
    ∀ (n : Nat) (block : Block), bundle.blocks[n]? = some block →
      block.blockType = .primary ∨ block.blockType = .payload := by
  obtain ⟨pb, -, h⟩ := Fold.bind_ok.mp h
  obtain ⟨s, hext, h⟩ := Fold.bind_ok.mp h
  obtain ⟨s', hpay, h⟩ := Fold.bind_ok.mp h
  obtain ⟨⟨block, out⟩, hblock, hs⟩ := Fold.bind_ok.mp hpay
  rw [hbare] at hext
  obtain rfl := Except.ok.inj hext
  obtain rfl := Except.ok.inj hs
  obtain ⟨rfl, -⟩ := Prod.mk.inj (Except.ok.inj h)
  have htype : block.blockType = .payload := by
    rw [← b.payload_type]
    unfold BlockTemplate.build at hblock
    repeat' split at hblock
    · cases hblock
    · cases hblock
    · next hemit =>
        obtain ⟨_, -, hemit⟩ := Fold.bind_ok.mp hemit
        obtain ⟨rfl, -⟩ := Prod.mk.inj (Except.ok.inj hemit)
        obtain ⟨rfl, -⟩ := Prod.mk.inj (Except.ok.inj hblock)
        rfl
  intro n block' hget
  simp only [HashMap.getElem?_insert] at hget
  split at hget
  · obtain rfl := Option.some.inj hget
    exact .inr htype
  split at hget
  · obtain rfl := Option.some.inj hget
    exact .inl rfl
  · simp at hget

variable [HashOrder]

theorem extractExtensionBlockFields_isOk {data : Bytes} {blocks : HashMap Block}
    (h : ∀ (n : Nat) (b : Block), blocks[n]? = some b →
      b.blockType = .primary ∨ b.blockType = .payload) :
    extractExtensionBlockFields data blocks ∅ = .ok {} := by
  have hmem : ∀ e ∈ HashOrder.iter blocks, e.2.blockType = .primary ∨ e.2.blockType = .payload :=
    fun e he => h e.1 e.2 (HashOrder.mem_iter.mp he)
  rw [extractExtensionBlockFields]
  generalize HashOrder.iter blocks = l at hmem
  induction l with
  | nil => rfl
  | cons e l ih =>
    obtain ⟨he, hl⟩ := List.forall_mem_cons.mp hmem
    have hstep : extractField data ∅ {} e = .ok {} := by
      rcases he with he | he <;> simp [extractField, he]
    rw [List.foldlM_cons, hstep]
    exact ih hl

theorem dispatch_some {d : Dispatcher} (clock : Clock) (hd : d.statusReports = true)
    (hsome : d.nodeIds.ipn.isSome = true ∨ d.nodeIds.dtn.isSome = true) :
    ∃ bundle data, (reportBuilder d.nodeIds record reportTo).build
        (.now clock.lastIssued clock.creation) = .ok (bundle, data) ∧
      d.dispatchStatusReport clock record reportTo = .ok (some
        (⟨bundle, ⟨clock.originated, .originated, {}, none, none⟩, .dispatching⟩, data)) := by
  obtain ⟨⟨bundle, data⟩, hbuild⟩ := Builder.build_isOk
    (b := reportBuilder d.nodeIds record reportTo) (.now clock.lastIssued clock.creation) rfl rfl
    reportBuilder_stated rfl
  refine ⟨bundle, data, hbuild, ?_⟩
  have hscheme : (d.nodeIds.ipn.isNone && d.nodeIds.dtn.isNone) = false := by
    rw [Bool.and_eq_false_iff, Option.isNone_eq_false_iff, Option.isNone_eq_false_iff]
    exact hsome
  have hextract : extractExtensionBlockFields data bundle.blocks ∅ = .ok {} :=
    extractExtensionBlockFields_isOk (build_bare_types hbuild rfl)
  rw [Dispatcher.dispatchStatusReport, hd, hscheme]
  simp only [Bool.not_true, Bool.false_eq_true, if_false, hbuild, Except.mapError]
  show (Except.mapError Panic.extract (extractExtensionBlockFields data bundle.blocks ∅) >>= _) = _
  rw [hextract]
  rfl

theorem report_reads {last : Nat} {now : Int} {bundle : Hardy.Bundle} {data : Bytes}
    (hrange : nodeIds.InRange) (hsome : nodeIds.ipn.isSome = true ∨ nodeIds.dtn.isSome = true)
    (hto : reportTo.WellFormed) (h : (reportBuilder nodeIds record reportTo).build (.now last now) =
      .ok (bundle, data)) (hlen : data.length < wordSize) :
    record.length < wordSize ∧
    bundle.primary.flags = { isAdminRecord := true } ∧
    (¬ nodeIds.Names reportTo → ∀ p, parse data ≠ .ok p) ∧
    (nodeIds.Names reportTo → ∃ p block, parse data = .ok p ∧
      p.bundle.primary.flags.isAdminRecord = true ∧ p.bundle.blocks[1]? = some block ∧
      block.payload data = some record) := by
  obtain ⟨pb, payload, hpb, hof, rfl, rfl⟩ := Builder.build_bare h rfl reportBuilder_stated nofun
    hlen
  have hparts : pb.length < wordSize ∧ payload.body.length < wordSize := by
    simp only [bundleBytes, wireBytes_cons, wireBytes_nil, Wire.bytes, List.length_cons,
      List.length_append] at hlen
    omega
  rw [reportBuilder_primary] at hpb
  have hadmin : (nodeIds.getAdminEndpoint reportTo).toCbor.length < wordSize := by
    have := PrimaryBlock.emit_length hpb
    simp only [PrimaryBlock.items, reportPrimary, List.cons_append, List.flatten_cons,
      List.length_append] at this
    omega
  obtain ⟨source, hsource, hnull, hreads⟩ := nodeIds.adminEndpoint_reads hrange hsome hadmin
  have hprimary := reportPrimary_reads hto hsource hreads hpb hparts.1
  have hok : (reportPrimary source reportTo (CreationTimestamp.now last now).reread).flagsOk =
      !source.isNull := by
    cases source <;> rfl
  refine ⟨?_, by rw [Bundle.addAll_primary]; rfl, fun hname p hp => ?_, fun hname => ?_⟩
  · obtain rfl : record = payload.body := Option.some.inj hof.1
    exact hparts.2
  · have heq := parse_primary_eq hprimary (PrimaryBlock.emit_plain hpb) hp
    have := (parse_primary hp).2
    rw [heq, hok, hnull.mpr hname] at this
    cases this
  · have hnotnull : source.isNull = false := by
      rw [← Bool.not_eq_true, hnull]
      exact not_not_intro hname
    obtain ⟨p, hp, hq, block, hblock, hbody⟩ := parse_bare hof rfl rfl hprimary
      (PrimaryBlock.emit_plain hpb) (by rw [hok, hnotnull]; rfl) hlen.le
    exact ⟨p, block, hp, by rw [hq]; rfl, hblock, hbody⟩

end

/-! ## What reports are -/

section

variable [Crates] [HashOrder]

/-- A report on `subject` that a node can read and that no node reports on. -/
structure Sound (subject : Id) (r : Storage.Bundle × Bytes) : Prop where
  readable : ∃ p block payload report, parse r.2 = .ok p ∧
    p.bundle.primary.flags.isAdminRecord = true ∧ p.bundle.blocks[1]? = some block ∧
    block.payload r.2 = some payload ∧
    parseExact AdministrativeRecord.fromCbor payload = .ok (.bundleStatusReport report) ∧
    report.bundleId = subject
  silent : ∀ (d : Dispatcher) (clock : Clock) (b : Storage.Bundle) (event : ReportedEvent),
    b.bpv7.primary = r.1.bpv7.primary → d.on clock b event = .ok none

structure Behaves (d : Dispatcher) (clock : Clock) (b : Storage.Bundle) (event : ReportedEvent) :
    Prop where
  exempt : b.bpv7.primary.flags.isAdminRecord = true ∨ b.id.source.isNull = true →
    d.on clock b event = .ok none
  dispatched : ∃ r, d.on clock b event = .ok r ∧ ∀ report, r = some report → Sound b.id report

/-- A report on the event has a source that can be read, and a reason. -/
def Reportable (d : Dispatcher) (b : Storage.Bundle) (event : ReportedEvent) : Prop :=
  d.statusReports = true → event.requested b.bpv7.primary.flags = true →
    d.nodeIds.Names b.bpv7.primary.reportTo ∧ event.reason.toU64 ≠ 255

variable {d : Dispatcher} {clock : Clock} {b : Storage.Bundle} {event : ReportedEvent}

theorem Dispatcher.on_none (h : ¬ (d.statusReports = true ∧
    event.requested b.bpv7.primary.flags = true)) : d.on clock b event = .ok none := by
  obtain ⟨report, -, -, heq⟩ := d.on_eq clock b event
  rw [heq, Dispatcher.report]
  split
  · next hreq =>
      rw [dispatchStatusReport, if_pos]
      simpa using fun hd => h ⟨hd, hreq⟩
  · rfl

theorem Dispatcher.on_panics (hd : d.statusReports = true)
    (hreq : event.requested b.bpv7.primary.flags = true) (hipn : d.nodeIds.ipn = none)
    (hdtn : d.nodeIds.dtn = none) : d.on clock b event = .error .noNodeId := by
  obtain ⟨report, -, -, heq⟩ := d.on_eq clock b event
  rw [heq, Dispatcher.report, if_pos hreq, dispatchStatusReport, hd, hipn, hdtn]
  rfl

theorem sound_iff {report : BundleStatusReport} {reportTo : Eid} {bundle : Hardy.Bundle}
    {data : Bytes} {last : Nat} {now : Int} {metadata : Storage.BundleMetadata}
    {status : BundleStatus} {ids : Routing.NodeIds} (hrange : ids.InRange)
    (hsome : ids.ipn.isSome = true ∨ ids.dtn.isSome = true) (hto : reportTo.WellFormed)
    (hid : report.bundleId.WellFormed) (hreason : report.reason.toU64 < wordSize)
    (h : (reportBuilder ids (AdministrativeRecord.bundleStatusReport report).toCbor reportTo).build
      (.now last now) = .ok (bundle, data)) (hlen : data.length < wordSize) :
    Sound report.bundleId (⟨bundle, metadata, status⟩, data) ↔
      ids.Names reportTo ∧ report.reason.toU64 ≠ 255 := by
  obtain ⟨hrecord, hflags, hnameless, hnamed⟩ := report_reads hrange hsome hto h hlen
  constructor
  · intro hsound
    obtain ⟨p, block, payload, decoded, hp, -, hblock, hpayload, hdecode, -⟩ := hsound.readable
    have hname : ids.Names reportTo := by
      by_contra hname
      exact hnameless hname p hp
    obtain ⟨p', block', hp', -, hblock', hpayload'⟩ := hnamed hname
    obtain rfl := Except.ok.inj (hp'.symm.trans hp)
    obtain rfl := Option.some.inj (hblock'.symm.trans hblock)
    obtain rfl := Option.some.inj (hpayload'.symm.trans hpayload)
    refine ⟨hname, fun h255 => ?_⟩
    have hrefused := AdministrativeRecord.refuses_toCbor hreason
      (show ReasonCode.ofU64 report.reason.toU64 = .error .reservedStatusReportReason by
        rw [h255]
        rfl)
    rw [hrefused.parseExact] at hdecode
    cases hdecode
  · rintro ⟨hname, h255⟩
    obtain ⟨p, block, hp, hadmin, hblock, hpayload⟩ := hnamed hname
    obtain ⟨reason, hcode⟩ := ReasonCode.ofU64_ok h255
    refine ⟨⟨p, block, _, _, hp, hadmin, hblock, hpayload,
      (AdministrativeRecord.reads_toCbor hid hreason hcode hrecord).parseExact, rfl⟩, ?_⟩
    intro d clock b event hb
    refine d.on_silent clock ?_ event
    rw [hb, hflags]
    rfl

/-- The reports on the events of a bundle that the parser has accepted: `hfits` is the
range of `usize`. -/
theorem reports_iff {data : Bytes} {p : Parsed} (hp : parse data = .ok p)
    (hb : b.bpv7.primary = p.bundle.primary) (hrange : d.nodeIds.InRange)
    (hreason : event.reason.toU64 < wordSize)
    (hfits : ∀ r, d.on clock b event = .ok (some r) → r.2.length < wordSize) :
    Behaves d clock b event ↔ Reportable d b event := by
  obtain ⟨hwf, hok⟩ := parse_primary hp
  rw [← hb] at hwf hok
  have hexempt : b.bpv7.primary.flags.isAdminRecord = true ∨ b.id.source.isNull = true →
      d.on clock b event = .ok none :=
    fun h => d.on_silent clock (anyReport_false hok h) event
  by_cases hreq : d.statusReports = true ∧ event.requested b.bpv7.primary.flags = true
  · obtain ⟨report, hid, hr, heq⟩ := d.on_eq clock b event
    rw [Dispatcher.report, if_pos hreq.2] at heq
    rw [← hr] at hreason
    have hcond : Reportable d b event ↔
        d.nodeIds.Names b.bpv7.primary.reportTo ∧ report.reason.toU64 ≠ 255 := by
      rw [Reportable, hr]
      exact ⟨fun h => h hreq.1 hreq.2, fun h _ _ => h⟩
    by_cases hsome : d.nodeIds.ipn.isSome = true ∨ d.nodeIds.dtn.isSome = true
    · obtain ⟨bundle, data, hbuild, hdispatch⟩ := dispatch_some clock hreq.1 hsome
      rw [hdispatch] at heq
      rw [hcond, ← sound_iff hrange hsome hwf.reportTo (by rw [hid]; exact hwf.id) hreason hbuild
        (hfits _ heq), hid]
      constructor
      · rintro ⟨-, r, hon, hsound⟩
        exact hsound _ (Except.ok.inj (hon.symm.trans heq))
      · refine fun hsound => ⟨hexempt, _, heq, fun r hr => ?_⟩
        obtain rfl := Option.some.inj hr
        exact hsound
    · obtain ⟨hipn, hdtn⟩ : d.nodeIds.ipn = none ∧ d.nodeIds.dtn = none := by
        simpa [Option.isSome_iff_ne_none] using hsome
      have hpanic : d.on clock b event = .error .noNodeId :=
        Dispatcher.on_panics hreq.1 hreq.2 hipn hdtn
      have hnameless : ¬ d.nodeIds.Names b.bpv7.primary.reportTo := by
        rintro (⟨h, -⟩ | ⟨fqnn, h, -⟩)
        · exact hsome (.inr h)
        · exact hsome (.inl (by rw [h]; rfl))
      rw [hcond]
      constructor
      · rintro ⟨-, r, hon, -⟩
        cases hon.symm.trans hpanic
      · exact fun h => absurd h.1 hnameless
  · refine ⟨fun _ hd hr => absurd ⟨hd, hr⟩ hreq, fun _ => ⟨hexempt, none, d.on_none hreq, ?_⟩⟩
    intro r hr
    cases hr

end

/-! ## A bundle that asks for a report -/

/-- From `ipn:2.1` to `ipn:3.1`, with the flag for reception reports. -/
def requestingData : Bytes :=
  [0x9F, 0x89, 0x07, 0x19, 0x40, 0x00, 0x02, 0x82, 0x02, 0x82, 0x03, 0x01, 0x82, 0x02, 0x82, 0x02,
    0x01, 0x82, 0x02, 0x82, 0x02, 0x01, 0x82, 0x01, 0x00, 0x1A, 0x05, 0x26, 0x5C, 0x00, 0x44, 0xB9,
    0xC0, 0x76, 0xC5, 0x86, 0x01, 0x01, 0x04, 0x02, 0x42, 0x48, 0x69, 0x44, 0x01, 0xC3, 0x73, 0x9E,
    0xFF]

def received (bundle : Hardy.Bundle) : Storage.Bundle :=
  ⟨bundle, ⟨dtnEpoch, .ingress none "tcp", {}, none, none⟩, .new⟩

def requestingClock : Clock := ⟨dtnEpoch + 1000000, dtnEpoch + 1000000, dtnEpoch + 1000000, 0⟩

/-- A node of `ipn:1` reports on it. -/
theorem requesting_reported : ∃ p, @parse .reference .sorted requestingData = .ok p ∧
    @Behaves .reference .sorted ⟨true, ⟨some ⟨0, 1⟩, none⟩⟩ requestingClock (received p.bundle)
      (.reception .noAdditionalInformation) := by
  have hrun : (@parse .reference .sorted requestingData).toOption.map (fun p =>
      (@Dispatcher.on .reference .sorted ⟨true, ⟨some ⟨0, 1⟩, none⟩⟩ requestingClock
        (received p.bundle) (.reception .noAdditionalInformation)).toOption.map fun r =>
          r.map fun r => r.2.length) = some (some (some 66)) := by
    decide +kernel
  cases h : @parse .reference .sorted requestingData with
  | error x => rw [h] at hrun; cases hrun
  | ok p =>
    rw [h] at hrun
    have hrun : (@Dispatcher.on .reference .sorted ⟨true, ⟨some ⟨0, 1⟩, none⟩⟩ requestingClock
        (received p.bundle) (.reception .noAdditionalInformation)).toOption.map (fun r =>
          r.map fun r => r.2.length) = some (some 66) := Option.some.inj hrun
    refine ⟨p, rfl, (@reports_iff .reference .sorted _ _ _ _ _ _ h rfl ⟨?_, ?_⟩ (by decide)
      fun r hr => ?_).mpr fun _ _ => ⟨.inr ⟨_, rfl, by decide⟩, by decide⟩⟩
    · rintro fqnn ⟨⟩
      exact ⟨by decide, by decide⟩
    · intro nodeName hname
      cases hname
    · rw [hr] at hrun
      have hlen : r.2.length = 66 := Option.some.inj (Option.some.inj hrun)
      rw [hlen]
      decide

/-- A node with no node id panics. -/
theorem requesting_panics : ∃ p, @parse .reference .sorted requestingData = .ok p ∧
    @Dispatcher.on .reference .sorted ⟨true, ⟨none, none⟩⟩ requestingClock (received p.bundle)
      (.reception .noAdditionalInformation) = .error .noNodeId ∧
    ¬ @Behaves .reference .sorted ⟨true, ⟨none, none⟩⟩ requestingClock (received p.bundle)
      (.reception .noAdditionalInformation) := by
  have hflag : (@parse .reference .sorted requestingData).toOption.map (fun p =>
      p.bundle.primary.flags.receiptReportRequested) = some true := by
    decide +kernel
  cases h : @parse .reference .sorted requestingData with
  | error x => rw [h] at hflag; cases hflag
  | ok p =>
    rw [h] at hflag
    have hrequested : (received p.bundle).bpv7.primary.flags.receiptReportRequested = true :=
      Option.some.inj hflag
    have hpanic : @Dispatcher.on .reference .sorted ⟨true, ⟨none, none⟩⟩ requestingClock
        (received p.bundle) (.reception .noAdditionalInformation) = .error .noNodeId :=
      @Dispatcher.on_panics .reference .sorted _ _ _ _ rfl hrequested rfl rfl
    refine ⟨p, rfl, hpanic, fun hb => ?_⟩
    obtain ⟨r, hr, -⟩ := @Behaves.dispatched .reference .sorted _ _ _ _ hb
    cases hr.symm.trans hpanic

end Bpa

end Hardy
