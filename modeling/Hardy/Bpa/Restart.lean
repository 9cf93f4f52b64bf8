import Hardy.Bpa.Admission
import Hardy.Bpa.Gathering
import Hardy.Bpa.Segments
import Hardy.Checks.TwoPass

/-!
# Restart

Model of `Store::recover` (`bpa/src/storage/recover.rs`) with
`Dispatcher::restart_bundle` (`bpa/src/dispatcher/restart.rs`), and of what a
crash in the middle of `Dispatcher::reassemble` leaves for it.

The transition from the fragments of an application data unit to the whole
bundle is a list of writes to the two stores; a crash keeps some first part of
it.  Recovery visits the stored data in any order, confirms the records that it
belongs to, and then removes the records that nothing has confirmed.  What is
handed to the pipeline is recorded; the pipeline itself is not run here.

The argument is one invariant, `Safe`: whatever is still to be visited, a bundle
whose data is readable is either recorded under the name of the data or about
to be admitted as an orphan.  Nothing else that recovery visits takes that away.
-/

namespace Hardy.Bpa

open Bpsec Checks

/-! ## Recovery -/

inductive Handed where
  | ingress (bundle : Bundle) (data : Bytes)
  | dispatch (bundle : Bundle)

/-- The store while it is recovered, with the live records that no data has
confirmed. -/
structure Recovery where
  store : Store
  unconfirmed : Id → Bool
  handed : List Handed

/-- One item of `BundleStorage::recover`, and the time when it is looked at. -/
structure Visit where
  name : Nat
  fileTime : Int
  now : Int

namespace Recovery

def start (s : Store) : Recovery := ⟨s, fun id => (s.get id).isSome, []⟩

/-- `MetadataStorage::confirm_exists`, without the record that it returns. -/
def confirm (r : Recovery) (id : Id) : Recovery :=
  { r with unconfirmed := Function.update r.unconfirmed id false }

def deleteData (r : Recovery) (name : Nat) : Recovery :=
  { r with store := r.store.deleteData name }

def hand (r : Recovery) (h : Handed) : Recovery := { r with handed := r.handed ++ [h] }

/-- The conditional reset of a hand-off that ended with the process. -/
def repark (r : Recovery) (b : Bundle) (status : BundleStatus) : Recovery :=
  match r.store.swapStatus b status with
  | some (_, store) => { r with store }
  | none => r

def resume (r : Recovery) (b : Bundle) (data : Bytes) : Recovery :=
  match b.status with
  | .new => r.hand (.ingress b data)
  | .dispatching | .dispatchPending => r.hand (.dispatch b)
  | .forwardPending _ _ _ | .forwardAckPending _ => r.repark b .waiting
  | .deliverPending service | .deliveryAckPending service => r.repark b (.waitingForService service)
  | .waiting | .waitingForService _ | .aduFragment _ _ => r

def removeUnconfirmed (r : Recovery) : Store :=
  { r.store with metadata := fun id =>
      if r.unconfirmed id then (r.store.metadata id).map fun _ => .tombstone
      else r.store.metadata id }

end Recovery

section

variable [Crates] [HashOrder] [Ciphers] [StorageNames]

/-- Data without a record: the whole receive pipeline, and what it rejects is
deleted. -/
def Node.restartOrphan (node : Node) (r : Recovery) (v : Visit) (data : Bytes) : Recovery :=
  match node.processReceivedBundle v.now r.store [.final data] ⟨v.fileTime, .recovered, some v.name⟩ with
  | (.bundle b data, store) => { r with store }.hand (.ingress b data)
  | (_, store) => { r with store }.deleteData v.name

def Node.restartBundle (node : Node) (r : Recovery) (v : Visit) : Recovery :=
  match r.store.loadData v.name with
  | none => r
  | some data =>
    match parseValidateWithProvider data node.keyProvider with
    | .error _ => r.deleteData v.name
    | .ok validated =>
      let id := validated.bundle.primary.id
      match r.store.get id with
      | some record =>
        if record.metadata.storageName ≠ some v.name then (r.confirm id).deleteData v.name
        else (r.confirm id).resume ⟨validated.bundle, record.metadata, record.status⟩ data
      | none => node.restartOrphan (r.confirm id) v data

def Node.recovery (node : Node) (s : Store) (visits : List Visit) : Recovery :=
  visits.foldl node.restartBundle (.start s)

def Node.recover (node : Node) (s : Store) (visits : List Visit) : Store :=
  (node.recovery s visits).removeUnconfirmed

/-! ## What a node reads -/

def Node.readId (node : Node) (data : Bytes) : Option Id :=
  match parseValidateWithProvider data node.keyProvider with
  | .ok validated => some validated.bundle.primary.id
  | .error _ => none

def Node.Accepts (node : Node) (v : Visit) (data : Bytes) : Prop :=
  ∃ p, node.check v.fileTime v.now [.final data] = .ok p

variable {node : Node} {r r' : Recovery} {v : Visit} {data : Bytes} {id : Id}

omit [StorageNames] in
theorem readId_parse (h : node.readId data = some id) :
    ∃ p, parse data = .ok p ∧ p.bundle.primary.id = id := by
  rw [Node.readId] at h
  split at h
  · next validated hv =>
      obtain ⟨p, hp, hv⟩ := Fold.bind_ok.mp hv
      obtain ⟨c, -, hv⟩ := Fold.bind_ok.mp hv
      obtain ⟨w, -, hv⟩ := Fold.bind_ok.mp hv
      split at hv
      · cases hv
      · obtain ⟨extensions, -, hv⟩ := Fold.bind_ok.mp hv
        cases hv
        exact ⟨p, hp, Option.some.inj h⟩
  · cases h

omit [Crates] [HashOrder] [Ciphers] [StorageNames] in
theorem checkEnd_eq {p q : Parsed} (h : p.checkEnd = .ok q) : p = q := by
  simp only [Parsed.checkEnd] at h
  split at h
  · cases h
  · split at h
    · cases h
    · split at h <;> cases h
      rfl

omit [Ciphers] [StorageNames] in
theorem readHead_final_parsed {maxSize : Nat} {head : Head} {rest : List Segment} {p : Parsed}
    (h : readHead maxSize (.new 4096) 0 [.final data] = .ok (head, rest))
    (hp : parse data = .ok p) : head.parsed = p := by
  simp only [readHead] at h
  split at h
  · cases h
  · obtain ⟨progress, hpush, hp⟩ := Fold.bind_ok.mp hp
    rw [show (Segment.final data).bytes = data from rfl, hpush] at h
    cases progress with
    | needMore more parser => cases hp
    | partialBody consumed tail f => cases hp
    | ready whole f =>
      obtain ⟨parsed, hfin, hp⟩ := Fold.bind_ok.mp hp
      obtain ⟨head', hh, he⟩ := Fold.map_ok.mp h
      cases he
      rw [finishHead, hfin] at hh
      cases hh
      exact checkEnd_eq hp

omit [StorageNames] in
theorem check_id {receivedAt now : Int} {p : Hardy.Bundle × Bytes}
    (h : node.check receivedAt now [.final data] = .ok p) (hid : node.readId data = some id) :
    p.1.primary.id = id := by
  obtain ⟨parsed, hparse, rfl⟩ := readId_parse hid
  rw [Node.check] at h
  obtain ⟨⟨hv, headers, tail, rest⟩, hhead, h⟩ := Fold.bind_ok.mp h
  obtain ⟨⟨head, rest'⟩, -, hhead⟩ := Fold.bind_ok.mp (Fold.mapError_ok.mp hhead)
  obtain ⟨head, hr, hv', -, -⟩ := parseHeaders_ok.mp hhead
  have hprimary : hv.bundle.primary = parsed.bundle.primary := by
    obtain ⟨c, w, -, -, hverify⟩ := verifyHeaders_ok.mp hv'
    obtain ⟨toRemove, extensions, -, -, -, rfl⟩ := headerVerify_ok.mp hverify
    rw [readHead_final_parsed hr hparse]
  dsimp only at h
  split at h
  · cases h
  · obtain ⟨whole, -, h⟩ := Fold.bind_ok.mp h
    obtain ⟨⟨⟩, -, h⟩ := Fold.bind_ok.mp (Fold.mapError_ok.mp h)
    cases h
    rw [rewrite_primary, hprimary]

/-! ## What one visit does -/

def Visit.record (v : Visit) (bpv7 : Hardy.Bundle) : Bundle :=
  ⟨bpv7, ⟨v.fileTime, .recovered, some v.name⟩, .new⟩

/-- The outcomes of `restart_bundle`. -/
inductive Visited (node : Node) (r : Recovery) (v : Visit) : Recovery → Prop where
  | absent (hdata : r.store.data[v.name]? = none) : Visited node r v r
  | junk {data : Bytes} (hdata : r.store.data[v.name]? = some data)
      (hread : node.readId data = none) : Visited node r v (r.deleteData v.name)
  | duplicate {data : Bytes} {id : Id} {record : Bundle}
      (hdata : r.store.data[v.name]? = some data) (hread : node.readId data = some id)
      (hlive : r.store.metadata id = some (.live record))
      (hname : record.metadata.storageName ≠ some v.name) :
      Visited node r v ((r.confirm id).deleteData v.name)
  | resumed {data : Bytes} {id : Id} {record b : Bundle}
      (hdata : r.store.data[v.name]? = some data) (hread : node.readId data = some id)
      (hlive : r.store.metadata id = some (.live record))
      (hname : record.metadata.storageName = some v.name) (hid : b.id = id)
      (hmeta : b.metadata = record.metadata) (hstatus : b.status = record.status) :
      Visited node r v ((r.confirm id).resume b data)
  | admitted {data data' : Bytes} {id : Id} {bpv7 : Hardy.Bundle} {store : Store}
      (hdata : r.store.data[v.name]? = some data) (hread : node.readId data = some id)
      (hid : bpv7.primary.id = id)
      (hinsert : (r.store.replaceData v.name data').insertMetadata (v.record bpv7) = some store) :
      Visited node r v
        ({ r.confirm id with store }.hand (.ingress (v.record bpv7) data'))
  | rejected {data : Bytes} {id : Id} {store : Store}
      (hdata : r.store.data[v.name]? = some data) (hread : node.readId data = some id)
      (hget : r.store.get id = none)
      (hwhy : ¬ node.Accepts v data ∨ r.store.metadata id ≠ none)
      (hmeta : store.metadata = r.store.metadata)
      (hothers : ∀ n ≠ v.name, store.data[n]? = r.store.data[n]?) :
      Visited node r v ({ r.confirm id with store }.deleteData v.name)

omit [Crates] [HashOrder] [Ciphers] [StorageNames] in
theorem insertMetadata_eq_some {s s' : Store} {b : Bundle} :
    s.insertMetadata b = some s' ↔ s.metadata b.id = none ∧
      s' = { s with metadata := Function.update s.metadata b.id (some (.live b)) } := by
  rw [Store.insertMetadata]
  cases h : s.metadata b.id with
  | none => exact ⟨fun he => ⟨rfl, (Option.some.inj he).symm⟩, fun he => congrArg some he.2.symm⟩
  | some e => exact ⟨nofun, nofun⟩

omit [Crates] [HashOrder] [Ciphers] [StorageNames] in
theorem insertMetadata_eq_none {s : Store} {b : Bundle} :
    s.insertMetadata b = none ↔ s.metadata b.id ≠ none := by
  rw [Store.insertMetadata]
  cases h : s.metadata b.id with
  | none => exact ⟨nofun, fun he => absurd rfl he⟩
  | some e => exact ⟨nofun, fun _ => rfl⟩

theorem visited_orphan (hdata : r.store.data[v.name]? = some data)
    (hread : node.readId data = some id) (hget : r.store.get id = none) :
    Visited node r v (node.restartOrphan (r.confirm id) v data) := by
  rw [Node.restartOrphan, Node.processReceivedBundle]
  cases hc : node.check v.fileTime v.now [.final data] with
  | error x =>
    have hwhy : ¬ node.Accepts v data := by
      rintro ⟨p, hp⟩
      rw [hc] at hp
      cases hp
    cases x <;> exact .rejected hdata hread hget (.inl hwhy) rfl fun _ _ => rfl
  | ok p =>
    have hid := check_id hc hread
    dsimp only
    split
    · next b data' store heq =>
        split at heq
        · next store' hins =>
            cases heq
            exact .admitted hdata hread hid hins
        · cases heq
    · next store hne heq =>
        split at heq
        · next store' hins =>
            cases heq
            exact absurd rfl (hne _ _)
        · next hins =>
            cases heq
            refine .rejected hdata hread hget (.inr ?_) rfl fun n hn => ?_
            · have hsome : r.store.metadata p.1.primary.id ≠ none := insertMetadata_eq_none.mp hins
              rwa [hid] at hsome
            · rw [Recovery.confirm, Store.replaceData, HashMap.getElem?_insert, if_neg hn]

theorem visited (node : Node) (r : Recovery) (v : Visit) :
    Visited node r v (node.restartBundle r v) := by
  rw [Node.restartBundle, Store.loadData]
  cases hdata : r.store.data[v.name]? with
  | none => exact .absent hdata
  | some data =>
    dsimp only
    cases hv : parseValidateWithProvider data node.keyProvider with
    | error x => exact .junk hdata (by rw [Node.readId, hv])
    | ok validated =>
      have hread : node.readId data = some validated.bundle.primary.id := by
        rw [Node.readId, hv]
      dsimp only
      cases hget : r.store.get validated.bundle.primary.id with
      | none => exact visited_orphan hdata hread hget
      | some record =>
        have hlive := Store.get_eq_some.mp hget
        dsimp only
        split
        · next hname => exact .duplicate hdata hread hlive hname
        · next hname =>
            exact .resumed hdata hread hlive (not_not.mp hname) rfl rfl rfl

/-! ## What a visit leaves alone -/

/-- The effect of resuming a recorded bundle: at most a status changes. -/
structure Resumes (r r' : Recovery) (id : Id) : Prop where
  data : r'.store.data = r.store.data
  unconfirmed : r'.unconfirmed = r.unconfirmed
  handed : ∀ h ∈ r.handed, h ∈ r'.handed
  others : ∀ i ≠ id, r'.store.metadata i = r.store.metadata i
  live : ∀ record, r.store.metadata id = some (.live record) →
    ∃ record', r'.store.metadata id = some (.live record') ∧ record'.metadata = record.metadata

section

omit [Crates] [HashOrder] [Ciphers] [StorageNames]

theorem Resumes.refl : Resumes r r id where
  data := rfl
  unconfirmed := rfl
  handed _ h := h
  others _ _ := rfl
  live record h := ⟨record, h, rfl⟩

theorem resumes_hand (h : Handed) : Resumes r (r.hand h) id :=
  { Resumes.refl (r := r) with handed := fun _ hh => List.mem_append_left _ hh }

theorem resumes_repark (b : Bundle) (status : BundleStatus) :
    Resumes r (r.repark b status) b.id := by
  rw [Recovery.repark]
  split
  · next b' store h =>
      obtain ⟨record, ⟨hlive, -⟩, -, rfl⟩ := Store.swapStatus_eq_some.mp h
      refine ⟨rfl, rfl, fun _ hh => hh, fun i hi => Function.update_of_ne hi _ _, ?_⟩
      intro record' hlive'
      rw [hlive] at hlive'
      cases hlive'
      exact ⟨_, Function.update_self _ _ _, rfl⟩
  · exact .refl

theorem resumes (r : Recovery) (b : Bundle) (data : Bytes) :
    Resumes r (r.resume b data) b.id := by
  rw [Recovery.resume]
  split <;> first | exact resumes_hand _ | exact resumes_repark _ _ | exact .refl

end

section

variable (h : Visited node r v r')

include h

omit [StorageNames] in
theorem Visited.data_other {n : Nat} (hn : n ≠ v.name) :
    r'.store.data[n]? = r.store.data[n]? := by
  have hdelete (m : HashMap Bytes) : (m.erase v.name)[n]? = m[n]? := by
    rw [Std.ExtTreeMap.getElem?_erase, if_neg]
    exact fun he => hn (Std.LawfulEqCmp.compare_eq_iff_eq.mp he).symm
  cases h with
  | absent _ => rfl
  | junk _ _ => exact hdelete _
  | duplicate _ _ _ _ => exact hdelete _
  | resumed _ _ _ _ _ _ _ => rw [(resumes _ _ _).data]; rfl
  | admitted _ _ _ hinsert =>
    obtain ⟨-, rfl⟩ := insertMetadata_eq_some.mp hinsert
    exact (HashMap.getElem?_insert ..).trans (if_neg hn)
  | rejected _ _ _ _ _ hothers => exact (hdelete _).trans (hothers n hn)

omit [StorageNames] in
theorem Visited.handed_mono {x : Handed} (hx : x ∈ r.handed) : x ∈ r'.handed := by
  cases h with
  | absent _ | junk _ _ | duplicate _ _ _ _ | rejected _ _ _ _ _ _ => exact hx
  | resumed _ _ _ _ _ _ _ => exact (resumes _ _ _).handed x hx
  | admitted _ _ _ _ => exact List.mem_append_left _ hx

omit [Crates] [HashOrder] [Ciphers] [StorageNames] h in
theorem confirm_mono {i : Id} (hc : r.unconfirmed id = false) :
    (r.confirm i).unconfirmed id = false := by
  rw [Recovery.confirm]
  by_cases hi : id = i
  · rw [hi]
    exact Function.update_self _ _ _
  · exact (Function.update_of_ne hi _ _).trans hc

section

omit [StorageNames]

theorem Visited.confirmed (hc : r.unconfirmed id = false) : r'.unconfirmed id = false := by
  cases h with
  | absent _ | junk _ _ => exact hc
  | duplicate _ _ _ _ | rejected _ _ _ _ _ _ => exact confirm_mono hc
  | resumed _ _ _ _ _ _ _ =>
    rw [(resumes _ _ _).unconfirmed]
    exact confirm_mono hc
  | admitted _ _ _ _ => exact confirm_mono hc

theorem Visited.live_other {record : Bundle} (hlive : r.store.metadata id = some (.live record))
    (hname : record.metadata.storageName ≠ some v.name) :
    r'.store.metadata id = some (.live record) := by
  cases h with
  | absent _ | junk _ _ | duplicate _ _ _ _ => exact hlive
  | @resumed _ i record' b _ _ hlive' hname' hid _ _ =>
    have hne : id ≠ b.id := by
      rintro rfl
      rw [hid, hlive'] at hlive
      cases hlive
      exact hname hname'
    exact ((resumes _ _ _).others id hne).trans hlive
  | @admitted _ _ i bpv7 _ _ _ _ hinsert =>
    obtain ⟨hnone, rfl⟩ := insertMetadata_eq_some.mp hinsert
    have hne : id ≠ (v.record bpv7).id := by
      rintro rfl
      exact absurd (hnone.symm.trans hlive) nofun
    exact (Function.update_of_ne hne _ _).trans hlive
  | rejected _ _ _ _ hmeta _ => exact (congrFun hmeta id).trans hlive

theorem Visited.own {record : Bundle} (hlive : r.store.metadata id = some (.live record))
    (hname : record.metadata.storageName = some v.name)
    (hdata : r.store.data[v.name]? = some data) (hread : node.readId data = some id) :
    (∃ record', r'.store.metadata id = some (.live record') ∧
      record'.metadata = record.metadata) ∧
    r'.store.data[v.name]? = some data ∧ r'.unconfirmed id = false ∧
    (record.status = .new → ∃ b, .ingress b data ∈ r'.handed ∧ b.id = id ∧
      b.metadata = record.metadata) := by
  cases h with
  | absent hdata' => exact absurd (hdata'.symm.trans hdata) nofun
  | junk hdata' hread' =>
    cases hdata'.symm.trans hdata
    exact absurd (hread'.symm.trans hread) nofun
  | duplicate hdata' hread' hlive' hname' =>
    cases hdata'.symm.trans hdata
    cases hread'.symm.trans hread
    cases hlive'.symm.trans hlive
    exact absurd hname hname'
  | @resumed _ _ _ b hdata' hread' hlive' _ hid hmeta hstatus =>
    cases hdata'.symm.trans hdata
    cases hread'.symm.trans hread
    cases hlive'.symm.trans hlive
    have hr := resumes (r.confirm id) b data
    refine ⟨?_, ?_, ?_, fun hnew => ?_⟩
    · exact hid ▸ hr.live record (hid.symm ▸ hlive)
    · rw [hr.data]
      exact hdata
    · rw [hr.unconfirmed]
      exact Function.update_self _ _ _
    · refine ⟨b, ?_, hid, hmeta⟩
      rw [Recovery.resume, hstatus, hnew]
      exact List.mem_append_right _ (List.mem_singleton.mpr rfl)
  | admitted hdata' hread' hid hinsert =>
    cases hdata'.symm.trans hdata
    cases hread'.symm.trans hread
    have hnone := (insertMetadata_eq_some.mp hinsert).1
    rw [← hid] at hlive
    exact absurd (hnone.symm.trans hlive) nofun
  | rejected hdata' hread' hget _ _ _ =>
    cases hdata'.symm.trans hdata
    cases hread'.symm.trans hread
    exact absurd (hget.symm.trans (Store.get_eq_some.mpr hlive)) nofun

end

end

omit [StorageNames] in
theorem Visited.orphan (h : Visited node r v r') (hnone : r.store.metadata id = none) :
    (r'.store.metadata id = none ∧ ∀ data, r.store.data[v.name]? = some data →
      node.readId data = some id → ¬ node.Accepts v data) ∨
    ∃ data data' b, r.store.data[v.name]? = some data ∧ node.readId data = some id ∧
      r'.store.metadata id = some (.live b) ∧ b.id = id ∧
      b.metadata.storageName = some v.name ∧ r'.store.data[v.name]? = some data' ∧
      .ingress b data' ∈ r'.handed := by
  cases h with
  | absent hdata =>
    exact .inl ⟨hnone, fun data hdata' => absurd (hdata.symm.trans hdata') nofun⟩
  | junk hdata hread =>
    refine .inl ⟨hnone, fun data hdata' hread' => ?_⟩
    cases hdata.symm.trans hdata'
    exact absurd (hread.symm.trans hread') nofun
  | @duplicate _ i _ hdata hread hlive _ =>
    refine .inl ⟨hnone, fun data hdata' hread' => ?_⟩
    cases hdata.symm.trans hdata'
    cases hread.symm.trans hread'
    exact absurd (hnone.symm.trans hlive) nofun
  | @resumed _ i _ b hdata hread hlive _ hid _ _ =>
    have hne : id ≠ b.id := by
      rintro rfl
      rw [hid] at hnone
      exact absurd (hnone.symm.trans hlive) nofun
    refine .inl ⟨((resumes _ _ _).others id hne).trans hnone, fun data hdata' hread' => ?_⟩
    cases hdata.symm.trans hdata'
    cases hread.symm.trans hread'
    exact absurd hid.symm hne
  | @admitted data data' i bpv7 _ hdata hread hid hinsert =>
    obtain ⟨-, rfl⟩ := insertMetadata_eq_some.mp hinsert
    by_cases hi : id = i
    · subst hi
      refine .inr ⟨data, data', v.record bpv7, hdata, hread, ?_, hid, rfl, ?_, ?_⟩
      · exact hid ▸ Function.update_self _ _ _
      · exact (HashMap.getElem?_insert ..).trans (if_pos rfl)
      · exact List.mem_append_right _ (List.mem_singleton.mpr rfl)
    · refine .inl ⟨?_, fun d hdata' hread' => ?_⟩
      · exact (Function.update_of_ne (fun he => hi (he.trans hid)) _ _).trans hnone
      · cases hdata.symm.trans hdata'
        exact absurd (Option.some.inj (hread'.symm.trans hread)) hi
  | rejected hdata hread _ hwhy hmeta _ =>
    refine .inl ⟨(congrFun hmeta id).trans hnone, fun data hdata' hread' => ?_⟩
    cases hdata.symm.trans hdata'
    cases hread.symm.trans hread'
    exact hwhy.resolve_right fun hsome => hsome hnone

/-! ## The invariant -/

/-- The bundle `id` is not lost, whatever becomes of the visits that are left:
one of the `copies` of its data has its record, or is to be admitted.  When
`wanted` says so, it is handed to the ingress chain. -/
inductive Safe (node : Node) (wanted : Prop) (copies : Nat → Prop) (id : Id) (r : Recovery)
    (visits : List Visit) : Prop where
  | recorded {n : Nat} {data : Bytes} {record : Bundle} (hcopy : copies n)
      (hvisit : n ∈ visits.map Visit.name) (hlive : r.store.metadata id = some (.live record))
      (hname : record.metadata.storageName = some n) (hdata : r.store.data[n]? = some data)
      (hread : node.readId data = some id) (hnew : wanted → record.status = .new)
  | orphan {n : Nat} {data : Bytes} (hvisit : n ∈ visits.map Visit.name)
      (hnone : r.store.metadata id = none) (hconfirmed : r.unconfirmed id = false)
      (hdata : r.store.data[n]? = some data) (hread : node.readId data = some id)
      (haccept : ∀ v ∈ visits, v.name = n → node.Accepts v data)
      (hcopies : ∀ v ∈ visits, ∀ data, r.store.data[v.name]? = some data →
        node.readId data = some id → copies v.name)
  | held {n : Nat} {data : Bytes} {record : Bundle} (hcopy : copies n)
      (hvisit : n ∉ visits.map Visit.name) (hlive : r.store.metadata id = some (.live record))
      (hname : record.metadata.storageName = some n) (hdata : r.store.data[n]? = some data)
      (hconfirmed : r.unconfirmed id = false)
      (hhanded : wanted → ∃ b data, .ingress b data ∈ r.handed ∧ b.id = id ∧
        b.metadata.storageName = some n)

omit [Crates] [HashOrder] [Ciphers] [StorageNames] in
theorem start_confirmed {s : Store} (h : s.metadata id = none) :
    (Recovery.start s).unconfirmed id = false := by
  simp [Recovery.start, Store.get, h]

variable {wanted : Prop} {copies : Nat → Prop} {visits : List Visit}

theorem Safe.visit (hnodup : ((v :: visits).map Visit.name).Nodup)
    (h : Safe node wanted copies id r (v :: visits)) :
    Safe node wanted copies id (node.restartBundle r v) visits := by
  have hv := visited node r v
  obtain ⟨hfresh, hnodup⟩ := List.nodup_cons.mp hnodup
  cases h with
  | @recorded n data record hcopy hvisit hlive hname hdata hread hnew =>
    by_cases hn : n = v.name
    · subst hn
      obtain ⟨⟨record', hlive', hmeta⟩, hdata', hconf, hhanded⟩ := hv.own hlive hname hdata hread
      refine .held hcopy hfresh hlive' (hmeta ▸ hname) hdata' hconf fun ha => ?_
      obtain ⟨b, hb, hid, hmeta'⟩ := hhanded (hnew ha)
      exact ⟨b, data, hb, hid, hmeta' ▸ hname⟩
    · refine .recorded hcopy ?_ (hv.live_other hlive ?_) hname ((hv.data_other hn).trans hdata)
        hread hnew
      · exact (List.mem_cons.mp hvisit).resolve_left hn
      · rw [hname]
        exact fun he => hn (Option.some.inj he)
  | @orphan n data hvisit hnone hconf hdata hread haccept hcopies =>
    rcases hv.orphan hnone with ⟨hnone', hreject⟩ |
        ⟨d, d', b, hd, hread', hlive, hid, hname, hdata', hhanded⟩
    · have hn : n ≠ v.name := by
        rintro rfl
        exact hreject data hdata hread (haccept v List.mem_cons_self rfl)
      refine .orphan ((List.mem_cons.mp hvisit).resolve_left hn) hnone' (hv.confirmed hconf)
        ((hv.data_other hn).trans hdata) hread
        (fun w hw => haccept w (List.mem_cons_of_mem _ hw)) fun w hw d hd => ?_
      rw [hv.data_other (ne_of_mem_of_not_mem (List.mem_map_of_mem hw) hfresh)] at hd
      exact hcopies w (List.mem_cons_of_mem _ hw) d hd
    · exact .held (hcopies v List.mem_cons_self d hd hread') hfresh hlive hname hdata'
        (hv.confirmed hconf) fun _ => ⟨b, d', hhanded, hid, hname⟩
  | @held n data record hcopy hvisit hlive hname hdata hconf hhanded =>
    obtain ⟨hn, hvisit⟩ := not_or.mp (List.mem_cons.not.mp hvisit)
    refine .held hcopy hvisit (hv.live_other hlive ?_) hname ((hv.data_other hn).trans hdata)
      (hv.confirmed hconf) fun ha => ?_
    · rw [hname]
      exact fun he => hn (Option.some.inj he)
    · obtain ⟨b, d, hb, h⟩ := hhanded ha
      exact ⟨b, d, hv.handed_mono hb, h⟩

theorem Safe.run (hnodup : (visits.map Visit.name).Nodup)
    (h : Safe node wanted copies id r visits) :
    Safe node wanted copies id (visits.foldl node.restartBundle r) [] := by
  induction visits generalizing r with
  | nil => exact h
  | cons v visits ih =>
    rw [List.foldl_cons]
    exact ih (List.nodup_cons.mp hnodup).2 (h.visit hnodup)

theorem Safe.recovered {s : Store} (hnodup : (visits.map Visit.name).Nodup)
    (h : Safe node wanted copies id (.start s) visits) :
    ∃ n record data, copies n ∧ (node.recover s visits).metadata id = some (.live record) ∧
      record.metadata.storageName = some n ∧ (node.recover s visits).data[n]? = some data ∧
      (wanted → ∃ b data, .ingress b data ∈ (node.recovery s visits).handed ∧ b.id = id ∧
        b.metadata.storageName = some n) := by
  cases h.run hnodup with
  | recorded _ hvisit _ _ _ _ _ => cases hvisit
  | orphan hvisit _ _ _ _ _ _ => cases hvisit
  | @held n data record hcopy _ hlive hname hdata hconf hhanded =>
    refine ⟨n, record, data, hcopy, ?_, hname, hdata, hhanded⟩
    rw [Node.recover, Recovery.removeUnconfirmed, Node.recovery]
    dsimp only
    rw [hconf]
    exact hlive

/-! ## A reassembly as writes -/

inductive Write where
  | saveData (name : Nat) (data : Bytes)
  | deleteData (name : Nat)
  | tombstoneMetadata (id : Id)
  | replaceData (name : Nat) (data : Bytes)
  | insertMetadata (bundle : Bundle)

def Store.write (s : Store) : Write → Store
  | .saveData name data => { s with data := s.data.insert name data }
  | .deleteData name => s.deleteData name
  | .tombstoneMetadata id => s.tombstoneMetadata id
  | .replaceData name data => s.replaceData name data
  | .insertMetadata b => (s.insertMetadata b).getD s

def cleanUpWrites (adus : List (Nat × Adu)) : List Write :=
  adus.flatMap fun e => [.deleteData e.2.storageName, .tombstoneMetadata e.2.id]

/-- The writes of `Dispatcher::reassemble` up to the record of the whole bundle. -/
def reassembleWrites (name : Nat) (data : Bytes) (adus : List (Nat × Adu)) (b : Bundle)
    (data' : Bytes) : List Write :=
  .saveData name data :: (cleanUpWrites adus ++ [.replaceData name data', .insertMetadata b])

def Store.crash (s : Store) (writes : List Write) (k : Nat) : Store :=
  (writes.take k).foldl Store.write s

structure Reassembly (node : Node) (now : Int) (store : Store) (t : Fragment)
    (parked : List Fragment) where
  walk : AduWalk
  unique : Bool
  polled : List Fragment
  name : Nat
  data : Bytes
  receivedAt : Int
  origin : Origin
  cleaned : Store
  bundle : Bundle
  data' : Bytes
  final : Store
  perm : polled.Perm parked
  done : aduReassemble store walk unique t.bundle (polled.map Fragment.bundle) false =
    .ok (.done name data receivedAt origin, cleaned)
  received : node.processReceivedBundle now cleaned [.final data] ⟨receivedAt, origin, some name⟩ =
    (.bundle bundle data', final)

namespace Reassembly

variable {now : Int} {store : Store} {t : Fragment} {parked : List Fragment}

def adus (x : Reassembly node now store t parked) : List (Nat × Adu) :=
  x.walk.iter (aduMap (t :: x.polled))

def writes (x : Reassembly node now store t parked) : List Write :=
  reassembleWrites x.name x.data x.adus x.bundle x.data'

variable (hstored : Stored store t parked) (x : Reassembly node now store t parked)

include hstored in
theorem saved : (x.name, { store with data := store.data.insert x.name x.data }) =
      store.saveData x.data ∧
    x.cleaned = cleanUp { store with data := store.data.insert x.name x.data } x.adus := by
  have hdone := x.done
  rw [aduReassemble] at hdone
  rcases pollFragments_eq (hstored.sameOf x.perm) false with ⟨hpoll, -⟩ | ⟨hpoll, -⟩
  · rw [hpoll] at hdone
    cases hdone
  · rw [hpoll] at hdone
    simp only [bind, Except.bind, gathered_adus] at hdone
    split at hdone
    · simp only [pure, Except.pure, Except.ok.injEq, Prod.mk.injEq,
        ReassemblyResult.done.injEq] at hdone
      obtain ⟨⟨hname, rfl, -, -⟩, hcleaned⟩ := hdone
      rw [← hcleaned, ← hname]
      exact ⟨rfl, rfl⟩
    · cases hdone
    · cases hdone

include hstored in
theorem fresh : store.data[x.name]? = none := by
  have hname := congrArg Prod.fst (x.saved hstored).1
  rw [show x.name = StorageNames.generate store.data from hname]
  exact StorageNames.fresh _

theorem admitted : x.bundle.status = .new ∧ x.bundle.metadata.storageName = some x.name ∧
    (x.cleaned.replaceData x.name x.data').insertMetadata x.bundle = some x.final := by
  have h := x.received
  rw [Node.processReceivedBundle] at h
  split at h
  · next r _ => cases r <;> cases h
  · dsimp only at h
    split at h
    · next hins =>
        simp only [Prod.mk.injEq, Received.bundle.injEq] at h
        obtain ⟨⟨hb, hd⟩, hs⟩ := h
        rw [← hb, ← hd, ← hs]
        exact ⟨rfl, rfl, hins⟩
    · cases h

omit [Crates] [HashOrder] [Ciphers] [StorageNames] in
theorem foldl_cleanUpWrites (s : Store) (adus : List (Nat × Adu)) :
    (cleanUpWrites adus).foldl Store.write s = cleanUp s adus := by
  induction adus generalizing s with
  | nil => rfl
  | cons e adus ih => exact ih _

include hstored in
/-- All of the writes come to what `reassemble` and `process_received_bundle` leave behind. -/
theorem writes_run : x.writes.foldl Store.write store = x.final := by
  obtain ⟨-, hcleaned⟩ := x.saved hstored
  rw [writes, reassembleWrites, List.foldl_cons, List.foldl_append, foldl_cleanUpWrites]
  change ((cleanUp _ x.adus).replaceData x.name x.data' |>.insertMetadata x.bundle).getD _ = _
  rw [Store.write, ← hcleaned, x.admitted.2.2]
  rfl

include hstored in
theorem unknown : store.metadata x.bundle.id = none := by
  obtain ⟨-, hcleaned⟩ := x.saved hstored
  obtain ⟨hnone, -⟩ := insertMetadata_eq_some.mp x.admitted.2.2
  rw [hcleaned] at hnone
  rw [Store.replaceData, cleanUp_metadata] at hnone
  split at hnone
  · exact Option.map_eq_none_iff.mp hnone
  · exact hnone

/-! ## Every crash -/

structure Pending (s : Store) (data : Bytes) : Prop where
  stored : s.data[x.name]? = some data
  none : s.metadata x.bundle.id = none
  others : ∀ n ≠ x.name, ∀ d, s.data[n]? = some d → store.data[n]? = some d

/-- Every fragment's data is stored, and the restarted node reads the id from it. -/
def Readable (restarted : Node) (store : Store) (fragments : List Fragment) : Prop :=
  ∀ f ∈ fragments, ∃ data, store.data[f.name]? = some data ∧ restarted.readId data = some f.id

variable {x} {s : Store} {restarted : Node}

theorem Pending.write {w : Write} (h : x.Pending s data) (hw : w ∈ cleanUpWrites x.adus)
    (hnames : ∀ e ∈ x.adus, e.2.storageName ≠ x.name) : x.Pending (s.write w) data := by
  obtain ⟨e, he, hw⟩ := List.mem_flatMap.mp hw
  simp only [List.mem_cons, List.not_mem_nil, or_false] at hw
  rcases hw with rfl | rfl
  · have hget (n : Nat) : (s.deleteData e.2.storageName).data[n]? =
        if n = e.2.storageName then Option.none else s.data[n]? := by
      rw [Store.deleteData, Std.ExtTreeMap.getElem?_erase]
      by_cases hn : n = e.2.storageName
      · rw [if_pos hn, if_pos (hn ▸ Std.ReflCmp.compare_self)]
      · rw [if_neg hn, if_neg fun he => hn (Std.LawfulEqCmp.compare_eq_iff_eq.mp he).symm]
    refine ⟨?_, h.none, fun n hn d hd => h.others n hn d ?_⟩
    · exact (hget _).trans ((if_neg (hnames e he).symm).trans h.stored)
    · rw [Store.write, hget] at hd
      split at hd
      · cases hd
      · exact hd
  · refine ⟨h.stored, ?_, h.others⟩
    rw [Store.write, Store.tombstoneMetadata]
    dsimp only
    split
    · next he => rw [← he, h.none, Option.map_none]
    · exact h.none

theorem Pending.writes {l : List Write} (h : x.Pending s data) (hl : l ⊆ cleanUpWrites x.adus)
    (hnames : ∀ e ∈ x.adus, e.2.storageName ≠ x.name) :
    x.Pending (l.foldl Store.write s) data := by
  induction l generalizing s with
  | nil => exact h
  | cons w l ih =>
    have hw := List.cons_subset.mp hl
    exact ih (h.write hw.1 hnames) hw.2

theorem Pending.replace (h : x.Pending s data) :
    x.Pending (s.write (.replaceData x.name x.data')) x.data' := by
  refine ⟨(HashMap.getElem?_insert ..).trans (if_pos rfl), h.none, fun n hn d hd => ?_⟩
  exact h.others n hn d (((HashMap.getElem?_insert ..).trans (if_neg hn)).symm.trans hd)

theorem Pending.insert (h : x.Pending s data) :
    (s.write (.insertMetadata x.bundle)).metadata x.bundle.id = some (.live x.bundle) ∧
      (s.write (.insertMetadata x.bundle)).data = s.data := by
  have hins := insertMetadata_eq_some.mpr ⟨h.none, rfl⟩
  rw [Store.write, hins]
  exact ⟨Function.update_self _ _ _, rfl⟩

include hstored in
theorem names_ne (hread : Readable restarted store (t :: parked)) :
    ∀ e ∈ x.adus, e.2.storageName ≠ x.name := by
  intro e he hname
  obtain ⟨f, hf, -, hadu⟩ := aduMap_get (x.walk.mem_iter.mp he)
  obtain ⟨d, hd, -⟩ := hread f ((x.perm.cons t).mem_iff.mp hf)
  have hfresh := x.fresh hstored
  rw [← hname, ← hadu] at hfresh
  exact absurd (hfresh.symm.trans hd) nofun

include hstored in
theorem crash_cases (hread : Readable restarted store (t :: parked)) (k : Nat) :
    store.crash x.writes k = store ∨
    (∃ d, (d = x.data ∨ d = x.data') ∧ x.Pending (store.crash x.writes k) d) ∨
    (store.crash x.writes k).metadata x.bundle.id = some (.live x.bundle) ∧
      ∃ s, x.Pending s x.data' ∧ (store.crash x.writes k).data = s.data := by
  cases k with
  | zero => exact .inl rfl
  | succ k =>
    have hsave : x.Pending (store.write (.saveData x.name x.data)) x.data := by
      refine ⟨(HashMap.getElem?_insert ..).trans (if_pos rfl), x.unknown hstored,
        fun n hn d hd => ?_⟩
      exact ((HashMap.getElem?_insert ..).trans (if_neg hn)).symm.trans hd
    have hclean := hsave.writes (List.take_subset k (cleanUpWrites x.adus))
      (names_ne hstored hread)
    rw [Store.crash, Reassembly.writes, reassembleWrites, List.take_succ_cons, List.foldl_cons,
      List.take_append, List.foldl_append]
    -- how many of the last two writes have been done
    rcases k - (cleanUpWrites x.adus).length with _ | _ | j
    · exact .inr (.inl ⟨x.data, .inl rfl, hclean⟩)
    · exact .inr (.inl ⟨x.data', .inr rfl, hclean.replace⟩)
    · rw [List.take_of_length_le (l := [_, _]) (Nat.le_add_left 2 j)]
      have hinsert := hclean.replace.insert
      exact .inr (.inr ⟨hinsert.1, _, hclean.replace, hinsert.2⟩)

include hstored in
theorem crash_data (hread : Readable restarted store (t :: parked)) {k n : Nat} {d : Bytes}
    (hne : n ≠ x.name) (h : (store.crash x.writes k).data[n]? = some d) :
    store.data[n]? = some d := by
  rcases x.crash_cases hstored hread k with hc | ⟨d', -, hpending⟩ | ⟨-, s, hpending, hdata⟩
  · rwa [hc] at h
  · exact hpending.others n hne d h
  · rw [hdata] at h
    exact hpending.others n hne d h

/-- What is to be true after the restart: every fragment is recorded and
stored, or the whole bundle is, and has been handed to the ingress chain. -/
def Survives (restarted : Node) (fragments : List Fragment) (name : Nat) (id : Id)
    (crashed : Store) (visits : List Visit) : Prop :=
  let s := restarted.recover crashed visits
  (∀ f ∈ fragments, ∃ record data, s.metadata f.id = some (.live record) ∧
    record.metadata.storageName = some f.name ∧ s.data[f.name]? = some data) ∨
  ∃ record data, s.metadata id = some (.live record) ∧
    record.metadata.storageName = some name ∧ s.data[name]? = some data ∧
    ∃ b data, .ingress b data ∈ (restarted.recovery crashed visits).handed ∧ b.id = id ∧
      b.metadata.storageName = some name

/-- The visits of a recovery: each piece of stored data once. -/
structure Covers (visits : List Visit) (s : Store) : Prop where
  nodup : (visits.map Visit.name).Nodup
  visited : ∀ (n : Nat) (data : Bytes), s.data[n]? = some data → n ∈ visits.map Visit.name

/-- What the restarted node makes of the whole bundle: it reads and accepts the
bytes that may be stored, and has no other data of that id. -/
structure Welcome (x : Reassembly node now store t parked) (restarted : Node)
    (visits : List Visit) : Prop where
  reads : ∀ d, d = x.data ∨ d = x.data' → restarted.readId d = some x.bundle.id
  accepts : ∀ d, d = x.data ∨ d = x.data' → ∀ v ∈ visits, v.name = x.name → restarted.Accepts v d
  sole : ∀ (n : Nat) (d : Bytes), store.data[n]? = some d → restarted.readId d ≠ some x.bundle.id

variable (x) in
/-- Wherever the process stops, the restarted node has all of the fragments or
the whole bundle. -/
theorem survives (hstored : Stored store t parked)
    (hread : Readable restarted store (t :: parked)) (k : Nat) {visits : List Visit}
    (hvisits : Covers visits (store.crash x.writes k)) (hwelcome : x.Welcome restarted visits) :
    Survives restarted (t :: parked) x.name x.bundle.id (store.crash x.writes k) visits := by
  rcases x.crash_cases hstored hread k with hc | ⟨d, hd, hpending⟩ | ⟨hlive, s, hpending, hdata⟩
  · rw [hc] at hvisits ⊢
    refine .inl fun f hf => ?_
    obtain ⟨d, hdata, hid⟩ := hread f hf
    have hsafe : Safe restarted False (· = f.name) f.id (.start store) visits :=
      .recorded rfl (hvisits.visited _ _ hdata) (hstored.live f hf) f.named hdata hid nofun
    obtain ⟨n, record, data, rfl, hlive, hname, hdata, -⟩ := hsafe.recovered hvisits.nodup
    exact ⟨record, data, hlive, hname, hdata⟩
  · have hsafe : Safe restarted True (· = x.name) x.bundle.id
        (.start (store.crash x.writes k)) visits := by
      refine .orphan (hvisits.visited _ _ hpending.stored) hpending.none
        (start_confirmed hpending.none) hpending.stored (hwelcome.reads d hd)
        (hwelcome.accepts d hd) fun v hv d' hd' hid => ?_
      by_contra hne
      exact hwelcome.sole _ d' (hpending.others _ hne d' hd') hid
    obtain ⟨n, record, data, rfl, hlive, hname, hdata, hhanded⟩ := hsafe.recovered hvisits.nodup
    exact .inr ⟨record, data, hlive, hname, hdata, hhanded trivial⟩
  · obtain ⟨hnew, hname, -⟩ := x.admitted
    have hdata : (store.crash x.writes k).data[x.name]? = some x.data' := by
      rw [hdata]
      exact hpending.stored
    have hsafe : Safe restarted True (· = x.name) x.bundle.id
        (.start (store.crash x.writes k)) visits :=
      .recorded rfl (hvisits.visited _ _ hdata) hlive hname hdata
        (hwelcome.reads _ (.inr rfl)) fun _ => hnew
    obtain ⟨n, record, data, rfl, hlive, hname, hdata, hhanded⟩ := hsafe.recovered hvisits.nodup
    exact .inr ⟨record, data, hlive, hname, hdata, hhanded trivial⟩

def SurvivesCrashes (node : Node) (now : Int) (store : Store) (t : Fragment)
    (parked : List Fragment) (visits : List Visit) : Prop :=
  ∃ x : Reassembly node now store t parked, ∀ k,
    Survives node (t :: parked) x.name x.bundle.id (store.crash x.writes k) visits

end Reassembly

end

/-! ## A unit of two bytes -/

def sampleNode : Node where
  maxBundleSize := 8192
  keyProvider _ _ := KeySet.source []
  primaryBlockIntegrity := false
  bundleAgeRequired := true
  applyRewrites _ _ _ _ := none

def pairWhole : Bytes :=
  [0x9F, 0x88, 0x07, 0x00, 0x00, 0x82, 0x02, 0x82, 0x02, 0x01, 0x82, 0x02, 0x82, 0x01, 0x01, 0x82,
    0x01, 0x00, 0x82, 0x01, 0x00, 0x19, 0x03, 0xE8, 0x85, 0x01, 0x01, 0x00, 0x00, 0x42, 0x08, 0x07,
    0xFF]

def pairId : Id := ⟨.ipn ⟨0, 1⟩ 1, ⟨some 1, 0⟩, none⟩

/-- The fragments in the store of a node that has dealt with the whole bundle
before. -/
def knownPair : Store where
  metadata := Function.update (storeOf unitPair).metadata pairId (some .tombstone)
  data := (storeOf unitPair).data

def ReassemblyResult.saved : ReassemblyResult → Option (Nat × Bytes)
  | .done name data _ _ => some (name, data)
  | _ => none

theorem ReassemblyResult.saved_eq_some {r : ReassemblyResult} {name : Nat} {data : Bytes} :
    r.saved = some (name, data) ↔ ∃ receivedAt origin, r = .done name data receivedAt origin := by
  cases r with
  | done name' data' receivedAt origin =>
    simp only [saved, Option.some.injEq, Prod.mk.injEq, done.injEq]
    exact ⟨fun h => ⟨receivedAt, origin, h.1, h.2, rfl, rfl⟩, fun ⟨_, _, h⟩ => ⟨h.1, h.2.1⟩⟩
  | notReady => exact ⟨nofun, nofun⟩
  | failed => exact ⟨nofun, nofun⟩

def ReassemblyResult.arrival : ReassemblyResult → Option (Int × Origin)
  | .done _ _ receivedAt origin => some (receivedAt, origin)
  | _ => none

theorem covers_of_keys {s : Store} {visits : List Visit} (hnodup : (visits.map Visit.name).Nodup)
    (hkeys : s.data.keys ⊆ visits.map Visit.name) : Reassembly.Covers visits s := by
  refine ⟨hnodup, fun n data h => hkeys ?_⟩
  rw [Std.ExtTreeMap.mem_keys, HashMap.mem_iff]
  exact ⟨data, h⟩

theorem not_live {s : Store} {id : Id} (h : (s.get id).isSome = false) (record : Bundle) :
    s.metadata id ≠ some (.live record) := by
  intro hlive
  rw [Store.get_eq_some.mpr hlive] at h
  cases h

theorem unitFragment_id_ne (offset total : UInt8) (name : Nat) :
    (unitFragment offset total name).id ≠ pairId := by
  intro h
  cases h

/-- The fragments are deleted, and the orphan that takes their place is dropped
as a duplicate of the bundle that the node remembers. -/
theorem knownPair_not_survives :
    Stored knownPair (unitFragment 1 2 1) [unitFragment 0 2 2] ∧
    ∃ (data : Bytes) (receivedAt : Int) (origin : Origin) (s : Store),
      @aduReassemble .reference .sorted .next knownPair .sorted false (unitFragment 1 2 1).bundle
        ([unitFragment 0 2 2].map Fragment.bundle) false = .ok (.done 3 data receivedAt origin, s) ∧
      Reassembly.Covers [⟨3, 0, 5⟩] s ∧
      ¬ @Reassembly.Survives .reference .sorted Checks.Ciphers.refusing .next sampleNode
        [unitFragment 1 2 1, unitFragment 0 2 2] 3 pairId s [⟨3, 0, 5⟩] := by
  constructor
  · have h := unitPair_stored
    refine ⟨fun f hf => ?_, h.same, h.ids⟩
    refine (Function.update_of_ne ?_ _ _).trans (h.live f hf)
    simp only [List.mem_cons, List.not_mem_nil, or_false] at hf
    rcases hf with rfl | rfl <;> exact unitFragment_id_ne _ _ _
  · have hrun : (@aduReassemble .reference .sorted .next knownPair .sorted false
        (unitFragment 1 2 1).bundle ([unitFragment 0 2 2].map Fragment.bundle) false).toOption.map
        (fun p => (p.1.saved, p.2.data.keys,
          ((@Node.recover .reference .sorted Checks.Ciphers.refusing .next sampleNode p.2
            [⟨3, 0, 5⟩]).get (unitFragment 1 2 1).id).isSome,
          ((@Node.recover .reference .sorted Checks.Ciphers.refusing .next sampleNode p.2
            [⟨3, 0, 5⟩]).get pairId).isSome)) = some (some (3, pairWhole), [3], false, false) := by
      decide +kernel
    obtain ⟨⟨r, s⟩, hok, hfacts⟩ := Option.map_eq_some_iff.mp hrun
    simp only [Prod.mk.injEq] at hfacts
    obtain ⟨hsaved, hkeys, hfragment, hwhole⟩ := hfacts
    obtain ⟨receivedAt, origin, rfl⟩ := ReassemblyResult.saved_eq_some.mp hsaved
    refine ⟨pairWhole, receivedAt, origin, s, Fold.ok_of_toOption hok,
      covers_of_keys (List.nodup_singleton 3) (hkeys ▸ List.Subset.refl _), ?_⟩
    rintro (hall | ⟨record, -, hlive, -⟩)
    · obtain ⟨record, -, hlive, -⟩ := hall _ List.mem_cons_self
      exact not_live hfragment record hlive
    · exact not_live hwhole record hlive

def pairVisits : List Visit := [⟨1, 0, 5⟩, ⟨2, 0, 5⟩, ⟨3, 0, 5⟩]

def Received.persisted : Received → Option (Id × Bytes)
  | .bundle b data => some (b.id, data)
  | _ => none

theorem Received.persisted_eq_some {r : Received} {id : Id} {data : Bytes} :
    r.persisted = some (id, data) ↔ ∃ b : Bundle, b.id = id ∧ r = .bundle b data := by
  cases r with
  | bundle b data' =>
    simp only [persisted, Option.some.injEq, Prod.mk.injEq, bundle.injEq]
    exact ⟨fun h => ⟨b, h.1, rfl, h.2⟩, fun ⟨_, h, hb, hd⟩ => ⟨hb ▸ h, hd⟩⟩
  | disposed => simp [persisted]
  | refused => simp [persisted]

/-- A node that does not know the bundle. -/
theorem unitPair_survives :
    @Reassembly.SurvivesCrashes .reference .sorted Checks.Ciphers.refusing .next sampleNode 5
      (storeOf unitPair) (unitFragment 1 2 1) [unitFragment 0 2 2] pairVisits := by
  let _ : Crates := .reference
  let _ : HashOrder := .sorted
  let _ : Ciphers := Checks.Ciphers.refusing
  let _ : StorageNames := .next
  have hdone : (aduReassemble (storeOf unitPair) .sorted false (unitFragment 1 2 1).bundle
      ([unitFragment 0 2 2].map Fragment.bundle) false).toOption.map
      (fun p => (p.1.saved, p.1.arrival)) =
      some (some (3, pairWhole), some (0, .originated)) := by
    decide +kernel
  have hreceived : (aduReassemble (storeOf unitPair) .sorted false (unitFragment 1 2 1).bundle
      ([unitFragment 0 2 2].map Fragment.bundle) false).toOption.map
      (fun p => (sampleNode.processReceivedBundle 5 p.2 [.final pairWhole]
        ⟨0, .originated, some 3⟩).1.persisted) = some (some (pairId, pairWhole)) := by
    decide +kernel
  obtain ⟨⟨r, cleaned⟩, hok, hfacts⟩ := Option.map_eq_some_iff.mp hdone
  rw [hok, Option.map_some, Option.some.injEq] at hreceived
  obtain ⟨hsaved, harrival⟩ := Prod.mk.inj hfacts
  obtain ⟨receivedAt, origin, rfl⟩ := ReassemblyResult.saved_eq_some.mp hsaved
  cases harrival
  obtain ⟨b, hid, hb⟩ := Received.persisted_eq_some.mp hreceived
  rcases hp : sampleNode.processReceivedBundle 5 cleaned [.final pairWhole]
      ⟨0, .originated, some 3⟩ with ⟨received, final⟩
  rw [hp] at hb
  cases hb
  let x : Reassembly sampleNode 5 (storeOf unitPair) (unitFragment 1 2 1) [unitFragment 0 2 2] :=
    ⟨.sorted, false, [unitFragment 0 2 2], 3, pairWhole, 0, .originated, cleaned, b, pairWhole,
      final, .refl _, Fold.ok_of_toOption hok, hp⟩
  have hread : Reassembly.Readable sampleNode (storeOf unitPair)
      [unitFragment 1 2 1, unitFragment 0 2 2] := by
    have hbytes : ([unitFragment 1 2 1, unitFragment 0 2 2].all fun f =>
        ((storeOf unitPair).data[f.name]?.bind sampleNode.readId) == some f.id) = true := by
      decide +kernel
    intro f hf
    have h := List.all_eq_true.mp hbytes f hf
    exact Option.bind_eq_some_iff.mp (beq_iff_eq.mp h)
  have hwhole : sampleNode.readId pairWhole = some pairId := by decide +kernel
  have hothers : ((storeOf unitPair).data.toList.all fun e =>
      e.1 ∈ [1, 2] && sampleNode.readId e.2 != some pairId) = true := by decide +kernel
  have hother {n : Nat} {d : Bytes} (h : (storeOf unitPair).data[n]? = some d) :
      n ∈ [1, 2] ∧ sampleNode.readId d ≠ some pairId := by
    have h := List.all_eq_true.mp hothers _ (Std.ExtTreeMap.mem_toList_iff_getElem?_eq_some.mpr h)
    simpa only [Bool.and_eq_true, decide_eq_true_eq, bne_iff_ne] using h
  have hwelcome : x.Welcome sampleNode pairVisits := by
    have haccept : (sampleNode.check 0 5 [.final pairWhole]).toOption.isSome = true := by
      decide +kernel
    refine ⟨?_, ?_, fun n d h => hid ▸ (hother h).2⟩
    · rintro d (rfl | rfl) <;> exact hid ▸ hwhole
    · intro d hd v hv hname
      obtain rfl : d = pairWhole := hd.elim id id
      simp only [pairVisits, List.mem_cons, List.not_mem_nil, or_false] at hv
      rcases hv with rfl | rfl | rfl
      · cases hname
      · cases hname
      · obtain ⟨p, hp⟩ := Option.isSome_iff_exists.mp haccept
        exact ⟨p, Fold.ok_of_toOption hp⟩
  refine ⟨x, fun k => x.survives unitPair_stored hread k ⟨by decide, fun n d hn => ?_⟩ hwelcome⟩
  by_cases h3 : n = 3
  · subst h3
    decide
  · have hn := (hother (x.crash_data unitPair_stored hread h3 hn)).1
    simp only [List.mem_cons, List.not_mem_nil, or_false] at hn
    rcases hn with rfl | rfl <;> decide

end Hardy.Bpa
