import Hardy.Bpsec.Decoding

/-!
# Operation sets read back

An edit that takes a target from a security block writes the block anew.  What
it writes is decoded to the operations it was given, as long as they came out
of one block: the source writes the context of one operation for all of them.
-/

namespace Hardy.Bpsec

open Cbor

/-! ## Parameter and result maps -/

def IsItem (value : Bytes) : Prop := ∃ s, Reads (skipValue 16) value s

def emitPairs (l : List (Nat × Bytes)) : Bytes :=
  emitArray (l.map fun e => emitArray [emitUint e.1, e.2])

structure PairsOk (l : List (Nat × Bytes)) : Prop where
  keys : l.Pairwise fun a b => a.1 ≠ b.1
  id_lt : ∀ e ∈ l, e.1 < wordSize
  item : ∀ e ∈ l, IsItem e.2

theorem definiteArray_reads {α : Type} (body : Ser Error α) (n off p : Nat) (d : Bytes) :
    definiteArray body true [] ⟨⟨some n, off, p⟩, d⟩ = body ⟨⟨some n, off, p⟩, d⟩ := rfl

theorem rangeEntry_reads {k : Nat} {v : Bytes} (hk : k < wordSize) (hv : IsItem v) :
    Reads (parseArray (definiteArray rangeEntry)) (emitArray [emitUint k, v]) (k, v) := by
  obtain ⟨s, hs⟩ := hv
  rw [emitArray_two]
  refine parseArray_reads (by decide) fun off r => ?_
  have hid : requireCanonical 1 u64 "id" Error.notCanonical
      ⟨⟨some 2, off, 0⟩, emitUint k ++ (v ++ r)⟩ =
        .ok (k, ⟨⟨some 2, off + (emitUint k).length, 1⟩, v ++ r⟩) :=
    requireCanonical_reads (u64_reads hk) (emitUint_plain k) (by decide) _ _ _
  have hitem : (mapFieldErr "value" (Series.item 1 (skipValue 16)) : Ser Error Bool)
      ⟨⟨some 2, off + (emitUint k).length, 1⟩, v ++ r⟩ =
        .ok (s, ⟨⟨some 2, off + (emitUint k).length + v.length, 2⟩, r⟩) :=
    mapFieldErr_ok (item_reads hs (by decide) r)
  have hwalks : Walks (mapFieldErr "value" (Series.item 1 (skipValue 16)) : Ser Error Bool) :=
    mapFieldErr_resumable _ (item_walks Nat.one_pos (skipValue_resumes 16) (skipValue_starts 16))
  have hvalue := (Scan.consumed_ok hwalks.stepwise).mpr ⟨hitem, rfl⟩
  rw [definiteArray_reads, rangeEntry, List.append_assoc, Scan.bind_eq_of_ok hid,
    Scan.bind_eq_of_ok hvalue, List.length_append, Nat.add_assoc]
  rfl

/-! ## Loops that go on have read something -/

theorem definiteArray_tracks {α : Type} {body : Ser Error α}
    (hb : Scan.Tracks Series.offset body) (s : Bool) (tags : List Nat) :
    Scan.Tracks Series.offset (definiteArray body s tags) := by
  refine .bind (.look _) fun definite => ?_
  split
  · exact .throw _
  · exact hb

theorem requireCanonical_tracks {ε ε' α : Type} [FromCborError ε] [FromCborError ε']
    [ErrorInto ε' ε] [HasInvalidField ε] (D : Nat) {m : Dec ε' (α × Bool)} (hm : Resumes m)
    (hs : Starts m) (field : String) (x : ε) :
    Scan.Tracks Series.offset (requireCanonical D m field x) := by
  refine .bind (.mapErr _ (item_tracks D (untagged_resumes hm hs).stepwise.tracks)) fun ⟨t, s⟩ => ?_
  dsimp only
  split
  · exact .pure _
  · exact .throw _

theorem rangeEntry_tracks : Scan.Tracks Series.offset rangeEntry := by
  refine .bind (requireCanonical_tracks 1 u64_resumes u64_starts _ _) fun id => ?_
  refine .bind (.consumed (.mapErr _ (item_tracks 1 (skipValue_resumes 16).stepwise.tracks)))
    fun x => ?_
  exact .pure _

theorem unlessEnd_inl {α β : Type} {D : Nat} {a : α} {more : Ser Error (β ⊕ α)} {b : β}
    {c c' : Cursor UInt8 Series}
    (h : unlessEnd D (pure (.inr a)) more c = .ok (.inl b, c')) : more c = .ok (.inl b, c') := by
  obtain ⟨isEnd, c₁, h₁, h₂⟩ := Scan.bind_ok h
  cases isEnd with
  | true => cases h₂
  | false =>
    rw [atEnd_false (Scan.mapErr_ok.mp h₁)] at h₂
    exact h₂

theorem item_eats_of {α : Type} (D : Nat) {m : Dec Error α} (hm : Scan.Eats m) :
    Scan.Eats (Series.item D m) := by
  intro st d a c h
  obtain ⟨len, h', -⟩ := item_ok h
  exact hm _ _ _ _ h'

theorem rangeRound_progress : Scan.Progress rangeRound := by
  rintro map map' ⟨st, d⟩ c h
  have heats : Scan.Eats (Series.item 1 (parseArray (definiteArray rangeEntry))) :=
    item_eats_of 1 (parseArray_eats (definiteArray_tracks rangeEntry_tracks)).2
  have hpure : ∀ x : Nat × Bytes, Scan.Tracks Series.offset
      (pure (.inl (map.insert x.1 x.2)) : Ser Error (HashMap Bytes ⊕ HashMap Bytes)) :=
    fun x => .pure _
  exact Scan.Tracks.eats_bind heats hpure _ _ _ _ (unlessEnd_inl h)

theorem rangeRound_tracks (map : HashMap Bytes) : Scan.Tracks Series.offset (rangeRound map) := by
  refine unlessEnd_tracks 1 (.pure _) (.bind (item_tracks 1 ?_) fun x => .pure _)
  exact (parseArray_eats (definiteArray_tracks rangeEntry_tracks)).1

def rangesArray : Dec Error (HashMap Bytes) :=
  parseArray (definiteArray (Scan.loop (.invalidCBOR .tooBig) rangeRound ∅))

theorem rangesArray_eats : Scan.Tracks id rangesArray ∧ Scan.Eats rangesArray :=
  parseArray_eats (definiteArray_tracks (.loop rangeRound_tracks _))

theorem targetRound_progress : Scan.Progress AbstractSyntaxBlock.targetRound := by
  rintro targets targets' ⟨st, d⟩ c h
  obtain ⟨o, ⟨st₁, d₁⟩, h₁, h₂⟩ := Scan.bind_ok h
  cases o with
  | none => cases h₂
  | some p =>
    obtain ⟨isEnd, c₂, h₃, h₄⟩ := Scan.bind_ok h₁
    cases isEnd with
    | true => cases h₄
    | false =>
      rw [atEnd_false (Scan.mapErr_ok.mp h₃)] at h₄
      obtain ⟨x, ⟨st₃, d₃⟩, h₅, h₆⟩ := Scan.bind_ok h₄
      cases h₆
      have heats := item_eats_of 1 ((untagged_resumes u64_resumes u64_starts).lift.eats
        (untagged_starts u64_starts).lift) _ _ _ _ h₅
      obtain ⟨⟨⟩, ⟨st₄, d₄⟩, h₇, h₈⟩ := Scan.bind_ok h₂
      obtain ⟨⟨⟩, ⟨st₅, d₅⟩, h₉, h₁₀⟩ := Scan.bind_ok h₈
      cases h₁₀
      cases (ensure_ok.mp h₇).2
      cases (ensure_ok.mp h₉).2
      exact heats

theorem parseRanges_some {D : Nat} {st : Series} {d : Bytes} {map : HashMap Bytes}
    {c : Cursor UInt8 Series} (h : parseRanges D ⟨st, d⟩ = .ok (some map, c)) :
    Series.item D rangesArray ⟨st, d⟩ = .ok (map, c) := by
  obtain ⟨isEnd, c₁, h₁, h₂⟩ := Scan.bind_ok h
  cases isEnd with
  | true => cases h₂
  | false =>
    rw [atEnd_false (Scan.mapErr_ok.mp h₁)] at h₂
    obtain ⟨x, c₂, h₃, h₄⟩ := Scan.bind_ok h₂
    cases h₄
    exact h₃

theorem resultRound_progress (targets : List Nat) :
    Scan.Progress (AbstractSyntaxBlock.resultRound targets) := by
  rintro acc acc' ⟨st, d⟩ c h
  obtain ⟨o, ⟨st₁, d₁⟩, h₁, h₂⟩ := Scan.bind_ok h
  cases o with
  | none => cases h₂
  | some map =>
    have heats := item_eats_of 1 rangesArray_eats.2 _ _ _ _
      (parseRanges_some (Scan.mapErr_ok.mp h₁))
    cases ht : targets[acc.1]? with
    | none =>
      simp only [ht] at h₂
      cases h₂
    | some target =>
      simp only [ht] at h₂
      cases h₂
      exact heats

/-! ## Reading back -/

theorem length_lt_of_emitted {α : Type} {f : α → Bytes} {l : List α} (hf : ∀ a, f a ≠ [])
    (hlen : (emitArray (l.map f)).length < wordSize) : l.length < wordSize := by
  have := length_lt_of_emitArray (fun x hx => ?_) hlen
  · rwa [List.length_map] at this
  · obtain ⟨e, -, rfl⟩ := List.mem_map.mp hx
    exact hf e

theorem rangesArray_reads {l : List (Nat × Bytes)} (hl : PairsOk l)
    (hlen : (emitPairs l).length < wordSize) :
    Reads rangesArray (emitPairs l) (HashMap.ofPairs l) := by
  have hcount : l.length < wordSize :=
    length_lt_of_emitted (fun _ => (emitArray_plain _).ne_nil) hlen
  rw [emitPairs, emitArray, List.length_map]
  refine parseArray_reads hcount fun off r => ?_
  rw [definiteArray_reads]
  refine loop_reads rangeRound_progress HashMap.ofPairs ?_ ?_ off r
  · intro pre e post h off r
    have he : e ∈ l := by simp [h]
    have hlt : pre.length < l.length := by simp [h]
    have hread := rangeEntry_reads (hl.id_lt e he) (hl.item e he)
    rw [rangeRound, unlessEnd_definite rfl, if_neg (Nat.not_le.mpr hlt),
      Scan.bind_eq_of_ok (item_reads hread hlt r)]
    simp only [HashMap.ofPairs, List.foldl_append]
    rfl
  · intro off r
    rw [rangeRound, unlessEnd_definite rfl, if_pos le_rfl]
    rfl

theorem parseRanges_reads {l : List (Nat × Bytes)} (hl : PairsOk l)
    (hlen : (emitPairs l).length < wordSize) {n p : Nat} (hp : p < n) (off : Nat) (r : Bytes) :
    parseRanges 1 ⟨⟨some n, off, p⟩, emitPairs l ++ r⟩ =
      .ok (some (HashMap.ofPairs l), ⟨⟨some n, off + (emitPairs l).length, p + 1⟩, r⟩) := by
  rw [parseRanges, unlessEnd_definite rfl, if_neg (Nat.not_le.mpr hp)]
  exact Scan.bind_eq_of_ok (item_reads (rangesArray_reads hl hlen) hp r) _

theorem parseRanges_end (n off : Nat) (r : Bytes) :
    parseRanges 1 ⟨⟨some n, off, n⟩, r⟩ = .ok (none, ⟨⟨some n, off, n⟩, r⟩) := by
  rw [parseRanges, unlessEnd_definite rfl, if_pos le_rfl]
  rfl

theorem parseRanges_reads_open {l : List (Nat × Bytes)} (hl : PairsOk l)
    (hlen : (emitPairs l).length < wordSize) (off p : Nat) (r : Bytes) :
    parseRanges 0 ⟨⟨none, off, p⟩, emitPairs l ++ r⟩ =
      .ok (some (HashMap.ofPairs l), ⟨⟨none, off + (emitPairs l).length, p + 1⟩, r⟩) := by
  have hplain : Plain (emitPairs l) := emitArray_plain _
  have hitem : Series.item 0 rangesArray ⟨⟨none, off, p⟩, emitPairs l ++ r⟩ =
      .ok (HashMap.ofPairs l, ⟨⟨none, off + (emitPairs l).length, p + 1⟩, r⟩) :=
    item_reads_open (rangesArray_reads hl hlen) hplain off p r
  obtain ⟨b, tail, heq, -, hb⟩ := hplain
  rw [heq, List.cons_append] at hitem ⊢
  rw [parseRanges, unlessEnd_cons rfl hb]
  exact Scan.bind_eq_of_ok hitem _

theorem targets_reads {l : List Nat} (hnodup : l.Nodup) (hl : ∀ t ∈ l, t < wordSize)
    (hlen : (emitArray (l.map emitUint)).length < wordSize) :
    Reads (parseArray (definiteArray (Scan.loop (.invalidCBOR .tooBig)
      AbstractSyntaxBlock.targetRound []))) (emitArray (l.map emitUint)) l := by
  have hcount : l.length < wordSize :=
    length_lt_of_emitted (fun _ => (emitUint_plain _).ne_nil) hlen
  rw [emitArray, List.length_map]
  refine parseArray_reads hcount fun off r => ?_
  rw [definiteArray_reads]
  refine loop_reads targetRound_progress id ?_ ?_ off r
  · intro pre t post h off r
    have ht : t ∈ l := by simp [h]
    have hlt : pre.length < l.length := by simp [h]
    have hfresh : (!pre.contains t) = true := by
      rw [h] at hnodup
      have := (List.nodup_append.mp hnodup).2.2
      rw [Bool.not_eq_true', List.contains_eq_mem, decide_eq_false_iff_not]
      exact fun hmem => this t hmem t List.mem_cons_self rfl
    have hread : Reads (lift (untagged u64) : Dec Error (Nat × Bool)) (emitUint t) (t, true) :=
      ((u64_reads (hl t ht)).untagged (emitUint_plain t)).lift
    rw [AbstractSyntaxBlock.targetRound, Scan.bind_eq_of_ok (tryItem_reads hread hlt r)]
    simp only [id, hfresh]
    rfl
  · intro off r
    rw [AbstractSyntaxBlock.targetRound, Scan.bind_eq_of_ok (tryItem_end r)]
    rfl

abbrev Entries := List (Nat × List (Nat × Bytes))

def Entries.results (l : Entries) : HashMap (HashMap Bytes) :=
  HashMap.ofPairs (l.map fun e => (e.1, HashMap.ofPairs e.2))

structure Entries.Ok (l : Entries) : Prop where
  targets : (l.map Prod.fst).Nodup
  target_lt : ∀ e ∈ l, e.1 < wordSize
  pairs : ∀ e ∈ l, PairsOk e.2

theorem length_le_emitArray {items : List Bytes} {x : Bytes} (hx : x ∈ items) :
    x.length ≤ (emitArray items).length := by
  rw [emitArray, List.length_append]
  exact ((List.sublist_flatten_of_mem hx).length_le).trans (Nat.le_add_left _ _)

theorem results_reads {l : Entries} (hl : l.Ok)
    (hlen : (emitArray (l.map fun e => emitPairs e.2)).length < wordSize) :
    Reads (parseArray (definiteArray (Scan.loop (.invalidCBOR .tooBig)
      (AbstractSyntaxBlock.resultRound (l.map Prod.fst)) (0, ∅))))
      (emitArray (l.map fun e => emitPairs e.2)) l.results := by
  have hcount : l.length < wordSize :=
    length_lt_of_emitted (fun _ => Plain.ne_nil (emitArray_plain _)) hlen
  have hentry : ∀ e ∈ l, (emitPairs e.2).length < wordSize := fun e he =>
    (length_le_emitArray (List.mem_map.mpr ⟨e, he, rfl⟩)).trans_lt hlen
  rw [emitArray, List.length_map]
  refine parseArray_reads hcount fun off r => ?_
  rw [definiteArray_reads]
  refine loop_reads (resultRound_progress _) (fun pre => (pre.length, Entries.results pre)) ?_ ?_
    off r
  · intro pre e post h off r
    have he : e ∈ l := by simp [h]
    have hlt : pre.length < l.length := by simp [h]
    have hget : (l.map Prod.fst)[pre.length]? = some e.1 := by
      rw [h, List.map_append, List.getElem?_append_right (by rw [List.length_map]),
        List.length_map, Nat.sub_self]
      rfl
    have hread := parseRanges_reads (hl.pairs e he) (hentry e he) hlt off r
    rw [AbstractSyntaxBlock.resultRound, Scan.bind_eq_of_ok (mapFieldErr_ok hread)]
    simp only [hget, List.length_append, List.length_singleton, Entries.results, HashMap.ofPairs,
      List.map_append, List.foldl_append]
    rfl
  · intro off r
    rw [AbstractSyntaxBlock.resultRound,
      Scan.bind_eq_of_ok (mapFieldErr_ok (parseRanges_end _ off r))]
    rfl

theorem requireCanonical_reads_open {ε ε' α : Type} [FromCborError ε] [FromCborError ε']
    [ErrorInto ε' ε] [HasInvalidField ε] {p off : Nat} {m : Dec ε' (α × Bool)} {e : Bytes} {a : α}
    (h : Reads m e (a, true)) (he : Plain e) (field : String) (x : ε) (r : Bytes) :
    requireCanonical 0 m field x ⟨⟨none, off, p⟩, e ++ r⟩ =
      .ok (a, ⟨⟨none, off + e.length, p + 1⟩, r⟩) :=
  Scan.bind_eq_of_ok (Scan.mapErr_ok.mpr (item_reads_open (h.untagged he) he off p r)) _

theorem Entries.Ok.keys {l : Entries} (hl : l.Ok) :
    (l.map fun e => (e.1, HashMap.ofPairs e.2)).Pairwise fun a b => a.1 ≠ b.1 := by
  rw [List.pairwise_map]
  exact List.pairwise_map.mp hl.targets

theorem Entries.Ok.size_results {l : Entries} (hl : l.Ok) : l.results.size = l.length := by
  have hlen := (@HashOrder.iter_ofPairs _ _ .sorted hl.keys).length_eq
  rw [List.length_map] at hlen
  rw [← hlen]
  exact Std.ExtTreeMap.length_toList.symm

section

variable [Crates]

/-- The context of a security block: its identifier, its source and its
parameters, when it has any. -/
def emitContext (code : Nat) (source : Eid) (parameters : List (Nat × Bytes)) : Bytes :=
  if parameters = [] then emitUint code ++ emitUint 0 ++ source.toCbor
  else emitUint code ++ emitUint 1 ++ source.toCbor ++ emitPairs parameters

def emitAsb (l : Entries) (code : Nat) (source : Eid) (parameters : List (Nat × Bytes)) : Bytes :=
  emitArray (l.map fun e => emitUint e.1) ++ emitContext code source parameters ++
    emitArray (l.map fun e => emitPairs e.2)

theorem contextFields_reads {code : Nat} {source : Eid} {flags : Nat} (hcode : code < wordSize)
    (hflags : flags < wordSize) (hsource : source.WellFormed)
    (hlen : source.toCbor.length < wordSize) {α : Type}
    (k : Context → Nat → Eid → Ser Error α) (off p : Nat) (r : Bytes) :
    (requireCanonical 0 Context.fromCbor "security context id" Error.notCanonical >>= fun c =>
      requireCanonical 0 u64 "security context flags" Error.notCanonical >>= fun f =>
      requireCanonical 0 Eid.fromCbor "security source" Error.notCanonical >>= fun e =>
      k c f e) ⟨⟨none, off, p⟩, emitUint code ++ (emitUint flags ++ (source.toCbor ++ r))⟩ =
    k (.ofCode code) flags source ⟨⟨none, off + (emitUint code).length + (emitUint flags).length +
      source.toCbor.length, p + 3⟩, r⟩ := by
  have hcontext : Reads Context.fromCbor (emitUint code) (.ofCode code, true) :=
    newtype_reads hcode _
  rw [Scan.bind_eq_of_ok (requireCanonical_reads_open hcontext (emitUint_plain _) _ _ _),
    Scan.bind_eq_of_ok (requireCanonical_reads_open (u64_reads hflags) (emitUint_plain _) _ _ _),
    Scan.bind_eq_of_ok (requireCanonical_reads_open (Eid.reads_toCbor hsource hlen)
      source.toCbor_plain _ _ _)]

theorem fields_reads {l : Entries} {code : Nat} {source : Eid} {parameters : List (Nat × Bytes)}
    (hl : l.Ok) (hne : l ≠ []) (hcode : code < wordSize) (hsource : source.WellFormed)
    (hnode : AbstractSyntaxBlock.isNodeless source = false) (hp : PairsOk parameters)
    (hlen : (emitAsb l code source parameters).length < wordSize) :
    ∃ p, AbstractSyntaxBlock.fields ⟨⟨none, 0, 0⟩, emitAsb l code source parameters⟩ =
      .ok ((⟨.ofCode code, source, HashMap.ofPairs parameters, l.results⟩, true),
        ⟨⟨none, (emitAsb l code source parameters).length, p⟩, []⟩) := by
  have hmap : (l.map fun e => emitUint e.1) = (l.map Prod.fst).map emitUint := by
    rw [List.map_map]
    rfl
  have hempty : (!(l.map Prod.fst).isEmpty) = true := by
    cases l with
    | nil => exact absurd rfl hne
    | cons e l => rfl
  have hnodeless : (!AbstractSyntaxBlock.isNodeless source) = true := by
    rw [hnode]
    rfl
  have hsize : ((l.map Prod.fst).length == l.results.size) = true := by
    rw [hl.size_results, List.length_map]
    exact beq_self_eq_true _
  unfold emitAsb emitContext at hlen ⊢
  rw [hmap] at hlen ⊢
  have htargets := targets_reads hl.targets (fun t ht => by
    obtain ⟨e, he, rfl⟩ := List.mem_map.mp ht
    exact hl.target_lt e he) (by simp only [List.length_append] at hlen; omega)
  have hresults := results_reads hl (by simp only [List.length_append] at hlen; omega)
  have hplain := emitArray_plain (l.map fun e => emitPairs e.2)
  -- the fields from the results on
  have hlast : ∀ (params : HashMap Bytes) off p,
      (Series.item 0 (parseArray (definiteArray (Scan.loop (.invalidCBOR .tooBig)
        (AbstractSyntaxBlock.resultRound (l.map Prod.fst)) (0, ∅)))) >>= fun results =>
        ensure ((l.map Prod.fst).length == results.size) .mismatchedTargetResult >>= fun _ =>
        pure ((⟨.ofCode code, source, params, results⟩ : AbstractSyntaxBlock), true))
        ⟨⟨none, off, p⟩, emitArray (l.map fun e => emitPairs e.2)⟩ =
      .ok ((⟨.ofCode code, source, params, l.results⟩, true),
        ⟨⟨none, off + (emitArray (l.map fun e => emitPairs e.2)).length, p + 1⟩, []⟩) := by
    intro params off p
    have hitem := item_reads_open hresults hplain off p []
    rw [List.append_nil] at hitem
    rw [Scan.bind_eq_of_ok hitem, Scan.bind_eq_of_ok (ensure_ok.mpr ⟨hsize, rfl⟩)]
    rfl
  split at hlen
  · next hpar =>
      simp only [List.length_append] at hlen
      rw [if_pos hpar]
      simp only [List.append_assoc]
      refine ⟨5, ?_⟩
      rw [AbstractSyntaxBlock.fields,
        Scan.bind_eq_of_ok (mapFieldErr_ok (item_reads_open htargets (emitArray_plain _) 0 0 _)),
        Scan.bind_eq_of_ok (ensure_ok.mpr ⟨hempty, rfl⟩)]
      refine (contextFields_reads hcode (by decide) hsource (by omega) _ _ _ _).trans ?_
      rw [Scan.bind_eq_of_ok (ensure_ok.mpr ⟨hnodeless, rfl⟩)]
      refine (hlast _ _ _).trans ?_
      rw [hpar]
      simp only [List.length_append, Nat.zero_add, Nat.add_assoc]
      rfl
  · next hpar =>
      simp only [List.length_append] at hlen
      rw [if_neg hpar]
      simp only [List.append_assoc]
      refine ⟨6, ?_⟩
      rw [AbstractSyntaxBlock.fields,
        Scan.bind_eq_of_ok (mapFieldErr_ok (item_reads_open htargets (emitArray_plain _) 0 0 _)),
        Scan.bind_eq_of_ok (ensure_ok.mpr ⟨hempty, rfl⟩)]
      refine (contextFields_reads hcode (by decide) hsource (by omega) _ _ _ _).trans ?_
      rw [Scan.bind_eq_of_ok (ensure_ok.mpr ⟨hnodeless, rfl⟩), if_neg (by decide)]
      have hparams := parseRanges_reads_open hp (by omega)
      rw [Scan.bind_eq_of_ok (mapFieldErr_ok (hparams _ _ _))]
      refine (hlast _ _ _).trans ?_
      simp only [List.length_append, Nat.zero_add, Nat.add_assoc]
      rfl

theorem asb_reads {l : Entries} {code : Nat} {source : Eid} {parameters : List (Nat × Bytes)}
    (hl : l.Ok) (hne : l ≠ []) (hcode : code < wordSize) (hsource : source.WellFormed)
    (hnode : AbstractSyntaxBlock.isNodeless source = false) (hp : PairsOk parameters)
    (hlen : (emitAsb l code source parameters).length < wordSize) :
    AbstractSyntaxBlock.fromCbor ⟨0, emitAsb l code source parameters⟩ =
      .ok ((⟨.ofCode code, source, HashMap.ofPairs parameters, l.results⟩, true),
        ⟨(emitAsb l code source parameters).length, []⟩) := by
  obtain ⟨p, h⟩ := fields_reads hl hne hcode hsource hnode hp hlen
  unfold AbstractSyntaxBlock.fromCbor parseSequence
  let stop : Series := ⟨some p, (emitAsb l code source parameters).length, p⟩
  refine Scan.within_ok.mpr ⟨stop, ?_, (Nat.zero_add _).symm⟩
  rw [Scan.bind_eq_of_ok h]
  rfl

end

/-! ## Unpacking again -/

section

variable [HashOrder]

omit [HashOrder] in
theorem foldlM_entries {β γ : Type} {f : β → Except Error γ} {l : List (Nat × β)}
    (hl : l.Pairwise fun a b => a.1 ≠ b.1) {acc r : HashMap γ} :
    l.foldlM (fun acc e => do pure (acc.insert e.1 (← f e.2))) acc = .ok r ↔
      (∀ e ∈ l, ∃ w, f e.2 = .ok w ∧ r[e.1]? = some w) ∧
        ∀ k, k ∉ l.map Prod.fst → r[k]? = acc[k]? := by
  induction l generalizing acc with
  | nil =>
    constructor
    · intro h
      cases h
      exact ⟨nofun, fun _ _ => rfl⟩
    · intro h
      have : acc = r := Std.ExtTreeMap.ext_getElem? fun k => (h.2 k List.not_mem_nil).symm
      rw [this]
      rfl
  | cons e l ih =>
    obtain ⟨hne, hl⟩ := List.pairwise_cons.mp hl
    have hnot : e.1 ∉ l.map Prod.fst := by
      intro hmem
      obtain ⟨a, ha, he⟩ := List.mem_map.mp hmem
      exact hne a ha he.symm
    rw [Fold.foldlM_cons_ok]
    constructor
    · rintro ⟨acc', hstep, hrest⟩
      obtain ⟨w, hw, hacc⟩ := Fold.bind_ok.mp hstep
      cases hacc
      obtain ⟨hall, hother⟩ := (ih hl).mp hrest
      refine ⟨fun a ha => ?_, fun k hk => ?_⟩
      · rcases List.mem_cons.mp ha with rfl | ha
        · refine ⟨w, hw, ?_⟩
          rw [hother a.1 hnot, HashMap.getElem?_insert, if_pos rfl]
        · exact hall a ha
      · rw [List.map_cons, List.mem_cons, not_or] at hk
        rw [hother k hk.2, HashMap.getElem?_insert, if_neg hk.1]
    · rintro ⟨hall, hother⟩
      obtain ⟨w, hw, hr⟩ := hall e List.mem_cons_self
      refine ⟨acc.insert e.1 w, Fold.bind_ok.mpr ⟨w, hw, rfl⟩, (ih hl).mpr ⟨?_, ?_⟩⟩
      · exact fun a ha => hall a (List.mem_cons_of_mem _ ha)
      · intro k hk
        rw [HashMap.getElem?_insert]
        split
        · next hke => rw [hke, hr]
        · next hke => exact hother k (by simp [hke, hk])

theorem mapEntries_ok {β γ : Type} {f : β → Except Error γ} {m : HashMap β} {r : HashMap γ} :
    mapEntries f m = .ok r ↔
      (∀ (k : Nat) (v : β), m[k]? = some v → ∃ w, f v = .ok w ∧ r[k]? = some w) ∧
        ∀ k : Nat, m[k]? = none → r[k]? = none := by
  have hkeys : ∀ k, k ∉ (HashOrder.iter m).map Prod.fst ↔ m[k]? = none := by
    intro k
    rw [← not_iff_not, not_not, ← ne_eq, Option.ne_none_iff_exists', List.mem_map]
    constructor
    · rintro ⟨e, he, rfl⟩
      exact ⟨e.2, HashOrder.mem_iter.mp he⟩
    · rintro ⟨v, hv⟩
      exact ⟨(k, v), HashOrder.mem_iter.mpr hv, rfl⟩
  rw [mapEntries, foldlM_entries (HashOrder.iter_pairwise m)]
  constructor
  · rintro ⟨hall, hother⟩
    refine ⟨fun k v hv => hall (k, v) (HashOrder.mem_iter.mpr hv), fun k hk => ?_⟩
    rw [hother k ((hkeys k).mpr hk)]
    exact Std.ExtTreeMap.getElem?_empty
  · rintro ⟨hall, hother⟩
    refine ⟨fun e he => hall e.1 e.2 (HashOrder.mem_iter.mp he), fun k hk => ?_⟩
    rw [hother k ((hkeys k).mp hk)]
    exact Std.ExtTreeMap.getElem?_empty.symm

end

end Hardy.Bpsec
