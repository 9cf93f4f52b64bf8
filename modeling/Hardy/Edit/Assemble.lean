import Hardy.Edit.Chunk

/-!
# What a rebuild plan writes

The chunks of a plan are those of its blocks in some order, and merging them
changes nothing in the bytes.  Flattening in place gives what flattening into
a new buffer does: chunks that move to one side only can be moved one by one.
-/

namespace Hardy.Chunk

open Cbor

/-! ## The bytes of chunks -/

def content (source : Bytes) : Chunk → Bytes
  | unchanged range => range.slice source
  | new data => data

def Fits (source : Bytes) : Chunk → Prop
  | unchanged range => range.start ≤ range.stop ∧ range.stop ≤ source.length
  | new _ => True

def written (source : Bytes) (chunks : List Chunk) : Bytes := (chunks.map (content source)).flatten

@[simp] theorem written_nil (source : Bytes) : written source [] = [] := rfl

@[simp] theorem written_cons (source : Bytes) (c : Chunk) (l : List Chunk) :
    written source (c :: l) = c.content source ++ written source l := rfl

theorem written_append (source : Bytes) (l l' : List Chunk) :
    written source (l ++ l') = written source l ++ written source l' := by
  simp [written]

@[simp] theorem totalLen_nil : totalLen [] = 0 := rfl

@[simp] theorem totalLen_cons (c : Chunk) (l : List Chunk) :
    totalLen (c :: l) = c.len + totalLen l := rfl

variable {source : Bytes} {c : Chunk}

theorem length_content (h : c.Fits source) : (c.content source).length = c.len := by
  cases c with
  | unchanged range =>
    simp only [content, Range.slice, List.length_take, List.length_drop, len]
    simp only [Fits] at h
    omega
  | new data => rfl

variable {l : List Chunk}

theorem length_written (h : ∀ c ∈ l, c.Fits source) : (written source l).length = totalLen l := by
  induction l with
  | nil => rfl
  | cons c l ih =>
    obtain ⟨hc, hl⟩ := List.forall_mem_cons.mp h
    rw [written_cons, totalLen_cons, List.length_append, length_content hc, ih hl]

theorem bytes_ok {source b : Bytes} :
    c.bytes source = .ok b ↔ c.Fits source ∧ b = c.content source := by
  cases c with
  | unchanged range =>
    simp only [bytes, Fits, content]
    split
    · next h => simp [h, eq_comm]
    · next h => simp [h]
  | new data => simp [bytes, Fits, content, eq_comm]

theorem mapM_bytes {parts : List Bytes} :
    l.mapM (bytes source) = .ok parts ↔
      (∀ c ∈ l, c.Fits source) ∧ parts = l.map (content source) := by
  induction l generalizing parts with
  | nil => simp [pure, Except.pure, eq_comm]
  | cons c l ih =>
    rw [List.mapM_cons, Fold.bind_ok]
    constructor
    · rintro ⟨b, hb, h⟩
      obtain ⟨rest, hrest, h⟩ := Fold.bind_ok.mp h
      cases h
      obtain ⟨hc, rfl⟩ := bytes_ok.mp hb
      obtain ⟨hl, rfl⟩ := ih.mp hrest
      exact ⟨List.forall_mem_cons.mpr ⟨hc, hl⟩, rfl⟩
    · rintro ⟨h, rfl⟩
      obtain ⟨hc, hl⟩ := List.forall_mem_cons.mp h
      exact ⟨_, bytes_ok.mpr ⟨hc, rfl⟩, Fold.bind_ok.mpr ⟨_, ih.mpr ⟨hl, rfl⟩, rfl⟩⟩

theorem allocate_ok {n : Nat} : allocate n = .ok () ↔ n ≤ isizeMax := by
  unfold allocate
  split
  · next h => simp [h]
  · next h => simp [h]

variable {chunks : List Chunk}

theorem flatten_ok {source data : Bytes} :
    flatten chunks source = .ok data ↔ 2 + totalLen chunks ≤ isizeMax ∧
      (∀ c ∈ chunks, c.Fits source) ∧ data = 0x9F :: (written source chunks ++ [0xFF]) := by
  rw [flatten, Fold.bind_ok]
  constructor
  · rintro ⟨⟨⟩, ha, h⟩
    obtain ⟨parts, hp, h⟩ := Fold.bind_ok.mp h
    cases h
    obtain ⟨hfits, rfl⟩ := mapM_bytes.mp hp
    exact ⟨allocate_ok.mp ha, hfits, rfl⟩
  · rintro ⟨ha, hfits, rfl⟩
    exact ⟨(), allocate_ok.mpr ha, Fold.bind_ok.mpr ⟨_, mapM_bytes.mpr ⟨hfits, rfl⟩, rfl⟩⟩

/-! ## Merging -/

theorem merge_written (hl : ∀ c ∈ l, c.Fits source) (hc : c.Fits source) :
    (∀ c' ∈ merge l c, c'.Fits source) ∧
      written source (merge l c) = written source l ++ c.content source := by
  have happend : (∀ c' ∈ l ++ [c], c'.Fits source) ∧
      written source (l ++ [c]) = written source l ++ c.content source := by
    refine ⟨?_, by simp [written_append]⟩
    intro c' hc'
    rcases List.mem_append.mp hc' with h | h
    · exact hl c' h
    · rw [List.mem_singleton.mp h]
      exact hc
  unfold merge
  split
  · next last next hlast =>
      split
      · next heq =>
          obtain ⟨l, rfl⟩ := List.getLast?_eq_some_iff.mp hlast
          have hlast' : (unchanged last).Fits source := hl _ (by simp)
          obtain ⟨-, hinit⟩ := List.forall_mem_append.mp hl |>.symm
          rw [List.dropLast_concat]
          refine ⟨?_, ?_⟩
          · intro c' hc'
            rcases List.mem_append.mp hc' with h | h
            · exact hinit c' h
            · rw [List.mem_singleton.mp h]
              simp only [Fits] at hlast' hc ⊢
              omega
          · simp only [written_append, written_cons, written_nil, List.append_nil, content,
              List.append_assoc]
            simp only [Fits] at hlast' hc
            have hnext : Range.mk last.stop next.stop = next := by rw [heq]
            rw [Range.slice_adjoin hlast'.1 (by omega), hnext]
      · exact happend
  · exact happend

theorem foldl_merge_written {l acc : List Chunk}
    (hacc : ∀ c ∈ acc, c.Fits source) (hl : ∀ c ∈ l, c.Fits source) :
    (∀ c ∈ l.foldl merge acc, c.Fits source) ∧
      written source (l.foldl merge acc) = written source acc ++ written source l := by
  induction l generalizing acc with
  | nil => exact ⟨hacc, by simp⟩
  | cons c l ih =>
    obtain ⟨hc, hl⟩ := List.forall_mem_cons.mp hl
    obtain ⟨hfits, hw⟩ := merge_written hacc hc
    obtain ⟨hfits', hw'⟩ := ih hfits hl
    rw [List.foldl_cons]
    exact ⟨hfits', by rw [hw', hw, written_cons, List.append_assoc]⟩

theorem assemble_written {primary payload : Chunk} {extensions : List (Nat × Chunk)}
    (h : ∀ c ∈ (assembled primary extensions payload).map Prod.snd, c.Fits source) :
    (∀ c ∈ assemble primary extensions payload, c.Fits source) ∧
      written source (assemble primary extensions payload) =
        written source ((assembled primary extensions payload).map Prod.snd) := by
  have hnil : ∀ c ∈ ([] : List Chunk), c.Fits source := nofun
  obtain ⟨hfits, hw⟩ := foldl_merge_written hnil h
  exact ⟨hfits, by rw [assemble, hw]; rfl⟩

/-! ## The order of the chunks -/

theorem swapRemove_perm {α : Type} {l : List α} {i : Nat} {a : α} (h : l[i]? = some a) :
    (a :: swapRemove l i).Perm l := by
  rcases List.eq_nil_or_concat l with rfl | ⟨init, last, hl⟩
  · cases h
  rw [List.concat_eq_append] at hl
  subst hl
  rw [swapRemove, List.getLast?_concat]
  dsimp only
  by_cases hi : i < init.length
  · rw [List.getElem?_append_left hi] at h
    obtain ⟨hlt, rfl⟩ := List.getElem?_eq_some_iff.mp h
    rw [List.set_append_left _ _ hi, List.dropLast_concat, List.set_eq_take_append_cons_drop,
      if_pos hi]
    -- the last element takes the place of the one that goes
    have hperm : (init[i] :: (init.take i ++ last :: init.drop (i + 1))).Perm
        ((init.take i ++ init[i] :: init.drop (i + 1)) ++ [last]) := by
      rw [List.append_assoc, List.cons_append]
      refine .trans ?_ List.perm_middle.symm
      refine .cons _ (List.Perm.append_left _ ?_)
      exact (List.perm_append_singleton _ _).symm
    have hinit : init.take i ++ init[i] :: init.drop (i + 1) = init := by
      rw [← List.drop_eq_getElem_cons hi, List.take_append_drop]
    rw [hinit] at hperm
    exact hperm
  · have hlast : i = init.length := by
      obtain ⟨hlt, -⟩ := List.getElem?_eq_some_iff.mp h
      rw [List.length_append, List.length_singleton] at hlt
      omega
    subst hlast
    rw [List.getElem?_concat_length] at h
    cases h
    rw [List.set_append_right _ _ le_rfl, Nat.sub_self, List.set_cons_zero, List.dropLast_concat]
    exact (List.perm_append_singleton _ _).symm

theorem fillGap_perm (gap : Nat) (fresh : List (Nat × Bytes)) :
    ((fillGap gap fresh).1 ++ (fillGap gap fresh).2.map fun e => (e.1, new e.2)).Perm
      (fresh.map fun e => (e.1, new e.2)) := by
  unfold fillGap
  cases hi : fresh.findIdx? fun e => e.2.length == gap with
  | none => exact .refl _
  | some i =>
    obtain ⟨hlt, -⟩ := List.findIdx?_eq_some_iff_getElem.mp hi
    have hget : fresh[i]? = some fresh[i] := List.getElem?_eq_getElem hlt
    have hperm := (swapRemove_perm hget).map fun e => (e.1, new e.2)
    simpa only [hget, Option.map_some, Option.toList_some, List.cons_append, List.nil_append,
      List.map_cons] using hperm

theorem interleave_perm (prevEnd : Option Nat) (ranges : List (Nat × Range))
    (fresh : List (Nat × Bytes)) :
    (interleave prevEnd ranges fresh).Perm
      (ranges.map (fun e => (e.1, unchanged e.2)) ++ fresh.map fun e => (e.1, new e.2)) := by
  induction ranges generalizing prevEnd fresh with
  | nil => exact .refl _
  | cons e ranges ih =>
    obtain ⟨number, range⟩ := e
    -- whether or not a chunk fills the gap in front of the range
    have hstep : ∀ p : List (Nat × Chunk) × List (Nat × Bytes),
        (p.1 ++ p.2.map fun e => (e.1, new e.2)).Perm (fresh.map fun e => (e.1, new e.2)) →
        (p.1 ++ (number, unchanged range) :: interleave (some range.stop) ranges p.2).Perm
          (((number, range) :: ranges).map (fun e => (e.1, unchanged e.2)) ++
            fresh.map fun e => (e.1, new e.2)) := by
      intro p hp
      refine List.perm_middle.trans (.cons _ ?_)
      refine ((ih (some range.stop) p.2).append_left p.1).trans ?_
      rw [← List.append_assoc]
      refine (List.perm_append_comm.append_right _).trans ?_
      rw [List.append_assoc]
      exact hp.append_left _
    unfold interleave
    cases prevEnd with
    | none => exact hstep ([], fresh) (.refl _)
    | some stop =>
      dsimp only
      split
      · exact hstep _ (fillGap_perm _ _)
      · exact hstep ([], fresh) (.refl _)

theorem filterMap_perm (extensions : List (Nat × Chunk)) :
    ((extensions.filterMap asUnchanged).map (fun e => (e.1, unchanged e.2)) ++
      (extensions.filterMap asNew).map fun e => (e.1, new e.2)).Perm extensions := by
  induction extensions with
  | nil => exact .refl _
  | cons e l ih =>
    obtain ⟨number, c⟩ := e
    cases c with
    | unchanged range => exact .cons _ ih
    | new data => exact List.perm_middle.trans (.cons _ ih)

theorem order_perm (extensions : List (Nat × Chunk)) : (order extensions).Perm extensions := by
  refine (interleave_perm _ _ _).trans (.trans ?_ (filterMap_perm extensions))
  exact ((List.perm_insertionSort _ _).map _).append ((List.perm_insertionSort _ _).map _)

/-! ## The extents -/

theorem place_other {offset n : Nat} {l : List (Nat × Chunk)} {blocks : HashMap Block}
    (h : n ∉ l.map Prod.fst) : (place offset l blocks)[n]? = blocks[n]? := by
  induction l generalizing offset blocks with
  | nil => rfl
  | cons e l ih =>
    rw [List.map_cons, List.mem_cons, not_or] at h
    rw [place, ih h.2, HashMap.getElem?_modify, if_neg h.1]

theorem place_get {offset n : Nat} {l l' : List (Nat × Chunk)}
    {blocks : HashMap Block} (hnum : ((l ++ (n, c) :: l').map Prod.fst).Nodup) :
    (place offset (l ++ (n, c) :: l') blocks)[n]? = blocks[n]?.map fun b =>
      { b with extent := ⟨offset + totalLen (l.map Prod.snd),
        offset + totalLen (l.map Prod.snd) + c.len⟩ } := by
  induction l generalizing offset blocks with
  | nil =>
    have hn : n ∉ l'.map Prod.fst := (List.nodup_cons.mp hnum).1
    rw [List.nil_append, place, place_other hn, HashMap.getElem?_modify, if_pos rfl]
    rfl
  | cons e l ih =>
    rw [List.cons_append, List.map_cons] at hnum
    obtain ⟨he, hnum⟩ := List.nodup_cons.mp hnum
    have hne : n ≠ e.1 := by
      rintro rfl
      exact he (List.mem_map.mpr ⟨(e.1, c), by simp, rfl⟩)
    rw [List.cons_append, place, ih hnum, HashMap.getElem?_modify, if_neg hne]
    simp only [List.map_cons, totalLen_cons, Nat.add_assoc]

/-! ## Flattening in place -/

variable {pos : Nat}

theorem moves_cons_unchanged {r : Range} :
    moves pos (unchanged r :: l) = (pos, r) :: moves (pos + (unchanged r).len) l := rfl

theorem forall_moves_cons {P : Nat × Range → Prop} (h : ∀ m ∈ moves pos (c :: l), P m) :
    (∀ r, c = unchanged r → P (pos, r)) ∧ ∀ m ∈ moves (pos + c.len) l, P m := by
  cases c with
  | unchanged r =>
    rw [moves_cons_unchanged] at h
    obtain ⟨hr, hl⟩ := List.forall_mem_cons.mp h
    refine ⟨fun r' heq => ?_, hl⟩
    cases heq
    exact hr
  | new data => exact ⟨nofun, h⟩

theorem copyFromSlice_fits {buffer data : Bytes} {start : Nat}
    (h : start + data.length ≤ buffer.length) :
    copyFromSlice buffer start data = .ok (overwrite buffer start data) := if_pos h

theorem overwrite_slice {buffer : Bytes} {r : Range} (hle : r.start ≤ r.stop)
    (hstop : r.stop ≤ buffer.length) : overwrite buffer r.start (r.slice buffer) = buffer := by
  have hlen : (r.slice buffer).length = r.stop - r.start := by
    rw [Range.slice, List.length_take, List.length_drop]
    omega
  refine List.ext_getElem? fun i => ?_
  rw [getElem?_overwrite (by omega)]
  split
  · next hi =>
      rw [Range.slice, List.getElem?_take_of_lt (by omega), List.getElem?_drop]
      congr 1
      omega
  · rfl

/-- The buffer is as long as the source, and has the bytes of the chunk where the source has
them. -/
structure Intact (source buffer : Bytes) (c : Chunk) : Prop where
  length : source.length ≤ buffer.length
  bytes : ∀ r, c = unchanged r → ∀ i, r.start ≤ i → i < r.stop → buffer[i]? = source[i]?

variable {source buffer : Bytes}

theorem putAt_eq (hc : c.Fits source)
    (hintact : Intact source buffer c) (hlen : pos + c.len ≤ buffer.length) :
    putAt buffer pos c = .ok (overwrite buffer pos (c.content source)) := by
  cases c with
  | unchanged range =>
    obtain ⟨hle, hstop⟩ := hc
    have hstop := hstop.trans hintact.length
    have hslice : range.slice buffer = range.slice source :=
      Range.slice_congr (hintact.bytes range rfl)
    rw [putAt, content, ← hslice]
    split
    · rw [copyWithin, if_pos ⟨hle, hstop⟩]
      exact if_pos hlen
    · next heq =>
        obtain rfl : range.start = pos := not_not.mp heq
        rw [overwrite_slice hle hstop]
        rfl
  | new data => exact copyFromSlice_fits hlen

theorem forward_eq (hc : c.Fits source)
    (hintact : Intact source buffer c) (hlen : pos + c.len ≤ buffer.length) :
    forward (buffer, pos) c = .ok (overwrite buffer pos (c.content source), pos + c.len) := by
  rw [forward, putAt_eq hc hintact hlen]
  rfl

theorem backward_eq (hc : c.Fits source)
    (hintact : Intact source buffer c) (hlen : pos + c.len ≤ buffer.length) :
    backward (buffer, pos + c.len) c = .ok (overwrite buffer pos (c.content source), pos) := by
  have hback : stepBack (pos + c.len) c.len = .ok pos := by
    rw [stepBack, if_pos (Nat.le_add_left _ _), Nat.add_sub_cancel]
  have hput := putAt_eq hc hintact hlen
  exact Fold.bind_ok.mpr ⟨pos, hback, Fold.bind_ok.mpr ⟨_, hput, rfl⟩⟩

/-- The buffer after a pass over chunks that are written from `pos` on. -/
structure Moved (source buffer out : Bytes) (pos : Nat) (l : List Chunk) : Prop where
  length : out.length = buffer.length
  before : ∀ i, i < pos → out[i]? = buffer[i]?
  chunks : ∀ i, i < totalLen l → out[pos + i]? = (written source l)[i]?

theorem forward_moved (hfits : ∀ c ∈ l, c.Fits source) (hleft : ∀ m ∈ moves pos l, m.1 ≤ m.2.start)
    (hsource : source.length ≤ buffer.length)
    (hsrc : ∀ i, pos ≤ i → i < source.length → buffer[i]? = source[i]?)
    (hlen : pos + totalLen l ≤ buffer.length) :
    ∃ out, l.foldlM forward (buffer, pos) = .ok (out, pos + totalLen l) ∧
      Moved source buffer out pos l := by
  induction l generalizing buffer pos with
  | nil => exact ⟨buffer, rfl, rfl, fun _ _ => rfl, fun i hi => absurd hi (Nat.not_lt_zero i)⟩
  | cons c l ih =>
    obtain ⟨hc, hl⟩ := List.forall_mem_cons.mp hfits
    rw [totalLen_cons] at hlen
    have hclen := length_content hc
    have hover : pos + (c.content source).length ≤ buffer.length := by omega
    obtain ⟨hstart, hmoves⟩ := forall_moves_cons hleft
    have hintact : Intact source buffer c := by
      refine ⟨hsource, fun r hr i hi hi' => ?_⟩
      subst hr
      simp only [Fits] at hc
      have : pos ≤ r.start := hstart r rfl
      exact hsrc i (by omega) (by omega)
    have hsrc' : ∀ i, pos + c.len ≤ i → i < source.length →
        (overwrite buffer pos (c.content source))[i]? = source[i]? := by
      intro i hi hi'
      rw [getElem?_overwrite hover, if_neg (by omega)]
      exact hsrc i (by omega) hi'
    have hlength := length_overwrite hover
    obtain ⟨out, hfold, hrest⟩ := ih hl hmoves (hsource.trans hlength.ge) hsrc'
      (by rw [hlength]; omega)
    refine ⟨out, ?_, hrest.length.trans hlength, fun i hi => ?_, fun i hi => ?_⟩
    · rw [List.foldlM_cons, forward_eq hc hintact (by omega), totalLen_cons, ← Nat.add_assoc]
      exact hfold
    · rw [hrest.before i (by omega), getElem?_overwrite hover, if_neg (by omega)]
    · rw [written_cons]
      by_cases hic : i < c.len
      · rw [hrest.before _ (by omega), getElem?_overwrite hover, if_pos (by omega),
          List.getElem?_append_left (by omega), Nat.add_sub_cancel_left]
      · have := hrest.chunks (i - c.len) (by rw [totalLen_cons] at hi; omega)
        rw [List.getElem?_append_right (by omega), hclen, ← this]
        congr 1
        omega

theorem backward_moved
    (hfits : ∀ c ∈ l, c.Fits source) (hright : ∀ m ∈ moves pos l, m.2.start ≤ m.1)
    (hpos : ∀ r, unchanged r ∈ l → 0 < r.start) (hsource : source.length ≤ buffer.length)
    (hsrc : ∀ i, 0 < i → i < pos + totalLen l → i < source.length → buffer[i]? = source[i]?)
    (hlen : pos + totalLen l ≤ buffer.length) :
    ∃ out, l.reverse.foldlM backward (buffer, pos + totalLen l) = .ok (out, pos) ∧
      Moved source buffer out pos l := by
  rw [List.foldlM_reverse]
  induction l generalizing pos with
  | nil => exact ⟨buffer, rfl, rfl, fun _ _ => rfl, fun i hi => absurd hi (Nat.not_lt_zero i)⟩
  | cons c l ih =>
    obtain ⟨hc, hl⟩ := List.forall_mem_cons.mp hfits
    rw [totalLen_cons, ← Nat.add_assoc] at hlen hsrc ⊢
    have hclen := length_content hc
    obtain ⟨hstart, hmoves⟩ := forall_moves_cons hright
    obtain ⟨s, hfold, hrest⟩ :=
      ih hl hmoves (fun r hr => hpos r (List.mem_cons_of_mem _ hr)) hsrc hlen
    have hover : pos + (c.content source).length ≤ s.length := by
      rw [hrest.length]
      omega
    -- the later chunks are behind the one that is still to be read
    have hintact : Intact source s c := by
      refine ⟨hsource.trans hrest.length.ge, fun r hr i hi hi' => ?_⟩
      subst hr
      simp only [Fits] at hc
      have : r.start ≤ pos := hstart r rfl
      have hzero := hpos r List.mem_cons_self
      simp only [len] at hsrc hrest
      rw [hrest.before i (by omega)]
      exact hsrc i (by omega) (by omega) (by omega)
    refine ⟨overwrite s pos (c.content source), ?_, (length_overwrite hover).trans hrest.length,
      fun i hi => ?_, fun i hi => ?_⟩
    · rw [List.foldrM_cons, hfold]
      exact backward_eq hc hintact (by omega)
    · rw [getElem?_overwrite hover, if_neg (by omega), hrest.before i (by omega)]
    · rw [written_cons, getElem?_overwrite hover]
      by_cases hic : i < c.len
      · rw [if_pos (by omega), List.getElem?_append_left (by omega), Nat.add_sub_cancel_left]
      · have := hrest.chunks (i - c.len) (by rw [totalLen_cons] at hi; omega)
        rw [if_neg (by omega), List.getElem?_append_right (by omega), hclen, ← this]
        congr 1
        omega

theorem take_of_moved {source buffer out : Bytes}
    (hfits : ∀ c ∈ l, c.Fits source) (h : Moved source buffer out 1 l)
    (hhead : buffer[0]? = some 0x9F) (hlen : 1 + totalLen l + 1 ≤ buffer.length) :
    (overwrite out (1 + totalLen l) [0xFF]).take (1 + totalLen l + 1) =
      0x9F :: (written source l ++ [0xFF]) := by
  have hw := length_written hfits
  have hover : 1 + totalLen l + [(0xFF : UInt8)].length ≤ out.length := by
    rw [h.length, List.length_singleton]
    omega
  refine List.ext_getElem? fun i => ?_
  rw [List.getElem?_take]
  split
  · next hi =>
      rw [getElem?_overwrite hover, List.length_singleton]
      rcases Nat.eq_zero_or_pos i with rfl | hpos
      · rw [if_neg (by omega), h.before 0 (by omega), hhead]
        rfl
      obtain ⟨j, rfl⟩ : ∃ j, i = j + 1 := ⟨i - 1, by omega⟩
      rw [List.getElem?_cons_succ]
      by_cases hj : j < totalLen l
      · rw [if_neg (by omega), List.getElem?_append_left (by omega), ← h.chunks j hj, Nat.add_comm]
      · have hlast : j = totalLen l := by omega
        rw [if_pos (by omega), List.getElem?_append_right (by omega), hw, hlast]
        congr 1
        omega
  · next hi =>
      refine (List.getElem?_eq_none ?_).symm
      rw [List.length_cons, List.length_append, hw, List.length_singleton]
      omega

theorem pass_moved
    (hfits : ∀ c ∈ chunks, c.Fits source) (hpos : ∀ r, unchanged r ∈ chunks → 0 < r.start)
    (hdir : ¬ (shiftsRight chunks && shiftsLeft chunks) = true)
    (hsource : source.length ≤ buffer.length)
    (hsrc : ∀ i, 0 < i → i < source.length → buffer[i]? = source[i]?)
    (hlen : 1 + totalLen chunks ≤ buffer.length) :
    ∃ out pos, pass chunks buffer = .ok (out, pos) ∧ Moved source buffer out 1 chunks := by
  rw [pass]
  split
  · next hr =>
      rw [hr, Bool.true_and] at hdir
      have hright : ∀ m ∈ moves 1 chunks, m.2.start ≤ m.1 := by
        intro m hm
        by_contra hlt
        exact hdir (List.any_eq_true.mpr ⟨m, hm, decide_eq_true (Nat.lt_of_not_le hlt)⟩)
      obtain ⟨out, hfold, hmoved⟩ :=
        backward_moved hfits hright hpos hsource (fun i hi _ => hsrc i hi) hlen
      exact ⟨out, 1, hfold, hmoved⟩
  · next hr =>
      have hleft : ∀ m ∈ moves 1 chunks, m.1 ≤ m.2.start := by
        intro m hm
        by_contra hlt
        exact hr (List.any_eq_true.mpr ⟨m, hm, decide_eq_true (Nat.lt_of_not_le hlt)⟩)
      obtain ⟨out, hfold, hmoved⟩ :=
        forward_moved hfits hleft hsource (fun i hi => hsrc i (by omega)) hlen
      exact ⟨out, _, hfold, hmoved⟩

theorem flattenInplace_fits
    (hfits : ∀ c ∈ chunks, c.Fits source) (hpos : ∀ r, unchanged r ∈ chunks → 0 < r.start)
    (hlen : 1 + totalLen chunks + 1 ≤ isizeMax) :
    flattenInplace chunks source = .ok (0x9F :: (written source chunks ++ [0xFF])) := by
  rw [flattenInplace]
  split
  · exact flatten_ok.mpr ⟨by omega, hfits, rfl⟩
  next hdir =>
  dsimp only
  obtain ⟨room, hresize⟩ : ∃ n, resize source (1 + totalLen chunks + 1) =
      .ok (source ++ List.replicate n 0) ∧ 1 + totalLen chunks + 1 ≤ source.length + n := by
    rw [resize]
    split
    · refine ⟨1 + totalLen chunks + 1 - source.length, ?_, by omega⟩
      rw [allocate_ok.mpr hlen]
      rfl
    · exact ⟨0, by simp [pure, Except.pure], by omega⟩
  obtain ⟨hresize, hroom⟩ := hresize
  set resized := source ++ List.replicate room 0 with hresized
  have hresizedLen : resized.length = source.length + room := by simp [hresized]
  have hhead₀ : 0 + [(0x9F : UInt8)].length ≤ resized.length := by
    rw [List.length_singleton]
    omega
  set buffer := overwrite resized 0 [0x9F] with hbuffer
  have hbufferLen : buffer.length = source.length + room :=
    (length_overwrite hhead₀).trans hresizedLen
  have hhead : buffer[0]? = some 0x9F := by
    rw [hbuffer, getElem?_overwrite hhead₀, if_pos (by simp)]
    rfl
  have hsrc : ∀ i, 0 < i → i < source.length → buffer[i]? = source[i]? := by
    intro i hi hi'
    rw [hbuffer, getElem?_overwrite hhead₀, List.length_singleton, if_neg (by omega), hresized,
      List.getElem?_append_left hi']
  obtain ⟨out, pos, hpass, hmoved⟩ := pass_moved hfits hpos hdir (by omega) hsrc (by omega)
  have hlast : copyFromSlice out (1 + totalLen chunks + 1 - 1) [0xFF] =
      .ok (overwrite out (1 + totalLen chunks) [0xFF]) :=
    copyFromSlice_fits (by rw [hmoved.length, List.length_singleton]; omega)
  refine Fold.bind_ok.mpr ⟨resized, hresize, ?_⟩
  refine Fold.bind_ok.mpr ⟨buffer, copyFromSlice_fits hhead₀, ?_⟩
  refine Fold.bind_ok.mpr ⟨(out, pos), hpass, ?_⟩
  refine Fold.bind_ok.mpr ⟨_, hlast, ?_⟩
  exact congrArg Except.ok (take_of_moved hfits hmoved hhead (by omega))

theorem flattenInplace_too_long
    (hsource : source.length ≤ isizeMax) (hlen : isizeMax < 1 + totalLen chunks + 1) :
    flattenInplace chunks source = flatten chunks source := by
  have hallocate : ∀ n, isizeMax < n → allocate n = .error (.panicked "capacity overflow") :=
    fun n hn => if_neg (Nat.not_le_of_lt hn)
  rw [flattenInplace]
  split
  · rfl
  · have hresize : resize source (1 + totalLen chunks + 1) =
        .error (.panicked "capacity overflow") := by
      unfold resize
      rw [if_pos (by omega), hallocate _ hlen]
      rfl
    dsimp only
    rw [hresize, flatten, hallocate _ (by omega)]
    rfl

/-- Writing a plan out in place is writing it into a new buffer, for all ranges behind the first
byte of the source and within it.  No index is out of bounds: all that can fail is that the plan
is longer than a vector. -/
theorem flattenInplace_eq {chunks : List Chunk} {source : Bytes}
    (hsource : source.length ≤ isizeMax)
    (hranges : ∀ r, unchanged r ∈ chunks →
      1 ≤ r.start ∧ r.start ≤ r.stop ∧ r.stop ≤ source.length) :
    flattenInplace chunks source = flatten chunks source ∧
      (2 + totalLen chunks ≤ isizeMax → flattenInplace chunks source =
        .ok (0x9F :: (written source chunks ++ [0xFF]))) := by
  have hfits : ∀ c ∈ chunks, c.Fits source := by
    intro c hc
    cases c with
    | unchanged r => exact (hranges r hc).2
    | new data => trivial
  have hpos : ∀ r, unchanged r ∈ chunks → 0 < r.start := fun r hr => (hranges r hr).1
  by_cases hlen : 1 + totalLen chunks + 1 ≤ isizeMax
  · have hinplace := flattenInplace_fits hfits hpos hlen
    exact ⟨hinplace.trans (flatten_ok.mpr ⟨by omega, hfits, rfl⟩).symm, fun _ => hinplace⟩
  · exact ⟨flattenInplace_too_long hsource (Nat.lt_of_not_le hlen), fun h => absurd h (by omega)⟩

/-- A range that is written twice, before and after a byte of its own. -/
theorem flattenInplace_repeated :
    flattenInplace [unchanged ⟨1, 3⟩, new [7], unchanged ⟨1, 3⟩] [0x9F, 1, 2, 0xFF] =
      flatten [unchanged ⟨1, 3⟩, new [7], unchanged ⟨1, 3⟩] [0x9F, 1, 2, 0xFF] := by
  refine (flattenInplace_eq (by decide) fun r hr => ?_).1
  simp only [List.mem_cons, List.not_mem_nil, or_false, unchanged.injEq, reduceCtorEq,
    false_or, or_self] at hr
  subst hr
  decide

end Hardy.Chunk
