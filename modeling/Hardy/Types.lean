import Hardy.Eid
import Hardy.Tiling

/-!
# The bundle data model

The types of `bpv7/src/bundle.rs`, `block.rs`, `crc.rs`, `primary_block.rs`
and `creation_timestamp.rs`.  Maps keyed by block number are extensional, so
two of them are equal when they hold the same entries; where the source walks
a hash map, the order of the walk is a parameter (`HashOrder`).
-/

namespace Hardy

/-! ## Maps -/

abbrev HashMap (β : Type) := Std.ExtTreeMap Nat β compare

/-- The order in which a hash map hands out its entries: any permutation of
them. -/
class HashOrder where
  iter : {β : Type} → HashMap β → List (Nat × β)
  iter_perm : ∀ {β : Type} (m : HashMap β), (iter m).Perm m.toList

def HashOrder.sorted : HashOrder := ⟨fun m => m.toList, fun _ => .refl _⟩

namespace HashMap

variable {β : Type} {m : HashMap β} {k n : Nat}

theorem getElem?_insert {v : β} : (m.insert k v)[n]? = if n = k then some v else m[n]? := by
  rw [Std.ExtTreeMap.getElem?_insert]
  simp only [Nat.compare_eq_eq, @eq_comm _ k]

theorem getElem?_modify {f : β → β} :
    (m.modify k f)[n]? = if n = k then m[n]?.map f else m[n]? := by
  rw [Std.ExtTreeMap.getElem?_modify]
  by_cases h : n = k
  · subst h
    simp
  · rw [if_neg h, if_neg]
    rw [Nat.compare_eq_eq]
    exact fun h' => h h'.symm

theorem getElem?_erase : (m.erase k)[n]? = if n = k then none else m[n]? := by
  rw [Std.ExtTreeMap.getElem?_erase]
  simp only [Nat.compare_eq_eq, @eq_comm _ k]

theorem mem_iff : n ∈ m ↔ ∃ v, m[n]? = some v := by
  rw [Std.ExtTreeMap.mem_iff_isSome_getElem?, Option.isSome_iff_exists]

end HashMap

theorem HashMap.isEmpty_eq_false {β : Type} {m : HashMap β} :
    m.isEmpty = false ↔ ∃ n, n ∈ m := by
  rw [Std.ExtTreeMap.isEmpty_eq_false_iff]
  constructor
  · intro h
    by_contra hn
    refine h (Std.ExtTreeMap.ext_getElem? fun k => ?_)
    rw [Std.ExtTreeMap.getElem?_empty]
    exact Std.ExtTreeMap.getElem?_eq_none fun hk => hn ⟨k, hk⟩
  · rintro ⟨n, hn⟩ rfl
    exact Std.ExtTreeMap.not_mem_empty hn

theorem HashMap.mem_erase {β : Type} {m : HashMap β} {k n : Nat} :
    n ∈ m.erase k ↔ n ≠ k ∧ n ∈ m := by
  simp only [HashMap.mem_iff, HashMap.getElem?_erase]
  by_cases h : n = k
  · simp [h]
  · simp [h]

/-! ## Flag words

A flag word has named bits, kept as booleans, and a rest that is passed
through. -/

/-- `if (value & bit) != 0 { unrecognised &= !bit }` -/
def clearBit (u i : Nat) : Nat := if u.testBit i then u ^^^ 2 ^ i else u

def stripBits (named : List Nat) (value : Nat) : Nat := named.foldl clearBit value

/-- `if named { flags |= bit }` for each named bit. -/
def packBits (named : List (Nat × Bool)) (u : Nat) : Nat :=
  named.foldl (fun w p => if p.2 then w ||| 2 ^ p.1 else w) u

def unrecognisedOf (u : Nat) : Option Nat := if u ≠ 0 then some u else none

theorem testBit_clearBit (u i j : Nat) :
    (clearBit u i).testBit j = (u.testBit j && decide (j ≠ i)) := by
  rw [clearBit]
  split
  · next h =>
      rw [Nat.testBit_xor, Nat.testBit_two_pow]
      by_cases hij : i = j
      · subst hij
        simp [h]
      · simp [hij, Ne.symm hij]
  · next h =>
      by_cases hij : j = i
      · subst hij
        simpa using h
      · simp [hij]

theorem testBit_stripBits (named : List Nat) (value j : Nat) :
    (stripBits named value).testBit j = (value.testBit j && !named.contains j) := by
  induction named generalizing value with
  | nil => simp [stripBits]
  | cons i named ih =>
    rw [stripBits, List.foldl_cons, ← stripBits, ih, testBit_clearBit, List.contains_cons]
    by_cases hij : j = i
    · simp [hij]
    · simp [hij, beq_false_of_ne hij]

theorem testBit_packBits (named : List (Nat × Bool)) (u j : Nat) :
    (packBits named u).testBit j =
      (u.testBit j || named.any fun p => decide (p.1 = j) && p.2) := by
  induction named generalizing u with
  | nil => simp [packBits]
  | cons p named ih =>
    rw [packBits, List.foldl_cons, ← packBits, ih, List.any_cons]
    cases hp : p.2 with
    | false => simp
    | true => simp [Nat.testBit_or, Nat.testBit_two_pow, Bool.or_assoc]

/-- The rest of a flag word as the decoder leaves it: absent, or not zero and
disjoint from the named bits. -/
def RestOk (named : List Nat) (rest : Option Nat) : Prop :=
  ∀ u, rest = some u → u ≠ 0 ∧ u < wordSize ∧ ∀ i ∈ named, u.testBit i = false

variable {rest : Option Nat}

theorem restOk_getD {named : List Nat} (h : RestOk named rest) {i : Nat}
    (hi : i ∈ named) : (rest.getD 0).testBit i = false := by
  cases rest with
  | none => simp
  | some u => exact (h u rfl).2.2 i hi

theorem unrecognisedOf_stripBits {named : List (Nat × Bool)}
    (h : RestOk (named.map Prod.fst) rest) :
    unrecognisedOf (stripBits (named.map Prod.fst) (packBits named (rest.getD 0))) = rest := by
  have hstrip : stripBits (named.map Prod.fst) (packBits named (rest.getD 0)) =
      rest.getD 0 := by
    refine Nat.eq_of_testBit_eq fun j => ?_
    rw [testBit_stripBits, testBit_packBits]
    by_cases hj : j ∈ named.map Prod.fst
    · simp [hj, restOk_getD h hj]
    · have hany : (named.any fun p => decide (p.1 = j) && p.2) = false := by
        rw [List.any_eq_false]
        intro p hp
        have : p.1 ≠ j := fun e => hj (e ▸ List.mem_map_of_mem hp)
        simp [this]
      simp [hj, hany]
  rw [hstrip]
  cases rest with
  | none => rfl
  | some u => exact if_pos (h u rfl).1

theorem restOk_unrecognisedOf {named : List Nat} {value : Nat} (hv : value < wordSize) :
    RestOk named (unrecognisedOf (stripBits named value)) := by
  intro u hu
  have hu' : stripBits named value ≠ 0 ∧ stripBits named value = u := by
    rw [unrecognisedOf] at hu
    split at hu
    · next h => exact ⟨h, Option.some.inj hu⟩
    · cases hu
  obtain ⟨h0, rfl⟩ := hu'
  refine ⟨h0, Nat.lt_pow_two_of_testBit _ fun i hi => ?_, fun i hi => ?_⟩
  · rw [testBit_stripBits, Nat.testBit_lt_two_pow
      (hv.trans_le (Nat.pow_le_pow_right (by decide) hi)), Bool.false_and]
  · simp [testBit_stripBits, hi]

theorem testBit_packBits_named {named : List (Nat × Bool)}
    (h : RestOk (named.map Prod.fst) rest) {i : Nat} (hi : i ∈ named.map Prod.fst) :
    (packBits named (rest.getD 0)).testBit i =
      named.any fun p => decide (p.1 = i) && p.2 := by
  rw [testBit_packBits, restOk_getD h hi, Bool.false_or]

theorem packBits_lt {named : List (Nat × Bool)}
    (hn : ∀ p ∈ named, p.1 < 64) (h : RestOk (named.map Prod.fst) rest) :
    packBits named (rest.getD 0) < wordSize := by
  refine Nat.lt_pow_two_of_testBit _ fun i hi => ?_
  have hrest : (rest.getD 0).testBit i = false := by
    cases rest with
    | none => simp
    | some u =>
      exact Nat.testBit_lt_two_pow ((h u rfl).2.1.trans_le (Nat.pow_le_pow_right (by decide) hi))
  rw [testBit_packBits, hrest, Bool.false_or, List.any_eq_false]
  intro p hp
  have := hn p hp
  simp only [Bool.and_eq_true, decide_eq_true_eq, not_and]
  omega

/-! ## Blocks -/

inductive BlockType where
  | primary
  | payload
  | previousNode
  | bundleAge
  | hopCount
  | blockIntegrity
  | blockSecurity
  | unrecognised (code : Nat)
deriving DecidableEq, Repr

def BlockType.code : BlockType → Nat
  | primary => 0
  | payload => 1
  | previousNode => 6
  | bundleAge => 7
  | hopCount => 10
  | blockIntegrity => 11
  | blockSecurity => 12
  | unrecognised v => v

def BlockType.ofCode : Nat → BlockType
  | 0 => primary
  | 1 => payload
  | 6 => previousNode
  | 7 => bundleAge
  | 10 => hopCount
  | 11 => blockIntegrity
  | 12 => blockSecurity
  | v => unrecognised v

def BlockType.canonicalize (t : BlockType) : BlockType := ofCode t.code

@[simp] theorem BlockType.code_ofCode (v : Nat) : (ofCode v).code = v := by
  unfold ofCode
  split <;> rfl

def BlockType.Canonical (t : BlockType) : Prop := ofCode t.code = t ∧ t.code < wordSize

theorem BlockType.canonicalize_code (t : BlockType) : t.canonicalize.code = t.code :=
  code_ofCode _

theorem BlockType.canonicalize_idem (t : BlockType) : ofCode t.canonicalize.code = t.canonicalize :=
  congrArg ofCode (canonicalize_code t)

inductive CrcType where
  | none
  | crc16X25
  | crc32Castagnoli
  | unrecognised (code : Nat)
deriving DecidableEq, Repr

def CrcType.code : CrcType → Nat
  | none => 0
  | crc16X25 => 1
  | crc32Castagnoli => 2
  | unrecognised v => v

def CrcType.ofCode : Nat → CrcType
  | 0 => none
  | 1 => crc16X25
  | 2 => crc32Castagnoli
  | v => unrecognised v

/-- `CrcType` other than `Unrecognised`. -/
def CrcType.isRecognised : CrcType → Bool
  | unrecognised _ => false
  | _ => true

theorem CrcType.ofCode_code {t : CrcType} (h : t.isRecognised = true) : ofCode t.code = t := by
  cases t <;> first | rfl | cases h

structure BlockFlags where
  mustReplicate : Bool := false
  reportOnFailure : Bool := false
  deleteBundleOnFailure : Bool := false
  deleteBlockOnFailure : Bool := false
  unrecognised : Option Nat := none
deriving DecidableEq, Repr

namespace BlockFlags

def named (f : BlockFlags) : List (Nat × Bool) :=
  [(0, f.mustReplicate), (1, f.reportOnFailure), (2, f.deleteBundleOnFailure),
    (4, f.deleteBlockOnFailure)]

def bits : List Nat := [0, 1, 2, 4]

/-- `From<&Flags> for u64` -/
def word (f : BlockFlags) : Nat := packBits f.named (f.unrecognised.getD 0)

/-- `From<u64> for Flags` -/
def ofWord (value : Nat) : BlockFlags where
  mustReplicate := value.testBit 0
  reportOnFailure := value.testBit 1
  deleteBundleOnFailure := value.testBit 2
  deleteBlockOnFailure := value.testBit 4
  unrecognised := unrecognisedOf (stripBits bits value)

def primary : BlockFlags where
  mustReplicate := true
  reportOnFailure := true
  deleteBundleOnFailure := true

def Canonical (f : BlockFlags) : Prop := RestOk bits f.unrecognised

theorem word_lt {f : BlockFlags} (h : f.Canonical) : f.word < wordSize :=
  packBits_lt (by simp [named]) h

theorem ofWord_word {f : BlockFlags} (h : f.Canonical) : ofWord f.word = f := by
  have h' : RestOk (f.named.map Prod.fst) f.unrecognised := h
  have hbit : ∀ i ∈ bits, f.word.testBit i = f.named.any fun p => decide (p.1 = i) && p.2 :=
    fun i hi => testBit_packBits_named h' hi
  have hrest : unrecognisedOf (stripBits bits f.word) = f.unrecognised :=
    unrecognisedOf_stripBits h'
  rw [ofWord, hrest, hbit 0 (by decide), hbit 1 (by decide), hbit 2 (by decide), hbit 4 (by
    decide)]
  simp [named]

end BlockFlags

inductive BibCoverage where
  | none
  | some (block : Nat)
  | maybe
deriving DecidableEq, Repr

def BibCoverage.isOther (c : BibCoverage) (bib : Nat) : Bool :=
  match c with
  | .some n => n != bib
  | _ => false

structure Block where
  blockType : BlockType := .payload
  flags : BlockFlags := {}
  crcType : CrcType := .none
  bib : BibCoverage := .none
  bcb : Option Nat := none
  extent : Range := ⟨0, 0⟩
  data : Range := ⟨0, 0⟩
deriving DecidableEq, Repr

def Block.payloadRange (b : Block) : Range :=
  ⟨b.extent.start + b.data.start, b.extent.start + b.data.stop⟩

def Block.payload (b : Block) (source : Bytes) : Option Bytes :=
  let r := b.payloadRange
  if r.start ≤ r.stop ∧ r.stop ≤ source.length then some (r.slice source) else none

/-! ## Bundles -/

structure BundleFlags where
  isFragment : Bool := false
  isAdminRecord : Bool := false
  doNotFragment : Bool := false
  appAckRequested : Bool := false
  reportStatusTime : Bool := false
  receiptReportRequested : Bool := false
  forwardReportRequested : Bool := false
  deliveryReportRequested : Bool := false
  deleteReportRequested : Bool := false
  unrecognised : Option Nat := none
deriving DecidableEq, Repr

namespace BundleFlags

def named (f : BundleFlags) : List (Nat × Bool) :=
  [(0, f.isFragment), (1, f.isAdminRecord), (2, f.doNotFragment), (5, f.appAckRequested),
    (6, f.reportStatusTime), (14, f.receiptReportRequested), (16, f.forwardReportRequested),
    (17, f.deliveryReportRequested), (18, f.deleteReportRequested)]

def bits : List Nat := [0, 1, 2, 5, 6, 14, 16, 17, 18]

/-- `From<&Flags> for u64` -/
def word (f : BundleFlags) : Nat := packBits f.named (f.unrecognised.getD 0)

/-- `From<u64> for Flags` -/
def ofWord (value : Nat) : BundleFlags where
  isFragment := value.testBit 0
  isAdminRecord := value.testBit 1
  doNotFragment := value.testBit 2
  appAckRequested := value.testBit 5
  reportStatusTime := value.testBit 6
  receiptReportRequested := value.testBit 14
  forwardReportRequested := value.testBit 16
  deliveryReportRequested := value.testBit 17
  deleteReportRequested := value.testBit 18
  unrecognised := unrecognisedOf (stripBits bits value)

def Canonical (f : BundleFlags) : Prop := RestOk bits f.unrecognised

theorem word_lt {f : BundleFlags} (h : f.Canonical) : f.word < wordSize :=
  packBits_lt (by simp [named]) h

theorem ofWord_word {f : BundleFlags} (h : f.Canonical) : ofWord f.word = f := by
  have h' : RestOk (f.named.map Prod.fst) f.unrecognised := h
  have hbit : ∀ i ∈ bits, f.word.testBit i = f.named.any fun p => decide (p.1 = i) && p.2 :=
    fun i hi => testBit_packBits_named h' hi
  have hrest : unrecognisedOf (stripBits bits f.word) = f.unrecognised :=
    unrecognisedOf_stripBits h'
  rw [ofWord, hrest, hbit 0 (by decide), hbit 1 (by decide), hbit 2 (by decide), hbit 5 (by
    decide), hbit 6 (by decide), hbit 14 (by decide), hbit 16 (by decide), hbit 17 (by decide),
    hbit 18 (by decide)]
  simp [named]

end BundleFlags

/-- `DtnTime` in milliseconds, absent when the source had no clock. -/
structure CreationTimestamp where
  creationTime : Option Nat
  sequenceNumber : Nat
deriving DecidableEq, Repr

structure FragmentInfo where
  offset : Nat
  totalAduLength : Nat
deriving DecidableEq, Repr

structure Duration where
  nanos : Nat
deriving DecidableEq, Repr

def Duration.fromMillis (ms : Nat) : Duration := ⟨ms * 1000000⟩

def Duration.asMillis (d : Duration) : Nat := d.nanos / 1000000

@[simp] theorem Duration.asMillis_fromMillis (ms : Nat) : (fromMillis ms).asMillis = ms :=
  Nat.mul_div_cancel ms (by decide)

structure Id where
  source : Eid
  timestamp : CreationTimestamp
  fragmentInfo : Option FragmentInfo
deriving DecidableEq, Repr

structure PrimaryBlock where
  flags : BundleFlags
  id : Id
  crcType : CrcType
  destination : Eid
  reportTo : Eid
  lifetime : Duration
deriving DecidableEq, Repr

def PrimaryBlock.asBlock (crcType : CrcType) (extent : Range) : Block where
  blockType := .primary
  flags := .primary
  crcType := crcType
  extent := extent
  data := ⟨0, extent.stop - extent.start⟩

structure Bundle where
  primary : PrimaryBlock
  blocks : HashMap Block

end Hardy
