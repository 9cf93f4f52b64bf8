import Hardy.Primary

/-!
# DTN time

Model of `bpv7/src/dtn_time.rs` and of `CreationTimestamp::now`.  An instant is
the number of nanoseconds since the Unix epoch, a `DtnTime` the number of
milliseconds since its own.
-/

namespace Hardy

open Cbor

/-- The range of `OffsetDateTime`, in nanoseconds of the Unix epoch. -/
def dateTimeMin : Int := -377705116800000000000

def dateTimeMax : Int := 253402300799999999999

/-- What `saturating_add` and `saturating_sub` do at the ends of the range. -/
def saturateTime (t : Int) : Int := max dateTimeMin (min t dateTimeMax)

def dtnEpoch : Int := 946684800000000000

namespace DtnTime

def saturatingFrom (t : Int) : Nat :=
  let millisecs := (t - dtnEpoch).tdiv 1000000
  if millisecs < 0 then 0
  else if ((wordSize - 1 : Nat) : Int) < millisecs then wordSize - 1
  else millisecs.toNat

/-- `From<DtnTime> for OffsetDateTime` -/
def toDatetime (millisecs : Nat) : Int := saturateTime (dtnEpoch + millisecs * 1000000)

def fromCbor : Dec Error (Nat × Bool) := newtype id .notCanonical

theorem saturatingFrom_lt (t : Int) : saturatingFrom t < wordSize := by
  have hw : wordSize = 18446744073709551616 := rfl
  rw [saturatingFrom]
  split
  · exact hw ▸ by decide
  split
  · omega
  · omega

theorem toDatetime_saturatingFrom {t : Int} (hepoch : dtnEpoch ≤ t) (hmax : t ≤ dateTimeMax)
    (hwhole : (t - dtnEpoch) % 1000000 = 0) : toDatetime (saturatingFrom t) = t := by
  have hfrom : (saturatingFrom t : Int) * 1000000 = t - dtnEpoch := by
    rw [saturatingFrom, Int.tdiv_eq_ediv_of_nonneg (by omega)]
    have hbound : (t - dtnEpoch) / 1000000 ≤ ((wordSize - 1 : Nat) : Int) := by
      have hw : wordSize = 18446744073709551616 := rfl
      simp only [dtnEpoch, dateTimeMax] at *
      omega
    rw [if_neg (by omega), if_neg (by omega), Int.toNat_of_nonneg (by omega)]
    omega
  have hmin : dateTimeMin ≤ dtnEpoch := by decide
  rw [toDatetime, hfrom, saturateTime]
  omega

end DtnTime

/-! ## Issuing timestamps -/

def seqBits : Nat := 20

namespace CreationTimestamp

def candidate (now : Int) : Nat :=
  (min (DtnTime.saturatingFrom now) ((wordSize - 1) >>> seqBits)) <<< seqBits |||
    (now % 1000000).toNat

def issue (last : Nat) (now : Int) : Nat := max (min (last + 1) (wordSize - 1)) (candidate now)

def now (last : Nat) (now : Int) : CreationTimestamp where
  creationTime := some (issue last now >>> seqBits)
  sequenceNumber := issue last now &&& (1 <<< seqBits - 1)

theorem candidate_lt (now : Int) : candidate now < wordSize := by
  have hms : min (DtnTime.saturatingFrom now) ((wordSize - 1) >>> seqBits) ≤ 2 ^ 44 - 1 :=
    (Nat.min_le_right _ _).trans (by decide)
  have hnanos : (now % 1000000).toNat < 2 ^ 64 := by omega
  rw [candidate, Nat.shiftLeft_eq]
  generalize min (DtnTime.saturatingFrom now) ((wordSize - 1) >>> seqBits) = ms at hms
  have hshifted : ms * 2 ^ seqBits < 2 ^ 64 := by
    rw [seqBits]
    omega
  exact Nat.or_lt_two_pow hshifted hnanos

theorem issue_lt (last : Nat) (now : Int) : issue last now < wordSize := by
  have hc := candidate_lt now
  have hw : wordSize = 18446744073709551616 := rfl
  rw [issue]
  omega

/-- A timestamp as the decoder gives it back: the epoch stands for the lack of a clock. -/
def reread (t : CreationTimestamp) : CreationTimestamp :=
  { t with creationTime := t.creationTime.filter (· ≠ 0) }

theorem toCbor_reread (t : CreationTimestamp) : t.reread.toCbor = t.toCbor := by
  obtain ⟨_ | _ | ms, s⟩ := t <;> rfl

theorem now_reread_wellFormed (last : Nat) (clock : Int) : (now last clock).reread.WellFormed := by
  have hissue := issue_lt last clock
  refine ⟨fun ms hms => ?_, (Nat.and_le_left).trans_lt hissue⟩
  have hfilter : (some (issue last clock >>> seqBits)).filter (· ≠ 0) = some ms := hms
  obtain ⟨hsome, hne⟩ := Option.filter_eq_some_iff.mp hfilter
  obtain rfl := Option.some.inj hsome
  exact ⟨Nat.pos_of_ne_zero (by simpa using hne), (Nat.shiftRight_le _ _).trans_lt hissue⟩

end CreationTimestamp

end Hardy
