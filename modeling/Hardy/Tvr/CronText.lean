import Mathlib.Data.List.Nodup
import Hardy.Fold
import Hardy.Tvr.Cron

/-!
# The text of a cron expression

Model of the parser of `tvr/src/cron.rs`.  A field is a list of items, and an item a value, a
range or the whole field, with a step.  The cursor over a range and the step are numbers of
32 bits, and a step may take the cursor beyond them: `parse_field` denotes what the text says
exactly where none does.  The text that is kept for display is left out.
-/

namespace Hardy.Tvr

/-! ## Text -/

def isWhitespace (c : Char) : Bool :=
  (9 ≤ c.toNat && c.toNat ≤ 13) || c.toNat == 0x20 || c.toNat == 0x85 || c.toNat == 0xA0 ||
    c.toNat == 0x1680 || (0x2000 ≤ c.toNat && c.toNat ≤ 0x200A) || c.toNat == 0x2028 ||
    c.toNat == 0x2029 || c.toNat == 0x202F || c.toNat == 0x205F || c.toNat == 0x3000

def trim (s : List Char) : List Char :=
  ((s.dropWhile isWhitespace).reverse.dropWhile isWhitespace).reverse

def splitWhitespace (s : List Char) : List (List Char) :=
  (s.splitOnP isWhitespace).filter (· ≠ [])

/-- What is before the first `c` and after it. -/
def splitOnce (c : Char) : List Char → Option (List Char × List Char)
  | [] => none
  | x :: s => if x = c then some ([], s) else (splitOnce c s).map fun p => (x :: p.1, p.2)

def digitOf (c : Char) : Option Nat := if c.isDigit then some (c.toNat - 48) else none

/-- `from_str` of an unsigned integer below `bound` takes a plus sign. -/
def parseUint (bound : Nat) (s : List Char) : Option Nat :=
  let digits := match s with
    | '+' :: digits => digits
    | digits => digits
  if digits = [] then none
  else (digits.mapM digitOf).bind fun ds =>
    let n := ds.foldl (fun n d => n * 10 + d) 0
    if n < bound then some n else none

def parseU32 : List Char → Option Nat := parseUint (2 ^ 32)

theorem splitOnce_eq_some {c : Char} {s a b : List Char} :
    splitOnce c s = some (a, b) ↔ s = a ++ c :: b ∧ c ∉ a := by
  induction s generalizing a with
  | nil =>
    refine ⟨nofun, fun h => ?_⟩
    cases a <;> cases h.1
  | cons x s ih =>
    rw [splitOnce]
    split
    · next hx =>
        subst hx
        constructor
        · intro h
          cases h
          exact ⟨rfl, List.not_mem_nil⟩
        · rintro ⟨h, hnot⟩
          cases a with
          | nil =>
            cases h
            rfl
          | cons y a =>
            cases h
            exact absurd List.mem_cons_self hnot
    · next hx =>
        rw [Option.map_eq_some_iff]
        constructor
        · rintro ⟨⟨a', b'⟩, h, heq⟩
          cases heq
          obtain ⟨rfl, hnot⟩ := ih.mp h
          exact ⟨rfl, List.not_mem_cons_of_ne_of_not_mem (fun h => hx h.symm) hnot⟩
        · rintro ⟨h, hnot⟩
          cases a with
          | nil =>
            cases h
            exact absurd rfl hx
          | cons y a =>
            cases h
            exact ⟨(a, b), ih.mpr ⟨rfl, fun h => hnot (List.mem_cons_of_mem _ h)⟩, rfl⟩

theorem splitOnce_eq_none {c : Char} {s : List Char} : splitOnce c s = none ↔ c ∉ s := by
  induction s with
  | nil => exact iff_of_true rfl List.not_mem_nil
  | cons x s ih =>
    rw [splitOnce]
    split
    · next hx => exact iff_of_false nofun fun h => h (hx ▸ List.mem_cons_self)
    · next hx =>
        rw [Option.map_eq_none_iff, ih, List.mem_cons, not_or]
        exact (and_iff_right fun h => hx h.symm).symm

/-! ## Fields -/

def dowNames : List (List Char) :=
  ["SUN", "MON", "TUE", "WED", "THU", "FRI", "SAT"].map String.toList

def monthNames : List (List Char) :=
  ["JAN", "FEB", "MAR", "APR", "MAY", "JUN", "JUL", "AUG", "SEP", "OCT", "NOV", "DEC"].map
    String.toList

structure Field where
  min : Nat
  max : Nat
  name : String
  names : List (List Char)
  bounds : min ≤ max := by decide
  bits : max < 64 := by decide
  distinct : names.Nodup := by decide
  spelled : [] ∉ names := by decide

namespace Field

def second : Field := { min := 0, max := 59, name := "second", names := [] }

def minute : Field := { min := 0, max := 59, name := "minute", names := [] }

def hour : Field := { min := 0, max := 23, name := "hour", names := [] }

def dom : Field := { min := 1, max := 31, name := "dom", names := [] }

def month : Field := { min := 1, max := 12, name := "month", names := monthNames }

def dow : Field := { min := 0, max := 7, name := "dow", names := dowNames }

end Field

/-- Why there is no expression: the text is rejected, or an addition overflows. -/
inductive ParseError where
  | rejected (message : String)
  | overflow
deriving DecidableEq

def parseValue (s : List Char) (f : Field) : Except ParseError Nat :=
  match f.names.idxOf? (s.map Char.toUpper) with
  | some pos => .ok (f.min + pos)
  | none =>
    match parseU32 s with
    | some v => .ok v
    | none =>
      let name := f.name
      let text := String.ofList s
      .error (.rejected s!"{name}: invalid value '{text}'")

def checkValue (v : Nat) (f : Field) : Except ParseError Unit :=
  if v < f.min ∨ f.max < v then
    let name := f.name
    let min := f.min
    let max := f.max
    .error (.rejected s!"{name}: {v} out of range {min}-{max}")
  else .ok ()

/-- The values from the cursor to the end.  A step is positive, so the loop takes no more
turns than there are numbers up to the end. -/
def rangeBits (step finish : Nat) : Nat → Nat → Nat → Except ParseError Nat
  | 0, _, bits => .ok bits
  | turns + 1, v, bits =>
    if v ≤ finish then
      if v + step < 2 ^ 32 then rangeBits step finish turns (v + step) (bits ||| 1 <<< v)
      else .error .overflow
    else .ok bits

def parseStep (s : List Char) (f : Field) : Except ParseError Nat :=
  let name := f.name
  match parseU32 s with
  | none =>
    let text := String.ofList s
    .error (.rejected s!"{name}: invalid step '{text}'")
  | some 0 => .error (.rejected s!"{name}: step must be > 0")
  | some step => .ok step

def fill (step start finish : Nat) : Except ParseError Nat :=
  rangeBits step finish (finish + 1 - start) start 0

def parseRange (r : List Char) (step : Option Nat) (f : Field) : Except ParseError Nat :=
  if r = ['*'] then fill (step.getD 1) f.min f.max
  else
    match splitOnce '-' r with
    | some (a, b) => do
        let a ← parseValue a f
        let b ← parseValue b f
        checkValue a f
        checkValue b f
        if b < a then
          let name := f.name
          .error (.rejected s!"{name}: range {a}-{b} is empty")
        else fill (step.getD 1) a b
    | none => do
        let v ← parseValue r f
        checkValue v f
        match step with
        | some step => fill step v f.max
        | none => .ok (1 <<< v)

def parseItem (item : List Char) (f : Field) : Except ParseError Nat :=
  match splitOnce '/' item with
  | some (r, s) => do
      let step ← parseStep s f
      parseRange r (some step) f
  | none => parseRange item none f

def parseItems (f : Field) : List (List Char) → Nat → Except ParseError Nat
  | [], bits => .ok bits
  | item :: items, bits =>
    if item = [] then
      let name := f.name
      .error (.rejected s!"{name}: empty item in list")
    else do
      let b ← parseItem item f
      parseItems f items (bits ||| b)

def parseField (field : List Char) (f : Field) : Except ParseError Nat := do
  let bits ← parseItems f (field.splitOn ',') 0
  if bits = 0 then
    let name := f.name
    .error (.rejected s!"{name}: field matches nothing")
  else .ok bits

def parseDow (field : List Char) : Except ParseError Nat := do
  let bits ← parseField field .dow
  .ok (((bits &&& 0x7F) ||| ((bits >>> 7) &&& 1)) % 2 ^ 8)

namespace CronExpr

def parse5 (minute hour dom month dow : List Char) : Except ParseError CronExpr := do
  let minute ← parseField minute .minute
  let hour ← parseField hour .hour
  let dom ← parseField dom .dom
  let month ← parseField month .month
  let dow ← parseDow dow
  .ok ⟨1, minute, hour % 2 ^ 32, dom % 2 ^ 32, month % 2 ^ 16, dow⟩

def parse6 (second minute hour dom month dow : List Char) : Except ParseError CronExpr := do
  let second ← parseField second .second
  let minute ← parseField minute .minute
  let hour ← parseField hour .hour
  let dom ← parseField dom .dom
  let month ← parseField month .month
  let dow ← parseDow dow
  .ok ⟨second, minute, hour % 2 ^ 32, dom % 2 ^ 32, month % 2 ^ 16, dow⟩

def allHours : Nat := 1 <<< 24 - 1

def allDom : Nat := 0xFFFFFFFE

def allMonths : Nat := 0x1FFE

def allDow : Nat := 0x7F

def parseShortcut (shortcut : List Char) : Except ParseError CronExpr :=
  let lower := shortcut.map Char.toLower
  if lower = "yearly".toList ∨ lower = "annually".toList then
    .ok ⟨1, 1, 1, 1 <<< 1, 1 <<< 1, allDow⟩
  else if lower = "monthly".toList then .ok ⟨1, 1, 1, 1 <<< 1, allMonths, allDow⟩
  else if lower = "weekly".toList then .ok ⟨1, 1, 1, allDom, allMonths, 1⟩
  else if lower = "daily".toList ∨ lower = "midnight".toList then
    .ok ⟨1, 1, 1, allDom, allMonths, allDow⟩
  else if lower = "hourly".toList then .ok ⟨1, 1, allHours, allDom, allMonths, allDow⟩
  else
    let text := String.ofList shortcut
    .error (.rejected s!"unknown shortcut '@{text}'")

def parse (s : List Char) : Except ParseError CronExpr :=
  match trim s with
  | '@' :: shortcut => parseShortcut shortcut
  | trimmed =>
    match splitWhitespace trimmed with
    | [minute, hour, dom, month, dow] => parse5 minute hour dom month dow
    | [second, minute, hour, dom, month, dow] => parse6 second minute hour dom month dow
    | fields =>
      let n := fields.length
      .error (.rejected s!"expected 5 or 6 fields (or @shortcut), got {n}")

end CronExpr

/-! ## What the text of a field says -/

def Progression (start step finish n : Nat) : Prop := ∃ k, n = start + k * step ∧ n ≤ finish

/-- The first value after the end is a number of 32 bits. -/
def Fits (start step finish : Nat) : Prop := start + ((finish - start) / step + 1) * step < 2 ^ 32

namespace Field

inductive Value (f : Field) (s : List Char) : Nat → Prop where
  | named {pos : Nat} : f.names[pos]? = some (s.map Char.toUpper) → f.Value s (f.min + pos)
  | number {v : Nat} : s.map Char.toUpper ∉ f.names → parseU32 s = some v → f.Value s v

/-- The text of an item without its step, and the values it runs from and to. -/
inductive Range (f : Field) : List Char → Option Nat → Nat → Nat → Prop where
  | all (step : Option Nat) : f.Range ['*'] step f.min f.max
  | between {a b : List Char} {x y : Nat} (step : Option Nat) : '-' ∉ a → f.Value a x → f.Value b y →
      f.min ≤ x → x ≤ y → y ≤ f.max → f.Range (a ++ '-' :: b) step x y
  | one {s : List Char} {v : Nat} : s ≠ ['*'] → '-' ∉ s → f.Value s v → f.min ≤ v → v ≤ f.max →
      f.Range s none v v
  | onwards {s : List Char} {v : Nat} (step : Nat) : s ≠ ['*'] → '-' ∉ s → f.Value s v →
      f.min ≤ v → v ≤ f.max → f.Range s (some step) v f.max

inductive Item (f : Field) : List Char → Nat → Nat → Nat → Prop where
  | plain {s : List Char} {start finish : Nat} : '/' ∉ s → f.Range s none start finish →
      f.Item s start 1 finish
  | stepped {r s : List Char} {start step finish : Nat} : '/' ∉ r → parseU32 s = some step →
      0 < step → f.Range r (some step) start finish → f.Item (r ++ '/' :: s) start step finish

def Says (f : Field) (items : List (List Char)) (n : Nat) : Prop :=
  ∃ item ∈ items, ∃ start step finish, f.Item item start step finish ∧
    Progression start step finish n

/-- The items up to the first that says nothing stay within 32 bits. -/
def Fit (f : Field) : List (List Char) → Prop
  | [] => True
  | item :: items => (∀ start step finish, f.Item item start step finish → Fits start step finish) ∧
      ((∃ start step finish, f.Item item start step finish) → f.Fit items)

end Field

/-- An item's values as bits, or an overflow. -/
structure Reads (r : Except ParseError Nat) (start step finish : Nat) : Prop where
  fits : Fits start step finish →
    ∃ bits, r = .ok bits ∧ ∀ n, bits.testBit n = true ↔ Progression start step finish n
  overflows : ¬ Fits start step finish → r = .error .overflow

section

variable {f : Field} {s r item : List Char} {items : List (List Char)}
  {start step finish v n bits : Nat}

theorem progression_cons (h : v ≤ finish) :
    Progression v step finish n ↔ n = v ∨ Progression (v + step) step finish n := by
  constructor
  · rintro ⟨k, hk, hle⟩
    cases k with
    | zero => exact .inl (by omega)
    | succ k => exact .inr ⟨k, by rw [hk, Nat.succ_mul]; omega, hle⟩
  · rintro (rfl | ⟨k, hk, hle⟩)
    · exact ⟨0, by omega, h⟩
    · exact ⟨k + 1, by rw [hk, Nat.succ_mul]; omega, hle⟩

theorem fits_succ (hstep : 0 < step) (h : v + step ≤ finish) :
    Fits v step finish ↔ Fits (v + step) step finish := by
  have hdiv : (finish - v) / step = (finish - (v + step)) / step + 1 := by
    rw [← Nat.add_div_right _ hstep]
    congr 1
    omega
  rw [Fits, Fits, hdiv, Nat.succ_mul _ step]
  omega

theorem fits_last (hstep : 0 < step) (h : finish < v + step) : Fits v step finish ↔ v + step < 2 ^ 32 := by
  rw [Fits, Nat.div_eq_of_lt (by omega), Nat.zero_add, Nat.one_mul]

theorem rangeBits_spec (hstep : 0 < step) (turns bits : Nat) (hturns : finish < v + turns) :
    (v ≤ finish → ¬ Fits v step finish → rangeBits step finish turns v bits = .error .overflow) ∧
      ((v ≤ finish → Fits v step finish) → ∃ r, rangeBits step finish turns v bits = .ok r ∧
        ∀ n, r.testBit n = true ↔ bits.testBit n = true ∨ Progression v step finish n) := by
  induction turns generalizing v bits with
  | zero =>
    refine ⟨fun hle => by omega, fun _ => ⟨bits, rfl, fun n => (or_iff_left ?_).symm⟩⟩
    rintro ⟨k, hk, hle⟩
    omega
  | succ turns ih =>
    rw [rangeBits]
    by_cases hle : v ≤ finish
    · obtain ⟨hover, hok⟩ := ih (v := v + step) (bits ||| 1 <<< v) (by omega)
      have hbit : ∀ n, (bits ||| 1 <<< v).testBit n = true ↔ bits.testBit n = true ∨ n = v := by
        intro n
        rw [Nat.testBit_or, Bool.or_eq_true, Nat.one_shiftLeft, Nat.testBit_two_pow,
          decide_eq_true_eq, eq_comm (a := v)]
      rw [if_pos hle]
      by_cases hsum : v + step < 2 ^ 32
      · rw [if_pos hsum]
        have hnext : v + step ≤ finish → (Fits v step finish ↔ Fits (v + step) step finish) :=
          fits_succ hstep
        refine ⟨fun _ hnot => ?_, fun hfits => ?_⟩
        · by_cases hle' : v + step ≤ finish
          · exact hover hle' fun h => hnot ((hnext hle').mpr h)
          · exact absurd ((fits_last hstep (by omega)).mpr hsum) hnot
        · obtain ⟨r, hr, hbits⟩ := hok fun hle' => (hnext hle').mp (hfits hle)
          refine ⟨r, hr, fun n => ?_⟩
          rw [hbits, hbit, or_assoc, progression_cons hle]
      · rw [if_neg hsum]
        refine ⟨fun _ _ => rfl, fun hfits => absurd ?_ hsum⟩
        have := hfits hle
        rw [Fits, Nat.succ_mul] at this
        have := Nat.zero_le ((finish - v) / step * step)
        omega
    · rw [if_neg hle]
      refine ⟨fun h => absurd h hle, fun _ => ⟨bits, rfl, fun n => (or_iff_left ?_).symm⟩⟩
      rintro ⟨k, hk, hle'⟩
      have := Nat.zero_le (k * step)
      omega

theorem fill_reads (hstep : 0 < step) (hle : start ≤ finish) :
    Reads (fill step start finish) start step finish := by
  obtain ⟨hover, hok⟩ := rangeBits_spec hstep (finish + 1 - start) 0
    (show finish < start + (finish + 1 - start) by omega)
  refine ⟨fun hfits => ?_, hover hle⟩
  obtain ⟨r, hr, hbits⟩ := hok fun _ => hfits
  refine ⟨r, hr, fun n => (hbits n).trans (or_iff_right ?_)⟩
  rw [Nat.zero_testBit]
  exact Bool.false_ne_true

namespace Reads

variable {r : Except ParseError Nat} {b : Nat}

theorem fits_of_ok (h : Reads r start step finish) (hb : r = .ok b) : Fits start step finish := by
  by_contra hnot
  cases hb.symm.trans (h.overflows hnot)

theorem bits_of_ok (h : Reads r start step finish) (hb : r = .ok b) (n : Nat) :
    b.testBit n = true ↔ Progression start step finish n := by
  obtain ⟨b', hb', hbits⟩ := h.fits (h.fits_of_ok hb)
  cases hb.symm.trans hb'
  exact hbits n

theorem not_rejected {m : String} (h : Reads r start step finish) : r ≠ .error (.rejected m) := by
  intro hm
  by_cases hfit : Fits start step finish
  · obtain ⟨b, hb, -⟩ := h.fits hfit
    cases hm.symm.trans hb
  · cases hm.symm.trans (h.overflows hfit)

end Reads

/-! ## What the parser makes of it -/

theorem parseValue_eq_ok : parseValue s f = .ok v ↔ f.Value s v := by
  rw [parseValue]
  split
  · next pos hpos =>
      obtain ⟨hlt, hget, -⟩ := List.idxOf?_eq_some_iff.mp hpos
      have hsome : f.names[pos]? = some (s.map Char.toUpper) := List.getElem?_eq_some_iff.mpr ⟨hlt, hget⟩
      constructor
      · intro h
        cases h
        exact .named hsome
      · intro h
        cases h with
        | @named pos' hpos' =>
          obtain ⟨hlt', hget'⟩ := List.getElem?_eq_some_iff.mp hpos'
          rw [(List.Nodup.getElem_inj_iff f.distinct).mp (hget.trans hget'.symm)]
        | number hnot => exact absurd (List.mem_of_getElem? hsome) hnot
  · next hnone =>
      have hnot := List.idxOf?_eq_none_iff.mp hnone
      constructor
      · intro h
        split at h
        · next hv =>
            cases h
            exact .number hnot hv
        · cases h
      · intro h
        cases h with
        | named hpos => exact absurd (List.mem_of_getElem? hpos) hnot
        | number _ hv => rw [hv]

theorem parseValue_or (s : List Char) (f : Field) :
    (∃ v, f.Value s v) ∨ ∃ m, parseValue s f = .error (.rejected m) := by
  rcases h : parseValue s f with e | v
  · rw [parseValue] at h
    split at h
    · cases h
    · split at h
      · cases h
      · cases h
        exact .inr ⟨_, rfl⟩
  · exact .inl ⟨v, parseValue_eq_ok.mp h⟩

theorem checkValue_eq_ok (h : f.min ≤ v) (h' : v ≤ f.max) : checkValue v f = .ok () :=
  if_neg (by omega)

theorem checkValue_or (v : Nat) (f : Field) :
    (f.min ≤ v ∧ v ≤ f.max) ∨ ∃ m, checkValue v f = .error (.rejected m) := by
  rw [checkValue]
  split
  · exact .inr ⟨_, rfl⟩
  · exact .inl (by omega)

theorem one_reads (h : v < 64) : Reads (.ok (1 <<< v)) v 1 v where
  fits _ := by
    refine ⟨_, rfl, fun n => ?_⟩
    rw [Nat.one_shiftLeft, Nat.testBit_two_pow, decide_eq_true_eq, progression_cons (Nat.le_refl v)]
    refine ⟨fun h => .inl h.symm, ?_⟩
    rintro (rfl | ⟨k, hk, hle⟩)
    · rfl
    · omega
  overflows hnot := absurd ((fits_last Nat.one_pos (Nat.lt_succ_self v)).mpr (by omega)) hnot

theorem Field.Range.bounds {step : Option Nat} (h : f.Range r step start finish) :
    f.min ≤ start ∧ start ≤ finish ∧ finish ≤ f.max := by
  have hbounds := f.bounds
  cases h <;> omega

theorem Field.Range.reads {step : Option Nat} (h : f.Range r step start finish)
    (hstep : 0 < step.getD 1) : Reads (parseRange r step f) start (step.getD 1) finish := by
  obtain ⟨-, hle, -⟩ := h.bounds
  have hfill := fill_reads hstep hle
  cases h with
  | all =>
    rw [parseRange, if_pos rfl]
    exact hfill
  | @between a b x y _ ha hx hy hmin hxy hmax =>
    have hstar : a ++ '-' :: b ≠ ['*'] := by
      cases a with
      | nil => exact fun h => by cases h
      | cons c a => exact fun h => by cases a <;> cases h
    rw [parseRange, if_neg hstar, splitOnce_eq_some.mpr ⟨rfl, ha⟩]
    dsimp only
    rw [parseValue_eq_ok.mpr hx, parseValue_eq_ok.mpr hy]
    change Reads (do checkValue start f; checkValue finish f; _) _ _ _
    rw [checkValue_eq_ok hmin (hxy.trans hmax), checkValue_eq_ok (hmin.trans hxy) hmax]
    change Reads (if finish < start then _ else _) _ _ _
    rw [if_neg (Nat.not_lt.mpr hxy)]
    exact hfill
  | one hstar hdash hv hmin hmax =>
    rw [parseRange, if_neg hstar, splitOnce_eq_none.mpr hdash]
    dsimp only
    rw [parseValue_eq_ok.mpr hv]
    change Reads (do checkValue start f; _) _ _ _
    rw [checkValue_eq_ok hmin hmax]
    exact one_reads (Nat.lt_of_le_of_lt hmax f.bits)
  | onwards _ hstar hdash hv hmin hmax =>
    rw [parseRange, if_neg hstar, splitOnce_eq_none.mpr hdash]
    dsimp only
    rw [parseValue_eq_ok.mpr hv]
    change Reads (do checkValue start f; _) _ _ _
    rw [checkValue_eq_ok hmin hmax]
    exact hfill

theorem parseRange_or (r : List Char) (step : Option Nat) (f : Field) :
    (∃ start finish, f.Range r step start finish) ∨
      ∃ m, parseRange r step f = .error (.rejected m) := by
  by_cases hstar : r = ['*']
  · exact .inl ⟨f.min, f.max, hstar ▸ .all step⟩
  rw [parseRange, if_neg hstar]
  rcases hsplit : splitOnce '-' r with _ | ⟨a, b⟩
  · dsimp only
    have hdash := splitOnce_eq_none.mp hsplit
    rcases parseValue_or r f with ⟨v, hv⟩ | ⟨m, hm⟩
    · rw [parseValue_eq_ok.mpr hv]
      rcases checkValue_or v f with ⟨hmin, hmax⟩ | ⟨m, hm⟩
      · cases step with
        | none => exact .inl ⟨v, v, .one hstar hdash hv hmin hmax⟩
        | some step => exact .inl ⟨v, f.max, .onwards step hstar hdash hv hmin hmax⟩
      · refine .inr ⟨m, ?_⟩
        change (do checkValue v f; _) = _
        rw [hm]
        rfl
    · rw [hm]
      exact .inr ⟨m, rfl⟩
  · dsimp only
    obtain ⟨rfl, hdash⟩ := splitOnce_eq_some.mp hsplit
    rcases parseValue_or a f with ⟨x, hx⟩ | ⟨m, hm⟩
    · rw [parseValue_eq_ok.mpr hx]
      rcases parseValue_or b f with ⟨y, hy⟩ | ⟨m, hm⟩
      · rw [parseValue_eq_ok.mpr hy]
        change (∃ start finish, f.Range (a ++ '-' :: b) step start finish) ∨ ∃ m,
          (checkValue x f >>= fun _ => checkValue y f >>= fun _ => _) = Except.error (.rejected m)
        rcases checkValue_or x f with ⟨hxmin, hxmax⟩ | ⟨m, hm⟩
        · rcases checkValue_or y f with ⟨hymin, hymax⟩ | ⟨m, hm⟩
          · by_cases hxy : y < x
            · rw [checkValue_eq_ok hxmin hxmax, checkValue_eq_ok hymin hymax]
              refine .inr ⟨_, if_pos hxy⟩
            · exact .inl ⟨x, y, .between step hdash hx hy hxmin (Nat.not_lt.mp hxy) hymax⟩
          · rw [checkValue_eq_ok hxmin hxmax, hm]
            exact .inr ⟨m, rfl⟩
        · rw [hm]
          exact .inr ⟨m, rfl⟩
      · rw [hm]
        exact .inr ⟨m, rfl⟩
    · rw [hm]
      exact .inr ⟨m, rfl⟩

theorem Field.Item.bounds (h : f.Item item start step finish) :
    f.min ≤ start ∧ start ≤ finish ∧ finish ≤ f.max := by
  cases h with
  | plain _ h => exact h.bounds
  | stepped _ _ _ h => exact h.bounds

theorem Field.Item.reads (h : f.Item item start step finish) :
    Reads (parseItem item f) start step finish := by
  cases h with
  | plain hslash h =>
    rw [parseItem, splitOnce_eq_none.mpr hslash]
    exact h.reads Nat.one_pos
  | @stepped r s _ _ _ hslash hs hstep h =>
    rw [parseItem, splitOnce_eq_some.mpr ⟨rfl, hslash⟩]
    have hparse : parseStep s f = .ok step := by
      rw [parseStep, hs]
      cases step with
      | zero => exact absurd rfl hstep.ne'
      | succ step => rfl
    dsimp only
    rw [hparse]
    exact h.reads hstep

theorem parseItem_or (item : List Char) (f : Field) :
    (∃ start step finish, f.Item item start step finish) ∨
      ∃ m, parseItem item f = .error (.rejected m) := by
  rw [parseItem]
  rcases hsplit : splitOnce '/' item with _ | ⟨r, s⟩
  · rcases parseRange_or item none f with ⟨start, finish, h⟩ | hm
    · exact .inl ⟨start, 1, finish, .plain (splitOnce_eq_none.mp hsplit) h⟩
    · exact .inr hm
  · obtain ⟨rfl, hslash⟩ := splitOnce_eq_some.mp hsplit
    dsimp only
    rcases hs : parseU32 s with _ | _ | step
    · rw [parseStep, hs]
      exact .inr ⟨_, rfl⟩
    · rw [parseStep, hs]
      exact .inr ⟨_, rfl⟩
    · rcases parseRange_or r (some (step + 1)) f with ⟨start, finish, h⟩ | ⟨m, hm⟩
      · exact .inl ⟨start, step + 1, finish, .stepped hslash hs (Nat.succ_pos step) h⟩
      · rw [parseStep, hs]
        exact .inr ⟨m, hm⟩

theorem Field.Item.ne_nil (h : f.Item item start step finish) : item ≠ [] := by
  rintro rfl
  generalize hitem : ([] : List Char) = item at h
  cases h with
  | plain _ h =>
    subst hitem
    generalize hitem : ([] : List Char) = item at h
    cases h with
    | all => cases hitem
    | between => exact absurd hitem (by simp)
    | one _ _ hv =>
      subst hitem
      generalize hitem : ([] : List Char) = item at hv
      cases hv with
      | named hpos =>
        subst hitem
        exact f.spelled (List.mem_of_getElem? hpos)
      | number _ hv =>
        subst hitem
        cases hv
  | stepped => exact absurd hitem (by simp)

/-- The items are accepted as far as they say something, and overflow where one does not
fit. -/
theorem parseItems_spec (f : Field) (items : List (List Char)) (bits : Nat) :
    (f.Fit items ↔ parseItems f items bits ≠ .error .overflow) ∧
      (∀ r, parseItems f items bits = .ok r →
        (∀ item ∈ items, ∃ start step finish, f.Item item start step finish) ∧
          ∀ n, r.testBit n = true ↔ bits.testBit n = true ∨ f.Says items n) ∧
      (∀ m, parseItems f items bits = .error (.rejected m) →
        ∃ item ∈ items, ∀ start step finish, ¬ f.Item item start step finish) := by
  induction items generalizing bits with
  | nil =>
    refine ⟨iff_of_true trivial nofun, fun r hr => ⟨?_, fun n => ?_⟩,
      nofun⟩
    · exact nofun
    · cases hr
      refine (or_iff_left ?_).symm
      rintro ⟨item, hitem, -⟩
      exact List.not_mem_nil hitem
  | cons item items ih =>
    rcases parseItem_or item f with ⟨start, step, finish, hitem⟩ | ⟨m, hm⟩
    · obtain ⟨hfits, hover⟩ := hitem.reads
      rw [parseItems, if_neg hitem.ne_nil]
      by_cases hfit : Fits start step finish
      · obtain ⟨b, hb, hbits⟩ := hfits hfit
        obtain ⟨hfit', hok, hrej⟩ := ih (bits ||| b)
        rw [hb]
        change (_ ↔ parseItems f items (bits ||| b) ≠ _) ∧
          (∀ r, parseItems f items (bits ||| b) = _ → _) ∧
            ∀ m, parseItems f items (bits ||| b) = _ → _
        refine ⟨?_, fun r hr => ?_, fun m hm => ?_⟩
        · rw [← hfit']
          refine ⟨fun h => h.2 ⟨start, step, finish, hitem⟩, fun h => ⟨?_, fun _ => h⟩⟩
          exact fun start' step' finish' hitem' => hitem'.reads.fits_of_ok hb
        · obtain ⟨hall, hsaid⟩ := hok r hr
          refine ⟨List.forall_mem_cons.mpr ⟨⟨start, step, finish, hitem⟩, hall⟩, fun n => ?_⟩
          rw [hsaid, Nat.testBit_or, Bool.or_eq_true, hbits, or_assoc]
          refine or_congr_right ⟨?_, ?_⟩
          · rintro (hprog | ⟨item', hmem, hsaid'⟩)
            · exact ⟨item, List.mem_cons_self, start, step, finish, hitem, hprog⟩
            · exact ⟨item', List.mem_cons_of_mem _ hmem, hsaid'⟩
          · rintro ⟨item', hmem, start', step', finish', hitem', hprog⟩
            rcases List.mem_cons.mp hmem with rfl | hmem
            · -- the bits of an item are those of each reading of it
              exact .inl ((hbits n).mp ((hitem'.reads.bits_of_ok hb n).mpr hprog))
            · exact .inr ⟨item', hmem, start', step', finish', hitem', hprog⟩
        · obtain ⟨item', hmem, hnot⟩ := hrej m hm
          exact ⟨item', List.mem_cons_of_mem _ hmem, hnot⟩
      · rw [hover hfit]
        refine ⟨iff_of_false (fun h => hfit (h.1 _ _ _ hitem)) fun h => h rfl,
          nofun, nofun⟩
    · -- an item that says nothing is rejected, and ends the loop
      have hnone : ∀ start step finish, ¬ f.Item item start step finish :=
        fun _ _ _ h => h.reads.not_rejected hm
      have hrej : ∃ m, parseItems f (item :: items) bits = .error (.rejected m) := by
        rw [parseItems]
        split
        · exact ⟨_, rfl⟩
        · rw [hm]
          exact ⟨m, rfl⟩
      obtain ⟨m', hrej⟩ := hrej
      rw [hrej]
      refine ⟨iff_of_true ⟨fun _ _ _ h => absurd h (hnone _ _ _), ?_⟩ nofun,
        nofun, fun _ _ => ⟨item, List.mem_cons_self, hnone⟩⟩
      rintro ⟨start, step, finish, h⟩
      exact absurd h (hnone _ _ _)

/-- A field denotes the values that its items say, each of them one of the field. -/
structure Field.Denoted (f : Field) (field : List Char) : Prop where
  noOverflow : parseField field f ≠ .error .overflow
  bits : ∀ r, parseField field f = .ok r → ∀ n, r.testBit n = true ↔ f.Says (field.splitOn ',') n
  range : ∀ r, parseField field f = .ok r → ∀ n, r.testBit n = true → f.min ≤ n ∧ n ≤ f.max
  accepted : (∃ r, parseField field f = .ok r) ↔
    ∀ item ∈ field.splitOn ',', ∃ start step finish, f.Item item start step finish

def Folded (field : List Char) (r : Nat) : Prop :=
  ∃ bits, parseField field .dow = .ok bits ∧
    ∀ n, r.testBit n = true ↔ n < 7 ∧ (bits.testBit n = true ∨ n = 0 ∧ bits.testBit 7 = true)

theorem parseField_eq (f : Field) (field : List Char) :
    parseField field f = parseItems f (field.splitOn ',') 0 := by
  rcases h : parseItems f (field.splitOn ',') 0 with e | bits
  · rw [parseField, h]
    rfl
  · obtain ⟨hall, hbits⟩ := (parseItems_spec f _ 0).2.1 bits h
    obtain ⟨item, hmem⟩ := List.exists_mem_of_ne_nil _ (List.splitOn_ne_nil ',' field)
    obtain ⟨start, step, finish, hitem⟩ := hall item hmem
    have hbit : bits.testBit start = true := (hbits start).mpr (.inr ⟨item, hmem, start, step, finish,
      hitem, 0, by omega, hitem.bounds.2.1⟩)
    have hne : bits ≠ 0 := by
      rintro rfl
      rw [Nat.zero_testBit] at hbit
      cases hbit
    rw [parseField, h]
    exact if_neg hne

theorem Field.Says.bounds (h : f.Says items n) : f.min ≤ n ∧ n ≤ f.max := by
  obtain ⟨item, -, start, step, finish, hitem, k, hk, hle⟩ := h
  obtain ⟨hmin, -, hmax⟩ := hitem.bounds
  have := Nat.zero_le (k * step)
  omega

theorem parseDow_folded {field : List Char} {r : Nat} (h : parseDow field = .ok r) :
    Folded field r := by
  rw [parseDow] at h
  rcases hbits : parseField field .dow with e | bits
  · rw [hbits] at h
    cases h
  · rw [hbits] at h
    cases h
    refine ⟨bits, hbits, fun n => ?_⟩
    have hlow : (0x7F : Nat).testBit n = decide (n < 7) := Nat.testBit_two_pow_sub_one 7 n
    have hone : (1 : Nat).testBit n = decide (n < 1) := Nat.testBit_two_pow_sub_one 1 n
    rw [Nat.testBit_mod_two_pow, Nat.testBit_or, Nat.testBit_and, Nat.testBit_and,
      Nat.testBit_shiftRight, hlow, hone, Bool.and_eq_true, Bool.or_eq_true, Bool.and_eq_true,
      Bool.and_eq_true, decide_eq_true_eq, decide_eq_true_eq, decide_eq_true_eq]
    constructor
    · rintro ⟨-, ⟨hbit, hlt⟩ | ⟨hbit, hlt⟩⟩
      · exact ⟨hlt, .inl hbit⟩
      · obtain rfl : n = 0 := by omega
        exact ⟨by omega, .inr ⟨rfl, hbit⟩⟩
    · rintro ⟨hlt, hbit | ⟨rfl, hbit⟩⟩
      · exact ⟨by omega, .inl ⟨hbit, hlt⟩⟩
      · exact ⟨by omega, .inr ⟨hbit, by omega⟩⟩

/-- A field denotes what its text says exactly where its items stay within 32 bits; and
Sunday as the day 7 is the day 0. -/
theorem field_denoted_iff (f : Field) (field : List Char) :
    (f.Denoted field ∧ ∀ r, parseDow field = .ok r → Folded field r) ↔
      f.Fit (field.splitOn ',') := by
  obtain ⟨hfit, hok, hrej⟩ := parseItems_spec f (field.splitOn ',') 0
  rw [← parseField_eq] at hfit hok hrej
  have hbits : ∀ r, parseField field f = .ok r →
      ∀ n, r.testBit n = true ↔ f.Says (field.splitOn ',') n := by
    intro r hr n
    rw [(hok r hr).2 n, Nat.zero_testBit]
    exact or_iff_right Bool.false_ne_true
  constructor
  · exact fun h => hfit.mpr h.1.noOverflow
  · intro h
    refine ⟨⟨hfit.mp h, hbits, fun r hr n hn => ((hbits r hr n).mp hn).bounds, ?_⟩,
      fun r => parseDow_folded⟩
    constructor
    · rintro ⟨r, hr⟩
      exact (hok r hr).1
    · intro hall
      rcases hr : parseField field f with e | r
      · cases e with
        | rejected m =>
          obtain ⟨item, hmem, hnot⟩ := hrej m hr
          obtain ⟨start, step, finish, hitem⟩ := hall item hmem
          exact absurd hitem (hnot _ _ _)
        | overflow => exact absurd hr (hfit.mp h)
      · exact ⟨r, rfl⟩

/-- A step that takes the cursor from the first day beyond 32 bits. -/
theorem hugeStep_not_denoted : ¬ ∀ (f : Field) (field : List Char),
    f.Denoted field ∧ ∀ r, parseDow field = .ok r → Folded field r :=
  fun h => (h .dom "1/4294967295".toList).1.noOverflow rfl

end

end Hardy.Tvr
