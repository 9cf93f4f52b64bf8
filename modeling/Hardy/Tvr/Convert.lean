import Hardy.Tvr.Checked
import Hardy.Tvr.CronText

/-!
# Contacts from outside

Model of the fields of a contact in a plan file (`tvr/src/parser.rs`) and of the
conversion of a contact from the wire (`tvr/src/server.rs`), with their times and
durations.  The texts of endpoints, times and durations are read by functions given as
parameters (`Readers`).  Where a sum leaves the calendar both panic, as `ingest` does: a
contact gets from its text or message through every event that is due exactly if the sums
of `Submission.Fits` have a date.
-/

namespace Hardy.Tvr

inductive Failure where
  | rejected (message : String)
  | panicked (p : Panic)
deriving DecidableEq

/-- The readers of `hardy_eid_patterns`, `hardy_bpv7`, `time` and `humantime`, and what a
second out of range is told.  A time is read with its offset from UTC, a duration as its
nanoseconds. -/
structure Readers (π ε ρ : Type) where
  pattern : String → Except String π
  eid : String → Except String ε
  reason : Nat → Except String ρ
  rfc3339 : String → Except String (Int × Int)
  humantime : String → Except String Nat
  secondRange : String

inductive RouteAction (ε ρ : Type) where
  | via (eid : ε)
  | drop (reason : Option ρ)
deriving DecidableEq

section

variable {π ε ρ α β : Type}

def orReject (message : String → String) (r : Except String α) : Except Failure α :=
  r.mapError fun e => .rejected (message e)

def orPanic (r : Except Panic α) : Except Failure α := r.mapError .panicked

def transpose (f : α → Except Failure β) : Option α → Except Failure (Option β)
  | none => .ok none
  | some a => (f a).map some

def readCron (message : String → String) (text : String) : Except Failure CronExpr :=
  match CronExpr.parse text.toList with
  | .ok cron => .ok cron
  | .error (.rejected e) => .error (.rejected (message e))
  | .error .overflow => .error (.panicked .intOverflow)

/-- A window with both ends ends after its start. -/
def oneShot (start finish : Option Int) : Except Failure Schedule :=
  if start.any fun s => finish.any (· ≤ s) then
    .error (.rejected "'end' must be after 'start'")
  else .ok (.oneShot start finish)

/-! ## From the wire -/

namespace Proto

structure Timestamp where
  seconds : Int
  nanos : Int

structure Duration where
  seconds : Int
  nanos : Int

inductive Action where
  | via (eid : String)
  | drop (reasonCode : Nat)

inductive Schedule where
  | oneShot (start finish : Option Timestamp)
  | recurring (cron : String) (duration : Option Duration) (untilTime : Option Timestamp)

structure Contact where
  eidPattern : String
  priority : Option Nat
  action : Option Action
  schedule : Option Schedule
  bandwidthBps : Option Nat
  delayUs : Option Nat

variable (read : Readers π ε ρ)

def convertTimestamp (t : Timestamp) : Except Failure Int :=
  if InCalendar (t.seconds * 1000000000) then orPanic (Checked.add (t.seconds * 1000000000) t.nanos)
  else
    let e := read.secondRange
    .error (.rejected s!"invalid timestamp: {e}")

def convertDuration (d : Duration) : Except Failure Nat :=
  if d.seconds < 0 || d.nanos < 0 || 999999999 < d.nanos then
    .error (.rejected "duration must be positive")
  else .ok (d.seconds * 1000000000 + d.nanos).toNat

def convertAction : Option Action → Except Failure (RouteAction ε ρ)
  | some (.via eid) =>
    (orReject (fun e => s!"invalid next-hop EID: {e}") (read.eid eid)).map .via
  | some (.drop reasonCode) =>
    if reasonCode = 0 then .ok (.drop none)
    else
      (orReject (fun e => s!"invalid reason code: {e}") (read.reason reasonCode)).map
        fun reason => .drop (some reason)
  | none => .error (.rejected "contact must have an action")

def convertSchedule : Option Schedule → Except Failure Tvr.Schedule
  | some (.oneShot start finish) => do
      let start ← transpose (convertTimestamp read) start
      let finish ← transpose (convertTimestamp read) finish
      Tvr.oneShot start finish
  | some (.recurring cron duration untilTime) => do
      let cron ← readCron (fun e => s!"invalid cron: {e}") cron
      match ← transpose convertDuration duration with
      | none => .error (.rejected "recurring contact requires duration")
      | some duration =>
        if duration = 0 then .error (.rejected "duration must be greater than zero")
        else (transpose (convertTimestamp read) untilTime).map (.recurring cron duration)
  | none => .ok .permanent

def convertContact (proto : Contact) : Except Failure (Tvr.Contact π (RouteAction ε ρ)) := do
  let pattern ← orReject (fun e => s!"invalid EID pattern: {e}") (read.pattern proto.eidPattern)
  let action ← convertAction read proto.action
  let schedule ← convertSchedule read proto.schedule
  .ok ⟨pattern, action, proto.priority, schedule, proto.bandwidthBps, proto.delayUs⟩

end Proto

/-! ## From a plan file -/

namespace Plan

inductive Action where
  | via (eid : String)
  | drop (code : Option String)

inductive FieldText where
  | priority (text : String)
  | start (text : String)
  | finish (text : String)
  | cron (text : String)
  | duration (text : String)
  | untilTime (text : String)
  | bandwidth (text : String)
  | delay (text : String)

inductive Field where
  | priority (value : Nat)
  | start (value : Int)
  | finish (value : Int)
  | cron (value : CronExpr)
  | duration (value : Nat)
  | untilTime (value : Int)
  | bps (value : Nat)
  | delay (value : Nat)

structure ContactFields where
  priority : Option Nat
  start : Option Int
  finish : Option Int
  cron : Option CronExpr
  duration : Option Nat
  untilTime : Option Int
  bps : Option Nat
  delay : Option Nat

structure Line where
  pattern : String
  action : Action
  fields : List FieldText

def bandwidthUnits : List (String × Nat) :=
  [("TBPS", 1000000000000), ("T", 1000000000000), ("GBPS", 1000000000), ("G", 1000000000),
    ("MBPS", 1000000), ("M", 1000000), ("KBPS", 1000), ("K", 1000), ("BPS", 1)]

def parseBandwidth (s : String) : Except String Nat :=
  let upper := s.toList.map Char.toUpper
  let (num, multiplier) := (bandwidthUnits.findSome? fun u =>
    (u.1.toList.isSuffixOf? upper).map fun num => (num, u.2)).getD (upper, 1)
  match parseUint (2 ^ 64) num with
  | none => .error s!"'{s}' is not a valid bandwidth"
  | some n =>
    if n * multiplier < 2 ^ 64 then .ok (n * multiplier) else .error s!"'{s}' overflows u64"

variable (read : Readers π ε ρ)

def toUtc (wall offset : Int) : Except Panic Int := Checked.add wall (-offset)

def rfc3339Timestamp (s : String) : Except Failure Int := do
  let (wall, offset) ← orReject (fun e => s!"invalid RFC 3339 timestamp: {e}") (read.rfc3339 s)
  orPanic (toUtc wall offset)

def durationValue (s : String) : Except Failure Nat := do
  let d ← orReject (fun e => s!"invalid duration: {e}") (read.humantime s)
  if d = 0 then .error (.rejected "duration must be greater than zero") else .ok d

def tooLarge : String := "number too large to fit in target type"

def delayValue (s : String) : Except Failure Nat := do
  let d ← orReject (fun e => s!"invalid delay: {e}") (read.humantime s)
  let us := d / 1000
  if us < 2 ^ 32 then .ok us
  else .error (.rejected s!"delay too large: {us}us exceeds u32 range")

def priorityValue (s : String) : Except Failure Nat :=
  match parseUint (2 ^ 32) s.toList with
  | some n => .ok n
  | none =>
    let e := tooLarge
    .error (.rejected s!"invalid priority: {e}")

def field : FieldText → Except Failure Field
  | .priority s => (priorityValue s).map .priority
  | .start s => (rfc3339Timestamp read s).map .start
  | .finish s => (rfc3339Timestamp read s).map .finish
  | .cron s => (readCron (fun e => s!"invalid cron expression: {e}") s).map .cron
  | .duration s => (durationValue read s).map .duration
  | .untilTime s => (rfc3339Timestamp read s).map .untilTime
  | .bandwidth s => (orReject (fun e => s!"invalid bandwidth: {e}") (parseBandwidth s)).map .bps
  | .delay s => (delayValue read s).map .delay

def once (name : String) (old : Option α) (fields : ContactFields) : Except Failure ContactFields :=
  if old.isSome then .error (.rejected s!"duplicate '{name}' field") else .ok fields

def ContactFields.add (cf : ContactFields) : Field → Except Failure ContactFields
  | .priority v => once "priority" cf.priority { cf with priority := some v }
  | .start v => once "start" cf.start { cf with start := some v }
  | .finish v => once "end" cf.finish { cf with finish := some v }
  | .cron v => once "cron" cf.cron { cf with cron := some v }
  | .duration v => once "duration" cf.duration { cf with duration := some v }
  | .untilTime v => once "until" cf.untilTime { cf with untilTime := some v }
  | .bps v => once "bps" cf.bps { cf with bps := some v }
  | .delay v => once "delay" cf.delay { cf with delay := some v }

def contactFields (fields : List FieldText) : Except Failure ContactFields := do
  let fields ← fields.mapM (field read)
  fields.foldlM ContactFields.add ⟨none, none, none, none, none, none, none, none⟩

def resolveSchedule (cf : ContactFields) : Except Failure Schedule :=
  let hasOneshot := cf.start.isSome || cf.finish.isSome
  let hasRecurring := cf.cron.isSome || cf.duration.isSome
  if hasOneshot && hasRecurring then
    .error (.rejected "cannot mix one-shot (start/end) and recurring (cron/duration) fields")
  else if cf.untilTime.isSome && !hasRecurring then
    .error (.rejected "'until' requires 'cron' (recurring schedule)")
  else if hasRecurring then
    match cf.cron, cf.duration with
    | none, _ => .error (.rejected "'duration' requires 'cron' expression")
    | some _, none => .error (.rejected "'cron' requires 'duration' field")
    | some cron, some duration => .ok (.recurring cron duration cf.untilTime)
  else if hasOneshot then oneShot cf.start cf.finish
  else .ok .permanent

def action : Action → Except Failure (RouteAction ε ρ)
  | .via eid => (orReject (fun e => s!"invalid next-hop EID: {e}") (read.eid eid)).map .via
  | .drop none => .ok (.drop none)
  | .drop (some code) =>
    match parseUint (2 ^ 64) code.toList with
    | some n =>
      (orReject (fun e => s!"invalid reason code: {e}") (read.reason n)).map
        fun reason => .drop (some reason)
    | none =>
      let e := tooLarge
      .error (.rejected s!"invalid reason code: {e}")

def contact (line : Line) : Except Failure (Contact π (RouteAction ε ρ)) := do
  let pattern ← orReject (fun e => s!"invalid EID pattern: {e}") (read.pattern line.pattern)
  let action ← action read line.action
  let fields ← contactFields read line.fields
  let schedule ← resolveSchedule fields
  .ok ⟨pattern, action, fields.priority, schedule, fields.bps, fields.delay⟩

end Plan

end

/-! ## What does not panic -/

section

variable {π ε ρ α β : Type}

def NoPanic (r : Except Failure α) : Prop := ∀ p, r ≠ .error (.panicked p)

@[simp] theorem noPanic_ok (a : α) : NoPanic (.ok a : Except Failure α) := fun _ h => by cases h

@[simp] theorem noPanic_rejected (message : String) :
    NoPanic (.error (.rejected message) : Except Failure α) := fun _ h => by cases h

@[simp] theorem noPanic_panicked (p : Panic) :
    ¬ NoPanic (.error (.panicked p) : Except Failure α) := fun h => h p rfl

variable {f : α → Except Failure β}

theorem noPanic_bind {r : Except Failure α} :
    NoPanic (r >>= f) ↔ NoPanic r ∧ ∀ a, r = .ok a → NoPanic (f a) := by
  unfold NoPanic
  simp only [ne_eq, Fold.bind_error, not_or, not_exists, not_and]
  exact ⟨fun h => ⟨fun p => (h p).1, fun a ha p => (h p).2 a ha⟩,
    fun h p => ⟨h.1 p, fun a ha => h.2 a ha p⟩⟩

@[simp] theorem noPanic_map {r : Except Failure α} {f : α → β} :
    NoPanic (r.map f) ↔ NoPanic r := by
  cases r with
  | error x => exact ⟨fun h p hp => h p (by cases hp; rfl), fun h p hp => h p (by cases hp; rfl)⟩
  | ok a => exact iff_of_true (noPanic_ok _) (noPanic_ok _)

variable {message : String → String}

@[simp] theorem noPanic_orReject {r : Except String α} : NoPanic (orReject message r) := by
  cases r with
  | error e => exact noPanic_rejected _
  | ok a => exact noPanic_ok a

theorem orReject_ok {r : Except String α} {a : α} :
    orReject message r = .ok a ↔ r = .ok a := Fold.mapError_ok

theorem noPanic_orPanic {r : Except Panic α} : NoPanic (orPanic r) ↔ ∃ a, r = .ok a := by
  cases r with
  | error p => exact iff_of_false (noPanic_panicked p) fun ⟨_, h⟩ => by cases h
  | ok a => exact iff_of_true (noPanic_ok a) ⟨a, rfl⟩

theorem noPanic_transpose {o : Option α} : NoPanic (transpose f o) ↔ ∀ a ∈ o, NoPanic (f a) := by
  cases o with
  | none => exact iff_of_true (noPanic_ok none) fun _ h => by cases h
  | some a =>
    rw [transpose, noPanic_map]
    exact ⟨fun h _ ha => Option.some.inj ha ▸ h, fun h => h a rfl⟩

theorem transpose_ok {o : Option α} : (∃ r, transpose f o = .ok r) ↔ ∀ a ∈ o, ∃ b, f a = .ok b := by
  cases o with
  | none => exact iff_of_true ⟨none, rfl⟩ fun _ h => by cases h
  | some a =>
    simp only [transpose, Fold.map_ok]
    refine ⟨fun ⟨_, b, hb, _⟩ _ ha => ⟨b, Option.some.inj ha ▸ hb⟩, fun h => ?_⟩
    obtain ⟨b, hb⟩ := h a rfl
    exact ⟨some b, b, hb, rfl⟩

theorem noPanic_mapM {l : List α} :
    NoPanic (l.mapM f) ↔ ∀ pre a post, l = pre ++ a :: post → (∀ b ∈ pre, ∃ v, f b = .ok v) →
      NoPanic (f a) := by
  induction l with
  | nil =>
    refine iff_of_true (noPanic_ok []) fun pre a post h => ?_
    exact absurd h.symm (List.append_ne_nil_of_right_ne_nil _ (List.cons_ne_nil _ _))
  | cons x l ih =>
    rw [List.mapM_cons, noPanic_bind]
    constructor
    · rintro ⟨hx, hl⟩ pre a post heq hpre
      rcases List.cons_eq_append_iff.mp heq with ⟨rfl, hcons⟩ | ⟨pre, rfl, rfl⟩
      · cases hcons
        exact hx
      · obtain ⟨v, hv⟩ := hpre x List.mem_cons_self
        refine ih.mp (noPanic_bind.mp (hl v hv)).1 pre a post rfl fun b hb => ?_
        exact hpre b (List.mem_cons_of_mem _ hb)
    · intro h
      refine ⟨h [] x l rfl nofun, fun v hv => noPanic_bind.mpr ⟨?_, ?_⟩⟩
      · refine ih.mpr fun pre a post heq hpre => h (x :: pre) a post (heq ▸ rfl) ?_
        exact List.forall_mem_cons.mpr ⟨⟨v, hv⟩, hpre⟩
      · exact fun _ _ => noPanic_ok _

theorem noPanic_readCron {text : String} :
    NoPanic (readCron message text) ↔ CronExpr.parse text.toList ≠ .error .overflow := by
  unfold readCron
  rcases CronExpr.parse text.toList with (_ | _) | _ <;> simp

theorem readCron_ok {text : String} {cron : CronExpr} :
    readCron message text = .ok cron ↔ CronExpr.parse text.toList = .ok cron := by
  unfold readCron
  rcases CronExpr.parse text.toList with (_ | _) | _ <;> simp

@[simp] theorem noPanic_oneShot (start finish : Option Int) : NoPanic (oneShot start finish) := by
  unfold oneShot
  split <;> simp

end

/-! ## Sums of a conversion -/

namespace Proto

def Timestamp.Fits (t : Timestamp) : Prop :=
  InCalendar (t.seconds * 1000000000) → InCalendar (t.seconds * 1000000000 + t.nanos)

/-- Positive, and with nanoseconds of less than a second. -/
structure Duration.Accepted (d : Duration) : Prop where
  seconds : 0 ≤ d.seconds
  nanos : 0 ≤ d.nanos ∧ d.nanos ≤ 999999999
  pos : 0 < d.seconds * 1000000000 + d.nanos

/-- The times that are read fit.  What follows something that is rejected is not read. -/
def Schedule.Fits : Schedule → Prop
  | .oneShot start finish => (∀ t ∈ start, t.Fits) ∧
      ((∀ t ∈ start, InCalendar (t.seconds * 1000000000)) → ∀ t ∈ finish, t.Fits)
  | .recurring cron duration untilTime => CronExpr.parse cron.toList ≠ .error .overflow ∧
      ((∃ c, CronExpr.parse cron.toList = .ok c) → (∃ d ∈ duration, d.Accepted) →
        ∀ t ∈ untilTime, t.Fits)

variable {π ε ρ : Type} (read : Readers π ε ρ)

def Contact.Fits (proto : Contact) : Prop :=
  (∃ p, read.pattern proto.eidPattern = .ok p) → (∃ a, convertAction read proto.action = .ok a) →
    ∀ s ∈ proto.schedule, s.Fits

variable {read}

theorem noPanic_convertTimestamp {t : Timestamp} :
    NoPanic (convertTimestamp read t) ↔ t.Fits := by
  unfold convertTimestamp Timestamp.Fits
  split
  · next h => simp [noPanic_orPanic, Checked.add_ok, h]
  · next h => simp [h]

theorem convertTimestamp_ok {t : Timestamp} (h : t.Fits) :
    (∃ u, convertTimestamp read t = .ok u) ↔ InCalendar (t.seconds * 1000000000) := by
  unfold convertTimestamp
  split
  · next hin =>
      rw [Checked.add_of_inCalendar (h hin)]
      exact iff_of_true ⟨_, rfl⟩ hin
  · next hout => exact iff_of_false (fun ⟨_, h⟩ => by cases h) hout

theorem noPanic_transposeTimestamp {o : Option Timestamp} :
    NoPanic (transpose (convertTimestamp read) o) ↔ ∀ t ∈ o, t.Fits := by
  simp only [noPanic_transpose, noPanic_convertTimestamp]

theorem noPanic_convertDuration {d : Duration} : NoPanic (convertDuration d) := by
  unfold convertDuration
  split <;> simp

theorem convertDuration_ok {o : Option Duration} :
    (∃ d, transpose convertDuration o = .ok (some d) ∧ d ≠ 0) ↔ ∃ d ∈ o, d.Accepted := by
  cases o with
  | none =>
    refine iff_of_false (fun ⟨d, h, _⟩ => ?_) fun ⟨d, h, _⟩ => (by cases h)
    cases h
  | some d =>
    simp only [transpose, Fold.map_ok, convertDuration]
    split
    · next hneg =>
        refine iff_of_false (fun ⟨_, ⟨_, h, _⟩, _⟩ => by cases h) ?_
        rintro ⟨_, ⟨⟩, hsec, ⟨hlo, hhi⟩, -⟩
        simp only [Bool.or_eq_true, decide_eq_true_eq] at hneg
        omega
    · next hpos =>
        simp only [Bool.or_eq_true, decide_eq_true_eq] at hpos
        constructor
        · rintro ⟨_, ⟨_, h, h'⟩, hne⟩
          cases h
          cases h'
          exact ⟨d, rfl, by omega, ⟨by omega, by omega⟩, by omega⟩
        · rintro ⟨_, ⟨⟩, -, -, hpos⟩
          exact ⟨_, ⟨_, rfl, rfl⟩, by omega⟩

theorem noPanic_convertSchedule {o : Option Schedule} :
    NoPanic (convertSchedule read o) ↔ ∀ s ∈ o, s.Fits := by
  rcases o with _ | ⟨start, finish⟩ | ⟨cron, duration, untilTime⟩
  · exact iff_of_true (noPanic_ok _) fun _ h => by cases h
  · simp only [convertSchedule, noPanic_bind, noPanic_transposeTimestamp, noPanic_oneShot,
      implies_true, and_true, Option.mem_some_iff, forall_eq', Schedule.Fits]
    refine and_congr_right fun hstart => ?_
    have hok : (∃ r, transpose (convertTimestamp read) start = .ok r) ↔
        ∀ t ∈ start, InCalendar (t.seconds * 1000000000) := by
      rw [transpose_ok]
      exact forall₂_congr fun t ht => convertTimestamp_ok (hstart t ht)
    rw [← hok]
    exact ⟨fun h ⟨r, hr⟩ => h r hr, fun h r hr => h ⟨r, hr⟩⟩
  · simp only [convertSchedule, noPanic_bind, noPanic_readCron, readCron_ok, Option.mem_some_iff,
      forall_eq', Schedule.Fits]
    refine and_congr_right fun _ => ?_
    have hduration : NoPanic (transpose convertDuration duration) :=
      noPanic_transpose.mpr fun d _ => noPanic_convertDuration
    simp only [hduration, true_and]
    rw [← convertDuration_ok]
    constructor
    · rintro h ⟨c, hc⟩ ⟨d, hd, hne⟩
      have hnext := h c hc (some d) hd
      dsimp only at hnext
      rw [if_neg hne, noPanic_map] at hnext
      exact noPanic_transposeTimestamp.mp hnext
    · intro h c hc o ho
      cases o with
      | none => exact noPanic_rejected _
      | some d =>
        dsimp only
        split
        · exact noPanic_rejected _
        · next hne =>
            rw [noPanic_map]
            exact noPanic_transposeTimestamp.mpr (h ⟨c, hc⟩ ⟨d, ho, hne⟩)

theorem noPanic_convertAction {a : Option Action} : NoPanic (convertAction read a) := by
  rcases a with _ | _ | _
  · exact noPanic_rejected _
  · simp [convertAction]
  · simp only [convertAction]
    split <;> simp

theorem noPanic_convertContact {proto : Contact} :
    NoPanic (convertContact read proto) ↔ proto.Fits read := by
  simp only [convertContact, noPanic_bind, noPanic_orReject, orReject_ok, noPanic_convertAction,
    noPanic_convertSchedule, noPanic_ok, implies_true, and_true, true_and, Contact.Fits]
  exact ⟨fun h ⟨p, hp⟩ ⟨a, ha⟩ => h p hp a ha, fun h p hp a ha => h ⟨p, hp⟩ ⟨a, ha⟩⟩

end Proto

namespace Plan

variable {π ε ρ : Type} (read : Readers π ε ρ)

/-- The time in UTC is in the calendar, and the cursor of an expression is of 32 bits. -/
def FieldText.Fits : FieldText → Prop
  | .start s | .finish s | .untilTime s => ∀ wall offset, read.rfc3339 s = .ok (wall, offset) →
      InCalendar (wall + -offset)
  | .cron s => CronExpr.parse s.toList ≠ .error .overflow
  | _ => True

def Line.Fits (line : Line) : Prop :=
  (∃ p, read.pattern line.pattern = .ok p) → (∃ a, Plan.action read line.action = .ok a) →
    ∀ pre f post, line.fields = pre ++ f :: post → (∀ g ∈ pre, ∃ v, field read g = .ok v) →
      f.Fits read

variable {read}

theorem noPanic_rfc3339Timestamp {s : String} : NoPanic (rfc3339Timestamp read s) ↔
    ∀ wall offset, read.rfc3339 s = .ok (wall, offset) → InCalendar (wall + -offset) := by
  simp [rfc3339Timestamp, noPanic_bind, orReject_ok, noPanic_orPanic, toUtc, Checked.add_ok]

theorem noPanic_field {f : FieldText} : NoPanic (field read f) ↔ f.Fits read := by
  cases f with
  | start s => exact noPanic_map.trans noPanic_rfc3339Timestamp
  | finish s => exact noPanic_map.trans noPanic_rfc3339Timestamp
  | untilTime s => exact noPanic_map.trans noPanic_rfc3339Timestamp
  | cron s => exact noPanic_map.trans noPanic_readCron
  | priority s =>
    refine iff_of_true (noPanic_map.mpr ?_) trivial
    unfold priorityValue
    split <;> simp
  | duration s =>
    refine iff_of_true (noPanic_map.mpr (noPanic_bind.mpr ⟨noPanic_orReject, ?_⟩)) trivial
    intro d _
    split <;> simp
  | bandwidth s => exact iff_of_true (noPanic_map.mpr noPanic_orReject) trivial
  | delay s =>
    refine iff_of_true (noPanic_map.mpr (noPanic_bind.mpr ⟨noPanic_orReject, ?_⟩)) trivial
    intro d _
    dsimp only
    split <;> simp

theorem noPanic_once {α : Type} {name : String} {old : Option α} {cf : ContactFields} :
    NoPanic (once name old cf) := by
  unfold once
  split <;> simp

theorem noPanic_add {fs : List Field} {cf : ContactFields} :
    NoPanic (fs.foldlM ContactFields.add cf) := by
  induction fs generalizing cf with
  | nil => exact noPanic_ok cf
  | cons f fs ih =>
    rw [List.foldlM_cons, noPanic_bind]
    refine ⟨?_, fun _ _ => ih⟩
    cases f <;> exact noPanic_once

theorem noPanic_resolveSchedule {cf : ContactFields} : NoPanic (resolveSchedule cf) := by
  unfold resolveSchedule
  dsimp only
  repeat' split
  all_goals simp

theorem noPanic_action {a : Action} : NoPanic (action read a) := by
  rcases a with _ | _ | _
  · simp [action]
  · exact noPanic_ok _
  · simp only [action]
    split <;> simp

theorem noPanic_contact {line : Line} : NoPanic (contact read line) ↔ line.Fits read := by
  simp only [contact, contactFields, noPanic_bind, noPanic_orReject, orReject_ok, noPanic_action,
    noPanic_add, noPanic_mapM, noPanic_field, noPanic_resolveSchedule, noPanic_ok, implies_true,
    and_true, true_and, Line.Fits]
  exact ⟨fun h ⟨p, hp⟩ ⟨a, ha⟩ => h p hp a ha, fun h p hp a ha => h ⟨p, hp⟩ ⟨a, ha⟩⟩

end Plan

/-! ## From outside to the last event -/

inductive Submission where
  | plan (line : Plan.Line)
  | proto (contact : Proto.Contact)

namespace Submission

section

variable {π ε ρ : Type} (read : Readers π ε ρ)

def convert : Submission → Except Failure (Contact π (RouteAction ε ρ))
  | plan line => Plan.contact read line
  | proto contact => Proto.convertContact read contact

/-- The sums of the conversion have a date, and those of the contact that it gives. -/
structure Fits (now : Int) (sub : Submission) : Prop where
  converts : match sub with
    | plan line => line.Fits read
    | proto contact => contact.Fits read
  ingests : ∀ contact, sub.convert read = .ok contact → contact.schedule.Fits now

variable {read}

theorem noPanic_convert {sub : Submission} : NoPanic (sub.convert read) ↔ match sub with
    | plan line => line.Fits read
    | proto contact => contact.Fits read := by
  cases sub with
  | plan line => exact Plan.noPanic_contact
  | proto contact => exact Proto.noPanic_convertContact

end

variable {π ε ρ : Type} (read : Readers π ε ρ)
variable [DecidableEq π] [DecidableEq ε] [DecidableEq ρ] [HashOrder]

/-- Nothing panics from the text or message of a contact through the events that are due
in any state that the scheduler gets to with the contact. -/
structure NeverPanics (s : Scheduler π (RouteAction ε ρ)) (source : String)
    (defaultPriority : Nat) (now : Int) (sub : Submission) : Prop where
  converts : NoPanic (sub.convert read)
  ingests : ∀ contact, sub.convert read = .ok contact →
    ∃ r, Checked.ingest s source contact defaultPriority now = .ok r
  processes : ∀ contact t r, sub.convert read = .ok contact →
    Checked.ingest s source contact defaultPriority now = .ok (t, r) →
      ∀ u, (Checked.machineFrom t).Reachable u → ∀ later, Era later →
        ∃ turn, Checked.dueStep later u = .ok turn

variable {read} {s : Scheduler π (RouteAction ε ρ)} {source : String} {defaultPriority : Nat}
  {now : Int} {sub : Submission}

/-- A contact never panics exactly if the sums of its conversion and of its ingestion have
a date. -/
theorem neverPanics_iff (h : (Checked.machineFrom Scheduler.new).Reachable s) (hnow : Era now) :
    sub.NeverPanics read s source defaultPriority now ↔ sub.Fits read now := by
  have hs := Checked.kept_of_reachable h
  constructor
  · intro hnever
    refine ⟨noPanic_convert.mp hnever.converts, fun contact hcontact => ?_⟩
    obtain ⟨r, hr⟩ := hnever.ingests contact hcontact
    exact ((Checked.ingest_ok hnow).mp hr).2
  · intro hfits
    refine ⟨noPanic_convert.mpr hfits.converts, fun contact hcontact => ?_, ?_⟩
    · exact ⟨_, (Checked.ingest_ok hnow).mpr ⟨rfl, hfits.ingests contact hcontact⟩⟩
    · intro contact t r _ ht u hu later hlater
      exact ⟨_, Checked.dueStep_eq ((hs.ingest hnow ht).run hu) hlater⟩

end Submission

/-! ## An occurrence that ends after the year 9999 -/

section

local instance : HashOrder := .sorted

def anyReaders : Readers Unit Unit Unit where
  pattern _ := .ok ()
  eid _ := .ok ()
  reason _ := .ok ()
  rfc3339 _ := .error "invalid"
  humantime _ := .error "invalid"
  secondRange := "timestamp must be in the range -377705116800..=253402300799"

def everyMinuteFor (seconds : Int) : Submission :=
  .proto ⟨"ipn:2.*.*", none, some (.via "ipn:3.0"),
    some (.recurring "* * * * *" (some ⟨seconds, 0⟩) none), none, none⟩

theorem everyMinute_prevBefore :
    Scheduler.everyMinute.prevBefore 946684800000000000 = some 946684800000000000 := by
  refine CronExpr.Occurrence.prevBefore_eq ⟨⟨?_, ?_, ?_, ?_, ?_, ?_⟩, ?_⟩ (Int.le_refl _) ?_ <;>
    decide

theorem convert_oneMinute : (everyMinuteFor 60).convert anyReaders =
    .ok ⟨(), .via (), none, .recurring Scheduler.everyMinute 60000000000 none, none, none⟩ := rfl

theorem convert_longOccurrence : (everyMinuteFor 300000000000).convert anyReaders =
    .ok ⟨(), .via (), none, .recurring Scheduler.everyMinute 300000000000000000000 none, none,
      none⟩ := rfl

theorem oneMinute_fits : (everyMinuteFor 60).Fits anyReaders 946684800000000000 where
  converts := by
    rintro - - _ ⟨⟩
    exact ⟨nofun, nofun⟩
  ingests contact h := by
    cases convert_oneMinute.symm.trans h
    dsimp only [Schedule.Fits]
    rw [everyMinute_prevBefore]
    decide

theorem oneMinute_neverPanics : (everyMinuteFor 60).NeverPanics anyReaders Scheduler.new "session"
    100 946684800000000000 :=
  (Submission.neverPanics_iff (.start rfl) (by decide)).mpr oneMinute_fits

/-- The end of the occurrence that is going on has no date. -/
theorem not_neverPanics : ¬ ∀ (read : Readers Unit Unit Unit) (sub : Submission)
    (s : Scheduler Unit (RouteAction Unit Unit)) (source : String) (defaultPriority : Nat)
    (now : Int), (Checked.machineFrom Scheduler.new).Reachable s → Era now →
      sub.NeverPanics read s source defaultPriority now := by
  intro h
  have hera : Era 946684800000000000 := by decide
  have hnever := h anyReaders (everyMinuteFor 300000000000) Scheduler.new "session" 100
    946684800000000000 (.start rfl) hera
  obtain ⟨r, hr⟩ := hnever.ingests _ convert_longOccurrence
  have hfits := ((Checked.ingest_ok hera).mp hr).2
  dsimp only [Schedule.Fits] at hfits
  rw [everyMinute_prevBefore] at hfits
  exact absurd hfits (by decide)

end

end Hardy.Tvr
