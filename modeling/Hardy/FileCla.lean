import Hardy.Machine
import Mathlib.Logic.Function.Basic

/-!
# The outbox of the file CLA

Model of `file-cla/src/watcher.rs`: `watcher_task` and `forwarder_task` over an outbox that a
spooling process fills, and `outbox/refused/`, from which an operator takes files.  Every file
has a number of its own, which it keeps when it is renamed; a file that has no name left is
gone.  The forwarder goes from step to step by the name of a file, and the name may have come
to another file in between.
-/

namespace Hardy.FileCla

open Function (update)

abbrev Content := List UInt8

inductive Acceptance where
  | accepted
  | refused
deriving DecidableEq

/-! ## Events -/

/-- `notify::event::CreateKind` -/
inductive CreateKind where
  | any | file | folder | other

/-- `notify::event::RenameMode` -/
inductive RenameMode where
  | any | to | «from» | both | other

/-- `notify::EventKind`: a name is created, or modified, or something else is reported. -/
inductive EventKind where
  | create (kind : CreateKind)
  | modifyName (mode : RenameMode)
  | other

structure Event (κ : Type) where
  kind : EventKind
  paths : List κ

def offeredPaths {κ : Type} (event : Event κ) : List κ :=
  match event.kind with
  | .create .file | .modifyName .to | .modifyName .any => event.paths
  | .modifyName .both => event.paths.getLast?.toList
  | _ => []

/-! ## The tasks -/

/-- A file, and whether the spooling process is done with it. -/
structure File where
  data : Content
  complete : Bool

inductive Watcher where
  | scanning | watching | stopped
deriving DecidableEq

/-- Where `forwarder_task` is with a name.  What it reads is of the file that the name has then. -/
inductive Forwarder (κ : Type) where
  | receiving
  | checking (path : κ)
  | reading (path : κ)
  | dispatching (path : κ) (buffer : Content) (file : Nat)
  | removing (path : κ) (buffer : Content)
  | quarantining (path : κ)
  | stopped

/-- The two directories and the tasks, and a record of what has become of files. -/
structure State (κ : Type) where
  next : Nat
  files : Nat → File
  outbox : κ → Option Nat
  refused : κ → Option Nat
  watcher : Watcher
  queue : List κ
  forwarder : Forwarder κ
  /-- what the BPA has accepted -/
  accepted : List Content
  /-- the complete files that it has refused -/
  refusals : List Nat
  /-- the files that the forwarder has removed, with what was in them -/
  removed : List (Nat × Content)
  /-- the files whose name the spooling process has given to another one -/
  overwritten : List Nat
  /-- the files that an operator has taken from `refused/`, or has replaced -/
  taken : List Nat
  /-- the files that an operator has moved from there to the outbox -/
  retried : List Nat

inductive Label (κ : Type) where
  | create (path : κ)
  | write (file : Nat) (piece : Content)
  | close (file : Nat)
  | rename (path : κ) (data : Content)
  | move (path dest : κ)
  | take (name : κ)
  | retry (name path : κ)
  | scan (path : κ)
  | scanned
  | event (event : Event κ)
  | stopWatcher
  | receive
  | check
  | read (ok : Bool)
  | dispatch (result : Option Acceptance)
  | remove (ok : Bool)
  | quarantine (ok : Bool)
  | stopForwarder
  | restart

namespace State

variable {κ : Type}

def start : State κ where
  next := 0
  files _ := ⟨[], false⟩
  outbox _ := none
  refused _ := none
  watcher := .scanning
  queue := []
  forwarder := .receiving
  accepted := []
  refusals := []
  removed := []
  overwritten := []
  taken := []
  retried := []

variable [DecidableEq κ]

def link (s : State κ) (path : κ) (file : Nat) : State κ :=
  { s with
    outbox := update s.outbox path (some file)
    overwritten := (s.outbox path).toList ++ s.overwritten }

def place (s : State κ) (path : κ) (f : File) : State κ :=
  { s.link path s.next with files := update s.files s.next f, next := s.next + 1 }

def modify (s : State κ) (file : Nat) (f : File → File) : Option (State κ) :=
  if file < s.next ∧ (s.files file).complete = false then
    some { s with files := update s.files file (f (s.files file)) }
  else none

def oversized (s : State κ) (cap : Option Nat) (path : κ) : Bool :=
  match cap, s.outbox path with
  | some cap, some file => cap < (s.files file).data.length
  | _, _ => false

/-- What becomes of the bytes that were read, by the result of `sink.dispatch`. -/
def dispatched (s : State κ) (path : κ) (buffer : Content) (file : Nat) :
    Option Acceptance → State κ
  | some .accepted =>
    { s with forwarder := .removing path buffer, accepted := buffer :: s.accepted }
  | some .refused =>
    { s with
      forwarder := .quarantining path
      refusals := if (s.files file).complete ∧ (s.files file).data = buffer then
        file :: s.refusals else s.refusals }
  | none => { s with forwarder := .receiving }

def remove (s : State κ) (path : κ) : State κ :=
  match s.outbox path with
  | none => s
  | some file =>
    { s with
      outbox := update s.outbox path none
      removed := (file, (s.files file).data) :: s.removed }

/-- `quarantine`, where the directory is there: the file takes the place of the one that has its
name there. -/
def quarantine (s : State κ) (path : κ) : State κ :=
  match s.outbox path with
  | none => s
  | some file =>
    { s with
      outbox := update s.outbox path none
      refused := update s.refused path (some file) }

/-- A step of the spooling process, of an operator, of `watcher_task` or of `forwarder_task`. -/
def step (cap : Option Nat) (s : State κ) : Label κ → Option (State κ)
  | .create path => if s.outbox path = none then some (s.place path ⟨[], false⟩) else none
  | .write file piece => s.modify file fun f => { f with data := f.data ++ piece }
  | .close file => s.modify file fun f => { f with complete := true }
  | .rename path data => some (s.place path ⟨data, true⟩)
  | .move path dest =>
    match s.outbox path with
    | some file =>
      if path ≠ dest then
        some (link { s with outbox := update s.outbox path none } dest file)
      else none
    | none => none
  | .take name => (s.refused name).map fun file =>
    { s with refused := update s.refused name none, taken := file :: s.taken }
  | .retry name path => (s.refused name).map fun file =>
    { s with
      refused := update s.refused name none
      outbox := update s.outbox path (some file)
      taken := (s.outbox path).toList ++ s.taken
      retried := file :: s.retried }
  | .scan path =>
    if s.watcher = .scanning ∧ (s.outbox path).isSome then
      some { s with queue := s.queue ++ [path] }
    else none
  | .scanned => if s.watcher = .scanning then some { s with watcher := .watching } else none
  | .event e =>
    if s.watcher = .watching then some { s with queue := s.queue ++ offeredPaths e } else none
  | .stopWatcher => some { s with watcher := .stopped }
  | .receive =>
    match s.forwarder, s.queue with
    | .receiving, path :: queue => some { s with forwarder := .checking path, queue }
    | _, _ => none
  | .check =>
    match s.forwarder with
    | .checking path => some { s with
        forwarder := if s.oversized cap path then .receiving else .reading path }
    | _ => none
  | .read ok =>
    match s.forwarder with
    | .reading path =>
      match (if ok then s.outbox path else none) with
      | some file =>
        some { s with forwarder := .dispatching path (s.files file).data file }
      | none => some { s with forwarder := .receiving }
    | _ => none
  | .dispatch result =>
    match s.forwarder with
    | .dispatching path buffer file => some (s.dispatched path buffer file result)
    | _ => none
  | .remove ok =>
    match s.forwarder with
    | .removing path _ => some { (if ok then s.remove path else s) with forwarder := .receiving }
    | _ => none
  | .quarantine ok =>
    match s.forwarder with
    | .quarantining path =>
      some { (if ok then s.quarantine path else s) with forwarder := .receiving }
    | _ => none
  | .stopForwarder =>
    match s.forwarder with
    | .receiving => some { s with forwarder := .stopped }
    | _ => none
  | .restart => some { s with watcher := .scanning, queue := [], forwarder := .receiving }

def Present (s : State κ) (file : Nat) : Prop :=
  ∃ path, s.outbox path = some file ∨ s.refused path = some file

/-- The file is there, or the spooling process or an operator has disposed of it. -/
def Safe (s : State κ) (file : Nat) : Prop :=
  s.Present file ∨ file ∈ s.overwritten ∨ file ∈ s.taken

def Consumed (s : State κ) (file : Nat) : Prop := (file, (s.files file).data) ∈ s.removed

structure Kept (s : State κ) : Prop where
  /-- what is removed was accepted -/
  removed : ∀ r ∈ s.removed, r.2 ∈ s.accepted
  /-- what was refused is there until an operator removes it -/
  refusals : ∀ file ∈ s.refusals, s.Safe file ∨ file ∈ s.retried
  /-- and nothing complete disappears in another way -/
  complete : ∀ file < s.next, (s.files file).complete = true → s.Safe file ∨ s.Consumed file

/-- The name still leads to the complete file that was read, which is removed.  A file that is
put in quarantine takes the place of none. -/
def Undisturbed (s : State κ) : Label κ → Prop
  | .remove true => ∀ path buffer file, s.forwarder = .removing path buffer →
      s.outbox path = some file → s.files file = ⟨buffer, true⟩ ∧
        (file ∈ s.refusals → file ∈ s.retried)
  | .quarantine true => ∀ path, s.forwarder = .quarantining path →
      s.outbox path = none ∨ s.refused path = none
  | _ => True

end State

def outbox {κ : Type} [DecidableEq κ] (cap : Option Nat) : Machine (State κ) (Label κ) :=
  .ofStep (· = .start) (State.step cap)

/-! ## Undisturbed runs -/

namespace State

variable {κ : Type} {s s' : State κ}

/-- What holds between the steps. -/
structure Inv (s : State κ) : Prop where
  removed : ∀ r ∈ s.removed, r.2 ∈ s.accepted
  refusals : ∀ file ∈ s.refusals, s.Safe file ∨ file ∈ s.retried
  tracked : ∀ file < s.next, s.Safe file ∨ (s.files file).complete = true ∧ s.Consumed file
  dispatching : ∀ path buffer file, s.forwarder = .dispatching path buffer file → s.Safe file
  removing : ∀ path buffer, s.forwarder = .removing path buffer → buffer ∈ s.accepted

theorem Inv.kept (h : s.Inv) : s.Kept where
  removed := h.removed
  refusals := h.refusals
  complete file hfile _ := (h.tracked file hfile).imp_right And.right

theorem inv_start : (start : State κ).Inv where
  removed := nofun
  refusals := nofun
  tracked := nofun
  dispatching := nofun
  removing := nofun

theorem Safe.imp {file : Nat} (h : s.Safe file)
    (houtbox : ∀ path, s.outbox path = some file → s'.Safe file)
    (hrefused : ∀ path, s.refused path = some file → s'.Safe file)
    (hoverwritten : file ∈ s.overwritten → file ∈ s'.overwritten)
    (htaken : file ∈ s.taken → file ∈ s'.taken) : s'.Safe file := by
  obtain ⟨path, h | h⟩ | h | h := h
  · exact houtbox path h
  · exact hrefused path h
  · exact .inr (.inl (hoverwritten h))
  · exact .inr (.inr (htaken h))

theorem Inv.keep (h : s.Inv) (hnew : ∀ file < s'.next, s.next ≤ file → s'.Safe file)
    (hfiles : ∀ file < s.next, (s.files file).complete = true → s'.files file = s.files file)
    (hsafe : ∀ file, s.Safe file → s'.Safe file) (hretried : s.retried ⊆ s'.retried)
    (hremoved : s'.removed = s.removed) (haccepted : s'.accepted = s.accepted)
    (hrefusals : s'.refusals = s.refusals) (hforwarder : s'.forwarder = s.forwarder) : s'.Inv where
  removed := by
    rw [hremoved, haccepted]
    exact h.removed
  refusals file hfile := by
    rw [hrefusals] at hfile
    exact (h.refusals file hfile).imp (hsafe file) (@hretried file)
  tracked file hfile := by
    rcases Nat.lt_or_ge file s.next with hold | hge
    · rcases h.tracked file hold with hs | ⟨hcomplete, hconsumed⟩
      · exact .inl (hsafe file hs)
      · right
        rw [Consumed, hfiles file hold hcomplete, hremoved]
        exact ⟨hcomplete, hconsumed⟩
    · exact .inl (hnew file hfile hge)
  dispatching path buffer file hf := hsafe file (h.dispatching path buffer file (hforwarder ▸ hf))
  removing path buffer hf := by
    rw [haccepted]
    exact h.removing path buffer (hforwarder ▸ hf)

theorem Inv.proceed (h : s.Inv) (watcher : Watcher) (queue : List κ) {forwarder : Forwarder κ}
    (hdispatching : ∀ path buffer file, forwarder = .dispatching path buffer file → s.Safe file)
    (hremoving : ∀ path buffer, forwarder = .removing path buffer → buffer ∈ s.accepted) :
    Inv { s with watcher, queue, forwarder } where
  removed := h.removed
  refusals := h.refusals
  tracked := h.tracked
  dispatching := hdispatching
  removing := hremoving

theorem Inv.watch (h : s.Inv) (watcher : Watcher) (queue : List κ) :
    Inv { s with watcher, queue } :=
  h.proceed watcher queue h.dispatching h.removing

variable [DecidableEq κ] {cap : Option Nat} {path : κ} {file : Nat}

theorem link_self : (s.link path file).Safe file :=
  .inl ⟨path, .inl (Function.update_self ..)⟩

theorem Safe.link (h : s.Safe file) (path : κ) (linked : Nat) : (s.link path linked).Safe file := by
  refine h.imp (fun path' hpath => ?_) (fun path' hpath => .inl ⟨path', .inr hpath⟩)
    (List.mem_append_right _) id
  by_cases heq : path' = path
  · subst heq
    exact .inr (.inl (List.mem_append_left _ (by simp [hpath])))
  · exact .inl ⟨path', .inl ((Function.update_of_ne heq ..).trans hpath)⟩

theorem Inv.place (h : s.Inv) (path : κ) (f : File) : (s.place path f).Inv := by
  refine h.keep (fun file hlt hge => ?_) (fun file hlt _ => ?_) (fun file hs => hs.link path s.next)
    (List.Subset.refl _) rfl rfl rfl rfl
  · obtain rfl : file = s.next := Nat.le_antisymm (Nat.le_of_lt_succ hlt) hge
    exact link_self
  · exact Function.update_of_ne (Nat.ne_of_lt hlt) ..

omit [DecidableEq κ] in
theorem Inv.modify (h : s.Inv) {f : File → File} (hstep : s.modify file f = some s') : s'.Inv := by
  rw [State.modify] at hstep
  split at hstep
  · next hopen =>
      cases hstep
      refine h.keep (fun file' hlt hge => absurd hlt (Nat.not_lt.mpr hge)) (fun file' _ hc => ?_)
        (fun _ => id) (List.Subset.refl _) rfl rfl rfl rfl
      refine Function.update_of_ne (fun heq => ?_) ..
      rw [heq, hopen.2] at hc
      cases hc
  · cases hstep

theorem Safe.unlink {file' : Nat} (h : s.Safe file') (hpath : s.outbox path = some file) :
    file' = file ∨ Safe { s with outbox := update s.outbox path none } file' := by
  by_cases heq : file' = file
  · exact .inl heq
  · refine .inr (h.imp (fun path' hpath' => ?_) (fun path' hpath' => .inl ⟨path', .inr hpath'⟩) id id)
    have hother : path' ≠ path := fun h => by simp_all
    exact .inl ⟨path', .inl ((Function.update_of_ne hother ..).trans hpath')⟩

theorem Safe.unname {file' : Nat} (h : s.Safe file') (hpath : s.refused path = some file) :
    file' = file ∨ Safe { s with refused := update s.refused path none } file' := by
  by_cases heq : file' = file
  · exact .inl heq
  · refine .inr (h.imp (fun path' hpath' => .inl ⟨path', .inl hpath'⟩) (fun path' hpath' => ?_) id id)
    have hother : path' ≠ path := fun h => by simp_all
    exact .inl ⟨path', .inr ((Function.update_of_ne hother ..).trans hpath')⟩

theorem Inv.move (h : s.Inv) {dest : κ} (hpath : s.outbox path = some file) :
    Inv (link { s with outbox := update s.outbox path none } dest file) := by
  refine h.keep (fun file' hlt hge => absurd hlt (Nat.not_lt.mpr hge)) (fun _ _ _ => rfl)
    (fun file' hs => ?_) (List.Subset.refl _) rfl rfl rfl rfl
  rcases hs.unlink hpath with rfl | hs
  · exact link_self
  · exact hs.link dest file

theorem Inv.take (h : s.Inv) {name : κ} (hname : s.refused name = some file) :
    Inv { s with refused := update s.refused name none, taken := file :: s.taken } := by
  refine h.keep (fun file' hlt hge => absurd hlt (Nat.not_lt.mpr hge)) (fun _ _ _ => rfl)
    (fun file' hs => ?_) (List.Subset.refl _) rfl rfl rfl rfl
  rcases hs.unname hname with rfl | hs
  · exact .inr (.inr List.mem_cons_self)
  · exact hs.imp (fun path hpath => .inl ⟨path, .inl hpath⟩)
      (fun path hpath => .inl ⟨path, .inr hpath⟩) id (List.mem_cons_of_mem _)

theorem Inv.retry (h : s.Inv) {name : κ} (hname : s.refused name = some file) (path : κ) :
    Inv { s with
      refused := update s.refused name none
      outbox := update s.outbox path (some file)
      taken := (s.outbox path).toList ++ s.taken
      retried := file :: s.retried } := by
  refine h.keep (fun file' hlt hge => absurd hlt (Nat.not_lt.mpr hge)) (fun _ _ _ => rfl)
    (fun file' hs => ?_) (List.subset_cons_self ..) rfl rfl rfl rfl
  rcases hs.unname hname with rfl | hs
  · exact .inl ⟨path, .inl (Function.update_self ..)⟩
  · refine hs.imp (fun path' hpath => ?_) (fun path' hpath => .inl ⟨path', .inr hpath⟩) id
      (List.mem_append_right _)
    by_cases heq : path' = path
    · subst heq
      exact .inr (.inr (List.mem_append_left _ (by simp_all)))
    · exact .inl ⟨path', .inl ((Function.update_of_ne heq ..).trans hpath)⟩

omit [DecidableEq κ] in
theorem Inv.dispatched (h : s.Inv) {buffer : Content}
    (hf : s.forwarder = .dispatching path buffer file) (result : Option Acceptance) :
    (s.dispatched path buffer file result).Inv := by
  match result with
  | none => exact h.proceed s.watcher s.queue nofun nofun
  | some .accepted =>
    exact {
      removed := fun r hr => List.mem_cons_of_mem _ (h.removed r hr)
      refusals := h.refusals
      tracked := h.tracked
      dispatching := nofun
      removing := fun _ _ hr => by cases hr; exact List.mem_cons_self }
  | some .refused =>
    refine ⟨h.removed, fun file' hfile => ?_, h.tracked, nofun, nofun⟩
    simp only [State.dispatched] at hfile
    split at hfile
    · rcases List.mem_cons.mp hfile with rfl | hfile
      · exact .inl (h.dispatching path buffer file' hf)
      · exact h.refusals file' hfile
    · exact h.refusals file' hfile

theorem Inv.remove (h : s.Inv) {buffer : Content} (hf : s.forwarder = .removing path buffer)
    (hu : s.Undisturbed (.remove true)) : Inv { s.remove path with forwarder := .receiving } := by
  rw [State.remove]
  cases hpath : s.outbox path with
  | none => exact h.proceed s.watcher s.queue nofun nofun
  | some file =>
    obtain ⟨hfile, hretried⟩ := hu path buffer file hf hpath
    refine ⟨fun r hr => ?_, fun file' hr => ?_, fun file' hlt => ?_, nofun, nofun⟩
    · rcases List.mem_cons.mp hr with rfl | hr
      · simp only [hfile]
        exact h.removing path buffer hf
      · exact h.removed r hr
    · rcases h.refusals file' hr with hs | hs
      · rcases hs.unlink hpath with rfl | hs
        · exact .inr (hretried hr)
        · exact .inl hs
      · exact .inr hs
    · rcases h.tracked file' hlt with hs | ⟨hcomplete, hconsumed⟩
      · rcases hs.unlink hpath with rfl | hs
        · exact .inr ⟨by simp [hfile], List.mem_cons_self⟩
        · exact .inl hs
      · exact .inr ⟨hcomplete, List.mem_cons_of_mem _ hconsumed⟩

theorem Inv.quarantine (h : s.Inv) (hfree : s.outbox path = none ∨ s.refused path = none) :
    (s.quarantine path).Inv := by
  rw [State.quarantine]
  cases hpath : s.outbox path with
  | none => exact h
  | some file =>
    refine h.keep (fun file' hlt hge => absurd hlt (Nat.not_lt.mpr hge)) (fun _ _ _ => rfl)
      (fun file' hs => ?_) (List.Subset.refl _) rfl rfl rfl rfl
    rcases hs.unlink hpath with rfl | hs
    · exact .inl ⟨path, .inr (Function.update_self ..)⟩
    · refine hs.imp (fun path' hpath' => .inl ⟨path', .inl hpath'⟩) (fun path' hpath' => ?_) id id
      have hother : path' ≠ path := fun h => by simp_all
      exact .inl ⟨path', .inr ((Function.update_of_ne hother ..).trans hpath')⟩

theorem inv_step {l : Label κ} (h : s.Inv) (hu : s.Undisturbed l) (hstep : s.step cap l = some s') :
    s'.Inv := by
  cases l with
  | create path =>
    simp only [step] at hstep
    split at hstep <;> cases hstep
    exact h.place path _
  | write file piece | close file =>
    rw [step] at hstep
    exact h.modify hstep
  | rename path data =>
    cases hstep
    exact h.place path _
  | move path dest =>
    simp only [step] at hstep
    split at hstep
    · next hpath =>
        split at hstep <;> cases hstep
        exact h.move hpath
    · cases hstep
  | take name =>
    obtain ⟨file, hname, rfl⟩ := Option.map_eq_some_iff.mp hstep
    exact h.take hname
  | retry name path =>
    obtain ⟨file, hname, rfl⟩ := Option.map_eq_some_iff.mp hstep
    exact h.retry hname path
  | scan path | scanned | event e =>
    simp only [step] at hstep
    split at hstep <;> cases hstep
    exact h.watch _ _
  | stopWatcher =>
    cases hstep
    exact h.watch _ _
  | receive =>
    simp only [step] at hstep
    split at hstep <;> cases hstep
    exact h.proceed _ _ nofun nofun
  | check =>
    simp only [step] at hstep
    split at hstep <;> cases hstep
    split
    · exact h.proceed _ _ nofun nofun
    · exact h.proceed _ _ nofun nofun
  | read ok =>
    simp only [step] at hstep
    split at hstep
    · next path hf =>
        split at hstep <;> cases hstep
        · next file hpath =>
            refine h.proceed _ _ (fun path' buffer file' hf' => ?_) nofun
            cases hf'
            cases ok
            · cases hpath
            · exact .inl ⟨path, .inl hpath⟩
        · exact h.proceed _ _ nofun nofun
    · cases hstep
  | dispatch result =>
    simp only [step] at hstep
    split at hstep <;> cases hstep
    next hf => exact h.dispatched hf result
  | remove ok =>
    simp only [step] at hstep
    split at hstep <;> cases hstep
    next hf =>
      cases ok with
      | false => exact h.proceed _ _ nofun nofun
      | true => exact h.remove hf hu
  | quarantine ok =>
    simp only [step] at hstep
    split at hstep <;> cases hstep
    next path hf =>
      cases ok with
      | false => exact h.proceed _ _ nofun nofun
      | true => exact (h.quarantine (hu path hf)).proceed _ _ nofun nofun
  | stopForwarder =>
    simp only [step] at hstep
    split at hstep <;> cases hstep
    exact h.proceed _ _ nofun nofun
  | restart =>
    cases hstep
    exact h.proceed _ _ nofun nofun

end State

variable {κ : Type} [DecidableEq κ]

/-- Undisturbed runs lose nothing. -/
theorem undisturbed_kept (cap : Option Nat) (s : State κ)
    (h : ((outbox cap).only State.Undisturbed).Reachable s) : s.Kept := by
  refine (h.invariant ?_ ?_ : s.Inv).kept
  · rintro _ rfl
    exact State.inv_start
  · rintro s l s' hs ⟨hu, hstep⟩
    exact State.inv_step hs hu hstep

/-- A file comes to the only name, and the forwarder handles it up to the result of its dispatch. -/
def spooled (data : Content) (result : Acceptance) : List (Label Unit) :=
  [.rename () data, .scan (), .receive, .check, .read true, .dispatch (some result)]

theorem undisturbed_spooled {data : Content} {result : Acceptance} (s : State Unit)
    (l : Label Unit) (hl : l ∈ spooled data result) : s.Undisturbed l := by
  simp only [spooled, List.mem_cons, List.not_mem_nil, or_false] at hl
  rcases hl with rfl | rfl | rfl | rfl | rfl | rfl <;> trivial

/-- One file is accepted, and the next one under its name refused. -/
theorem delivered_kept : ∃ s : State Unit, s.removed = [(0, [1])] ∧ s.refusals = [1] ∧
    s.refused () = some 1 ∧ s.Kept := by
  obtain ⟨s₁, s₂, s₃, s₄, h₁, hu₂, h₂, h₃, hu₄, h₄, hs⟩ : ∃ s₁ s₂ s₃ s₄ : State Unit,
      Machine.runSteps (State.step none) .start (spooled [1] .accepted) = some s₁ ∧
      s₁.Undisturbed (.remove true) ∧ s₁.step none (.remove true) = some s₂ ∧
      Machine.runSteps (State.step none) s₂ (spooled [2] .refused) = some s₃ ∧
      s₃.Undisturbed (.quarantine true) ∧ s₃.step none (.quarantine true) = some s₄ ∧
      s₄.removed = [(0, [1])] ∧ s₄.refusals = [1] ∧ s₄.refused () = some 1 := by
    refine ⟨_, _, _, _, rfl, ?_, rfl, rfl, ?_, rfl, rfl, rfl, rfl⟩
    · rintro _ _ _ ⟨⟩ ⟨⟩
      exact ⟨rfl, nofun⟩
    · exact fun _ _ => .inr rfl
  have h : ((outbox none).only State.Undisturbed).Reachable s₁ :=
    .only_runSteps (fun _ _ _ h => h) (.start rfl) undisturbed_spooled h₁
  have h : ((outbox none).only State.Undisturbed).Reachable s₂ := .step (.remove true) h ⟨hu₂, h₂⟩
  have h := h.only_runSteps (fun _ _ _ h => h) undisturbed_spooled h₃
  have h : ((outbox none).only State.Undisturbed).Reachable s₄ :=
    .step (.quarantine true) h ⟨hu₄, h₄⟩
  exact ⟨s₄, hs.1, hs.2.1, hs.2.2, undisturbed_kept none s₄ h⟩

/-- A file that has come under a name after it was read is removed, and a file in quarantine is
replaced. -/
theorem replaced_lost :
    (∃ s : State Unit, (outbox none).Reachable s ∧ ¬ ∀ r ∈ s.removed, r.2 ∈ s.accepted) ∧
      ∃ s : State Unit, (outbox none).Reachable s ∧
        ¬ ∀ file ∈ s.refusals, s.Safe file ∨ file ∈ s.retried := by
  constructor
  · obtain ⟨s, hrun, hremoved, haccepted⟩ : ∃ s : State Unit,
        Machine.runSteps (State.step none) .start [.rename () [1], .scan (), .receive, .check,
          .read true, .rename () [2], .dispatch (some .accepted), .remove true] = some s ∧
        s.removed = [(1, [2])] ∧ s.accepted = [[1]] := ⟨_, rfl, rfl, rfl⟩
    exact ⟨s, Machine.reachable_runSteps (.start rfl) hrun, by simp [hremoved, haccepted]⟩
  · obtain ⟨s, hrun, hrefusals, hnames, hgone⟩ : ∃ s : State Unit,
        Machine.runSteps (State.step none) .start (spooled [1] .refused ++
          .quarantine true :: spooled [2] .refused ++ [.quarantine true]) = some s ∧
        s.refusals = [1, 0] ∧ (s.outbox () = none ∧ s.refused () = some 1) ∧
          s.overwritten = [] ∧ s.taken = [] ∧ s.retried = [] := ⟨_, rfl, rfl, ⟨rfl, rfl⟩, rfl, rfl, rfl⟩
    refine ⟨s, Machine.reachable_runSteps (.start rfl) hrun, fun hall => ?_⟩
    have hsafe := hall 0 (by simp [hrefusals])
    simp [State.Safe, State.Present, hnames, hgone] at hsafe

end Hardy.FileCla
