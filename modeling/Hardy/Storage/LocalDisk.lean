import Mathlib.Algebra.Order.Ring.Nat
import Mathlib.Data.Set.Insert
import Hardy.FileTree
import Hardy.Machine

/-!
# Bundles in files

Model of `localdisk-storage/src/storage.rs`: the calls of the operating system that a
save or a replace makes one after the other, those of the walk of `recover`, and the
runs in which they interleave.  Errors of the device are left out: a step fails where
a file or a directory is missing, or is there already.

Beside the store that is walked there is one under the same calls without the walk, to
say what a call would come to without it.  The clock is the number of steps.
-/

namespace Hardy.Storage.LocalDisk

structure Name where
  dir : Dir
  id : Nat
deriving DecidableEq

/-- The number of a file, and whether it has the extension `tmp`. -/
abbrev Key := Nat × Bool

abbrev Disk := FileTree Key

namespace Name

def final (n : Name) : Dir × Key := (n.dir, (n.id, false))

def tmp (n : Name) : Dir × Key := (n.dir, (n.id, true))

def of (p : Dir × Key) : Name := ⟨p.1, p.2.1⟩

end Name

/-! ## Calls -/

inductive Kind where
  | save
  | replace
deriving DecidableEq

/-- Where a call is.  `create_dir_all` goes up to a directory that can be made, and
down from there. -/
inductive Phase where
  | climb (depth : Nat)
  | descend (depth : Nat)
  | reserve
  | openTmp
  | write (handle : Nat)
  | rename
  | overwrite
  | done
  | failed
deriving DecidableEq

structure Call where
  kind : Kind
  name : Name
  len : Nat
  phase : Phase

namespace Call

def down (x : Call) (depth : Nat) : Call :=
  { x with phase := if depth = x.name.dir.length then .reserve else .descend (depth + 1) }

def step (fsync : Bool) (now : Nat) (t : Disk) (x : Call) : Disk × Call :=
  match x.phase with
  | .climb depth =>
    match t.mkdir (x.name.dir.take depth) with
    | some t' => (t', x.down depth)
    | none => (t, { x with phase := .climb (depth - 1) })
  | .descend depth =>
    match t.mkdir (x.name.dir.take depth) with
    | some t' => (t', x.down depth)
    | none => (t, { x with phase := .failed })
  | .reserve =>
    match t.createNew x.name.final now with
    | .ok t' => (t', { x with phase := if fsync then .openTmp else .overwrite })
    | .error .alreadyExists => (t, { x with name := ⟨x.name.dir, (x.name.id + 1) % 2 ^ 64⟩ })
    | .error .notFound => (t, { x with phase := .failed })
  | .openTmp =>
    match x.kind with
    | .save =>
      match t.createNew x.name.tmp now with
      | .ok t' => (t', { x with phase := .write now })
      | .error _ => (t, { x with phase := .failed })
    | .replace =>
      match t.openTruncate x.name.tmp now with
      | some (t', handle) => (t', { x with phase := .write handle })
      | none => (t, { x with phase := .failed })
  | .write handle => (t.write x.name.tmp handle x.len, { x with phase := .rename })
  | .rename =>
    match t.rename x.name.tmp x.name.final with
    | some t' => (t', { x with phase := .done })
    | none => (t.removeFile x.name.tmp, { x with phase := .failed })
  | .overwrite =>
    match t.openTruncate x.name.final now with
    | some (t', handle) => (t'.write x.name.final handle x.len, { x with phase := .done })
    | none => (t.removeFile x.name.final, { x with phase := .failed })
  | .done | .failed => (t, x)

def Finished (x : Call) : Prop := x.phase = .done ∨ x.phase = .failed

def Holds (n : Name) (x : Call) : Prop :=
  x.name = n ∧ match x.phase with
    | .openTmp | .write _ | .rename | .overwrite => True
    | _ => False

def Needs (d : Dir) (x : Call) : Prop :=
  match x.phase with
  | .descend depth => d = x.name.dir.take (depth - 1)
  | .reserve | .openTmp | .overwrite => d = x.name.dir
  | _ => False

end Call

structure World where
  disk : Disk
  calls : Nat → Option Call

namespace World

def start (w : World) (c : Nat) (x : Call) : World :=
  { w with calls := Function.update w.calls c (some x) }

def step (fsync : Bool) (now : Nat) (w : World) (c : Nat) : World :=
  match w.calls c with
  | some x =>
    let (disk, x') := x.step fsync now w.disk
    { disk, calls := Function.update w.calls c (some x') }
  | none => w

def delete (w : World) (n : Name) : World := { w with disk := w.disk.removeFile n.final }

end World

/-! ## The walk -/

/-- What is next for a directory that is read. -/
inductive ScanPhase where
  | listing
  | stat (k : Key)
  | remove (k : Key)
  | send (id created : Nat)
  | prune

/-- A directory that is read: what was there when it was opened, and which entries have
been listed. -/
structure Scan where
  snap : Disk
  seenDirs : List String
  seenFiles : List Key
  phase : ScanPhase

/-- What has become of a directory.  One that is found is read when the directory that
it is in is finished. -/
inductive Task where
  | unknown
  | found
  | scanning (t : Scan)
  | finished

structure Walk where
  before : Nat
  tasks : Dir → Task
  reported : List (Name × Nat)

namespace Walk

def setTask (w : Walk) (d : Dir) (t : Task) : Walk :=
  { w with tasks := Function.update w.tasks d t }

def Reported (w : Walk) (n : Name) : Prop := n ∈ w.reported.map Prod.fst

def Judged (w : Walk) (n : Name) : Prop :=
  w.Reported n ∨ ∃ t created, w.tasks n.dir = .scanning t ∧ t.phase = .send n.id created

def Removing (w : Walk) (n : Name) : Prop :=
  ∃ t k, w.tasks n.dir = .scanning t ∧ t.phase = .remove k ∧ k.1 = n.id

def Ended (w : Walk) : Prop := ∀ d, w.tasks d = .unknown ∨ w.tasks d = .finished

end Walk

def judge (before : Nat) (k : Key) : Option File → ScanPhase
  | none => .listing
  | some f =>
    if before < f.created then .listing
    else if k.2 || f.len = 0 then .remove k
    else .send k.1 f.created

/-! ## Runs -/

/-- The store that is walked, the one that is not, and the names that were saved and
not deleted: those of now (`saved`), and of these the ones saved before the walk
(`owed`). -/
structure State where
  fsync : Bool
  clock : Nat
  main : World
  shadow : World
  walk : Option Walk
  saved : Set Name
  owed : Set Name

namespace State

def Completes (s : State) (c : Nat) (n : Name) : Prop :=
  ∃ x, s.main.calls c = some x ∧ x.kind = .save ∧ ¬ x.Finished ∧
    (x.step s.fsync s.clock s.main.disk).2.phase = .done ∧ x.name = n

def start (s : State) (c : Nat) (x : Call) : State :=
  { s with clock := s.clock + 1, main := s.main.start c x, shadow := s.shadow.start c x }

def run (s : State) (c : Nat) : State :=
  { s with
    clock := s.clock + 1
    main := s.main.step s.fsync s.clock c
    shadow := s.shadow.step s.fsync s.clock c
    saved := {n | n ∈ s.saved ∨ s.Completes c n} }

def delete (s : State) (n : Name) : State :=
  { s with
    clock := s.clock + 1
    main := s.main.delete n
    shadow := s.shadow.delete n
    saved := s.saved \ {n}
    owed := s.owed \ {n} }

def startWalk (s : State) : State :=
  { s with
    clock := s.clock + 1
    walk := some ⟨s.clock, fun d => if d = [] then .found else .unknown, []⟩
    owed := s.saved }

def onWalk (s : State) (w : Walk) : State := { s with clock := s.clock + 1, walk := some w }

def onDisk (s : State) (disk : Disk) : State := { s with main := { s.main with disk } }

end State

inductive Label where
  | save (c : Nat) (dir₁ dir₂ : String) (id len : Nat)
  | replace (c : Nat) (n : Name) (len : Nat)
  | run (c : Nat)
  | delete (n : Name)
  | walk
  | openDir (d : Dir)
  | nextDir (d : Dir) (name : String)
  | nextFile (d : Dir) (k : Key)
  | stat (d : Dir)
  | remove (d : Dir)
  | send (d : Dir)
  | finish (d : Dir)
  | prune (d : Dir)

inductive Step : State → Label → State → Prop where
  | save {s : State} {c : Nat} (dir₁ dir₂ : String) (id len : Nat) :
      s.main.calls c = none → s.shadow.calls c = none →
      Step s (.save c dir₁ dir₂ id len) (s.start c ⟨.save, ⟨[dir₁, dir₂], id⟩, len, .climb 2⟩)
  | replace {s : State} {c : Nat} (n : Name) (len : Nat) :
      s.main.calls c = none → s.shadow.calls c = none →
      Step s (.replace c n len) (s.start c ⟨.replace, n, len, .openTmp⟩)
  | run {s : State} (c : Nat) : Step s (.run c) (s.run c)
  | delete {s : State} (n : Name) : Step s (.delete n) (s.delete n)
  | walk {s : State} : s.walk = none → Step s .walk s.startWalk
  /-- A directory that cannot be read has no entries. -/
  | openDir {s : State} {w : Walk} {d : Dir} : s.walk = some w → w.tasks d = .found →
      (d = [] ∨ w.tasks d.dropLast = .finished) →
      Step s (.openDir d) (s.onWalk (w.setTask d (.scanning
        ⟨s.main.disk, [], [], if s.main.disk.dirs d then .listing else .prune⟩)))
  | nextDir {s : State} {w : Walk} {d : Dir} {t : Scan} {name : String} : s.walk = some w →
      w.tasks d = .scanning t → t.phase = .listing → name ∉ t.seenDirs →
      s.main.disk.dirs (d ++ [name]) = true →
      Step s (.nextDir d name) (s.onWalk ((w.setTask d (.scanning
        { t with seenDirs := name :: t.seenDirs })).setTask (d ++ [name]) .found))
  | nextFile {s : State} {w : Walk} {d : Dir} {t : Scan} {k : Key} : s.walk = some w →
      w.tasks d = .scanning t → t.phase = .listing → k ∉ t.seenFiles →
      s.main.disk.files (d, k) ≠ none →
      Step s (.nextFile d k) (s.onWalk (w.setTask d (.scanning
        { t with seenFiles := k :: t.seenFiles, phase := .stat k })))
  | stat {s : State} {w : Walk} {d : Dir} {t : Scan} {k : Key} : s.walk = some w →
      w.tasks d = .scanning t → t.phase = .stat k →
      Step s (.stat d) (s.onWalk (w.setTask d (.scanning
        { t with phase := judge w.before k (s.main.disk.files (d, k)) })))
  | remove {s : State} {w : Walk} {d : Dir} {t : Scan} {k : Key} : s.walk = some w →
      w.tasks d = .scanning t → t.phase = .remove k →
      Step s (.remove d) ((s.onDisk (s.main.disk.removeFile (d, k))).onWalk
        (w.setTask d (.scanning { t with phase := .listing })))
  | send {s : State} {w : Walk} {d : Dir} {t : Scan} {id created : Nat} : s.walk = some w →
      w.tasks d = .scanning t → t.phase = .send id created →
      Step s (.send d) (s.onWalk ({ w with reported := (⟨d, id⟩, created) :: w.reported }.setTask d
        (.scanning { t with phase := .listing })))
  /-- An entry that was there all along has been listed. -/
  | finish {s : State} {w : Walk} {d : Dir} {t : Scan} : s.walk = some w →
      w.tasks d = .scanning t → t.phase = .listing →
      (∀ name, t.snap.dirs (d ++ [name]) = true → s.main.disk.dirs (d ++ [name]) = true →
        name ∈ t.seenDirs) →
      (∀ k f, t.snap.files (d, k) = some f →
        (s.main.disk.files (d, k)).map File.created = some f.created → k ∈ t.seenFiles) →
      Step s (.finish d) (s.onWalk (w.setTask d (.scanning { t with phase := .prune })))
  | pruned {s : State} {w : Walk} {d : Dir} {t : Scan} : s.walk = some w →
      w.tasks d = .scanning t → t.phase = .prune → s.main.disk.Empty d →
      Step s (.prune d) ((s.onDisk (s.main.disk.removeDir d)).onWalk (w.setTask d .finished))
  | kept {s : State} {w : Walk} {d : Dir} {t : Scan} : s.walk = some w →
      w.tasks d = .scanning t → t.phase = .prune → ¬ s.main.disk.Empty d →
      Step s (.prune d) (s.onWalk (w.setTask d .finished))

/-- A store with what earlier runs have left: bundles, and whatever else. -/
structure Start (s : State) : Prop where
  tree : s.main.disk.Tree
  created : ∀ p f, s.main.disk.files p = some f → f.created < s.clock
  saved : ∀ n ∈ s.saved, ∃ f, s.main.disk.files n.final = some f ∧ 0 < f.len
  calls : ∀ c, s.main.calls c = none
  shadow : s.shadow = s.main
  walk : s.walk = none
  owed : s.owed = ∅

def machine : Machine State Label where
  start := Start
  step := Step

/-- No call fails that succeeds without the walk, and at its end the walk has reported
each bundle once that was saved before it and not deleted. -/
structure Harmless (s : State) : Prop where
  calls : ∀ c x y, s.main.calls c = some x → s.shadow.calls c = some y →
    ¬ (x.phase = .failed ∧ y.phase = .done)
  reported : ∀ w, s.walk = some w → w.Ended → ∀ n ∈ s.owed, (w.reported.map Prod.fst).count n = 1

def Settled (s : State) (n : Name) : Prop :=
  ∀ w, s.walk = some w → ¬ w.Removing n ∧ (n ∈ s.owed → w.Judged n)

def Free (s : State) (n : Name) : Prop := ∀ c x, s.main.calls c = some x → ¬ x.Holds n

/-- The steps that keep out of each other's way:
* a bundle has data, and one call at a time has a file of it;
* a replace is of a bundle that the walk is not still to judge, and without a `tmp` file
  left of it while there is a walk;
* a name is taken without a `tmp` file left of it;
* neither starts while the walk is about to remove a file of the name;
* no call has a file when the walk starts, or needs a directory that it prunes. -/
def Calm (s : State) : Label → Prop
  | .save _ _ _ _ len => 0 < len
  | .replace _ n len => 0 < len ∧ n ∈ s.saved ∧ Free s n ∧ Settled s n ∧
      (s.walk ≠ none → s.main.disk.files n.tmp = none)
  | .run c => ∀ x, s.main.calls c = some x → x.phase = .reserve →
      s.main.disk.files x.name.final = none →
        s.main.disk.files x.name.tmp = none ∧ Free s x.name ∧
          ∀ w, s.walk = some w → ¬ w.Removing x.name
  | .walk => ∀ n, Free s n
  | .prune d => s.main.disk.Empty d → ∀ c x, s.main.calls c = some x → ¬ x.Needs d
  | _ => True

end Hardy.Storage.LocalDisk
