import Hardy.Storage.LocalDisk

/-!
# Calls beside the walk

What holds between the steps of calm runs.  A call in progress finds its directory, or
its files, as it left them (`Ready`), and no two calls are on one name.  What the walk
removes is older than every call in progress and belongs to no bundle.  A bundle that
is still to be judged is untouched, and the walk has a place left to find it
(`Pending`).

A step of a call changes the files of one name at most (`Move`).
-/

namespace Hardy.Storage.LocalDisk

/-! ## Invariants -/

def Call.Ready (t : Disk) (x : Call) : Prop :=
  match x.phase with
  | .climb depth => depth ≤ x.name.dir.length
  | .descend depth => 0 < depth ∧ depth ≤ x.name.dir.length ∧
      t.dirs (x.name.dir.take (depth - 1)) = true
  | .reserve => t.dirs x.name.dir = true
  | .openTmp => t.dirs x.name.dir = true ∧ (x.kind = .save → t.files x.name.tmp = none)
  | .write handle => ∃ f, t.files x.name.tmp = some f ∧ f.created = handle
  | .rename => ∃ f, t.files x.name.tmp = some f ∧ f.len = x.len
  | .overwrite => t.dirs x.name.dir = true
  | .done => True
  | .failed => False

structure Inv (s : State) : Prop where
  tree : s.main.disk.Tree
  created : ∀ p f, s.main.disk.files p = some f → f.created < s.clock
  ready : ∀ c x, s.main.calls c = some x → x.Ready s.main.disk
  lens : ∀ c x, s.main.calls c = some x → 0 < x.len
  apart : ∀ c c' x x' n, s.main.calls c = some x → s.main.calls c' = some x' → x.Holds n →
    x'.Holds n → c = c'
  saved : ∀ n ∈ s.saved, ∃ f, s.main.disk.files n.final = some f ∧ 0 < f.len
  owed : ∀ n ∈ s.owed, n ∈ s.saved

/-- The walk keeps off the calls, and the calls off what is still to be judged. -/
structure Apart (s : State) (w : Walk) : Prop where
  before : w.before < s.clock
  tmp : ∀ c x n f, s.main.calls c = some x → x.Holds n → s.main.disk.files n.tmp = some f →
    w.before < f.created
  final : ∀ c x n f, s.main.calls c = some x → x.Holds n → n ∉ s.saved →
    s.main.disk.files n.final = some f → w.before < f.created
  held : ∀ c x n, s.main.calls c = some x → x.Holds n → n ∈ s.owed → w.Judged n
  old : ∀ n ∈ s.owed, ¬ w.Judged n →
    ∃ f, s.main.disk.files n.final = some f ∧ f.created ≤ w.before
  removing : ∀ c x n, s.main.calls c = some x → x.Holds n → ¬ w.Removing n
  unsaved : ∀ n t, w.tasks n.dir = .scanning t → t.phase = .remove (n.id, false) → n ∉ s.saved

def Scan.At (t : Scan) (k : Key) : Prop :=
  t.phase = .stat k ∨ k.2 = false ∧ ∃ created, t.phase = .send k.1 created

structure Once (w : Walk) : Prop where
  parents : ∀ d name, w.tasks (d ++ [name]) ≠ .unknown →
    w.tasks d = .finished ∨ ∃ t, w.tasks d = .scanning t ∧ name ∈ t.seenDirs
  seen : ∀ d t k, w.tasks d = .scanning t → t.At k → k ∈ t.seenFiles
  reported : ∀ n, w.Reported n → w.tasks n.dir = .finished ∨
    ∃ t, w.tasks n.dir = .scanning t ∧ (n.id, false) ∈ t.seenFiles ∧ ¬ t.At (n.id, false)
  nodup : (w.reported.map Prod.fst).Nodup

def Waits (n : Name) : Task → List String → Prop
  | .found, _ => True
  | .scanning t, name :: _ => name ∉ t.seenDirs ∧ t.phase ≠ .prune
  | .scanning t, [] => ((n.id, false) ∉ t.seenFiles ∧ t.phase ≠ .prune) ∨ t.At (n.id, false)
  | _, _ => False

def Pending (w : Walk) (n : Name) : Prop := ∃ d rest, n.dir = d ++ rest ∧ Waits n (w.tasks d) rest

structure Finds (s : State) (w : Walk) : Prop where
  pending : ∀ n ∈ s.owed, ¬ w.Reported n → Pending w n
  files : ∀ d t n, w.tasks d = .scanning t → n ∈ s.owed → ¬ w.Judged n →
    t.snap.files n.final = s.main.disk.files n.final
  dirs : ∀ d t n d' rest, w.tasks d = .scanning t → n ∈ s.owed → n.dir = d' ++ rest →
    t.snap.dirs d' = true

structure Good (s : State) : Prop where
  inv : Inv s
  apart : ∀ w, s.walk = some w → Apart s w
  once : ∀ w, s.walk = some w → Once w
  finds : ∀ w, s.walk = some w → Finds s w

/-! ## Steps of calls -/

theorem Name.final_ne_tmp (n : Name) : n.final ≠ n.tmp := by
  intro h
  cases congrArg (fun p => p.2.2) h

theorem Call.Ready.congr {t t' : Disk} {x : Call} (h : x.Ready t)
    (hdirs : ∀ d, x.Needs d → t.dirs d = true → t'.dirs d = true)
    (hfiles : x.Holds x.name → t'.files x.name.tmp = t.files x.name.tmp) : x.Ready t' := by
  rw [Ready] at h ⊢
  unfold Holds at hfiles
  unfold Needs at hdirs
  cases hp : x.phase with
  | climb depth => rwa [hp] at h
  | descend depth =>
    rw [hp] at h hdirs
    exact ⟨h.1, h.2.1, hdirs _ rfl h.2.2⟩
  | reserve =>
    rw [hp] at h hdirs
    exact hdirs _ rfl h
  | openTmp =>
    rw [hp] at h hdirs hfiles
    refine ⟨hdirs _ rfl h.1, fun hk => ?_⟩
    rw [hfiles ⟨rfl, trivial⟩]
    exact h.2 hk
  | write handle =>
    rw [hp] at h hfiles
    dsimp only
    rwa [hfiles ⟨rfl, trivial⟩]
  | rename =>
    rw [hp] at h hfiles
    dsimp only
    rwa [hfiles ⟨rfl, trivial⟩]
  | overwrite =>
    rw [hp] at h hdirs
    exact hdirs _ rfl h
  | done => trivial
  | failed =>
    rw [hp] at h
    exact h

/-- A change of a disk at a time, to files of the names `N` only. -/
structure Within (N : Name → Prop) (now : Nat) (t t' : Disk) : Prop where
  tree : t.Tree → t'.Tree
  dirs : ∀ d, t.dirs d = true → t'.dirs d = true
  files : ∀ p, ¬ N (.of p) → t'.files p = t.files p
  created : ∀ p f, t'.files p = some f →
    f.created = now ∨ ∃ q g, t.files q = some g ∧ g.created = f.created

namespace Within

variable {N : Name → Prop} {now : Nat} {t t' t'' : Disk}

theorem refl : Within N now t t where
  tree := id
  dirs _ hd := hd
  files _ _ := rfl
  created p f hf := .inr ⟨p, f, hf, rfl⟩

theorem trans (h : Within N now t t') (h' : Within N now t' t'') : Within N now t t'' where
  tree := h'.tree ∘ h.tree
  dirs d hd := h'.dirs d (h.dirs d hd)
  files p hp := (h'.files p hp).trans (h.files p hp)
  created p f hf := by
    rcases h'.created p f hf with heq | ⟨q, g, hg, heq⟩
    · exact .inl heq
    · rcases h.created q g hg with heq' | ⟨q', g', hg', heq'⟩
      · exact .inl (heq.symm.trans heq')
      · exact .inr ⟨q', g', hg', heq'.trans heq⟩

theorem mkdir {d : Dir} (h : t.mkdir d = some t') : Within N now t t' where
  tree ht := ht.mkdir h
  dirs := (FileTree.mkdir_eq_some h).2.2
  files p _ := by rw [(FileTree.mkdir_eq_some h).1]
  created p f hf := .inr ⟨p, f, (FileTree.mkdir_eq_some h).1 ▸ hf, rfl⟩

theorem set {p : Dir × Key} {f : Option File} (hN : N (.of p))
    (hdir : f.isSome = true → t.dirs p.1 = true)
    (hf : ∀ g, f = some g → g.created = now ∨ ∃ q g', t.files q = some g' ∧ g'.created = g.created) :
    Within N now t (t.set p f) where
  tree ht := ht.set hdir
  dirs _ hd := hd
  files q hq := by
    refine FileTree.set_of_ne ?_
    rintro rfl
    exact hq hN
  created q g hg := by
    by_cases heq : q = p
    · subst heq
      rw [FileTree.set_self] at hg
      exact hf g hg
    · rw [FileTree.set_of_ne heq] at hg
      exact .inr ⟨q, g, hg, rfl⟩

theorem rename {p q : Dir × Key} {f : File} (hp : N (.of p)) (hq : N (.of q))
    (hf : t.files p = some f) (hdir : t.dirs q.1 = true) :
    Within N now t ((t.set p none).set q (some f)) := by
  have hgone : Within N now t (t.set p none) :=
    .set hp nofun fun g hg => by cases hg
  refine ⟨fun ht => (hgone.tree ht).set fun _ => hdir, hgone.dirs, fun r hr => ?_,
    fun r g hg => ?_⟩
  · have hne : r ≠ q := by
      rintro rfl
      exact hr hq
    rw [FileTree.set_of_ne hne]
    exact hgone.files r hr
  · by_cases heq : r = q
    · subst heq
      rw [FileTree.set_self] at hg
      cases hg
      exact .inr ⟨p, f, hf, rfl⟩
    · rw [FileTree.set_of_ne heq] at hg
      exact hgone.created r g hg

end Within

/-- A step that gives the call `c` the state `x`, and changes files of the names `N` only. -/
structure Move (s s' : State) (c : Nat) (N : Name → Prop) (x : Call) : Prop where
  clock : s.clock < s'.clock
  within : Within N s.clock s.main.disk s'.main.disk
  calls : s'.main.calls = Function.update s.main.calls c (some x)
  walk : s'.walk = s.walk
  owed : s'.owed = s.owed
  others : ∀ n, N n → ∀ c' x', c' ≠ c → s.main.calls c' = some x' → ¬ x'.Holds n
  settled : ∀ n, N n → Settled s n
  ready : x.Ready s'.main.disk
  len : 0 < x.len
  holds : ∀ n, x.Holds n → N n
  mono : ∀ n ∈ s.saved, n ∈ s'.saved
  saved : ∀ n ∈ s'.saved, n ∈ s.saved ∨ N n
  bundle : ∀ n, N n → n ∈ s'.saved → ∃ f, s'.main.disk.files n.final = some f ∧ 0 < f.len
  tmp : ∀ w n f, s.walk = some w → x.Holds n → s'.main.disk.files n.tmp = some f →
    w.before < f.created
  final : ∀ w n f, s.walk = some w → x.Holds n → n ∉ s.saved →
    s'.main.disk.files n.final = some f → w.before < f.created

namespace Move

variable {s s' : State} {c : Nat} {N : Name → Prop} {x : Call} {w : Walk}

theorem call (h : Move s s' c N x) {c' : Nat} {x' : Call} (hc' : s'.main.calls c' = some x') :
    (c' = c ∧ x' = x) ∨ (c' ≠ c ∧ s.main.calls c' = some x') := by
  rw [h.calls] at hc'
  by_cases heq : c' = c
  · subst heq
    rw [Function.update_self] at hc'
    cases hc'
    exact .inl ⟨rfl, rfl⟩
  · rw [Function.update_of_ne heq] at hc'
    exact .inr ⟨heq, hc'⟩

theorem files (h : Move s s' c N x) {c' : Nat} {x' : Call} (hne : c' ≠ c)
    (hc' : s.main.calls c' = some x') {n : Name} (hx : x'.Holds n) :
    s'.main.disk.files n.final = s.main.disk.files n.final ∧
      s'.main.disk.files n.tmp = s.main.disk.files n.tmp := by
  have hn : ¬ N n := fun hn => h.others n hn c' x' hne hc' hx
  exact ⟨h.within.files n.final hn, h.within.files n.tmp hn⟩

theorem inv (h : Move s s' c N x) (hs : Inv s) : Inv s' where
  tree := h.within.tree hs.tree
  created p f hf := by
    rcases h.within.created p f hf with heq | ⟨q, g, hg, heq⟩
    · rw [heq]
      exact h.clock
    · rw [← heq]
      exact (hs.created q g hg).trans h.clock
  ready c' x' hc' := by
    rcases h.call hc' with ⟨-, rfl⟩ | ⟨hne, hc'⟩
    · exact h.ready
    · exact (hs.ready c' x' hc').congr (fun d _ => h.within.dirs d)
        fun hx => (h.files hne hc' hx).2
  lens c' x' hc' := by
    rcases h.call hc' with ⟨-, rfl⟩ | ⟨-, hc'⟩
    · exact h.len
    · exact hs.lens c' x' hc'
  apart c₁ c₂ x₁ x₂ n hc₁ hc₂ hx₁ hx₂ := by
    rcases h.call hc₁ with ⟨rfl, rfl⟩ | ⟨hne₁, hold₁⟩
    · rcases h.call hc₂ with ⟨rfl, -⟩ | ⟨hne₂, hold₂⟩
      · rfl
      · cases h.others n (h.holds n hx₁) c₂ x₂ hne₂ hold₂ hx₂
    · rcases h.call hc₂ with ⟨rfl, rfl⟩ | ⟨hne₂, hold₂⟩
      · cases h.others n (h.holds n hx₂) c₁ x₁ hne₁ hold₁ hx₁
      · exact hs.apart c₁ c₂ x₁ x₂ n hold₁ hold₂ hx₁ hx₂
  saved n hn := by
    by_cases hN : N n
    · exact h.bundle n hN hn
    · obtain ⟨f, hf, hlen⟩ := hs.saved n ((h.saved n hn).resolve_right hN)
      exact ⟨f, (h.within.files n.final hN).trans hf, hlen⟩
  owed n hn := h.mono n (hs.owed n (h.owed ▸ hn))

theorem untouched (h : Move s s' c N x) (hw : s.walk = some w) {n : Name} (hn : n ∈ s.owed)
    (hj : ¬ w.Judged n) : s'.main.disk.files n.final = s.main.disk.files n.final :=
  h.within.files n.final fun hN => hj ((h.settled n hN w hw).2 hn)

theorem apart (h : Move s s' c N x) (hw : s.walk = some w) (hs : Apart s w) : Apart s' w where
  before := hs.before.trans h.clock
  tmp c' x' n f hc' hx hf := by
    rcases h.call hc' with ⟨-, rfl⟩ | ⟨hne, hc'⟩
    · exact h.tmp w n f hw hx hf
    · rw [(h.files hne hc' hx).2] at hf
      exact hs.tmp c' x' n f hc' hx hf
  final c' x' n f hc' hx hn hf := by
    have hunsaved : n ∉ s.saved := fun hn' => hn (h.mono n hn')
    rcases h.call hc' with ⟨-, rfl⟩ | ⟨hne, hc'⟩
    · exact h.final w n f hw hx hunsaved hf
    · rw [(h.files hne hc' hx).1] at hf
      exact hs.final c' x' n f hc' hx hunsaved hf
  held c' x' n hc' hx hn := by
    rw [h.owed] at hn
    rcases h.call hc' with ⟨-, rfl⟩ | ⟨-, hc'⟩
    · exact (h.settled n (h.holds n hx) w hw).2 hn
    · exact hs.held c' x' n hc' hx hn
  old n hn hj := by
    rw [h.owed] at hn
    obtain ⟨f, hf, hle⟩ := hs.old n hn hj
    exact ⟨f, (h.untouched hw hn hj).trans hf, hle⟩
  removing c' x' n hc' hx := by
    rcases h.call hc' with ⟨-, rfl⟩ | ⟨-, hc'⟩
    · exact (h.settled n (h.holds n hx) w hw).1
    · exact hs.removing c' x' n hc' hx
  unsaved n t ht hp hn := by
    rcases h.saved n hn with hn | hn
    · exact hs.unsaved n t ht hp hn
    · exact (h.settled n hn w hw).1 ⟨t, _, ht, hp, rfl⟩

theorem finds (h : Move s s' c N x) (hw : s.walk = some w) (hs : Finds s w) : Finds s' w where
  pending n hn := hs.pending n (h.owed ▸ hn)
  files d t n ht hn hj := by
    rw [h.owed] at hn
    rw [h.untouched hw hn hj]
    exact hs.files d t n ht hn hj
  dirs d t n d' rest ht hn := hs.dirs d t n d' rest ht (h.owed ▸ hn)

theorem good (h : Move s s' c N x) (hs : Good s) : Good s' where
  inv := h.inv hs.inv
  apart w hw := h.apart (h.walk ▸ hw) (hs.apart w (h.walk ▸ hw))
  once w hw := hs.once w (h.walk ▸ hw)
  finds w hw := h.finds (h.walk ▸ hw) (hs.finds w (h.walk ▸ hw))

end Move

theorem Good.later {s s' : State} (hs : Good s) (hmain : s'.main = s.main)
    (hclock : s.clock ≤ s'.clock) (hwalk : s'.walk = s.walk) (hsaved : s'.saved = s.saved)
    (howed : s'.owed = s.owed) : Good s' := by
  obtain ⟨fsync, clock, main, shadow, walk, saved, owed⟩ := s
  obtain ⟨fsync', clock', main', shadow', walk', saved', owed'⟩ := s'
  dsimp only at hmain hclock hwalk hsaved howed
  subst hmain hwalk hsaved howed
  obtain ⟨⟨htree, hcreated, hready, hlens, hapart, hsaved, howed⟩, hwalk, honce, hfinds⟩ := hs
  refine ⟨⟨htree, ?_, hready, hlens, hapart, hsaved, howed⟩, ?_, honce, ?_⟩
  · exact fun p f hf => (hcreated p f hf).trans_le hclock
  · intro w hw
    obtain ⟨hbefore, htmp, hfinal, hheld, hold, hremoving, hunsaved⟩ := hwalk w hw
    exact ⟨hbefore.trans_le hclock, htmp, hfinal, hheld, hold, hremoving, hunsaved⟩
  · intro w hw
    obtain ⟨hpending, hfiles, hdirs⟩ := hfinds w hw
    exact ⟨hpending, hfiles, hdirs⟩

/-! ## Starts -/

section

variable {s : State} {c : Nat}

theorem start_save (hs : Good s) {dir₁ dir₂ : String} {id len : Nat} (hlen : 0 < len) :
    Good (s.start c ⟨.save, ⟨[dir₁, dir₂], id⟩, len, .climb 2⟩) := by
  have hmove : Move s (s.start c ⟨.save, ⟨[dir₁, dir₂], id⟩, len, .climb 2⟩) c (fun _ => False)
      ⟨.save, ⟨[dir₁, dir₂], id⟩, len, .climb 2⟩ :=
    { clock := Nat.lt_succ_self _
      within := .refl
      calls := rfl
      walk := rfl
      owed := rfl
      others := fun _ h => h.elim
      settled := fun _ h => h.elim
      ready := Nat.le_refl 2
      len := hlen
      holds := fun _ h => h.2
      mono := fun _ h => h
      saved := fun _ h => .inl h
      bundle := fun _ h => h.elim
      tmp := fun _ _ _ _ h => h.2.elim
      final := fun _ _ _ _ h => h.2.elim }
  exact hmove.good hs

theorem start_replace (hs : Good s) {n : Name} {len : Nat} (hcalm : Calm s (.replace c n len)) :
    Good (s.start c ⟨.replace, n, len, .openTmp⟩) := by
  obtain ⟨hlen, hn, hfree, hsettled, htmp⟩ := hcalm
  obtain ⟨f, hf, hpos⟩ := hs.inv.saved n hn
  have hmove : Move s (s.start c ⟨.replace, n, len, .openTmp⟩) c (· = n)
      ⟨.replace, n, len, .openTmp⟩ :=
    { clock := Nat.lt_succ_self _
      within := .refl
      calls := rfl
      walk := rfl
      owed := rfl
      others := fun n' h c' x' _ hc' => h ▸ hfree c' x' hc'
      settled := fun n' h => h ▸ hsettled
      ready := ⟨hs.inv.tree.files _ f hf, nofun⟩
      len := hlen
      holds := fun _ h => h.1.symm
      mono := fun _ h => h
      saved := fun _ h => .inl h
      bundle := fun n' h _ => ⟨f, h ▸ hf, hpos⟩
      tmp := fun w n' g hw h hg => by
        have hnone := htmp (by rw [hw]; exact Option.some_ne_none w)
        rw [← h.1] at hg
        exact absurd (hnone.symm.trans hg) (by simp)
      final := fun w n' g _ h hunsaved => absurd (h.1 ▸ hn) hunsaved }
  exact hmove.good hs

end

/-! ## Steps of calls in progress -/

/-- The call `c` is `x`, and its step comes to a disk and to `x'`. -/
structure Runs (s : State) (c : Nat) (x : Call) (t' : Disk) (x' : Call) : Prop where
  call : s.main.calls c = some x
  step : x.step s.fsync s.clock s.main.disk = (t', x')

namespace Runs

variable {s : State} {c : Nat} {x x' : Call} {t' : Disk} {p : Phase}

theorem main (h : Runs s c x t' x') :
    (s.run c).main = ⟨t', Function.update s.main.calls c (some x')⟩ := by
  unfold State.run World.step
  rw [h.call]
  dsimp only
  rw [h.step]

theorem disk (h : Runs s c x t' x') : (s.run c).main.disk = t' := by rw [h.main]

theorem saved (h : Runs s c x t' x') {n : Name} (hn : n ∈ (s.run c).saved) :
    n ∈ s.saved ∨ (x.name = n ∧ ¬ x.Finished ∧ x'.phase = .done) := by
  refine hn.imp_right ?_
  rintro ⟨y, hy, -, hfin, hdone, hname⟩
  rw [h.call] at hy
  cases hy
  rw [h.step] at hdone
  exact ⟨hname, hfin, hdone⟩

theorem still (h : Runs s c x t' x') (hs : Good s)
    (hwithin : Within (fun _ => False) s.clock s.main.disk t') (hready : x'.Ready t')
    (hlen : 0 < x'.len) (hold : ∀ n, ¬ x'.Holds n) (hdone : x'.phase = .done → x.Finished) :
    Good (s.run c) := by
  have hmove : Move s (s.run c) c (fun _ => False) x' :=
    { clock := Nat.lt_succ_self _
      within := by rwa [h.disk]
      calls := by rw [h.main]
      walk := rfl
      owed := rfl
      others := fun _ h => h.elim
      settled := fun _ h => h.elim
      ready := by rwa [h.disk]
      len := hlen
      holds := hold
      mono := fun _ hn => .inl hn
      saved := fun n hn => (h.saved hn).imp_right fun hn => hn.2.1 (hdone hn.2.2)
      bundle := fun _ h => h.elim
      tmp := fun _ n _ _ hn => (hold n hn).elim
      final := fun _ n _ _ hn => (hold n hn).elim }
  exact hmove.good hs

theorem hold (h : Runs s c x t' { x with phase := p }) (hs : Good s)
    (hhold : { x with phase := p }.Holds x.name)
    (hwithin : Within (· = x.name) s.clock s.main.disk t')
    (hothers : ∀ c' x', c' ≠ c → s.main.calls c' = some x' → ¬ x'.Holds x.name)
    (hsettled : Settled s x.name) (hready : { x with phase := p }.Ready t')
    (hbundle : x.name ∈ s.saved → t'.files x.name.final = s.main.disk.files x.name.final)
    (htmp : ∀ w f, s.walk = some w → t'.files x.name.tmp = some f → w.before < f.created)
    (hfinal : ∀ w f, s.walk = some w → x.name ∉ s.saved → t'.files x.name.final = some f →
      w.before < f.created) : Good (s.run c) := by
  have hundone : p ≠ .done := by
    rintro rfl
    exact hhold.2
  have hsaved : ∀ n ∈ (s.run c).saved, n ∈ s.saved := fun n hn =>
    (h.saved hn).resolve_right fun hn => hundone hn.2.2
  have hmove : Move s (s.run c) c (· = x.name) { x with phase := p } :=
    { clock := Nat.lt_succ_self _
      within := by rwa [h.disk]
      calls := by rw [h.main]
      walk := rfl
      owed := rfl
      others := fun n hn => hn ▸ hothers
      settled := fun n hn => hn ▸ hsettled
      ready := by rwa [h.disk]
      len := hs.inv.lens c x h.call
      holds := fun n hn => hn.1.symm
      mono := fun _ hn => .inl hn
      saved := fun n hn => .inl (hsaved n hn)
      bundle := fun n heq hn => by
        subst heq
        rw [h.disk, hbundle (hsaved _ hn)]
        exact hs.inv.saved _ (hsaved _ hn)
      tmp := fun w n f hw hn hf => by
        rw [← hn.1, h.disk] at hf
        exact htmp w f hw hf
      final := fun w n f hw hn hunsaved hf => by
        rw [← hn.1, h.disk] at hf
        exact hfinal w f hw (hn.1 ▸ hunsaved) hf }
  exact hmove.good hs

theorem owner (h : Runs s c x t' x') (hs : Good s) (hx : x.Holds x.name) :
    (∀ c' y, c' ≠ c → s.main.calls c' = some y → ¬ y.Holds x.name) ∧ Settled s x.name := by
  refine ⟨fun c' y hne hc' hy => hne (hs.inv.apart c' c y x _ hc' h.call hy hx), fun w hw => ?_⟩
  exact ⟨(hs.apart w hw).removing c x _ h.call hx, (hs.apart w hw).held c x _ h.call hx⟩

theorem keep (h : Runs s c x t' { x with phase := p }) (hs : Good s) (hx : x.Holds x.name)
    (hhold : { x with phase := p }.Holds x.name)
    (hwithin : Within (· = x.name) s.clock s.main.disk t')
    (hready : { x with phase := p }.Ready t')
    (hfinal : t'.files x.name.final = s.main.disk.files x.name.final)
    (htmp : ∀ f, t'.files x.name.tmp = some f → f.created = s.clock ∨
      ∃ g, s.main.disk.files x.name.tmp = some g ∧ g.created = f.created) : Good (s.run c) := by
  obtain ⟨hothers, hsettled⟩ := h.owner hs hx
  refine h.hold hs hhold hwithin hothers hsettled hready (fun _ => hfinal) ?_ ?_
  · intro w f hw hf
    rcases htmp f hf with heq | ⟨g, hg, heq⟩
    · rw [heq]
      exact (hs.apart w hw).before
    · rw [← heq]
      exact (hs.apart w hw).tmp c x _ g h.call hx hg
  · intro w f hw hunsaved hf
    rw [hfinal] at hf
    exact (hs.apart w hw).final c x _ f h.call hx hunsaved hf

theorem complete (h : Runs s c x t' { x with phase := .done }) (hs : Good s)
    (hx : x.Holds x.name) (hwithin : Within (· = x.name) s.clock s.main.disk t')
    (hbundle : ∃ f, t'.files x.name.final = some f ∧ f.len = x.len) : Good (s.run c) := by
  obtain ⟨hothers, hsettled⟩ := h.owner hs hx
  obtain ⟨f, hf, hlen⟩ := hbundle
  have hpos : 0 < x.len := hs.inv.lens c x h.call
  have hmove : Move s (s.run c) c (· = x.name) { x with phase := .done } :=
    { clock := Nat.lt_succ_self _
      within := by rwa [h.disk]
      calls := by rw [h.main]
      walk := rfl
      owed := rfl
      others := fun n hn => hn ▸ hothers
      settled := fun n hn => hn ▸ hsettled
      ready := trivial
      len := hpos
      holds := fun _ hn => hn.2.elim
      mono := fun _ hn => .inl hn
      saved := fun n hn => (h.saved hn).imp_right fun hn => hn.1.symm
      bundle := fun n heq _ => by
        subst heq
        rw [h.disk]
        exact ⟨f, hf, hlen ▸ hpos⟩
      tmp := fun _ _ _ _ hn => hn.2.elim
      final := fun _ _ _ _ hn => hn.2.elim }
  exact hmove.good hs

end Runs

/-! ## The step of each phase -/

section

variable {s : State} {c : Nat} {x : Call} {depth : Nat}

theorem ready_down {t : Disk} (hle : depth ≤ x.name.dir.length)
    (hdir : t.dirs (x.name.dir.take depth) = true) : (x.down depth).Ready t := by
  unfold Call.Ready Call.down
  by_cases heq : depth = x.name.dir.length
  · rw [if_pos heq]
    rwa [heq, List.take_length] at hdir
  · rw [if_neg heq]
    exact ⟨Nat.succ_pos _, Nat.lt_of_le_of_ne hle heq, hdir⟩

theorem down_phase : (∀ n, ¬ (x.down depth).Holds n) ∧ (x.down depth).phase ≠ .done := by
  unfold Call.Holds Call.down
  by_cases heq : depth = x.name.dir.length
  · rw [if_pos heq]
    exact ⟨fun _ h => h.2, nofun⟩
  · rw [if_neg heq]
    exact ⟨fun _ h => h.2, nofun⟩

theorem run_mkdir (hs : Good s) (hx : s.main.calls c = some x) (hle : depth ≤ x.name.dir.length)
    {t' : Disk} (hmk : s.main.disk.mkdir (x.name.dir.take depth) = some t')
    (hstep : x.step s.fsync s.clock s.main.disk = (t', x.down depth)) : Good (s.run c) := by
  have hruns : Runs s c x t' (x.down depth) := ⟨hx, hstep⟩
  have hready : (x.down depth).Ready t' := ready_down hle (FileTree.mkdir_eq_some hmk).2.1
  exact hruns.still hs (.mkdir hmk) hready (hs.inv.lens c x hx) down_phase.1
    fun h => absurd h down_phase.2

theorem run_climb (hs : Good s) (hx : s.main.calls c = some x) (hp : x.phase = .climb depth) :
    Good (s.run c) := by
  have hready := hs.inv.ready c x hx
  rw [Call.Ready, hp] at hready
  rcases hmk : s.main.disk.mkdir (x.name.dir.take depth) with _ | t'
  · have hruns : Runs s c x s.main.disk { x with phase := .climb (depth - 1) } :=
      ⟨hx, by simp only [Call.step, hp, hmk]⟩
    exact hruns.still hs .refl ((Nat.sub_le _ _).trans hready) (hs.inv.lens c x hx)
      (fun _ h => h.2) nofun
  · exact run_mkdir hs hx hready hmk (by simp only [Call.step, hp, hmk])

theorem run_descend (hs : Good s) (hx : s.main.calls c = some x)
    (hp : x.phase = .descend depth) : Good (s.run c) := by
  have hready := hs.inv.ready c x hx
  rw [Call.Ready, hp] at hready
  obtain ⟨-, hle, hdir⟩ := hready
  have htake : (x.name.dir.take depth).dropLast = x.name.dir.take (depth - 1) := by
    rw [List.dropLast_eq_take, List.length_take, Nat.min_eq_left hle, List.take_take,
      Nat.min_eq_left (Nat.sub_le _ _)]
  rw [← htake] at hdir
  obtain ⟨t', hmk⟩ := FileTree.mkdir_of_parent hdir
  exact run_mkdir hs hx hle hmk (by simp only [Call.step, hp, hmk])

theorem run_reserve (hs : Good s) (hx : s.main.calls c = some x) (hp : x.phase = .reserve)
    (hcalm : Calm s (.run c)) : Good (s.run c) := by
  have hdir := hs.inv.ready c x hx
  rw [Call.Ready, hp] at hdir
  rcases hf : s.main.disk.files x.name.final with _ | f
  · obtain ⟨htmp, hfree, hremoving⟩ := hcalm x hx hp hf
    have hmk : s.main.disk.createNew x.name.final s.clock = .ok _ :=
      FileTree.createNew_of_none hdir hf
    have hunsaved : x.name ∉ s.saved := by
      intro hn
      obtain ⟨g, hg, -⟩ := hs.inv.saved _ hn
      cases hf.symm.trans hg
    have hwithin : Within (· = x.name) s.clock s.main.disk
        (s.main.disk.set x.name.final (some ⟨s.clock, 0⟩)) :=
      .set rfl (fun _ => hdir) fun g hg => .inl (by cases hg; rfl)
    have htmp' : (s.main.disk.set x.name.final (some ⟨s.clock, 0⟩)).files x.name.tmp = none := by
      rwa [FileTree.set_of_ne x.name.final_ne_tmp.symm]
    have hruns : Runs s c x (s.main.disk.set x.name.final (some ⟨s.clock, 0⟩))
        { x with phase := if s.fsync then .openTmp else .overwrite } :=
      ⟨hx, by simp only [Call.step, hp, hmk]⟩
    refine hruns.hold hs ?_ hwithin (fun c' x' _ => hfree c' x') ?_ ?_ ?_ ?_ ?_
    · cases s.fsync <;> exact ⟨rfl, trivial⟩
    · intro w hw
      exact ⟨hremoving w hw, fun hn => absurd (hs.inv.owed _ hn) hunsaved⟩
    · cases s.fsync
      · exact hdir
      · exact ⟨hdir, fun _ => htmp'⟩
    · exact fun hn => absurd hn hunsaved
    · intro w f hw hf
      cases htmp'.symm.trans hf
    · intro w f hw _ hf
      rw [FileTree.set_self] at hf
      cases hf
      exact (hs.apart w hw).before
  · have hmk : s.main.disk.createNew x.name.final s.clock = .error .alreadyExists := by
      rw [FileTree.createNew, if_pos (by exact hdir), hf]
    have hruns : Runs s c x s.main.disk
        { x with name := ⟨x.name.dir, (x.name.id + 1) % 2 ^ 64⟩ } :=
      ⟨hx, by simp only [Call.step, hp, hmk]⟩
    refine hruns.still hs .refl ?_ (hs.inv.lens c x hx) ?_ ?_
    · unfold Call.Ready
      rw [hp]
      exact hdir
    · unfold Call.Holds
      rw [hp]
      exact fun _ h => h.2
    · intro h
      cases hp.symm.trans h

theorem run_openTmp (hs : Good s) (hx : s.main.calls c = some x) (hp : x.phase = .openTmp) :
    Good (s.run c) := by
  have hready := hs.inv.ready c x hx
  rw [Call.Ready, hp] at hready
  obtain ⟨hdir, hnone⟩ := hready
  have hold : x.Holds x.name := by
    rw [Call.Holds, hp]
    exact ⟨rfl, trivial⟩
  have hkeep : ∀ created, (created = s.clock ∨ ∃ g, s.main.disk.files x.name.tmp = some g ∧
      g.created = created) →
      x.step s.fsync s.clock s.main.disk = (s.main.disk.set x.name.tmp (some ⟨created, 0⟩),
        { x with phase := .write created }) → Good (s.run c) := by
    intro created hcreated hstep
    have hruns : Runs s c x _ { x with phase := .write created } := ⟨hx, hstep⟩
    refine hruns.keep hs hold ⟨rfl, trivial⟩ ?_ ⟨_, FileTree.set_self, rfl⟩
      (FileTree.set_of_ne x.name.final_ne_tmp) ?_
    · refine .set rfl (fun _ => hdir) fun g hg => ?_
      cases hg
      exact hcreated.imp_right fun ⟨g, hg, heq⟩ => ⟨_, g, hg, heq⟩
    · intro f hf
      rw [FileTree.set_self] at hf
      cases hf
      exact hcreated
  cases hk : x.kind with
  | save =>
    have hmk : s.main.disk.createNew x.name.tmp s.clock = .ok _ :=
      FileTree.createNew_of_none hdir (hnone hk)
    exact hkeep s.clock (.inl rfl) (by simp only [Call.step, hp, hk, hmk])
  | replace =>
    have hopen : s.main.disk.openTruncate x.name.tmp s.clock = some _ :=
      FileTree.openTruncate_of_dir hdir
    refine hkeep ((s.main.disk.files x.name.tmp).elim s.clock File.created) ?_
      (by simp only [Call.step, hp, hk, hopen])
    rcases s.main.disk.files x.name.tmp with _ | f
    · exact .inl rfl
    · exact .inr ⟨f, rfl, rfl⟩

theorem run_write {handle : Nat} (hs : Good s) (hx : s.main.calls c = some x)
    (hp : x.phase = .write handle) : Good (s.run c) := by
  have hready := hs.inv.ready c x hx
  rw [Call.Ready, hp] at hready
  obtain ⟨f, hf, hcreated⟩ := hready
  have hold : x.Holds x.name := by
    rw [Call.Holds, hp]
    exact ⟨rfl, trivial⟩
  have hwrite : s.main.disk.write x.name.tmp handle x.len = _ :=
    FileTree.write_of_some hf hcreated
  have hruns : Runs s c x (s.main.disk.set x.name.tmp (some { f with len := x.len }))
      { x with phase := .rename } := ⟨hx, by simp only [Call.step, hp, hwrite]⟩
  refine hruns.keep hs hold ⟨rfl, trivial⟩ ?_ ⟨_, FileTree.set_self, rfl⟩
    (FileTree.set_of_ne x.name.final_ne_tmp) ?_
  · refine .set rfl (fun _ => hs.inv.tree.files _ f hf) fun g hg => ?_
    cases hg
    exact .inr ⟨_, f, hf, rfl⟩
  · intro g hg
    rw [FileTree.set_self] at hg
    cases hg
    exact .inr ⟨f, hf, rfl⟩

theorem run_rename (hs : Good s) (hx : s.main.calls c = some x) (hp : x.phase = .rename) :
    Good (s.run c) := by
  have hready := hs.inv.ready c x hx
  rw [Call.Ready, hp] at hready
  obtain ⟨f, hf, hlen⟩ := hready
  have hold : x.Holds x.name := by
    rw [Call.Holds, hp]
    exact ⟨rfl, trivial⟩
  have hdir : s.main.disk.dirs x.name.dir = true := hs.inv.tree.files _ f hf
  have hrename : s.main.disk.rename x.name.tmp x.name.final = some _ :=
    FileTree.rename_of_some hf
  have hruns : Runs s c x ((s.main.disk.set x.name.tmp none).set x.name.final (some f))
      { x with phase := .done } := ⟨hx, by simp only [Call.step, hp, hrename]⟩
  exact hruns.complete hs hold (.rename rfl rfl hf hdir) ⟨f, FileTree.set_self, hlen⟩

theorem run_overwrite (hs : Good s) (hx : s.main.calls c = some x) (hp : x.phase = .overwrite) :
    Good (s.run c) := by
  have hdir := hs.inv.ready c x hx
  rw [Call.Ready, hp] at hdir
  have hold : x.Holds x.name := by
    rw [Call.Holds, hp]
    exact ⟨rfl, trivial⟩
  have hopen : s.main.disk.openTruncate x.name.final s.clock = some _ :=
    FileTree.openTruncate_of_dir hdir
  obtain ⟨created, hcreated⟩ : ∃ created,
      created = (s.main.disk.files x.name.final).elim s.clock File.created := ⟨_, rfl⟩
  rw [← hcreated] at hopen
  have hwrite : (s.main.disk.set x.name.final (some ⟨created, 0⟩)).write x.name.final created
      x.len = _ := FileTree.write_of_some FileTree.set_self rfl
  have hruns : Runs s c x ((s.main.disk.set x.name.final (some ⟨created, 0⟩)).set x.name.final
      (some ⟨created, x.len⟩)) { x with phase := .done } :=
    ⟨hx, by simp only [Call.step, hp, hopen, hwrite]⟩
  refine hruns.complete hs hold ?_ ⟨_, FileTree.set_self, rfl⟩
  have hopened : Within (· = x.name) s.clock s.main.disk
      (s.main.disk.set x.name.final (some ⟨created, 0⟩)) := by
    refine .set rfl (fun _ => hdir) fun g hg => ?_
    cases hg
    rw [hcreated]
    rcases hf : s.main.disk.files x.name.final with _ | f
    · exact .inl rfl
    · exact .inr ⟨_, f, hf, rfl⟩
  refine hopened.trans (.set rfl (fun _ => hdir) fun g hg => ?_)
  cases hg
  exact .inr ⟨_, _, FileTree.set_self, rfl⟩

theorem run_good (hs : Good s) (hcalm : Calm s (.run c)) : Good (s.run c) := by
  rcases hc : s.main.calls c with _ | x
  · refine hs.later ?_ (Nat.le_succ _) rfl ?_ rfl
    · unfold State.run World.step
      rw [hc]
    · refine Set.ext fun n => ⟨fun hn => hn.resolve_right ?_, .inl⟩
      rintro ⟨x, hx, -⟩
      cases hc.symm.trans hx
  · cases hp : x.phase with
    | climb depth => exact run_climb hs hc hp
    | descend depth => exact run_descend hs hc hp
    | reserve => exact run_reserve hs hc hp hcalm
    | openTmp => exact run_openTmp hs hc hp
    | write handle => exact run_write hs hc hp
    | rename => exact run_rename hs hc hp
    | overwrite => exact run_overwrite hs hc hp
    | done =>
      have hruns : Runs s c x s.main.disk x := ⟨hc, by simp only [Call.step, hp]⟩
      refine hruns.still hs .refl (hs.inv.ready c x hc) (hs.inv.lens c x hc) ?_ fun _ => .inl hp
      unfold Call.Holds
      rw [hp]
      exact fun _ h => h.2
    | failed =>
      have hready := hs.inv.ready c x hc
      rw [Call.Ready, hp] at hready
      exact hready.elim

end

end Hardy.Storage.LocalDisk
