import Mathlib.Data.List.Nodup
import Hardy.Storage.DiskCalls

/-!
# Recovery beside calls

The walk of a calm run does no harm.  Its steps keep what holds between the steps of
calls: each is a change of the task of one directory, before which a bundle that waits
in the directory goes on waiting there or below (`Pending`), and the files that it
removes are no call's and no bundle's.  Without calm a call can fail on what the walk
has removed.
-/

namespace Hardy.Storage.LocalDisk

/-! ## Tasks -/

namespace Walk

variable {w : Walk} {d d' : Dir} {a : Task} {n : Name}

@[simp] theorem setTask_self : (w.setTask d a).tasks d = a := Function.update_self _ _ _

theorem setTask_of_ne (h : d' ≠ d) : (w.setTask d a).tasks d' = w.tasks d' :=
  Function.update_of_ne h _ _

theorem Judged.setTask (h : w.Judged n)
    (hsend : ∀ t id created, w.tasks d = .scanning t → t.phase ≠ .send id created) :
    (w.setTask d a).Judged n := by
  rcases h with h | ⟨t, created, ht, hp⟩
  · exact .inl h
  · have hne : n.dir ≠ d := by
      rintro rfl
      exact hsend t _ _ ht hp
    exact .inr ⟨t, created, (setTask_of_ne hne).trans ht, hp⟩

end Walk

theorem Pending.setTask {w : Walk} {d : Dir} {a : Task} {n : Name} (h : Pending w n)
    (hd : ∀ rest, n.dir = d ++ rest → Waits n (w.tasks d) rest → Waits n a rest) :
    Pending (w.setTask d a) n := by
  obtain ⟨d', rest, hdir, hwaits⟩ := h
  refine ⟨d', rest, hdir, ?_⟩
  by_cases heq : d' = d
  · subst heq
    rw [Walk.setTask_self]
    exact hd rest hdir hwaits
  · rwa [Walk.setTask_of_ne heq]

/-! ## Reading once -/

namespace Once

variable {w : Walk} {d : Dir} {a : Task} {t t' : Scan}

theorem setTask (hs : Once w)
    (hparent : ∀ d' name, d' ++ [name] = d →
      w.tasks d' = .finished ∨ ∃ t, w.tasks d' = .scanning t ∧ name ∈ t.seenDirs)
    (hchildren : ∀ name, w.tasks (d ++ [name]) ≠ .unknown →
      a = .finished ∨ ∃ t, a = .scanning t ∧ name ∈ t.seenDirs)
    (hseen : ∀ t k, a = .scanning t → t.At k → k ∈ t.seenFiles)
    (hreported : ∀ n, w.Reported n → n.dir = d → a = .finished ∨
      ∃ t, a = .scanning t ∧ (n.id, false) ∈ t.seenFiles ∧ ¬ t.At (n.id, false)) :
    Once (w.setTask d a) where
  parents d' name hne := by
    have hparents : w.tasks d' = .finished ∨ ∃ t, w.tasks d' = .scanning t ∧ name ∈ t.seenDirs := by
      by_cases heq : d' ++ [name] = d
      · exact hparent d' name heq
      · rw [Walk.setTask_of_ne heq] at hne
        exact hs.parents d' name hne
    by_cases heq : d' = d
    · subst heq
      have hchild : d' ++ [name] ≠ d' := by simp
      rw [Walk.setTask_of_ne hchild] at hne
      rw [Walk.setTask_self]
      exact hchildren name hne
    · rwa [Walk.setTask_of_ne heq]
  seen d' t k ht := by
    by_cases heq : d' = d
    · subst heq
      rw [Walk.setTask_self] at ht
      exact hseen t k ht
    · rw [Walk.setTask_of_ne heq] at ht
      exact hs.seen d' t k ht
  reported n hn := by
    by_cases heq : n.dir = d
    · rw [heq, Walk.setTask_self]
      exact hreported n hn heq
    · rw [Walk.setTask_of_ne heq]
      exact hs.reported n hn
  nodup := hs.nodup

theorem parent (hs : Once w) (hd : w.tasks d ≠ .unknown) (d' : Dir) (name : String)
    (h : d' ++ [name] = d) :
    w.tasks d' = .finished ∨ ∃ t, w.tasks d' = .scanning t ∧ name ∈ t.seenDirs := by
  subst h
  exact hs.parents d' name hd

theorem opened (hs : Once w) (hd : w.tasks d = .found) (hat : ∀ k, ¬ t.At k) :
    Once (w.setTask d (.scanning t)) := by
  refine hs.setTask (hs.parent (by simp [hd])) ?_ ?_ ?_
  · intro name hne
    rcases hs.parents d name hne with hfin | ⟨t, ht, -⟩
    · cases hd.symm.trans hfin
    · cases hd.symm.trans ht
  · rintro t k ⟨⟩ hk
    cases hat k hk
  · rintro n hn rfl
    rcases hs.reported n hn with hfin | ⟨t, ht, -⟩
    · cases hd.symm.trans hfin
    · cases hd.symm.trans ht

theorem rescan (hs : Once w) (hd : w.tasks d = .scanning t)
    (hdirs : ∀ name ∈ t.seenDirs, name ∈ t'.seenDirs)
    (hfiles : ∀ k ∈ t.seenFiles, k ∈ t'.seenFiles)
    (hat : ∀ k, t'.At k → k ∈ t'.seenFiles ∧ (t.At k ∨ k ∉ t.seenFiles)) :
    Once (w.setTask d (.scanning t')) := by
  refine hs.setTask (hs.parent (by simp [hd])) ?_ ?_ ?_
  · intro name hne
    rcases hs.parents d name hne with hfin | ⟨t₁, ht, hname⟩
    · cases hd.symm.trans hfin
    · cases hd.symm.trans ht
      exact .inr ⟨t', rfl, hdirs name hname⟩
  · rintro t k ⟨⟩ hk
    exact (hat k hk).1
  · rintro n hn rfl
    rcases hs.reported n hn with hfin | ⟨t₁, ht, hseen, hnot⟩
    · cases hd.symm.trans hfin
    · cases hd.symm.trans ht
      refine .inr ⟨t', rfl, hfiles _ hseen, fun hk => ?_⟩
      rcases (hat _ hk).2 with hk | hk
      · exact hnot hk
      · exact hk hseen

theorem finished (hs : Once w) (hd : w.tasks d = .scanning t) :
    Once (w.setTask d .finished) := by
  refine hs.setTask (hs.parent (by simp [hd])) ?_ ?_ ?_
  · exact fun _ _ => .inl rfl
  · intro t k h
    cases h
  · exact fun _ _ _ => .inl rfl

theorem found (hs : Once w) {name : String} (hd : w.tasks d = .scanning t)
    (hname : name ∈ t.seenDirs) (hunknown : w.tasks (d ++ [name]) = .unknown) :
    Once (w.setTask (d ++ [name]) .found) := by
  refine hs.setTask ?_ ?_ ?_ ?_
  · intro d' name' h
    obtain ⟨rfl, heq⟩ := List.append_inj' h rfl
    cases heq
    exact .inr ⟨t, hd, hname⟩
  · intro name' hne
    rcases hs.parents _ name' hne with hfin | ⟨t, ht, -⟩
    · cases hunknown.symm.trans hfin
    · cases hunknown.symm.trans ht
  · intro t k h
    cases h
  · intro n hn heq
    rw [← heq] at hunknown
    rcases hs.reported n hn with hfin | ⟨t, ht, -⟩
    · cases hunknown.symm.trans hfin
    · cases hunknown.symm.trans ht

theorem report (hs : Once w) {id : Nat} (created : Nat) (hd : w.tasks d = .scanning t)
    (hseen : (id, false) ∈ t.seenFiles) (hat : ¬ t.At (id, false))
    (hnew : ¬ w.Reported ⟨d, id⟩) :
    Once { w with reported := (⟨d, id⟩, created) :: w.reported } where
  parents := hs.parents
  seen := hs.seen
  reported n hn := by
    rcases List.mem_cons.mp hn with rfl | hn
    · exact .inr ⟨t, hd, hseen, hat⟩
    · exact hs.reported n hn
  nodup := List.nodup_cons.mpr ⟨hnew, hs.nodup⟩

end Once

/-! ## Steps of the walk -/

section

variable {s : State} {w w' : Walk} {d : Dir} {t t' : Scan} {k : Key}

theorem owed_dirs (hs : Good s) {n : Name} (hn : n ∈ s.owed) {d : Dir} {rest : List String}
    (hd : n.dir = d ++ rest) : s.main.disk.dirs d = true := by
  obtain ⟨f, hf, -⟩ := hs.inv.saved n (hs.inv.owed n hn)
  have hdir : s.main.disk.dirs n.dir = true := hs.inv.tree.files _ f hf
  rw [hd] at hdir
  exact hs.inv.tree.ancestor hdir

theorem Good.onWalk (hs : Good s) (hw : s.walk = some w) (hbefore : w'.before = w.before)
    (hjudged : ∀ n, w.Judged n → w'.Judged n)
    (hremove : ∀ d t k, w'.tasks d = .scanning t → t.phase = .remove k →
      (∃ t, w.tasks d = .scanning t ∧ t.phase = .remove k) ∨
        (Free s ⟨d, k.1⟩ ∧ (k.2 = false → ⟨d, k.1⟩ ∉ s.saved)))
    (honce : Once w') (hpending : ∀ n ∈ s.owed, ¬ w'.Reported n → Pending w' n)
    (hscan : ∀ d t, w'.tasks d = .scanning t →
      (∃ t₀, w.tasks d = .scanning t₀ ∧ t.snap = t₀.snap) ∨ t.snap = s.main.disk) :
    Good (s.onWalk w') := by
  have hapart := hs.apart w hw
  have hgood : Good { s with walk := some w' } := by
    refine ⟨⟨hs.inv.tree, hs.inv.created, hs.inv.ready, hs.inv.lens, hs.inv.apart, hs.inv.saved,
      hs.inv.owed⟩, ?_, ?_, ?_⟩
    · rintro _ ⟨⟩
      refine ⟨hbefore ▸ hapart.before, hbefore ▸ hapart.tmp, hbefore ▸ hapart.final,
        fun c x n hc hx hn => hjudged n (hapart.held c x n hc hx hn), ?_, ?_, ?_⟩
      · intro n hn hj
        rw [hbefore]
        exact hapart.old n hn fun h => hj (hjudged n h)
      · rintro c x n hc hx ⟨t, k, ht, hp, hk⟩
        rcases hremove _ t k ht hp with ⟨t', ht', hp'⟩ | ⟨hfree, -⟩
        · exact hapart.removing c x n hc hx ⟨t', k, ht', hp', hk⟩
        · rw [hk] at hfree
          exact hfree c x hc hx
      · intro n t ht hp
        rcases hremove _ t _ ht hp with ⟨t', ht', hp'⟩ | ⟨-, hunsaved⟩
        · exact hapart.unsaved n t' ht' hp'
        · exact hunsaved rfl
    · rintro _ ⟨⟩
      exact honce
    · rintro _ ⟨⟩
      refine ⟨hpending, fun d t n ht hn hj => ?_, fun d t n d' rest ht hn hd => ?_⟩
      · rcases hscan d t ht with ⟨t₀, ht₀, hsnap⟩ | hsnap
        · rw [hsnap]
          exact (hs.finds w hw).files d t₀ n ht₀ hn fun h => hj (hjudged n h)
        · rw [hsnap]
      · rcases hscan d t ht with ⟨t₀, ht₀, hsnap⟩ | hsnap
        · rw [hsnap]
          exact (hs.finds w hw).dirs d t₀ n d' rest ht₀ hn hd
        · rw [hsnap]
          exact owed_dirs hs hn hd
  exact hgood.later rfl (Nat.le_succ _) rfl rfl rfl

theorem Good.turn (hs : Good s) (hw : s.walk = some w) {a : Task}
    (hsend : ∀ t id created, w.tasks d = .scanning t → t.phase ≠ .send id created)
    (hremove : ∀ t k, a = .scanning t → t.phase = .remove k →
      Free s ⟨d, k.1⟩ ∧ (k.2 = false → ⟨d, k.1⟩ ∉ s.saved))
    (honce : Once (w.setTask d a))
    (hwaits : ∀ n ∈ s.owed, ¬ w.Reported n → ∀ rest, n.dir = d ++ rest →
      Waits n (w.tasks d) rest → Waits n a rest)
    (hscan : ∀ t, a = .scanning t →
      (∃ t₀, w.tasks d = .scanning t₀ ∧ t.snap = t₀.snap) ∨ t.snap = s.main.disk) :
    Good (s.onWalk (w.setTask d a)) := by
  refine hs.onWalk hw rfl (fun n hn => hn.setTask hsend) ?_ honce ?_ ?_
  · intro d' t k ht hp
    by_cases heq : d' = d
    · subst heq
      rw [Walk.setTask_self] at ht
      exact .inr (hremove t k ht hp)
    · rw [Walk.setTask_of_ne heq] at ht
      exact .inl ⟨t, ht, hp⟩
  · intro n hn hr
    exact ((hs.finds w hw).pending n hn hr).setTask (hwaits n hn hr)
  · intro d' t ht
    by_cases heq : d' = d
    · subst heq
      rw [Walk.setTask_self] at ht
      exact hscan t ht
    · rw [Walk.setTask_of_ne heq] at ht
      exact .inl ⟨t, ht, rfl⟩

theorem not_at_of_listing (hp : t.phase = .listing) (k : Key) : ¬ t.At k := by
  rintro (h | ⟨-, created, h⟩)
  · cases hp.symm.trans h
  · cases hp.symm.trans h

theorem not_at_of_prune (hp : t.phase = .prune) (k : Key) : ¬ t.At k := by
  rintro (h | ⟨-, created, h⟩)
  · cases hp.symm.trans h
  · cases hp.symm.trans h

theorem openDir_good (hs : Good s) (hw : s.walk = some w) (hd : w.tasks d = .found) :
    Good (s.onWalk (w.setTask d (.scanning
      ⟨s.main.disk, [], [], if s.main.disk.dirs d then .listing else .prune⟩))) := by
  refine hs.turn hw ?_ ?_ ((hs.once w hw).opened hd ?_) ?_ ?_
  · intro t id created ht
    cases hd.symm.trans ht
  · rintro t k ⟨⟩ hp
    dsimp only at hp
    split at hp <;> cases hp
  · intro k
    by_cases hdir : s.main.disk.dirs d = true
    · exact not_at_of_listing (if_pos hdir) k
    · exact not_at_of_prune (if_neg hdir) k
  · intro n hn _ rest hrest _
    rw [if_pos (owed_dirs hs hn hrest)]
    cases rest with
    | nil => exact .inl ⟨List.not_mem_nil, nofun⟩
    | cons name rest => exact ⟨List.not_mem_nil, nofun⟩
  · rintro t ⟨⟩
    exact .inr rfl

theorem nextFile_good (hs : Good s) (hw : s.walk = some w) (hd : w.tasks d = .scanning t)
    (hp : t.phase = .listing) (hk : k ∉ t.seenFiles) :
    Good (s.onWalk (w.setTask d (.scanning
      { t with seenFiles := k :: t.seenFiles, phase := .stat k }))) := by
  refine hs.turn hw ?_ ?_ ((hs.once w hw).rescan hd ?_ ?_ ?_) ?_ ?_
  · rintro t' id created ht' hp'
    cases hd.symm.trans ht'
    cases hp.symm.trans hp'
  · rintro t' k' ⟨⟩ ⟨⟩
  · exact fun _ h => h
  · exact fun _ h => List.mem_cons_of_mem _ h
  · rintro k' (h | ⟨-, created, h⟩)
    · cases h
      exact ⟨List.mem_cons_self, .inr hk⟩
    · cases h
  · intro n hn hr rest hrest hwaits
    rw [hd] at hwaits
    cases rest with
    | nil =>
      rcases hwaits with ⟨hnot, -⟩ | hat
      · by_cases heq : (n.id, false) = k
        · exact .inr (.inl (congrArg _ heq.symm))
        · exact .inl ⟨fun h => (List.mem_cons.mp h).elim heq hnot, nofun⟩
      · exact (not_at_of_listing hp _ hat).elim
    | cons name rest => exact ⟨hwaits.1, nofun⟩
  · rintro t' ⟨⟩
    exact .inl ⟨t, hd, rfl⟩

theorem nextDir_good (hs : Good s) (hw : s.walk = some w) (hd : w.tasks d = .scanning t)
    (hp : t.phase = .listing) {name : String} (hname : name ∉ t.seenDirs) :
    Good (s.onWalk ((w.setTask d (.scanning
      { t with seenDirs := name :: t.seenDirs })).setTask (d ++ [name]) .found)) := by
  have hne : d ++ [name] ≠ d := by simp
  have hself : (w.setTask d (.scanning { t with seenDirs := name :: t.seenDirs })).tasks d =
      .scanning { t with seenDirs := name :: t.seenDirs } := Walk.setTask_self
  have hunknown : w.tasks (d ++ [name]) = .unknown := by
    by_contra h
    rcases (hs.once w hw).parents d name h with hfin | ⟨t', ht', hmem⟩
    · cases hd.symm.trans hfin
    · cases hd.symm.trans ht'
      exact hname hmem
  have honce : Once (w.setTask d (.scanning { t with seenDirs := name :: t.seenDirs })) := by
    refine (hs.once w hw).rescan hd (fun _ h => List.mem_cons_of_mem _ h) (fun _ h => h) ?_
    exact fun k h => (not_at_of_listing hp k h).elim
  -- only the task of `d` had a phase
  have htask : ∀ d' t', ((w.setTask d (.scanning
      { t with seenDirs := name :: t.seenDirs })).setTask (d ++ [name]) .found).tasks d' =
        .scanning t' →
      ∃ t₀, w.tasks d' = .scanning t₀ ∧ t'.snap = t₀.snap ∧ t'.phase = t₀.phase := by
    intro d' t' ht'
    by_cases heq : d' = d ++ [name]
    · subst heq
      rw [Walk.setTask_self] at ht'
      cases ht'
    · rw [Walk.setTask_of_ne heq] at ht'
      by_cases heq' : d' = d
      · subst heq'
        rw [Walk.setTask_self] at ht'
        cases ht'
        exact ⟨t, hd, rfl, rfl⟩
      · rw [Walk.setTask_of_ne heq'] at ht'
        exact ⟨t', ht', rfl, rfl⟩
  refine hs.onWalk hw rfl ?_ ?_ (honce.found hself List.mem_cons_self ?_) ?_ ?_
  · intro n hn
    refine (hn.setTask ?_).setTask ?_
    · rintro t' id created ht' hp'
      cases hd.symm.trans ht'
      cases hp.symm.trans hp'
    · rintro t' id created ht' hp'
      rw [Walk.setTask_of_ne hne, hunknown] at ht'
      cases ht'
  · intro d' t' k ht' hp'
    obtain ⟨t₀, ht₀, -, hphase⟩ := htask d' t' ht'
    exact .inl ⟨t₀, ht₀, hphase ▸ hp'⟩
  · rw [Walk.setTask_of_ne hne, hunknown]
  · intro n hn hr
    obtain ⟨d', rest, hdir, hwaits⟩ := (hs.finds w hw).pending n hn hr
    by_cases heq : d' = d ++ [name]
    · refine ⟨d', rest, hdir, ?_⟩
      rw [heq, Walk.setTask_self]
      trivial
    · by_cases heq' : d' = d
      · subst heq'
        rw [hd] at hwaits
        cases rest with
        | nil =>
          refine ⟨d', [], hdir, ?_⟩
          rw [Walk.setTask_of_ne heq, Walk.setTask_self]
          exact hwaits
        | cons name' rest =>
          by_cases hname' : name' = name
          · subst hname'
            refine ⟨d' ++ [name'], rest, by rw [hdir, List.append_assoc]; rfl, ?_⟩
            rw [Walk.setTask_self]
            trivial
          · refine ⟨d', name' :: rest, hdir, ?_⟩
            rw [Walk.setTask_of_ne heq, Walk.setTask_self]
            exact ⟨fun h => (List.mem_cons.mp h).elim hname' hwaits.1, hwaits.2⟩
      · refine ⟨d', rest, hdir, ?_⟩
        rwa [Walk.setTask_of_ne heq, Walk.setTask_of_ne heq']
  · intro d' t' ht'
    obtain ⟨t₀, ht₀, hsnap, -⟩ := htask d' t' ht'
    exact .inl ⟨t₀, ht₀, hsnap⟩

/-! What the metadata lead to. -/

theorem judge_eq_remove {before : Nat} {k k' : Key} {f : Option File}
    (h : judge before k f = .remove k') :
    k' = k ∧ ∃ g, f = some g ∧ g.created ≤ before ∧ (k.2 = true ∨ g.len = 0) := by
  rcases f with _ | g
  · cases h
  · unfold judge at h
    dsimp only at h
    split at h
    · cases h
    · next hle =>
        split at h
        · next hjunk =>
            cases h
            refine ⟨rfl, g, rfl, Nat.le_of_not_lt hle, ?_⟩
            rwa [Bool.or_eq_true, decide_eq_true_eq] at hjunk
        · cases h

theorem judge_eq_send {before id created : Nat} {k : Key} {f : Option File}
    (h : judge before k f = .send id created) : k = (id, false) := by
  rcases f with _ | g
  · cases h
  · unfold judge at h
    dsimp only at h
    split at h
    · cases h
    · split at h
      · cases h
      · next hjunk =>
          cases h
          rw [Bool.or_eq_true, not_or] at hjunk
          exact Prod.ext rfl (eq_false_of_ne_true hjunk.1)

theorem judge_of_bundle {before id : Nat} {f : File} (hold : f.created ≤ before)
    (hlen : 0 < f.len) : judge before (id, false) (some f) = .send id f.created := by
  unfold judge
  dsimp only
  rw [if_neg (Nat.not_lt.mpr hold), Bool.false_or, decide_eq_false (Nat.ne_of_gt hlen),
    if_neg Bool.false_ne_true]

theorem judge_ne {before : Nat} {k : Key} {f : Option File} :
    judge before k f ≠ .prune ∧ ∀ k', judge before k f ≠ .stat k' := by
  unfold judge
  rcases f with _ | g
  · exact ⟨nofun, nofun⟩
  · dsimp only
    split
    · exact ⟨nofun, nofun⟩
    · split
      · exact ⟨nofun, nofun⟩
      · exact ⟨nofun, nofun⟩

theorem junk (hs : Good s) (hw : s.walk = some w) {k' : Key}
    (h : judge w.before k (s.main.disk.files (d, k)) = .remove k') :
    Free s ⟨d, k'.1⟩ ∧ (k'.2 = false → ⟨d, k'.1⟩ ∉ s.saved) := by
  obtain ⟨rfl, f, hf, hold, hjunk⟩ := judge_eq_remove h
  obtain ⟨id, tmp⟩ := k'
  have hunsaved : tmp = false → (⟨d, id⟩ : Name) ∉ s.saved := by
    rintro rfl hn
    obtain ⟨g, hg, hlen⟩ := hs.inv.saved _ hn
    cases hf.symm.trans hg
    exact Nat.lt_irrefl 0 ((hjunk.resolve_left nofun) ▸ hlen)
  refine ⟨fun c x hc hx => ?_, hunsaved⟩
  cases htmp : tmp with
  | true =>
    subst htmp
    exact Nat.not_lt.mpr hold ((hs.apart w hw).tmp c x _ f hc hx hf)
  | false =>
    subst htmp
    exact Nat.not_lt.mpr hold ((hs.apart w hw).final c x _ f hc hx (hunsaved rfl) hf)

theorem stat_good (hs : Good s) (hw : s.walk = some w) (hd : w.tasks d = .scanning t)
    (hp : t.phase = .stat k) :
    Good (s.onWalk (w.setTask d (.scanning
      { t with phase := judge w.before k (s.main.disk.files (d, k)) }))) := by
  refine hs.turn hw ?_ ?_ ((hs.once w hw).rescan hd ?_ ?_ ?_) ?_ ?_
  · rintro t' id created ht' hp'
    cases hd.symm.trans ht'
    cases hp.symm.trans hp'
  · rintro t' k' ⟨⟩ hp'
    exact junk hs hw hp'
  · exact fun _ h => h
  · exact fun _ h => h
  · rintro k' (h | ⟨hfalse, created, h⟩)
    · exact (judge_ne.2 k' h).elim
    · have hk : k = k' := (judge_eq_send h).trans (Prod.ext rfl hfalse.symm)
      have hat : t.At k' := .inl (hk ▸ hp)
      exact ⟨(hs.once w hw).seen d t k' hd hat, .inl hat⟩
  · rintro n hn hr rest hrest hwaits
    rw [hd] at hwaits
    cases rest with
    | nil =>
      rw [List.append_nil] at hrest
      subst hrest
      rcases hwaits with ⟨hnot, -⟩ | hk | ⟨-, created, hk⟩
      · exact .inl ⟨hnot, judge_ne.1⟩
      · -- the bundle that the walk is at
        cases hp.symm.trans hk
        have hnot : ¬ w.Judged n := by
          rintro (h | ⟨t', created, ht', hp'⟩)
          · exact hr h
          · cases hd.symm.trans ht'
            cases hp.symm.trans hp'
        obtain ⟨f, hf, hold⟩ := (hs.apart w hw).old n hn hnot
        obtain ⟨g, hg, hlen⟩ := hs.inv.saved n (hs.inv.owed n hn)
        cases hf.symm.trans hg
        have hfile : s.main.disk.files (n.dir, (n.id, false)) = some f := hf
        refine .inr (.inr ⟨rfl, f.created, ?_⟩)
        dsimp only
        rw [hfile, judge_of_bundle hold hlen]
      · cases hp.symm.trans hk
    | cons name rest => exact ⟨hwaits.1, judge_ne.1⟩
  · rintro t' ⟨⟩
    exact .inl ⟨t, hd, rfl⟩

theorem send_good (hs : Good s) (hw : s.walk = some w) (hd : w.tasks d = .scanning t)
    {id created : Nat} (hp : t.phase = .send id created) :
    Good (s.onWalk ({ w with reported := (⟨d, id⟩, created) :: w.reported }.setTask d
      (.scanning { t with phase := .listing }))) := by
  have hat : t.At (id, false) := .inr ⟨rfl, created, hp⟩
  have hseen : (id, false) ∈ t.seenFiles := (hs.once w hw).seen d t _ hd hat
  have honce : Once (w.setTask d (.scanning { t with phase := .listing })) := by
    refine (hs.once w hw).rescan hd (fun _ h => h) (fun _ h => h) ?_
    exact fun k h => (not_at_of_listing rfl k h).elim
  have hnew : ¬ w.Reported ⟨d, id⟩ := by
    intro hr
    rcases (hs.once w hw).reported _ hr with hfin | ⟨t', ht', -, hnot⟩
    · cases hd.symm.trans hfin
    · cases hd.symm.trans ht'
      exact hnot hat
  refine hs.onWalk hw rfl ?_ ?_
    (honce.report created Walk.setTask_self hseen (not_at_of_listing rfl _) hnew) ?_ ?_
  · rintro n (hr | ⟨t', created', ht', hp'⟩)
    · exact .inl (List.mem_cons_of_mem _ hr)
    · by_cases heq : n.dir = d
      · subst heq
        cases hd.symm.trans ht'
        cases hp.symm.trans hp'
        exact .inl List.mem_cons_self
      · refine .inr ⟨t', created', ?_, hp'⟩
        exact (Walk.setTask_of_ne heq).trans ht'
  · intro d' t' k ht' hp'
    by_cases heq : d' = d
    · subst heq
      rw [Walk.setTask_self] at ht'
      cases ht'
      cases hp'
    · rw [Walk.setTask_of_ne heq] at ht'
      exact .inl ⟨t', ht', hp'⟩
  · intro n hn hr
    have hr' : ¬ w.Reported n := fun h => hr (List.mem_cons_of_mem _ h)
    refine ((hs.finds w hw).pending n hn hr').setTask (fun rest hrest hwaits => ?_)
    rw [hd] at hwaits
    cases rest with
    | nil =>
      rcases hwaits with ⟨hnot, -⟩ | hk | ⟨-, created', hk⟩
      · exact .inl ⟨hnot, nofun⟩
      · cases hp.symm.trans hk
      · cases hp.symm.trans hk
        rw [List.append_nil] at hrest
        subst hrest
        exact absurd List.mem_cons_self hr
    | cons name rest => exact ⟨hwaits.1, nofun⟩
  · intro d' t' ht'
    by_cases heq : d' = d
    · subst heq
      rw [Walk.setTask_self] at ht'
      cases ht'
      exact .inl ⟨t, hd, rfl⟩
    · rw [Walk.setTask_of_ne heq] at ht'
      exact .inl ⟨t', ht', rfl⟩

theorem finish_good (hs : Good s) (hw : s.walk = some w) (hd : w.tasks d = .scanning t)
    (hp : t.phase = .listing)
    (hdirs : ∀ name, t.snap.dirs (d ++ [name]) = true →
      s.main.disk.dirs (d ++ [name]) = true → name ∈ t.seenDirs)
    (hfiles : ∀ k f, t.snap.files (d, k) = some f →
      (s.main.disk.files (d, k)).map File.created = some f.created → k ∈ t.seenFiles) :
    Good (s.onWalk (w.setTask d (.scanning { t with phase := .prune }))) := by
  refine hs.turn hw ?_ ?_ ((hs.once w hw).rescan hd (fun _ h => h) (fun _ h => h) ?_) ?_ ?_
  · rintro t' id created ht' hp'
    cases hd.symm.trans ht'
    cases hp.symm.trans hp'
  · rintro t' k' ⟨⟩ ⟨⟩
  · exact fun k h => (not_at_of_prune rfl k h).elim
  · intro n hn hr rest hrest hwaits
    exfalso
    rw [hd] at hwaits
    cases rest with
    | nil =>
      rw [List.append_nil] at hrest
      subst hrest
      rcases hwaits with ⟨hnot, -⟩ | hat
      · have hjudged : ¬ w.Judged n := by
          rintro (h | ⟨t', created, ht', hp'⟩)
          · exact hr h
          · cases hd.symm.trans ht'
            cases hp.symm.trans hp'
        obtain ⟨f, hf, -⟩ := hs.inv.saved n (hs.inv.owed n hn)
        have hsnap := (hs.finds w hw).files n.dir t n hd hn hjudged
        refine hnot (hfiles (n.id, false) f (hsnap.trans hf) ?_)
        exact congrArg (Option.map File.created) hf
      · exact not_at_of_listing hp _ hat
    | cons name rest =>
      have hbelow : n.dir = (d ++ [name]) ++ rest := by rw [hrest, List.append_assoc]; rfl
      refine hwaits.1 (hdirs name ?_ (owed_dirs hs hn hbelow))
      exact (hs.finds w hw).dirs d t n _ rest hd hn hbelow
  · rintro t' ⟨⟩
    exact .inl ⟨t, hd, rfl⟩

theorem kept_good (hs : Good s) (hw : s.walk = some w) (hd : w.tasks d = .scanning t)
    (hp : t.phase = .prune) : Good (s.onWalk (w.setTask d .finished)) := by
  refine hs.turn hw ?_ ?_ ((hs.once w hw).finished hd) ?_ ?_
  · rintro t' id created ht' hp'
    cases hd.symm.trans ht'
    cases hp.symm.trans hp'
  · intro t' k' h
    cases h
  · intro n hn hr rest hrest hwaits
    exfalso
    rw [hd] at hwaits
    cases rest with
    | nil =>
      rcases hwaits with ⟨-, hne⟩ | hat
      · exact hne hp
      · exact not_at_of_prune hp _ hat
    | cons name rest => exact hwaits.2 hp
  · intro t' h
    cases h

/-! ## What is removed -/

theorem Good.unlink (hs : Good s) {p : Dir × Key} {S O : Set Name}
    (htmp : ∀ c x n, s.main.calls c = some x → x.Holds n → n.tmp ≠ p)
    (hS : ∀ n ∈ S, n ∈ s.saved ∧ n.final ≠ p) (hother : ∀ n ∈ s.saved, n ∉ S → n.final = p)
    (hO : ∀ n ∈ O, n ∈ s.owed ∧ n ∈ S) :
    Good { s.onDisk (s.main.disk.removeFile p) with saved := S, owed := O } := by
  have hkeep : ∀ q, q ≠ p → (s.main.disk.removeFile p).files q = s.main.disk.files q :=
    fun _ => FileTree.set_of_ne
  have hsub : ∀ q f, (s.main.disk.removeFile p).files q = some f →
      q ≠ p ∧ s.main.disk.files q = some f := by
    intro q f hf
    have hne : q ≠ p := by
      rintro rfl
      have hgone : (s.main.disk.removeFile q).files q = none := FileTree.set_self
      cases hgone.symm.trans hf
    exact ⟨hne, (hkeep q hne).symm.trans hf⟩
  refine ⟨⟨?_, ?_, ?_, hs.inv.lens, hs.inv.apart, ?_,
    fun n hn => (hO n hn).2⟩, ?_, hs.once, ?_⟩
  · exact hs.inv.tree.set fun h => by cases h
  · exact fun q f hf => hs.inv.created q f (hsub q f hf).2
  · intro c x hc
    exact (hs.inv.ready c x hc).congr (fun d _ h => h) fun hx => hkeep _ (htmp c x _ hc hx)
  · intro n hn
    obtain ⟨f, hf, hlen⟩ := hs.inv.saved n (hS n hn).1
    exact ⟨f, (hkeep _ (hS n hn).2).trans hf, hlen⟩
  · intro w hw
    have hapart := hs.apart w hw
    refine ⟨hapart.before, ?_, ?_, ?_, ?_, hapart.removing, ?_⟩
    · exact fun c x n f hc hx hf => hapart.tmp c x n f hc hx (hsub _ f hf).2
    · intro c x n f hc hx hn hf
      obtain ⟨hne, hf⟩ := hsub _ f hf
      exact hapart.final c x n f hc hx (fun h => hne (hother n h hn)) hf
    · exact fun c x n hc hx hn => hapart.held c x n hc hx (hO n hn).1
    · intro n hn hj
      obtain ⟨f, hf, hold⟩ := hapart.old n (hO n hn).1 hj
      exact ⟨f, (hkeep _ (hS n (hO n hn).2).2).trans hf, hold⟩
    · exact fun n t ht hp hn => hapart.unsaved n t ht hp (hS n hn).1
  · intro w hw
    have hfinds := hs.finds w hw
    refine ⟨fun n hn => hfinds.pending n (hO n hn).1, fun d t n ht hn hj => ?_,
      fun d t n d' rest ht hn => hfinds.dirs d t n d' rest ht (hO n hn).1⟩
    exact (hfinds.files d t n ht (hO n hn).1 hj).trans (hkeep _ (hS n (hO n hn).2).2).symm

theorem delete_good (hs : Good s) (n : Name) : Good (s.delete n) := by
  have hinj : ∀ n' : Name, n'.final = n.final → n' = n := by
    rintro ⟨dir, id⟩ h
    cases h
    rfl
  have hgood := hs.unlink (p := n.final) (S := s.saved \ {n}) (O := s.owed \ {n}) ?_ ?_ ?_ ?_
  · exact hgood.later rfl (Nat.le_succ _) rfl rfl rfl
  · intro c x n' _ _ h
    cases congrArg (fun p => p.2.2) h
  · exact fun n' hn => ⟨hn.1, fun h => hn.2 (hinj n' h)⟩
  · intro n' hn hnot
    by_contra h
    exact hnot ⟨hn, fun heq => h (congrArg Name.final heq)⟩
  · exact fun n' hn => ⟨hn.1, hs.inv.owed n' hn.1, hn.2⟩

theorem remove_good (hs : Good s) (hw : s.walk = some w) (hd : w.tasks d = .scanning t)
    (hp : t.phase = .remove k) :
    Good ((s.onDisk (s.main.disk.removeFile (d, k))).onWalk
      (w.setTask d (.scanning { t with phase := .listing }))) := by
  have hgood : Good (s.onDisk (s.main.disk.removeFile (d, k))) := by
    refine hs.unlink (S := s.saved) (O := s.owed) ?_ ?_ ?_ ?_
    · rintro c x ⟨dir, id⟩ hc hx h
      cases h
      exact (hs.apart w hw).removing c x _ hc hx ⟨t, _, hd, hp, rfl⟩
    · refine fun n hn => ⟨hn, ?_⟩
      rintro ⟨⟩
      exact (hs.apart w hw).unsaved n t hd hp hn
    · exact fun n hn hnot => absurd hn hnot
    · exact fun n hn => ⟨hn, hs.inv.owed n hn⟩
  refine hgood.turn hw ?_ ?_ ((hs.once w hw).rescan hd (fun _ h => h) (fun _ h => h) ?_) ?_ ?_
  · rintro t' id created ht' hp'
    cases hd.symm.trans ht'
    cases hp.symm.trans hp'
  · rintro t' k' ⟨⟩ ⟨⟩
  · exact fun k h => (not_at_of_listing rfl k h).elim
  · intro n hn hr rest hrest hwaits
    rw [hd] at hwaits
    cases rest with
    | nil =>
      rcases hwaits with ⟨hnot, -⟩ | hk | ⟨-, created, hk⟩
      · exact .inl ⟨hnot, nofun⟩
      · cases hp.symm.trans hk
      · cases hp.symm.trans hk
    | cons name rest => exact ⟨hwaits.1, nofun⟩
  · rintro t' ⟨⟩
    exact .inl ⟨t, hd, rfl⟩

theorem pruned_good (hs : Good s) (hw : s.walk = some w) (hd : w.tasks d = .scanning t)
    (hp : t.phase = .prune) (hempty : s.main.disk.Empty d)
    (hneeds : ∀ c x, s.main.calls c = some x → ¬ x.Needs d) :
    Good ((s.onDisk (s.main.disk.removeDir d)).onWalk (w.setTask d .finished)) := by
  have hgood : Good (s.onDisk (s.main.disk.removeDir d)) := by
    refine ⟨⟨hs.inv.tree.removeDir hempty, hs.inv.created, fun c x hc => ?_, hs.inv.lens,
      hs.inv.apart, hs.inv.saved, hs.inv.owed⟩, fun w hw => ?_, hs.once, fun w hw => ?_⟩
    · refine (hs.inv.ready c x hc).congr (fun d' hd' hdir => ?_) fun _ => rfl
      have hne : d' ≠ d := by
        rintro rfl
        exact hneeds c x hc hd'
      exact (FileTree.removeDir_of_ne hne).trans hdir
    · have h := hs.apart w hw
      exact ⟨h.before, h.tmp, h.final, h.held, h.old, h.removing, h.unsaved⟩
    · have h := hs.finds w hw
      exact ⟨h.pending, h.files, h.dirs⟩
  exact kept_good hgood hw hd hp

theorem startWalk_good (hs : Good s) (hfree : ∀ n, Free s n) : Good s.startWalk := by
  have hnone : ∀ (d : Dir) t, (if d = [] then Task.found else .unknown) ≠ .scanning t := by
    intro d t h
    split at h <;> cases h
  refine ⟨⟨hs.inv.tree, ?_, hs.inv.ready, hs.inv.lens, hs.inv.apart, hs.inv.saved,
    fun _ hn => hn⟩, ?_, ?_, ?_⟩
  · exact fun p f hf => (hs.inv.created p f hf).trans (Nat.lt_succ_self _)
  · rintro w ⟨⟩
    refine ⟨Nat.lt_succ_self _, ?_, ?_, ?_, ?_, ?_, ?_⟩
    · exact fun c x n _ hc hx => absurd hx (hfree n c x hc)
    · exact fun c x n _ hc hx => absurd hx (hfree n c x hc)
    · exact fun c x n hc hx => absurd hx (hfree n c x hc)
    · intro n hn _
      obtain ⟨f, hf, -⟩ := hs.inv.saved n hn
      exact ⟨f, hf, Nat.le_of_lt (hs.inv.created _ f hf)⟩
    · exact fun c x n hc hx => absurd hx (hfree n c x hc)
    · exact fun n t ht => absurd ht (hnone _ _)
  · rintro w ⟨⟩
    refine ⟨?_, ?_, ?_, List.nodup_nil⟩
    · intro d name hne
      exact absurd (if_neg (by simp)) hne
    · exact fun d t k ht => absurd ht (hnone _ _)
    · intro n hn
      cases hn
  · rintro w ⟨⟩
    refine ⟨?_, ?_, ?_⟩
    · exact fun n _ _ => ⟨[], n.dir, rfl, trivial⟩
    · exact fun d t n ht => absurd ht (hnone _ _)
    · exact fun d t n d' rest ht => absurd ht (hnone _ _)

/-! ## Calm runs -/

theorem Start.good (h : Start s) : Good s := by
  have hcall : ∀ c x, s.main.calls c ≠ some x := by
    intro c x hc
    cases (h.calls c).symm.trans hc
  have hwalk : ∀ w, s.walk ≠ some w := by
    intro w hw
    cases h.walk.symm.trans hw
  refine ⟨⟨h.tree, h.created, ?_, ?_, ?_, h.saved, ?_⟩, ?_, ?_, ?_⟩
  · exact fun c x hc => absurd hc (hcall c x)
  · exact fun c x hc => absurd hc (hcall c x)
  · exact fun c _ x _ _ hc => absurd hc (hcall c x)
  · intro n hn
    rw [h.owed] at hn
    cases hn
  · exact fun w hw => absurd hw (hwalk w)
  · exact fun w hw => absurd hw (hwalk w)
  · exact fun w hw => absurd hw (hwalk w)

theorem Good.step {s' : State} {l : Label} (hs : Good s) (hcalm : Calm s l)
    (hstep : Step s l s') : Good s' := by
  cases hstep with
  | save dir₁ dir₂ id len _ _ => exact start_save hs hcalm
  | replace n len _ _ => exact start_replace hs hcalm
  | run c => exact run_good hs hcalm
  | delete n => exact delete_good hs n
  | walk _ => exact startWalk_good hs hcalm
  | openDir hw hd _ => exact openDir_good hs hw hd
  | nextDir hw hd hp hname _ => exact nextDir_good hs hw hd hp hname
  | nextFile hw hd hp hk _ => exact nextFile_good hs hw hd hp hk
  | stat hw hd hp => exact stat_good hs hw hd hp
  | remove hw hd hp => exact remove_good hs hw hd hp
  | send hw hd hp => exact send_good hs hw hd hp
  | finish hw hd hp hdirs hfiles => exact finish_good hs hw hd hp hdirs hfiles
  | pruned hw hd hp hempty => exact pruned_good hs hw hd hp hempty (hcalm hempty)
  | kept hw hd hp _ => exact kept_good hs hw hd hp

theorem Good.harmless (hs : Good s) : Harmless s where
  calls c x y hc _ := by
    rintro ⟨hfailed, -⟩
    have hready := hs.inv.ready c x hc
    rw [Call.Ready, hfailed] at hready
    exact hready
  reported w hw hended n hn := by
    refine List.count_eq_one_of_mem (hs.once w hw).nodup ?_
    by_contra hr
    obtain ⟨d, rest, -, hwaits⟩ := (hs.finds w hw).pending n hn hr
    rcases hended d with hd | hd
    · rw [hd] at hwaits
      exact hwaits
    · rw [hd] at hwaits
      exact hwaits

end

/-- In a calm run the walk does no harm. -/
theorem harmless_of_calm {s : State} (h : (machine.only Calm).Reachable s) : Harmless s := by
  have hgood : Good s := h.invariant (I := Good) (fun _ (hstart : Start _) => hstart.good)
    fun s l s' hs (hstep : Calm s l ∧ Step s l s') => hs.step hstep.1 hstep.2
  exact hgood.harmless

/-! ## A directory between two steps of a save -/

def store (bundle : Option File) : State where
  fsync := true
  clock := 1
  main := ⟨⟨fun d => d = [] || bundle.isSome && d.isPrefixOf ["00", "00"],
    fun p => if p = (["00", "00"], 0, false) then bundle else none⟩, fun _ => none⟩
  shadow := ⟨⟨fun d => d = [] || bundle.isSome && d.isPrefixOf ["00", "00"],
    fun p => if p = (["00", "00"], 0, false) then bundle else none⟩, fun _ => none⟩
  walk := none
  saved := {n | n = ⟨["00", "00"], 0⟩ ∧ bundle.isSome}
  owed := ∅

theorem start_store {bundle : Option File} (h : ∀ f ∈ bundle, f.created = 0 ∧ 0 < f.len) :
    Start (store bundle) where
  tree := by
    refine ⟨fun d name hd => ?_, fun p f hf => ?_⟩
    · unfold store at hd ⊢
      dsimp only at hd ⊢
      rw [Bool.or_eq_true, Bool.and_eq_true, List.isPrefixOf_iff_prefix] at hd ⊢
      rcases hd with hd | ⟨hsome, hd⟩
      · simp at hd
      · exact .inr ⟨hsome, (List.prefix_append d [name]).trans hd⟩
    · unfold store at hf ⊢
      dsimp only at hf ⊢
      rw [Option.ite_none_right_eq_some] at hf
      obtain ⟨rfl, rfl⟩ := hf
      rfl
  created p f hf := by
    unfold store at hf
    dsimp only at hf
    rw [Option.ite_none_right_eq_some] at hf
    exact Nat.lt_succ_of_le (Nat.le_of_eq (h f hf.2).1)
  saved n hn := by
    obtain ⟨rfl, hsome⟩ := hn
    obtain ⟨f, rfl⟩ := Option.isSome_iff_exists.mp hsome
    exact ⟨f, rfl, (h f rfl).2⟩
  calls _ := rfl
  shadow := rfl
  walk := rfl
  owed := rfl

/-- What the walk finds: `create_dir_all` has been through the directories. -/
def found : Disk where
  dirs := Function.update (store (some ⟨0, 1⟩)).main.disk.dirs ["00", "00"] true
  files := (store (some ⟨0, 1⟩)).main.disk.files

theorem prefix_of_found {d : Dir} (h : found.dirs d = true) : d <+: ["00", "00"] := by
  unfold found at h
  dsimp only at h
  rw [Function.update_apply] at h
  split at h
  · subst d
    exact List.prefix_rfl
  · simp only [store, Option.isSome_some, Bool.true_and, Bool.or_eq_true, decide_eq_true_eq,
      List.isPrefixOf_iff_prefix] at h
    rcases h with rfl | h
    · exact List.nil_prefix
    · exact h

theorem key_of_found {k : Key} {f : File} (h : found.files (["00", "00"], k) = some f) :
    k = (0, false) := by
  unfold found store at h
  dsimp only at h
  rw [Option.ite_none_right_eq_some] at h
  exact congrArg Prod.snd h.1

theorem not_empty_of_files {t : Disk} {d : Dir} {k : Key} {f : File} (h : t.files (d, k) = some f) :
    ¬ t.Empty d := by
  intro he
  cases (he.files k).symm.trans h

theorem calm_step {s s' : State} (h : (machine.only Calm).Reachable s) (l : Label)
    (hcalm : Calm s l) (hstep : Step s l s') : (machine.only Calm).Reachable s' :=
  .step l h ⟨hcalm, hstep⟩

theorem calm_run {s : State} {x y : Call} {disk : Disk}
    (h : (machine.only Calm).Reachable s) (c : Nat) (hshadow : s.shadow = s.main)
    (hx : s.main.calls c = some x) (hy : x.step s.fsync s.clock s.main.disk = (disk, y))
    (hcalm : Calm s (.run c)) :
    (machine.only Calm).Reachable
      { s with
        clock := s.clock + 1
        main := ⟨disk, Function.update s.main.calls c (some y)⟩
        shadow := ⟨disk, Function.update s.main.calls c (some y)⟩
        saved := {n | n ∈ s.saved ∨ s.Completes c n} } := by
  have hrun := calm_step h (.run c) hcalm (.run c)
  simp only [State.run, hshadow, World.step, hx, hy] at hrun
  exact hrun

/-- A bundle is saved beside the walk, which lists a file of the save too and reports the one
bundle of before. -/
theorem walked_harmless :
    ∃ s, (machine.only Calm).Reachable s ∧
      (∃ w, s.walk = some w ∧ w.Ended ∧ w.reported = [(⟨["00", "00"], 0⟩, 0)]) ∧
      (∃ x, s.main.calls 0 = some x ∧ x.phase = .done) ∧ Harmless s := by
  have h₀ : (machine.only Calm).Reachable (store (some ⟨0, 1⟩)) :=
    .start (start_store fun f hf => by cases hf; exact ⟨rfl, Nat.one_pos⟩)
  have h₁ := calm_step h₀ (.save 0 "00" "00" 1 1) Nat.one_pos (.save "00" "00" 1 1 rfl rfl)
  have h₂ := calm_run h₁ 0 rfl rfl rfl (by rintro x ⟨⟩ ⟨⟩)
  have h₃ := calm_step h₂ .walk (by
    rintro n c x hc ⟨-, hx⟩
    cases c <;> cases hc
    exact hx) (.walk rfl)
  have h₄ := calm_step h₃ (.openDir []) trivial (.openDir rfl rfl (.inl rfl))
  have h₅ := calm_step h₄ (.nextDir [] "00") trivial (.nextDir rfl rfl rfl (by simp) rfl)
  have h₆ := calm_step h₅ (.finish []) trivial
    (.finish (t := ⟨found, ["00"], [], .listing⟩) rfl rfl rfl
      (fun name hname _ => by
        have hbelow := prefix_of_found hname
        simpa using hbelow)
      nofun)
  have h₇ := calm_step h₆ (.prune []) (fun he => by cases he.dirs "00")
    (.kept rfl rfl rfl fun he => by cases he.dirs "00")
  have h₈ := calm_step h₇ (.openDir ["00"]) trivial (.openDir rfl rfl (.inr rfl))
  have h₉ := calm_step h₈ (.nextDir ["00"] "00") trivial (.nextDir rfl rfl rfl (by simp) rfl)
  have h₁₀ := calm_step h₉ (.finish ["00"]) trivial
    (.finish (t := ⟨found, ["00"], [], .listing⟩) rfl rfl rfl
      (fun name hname _ => by
        have hbelow := prefix_of_found hname
        simpa using hbelow)
      nofun)
  have h₁₁ := calm_step h₁₀ (.prune ["00"]) (fun he => by cases he.dirs "00")
    (.kept rfl rfl rfl fun he => by cases he.dirs "00")
  have h₁₂ := calm_step h₁₁ (.openDir ["00", "00"]) trivial (.openDir rfl rfl (.inr rfl))
  have h₁₃ := calm_run h₁₂ 0 rfl rfl rfl (by
    rintro x ⟨⟩ - -
    refine ⟨rfl, fun c y hc hy => ?_, ?_⟩
    · cases c <;> cases hc
      exact hy.2
    · rintro w ⟨⟩ ⟨t, k, ht, hk, -⟩
      cases ht
      cases hk)
  have h₁₄ := calm_run h₁₃ 0 rfl rfl rfl (by rintro x ⟨⟩ ⟨⟩)
  have h₁₅ := calm_step h₁₄ (.nextFile ["00", "00"] (1, true)) trivial
    (.nextFile rfl rfl rfl (by simp) nofun)
  have h₁₆ := calm_step h₁₅ (.stat ["00", "00"]) trivial (.stat rfl rfl rfl)
  have h₁₇ := calm_step h₁₆ (.nextFile ["00", "00"] (0, false)) trivial
    (.nextFile rfl rfl rfl (by simp) nofun)
  have h₁₈ := calm_step h₁₇ (.stat ["00", "00"]) trivial (.stat rfl rfl rfl)
  have h₁₉ := calm_step h₁₈ (.send ["00", "00"]) trivial (.send rfl rfl rfl)
  have h₂₀ := calm_run h₁₉ 0 rfl rfl rfl (by rintro x ⟨⟩ ⟨⟩)
  have h₂₁ := calm_run h₂₀ 0 rfl rfl rfl (by rintro x ⟨⟩ ⟨⟩)
  have h₂₂ := calm_step h₂₁ (.finish ["00", "00"]) trivial
    (.finish (t := ⟨found, [], [(0, false), (1, true)], .listing⟩) rfl rfl rfl
      (fun name hname _ => by
        have hbelow := prefix_of_found hname
        simp at hbelow)
      (fun k f hf _ => by
        obtain rfl := key_of_found hf
        exact List.mem_cons_self))
  have h₂₃ := calm_step h₂₂ (.prune ["00", "00"])
    (fun he => absurd he (not_empty_of_files (k := (0, false)) (f := ⟨0, 1⟩) rfl))
    (.kept rfl rfl rfl (not_empty_of_files (k := (0, false)) (f := ⟨0, 1⟩) rfl))
  refine ⟨_, h₂₃, ⟨_, rfl, fun d => ?_, rfl⟩, ⟨_, rfl, rfl⟩, harmless_of_calm h₂₃⟩
  by_cases hsecond : d = ["00", "00"]
  · subst hsecond
    exact .inr rfl
  by_cases hfirst : d = ["00"]
  · subst hfirst
    exact .inr rfl
  by_cases hroot : d = []
  · subst hroot
    exact .inr rfl
  left
  repeat rw [Walk.setTask_of_ne ‹_›]
  exact if_neg hroot

theorem reach {s s' : State} {l : Label} (h : machine.Reachable s) (hstep : Step s l s') :
    machine.Reachable s' := .step l h hstep

/-- The save makes the first directory, the walk prunes it, and the second cannot be
made. -/
theorem pruned_not_harmless : ¬ ∀ s, machine.Reachable s → Harmless s := by
  intro h
  have hstart : machine.Reachable (store none) := .start (start_store nofun)
  have hsave := reach hstart (.save (c := 0) "00" "00" 0 1 rfl rfl)
  have hclimb := reach hsave (.run 0)
  have hfirst := reach hclimb (.run 0)
  have hwalk := reach hfirst (.walk rfl)
  have hopen := reach hwalk (.openDir (d := []) rfl rfl (.inl rfl))
  have hfound := reach hopen (l := .nextDir [] "00") (.nextDir rfl rfl rfl (by simp) rfl)
  have hlisted := reach hfound (.finish (d := []) rfl rfl rfl
    (fun name hname _ => by
      have hdirs : Function.update (store none).main.disk.dirs ["00"] true [name] = true := hname
      by_cases heq : name = "00"
      · rw [heq]
        exact List.mem_cons_self
      · rw [Function.update_of_ne fun h => heq (List.cons.inj h).1] at hdirs
        cases hdirs)
    nofun)
  have hkept := reach hlisted (.kept (d := []) rfl rfl rfl fun he => by cases he.dirs "00")
  have hopen' := reach hkept (.openDir (d := ["00"]) rfl rfl (.inr rfl))
  have hlisted' := reach hopen' (.finish (d := ["00"]) rfl rfl rfl
    nofun nofun)
  have hpruned := reach hlisted' (.pruned (d := ["00"]) rfl rfl rfl
    ⟨fun name => rfl, fun k => rfl⟩)
  have hfailed := reach hpruned (.run 0)
  have hreserved := reach hfailed (.run 0)
  have hopened := reach hreserved (.run 0)
  have hwritten := reach hopened (.run 0)
  have hrenamed := reach hwritten (.run 0)
  exact (h _ hrenamed).calls 0 _ _ rfl rfl ⟨rfl, rfl⟩

end Hardy.Storage.LocalDisk
