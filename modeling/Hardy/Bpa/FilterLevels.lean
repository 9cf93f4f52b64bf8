import Mathlib.Data.List.Dedup
import Mathlib.Data.List.Flatten
import Hardy.Bpa.Filter

/-!
# Registration of filters

Model of `FilterChainBuilder` in `bpa/src/filter/chain.rs`: filters are put on levels, each above
what it comes after.  The order is checked when a filter is put in and never again; it survives
since nothing that another filter comes after is ever taken out (`Stacked.dropFilter`).
-/

namespace Hardy.Bpa

/-- `after` is a set in the source. -/
structure FilterEntry where
  name : String
  after : List String

structure LevelBuilder where
  readers : List (FilterEntry × ReadFilter)
  writers : List (FilterEntry × WriteFilter)

inductive Filter where
  | read (f : ReadFilter)
  | write (f : WriteFilter)

/-- `filter::Error` -/
inductive RegistrationError where
  | alreadyExists (name : String)
  | dependencyNotFound (names : String)
  | hasDependants (name : String) (dependants : List String)

namespace LevelBuilder

def isEmpty (l : LevelBuilder) : Bool := l.readers.isEmpty && l.writers.isEmpty

def names (l : LevelBuilder) : List String :=
  l.readers.map (·.1.name) ++ l.writers.map (·.1.name)

def entries (l : LevelBuilder) : List FilterEntry := l.readers.map (·.1) ++ l.writers.map (·.1)

def push (entry : FilterEntry) (l : LevelBuilder) : Filter → LevelBuilder
  | .read f => { l with readers := l.readers ++ [(entry, f)] }
  | .write f => { l with writers := l.writers ++ [(entry, f)] }

def take (name : String) (l : LevelBuilder) : Option (Filter × LevelBuilder) :=
  match l.readers.find? (·.1.name == name) with
  | some (_, f) => some (.read f, { l with readers := l.readers.eraseP (·.1.name == name) })
  | none =>
    match l.writers.find? (·.1.name == name) with
    | some (_, f) => some (.write f, { l with writers := l.writers.eraseP (·.1.name == name) })
    | none => none

end LevelBuilder

structure FilterChainBuilder where
  levels : List LevelBuilder

def findNames (unresolved : List String) (names : List String) : Bool × List String :=
  names.foldl (fun r n => if n ∈ r.2 then (true, r.2.erase n) else r) (false, unresolved)

def findStep (r : Nat × List String) (level : LevelBuilder × Nat) : Nat × List String :=
  let (foundDep, unresolved) := findNames r.2 level.1.names
  (if foundDep then level.2 + 1 else r.1, unresolved)

/-- The level above the last one that holds a dependency, and the dependencies that none
holds. -/
def findLevel (after : List String) (levels : List LevelBuilder) : Nat × List String :=
  levels.zipIdx.foldl findStep (0, after.dedup)

def takeFilter (name : String) : List LevelBuilder → Option (Filter × List LevelBuilder)
  | [] => none
  | l :: ls =>
    match l.take name with
    | some (f, l') => some (f, l' :: ls)
    | none => (takeFilter name ls).map fun r => (r.1, l :: r.2)

namespace FilterChainBuilder

/-- `FilterChainBuilder::default` -/
def empty : FilterChainBuilder := ⟨[]⟩

/-- `FilterChainBuilder::add_filter`: the result and the builder after it.  The names that are
missing are in the order of a hash set in the source. -/
def addFilter (b : FilterChainBuilder) (name : String) (filter : Filter) (after : List String) :
    Except RegistrationError Unit × FilterChainBuilder :=
  if b.levels.any (·.names.any (· == name)) then (.error (.alreadyExists name), b)
  else
    let (insertAt, unresolved) := findLevel after b.levels
    if !unresolved.isEmpty then
      (.error (.dependencyNotFound (", ".intercalate unresolved)), b)
    else
      let levels := if b.levels.length ≤ insertAt then b.levels ++ [⟨[], []⟩] else b.levels
      (.ok (), ⟨levels.modify insertAt (·.push ⟨name, after.dedup⟩ filter)⟩)

def removeFilter (b : FilterChainBuilder) (name : String) :
    Except RegistrationError (Option Filter) × FilterChainBuilder :=
  let dependants := ((b.levels.flatMap (·.entries)).filter (name ∈ ·.after)).map (·.name)
  if !dependants.isEmpty then (.error (.hasDependants name dependants), b)
  else
    match takeFilter name b.levels with
    | some (filter, levels) => (.ok (some filter), ⟨levels.filter (!·.isEmpty)⟩)
    | none => (.ok none, b)

def build (b : FilterChainBuilder) : FilterChain :=
  b.levels.map fun level => ⟨level.readers.map (·.2), level.writers.map (·.2)⟩

def names (b : FilterChainBuilder) : List String := b.levels.flatMap (·.names)

end FilterChainBuilder

/-! ## One level -/

namespace LevelBuilder

variable {l l' : LevelBuilder} {name : String} {entry : FilterEntry} {filter : Filter}

theorem names_eq : l.names = l.entries.map (·.name) := by
  simp [names, entries, Function.comp_def]

theorem push_entries : (l.push entry filter).entries.Perm (entry :: l.entries) := by
  cases filter with
  | read f =>
    simp only [push, entries, List.map_append, List.map_cons, List.map_nil, List.append_assoc,
      List.singleton_append]
    exact List.perm_middle
  | write f =>
    simp only [push, entries, List.map_append, List.map_cons, List.map_nil, ← List.append_assoc]
    exact List.perm_append_singleton ..

theorem push_isEmpty : (l.push entry filter).isEmpty = false := by
  cases filter <;> simp [push, isEmpty]

/-- What is left of a level after one of its filters is taken. -/
structure Thinned (name : String) (l l' : LevelBuilder) : Prop where
  sublist : l'.entries.Sublist l.entries
  others : ∀ e ∈ l.entries, e.name ≠ name → e ∈ l'.entries

theorem Thinned.refl (name : String) (l : LevelBuilder) : Thinned name l l :=
  ⟨.refl _, fun _ he _ => he⟩

theorem thinned_take {f : Filter} (h : l.take name = some (f, l')) : Thinned name l l' := by
  have hothers : ∀ {α : Type} (fs : List (FilterEntry × α)) (e : FilterEntry), e ∈ fs.map (·.1) →
      e.name ≠ name → e ∈ (fs.eraseP (·.1.name == name)).map (·.1) := by
    intro α fs e he hne
    obtain ⟨x, hx, rfl⟩ := List.mem_map.mp he
    exact List.mem_map_of_mem ((List.mem_eraseP_of_neg (by simpa using hne)).mpr hx)
  rw [take] at h
  split at h
  · cases h
    refine ⟨List.Sublist.append (List.eraseP_sublist.map _) (.refl _), fun e he hne => ?_⟩
    rcases List.mem_append.mp he with he | he
    · exact List.mem_append_left _ (hothers _ e he hne)
    · exact List.mem_append_right _ he
  · split at h
    · cases h
      refine ⟨List.Sublist.append (.refl _) (List.eraseP_sublist.map _), fun e he hne => ?_⟩
      rcases List.mem_append.mp he with he | he
      · exact List.mem_append_left _ he
      · exact List.mem_append_right _ (hothers _ e he hne)
    · cases h

end LevelBuilder

/-! ## The levels in their order -/

section

variable {seen seen' : List String} {levels levels' : List LevelBuilder} {l : LevelBuilder}
  {name : String} {entry : FilterEntry} {filter : Filter} {after : List String}

/-- Every filter comes after filters of lower levels only; `seen` are the names below. -/
def Stacked : List String → List LevelBuilder → Prop
  | _, [] => True
  | seen, l :: levels =>
    (∀ e ∈ l.entries, ∀ n ∈ e.after, n ∈ seen) ∧ Stacked (seen ++ l.names) levels

theorem Stacked.mono (h : Stacked seen levels) (hseen : seen ⊆ seen') : Stacked seen' levels := by
  induction levels generalizing seen seen' with
  | nil => trivial
  | cons l levels ih =>
    refine ⟨fun e he n hn => hseen (h.1 e he n hn), ih h.2 ?_⟩
    exact List.append_subset.mpr
      ⟨fun n hn => List.mem_append_left _ (hseen hn), List.subset_append_right _ _⟩

theorem Stacked.modify (h : Stacked seen levels) (k : Nat)
    (hafter : ∀ n ∈ entry.after, n ∈ seen ++ (levels.take k).flatMap (·.names)) :
    Stacked seen (levels.modify k (·.push entry filter)) := by
  induction levels generalizing seen k with
  | nil => cases k <;> exact h
  | cons l levels ih =>
    cases k with
    | zero =>
      rw [List.modify_zero_cons]
      refine ⟨fun e he n hn => ?_, h.2.mono ?_⟩
      · rcases List.mem_cons.mp (LevelBuilder.push_entries.mem_iff.mp he) with rfl | he
        · simpa using hafter n hn
        · exact h.1 e he n hn
      · intro n hn
        rcases List.mem_append.mp hn with hn | hn
        · exact List.mem_append_left _ hn
        · refine List.mem_append_right _ ?_
          rw [LevelBuilder.names_eq] at hn ⊢
          obtain ⟨e, he, rfl⟩ := List.mem_map.mp hn
          exact List.mem_map_of_mem
            (LevelBuilder.push_entries.mem_iff.mpr (List.mem_cons_of_mem _ he))
    | succ k =>
      rw [List.modify_succ_cons]
      refine ⟨h.1, ih h.2 k fun n hn => ?_⟩
      simpa [List.append_assoc] using hafter n hn

theorem Stacked.concat (h : Stacked seen levels)
    (hlast : ∀ e ∈ l.entries, ∀ n ∈ e.after, n ∈ seen ++ levels.flatMap (·.names)) :
    Stacked seen (levels ++ [l]) := by
  induction levels generalizing seen with
  | nil =>
    refine ⟨fun e he n hn => ?_, trivial⟩
    simpa using hlast e he n hn
  | cons l' levels ih =>
    refine ⟨h.1, ih h.2 fun e he n hn => ?_⟩
    simpa [List.append_assoc] using hlast e he n hn

theorem Stacked.thin (h : Stacked seen levels)
    (hlevels : List.Forall₂ (LevelBuilder.Thinned name) levels levels')
    (hfree : ∀ l ∈ levels, ∀ e ∈ l.entries, name ∉ e.after)
    (hseen : ∀ n ∈ seen, n ≠ name → n ∈ seen') : Stacked seen' levels' := by
  induction hlevels generalizing seen seen' with
  | nil => trivial
  | @cons l l' levels levels' hthin _ ih =>
    obtain ⟨hl, hrest⟩ := List.forall_mem_cons.mp hfree
    refine ⟨fun e he n hn => ?_, ih h.2 hrest fun n hn hne => ?_⟩
    · have he := hthin.sublist.subset he
      exact hseen n (h.1 e he n hn) fun heq => hl e he (heq ▸ hn)
    · rcases List.mem_append.mp hn with hn | hn
      · exact List.mem_append_left _ (hseen n hn hne)
      · refine List.mem_append_right _ ?_
        rw [LevelBuilder.names_eq] at hn ⊢
        obtain ⟨e, he, rfl⟩ := List.mem_map.mp hn
        exact List.mem_map_of_mem (hthin.others e he hne)

theorem Stacked.compact (h : Stacked seen levels) :
    Stacked seen (levels.filter (!·.isEmpty)) := by
  induction levels generalizing seen with
  | nil => trivial
  | cons l levels ih =>
    rw [List.filter_cons]
    split
    · exact ⟨h.1, ih h.2⟩
    · next hempty =>
        have hnames : l.names = [] := by
          simp only [LevelBuilder.isEmpty, Bool.not_eq_true', Bool.not_eq_false,
            Bool.and_eq_true, List.isEmpty_iff] at hempty
          simp [LevelBuilder.names, hempty]
        have hrest := h.2
        rw [hnames, List.append_nil] at hrest
        exact ih hrest

theorem Stacked.below (h : Stacked seen levels) {i : Nat} (hi : levels[i]? = some l) {e : FilterEntry}
    (he : e ∈ l.entries) {n : String} (hn : n ∈ e.after) :
    n ∈ seen ∨ ∃ j < i, ∃ l', levels[j]? = some l' ∧ n ∈ l'.names := by
  induction levels generalizing seen i with
  | nil => cases hi
  | cons l₀ levels ih =>
    cases i with
    | zero =>
      cases hi
      exact .inl (h.1 e he n hn)
    | succ i =>
      rcases ih h.2 hi with hseen | ⟨j, hj, l', hl', hn'⟩
      · rcases List.mem_append.mp hseen with hseen | hnames
        · exact .inl hseen
        · exact .inr ⟨0, Nat.succ_pos i, l₀, rfl, hnames⟩
      · exact .inr ⟨j + 1, Nat.succ_lt_succ hj, l', hl', hn'⟩

/-! ## The search for the dependencies -/

theorem findNames_spec {unresolved : List String} (hnodup : unresolved.Nodup) (names : List String) :
    (findNames unresolved names).2.Nodup ∧
      (∀ n ∈ unresolved, n ∈ names ∨ n ∈ (findNames unresolved names).2) ∧
      (∀ n ∈ unresolved, n ∈ names → (findNames unresolved names).1 = true) := by
  have hfold : ∀ (names : List String) (r : Bool × List String), r.2.Nodup →
      let r' := names.foldl (fun r n => if n ∈ r.2 then (true, r.2.erase n) else r) r
      r'.2.Nodup ∧ (∀ n ∈ r.2, n ∈ names ∨ n ∈ r'.2) ∧
        ((r.1 = true ∨ ∃ n ∈ r.2, n ∈ names) → r'.1 = true) := by
    intro names
    induction names with
    | nil => exact fun r h => ⟨h, fun n hn => .inr hn, by simp⟩
    | cons m names ih =>
      intro r h
      rw [List.foldl_cons]
      by_cases hm : m ∈ r.2
      · rw [if_pos hm]
        obtain ⟨hnodup, hleft, hfound⟩ := ih (true, r.2.erase m) (h.erase m)
        refine ⟨hnodup, fun n hn => ?_, fun _ => hfound (.inl rfl)⟩
        by_cases heq : n = m
        · exact .inl (heq ▸ List.mem_cons_self)
        · exact (hleft n ((List.mem_erase_of_ne heq).mpr hn)).imp_left (List.mem_cons_of_mem _)
      · rw [if_neg hm]
        obtain ⟨hnodup, hleft, hfound⟩ := ih r h
        refine ⟨hnodup, fun n hn => (hleft n hn).imp_left (List.mem_cons_of_mem _), ?_⟩
        rintro (hr | ⟨n, hn, hmem⟩)
        · exact hfound (.inl hr)
        · rcases List.mem_cons.mp hmem with rfl | hmem
          · exact absurd hn hm
          · exact hfound (.inr ⟨n, hn, hmem⟩)
  obtain ⟨hnodup, hleft, hfound⟩ := hfold names (false, unresolved) hnodup
  exact ⟨hnodup, hleft, fun n hn hmem => hfound (.inr ⟨n, hn, hmem⟩)⟩

theorem findStep_spec {r : Nat × List String} {k : Nat} (hk : r.1 ≤ k) (hnodup : r.2.Nodup)
    (l : LevelBuilder) :
    (findStep r (l, k)).2.Nodup ∧ r.1 ≤ (findStep r (l, k)).1 ∧ (findStep r (l, k)).1 ≤ k + 1 ∧
      ∀ n ∈ r.2, n ∈ (findStep r (l, k)).2 ∨ n ∈ l.names ∧ (findStep r (l, k)).1 = k + 1 := by
  obtain ⟨hleft, hmissing, hfound⟩ := findNames_spec hnodup l.names
  rw [findStep]
  dsimp only
  refine ⟨hleft, ?_, ?_, fun n hn => ?_⟩
  · split <;> omega
  · split <;> omega
  · by_cases hmem : n ∈ l.names
    · exact .inr ⟨hmem, if_pos (hfound n hn hmem)⟩
    · exact .inl ((hmissing n hn).resolve_left hmem)

theorem foldl_findStep (levels : List LevelBuilder) (k : Nat) (r : Nat × List String)
    (hk : r.1 ≤ k) (hnodup : r.2.Nodup) :
    r.1 ≤ ((levels.zipIdx k).foldl findStep r).1 ∧
      ((levels.zipIdx k).foldl findStep r).1 ≤ k + levels.length ∧
      ∀ n ∈ r.2, n ∈ ((levels.zipIdx k).foldl findStep r).2 ∨
        n ∈ (levels.take (((levels.zipIdx k).foldl findStep r).1 - k)).flatMap (·.names) := by
  induction levels generalizing k r with
  | nil => exact ⟨Nat.le_refl _, by simpa using hk, fun n hn => .inl hn⟩
  | cons l levels ih =>
    obtain ⟨hnodup', hfirst, hlast, hmem⟩ := findStep_spec hk hnodup l
    obtain ⟨hle, hlen, hrest⟩ := ih (k + 1) (findStep r (l, k)) hlast hnodup'
    rw [List.zipIdx_cons, List.foldl_cons]
    refine ⟨by omega, by rw [List.length_cons]; omega, fun n hn => ?_⟩
    generalize hfold : (levels.zipIdx (k + 1)).foldl findStep (findStep r (l, k)) = r' at *
    rcases hmem n hn with hmissing | ⟨hname, hat⟩
    · refine (hrest n hmissing).imp_right fun hbelow => ?_
      by_cases hlow : r'.1 ≤ k + 1
      · rw [Nat.sub_eq_zero_of_le hlow] at hbelow
        cases hbelow
      · have hsub : r'.1 - k = (r'.1 - (k + 1)) + 1 := by omega
        rw [hsub, List.take_succ_cons, List.flatMap_cons]
        exact List.mem_append_right _ hbelow
    · have hsub : r'.1 - k = (r'.1 - (k + 1)) + 1 := by omega
      rw [hsub, List.take_succ_cons, List.flatMap_cons]
      exact .inr (List.mem_append_left _ hname)

theorem findLevel_spec (after : List String) (levels : List LevelBuilder) :
    (findLevel after levels).1 ≤ levels.length ∧ ∀ n ∈ after, n ∈ (findLevel after levels).2 ∨
      n ∈ (levels.take (findLevel after levels).1).flatMap (·.names) := by
  obtain ⟨-, hlen, hmem⟩ := foldl_findStep levels 0 (0, after.dedup) (Nat.le_refl _)
    (List.nodup_dedup _)
  rw [Nat.zero_add] at hlen
  exact ⟨hlen, fun n hn => hmem n (List.mem_dedup.mpr hn)⟩

/-! ## The search for a filter -/

theorem takeFilter_thinned {f : Filter} {levels levels' : List LevelBuilder}
    (h : takeFilter name levels = some (f, levels')) :
    List.Forall₂ (LevelBuilder.Thinned name) levels levels' := by
  have hsame : ∀ ls : List LevelBuilder, List.Forall₂ (LevelBuilder.Thinned name) ls ls := by
    intro ls
    induction ls with
    | nil => exact .nil
    | cons l ls ih => exact .cons (.refl name l) ih
  induction levels generalizing levels' with
  | nil => cases h
  | cons l levels ih =>
    rw [takeFilter] at h
    split at h
    · next hl =>
        cases h
        exact .cons (LevelBuilder.thinned_take hl) (hsame levels)
    · obtain ⟨r, hr, heq⟩ := Option.map_eq_some_iff.mp h
      cases heq
      exact .cons (.refl name l) (ih hr)

theorem names_sublist (h : List.Forall₂ (LevelBuilder.Thinned name) levels levels') :
    (levels'.flatMap (·.names)).Sublist (levels.flatMap (·.names)) := by
  induction h with
  | nil => exact .refl _
  | cons hthin _ ih =>
    rw [List.flatMap_cons, List.flatMap_cons, LevelBuilder.names_eq, LevelBuilder.names_eq]
    exact (hthin.sublist.map _).append ih

end

/-! ## What a placement changes -/

theorem mem_modify {α : Type} {f : α → α} {k : Nat} {a : α} {as : List α} (h : a ∈ as.modify k f) :
    a ∈ as ∨ ∃ a' ∈ as, a = f a' := by
  induction as generalizing k with
  | nil => cases k <;> cases h
  | cons a' as ih =>
    cases k with
    | zero =>
      rcases List.mem_cons.mp h with rfl | h
      · exact .inr ⟨a', List.mem_cons_self, rfl⟩
      · exact .inl (List.mem_cons_of_mem _ h)
    | succ k =>
      rcases List.mem_cons.mp h with rfl | h
      · exact .inl List.mem_cons_self
      · rcases ih h with h | ⟨a, ha, heq⟩
        · exact .inl (List.mem_cons_of_mem _ h)
        · exact .inr ⟨a, List.mem_cons_of_mem _ ha, heq⟩

theorem modify_concat {α : Type} (f : α → α) (as : List α) (a : α) :
    (as ++ [a]).modify as.length f = as ++ [f a] := by
  induction as with
  | nil => rfl
  | cons b as ih => rw [List.cons_append, List.length_cons, List.modify_succ_cons, ih,
      List.cons_append]

theorem push_names {entry : FilterEntry} {filter : Filter} (l : LevelBuilder) :
    (l.push entry filter).names.Perm (entry.name :: l.names) := by
  rw [LevelBuilder.names_eq, LevelBuilder.names_eq]
  exact LevelBuilder.push_entries.map _

theorem modify_names {entry : FilterEntry} {filter : Filter} {levels : List LevelBuilder} {k : Nat}
    (hk : k < levels.length) :
    ((levels.modify k (·.push entry filter)).flatMap (·.names)).Perm
      (entry.name :: levels.flatMap (·.names)) := by
  induction levels generalizing k with
  | nil => cases hk
  | cons l levels ih =>
    cases k with
    | zero => exact (push_names l).append_right _
    | succ k =>
      refine ((ih (Nat.lt_of_succ_lt_succ hk)).append_left _).trans ?_
      exact List.perm_middle

/-! ## Runs of calls -/

namespace FilterChainBuilder

variable {b : FilterChainBuilder}

structure WellOrdered (b : FilterChainBuilder) : Prop where
  unique : b.names.Nodup
  nonempty : ∀ l ∈ b.levels, l.isEmpty = false
  stacked : Stacked [] b.levels

theorem wellOrdered_empty : empty.WellOrdered := ⟨.nil, nofun, trivial⟩

theorem WellOrdered.addFilter (h : b.WellOrdered) (name : String) (filter : Filter)
    (after : List String) : (b.addFilter name filter after).2.WellOrdered := by
  rw [FilterChainBuilder.addFilter]
  split
  · exact h
  · next hnew =>
      dsimp only
      split
      · exact h
      · next hresolved =>
          obtain ⟨hlen, hbelow⟩ := findLevel_spec after b.levels
          have hnil : (findLevel after b.levels).2 = [] := by simpa using hresolved
          have hname : name ∉ b.names := by
            intro hmem
            obtain ⟨l, hl, hn⟩ := List.mem_flatMap.mp hmem
            refine hnew (List.any_eq_true.mpr ⟨l, hl, List.any_eq_true.mpr ⟨name, hn, ?_⟩⟩)
            exact beq_self_eq_true name
          have hafter : ∀ n ∈ after.dedup,
              n ∈ (b.levels.take (findLevel after b.levels).1).flatMap (·.names) := by
            intro n hn
            refine (hbelow n (List.mem_dedup.mp hn)).resolve_left fun hmissing => ?_
            rw [hnil] at hmissing
            cases hmissing
          split
          · next hlast =>
              have heq := Nat.le_antisymm hlen hlast
              rw [heq] at hafter ⊢
              rw [modify_concat]
              rw [List.take_length] at hafter
              refine ⟨?_, fun l hl => ?_, h.stacked.concat fun e he n hn => ?_⟩
              · have hperm : (FilterChainBuilder.names
                    ⟨b.levels ++ [LevelBuilder.push ⟨name, after.dedup⟩ ⟨[], []⟩ filter]⟩).Perm
                    (name :: b.names) := by
                  rw [FilterChainBuilder.names, List.flatMap_append, List.flatMap_singleton]
                  exact ((push_names _).append_left _).trans (List.perm_append_singleton ..)
                exact hperm.nodup_iff.mpr (List.nodup_cons.mpr ⟨hname, h.unique⟩)
              · rcases List.mem_append.mp hl with hl | hl
                · exact h.nonempty l hl
                · rw [List.mem_singleton.mp hl]
                  exact LevelBuilder.push_isEmpty
              · have he := LevelBuilder.push_entries.mem_iff.mp he
                obtain rfl : e = ⟨name, after.dedup⟩ := by simpa [LevelBuilder.entries] using he
                exact hafter n hn
          · next hlower =>
              have hlt := Nat.lt_of_not_le hlower
              refine ⟨?_, fun l hl => ?_, h.stacked.modify _ fun n hn => hafter n hn⟩
              · exact (modify_names hlt).nodup_iff.mpr (List.nodup_cons.mpr ⟨hname, h.unique⟩)
              · rcases mem_modify hl with hl | ⟨l', -, rfl⟩
                · exact h.nonempty l hl
                · exact LevelBuilder.push_isEmpty

theorem WellOrdered.removeFilter (h : b.WellOrdered) (name : String) :
    (b.removeFilter name).2.WellOrdered := by
  rw [FilterChainBuilder.removeFilter]
  split
  · exact h
  · next hfree =>
      split
      · next f levels ht =>
          have hthin := takeFilter_thinned ht
          have hnone : ∀ l ∈ b.levels, ∀ e ∈ l.entries, name ∉ e.after := by
            intro l hl e he hmem
            have hmem : e.name ∈ (((b.levels.flatMap (·.entries)).filter (name ∈ ·.after)).map
                (·.name)) :=
              List.mem_map_of_mem (List.mem_filter.mpr
                ⟨List.mem_flatMap.mpr ⟨l, hl, he⟩, decide_eq_true hmem⟩)
            rw [Bool.not_eq_true, Bool.not_eq_false', List.isEmpty_iff] at hfree
            rw [hfree] at hmem
            cases hmem
          refine ⟨?_, fun l hl => ?_, (h.stacked.thin hthin hnone fun n hn => ?_).compact⟩
          · refine h.unique.sublist (List.Sublist.trans ?_ (names_sublist hthin))
            exact List.filter_sublist.flatMap _
          · simpa using (List.mem_filter.mp hl).2
          · cases hn
      · exact h

end FilterChainBuilder

inductive BuilderCall where
  | addFilter (name : String) (filter : Filter) (after : List String)
  | removeFilter (name : String)

namespace FilterChainBuilder

variable {b : FilterChainBuilder}

def call (b : FilterChainBuilder) :
    BuilderCall → Except RegistrationError (Option Filter) × FilterChainBuilder
  | .addFilter name filter after =>
    ((b.addFilter name filter after).1.map fun _ => none, (b.addFilter name filter after).2)
  | .removeFilter name => b.removeFilter name

def calls (b : FilterChainBuilder) (cs : List BuilderCall) : FilterChainBuilder :=
  cs.foldl (fun b c => (b.call c).2) b

theorem WellOrdered.call (h : b.WellOrdered) (c : BuilderCall) : (b.call c).2.WellOrdered := by
  cases c with
  | addFilter name filter after => exact h.addFilter name filter after
  | removeFilter name => exact h.removeFilter name

theorem WellOrdered.calls (h : b.WellOrdered) (cs : List BuilderCall) :
    (b.calls cs).WellOrdered := by
  induction cs generalizing b with
  | nil => exact h
  | cons c cs ih => exact ih (h.call c)

theorem call_error {c : BuilderCall} {e : RegistrationError} (h : (b.call c).1 = .error e) :
    (b.call c).2 = b := by
  cases c with
  | addFilter name filter after =>
    rw [FilterChainBuilder.call, FilterChainBuilder.addFilter] at h ⊢
    dsimp only at h ⊢
    split at h
    · next hexists => rw [if_pos hexists]
    · next hnew =>
        rw [if_neg hnew]
        split at h
        · next hmissing => rw [if_pos hmissing]
        · cases h
  | removeFilter name =>
    rw [FilterChainBuilder.call, FilterChainBuilder.removeFilter] at h ⊢
    split at h
    · next hdependants => rw [if_pos hdependants]
    · split at h <;> cases h

/-- After any calls the names are unique, no level is empty, and what a filter comes after is on
the levels below it. -/
theorem calls_wellOrdered (cs : List BuilderCall) :
    (empty.calls cs).names.Nodup ∧ (∀ l ∈ (empty.calls cs).levels, l.isEmpty = false) ∧
      (∀ (i : Nat) (l : LevelBuilder), (empty.calls cs).levels[i]? = some l → ∀ e ∈ l.entries,
        ∀ n ∈ e.after, ∃ j < i, ∃ l' : LevelBuilder,
          (empty.calls cs).levels[j]? = some l' ∧ n ∈ l'.names) ∧
      ∀ c e, ((empty.calls cs).call c).1 = .error e →
        ((empty.calls cs).call c).2 = empty.calls cs := by
  have h := wellOrdered_empty.calls cs
  refine ⟨h.unique, h.nonempty, fun i l hl e he n hn => ?_, fun _ _ => call_error⟩
  exact (h.stacked.below hl he hn).resolve_left List.not_mem_nil

end FilterChainBuilder

end Hardy.Bpa
