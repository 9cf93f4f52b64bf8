import Hardy.Routing.Table
import Mathlib.Data.Finset.Card
import Mathlib.Data.Finset.SDiff

/-!
# What a lookup finds

`RouteTable.findRecurse_eq` is the recursion of the source: the fuel of the
model never runs out, since no endpoint is looked up twice on the way down.

`RouteTable.findRecurse_isSome` says when a lookup finds something at all, and
from it a table with fewer entries finds something for fewer endpoints
(`RouteTable.findRecurse_isSome_mono`).
-/

namespace Hardy.Routing

/-! ## The entries of one pattern -/

section Gather

variable {lookup lookup' : Eid → Option LookupResult} {reflect : Bool} {dest : Eid}
  {trail : List Eid}

structure LookupResult.Proper (reflect : Bool) (r : LookupResult) : Prop where
  peers : r ≠ .forwardEcmp []
  reflected : r = .reflect → reflect = true

def Entry.Usable (lookup : Eid → Option LookupResult) (reflect : Bool) (dest : Eid)
    (trail : List Eid) (e : Entry) : Prop :=
  match e.action with
  | .route .reflect => reflect = true
  | .route (.via via) => dest ∉ trail ∧ (lookup via).isSome
  | _ => True

def Fires : Except LookupResult (List (Nat × Eid)) → Prop
  | .error _ => True
  | .ok peers => peers ≠ []

theorem sortedInsert_ne_nil (peer : Nat) (nextHop : Eid) (peers : List (Nat × Eid)) :
    sortedInsert peer nextHop peers ≠ [] := by
  cases peers with
  | nil => nofun
  | cons p peers =>
    rw [sortedInsert]
    split
    · nofun
    · split <;> nofun

theorem sortedInsertAll_ne_nil {new peers : List (Nat × Eid)} (h : new ≠ [] ∨ peers ≠ []) :
    sortedInsertAll new peers ≠ [] := by
  rw [sortedInsertAll]
  induction new generalizing peers with
  | nil => exact h.resolve_left fun h => h rfl
  | cons p new ih => exact ih (.inr (sortedInsert_ne_nil _ _ _))

variable {peers : List (Nat × Eid)}

theorem gather_congr {es : List Entry}
    (h : ∀ e ∈ es, ∀ via, e.action = .route (.via via) → dest ∉ trail → lookup via = lookup' via) :
    gather lookup reflect dest trail es peers = gather lookup' reflect dest trail es peers := by
  induction es generalizing peers with
  | nil => rfl
  | cons e es ih =>
    have ih' := fun peers => @ih peers fun e he => h e (List.mem_cons_of_mem _ he)
    have he := h e List.mem_cons_self
    rw [gather, gather]
    split <;> simp only [ih']
    rename_i via hvia
    split
    · rfl
    · rename_i hdest
      rw [he via hvia hdest]

theorem Entry.Usable.mono {e : Entry} (h : e.Usable lookup reflect dest trail)
    (hl : ∀ via, (lookup via).isSome → (lookup' via).isSome) :
    e.Usable lookup' reflect dest trail := by
  obtain ⟨action, source⟩ := e
  rcases action with (via | _ | _) | _
  · exact ⟨h.1, hl via h.2⟩
  all_goals exact h

theorem gather_fires (hlookup : ∀ via, lookup via ≠ some (.forwardEcmp [])) {es : List Entry} :
    Fires (gather lookup reflect dest trail es peers) ↔
      peers ≠ [] ∨ ∃ e ∈ es, e.Usable lookup reflect dest trail := by
  induction es generalizing peers with
  | nil => simp [gather, Fires]
  | cons e es ih =>
    obtain ⟨action, source⟩ := e
    rw [List.exists_mem_cons_iff]
    rcases action with (via | _ | reason) | (peer | service | _)
    · rw [gather, Entry.Usable]
      dsimp only
      split
      · rename_i hdest
        simp [ih, hdest]
      · rename_i hdest
        split
        · rename_i p n hl
          simp [ih, hl, hdest, sortedInsert_ne_nil]
        · rename_i ps hl
          have hps : ps ≠ [] := fun h => hlookup via (h ▸ hl)
          simp [ih, hl, hdest, sortedInsertAll_ne_nil (.inl hps)]
        · rename_i hl
          simp [Fires, hl, hdest]
        · rename_i hl
          simp [ih, hl]
    · cases reflect
      · simp [gather, Entry.Usable, ih]
      · simp [gather, Entry.Usable, Fires]
    · simp [gather, Entry.Usable, Fires]
    · simp [gather, Entry.Usable, ih, sortedInsert_ne_nil]
    · simp [gather, Entry.Usable, Fires]
    · simp [gather, Entry.Usable, Fires]

theorem gather_error (hlookup : ∀ via r, lookup via = some r → r.Proper reflect)
    {es : List Entry} {r : LookupResult}
    (h : gather lookup reflect dest trail es peers = .error r) : r.Proper reflect := by
  induction es generalizing peers with
  | nil => cases h
  | cons e es ih =>
    rw [gather] at h
    split at h
    · cases h
      exact ⟨nofun, nofun⟩
    · split at h
      · rename_i hreflect
        cases h
        exact ⟨nofun, fun _ => hreflect⟩
      · exact ih h
    · split at h
      · exact ih h
      · split at h
        · exact ih h
        · exact ih h
        · rename_i hl
          cases h
          exact hlookup _ _ hl
        · exact ih h
    · cases h
      exact ⟨nofun, nofun⟩
    · cases h
      exact ⟨nofun, nofun⟩
    · exact ih h

theorem selected_proper {r : LookupResult} (h : selected peers = some r) : r.Proper reflect := by
  rw [selected.eq_def] at h
  split at h
  · cases h
  · cases h
    exact ⟨nofun, nofun⟩
  · cases h
    rename_i hne _
    exact ⟨fun h => hne (LookupResult.forwardEcmp.inj h), nofun⟩

theorem selected_eq_none : selected peers = none ↔ peers = [] := by
  rw [selected.eq_def]
  split <;> simp_all

end Gather

/-! ## The patterns in turn -/

section Scan

variable [Globs] {group group' : List Entry → Except LookupResult (List (Nat × Eid))} {dest : Eid}
  {rows : List (EidPattern × List Entry)}

theorem scan_congr (h : ∀ row ∈ rows, group row.2 = group' row.2) :
    scan group dest rows = scan group' dest rows := by
  induction rows with
  | nil => rfl
  | cons row rows ih =>
    rw [scan, scan, h row List.mem_cons_self, ih fun r hr => h r (List.mem_cons_of_mem _ hr)]

theorem scan_isSome :
    (scan group dest rows).isSome ↔
      ∃ row ∈ rows, row.1.matches dest = true ∧ Fires (group row.2) := by
  induction rows with
  | nil => simp [scan]
  | cons row rows ih =>
    rw [scan, List.exists_mem_cons_iff]
    split
    · rename_i hm
      cases hg : group row.2 with
      | error r => simp [hm, Fires]
      | ok peers =>
        by_cases hp : peers = []
        · simp [hp, selected, ih, Fires]
        · have hs : (selected peers).isSome := by
            rw [Option.isSome_iff_ne_none]
            exact fun h => hp (selected_eq_none.mp h)
          simp [Option.isSome_or, hs, hm, Fires, hp]
    · rename_i hm
      simp [ih, hm]

theorem scan_proper {reflect : Bool}
    (hgroup : ∀ actions r, group actions = .error r → r.Proper reflect) {r : LookupResult}
    (h : scan group dest rows = some r) : r.Proper reflect := by
  induction rows with
  | nil => cases h
  | cons row rows ih =>
    rw [scan] at h
    split at h
    · split at h
      · rename_i hg
        cases h
        exact hgroup _ _ hg
      · rcases Option.or_eq_some_iff.mp h with h | ⟨-, h⟩
        · exact selected_proper h
        · exact ih h
    · exact ih h

theorem scan_nonempty {keep : List Entry → List Entry} (hkeep : ∀ row ∈ rows, keep row.2 = row.2)
    (hnil : group [] = .ok []) :
    scan group dest (rows.filterMap fun row => (Sorted.nonempty (keep row.2)).map (row.1, ·)) =
      scan group dest rows := by
  induction rows with
  | nil => rfl
  | cons row rows ih =>
    have ih := ih fun r hr => hkeep r (List.mem_cons_of_mem _ hr)
    rw [List.filterMap_cons, hkeep row List.mem_cons_self]
    obtain ⟨p, actions⟩ := row
    cases actions with
    | nil =>
      change scan group dest (rows.filterMap _) = _
      rw [ih, scan, hnil]
      cases p.matches dest <;> rfl
    | cons e es =>
      change scan group dest ((p, e :: es) :: rows.filterMap _) = _
      rw [scan, ih, scan]

end Scan

/-! ## The recursion -/

namespace RouteTable

def Has (t : RouteTable) (p : EidPattern) (e : Entry) : Prop :=
  ∃ actions, (p, actions) ∈ t.rows ∧ e ∈ actions

theorem mem_vias {t : RouteTable} {via : Eid} :
    via ∈ t.vias ↔ ∃ p e, t.Has p e ∧ e.action = .route (.via via) := by
  simp only [vias, List.mem_filterMap, List.mem_flatMap, Has]
  constructor
  · rintro ⟨e, ⟨row, hrow, he⟩, h⟩
    split at h
    · rename_i hact
      cases h
      exact ⟨row.1, e, ⟨row.2, hrow, he⟩, hact⟩
    · cases h
  · rintro ⟨p, e, ⟨actions, hrow, he⟩, hact⟩
    exact ⟨e, ⟨(p, actions), hrow, he⟩, by rw [hact]⟩

variable [Globs] {t t' : RouteTable} {reflect : Bool} {f g : Nat} {dest : Eid} {trail : List Eid}

theorem findWithin_proper {r : LookupResult} (h : t.findWithin reflect f dest trail = some r) :
    r.Proper reflect := by
  induction f generalizing dest trail r with
  | zero => cases h
  | succ f ih => exact scan_proper (fun _ _ hg => gather_error (fun _ _ => ih) hg) h

theorem findWithin_isSome :
    (t.findWithin reflect (f + 1) dest trail).isSome ↔ ∃ p e, t.Has p e ∧ p.matches dest = true ∧
      e.Usable (fun via => t.findWithin reflect f via (dest :: trail)) reflect dest trail := by
  rw [findWithin, scan_isSome]
  simp only [gather_fires fun via h => (findWithin_proper h).peers rfl, ne_eq, not_true_eq_false,
    false_or, Has]
  constructor
  · rintro ⟨row, hrow, hm, e, he, hu⟩
    exact ⟨row.1, e, ⟨row.2, hrow, he⟩, hm, hu⟩
  · rintro ⟨p, e, ⟨actions, hrow, he⟩, hm, hu⟩
    exact ⟨(p, actions), hrow, hm, e, he, hu⟩

theorem findWithin_succ
    (h : dest ∉ trail → ∀ via ∈ t.vias,
      t.findWithin reflect f via (dest :: trail) = t.findWithin reflect (f + 1) via (dest :: trail)) :
    t.findWithin reflect (f + 1) dest trail = t.findWithin reflect (f + 2) dest trail := by
  rw [findWithin, findWithin]
  refine scan_congr fun row hrow => gather_congr fun e he via hvia hdest => ?_
  exact h hdest via (mem_vias.mpr ⟨row.1, e, ⟨row.2, hrow, he⟩, hvia⟩)

/-- The next hops that are not on the way down yet. -/
def ahead (t : RouteTable) (trail : List Eid) : Finset Eid := t.vias.toFinset \ trail.toFinset

omit [Globs] in
theorem ahead_cons (t : RouteTable) (dest : Eid) (trail : List Eid) :
    t.ahead (dest :: trail) = (t.ahead trail).erase dest := by
  ext e
  simp [ahead]
  tauto

theorem findWithin_stable_via {via : Eid} (hvia : via ∈ t.vias)
    (h : (t.ahead trail).card + 1 ≤ f) :
    t.findWithin reflect f via trail = t.findWithin reflect (f + 1) via trail := by
  induction f generalizing via trail with
  | zero => omega
  | succ f ih =>
    refine findWithin_succ fun hnot via' hvia' => ih hvia' ?_
    have hmem : via ∈ t.ahead trail := by simp [ahead, hvia, hnot]
    have hcard := Finset.card_erase_lt_of_mem hmem
    rw [ahead_cons]
    omega

theorem findWithin_stable (h : t.vias.length + 2 ≤ f) :
    t.findWithin reflect f dest trail = t.findWithin reflect (f + 1) dest trail := by
  obtain ⟨f, rfl⟩ : ∃ k, f = k + 1 := ⟨f - 1, by omega⟩
  refine findWithin_succ fun _ via hvia => findWithin_stable_via hvia ?_
  have hle : (t.ahead (dest :: trail)).card ≤ t.vias.length :=
    (Finset.card_le_card Finset.sdiff_subset).trans (List.toFinset_card_le _)
  omega

theorem findWithin_eq (h : t.vias.length + 2 ≤ f) :
    t.findWithin reflect f dest trail = t.findRecurse dest reflect trail := by
  induction f, h using Nat.le_induction with
  | base => rfl
  | succ f h ih => rw [← findWithin_stable h, ih]

theorem findRecurse_eq (t : RouteTable) (dest : Eid) (reflect : Bool) (trail : List Eid) :
    t.findRecurse dest reflect trail =
      scan (fun actions =>
        gather (fun via => t.findRecurse via reflect (dest :: trail)) reflect dest trail actions [])
        dest t.rows := by
  rw [← findWithin_eq (Nat.le_succ _)]
  rfl

theorem findRecurse_proper {r : LookupResult} (h : t.findRecurse dest reflect trail = some r) :
    r.Proper reflect :=
  findWithin_proper h

theorem findRecurse_isSome :
    (t.findRecurse dest reflect trail).isSome ↔ ∃ p e, t.Has p e ∧ p.matches dest = true ∧
      e.Usable (fun via => t.findRecurse via reflect (dest :: trail)) reflect dest trail := by
  rw [← findWithin_eq (Nat.le_succ _), findWithin_isSome]
  rfl

theorem findWithin_isSome_mono (hsub : ∀ p e, t'.Has p e → t.Has p e)
    (h : (t'.findWithin reflect f dest trail).isSome) :
    (t.findWithin reflect f dest trail).isSome := by
  induction f generalizing dest trail with
  | zero => cases h
  | succ f ih =>
    rw [findWithin_isSome] at h ⊢
    obtain ⟨p, e, hrow, hm, hu⟩ := h
    exact ⟨p, e, hsub p e hrow, hm, hu.mono fun _ => ih⟩

theorem findRecurse_isSome_mono (hsub : ∀ p e, t'.Has p e → t.Has p e)
    (h : (t'.findRecurse dest reflect trail).isSome) :
    (t.findRecurse dest reflect trail).isSome := by
  rw [← findWithin_eq (le_max_left _ (t.vias.length + 2))] at h
  rw [← findWithin_eq (le_max_right (t'.vias.length + 2) _)]
  exact findWithin_isSome_mono hsub h

/-! ## Putting entries in -/

omit [Globs] in
theorem mem_rows {t : RouteTable} {row : EidPattern × List Entry} :
    row ∈ t.rows ↔ ∃ group ∈ t.routes, row ∈ group.2 := List.mem_flatMap

variable {pattern : EidPattern} {priority : Nat} {entry : Entry}

theorem mem_rows_insertAtom
    {row : EidPattern × List Entry} (h : row ∈ (t.insertAtom pattern entry priority).2.rows) :
    row ∈ t.rows ∨ (row.1 = pattern ∨ ∃ actions, (row.1, actions) ∈ t.rows) ∧
      row.2 = (Sorted.insert entry
        (((Sorted.get priority t.routes).bind (Sorted.get pattern)).getD [])).2 := by
  obtain ⟨group, hgroup, hrow⟩ := mem_rows.mp h
  -- a group is an old one, or its rows are old ones and the one with the entry
  have hgroup : group ∈ t.routes ∨ ∃ old : List (EidPattern × List Entry),
      (old = [] ∨ ∃ k, (k, old) ∈ t.routes) ∧
      group.2 = Sorted.upsert pattern (fun _ => (Sorted.insert entry
        (((Sorted.get priority t.routes).bind (Sorted.get pattern)).getD [])).2) old := by
    rcases Sorted.mem_upsert hgroup with hgroup | rfl | ⟨patterns, hpatterns, hnew⟩
    · exact .inl hgroup
    · exact .inr ⟨[], .inl rfl, rfl⟩
    · exact .inr ⟨patterns, .inr ⟨_, hpatterns⟩, hnew⟩
  rcases hgroup with hgroup | ⟨old, hold, hnew⟩
  · exact .inl (mem_rows.mpr ⟨group, hgroup, hrow⟩)
  · have hrows : ∀ q ∈ old, q ∈ t.rows := by
      intro q hq
      rcases hold with rfl | ⟨k, hold⟩
      · cases hq
      · exact mem_rows.mpr ⟨_, hold, hq⟩
    rw [hnew] at hrow
    rcases Sorted.mem_upsert hrow with hrow | rfl | ⟨v, hv, hrow⟩
    · exact .inl (hrows row hrow)
    · exact .inr ⟨.inl rfl, rfl⟩
    · exact .inr ⟨.inr ⟨v, hrows _ hv⟩, hrow⟩

theorem insertAtom_has {p : EidPattern}
    {e : Entry} (h : (t.insertAtom pattern entry priority).2.Has p e) :
    e = entry ∨ ∃ q, t.Has q e := by
  obtain ⟨actions, hrow, he⟩ := h
  rcases mem_rows_insertAtom hrow with hrow | ⟨-, hactions⟩
  · exact .inr ⟨p, actions, hrow, he⟩
  obtain rfl : actions = _ := hactions
  rcases Sorted.mem_insert he with rfl | he
  · exact .inl rfl
  cases hget : (Sorted.get priority t.routes).bind (Sorted.get pattern) with
  | none =>
    rw [hget] at he
    cases he
  | some old =>
    rw [hget] at he
    obtain ⟨patterns, hpatterns, hget⟩ := Option.bind_eq_some_iff.mp hget
    obtain ⟨k, hk⟩ := Sorted.mem_get hpatterns
    obtain ⟨q, hq⟩ := Sorted.mem_get hget
    exact .inr ⟨q, old, mem_rows.mpr ⟨_, hk, hq⟩, he⟩

theorem insert_has {inserted : Bool} (h : t.insert pattern entry priority = .ok (inserted, t')) :
    (∀ via, entry.action = .route (.via via) → t.nodeIds.isLocal via = false) ∧
      ∀ p e, t'.Has p e → e = entry ∨ ∃ q, t.Has q e := by
  have hfold : ∀ (atoms : List EidPattern) (r : Bool × RouteTable) (p : EidPattern) (e : Entry),
      (atoms.foldl (fun (r : Bool × RouteTable) atom =>
        (r.1 || (r.2.insertAtom atom entry priority).1, (r.2.insertAtom atom entry priority).2))
        r).2.Has p e → e = entry ∨ ∃ q, r.2.Has q e := by
    intro atoms
    induction atoms with
    | nil => exact fun _ p _ hp => .inr ⟨p, hp⟩
    | cons atom atoms ih =>
      intro r p e hp
      rcases ih _ p e hp with rfl | ⟨q, hq⟩
      · exact .inl rfl
      · exact insertAtom_has hq
  have hall : ∀ r : Bool × RouteTable, r = (inserted, t') →
      (∀ p e, r.2.Has p e → e = entry ∨ ∃ q, t.Has q e) →
      ∀ p e, t'.Has p e → e = entry ∨ ∃ q, t.Has q e := by
    rintro _ rfl hr
    exact hr
  rw [RouteTable.insert] at h
  split at h
  · next nextHop hact =>
      split at h
      · cases h
      · split at h
        · cases h
        · next hlocal =>
            refine ⟨fun via hvia => ?_, hall _ (Except.ok.inj h) (hfold _ _)⟩
            cases hact.symm.trans hvia
            simpa using hlocal
  · next hact =>
      exact ⟨fun via hvia => absurd hvia (hact via), hall _ (Except.ok.inj h) (hfold _ _)⟩

/-! ## Taking entries out -/

theorem removeAtom_has
    (h : t.removeAtom pattern entry priority = some t') {p : EidPattern} {e : Entry}
    (hp : t'.Has p e) : t.Has p e := by
  simp only [removeAtom, bind, Option.bind_eq_some_iff] at h
  obtain ⟨_, -, _, -, _, -, h⟩ := h
  cases h
  obtain ⟨actions, hrow, he⟩ := hp
  obtain ⟨group, hgroup, hrow⟩ := mem_rows.mp hrow
  rcases Sorted.mem_update hgroup with hgroup | ⟨patterns, hpatterns, hleft⟩
  · exact ⟨actions, mem_rows.mpr ⟨group, hgroup, hrow⟩, he⟩
  rw [Sorted.nonempty_eq_some hleft] at hrow
  rcases Sorted.mem_update hrow with hrow | ⟨old, hold, hactions⟩
  · exact ⟨actions, mem_rows.mpr ⟨_, hpatterns, hrow⟩, he⟩
  obtain ⟨left, hremove, hleft⟩ := Option.bind_eq_some_iff.mp hactions
  obtain rfl : actions = left := Sorted.nonempty_eq_some hleft
  exact ⟨old, mem_rows.mpr ⟨_, hpatterns, hold⟩, Sorted.mem_remove hremove he⟩

theorem removeStep_has {r : Bool × RouteTable}
    {atom p : EidPattern} {e : Entry} (hp : (removeStep entry priority r atom).2.Has p e) :
    r.2.Has p e := by
  rw [removeStep] at hp
  split at hp
  · rename_i ht
    exact removeAtom_has ht hp
  · exact hp

theorem remove_has {p : EidPattern}
    {e : Entry} (hp : (t.remove pattern entry priority).2.Has p e) : t.Has p e := by
  have hfold : ∀ (atoms : List EidPattern) (r : Bool × RouteTable),
      (atoms.foldl (removeStep entry priority) r).2.Has p e → r.2.Has p e := by
    intro atoms
    induction atoms with
    | nil => exact fun _ => id
    | cons atom atoms ih => exact fun r h => removeStep_has (ih _ h)
  exact hfold _ _ hp

theorem remove_of_not (h : (t.remove pattern entry priority).1 = false) :
    (t.remove pattern entry priority).2 = t := by
  have hfold : ∀ (atoms : List EidPattern) (r : Bool × RouteTable),
      (atoms.foldl (removeStep entry priority) r).1 = false →
        r.1 = false ∧ (atoms.foldl (removeStep entry priority) r).2 = r.2 := by
    intro atoms
    induction atoms with
    | nil => exact fun _ h => ⟨h, rfl⟩
    | cons atom atoms ih =>
      intro r h
      obtain ⟨hstep, hrest⟩ := ih _ h
      rw [List.foldl_cons, hrest]
      rw [removeStep] at hstep ⊢
      split at hstep
      · cases hstep
      · exact ⟨hstep, rfl⟩
  exact (hfold _ _ h).2

omit [Globs] in
theorem removeBySource_has {source : String} {p : EidPattern} {e : Entry}
    (hp : (t.removeBySource source).2.Has p e) : t.Has p e := by
  obtain ⟨actions, hrow, he⟩ := hp
  obtain ⟨group, hgroup, hrow⟩ := mem_rows.mp hrow
  obtain ⟨old, hold, hgroup⟩ := List.mem_filterMap.mp hgroup
  obtain ⟨patterns, hpatterns, rfl⟩ := Option.map_eq_some_iff.mp hgroup
  rw [Sorted.nonempty_eq_some hpatterns] at hrow
  obtain ⟨oldRow, holdRow, hrow⟩ := List.mem_filterMap.mp hrow
  obtain ⟨left, hleft, hrow⟩ := Option.map_eq_some_iff.mp hrow
  cases hrow
  rw [Sorted.nonempty_eq_some hleft] at he
  exact ⟨oldRow.2, mem_rows.mpr ⟨old, hold, holdRow⟩, List.mem_of_mem_filter he⟩

omit [Globs] in
theorem rows_withoutSource (t : RouteTable) (source : String) :
    (t.withoutSource source).rows = t.rows.filterMap fun row =>
      (Sorted.nonempty (row.2.filter (·.source ≠ source))).map (row.1, ·) := by
  rw [rows, rows, withoutSource]
  dsimp only
  induction t.routes with
  | nil => rfl
  | cons group routes ih =>
    rw [List.flatMap_cons, List.filterMap_append, ← ih, List.filterMap_cons]
    generalize group.2.filterMap _ = left
    cases left <;> rfl

theorem findRecurse_withoutSource {source : String} (h : t.actionsOf source = []) :
    (t.withoutSource source).findRecurse dest reflect trail = t.findRecurse dest reflect trail := by
  have hkeep : ∀ row ∈ t.rows, row.2.filter (·.source ≠ source) = row.2 := by
    intro row hrow
    refine List.filter_eq_self.mpr fun e he => decide_eq_true fun hs => ?_
    have hmem : e.action ∈ t.actionsOf source :=
      List.mem_filterMap.mpr ⟨e, List.mem_flatMap.mpr ⟨row, hrow, he⟩, if_pos hs⟩
    simp [h] at hmem
  have hwithin : ∀ f dest trail, (t.withoutSource source).findWithin reflect f dest trail =
      t.findWithin reflect f dest trail := by
    intro f
    induction f with
    | zero => exact fun _ _ => rfl
    | succ f ih =>
      intro dest trail
      rw [findWithin, findWithin, rows_withoutSource, scan_nonempty hkeep rfl]
      simp only [ih]
  rw [← findWithin_eq (le_max_left _ (t.vias.length + 2)),
    ← findWithin_eq (le_max_right ((t.withoutSource source).vias.length + 2) _), hwithin]

end RouteTable

end Hardy.Routing
