import Hardy.Routing.Installed

/-!
# The triples of a route table

A route table is the set of its triples of a priority, an atom and an entry.  Every call does to
the table what it does to the set (`TableCall.denote`), answers by the set, and leaves nothing
empty behind (`RouteTable.calls_denote`).
-/

namespace Hardy.Routing

structure Triple where
  priority : Nat
  atom : EidPattern
  entry : Entry

/-! ## The reference set -/

namespace Triple

variable {x y z : Triple}

/-- One element of the set.  Keys of the table are told apart by their order, which is the equality
of the source: parsed patterns of one place in the order are the same, and services are equal by
their id. -/
def Same (x y : Triple) : Prop :=
  x.priority = y.priority ∧ compare x.atom y.atom = .eq ∧ compare x.entry y.entry = .eq

theorem Same.refl (x : Triple) : x.Same x :=
  ⟨rfl, Std.ReflCmp.compare_self, Std.ReflCmp.compare_self⟩

theorem Same.symm (h : x.Same y) : y.Same x :=
  ⟨h.1.symm, Std.OrientedCmp.eq_symm h.2.1, Std.OrientedCmp.eq_symm h.2.2⟩

theorem Same.source (h : x.Same y) : x.entry.source = y.entry.source :=
  (Entry.compare_eq.mp h.2.2).2

theorem Same.action (h : x.Same y) : compare x.entry.action y.entry.action = .eq :=
  (Entry.compare_eq.mp h.2.2).1

end Triple

/-- What `RouteTable::insert` rejects: a next hop that is the null endpoint, or one of the node's
own. -/
def Entry.Refused (ids : NodeIds) (entry : Entry) : Prop :=
  ∃ nextHop, entry.action = .route (.via nextHop) ∧
    (nextHop.isNull = true ∨ ids.isLocal nextHop = true)

/-! ## Actions of one place in the order -/

namespace Action

variable {a : Action}

theorem eq_of_compare_route {b : RouteAction} (h : compare a (.route b) = .eq) : a = .route b := by
  cases a with
  | route a => rw [RouteAction.eq_of_compare h]
  | internal a => cases a <;> cases b <;> cases h

theorem eq_of_compare_forward {peer : Nat} (h : compare a (.internal (.forward peer)) = .eq) :
    a = .internal (.forward peer) := by
  cases a with
  | route a => cases a <;> cases h
  | internal a =>
    cases a with
    | forward p => rw [Std.compare_eq_iff_eq.mp (show compare p peer = .eq from h)]
    | _ => cases h

theorem local_of_compare {service : Service}
    (h : compare a (.internal (.localService service)) = .eq) :
    ∃ s, a = .internal (.localService s) := by
  cases a with
  | route a => cases a <;> cases h
  | internal a =>
    cases a with
    | localService s => exact ⟨s, rfl⟩
    | _ => cases h

end Action

/-! ## Calls and answers -/

inductive TableCall where
  | insert (pattern : EidPattern) (entry : Entry) (priority : Nat)
  | remove (pattern : EidPattern) (entry : Entry) (priority : Nat)
  | removeBySource (source : String)

inductive Answer where
  | inserted (result : Except Error Bool)
  | removed (result : Bool)
  | removedBySource (result : RouteTable.Removed)

structure RouteTable.Removed.Reports (r : Removed) (D : Triple → Prop) : Prop where
  vias : ∀ eid, eid ∈ r.vias ↔ ∃ x, D x ∧ x.entry.action = .route (.via eid)
  forwardPeers : ∀ peer, peer ∈ r.forwardPeers ↔
    ∃ x, D x ∧ x.entry.action = .internal (.forward peer)
  hasLocal : r.hasLocal = true ↔
    ∃ x, D x ∧ ∃ service, x.entry.action = .internal (.localService service)
  count : ∃ l : List Triple, l.Pairwise (fun x y => ¬ x.Same y) ∧
    (∀ x, D x ↔ ∃ y ∈ l, x.Same y) ∧ l.length = r.removedCount

namespace TableCall

def denote (ids : NodeIds) (S : Triple → Prop) : TableCall → Triple → Prop
  | .insert pattern entry priority => fun x =>
    S x ∨ ¬ entry.Refused ids ∧ ∃ atom ∈ pattern.intoAtoms, x.Same ⟨priority, atom, entry⟩
  | .remove pattern entry priority => fun x =>
    S x ∧ ¬ ∃ atom ∈ pattern.intoAtoms, x.Same ⟨priority, atom, entry⟩
  | .removeBySource source => fun x => S x ∧ x.entry.source ≠ source

/-- How the call is to answer where the set is `S`. -/
def Answered (ids : NodeIds) (S : Triple → Prop) : TableCall → Answer → Prop
  | .insert pattern entry priority, .inserted (.ok new) =>
    ¬ entry.Refused ids ∧ (new = true ↔ ∃ atom ∈ pattern.intoAtoms, ¬ S ⟨priority, atom, entry⟩)
  | .insert _ entry _, .inserted (.error _) => entry.Refused ids
  | .remove pattern entry priority, .removed found =>
    found = true ↔ ∃ atom ∈ pattern.intoAtoms, S ⟨priority, atom, entry⟩
  | .removeBySource source, .removedBySource r => r.Reports fun x => S x ∧ x.entry.source = source
  | _, _ => False

end TableCall

namespace RouteTable

variable [Globs] {t t' : RouteTable} {priority : Nat} {pattern atom : EidPattern} {entry : Entry}
  {source : String}

/-! ## The triples of the table -/

def triplesOf (priority : Nat) (patterns : List (EidPattern × List Entry)) : List Triple :=
  patterns.flatMap fun row => row.2.map fun entry => ⟨priority, row.1, entry⟩

def triples (t : RouteTable) : List Triple :=
  t.routes.flatMap fun level => triplesOf level.1 level.2

def Held (t : RouteTable) (x : Triple) : Prop := ∃ y ∈ t.triples, x.Same y

omit [Globs] in
theorem mem_triples {x : Triple} : x ∈ t.triples ↔ ∃ level ∈ t.routes, ∃ row ∈ level.2,
    ∃ e ∈ row.2, x = ⟨level.1, row.1, e⟩ := by
  simp only [triples, triplesOf, List.mem_flatMap, List.mem_map, eq_comm]

omit [Globs] in
theorem held_iff (h : t.InOrder) {x : Triple} :
    t.Held x ↔ t.Installed x.priority x.atom x.entry := by
  constructor
  · rintro ⟨y, hy, hsame⟩
    obtain ⟨level, hlevel, row, hrow, e, he, rfl⟩ := mem_triples.mp hy
    have hentries : t.entriesAt level.1 row.1 = row.2 := by
      rw [RouteTable.entriesAt, Sorted.get_of_mem h.priorities (k := level.1) hlevel,
        Option.bind_some, Sorted.get_of_mem (h.patterns level hlevel) (k := row.1) hrow,
        Option.getD_some]
    have hinstalled : t.Installed level.1 row.1 e :=
      ⟨e, hentries ▸ he, Std.ReflCmp.compare_self⟩
    have := hinstalled.congr hsame.2.1 hsame.2.2
    rw [hsame.1]
    exact this
  · rintro ⟨e, he, heq⟩
    unfold RouteTable.entriesAt at he
    cases hp : Sorted.get x.priority t.routes with
    | none =>
      rw [hp] at he
      cases he
    | some patterns =>
      rw [hp, Option.bind_some] at he
      cases ha : Sorted.get x.atom patterns with
      | none =>
        rw [ha] at he
        cases he
      | some es =>
        rw [ha, Option.getD_some] at he
        obtain ⟨level, hlevel, hpriority, rfl⟩ := Sorted.mem_of_get hp
        obtain ⟨row, hrow, hatom, rfl⟩ := Sorted.mem_of_get ha
        exact ⟨⟨level.1, row.1, e⟩, mem_triples.mpr ⟨level, hlevel, row, hrow, e, he, rfl⟩,
          Std.compare_eq_iff_eq.mp hpriority, hatom, heq⟩

omit [Globs] in
theorem triples_pairwise (h : t.InOrder) : t.triples.Pairwise fun x y => ¬ x.Same y := by
  have hne : ∀ {o : Ordering}, o = .lt → o ≠ .eq := by
    rintro o rfl
    nofun
  refine List.pairwise_flatMap.mpr ⟨fun level hlevel => ?_, h.priorities.imp ?_⟩
  · refine List.pairwise_flatMap.mpr ⟨fun row hrow => ?_, (h.patterns level hlevel).imp ?_⟩
    · refine List.pairwise_map.mpr ((h.actions level hlevel row hrow).imp fun hlt hsame => ?_)
      exact hne hlt hsame.2.2
    · intro row row' hlt x hx y hy hsame
      obtain ⟨e, -, rfl⟩ := List.mem_map.mp hx
      obtain ⟨e', -, rfl⟩ := List.mem_map.mp hy
      exact hne hlt hsame.2.1
  · intro level level' hlt x hx y hy hsame
    obtain ⟨row, -, hx⟩ := List.mem_flatMap.mp hx
    obtain ⟨e, -, rfl⟩ := List.mem_map.mp hx
    obtain ⟨row', -, hy⟩ := List.mem_flatMap.mp hy
    obtain ⟨e', -, rfl⟩ := List.mem_map.mp hy
    exact hne hlt (Std.compare_eq_iff_eq.mpr hsame.1)

/-! ## Withdrawing a source -/

section

omit [Globs]

theorem triples_withoutSource :
    (t.withoutSource source).triples = t.triples.filter fun x => x.entry.source ≠ source := by
  have hrow : ∀ (p : Nat) (row : EidPattern × List Entry),
      ((row.2.map fun e => Triple.mk p row.1 e).filter fun x => x.entry.source ≠ source) =
        (row.2.filter (·.source ≠ source)).map fun e => Triple.mk p row.1 e := by
    intro p row
    rw [List.filter_map]
    rfl
  have hrows : ∀ (p : Nat) (patterns : List (EidPattern × List Entry)),
      triplesOf p (patterns.filterMap fun row =>
        (Sorted.nonempty (row.2.filter (·.source ≠ source))).map (row.1, ·)) =
      (triplesOf p patterns).filter fun x => x.entry.source ≠ source := by
    intro p patterns
    refine (Sorted.flatMap_nonempty (fun row => row.2.filter (·.source ≠ source))
      (fun a es => es.map fun e => Triple.mk p a e) (fun _ => rfl) patterns).trans ?_
    rw [triplesOf, List.filter_flatMap]
    simp only [hrow]
  refine (Sorted.flatMap_nonempty _ triplesOf (fun _ => rfl) t.routes).trans ?_
  rw [triples, List.filter_flatMap]
  simp only [← hrows]

theorem mem_withoutSource {level : Nat × List (EidPattern × List Entry)}
    (h : level ∈ (t.withoutSource source).routes) : level.2 ≠ [] ∧
      ∃ l ∈ t.routes, level.1 = l.1 ∧ level.2 = l.2.filterMap fun row =>
        (Sorted.nonempty (row.2.filter (·.source ≠ source))).map (row.1, ·) := by
  obtain ⟨l, hl, hlevel⟩ := List.mem_filterMap.mp h
  obtain ⟨rows, hrows, rfl⟩ := Option.map_eq_some_iff.mp hlevel
  exact ⟨Sorted.nonempty_ne_nil hrows, l, hl, rfl, Sorted.nonempty_eq_some hrows⟩

theorem inOrder_withoutSource (h : t.InOrder) : (t.withoutSource source).InOrder where
  priorities := Sorted.keyed_filterMap h.priorities fun level level' heq => by
    obtain ⟨rows, -, rfl⟩ := Option.map_eq_some_iff.mp heq
    rfl
  patterns level hlevel := by
    obtain ⟨-, l, hl, -, heq⟩ := mem_withoutSource hlevel
    rw [heq]
    refine Sorted.keyed_filterMap (h.patterns l hl) fun row row' heq => ?_
    obtain ⟨es, -, rfl⟩ := Option.map_eq_some_iff.mp heq
    rfl
  actions level hlevel row hrow := by
    obtain ⟨-, l, hl, -, heq⟩ := mem_withoutSource hlevel
    rw [heq] at hrow
    obtain ⟨row', hrow', hleft⟩ := List.mem_filterMap.mp hrow
    obtain ⟨es, hes, rfl⟩ := Option.map_eq_some_iff.mp hleft
    rw [Sorted.nonempty_eq_some hes]
    exact (h.actions l hl row' hrow').filter _

theorem held_withoutSource {x : Triple} :
    (t.withoutSource source).Held x ↔ t.Held x ∧ x.entry.source ≠ source := by
  simp only [Held, triples_withoutSource, List.mem_filter, decide_eq_true_iff]
  constructor
  · rintro ⟨y, ⟨hy, hne⟩, hsame⟩
    exact ⟨⟨y, hy, hsame⟩, hsame.source ▸ hne⟩
  · rintro ⟨⟨y, hy, hsame⟩, hne⟩
    exact ⟨y, ⟨hy, hsame.source ▸ hne⟩, hsame⟩

theorem actionsOf_eq : t.actionsOf source =
    (t.triples.filter fun x => x.entry.source = source).map (·.entry.action) := by
  have hentries : t.rows.flatMap (·.2) = t.triples.map (·.entry) := by
    simp only [rows, triples, triplesOf, List.flatMap_assoc, List.map_flatMap, List.map_map,
      Function.comp_def, List.map_id']
  rw [actionsOf, hentries]
  induction t.triples with
  | nil => rfl
  | cons x xs ih =>
    rw [List.map_cons, List.filterMap_cons, List.filter_cons, ih]
    by_cases hsource : x.entry.source = source
    · simp [hsource]
    · simp [hsource]

theorem mem_actionsOf {action : Action} : action ∈ t.actionsOf source ↔
    ∃ x ∈ t.triples, x.entry.source = source ∧ x.entry.action = action := by
  simp [actionsOf_eq, and_assoc]

theorem exists_held_iff {P : Action → Prop}
    (hP : ∀ a b, compare a b = .eq → P b → P a) :
    (∃ x, (t.Held x ∧ x.entry.source = source) ∧ P x.entry.action) ↔
      ∃ action ∈ t.actionsOf source, P action := by
  constructor
  · rintro ⟨x, ⟨⟨y, hy, hsame⟩, rfl⟩, hx⟩
    exact ⟨y.entry.action, mem_actionsOf.mpr ⟨y, hy, hsame.source.symm, rfl⟩,
      hP _ _ hsame.symm.action hx⟩
  · rintro ⟨action, haction, hp⟩
    obtain ⟨x, hx, hsource, rfl⟩ := mem_actionsOf.mp haction
    exact ⟨x, ⟨⟨x, hx, .refl x⟩, hsource⟩, hp⟩

theorem reports_removeBySource (h : t.InOrder) :
    (t.removeBySource source).1.Reports fun x => t.Held x ∧ x.entry.source = source where
  vias eid := by
    rw [exists_held_iff (P := (· = .route (.via eid)))
      fun a b hab hb => Action.eq_of_compare_route (hb ▸ hab)]
    refine List.mem_dedup.trans (List.mem_filterMap.trans (exists_congr fun action => ?_))
    refine and_congr_right fun _ => ?_
    rcases action with (_ | _ | _) | _ <;> simp
  forwardPeers peer := by
    rw [exists_held_iff (P := (· = .internal (.forward peer)))
      fun a b hab hb => Action.eq_of_compare_forward (hb ▸ hab)]
    refine List.mem_dedup.trans (List.mem_filterMap.trans (exists_congr fun action => ?_))
    refine and_congr_right fun _ => ?_
    rcases action with _ | (_ | _ | _) <;> simp
  hasLocal := by
    rw [exists_held_iff (P := fun a => ∃ service, a = .internal (.localService service))]
    · refine List.any_eq_true.trans (exists_congr fun action => and_congr_right fun _ => ?_)
      rcases action with _ | (_ | _ | _) <;> simp
    · rintro a b hab ⟨service, rfl⟩
      exact Action.local_of_compare hab
  count := by
    refine ⟨t.triples.filter fun x => x.entry.source = source, (triples_pairwise h).filter _,
      fun x => ⟨?_, ?_⟩, ?_⟩
    · rintro ⟨⟨y, hy, hsame⟩, rfl⟩
      exact ⟨y, List.mem_filter.mpr ⟨hy, decide_eq_true hsame.source.symm⟩, hsame⟩
    · rintro ⟨y, hy, hsame⟩
      obtain ⟨hy, hsource⟩ := List.mem_filter.mp hy
      exact ⟨⟨y, hy, hsame⟩, hsame.source.trans (of_decide_eq_true hsource)⟩
    · rw [removeBySource]
      dsimp only
      rw [actionsOf_eq, List.length_map]

end

/-! ## Insertion and removal -/

theorem insert_eq (pattern : EidPattern) (entry : Entry) (priority : Nat) :
    (∃ e, t.insert pattern entry priority = .error e) ∧ entry.Refused t.nodeIds ∨
      t.insert pattern entry priority =
        .ok (pattern.intoAtoms.foldl (insertStep entry priority) (false, t)) ∧
        ¬ entry.Refused t.nodeIds := by
  unfold RouteTable.insert
  dsimp only
  split
  · next nextHop haction =>
      split
      · next hnull => exact .inl ⟨⟨_, rfl⟩, nextHop, haction, .inl hnull⟩
      · split
        · next hlocal => exact .inl ⟨⟨_, rfl⟩, nextHop, haction, .inr hlocal⟩
        · next hnull hlocal =>
            refine .inr ⟨rfl, ?_⟩
            rintro ⟨n, hn, hor⟩
            cases haction.symm.trans hn
            exact hor.elim hnull hlocal
  · next haction =>
      refine .inr ⟨rfl, ?_⟩
      rintro ⟨n, hn, -⟩
      exact haction n hn

theorem foldl_insertStep_fst (entry : Entry) (priority : Nat) (atoms : List EidPattern)
    (r : Bool × RouteTable) (h : r.2.InOrder) :
    (atoms.foldl (insertStep entry priority) r).1 = true ↔
      r.1 = true ∨ ∃ atom ∈ atoms, ¬ r.2.Installed priority atom entry := by
  induction atoms generalizing r with
  | nil => simp
  | cons a atoms ih =>
    have hafter : ∀ atom, (insertStep entry priority r a).2.Installed priority atom entry ↔
        r.2.Installed priority atom entry ∨ compare atom a = .eq := by
      intro atom
      refine (installed_insertAtom h).trans (or_congr_right ?_)
      simp
    have hfst : (insertStep entry priority r a).1 = true ↔
        r.1 = true ∨ ¬ r.2.Installed priority a entry := by
      rw [insertStep, Bool.or_eq_true, insertAtom_fst h]
    have hord : (insertStep entry priority r a).2.InOrder := inOrder_insertAtom h
    rw [List.foldl_cons, ih _ hord, hfst, List.exists_mem_cons_iff, or_assoc]
    refine or_congr_right ⟨?_, ?_⟩
    · rintro (hnew | ⟨atom, hatom, hnew⟩)
      · exact .inl hnew
      · exact .inr ⟨atom, hatom, fun hi => hnew ((hafter atom).mpr (.inl hi))⟩
    · rintro (hnew | ⟨atom, hatom, hnew⟩)
      · exact .inl hnew
      · by_cases hsame : compare atom a = .eq
        · exact .inl fun hi => hnew (hi.congr hsame Std.ReflCmp.compare_self)
        · refine .inr ⟨atom, hatom, fun hi => ?_⟩
          exact ((hafter atom).mp hi).elim hnew hsame

theorem insert_new {new : Bool} (h : t.InOrder)
    (ht : t.insert pattern entry priority = .ok (new, t')) :
    new = true ↔ ∃ atom ∈ pattern.intoAtoms, ¬ t.Installed priority atom entry := by
  have hflag := foldl_insertStep_fst entry priority pattern.intoAtoms (false, t) h
  rcases insert_eq (t := t) pattern entry priority with ⟨⟨e, he⟩, -⟩ | ⟨hok, -⟩
  · cases he.symm.trans ht
  · rw [← Except.ok.inj (ht.symm.trans hok)] at hflag
    simpa using hflag

theorem foldl_removeStep_fst (entry : Entry) (priority : Nat) (atoms : List EidPattern)
    (r : Bool × RouteTable) (h : r.2.InOrder) :
    (atoms.foldl (removeStep entry priority) r).1 = true ↔
      r.1 = true ∨ ∃ atom ∈ atoms, r.2.Installed priority atom entry := by
  induction atoms generalizing r with
  | nil => simp
  | cons a atoms ih =>
    obtain ⟨hord, -, hafter, -⟩ := installed_removeStep entry priority a h
    have hfst : (removeStep entry priority r a).1 = true ↔
        r.1 = true ∨ r.2.Installed priority a entry := by
      rw [removeStep]
      cases ha : r.2.removeAtom a entry priority with
      | none => simp [removeAtom_eq_none.mp ha]
      | some t' =>
        have hi : r.2.Installed priority a entry := by
          by_contra hnot
          rw [removeAtom_eq_none.mpr hnot] at ha
          cases ha
        simp [hi]
    rw [List.foldl_cons, ih _ hord, hfst, List.exists_mem_cons_iff, or_assoc]
    refine or_congr_right ⟨?_, ?_⟩
    · rintro (hold | ⟨atom, hatom, hold⟩)
      · exact .inl hold
      · exact .inr ⟨atom, hatom, ((hafter _ _ _).mp hold).1⟩
    · rintro (hold | ⟨atom, hatom, hold⟩)
      · exact .inl hold
      · by_cases hsame : compare atom a = .eq
        · exact .inl (hold.congr (Std.OrientedCmp.eq_symm hsame) Std.ReflCmp.compare_self)
        · exact .inr ⟨atom, hatom, (hafter _ _ _).mpr ⟨hold, fun hall => hsame hall.2.1⟩⟩

theorem remove_found (h : t.InOrder) : (t.remove pattern entry priority).1 = true ↔
    ∃ atom ∈ pattern.intoAtoms, t.Installed priority atom entry := by
  refine (foldl_removeStep_fst entry priority pattern.intoAtoms (false, t) h).trans ?_
  simp

/-! ## No empty level -/

/-- No pattern is without entries, and no priority without patterns, but for the level that the
table of a node without ids starts from. -/
structure Pruned (t : RouteTable) : Prop where
  rows : ∀ level ∈ t.routes, ∀ row ∈ level.2, row.2 ≠ []
  levels : ∀ level ∈ t.routes, level.2 = [] → level.1 = 0 ∧ t.nodeIds = ⟨none, none⟩

theorem Pruned.insertAtom (h : t.Pruned) : (t.insertAtom pattern entry priority).2.Pruned := by
  have hrows : ∀ patterns : List (EidPattern × List Entry), (∀ row ∈ patterns, row.2 ≠ []) →
      ∀ row ∈ Sorted.upsert pattern
        (fun _ => (Sorted.insert entry (t.entriesAt priority pattern)).2) patterns,
        row.2 ≠ [] := by
    intro patterns hpatterns row hrow
    rcases Sorted.mem_upsert hrow with hrow | heq | ⟨-, -, heq⟩
    · exact hpatterns row hrow
    · rw [heq]
      exact Sorted.insert_ne_nil
    · rw [heq]
      exact Sorted.insert_ne_nil
  refine ⟨fun l hl => ?_, fun l hl => ?_⟩
  · rcases Sorted.mem_upsert hl with hl | heq | ⟨v, hv, heq⟩
    · exact h.rows l hl
    · simp only [heq, Option.getD_none]
      exact hrows [] nofun
    · rw [heq]
      exact hrows v (h.rows _ hv)
  · rcases Sorted.mem_upsert hl with hl | heq | ⟨v, hv, heq⟩
    · exact h.levels l hl
    · rw [heq]
      exact fun hnil => absurd hnil Sorted.upsert_ne_nil
    · rw [heq]
      exact fun hnil => absurd hnil Sorted.upsert_ne_nil

theorem Pruned.removeAtom (h : t.Pruned) (hr : t.removeAtom pattern entry priority = some t') :
    t'.Pruned := by
  obtain ⟨-, -, -, -, -, -, rfl⟩ := removeAtom_eq_some.mp hr
  refine ⟨fun l hl => ?_, fun l hl => ?_⟩
  · rcases Sorted.mem_update hl with hl | ⟨patterns, hpatterns, hleft⟩
    · exact h.rows l hl
    · rw [Sorted.nonempty_eq_some hleft]
      intro row hrow
      rcases Sorted.mem_update hrow with hrow | ⟨actions, hactions, hrow⟩
      · exact h.rows _ hpatterns row hrow
      · obtain ⟨left, -, hleft⟩ := Option.bind_eq_some_iff.mp hrow
        exact Sorted.nonempty_ne_nil hleft
  · rcases Sorted.mem_update hl with hl | ⟨patterns, hpatterns, hleft⟩
    · exact h.levels l hl
    · exact fun hnil => absurd hnil (Sorted.nonempty_ne_nil hleft)

omit [Globs] in
theorem pruned_withoutSource : (t.withoutSource source).Pruned := by
  refine ⟨fun l hl row hrow => ?_, fun l hl hnil => absurd hnil (mem_withoutSource hl).1⟩
  obtain ⟨-, l', hl', -, heq⟩ := mem_withoutSource hl
  rw [heq] at hrow
  obtain ⟨row', hrow', hleft⟩ := List.mem_filterMap.mp hrow
  obtain ⟨es, hes, rfl⟩ := Option.map_eq_some_iff.mp hleft
  exact Sorted.nonempty_ne_nil hes

theorem Pruned.insert {new : Bool} (h : t.Pruned)
    (ht : t.insert pattern entry priority = .ok (new, t')) : t'.Pruned := by
  have hfold : ∀ (atoms : List EidPattern) (r : Bool × RouteTable), r.2.Pruned →
      (atoms.foldl (insertStep entry priority) r).2.Pruned := by
    intro atoms
    induction atoms with
    | nil => exact fun _ h => h
    | cons a atoms ih => exact fun r h => ih _ h.insertAtom
  rcases insert_eq (t := t) pattern entry priority with ⟨⟨e, he⟩, -⟩ | ⟨hok, -⟩
  · cases he.symm.trans ht
  · rw [ht] at hok
    have := hfold pattern.intoAtoms (false, t) h
    rw [← Except.ok.inj hok] at this
    exact this

theorem Pruned.remove (h : t.Pruned) : (t.remove pattern entry priority).2.Pruned := by
  have hfold : ∀ (atoms : List EidPattern) (r : Bool × RouteTable), r.2.Pruned →
      (atoms.foldl (removeStep entry priority) r).2.Pruned := by
    intro atoms
    induction atoms with
    | nil => exact fun _ h => h
    | cons a atoms ih =>
      refine fun r h => ih _ ?_
      rw [removeStep]
      split
      · next t' ht => exact h.removeAtom ht
      · exact h
  exact hfold pattern.intoAtoms (false, t) h

theorem pruned_new (ids : NodeIds) : (RouteTable.new ids).Pruned := by
  have hmem : ∀ (e : Entry) (endpoints : List Eid) (m : List (EidPattern × List Entry)),
      (∀ row ∈ m, row.2 ≠ []) → ∀ row ∈ endpoints.foldl (fun m eid =>
        Sorted.upsert (EidPattern.ofEid eid) (fun _ => [e]) m) m, row.2 ≠ [] := by
    intro e endpoints
    induction endpoints with
    | nil => exact fun _ h => h
    | cons eid endpoints ih =>
      refine fun m h => ih _ fun row hrow => ?_
      rcases Sorted.mem_upsert hrow with hrow | heq | ⟨-, -, heq⟩
      · exact h row hrow
      · rw [heq]
        nofun
      · rw [heq]
        nofun
  have hnil : ∀ (e : Entry) (endpoints : List Eid) (m : List (EidPattern × List Entry)),
      endpoints.foldl (fun m eid => Sorted.upsert (EidPattern.ofEid eid) (fun _ => [e]) m) m = [] →
        endpoints = [] := by
    intro e endpoints
    induction endpoints using List.reverseRecOn with
    | nil => exact fun _ _ => rfl
    | append_singleton endpoints eid _ =>
      intro m hnil
      rw [List.foldl_append] at hnil
      exact absurd hnil Sorted.upsert_ne_nil
  refine ⟨fun l hl => ?_, fun l hl hempty => ?_⟩
  · rw [List.mem_singleton.mp hl]
    exact hmem _ _ [] nofun
  · rw [List.mem_singleton.mp hl] at hempty ⊢
    refine ⟨rfl, ?_⟩
    have := hnil _ _ [] hempty
    obtain ⟨ipn, dtn⟩ := ids
    cases ipn with
    | some => simp at this
    | none =>
      cases dtn with
      | some => simp at this
      | none => rfl

/-! ## Runs of calls -/

def call (t : RouteTable) : TableCall → Answer × RouteTable
  | .insert pattern entry priority =>
    match t.insert pattern entry priority with
    | .error e => (.inserted (.error e), t)
    | .ok (new, t') => (.inserted (.ok new), t')
  | .remove pattern entry priority =>
    let (found, t') := t.remove pattern entry priority
    (.removed found, t')
  | .removeBySource source =>
    let (r, t') := t.removeBySource source
    (.removedBySource r, t')

def calls (t : RouteTable) (cs : List TableCall) : RouteTable :=
  cs.foldl (fun t c => (t.call c).2) t

structure Denotes (ids : NodeIds) (S : Triple → Prop) (t : RouteTable) : Prop where
  inOrder : t.InOrder
  nodeIds : t.nodeIds = ids
  held : ∀ x, t.Held x ↔ S x
  pruned : t.Pruned

theorem Denotes.call {ids : NodeIds} {S : Triple → Prop} (h : t.Denotes ids S) (c : TableCall) :
    (t.call c).2.Denotes ids (c.denote ids S) ∧ c.Answered ids S (t.call c).1 := by
  obtain ⟨hord, rfl, hheld, hpruned⟩ := h
  have hinst : ∀ priority atom entry,
      t.Installed priority atom entry ↔ S ⟨priority, atom, entry⟩ := fun priority atom entry =>
    (held_iff hord (x := ⟨priority, atom, entry⟩)).symm.trans (hheld _)
  cases c with
  | insert pattern entry priority =>
    rcases insert_eq (t := t) pattern entry priority with ⟨⟨e, he⟩, hrefused⟩ | ⟨hok, haccepted⟩
    · rw [RouteTable.call, he]
      refine ⟨⟨hord, rfl, fun x => (hheld x).trans ⟨.inl, ?_⟩, hpruned⟩, hrefused⟩
      rintro (hx | ⟨hnot, -⟩)
      · exact hx
      · exact absurd hrefused hnot
    · cases hr : pattern.intoAtoms.foldl (insertStep entry priority) (false, t) with
      | mk new t' =>
        rw [hr] at hok
        obtain ⟨hord', hids, hinst', -⟩ := installed_insert hord hok
        rw [RouteTable.call, hok]
        refine ⟨⟨hord', hids, fun x => ?_, hpruned.insert hok⟩, haccepted, ?_⟩
        · rw [held_iff hord', hinst', hinst]
          refine or_congr_right ⟨?_, ?_⟩
          · rintro ⟨hp, ⟨a, ha, hatom⟩, he⟩
            exact ⟨haccepted, a, ha, hp, hatom, he⟩
          · rintro ⟨-, a, ha, hp, hatom, he⟩
            exact ⟨hp, ⟨a, ha, hatom⟩, he⟩
        · simpa only [hinst] using insert_new hord hok
  | remove pattern entry priority =>
    obtain ⟨hord', hids, hinst', -⟩ := installed_remove hord (Prod.eta (t.remove pattern entry
      priority)).symm
    refine ⟨⟨hord', hids, fun x => ?_, hpruned.remove⟩, ?_⟩
    · refine (held_iff hord').trans ((hinst' _ _ _).trans (and_congr (hinst _ _ _) (not_congr ?_)))
      constructor
      · rintro ⟨hp, ⟨a, ha, hatom⟩, he⟩
        exact ⟨a, ha, hp, hatom, he⟩
      · rintro ⟨a, ha, hp, hatom, he⟩
        exact ⟨hp, ⟨a, ha, hatom⟩, he⟩
    · refine (remove_found hord).trans ?_
      simp only [hinst]
  | removeBySource source =>
    refine ⟨⟨inOrder_withoutSource hord, rfl, fun x => ?_, pruned_withoutSource⟩, ?_⟩
    · exact held_withoutSource.trans (and_congr_left fun _ => hheld x)
    · have hreports : (t.removeBySource source).1.Reports fun x =>
          t.Held x ∧ x.entry.source = source := reports_removeBySource hord
      simp only [hheld] at hreports
      exact hreports

def referenceSet (ids : NodeIds) (cs : List TableCall) : Triple → Prop :=
  cs.foldl (fun S c => c.denote ids S) (RouteTable.new ids).Held

theorem Denotes.calls {ids : NodeIds} {S : Triple → Prop} (h : t.Denotes ids S)
    (cs : List TableCall) :
    (t.calls cs).Denotes ids (cs.foldl (fun S c => c.denote ids S) S) := by
  induction cs generalizing t S with
  | nil => exact h
  | cons c cs ih => exact ih (h.call c).1

/-- After any calls the triples are those of the reference set, each once; the next call answers by
that set; and no level is empty. -/
theorem calls_denote (ids : NodeIds) (cs : List TableCall) :
    (∀ x, ((RouteTable.new ids).calls cs).Held x ↔ referenceSet ids cs x) ∧
      (((RouteTable.new ids).calls cs).triples.Pairwise fun x y => ¬ x.Same y) ∧
      (∀ c : TableCall, c.Answered ids (referenceSet ids cs)
        (((RouteTable.new ids).calls cs).call c).1) ∧
      (∀ level ∈ ((RouteTable.new ids).calls cs).routes,
        (∀ row ∈ level.2, row.2 ≠ []) ∧ (level.2 = [] → level.1 = 0 ∧ ids = ⟨none, none⟩)) := by
  have h : ((RouteTable.new ids).calls cs).Denotes ids (referenceSet ids cs) :=
    Denotes.calls ⟨inOrder_new ids, rfl, fun _ => Iff.rfl, pruned_new ids⟩ cs
  refine ⟨h.held, triples_pairwise h.inOrder, fun c => (h.call c).2, fun level hlevel => ⟨?_, ?_⟩⟩
  · exact h.pruned.rows level hlevel
  · rw [← h.nodeIds]
    exact h.pruned.levels level hlevel

end RouteTable

end Hardy.Routing
