import Hardy.Keyed
import Hardy.Pattern.Ordered
import Hardy.Routing.Withdrawal

/-!
# What is installed

The levels of a route table are sorted maps and sets (`InOrder`), so that an insertion
and a removal change what is installed under the atoms of their pattern and nothing
else.  Atoms that compare as equal are one key of the table.
-/

namespace Hardy

open Coded

/-! ## The order of entries -/

def ServiceId.code : ServiceId → List Int
  | .ipn number => 0 :: Coded.code number
  | .dtn name => 1 :: Coded.code name

instance : Coded ServiceId where
  code := ServiceId.code
  compare_append a b r r' := by
    cases a <;> cases b <;> simp only [ServiceId.code, List.cons_append, compare_cons,
      compare_append, compare_same]
    all_goals first | rfl | exact (then_single ..).symm

def ReasonCode.code : ReasonCode → List Int
  | .unassigned n => 17 :: Coded.code n
  | r => [(r.ctorIdx : Int)]

instance : Coded ReasonCode where
  code := ReasonCode.code
  compare_append a b r r' := by
    cases a <;> cases b <;> simp only [ReasonCode.code, List.cons_append, List.nil_append,
      compare_cons, compare_append, compare_same]
    all_goals first | rfl | exact (then_single ..).symm

theorem ReasonCode.eq_of_compare {a b : ReasonCode} (h : compare a b = .eq) : a = b := by
  cases a with
  | unassigned n =>
    cases b with
    | unassigned n' =>
      have h : (compare n n').then .eq = .eq := h
      rw [Ordering.then_eq, Std.compare_eq_iff_eq] at h
      rw [h]
    | _ => cases h
  | _ => cases b <;> first | rfl | cases h

namespace Routing

instance : Ord Action := ⟨Action.cmp⟩

def Action.code : Action → List Int
  | .route (.drop none) => [0, 0]
  | .route (.drop (some reason)) => 0 :: 1 :: Coded.code reason
  | .internal .adminEndpoint => [1]
  | .internal (.localService service) => 2 :: Coded.code service.serviceId
  | .internal (.forward peer) => 3 :: Coded.code peer
  | .route .reflect => [4]
  | .route (.via eid) => 5 :: Coded.code eid

instance : Coded Action where
  code := Action.code
  compare_append a b r r' := by
    rcases a with ((_ | _ | (_ | _)) | (_ | _ | _)) <;>
      rcases b with ((_ | _ | (_ | _)) | (_ | _ | _)) <;>
      simp only [Action.code, List.cons_append, List.nil_append, compare_cons, compare_append,
        compare_same]
    all_goals rfl

theorem RouteAction.eq_of_compare {a b : RouteAction}
    (h : compare (Action.route a) (.route b) = .eq) : a = b := by
  cases a with
  | via e =>
    cases b with
    | via e' => rw [Eid.eq_of_compare (show compare e e' = .eq from h)]
    | _ => cases h
  | reflect => cases b <;> first | rfl | cases h
  | drop reason =>
    cases b with
    | drop reason' =>
      cases reason with
      | none => cases reason' <;> first | rfl | cases h
      | some c =>
        cases reason' with
        | none => cases h
        | some c' => rw [ReasonCode.eq_of_compare (show compare c c' = .eq from h)]
    | _ => cases h

instance : Std.TransOrd Entry :=
  inferInstanceAs (Std.TransCmp (compareLex (compareOn Entry.action) (compareOn Entry.source)))

theorem Entry.compare_eq {e e' : Entry} :
    compare e e' = .eq ↔ compare e.action e'.action = .eq ∧ e.source = e'.source := by
  refine Ordering.then_eq_eq.trans (and_congr_right fun _ => ?_)
  exact Std.compare_eq_iff_eq

/-! ## The levels of the table -/

namespace RouteTable

variable [Globs] {t : RouteTable} {priority priority' : Nat} {pattern atom : EidPattern}
  {entry entry' : Entry}

structure InOrder (t : RouteTable) : Prop where
  priorities : Sorted.Keyed t.routes
  patterns : ∀ level ∈ t.routes, Sorted.Keyed level.2
  actions : ∀ level ∈ t.routes, ∀ row ∈ level.2, Sorted.Strict row.2

def entriesAt (t : RouteTable) (priority : Nat) (atom : EidPattern) : List Entry :=
  ((Sorted.get priority t.routes).bind (Sorted.get atom)).getD []

def Installed (t : RouteTable) (priority : Nat) (atom : EidPattern) (entry : Entry) : Prop :=
  Sorted.Has entry (t.entriesAt priority atom)

def level (t : RouteTable) (priority : Nat) : List (EidPattern × List Entry) :=
  (Sorted.get priority t.routes).getD []

omit [Globs] in
theorem entriesAt_eq :
    t.entriesAt priority atom = (Sorted.get atom (t.level priority)).getD [] := by
  unfold RouteTable.entriesAt RouteTable.level
  cases Sorted.get priority t.routes <;> rfl

omit [Globs] in
theorem mem_level {row : EidPattern × List Entry} (h : row ∈ t.level priority) :
    ∃ l ∈ t.routes, row ∈ l.2 := by
  unfold RouteTable.level at h
  cases hget : Sorted.get priority t.routes with
  | none =>
    rw [hget] at h
    cases h
  | some patterns =>
    rw [hget] at h
    obtain ⟨l, hl, -, rfl⟩ := Sorted.mem_of_get hget
    exact ⟨l, hl, h⟩

omit [Globs] in
theorem InOrder.level (h : t.InOrder) : Sorted.Keyed (t.level priority) := by
  unfold RouteTable.level
  cases hget : Sorted.get priority t.routes with
  | none => exact List.Pairwise.nil
  | some patterns =>
    obtain ⟨l, hl, -, rfl⟩ := Sorted.mem_of_get hget
    exact h.patterns l hl

omit [Globs] in
theorem InOrder.entriesAt (h : t.InOrder) : Sorted.Strict (t.entriesAt priority atom) := by
  rw [entriesAt_eq]
  cases hget : Sorted.get atom (t.level priority) with
  | none => exact List.Pairwise.nil
  | some es =>
    obtain ⟨row, hrow, -, rfl⟩ := Sorted.mem_of_get hget
    obtain ⟨l, hl, hrow⟩ := mem_level hrow
    exact h.actions l hl row hrow

omit [Globs] in
theorem Installed.congr {atom' : EidPattern} (h : t.Installed priority atom entry)
    (hatom : compare atom' atom = .eq) (hentry : compare entry' entry = .eq) :
    t.Installed priority atom' entry' := by
  obtain ⟨e, he, heq⟩ := h
  refine ⟨e, ?_, Std.TransCmp.eq_trans hentry heq⟩
  rw [entriesAt_eq, Sorted.get_congr hatom, ← entriesAt_eq]
  exact he

/-! ## Insertion -/

theorem entriesAt_insertAtom (h : t.InOrder) :
    (t.insertAtom pattern entry priority).2.entriesAt priority' atom =
      if priority' = priority ∧ compare atom pattern = .eq then
        (Sorted.insert entry (t.entriesAt priority pattern)).2
      else t.entriesAt priority' atom := by
  have hlevel : (t.insertAtom pattern entry priority).2.level priority' =
      if compare priority' priority = .eq then
        Sorted.upsert pattern (fun _ => (Sorted.insert entry (t.entriesAt priority pattern)).2)
          (t.level priority)
      else t.level priority' := by
    refine (congrArg (·.getD []) (Sorted.get_upsert h.priorities _)).trans ?_
    split
    · rfl
    · rfl
  rw [entriesAt_eq, hlevel]
  by_cases hp : priority' = priority
  · rw [if_pos (Std.compare_eq_iff_eq.mpr hp), Sorted.get_upsert h.level]
    by_cases hc : compare atom pattern = .eq
    · rw [if_pos hc, if_pos ⟨hp, hc⟩]
      rfl
    · rw [if_neg hc, if_neg fun hand => hc hand.2, hp, ← entriesAt_eq]
  · rw [if_neg fun hc => hp (Std.compare_eq_iff_eq.mp hc), if_neg fun hand => hp hand.1,
      ← entriesAt_eq]

theorem inOrder_insertAtom (h : t.InOrder) : (t.insertAtom pattern entry priority).2.InOrder := by
  have hrows : ∀ patterns : List (EidPattern × List Entry),
      (∀ row ∈ patterns, Sorted.Strict row.2) → ∀ row ∈ Sorted.upsert pattern
        (fun _ => (Sorted.insert entry (t.entriesAt priority pattern)).2) patterns,
        Sorted.Strict row.2 := by
    intro patterns hpatterns row hrow
    rcases Sorted.mem_upsert hrow with hrow | heq | ⟨-, -, heq⟩
    · exact hpatterns row hrow
    · rw [heq]
      exact Sorted.strict_insert h.entriesAt
    · rw [heq]
      exact Sorted.strict_insert h.entriesAt
  refine ⟨Sorted.keyed_upsert h.priorities _, fun l hl => ?_, fun l hl => ?_⟩
  · rcases Sorted.mem_upsert hl with hl | heq | ⟨v, hv, heq⟩
    · exact h.patterns l hl
    · simp only [heq, Option.getD_none]
      exact Sorted.keyed_upsert List.Pairwise.nil _
    · rw [heq]
      exact Sorted.keyed_upsert (h.patterns _ hv) _
  · rcases Sorted.mem_upsert hl with hl | heq | ⟨v, hv, heq⟩
    · exact h.actions l hl
    · simp only [heq, Option.getD_none]
      exact hrows [] nofun
    · rw [heq]
      exact hrows v (h.actions _ hv)

theorem installed_insertAtom (h : t.InOrder) :
    (t.insertAtom pattern entry priority).2.Installed priority' atom entry' ↔
      t.Installed priority' atom entry' ∨
        priority' = priority ∧ compare atom pattern = .eq ∧ compare entry' entry = .eq := by
  unfold Installed
  rw [entriesAt_insertAtom h]
  split
  · next hand =>
      obtain ⟨rfl, hc⟩ := hand
      have hsame : t.entriesAt priority' pattern = t.entriesAt priority' atom := by
        rw [entriesAt_eq, entriesAt_eq, Sorted.get_congr hc]
      rw [Sorted.has_insert, hsame]
      constructor
      · rintro (heq | hhas)
        · exact .inr ⟨rfl, hc, heq⟩
        · exact .inl hhas
      · rintro (hhas | ⟨-, -, heq⟩)
        · exact .inr hhas
        · exact .inl heq
  · next hnot =>
      refine ⟨.inl, fun hor => ?_⟩
      rcases hor with hhas | ⟨hp, hc, -⟩
      · exact hhas
      · exact absurd ⟨hp, hc⟩ hnot

theorem insertAtom_fst (h : t.InOrder) :
    (t.insertAtom pattern entry priority).1 = true ↔ ¬ t.Installed priority pattern entry :=
  Sorted.insert_fst h.entriesAt

/-! ## Removal -/

variable {t' : RouteTable}

theorem removeAtom_eq_some :
    t.removeAtom pattern entry priority = some t' ↔
      ∃ patterns actions left, Sorted.get priority t.routes = some patterns ∧
        Sorted.get pattern patterns = some actions ∧ Sorted.remove entry actions = some left ∧
        t' = { t with routes := Sorted.update priority (fun patterns => Sorted.nonempty
          (Sorted.update pattern (fun actions => (Sorted.remove entry actions).bind
            Sorted.nonempty) patterns)) t.routes } := by
  simp only [removeAtom, bind, Option.bind_eq_some_iff, Option.some.injEq]
  constructor
  · rintro ⟨patterns, hp, actions, ha, left, hl, rfl⟩
    exact ⟨patterns, actions, left, hp, ha, hl, rfl⟩
  · rintro ⟨patterns, actions, left, hp, ha, hl, rfl⟩
    exact ⟨patterns, hp, actions, ha, left, hl, rfl⟩

theorem removeAtom_eq_none :
    t.removeAtom pattern entry priority = none ↔ ¬ t.Installed priority pattern entry := by
  rw [Installed, ← Sorted.remove_eq_none]
  constructor
  · intro hnone
    unfold RouteTable.entriesAt
    cases hget : (Sorted.get priority t.routes).bind (Sorted.get pattern) with
    | none => rfl
    | some actions =>
      obtain ⟨patterns, hp, ha⟩ := Option.bind_eq_some_iff.mp hget
      rw [Option.getD_some]
      cases hl : Sorted.remove entry actions with
      | none => rfl
      | some left =>
        rw [removeAtom_eq_some.mpr ⟨patterns, actions, left, hp, ha, hl, rfl⟩] at hnone
        cases hnone
  · intro hnone
    cases ht : t.removeAtom pattern entry priority with
    | none => rfl
    | some t' =>
      obtain ⟨patterns, actions, left, hp, ha, hl, -⟩ := removeAtom_eq_some.mp ht
      have hat : t.entriesAt priority pattern = actions := by
        rw [RouteTable.entriesAt, hp, Option.bind_some, ha, Option.getD_some]
      rw [hat, hl] at hnone
      cases hnone

theorem entriesAt_removeAtom (h : t.InOrder) (hr : t.removeAtom pattern entry priority = some t') :
    Sorted.remove entry (t.entriesAt priority pattern) = some (t'.entriesAt priority pattern) ∧
      ∀ priority' atom, t'.entriesAt priority' atom =
        if priority' = priority ∧ compare atom pattern = .eq then t'.entriesAt priority pattern
        else t.entriesAt priority' atom := by
  obtain ⟨patterns, actions, left, hp, ha, hl, ht'⟩ := removeAtom_eq_some.mp hr
  have hat : t.entriesAt priority pattern = actions := by
    rw [RouteTable.entriesAt, hp, Option.bind_some, ha, Option.getD_some]
  have hpatterns : t.level priority = patterns := by
    rw [RouteTable.level, hp, Option.getD_some]
  have hroutes := congrArg RouteTable.routes ht'
  have hentries : ∀ priority' atom, t'.entriesAt priority' atom =
      if priority' = priority ∧ compare atom pattern = .eq then left
      else t.entriesAt priority' atom := by
    intro priority' atom
    rw [entriesAt_eq, RouteTable.level, hroutes, Sorted.get_update h.priorities]
    by_cases hp' : priority' = priority
    · rw [if_pos (Std.compare_eq_iff_eq.mpr hp'), hp, Option.bind_some, Sorted.nonempty_getD,
        Sorted.get_update (hpatterns ▸ h.level)]
      by_cases hc : compare atom pattern = .eq
      · rw [if_pos hc, if_pos ⟨hp', hc⟩, ha, Option.bind_some, hl, Option.bind_some,
          Sorted.nonempty_getD]
      · rw [if_neg hc, if_neg fun hand => hc hand.2, hp', entriesAt_eq, hpatterns]
    · rw [if_neg fun hc => hp' (Std.compare_eq_iff_eq.mp hc), if_neg fun hand => hp' hand.1,
        entriesAt_eq, RouteTable.level]
  have hleft : t'.entriesAt priority pattern = left := by
    rw [hentries, if_pos ⟨rfl, Std.ReflCmp.compare_self⟩]
  refine ⟨?_, fun priority' atom => ?_⟩
  · rw [hat, hl, hleft]
  · rw [hentries, hleft]

theorem inOrder_removeAtom (h : t.InOrder)
    (hr : t.removeAtom pattern entry priority = some t') : t'.InOrder := by
  obtain ⟨-, -, -, -, -, -, rfl⟩ := removeAtom_eq_some.mp hr
  refine ⟨Sorted.keyed_update h.priorities _, fun l hl => ?_, fun l hl => ?_⟩
  · rcases Sorted.mem_update hl with hl | ⟨patterns, hpatterns, hleft⟩
    · exact h.patterns l hl
    · rw [Sorted.nonempty_eq_some hleft]
      exact Sorted.keyed_update (h.patterns _ hpatterns) _
  · rcases Sorted.mem_update hl with hl | ⟨patterns, hpatterns, hleft⟩
    · exact h.actions l hl
    · rw [Sorted.nonempty_eq_some hleft]
      intro row hrow
      rcases Sorted.mem_update hrow with hrow | ⟨actions, hactions, hrow⟩
      · exact h.actions _ hpatterns row hrow
      · obtain ⟨left, hremove, hleft⟩ := Option.bind_eq_some_iff.mp hrow
        rw [Sorted.nonempty_eq_some hleft]
        exact Sorted.strict_remove (h.actions _ hpatterns _ hactions) hremove

theorem installed_removeAtom (h : t.InOrder) (hr : t.removeAtom pattern entry priority = some t') :
    t'.Installed priority' atom entry' ↔ t.Installed priority' atom entry' ∧
      ¬ (priority' = priority ∧ compare atom pattern = .eq ∧ compare entry' entry = .eq) := by
  obtain ⟨hremove, hentries⟩ := entriesAt_removeAtom h hr
  unfold Installed
  rw [hentries]
  split
  · next hand =>
      obtain ⟨rfl, hc⟩ := hand
      have hsame : t.entriesAt priority' pattern = t.entriesAt priority' atom := by
        rw [entriesAt_eq, entriesAt_eq, Sorted.get_congr hc]
      rw [Sorted.has_remove h.entriesAt hremove, hsame]
      refine and_congr_right fun _ => not_congr ⟨fun heq => ⟨rfl, hc, heq⟩, fun hall => hall.2.2⟩
  · next hnot =>
      refine ⟨fun hhas => ⟨hhas, fun hall => hnot ⟨hall.1, hall.2.1⟩⟩, fun hand => hand.1⟩

/-! ## Patterns of several atoms -/

def HasAtom (pattern atom : EidPattern) : Prop :=
  ∃ a ∈ pattern.intoAtoms, compare atom a = .eq

omit [Globs] in
theorem HasAtom.cons {a : EidPattern} {atoms : List EidPattern} {P : Prop} :
    (∃ b ∈ a :: atoms, compare atom b = .eq) ∧ P ↔
      compare atom a = .eq ∧ P ∨ (∃ b ∈ atoms, compare atom b = .eq) ∧ P := by
  rw [List.exists_mem_cons_iff, or_and_right]

def insertStep (entry : Entry) (priority : Nat) (r : Bool × RouteTable) (atom : EidPattern) :
    Bool × RouteTable :=
  (r.1 || (r.2.insertAtom atom entry priority).1, (r.2.insertAtom atom entry priority).2)

theorem foldl_insertStep (entry : Entry) (priority : Nat) (atoms : List EidPattern) (r : Bool × RouteTable) (h : r.2.InOrder) :
    (atoms.foldl (insertStep entry priority) r).2.InOrder ∧
      (atoms.foldl (insertStep entry priority) r).2.nodeIds = r.2.nodeIds ∧
      (∀ priority' atom entry',
        (atoms.foldl (insertStep entry priority) r).2.Installed priority' atom entry' ↔
          r.2.Installed priority' atom entry' ∨ priority' = priority ∧
            (∃ a ∈ atoms, compare atom a = .eq) ∧ compare entry' entry = .eq) ∧
      ((atoms.foldl (insertStep entry priority) r).1 = false →
        r.1 = false ∧ ∀ a ∈ atoms, r.2.Installed priority a entry) := by
  induction atoms generalizing r with
  | nil =>
    refine ⟨h, rfl, fun priority' atom entry' => ⟨.inl, ?_⟩, fun hr => ⟨hr, ?_⟩⟩
    · rintro (hi | ⟨-, ⟨a, ha, -⟩, -⟩)
      · exact hi
      · cases ha
    · exact nofun
  | cons a atoms ih =>
    obtain ⟨hord, hids, hinst, hflag⟩ := ih (insertStep entry priority r a)
      (inOrder_insertAtom h)
    refine ⟨hord, hids, fun priority' atom entry' => ?_, fun hr => ?_⟩
    · rw [List.foldl_cons, hinst, HasAtom.cons]
      refine (or_congr_left (installed_insertAtom h)).trans ?_
      rw [or_assoc, ← and_or_left]
    · obtain ⟨hfirst, hrest⟩ := hflag hr
      obtain ⟨hr, hnew⟩ := Bool.or_eq_false_iff.mp hfirst
      have ha : r.2.Installed priority a entry := by
        by_contra hnot
        rw [(insertAtom_fst h).mpr hnot] at hnew
        cases hnew
      refine ⟨hr, fun b hb => ?_⟩
      rcases List.mem_cons.mp hb with rfl | hb
      · exact ha
      · rcases (installed_insertAtom h).mp (hrest b hb) with hi | ⟨-, hc, -⟩
        · exact hi
        · exact ha.congr hc Std.ReflCmp.compare_self

theorem installed_insert {inserted : Bool} (h : t.InOrder)
    (ht : t.insert pattern entry priority = .ok (inserted, t')) :
    t'.InOrder ∧ t'.nodeIds = t.nodeIds ∧
      (∀ priority' atom entry', t'.Installed priority' atom entry' ↔
        t.Installed priority' atom entry' ∨ priority' = priority ∧ HasAtom pattern atom ∧
          compare entry' entry = .eq) ∧
      (inserted = false → ∀ atom, HasAtom pattern atom → t.Installed priority atom entry) := by
  have hfold : pattern.intoAtoms.foldl (insertStep entry priority) (false, t) = (inserted, t') := by
    rw [RouteTable.insert] at ht
    split at ht
    · split at ht
      · cases ht
      · split at ht
        · cases ht
        · exact Except.ok.inj ht
    · exact Except.ok.inj ht
  obtain ⟨hord, hids, hinst, hflag⟩ :=
    foldl_insertStep entry priority pattern.intoAtoms (false, t) h
  rw [hfold] at hord hids hinst hflag
  refine ⟨hord, hids, hinst, fun hfalse atom hatom => ?_⟩
  obtain ⟨a, ha, hc⟩ := hatom
  exact ((hflag hfalse).2 a ha).congr hc Std.ReflCmp.compare_self

theorem installed_removeStep (entry : Entry) (priority : Nat) (atom : EidPattern) {r : Bool × RouteTable} (h : r.2.InOrder) :
    (removeStep entry priority r atom).2.InOrder ∧
      (removeStep entry priority r atom).2.nodeIds = r.2.nodeIds ∧
      (∀ priority' atom' entry',
        (removeStep entry priority r atom).2.Installed priority' atom' entry' ↔
          r.2.Installed priority' atom' entry' ∧ ¬ (priority' = priority ∧
            compare atom' atom = .eq ∧ compare entry' entry = .eq)) ∧
      ((removeStep entry priority r atom).1 = false → removeStep entry priority r atom = r) := by
  unfold removeStep
  split
  · next t' ht =>
      refine ⟨inOrder_removeAtom h ht, ?_, fun _ _ _ => installed_removeAtom h ht,
        fun hfalse => Bool.noConfusion hfalse⟩
      obtain ⟨-, -, -, -, -, -, rfl⟩ := removeAtom_eq_some.mp ht
      rfl
  · next hnone =>
      refine ⟨h, rfl, fun priority' atom' entry' => ?_, fun _ => rfl⟩
      refine ⟨fun hi => ⟨hi, ?_⟩, fun hand => hand.1⟩
      rintro ⟨rfl, hc, he⟩
      exact removeAtom_eq_none.mp hnone
        (hi.congr (Std.OrientedCmp.eq_symm hc) (Std.OrientedCmp.eq_symm he))

theorem foldl_removeStep (entry : Entry) (priority : Nat) (atoms : List EidPattern) (r : Bool × RouteTable) (h : r.2.InOrder) :
    (atoms.foldl (removeStep entry priority) r).2.InOrder ∧
      (atoms.foldl (removeStep entry priority) r).2.nodeIds = r.2.nodeIds ∧
      (∀ priority' atom entry',
        (atoms.foldl (removeStep entry priority) r).2.Installed priority' atom entry' ↔
          r.2.Installed priority' atom entry' ∧ ¬ (priority' = priority ∧
            (∃ a ∈ atoms, compare atom a = .eq) ∧ compare entry' entry = .eq)) ∧
      ((atoms.foldl (removeStep entry priority) r).1 = false →
        atoms.foldl (removeStep entry priority) r = r) := by
  induction atoms generalizing r with
  | nil =>
    refine ⟨h, rfl, fun priority' atom entry' => ⟨fun hi => ⟨hi, ?_⟩, fun hand => hand.1⟩,
      fun _ => rfl⟩
    rintro ⟨-, ⟨a, ha, -⟩, -⟩
    cases ha
  | cons a atoms ih =>
    obtain ⟨hord₁, hids₁, hinst₁, hflag₁⟩ :=
      installed_removeStep entry priority a h
    obtain ⟨hord, hids, hinst, hflag⟩ := ih (removeStep entry priority r a) hord₁
    refine ⟨hord, hids.trans hids₁, fun priority' atom entry' => ?_, fun hr => ?_⟩
    · rw [List.foldl_cons, hinst, hinst₁, HasAtom.cons, and_assoc, and_or_left, not_or]
    · have hsame := hflag hr
      rw [List.foldl_cons] at hr ⊢
      rw [hsame] at hr ⊢
      exact hflag₁ hr

theorem installed_remove (h : t.InOrder) {removed : Bool}
    (ht : t.remove pattern entry priority = (removed, t')) :
    t'.InOrder ∧ t'.nodeIds = t.nodeIds ∧
      (∀ priority' atom entry', t'.Installed priority' atom entry' ↔
        t.Installed priority' atom entry' ∧ ¬ (priority' = priority ∧ HasAtom pattern atom ∧
          compare entry' entry = .eq)) ∧
      (removed = false → t' = t) := by
  obtain ⟨hord, hids, hinst, hflag⟩ :=
    foldl_removeStep entry priority pattern.intoAtoms (false, t) h
  unfold RouteTable.remove at ht
  rw [ht] at hord hids hinst hflag
  exact ⟨hord, hids, hinst, fun hfalse => congrArg Prod.snd (hflag hfalse)⟩

/-! ## The empty table -/

theorem inOrder_new (nodeIds : NodeIds) : (RouteTable.new nodeIds).InOrder := by
  have hfold : ∀ (es : List Entry), Sorted.Strict es → ∀ (endpoints : List Eid)
      (m : List (EidPattern × List Entry)), Sorted.Keyed m ∧ (∀ row ∈ m, Sorted.Strict row.2) →
      Sorted.Keyed (endpoints.foldl (fun m eid => Sorted.upsert (EidPattern.ofEid eid)
        (fun _ => es) m) m) ∧
      ∀ row ∈ endpoints.foldl (fun m eid => Sorted.upsert (EidPattern.ofEid eid)
        (fun _ => es) m) m, Sorted.Strict row.2 := by
    intro es hes endpoints
    induction endpoints with
    | nil => exact fun _ h => h
    | cons eid endpoints ih =>
      refine fun m h => ih _ ⟨Sorted.keyed_upsert h.1 _, fun row hrow => ?_⟩
      rcases Sorted.mem_upsert hrow with hrow | heq | ⟨-, -, heq⟩
      · exact h.2 row hrow
      · exact heq ▸ hes
      · exact heq ▸ hes
  obtain ⟨hkeyed, hstrict⟩ := hfold [⟨.internal .adminEndpoint, "administrative endpoint"⟩]
    (List.pairwise_singleton _ _)
    ((nodeIds.dtn.map fun name => Eid.dtn name []).toList ++
      (nodeIds.ipn.map fun fqnn => Eid.ipn fqnn 0).toList) []
    ⟨List.Pairwise.nil, nofun⟩
  refine ⟨List.pairwise_singleton _ _, fun l hl => ?_, fun l hl => ?_⟩
  · rw [List.mem_singleton.mp hl]
    exact hkeyed
  · rw [List.mem_singleton.mp hl]
    exact hstrict

end RouteTable

/-! ## The routing information base -/

namespace Rib

variable {σ : Type} [Globs] [QueueResets σ] {r r' : Rib σ}

open RouteTable

theorem add_table {pattern : EidPattern} {source : String} {action : Action} {priority : Nat}
    {new : Bool} (hadd : r.add pattern source action priority = .ok (new, r')) :
    ∃ table, r.table.insert (r.expandPattern pattern) ⟨r.expandAction action, source⟩
      priority = .ok (new, table) ∧ r'.table = if new then table else r.table := by
  unfold add published at hadd
  cases ht : r.table.insert (r.expandPattern pattern) ⟨r.expandAction action, source⟩ priority with
  | error e =>
    rw [ht] at hadd
    cases hadd
  | ok p =>
    obtain ⟨inserted, table⟩ := p
    rw [ht] at hadd
    cases inserted with
    | false =>
      cases hadd
      exact ⟨table, rfl, rfl⟩
    | true =>
      obtain rfl : true = new := congrArg Prod.fst (Except.ok.inj hadd)
      refine ⟨table, rfl, ?_⟩
      have hresets : ∀ keys, (resetAll resetVia { r with table } keys).2.table = table :=
        fun keys => ((Sweeps.all sweeps_resetVia (fun via _ _ hs => by
          simp only [QueuedVia, Queued, hs.table, hs.queued]) keys).frame _).table
      have hr' := (congrArg Prod.snd (Except.ok.inj hadd)).symm
      refine (congrArg Rib.table hr').trans ((notifyIf_table _ _).trans ?_)
      cases action with
      | route => exact hresets _
      | internal => rfl

theorem add_installed {pattern : EidPattern} {source : String} {action : Action} {priority : Nat}
    {new : Bool} (h : r.table.InOrder)
    (hadd : r.add pattern source action priority = .ok (new, r')) :
    r'.table.InOrder ∧ r'.table.nodeIds = r.table.nodeIds ∧
      ∀ priority' atom entry, r'.table.Installed priority' atom entry ↔
        r.table.Installed priority' atom entry ∨ priority' = priority ∧
          HasAtom (r.expandPattern pattern) atom ∧
          compare entry ⟨r.expandAction action, source⟩ = .eq := by
  obtain ⟨table, ht, hr'⟩ := add_table hadd
  obtain ⟨hord, hids, hinst, hflag⟩ := installed_insert h ht
  rw [hr']
  cases new with
  | false =>
    refine ⟨h, rfl, fun priority' atom entry => ⟨.inl, ?_⟩⟩
    rintro (hi | ⟨rfl, hatom, he⟩)
    · exact hi
    · exact (hflag rfl atom hatom).congr Std.ReflCmp.compare_self he
  | true => exact ⟨hord, hids, hinst⟩

theorem remove_table (pattern : EidPattern) (source : String) (action : Action) (priority : Nat) :
    (r.remove pattern source action priority).2.table =
      (r.table.remove (r.expandPattern pattern) ⟨r.expandAction action, source⟩ priority).2 := by
  by_cases hremoved : (r.remove pattern source action priority).1 = true
  · exact (remove_spec hremoved).1
  · rw [remove] at hremoved ⊢
    dsimp only at hremoved ⊢
    split at hremoved
    · next hnot => rw [if_pos hnot, remove_of_not (by simpa using hnot)]
    · exact absurd rfl hremoved

theorem remove_fst (pattern : EidPattern) (source : String) (action : Action) (priority : Nat) :
    (r.remove pattern source action priority).1 =
      (r.table.remove (r.expandPattern pattern) ⟨r.expandAction action, source⟩ priority).1 := by
  rw [remove]
  dsimp only
  split
  · next hnot => exact (Bool.not_eq_true' _ ▸ hnot).symm
  · next hremoved => exact (Bool.not_eq_false' _ ▸ Bool.eq_false_iff.mpr hremoved).symm

theorem removeBySource_table (r : Rib σ) (source : String) :
    (r.removeBySource source).table = r.table.withoutSource source := by
  by_cases hcount : (r.table.removeBySource source).1.removedCount = 0
  · rw [removeBySource]
    dsimp only
    rw [if_pos hcount]
    rfl
  · exact (removeBySource_spec hcount).1

theorem remove_installed (pattern : EidPattern) (source : String) (action : Action)
    (priority : Nat) (h : r.table.InOrder) :
    (r.remove pattern source action priority).2.table.InOrder ∧
      (r.remove pattern source action priority).2.table.nodeIds = r.table.nodeIds ∧
      ∀ priority' atom entry,
        (r.remove pattern source action priority).2.table.Installed priority' atom entry ↔
          r.table.Installed priority' atom entry ∧ ¬ (priority' = priority ∧
            HasAtom (r.expandPattern pattern) atom ∧
            compare entry ⟨r.expandAction action, source⟩ = .eq) := by
  obtain ⟨hord, hids, hinst, -⟩ := installed_remove h (Prod.eta (r.table.remove
    (r.expandPattern pattern) ⟨r.expandAction action, source⟩ priority)).symm
  rw [remove_table]
  exact ⟨hord, hids, hinst⟩

end Rib

end Routing

end Hardy
