import Hardy.Routing.Triples

/-!
# Snapshots of the route table

`Rib::table_snapshot` and `Rib::table_changed_since` of `bpa/src/routing/rib.rs`: the published
table is known by the `Arc` that holds it.  An `Arc` is the number of stores before it here, since
a token keeps its table alive and no address comes back while it is held.

`add` and `remove` publish where they change the routes and nowhere else; `remove_by_source`
publishes always (`PublishedRib.changed_iff`).
-/

namespace Hardy.Routing

section

variable {σ : Type} [Globs] [QueueResets σ]

structure PublishedRib (σ : Type) where
  rib : Rib σ
  arc : Nat

inductive RibCall where
  | add (pattern : EidPattern) (source : String) (action : Action) (priority : Nat)
  | remove (pattern : EidPattern) (source : String) (action : Action) (priority : Nat)
  | removeBySource (source : String)

namespace PublishedRib

def tableSnapshot (p : PublishedRib σ) : Nat := p.arc

def tableChangedSince (p : PublishedRib σ) (seen : Nat) : Bool := seen != p.arc

def new (ids : NodeIds) (ecmpHash : Eid × Eid × Option Nat → Nat) (store : σ) : PublishedRib σ :=
  ⟨⟨RouteTable.new ids, ecmpHash, store, 0⟩, 0⟩

/-- `Rib::add`, with the store into the snapshot where the entry is new. -/
def add (p : PublishedRib σ) (pattern : EidPattern) (source : String) (action : Action)
    (priority : Nat) : Except Error (Bool × PublishedRib σ) := do
  let (inserted, rib) ← p.rib.add pattern source action priority
  return (inserted, ⟨rib, if inserted then p.arc + 1 else p.arc⟩)

/-- `Rib::remove`, with the store where something has been removed. -/
def remove (p : PublishedRib σ) (pattern : EidPattern) (source : String) (action : Action)
    (priority : Nat) : Bool × PublishedRib σ :=
  let (removed, rib) := p.rib.remove pattern source action priority
  (removed, ⟨rib, if removed then p.arc + 1 else p.arc⟩)

/-- `Rib::remove_by_source`, which stores before it looks at the count. -/
def removeBySource (p : PublishedRib σ) (source : String) : PublishedRib σ :=
  ⟨p.rib.removeBySource source, p.arc + 1⟩

def call (p : PublishedRib σ) : RibCall → PublishedRib σ
  | .add pattern source action priority =>
    match p.add pattern source action priority with
    | .ok (_, p') => p'
    | .error _ => p
  | .remove pattern source action priority => (p.remove pattern source action priority).2
  | .removeBySource source => p.removeBySource source

def calls (p : PublishedRib σ) (cs : List RibCall) : PublishedRib σ := cs.foldl call p

def Sometime (kind : PublishedRib σ → RibCall → Prop) (p : PublishedRib σ) : List RibCall → Prop
  | [] => False
  | c :: cs => kind p c ∨ Sometime kind (p.call c) cs

def Alters (p : PublishedRib σ) (c : RibCall) : Prop :=
  ∃ x, ¬ ((p.call c).rib.table.Held x ↔ p.rib.table.Held x)

def Idle (p : PublishedRib σ) (c : RibCall) : Prop :=
  ∃ source, c = .removeBySource source ∧ ∀ x, p.rib.table.Held x → x.entry.source ≠ source

/-! ## One call -/

variable {p : PublishedRib σ}

/-- The call publishes a table for a change or for a withdrawal of nothing, and for nothing
else. -/
structure Publishes (p : PublishedRib σ) (c : RibCall) : Prop where
  inOrder : (p.call c).rib.table.InOrder
  arc : (p.call c).arc = p.arc ∧ ¬ Alters p c ∧ ¬ Idle p c ∨
    (p.call c).arc = p.arc + 1 ∧ (Alters p c ∨ Idle p c)

theorem publishes_add (h : p.rib.table.InOrder) (pattern : EidPattern) (source : String)
    (action : Action) (priority : Nat) : Publishes p (.add pattern source action priority) := by
  have hidle : ¬ Idle p (.add pattern source action priority) := by
    rintro ⟨_, hc, -⟩
    cases hc
  cases hadd : p.rib.add pattern source action priority with
  | error e =>
    have hcall : p.call (.add pattern source action priority) = p := by
      rw [call, add, hadd]
      rfl
    refine ⟨by rwa [hcall], .inl ⟨by rw [hcall], ?_, hidle⟩⟩
    rintro ⟨x, hx⟩
    rw [hcall] at hx
    exact hx Iff.rfl
  | ok result =>
    obtain ⟨inserted, rib⟩ := result
    have hcall : p.call (.add pattern source action priority) =
        ⟨rib, if inserted then p.arc + 1 else p.arc⟩ := by
      rw [call, add, hadd]
      rfl
    obtain ⟨table, ht, htable⟩ := Rib.add_table hadd
    have hord := (Rib.add_installed h hadd).1
    cases inserted with
    | false =>
      refine ⟨by rwa [hcall], .inl ⟨by rw [hcall]; rfl, ?_, hidle⟩⟩
      rintro ⟨x, hx⟩
      rw [hcall] at hx
      dsimp only at hx
      rw [htable] at hx
      exact hx Iff.rfl
    | true =>
      refine ⟨by rwa [hcall], .inr ⟨by rw [hcall]; rfl, .inl ?_⟩⟩
      obtain ⟨atom, hatom, hnew⟩ := (RouteTable.insert_new h ht).mp rfl
      refine ⟨⟨priority, atom, ⟨p.rib.expandAction action, source⟩⟩, fun hsame => hnew ?_⟩
      rw [hcall, RouteTable.held_iff hord, RouteTable.held_iff h] at hsame
      refine hsame.mp (((Rib.add_installed h hadd).2.2 _ _ _).mpr (.inr ⟨rfl, ?_, ?_⟩))
      · exact ⟨atom, hatom, Std.ReflCmp.compare_self⟩
      · exact Std.ReflCmp.compare_self

theorem publishes_remove (h : p.rib.table.InOrder) (pattern : EidPattern) (source : String)
    (action : Action) (priority : Nat) :
    Publishes p (.remove pattern source action priority) := by
  have hidle : ¬ Idle p (.remove pattern source action priority) := by
    rintro ⟨_, hc, -⟩
    cases hc
  have hfound := (iff_of_eq (congrArg (· = true)
    (Rib.remove_fst (r := p.rib) pattern source action priority))).trans (RouteTable.remove_found h)
  obtain ⟨hord, -, hinst⟩ := Rib.remove_installed (r := p.rib) pattern source action priority h
  refine ⟨hord, ?_⟩
  cases hremoved : (p.rib.remove pattern source action priority).1 with
  | false =>
    refine .inl ⟨?_, ?_, hidle⟩
    · rw [call, remove]
      dsimp only
      rw [hremoved]
      rfl
    · have htable : (p.call (.remove pattern source action priority)).rib.table = p.rib.table := by
        refine (Rib.remove_table (r := p.rib) pattern source action priority).trans ?_
        exact RouteTable.remove_of_not ((Rib.remove_fst _ _ _ _).symm.trans hremoved)
      rintro ⟨x, hx⟩
      rw [htable] at hx
      exact hx Iff.rfl
  | true =>
    refine .inr ⟨?_, .inl ?_⟩
    · rw [call, remove]
      dsimp only
      rw [hremoved]
      rfl
    · obtain ⟨atom, hatom, hold⟩ := hfound.mp hremoved
      refine ⟨⟨priority, atom, ⟨p.rib.expandAction action, source⟩⟩, fun hsame => ?_⟩
      rw [RouteTable.held_iff h] at hsame
      have hleft := (RouteTable.held_iff hord).mp (hsame.mpr hold)
      refine ((hinst _ _ _).mp hleft).2 ⟨rfl, ?_, ?_⟩
      · exact ⟨atom, hatom, Std.ReflCmp.compare_self⟩
      · exact Std.ReflCmp.compare_self

theorem publishes_removeBySource (h : p.rib.table.InOrder) (source : String) :
    Publishes p (.removeBySource source) := by
  have htable := Rib.removeBySource_table p.rib source
  have hheld : ∀ x, (p.call (.removeBySource source)).rib.table.Held x ↔
      p.rib.table.Held x ∧ x.entry.source ≠ source := by
    intro x
    refine Iff.trans ?_ RouteTable.held_withoutSource
    exact iff_of_eq (congrArg (RouteTable.Held · x) htable)
  have hord : (p.call (.removeBySource source)).rib.table.InOrder :=
    htable.symm ▸ RouteTable.inOrder_withoutSource h
  refine ⟨hord, .inr ⟨rfl, ?_⟩⟩
  by_cases hroutes : ∃ x, p.rib.table.Held x ∧ x.entry.source = source
  · obtain ⟨x, hx, hsource⟩ := hroutes
    exact .inl ⟨x, fun hsame => ((hheld x).mp (hsame.mpr hx)).2 hsource⟩
  · exact .inr ⟨source, rfl, fun x hx hsource => hroutes ⟨x, hx, hsource⟩⟩

theorem publishes (h : p.rib.table.InOrder) (c : RibCall) : Publishes p c := by
  cases c with
  | add pattern source action priority => exact publishes_add h pattern source action priority
  | remove pattern source action priority =>
    exact publishes_remove h pattern source action priority
  | removeBySource source => exact publishes_removeBySource h source

/-! ## Runs -/

theorem calls_inOrder (h : p.rib.table.InOrder) (cs : List RibCall) :
    (p.calls cs).rib.table.InOrder := by
  induction cs generalizing p with
  | nil => exact h
  | cons c cs ih => exact ih (publishes h c).inOrder

theorem arc_calls (h : p.rib.table.InOrder) (cs : List RibCall) :
    p.arc ≤ (p.calls cs).arc ∧
      (p.arc < (p.calls cs).arc ↔ Sometime Alters p cs ∨ Sometime Idle p cs) := by
  induction cs generalizing p with
  | nil => simp [calls, Sometime]
  | cons c cs ih =>
    obtain ⟨hord, harc⟩ := publishes h c
    obtain ⟨hle, hlt⟩ := ih hord
    have hrun : p.calls (c :: cs) = (p.call c).calls cs := rfl
    rw [hrun, Sometime, Sometime]
    rcases harc with ⟨heq, hnot, hbusy⟩ | ⟨heq, hor⟩
    · rw [heq] at hle hlt
      exact ⟨hle, hlt.trans (by simp [hnot, hbusy])⟩
    · refine ⟨by omega, iff_of_true (by omega) ?_⟩
      exact hor.imp .inl .inl

theorem changedSince_iff (h : p.rib.table.InOrder) (cs : List RibCall) :
    (p.calls cs).tableChangedSince p.tableSnapshot = true ↔
      Sometime Alters p cs ∨ Sometime Idle p cs := by
  obtain ⟨hle, hlt⟩ := arc_calls h cs
  rw [tableChangedSince, tableSnapshot, bne_iff_ne, ← hlt]
  omega

/-- In every state of a node, a changed snapshot means changed routes for the calls that follow
exactly where none of them withdraws a source without routes, or one of them alters the routes
anyway. -/
theorem changed_iff (ids : NodeIds) (ecmpHash : Eid × Eid × Option Nat → Nat) (store : σ)
    (before after : List RibCall) :
    let p := (PublishedRib.new ids ecmpHash store).calls before
    ((p.calls after).tableChangedSince p.tableSnapshot = true ↔ Sometime Alters p after) ↔
      (¬ Sometime Idle p after ∨ Sometime Alters p after) := by
  intro p
  have hord : p.rib.table.InOrder := calls_inOrder (RouteTable.inOrder_new ids) before
  rw [changedSince_iff hord]
  tauto

end PublishedRib

end

namespace Nobody

local instance : Globs := .literal

/-- A source without routes is withdrawn. -/
theorem idle_withdrawal :
    let p : PublishedRib Statuses := .new ⟨some ⟨0, 1⟩, none⟩ (fun _ => 0) []
    (p.calls [.removeBySource "nobody"]).tableChangedSince p.tableSnapshot = true ∧
      ¬ p.Sometime PublishedRib.Alters [.removeBySource "nobody"] := by
  intro p
  refine ⟨by decide, ?_⟩
  rintro (⟨x, hx⟩ | hnil)
  · refine hx (iff_of_eq (congrArg (RouteTable.Held · x) ?_))
    rfl
  · exact hnil

end Nobody

end Hardy.Routing
