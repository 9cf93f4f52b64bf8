import Hardy.Routing.Snapshot
import Hardy.Routing.Trail

/-!
# What a lookup is meant to find

`RouteTable.reference` states the lookup of `routing_subsystem_design.md` on its
own terms: a terminal entry of a pattern wins, the other entries of the pattern
share their peers, and a next hop that is on the resolution path already leads
nowhere.

`find_recurse` differs from it in one place.  Its trail bars the `Via` entries of
an endpoint that is visited again, but not the other entries, so that a loop can
end in a route the reference never looks at.  `RouteTable.Clean` says that this
does not happen, and `RouteTable.agrees_iff_clean` that it is all there is.
-/

namespace Hardy.Routing

/-! ## The reference -/

def Entry.drop? (e : Entry) : Option LookupResult :=
  match e.action with
  | .route (.drop reason) => some (.drop reason)
  | _ => none

def Entry.adminEndpoint? (e : Entry) : Option LookupResult :=
  match e.action with
  | .internal .adminEndpoint => some .adminEndpoint
  | _ => none

def Entry.deliver? (e : Entry) : Option LookupResult :=
  match e.action with
  | .internal (.localService service) => some (.deliver service)
  | _ => none

def Entry.reflect? (e : Entry) : Option LookupResult :=
  match e.action with
  | .route .reflect => some .reflect
  | _ => none

/-- Drop, AdminEndpoint, Local, and Reflect where that is allowed, in this
order. -/
def firstTerminal (reflect : Bool) (es : List Entry) : Option LookupResult :=
  (es.findSome? Entry.drop?).or <| (es.findSome? Entry.adminEndpoint?).or <|
    (es.findSome? Entry.deliver?).or <| if reflect then es.findSome? Entry.reflect? else none

def LookupResult.isTerminal : LookupResult → Bool
  | .forward _ _ | .forwardEcmp _ => false
  | _ => true

/-- What the next hops of the `Via` entries resolve to. -/
def viaResults (lookup : Eid → Option LookupResult) (es : List Entry) : List LookupResult :=
  es.filterMap fun e => match e.action with
    | .route (.via via) => lookup via
    | _ => none

def contributions (lookup : Eid → Option LookupResult) (dest : Eid) (es : List Entry) :
    List (Nat × Eid) :=
  es.flatMap fun e => match e.action with
    | .internal (.forward peer) => [(peer, dest)]
    | .route (.via via) => (lookup via).elim [] LookupResult.peers
    | _ => []

def yields (lookup : Eid → Option LookupResult) (reflect : Bool) (dest : Eid) (es : List Entry) :
    Except LookupResult (List (Nat × Eid)) :=
  match (firstTerminal reflect es).or ((viaResults lookup es).find? LookupResult.isTerminal) with
  | some result => .error result
  | none => .ok (sortedInsertAll (contributions lookup dest es) [])

namespace RouteTable

variable [Globs]

/-- The reference, to a depth of `fuel`. -/
def referenceWithin (t : RouteTable) (reflect : Bool) :
    Nat → Eid → List Eid → Option LookupResult
  | 0, _, _ => none
  | fuel + 1, dest, path =>
    if dest ∈ path then none
    else scan (yields (fun via => t.referenceWithin reflect fuel via (dest :: path)) reflect dest)
      dest t.rows

/-- The meaning of a lookup for `dest` at the end of the resolution path
`path`. -/
def reference (t : RouteTable) (dest : Eid) (reflect : Bool) (path : List Eid) :
    Option LookupResult :=
  t.referenceWithin reflect (t.vias.length + 2) dest path

end RouteTable

/-! ## One pattern -/

section

variable {lookup lookup' : Eid → Option LookupResult} {reflect : Bool} {dest : Eid}
  {trail : List Eid} {es : List Entry} {peers : List (Nat × Eid)}

theorem viaResults_congr
    (h : ∀ e ∈ es, ∀ via, e.action = .route (.via via) → lookup via = lookup' via) :
    viaResults lookup es = viaResults lookup' es := by
  refine List.filterMap_congr fun e he => ?_
  split
  · rename_i via hvia
    exact h e he via hvia
  · rfl

theorem contributions_congr
    (h : ∀ e ∈ es, ∀ via, e.action = .route (.via via) → lookup via = lookup' via) :
    contributions lookup dest es = contributions lookup' dest es := by
  refine List.flatMap_congr fun e he => ?_
  split
  · rfl
  · rename_i via hvia
    rw [h e he via hvia]
  · rfl

theorem yields_congr
    (h : ∀ e ∈ es, ∀ via, e.action = .route (.via via) → lookup via = lookup' via) :
    yields lookup reflect dest es = yields lookup' reflect dest es := by
  rw [yields, yields, viaResults_congr h, contributions_congr h]

theorem findSome?_eq_none_of_rank {terminal? : Entry → Option LookupResult} {k : Nat}
    (hnone : ∀ e, k < e.action.rank → terminal? e = none) (h : ∀ e ∈ es, k < e.action.rank) :
    es.findSome? terminal? = none :=
  List.findSome?_eq_none_iff.mpr fun e he => hnone e (h e he)

theorem Entry.drop?_eq_none (e : Entry) (h : 0 < e.action.rank) : e.drop? = none := by
  obtain ⟨(_ | _ | _) | _, _⟩ := e <;> simp_all [Entry.drop?, Action.rank]

theorem Entry.adminEndpoint?_eq_none (e : Entry) (h : 1 < e.action.rank) :
    e.adminEndpoint? = none := by
  obtain ⟨_ | (_ | _ | _), _⟩ := e <;> simp_all [Entry.adminEndpoint?, Action.rank]

theorem Entry.deliver?_eq_none (e : Entry) (h : 2 < e.action.rank) : e.deliver? = none := by
  obtain ⟨_ | (_ | _ | _), _⟩ := e <;> simp_all [Entry.deliver?, Action.rank]

theorem Entry.reflect?_eq_none (e : Entry) (h : 4 < e.action.rank) : e.reflect? = none := by
  obtain ⟨(_ | _ | _) | _, _⟩ := e <;> simp_all [Entry.reflect?, Action.rank]

theorem gather_firstTerminal (hord : es.Pairwise fun a b => a.action.rank ≤ b.action.rank)
    {r : LookupResult} (h : firstTerminal reflect es = some r) :
    gather lookup reflect dest trail es peers = .error r := by
  induction es generalizing peers with
  | nil => simp [firstTerminal] at h
  | cons e es ih =>
    obtain ⟨hhead, hrest⟩ := List.pairwise_cons.mp hord
    have hafter : ∀ k < e.action.rank, ∀ e' ∈ es, k < e'.action.rank :=
      fun k hk e' he' => hk.trans_le (hhead e' he')
    have hdrop := fun hk => findSome?_eq_none_of_rank Entry.drop?_eq_none (hafter 0 hk)
    have hadmin :=
      fun hk => findSome?_eq_none_of_rank Entry.adminEndpoint?_eq_none (hafter 1 hk)
    have hdeliver := fun hk => findSome?_eq_none_of_rank Entry.deliver?_eq_none (hafter 2 hk)
    have hreflect := fun hk => findSome?_eq_none_of_rank Entry.reflect?_eq_none (hafter 4 hk)
    have ih' := fun peers => @ih peers hrest
    obtain ⟨action, source⟩ := e
    rcases action with (via | _ | reason) | (peer | service | _) <;>
      simp only [Action.rank, Nat.reduceLT, forall_const, Nat.lt_irrefl, false_imp_iff,
        Nat.not_lt_zero] at hdrop hadmin hdeliver hreflect <;>
      simp only [firstTerminal, List.findSome?_cons, Entry.drop?, Entry.adminEndpoint?,
        Entry.deliver?, Entry.reflect?] at h
    · simp [hdrop, hadmin, hdeliver, hreflect] at h
    · rw [gather]
      cases reflect
      · exact ih' _ h
      · simpa [hdrop, hadmin, hdeliver] using h
    · simpa [gather] using h
    · exact ih' _ h
    · simpa [gather, hdrop, hadmin] using h
    · simpa [gather, hdrop] using h

theorem gather_contributions (hdest : dest ∉ trail) (h : firstTerminal reflect es = none) :
    gather lookup reflect dest trail es peers =
      match (viaResults lookup es).find? LookupResult.isTerminal with
      | some result => .error result
      | none => .ok (sortedInsertAll (contributions lookup dest es) peers) := by
  induction es generalizing peers with
  | nil => rfl
  | cons e es ih =>
    obtain ⟨action, source⟩ := e
    rcases action with (via | _ | reason) | (peer | service | _) <;>
      simp only [firstTerminal, List.findSome?_cons, Entry.drop?, Entry.adminEndpoint?,
        Entry.deliver?, Entry.reflect?] at h
    · rw [gather]
      dsimp only
      rw [if_neg hdest]
      rcases hl : lookup via with _ | (_ | _ | ⟨p, n⟩ | ps | _ | _) <;>
        simp [viaResults, contributions, hl, ih h, sortedInsertAll, LookupResult.peers,
          LookupResult.isTerminal, List.find?_cons]
    · cases reflect
      · simpa [gather, viaResults, contributions] using ih h
      · simp at h
    · simp at h
    · simpa [gather, viaResults, contributions, sortedInsertAll] using ih h
    · simp at h
    · simp at h

theorem gather_eq_yields (hord : es.Pairwise fun a b => a.action.rank ≤ b.action.rank)
    (hdest : dest ∉ trail) :
    gather lookup reflect dest trail es [] = yields lookup reflect dest es := by
  rw [yields]
  cases h : firstTerminal reflect es with
  | some r => exact gather_firstTerminal hord h
  | none => exact gather_contributions hdest h

/-- Only the next hops count that are looked at: those of a pattern without a
terminal entry, up to the first that resolves to a terminal result. -/
theorem viaResults_congr_until
    (h : ∀ pre e post via, es = pre ++ e :: post → e.action = .route (.via via) →
      (viaResults lookup' pre).find? LookupResult.isTerminal = none → lookup via = lookup' via) :
    (viaResults lookup es).find? LookupResult.isTerminal =
        (viaResults lookup' es).find? LookupResult.isTerminal ∧
      ((viaResults lookup' es).find? LookupResult.isTerminal = none →
        contributions lookup dest es = contributions lookup' dest es) := by
  induction es with
  | nil => exact ⟨rfl, fun _ => rfl⟩
  | cons e es ih =>
    obtain ⟨action, source⟩ := e
    by_cases hvia : ∃ via, action = .route (.via via)
    · obtain ⟨via, rfl⟩ := hvia
      have hhead : lookup via = lookup' via := h [] _ es via rfl rfl rfl
      by_cases hterm : ∃ r, lookup' via = some r ∧ r.isTerminal = true
      · obtain ⟨r, hr, hterm⟩ := hterm
        simp [viaResults, hhead, hr, hterm]
      · have hskip : ∀ l : Eid → Option LookupResult, l via = lookup' via → ∀ es,
            (viaResults l (⟨.route (.via via), source⟩ :: es)).find? LookupResult.isTerminal =
              (viaResults l es).find? LookupResult.isTerminal := by
          intro l hl es
          cases hr : lookup' via with
          | none => simp [viaResults, hl, hr]
          | some r =>
            have hfalse : r.isTerminal = false := by
              by_contra hne
              exact hterm ⟨r, hr, by simpa using hne⟩
            simp [viaResults, hl, hr, hfalse]
        obtain ⟨hfind, hpeers⟩ := ih fun pre e post via' hes he hpre =>
          h (_ :: pre) e post via' (by rw [hes]; rfl) he (by rw [hskip _ rfl]; exact hpre)
        rw [hskip _ hhead, hskip _ rfl]
        refine ⟨hfind, fun hnone => ?_⟩
        have := hpeers hnone
        simp only [contributions, List.flatMap_cons] at this ⊢
        rw [this, hhead]
    · have hother : ∀ (l : Eid → Option LookupResult) es,
          viaResults l (⟨action, source⟩ :: es) = viaResults l es := by
        intro l es
        rcases action with (via | _ | reason) | (peer | service | _) <;>
          first | rfl | exact absurd ⟨via, rfl⟩ hvia
      obtain ⟨hfind, hpeers⟩ := ih fun pre e post via' hes he hpre =>
        h (_ :: pre) e post via' (by rw [hes]; rfl) he (by rw [hother]; exact hpre)
      rw [hother, hother]
      refine ⟨hfind, fun hnone => ?_⟩
      have := hpeers hnone
      simp only [contributions, List.flatMap_cons] at this ⊢
      rw [this]
      rcases action with (via | _ | reason) | (peer | service | _) <;>
        first | rfl | exact absurd ⟨via, rfl⟩ hvia

theorem yields_congr_until
    (h : firstTerminal reflect es = none → ∀ pre e post via, es = pre ++ e :: post →
      e.action = .route (.via via) →
      (viaResults lookup' pre).find? LookupResult.isTerminal = none → lookup via = lookup' via) :
    yields lookup reflect dest es = yields lookup' reflect dest es := by
  rw [yields, yields]
  cases ht : firstTerminal reflect es with
  | some r => rfl
  | none =>
    obtain ⟨hfind, hpeers⟩ := @viaResults_congr_until lookup lookup' dest es (h ht)
    rw [hfind]
    cases hr : (viaResults lookup' es).find? LookupResult.isTerminal with
    | some r => rfl
    | none => rw [hpeers hr]

theorem scan_congr_until [Globs]
    {group group' : List Entry → Except LookupResult (List (Nat × Eid))}
    {rows : List (EidPattern × List Entry)}
    (h : ∀ before row after, rows = before ++ row :: after → row.1.matches dest = true →
      scan group' dest before = none → group row.2 = group' row.2) :
    scan group dest rows = scan group' dest rows := by
  induction rows with
  | nil => rfl
  | cons row rows ih =>
    rw [scan, scan]
    split
    · rename_i hm
      rw [h [] row rows rfl hm rfl]
      split
      · rfl
      · rename_i peers hg
        cases hs : selected peers with
        | some r => rfl
        | none =>
          refine ih fun before row' after hrows hm' hbefore => ?_
          refine h (row :: before) row' after (by rw [hrows]; rfl) hm' ?_
          rw [scan, if_pos hm, hg]
          simp [hs, hbefore]
    · rename_i hm
      refine ih fun before row' after hrows hm' hbefore => ?_
      refine h (row :: before) row' after (by rw [hrows]; rfl) hm' ?_
      rw [scan, if_neg hm, hbefore]

end

/-! ## The recursion of the reference -/

namespace RouteTable

variable [Globs] {t t' : RouteTable} {reflect : Bool} {f : Nat} {dest : Eid} {path : List Eid}

theorem referenceWithin_succ
    (h : dest ∉ path → ∀ via ∈ t.vias, t.referenceWithin reflect f via (dest :: path) =
      t.referenceWithin reflect (f + 1) via (dest :: path)) :
    t.referenceWithin reflect (f + 1) dest path = t.referenceWithin reflect (f + 2) dest path := by
  rw [referenceWithin, referenceWithin]
  split
  · rfl
  · rename_i hdest
    refine scan_congr fun row hrow => yields_congr fun e he via hvia => ?_
    exact h hdest via (mem_vias.mpr ⟨row.1, e, ⟨row.2, hrow, he⟩, hvia⟩)

theorem referenceWithin_stable_via {via : Eid} (hvia : via ∈ t.vias)
    (h : (t.ahead path).card + 1 ≤ f) :
    t.referenceWithin reflect f via path = t.referenceWithin reflect (f + 1) via path := by
  induction f generalizing via path with
  | zero => omega
  | succ f ih =>
    refine referenceWithin_succ fun hnot via' hvia' => ih hvia' ?_
    have hmem : via ∈ t.ahead path := by simp [ahead, hvia, hnot]
    have hcard := Finset.card_erase_lt_of_mem hmem
    rw [ahead_cons]
    omega

theorem reference_stable :
    t.referenceWithin reflect (t.vias.length + 3) dest path = t.reference dest reflect path := by
  refine (referenceWithin_succ fun _ via hvia => referenceWithin_stable_via hvia ?_).symm
  have hle : (t.ahead (dest :: path)).card ≤ t.vias.length :=
    (Finset.card_le_card Finset.sdiff_subset).trans (List.toFinset_card_le _)
  omega

theorem reference_eq (t : RouteTable) (dest : Eid) (reflect : Bool) (path : List Eid) :
    t.reference dest reflect path =
      if dest ∈ path then none
      else scan (yields (fun via => t.reference via reflect (dest :: path)) reflect dest)
        dest t.rows := by
  rw [← reference_stable]
  rfl

theorem reference_revisit (h : dest ∈ path) : t.reference dest reflect path = none := by
  rw [reference_eq, if_pos h]

/-! ## Where the lookup goes -/

omit [Globs] in
/-- The entries of each pattern are in the order of their actions, as a
`BTreeSet` of them is. -/
def Ordered (t : RouteTable) : Prop :=
  ∀ row ∈ t.rows, row.2.Pairwise fun a b => a.action.rank ≤ b.action.rank

omit [Globs] in
theorem rank_le_of_cmp {a b : Entry} (h : compare a b = .lt) : a.action.rank ≤ b.action.rank := by
  have hrank : compare a.action.rank b.action.rank ≠ .gt := by
    intro hgt
    change (a.action.cmp b.action).then _ = _ at h
    unfold Action.cmp at h
    rw [hgt] at h
    cases h
  exact Nat.compare_ne_gt.mp hrank

omit [Globs] in
theorem InOrder.ordered (h : t.InOrder) : t.Ordered := by
  intro row hrow
  obtain ⟨level, hlevel, hrow⟩ := mem_rows.mp hrow
  exact (h.actions level hlevel row hrow).imp rank_le_of_cmp

/-- Whatever `insert`, `remove` and `remove_by_source` have made of it, a table is ordered. -/
theorem ordered_of_calls {σ : Type} [QueueResets σ] (ids : NodeIds)
    (ecmpHash : Eid × Eid × Option Nat → Nat) (store : σ) (cs : List RibCall) :
    ((PublishedRib.new ids ecmpHash store).calls cs).rib.table.Ordered :=
  (PublishedRib.calls_inOrder (inOrder_new ids) cs).ordered

/-- Resolving `dest` at the end of `path` comes to the `Via` entry for `via`: no
earlier pattern yields anything, nor a terminal entry of this pattern or one of
its earlier next hops. -/
def Meets (t : RouteTable) (reflect : Bool) (dest : Eid) (path : List Eid) (via : Eid) : Prop :=
  ∃ before p pre e post after, t.rows = before ++ (p, pre ++ e :: post) :: after ∧
    p.matches dest = true ∧ e.action = .route (.via via) ∧
    scan (yields (fun via => t.reference via reflect (dest :: path)) reflect dest) dest before =
      none ∧
    firstTerminal reflect (pre ++ e :: post) = none ∧
    (viaResults (fun via => t.reference via reflect (dest :: path)) pre).find?
      LookupResult.isTerminal = none

/-- One recursive call: the next hop, with the resolution path it is reached
by. -/
def Call (t : RouteTable) (reflect : Bool) (s s' : Eid × List Eid) : Prop :=
  s.1 ∉ s.2 ∧ t.Meets reflect s.1 s.2 s'.1 ∧ s'.2 = s.1 :: s.2

def Calls (t : RouteTable) (reflect : Bool) (dest : Eid) : Eid × List Eid → Prop :=
  Relation.ReflTransGen (t.Call reflect) (dest, [])

/-- An entry for the endpoint itself, not for a next hop. -/
def Direct (t : RouteTable) (reflect : Bool) (dest : Eid) : Prop :=
  ∃ p e, t.Has p e ∧ p.matches dest = true ∧
    match e.action with
    | .route .reflect => reflect = true
    | .route (.via _) => False
    | _ => True

/-- No endpoint that a loop comes back to has an entry of its own. -/
def Clean (t : RouteTable) (reflect : Bool) (dest : Eid) : Prop :=
  ∀ d path, t.Calls reflect dest (d, path) → d ∈ path → ¬ t.Direct reflect d

/-- Every call that a lookup for `dest` makes returns what it is meant to. -/
def Agrees (t : RouteTable) (reflect : Bool) (dest : Eid) : Prop :=
  ∀ d path, t.Calls reflect dest (d, path) →
    t.findRecurse d reflect path = t.reference d reflect path

theorem findRecurse_revisit (h : dest ∈ path) :
    (t.findRecurse dest reflect path).isSome ↔ t.Direct reflect dest := by
  rw [findRecurse_isSome]
  refine exists_congr fun p => exists_congr fun e => ?_
  refine and_congr_right fun _ => and_congr_right fun _ => ?_
  obtain ⟨(_ | _ | _) | (_ | _ | _), _⟩ := e <;> simp [Entry.Usable, h]

theorem findRecurse_eq_reference_of_revisit (h : dest ∈ path) (hd : ¬ t.Direct reflect dest) :
    t.findRecurse dest reflect path = t.reference dest reflect path := by
  rw [reference_revisit h]
  by_contra hne
  exact hd ((findRecurse_revisit h).mp (Option.isSome_iff_ne_none.mpr hne))

theorem Call.lt {d via : Eid} {path' : List Eid} (h : t.Call reflect (d, path) (via, path'))
    (hnot : via ∉ path') :
    (t.ahead (via :: path')).card < (t.ahead (d :: path)).card := by
  obtain ⟨-, ⟨before, p, pre, e, post, after, hrows, -, he, -⟩, rfl⟩ := h
  have hvia : via ∈ t.vias := by
    refine mem_vias.mpr ⟨p, e, ⟨pre ++ e :: post, ?_, ?_⟩, he⟩
    · simp [hrows]
    · simp
  rw [ahead_cons]
  refine Finset.card_erase_lt_of_mem ?_
  simpa [ahead, hvia] using hnot

theorem findRecurse_eq_reference_of_calls (hord : t.Ordered) (hdest : dest ∉ path)
    (h : ∀ via, t.Call reflect (dest, path) (via, dest :: path) →
      t.findRecurse via reflect (dest :: path) = t.reference via reflect (dest :: path)) :
    t.findRecurse dest reflect path = t.reference dest reflect path := by
  rw [findRecurse_eq, reference_eq, if_neg hdest]
  refine scan_congr_until fun before row after hrows hm hbefore => ?_
  have hrow : row ∈ t.rows := by simp [hrows]
  rw [gather_eq_yields (hord row hrow) hdest]
  refine yields_congr_until fun hterm pre e post via hes he hpre => h via ?_
  obtain ⟨p, es⟩ := row
  subst hes
  exact ⟨hdest, ⟨before, p, pre, e, post, after, hrows, hm, he, hbefore, hterm, hpre⟩, rfl⟩

theorem findRecurse_eq_reference_of_clean (hord : t.Ordered)
    (h : ∀ s, Relation.ReflTransGen (t.Call reflect) (dest, path) s → s.1 ∈ s.2 →
      ¬ t.Direct reflect s.1) :
    t.findRecurse dest reflect path = t.reference dest reflect path := by
  -- induction on the next hops that are not on the path yet
  induction hn : (t.ahead (dest :: path)).card using Nat.strong_induction_on
    generalizing dest path with
  | _ n ih =>
    by_cases hdest : dest ∈ path
    · exact findRecurse_eq_reference_of_revisit hdest (h _ .refl hdest)
    · refine findRecurse_eq_reference_of_calls hord hdest fun via hcall => ?_
      have hafter : ∀ s, Relation.ReflTransGen (t.Call reflect) (via, dest :: path) s →
          s.1 ∈ s.2 → ¬ t.Direct reflect s.1 := fun s hs => h s (.head hcall hs)
      by_cases hvia : via ∈ dest :: path
      · exact findRecurse_eq_reference_of_revisit hvia (hafter _ .refl hvia)
      · exact ih _ (hn ▸ hcall.lt hvia) hafter rfl

theorem agrees_iff_clean (hord : t.Ordered) :
    t.Agrees reflect dest ↔ t.Clean reflect dest := by
  constructor
  · intro h d path hcalls hd hdirect
    have hsome := (findRecurse_revisit hd).mpr hdirect
    rw [h d path hcalls, reference_revisit hd] at hsome
    cases hsome
  · intro h d path hcalls
    exact findRecurse_eq_reference_of_clean hord fun s hs => h s.1 s.2 (hcalls.trans hs)

/-! ## One more entry -/

/-- `t'` is `t` with the entry `e` under the pattern `p`. -/
inductive Adds (t t' : RouteTable) (p : EidPattern) (e : Entry) : Prop where
  | row {before after : List (EidPattern × List Entry)} : t.rows = before ++ after →
      t'.rows = before ++ (p, [e]) :: after → Adds t t' p e
  | entry {before after : List (EidPattern × List Entry)} {pre post : List Entry} :
      t.rows = before ++ (p, pre ++ post) :: after →
      t'.rows = before ++ (p, pre ++ e :: post) :: after → Adds t t' p e

/-- From no endpoint of the pattern does the next hop lead anywhere. -/
def Barren (t : RouteTable) (reflect : Bool) (p : EidPattern) (via : Eid) : Prop :=
  ∀ d path, p.matches d = true → t.reference via reflect (d :: path) = none

omit [Globs] in
theorem yields_barren {lookup : Eid → Option LookupResult} {pre post : List Entry} {e : Entry}
    {via : Eid} (he : e.action = .route (.via via)) (h : lookup via = none) :
    yields lookup reflect dest (pre ++ e :: post) = yields lookup reflect dest (pre ++ post) := by
  simp [yields, firstTerminal, viaResults, contributions, List.findSome?_append,
    Entry.drop?, Entry.adminEndpoint?, Entry.deliver?, Entry.reflect?, he, h]

omit [Globs] in
theorem Adds.vias {p : EidPattern} {e : Entry} (h : Adds t t' p e) {via : Eid}
    (hvia : via ∈ t.vias) : via ∈ t'.vias := by
  obtain ⟨q, e', ⟨actions, hrow, he'⟩, hact⟩ := mem_vias.mp hvia
  refine mem_vias.mpr ?_
  cases h with
  | row ht ht' =>
    refine ⟨q, e', ⟨actions, ?_, he'⟩, hact⟩
    rw [ht] at hrow
    rw [ht']
    simp only [List.mem_append, List.mem_cons] at hrow ⊢
    tauto
  | entry ht ht' =>
    rename_i before after pre post
    rw [ht] at hrow
    simp only [List.mem_append, List.mem_cons] at hrow
    by_cases hsame : (q, actions) = (p, pre ++ post)
    · obtain ⟨rfl, rfl⟩ := Prod.mk.inj hsame
      refine ⟨q, e', ⟨pre ++ e :: post, by simp [ht'], ?_⟩, hact⟩
      simp only [List.mem_append, List.mem_cons] at he' ⊢
      tauto
    · refine ⟨q, e', ⟨actions, ?_, he'⟩, hact⟩
      rw [ht']
      simp only [List.mem_append, List.mem_cons]
      tauto

theorem reference_of_adds {p : EidPattern} {e : Entry} {via : Eid} (hadds : Adds t t' p e)
    (he : e.action = .route (.via via)) (hbarren : t'.Barren reflect p via) :
    t'.reference dest reflect path = t.reference dest reflect path := by
  induction hn : (t'.ahead (dest :: path)).card using Nat.strong_induction_on
    generalizing dest path with
  | _ n ih =>
    rw [reference_eq, reference_eq t]
    split
    · rfl
    rename_i hdest
    -- on the entries of the smaller table the two resolve alike
    have hrows : ∀ row ∈ t.rows,
        yields (fun via => t'.reference via reflect (dest :: path)) reflect dest row.2 =
          yields (fun via => t.reference via reflect (dest :: path)) reflect dest row.2 := by
      refine fun row hrow => yields_congr fun e' he' via' hvia' => ?_
      have hmem := hadds.vias (mem_vias.mpr ⟨row.1, e', ⟨row.2, hrow, he'⟩, hvia'⟩)
      by_cases hseen : via' ∈ dest :: path
      · rw [reference_revisit hseen, reference_revisit hseen]
      · refine ih _ ?_ rfl
        rw [← hn, ahead_cons]
        refine Finset.card_erase_lt_of_mem ?_
        simpa [ahead, hmem] using hseen
    rw [← scan_congr hrows]
    cases hadds with
    | row ht ht' =>
      rw [ht, ht', scan_append, scan_append]
      congr 1
      rw [scan]
      split
      · rename_i hm
        have hnone := hbarren dest path hm
        simp [yields, firstTerminal, viaResults, contributions, Entry.drop?,
          Entry.adminEndpoint?, Entry.deliver?, Entry.reflect?, he, hnone, sortedInsertAll,
          selected]
      · rfl
    | entry ht ht' =>
      rw [ht, ht', scan_append, scan_append]
      congr 1
      rw [scan, scan]
      split
      · rename_i hm
        rw [yields_barren he (hbarren dest path hm)]
      · rfl

theorem Calls.hops {d : Eid} (h : t.Calls reflect dest (d, path)) :
    ∀ x ∈ path, ∃ via, t.Hop x via := by
  have hall : ∀ s, t.Calls reflect dest s → ∀ x ∈ s.2, ∃ via, t.Hop x via := by
    intro s hs
    induction hs with
    | refl => nofun
    | tail _ hcall ih =>
      obtain ⟨-, ⟨before, p, pre, e, post, after, hrows, hm, he, -⟩, hpath⟩ := hcall
      intro x hx
      rw [hpath] at hx
      rcases List.mem_cons.mp hx with rfl | hx
      · exact ⟨_, p, e, ⟨pre ++ e :: post, by simp [hrows], by simp⟩, hm, he⟩
      · exact ih x hx
  exact hall _ h

theorem clean_of_disjoint (h : ∀ d via, t.Hop d via → ¬ t.Direct reflect d) :
    t.Clean reflect dest := by
  intro d path hcalls hd
  obtain ⟨via, hvia⟩ := hcalls.hops d hd
  exact h d via hvia

/-- What a lookup returns where no loop comes back to an endpoint with an entry
of its own, and what one more `Via` entry changes there. -/
theorem findRecurse_eq_reference (hord : t.Ordered) :
    (t.Agrees reflect dest ↔ t.Clean reflect dest) ∧
    (t.Clean reflect dest → t.findRecurse dest reflect [] = t.reference dest reflect [] ∧
      ∀ (t' : RouteTable) (p : EidPattern) (e : Entry) (via : Eid), t'.Ordered →
        Adds t t' p e → e.action = .route (.via via) → t'.Barren reflect p via →
        t'.Clean reflect dest → t'.findRecurse dest reflect [] = t.findRecurse dest reflect []) := by
  refine ⟨agrees_iff_clean hord, fun hclean => ?_⟩
  have hmeant := (agrees_iff_clean hord).mpr hclean dest [] .refl
  refine ⟨hmeant, fun t' p e via hord' hadds he hbarren hclean' => ?_⟩
  rw [hmeant, (agrees_iff_clean hord').mpr hclean' dest [] .refl]
  exact reference_of_adds hadds he hbarren

end RouteTable

/-! ## A loop past a route

Node 1 has node 3 and node 2 for next hops, node 2 comes back to node 1, and
what is for node 1 is dropped where no next hop is left. -/

namespace Roundabout

local instance : Globs := .literal

def node (n : Nat) : EidPattern := .ofIpnNodeId ⟨0, n⟩

def endpoint (n : Nat) : Eid := .ipn ⟨0, n⟩ 0

def via (n : Nat) : Entry := ⟨.route (.via (endpoint n)), "static"⟩

def exits : RouteTable where
  nodeIds := ⟨some ⟨0, 9⟩, none⟩
  routes := [
    (0, [(node 3, [⟨.internal (.forward 7), "neighbours"⟩])]),
    (10, [(node 1, [via 3]), (node 2, [via 1])]),
    (20, [(node 1, [⟨.route (.drop none), "static"⟩])])]

def loops (more : List Entry) : RouteTable where
  nodeIds := exits.nodeIds
  routes := [
    (0, [(node 3, [⟨.internal (.forward 7), "neighbours"⟩])]),
    (10, [(node 1, via 2 :: via 3 :: more), (node 2, [via 1])])]

variable {more : List Entry}

theorem mem_loops (hmore : ∀ e ∈ more, ∃ n, e = via n) {p : EidPattern} {e : Entry}
    (h : (loops more).Has p e) :
    (p = node 3 ∧ e.action = .internal (.forward 7)) ∨
      ((p = node 1 ∨ p = node 2) ∧ ∃ n, e = via n) := by
  obtain ⟨actions, hrow, he⟩ := h
  simp only [loops, RouteTable.rows, List.flatMap_cons, List.flatMap_nil, List.append_nil,
    List.cons_append, List.nil_append, List.mem_cons, Prod.mk.injEq, List.not_mem_nil,
    or_false] at hrow
  rcases hrow with ⟨rfl, rfl⟩ | ⟨rfl, rfl⟩ | ⟨rfl, rfl⟩ <;>
    simp only [List.mem_cons, List.not_mem_nil, or_false] at he
  · exact .inl ⟨rfl, by rw [he]⟩
  · refine .inr ⟨.inl rfl, ?_⟩
    rcases he with rfl | rfl | he
    · exact ⟨2, rfl⟩
    · exact ⟨3, rfl⟩
    · exact hmore e he
  · exact .inr ⟨.inr rfl, 1, he⟩

theorem node_of_matches {n m : Nat} {d : Eid} (hn : (node n).matches d = true)
    (hm : (node m).matches d = true) : n = m := by
  cases d <;> simp_all [node, EidPattern.ofIpnNodeId, EidPattern.matches, EidPatternItem.matches,
    IpnPatternItem.matches, IpnPatternItem.new, IpnPattern.matches]

theorem loops_clean (hmore : ∀ e ∈ more, ∃ n, e = via n) (d : Eid) :
    (loops more).Clean true d := by
  refine RouteTable.clean_of_disjoint ?_
  rintro d v ⟨p, e, hhas, hm, hvia⟩ ⟨p', e', hhas', hm', hdirect⟩
  rcases mem_loops hmore hhas' with ⟨rfl, -⟩ | ⟨-, n, rfl⟩
  · rcases mem_loops hmore hhas with ⟨-, hforward⟩ | ⟨rfl | rfl, -⟩
    · rw [hforward] at hvia
      cases hvia
    · cases node_of_matches hm hm'
    · cases node_of_matches hm hm'
  · exact hdirect

theorem loops_ordered (hmore : ∀ e ∈ more, ∃ n, e = via n) : (loops more).Ordered := by
  have hrank : ∀ e ∈ via 2 :: via 3 :: more, e.action.rank = 5 := by
    simp only [List.forall_mem_cons]
    refine ⟨rfl, rfl, fun e he => ?_⟩
    obtain ⟨n, rfl⟩ := hmore e he
    rfl
  intro row hrow
  simp only [loops, RouteTable.rows, List.flatMap_cons, List.flatMap_nil, List.append_nil,
    List.cons_append, List.nil_append, List.mem_cons, List.not_mem_nil, or_false] at hrow
  rcases hrow with rfl | rfl | rfl
  · exact List.pairwise_singleton _ _
  · exact List.pairwise_of_forall_mem_list fun a ha b hb => by rw [hrank a ha, hrank b hb]
  · exact List.pairwise_singleton _ _

theorem loops_barren : (loops [via 4]).Barren true (node 1) (endpoint 4) := by
  intro d path _
  rw [RouteTable.reference_eq]
  split <;> rfl

/-- The `Via` entry for node 2 turns a forward into a drop. -/
theorem roundabout_drops :
    ∃ t, exits.insert (node 1) (via 2) 10 = .ok (true, t) ∧
      exits.findRecurse (endpoint 1) true [] =
        some (.forward 7 (endpoint 3)) ∧
      t.findRecurse (endpoint 1) true [] = some (.drop none) ∧
      t.reference (endpoint 1) true [] = some (.forward 7 (endpoint 3)) := by
  refine ⟨_, rfl, ?_, ?_, ?_⟩ <;> decide

/-- The loop does no harm there, and neither does a next hop that leads nowhere. -/
theorem roundabout_loops_agree :
    (loops []).Ordered ∧ (loops []).Clean true (endpoint 1) ∧
      (loops []).findRecurse (endpoint 1) true [] = (loops []).reference (endpoint 1) true [] ∧
      (loops [via 4]).findRecurse (endpoint 1) true [] =
        (loops []).findRecurse (endpoint 1) true [] := by
  have hnil : ∀ e ∈ ([] : List Entry), ∃ n, e = via n := nofun
  have hmore : ∀ e ∈ [via 4], ∃ n, e = via n := fun e he => ⟨4, List.mem_singleton.mp he⟩
  have hclean := loops_clean hnil (endpoint 1)
  obtain ⟨hmeant, hadd⟩ := (RouteTable.findRecurse_eq_reference (loops_ordered hnil)).2 hclean
  have hadds : RouteTable.Adds (loops []) (loops [via 4]) (node 1) (via 4) :=
    @RouteTable.Adds.entry _ _ _ _ [(node 3, _)] _ [via 2, via 3] [] rfl rfl
  exact ⟨loops_ordered hnil, hclean, hmeant, hadd _ _ _ (endpoint 4) (loops_ordered hmore) hadds rfl
    loops_barren (loops_clean hmore _)⟩

end Roundabout

end Hardy.Routing
