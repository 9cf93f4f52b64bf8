import Hardy.Routing.Lookup
import Mathlib.Data.Finset.Insert
import Mathlib.Logic.Relation

/-!
# The trail of a lookup

`RouteTable::find_recurse` as it runs: the trail is one set, which each `Via`
entry extends before the recursive call and shrinks after it.  The depth of the
recursion is the fuel, and no fuel is no result.

`RouteTable.findTrail_eq` says that enough fuel gives the lookup of
`Hardy.Routing.Table` and the trail as it was, and `RouteTable.findWithin_backed`
that every peer of a result is one that the table leads to.
-/

namespace Hardy.Routing

/-- The entries of a pattern that matches `dest`, with the trail passed through
the recursive calls. -/
def gatherTrail (find : Eid → Finset Eid → Option (Option LookupResult × Finset Eid))
    (reflect : Bool) (dest : Eid) :
    List Entry → List (Nat × Eid) → Finset Eid →
      Option (Except LookupResult (List (Nat × Eid)) × Finset Eid)
  | [], peers, trail => some (.ok peers, trail)
  | e :: es, peers, trail =>
    match e.action with
    | .route (.drop reason) => some (.error (.drop reason), trail)
    | .route .reflect =>
      if reflect then some (.error .reflect, trail)
      else gatherTrail find reflect dest es peers trail
    | .route (.via via) =>
      -- `if !trail.insert(to)`
      if dest ∈ trail then gatherTrail find reflect dest es peers trail
      else match find via (insert dest trail) with
        | none => none
        | some (sub, trail) =>
          match sub with
          | some (.forward p n) =>
            gatherTrail find reflect dest es (sortedInsert p n peers) (trail.erase dest)
          | some (.forwardEcmp ps) =>
            gatherTrail find reflect dest es (sortedInsertAll ps peers) (trail.erase dest)
          | some other => some (.error other, trail.erase dest)
          | none => gatherTrail find reflect dest es peers (trail.erase dest)
    | .internal .adminEndpoint => some (.error .adminEndpoint, trail)
    | .internal (.localService service) => some (.error (.deliver service), trail)
    | .internal (.forward peer) =>
      gatherTrail find reflect dest es (sortedInsert peer dest peers) trail

def scanTrail [Globs]
    (group : List Entry → Finset Eid →
      Option (Except LookupResult (List (Nat × Eid)) × Finset Eid))
    (dest : Eid) :
    List (EidPattern × List Entry) → Finset Eid → Option (Option LookupResult × Finset Eid)
  | [], trail => some (none, trail)
  | (pattern, actions) :: rows, trail =>
    if pattern.matches dest then
      match group actions trail with
      | none => none
      | some (.error result, trail) => some (some result, trail)
      | some (.ok peers, trail) =>
        match selected peers with
        | some result => some (some result, trail)
        | none => scanTrail group dest rows trail
    else scanTrail group dest rows trail

/-- `RouteTable::find_recurse` on its trail, to a depth of `fuel` calls. -/
def RouteTable.findTrail [Globs] (t : RouteTable) (reflect : Bool) :
    Nat → Eid → Finset Eid → Option (Option LookupResult × Finset Eid)
  | 0, _, _ => none
  | fuel + 1, dest, trail =>
    scanTrail (fun actions => gatherTrail (t.findTrail reflect fuel) reflect dest actions [])
      dest t.rows trail

/-! ## The trail comes back -/

section

variable {find : Eid → Finset Eid → Option (Option LookupResult × Finset Eid)}
  {lookup : Eid → Option LookupResult} {reflect : Bool} {dest : Eid} {trail : List Eid}

theorem gatherTrail_eq {es : List Entry} {peers : List (Nat × Eid)}
    (h : dest ∉ trail → ∀ e ∈ es, ∀ via, e.action = .route (.via via) →
      find via (dest :: trail).toFinset = some (lookup via, (dest :: trail).toFinset)) :
    gatherTrail find reflect dest es peers trail.toFinset =
      some (gather lookup reflect dest trail es peers, trail.toFinset) := by
  induction es generalizing peers with
  | nil => rfl
  | cons e es ih =>
    have ih' := fun peers => @ih peers fun hd e he => h hd e (List.mem_cons_of_mem _ he)
    obtain ⟨action, source⟩ := e
    rcases action with (via | _ | reason) | (peer | service | _)
    · rw [gatherTrail, gather]
      dsimp only
      by_cases hdest : dest ∈ trail
      · rw [if_pos hdest, if_pos (List.mem_toFinset.mpr hdest)]
        exact ih' _
      · have hnot : dest ∉ trail.toFinset := fun hm => hdest (List.mem_toFinset.mp hm)
        have hback : (insert dest trail.toFinset).erase dest = trail.toFinset :=
          Finset.erase_insert hnot
        have hfind := h hdest _ List.mem_cons_self via rfl
        rw [List.toFinset_cons] at hfind
        rw [if_neg hdest, if_neg hnot, hfind]
        dsimp only
        rw [hback]
        -- only a terminal result of the next hop ends the loop
        rcases lookup via with _ | (_ | _ | ⟨p, n⟩ | ps | _ | _)
        case none => exact ih' _
        case some.forward => exact ih' _
        case some.forwardEcmp => exact ih' _
        all_goals rfl
    · cases reflect
      · exact ih' _
      · rfl
    · rfl
    · exact ih' _
    · rfl
    · rfl

theorem scanTrail_eq [Globs]
    {group : List Entry → Finset Eid →
      Option (Except LookupResult (List (Nat × Eid)) × Finset Eid)}
    {group' : List Entry → Except LookupResult (List (Nat × Eid))}
    {rows : List (EidPattern × List Entry)} {trail : Finset Eid}
    (h : ∀ row ∈ rows, group row.2 trail = some (group' row.2, trail)) :
    scanTrail group dest rows trail = some (scan group' dest rows, trail) := by
  induction rows with
  | nil => rfl
  | cons row rows ih =>
    have ih := ih fun r hr => h r (List.mem_cons_of_mem _ hr)
    rw [scanTrail, scan, h row List.mem_cons_self, ih]
    split
    · cases group' row.2 with
      | error r => rfl
      | ok peers => cases hs : selected peers <;> simp [hs, ih]
    · rfl

end

namespace RouteTable

variable [Globs] {t : RouteTable} {reflect : Bool} {f : Nat} {dest : Eid} {trail : List Eid}

theorem findTrail_succ
    (h : dest ∉ trail → ∀ via ∈ t.vias, t.findTrail reflect f via (dest :: trail).toFinset =
      some (t.findWithin reflect f via (dest :: trail), (dest :: trail).toFinset)) :
    t.findTrail reflect (f + 1) dest trail.toFinset =
      some (t.findWithin reflect (f + 1) dest trail, trail.toFinset) := by
  rw [findTrail, findWithin]
  refine scanTrail_eq fun row hrow => gatherTrail_eq fun hdest e he via hvia => ?_
  exact h hdest via (mem_vias.mpr ⟨row.1, e, ⟨row.2, hrow, he⟩, hvia⟩)

theorem findTrail_via {via : Eid} (hvia : via ∈ t.vias) (h : (t.ahead trail).card + 1 ≤ f) :
    t.findTrail reflect f via trail.toFinset =
      some (t.findWithin reflect f via trail, trail.toFinset) := by
  induction f generalizing via trail with
  | zero => omega
  | succ f ih =>
    refine findTrail_succ fun hnot via' hvia' => ih hvia' ?_
    have hmem : via ∈ t.ahead trail := by simp [ahead, hvia, hnot]
    have hcard := Finset.card_erase_lt_of_mem hmem
    rw [ahead_cons]
    omega

theorem findTrail_eq (h : t.vias.length + 2 ≤ f) :
    t.findTrail reflect f dest trail.toFinset =
      some (t.findRecurse dest reflect trail, trail.toFinset) := by
  rw [← findWithin_eq h]
  obtain ⟨f, rfl⟩ : ∃ k, f = k + 1 := ⟨f - 1, by omega⟩
  refine findTrail_succ fun _ via hvia => findTrail_via hvia ?_
  have hle : (t.ahead (dest :: trail)).card ≤ t.vias.length :=
    (Finset.card_le_card Finset.sdiff_subset).trans (List.toFinset_card_le _)
  omega

end RouteTable

/-! ## What the peers rest on -/

def LookupResult.peers : LookupResult → List (Nat × Eid)
  | .forward peer nextHop => [(peer, nextHop)]
  | .forwardEcmp peers => peers
  | _ => []

def Ascending (peers : List (Nat × Eid)) : Prop := peers.Pairwise fun a b => a.1 < b.1

variable {peers : List (Nat × Eid)}

theorem mem_sortedInsert {peer : Nat} {nextHop : Eid} {q : Nat × Eid}
    (h : q ∈ sortedInsert peer nextHop peers) : q = (peer, nextHop) ∨ q ∈ peers := by
  induction peers with
  | nil => exact .inl (List.mem_singleton.mp h)
  | cons p peers ih =>
    rw [sortedInsert] at h
    split at h
    · exact List.mem_cons.mp h
    · split at h
      · exact .inr h
      · rcases List.mem_cons.mp h with rfl | h
        · exact .inr List.mem_cons_self
        · exact (ih h).imp id (List.mem_cons_of_mem _)

theorem sortedInsert_ascending {peer : Nat} {nextHop : Eid}
    (h : Ascending peers) : Ascending (sortedInsert peer nextHop peers) := by
  induction peers with
  | nil => exact List.pairwise_singleton _ _
  | cons p peers ih =>
    obtain ⟨hp, hrest⟩ := List.pairwise_cons.mp h
    rw [sortedInsert]
    split
    · rename_i hlt
      refine List.pairwise_cons.mpr ⟨fun q hq => ?_, h⟩
      rcases List.mem_cons.mp hq with rfl | hq
      · exact hlt
      · exact hlt.trans (hp q hq)
    · split
      · exact h
      · refine List.pairwise_cons.mpr ⟨fun q hq => ?_, ih hrest⟩
        rcases mem_sortedInsert hq with rfl | hq
        · show p.1 < peer
          omega
        · exact hp q hq

/-- The list is in order, and all its peers satisfy `P`. -/
structure Vouched (P : Nat × Eid → Prop) (peers : List (Nat × Eid)) : Prop where
  ascending : Ascending peers
  each : ∀ q ∈ peers, P q

namespace Vouched

variable {P : Nat × Eid → Prop}

theorem nil : Vouched P [] := ⟨.nil, nofun⟩

theorem sortedInsert {peer : Nat} {nextHop : Eid} (h : Vouched P peers)
    (hp : P (peer, nextHop)) : Vouched P (sortedInsert peer nextHop peers) := by
  refine ⟨sortedInsert_ascending h.ascending, fun q hq => ?_⟩
  rcases mem_sortedInsert hq with rfl | hq
  · exact hp
  · exact h.each q hq

theorem sortedInsertAll {new peers : List (Nat × Eid)} (h : Vouched P peers)
    (hnew : ∀ q ∈ new, P q) : Vouched P (sortedInsertAll new peers) := by
  rw [Routing.sortedInsertAll]
  induction new generalizing peers with
  | nil => exact h
  | cons q new ih =>
    exact ih (h.sortedInsert (hnew q List.mem_cons_self)) fun q hq =>
      hnew q (List.mem_cons_of_mem _ hq)

end Vouched

def gathered : Except LookupResult (List (Nat × Eid)) → List (Nat × Eid)
  | .error r => r.peers
  | .ok peers => peers

theorem gather_vouched {P : Nat × Eid → Prop} {lookup : Eid → Option LookupResult} {reflect : Bool}
    {dest : Eid} {trail : List Eid} {es : List Entry} (hpeers : Vouched P peers)
    (hforward : ∀ e ∈ es, ∀ p, e.action = .internal (.forward p) → P (p, dest))
    (hvia : ∀ e ∈ es, ∀ via, e.action = .route (.via via) →
      ∀ r, lookup via = some r → Vouched P r.peers) :
    Vouched P (gathered (gather lookup reflect dest trail es peers)) := by
  induction es generalizing peers with
  | nil => exact hpeers
  | cons e es ih =>
    have ih' := fun peers (hp : Vouched P peers) => @ih peers hp
      (fun e he => hforward e (List.mem_cons_of_mem _ he))
      (fun e he => hvia e (List.mem_cons_of_mem _ he))
    rw [gather]
    split
    · exact .nil
    · split
      · exact .nil
      · exact ih' _ hpeers
    · rename_i via he
      have hsub := hvia e List.mem_cons_self via he
      split
      · exact ih' _ hpeers
      · split
        · rename_i p n hl
          exact ih' _ (hpeers.sortedInsert ((hsub _ hl).each _ (List.mem_singleton_self _)))
        · rename_i ps hl
          exact ih' _ (hpeers.sortedInsertAll (hsub _ hl).each)
        · rename_i hl
          exact hsub _ hl
        · exact ih' _ hpeers
    · exact .nil
    · exact .nil
    · rename_i p he
      exact ih' _ (hpeers.sortedInsert (hforward e List.mem_cons_self p he))

theorem selected_peers {r : LookupResult} (h : selected peers = some r) : r.peers = peers := by
  rw [selected.eq_def] at h
  split at h
  · cases h
  · cases h
    rfl
  · cases h
    rfl

theorem scan_vouched [Globs] {P : Nat × Eid → Prop}
    {group : List Entry → Except LookupResult (List (Nat × Eid))} {dest : Eid}
    {rows : List (EidPattern × List Entry)} {r : LookupResult}
    (hgroup : ∀ row ∈ rows, row.1.matches dest = true → Vouched P (gathered (group row.2)))
    (h : scan group dest rows = some r) : Vouched P r.peers := by
  induction rows with
  | nil => cases h
  | cons row rows ih =>
    have ih' := ih fun r hr => hgroup r (List.mem_cons_of_mem _ hr)
    rw [scan] at h
    split at h
    · rename_i hm
      have hrow := hgroup row List.mem_cons_self hm
      split at h
      · rename_i hg
        cases h
        rwa [hg] at hrow
      · rename_i peers hg
        rw [hg] at hrow
        rcases Option.or_eq_some_iff.mp h with h | ⟨-, h⟩
        · rw [selected_peers h]
          exact hrow
        · exact ih' h
    · exact ih' h

namespace RouteTable

variable [Globs] {t : RouteTable} {reflect : Bool} {f : Nat} {dest : Eid} {trail : List Eid}

/-- An installed `Via` entry takes `a` to `b`. -/
def Hop (t : RouteTable) (a b : Eid) : Prop :=
  ∃ p e, t.Has p e ∧ p.matches a = true ∧ e.action = .route (.via b)

/-- `next_hop` is `dest` or lies at the end of a chain of `Via` entries from it,
and an installed entry forwards it to the peer. -/
structure Backed (t : RouteTable) (dest : Eid) (peer : Nat) (nextHop : Eid) : Prop where
  chain : Relation.ReflTransGen t.Hop dest nextHop
  entry : ∃ p e, t.Has p e ∧ p.matches nextHop = true ∧ e.action = .internal (.forward peer)

theorem findWithin_backed {r : LookupResult} (h : t.findWithin reflect f dest trail = some r) :
    Vouched (fun q => t.Backed dest q.1 q.2) r.peers := by
  -- induction on the depth: a `Via` entry puts its own hop before the chains of its next hop
  induction f generalizing dest trail r with
  | zero => cases h
  | succ f ih =>
    rw [findWithin] at h
    refine scan_vouched (fun row hrow hm => gather_vouched .nil ?_ ?_) h
    · intro e he p hp
      exact ⟨.refl, row.1, e, ⟨row.2, hrow, he⟩, hm, hp⟩
    · intro e he via hvia r hr
      have hsub := ih hr
      have hhop : t.Hop dest via := ⟨row.1, e, ⟨row.2, hrow, he⟩, hm, hvia⟩
      exact ⟨hsub.ascending, fun q hq => ⟨.head hhop (hsub.each q hq).chain, (hsub.each q hq).entry⟩⟩

/-- A lookup returns, with the trail it was given, and names each of its peers
once, in order, and for a reason. -/
theorem findTrail_returns (t : RouteTable) (dest : Eid) (reflect : Bool) (trail : Finset Eid) :
    ∃ result : Option LookupResult,
      (∀ fuel ≥ t.vias.length + 2, t.findTrail reflect fuel dest trail = some (result, trail)) ∧
      ∀ r, result = some r →
        (∀ q ∈ r.peers, t.Backed dest q.1 q.2) ∧ (r.peers.map Prod.fst).Pairwise (· < ·) := by
  refine ⟨t.findRecurse dest reflect trail.toList, fun fuel hfuel => ?_, fun r hr => ?_⟩
  · rw [show trail = trail.toList.toFinset from trail.toList_toFinset.symm, findTrail_eq hfuel,
      Finset.toList_toFinset]
  · have hv := findWithin_backed hr
    exact ⟨hv.each, List.pairwise_map.mpr hv.ascending⟩

end RouteTable

end Hardy.Routing
