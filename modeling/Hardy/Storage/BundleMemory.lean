import Hardy.Lru
import Hardy.Types

/-!
# The in-memory bundle store

Model of `bpa/src/storage/bundle_mem.rs`.  The map of the `lru` crate is the list of its entries,
the most recently used one first; a `usize` is a number up to `usizeMax`, and its arithmetic
saturates as it does in the source.

Where what the store holds never adds up to more than a `usize`, the tracked usage is the sum of
the lengths, and a write evicts the fewest entries that make it fit (`calls_accounted`).
-/

namespace Hardy.Storage.BundleMem

abbrev Entry := Int × Bytes

/-- A `NonZeroUsize`. -/
abbrev NonZero := { n : Nat // 0 < n }

def defaultCapacity : NonZero := ⟨256 * 1048576, by decide⟩

def defaultMinBundles : NonZero := ⟨32, by decide⟩

structure Limits where
  maxCapacity : NonZero
  minBundles : NonZero
  highWatermark : Nat
  lowWatermark : Nat

def Limits.new (capacityBytes minBundles : Option NonZero) : Limits where
  maxCapacity := capacityBytes.getD defaultCapacity
  minBundles := minBundles.getD defaultMinBundles
  highWatermark :=
    (capacityBytes.getD defaultCapacity).val - (capacityBytes.getD defaultCapacity).val / 20
  lowWatermark :=
    (capacityBytes.getD defaultCapacity).val - (capacityBytes.getD defaultCapacity).val / 10

structure Inner where
  cache : List (String × Entry)
  capacity : Nat
  nearCapacity : Bool
  evictedCount : Nat
  evictedBytes : Nat

/-- A watermark that has been crossed, for the log. -/
inductive Edge where
  | enter (bytes : Nat)
  | exit (bytes evictedCount evictedBytes : Nat)

namespace Inner

def new : Inner := ⟨[], 0, false, 0, 0⟩

def checkWatermark (high low : Nat) (i : Inner) : Option Edge × Inner :=
  if !i.nearCapacity && high ≤ i.capacity then
    (some (.enter i.capacity), { i with nearCapacity := true })
  else if i.nearCapacity && i.capacity < low then
    (some (.exit i.capacity i.evictedCount i.evictedBytes),
      { i with nearCapacity := false, evictedCount := 0, evictedBytes := 0 })
  else (none, i)

/-- The loop of `Inner::evict_to_capacity`, for as many turns as there are entries. -/
def evict (maxCapacity minBundles : Nat) : Nat → Inner → Inner
  | 0, i => i
  | fuel + 1, i =>
    if minBundles < i.cache.length ∧ maxCapacity < i.capacity then
      match i.cache.getLast? with
      | none => i
      | some (_, _, d) =>
        evict maxCapacity minBundles fuel
          { i with
            cache := i.cache.dropLast
            capacity := i.capacity - d.length
            evictedCount := i.evictedCount + 1
            evictedBytes := i.evictedBytes + d.length }
    else i

def evictToCapacity (maxCapacity minBundles : Nat) (i : Inner) : Inner :=
  i.evict maxCapacity minBundles i.cache.length

/-- The data go in front of the others, in the place of what the name had. -/
def put (usizeMax : Nat) (name : String) (entry : Entry) (i : Inner) : Inner :=
  let oldLen := ((i.cache.lookup name).map (·.2.length)).getD 0
  { i with
    cache := (name, entry) :: without i.cache name
    capacity := min (i.capacity - oldLen + entry.2.length) usizeMax }

end Inner

/-! ## The calls -/

section

variable (usizeMax : Nat) (lim : Limits)

/-- What `save` and `replace` do alike once they have a name. -/
def write (name : String) (entry : Entry) (i : Inner) : (Option Edge × Option Edge) × Inner :=
  let i := i.put usizeMax name entry
  let (e1, i) := i.checkWatermark lim.highWatermark lim.lowWatermark
  let i := i.evictToCapacity lim.maxCapacity lim.minBundles
  let (e2, i) := i.checkWatermark lim.highWatermark lim.lowWatermark
  ((e1, e2), i)

/-- One turn of the loop of `BundleMemStorage::save`, on the name that it draws: one that is taken
is drawn again. -/
def save (name : String) (now : Int) (data : Bytes) (i : Inner) :
    Option ((Option Edge × Option Edge) × Inner) :=
  if (i.cache.lookup name).isSome then none else some (write usizeMax lim name (now, data) i)

def replace (name : String) (now : Int) (data : Bytes) (i : Inner) :
    (Option Edge × Option Edge) × Inner :=
  write usizeMax lim name (now, data) i

/-- `BundleMemStorage::load`, which makes the entry the most recently used one. -/
def load (name : String) (i : Inner) : Option Bytes × Inner :=
  match i.cache.lookup name with
  | some entry => (some entry.2, { i with cache := (name, entry) :: without i.cache name })
  | none => (none, i)

def delete (name : String) (i : Inner) : Option Edge × Inner :=
  match i.cache.lookup name with
  | some entry =>
    { i with
      cache := without i.cache name
      capacity := i.capacity - entry.2.length }.checkWatermark
        lim.highWatermark lim.lowWatermark
  | none => (none, i)

inductive Call where
  | save (name : String) (now : Int) (data : Bytes)
  | replace (name : String) (now : Int) (data : Bytes)
  | load (name : String)
  | delete (name : String)

def Call.run (i : Inner) : Call → Inner
  | .save name now data =>
    match BundleMem.save usizeMax lim name now data i with
    | some r => r.2
    | none => i
  | .replace name now data => (BundleMem.replace usizeMax lim name now data i).2
  | .load name => (BundleMem.load name i).2
  | .delete name => (BundleMem.delete lim name i).2

def calls (cs : List Call) : Inner := cs.foldl (Call.run usizeMax lim) .new

end

/-! ## What a run is held to -/

def total (cache : List (String × Entry)) : Nat := (cache.map fun e => e.2.2.length).sum

def written (name : String) (entry : Entry) (i : Inner) : List (String × Entry) :=
  (name, entry) :: without i.cache name

def Call.Fits (usizeMax : Nat) (i : Inner) : Call → Prop
  | .save name now data => (i.cache.lookup name).isSome = true ∨
      total (written name (now, data) i) ≤ usizeMax
  | .replace name now data => total (written name (now, data) i) ≤ usizeMax
  | .load _ | .delete _ => True

def Fitting (usizeMax : Nat) (lim : Limits) : Inner → List Call → Prop
  | _, [] => True
  | i, c :: cs => c.Fits usizeMax i ∧ Fitting usizeMax lim (c.run usizeMax lim i) cs

def Enough (lim : Limits) (cache : List (String × Entry)) : Prop :=
  total cache ≤ lim.maxCapacity ∨ cache.length ≤ lim.minBundles

/-- The fewest least recently used entries are gone that leave enough room. -/
def Evicted (lim : Limits) (before after : List (String × Entry)) : Prop :=
  ∃ k ≤ before.length, after = before.take (before.length - k) ∧ Enough lim after ∧
    ∀ j < k, ¬ Enough lim (before.take (before.length - j))

/-- The usage is that of the entries, each of which has a name of its own. -/
structure Accounted (i : Inner) : Prop where
  capacity : i.capacity = total i.cache
  nodup : (i.cache.map Prod.fst).Nodup

/-! ## One call -/

section

variable {usizeMax : Nat} {lim : Limits} {i : Inner} {name : String} {entry : Entry}
  {cache : List (String × Entry)}

@[simp] theorem total_nil : total [] = 0 := rfl

@[simp] theorem total_cons (e : String × Entry) : total (e :: cache) = e.2.2.length + total cache := by
  simp [total]

@[simp] theorem total_append (cache' : List (String × Entry)) :
    total (cache ++ cache') = total cache + total cache' := by
  simp [total]

theorem total_perm {cache' : List (String × Entry)} (h : cache.Perm cache') :
    total cache = total cache' := (h.map _).sum_nat

@[simp] theorem checkWatermark_cache (high low : Nat) :
    (i.checkWatermark high low).2.cache = i.cache := by
  unfold Inner.checkWatermark
  split
  · rfl
  · split <;> rfl

@[simp] theorem checkWatermark_capacity (high low : Nat) :
    (i.checkWatermark high low).2.capacity = i.capacity := by
  unfold Inner.checkWatermark
  split
  · rfl
  · split <;> rfl

theorem Accounted.checkWatermark (h : Accounted i) (high low : Nat) :
    Accounted (i.checkWatermark high low).2 := by
  refine ⟨?_, ?_⟩
  · rw [checkWatermark_capacity, checkWatermark_cache, h.capacity]
  · rw [checkWatermark_cache]
    exact h.nodup

theorem Accounted.without (h : Accounted i) :
    total (without i.cache name) =
      i.capacity - ((i.cache.lookup name).map (·.2.length)).getD 0 := by
  cases hname : i.cache.lookup name with
  | none =>
    rw [without_of_not_mem ((lookup_eq_none h.nodup).mp hname), h.capacity]
    rfl
  | some old =>
    have hperm := total_perm (perm_of_mem h.nodup ((lookup_eq_some h.nodup).mp hname))
    rw [total_cons] at hperm
    rw [h.capacity, hperm]
    simp

theorem Accounted.put (h : Accounted i) (hfits : total (written name entry i) ≤ usizeMax) :
    Accounted (i.put usizeMax name entry) where
  capacity := by
    rw [written, total_cons] at hfits
    dsimp only at hfits
    rw [Inner.put]
    dsimp only
    rw [← h.without, total_cons, Nat.min_eq_left (by omega), Nat.add_comm]
  nodup := List.nodup_cons.mpr ⟨not_mem_without, without_nodup h.nodup⟩

/-! ## Eviction -/

theorem Evicted.refl (h : Enough lim cache) : Evicted lim cache cache :=
  ⟨0, Nat.zero_le _, by simp, h, fun j hj => absurd hj (Nat.not_lt_zero j)⟩

theorem take_dropLast (k : Nat) :
    cache.dropLast.take (cache.dropLast.length - k) = cache.take (cache.length - (k + 1)) := by
  rw [List.dropLast_eq_take, List.take_take, List.length_take]
  congr 1
  omega

theorem Evicted.step {after : List (String × Entry)} (hover : ¬ Enough lim cache)
    (h : Evicted lim cache.dropLast after) : Evicted lim cache after := by
  obtain ⟨k, hk, rfl, henough, hleast⟩ := h
  have hlen : 0 < cache.length := by
    rw [List.length_pos_iff]
    rintro rfl
    exact hover (.inr (Nat.zero_le _))
  rw [List.length_dropLast] at hk
  refine ⟨k + 1, by omega, take_dropLast k, henough, fun j hj => ?_⟩
  cases j with
  | zero => simpa using hover
  | succ j =>
    rw [← take_dropLast]
    exact hleast j (Nat.lt_of_succ_lt_succ hj)

theorem Accounted.evict {fuel : Nat} (h : Accounted i) (hfuel : i.cache.length ≤ fuel) :
    Accounted (i.evict lim.maxCapacity lim.minBundles fuel) ∧
      Evicted lim i.cache (i.evict lim.maxCapacity lim.minBundles fuel).cache := by
  induction fuel generalizing i with
  | zero =>
    have hfew : i.cache.length ≤ lim.minBundles := by omega
    exact ⟨h, .refl (.inr hfew)⟩
  | succ fuel ih =>
    rw [Inner.evict]
    split
    · next hover =>
        obtain ⟨hmany, hfull⟩ := hover
        have hne : i.cache ≠ [] := by
          rintro hnil
          rw [hnil] at hmany
          exact absurd hmany (Nat.not_lt_zero _)
        have hlast := List.dropLast_append_getLast hne
        rw [List.getLast?_eq_some_getLast hne]
        generalize i.cache.getLast hne = e at hlast
        obtain ⟨n, t, d⟩ := e
        have htotal : total i.cache = total i.cache.dropLast + d.length := by
          conv_lhs => rw [← hlast]
          simp
        have hlen : i.cache.dropLast.length = i.cache.length - 1 := List.length_dropLast
        obtain ⟨hacc, hleft⟩ := ih (i := { i with
          cache := i.cache.dropLast
          capacity := i.capacity - d.length
          evictedCount := i.evictedCount + 1
          evictedBytes := i.evictedBytes + d.length })
          ⟨by rw [h.capacity, htotal, Nat.add_sub_cancel],
            h.nodup.sublist ((List.dropLast_sublist _).map _)⟩
          (by dsimp only; omega)
        refine ⟨hacc, hleft.step ?_⟩
        rw [Enough, ← h.capacity]
        omega
    · next hwithin =>
        refine ⟨h, .refl ?_⟩
        rw [Enough, ← h.capacity]
        omega

theorem Evicted.head {e : String × Entry} {after : List (String × Entry)}
    (h : Evicted lim (e :: cache) after) : ∃ rest, after = e :: rest := by
  obtain ⟨k, hk, rfl, -, hleast⟩ := h
  have hpos := lim.minBundles.property
  have hlt : k < (e :: cache).length := by
    refine Nat.lt_of_le_of_ne hk fun heq => ?_
    refine hleast ((e :: cache).length - 1) (by rw [List.length_cons] at heq ⊢; omega) (.inr ?_)
    rw [List.length_take, List.length_cons]
    omega
  refine ⟨cache.take ((e :: cache).length - k - 1), ?_⟩
  have hsucc : (e :: cache).length - k = ((e :: cache).length - k - 1) + 1 := by omega
  rw [hsucc, List.take_succ_cons, Nat.add_sub_cancel]

/-! ## Runs -/

structure Stored (lim : Limits) (before : Inner) (name : String) (entry : Entry) (i : Inner) :
    Prop extends Accounted i where
  enough : i.capacity ≤ lim.maxCapacity ∨ i.cache.length ≤ lim.minBundles
  present : i.cache.lookup name = some entry
  evicted : Evicted lim (written name entry before) i.cache

theorem Accounted.write (h : Accounted i) (hfits : total (written name entry i) ≤ usizeMax) :
    Stored lim i name entry (write usizeMax lim name entry i).2 := by
  have hput := (h.put hfits).checkWatermark lim.highWatermark lim.lowWatermark
  obtain ⟨hacc, hevicted⟩ : Accounted _ ∧ Evicted lim _ _ := hput.evict (Nat.le_refl _)
  have hall : Accounted (BundleMem.write usizeMax lim name entry i).2 :=
    hacc.checkWatermark lim.highWatermark lim.lowWatermark
  have hbefore : ((i.put usizeMax name entry).checkWatermark lim.highWatermark
      lim.lowWatermark).2.cache = written name entry i := checkWatermark_cache _ _
  have hleft : Evicted lim (written name entry i)
      (BundleMem.write usizeMax lim name entry i).2.cache := by
    rw [BundleMem.write]
    dsimp only
    rw [checkWatermark_cache]
    exact Eq.subst (motive := fun c => Evicted lim c _) hbefore hevicted
  refine ⟨hall, ?_, ?_, hleft⟩
  · obtain ⟨-, -, -, henough, -⟩ := id hleft
    rwa [Enough, ← hall.capacity] at henough
  · obtain ⟨rest, hrest⟩ := hleft.head
    rw [hrest, List.lookup_cons, beq_self_eq_true]

theorem Accounted.load (h : Accounted i) (name : String) : Accounted (load name i).2 := by
  rw [BundleMem.load]
  cases hname : i.cache.lookup name with
  | none => exact h
  | some entry =>
    have hperm := perm_of_mem h.nodup ((lookup_eq_some h.nodup).mp hname)
    exact ⟨h.capacity.trans (total_perm hperm), (hperm.map _).nodup_iff.mp h.nodup⟩

theorem Accounted.delete (h : Accounted i) (name : String) : Accounted (delete lim name i).2 := by
  rw [BundleMem.delete]
  cases hname : i.cache.lookup name with
  | none => exact h
  | some entry =>
    refine Accounted.checkWatermark ⟨?_, without_nodup h.nodup⟩ _ _
    rw [h.without, hname]
    rfl

theorem Accounted.run (h : Accounted i) {c : Call} (hfits : c.Fits usizeMax i) :
    Accounted (c.run usizeMax lim i) := by
  cases c with
  | save name now data =>
    rw [Call.run, save]
    split
    · next r hr =>
        split at hr
        · cases hr
        · next hnew =>
            cases hr
            exact (h.write (hfits.resolve_left hnew)).toAccounted
    · exact h
  | replace name now data => exact (h.write hfits).toAccounted
  | load name => exact h.load name
  | delete name => exact h.delete name

theorem Accounted.calls {cs : List Call} (h : Accounted i) (hfits : Fitting usizeMax lim i cs) :
    Accounted (cs.foldl (Call.run usizeMax lim) i) := by
  induction cs generalizing i with
  | nil => exact h
  | cons c cs ih => exact ih (h.run hfits.1) hfits.2

/-- While the lengths add up to a `usize`, the tracked usage is their sum, and a write leaves what
it has written, evicts the fewest of the least recently used entries that make room, and ends
within the capacity or with few entries. -/
theorem calls_accounted (usizeMax : Nat) (lim : Limits) (cs : List Call)
    (hfits : Fitting usizeMax lim .new cs) :
    Accounted (calls usizeMax lim cs) ∧
      ∀ name now data, total (written name (now, data) (calls usizeMax lim cs)) ≤ usizeMax →
        (∀ r, save usizeMax lim name now data (calls usizeMax lim cs) = some r →
          Stored lim (calls usizeMax lim cs) name (now, data) r.2) ∧
        Stored lim (calls usizeMax lim cs) name (now, data)
          (replace usizeMax lim name now data (calls usizeMax lim cs)).2 := by
  have h : Accounted (calls usizeMax lim cs) := Accounted.calls ⟨rfl, .nil⟩ hfits
  refine ⟨h, fun name now data hroom => ⟨fun r hr => ?_, h.write hroom⟩⟩
  rw [save] at hr
  split at hr
  · cases hr
  · cases hr
    exact h.write hroom

end

/-! ## Two runs -/

/-- Two saves over the capacity: the first bundle goes. -/
theorem second_save_evicts :
    let lim := Limits.new (some ⟨3, by decide⟩) (some ⟨1, by decide⟩)
    let cs : List Call := [.save "a" 0 [1, 2]]
    Stored lim (calls 255 lim cs) "b" (1, [3, 4]) (replace 255 lim "b" 1 [3, 4] (calls 255 lim cs)).2 ∧
      (replace 255 lim "b" 1 [3, 4] (calls 255 lim cs)).2.cache = [("b", 1, [3, 4])] := by
  intro lim cs
  have hfits : Fitting 255 lim .new cs := ⟨.inr (by decide), trivial⟩
  exact ⟨((calls_accounted 255 lim cs hfits).2 "b" 1 [3, 4] (by decide)).2, by decide⟩

@[irreducible] def gib : Bytes := List.replicate (2 ^ 30) 0

theorem gib_length : gib.length = 1073741824 := by
  rw [gib, List.length_replicate]
  norm_num

theorem evictToCapacity_few {maxCapacity minBundles : Nat} {i : Inner}
    (h : i.cache.length ≤ minBundles) : i.evictToCapacity maxCapacity minBundles = i := by
  rw [Inner.evictToCapacity]
  cases i.cache.length with
  | zero => rfl
  | succ fuel => rw [Inner.evict, if_neg fun hover => absurd hover.1 (Nat.not_lt.mpr h)]

theorem run_save_few (usizeMax : Nat) (lim : Limits) {i : Inner} {name : String} (now : Int)
    (data : Bytes) (hnodup : (name :: i.cache.map Prod.fst).Nodup)
    (hfew : i.cache.length < lim.minBundles) :
    (Call.run usizeMax lim i (.save name now data)).cache = (name, now, data) :: i.cache ∧
      (Call.run usizeMax lim i (.save name now data)).capacity =
        min (i.capacity + data.length) usizeMax := by
  obtain ⟨hnew, hold⟩ := List.nodup_cons.mp hnodup
  have hlookup : i.cache.lookup name = none := (lookup_eq_none hold).mpr hnew
  have hput : (i.put usizeMax name (now, data)).cache = (name, now, data) :: i.cache := by
    rw [Inner.put, without_of_not_mem hnew]
  have hlen : ((i.put usizeMax name (now, data)).checkWatermark lim.highWatermark
      lim.lowWatermark).2.cache.length ≤ lim.minBundles := by
    rw [checkWatermark_cache, hput]
    exact hfew
  simp only [Call.run, save, hlookup, Option.isSome_none, Bool.false_eq_true, if_false, write,
    evictToCapacity_few hlen, checkWatermark_cache, checkWatermark_capacity]
  refine ⟨hput, ?_⟩
  simp only [Inner.put, hlookup, Option.map_none, Option.getD_none, Nat.sub_zero]

theorem run_saves_few (usizeMax : Nat) (lim : Limits) (es : List (String × Entry)) {i : Inner}
    (hcapacity : i.capacity = min (total i.cache) usizeMax)
    (hnodup : ((es.reverse ++ i.cache).map Prod.fst).Nodup)
    (hfew : (es.reverse ++ i.cache).length ≤ lim.minBundles) :
    let i' := (es.map fun e => Call.save e.1 e.2.1 e.2.2).foldl (Call.run usizeMax lim) i
    i'.cache = es.reverse ++ i.cache ∧ i'.capacity = min (total i'.cache) usizeMax := by
  induction es generalizing i with
  | nil => exact ⟨rfl, hcapacity⟩
  | cons e es ih =>
    obtain ⟨name, now, data⟩ := e
    rw [List.reverse_cons, List.append_assoc, List.singleton_append] at hnodup hfew
    have hhere : (name :: i.cache.map Prod.fst).Nodup := by
      rw [List.map_append] at hnodup
      exact hnodup.of_append_right
    have hroom : i.cache.length < lim.minBundles := by
      rw [List.length_append, List.length_cons] at hfew
      omega
    obtain ⟨hcache, hcap⟩ := run_save_few usizeMax lim now data hhere hroom
    have htotal : (Call.run usizeMax lim i (.save name now data)).capacity =
        min (total (Call.run usizeMax lim i (.save name now data)).cache) usizeMax := by
      rw [hcap, hcapacity, hcache, total_cons]
      dsimp only
      omega
    have hrest := ih htotal (by rwa [hcache]) (by rwa [hcache])
    rw [hcache] at hrest
    rw [List.reverse_cons, List.append_assoc, List.singleton_append]
    exact hrest

theorem saturates {d : Bytes} (hd : d.length = 1073741824) :
    let i := calls (2 ^ 32 - 1) (.new (some ⟨2 ^ 32 - 1, by decide⟩) none)
      [.save "a" 0 d, .save "b" 1 d, .save "c" 2 d, .save "d" 3 d]
    i.capacity = 2 ^ 32 - 1 ∧ total i.cache = 2 ^ 32 := by
  intro i
  obtain ⟨hcache, hcapacity⟩ := run_saves_few (2 ^ 32 - 1)
    (.new (some ⟨2 ^ 32 - 1, by decide⟩) none) (i := .new)
    [("a", 0, d), ("b", 1, d), ("c", 2, d), ("d", 3, d)] rfl
    (show ["d", "c", "b", "a"].Nodup by decide) (show 4 ≤ 32 by decide)
  have htotal : total i.cache = 2 ^ 32 := by
    refine (congrArg total hcache).trans ?_
    simp [total_cons, hd, Inner.new]
  refine ⟨hcapacity.trans ?_, htotal⟩
  exact (congrArg (min · (2 ^ 32 - 1)) htotal).trans rfl

/-- On a target of 32 bits, one buffer that is saved four times adds up to one more than a
`usize`. -/
theorem usage_saturates :
    let i := calls (2 ^ 32 - 1) (.new (some ⟨2 ^ 32 - 1, by decide⟩) none)
      [.save "a" 0 gib, .save "b" 1 gib, .save "c" 2 gib, .save "d" 3 gib]
    i.capacity = 2 ^ 32 - 1 ∧ total i.cache = 2 ^ 32 := saturates gib_length

end Hardy.Storage.BundleMem
