import Mathlib.Data.List.Nodup
import Mathlib.Data.List.Perm.Basic
import Mathlib.Data.List.Sort

/-!
# Tables

Rows with a row id and a unique key, under the statements of SQL: an insert that
ignores a key that is there, an update with a condition, a select.  Row ids and keys
are unique by construction.  A selection with a limit is any choice of as many rows
as there are (`Picks`), in an order where it asks for one (`Oldest`).
-/

namespace Hardy

structure Row (κ ρ : Type) where
  id : Nat
  key : κ
  data : ρ

structure Table (κ ρ : Type) where
  rows : List (Row κ ρ)
  ids_nodup : (rows.map Row.id).Nodup
  keys_nodup : (rows.map Row.key).Nodup

namespace Table

variable {κ ρ : Type}

def empty : Table κ ρ := ⟨[], List.nodup_nil, List.nodup_nil⟩

def fresh (t : Table κ ρ) : Nat := (t.rows.map Row.id).foldr max 0 + 1

theorem lt_fresh {t : Table κ ρ} {r : Row κ ρ} (h : r ∈ t.rows) : r.id < t.fresh := by
  have hle : ∀ (l : List Nat) (n : Nat), n ∈ l → n ≤ l.foldr max 0 := by
    intro l
    induction l with
    | nil =>
      intro n hn
      cases hn
    | cons m l ih =>
      intro n hn
      rw [List.foldr_cons]
      rcases List.mem_cons.mp hn with rfl | hn
      · exact Nat.le_max_left _ _
      · exact Nat.le_trans (ih n hn) (Nat.le_max_right _ _)
  exact Nat.lt_succ_of_le (hle _ _ (List.mem_map_of_mem h))

def update (t : Table κ ρ) (p : Row κ ρ → Bool) (f : ρ → ρ) : Table κ ρ where
  rows := t.rows.map fun r => if p r then { r with data := f r.data } else r
  ids_nodup := by
    rw [List.map_map]
    refine (congrArg List.Nodup (List.map_congr_left fun r _ => ?_)).mpr t.ids_nodup
    rw [Function.comp_apply]
    split
    · rfl
    · rfl
  keys_nodup := by
    rw [List.map_map]
    refine (congrArg List.Nodup (List.map_congr_left fun r _ => ?_)).mpr t.keys_nodup
    rw [Function.comp_apply]
    split
    · rfl
    · rfl

def matched (t : Table κ ρ) (p : Row κ ρ → Bool) : Nat := t.rows.countP p

def select (t : Table κ ρ) (p : Row κ ρ → Bool) : List (Row κ ρ) := t.rows.filter p

variable [DecidableEq κ]

def row (t : Table κ ρ) (k : κ) : Option (Row κ ρ) := t.rows.find? fun r => r.key = k

theorem key_not_mem {t : Table κ ρ} {k : κ} (h : t.row k = none) : k ∉ t.rows.map Row.key := by
  intro hmem
  obtain ⟨r, hr, rfl⟩ := List.mem_map.mp hmem
  have := List.find?_eq_none.mp h r hr
  simp at this

def add (t : Table κ ρ) (k : κ) (d : ρ) (h : t.row k = none) : Table κ ρ where
  rows := ⟨t.fresh, k, d⟩ :: t.rows
  ids_nodup := by
    rw [List.map_cons, List.nodup_cons]
    refine ⟨fun hmem => ?_, t.ids_nodup⟩
    obtain ⟨r, hr, heq⟩ := List.mem_map.mp hmem
    exact (Nat.ne_of_lt (lt_fresh hr)) heq
  keys_nodup := by
    rw [List.map_cons, List.nodup_cons]
    exact ⟨key_not_mem h, t.keys_nodup⟩

def insertOrIgnore (t : Table κ ρ) (k : κ) (d : ρ) : Bool × Table κ ρ :=
  match h : t.row k with
  | some _ => (false, t)
  | none => (true, t.add k d h)

section

variable {t : Table κ ρ} {k k' : κ} {d : ρ} {r r' : Row κ ρ} {p : Row κ ρ → Bool} {f : ρ → ρ}

omit [DecidableEq κ] in
theorem eq_of_id (hr : r ∈ t.rows) (hr' : r' ∈ t.rows) (h : r.id = r'.id) : r = r' :=
  List.inj_on_of_nodup_map t.ids_nodup hr hr' h

omit [DecidableEq κ] in
theorem eq_of_key (hr : r ∈ t.rows) (hr' : r' ∈ t.rows) (h : r.key = r'.key) : r = r' :=
  List.inj_on_of_nodup_map t.keys_nodup hr hr' h

theorem row_eq_some : t.row k = some r ↔ r ∈ t.rows ∧ r.key = k := by
  constructor
  · intro h
    refine ⟨List.mem_of_find?_eq_some h, ?_⟩
    simpa using List.find?_some h
  · rintro ⟨hr, rfl⟩
    cases hrow : t.row r.key with
    | none => exact absurd (List.mem_map_of_mem hr) (key_not_mem hrow)
    | some r' =>
      have hr' := List.mem_of_find?_eq_some hrow
      have hkey : r'.key = r.key := by simpa using List.find?_some hrow
      rw [eq_of_key hr' hr hkey]

theorem row_eq_none : t.row k = none ↔ ∀ r ∈ t.rows, r.key ≠ k := by
  rw [row, List.find?_eq_none]
  simp

omit [DecidableEq κ] in
theorem mem_update : r ∈ (t.update p f).rows ↔
    ∃ r₀ ∈ t.rows, r = if p r₀ then { r₀ with data := f r₀.data } else r₀ := by
  rw [update, List.mem_map]
  simp only [eq_comm]

omit [DecidableEq κ] in
theorem update_of_none (h : ∀ r ∈ t.rows, p r = false) : t.update p f = t := by
  have hrows : (t.update p f).rows = t.rows := by
    refine (List.map_congr_left fun r hr => ?_).trans (List.map_id _)
    rw [if_neg (by rw [h r hr]; exact Bool.false_ne_true)]
    rfl
  cases t
  simpa only [update, mk.injEq] using hrows

theorem filter_key {l : List (Row κ ρ)} (hl : (l.map Row.key).Nodup) :
    l.filter (fun r => r.key = k) = (l.find? fun r => r.key = k).toList := by
  induction l with
  | nil => rfl
  | cons r l ih =>
    rw [List.map_cons, List.nodup_cons] at hl
    by_cases hk : r.key = k
    · have hrest : l.filter (fun r => r.key = k) = [] := by
        refine List.filter_eq_nil_iff.mpr fun r' hr' heq => hl.1 ?_
        rw [hk, ← of_decide_eq_true heq]
        exact List.mem_map_of_mem hr'
      rw [List.filter_cons_of_pos (by simpa using hk), hrest,
        List.find?_cons_of_pos (by simpa using hk)]
      rfl
    · rw [List.filter_cons_of_neg (by simpa using hk), ih hl.2,
        List.find?_cons_of_neg (by simpa using hk)]

theorem matched_key : t.matched (fun r => p r && r.key = k) = ((t.row k).any p).toNat := by
  rw [matched, ← List.countP_filter, filter_key t.keys_nodup, ← row]
  cases t.row k with
  | none => rfl
  | some r => cases hp : p r <;> simp [hp]

theorem insertOrIgnore_of_none (h : t.row k = none) :
    t.insertOrIgnore k d = (true, t.add k d h) := by
  rw [insertOrIgnore]
  split
  · next h' =>
      rw [h] at h'
      cases h'
  · rfl

theorem insertOrIgnore_of_some (h : t.row k = some r) : t.insertOrIgnore k d = (false, t) := by
  rw [insertOrIgnore]
  split
  · rfl
  · next h' =>
      rw [h] at h'
      cases h'

theorem row_add (h : t.row k = none) : (t.add k d h).row k' =
    if k' = k then some ⟨t.fresh, k, d⟩ else t.row k' := by
  rw [row, add, List.find?_cons]
  by_cases hk : k' = k
  · rw [if_pos hk, hk]
    simp
  · rw [if_neg hk]
    simp [Ne.symm hk, row]

end

end Table

/-! ## Selections in order and with a limit -/

/-- `ORDER BY`: the elements in the order of a key, in any order where it is equal. -/
structure Sorts {α : Type} (time : α → Int) (l out : List α) : Prop where
  perm : l.Perm out
  sorted : out.Pairwise fun a b => time a ≤ time b

/-- A choice of `n` elements, or of all of them where there are fewer. -/
structure Picks {α : Type} (n : Nat) (l page rest : List α) : Prop where
  perm : l.Perm (page ++ rest)
  length : page.length = min n l.length

/-- A choice in the order of a key: what is left out comes later. -/
structure Oldest {α : Type} (time : α → Int) (n : Nat) (l page rest : List α) : Prop
    extends Picks n l page rest where
  sorted : page.Pairwise fun a b => time a ≤ time b
  first : ∀ a ∈ page, ∀ b ∈ rest, time a ≤ time b

namespace Picks

variable {α : Type} {n : Nat} {l page rest : List α}

theorem rest_eq_nil (h : Picks n l page rest) (hl : l.length ≤ n) : rest = [] := by
  have hlen := h.perm.length_eq
  have hpage := h.length
  rw [List.length_append] at hlen
  exact List.length_eq_zero_iff.mp (by omega)

theorem page_eq_nil (h : Picks n l page rest) (hn : 0 < n) (hp : page = []) : l = [] := by
  have hpage := h.length
  rw [hp, List.length_nil] at hpage
  exact List.length_eq_zero_iff.mp (by omega)

end Picks

namespace Oldest

variable {α β : Type} {time : α → Int} {n : Nat} {l l' page page' rest rest' : List α}

def Clear (time : α → Int) (n : Nat) (l : List α) : Prop :=
  l.length ≤ n ∨ ∃ t, l.countP (fun a => time a < t) = n

theorem perm_filter (h : Oldest time n l page rest) {t : Int}
    (ht : l.countP (fun a => time a < t) = n) : page.Perm (l.filter fun a => time a < t) := by
  have hcount : page.countP (fun a => time a < t) + rest.countP (fun a => time a < t) = n := by
    rw [← List.countP_append, ← h.perm.countP_eq, ht]
  have hlen : page.length = n := by
    have hle := List.countP_le_length (p := fun a => decide (time a < t)) (l := l)
    have := h.length
    omega
  have hpage : page.countP (fun a => time a < t) = page.length := by
    refine Classical.not_not.mp fun hne => ?_
    have hle := List.countP_le_length (p := fun a => decide (time a < t)) (l := page)
    -- an element that is too young leaves an older one out
    obtain ⟨a, ha, hat⟩ : ∃ a ∈ page, ¬ time a < t := by
      by_contra hall
      refine hne (List.countP_eq_length.mpr fun a ha => ?_)
      simpa using fun hat => hall ⟨a, ha, hat⟩
    have hpos : 0 < rest.countP fun a => time a < t := by omega
    obtain ⟨b, hb, hbt⟩ := List.countP_pos_iff.mp hpos
    have hab := h.first a ha b hb
    have hbt : time b < t := by simpa using hbt
    omega
  have hrest : rest.countP (fun a => time a < t) = 0 := by omega
  have hself : page.filter (fun a => time a < t) = page :=
    List.filter_eq_self.mpr (List.countP_eq_length.mp hpage)
  have hnil : rest.filter (fun a => time a < t) = [] :=
    List.filter_eq_nil_iff.mpr (List.countP_eq_zero.mp hrest)
  have hfilter := (h.perm.symm.filter fun a => decide (time a < t))
  rw [List.filter_append, hself, hnil, List.append_nil] at hfilter
  exact hfilter

theorem perm_of_clear (h : Oldest time n l page rest) (h' : Oldest time n l' page' rest')
    (hl : l.Perm l') (hclear : Clear time n l) : page.Perm page' := by
  rcases hclear with hlen | ⟨t, ht⟩
  · have hpage := h.perm
    have hpage' := h'.perm
    rw [h.rest_eq_nil hlen, List.append_nil] at hpage
    rw [h'.rest_eq_nil (hl.length_eq ▸ hlen), List.append_nil] at hpage'
    exact hpage.symm.trans (hl.trans hpage')
  · have ht' := ht
    rw [hl.countP_eq] at ht'
    exact (h.perm_filter ht).trans ((hl.filter _).trans (h'.perm_filter ht').symm)

theorem of_perm (h : Oldest time n l page rest) (hl : l.Perm l') : Oldest time n l' page rest where
  perm := hl.symm.trans h.perm
  length := by
    rw [h.length, hl.length_eq]
  sorted := h.sorted
  first := h.first

theorem filterMap {f : α → Option β} {time' : β → Int} (h : Oldest time n l page rest)
    (hf : ∀ a ∈ l, ∃ b, f a = some b ∧ time' b = time a) :
    Oldest time' n (l.filterMap f) (page.filterMap f) (rest.filterMap f) := by
  have hpage : ∀ a ∈ page, a ∈ l := fun a ha => h.perm.symm.subset (List.mem_append_left _ ha)
  have hrest : ∀ a ∈ rest, a ∈ l := fun a ha => h.perm.symm.subset (List.mem_append_right _ ha)
  have hlength : ∀ m : List α, (∀ a ∈ m, a ∈ l) → (m.filterMap f).length = m.length := by
    intro m
    induction m with
    | nil => exact fun _ => rfl
    | cons a m ih =>
      intro hm
      obtain ⟨b, hb, -⟩ := hf a (hm a List.mem_cons_self)
      rw [List.filterMap_cons, hb]
      exact congrArg Nat.succ (ih fun c hc => hm c (List.mem_cons_of_mem a hc))
  have htime : ∀ a b, a ∈ l → f a = some b → time' b = time a := by
    intro a b ha hb
    obtain ⟨b', hb', htime⟩ := hf a ha
    rw [hb] at hb'
    cases hb'
    exact htime
  refine ⟨⟨?_, ?_⟩, ?_, ?_⟩
  · rw [← List.filterMap_append]
    exact h.perm.filterMap f
  · rw [hlength page hpage, hlength l fun _ ha => ha, h.length]
  · refine List.pairwise_filterMap.mpr (h.sorted.imp_of_mem fun {a a'} ha ha' hle b hb b' hb' => ?_)
    rw [htime a b (hpage a ha) hb, htime a' b' (hpage a' ha') hb']
    exact hle
  · intro b hb b' hb'
    obtain ⟨a, ha, hab⟩ := List.mem_filterMap.mp hb
    obtain ⟨a', ha', hab'⟩ := List.mem_filterMap.mp hb'
    rw [htime a b (hpage a ha) hab, htime a' b' (hrest a' ha') hab']
    exact h.first a ha a' ha'

end Oldest

theorem exists_sorts {α : Type} (time : α → Int) (l : List α) : ∃ out, Sorts time l out := by
  have htotal : Std.Total fun a b => time a ≤ time b := ⟨fun a b => Int.le_total _ _⟩
  have htrans : IsTrans α fun a b => time a ≤ time b := ⟨fun _ _ _ => Int.le_trans⟩
  exact ⟨_, (List.perm_insertionSort _ l).symm, List.pairwise_insertionSort _ l⟩

theorem Sorts.oldest {α : Type} {time : α → Int} {l out : List α} (h : Sorts time l out)
    (n : Nat) : Oldest time n l (out.take n) (out.drop n) := by
  have hsorted := h.sorted
  rw [← List.take_append_drop n out] at hsorted
  obtain ⟨htake, -, hcross⟩ := List.pairwise_append.mp hsorted
  refine ⟨⟨?_, ?_⟩, htake, hcross⟩
  · rw [List.take_append_drop]
    exact h.perm
  · rw [List.length_take, h.perm.length_eq]

theorem exists_oldest {α : Type} (time : α → Int) (n : Nat) (l : List α) :
    ∃ page rest, Oldest time n l page rest := by
  obtain ⟨out, hout⟩ := exists_sorts time l
  exact ⟨_, _, hout.oldest n⟩

end Hardy
