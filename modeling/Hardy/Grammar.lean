import Mathlib.Data.List.TakeWhile

/-!
# Parser combinators

Parsers as functions from the text that is left to a value and the text left
after it, with ordered choice and no other way back.

A parser is local at a token that none of its parts takes (`Local`): it behaves
before that token as before the end of the text.  A list of such parsers around
a separator therefore reads a text piece by piece (`separated_whole`).
-/

namespace Hardy.Grammar

abbrev Parser (τ α : Type) := List τ → Option (α × List τ)

section

variable {τ α β : Type}

def bind (p : Parser τ α) (f : α → Parser τ β) : Parser τ β :=
  fun t => (p t).bind fun r => f r.1 r.2

def map (f : α → β) (p : Parser τ α) : Parser τ β := fun t => (p t).map fun r => (f r.1, r.2)

def tryMap (f : α → Option β) (p : Parser τ α) : Parser τ β :=
  fun t => (p t).bind fun r => (f r.1).map (·, r.2)

def alt (p q : Parser τ α) : Parser τ α := fun t => (p t).or (q t)

def opt (p : Parser τ α) : Parser τ (Option α) :=
  fun t => some (((p t).map fun r => (some r.1, r.2)).getD (none, t))

def takeWhile (f : τ → Bool) : Parser τ (List τ) := fun t => some (t.takeWhile f, t.dropWhile f)

def oneOf (f : τ → Bool) : Parser τ τ
  | c :: t => if f c then some (c, t) else none
  | [] => none

variable [DecidableEq τ]

def literal (s : List τ) : Parser τ Unit :=
  fun t => if s.isPrefixOf t then some ((), t.drop s.length) else none

def preceded (s : List τ) (p : Parser τ α) : Parser τ α := bind (literal s) fun _ => p

def terminated (p : Parser τ α) (s : List τ) : Parser τ α :=
  bind p fun a => map (fun _ => a) (literal s)

/-- The elements after the first, for a text of at most `fuel` tokens. -/
def more (p : Parser τ α) (sep : τ) : Nat → List τ → List α × List τ
  | _, [] => ([], [])
  | 0, t => ([], t)
  | fuel + 1, c :: t =>
    if c = sep then
      match p t with
      | some (a, u) => (a :: (more p sep fuel u).1, (more p sep fuel u).2)
      | none => ([], c :: t)
    else ([], c :: t)

def separated (p : Parser τ α) (sep : τ) : Parser τ (List α) :=
  fun t => (p t).map fun r => (r.1 :: (more p sep r.2.length r.2).1, (more p sep r.2.length r.2).2)

omit [DecidableEq τ] in
def whole (p : Parser τ α) (t : List τ) : Option α :=
  match p t with
  | some (a, []) => some a
  | _ => none

omit [DecidableEq τ] in
theorem whole_eq_some {p : Parser τ α} {t : List τ} {a : α} :
    whole p t = some a ↔ p t = some (a, []) := by
  rw [whole]
  split
  · rename_i h
    simp [h]
  · rename_i h
    refine ⟨nofun, fun h' => ?_⟩
    exact absurd h' (h a)

theorem literal_append (s t : List τ) : literal s (s ++ t) = some ((), t) := by
  simp [literal]

theorem literal_eq_some {s t u : List τ} {a : Unit} :
    literal s t = some (a, u) ↔ t = s ++ u := by
  constructor
  · intro h
    rw [literal, Option.ite_none_right_eq_some] at h
    obtain ⟨hpre, h⟩ := h
    obtain ⟨v, rfl⟩ := List.isPrefixOf_iff_prefix.mp hpre
    cases h
    rw [List.drop_left]
  · rintro rfl
    exact literal_append s u

theorem literal_none_of_not_mem {c : τ} {s t : List τ} (h : c ∉ t) :
    literal (c :: s) t = none := by
  rw [literal, if_neg]
  intro hpre
  exact h ((List.isPrefixOf_iff_prefix.mp hpre).subset List.mem_cons_self)

omit [DecidableEq τ] in
theorem takeWhile_whole {f : τ → Bool} {t : List τ} (h : t.all f = true) :
    takeWhile f t = some (t, []) := by
  have hall : ∀ b ∈ t, f b = true := List.all_eq_true.mp h
  rw [takeWhile, List.takeWhile_eq_self_iff.mpr hall, List.dropWhile_eq_nil_iff.mpr hall]

/-! ## Locality -/

omit [DecidableEq τ] in
/-- The parser takes a part of the text from its start, and sees the token `stop`
as an end. -/
structure Local (stop : τ) (p : Parser τ α) : Prop where
  suffix : ∀ t a u, p t = some (a, u) → u <:+ t
  stops : ∀ t r, stop ∉ t → p (t ++ stop :: r) = (p t).map fun q => (q.1, q.2 ++ stop :: r)

namespace Local

variable {stop : τ} {p q : Parser τ α}

section

omit [DecidableEq τ]

theorem not_mem (h : Local stop p) {t : List τ} {a : α} {u : List τ} (ht : stop ∉ t)
    (hp : p t = some (a, u)) : stop ∉ u :=
  fun hm => ht ((h.suffix t a u hp).subset hm)

theorem bind {f : α → Parser τ β} (hp : Local stop p) (hf : ∀ a, Local stop (f a)) :
    Local stop (bind p f) where
  suffix t b u h := by
    obtain ⟨⟨a, v⟩, hpt, hfv⟩ := Option.bind_eq_some_iff.mp h
    exact ((hf a).suffix v b u hfv).trans (hp.suffix t a v hpt)
  stops t r ht := by
    rw [Grammar.bind, hp.stops t r ht]
    cases hpt : p t with
    | none => simp [Grammar.bind, hpt]
    | some q => simp [Grammar.bind, hpt, (hf q.1).stops q.2 r (hp.not_mem ht hpt)]

theorem map (f : α → β) (hp : Local stop p) : Local stop (map f p) where
  suffix t b u h := by
    obtain ⟨⟨a, v⟩, hpt, hfv⟩ := Option.map_eq_some_iff.mp h
    cases hfv
    exact hp.suffix t a v hpt
  stops t r ht := by
    rw [Grammar.map, Grammar.map, hp.stops t r ht]
    simp [Function.comp_def]

theorem tryMap (f : α → Option β) (hp : Local stop p) : Local stop (tryMap f p) where
  suffix t b u h := by
    obtain ⟨⟨a, v⟩, hpt, hfv⟩ := Option.bind_eq_some_iff.mp h
    obtain ⟨c, -, hc⟩ := Option.map_eq_some_iff.mp hfv
    cases hc
    exact hp.suffix t a v hpt
  stops t r ht := by
    rw [Grammar.tryMap, Grammar.tryMap, hp.stops t r ht]
    cases hpt : p t with
    | none => simp
    | some q => cases hq : f q.1 <;> simp [hq]

theorem alt (hp : Local stop p) (hq : Local stop q) : Local stop (alt p q) where
  suffix t a u h := by
    rcases Option.or_eq_some_iff.mp h with h | ⟨-, h⟩
    · exact hp.suffix t a u h
    · exact hq.suffix t a u h
  stops t r ht := by
    rw [Grammar.alt, Grammar.alt, hp.stops t r ht, hq.stops t r ht]
    cases hpt : p t <;> simp

theorem opt (hp : Local stop p) : Local stop (opt p) where
  suffix t a u h := by
    rw [Grammar.opt] at h
    cases hpt : p t with
    | none =>
      simp only [hpt, Option.map_none, Option.getD_none, Option.some.injEq, Prod.mk.injEq] at h
      exact h.2 ▸ List.suffix_refl t
    | some q =>
      simp only [hpt, Option.map_some, Option.getD_some, Option.some.injEq, Prod.mk.injEq] at h
      exact h.2 ▸ hp.suffix t q.1 q.2 hpt
  stops t r ht := by
    rw [Grammar.opt, Grammar.opt, hp.stops t r ht]
    cases hpt : p t <;> simp

theorem takeWhile {f : τ → Bool} (h : f stop = false) : Local stop (takeWhile f) where
  suffix t a u ht := by
    cases ht
    exact List.dropWhile_suffix f
  stops t r ht := by
    rw [Grammar.takeWhile, Grammar.takeWhile]
    clear ht
    induction t with
    | nil => simp [h]
    | cons c t ih =>
      simp only [Option.map_some, Option.some.injEq, Prod.mk.injEq] at ih
      by_cases hc : f c = true
      · simp [hc, ih]
      · simp [hc]

theorem oneOf {f : τ → Bool} (h : f stop = false) : Local stop (oneOf f) where
  suffix t a u ht := by
    cases t with
    | nil => cases ht
    | cons c t =>
      simp only [Grammar.oneOf, Option.ite_none_right_eq_some, Option.some.injEq,
        Prod.mk.injEq] at ht
      exact ht.2.2 ▸ List.suffix_cons c t
  stops t r ht := by
    cases t with
    | nil => simp [Grammar.oneOf, h]
    | cons c t => cases hc : f c <;> simp [Grammar.oneOf, hc]

end

theorem literal {s : List τ} (h : stop ∉ s) : Local stop (literal s) where
  suffix t a u ht := by
    rw [Grammar.literal] at ht
    split at ht
    · cases ht
      exact List.drop_suffix _ _
    · cases ht
  stops t r ht := by
    have hsame : s.isPrefixOf (t ++ stop :: r) = s.isPrefixOf t := by
      clear ht
      induction s generalizing t with
      | nil => simp
      | cons c s ih =>
        cases t with
        | nil =>
          have hne : c ≠ stop := fun hc => h (hc ▸ List.mem_cons_self)
          simp [List.isPrefixOf, hne]
        | cons d t =>
          simp [List.isPrefixOf, ih fun hm => h (List.mem_cons_of_mem _ hm)]
    rw [Grammar.literal, Grammar.literal, hsame]
    split
    · rename_i hs
      have hle := (List.isPrefixOf_iff_prefix.mp hs).length_le
      simp [List.drop_append_of_le_length hle]
    · rfl

theorem preceded {s : List τ} (h : stop ∉ s) (hp : Local stop p) : Local stop (preceded s p) :=
  (literal h).bind fun _ => hp

theorem terminated {s : List τ} (hp : Local stop p) (h : stop ∉ s) :
    Local stop (terminated p s) :=
  hp.bind fun _ => (literal h).map _

omit [DecidableEq τ] in
theorem next (hp : Local stop p) {t r : List τ} {a : α} (ht : stop ∉ t)
    (ha : p t = some (a, [])) : p (t ++ stop :: r) = some (a, stop :: r) := by
  rw [hp.stops t r ht, ha]
  rfl

end Local

/-! ## Values -/

section

variable {p q : Parser τ α} {P : α → Prop} {Q : β → Prop}

omit [DecidableEq τ] in
def Yields (p : Parser τ α) (P : α → Prop) : Prop := ∀ t a u, p t = some (a, u) → P a

namespace Yields

section

omit [DecidableEq τ]

theorem bind {f : α → Parser τ β} (hp : Yields p P) (hf : ∀ a, P a → Yields (f a) Q) :
    Yields (bind p f) Q := by
  intro t b u h
  obtain ⟨⟨a, v⟩, hpt, hfv⟩ := Option.bind_eq_some_iff.mp h
  exact hf a (hp t a v hpt) v b u hfv

theorem map {f : α → β} (hp : Yields p P) (hf : ∀ a, P a → Q (f a)) : Yields (map f p) Q := by
  intro t b u h
  obtain ⟨⟨a, v⟩, hpt, hfv⟩ := Option.map_eq_some_iff.mp h
  cases hfv
  exact hf a (hp t a v hpt)

theorem tryMap {f : α → Option β} (hp : Yields p P) (hf : ∀ a b, P a → f a = some b → Q b) :
    Yields (tryMap f p) Q := by
  intro t b u h
  obtain ⟨⟨a, v⟩, hpt, hfv⟩ := Option.bind_eq_some_iff.mp h
  obtain ⟨c, hc, hcb⟩ := Option.map_eq_some_iff.mp hfv
  cases hcb
  exact hf a _ (hp t a v hpt) hc

theorem alt (hp : Yields p P) (hq : Yields q P) : Yields (alt p q) P := by
  intro t a u h
  rcases Option.or_eq_some_iff.mp h with h | ⟨-, h⟩
  · exact hp t a u h
  · exact hq t a u h

theorem opt (hp : Yields p P) : Yields (opt p) fun o => ∀ a ∈ o, P a := by
  intro t o u h a ha
  rw [Grammar.opt] at h
  cases hpt : p t with
  | none =>
    simp only [hpt, Option.map_none, Option.getD_none, Option.some.injEq, Prod.mk.injEq] at h
    rw [← h.1] at ha
    cases ha
  | some r =>
    simp only [hpt, Option.map_some, Option.getD_some, Option.some.injEq, Prod.mk.injEq] at h
    rw [← h.1] at ha
    cases ha
    exact hp t _ r.2 hpt

theorem takeWhile (f : τ → Bool) : Yields (takeWhile f) fun l => l.all f = true := by
  intro t a u h
  cases h
  exact List.all_takeWhile

theorem oneOf (f : τ → Bool) : Yields (oneOf f) fun c => f c = true := by
  intro t a u h
  cases t with
  | nil => cases h
  | cons c t =>
    simp only [Grammar.oneOf, Option.ite_none_right_eq_some, Option.some.injEq,
      Prod.mk.injEq] at h
    exact h.2.1 ▸ h.1

end

theorem preceded {s : List τ} (hp : Yields p P) : Yields (preceded s p) P := by
  intro t a u h
  obtain ⟨⟨_, v⟩, -, hpv⟩ := Option.bind_eq_some_iff.mp h
  exact hp v a u hpv

theorem terminated {s : List τ} (hp : Yields p P) : Yields (terminated p s) P := by
  intro t a u h
  obtain ⟨⟨b, v⟩, hpt, hlit⟩ := Option.bind_eq_some_iff.mp h
  obtain ⟨_, -, hb⟩ := Option.map_eq_some_iff.mp hlit
  cases hb
  exact hp t _ v hpt

theorem more {sep : τ} (hp : Yields p P) (fuel : Nat) (t : List τ) :
    ∀ a ∈ (more p sep fuel t).1, P a := by
  induction fuel generalizing t with
  | zero => cases t <;> simp [Grammar.more]
  | succ fuel ih =>
    cases t with
    | nil => simp [Grammar.more]
    | cons c t =>
      rw [Grammar.more]
      split
      · cases hpt : p t with
        | none => simp
        | some r => simpa using ⟨hp t r.1 r.2 hpt, ih r.2⟩
      · simp

theorem separated {sep : τ} (hp : Yields p P) :
    Yields (separated p sep) fun l => l ≠ [] ∧ ∀ a ∈ l, P a := by
  intro t l u h
  obtain ⟨⟨a, v⟩, hpt, hl⟩ := Option.map_eq_some_iff.mp h
  cases hl
  refine ⟨List.cons_ne_nil _ _, fun b hb => ?_⟩
  rcases List.mem_cons.mp hb with rfl | hb
  · exact hp t _ v hpt
  · exact hp.more v.length v b hb

end Yields

end

/-! ## Lists -/

section

variable {p : Parser τ α} {sep stop : τ}

theorem more_fuel (hp : ∀ t a u, p t = some (a, u) → u.length ≤ t.length) {f g : Nat}
    {t : List τ} (hf : t.length ≤ f) (hg : t.length ≤ g) : more p sep f t = more p sep g t := by
  induction f generalizing g t with
  | zero =>
    rw [List.length_eq_zero_iff.mp (Nat.le_zero.mp hf)]
    cases g <;> rfl
  | succ f ih =>
    match t, g with
    | [], 0 => rfl
    | [], g + 1 => rfl
    | c :: t, 0 => simp at hg
    | c :: t, g + 1 =>
      rw [more, more]
      split
      · cases hpt : p t with
        | none => rfl
        | some q =>
          have hle := hp t q.1 q.2 hpt
          simp only [List.length_cons] at hf hg
          have hsame : more p sep f q.2 = more p sep g q.2 := ih (by omega) (by omega)
          simp only [hsame]
      · rfl

theorem more_sep (hp : ∀ t a u, p t = some (a, u) → u.length ≤ t.length) {f : Nat} {t : List τ}
    (hf : t.length < f) : more p sep f (sep :: t) = (separated p sep t).getD ([], sep :: t) := by
  obtain ⟨f, rfl⟩ : ∃ k, f = k + 1 := ⟨f - 1, by omega⟩
  rw [more, if_pos rfl, separated]
  cases hpt : p t with
  | none => rfl
  | some q =>
    have hle := hp t q.1 q.2 hpt
    have hsame : more p sep f q.2 = more p sep q.2.length q.2 :=
      more_fuel hp (by omega) (le_refl _)
    simp only [hsame, Option.map_some, Option.getD_some]

theorem more_other {f : Nat} {t : List τ} (h : ∀ c ∈ t.head?, c ≠ sep) :
    more p sep f t = ([], t) := by
  match f, t with
  | _, [] => rw [more]
  | 0, c :: t => rw [more]; nofun
  | f + 1, c :: t => rw [more, if_neg (h c rfl)]

omit [DecidableEq τ] in
theorem Local.length_le (h : Local stop p) (t : List τ) (a : α) (u : List τ)
    (hp : p t = some (a, u)) : u.length ≤ t.length :=
  (h.suffix t a u hp).length_le

theorem more_suffix (hp : Local stop p) (f : Nat) (t : List τ) : (more p sep f t).2 <:+ t := by
  induction f generalizing t with
  | zero => cases t <;> exact List.suffix_refl _
  | succ f ih =>
    cases t with
    | nil => exact List.suffix_refl _
    | cons c t =>
      rw [more]
      split
      · cases hpt : p t with
        | none => exact List.suffix_refl _
        | some q =>
          exact (ih q.2).trans
            ((hp.suffix t q.1 q.2 hpt).trans (List.suffix_cons c t))
      · exact List.suffix_refl _

theorem more_stops (hp : Local stop p) (hne : stop ≠ sep) {f : Nat} {t r : List τ}
    (ht : stop ∉ t) (hf : t.length ≤ f) : more p sep f (t ++ stop :: r) =
      ((more p sep f t).1, (more p sep f t).2 ++ stop :: r) := by
  induction f generalizing t with
  | zero =>
    rw [List.length_eq_zero_iff.mp (Nat.le_zero.mp hf)]
    rfl
  | succ f ih =>
    cases t with
    | nil => simp [more, hne]
    | cons c t =>
      have hnot : stop ∉ t := fun hm => ht (List.mem_cons_of_mem c hm)
      rw [List.cons_append, more, more]
      split
      · rw [hp.stops t r hnot]
        cases hpt : p t with
        | none => rfl
        | some q =>
          have hle := hp.length_le t q.1 q.2 hpt
          have hrest := ih (hp.not_mem hnot hpt)
            (hle.trans (Nat.le_of_succ_le_succ hf))
          simp only [Option.map_some, hrest]
      · rfl

theorem Local.separated (hp : Local stop p) (hne : stop ≠ sep) : Local stop (separated p sep) where
  suffix t l u h := by
    obtain ⟨⟨a, v⟩, hpt, hl⟩ := Option.map_eq_some_iff.mp h
    cases hl
    exact (more_suffix hp v.length v).trans (hp.suffix t a v hpt)
  stops t r ht := by
    rw [Grammar.separated, Grammar.separated, hp.stops t r ht]
    cases hpt : p t with
    | none => rfl
    | some q =>
      obtain ⟨a, u⟩ := q
      have hnot := hp.not_mem ht hpt
      have hfuel : more p sep (u ++ stop :: r).length (u ++ stop :: r) =
          ((more p sep u.length u).1, (more p sep u.length u).2 ++ stop :: r) := by
        rw [more_stops hp hne hnot (by simp), more_fuel hp.length_le (by simp) (le_refl _)]
      simp only [Option.map_some, hfuel]

theorem whole_separated_single (hp : Local sep p) {t : List τ} (hnot : sep ∉ t) :
    whole (separated p sep) t = (whole p t).map ([·]) := by
  rw [whole, separated]
  cases hpt : p t with
  | none => simp [whole, hpt]
  | some q =>
    obtain ⟨a, u⟩ := q
    have hother : ∀ c ∈ u.head?, c ≠ sep := by
      rintro c hc rfl
      exact hp.not_mem hnot hpt (List.mem_of_mem_head? hc)
    rw [Option.map_some, more_other hother]
    cases u <;> simp [whole, hpt]

theorem whole_separated_append (hp : Local sep p) {t r : List τ} (hnot : sep ∉ t) :
    whole (separated p sep) (t ++ sep :: r) =
      (whole p t).bind fun a => (whole (separated p sep) r).map (a :: ·) := by
  rw [whole, separated, hp.stops t r hnot]
  cases hpt : p t with
  | none => simp [whole, hpt]
  | some q =>
    obtain ⟨a, u⟩ := q
    simp only [Option.map_some]
    cases u with
    | nil =>
      have hmore := @more_sep _ _ _ p sep hp.length_le _ r (Nat.lt_succ_self r.length)
      simp only [List.nil_append, List.length_cons, hmore, whole, hpt, Option.bind_some]
      cases separated p sep r with
      | none => rfl
      | some l => obtain ⟨as, v⟩ := l; cases v <;> rfl
    | cons c u =>
      have hother : ∀ d ∈ (c :: u ++ sep :: r).head?, d ≠ sep := by
        rintro d hd rfl
        cases hd
        exact hp.not_mem hnot hpt List.mem_cons_self
      rw [more_other hother]
      simp [whole, hpt]

theorem separated_whole (hp : Local sep p) (t : List τ) :
    whole (separated p sep) t = (t.splitOn sep).mapM (whole p) := by
  induction hn : t.length using Nat.strong_induction_on generalizing t with
  | _ n ih =>
    by_cases hm : sep ∈ t
    · obtain ⟨a, r, rfl, ha⟩ := List.eq_append_cons_of_mem hm
      have hr : whole (separated p sep) r = (r.splitOn sep).mapM (whole p) :=
        ih r.length (by simp only [List.length_append, List.length_cons] at hn; omega) r rfl
      rw [whole_separated_append hp ha, List.splitOn_append_cons_self_of_not_mem ha,
        List.mapM_cons, hr]
      cases whole p a with
      | none => rfl
      | some x => cases (r.splitOn sep).mapM (whole p) <;> rfl
    · rw [whole_separated_single hp hm, List.splitOn_eq_singleton hm]
      cases hw : whole p t <;> simp [hw]

section

omit [DecidableEq τ]

theorem not_mem_intercalate {c : τ} (hne : c ≠ sep) {ts : List (List τ)} (h : ∀ t ∈ ts, c ∉ t) :
    c ∉ [sep].intercalate ts := by
  induction ts with
  | nil => simp
  | cons t ts ih =>
    have hts := ih fun s hs => h s (List.mem_cons_of_mem _ hs)
    cases ts with
    | nil => simpa using h t List.mem_cons_self
    | cons t' ts =>
      rw [List.intercalate_cons_cons]
      simp [h t List.mem_cons_self, hne, hts]

theorem mapM_some {γ : Type} {k : γ → Option β} {l : List γ} {m : List β}
    (h : l.mapM k = some m) :
    (∀ a ∈ l, ∃ b ∈ m, k a = some b) ∧ ∀ b ∈ m, ∃ a ∈ l, k a = some b := by
  induction l generalizing m with
  | nil =>
    cases h
    exact ⟨nofun, nofun⟩
  | cons a l ih =>
    rw [List.mapM_cons] at h
    obtain ⟨b, hb, h⟩ := Option.bind_eq_some_iff.mp h
    obtain ⟨m, hm, h⟩ := Option.bind_eq_some_iff.mp h
    cases h
    obtain ⟨h1, h2⟩ := ih hm
    constructor
    · rintro x (_ | ⟨_, hx⟩)
      · exact ⟨b, List.mem_cons_self, hb⟩
      · obtain ⟨y, hy, hxy⟩ := h1 x hx
        exact ⟨y, List.mem_cons_of_mem _ hy, hxy⟩
    · rintro y (_ | ⟨_, hy⟩)
      · exact ⟨a, List.mem_cons_self, hb⟩
      · obtain ⟨x, hx, hxy⟩ := h2 y hy
        exact ⟨x, List.mem_cons_of_mem _ hx, hxy⟩

theorem mapM_eq_some_map {γ : Type} {k : List τ → Option α} {f : γ → List τ} {g : γ → α}
    {l : List γ} : (l.map f).mapM k = some (l.map g) ↔ ∀ x ∈ l, k (f x) = some (g x) := by
  induction l with
  | nil => simp
  | cons x l ih =>
    rw [List.map_cons, List.map_cons, List.mapM_cons, List.forall_mem_cons, ← ih]
    cases k (f x) with
    | none => simp
    | some a => cases (l.map f).mapM k <;> simp

end

theorem separated_intercalate {γ : Type} (hp : Local sep p) {f : γ → List τ} {g : γ → α}
    {l : List γ} (hne : l ≠ []) (hnot : ∀ x ∈ l, sep ∉ f x) :
    separated p sep ([sep].intercalate (l.map f)) = some (l.map g, []) ↔
      ∀ x ∈ l, p (f x) = some (g x, []) := by
  have htexts : ∀ t ∈ l.map f, sep ∉ t := by
    intro t ht
    obtain ⟨x, hx, rfl⟩ := List.mem_map.mp ht
    exact hnot x hx
  rw [← whole_eq_some, separated_whole hp,
    List.splitOn_intercalate sep htexts (List.map_eq_nil_iff.not.mpr hne), mapM_eq_some_map]
  exact forall₂_congr fun x _ => whole_eq_some

end

end

end Hardy.Grammar
