import Mathlib.Data.List.Sort
import Hardy.Bpsec.KeyPolicy
import Hardy.Pattern.Specificity

/-!
# The order of key bindings

`PatternKeySource::new` of `bpa-server/src/bpsec.rs` sorts the bindings by the specificity scores of
their patterns, and `key` asks the first one that matches.  Scores are rounded, bindings with the
same score stay in the order of the configuration, and a pattern without a score counts as the
broadest: `PatternKeySource.decides_iff` says when no narrower binding is passed over for the one
that is asked.
-/

namespace Hardy.Bpsec

/-! ## The first match of a stable sort -/

section Sorting

variable {α : Type} {r : α → α → Prop} [DecidableRel r] {p : α → Bool} {a c : α} {l : List α}

theorem find?_orderedInsert_of_not (ha : p a = false) :
    (l.orderedInsert r a).find? p = l.find? p := by
  induction l with
  | nil => simp [ha]
  | cons b l ih =>
    rw [List.orderedInsert_cons]
    split
    · rw [List.find?_cons_of_neg (by simp [ha])]
    · simp only [List.find?_cons, ih]

theorem find?_orderedInsert_of_pos [IsTrans α r] (ha : p a = true) (hl : l.Pairwise r) :
    (l.orderedInsert r a).find? p = some c ↔
      (c = a ∧ ∀ b, l.find? p = some b → r a b) ∨ (l.find? p = some c ∧ ¬ r a c) := by
  induction l with
  | nil => simp [ha, eq_comm]
  | cons b l ih =>
    obtain ⟨hb, hl⟩ := List.pairwise_cons.mp hl
    rw [List.orderedInsert_cons]
    split
    · next hab =>
        have hall : ∀ d ∈ b :: l, r a d := fun d hd =>
          (List.mem_cons.mp hd).elim (fun h => h ▸ hab) fun h => Trans.trans hab (hb d h)
        have hfound : ∀ d, (b :: l).find? p = some d → r a d :=
          fun d hd => hall d (List.mem_of_find?_eq_some hd)
        rw [List.find?_cons_of_pos ha]
        constructor
        · rintro ⟨rfl⟩
          exact .inl ⟨rfl, hfound⟩
        · rintro (⟨rfl, -⟩ | ⟨hc, hnot⟩)
          · rfl
          · exact absurd (hfound c hc) hnot
    · next hab =>
        by_cases hpb : p b = true
        · rw [List.find?_cons_of_pos hpb, List.find?_cons_of_pos hpb]
          constructor
          · rintro ⟨rfl⟩
            exact .inr ⟨rfl, hab⟩
          · rintro (⟨-, h⟩ | ⟨h, -⟩)
            · exact absurd (h b rfl) hab
            · exact h
        · rw [List.find?_cons_of_neg hpb, List.find?_cons_of_neg hpb]
          exact ih hl

omit [DecidableRel r] in
theorem rel_of_find? [Std.Refl r] (hl : l.Pairwise r) (hc : l.find? p = some c) {b : α}
    (hb : b ∈ l) (hpb : p b = true) : r c b := by
  obtain ⟨-, before, after, rfl, hbefore⟩ := List.find?_eq_some_iff_append.mp hc
  rcases List.mem_append.mp hb with hb | hb
  · simpa [hpb] using hbefore b hb
  · rcases List.mem_cons.mp hb with rfl | hb
    · exact refl_of r b
    · exact (List.pairwise_cons.mp (List.pairwise_append.mp hl).2.1).1 b hb

theorem find?_insertionSort [Std.Total r] [IsTrans α r] :
    (l.insertionSort r).find? p = some c ↔
      ∃ before after, l = before ++ c :: after ∧ p c = true ∧
        (∀ b ∈ before, p b = true → ¬ r b c) ∧ ∀ b ∈ after, p b = true → r c b := by
  induction l with
  | nil => simp
  | cons a l ih =>
    have hsorted := List.pairwise_insertionSort r l
    rw [List.insertionSort_cons]
    by_cases ha : p a = true
    · have hall : (∀ b, (l.insertionSort r).find? p = some b → r a b) ↔
          ∀ b ∈ l, p b = true → r a b := by
        constructor
        · intro h b hb hpb
          have hb := (List.mem_insertionSort r).mpr hb
          obtain ⟨d, hd⟩ := Option.isSome_iff_exists.mp
            (List.find?_isSome.mpr ⟨b, hb, hpb⟩)
          exact Trans.trans (h d hd) (rel_of_find? hsorted hd hb hpb)
        · exact fun h b hb => h b ((List.mem_insertionSort r).mp (List.mem_of_find?_eq_some hb))
            (List.find?_some hb)
      rw [find?_orderedInsert_of_pos ha hsorted, hall, ih]
      constructor
      · rintro (⟨rfl, h⟩ | ⟨⟨before, after, rfl, hc, hbefore, hafter⟩, hac⟩)
        · exact ⟨[], l, rfl, ha, by simp, h⟩
        · refine ⟨a :: before, after, rfl, hc, ?_, hafter⟩
          simpa [ha, hac] using hbefore
      · rintro ⟨_ | ⟨d, before⟩, after, hl, hc, hbefore, hafter⟩
        · obtain ⟨rfl, rfl⟩ := List.cons.inj hl
          exact .inl ⟨rfl, hafter⟩
        · obtain ⟨rfl, rfl⟩ := List.cons.inj hl
          obtain ⟨hac, hbefore⟩ := List.forall_mem_cons.mp hbefore
          exact .inr ⟨⟨before, after, rfl, hc, hbefore, hafter⟩, hac ha⟩
    · rw [find?_orderedInsert_of_not (Bool.eq_false_iff.mpr ha), ih]
      constructor
      · rintro ⟨before, after, rfl, hc, hbefore, hafter⟩
        refine ⟨a :: before, after, rfl, hc, ?_, hafter⟩
        simpa [ha] using hbefore
      · rintro ⟨_ | ⟨d, before⟩, after, hl, hc, hbefore, hafter⟩
        · obtain ⟨rfl, rfl⟩ := List.cons.inj hl
          exact absurd hc ha
        · obtain ⟨rfl, rfl⟩ := List.cons.inj hl
          exact ⟨before, after, rfl, hc, (List.forall_mem_cons.mp hbefore).2, hafter⟩

end Sorting

/-! ## The binding that is asked -/

def KeyBinding.Scores (b c : KeyBinding) : Prop := c.pattern.score ≤ b.pattern.score

instance : DecidableRel KeyBinding.Scores := fun _ _ => inferInstanceAs (Decidable (_ ≤ _))

instance : Std.Total KeyBinding.Scores := ⟨fun _ _ => Nat.le_total _ _⟩

instance : IsTrans KeyBinding KeyBinding.Scores := ⟨fun _ _ _ h h' => Nat.le_trans h' h⟩

namespace PatternKeySource

def new (keys : String → Option Key) (bindings : List KeyBinding) : PatternKeySource where
  keys := keys
  bindings := bindings.insertionSort KeyBinding.Scores

variable [Globs]

/-- The binding that `key` asks. -/
def consulted (p : PatternKeySource) (source : Eid) : Option KeyBinding :=
  p.bindings.find? (·.pattern.matches source)

theorem key_consulted (p : PatternKeySource) (source : Eid) (operations : List KeyOperation) :
    p.key source operations = match p.consulted source with
      | some binding =>
        if !operations.any binding.role.serves then none
        else binding.kids.findSome? (p.offer binding.role operations)
      | none => none := rfl

def Decides (keys : String → Option Key) (bindings : List KeyBinding) (source : Eid) : Prop :=
  ∀ binding, (new keys bindings).consulted source = some binding →
    binding.pattern.matches source = true ∧
      ∀ b ∈ bindings, b.pattern.matches source = true → ¬ b.pattern.StrictlyWithin binding.pattern

/-- The most specific binding decides iff each binding that is broader than another one for the
source is after some binding for it, by its score or its place in the configuration. -/
theorem decides_iff (keys : String → Option Key) (bindings : List KeyBinding) (source : Eid) :
    Decides keys bindings source ↔
      ∀ before c after, bindings = before ++ c :: after → c.pattern.matches source = true →
        (∃ b ∈ bindings, b.pattern.matches source = true ∧ b.pattern.StrictlyWithin c.pattern) →
        (∃ d ∈ before, d.pattern.matches source = true ∧ c.pattern.score ≤ d.pattern.score) ∨
          ∃ d ∈ after, d.pattern.matches source = true ∧ c.pattern.score < d.pattern.score := by
  have hfind : ∀ c, (new keys bindings).consulted source = some c ↔ _ :=
    fun c => find?_insertionSort (r := KeyBinding.Scores)
  constructor
  · rintro h before c after hl hc ⟨b, hb, hbm, hwithin⟩
    by_contra hno
    push Not at hno
    refine (h c ((hfind c).mpr ⟨before, after, hl, hc, ?_, ?_⟩)).2 b hb hbm hwithin
    · exact fun d hd hdm => Nat.not_le.mpr (hno.1 d hd hdm)
    · exact fun d hd hdm => hno.2 d hd hdm
  · intro h c hc
    obtain ⟨before, after, hl, hcm, hbefore, hafter⟩ := (hfind c).mp hc
    refine ⟨hcm, fun b hb hbm hwithin => ?_⟩
    rcases h before c after hl hcm ⟨b, hb, hbm, hwithin⟩ with ⟨d, hd, hdm, hle⟩ | ⟨d, hd, hdm, hlt⟩
    · exact hbefore d hd hdm hle
    · exact Nat.not_le.mpr hlt (hafter d hd hdm)

end PatternKeySource

/-! ## Two ranges of services with one score -/

section

local instance literalGlobs : Globs := .literal

open EidPattern.NodeThree (services)

def releasing : KeyBinding := ⟨services (.range [.range 4 7]), .acceptor, ["cipher"]⟩

/-- `ipn:3.[5-7]`, which may only verify. -/
def withholding : KeyBinding := ⟨services (.range [.range 5 7]), .verifier, ["cipher"]⟩

/-- The broader binding is asked, and releases the key that the narrower one withholds. -/
theorem broader_decides :
    withholding.pattern.StrictlyWithin releasing.pattern ∧
      (PatternKeySource.new (boundKeys []).keys [releasing, withholding]).consulted
        (.ipn ⟨0, 3⟩ 5) = some releasing ∧
      (PatternKeySource.new (boundKeys []).keys [releasing, withholding]).key
        (.ipn ⟨0, 3⟩ 5) [.decrypt] = some wrappingCipher ∧
      (PatternKeySource.new (boundKeys []).keys [withholding]).key
        (.ipn ⟨0, 3⟩ 5) [.decrypt] = none ∧
      ¬ PatternKeySource.Decides (boundKeys []).keys [releasing, withholding] (.ipn ⟨0, 3⟩ 5) := by
  have hwithin : withholding.pattern.StrictlyWithin releasing.pattern := by
    refine EidPattern.NodeThree.strictlyWithin_services (v := 4) (by simp [Eid.u32Max])
      (fun v hv => ?_) rfl rfl
    simp only [IpnPattern.matches, IpnInterval.matches, List.any_cons, List.any_nil,
      Bool.or_false, Bool.and_eq_true, decide_eq_true_eq] at hv ⊢
    omega
  have hconsulted : (PatternKeySource.new (boundKeys []).keys [releasing, withholding]).consulted
      (.ipn ⟨0, 3⟩ 5) = some releasing := by
    refine find?_insertionSort.mpr ⟨[], [withholding], rfl, by decide, by simp, ?_⟩
    intro b hb _
    rw [List.mem_singleton.mp hb]
    decide
  refine ⟨hwithin, hconsulted, ?_, ?_, fun h => ?_⟩
  · rw [PatternKeySource.key_consulted, hconsulted]
    rfl
  · rfl
  · exact (h releasing hconsulted).2 withholding (by simp) (by decide) hwithin

end

end Hardy.Bpsec
