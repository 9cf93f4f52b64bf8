import Std.Data.TreeMap.Lemmas
import Mathlib.Data.List.Basic

/-!
# Orders by codes

A comparison is that of codes, lists of integers of which none ends where another goes
on, if it can be read off from the front of any two lists that begin with codes
(`compare_append`).  Such comparisons put together to comparisons of lists, of records
and of alternatives, and each of them is the comparison of a total preorder.
-/

namespace Hardy

class Coded (α : Type) [Ord α] where
  code : α → List Int
  compare_append : ∀ (a b : α) (r r' : List Int),
    compare (code a ++ r) (code b ++ r') = (compare a b).then (compare r r')

namespace Coded

variable {α β : Type} [Ord α] [Coded α] [Ord β]

theorem compare_cons (i j : Int) (r r' : List Int) :
    compare (i :: r) (j :: r') = (compare i j).then (compare r r') :=
  List.compareLex_cons_cons

theorem compare_same (i : Int) (o : Ordering) : (compare i i).then o = o := by
  rw [Std.compare_eq_iff_eq.mpr rfl]
  rfl

/-! The comparison that a structure or an alternative derives ends in `Ordering.eq`. -/

theorem then_single {o o' : Ordering} : (o.then .eq).then o' = o.then o' := by
  rw [Ordering.then_eq]

theorem then_then {o o' o'' : Ordering} :
    (o.then (o'.then .eq)).then o'' = o.then (o'.then o'') := by
  rw [Ordering.then_eq, Ordering.then_assoc]

theorem compare_code (a b : α) : compare (code a) (code b) = compare a b := by
  have h := compare_append a b [] []
  rw [List.append_nil, List.append_nil] at h
  rw [h]
  cases compare a b <;> rfl

instance : Std.TransOrd α where
  eq_swap {a b} := by
    rw [← compare_code, ← compare_code b]
    exact Std.OrientedCmp.eq_swap
  isLE_trans {a b c} hab hbc := by
    rw [← compare_code] at hab hbc ⊢
    exact Std.TransCmp.isLE_trans hab hbc

/-! ## Numbers -/

instance : Coded Nat where
  code n := [(n : Int)]
  compare_append a b r r' := by
    rw [List.singleton_append, List.singleton_append, compare_cons]
    congr 1
    rw [Int.compare_eq_ite_lt, Nat.compare_eq_ite_lt]
    simp only [Int.ofNat_lt]

instance : Coded UInt8 where
  code n := [(n.toNat : Int)]
  compare_append a b r r' := by
    rw [List.singleton_append, List.singleton_append, compare_cons]
    congr 1
    rw [Int.compare_eq_ite_lt]
    change _ = compareOfLessAndEq a b
    unfold compareOfLessAndEq
    simp only [Int.ofNat_lt, UInt8.lt_iff_toNat_lt, ← UInt8.toNat_inj]
    split
    · rfl
    · split <;> split <;> first | rfl | omega

/-! ## Lists -/

def codeList : List α → List Int
  | [] => [0]
  | a :: l => 1 :: (code a ++ codeList l)

theorem compare_codeList (l l' : List α) (r r' : List Int) :
    compare (codeList l ++ r) (codeList l' ++ r') = (compare l l').then (compare r r') := by
  induction l generalizing l' with
  | nil =>
    cases l' with
    | nil => exact compare_cons 0 0 r r'
    | cons b l' => exact compare_cons 0 1 r _
  | cons a l ih =>
    cases l' with
    | nil => exact compare_cons 1 0 _ r'
    | cons b l' =>
      have hlist : compare (a :: l) (b :: l') = (compare a b).then (compare l l') :=
        List.compareLex_cons_cons
      rw [hlist, codeList, codeList, List.cons_append, List.cons_append, compare_cons,
        List.append_assoc, List.append_assoc, compare_append, ih, Ordering.then_assoc]
      rfl

instance : Coded (List α) := ⟨codeList, compare_codeList⟩

end Coded

end Hardy
