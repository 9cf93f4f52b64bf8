import Hardy.Parse.Tiled
import Hardy.Prefix

/-!
# Bundles one behind the other

No bundle goes on as another one, so the bundles of a stream can be told apart by the
parser alone.
-/

namespace Hardy

section

variable [Crates] [HashOrder]

theorem Completes.longer {b e : Bytes} {f f' : Finished} (h : Completes b f)
    (h' : Completes (b ++ e) f') : e = [] := by
  obtain ⟨w, c, hr, hp⟩ := h
  by_contra he
  have hdead : Dead w ⟨c.st, c.rest ++ e⟩ := PayloadAt.dead_of_longer hp he
  exact hdead.not_completes (Scan.Rounds.extend (round_extends 0) hr e) f' h'

def IsBundle (b : Bytes) : Prop := ∃ p, parse b = .ok p

theorem isBundle_prefixFree : PrefixFree IsBundle where
  nonempty := by
    rintro ⟨p, hp⟩
    obtain ⟨f, hf, -⟩ := parse_ok.mp hp
    obtain ⟨l, payload, hc⟩ := hf.complete
    exact absurd hc.length (by simp)
  longer := by
    rintro b e ⟨p, hp⟩ ⟨p', hp'⟩
    obtain ⟨f, hf, -⟩ := parse_ok.mp hp
    obtain ⟨f', hf', -⟩ := parse_ok.mp hp'
    exact hf.longer hf'

/-- Bundles that follow each other are told apart, and no bundle begins another one. -/
theorem bundles_told_apart :
    (∀ bs bs' : List Bytes, (∀ b ∈ bs, IsBundle b) → (∀ b ∈ bs', IsBundle b) →
      bs.flatten = bs'.flatten → bs = bs') ∧
    ∀ b e : Bytes, IsBundle b → e ≠ [] → ¬ IsBundle (b ++ e) :=
  ⟨fun _ _ hbs hbs' => isBundle_prefixFree.flatten_inj hbs hbs',
    fun b e hb he hlonger => he (isBundle_prefixFree.longer b e hb hlonger)⟩

end

theorem hopCountBundle_longer :
    (∀ bs, (∀ b ∈ bs, @IsBundle .reference .sorted b) →
      bs.flatten = hopCountBundle ++ hopCountBundle → bs = [hopCountBundle, hopCountBundle]) ∧
    ¬ @IsBundle .reference .sorted (hopCountBundle ++ [0xFF]) := by
  have hok : (@parse .reference .sorted hopCountBundle).toOption.isSome = true := by
    decide +kernel
  cases h : @parse .reference .sorted hopCountBundle with
  | error x => rw [h] at hok; cases hok
  | ok p =>
    have hb : @IsBundle .reference .sorted hopCountBundle := ⟨p, h⟩
    obtain ⟨htold, hlonger⟩ := @bundles_told_apart .reference .sorted
    refine ⟨fun bs hbs hflat => htold bs _ hbs ?_ (hflat.trans ?_), hlonger _ _ hb nofun⟩
    · exact List.forall_mem_cons.mpr ⟨hb, List.forall_mem_singleton.mpr hb⟩
    · rw [List.flatten_cons, List.flatten_singleton]

end Hardy
