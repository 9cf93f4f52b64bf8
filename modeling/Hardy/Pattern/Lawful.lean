import Hardy.Keyed
import Hardy.Pattern.Inclusion
import Hardy.Pattern.Ordered

/-!
# Maps under parsed patterns

The comparison is a linear order of the patterns that the parser yields, so a map under them has
the entries that the operations on it gave it, and no others (`EidPattern.parsed_keys`).
-/

namespace Hardy.EidPattern

open Sorted

section

variable [Crates] [GlobSyntax]

def Parsed (p : EidPattern) : Prop := ∃ s, fromStr s = some p

theorem Parsed.canonical {p : EidPattern} (h : p.Parsed) : p.Canonical := by
  obtain ⟨s, hs⟩ := h
  cases p with
  | any => trivial
  | set items => exact fun i hi => (fromStr_items hs i hi).1

theorem parsed_linear : Linear Parsed :=
  .of_eq fun _ _ hp hq => eq_of_compare hp.canonical hq.canonical

/-- Under a linear order a map keeps what it is given: no entry is lost, none is merged with
another, and none is there twice. -/
theorem parsed_keys {ν : Type} : Linear Parsed ∧
    ∀ ops : List (MapOp EidPattern ν), (∀ op ∈ ops, Parsed op.key) →
      Represents Parsed (ops.foldl MapOp.denote fun _ => none) (ops.foldl MapOp.run []) :=
  ⟨parsed_linear, fun _ hops => (Represents.nil parsed_linear).foldl parsed_linear hops⟩

end

namespace Spans

local instance : Crates := .reference
local instance : GlobSyntax := ⟨fun _ => true⟩

/-- A route to all services, one to a single service, and the withdrawal of the first. -/
def routes : List (MapOp EidPattern Nat) :=
  [.upsert (.set [.ipn ⟨.single 0, .single 3, .wildcard⟩]) fun _ => 7,
    .upsert (.set [.ipn ⟨.single 0, .single 3, .single 4⟩]) fun _ => 8,
    .update (.set [.ipn ⟨.single 0, .single 3, .wildcard⟩]) fun _ => none]

theorem routes_kept : Represents Parsed (routes.foldl MapOp.denote fun _ => none)
    [(.set [.ipn ⟨.single 0, .single 3, .single 4⟩], 8)] := by
  have hall : Parsed (.set [.ipn ⟨.single 0, .single 3, .wildcard⟩]) := ⟨allServices, by decide⟩
  have hone : Parsed (.set [.ipn ⟨.single 0, .single 3, .single 4⟩]) := ⟨oneService, by decide⟩
  have hrun := parsed_keys.2 routes <| by
    rintro op hop
    simp only [routes, List.mem_cons, List.not_mem_nil, or_false] at hop
    rcases hop with rfl | rfl | rfl
    · exact hall
    · exact hone
    · exact hall
  have hkept : routes.foldl MapOp.run [] =
      [(.set [.ipn ⟨.single 0, .single 3, .single 4⟩], 8)] := by decide
  exact hkept ▸ hrun

end Spans

end Hardy.EidPattern
