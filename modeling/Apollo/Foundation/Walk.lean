import Mathlib.Algebra.Notation.Defs

/-! Walks in a graph with weighted edges. -/
namespace Apollo.Foundation
variable {V C : Type}

/-- Walks from a source with the sum of their weights. -/
inductive Walk [Add C] [Zero C] (edge : V → V → C → Prop) (source : V) : V → C → Prop
  | nil : Walk edge source source 0
  | snoc {u v : V} {c w : C} : Walk edge source u c → edge u v w → Walk edge source v (c+w)

section Walks
variable [Add C] [Zero C] {edge : V → V → C → Prop} {source v : V} {c : C}

theorem Walk.mem_of_closed (known : V → Prop) (hsource : known source)
    (hedge : ∀ u v w, known u → edge u v w → known v) (h : Walk edge source v c) : known v := by
  induction h with
  | nil => exact hsource
  | snoc _ he ih => exact hedge _ _ _ ih he

end Walks

end Apollo.Foundation
