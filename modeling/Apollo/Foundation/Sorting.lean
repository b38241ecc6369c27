import Mathlib.Data.List.Sort

/-! Sorting routines that are only known by their contract, such as `std::sort`, and scans of sorted lists
that stop early. -/
namespace Apollo.Foundation
open List

/-- A routine that sorts by any strict weak order. Equivalent elements may come in any order. -/
structure Sorting (α : Type) where
  sort : (α → α → Bool) → List α → List α
  perm : ∀ lt l, (sort lt l).Perm l
  sorted : ∀ (lt : α → α → Bool) l, (∀ a b, lt a b = true → lt b a = false) →
    (∀ a b c, lt b a = false → lt c b = false → lt c a = false) →
    (sort lt l).Pairwise fun a b => lt b a = false

namespace Sorting
variable {α K : Type} [LinearOrder K]

theorem ascending (routine : Sorting α) (key : α → K) (l : List α) :
    (routine.sort (fun a b => decide (key a < key b)) l).Pairwise fun a b => key a ≤ key b := by
  have h := routine.sorted (fun a b => decide (key a < key b)) l ?_ ?_
  · apply h.imp
    intro _ _ hab
    exact not_lt.mp (of_decide_eq_false hab)
  · intro _ _ hab
    exact decide_eq_false (lt_asymm (of_decide_eq_true hab))
  · intro _ _ _ hab hbc
    have hle := le_trans (not_lt.mp (of_decide_eq_false hab)) (not_lt.mp (of_decide_eq_false hbc))
    exact decide_eq_false (not_lt.mpr hle)

theorem descending (routine : Sorting α) (key : α → K) (l : List α) :
    (routine.sort (fun a b => decide (key b < key a)) l).Pairwise fun a b => key b ≤ key a :=
  routine.ascending (OrderDual.toDual ∘ key) l

def insertion (α : Type) : Sorting α where
  sort lt l := l.insertionSort fun a b => lt b a = false
  perm lt l := perm_insertionSort (fun a b => lt b a = false) l
  sorted lt l hasymm htrans := by
    have htotal : Std.Total fun a b => lt b a = false := by
      constructor
      intro a b
      cases hba : lt b a with
      | false => exact .inl rfl
      | true => exact .inr (hasymm b a hba)
    have : IsTrans α fun a b => lt b a = false := ⟨htrans⟩
    exact pairwise_insertionSort (fun a b => lt b a = false) l

end Sorting

theorem filter_takeWhile {α : Type} {r : α → α → Prop} {go accept : α → Bool} {l : List α}
    (hl : l.Pairwise r) (hgo : ∀ a b, r a b → go a = false → go b = false)
    (hno : ∀ a ∈ l, go a = false → accept a = false) :
    (l.takeWhile go).filter accept = l.filter accept := by
  induction l with
  | nil => rfl
  | cons a l ih =>
    obtain ⟨hhead,htail⟩ := pairwise_cons.mp hl
    cases hga : go a with
    | true =>
      rw [takeWhile_cons_of_pos hga,filter_cons,filter_cons,ih htail fun b hb => hno b (mem_cons_of_mem a hb)]
    | false =>
      have hnone : ∀ b ∈ a::l, ¬ accept b = true := by
        intro b hb
        apply Bool.eq_false_iff.mp
        rcases mem_cons.mp hb with rfl | hmem
        · exact hno b hb hga
        · exact hno b hb (hgo a b (hhead b hmem) hga)
      rw [filter_eq_nil_iff.mpr hnone,takeWhile_cons_of_neg (Bool.eq_false_iff.mp hga)]
      rfl

end Apollo.Foundation
