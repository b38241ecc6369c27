import Mathlib.Data.List.Nodup

/-! Null-terminated chains of next pointers: reading a chain, pushing in front of
it, inserting behind one of its nodes and writing to nodes outside it. -/
namespace Apollo.Foundation
open List Function
variable {α : Type} {next : α → Option α} {l l₁ l₂ : List α} {x y : α}

/-- Every node of the list points to the following one and the last one to null. -/
def Linked (next : α → Option α) : List α → Prop
  | [] => True
  | x::l => next x = l.head? ∧ Linked next l

theorem Linked.suffix (h : Linked next (l₁ ++ l₂)) : Linked next l₂ := by
  induction l₁ with
  | nil => exact h
  | cons _ _ ih => exact ih h.2

theorem Linked.next_eq (h : Linked next (l₁ ++ x::l₂)) : next x = l₂.head? := h.suffix.1

theorem Linked.congr {next' : α → Option α} (h : Linked next l) (he : ∀ x ∈ l, next' x = next x) :
    Linked next' l := by
  induction l with
  | nil => trivial
  | cons x _ ih =>
    exact ⟨(he x mem_cons_self).trans h.1,ih h.2 fun y hy => he y (mem_cons_of_mem x hy)⟩

theorem Linked.unique (h₁ : Linked next l₁) (h₂ : Linked next l₂) (h : l₁.head? = l₂.head?) : l₁ = l₂ := by
  induction l₁ generalizing l₂ with
  | nil =>
    cases l₂ with
    | nil => rfl
    | cons => cases h
  | cons _ _ ih =>
    cases l₂ with
    | nil => cases h
    | cons =>
      cases h
      rw [ih h₁.2 h₂.2 (h₁.1.symm.trans h₂.1)]

variable [DecidableEq α]

theorem Linked.update_of_notMem {v : Option α} (h : Linked next l) (hx : x ∉ l) : Linked (update next x v) l := by
  apply h.congr
  intro _ hy
  apply update_of_ne
  rintro rfl
  exact hx hy

/-- Redirecting a member to a node that already points to its successor. -/
theorem Linked.insert (h : Linked next (l₁ ++ x::l₂)) (hn : (l₁ ++ x::l₂).Nodup)
    (hy : y ∉ l₁ ++ x::l₂) (hnext : next y = l₂.head?) :
    Linked (update next x (some y)) (l₁ ++ x::y::l₂) := by
  induction l₁ with
  | nil =>
    have hxy : y ≠ x := fun he => hy (he ▸ mem_cons_self)
    refine ⟨update_self ..,?_,h.2.update_of_notMem (nodup_cons.mp hn).1⟩
    rw [update_of_ne hxy]
    exact hnext
  | cons z l₁ ih =>
    have hzx : z ≠ x := by
      rintro rfl
      exact (nodup_cons.mp hn).1 (by simp)
    refine ⟨?_,ih h.2 (nodup_cons.mp hn).2 fun hm => hy (mem_cons_of_mem _ hm)⟩
    rw [update_of_ne hzx,h.1]
    cases l₁ <;> rfl

end Apollo.Foundation
