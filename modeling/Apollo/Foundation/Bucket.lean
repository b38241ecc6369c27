import Mathlib.Data.List.Count

/-! Families of lists, indexed by buckets, and how often an element occurs in each of them
after the operations on buckets. -/
namespace Apollo.Foundation.Bucket
open Function
variable {α β : Type} [DecidableEq α] [DecidableEq β] {f : β → List α} {x y : α} {b c : β}

def push (f : β → List α) (b : β) (x : α) : β → List α := update f b (f b ++ [x])

def clear (f : β → List α) (b : β) : β → List α := update f b []

/-- Append the selected elements of a list, each to its own bucket. -/
def pushAll (sel : α → Bool) (dest : α → β) : List α → (β → List α) → β → List α
  | [], f => f
  | x::l, f => pushAll sel dest l (if sel x then push f (dest x) x else f)

theorem push_count : (push f b x c).count y = (f c).count y+if c = b ∧ x = y then 1 else 0 := by
  by_cases hc : c = b
  · subst hc
    rw [push,update_self,List.count_append,List.count_singleton]
    simp
  · rw [push,update_of_ne hc]
    simp [hc]

theorem push_count_self : (push f b x c).count x = (f c).count x+if c = b then 1 else 0 := by
  rw [push_count]
  simp

theorem push_count_of_ne (h : x ≠ y) : (push f b x c).count y = (f c).count y := by
  rw [push_count]
  simp [h]

theorem clear_count : (clear f b c).count x = if c = b then 0 else (f c).count x := by
  by_cases hc : c = b
  · subst hc
    rw [clear,update_self,if_pos rfl]
    rfl
  · rw [clear,update_of_ne hc,if_neg hc]

theorem pushAll_count {sel : α → Bool} {dest : α → β} {l : List α} : (pushAll sel dest l f b).count x =
      (f b).count x+if sel x ∧ dest x = b then l.count x else 0 := by
  induction l generalizing f with
  | nil => simp [pushAll]
  | cons y _ ih =>
    rw [pushAll,ih,List.count_cons]
    by_cases hy : y = x
    · subst hy
      by_cases hs : sel y
      · rw [if_pos hs,push_count]
        by_cases hb : dest y = b
        · simp [hs,hb]
          omega
        · simp [hs,hb,Ne.symm hb]
      · simp [hs]
    · have : ((if sel y then push f (dest y) y else f) b).count x = (f b).count x := by
        split
        · exact push_count_of_ne hy
        · rfl
      simp [this,hy]

end Apollo.Foundation.Bucket
