import Mathlib.Logic.Function.Basic

/-! Rings that store a stream. Position `p` of the stream, counted from 1, lies in the slot
`p % capacity` until it is overtaken by a whole turn. -/
namespace Apollo.Foundation.Ring
open List Function
variable {α : Type} {capacity p q : Nat} {ring : Nat → α} {stream : List α}

theorem slot_ne (hlt : p < q) (hq : q < p+capacity) : p%capacity ≠ q%capacity := by
  intro he
  have hm := Nat.sub_mod_eq_zero_of_mod_eq he.symm
  rw [Nat.mod_eq_of_lt (by omega)] at hm
  omega

/-- The last turn of the stream is in its slots. -/
def Holds (capacity : Nat) (ring : Nat → α) (stream : List α) : Prop :=
  ∀ p, 1 ≤ p → p ≤ stream.length → stream.length < p+capacity → stream[p - 1]? = some (ring (p%capacity))

theorem holds_nil : Holds capacity ring [] := by
  intro _ _ hle
  rw [length_nil] at hle
  omega

theorem Holds.push (h : Holds capacity ring stream) (x : α) :
    Holds capacity (update ring ((stream.length+1)%capacity) x) (stream ++ [x]) := by
  intro p hp hle hlt
  rw [length_append,length_singleton] at hle hlt
  by_cases he : p = stream.length+1
  · subst he
    rw [update_self,Nat.add_sub_cancel,getElem?_concat_length]
  · have hne : p%capacity ≠ (stream.length+1)%capacity := slot_ne (by omega) hlt
    rw [update_of_ne hne,getElem?_append_left (by omega)]
    exact h p hp (by omega) (by omega)

end Apollo.Foundation.Ring
