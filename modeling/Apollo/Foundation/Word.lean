import Mathlib.Algebra.Order.Ring.Int

/-! Atomic counters of fixed width: additions wrap. -/
namespace Apollo.Foundation

def int32 (n : Int) : Int := n.bmod (2^32)

theorem int32_eq {n : Int} (h₁ : -2^31 ≤ n) (h₂ : n < 2^31) : int32 n = n := by
  apply Int.bmod_eq_of_le <;> simpa using ‹_›

end Apollo.Foundation
