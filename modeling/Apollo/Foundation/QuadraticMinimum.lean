import Apollo.Foundation.Numerals
import Mathlib.Algebra.Order.Field.Basic
import Mathlib.LinearAlgebra.Matrix.DotProduct
import Mathlib.LinearAlgebra.Matrix.Symmetric
import Mathlib.Tactic.FieldSimp
import Mathlib.Tactic.Linarith

/-! Quadratic functions of a vector over an ordered field, and their minima. -/
namespace Apollo.Foundation
open Matrix
open scoped Matrix
variable {K ι κ : Type} [Fintype ι] [Fintype κ]

/-- Half the form of `H` and a linear part. -/
def quadratic [Field K] (H : Matrix ι ι K) (g u : ι → K) : K := 1/2*(u ⬝ᵥ (H *ᵥ u))+u ⬝ᵥ g

section Algebra
variable [Field K] {H : Matrix ι ι K} {g u v : ι → K}

theorem dotProduct_mulVec_comm (hH : H.IsSymm) (u v : ι → K) : u ⬝ᵥ (H *ᵥ v) = v ⬝ᵥ (H *ᵥ u) := by
  rw [dotProduct_mulVec,← mulVec_transpose,hH,dotProduct_comm]

theorem dotProduct_mulVec_add (hH : H.IsSymm) (u v : ι → K) :
    (u+v) ⬝ᵥ (H *ᵥ (u+v)) = u ⬝ᵥ (H *ᵥ u)+2*(v ⬝ᵥ (H *ᵥ u))+v ⬝ᵥ (H *ᵥ v) := by
  rw [mulVec_add,add_dotProduct,dotProduct_add,dotProduct_add,dotProduct_mulVec_comm hH u v]
  ring

end Algebra

section Order
variable [Field K] [LinearOrder K] [IsStrictOrderedRing K] {H : Matrix ι ι K} {g u : ι → K}

theorem quadratic_add (hH : H.IsSymm) (v : ι → K) :
    quadratic H g (u+v) = quadratic H g u+v ⬝ᵥ (H *ᵥ u+g)+1/2*(v ⬝ᵥ (H *ᵥ v)) := by
  rw [quadratic,quadratic,dotProduct_mulVec_add hH,add_dotProduct,dotProduct_add]
  ring

theorem eq_zero_of_nonneg {a b : K} (h : ∀ s, 0 ≤ s*a+s*s*b) : a = 0 := by
  by_contra ha
  have hd := add_pos_of_nonneg_of_pos (abs_nonneg b) one_pos
  have hb : b - (|b| + 1) < 0 := sub_neg.mpr ((le_abs_self b).trans_lt (lt_add_one _))
  -- against the sign of `a`, and not far enough for the square to matter
  have hvalue : -a/(|b| + 1)*a + -a/(|b| + 1)*(-a/(|b| + 1))*b = a*a*(b - (|b| + 1))/((|b| + 1)*(|b| + 1)) := by
    field_simp
    ring
  have hneg := div_neg_of_neg_of_pos (mul_neg_of_pos_of_neg (mul_self_pos.mpr ha) hb) (mul_pos hd hd)
  have hnonneg := h (-a/(|b| + 1))
  rw [hvalue] at hnonneg
  exact absurd hnonneg (not_le.mpr hneg)

/-- The minima of a quadratic function are its stationary points, if its form is nowhere negative. -/
theorem quadratic_min_iff (hH : H.IsSymm) :
    (∀ v, quadratic H g u ≤ quadratic H g v) ↔ H *ᵥ u+g = 0 ∧ ∀ v, 0 ≤ v ⬝ᵥ (H *ᵥ v) := by
  constructor
  · intro hmin
    have hline (v : ι → K) (s : K) : 0 ≤ s*(v ⬝ᵥ (H *ᵥ u+g))+s*s*(1/2*(v ⬝ᵥ (H *ᵥ v))) := by
      have hle := hmin (u+s • v)
      rw [quadratic_add hH,mulVec_smul,smul_dotProduct,smul_dotProduct,dotProduct_smul,smul_eq_mul,
        smul_eq_mul,smul_eq_mul] at hle
      linarith
    have hstationary := dotProduct_self_eq_zero.mp (eq_zero_of_nonneg (hline (H *ᵥ u+g)))
    refine ⟨hstationary,fun v => ?_⟩
    have hone := hline v 1
    rw [hstationary,dotProduct_zero] at hone
    linarith
  · rintro ⟨hstationary,hform⟩ v
    have hv := (add_sub_cancel u v).symm
    have hnonneg := hform (v - u)
    rw [hv,quadratic_add hH,hstationary,dotProduct_zero]
    linarith

theorem half_form_affine_add {Q : Matrix κ κ K} {R : Matrix ι ι K} (hQ : Q.IsSymm) (M : Matrix κ ι K) (w : κ → K)
    (u : ι → K) :
    1/2*((M *ᵥ u+w) ⬝ᵥ (Q *ᵥ (M *ᵥ u+w))+u ⬝ᵥ (R *ᵥ u)) =
      quadratic (Mᵀ*Q*M+R) ((Mᵀ*Q) *ᵥ w) u+1/2*(w ⬝ᵥ (Q *ᵥ w)) := by
  have hmove (v : κ → K) : (M *ᵥ u) ⬝ᵥ (Q *ᵥ v) = u ⬝ᵥ ((Mᵀ*Q) *ᵥ v) := by
    rw [← mulVec_mulVec,dotProduct_mulVec u,vecMul_transpose]
  have hform : u ⬝ᵥ ((Mᵀ*Q*M+R) *ᵥ u) = (M *ᵥ u) ⬝ᵥ (Q *ᵥ (M *ᵥ u))+u ⬝ᵥ (R *ᵥ u) := by
    rw [hmove,mulVec_mulVec,add_mulVec,dotProduct_add]
  rw [quadratic,hform,dotProduct_mulVec_add hQ,dotProduct_mulVec_comm hQ w,hmove w]
  ring

end Order
end Apollo.Foundation
