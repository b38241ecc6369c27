import Apollo.Foundation.Numerals
import Mathlib.Analysis.Calculus.Deriv.Pow
import Mathlib.Analysis.Calculus.MeanValue
import Mathlib.MeasureTheory.Integral.IntervalIntegral.FundThmCalculus

/-! Motions with a constant jerk on each interval of a uniform grid, and their values at the knots. -/
namespace Apollo.Foundation
open Set

def knot (δ : ℝ) (i : Nat) : ℝ := i*δ

theorem knot_zero (δ : ℝ) : knot δ 0 = 0 := by rw [knot,Nat.cast_zero,zero_mul]

theorem knot_succ (δ : ℝ) (i : Nat) : knot δ (i+1) = knot δ i+δ := by
  rw [knot,knot,Nat.cast_succ,add_one_mul]

theorem knot_le {δ : ℝ} (hδ : 0 ≤ δ) {i j : Nat} (h : i ≤ j) : knot δ i ≤ knot δ j :=
  mul_le_mul_of_nonneg_right (Nat.cast_le.mpr h) hδ

/-- A motion over `n` intervals of length `δ`, with its first two derivatives. -/
structure JerkCurve (δ : ℝ) (n : Nat) where
  x : ℝ → ℝ
  dx : ℝ → ℝ
  ddx : ℝ → ℝ
  jerk : Nat → ℝ
  deriv_x : ∀ s ∈ Icc 0 (knot δ n), HasDerivWithinAt x (dx s) (Icc 0 (knot δ n)) s
  deriv_dx : ∀ s ∈ Icc 0 (knot δ n), HasDerivWithinAt dx (ddx s) (Icc 0 (knot δ n)) s
  deriv_ddx : ∀ i < n, ∀ s ∈ Icc (knot δ i) (knot δ (i+1)),
    HasDerivWithinAt ddx (jerk i) (Icc (knot δ i) (knot δ (i+1))) s

theorem eq_of_deriv {a b : ℝ} {f : ℝ → ℝ} (f' g : ℝ → ℝ) (hf : ∀ s ∈ Icc a b, HasDerivWithinAt f (f' s) (Icc a b) s)
    (hg : ∀ s ∈ Icc a b, HasDerivAt g (f' s) s) (h : f a = g a) : ∀ s ∈ Icc a b, f s = g s := by
  have hright : ∀ s ∈ Ico a b, HasDerivWithinAt f (f' s) (Ici s) s := by
    intro s hs
    exact (hf s (Ico_subset_Icc_self hs)).mono_of_mem_nhdsWithin (Icc_mem_nhdsGE_of_mem hs)
  apply eq_of_has_deriv_right_eq hright
  · intro s hs
    exact (hg s (Ico_subset_Icc_self hs)).hasDerivWithinAt
  · intro s hs
    exact (hf s hs).continuousWithinAt
  · intro s hs
    exact (hg s hs).continuousAt.continuousWithinAt
  · exact h

namespace JerkCurve
variable {δ : ℝ} {n : Nat}

section Interval
variable (c : JerkCurve δ n) {i : Nat} {s : ℝ}

theorem interval_subset (hδ : 0 ≤ δ) (hi : i < n) : Icc (knot δ i) (knot δ (i+1)) ⊆ Icc 0 (knot δ n) := by
  apply Icc_subset_Icc
  · rw [← knot_zero δ]
    exact knot_le hδ (Nat.zero_le i)
  · exact knot_le hδ hi

theorem ddx_eq (hi : i < n) (hs : s ∈ Icc (knot δ i) (knot δ (i+1))) :
    c.ddx s = c.ddx (knot δ i)+c.jerk i*(s - knot δ i) := by
  refine eq_of_deriv _ (fun s => c.ddx (knot δ i)+c.jerk i*(s - knot δ i)) (c.deriv_ddx i hi) ?_ ?_ s hs
  · intro t _
    have h := ((hasDerivAt_id t).sub_const (knot δ i)).const_mul (c.jerk i)
    rw [mul_one] at h
    exact h.const_add _
  · rw [sub_self,mul_zero,add_zero]

theorem dx_eq (hδ : 0 ≤ δ) (hi : i < n) (hs : s ∈ Icc (knot δ i) (knot δ (i+1))) :
    c.dx s = c.dx (knot δ i)+c.ddx (knot δ i)*(s - knot δ i)+c.jerk i/2*(s - knot δ i)^2 := by
  have hsub := interval_subset hδ hi
  refine eq_of_deriv c.ddx (fun s => c.dx (knot δ i)+c.ddx (knot δ i)*(s - knot δ i)+c.jerk i/2*(s - knot δ i)^2)
    (fun t ht => (c.deriv_dx t (hsub ht)).mono hsub) ?_ ?_ s hs
  · intro t ht
    have hid := (hasDerivAt_id t).sub_const (knot δ i)
    have h := ((hid.const_mul (c.ddx (knot δ i))).const_add (c.dx (knot δ i))).add
      ((hid.pow 2).const_mul (c.jerk i/2))
    refine h.congr_deriv ?_
    rw [c.ddx_eq hi ht]
    simp only [id]
    ring
  · rw [sub_self]
    ring

theorem x_eq (hδ : 0 ≤ δ) (hi : i < n) (hs : s ∈ Icc (knot δ i) (knot δ (i+1))) :
    c.x s = c.x (knot δ i)+c.dx (knot δ i)*(s - knot δ i)+c.ddx (knot δ i)/2*(s - knot δ i)^2 +
      c.jerk i/6*(s - knot δ i)^3 := by
  have hsub := interval_subset hδ hi
  refine eq_of_deriv c.dx
    (fun s => c.x (knot δ i)+c.dx (knot δ i)*(s - knot δ i)+c.ddx (knot δ i)/2*(s - knot δ i)^2 +
      c.jerk i/6*(s - knot δ i)^3)
    (fun t ht => (c.deriv_x t (hsub ht)).mono hsub) ?_ ?_ s hs
  · intro t ht
    have hid := (hasDerivAt_id t).sub_const (knot δ i)
    have h := (((hid.const_mul (c.dx (knot δ i))).const_add (c.x (knot δ i))).add
      ((hid.pow 2).const_mul (c.ddx (knot δ i)/2))).add ((hid.pow 3).const_mul (c.jerk i/6))
    refine h.congr_deriv ?_
    rw [c.dx_eq hδ hi ht]
    simp only [id]
    ring
  · rw [sub_self]
    ring

theorem next_knot (hδ : 0 ≤ δ) (hi : i < n) : c.ddx (knot δ (i+1)) = c.ddx (knot δ i)+c.jerk i*δ ∧
      c.dx (knot δ (i+1)) = c.dx (knot δ i)+c.ddx (knot δ i)*δ+c.jerk i/2*δ^2 ∧
      c.x (knot δ (i+1)) = c.x (knot δ i)+c.dx (knot δ i)*δ+c.ddx (knot δ i)/2*δ^2+c.jerk i/6*δ^3 := by
  have hs := right_mem_Icc.mpr (knot_le hδ (Nat.le_succ i))
  have hlen : knot δ (i+1) - knot δ i = δ := by rw [knot_succ,add_sub_cancel_left]
  have hddx := c.ddx_eq hi hs
  have hdx := c.dx_eq hδ hi hs
  have hx := c.x_eq hδ hi hs
  rw [hlen] at hddx hdx hx
  exact ⟨hddx,hdx,hx⟩

end Interval

section OfJerks
variable (δ) (n) (x₀ dx₀ ddx₀ : ℝ) (jerk : Nat → ℝ)

noncomputable def passed (k : Nat) (s : ℝ) : ℝ := max 0 (min (s - knot δ k) δ)

noncomputable def acceleration (s : ℝ) : ℝ := ddx₀ + ∑ k ∈ Finset.range n, jerk k*passed δ k s

theorem continuous_acceleration : Continuous (acceleration δ n ddx₀ jerk) := by
  unfold acceleration passed
  fun_prop

variable {δ} {i k : Nat} {s : ℝ}

theorem passed_before (hδ : 0 ≤ δ) (h : k < i) (hs : knot δ i ≤ s) : passed δ k s = δ := by
  have hk : knot δ k+δ ≤ s := by
    rw [← knot_succ]
    exact (knot_le hδ h).trans hs
  rw [passed,min_eq_right (by linarith),max_eq_right hδ]

theorem passed_after (hδ : 0 ≤ δ) (h : i < k) (hs : s ≤ knot δ (i+1)) : passed δ k s = 0 := by
  have hk := hs.trans (knot_le hδ h)
  rw [passed,min_eq_left (by linarith),max_eq_left (by linarith)]

theorem passed_in (hs : s ∈ Icc (knot δ i) (knot δ (i+1))) : passed δ i s = s - knot δ i := by
  have hupper := hs.2
  rw [knot_succ] at hupper
  rw [passed,min_eq_left (by linarith),max_eq_right (by linarith [hs.1])]

theorem acceleration_in (hδ : 0 ≤ δ) (hi : i < n) (hs : s ∈ Icc (knot δ i) (knot δ (i+1))) :
    acceleration δ n ddx₀ jerk s = acceleration δ n ddx₀ jerk (knot δ i)+jerk i*(s - knot δ i) := by
  have hstart := left_mem_Icc.mpr (knot_le hδ (Nat.le_succ i))
  have hsum : ∑ k ∈ Finset.range n, (jerk k*passed δ k s - jerk k*passed δ k (knot δ i)) =
      jerk i*passed δ i s - jerk i*passed δ i (knot δ i) := by
    apply Finset.sum_eq_single_of_mem i (Finset.mem_range.mpr hi)
    intro _ _ hne
    rcases Nat.lt_or_gt_of_ne hne with hlt | hgt
    · rw [passed_before hδ hlt hs.1,passed_before hδ hlt le_rfl,sub_self]
    · rw [passed_after hδ hgt hs.2,passed_after hδ hgt hstart.2,sub_self]
  rw [Finset.sum_sub_distrib,passed_in hs,passed_in hstart] at hsum
  unfold acceleration
  linarith

variable (δ)

noncomputable def velocity (s : ℝ) : ℝ := dx₀ + ∫ t in (0 : ℝ)..s, acceleration δ n ddx₀ jerk t

theorem hasDerivAt_velocity (s : ℝ) : HasDerivAt (velocity δ n dx₀ ddx₀ jerk) (acceleration δ n ddx₀ jerk s) s :=
  ((continuous_acceleration δ n ddx₀ jerk).integral_hasStrictDerivAt 0 s).hasDerivAt.const_add dx₀

theorem continuous_velocity : Continuous (velocity δ n dx₀ ddx₀ jerk) :=
  continuous_iff_continuousAt.mpr fun s => (hasDerivAt_velocity δ n dx₀ ddx₀ jerk s).continuousAt

noncomputable def position (s : ℝ) : ℝ := x₀ + ∫ t in (0 : ℝ)..s, velocity δ n dx₀ ddx₀ jerk t

theorem hasDerivAt_position (s : ℝ) : HasDerivAt (position δ n x₀ dx₀ ddx₀ jerk) (velocity δ n dx₀ ddx₀ jerk s) s :=
  ((continuous_velocity δ n dx₀ ddx₀ jerk).integral_hasStrictDerivAt 0 s).hasDerivAt.const_add x₀

variable {δ}

/-- The motion with the given jerks from the given start. -/
noncomputable def ofJerks (hδ : 0 ≤ δ) : JerkCurve δ n where
  x := position δ n x₀ dx₀ ddx₀ jerk
  dx := velocity δ n dx₀ ddx₀ jerk
  ddx := acceleration δ n ddx₀ jerk
  jerk := jerk
  deriv_x := fun s _ => (hasDerivAt_position δ n x₀ dx₀ ddx₀ jerk s).hasDerivWithinAt
  deriv_dx := fun s _ => (hasDerivAt_velocity δ n dx₀ ddx₀ jerk s).hasDerivWithinAt
  deriv_ddx := by
    intro i hi s hs
    have hline : HasDerivAt (fun t => acceleration δ n ddx₀ jerk (knot δ i)+jerk i*(t - knot δ i)) (jerk i) s := by
      have h := ((hasDerivAt_id s).sub_const (knot δ i)).const_mul (jerk i)
      rw [mul_one] at h
      exact h.const_add _
    exact hline.hasDerivWithinAt.congr (fun t ht => acceleration_in n ddx₀ jerk hδ hi ht)
      (acceleration_in n ddx₀ jerk hδ hi hs)

theorem ofJerks_start (hδ : 0 ≤ δ) :
    (ofJerks n x₀ dx₀ ddx₀ jerk hδ).x (knot δ 0) = x₀ ∧ (ofJerks n x₀ dx₀ ddx₀ jerk hδ).dx (knot δ 0) = dx₀ ∧
      (ofJerks n x₀ dx₀ ddx₀ jerk hδ).ddx (knot δ 0) = ddx₀ := by
  rw [knot_zero]
  refine ⟨?_,?_,?_⟩
  · change x₀ + ∫ t in (0 : ℝ)..0, velocity δ n dx₀ ddx₀ jerk t = x₀
    rw [intervalIntegral.integral_same,add_zero]
  · change dx₀ + ∫ t in (0 : ℝ)..0, acceleration δ n ddx₀ jerk t = dx₀
    rw [intervalIntegral.integral_same,add_zero]
  · -- no time has passed in any interval
    change ddx₀ + ∑ k ∈ Finset.range n, jerk k*passed δ k 0 = ddx₀
    rw [Finset.sum_eq_zero,add_zero]
    intro k _
    have hk : 0 ≤ knot δ k := mul_nonneg (Nat.cast_nonneg k) hδ
    rw [passed,min_eq_left (by linarith),max_eq_left (by linarith),mul_zero]

end OfJerks

/-- The values of a motion at the knots. -/
def Samples (c : JerkCurve δ n) (x dx ddx : Nat → ℝ) : Prop :=
  ∀ i ≤ n, c.x (knot δ i) = x i ∧ c.dx (knot δ i) = dx i ∧ c.ddx (knot δ i) = ddx i

/-- Values are those of a motion with jerks between two bounds if and only if each interval fits. -/
theorem exists_samples_iff (hδ : 0 < δ) {x dx ddx : Nat → ℝ} {lower upper : ℝ} :
    (∃ c : JerkCurve δ n, c.Samples x dx ddx ∧ ∀ i < n, lower ≤ c.jerk i ∧ c.jerk i ≤ upper) ↔
      ∀ i < n, (lower*δ ≤ ddx (i+1) - ddx i ∧ ddx (i+1) - ddx i ≤ upper*δ) ∧ dx (i+1) - dx i = δ/2*(ddx i+ddx (i+1)) ∧
        x (i+1) - x i = δ*dx i+δ^2/3*ddx i+δ^2/6*ddx (i+1) := by
  constructor
  · rintro ⟨c,hc,hjerk⟩ i hi
    obtain ⟨hddx,hdx,hx⟩ := c.next_knot hδ.le hi
    obtain ⟨hxi,hdxi,hddxi⟩ := hc i hi.le
    obtain ⟨hxn,hdxn,hddxn⟩ := hc (i+1) hi
    rw [hxi,hdxi,hddxi,hxn] at hx
    rw [hdxi,hddxi,hdxn] at hdx
    rw [hddxi,hddxn] at hddx
    have hdiff : ddx (i+1) - ddx i = c.jerk i*δ := by linarith
    refine ⟨?_,?_,?_⟩
    · rw [hdiff]
      exact ⟨mul_le_mul_of_nonneg_right (hjerk i hi).1 hδ.le,mul_le_mul_of_nonneg_right (hjerk i hi).2 hδ.le⟩
    · rw [hdx,hddx]
      ring
    · rw [hx,hddx]
      ring
  · intro h
    have hjerk (i : Nat) : (ddx (i+1) - ddx i)/δ*δ = ddx (i+1) - ddx i := div_mul_cancel₀ _ hδ.ne'
    refine ⟨ofJerks n (x 0) (dx 0) (ddx 0) (fun i => (ddx (i+1) - ddx i)/δ) hδ.le,?_,?_⟩
    · intro i hi
      induction i with
      | zero => exact ofJerks_start n (x 0) (dx 0) (ddx 0) _ hδ.le
      | succ i ih =>
        obtain ⟨hxi,hdxi,hddxi⟩ := ih (Nat.le_of_succ_le hi)
        obtain ⟨hddx,hdx,hx⟩ :=
          (ofJerks n (x 0) (dx 0) (ddx 0) (fun i => (ddx (i+1) - ddx i)/δ) hδ.le).next_knot hδ.le hi
        obtain ⟨_,hdstep,hxstep⟩ := h i hi
        rw [hxi,hdxi,hddxi] at hx
        rw [hdxi,hddxi] at hdx
        rw [hddxi] at hddx
        change _ = _+(ddx (i+1) - ddx i)/δ*δ at hddx
        change _ = _+(ddx (i+1) - ddx i)/δ/2*δ^2 at hdx
        change _ = _+(ddx (i+1) - ddx i)/δ/6*δ^3 at hx
        refine ⟨?_,?_,?_⟩
        · rw [hx]
          linear_combination (δ^2/6)*hjerk i - hxstep
        · rw [hdx]
          linear_combination (δ/2)*hjerk i - hdstep
        · rw [hddx,hjerk]
          ring
    · intro i hi
      obtain ⟨⟨hlower,hupper⟩,_⟩ := h i hi
      exact ⟨(le_div_iff₀ hδ).mpr hlower,(div_le_iff₀ hδ).mpr hupper⟩

end JerkCurve
end Apollo.Foundation
