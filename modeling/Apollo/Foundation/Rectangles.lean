import Mathlib.Analysis.Convex.Radon
import Mathlib.Data.Real.Basic

/-! Closed rectangles of the plane and the axes that separate them. -/
namespace Apollo.Foundation
open SignType Prod

/-- The direction of a rectangle is a unit vector, and its sizes are those from the center. -/
structure Rectangle where
  center : ℝ × ℝ
  direction : ℝ × ℝ
  halfLength : ℝ
  halfWidth : ℝ
  unit : direction.1^2+direction.2^2 = 1
  halfLength_nonneg : 0 ≤ halfLength
  halfWidth_nonneg : 0 ≤ halfWidth

namespace Rectangle
variable (r s : Rectangle) (p u : ℝ × ℝ)

def along (u p : ℝ × ℝ) : ℝ := p.1*u.1+p.2*u.2

/-- The axis of the length, and that of the width. -/
def axis : Bool → ℝ × ℝ
  | false => r.direction
  | true => (-r.direction.2, r.direction.1)

def half : Bool → ℝ
  | false => r.halfLength
  | true => r.halfWidth

/-- The points between two opposite sides. -/
def strip (i : Bool) : Set (ℝ × ℝ) := {p | |along (r.axis i) (p - r.center)| ≤ r.half i}

def points : Set (ℝ × ℝ) := {p | ∀ i, p ∈ r.strip i}

/-- Half of the width of the rectangle as seen along a vector. -/
def reach : ℝ := r.halfLength * |along (r.axis false) u| + r.halfWidth * |along (r.axis true) u|

variable {r s p u}

theorem along_add (q : ℝ × ℝ) : along u (p+q) = along u p+along u q := by
  simp only [along,fst_add,snd_add]
  ring

theorem along_sub (q : ℝ × ℝ) : along u (p - q) = along u p - along u q := by
  simp only [along,fst_sub,snd_sub]
  ring

theorem along_smul (t : ℝ) : along u (t • p) = t*along u p := by
  simp only [along,smul_fst,smul_snd,smul_eq_mul]
  ring

theorem half_nonneg (i : Bool) : 0 ≤ r.half i := by
  cases i
  · exact r.halfLength_nonneg
  · exact r.halfWidth_nonneg

theorem reach_nonneg : 0 ≤ r.reach u :=
  add_nonneg (mul_nonneg r.halfLength_nonneg (abs_nonneg _)) (mul_nonneg r.halfWidth_nonneg (abs_nonneg _))

theorem along_axis_self (i : Bool) : along (r.axis i) (r.axis i) = 1 := by
  cases i <;> simp only [along,axis] <;> linear_combination r.unit

theorem along_axis_other (i : Bool) : along (r.axis i) (r.axis (!i)) = 0 := by
  cases i <;> simp only [along,axis,Bool.not_false,Bool.not_true] <;> ring

theorem along_frame : along u p = along (r.axis false) p*along (r.axis false) u +
    along (r.axis true) p*along (r.axis true) u := by
  simp only [along,axis]
  linear_combination -(p.1*u.1+p.2*u.2)*r.unit

theorem convex_strip (i : Bool) : Convex ℝ (r.strip i) := by
  intro p hp q hq a b ha hb hab
  have hsum : along (r.axis i) (a • p+b • q - r.center) =
      a*along (r.axis i) (p - r.center)+b*along (r.axis i) (q - r.center) := by
    simp only [along_sub,along_add,along_smul]
    linear_combination along (r.axis i) r.center*hab
  change |along (r.axis i) (a • p+b • q - r.center)| ≤ r.half i
  rw [hsum]
  calc |a*along (r.axis i) (p - r.center)+b*along (r.axis i) (q - r.center)|
      ≤ a * |along (r.axis i) (p - r.center)| + b * |along (r.axis i) (q - r.center)| := by
        refine (abs_add_le _ _).trans_eq ?_
        rw [abs_mul,abs_mul,abs_of_nonneg ha,abs_of_nonneg hb]
    _ ≤ a*r.half i+b*r.half i := add_le_add (mul_le_mul_of_nonneg_left hp ha) (mul_le_mul_of_nonneg_left hq hb)
    _ = r.half i := by rw [← add_mul,hab,one_mul]

theorem abs_along_le (hp : p ∈ r.points) : |along u (p - r.center)| ≤ r.reach u := by
  rw [along_frame (r := r),reach]
  refine (abs_add_le _ _).trans ?_
  rw [abs_mul,abs_mul]
  exact add_le_add (mul_le_mul_of_nonneg_right (hp false) (abs_nonneg _))
    (mul_le_mul_of_nonneg_right (hp true) (abs_nonneg _))

theorem exists_along {value : ℝ} (h : |value| ≤ r.reach u) : ∃ p ∈ r.points, along u (p - r.center) = value := by
  -- The corner that is farthest along the vector, moved towards the center.
  set t := value/r.reach u
  have ht : |t| ≤ 1 := by
    rw [abs_div,abs_of_nonneg reach_nonneg]
    exact div_le_one_of_le₀ h reach_nonneg
  have hvalue : t*r.reach u = value := by
    by_cases hzero : r.reach u = 0
    · rw [hzero] at h
      rw [hzero,mul_zero,abs_nonpos_iff.mp h]
    · exact div_mul_cancel₀ value hzero
  set a := t*(r.halfLength*sign (along (r.axis false) u))
  set b := t*(r.halfWidth*sign (along (r.axis true) u))
  have hsign (half x : ℝ) (hhalf : 0 ≤ half) : |t*(half*sign x)| ≤ half := by
    have hone : |((sign x : SignType) : ℝ)| ≤ 1 := by
      cases sign x <;> simp
    rw [abs_mul,abs_mul,abs_of_nonneg hhalf]
    calc |t| * (half * |((sign x : SignType) : ℝ)|) ≤ 1*(half*1) :=
          mul_le_mul ht (mul_le_mul_of_nonneg_left hone hhalf) (mul_nonneg hhalf (abs_nonneg _)) zero_le_one
      _ = half := by ring
  have hoffset (v : ℝ × ℝ) : along v (r.center+(a • r.axis false+b • r.axis true) - r.center) =
      a*along v (r.axis false)+b*along v (r.axis true) := by
    rw [add_sub_cancel_left,along_add,along_smul,along_smul]
  refine ⟨r.center+(a • r.axis false+b • r.axis true),?_,?_⟩
  · intro i
    change |along (r.axis i) _| ≤ _
    rw [hoffset]
    cases i
    · have hother := along_axis_other (r := r) false
      rw [Bool.not_false] at hother
      rw [along_axis_self,hother,mul_one,mul_zero,add_zero]
      exact hsign _ _ r.halfLength_nonneg
    · have hother := along_axis_other (r := r) true
      rw [Bool.not_true] at hother
      rw [along_axis_self,hother,mul_one,mul_zero,zero_add]
      exact hsign _ _ r.halfWidth_nonneg
  · have hcomm (v w : ℝ × ℝ) : along v w = along w v := by
      simp only [along]
      ring
    rw [hoffset,hcomm u,hcomm u,← hvalue,reach,← sign_mul_self,← sign_mul_self]
    ring

/-- A rectangle meets a strip unless the axis of the strip separates them. -/
theorem points_inter_strip_nonempty {i : Bool}
    (h : |along (s.axis i) (r.center - s.center)| ≤ s.half i+r.reach (s.axis i)) :
    (r.points ∩ s.strip i).Nonempty := by
  set d := along (s.axis i) (r.center - s.center)
  -- The coordinate of the strip that is nearest to the center of the rectangle.
  set target := max (-s.half i) (min (s.half i) d)
  have htarget : |target| ≤ s.half i ∧ |target - d| ≤ r.reach (s.axis i) := by
    have hhalf := half_nonneg (r := s) i
    have hreach := reach_nonneg (r := r) (u := s.axis i)
    rw [abs_le] at h
    rw [abs_le,abs_le]
    rcases le_total (s.half i) d with hd | hd
    · have heq : target = s.half i := by
        simp only [target,min_eq_left hd]
        exact max_eq_right (by linarith)
      rw [heq]
      refine ⟨⟨?_,?_⟩,?_,?_⟩ <;> linarith [h.1,h.2]
    · rcases le_total d (-s.half i) with hd' | hd'
      · have heq : target = -s.half i := by
          simp only [target,min_eq_right hd,max_eq_left hd']
        rw [heq]
        refine ⟨⟨?_,?_⟩,?_,?_⟩ <;> linarith [h.1,h.2]
      · have heq : target = d := by
          simp only [target,min_eq_right hd,max_eq_right hd']
        rw [heq]
        refine ⟨⟨?_,?_⟩,?_,?_⟩ <;> linarith [h.1,h.2]
  obtain ⟨p,hp,heq⟩ := exists_along htarget.2
  refine ⟨p,hp,?_⟩
  have hsum : along (s.axis i) (p - s.center) = target := by
    rw [← sub_add_sub_cancel p r.center s.center,along_add,heq]
    exact sub_add_cancel target d
  change |along (s.axis i) (p - s.center)| ≤ s.half i
  rw [hsum]
  exact htarget.1

/-- Two rectangles meet unless one of their axes separates them. -/
theorem inter_points_nonempty_iff : (r.points ∩ s.points).Nonempty ↔
    (∀ i, |along (r.axis i) (s.center - r.center)| ≤ r.half i+s.reach (r.axis i)) ∧
      ∀ i, |along (s.axis i) (r.center - s.center)| ≤ s.half i+r.reach (s.axis i) := by
  have hreach {r s : Rectangle} {p : ℝ × ℝ} (hr : p ∈ r.points) (hs : p ∈ s.points) (i : Bool) :
      |along (r.axis i) (s.center - r.center)| ≤ r.half i+s.reach (r.axis i) := by
    rw [← sub_sub_sub_cancel_left _ _ p,along_sub]
    exact (abs_sub _ _).trans (add_le_add (hr i) (abs_along_le hs))
  constructor
  · rintro ⟨p,hr,hs⟩
    exact ⟨hreach hr hs,hreach hs hr⟩
  · rintro ⟨hr,hs⟩
    -- Any three of the four strips meet: they are one of the rectangles and a strip of the other.
    let strips (k : Bool × Bool) : Set (ℝ × ℝ) := bif k.1 then s.strip k.2 else r.strip k.2
    have hconvex (k : Bool × Bool) : Convex ℝ (strips k) := by
      obtain ⟨_ | _,i⟩ := k <;> exact convex_strip i
    have hmeet : (⋂ k ∈ (Finset.univ : Finset (Bool × Bool)), strips k).Nonempty := by
      refine Convex.helly_theorem' (fun k _ => hconvex k) ?_
      intro kept _ hcard
      obtain ⟨⟨box,i⟩,hout⟩ : ∃ k, k ∉ kept := by
        by_contra hall
        push Not at hall
        rw [Finset.eq_univ_iff_forall.mpr hall] at hcard
        simp at hcard
      have hnot {k : Bool × Bool} (hk : k ∈ kept) (hbox : k.1 = box) : k.2 = !i := by
        by_contra hne
        exact hout (by rwa [← hbox,← Bool.not_eq_not.mp hne,mk.eta])
      cases box
      · obtain ⟨p,hp,hstrip⟩ := points_inter_strip_nonempty (hr (!i))
        refine ⟨p,Set.mem_iInter₂.mpr ?_⟩
        rintro ⟨_ | _,j⟩ hk
        · have hj : j = !i := hnot hk rfl
          rw [hj]
          exact hstrip
        · exact hp j
      · obtain ⟨p,hp,hstrip⟩ := points_inter_strip_nonempty (hs (!i))
        refine ⟨p,Set.mem_iInter₂.mpr ?_⟩
        rintro ⟨_ | _,j⟩ hk
        · exact hp j
        · have hj : j = !i := hnot hk rfl
          rw [hj]
          exact hstrip
    obtain ⟨p,hp⟩ := hmeet
    rw [Set.mem_iInter₂] at hp
    exact ⟨p,fun i => hp (false, i) (Finset.mem_univ _),fun i => hp (true, i) (Finset.mem_univ _)⟩

end Rectangle
end Apollo.Foundation
