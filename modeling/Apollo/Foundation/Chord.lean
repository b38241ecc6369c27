import Mathlib.Analysis.InnerProductSpace.Continuous

/-! Line segments in a real inner product space: the nearest point on a segment, its distance, and what follows
for a chain of points that stays close to a segment. -/
namespace Apollo.Foundation
open scoped RealInnerProductSpace
variable {V : Type} [NormedAddCommGroup V] [InnerProductSpace ℝ V]

/-- A start, a direction and a length. A chord without a direction is its start only. -/
structure Chord (V : Type) [NormedAddCommGroup V] [InnerProductSpace ℝ V] where
  start : V
  direction : V
  length : ℝ
  unit : direction = 0 ∨ ‖direction‖ = 1
  length_nonneg : 0 ≤ length

namespace Chord
variable (c : Chord V) (x : V)

noncomputable def proj : ℝ := ⟪x - c.start, c.direction⟫

noncomputable def point (r : ℝ) : V := c.start+r • c.direction

noncomputable def clamp (r : ℝ) : ℝ := max 0 (min r c.length)

/-- Where on the chord the nearest point is. -/
noncomputable def place : ℝ := c.clamp (c.proj x)

/-- The nearest point of the chord. -/
noncomputable def foot : V := c.point (c.place x)

noncomputable def distance : ℝ := ‖x - c.foot x‖

variable {c x} {y z : V} {r s e : ℝ}

theorem clamp_nonneg : 0 ≤ c.clamp r := le_max_left ..

theorem clamp_le : c.clamp r ≤ c.length := max_le c.length_nonneg (min_le_right ..)

theorem clamp_eq (h : 0 ≤ r) (h' : r ≤ c.length) : c.clamp r = r := by rw [clamp,min_eq_left h',max_eq_right h]

theorem clamp_mono (h : r ≤ s) : c.clamp r ≤ c.clamp s := max_le_max le_rfl (min_le_min h le_rfl)

theorem sq_sub_clamp_le (h : 0 ≤ s) (h' : s ≤ c.length) : (r - c.clamp r)^2 ≤ (r - s)^2 := by
  rw [clamp]
  rcases le_total r c.length with hr | hr
  · rw [min_eq_left hr]
    rcases le_total 0 r with h0 | h0
    · rw [max_eq_right h0,sub_self]
      nlinarith [sq_nonneg (r - s)]
    · rw [max_eq_left h0]
      nlinarith
  · rw [min_eq_right hr,max_eq_right c.length_nonneg]
    nlinarith

/-- The distance to a point of the line has a part along the direction and a part across. -/
theorem sq_norm_sub_point (h : ‖c.direction‖ = 1) :
    ‖x - c.point r‖ ^ 2 = (‖x - c.start‖ ^ 2 - c.proj x^2)+(c.proj x - r)^2 := by
  have hsub : x - c.point r = (x - c.start) - r • c.direction := by
    rw [point,sub_add_eq_sub_sub]
  rw [hsub,norm_sub_sq_real,inner_smul_right,norm_smul,h,proj,mul_one,Real.norm_eq_abs,sq_abs]
  ring

theorem distance_le_norm (h : 0 ≤ r) (h' : r ≤ c.length) : c.distance x ≤ ‖x - c.point r‖ := by
  rcases c.unit with hzero | hone
  · rw [distance,foot,point,point,hzero,smul_zero,smul_zero]
  · apply (sq_le_sq₀ (norm_nonneg _) (norm_nonneg _)).mp
    rw [foot,sq_norm_sub_point hone,sq_norm_sub_point hone]
    exact add_le_add le_rfl (sq_sub_clamp_le h h')

theorem distance_nonneg : 0 ≤ c.distance x := norm_nonneg _

theorem distance_of_proj_nonpos (h : c.proj x ≤ 0) : c.distance x = ‖x - c.start‖ := by
  rw [distance,foot,place,clamp,max_eq_left ((min_le_left _ _).trans h),point,zero_smul,add_zero]

theorem distance_of_length_le (h : c.length ≤ c.proj x) : c.distance x = ‖x - c.point c.length‖ := by
  rw [distance,foot,place,clamp,min_eq_right h,max_eq_right c.length_nonneg]

theorem sq_distance_of_between (hone : ‖c.direction‖ = 1) (h : 0 ≤ c.proj x) (h' : c.proj x ≤ c.length) :
    c.distance x^2 = ‖x - c.start‖ ^ 2 - c.proj x^2 := by
  rw [distance,foot,sq_norm_sub_point hone,place,clamp_eq h h',sub_self]
  ring

theorem distance_of_direction_zero (h : c.direction = 0) : c.distance x = ‖x - c.start‖ := by
  rw [distance,foot,point,h,smul_zero,add_zero]

/-- A point that is close to the chord is not much nearer than the chord. -/
theorem distance_le_add : c.distance x ≤ ‖x - y‖ + c.distance y := by
  calc c.distance x ≤ ‖x - c.foot y‖ := distance_le_norm clamp_nonneg clamp_le
    _ = ‖(x - y)+(y - c.foot y)‖ := by rw [sub_add_sub_cancel]
    _ ≤ ‖x - y‖ + c.distance y := norm_add_le _ _

theorem lt_norm_sub_point {bound window : ℝ} (hone : ‖c.direction‖ = 1) (hwindow : 0 ≤ window)
    (hbound : bound^2 - (‖x - c.start‖ ^ 2 - c.proj x^2) = window^2)
    (h : r < c.proj x - window ∨ c.proj x+window < r) : bound < ‖x - c.point r‖ := by
  apply lt_of_pow_lt_pow_left₀ 2 (norm_nonneg _)
  rw [sq_norm_sub_point hone]
  rcases h with h | h <;> nlinarith

section Between
variable (hx : x ∈ segment ℝ y z)
include hx

theorem proj_of_segment : ∃ a b : ℝ, 0 ≤ a ∧ 0 ≤ b ∧ a+b = 1 ∧ c.proj x = a*c.proj y+b*c.proj z := by
  obtain ⟨a,b,ha,hb,hab,rfl⟩ := hx
  refine ⟨a,b,ha,hb,hab,?_⟩
  have hsub : a • y+b • z - c.start = a • (y - c.start)+b • (z - c.start) := by
    have hstart : c.start = a • c.start+b • c.start := by rw [← add_smul,hab,one_smul]
    rw [smul_sub,smul_sub]
    nth_rewrite 1 [hstart]
    abel
  rw [proj,hsub,inner_add_left,inner_smul_left,inner_smul_left]
  rfl

theorem place_between : min (c.place y) (c.place z) ≤ c.place x ∧ c.place x ≤ max (c.place y) (c.place z) := by
  obtain ⟨a,b,ha,hb,hab,h⟩ := proj_of_segment (c := c) hx
  have hmono : Monotone c.clamp := fun _ _ => clamp_mono
  rw [place,place,place,← hmono.map_min,← hmono.map_max]
  have hmin : min (c.proj y) (c.proj z) ≤ c.proj x := by
    have hy := mul_le_mul_of_nonneg_left (min_le_left (c.proj y) (c.proj z)) ha
    have hz := mul_le_mul_of_nonneg_left (min_le_right (c.proj y) (c.proj z)) hb
    rw [h]
    calc min (c.proj y) (c.proj z) = (a+b)*min (c.proj y) (c.proj z) := by rw [hab,one_mul]
      _ ≤ a*c.proj y+b*c.proj z := by rw [add_mul]; exact add_le_add hy hz
  have hmax : c.proj x ≤ max (c.proj y) (c.proj z) := by
    have hy := mul_le_mul_of_nonneg_left (le_max_left (c.proj y) (c.proj z)) ha
    have hz := mul_le_mul_of_nonneg_left (le_max_right (c.proj y) (c.proj z)) hb
    rw [h]
    calc a*c.proj y+b*c.proj z ≤ (a+b)*max (c.proj y) (c.proj z) := by
          rw [add_mul]; exact add_le_add hy hz
      _ = max (c.proj y) (c.proj z) := by rw [hab,one_mul]
  exact ⟨hmono hmin,hmono hmax⟩

/-- Between two points that are close to the chord all points are. -/
theorem distance_le_of_segment (hy : c.distance y ≤ e) (hz : c.distance z ≤ e) : c.distance x ≤ e := by
  obtain ⟨a,b,ha,hb,hab,rfl⟩ := hx
  have hplace : 0 ≤ a*c.place y+b*c.place z := add_nonneg (mul_nonneg ha clamp_nonneg) (mul_nonneg hb clamp_nonneg)
  have hplace' : a*c.place y+b*c.place z ≤ c.length := by
    calc a*c.place y+b*c.place z ≤ a*c.length+b*c.length :=
          add_le_add (mul_le_mul_of_nonneg_left clamp_le ha) (mul_le_mul_of_nonneg_left clamp_le hb)
      _ = c.length := by rw [← add_mul,hab,one_mul]
  have hsub : a • y+b • z - c.point (a*c.place y+b*c.place z) = a • (y - c.foot y)+b • (z - c.foot z) := by
    have hstart : c.start = a • c.start+b • c.start := by rw [← add_smul,hab,one_smul]
    rw [foot,foot,point,point,point]
    nth_rewrite 1 [hstart]
    module
  calc c.distance (a • y+b • z) ≤ ‖a • (y - c.foot y)+b • (z - c.foot z)‖ := hsub ▸ distance_le_norm hplace hplace'
    _ ≤ a*c.distance y+b*c.distance z := by
        refine (norm_add_le _ _).trans_eq ?_
        rw [norm_smul,norm_smul,Real.norm_of_nonneg ha,Real.norm_of_nonneg hb]
        rfl
    _ ≤ a*e+b*e := add_le_add (mul_le_mul_of_nonneg_left hy ha) (mul_le_mul_of_nonneg_left hz hb)
    _ = e := by rw [← add_mul,hab,one_mul]

end Between

/-- On the way from one point to another every place between theirs occurs. -/
theorem exists_place (hy : c.place y ≤ r) (hz : r ≤ c.place z) : ∃ x ∈ segment ℝ y z, c.place x = r := by
  have hcont : Continuous fun t : ℝ => c.place (AffineMap.lineMap y z t) := by
    simp only [place,clamp,proj,AffineMap.lineMap_apply]
    fun_prop
  have hmem : r ∈ Set.Icc (c.place (AffineMap.lineMap y z (0 : ℝ))) (c.place (AffineMap.lineMap y z (1 : ℝ))) := by
    rw [AffineMap.lineMap_apply_zero,AffineMap.lineMap_apply_one]
    exact ⟨hy,hz⟩
  obtain ⟨t,ht,heq⟩ := intermediate_value_Icc zero_le_one hcont.continuousOn hmem
  refine ⟨AffineMap.lineMap y z t,?_,heq⟩
  rw [segment_eq_image_lineMap]
  exact ⟨t,ht,rfl⟩

theorem exists_crossing {f : Nat → ℝ} {first last : Nat} (hlt : first < last) (hfirst : f first ≤ r)
    (hlast : r ≤ f last) : ∃ k, first ≤ k ∧ k < last ∧ f k ≤ r ∧ r ≤ f (k+1) := by
  induction last, hlt using Nat.le_induction with
  | base => exact ⟨first,le_rfl,first.lt_succ_self,hfirst,hlast⟩
  | succ last _ ih =>
    by_cases h : r ≤ f last
    · obtain ⟨k,hk,hk',hcross⟩ := ih h
      exact ⟨k,hk,hk'.trans last.lt_succ_self,hcross⟩
    · exact ⟨last,by omega,last.lt_succ_self,(not_le.mp h).le,hlast⟩

/-- A chain of points from the start of a chord to its end that stays close to it. -/
structure Follows (c : Chord V) (chain : Nat → V) (first last : Nat) (e : ℝ) : Prop where
  lt : first < last
  start : chain first = c.start
  finish : c.direction = 0 ∨ c.place (chain last) = c.length
  close : ∀ k, first ≤ k → k ≤ last → c.distance (chain k) ≤ e

namespace Follows
variable {chain : Nat → V} {first last k : Nat} (h : c.Follows chain first last e)
include h

theorem distance_le (hk : first ≤ k) (hk' : k < last) (hy : y ∈ segment ℝ (chain k) (chain (k+1))) :
    c.distance y ≤ e :=
  distance_le_of_segment hy (h.close k hk hk'.le) (h.close (k+1) (hk.trans k.le_succ) hk')

/-- The chain is not nearer than the chord, up to the error. -/
theorem distance_le_add_error (hk : first ≤ k) (hk' : k < last) (hy : y ∈ segment ℝ (chain k) (chain (k+1))) :
    c.distance x ≤ ‖x - y‖ + e :=
  distance_le_add.trans (add_le_add le_rfl (h.distance_le hk hk' hy))

/-- The chain passes the nearest point of the chord. -/
theorem exists_near (x : V) : ∃ k, first ≤ k ∧ k < last ∧
    ∃ y ∈ segment ℝ (chain k) (chain (k+1)), ‖x - y‖ ≤ c.distance x+e := by
  have hlt := h.lt
  have hnonneg := distance_nonneg.trans (h.close first le_rfl hlt.le)
  rcases h.finish with hzero | hfinish
  · refine ⟨first,le_rfl,hlt,chain first,left_mem_segment ℝ _ _,?_⟩
    rw [distance_of_direction_zero hzero,h.start]
    exact le_add_of_nonneg_right hnonneg
  · have hfirst : c.place (chain first) ≤ c.place x := by
      rw [place,proj,h.start,sub_self,inner_zero_left,clamp_eq le_rfl c.length_nonneg]
      exact clamp_nonneg
    obtain ⟨k,hk,hk',hle,hge⟩ := exists_crossing (f := fun k => c.place (chain k)) hlt hfirst
      (clamp_le.trans_eq hfinish.symm)
    obtain ⟨y,hy,hplace⟩ := exists_place hle hge
    refine ⟨k,hk,hk',y,hy,?_⟩
    have hfoot : c.foot y = c.foot x := congrArg c.point hplace
    calc ‖x - y‖ = ‖(x - c.foot x)+(c.foot y - y)‖ := by rw [hfoot,sub_add_sub_cancel]
      _ ≤ ‖x - c.foot x‖ + ‖c.foot y - y‖ := norm_add_le _ _
      _ ≤ c.distance x+e := add_le_add le_rfl ((norm_sub_rev _ _).trans_le (h.distance_le hk hk' hy))

/-- Where both ends of a link are out of the window, no point of the link is in reach. -/
theorem lt_norm_add_error {bound window : ℝ} (hone : ‖c.direction‖ = 1) (hwindow : 0 ≤ window)
    (hbound : bound^2 - (‖x - c.start‖ ^ 2 - c.proj x^2) = window^2) (hk : first ≤ k) (hk' : k < last)
    (hout : (c.place (chain k) < c.proj x - window ∧ c.place (chain (k+1)) < c.proj x - window) ∨
      (c.proj x+window < c.place (chain k) ∧ c.proj x+window < c.place (chain (k+1))))
    (hy : y ∈ segment ℝ (chain k) (chain (k+1))) : bound < ‖x - y‖ + e := by
  obtain ⟨hmin,hmax⟩ := place_between (c := c) hy
  have hout' : c.place y < c.proj x - window ∨ c.proj x+window < c.place y :=
    hout.imp (fun ⟨hl,hr⟩ => hmax.trans_lt (max_lt hl hr)) fun ⟨hl,hr⟩ => (lt_min hl hr).trans_le hmin
  calc bound < ‖x - c.foot y‖ := lt_norm_sub_point hone hwindow hbound hout'
    _ = ‖(x - y)+(y - c.foot y)‖ := by rw [sub_add_sub_cancel]
    _ ≤ ‖x - y‖ + e := (norm_add_le _ _).trans (add_le_add le_rfl (h.distance_le hk hk' hy))

end Follows
end Chord
end Apollo.Foundation
