import Apollo.Modules.Common.Math.LineSegment2d

/-! `CartesianFrenetConverter`: the state of a vehicle in the plane, and along and across a reference line. -/
namespace Apollo.Modules.Common.Math
open Real Option

structure FrenetReference (K : Type) where
  rs : K
  rx : K
  ry : K
  rtheta : K
  rkappa : K
  rdkappa : K

structure Condition (K : Type) where
  value : K
  first : K
  second : K

structure CartesianState (K : Type) where
  x : K
  y : K
  theta : K
  kappa : K
  v : K
  a : K

namespace CartesianFrenetConverter
variable {K : Type} [Field K] [LinearOrder K] (m : Cmath K) (ref : FrenetReference K)

/-- `std::copysign`. With exact numbers zero has no sign. -/
def copysign (magnitude sign : K) : K := if sign < 0 then -|magnitude| else |magnitude|

def cartesianToFrenet (state : CartesianState K) : Condition K × Condition K :=
  let dx := state.x - ref.rx
  let dy := state.y - ref.ry
  let cosThetaR := m.cos ref.rtheta
  let sinThetaR := m.sin ref.rtheta
  let crossRdNd := cosThetaR*dy - sinThetaR*dx
  let d0 := copysign (m.sqrt (dx*dx+dy*dy)) crossRdNd
  let deltaTheta := state.theta - ref.rtheta
  let tanDeltaTheta := m.tan deltaTheta
  let cosDeltaTheta := m.cos deltaTheta
  let oneMinusKappaRD := 1 - ref.rkappa*d0
  let d1 := oneMinusKappaRD*tanDeltaTheta
  let kappaRDPrime := ref.rdkappa*d0+ref.rkappa*d1
  let d2 := -kappaRDPrime*tanDeltaTheta+oneMinusKappaRD/cosDeltaTheta/cosDeltaTheta *
    (state.kappa*oneMinusKappaRD/cosDeltaTheta - ref.rkappa)
  let s1 := state.v*cosDeltaTheta/oneMinusKappaRD
  let deltaThetaPrime := oneMinusKappaRD/cosDeltaTheta*state.kappa - ref.rkappa
  let s2 := (state.a*cosDeltaTheta - s1*s1*(d1*deltaThetaPrime - kappaRDPrime))/oneMinusKappaRD
  (⟨ref.rs,s1,s2⟩, ⟨d0,d1,d2⟩)

/-- `none` is the failed check that `s` is that of the reference point. -/
def frenetToCartesian (s d : Condition K) : Option (CartesianState K) :=
  if |ref.rs - s.value| < 1/10^6 then
    let cosThetaR := m.cos ref.rtheta
    let sinThetaR := m.sin ref.rtheta
    let oneMinusKappaRD := 1 - ref.rkappa*d.value
    let tanDeltaTheta := d.first/oneMinusKappaRD
    let deltaTheta := m.atan2 d.first oneMinusKappaRD
    let cosDeltaTheta := m.cos deltaTheta
    let kappaRDPrime := ref.rdkappa*d.value+ref.rkappa*d.first
    let kappa := ((d.second+kappaRDPrime*tanDeltaTheta)*cosDeltaTheta*cosDeltaTheta/oneMinusKappaRD +
      ref.rkappa)*cosDeltaTheta/oneMinusKappaRD
    let dDot := d.first*s.first
    let deltaThetaPrime := oneMinusKappaRD/cosDeltaTheta*kappa - ref.rkappa
    some {
      x := ref.rx - sinThetaR*d.value
      y := ref.ry+cosThetaR*d.value
      theta := m.normalizeAngle (deltaTheta+ref.rtheta)
      kappa
      v := m.sqrt (oneMinusKappaRD*oneMinusKappaRD*s.first*s.first+dDot*dDot)
      a := s.second*oneMinusKappaRD/cosDeltaTheta +
        s.first*s.first/cosDeltaTheta*(d.first*deltaThetaPrime - kappaRDPrime) }
  else none

variable (ref : FrenetReference ℝ) (s d : Condition ℝ)

/-- The offset comes back with its sign. -/
theorem copysign_offset (angle offset : ℝ) : copysign (sqrt ((-(sin angle*offset))*(-(sin angle*offset)) +
      cos angle*offset*(cos angle*offset)))
      (cos angle*(cos angle*offset) - sin angle*(-(sin angle*offset))) = offset := by
  have hunit := sin_sq_add_cos_sq angle
  have hsquare : (-(sin angle*offset))*(-(sin angle*offset))+cos angle*offset*(cos angle*offset) = offset^2 := by
    linear_combination offset^2*hunit
  have hcross : cos angle*(cos angle*offset) - sin angle*(-(sin angle*offset)) = offset := by
    linear_combination offset*hunit
  rw [hsquare,hcross,sqrt_sq_eq_abs,copysign,abs_abs]
  split
  case isTrue h => rw [abs_of_neg h,neg_neg]
  case isFalse h => exact abs_of_nonneg (not_lt.mp h)

/-- The heading relative to the reference line, whose cosine is the part of the speed along it. -/
theorem cos_atan2 {w : ℝ} (first : ℝ) (hw : 0 < w) : cos (Cmath.real.atan2 first w) = w/sqrt (w^2+first^2) ∧
      tan (Cmath.real.atan2 first w) = first/w := by
  have hne : (⟨w,first⟩ : ℂ) ≠ 0 := fun h => hw.ne' (congrArg Complex.re h)
  constructor
  · refine (Complex.cos_arg hne).trans ?_
    rw [Complex.norm_def,Complex.normSq_mk,← sq,← sq]
  · exact Complex.tan_arg _

theorem turn_normalizeAngle (delta angle : ℝ) : cos (Cmath.real.normalizeAngle (delta+angle) - angle) = cos delta ∧
      tan (Cmath.real.normalizeAngle (delta+angle) - angle) = tan delta := by
  obtain ⟨n,hn⟩ := Cmath.real_normalizeAngle_eq (delta+angle)
  have hturn : Cmath.real.normalizeAngle (delta+angle) - angle = delta+n*(2*Real.pi) := by
    rw [hn]
    ring
  rw [hturn,tan_eq_sin_div_cos,cos_add_int_mul_two_pi,sin_add_int_mul_two_pi, ← tan_eq_sin_div_cos]
  exact ⟨rfl,rfl⟩

theorem speed_along {w speed : ℝ} (first : ℝ) (hw : 0 < w) (hspeed : 0 ≤ speed) :
    sqrt (w*w*speed*speed+first*speed*(first*speed))*(w/sqrt (w^2+first^2))/w = speed := by
  have hfactor : w*w*speed*speed+first*speed*(first*speed) = (w^2+first^2)*speed^2 := by ring
  rw [hfactor,sqrt_mul (by positivity),sqrt_sq hspeed]
  field_simp

variable {ref s d}

/-- The state comes back with the `s` of the reference point. -/
theorem cartesianToFrenet_frenetToCartesian (hw : 0 < 1 - ref.rkappa*d.value) (hs : 0 ≤ s.first)
    (hcheck : |ref.rs - s.value| < 1/10^6) :
    (frenetToCartesian .real ref s d).map (cartesianToFrenet .real ref) = some ({ s with value := ref.rs }, d) := by
  obtain ⟨hcos,htan⟩ := cos_atan2 d.first hw
  obtain ⟨hturnCos,hturnTan⟩ := turn_normalizeAngle (Cmath.real.atan2 d.first (1 - ref.rkappa*d.value)) ref.rtheta
  have hoffset := copysign_offset ref.rtheta d.value
  have hspeed := speed_along d.first hw hs
  have hdx : ref.rx - sin ref.rtheta*d.value - ref.rx = -(sin ref.rtheta*d.value) := by ring
  have hdy : ref.ry+cos ref.rtheta*d.value - ref.ry = cos ref.rtheta*d.value := by ring
  have hcosFn : Cmath.real.cos = cos := rfl
  have hsinFn : Cmath.real.sin = sin := rfl
  have htanFn : Cmath.real.tan = tan := rfl
  have hsqrtFn : Cmath.real.sqrt = sqrt := rfl
  have hpos : 0 < (1 - ref.rkappa*d.value)/sqrt ((1 - ref.rkappa*d.value)^2+d.first^2) :=
    div_pos hw (sqrt_pos.mpr (by positivity))
  rw [htan] at hturnTan
  simp only [frenetToCartesian,if_pos hcheck,map_some,cartesianToFrenet,hcosFn,hsinFn,htanFn,hsqrtFn,
    hturnCos,hturnTan,hdx,hdy,hoffset,hcos,hspeed]
  generalize hc : (1 - ref.rkappa*d.value)/sqrt ((1 - ref.rkappa*d.value)^2+d.first^2) = c at hpos
  generalize 1 - ref.rkappa*d.value = w at hw
  have hfirst : w*(d.first/w) = d.first := mul_div_cancel₀ _ hw.ne'
  rw [hfirst]
  refine congrArg some (Prod.ext ?_ ?_)
  · simp only [Condition.mk.injEq,true_and]
    field_simp
    ring
  · obtain ⟨_,_,_⟩ := d
    simp only [Condition.mk.injEq,true_and]
    field_simp
    ring

/-- The conversion to the plane and back returns the state with the `s` of the reference point, which must be that of
the state up to the tolerance of the check. -/
theorem frenet_roundTrip (ref : FrenetReference ℝ) (s d : Condition ℝ) (hw : 0 < 1 - ref.rkappa*d.value)
    (hs : 0 ≤ s.first) :
    (frenetToCartesian .real ref s d).map (cartesianToFrenet .real ref) =
      (if |ref.rs - s.value| < 1/10^6 then some ({ s with value := ref.rs }, d) else none) ∧
    ((frenetToCartesian .real ref s d).map (cartesianToFrenet .real ref) = some (s, d) ↔ ref.rs = s.value) := by
  have hback : (frenetToCartesian .real ref s d).map (cartesianToFrenet .real ref) =
      if |ref.rs - s.value| < 1/10^6 then some ({ s with value := ref.rs }, d) else none := by
    split
    case isTrue hcheck => exact cartesianToFrenet_frenetToCartesian hw hs hcheck
    case isFalse hcheck => rw [frenetToCartesian,if_neg hcheck,map_none]
  refine ⟨hback,?_⟩
  rw [hback]
  constructor
  · intro h
    split at h
    · exact congrArg (fun r => r.1.value) (some.inj h)
    · cases h
  · intro h
    have hcheck : |ref.rs - s.value| < 1/10^6 := by
      rw [h,sub_self,abs_zero]
      positivity
    rw [if_pos hcheck,h]

/-- On a curve of radius two, one to the inside, with all derivatives. -/
theorem frenet_roundTrip_curve : (frenetToCartesian .real ⟨10,1,2,3,1/2,1/10⟩ ⟨10,3,-1⟩ ⟨1,1/5,1/7⟩).map
      (cartesianToFrenet .real ⟨10,1,2,3,1/2,1/10⟩) = some (⟨10,3,-1⟩, ⟨1,1/5,1/7⟩) :=
  (frenet_roundTrip ⟨10,1,2,3,1/2,1/10⟩ ⟨10,3,-1⟩ ⟨1,1/5,1/7⟩ (by norm_num) (by norm_num)).2.mpr rfl

/-- Within the tolerance of the check `s` is replaced by that of the reference point, which is another one. -/
theorem frenet_roundTrip_replaces : ∃ result : Condition ℝ × Condition ℝ, (frenetToCartesian .real ⟨0,0,0,0,0,0⟩ ⟨1/10^7,0,0⟩
      ⟨0,0,0⟩).map (cartesianToFrenet .real ⟨0,0,0,0,0,0⟩) = some result ∧ result = (⟨0,0,0⟩, ⟨0,0,0⟩) ∧
    result.1 ≠ ⟨1/10^7,0,0⟩ := by
  refine ⟨_,cartesianToFrenet_frenetToCartesian (by norm_num) le_rfl (by norm_num [abs_of_pos]),rfl,fun h => ?_⟩
  injection h with hs
  norm_num at hs

end CartesianFrenetConverter
end Apollo.Modules.Common.Math
