import Apollo.Modules.Common.Math.AABoxKDTree2d
import Mathlib.Analysis.SpecialFunctions.Trigonometric.Arctan
import Apollo.Foundation.Chord
import Mathlib.Analysis.CStarAlgebra.Classes

/-! Points and line segments of the plane, with the functions of `<cmath>` as parameters. Over the real numbers the
distances to a segment are those of a chord, and `GetIntersect` finds a crossing if its tolerances let it. -/
namespace Apollo.Modules.Common.Math

structure Cmath (K : Type) where
  sqrt : K → K
  cos : K → K
  sin : K → K
  tan : K → K
  atan : K → K
  atan2 : K → K → K
  fmod : K → K → K
  pi : K

variable {K : Type}

structure LineSegment2d (K : Type) where
  start : Vec2d K
  end_ : Vec2d K
  unitDirection : Vec2d K
  length : K

variable [Field K] [LinearOrder K]

def Cmath.hypot (m : Cmath K) (x y : K) : K := m.sqrt (x*x+y*y)

def Cmath.normalizeAngle (m : Cmath K) (angle : K) : K :=
  let a := m.fmod (angle+m.pi) (2*m.pi)
  if a < 0 then a+2*m.pi - m.pi else a - m.pi

namespace Vec2d

def add (p q : Vec2d K) : Vec2d K := ⟨p.x+q.x,p.y+q.y⟩

def sub (p q : Vec2d K) : Vec2d K := ⟨p.x - q.x,p.y - q.y⟩

def innerProd (p q : Vec2d K) : K := p.x*q.x+p.y*q.y

def crossProd (p q : Vec2d K) : K := p.x*q.y - p.y*q.x

def length (m : Cmath K) (p : Vec2d K) : K := m.hypot p.x p.y

def distanceTo (m : Cmath K) (p q : Vec2d K) : K := m.hypot (p.x - q.x) (p.y - q.y)

/-- A point is on the segment between two others. -/
def Between (p q point : Vec2d K) : Prop :=
  ∃ t, 0 ≤ t ∧ t ≤ 1 ∧ point.x = p.x+t*(q.x - p.x) ∧ point.y = p.y+t*(q.y - p.y)

/-- A point is on the segment, up to the tolerance in each coordinate. -/
def NearlyBetween (p q point : Vec2d K) : Prop :=
  ∃ foot : Vec2d K, p.Between q foot ∧ |point.x - foot.x| ≤ mathEpsilon ∧ |point.y - foot.y| ≤ mathEpsilon

end Vec2d

def crossProdFrom (startPoint endPoint1 endPoint2 : Vec2d K) : K :=
  (endPoint1.sub startPoint).crossProd (endPoint2.sub startPoint)

def isWithin (val bound1 bound2 : K) : Bool :=
  if bound2 < bound1 then bound2 - mathEpsilon ≤ val && val ≤ bound1+mathEpsilon
  else bound1 - mathEpsilon ≤ val && val ≤ bound2+mathEpsilon

namespace LineSegment2d

def ofEnds (m : Cmath K) (start end_ : Vec2d K) : LineSegment2d K :=
  let dx := end_.x - start.x
  let dy := end_.y - start.y
  let length := m.hypot dx dy
  ⟨start,end_,if length ≤ mathEpsilon then ⟨0,0⟩ else ⟨dx/length,dy/length⟩,length⟩

def distanceTo (m : Cmath K) (segment : LineSegment2d K) (point : Vec2d K) : K :=
  if segment.length ≤ mathEpsilon then point.distanceTo m segment.start
  else
    let x0 := point.x - segment.start.x
    let y0 := point.y - segment.start.y
    let proj := x0*segment.unitDirection.x+y0*segment.unitDirection.y
    if proj ≤ 0 then m.hypot x0 y0
    else if segment.length ≤ proj then point.distanceTo m segment.end_
    else |x0*segment.unitDirection.y - y0*segment.unitDirection.x|

def distanceSquareTo (segment : LineSegment2d K) (point : Vec2d K) : K :=
  if segment.length ≤ mathEpsilon then point.distanceSquareTo segment.start
  else
    let x0 := point.x - segment.start.x
    let y0 := point.y - segment.start.y
    let proj := x0*segment.unitDirection.x+y0*segment.unitDirection.y
    if proj ≤ 0 then square x0+square y0
    else if segment.length ≤ proj then point.distanceSquareTo segment.end_
    else square (x0*segment.unitDirection.y - y0*segment.unitDirection.x)

def projectOntoUnit (segment : LineSegment2d K) (point : Vec2d K) : K :=
  segment.unitDirection.innerProd (point.sub segment.start)

def productOntoUnit (segment : LineSegment2d K) (point : Vec2d K) : K :=
  segment.unitDirection.crossProd (point.sub segment.start)

def isPointIn (segment : LineSegment2d K) (point : Vec2d K) : Bool :=
  if segment.length ≤ mathEpsilon then
    |point.x - segment.start.x| ≤ mathEpsilon && |point.y - segment.start.y| ≤ mathEpsilon
  else
    let prod := crossProdFrom point segment.start segment.end_
    if mathEpsilon < |prod| then false
    else isWithin point.x segment.start.x segment.end_.x && isWithin point.y segment.start.y segment.end_.y

/-- `none` is the result `false`. -/
def getIntersect (segment other : LineSegment2d K) : Option (Vec2d K) :=
  if segment.isPointIn other.start then some other.start
  else if segment.isPointIn other.end_ then some other.end_
  else if other.isPointIn segment.start then some segment.start
  else if other.isPointIn segment.end_ then some segment.end_
  else if segment.length ≤ mathEpsilon ∨ other.length ≤ mathEpsilon then none
  else
    let cc1 := crossProdFrom segment.start segment.end_ other.start
    let cc2 := crossProdFrom segment.start segment.end_ other.end_
    if -mathEpsilon ≤ cc1*cc2 then none
    else
      let cc3 := crossProdFrom other.start other.end_ segment.start
      let cc4 := crossProdFrom other.start other.end_ segment.end_
      if -mathEpsilon ≤ cc3*cc4 then none
      else
        let ratio := cc4/(cc4 - cc3)
        some ⟨segment.start.x*ratio+segment.end_.x*(1 - ratio), segment.start.y*ratio+segment.end_.y*(1 - ratio)⟩

end LineSegment2d

section Real
open Foundation Vec2d Chord Complex Cmath
variable {p q : Vec2d ℝ}

noncomputable def Cmath.real : Cmath ℝ where
  sqrt := Real.sqrt
  cos := Real.cos
  sin := Real.sin
  tan := Real.tan
  atan := Real.arctan
  atan2 y x := arg ⟨x,y⟩
  fmod x y := x - y*if 0 ≤ x/y then (⌊x/y⌋ : ℝ) else (⌈x/y⌉ : ℝ)
  pi := Real.pi

theorem Cmath.real_atan2_zero {x : ℝ} (h : 0 ≤ x) : real.atan2 0 x = 0 := arg_ofReal_of_nonneg h

theorem Cmath.real_atan2_unit {x y : ℝ} (h : x^2+y^2 = 1) :
    Real.cos (real.atan2 y x) = x ∧ Real.sin (real.atan2 y x) = y := by
  have hsq : normSq ⟨x,y⟩ = 1 := by
    rw [normSq_mk]
    linear_combination h
  have hnorm : ‖(⟨x,y⟩ : ℂ)‖ = 1 := by rw [norm_def,hsq,Real.sqrt_one]
  constructor
  · refine (cos_arg (norm_ne_zero_iff.mp (hnorm.trans_ne one_ne_zero))).trans ?_
    rw [hnorm,div_one]
  · refine (sin_arg _).trans ?_
    rw [hnorm,div_one]

theorem Cmath.real_normalizeAngle_eq (angle : ℝ) :
    ∃ n : ℤ, real.normalizeAngle angle = angle+n*(2*Real.pi) := by
  obtain ⟨n,hn⟩ : ∃ n : ℤ, real.fmod (angle+Real.pi) (2*Real.pi) = angle+Real.pi - 2*Real.pi*n := by
    by_cases h : 0 ≤ (angle+Real.pi)/(2*Real.pi)
    · exact ⟨⌊(angle+Real.pi)/(2*Real.pi)⌋,by simp only [real,if_pos h]⟩
    · exact ⟨⌈(angle+Real.pi)/(2*Real.pi)⌉,by simp only [real,if_neg h]⟩
  rw [normalizeAngle]
  change ∃ m : ℤ, (if real.fmod (angle+Real.pi) (2*Real.pi) < 0 then
    real.fmod (angle+Real.pi) (2*Real.pi)+2*Real.pi - Real.pi
    else real.fmod (angle+Real.pi) (2*Real.pi) - Real.pi) = angle+m*(2*Real.pi)
  rw [hn]
  split
  · refine ⟨1 - n,?_⟩
    push_cast
    ring
  · refine ⟨-n,?_⟩
    push_cast
    ring

namespace Vec2d

def toComplex (p : Vec2d ℝ) : ℂ := ⟨p.x,p.y⟩

theorem norm_sub_sq (p q : Vec2d ℝ) : ‖p.toComplex - q.toComplex‖ ^ 2 = (p.x - q.x)^2+(p.y - q.y)^2 := by
  rw [Complex.sq_norm,Complex.normSq_apply]
  simp only [toComplex,Complex.sub_re,Complex.sub_im]
  ring

theorem hypot_eq_norm (p q : Vec2d ℝ) : Cmath.real.hypot (p.x - q.x) (p.y - q.y) = ‖p.toComplex - q.toComplex‖ := by
  have hsq : (p.x - q.x)*(p.x - q.x)+(p.y - q.y)*(p.y - q.y) = ‖p.toComplex - q.toComplex‖ ^ 2 := by
    rw [norm_sub_sq]
    ring
  exact (congrArg Real.sqrt hsq).trans (Real.sqrt_sq (norm_nonneg _))

theorem distanceTo_eq_norm (p q : Vec2d ℝ) : p.distanceTo .real q = ‖p.toComplex - q.toComplex‖ := hypot_eq_norm p q

theorem distanceSquareTo_eq_norm (p q : Vec2d ℝ) : p.distanceSquareTo q = ‖p.toComplex - q.toComplex‖ ^ 2 := by
  rw [norm_sub_sq,distanceSquareTo,square,square]
  ring

end Vec2d

namespace LineSegment2d
variable (start end_ : Vec2d ℝ)

theorem ofEnds_start : (ofEnds .real start end_).start = start := rfl

theorem ofEnds_end : (ofEnds .real start end_).end_ = end_ := rfl

theorem ofEnds_length : (ofEnds .real start end_).length = ‖end_.toComplex - start.toComplex‖ :=
  hypot_eq_norm end_ start

theorem mathEpsilon_pos : (0 : ℝ) < mathEpsilon := by
  rw [mathEpsilon]
  positivity

section
variable (h : ¬ (ofEnds .real start end_).length ≤ mathEpsilon)
include h

theorem unitDirection_toComplex : (ofEnds .real start end_).length • (ofEnds .real start end_).unitDirection.toComplex =
      end_.toComplex - start.toComplex := by
  have hpos := mathEpsilon_pos.trans (not_le.mp h)
  have hunit : (ofEnds .real start end_).unitDirection =
      ⟨(end_.x - start.x)/(ofEnds .real start end_).length,(end_.y - start.y)/(ofEnds .real start end_).length⟩ :=
    if_neg h
  rw [hunit]
  apply ext
  · simp only [real_smul,toComplex,mul_re,ofReal_re,ofReal_im,zero_mul, sub_zero,sub_re]
    exact mul_div_cancel₀ _ hpos.ne'
  · simp only [real_smul,toComplex,mul_im,ofReal_re,ofReal_im,zero_mul, add_zero,sub_im]
    exact mul_div_cancel₀ _ hpos.ne'

theorem unitDirection_norm : ‖(ofEnds .real start end_).unitDirection.toComplex‖ = 1 := by
  have hpos := mathEpsilon_pos.trans (not_le.mp h)
  have hnorm := congrArg norm (unitDirection_toComplex start end_ h)
  rw [norm_smul,Real.norm_of_nonneg hpos.le,← ofEnds_length] at hnorm
  exact (mul_eq_left₀ hpos.ne').mp hnorm

end

theorem unitDirection_zero (h : (ofEnds .real start end_).length ≤ mathEpsilon) :
    (ofEnds .real start end_).unitDirection.toComplex = 0 :=
  congrArg toComplex (if_pos h)

noncomputable def chord : Chord ℂ where
  start := start.toComplex
  direction := (ofEnds .real start end_).unitDirection.toComplex
  length := (ofEnds .real start end_).length
  unit := by
    by_cases h : (ofEnds .real start end_).length ≤ mathEpsilon
    · exact .inl (unitDirection_zero start end_ h)
    · exact .inr (unitDirection_norm start end_ h)
  length_nonneg := by
    rw [ofEnds_length]
    exact norm_nonneg _

variable {start end_} {point : Vec2d ℝ}

theorem along_eq : (point.x - start.x)*(ofEnds .real start end_).unitDirection.x +
    (point.y - start.y)*(ofEnds .real start end_).unitDirection.y = (chord start end_).proj point.toComplex := by
  rw [proj,Complex.inner]
  simp only [chord,toComplex,map_sub,Complex.mul_re,Complex.sub_re,Complex.sub_im,Complex.conj_re, Complex.conj_im]
  ring

theorem projectOntoUnit_eq :
    (ofEnds .real start end_).projectOntoUnit point = (chord start end_).proj point.toComplex := by
  rw [← along_eq,projectOntoUnit,innerProd,sub,mul_comm,add_comm,mul_comm,add_comm]
  rfl

theorem proj_start : (chord start end_).proj start.toComplex = 0 := by
  rw [proj]
  exact (congrArg (inner ℝ · _) (sub_self start.toComplex)).trans (inner_zero_left _)

theorem place_start : (chord start end_).place start.toComplex = 0 := by
  rw [place,proj_start]
  exact clamp_eq le_rfl (chord start end_).length_nonneg

theorem distance_start : (chord start end_).distance start.toComplex = 0 := by
  rw [distance_of_proj_nonpos proj_start.le]
  exact (congrArg norm (sub_self start.toComplex)).trans norm_zero

theorem distance_of_short (h : (ofEnds .real start end_).length ≤ mathEpsilon) :
    (chord start end_).distance point.toComplex = (ofEnds .real start point).length := by
  rw [distance_of_direction_zero (unitDirection_zero start end_ h),ofEnds_length]
  rfl

section Direction
variable (h : ¬ (ofEnds .real start end_).length ≤ mathEpsilon)
include h

theorem chord_end : (chord start end_).point (chord start end_).length = end_.toComplex := by
  rw [point]
  exact (congrArg _ (unitDirection_toComplex start end_ h)).trans (add_sub_cancel _ _)

theorem across_sq : ((point.x - start.x)*(ofEnds .real start end_).unitDirection.y -
    (point.y - start.y)*(ofEnds .real start end_).unitDirection.x)^2 =
      ‖point.toComplex - start.toComplex‖ ^ 2 - (chord start end_).proj point.toComplex^2 := by
  have hunit : (ofEnds .real start end_).unitDirection.x^2+(ofEnds .real start end_).unitDirection.y^2 = 1 := by
    have hnorm := congrArg (· ^ 2) (unitDirection_norm start end_ h)
    simp only [Complex.sq_norm,Complex.normSq_apply,toComplex] at hnorm
    linarith
  rw [← along_eq,norm_sub_sq]
  linear_combination ((point.x - start.x)^2+(point.y - start.y)^2)*hunit

theorem square_productOntoUnit : square ((ofEnds .real start end_).productOntoUnit point) =
    ‖point.toComplex - start.toComplex‖ ^ 2 - (chord start end_).proj point.toComplex^2 := by
  rw [← across_sq h,square,productOntoUnit,crossProd,sub,ofEnds_start]
  ring

theorem abs_across (hproj : 0 ≤ (chord start end_).proj point.toComplex)
    (hproj' : (chord start end_).proj point.toComplex ≤ (chord start end_).length) :
    |(point.x - start.x)*(ofEnds .real start end_).unitDirection.y -
      (point.y - start.y)*(ofEnds .real start end_).unitDirection.x| =
        (chord start end_).distance point.toComplex := by
  have hone := unitDirection_norm start end_ h
  have hsq := (sq_distance_of_between hone hproj hproj').trans (across_sq h).symm
  rw [← Real.sqrt_sq_eq_abs,← hsq,Real.sqrt_sq distance_nonneg]

theorem proj_end : (chord start end_).proj end_.toComplex = (chord start end_).length := by
  have hone : ‖(chord start end_).direction‖ = 1 := unitDirection_norm start end_ h
  have hend : end_.toComplex - (chord start end_).start = (chord start end_).length • (chord start end_).direction :=
    (unitDirection_toComplex start end_ h).symm
  rw [proj,hend,inner_smul_left,real_inner_self_eq_norm_sq,hone,one_pow,mul_one]
  rfl

theorem place_end : (chord start end_).place end_.toComplex = (chord start end_).length := by
  rw [place,proj_end h]
  exact clamp_eq (chord start end_).length_nonneg le_rfl

theorem distance_end : (chord start end_).distance end_.toComplex = 0 := by
  rw [distance_of_length_le (proj_end h).ge,chord_end h,sub_self,norm_zero]

theorem foot_mem_segment (x : ℂ) : (chord start end_).foot x ∈ segment ℝ start.toComplex end_.toComplex := by
  have hpos := mathEpsilon_pos.trans (not_le.mp h)
  rw [segment_eq_image']
  refine ⟨(chord start end_).place x/(chord start end_).length,
    ⟨div_nonneg clamp_nonneg hpos.le,(div_le_one hpos).mpr clamp_le⟩,?_⟩
  have hend := unitDirection_toComplex start end_ h
  change start.toComplex+_ • (end_.toComplex - start.toComplex) = _
  rw [← hend,smul_smul]
  exact congrArg (fun r : ℝ => start.toComplex+r • _) (div_mul_cancel₀ _ hpos.ne')

theorem distance_le_of_mem_segment {x y : ℂ} (hy : y ∈ segment ℝ start.toComplex end_.toComplex) :
    (chord start end_).distance x ≤ ‖x - y‖ := by
  have hnonneg := (chord start end_).length_nonneg
  rw [segment_eq_image'] at hy
  obtain ⟨t,⟨ht,ht'⟩,rfl⟩ := hy
  have hpoint : start.toComplex+t • (end_.toComplex - start.toComplex) =
      (chord start end_).point (t*(chord start end_).length) := by
    rw [← unitDirection_toComplex start end_ h,smul_smul]
    rfl
  simp only [hpoint]
  exact distance_le_norm (mul_nonneg ht hnonneg) (mul_le_of_le_one_left hnonneg ht')

end Direction

theorem projectOntoUnit_of_short (h : (ofEnds .real start end_).length ≤ mathEpsilon) :
    (ofEnds .real start end_).projectOntoUnit point = 0 := by
  rw [projectOntoUnit_eq,proj,show (chord start end_).direction = 0 from unitDirection_zero start end_ h,
    inner_zero_right]

theorem square_productOntoUnit_le : square ((ofEnds .real start end_).productOntoUnit point) ≤
    (chord start end_).distance point.toComplex^2 := by
  by_cases h : (ofEnds .real start end_).length ≤ mathEpsilon
  · have hzero : (ofEnds .real start end_).unitDirection = ⟨0,0⟩ := if_pos h
    rw [productOntoUnit,hzero,crossProd,zero_mul,zero_mul,sub_zero,square,mul_zero]
    exact sq_nonneg _
  · rw [square_productOntoUnit h,distance,foot,sq_norm_sub_point (unitDirection_norm start end_ h)]
    exact le_add_of_nonneg_right (sq_nonneg _)

theorem distanceSquareTo_eq :
    (ofEnds .real start end_).distanceSquareTo point = (chord start end_).distance point.toComplex^2 := by
  simp only [distanceSquareTo,ofEnds_start,ofEnds_end,along_eq]
  by_cases h : (ofEnds .real start end_).length ≤ mathEpsilon
  · rw [if_pos h,distance_of_direction_zero (unitDirection_zero start end_ h)]
    exact distanceSquareTo_eq_norm point start
  rw [if_neg h]
  by_cases hproj : (chord start end_).proj point.toComplex ≤ 0
  · rw [if_pos hproj,distance_of_proj_nonpos hproj]
    exact distanceSquareTo_eq_norm point start
  rw [if_neg hproj]
  by_cases hlength : (ofEnds .real start end_).length ≤ (chord start end_).proj point.toComplex
  · rw [if_pos hlength,distance_of_length_le hlength,chord_end h]
    exact distanceSquareTo_eq_norm point end_
  · have hone := unitDirection_norm start end_ h
    rw [if_neg hlength,sq_distance_of_between hone (not_le.mp hproj).le (not_le.mp hlength).le,square,← sq]
    exact across_sq h

theorem between_nearlyBetween {p q : Vec2d ℝ} (h : p.Between q point) : p.NearlyBetween q point := by
  refine ⟨point,h,?_,?_⟩ <;> rw [sub_self,abs_zero] <;> exact mathEpsilon_pos.le

theorem start_nearlyBetween (p q : Vec2d ℝ) : p.NearlyBetween q p :=
  between_nearlyBetween ⟨0,le_rfl,zero_le_one,by ring,by ring⟩

theorem end_nearlyBetween (p q : Vec2d ℝ) : p.NearlyBetween q q :=
  between_nearlyBetween ⟨1,zero_le_one,le_rfl,by ring,by ring⟩

theorem isPointIn_of_far (hlength : mathEpsilon < (ofEnds .real start end_).length)
    (h : mathEpsilon < |crossProdFrom start end_ point|) : ¬ (ofEnds .real start end_).isPointIn point = true := by
  have hcyclic : crossProdFrom point start end_ = crossProdFrom start end_ point := by
    simp only [crossProdFrom,crossProd,sub]
    ring
  rw [isPointIn,if_neg (not_le.mpr hlength)]
  rw [ofEnds_start,ofEnds_end,hcyclic,if_pos h]
  exact Bool.false_ne_true

variable {start' end' : Vec2d ℝ}

theorem ratio_of_mul_neg {p q : ℝ} (h : p*q < 0) : p - q ≠ 0 ∧ 0 ≤ p/(p - q) ∧ p/(p - q) ≤ 1 := by
  obtain ⟨hp,hq⟩ | ⟨hp,hq⟩ := mul_neg_iff.mp h
  · have hpos : 0 < p - q := by linarith
    exact ⟨hpos.ne',div_nonneg hp.le hpos.le,(div_le_one hpos).mpr (by linarith)⟩
  · have hneg : p - q < 0 := by linarith
    exact ⟨hneg.ne,div_nonneg_of_nonpos hp.le hneg.le,(div_le_one_of_neg hneg).mpr (by linarith)⟩

/-- The point of the last step is on both segments. -/
theorem crossing_between {ratio : ℝ}
    (hratio : ratio = crossProdFrom start' end' end_/(crossProdFrom start' end' end_ - crossProdFrom start' end' start))
    (h12 : crossProdFrom start end_ start' * crossProdFrom start end_ end' < 0)
    (h34 : crossProdFrom start' end' end_*crossProdFrom start' end' start < 0) :
    start.Between end_ ⟨start.x*ratio+end_.x*(1 - ratio),start.y*ratio+end_.y*(1 - ratio)⟩ ∧
      start'.Between end' ⟨start.x*ratio+end_.x*(1 - ratio),start.y*ratio+end_.y*(1 - ratio)⟩ := by
  obtain ⟨_,_,_⟩ := ratio_of_mul_neg h34
  obtain ⟨_,hnonneg',hle'⟩ := ratio_of_mul_neg h12
  have hdet : crossProdFrom start end_ start' - crossProdFrom start end_ end' =
      crossProdFrom start' end' end_ - crossProdFrom start' end' start := by
    simp only [crossProdFrom,crossProd,sub]
    ring
  constructor
  · refine ⟨1 - ratio,by linarith,by linarith,?_,?_⟩ <;> ring
  · refine ⟨_,hnonneg',hle',?_,?_⟩
    all_goals
      rw [hdet,hratio]
      field_simp
      simp only [crossProdFrom,crossProd,sub]
      ring

/-- The first end that `IsPointIn` accepts is on the other segment up to the tolerance. If none is accepted, then both
products of cross products exceed it. -/
def Meet (start end_ start' end' : Vec2d ℝ) : Prop :=
  if (ofEnds .real start end_).isPointIn start' then start.NearlyBetween end_ start'
  else if (ofEnds .real start end_).isPointIn end' then start.NearlyBetween end_ end'
  else if (ofEnds .real start' end').isPointIn start then start'.NearlyBetween end' start
  else if (ofEnds .real start' end').isPointIn end_ then start'.NearlyBetween end' end_
  else crossProdFrom start end_ start' * crossProdFrom start end_ end' < -mathEpsilon ∧
    crossProdFrom start' end' start*crossProdFrom start' end' end_ < -mathEpsilon

theorem exists_some_iff {P : Vec2d ℝ → Prop} : (∃ x, some point = some x ∧ P x) ↔ P point := by
  simp only [Option.some_inj,exists_eq_left']

theorem not_exists_none {P : Vec2d ℝ → Prop} : ¬ ∃ x, none = some x ∧ P x := by
  rintro ⟨_,h,-⟩
  cases h

/-- Ends that are on different sides of a segment, but whose cross products are small, are lost. -/
theorem getIntersect_of_small (hlength : mathEpsilon < (ofEnds .real start end_).length)
    (hlength' : mathEpsilon < (ofEnds .real start' end').length)
    (h1 : mathEpsilon < |crossProdFrom start end_ start'|) (h2 : mathEpsilon < |crossProdFrom start end_ end'|)
    (h3 : mathEpsilon < |crossProdFrom start' end' start|) (h4 : mathEpsilon < |crossProdFrom start' end' end_|)
    (hsmall : -mathEpsilon ≤ crossProdFrom start end_ start' * crossProdFrom start end_ end') :
    (ofEnds .real start end_).getIntersect (ofEnds .real start' end') = none := by
  refine (if_neg (isPointIn_of_far hlength h1)).trans ((if_neg (isPointIn_of_far hlength h2)).trans
    ((if_neg (isPointIn_of_far hlength' h3)).trans ((if_neg (isPointIn_of_far hlength' h4)).trans ?_)))
  exact (if_neg (not_or.mpr ⟨not_le.mpr hlength,not_le.mpr hlength'⟩)).trans (if_pos hsmall)

theorem ofEnds_length_axis {x y r : ℝ} (hr : 0 ≤ r) :
    (ofEnds .real ⟨x,y⟩ ⟨x+r,y⟩).length = r ∧ (ofEnds .real ⟨x,y⟩ ⟨x,y+r⟩).length = r := by
  constructor
  · change Real.sqrt ((x+r - x)*(x+r - x)+(y - y)*(y - y)) = r
    rw [show (x+r - x)*(x+r - x)+(y - y)*(y - y) = r^2 by ring,Real.sqrt_sq hr]
  · change Real.sqrt ((x - x)*(x - x)+(y+r - y)*(y+r - y)) = r
    rw [show (x - x)*(x - x)+(y+r - y)*(y+r - y) = r^2 by ring,Real.sqrt_sq hr]

end LineSegment2d

end Real

end Apollo.Modules.Common.Math
