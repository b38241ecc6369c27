import Apollo.Modules.Common.Math.LineSegment2d

/-! Linear interpolation, and `PathMatcher` with it. The points of a path are interpolated by their `s`. -/
namespace Apollo.Modules.Common.Math
open List Real
variable {K : Type}

structure PathPoint (K : Type) where
  x : K
  y : K
  theta : K
  s : K

variable [Field K] [LinearOrder K]

def lerp (x0 t0 x1 t1 t : K) : K := if |t1 - t0| ≤ 1/10^6 then x0 else x0+(t - t0)/(t1 - t0)*(x1 - x0)

variable (m : Cmath K)

def slerp (a0 t0 a1 t1 t : K) : K :=
  if |t1 - t0| ≤ mathEpsilon then m.normalizeAngle a0
  else
    let d := m.normalizeAngle a1 - m.normalizeAngle a0
    let turn := if m.pi < d then d - 2*m.pi else if d < -m.pi then d+2*m.pi else d
    m.normalizeAngle (m.normalizeAngle a0+turn*((t - t0)/(t1 - t0)))

namespace PathPoint

def zero : PathPoint K := ⟨0,0,0,0⟩

def interpolate (p0 p1 : PathPoint K) (s : K) : PathPoint K :=
  let weight := (s - p0.s)/(p1.s - p0.s)
  { x := (1 - weight)*p0.x+weight*p1.x
    y := (1 - weight)*p0.y+weight*p1.y
    theta := slerp m p0.theta p0.s p1.theta p1.s s
    s := s }

def distanceSquare (point : PathPoint K) (x y : K) : K := (point.x - x)*(point.x - x)+(point.y - y)*(point.y - y)

end PathPoint

namespace PathMatcher

def findProjectionPoint (p0 p1 : PathPoint K) (x y : K) : PathPoint K :=
  let v1x := p1.x - p0.x
  let v1y := p1.y - p0.y
  let dot := (x - p0.x)*v1x+(y - p0.y)*v1y
  p0.interpolate m p1 (p0.s+dot/m.sqrt (v1x*v1x+v1y*v1y))

def indexMin (first : PathPoint K) (points : List (PathPoint K)) (x y : K) : Nat :=
  ((points.zipIdx 1).foldl (fun nearest e =>
    if e.1.distanceSquare x y < nearest.2 then (e.2, e.1.distanceSquare x y) else nearest)
    (0, first.distanceSquare x y)).1

/-- The projection of a position onto the points before and after the nearest one. A path without points fails
the check. -/
def matchToPath (referenceLine : List (PathPoint K)) (x y : K) : Option (PathPoint K) :=
  match referenceLine with
  | [] => none
  | first::points =>
    let index := indexMin first points x y
    let indexStart := index - 1
    let indexEnd := if index+1 = referenceLine.length then index else index+1
    if indexStart = indexEnd then referenceLine[indexStart]?
    else
      match referenceLine[indexStart]?, referenceLine[indexEnd]? with
      | some p0, some p1 => some (findProjectionPoint m p0 p1 x y)
      | _, _ => none

/-- The `s` of the projection and the signed distance from it. A side of zero counts as positive. -/
def getPathFrenetCoordinate (referenceLine : List (PathPoint K)) (x y : K) : Option (K × K) :=
  (matchToPath m referenceLine x y).map fun matched =>
    let deltaX := x - matched.x
    let deltaY := y - matched.y
    let side := m.cos matched.theta*deltaY - m.sin matched.theta*deltaX
    (matched.s, if side < 0 then -m.hypot deltaX deltaY else m.hypot deltaX deltaY)

def axis : List (PathPoint K) := [⟨0,0,0,0⟩,⟨10,0,0,10⟩]

theorem normalizeAngle_zero : Cmath.real.normalizeAngle 0 = 0 := by
  have hratio : Real.pi/(2*Real.pi) = 1/2 := by
    rw [div_mul_cancel_right₀ Real.pi_ne_zero,one_div]
  have hfloor : ⌊(1/2 : ℝ)⌋ = 0 := by norm_num
  have hfmod : Cmath.real.fmod (0+Real.pi) (2*Real.pi) = Real.pi := by
    show 0+Real.pi - 2*Real.pi*(if 0 ≤ (0+Real.pi)/(2*Real.pi) then
      (⌊(0+Real.pi)/(2*Real.pi)⌋ : ℝ) else (⌈(0+Real.pi)/(2*Real.pi)⌉ : ℝ)) = Real.pi
    rw [zero_add,hratio,if_pos one_half_pos.le,hfloor,Int.cast_zero,mul_zero,sub_zero]
  show (if Cmath.real.fmod (0+Real.pi) (2*Real.pi) < 0 then
    Cmath.real.fmod (0+Real.pi) (2*Real.pi)+2*Real.pi - Real.pi
    else Cmath.real.fmod (0+Real.pi) (2*Real.pi) - Real.pi) = 0
  rw [hfmod,if_neg Real.pi_pos.not_gt,sub_self]

theorem slerp_zero (t0 t1 t : ℝ) : slerp .real 0 t0 0 t1 t = 0 := by
  have hpi : ¬ Cmath.real.pi < 0 := pi_pos.not_gt
  have hneg : ¬ 0 < -Cmath.real.pi := by
    rw [neg_pos]
    exact hpi
  rw [slerp,normalizeAngle_zero,sub_self]
  dsimp only
  rw [if_neg hpi,if_neg hneg,zero_mul,add_zero,normalizeAngle_zero,ite_self]

theorem findProjectionPoint_axis (x y : ℝ) : findProjectionPoint .real ⟨0,0,0,0⟩ ⟨10,0,0,10⟩ x y = ⟨x,0,0,x⟩ := by
  have hnorm : Cmath.real.sqrt (((10 : ℝ) - 0)*(10 - 0)+(0 - 0)*(0 - 0)) = 10 := by
    show sqrt _ = 10
    rw [sub_zero,sub_self,mul_zero,add_zero,sqrt_mul_self (by norm_num)]
  have hs : (0 : ℝ)+((x - 0)*(10 - 0)+(y - 0)*(0 - 0))/10 = x := by ring
  rw [findProjectionPoint,hnorm,hs,PathPoint.interpolate,slerp_zero]
  congr 1 <;> ring

/-- Its coordinates are those of the plane. -/
theorem getPathFrenetCoordinate_axis (x y : ℝ) : getPathFrenetCoordinate .real axis x y = some (x, y) := by
  have hmatch : matchToPath .real axis x y = some ⟨x,0,0,x⟩ := by
    rw [← findProjectionPoint_axis x y,axis,matchToPath]
    -- either of the two points can be the nearest one
    rw [indexMin,zipIdx_cons,zipIdx_nil,foldl_cons,foldl_nil]
    split <;> rfl
  have hside : Cmath.real.cos 0*(y - 0) - Cmath.real.sin 0*(x - x) = y := by
    show cos 0*(y - 0) - sin 0*(x - x) = y
    rw [cos_zero,sin_zero]
    ring
  have hhypot : Cmath.real.hypot (x - x) (y - 0) = |y| := by
    show sqrt _ = |y|
    rw [sub_self,sub_zero,mul_zero,zero_add,sqrt_mul_self_eq_abs]
  rw [getPathFrenetCoordinate,hmatch,Option.map_some]
  dsimp only
  rw [hside,hhypot]
  split
  next hneg => rw [abs_of_neg hneg,neg_neg]
  next hpos => rw [abs_of_nonneg (not_lt.mp hpos)]

end PathMatcher
end Apollo.Modules.Common.Math
