import Apollo.Foundation.Numerals
import Mathlib.Analysis.Calculus.Deriv.Add
import Mathlib.Analysis.Calculus.Deriv.Mul
import Mathlib.Tactic.FieldSimp
import Mathlib.Tactic.Positivity
import Mathlib.Tactic.Ring
import Mathlib.Topology.Algebra.Module.ModuleTopology

/-! `CubicPolynomialCurve1d`, `QuarticPolynomialCurve1d` and `QuinticPolynomialCurve1d`: their values and derivatives, the
fits to given ends, and the curves that are integrated or derived from others. -/
namespace Apollo.Modules.Planning.PolynomialCurve1d
variable {K : Type} [Field K]

structure Cubic (K : Type) where
  (c0 c1 c2 c3 param : K)

structure Quartic (K : Type) where
  (c0 c1 c2 c3 c4 param : K)

structure Quintic (K : Type) where
  (c0 c1 c2 c3 c4 c5 param : K)

namespace Cubic

def evaluate (c : Cubic K) (order : Nat) (p : K) : K :=
  match order with
  | 0 => ((c.c3*p+c.c2)*p+c.c1)*p+c.c0
  | 1 => (3*c.c3*p+2*c.c2)*p+c.c1
  | 2 => 6*c.c3*p+2*c.c2
  | 3 => 6*c.c3
  | _ => 0

def derivedFromQuarticCurve (other : Quartic K) : Cubic K := ⟨other.c1*1,other.c2*2,other.c3*3,other.c4*4,other.param⟩

end Cubic

namespace Quartic

def evaluate (c : Quartic K) (order : Nat) (p : K) : K :=
  match order with
  | 0 => (((c.c4*p+c.c3)*p+c.c2)*p+c.c1)*p+c.c0
  | 1 => ((4*c.c4*p+3*c.c3)*p+2*c.c2)*p+c.c1
  | 2 => (12*c.c4*p+6*c.c3)*p+2*c.c2
  | 3 => 24*c.c4*p+6*c.c3
  | 4 => 24*c.c4
  | _ => 0

/-- The fits are not made for an empty range: `none` is a failed check. -/
def fitWithEndPointFirstOrder [LinearOrder K] (x0 dx0 ddx0 x1 dx1 p : K) : Option (Quartic K) :=
  let b0 := x1 - x0 - dx0*p - 1/2*ddx0*(p*p)
  let b1 := dx1 - dx0 - ddx0*p
  if 0 < p then some ⟨x0,dx0,1/2*ddx0,(4*b0 - b1*p)/(p*p*p),(b1*p - 3*b0)/(p*p*p*p),p⟩ else none

def fitWithEndPointSecondOrder [LinearOrder K] (x0 dx0 x1 dx1 ddx1 p : K) : Option (Quartic K) :=
  let b0 := x1 - x0 - dx0*p
  let b1 := dx1 - dx0
  let c1 := b1*p
  let c2 := ddx1*(p*p)
  if 0 < p then some ⟨x0,dx0,(1/2*c2 - 3*c1+6*b0)/(p*p),(-c2+5*c1 - 8*b0)/(p*p*p),(1/2*c2 - 2*c1+3*b0)/(p*p*p*p),p⟩
  else none

def integratedFromCubicCurve (other : Cubic K) (initValue : K) : Quartic K :=
  ⟨initValue,other.c0/(0+1),other.c1/(1+1),other.c2/(2+1),other.c3/(3+1),other.param⟩

def derivedFromQuinticCurve (other : Quintic K) : Quartic K :=
  ⟨other.c1*1,other.c2*2,other.c3*3,other.c4*4,other.c5*5,other.param⟩

end Quartic

namespace Quintic

def evaluate (c : Quintic K) (order : Nat) (p : K) : K :=
  match order with
  | 0 => ((((c.c5*p+c.c4)*p+c.c3)*p+c.c2)*p+c.c1)*p+c.c0
  | 1 => (((5*c.c5*p+4*c.c4)*p+3*c.c3)*p+2*c.c2)*p+c.c1
  | 2 => ((20*c.c5*p+12*c.c4)*p+6*c.c3)*p+2*c.c2
  | 3 => (60*c.c5*p+24*c.c4)*p+6*c.c3
  | 4 => 120*c.c5*p+24*c.c4
  | 5 => 120*c.c5
  | _ => 0

/-- The constructor with `ComputeCoefficients`. -/
def init [LinearOrder K] (x0 dx0 ddx0 x1 dx1 ddx1 p : K) : Option (Quintic K) :=
  let c0 := (x1 - 1/2*(p*p)*ddx0 - dx0*p - x0)/(p*(p*p))
  let c1 := (dx1 - ddx0*p - dx0)/(p*p)
  let c2 := (ddx1 - ddx0)/p
  if 0 < p then
    some ⟨x0,dx0,ddx0/2,1/2*(20*c0 - 8*c1+c2),(-15*c0+7*c1 - c2)/p,(6*c0 - 3*c1+1/2*c2)/(p*p),p⟩
  else none

def integratedFromQuarticCurve (other : Quartic K) (initValue : K) : Quintic K :=
  ⟨initValue,other.c0/(0+1),other.c1/(1+1),other.c2/(2+1),other.c3/(3+1),other.c4/(4+1),other.param⟩

end Quintic

open Quartic Quintic

theorem evaluate_derivedFromQuarticCurve (c : Quartic K) (order : Nat) (p : K) :
    (Cubic.derivedFromQuarticCurve c).evaluate order p = c.evaluate (order+1) p := by
  rcases order with _ | _ | _ | _ | order
  all_goals simp only [Cubic.derivedFromQuarticCurve,Cubic.evaluate,Quartic.evaluate]
  all_goals ring

theorem evaluate_derivedFromQuinticCurve (c : Quintic K) (order : Nat) (p : K) :
    (derivedFromQuinticCurve c).evaluate order p = c.evaluate (order+1) p := by
  rcases order with _ | _ | _ | _ | _ | order
  all_goals simp only [derivedFromQuinticCurve,Quartic.evaluate,Quintic.evaluate]
  all_goals ring

variable [LinearOrder K] [IsStrictOrderedRing K]

theorem derivedFromQuarticCurve_integrated (c : Cubic K) (initValue : K) :
    Cubic.derivedFromQuarticCurve (integratedFromCubicCurve c initValue) = c := by
  cases c
  norm_num [Cubic.derivedFromQuarticCurve,integratedFromCubicCurve]

theorem derivedFromQuinticCurve_integrated (c : Quartic K) (initValue : K) :
    derivedFromQuinticCurve (integratedFromQuarticCurve c initValue) = c := by
  cases c
  norm_num [derivedFromQuinticCurve,integratedFromQuarticCurve]

theorem evaluate_integratedFromQuarticCurve (c : Quartic K) (initValue : K) (order : Nat) :
    (integratedFromQuarticCurve c initValue).evaluate (order+1) = c.evaluate order := by
  funext x
  rw [← evaluate_derivedFromQuinticCurve,derivedFromQuinticCurve_integrated]

theorem evaluate_integratedFromCubicCurve (c : Cubic K) (initValue : K) (order : Nat) :
    (integratedFromCubicCurve c initValue).evaluate (order+1) = c.evaluate order := by
  funext x
  rw [← evaluate_derivedFromQuarticCurve,derivedFromQuarticCurve_integrated]

theorem hasDerivAt_horner {f : ℝ → ℝ} {f' x : ℝ} (hf : HasDerivAt f f' x) (c : ℝ) :
    HasDerivAt (fun p => f p*p+c) (f'*x+f x) x :=
  ((hf.fun_mul (hasDerivAt_id x)).add_const c).congr_deriv (by simp)

theorem Quintic.hasDerivAt (c : Quintic ℝ) (order : Nat) (x : ℝ) :
    HasDerivAt (c.evaluate order) (c.evaluate (order+1) x) x := by
  have h5 (k : ℝ) := hasDerivAt_const x (k*c.c5)
  rcases order with _ | _ | _ | _ | _ | order
  · have h := hasDerivAt_horner (hasDerivAt_horner (hasDerivAt_horner (hasDerivAt_horner (hasDerivAt_horner
      (hasDerivAt_const x c.c5) c.c4) c.c3) c.c2) c.c1) c.c0
    exact h.congr_deriv (by simp only [evaluate]; ring)
  · exact (hasDerivAt_horner (hasDerivAt_horner (hasDerivAt_horner (hasDerivAt_horner (h5 5) (4*c.c4)) (3*c.c3))
      (2*c.c2)) c.c1).congr_deriv (by simp only [evaluate]; ring)
  · exact (hasDerivAt_horner (hasDerivAt_horner (hasDerivAt_horner (h5 20) (12*c.c4)) (6*c.c3)) (2*c.c2)).congr_deriv
      (by simp only [evaluate]; ring)
  · exact (hasDerivAt_horner (hasDerivAt_horner (h5 60) (24*c.c4)) (6*c.c3)).congr_deriv (by simp only [evaluate]; ring)
  · exact (hasDerivAt_horner (h5 120) (24*c.c4)).congr_deriv (by simp only [evaluate]; ring)
  · rcases order with _ | order <;> exact hasDerivAt_const x _

/-- A curve is the derivative of the one that is integrated from it. -/
theorem Quartic.hasDerivAt (c : Quartic ℝ) (order : Nat) (x : ℝ) :
    HasDerivAt (c.evaluate order) (c.evaluate (order+1) x) x := by
  have h := Quintic.hasDerivAt (integratedFromQuarticCurve c 0) (order+1) x
  rwa [evaluate_integratedFromQuarticCurve,evaluate_integratedFromQuarticCurve] at h

theorem Cubic.hasDerivAt (c : Cubic ℝ) (order : Nat) (x : ℝ) :
    HasDerivAt (c.evaluate order) (c.evaluate (order+1) x) x := by
  have h := Quartic.hasDerivAt (integratedFromCubicCurve c 0) (order+1) x
  rwa [evaluate_integratedFromCubicCurve,evaluate_integratedFromCubicCurve] at h

/-- Each order of a curve is the derivative of the one before. The fits meet both ends, and an integrated curve starts
at its value and has the other one as its derivative. -/
theorem curves_exact {p : ℝ} (hp : 0 < p) (x0 dx0 ddx0 x1 dx1 ddx1 : ℝ) :
    ((∀ (c : Cubic ℝ) order x, HasDerivAt (c.evaluate order) (c.evaluate (order+1) x) x) ∧
      (∀ (c : Quartic ℝ) order x, HasDerivAt (c.evaluate order) (c.evaluate (order+1) x) x) ∧
      ∀ (c : Quintic ℝ) order x, HasDerivAt (c.evaluate order) (c.evaluate (order+1) x) x) ∧
    (∃ c, Quintic.init x0 dx0 ddx0 x1 dx1 ddx1 p = some c ∧ c.param = p ∧
      (c.evaluate 0 0, c.evaluate 1 0, c.evaluate 2 0) = (x0, dx0, ddx0) ∧
      (c.evaluate 0 p, c.evaluate 1 p, c.evaluate 2 p) = (x1, dx1, ddx1)) ∧
    (∃ c, fitWithEndPointFirstOrder x0 dx0 ddx0 x1 dx1 p = some c ∧ c.param = p ∧
      (c.evaluate 0 0, c.evaluate 1 0, c.evaluate 2 0) = (x0, dx0, ddx0) ∧
      (c.evaluate 0 p, c.evaluate 1 p) = (x1, dx1)) ∧
    (∃ c, fitWithEndPointSecondOrder x0 dx0 x1 dx1 ddx1 p = some c ∧ c.param = p ∧
      (c.evaluate 0 0, c.evaluate 1 0) = (x0, dx0) ∧
      (c.evaluate 0 p, c.evaluate 1 p, c.evaluate 2 p) = (x1, dx1, ddx1)) ∧
    (∀ (c : Cubic ℝ) initValue, Cubic.derivedFromQuarticCurve (integratedFromCubicCurve c initValue) = c ∧
      (integratedFromCubicCurve c initValue).evaluate 0 0 = initValue ∧
      ∀ order x, (integratedFromCubicCurve c initValue).evaluate (order+1) x = c.evaluate order x) ∧
    ∀ (c : Quartic ℝ) initValue, derivedFromQuinticCurve (integratedFromQuarticCurve c initValue) = c ∧
      (integratedFromQuarticCurve c initValue).evaluate 0 0 = initValue ∧
      ∀ order x, (integratedFromQuarticCurve c initValue).evaluate (order+1) x = c.evaluate order x := by
  have hne := hp.ne'
  refine ⟨⟨Cubic.hasDerivAt,Quartic.hasDerivAt,Quintic.hasDerivAt⟩,⟨_,if_pos hp,rfl,?_,?_⟩,⟨_,if_pos hp,rfl,?_,?_⟩,
    ⟨_,if_pos hp,rfl,?_,?_⟩,fun c initValue => ?_,fun c initValue => ?_⟩
  -- The coefficients are the solution of the equations at the end.
  case refine_2 | refine_4 | refine_6 =>
    simp only [Quartic.evaluate,Quintic.evaluate,Prod.mk.injEq]
    and_intros
    all_goals field_simp
    all_goals ring
  case refine_7 =>
    refine ⟨derivedFromQuarticCurve_integrated c initValue,?_,fun order x => ?_⟩
    · simp [Quartic.evaluate,integratedFromCubicCurve]
    · rw [evaluate_integratedFromCubicCurve]
  case refine_8 =>
    refine ⟨derivedFromQuinticCurve_integrated c initValue,?_,fun _ _ => ?_⟩
    · simp [Quintic.evaluate,integratedFromQuarticCurve]
    · rw [evaluate_integratedFromQuarticCurve]
  all_goals simp [Quartic.evaluate,Quintic.evaluate,mul_div_cancel₀]

theorem curves_exact_two :
    ∃ c, Quintic.init (0 : ℝ) 1 0 2 1 0 2 = some c ∧ (c.evaluate 0 2, c.evaluate 1 2) = (2, 1) := by
  obtain ⟨-,⟨c,hc,-,-,hend⟩,-⟩ := curves_exact (by norm_num : (0 : ℝ) < 2) 0 1 0 2 1 0
  simp only [Prod.mk.injEq] at hend
  exact ⟨c,hc,Prod.ext hend.1 hend.2.1⟩

end Apollo.Modules.Planning.PolynomialCurve1d
