import Apollo.Modules.Planning.Math.PiecewiseJerk.PiecewiseJerkProblem
import Mathlib.Algebra.BigOperators.Fin
import Mathlib.Tactic.Linarith
import Mathlib.Tactic.LinearCombination

/-! `PiecewiseJerkPathProblem` and `PiecewiseJerkSpeedProblem`: their references, kernels and offsets, and the cost
that these set up. -/
namespace Apollo.Modules.Planning
open Foundation List Function Csc
variable {K : Type}

/-- An unset reference has weight zero. -/
structure PiecewiseJerkPathProblem (K : Type) [Zero K] extends PiecewiseJerkProblem K where
  hasXRef : Bool
  weightXRef : K
  xRef : List K
  hasEndStateRef : Bool
  weightEndState : KnotState K
  endStateRef : KnotState K
  xRef_unset : hasXRef = false → weightXRef = 0
  xRef_set : hasXRef = true → xRef.length = numOfKnots
  endStateRef_unset : hasEndStateRef = false → weightEndState = ⟨0,0,0⟩

structure PiecewiseJerkSpeedProblem (K : Type) [Zero K] extends PiecewiseJerkProblem K where
  hasXRef : Bool
  weightXRef : K
  xRef : List K
  hasDxRef : Bool
  weightDxRef : K
  dxRef : K
  penaltyDx : List K
  hasEndStateRef : Bool
  weightEndState : KnotState K
  endStateRef : KnotState K
  xRef_unset : hasXRef = false → weightXRef = 0
  xRef_set : hasXRef = true → xRef.length = numOfKnots
  dxRef_unset : hasDxRef = false → weightDxRef = 0
  length_penaltyDx : penaltyDx.length = numOfKnots
  endStateRef_unset : hasEndStateRef = false → weightEndState = ⟨0,0,0⟩

variable [Field K]

/-- The values of both kernels in the order in which they are appended. The diagonal holds the weights of `x`,
`x'` and `x''`, each with its own last value; `cross` is the weight of `x(i)'' * x(i + 1)''`. -/
def kernelValues (n : Nat) (x xLast : K) (dx : Nat → K) (dxLast ddxFirst ddx ddxLast cross : K) : List (Entry K) :=
  (range (n - 1)).map (fun i => ⟨i,i,x⟩) ++ [⟨n - 1,n - 1,xLast⟩] ++
    (range (n - 1)).map (fun i => ⟨n+i,n+i,dx i⟩) ++ [⟨2*n - 1,2*n - 1,dxLast⟩] ++
    [⟨2*n,2*n,ddxFirst⟩] ++ (range' 1 (n - 2)).map (fun i => ⟨2*n+i,2*n+i,ddx⟩) ++
    [⟨3*n - 1,3*n - 1,ddxLast⟩] ++
    (range (n - 1)).map (fun i => { col := 2*n+i, row := 2*n+i+1, value := cross })

def storeKernel (n kNumValue : Nat) (values : List (Entry K)) : Option (Csc K) :=
  if values.length ≠ kNumValue then none
  else
    let columns := Columns.emplaceAll (replicate (3*n) []) values
    some (Csc.ofColumns (columns.map (map fun e => (e.1, e.2*2))))

def endStateOffset (n : Nat) (weightEndState endStateRef : KnotState K) : List (Nat × K) :=
  [(n - 1, -2*weightEndState.x*endStateRef.x),(2*n - 1, -2*weightEndState.dx*endStateRef.dx),
    (3*n - 1, -2*weightEndState.ddx*endStateRef.ddx)]

namespace PiecewiseJerkPathProblem

/-- The constructor. `end_state_ref_` is not initialized. -/
def ofKnots (numOfKnots : Nat) (deltaS : K) (xInit : KnotState K) (h : 2 ≤ numOfKnots)
    (uninitialized : KnotState K) : PiecewiseJerkPathProblem K where
  toPiecewiseJerkProblem := .ofKnots numOfKnots deltaS xInit h
  hasXRef := false
  weightXRef := 0
  xRef := []
  hasEndStateRef := false
  weightEndState := ⟨0,0,0⟩
  endStateRef := uninitialized
  xRef_unset := fun _ => rfl
  xRef_set := fun h => by cases h
  endStateRef_unset := fun _ => rfl

variable (p : PiecewiseJerkPathProblem K)

def calculateKernel : Option (Csc K) :=
  let n := p.numOfKnots
  let deltaSSquare := p.deltaS*p.deltaS
  storeKernel n (3*n+(n - 1)) (kernelValues n (p.weightX+p.weightXRef) (p.weightX+p.weightXRef+p.weightEndState.x)
      (fun _ => p.weightDx) (p.weightDx+p.weightEndState.dx)
      (p.weightDdx+p.weightDddx/deltaSSquare) (p.weightDdx+2*p.weightDddx/deltaSSquare)
      (p.weightDdx+p.weightDddx/deltaSSquare+p.weightEndState.ddx) (-2*p.weightDddx/deltaSSquare))

def calculateOffset : List K :=
  let n := p.numOfKnots
  addAllAt (replicate (3*n) 0)
    ((if p.hasXRef then (range n).map fun i => (i, -2*p.weightXRef*p.xRef.getD i 0) else []) ++
      if p.hasEndStateRef then endStateOffset n p.weightEndState p.endStateRef else [])

end PiecewiseJerkPathProblem

namespace PiecewiseJerkSpeedProblem

def ofKnots (numOfKnots : Nat) (deltaS : K) (xInit : KnotState K) (h : 2 ≤ numOfKnots)
    (uninitialized : KnotState K) : PiecewiseJerkSpeedProblem K where
  toPiecewiseJerkProblem := .ofKnots numOfKnots deltaS xInit h
  hasXRef := false
  weightXRef := 0
  xRef := []
  hasDxRef := false
  weightDxRef := 0
  dxRef := 0
  penaltyDx := replicate numOfKnots 0
  hasEndStateRef := false
  weightEndState := ⟨0,0,0⟩
  endStateRef := uninitialized
  xRef_unset := fun _ => rfl
  xRef_set := fun h => by cases h
  dxRef_unset := fun _ => rfl
  length_penaltyDx := length_replicate
  endStateRef_unset := fun _ => rfl

variable (p : PiecewiseJerkSpeedProblem K)

/-- The weights of `x` and `x'` of the base class are not used. -/
def calculateKernel : Option (Csc K) :=
  let n := p.numOfKnots
  let deltaSSquare := p.deltaS*p.deltaS
  storeKernel n (4*n - 1) (kernelValues n p.weightXRef (p.weightXRef+p.weightEndState.x)
      (fun i => p.weightDxRef+p.penaltyDx.getD i 0)
      (p.weightDxRef+p.penaltyDx.getD (n - 1) 0+p.weightEndState.dx)
      (p.weightDdx+p.weightDddx/deltaSSquare) (p.weightDdx+2*p.weightDddx/deltaSSquare)
      (p.weightDdx+p.weightDddx/deltaSSquare+p.weightEndState.ddx) (-2*p.weightDddx/deltaSSquare))

def calculateOffset : List K :=
  let n := p.numOfKnots
  addAllAt (replicate (3*n) 0) (((range n).flatMap fun i =>
      (if p.hasXRef then [(i, -2*p.weightXRef*p.xRef.getD i 0)] else []) ++
        if p.hasDxRef then [(n+i, -2*p.weightDxRef*p.dxRef)] else []) ++
      if p.hasEndStateRef then endStateOffset n p.weightEndState p.endStateRef else [])

end PiecewiseJerkSpeedProblem

variable {K : Type}

def objective [Field K] (P : Csc K) (q : List K) (z : Nat → K) : K := 1/2*P.upperForm z+dot q z

theorem sum_map_range {M : Type} [AddCommMonoid M] (f : Nat → M) (n : Nat) :
    ((range n).map f).sum = ∑ i ∈ Finset.range n, f i := by
  induction n with
  | zero => rfl
  | succ _ ih => rw [range_succ,map_append,sum_append,ih,map_singleton,sum_singleton, Finset.sum_range_succ]

section Kernel
variable [Field K] [CharZero K] (m kNumValue : Nat) (x xLast : K) (dx : Nat → K) (dxLast ddxFirst ddx ddxLast cross : K)

/-- A stored kernel has half the sum of its values as form, since the values are doubled. -/
theorem upperForm_storeKernel {values : List (Entry K)} (n : Nat) (hlength : values.length = kNumValue)
    (hcols : ∀ e ∈ values, e.col < 3*n) : ∃ P, storeKernel n kNumValue values = some P ∧
      ∀ z, 1/2*P.upperForm z = (values.map fun e => upperTerm z e.row e.col e.value).sum := by
  refine ⟨_,if_neg (not_not.mpr hlength),fun z => ?_⟩
  have hlen : ∀ e ∈ values, e.col < (replicate (3*n) ([] : List (Nat × K))).length := by
    rwa [length_replicate]
  have hdouble (columns : Columns K) : Columns.sum (upperTerm z) (columns.map (map fun e => (e.1, e.2*2))) =
      columns.sum fun row col value => 2*upperTerm z row col value := by
    rw [Columns.sum,Columns.sumFrom_map (fun value : K => value*2)]
    simp only [upperTerm_mul]
    rfl
  rw [upperForm_ofColumns,hdouble,Columns.sum_emplaceAll _ hlen,Columns.sum_replicate,zero_add,
    sum_map_mul_left,← mul_assoc,one_div_mul_cancel (OfNat.ofNat_ne_zero 2),one_mul]

theorem storeKernel_kernelValues (hnum : 3*(m+2)+(m+1) = kNumValue) :
    ∃ P, storeKernel (m+2) kNumValue (kernelValues (m+2) x xLast dx dxLast ddxFirst ddx ddxLast cross) = some P ∧
      ∀ z, 1/2*P.upperForm z = ∑ i ∈ Finset.range (m+1), x*z i^2+xLast*z (m+1)^2 +
        (∑ i ∈ Finset.range (m+1), dx i*z (m+2+i)^2+dxLast*z (m+2+(m+1))^2) +
        (ddxFirst*z (2*(m+2))^2 + ∑ i ∈ Finset.range m, ddx*z (2*(m+2)+(i+1))^2 + ddxLast*z (2*(m+2)+(m+1))^2) := by
  have hlength : (kernelValues (m+2) x xLast dx dxLast ddxFirst ddx ddxLast cross).length = kNumValue := by
    simp only [kernelValues,length_append,length_map,length_range,length_range',length_singleton]
    omega
  have hcols : ∀ e ∈ kernelValues (m+2) x xLast dx dxLast ddxFirst ddx ddxLast cross, e.col < 3*(m+2) := by
    simp only [kernelValues,forall_mem_append,forall_mem_map,forall_mem_singleton,mem_range,mem_range'_1]
    refine ⟨⟨⟨⟨⟨⟨⟨?_,?_⟩,?_⟩,?_⟩,?_⟩,?_⟩,?_⟩,?_⟩ <;> omega
  obtain ⟨P,hP,hform⟩ := upperForm_storeKernel kNumValue (m+2) hlength hcols
  refine ⟨P,hP,fun z => ?_⟩
  have hcross (i : Nat) : upperTerm z (2*(m+2)+i+1) (2*(m+2)+i) cross = 0 :=
    upperTerm_below z (Nat.lt_succ_self _) cross
  have hlast : 2*(m+2) - 1 = m+2+(m+1) := by omega
  have hend : 3*(m+2) - 1 = 2*(m+2)+(m+1) := by omega
  have hmid : (range' 1 (m+2 - 2)).map (fun i => (⟨2*(m+2)+i,2*(m+2)+i,ddx⟩ : Entry K)) =
      (range m).map fun i => ⟨2*(m+2)+(i+1),2*(m+2)+(i+1),ddx⟩ := by
    rw [range'_eq_map_range,map_map,Nat.add_sub_cancel]
    apply map_congr_left
    intro _ _
    rw [comp_apply,add_comm 1]
  rw [hform]
  simp only [kernelValues,hmid,hlast,hend,map_append,map_map,sum_append,map_singleton,
    sum_singleton,comp_def,upperTerm_diagonal,hcross,sum_map_range,Finset.sum_const_zero,
    ← sq,show m+2 - 1 = m+1 from rfl]
  ring

end Kernel

section Costs
variable [Field K]

/-- Squared finite differences of the accelerations `a`. -/
def jerkCost (weightDddx deltaS : K) (n : Nat) (a : Nat → K) : K :=
  ∑ i ∈ Finset.range (n - 1), weightDddx*((a (i+1) - a i)/deltaS)^2

/-- The products of neighbouring accelerations in the cost of the jerk. -/
def crossTerms (weightDddx deltaS : K) (n : Nat) (a : Nat → K) : K :=
  2*weightDddx/(deltaS*deltaS) * ∑ i ∈ Finset.range (n - 1), a i*a (i+1)

theorem jerkCost_add_crossTerms (w d : K) (m : Nat) (a : Nat → K) :
    jerkCost w d (m+2) a+crossTerms w d (m+2) a = w/(d*d)*a 0^2 + ∑ i ∈ Finset.range m, 2*w/(d*d)*a (i+1)^2 +
        w/(d*d)*a (m+1)^2 := by
  have hterm (i : Nat) : w*((a (i+1) - a i)/d)^2 = w/(d*d)*a (i+1)^2+w/(d*d)*a i^2 - 2*w/(d*d)*(a i*a (i+1)) := by
    rw [div_pow,sq d]
    ring
  have hfirst := Finset.sum_range_succ' (fun i => a i^2) m
  have hlast := Finset.sum_range_succ (fun i => a (i+1)^2) m
  simp only [jerkCost,crossTerms,hterm,Finset.sum_add_distrib,Finset.sum_sub_distrib,← Finset.mul_sum,
    show m+2 - 1 = m+1 from rfl,hfirst,hlast]
  ring

theorem ddx_kernel (wddx w d wEnd : K) (m : Nat) (a : Nat → K) :
    (wddx+w/(d*d))*a 0^2 + ∑ i ∈ Finset.range m, (wddx+2*w/(d*d))*a (i+1)^2 + (wddx+w/(d*d)+wEnd)*a (m+1)^2 =
      ∑ i ∈ Finset.range (m+2), wddx*a i^2+wEnd*a (m+1)^2 + (jerkCost w d (m+2) a+crossTerms w d (m+2) a) := by
  rw [jerkCost_add_crossTerms,Finset.sum_range_succ,Finset.sum_range_succ']
  simp only [add_mul,Finset.sum_add_distrib]
  ring

def endStateCost (n : Nat) (weightEndState endStateRef : KnotState K) (z : Nat → K) : K :=
  weightEndState.x*(z (n - 1) - endStateRef.x)^2+weightEndState.dx*(z (n+(n - 1)) - endStateRef.dx)^2 +
    weightEndState.ddx*(z (2*n+(n - 1)) - endStateRef.ddx)^2

def linear (terms : List (Nat × K)) (z : Nat → K) : K := (terms.map fun term => term.2*z term.1).sum

def endStateLinear (n : Nat) (w r : KnotState K) (z : Nat → K) : K :=
  -2*w.x*r.x*z (n - 1) - 2*w.dx*r.dx*z (n+(n - 1)) - 2*w.ddx*r.ddx*z (2*n+(n - 1))

section Offset
variable {n : Nat} {terms : List (Nat × K)} {z : Nat → K} {flag : Bool} {w r : KnotState K}

theorem linear_append (terms' : List (Nat × K)) : linear (terms ++ terms') z = linear terms z+linear terms' z := by
  rw [linear,map_append,sum_append]
  rfl

/-- Terms that are left out have a weight of zero. -/
theorem linear_ite (h : flag = false → linear terms z = 0) : linear (if flag then terms else []) z = linear terms z := by
  cases flag with
  | false => exact (h rfl).symm
  | true => rfl

/-- The terms of both offsets: those of the knots, and those of the end state. -/
theorem dot_offset (terms : List (Nat × K)) (hn : 2 ≤ n) (h : flag = false → w = ⟨0,0,0⟩) (hlt : ∀ term ∈ terms, term.1 < 3*n) :
    dot (addAllAt (replicate (3*n) 0) (terms ++ if flag then endStateOffset n w r else [])) z =
      linear terms z+endStateLinear n w r z := by
  have hlast : 2*n - 1 = n+(n - 1) := by omega
  have hend : 3*n - 1 = 2*n+(n - 1) := by omega
  have hlinear : linear (endStateOffset n w r) z = endStateLinear n w r z := by
    simp only [linear,endStateOffset,endStateLinear,map_cons,map_nil,sum_cons,sum_nil,hlast,hend]
    ring
  rw [dot_addAllAt,dot_replicate_zero,zero_add]
  · refine (linear_append _).trans (congrArg _ ((linear_ite fun hset => ?_).trans hlinear))
    rw [hlinear,h hset,endStateLinear]
    ring
  · simp only [length_replicate,forall_mem_append,mem_ite_nil_right,endStateOffset,mem_cons,not_mem_nil]
    refine ⟨hlt,?_⟩
    rintro term ⟨-,rfl | rfl | rfl | hnil⟩
    · exact (by omega : n - 1 < 3*n)
    · exact (by omega : 2*n - 1 < 3*n)
    · exact (by omega : 3*n - 1 < 3*n)
    · cases hnil

end Offset

theorem sum_square_sub (w : K) (n : Nat) (x r : Nat → K) :
    ∑ i ∈ Finset.range n, w*(x i - r i)^2 = ∑ i ∈ Finset.range n, w*x i^2 +
      ∑ i ∈ Finset.range n, -2*w*r i*x i + ∑ i ∈ Finset.range n, w*r i^2 := by
  rw [← Finset.sum_add_distrib,← Finset.sum_add_distrib]
  apply Finset.sum_congr rfl
  intro _ _
  ring

def endStateConstant (w r : KnotState K) : K := w.x*r.x^2+w.dx*r.dx^2+w.ddx*r.ddx^2

end Costs

variable [Field K]

namespace PiecewiseJerkPathProblem
variable (p : PiecewiseJerkPathProblem K)

/-- The cost of a path: reference, derivative, acceleration, jerk and end state. -/
def cost (z : Nat → K) : K :=
  let n := p.numOfKnots
  ∑ i ∈ Finset.range n, p.weightX*z i^2 + ∑ i ∈ Finset.range n, p.weightXRef*(z i - p.xRef.getD i 0)^2 +
    ∑ i ∈ Finset.range n, p.weightDx*z (n+i)^2 +
    ∑ i ∈ Finset.range n, p.weightDdx*z (2*n+i)^2 +
    jerkCost p.weightDddx p.deltaS n (fun i => z (2*n+i)) +
    endStateCost n p.weightEndState p.endStateRef z

def constant : K :=
  ∑ i ∈ Finset.range p.numOfKnots, p.weightXRef*p.xRef.getD i 0^2+endStateConstant p.weightEndState p.endStateRef

theorem dot_calculateOffset (z : Nat → K) : dot p.calculateOffset z =
    ∑ i ∈ Finset.range p.numOfKnots, -2*p.weightXRef*p.xRef.getD i 0*z i +
      endStateLinear p.numOfKnots p.weightEndState p.endStateRef z := by
  have hx : linear ((range p.numOfKnots).map fun i => (i, -2*p.weightXRef*p.xRef.getD i 0)) z =
      ∑ i ∈ Finset.range p.numOfKnots, -2*p.weightXRef*p.xRef.getD i 0*z i := by
    simp only [linear,map_map,comp_def,sum_map_range]
  unfold calculateOffset
  rw [dot_offset _ p.two_le p.endStateRef_unset,linear_ite,hx]
  · intro hset
    rw [hx]
    simp only [p.xRef_unset hset,mul_zero,zero_mul,Finset.sum_const_zero]
  · intro _ hterm
    obtain ⟨i,hi,rfl⟩ := mem_map.mp (mem_ite_nil_right.mp hterm).2
    exact (mem_range.mp hi).trans_le (by omega)

/-- The objective is the cost without the products of neighbouring accelerations. -/
theorem objective_eq [CharZero K] : ∃ P, p.calculateKernel = some P ∧ ∀ z,
    objective P p.calculateOffset z+p.constant =
      p.cost z+crossTerms p.weightDddx p.deltaS p.numOfKnots fun i => z (2*p.numOfKnots+i) := by
  obtain ⟨m,hm⟩ : ∃ m, p.numOfKnots = m+2 := ⟨p.numOfKnots - 2,by have := p.two_le; omega⟩
  unfold calculateKernel
  rw [hm]
  refine Exists.imp (fun _ hP => ⟨hP.1,fun z => ?_⟩) (storeKernel_kernelValues m _ _ _ _ _ _ _ _ _ rfl)
  rw [objective,hP.2,dot_calculateOffset,cost,constant,endStateCost,endStateConstant,endStateLinear,hm]
  have hddx := ddx_kernel p.weightDdx p.weightDddx p.deltaS (p.weightEndState.ddx) m fun i => z (2*(m+2)+i)
  have href := sum_square_sub p.weightXRef (m+2) z fun i => p.xRef.getD i 0
  have hx := Finset.sum_range_succ (fun i => p.weightX*z i^2) (m+1)
  have hxref := Finset.sum_range_succ (fun i => p.weightXRef*z i^2) (m+1)
  have hdx := Finset.sum_range_succ (fun i => p.weightDx*z (m+2+i)^2) (m+1)
  simp only [add_mul,Finset.sum_add_distrib,add_zero,show m+2 - 1 = m+1 from rfl] at hddx ⊢
  linear_combination hddx - href - hx - hxref - hdx

end PiecewiseJerkPathProblem

namespace PiecewiseJerkSpeedProblem
variable (p : PiecewiseJerkSpeedProblem K)

/-- The cost of a speed profile: references, penalties, acceleration, jerk and end state. -/
def cost (z : Nat → K) : K :=
  let n := p.numOfKnots
  ∑ i ∈ Finset.range n, p.weightXRef*(z i - p.xRef.getD i 0)^2 +
    ∑ i ∈ Finset.range n, p.weightDxRef*(z (n+i) - p.dxRef)^2 +
    ∑ i ∈ Finset.range n, p.penaltyDx.getD i 0*z (n+i)^2 +
    ∑ i ∈ Finset.range n, p.weightDdx*z (2*n+i)^2 +
    jerkCost p.weightDddx p.deltaS n (fun i => z (2*n+i)) +
    endStateCost n p.weightEndState p.endStateRef z

def constant : K :=
  ∑ i ∈ Finset.range p.numOfKnots, p.weightXRef*p.xRef.getD i 0^2 +
    ∑ _i ∈ Finset.range p.numOfKnots, p.weightDxRef*p.dxRef^2 +
    endStateConstant p.weightEndState p.endStateRef

def knotOffset (i : Nat) : List (Nat × K) :=
  (if p.hasXRef then [(i, -2*p.weightXRef*p.xRef.getD i 0)] else []) ++
    if p.hasDxRef then [(p.numOfKnots+i, -2*p.weightDxRef*p.dxRef)] else []

theorem linear_knotOffset (z : Nat → K) (i : Nat) : linear (p.knotOffset i) z =
    -2*p.weightXRef*p.xRef.getD i 0*z i + -2*p.weightDxRef*p.dxRef*z (p.numOfKnots+i) := by
  have hone (j : Nat) (c : K) : linear [(j, c)] z = c*z j := sum_singleton
  rw [knotOffset,linear_append,linear_ite,linear_ite,hone,hone]
  · intro hset
    rw [hone,p.dxRef_unset hset,mul_zero,zero_mul,zero_mul]
  · intro hset
    rw [hone,p.xRef_unset hset,mul_zero,zero_mul,zero_mul]

theorem knotOffset_lt {i : Nat} (hi : i < p.numOfKnots) : ∀ term ∈ p.knotOffset i, term.1 < 3*p.numOfKnots := by
  simp only [knotOffset,mem_append,mem_ite_nil_right,mem_singleton]
  rintro term (⟨-,rfl⟩ | ⟨-,rfl⟩)
  · exact hi.trans_le (by omega)
  · exact (Nat.add_lt_add_left hi _).trans_le (by omega)

theorem dot_calculateOffset (z : Nat → K) : dot p.calculateOffset z =
    ∑ i ∈ Finset.range p.numOfKnots, -2*p.weightXRef*p.xRef.getD i 0*z i +
      ∑ i ∈ Finset.range p.numOfKnots, -2*p.weightDxRef*p.dxRef*z (p.numOfKnots+i) +
      endStateLinear p.numOfKnots p.weightEndState p.endStateRef z := by
  have hknots : linear ((range p.numOfKnots).flatMap p.knotOffset) z =
      ∑ i ∈ Finset.range p.numOfKnots, linear (p.knotOffset i) z := by
    rw [linear,map_flatMap,flatMap_def,sum_flatten,map_map,← sum_map_range]
    rfl
  refine (dot_offset ((range p.numOfKnots).flatMap p.knotOffset) p.two_le p.endStateRef_unset ?_).trans ?_
  · intro term hterm
    obtain ⟨i,hi,hmem⟩ := mem_flatMap.mp hterm
    exact p.knotOffset_lt (mem_range.mp hi) term hmem
  · simp only [hknots,linear_knotOffset,Finset.sum_add_distrib]

theorem objective_eq [CharZero K] : ∃ P, p.calculateKernel = some P ∧ ∀ z,
    objective P p.calculateOffset z+p.constant =
      p.cost z+crossTerms p.weightDddx p.deltaS p.numOfKnots fun i => z (2*p.numOfKnots+i) := by
  obtain ⟨m,hm⟩ : ∃ m, p.numOfKnots = m+2 := ⟨p.numOfKnots - 2,by have := p.two_le; omega⟩
  unfold calculateKernel
  rw [hm]
  refine Exists.imp (fun _ hP => ⟨hP.1,fun z => ?_⟩) (storeKernel_kernelValues m _ _ _ _ _ _ _ _ _ (by omega))
  rw [objective,hP.2,dot_calculateOffset,cost,constant,endStateCost,endStateConstant,endStateLinear,hm]
  have hddx := ddx_kernel p.weightDdx p.weightDddx p.deltaS (p.weightEndState.ddx) m fun i => z (2*(m+2)+i)
  have hxref := sum_square_sub p.weightXRef (m+2) z fun i => p.xRef.getD i 0
  have hdxref := sum_square_sub p.weightDxRef (m+2) (fun i => z (m+2+i)) fun _ => p.dxRef
  have hx := Finset.sum_range_succ (fun i => p.weightXRef*z i^2) (m+1)
  have hdx := Finset.sum_range_succ (fun i => p.weightDxRef*z (m+2+i)^2) (m+1)
  have hpenalty := Finset.sum_range_succ (fun i => p.penaltyDx.getD i 0*z (m+2+i)^2) (m+1)
  simp only [add_mul,Finset.sum_add_distrib,add_zero,show m+2 - 1 = m+1 from rfl] at hddx ⊢
  linear_combination hddx - hxref - hdxref - hx - hdx - hpenalty

end PiecewiseJerkSpeedProblem

/-- The products of neighbouring accelerations are constant only without a weight of the jerk. -/
theorem constant_iff [CharZero K] {f g : (Nat → K) → K} {k w d : K} {n : Nat} (hn : 2 ≤ n) (hd : d ≠ 0)
    (h : ∀ z, f z+k = g z+crossTerms w d n fun i => z (2*n+i)) : (∃ c, ∀ z, f z = g z+c) ↔ w = 0 := by
  constructor
  · rintro ⟨c,hc⟩
    have hcount : ((n - 1 : Nat) : K) ≠ 0 := Nat.cast_ne_zero.mpr (by omega)
    have h0 := h fun _ => 0
    have h1 := h fun _ => 1
    simp only [hc,crossTerms,mul_zero,mul_one,Finset.sum_const_zero,Finset.sum_const,Finset.card_range,nsmul_eq_mul] at h0 h1
    have hw : 2*w/(d*d)*((n - 1 : Nat) : K) = 0 := by linear_combination h0 - h1
    simpa [hd,hcount] using hw
  · rintro rfl
    refine ⟨-k,fun z => ?_⟩
    have hz := h z
    rw [crossTerms,mul_zero,zero_div,zero_mul] at hz
    linear_combination hz

/-- What the solver minimizes is the cost up to a constant exactly without a weight of the jerk, for paths and for
speed profiles. -/
theorem objective_eq_cost_iff [CharZero K] (path : PiecewiseJerkPathProblem K) (speed : PiecewiseJerkSpeedProblem K)
    (hpath : path.deltaS ≠ 0) (hspeed : speed.deltaS ≠ 0) :
    ((∃ P c, path.calculateKernel = some P ∧ ∀ z, objective P path.calculateOffset z = path.cost z+c) ↔
      path.weightDddx = 0) ∧
    ((∃ P c, speed.calculateKernel = some P ∧ ∀ z, objective P speed.calculateOffset z = speed.cost z+c) ↔
      speed.weightDddx = 0) := by
  obtain ⟨P,hP,hp⟩ := path.objective_eq
  obtain ⟨S,hS,hs⟩ := speed.objective_eq
  rw [← constant_iff path.two_le hpath hp,← constant_iff speed.two_le hspeed hs,hP,hS]
  simp

/-- Two knots at distance one with weights of `x` and `x''`. -/
def smoothPath (weightDddx : ℚ) : PiecewiseJerkPathProblem ℚ :=
  { PiecewiseJerkPathProblem.ofKnots 2 1 ⟨0,0,0⟩ le_rfl ⟨0,0,0⟩ with weightX := 1, weightDdx := 2, weightDddx }

def smoothSpeed (weightDddx : ℚ) : PiecewiseJerkSpeedProblem ℚ :=
  { PiecewiseJerkSpeedProblem.ofKnots 2 1 ⟨0,0,0⟩ le_rfl ⟨0,0,0⟩ with
    weightDdx := 2, penaltyDx := [1,3], weightDddx, length_penaltyDx := rfl }

theorem objective_eq_cost_two_knots :
    (∃ P c, (smoothPath 0).calculateKernel = some P ∧
      ∀ z, objective P (smoothPath 0).calculateOffset z = (smoothPath 0).cost z+c) ∧
    ∃ P c, (smoothSpeed 0).calculateKernel = some P ∧
      ∀ z, objective P (smoothSpeed 0).calculateOffset z = (smoothSpeed 0).cost z+c := by
  obtain ⟨hpath,hspeed⟩ := objective_eq_cost_iff (smoothPath 0) (smoothSpeed 0) one_ne_zero one_ne_zero
  exact ⟨hpath.mpr rfl,hspeed.mpr rfl⟩

/-- A constant acceleration has no jerk, but adds to the objective. -/
theorem objective_ne_cost_two_knots : (∃ P, (smoothPath 1).calculateKernel = some P ∧
      ¬ ∃ c, ∀ z, objective P (smoothPath 1).calculateOffset z = (smoothPath 1).cost z+c) ∧
    ∃ P, (smoothSpeed 1).calculateKernel = some P ∧
      ¬ ∃ c, ∀ z, objective P (smoothSpeed 1).calculateOffset z = (smoothSpeed 1).cost z+c := by
  obtain ⟨P,hP,hp⟩ := (smoothPath 1).objective_eq
  obtain ⟨S,hS,hs⟩ := (smoothSpeed 1).objective_eq
  exact ⟨⟨P,hP,mt (constant_iff le_rfl one_ne_zero hp).mp one_ne_zero⟩,
    ⟨S,hS,mt (constant_iff le_rfl one_ne_zero hs).mp one_ne_zero⟩⟩

end Apollo.Modules.Planning
