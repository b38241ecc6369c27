import Apollo.Foundation.SparseMatrix
import Apollo.Foundation.ConstantJerk

/-! `PiecewiseJerkProblem` with exact arithmetic. The variables are `x`, `x'` and `x''` at the knots, in three blocks one
after another. The matrix of `CalculateAffineConstraint` is well formed, and the vectors between its bounds are the
knots of motions with a constant jerk on each interval. `Optimize` solves a null pointer instead of the workspace. -/
namespace Apollo.Modules.Planning
open Foundation Assembly List

structure KnotState (K : Type) where
  x : K
  dx : K
  ddx : K

/-- The problem that both planners share. The references are those of the classes derived from it. -/
structure PiecewiseJerkProblem (K : Type) where
  numOfKnots : Nat
  xInit : KnotState K
  xBounds : List (K × K)
  dxBounds : List (K × K)
  ddxBounds : List (K × K)
  dddxBound : K × K
  weightX : K
  weightDx : K
  weightDdx : K
  weightDddx : K
  deltaS : K
  two_le : 2 ≤ numOfKnots
  length_xBounds : xBounds.length = numOfKnots
  length_dxBounds : dxBounds.length = numOfKnots
  length_ddxBounds : ddxBounds.length = numOfKnots

namespace PiecewiseJerkProblem
variable {K : Type} [Field K]

def kMaxVariableRange : K := 10^10

/-- The constructor behind its `CHECK_GE`. -/
def ofKnots (numOfKnots : Nat) (deltaS : K) (xInit : KnotState K) (h : 2 ≤ numOfKnots) : PiecewiseJerkProblem K where
  numOfKnots := numOfKnots
  xInit := xInit
  xBounds := List.replicate numOfKnots (-kMaxVariableRange, kMaxVariableRange)
  dxBounds := List.replicate numOfKnots (-kMaxVariableRange, kMaxVariableRange)
  ddxBounds := List.replicate numOfKnots (-kMaxVariableRange, kMaxVariableRange)
  dddxBound := (0, 0)
  weightX := 0
  weightDx := 0
  weightDdx := 0
  weightDddx := 0
  deltaS := deltaS
  two_le := h
  length_xBounds := length_replicate
  length_dxBounds := length_replicate
  length_ddxBounds := length_replicate

section Constraints
variable (p : PiecewiseJerkProblem K)

def boundRow (i : Nat) : Constraint K :=
  let N := p.numOfKnots
  let bound :=
    if i < N then p.xBounds.getD i (0, 0)
    else if i < 2*N then p.dxBounds.getD (i - N) (0, 0)
    else p.ddxBounds.getD (i - 2*N) (0, 0)
  ⟨[(i, 1)],bound.1,bound.2⟩

/-- `x(i+1)'' - x(i)'' - x(i)''' * delta_s = 0`. -/
def ddxRow (i : Nat) : Constraint K :=
  let N := p.numOfKnots
  ⟨[(2*N+i, -1),(2*N+i+1, 1)],p.dddxBound.1*p.deltaS,p.dddxBound.2*p.deltaS⟩

/-- `x(i+1)' - x(i)' - 0.5 * delta_s * (x(i+1)'' + x(i)'') = 0`. -/
def dxRow (i : Nat) : Constraint K :=
  let N := p.numOfKnots
  ⟨[(N+i, -1),(N+i+1, 1),(2*N+i, -(1/2)*p.deltaS),(2*N+i+1, -(1/2)*p.deltaS)],0,0⟩

/-- `x(i+1) - x(i) - x(i)' * delta_s - 1/3 * x(i)'' * delta_s^2 - 1/6 * x(i+1)'' * delta_s^2 = 0`. -/
def xRow (i : Nat) : Constraint K :=
  let N := p.numOfKnots
  let deltaSSq := p.deltaS*p.deltaS
  ⟨[(i, -1),(i+1, 1),(N+i, -p.deltaS),(2*N+i, -deltaSSq/3),(2*N+i+1, -deltaSSq/6)],0,0⟩

def initRow (col : Nat) (value : K) : Constraint K := ⟨[(col, 1)],value,value⟩

/-- The loops fill the columns row by row; the columns are stored at the end. -/
def calculateAffineConstraint : Option (Csc K × List K × List K) :=
  let N := p.numOfKnots
  let kNumParam := 3*N
  let kNumConstraint := kNumParam+3*(N - 1)+3
  let s := (Assembly.start kNumParam kNumConstraint).addRange kNumParam p.boundRow
  if s.index ≠ kNumParam then none
  else
    let s := ((s.addRange (N - 1) p.ddxRow).addRange (N - 1) p.dxRow).addRange (N - 1) p.xRow
    let s := ((s.add (initRow 0 p.xInit.x)).add (initRow N p.xInit.dx)).add (initRow (2*N) p.xInit.ddx)
    if s.index ≠ kNumConstraint then none
    else some (Csc.ofColumns s.columns, s.lowerBounds, s.upperBounds)

end Constraints

/-- The fields of `OSQPSettings` that are set here. -/
structure OSQPSettings (K : Type) where
  maxIter : Int
  epsAbs : K
  epsRel : K
  epsPrimInf : K
  epsDualInf : K
  polish : Bool
  verbose : Bool
  scaledTermination : Bool

structure OSQPData (K : Type) where
  n : Nat
  m : Nat
  P : Csc K
  q : List K
  A : Csc K
  l : List K
  u : List K

/-- What a workspace holds after `osqp_solve`. -/
structure Solved (K : Type) where
  statusVal : Int
  /-- `none` is the null pointer. -/
  solution : Option (Nat → K)

/-- The solver. `ω` are the addresses of workspaces; a failed setup returns the null pointer. -/
structure OSQP (K ω : Type) where
  setup : OSQPData K → OSQPSettings K → Option ω
  solve : ω → Solved K

inductive Call (ω : Type)
  | setup (work : Option ω)
  | solve (work : Option ω)
  | inspect (work : Option ω)
  | cleanup (work : Option ω)
  deriving DecidableEq

structure Output (K : Type) where
  x : List K
  dx : List K
  ddx : List K

/-- A run: the calls in order, and the result. Without a result a null pointer was followed. -/
structure Run (ω α : Type) where
  calls : List (Call ω)
  result : Option α

section Optimize
variable {ω : Type} (osqp : OSQP K ω)

/-- `OptimizeWithOsqp` with `*work`. The workspace of `osqp_setup` goes into a local variable; it is `*work` that
is solved and inspected. -/
def optimizeWithOsqp (data : OSQPData K) (settings : OSQPSettings K) (work : Option ω) : Run ω Bool :=
  let osqpWork := osqp.setup data settings
  let calls := [.setup osqpWork,.solve work,.inspect work]
  match work with
  | none => ⟨calls,none⟩
  | some w =>
    let status := (osqp.solve w).statusVal
    ⟨calls,some (if status < 0 then false else if status ≠ 1 ∧ status ≠ 2 then false else true)⟩

variable (p : PiecewiseJerkProblem K)

def extract (z : Nat → K) : Output K where
  x := (List.range p.numOfKnots).map z
  dx := (List.range p.numOfKnots).map fun i => z (i+p.numOfKnots)
  ddx := (List.range p.numOfKnots).map fun i => z (i+2*p.numOfKnots)

/-- The data of a problem, with the kernel and the offset of the derived class. `OptimizeWithOsqp` begins with the
check. -/
def osqpData (P : Csc K) (q : List K) : Option (OSQPData K) :=
  p.calculateAffineConstraint.bind fun (A, lower, upper) =>
    if lower.length ≠ upper.length then none
    else some ⟨3*p.numOfKnots,lower.length,P,q,A,lower,upper⟩

/-- `Optimize` from the call of `OptimizeWithOsqp` on. It returns whether a solution was found, with the output. -/
def solveAndExtract (work : Option ω) (data : OSQPData K) (settings : OSQPSettings K) (output : Output K) :
    Run ω (Bool × Output K) :=
  let run := optimizeWithOsqp osqp data settings work
  match run.result with
  | none => ⟨run.calls,none⟩
  | some false => ⟨run.calls ++ [.cleanup work],some (false, output)⟩
  | some true =>
    match work with
    | none => ⟨run.calls ++ [.cleanup work],some (false, output)⟩
    | some w =>
      match (osqp.solve w).solution with
      | none => ⟨run.calls ++ [.inspect work,.cleanup work],some (false, output)⟩
      | some z => ⟨run.calls ++ [.inspect work,.cleanup work],some (true, p.extract z)⟩

/-- `Optimize`: `work` is null in the beginning. -/
def optimize (P : Csc K) (q : List K) (settings : OSQPSettings K) (maxIter : Int) (output : Output K) :
    Option (Run ω (Bool × Output K)) :=
  (p.osqpData P q).map fun data => p.solveAndExtract osqp none data { settings with maxIter := maxIter } output

end Optimize

section Matrix
variable (p : PiecewiseJerkProblem K)

def constraints : List (Constraint K) :=
  (List.range (3*p.numOfKnots)).map p.boundRow ++ (List.range (p.numOfKnots - 1)).map p.ddxRow ++
    (List.range (p.numOfKnots - 1)).map p.dxRow ++ (List.range (p.numOfKnots - 1)).map p.xRow ++
    [initRow 0 p.xInit.x,initRow p.numOfKnots p.xInit.dx,initRow (2*p.numOfKnots) p.xInit.ddx]

theorem length_constraints : p.constraints.length = 3*p.numOfKnots+3*(p.numOfKnots - 1)+3 := by
  simp only [constraints,length_append,length_map,length_range,length_cons,length_nil]
  omega

theorem forall_mem_constraints {P : Constraint K → Prop} :
    (∀ c ∈ p.constraints, P c) ↔ (∀ i < 3*p.numOfKnots, P (p.boundRow i)) ∧
      (∀ i < p.numOfKnots - 1, P (p.ddxRow i) ∧ P (p.dxRow i) ∧ P (p.xRow i)) ∧
      P (initRow 0 p.xInit.x) ∧ P (initRow p.numOfKnots p.xInit.dx) ∧ P (initRow (2*p.numOfKnots) p.xInit.ddx) := by
  simp only [constraints,forall_mem_append,forall_mem_map,mem_range,forall_mem_cons]
  constructor
  · rintro ⟨⟨⟨⟨hbound,hddx⟩,hdx⟩,hx⟩,h0,h1,h2,_⟩
    exact ⟨hbound,fun i hi => ⟨hddx i hi,hdx i hi,hx i hi⟩,h0,h1,h2⟩
  · rintro ⟨hbound,hrows,h0,h1,h2⟩
    refine ⟨⟨⟨⟨hbound,fun i hi => (hrows i hi).1⟩,fun i hi => (hrows i hi).2.1⟩,fun i hi => (hrows i hi).2.2⟩,
      h0,h1,h2,?_⟩
    exact forall_mem_nil _

def assembled : Assembly K := (start (3*p.numOfKnots) p.constraints.length).addAll p.constraints

/-- Neither `CHECK_EQ` fails. -/
theorem calculateAffineConstraint_eq : p.calculateAffineConstraint =
    some (Csc.ofColumns p.assembled.columns, p.assembled.lowerBounds, p.assembled.upperBounds) := by
  have hfirst : ((start (3*p.numOfKnots) p.constraints.length).addRange (3*p.numOfKnots)
      p.boundRow).index = 3*p.numOfKnots := by
    rw [addRange_eq,index_addAll,length_map,length_range]
    exact zero_add _
  have hindex : p.assembled.index = p.constraints.length := by
    rw [assembled,index_addAll]
    exact zero_add _
  have hall : p.assembled = (((((((start (3*p.numOfKnots) p.constraints.length).addRange
      (3*p.numOfKnots) p.boundRow).addRange (p.numOfKnots - 1) p.ddxRow).addRange (p.numOfKnots - 1)
      p.dxRow).addRange (p.numOfKnots - 1) p.xRow).add (initRow 0 p.xInit.x)).add
      (initRow p.numOfKnots p.xInit.dx)).add (initRow (2*p.numOfKnots) p.xInit.ddx) := by
    simp only [addRange_eq,addAll_addAll]
    rw [assembled,constraints,← addAll_addAll]
    rfl
  unfold calculateAffineConstraint
  simp only [← length_constraints,← hall]
  rw [if_neg (not_not.mpr hfirst),if_neg (not_not.mpr hindex)]

theorem terms_lt : ∀ c ∈ p.constraints, ∀ term ∈ c.terms, term.1 < 3*p.numOfKnots := by
  have htwo := p.two_le
  refine p.forall_mem_constraints.mpr ⟨?_,?_,?_⟩
  · intro _ hi
    simpa only [boundRow,forall_mem_singleton] using hi
  · intro _ _
    simp only [ddxRow,dxRow,xRow,forall_mem_cons]
    refine ⟨⟨?_,?_,forall_mem_nil _⟩,⟨?_,?_,?_,?_,forall_mem_nil _⟩, ?_,?_,?_,?_,?_,forall_mem_nil _⟩ <;> omega
  · simp only [initRow,forall_mem_singleton]
    omega

theorem terms_nodup : ∀ c ∈ p.constraints, (c.terms.map Prod.fst).Nodup := by
  refine p.forall_mem_constraints.mpr ⟨fun _ _ => nodup_singleton _,?_,nodup_singleton _,
    nodup_singleton _,nodup_singleton _⟩
  intro _ _
  simp only [ddxRow,dxRow,xRow,map_cons,map_nil,nodup_cons,mem_cons,not_mem_nil,
    or_false,not_or,not_false_eq_true,nodup_nil,and_true]
  omega

theorem length_lowerBounds : p.assembled.lowerBounds.length = p.constraints.length :=
  (Assembly.length_bounds_addAll _ _ fun _ _ => rfl).trans length_replicate

theorem length_upperBounds : p.assembled.upperBounds.length = p.constraints.length :=
  (Assembly.length_bounds_addAll _ _ fun _ _ => rfl).trans length_replicate

theorem wellFormed_assembled :
    (Csc.ofColumns p.assembled.columns).WellFormed p.constraints.length (3*p.numOfKnots) := by
  have hempty : ∀ column ∈ (start (3*p.numOfKnots) p.constraints.length : Assembly K).columns,
      Columns.RowsBelow 0 column := by
    intro _ hmem
    obtain rfl := eq_of_mem_replicate hmem
    exact ⟨List.Pairwise.nil,forall_mem_nil _⟩
  have hrows := rowsBelow_addAll _ p.constraints hempty p.terms_nodup
  have hwell := Csc.wellFormed_ofColumns hrows
  have hcols : (start (3*p.numOfKnots) p.constraints.length : Assembly K).columns.length =
      3*p.numOfKnots := length_replicate
  have hindex : (start (3*p.numOfKnots) p.constraints.length : Assembly K).index = 0 := rfl
  rwa [length_columns_addAll,hcols,hindex,zero_add] at hwell

end Matrix

section Vectors
variable (p : PiecewiseJerkProblem K) (z : Nat → K)

def StartsAtInit : Prop := z 0 = p.xInit.x ∧ z p.numOfKnots = p.xInit.dx ∧ z (2*p.numOfKnots) = p.xInit.ddx

theorem boundRow_value (i : Nat) : (p.boundRow i).value z = z i := by
  simp only [boundRow,Constraint.value,map_cons,map_nil,sum_singleton,one_mul]

variable [LinearOrder K]

def WithinBounds : Prop :=
  ∀ i < p.numOfKnots, ((p.xBounds.getD i (0, 0)).1 ≤ z i ∧ z i ≤ (p.xBounds.getD i (0, 0)).2) ∧
    ((p.dxBounds.getD i (0, 0)).1 ≤ z (p.numOfKnots+i) ∧ z (p.numOfKnots+i) ≤ (p.dxBounds.getD i (0, 0)).2) ∧
    ((p.ddxBounds.getD i (0, 0)).1 ≤ z (2*p.numOfKnots+i) ∧ z (2*p.numOfKnots+i) ≤ (p.ddxBounds.getD i (0, 0)).2)

def Holds (c : Constraint K) : Prop := c.lower ≤ c.value z ∧ c.value z ≤ c.upper

theorem holds_boundRow_iff : (∀ i < 3*p.numOfKnots, Holds z (p.boundRow i)) ↔ p.WithinBounds z := by
  constructor
  · intro h i hi
    have hx := h i (by omega)
    have hdx := h (p.numOfKnots+i) (by omega)
    have hddx := h (2*p.numOfKnots+i) (by omega)
    rw [Holds,boundRow_value] at hx hdx hddx
    refine ⟨?_,?_,?_⟩
    · simpa only [boundRow,hi,if_true] using hx
    · simpa only [boundRow,show ¬ p.numOfKnots+i < p.numOfKnots by omega,
        show p.numOfKnots+i < 2*p.numOfKnots by omega,if_true,if_false,Nat.add_sub_cancel_left] using hdx
    · simpa only [boundRow,show ¬ 2*p.numOfKnots+i < p.numOfKnots by omega,
        show ¬ 2*p.numOfKnots+i < 2*p.numOfKnots by omega,if_false,Nat.add_sub_cancel_left] using hddx
  · intro h i _
    rw [Holds,boundRow_value]
    unfold boundRow
    by_cases hx : i < p.numOfKnots
    · simpa only [hx,if_true] using (h i hx).1
    · by_cases hdx : i < 2*p.numOfKnots
      · have hbound := (h (i - p.numOfKnots) (by omega)).2.1
        rw [show p.numOfKnots+(i - p.numOfKnots) = i by omega] at hbound
        simpa only [hx,hdx,if_true,if_false] using hbound
      · have hbound := (h (i - 2*p.numOfKnots) (by omega)).2.2
        rw [show 2*p.numOfKnots+(i - 2*p.numOfKnots) = i by omega] at hbound
        simpa only [hx,hdx,if_false] using hbound

theorem holds_initRow_iff (col : Nat) (value : K) : Holds z (initRow col value) ↔ z col = value := by
  simp only [Holds,initRow,Constraint.value,map_cons,map_nil,sum_singleton,one_mul]
  exact ⟨fun h => le_antisymm h.2 h.1,fun h => ⟨h.ge,h.le⟩⟩

variable [IsStrictOrderedRing K]

theorem holds_rows_iff (i : Nat) : (Holds z (p.ddxRow i) ∧ Holds z (p.dxRow i) ∧ Holds z (p.xRow i)) ↔
      (p.dddxBound.1*p.deltaS ≤ z (2*p.numOfKnots+(i+1)) - z (2*p.numOfKnots+i) ∧
        z (2*p.numOfKnots+(i+1)) - z (2*p.numOfKnots+i) ≤ p.dddxBound.2*p.deltaS) ∧
      z (p.numOfKnots+(i+1)) - z (p.numOfKnots+i) = p.deltaS/2*(z (2*p.numOfKnots+i)+z (2*p.numOfKnots+(i+1))) ∧
      z (i+1) - z i = p.deltaS*z (p.numOfKnots+i)+p.deltaS^2/3*z (2*p.numOfKnots+i) +
        p.deltaS^2/6*z (2*p.numOfKnots+(i+1)) := by
  have hddx : (p.ddxRow i).value z = z (2*p.numOfKnots+(i+1)) - z (2*p.numOfKnots+i) := by
    simp only [ddxRow,Constraint.value,map_cons,map_nil,sum_cons,sum_nil,add_assoc]
    ring
  have hdx : (p.dxRow i).value z = z (p.numOfKnots+(i+1)) - z (p.numOfKnots+i) -
      p.deltaS/2*(z (2*p.numOfKnots+i)+z (2*p.numOfKnots+(i+1))) := by
    simp only [dxRow,Constraint.value,map_cons,map_nil,sum_cons,sum_nil,add_assoc]
    ring
  have hx : (p.xRow i).value z = z (i+1) - z i - (p.deltaS*z (p.numOfKnots+i) +
      p.deltaS^2/3*z (2*p.numOfKnots+i)+p.deltaS^2/6*z (2*p.numOfKnots+(i+1))) := by
    simp only [xRow,Constraint.value,map_cons,map_nil,sum_cons,sum_nil,add_assoc]
    ring
  have hzero (v : K) : (0 ≤ v ∧ v ≤ 0) ↔ v = 0 := ⟨fun h => le_antisymm h.2 h.1,fun h => ⟨h.ge,h.le⟩⟩
  unfold Holds
  rw [hddx,hdx,hx,← sub_eq_zero (b := p.deltaS/2*_),← sub_eq_zero (b := p.deltaS*_+_+_),← hzero, ← hzero]
  rfl

end Vectors

/-- The vector is the sampling at the knots of a motion with a constant jerk on each interval, within the bounds
of the jerk. -/
def IsKnotSampling (p : PiecewiseJerkProblem ℝ) (z : Nat → ℝ) : Prop :=
  ∃ curve : JerkCurve p.deltaS (p.numOfKnots - 1),
    curve.Samples z (fun i => z (p.numOfKnots+i)) (fun i => z (2*p.numOfKnots+i)) ∧
    ∀ i < p.numOfKnots - 1, p.dddxBound.1 ≤ curve.jerk i ∧ curve.jerk i ≤ p.dddxBound.2

/-- The matrix is well formed, with one row for each pair of bounds, and it describes the knots of motions. -/
theorem calculateAffineConstraint_correct (p : PiecewiseJerkProblem ℝ) (hdelta : 0 < p.deltaS) :
    ∃ A lowerBounds upperBounds, p.calculateAffineConstraint = some (A, lowerBounds, upperBounds) ∧
      upperBounds.length = lowerBounds.length ∧
      A.WellFormed lowerBounds.length (3*p.numOfKnots) ∧
      ∀ z, Satisfies A lowerBounds upperBounds z ↔ p.StartsAtInit z ∧ p.WithinBounds z ∧ p.IsKnotSampling z := by
  refine ⟨_,_,_,p.calculateAffineConstraint_eq,?_,?_,?_⟩
  · rw [length_lowerBounds,length_upperBounds]
  · rw [length_lowerBounds]
    exact p.wellFormed_assembled
  · intro z
    have hrows : p.IsKnotSampling z ↔ ∀ i < p.numOfKnots - 1,
        Holds z (p.ddxRow i) ∧ Holds z (p.dxRow i) ∧ Holds z (p.xRow i) := by
      rw [IsKnotSampling,JerkCurve.exists_samples_iff hdelta]
      exact forall₂_congr fun i _ => (p.holds_rows_iff z i).symm
    have hall : (∀ c ∈ p.constraints, Holds z c) ↔ _ := p.forall_mem_constraints
    rw [hrows,← holds_boundRow_iff,StartsAtInit]
    simp only [← holds_initRow_iff z]
    refine (satisfies_addAll p.terms_lt z).trans (hall.trans ?_)
    exact ⟨fun h => ⟨h.2.2,h.1,h.2.1⟩,fun h => ⟨h.2.1,h.2.2,h.1⟩⟩

/-- Two knots at distance one. -/
theorem calculateAffineConstraint_correct_two : ∃ A lowerBounds upperBounds,
      (ofKnots 2 (1 : ℝ) ⟨0,0,0⟩ le_rfl).calculateAffineConstraint = some (A, lowerBounds, upperBounds) ∧
      upperBounds.length = lowerBounds.length ∧ A.WellFormed lowerBounds.length 6 ∧
      ∀ z, Satisfies A lowerBounds upperBounds z ↔ (ofKnots 2 (1 : ℝ) ⟨0,0,0⟩ le_rfl).StartsAtInit z ∧
        (ofKnots 2 (1 : ℝ) ⟨0,0,0⟩ le_rfl).WithinBounds z ∧
        (ofKnots 2 (1 : ℝ) ⟨0,0,0⟩ le_rfl).IsKnotSampling z :=
  calculateAffineConstraint_correct (ofKnots 2 (1 : ℝ) ⟨0,0,0⟩ le_rfl) one_pos

section HandedOver
variable {ω : Type}

/-- The output holds three consecutive blocks of `n` variables. -/
structure Output.Blocks (output : Output K) (n : Nat) (z : Nat → K) : Prop where
  x : output.x.length = n
  dx : output.dx.length = n
  ddx : output.ddx.length = n
  all : output.x ++ output.dx ++ output.ddx = (List.range (3*n)).map z

/-- Only the workspace that `osqp_setup` returned for the problem is solved and inspected, and the output of a
successful run is in it. -/
structure HandedOver (osqp : OSQP K ω) (p : PiecewiseJerkProblem K) (data : OSQPData K) (settings : OSQPSettings K)
    (run : Run ω (Bool × Output K)) : Prop where
  used : ∀ work, .solve work ∈ run.calls ∨ .inspect work ∈ run.calls →
    ∃ w, work = some w ∧ osqp.setup data settings = some w
  blocks : ∀ output, run.result = some (true, output) → ∃ w z, osqp.setup data settings = some w ∧
    (osqp.solve w).solution = some z ∧ output.Blocks p.numOfKnots z

theorem osqpData_isSome (p : PiecewiseJerkProblem K) (P : Csc K) (q : List K) :
    ∃ data, p.osqpData P q = some data := by
  have hlen := p.length_lowerBounds.trans p.length_upperBounds.symm
  rw [osqpData,calculateAffineConstraint_eq,Option.bind_some]
  exact ⟨_,if_neg (not_not.mpr hlen)⟩

/-- Whatever the problem and the solver are, `Optimize` solves the null pointer and follows it. -/
theorem optimize_not_handedOver (osqp : OSQP K ω) (p : PiecewiseJerkProblem K) (P : Csc K) (q : List K)
    (settings : OSQPSettings K) (maxIter : Int) (output : Output K) : ∃ data run, p.osqpData P q = some data ∧
      p.optimize osqp P q settings maxIter output = some run ∧ run.result = none ∧
      ¬ HandedOver osqp p data { settings with maxIter := maxIter } run := by
  obtain ⟨data,hdata⟩ := p.osqpData_isSome P q
  refine ⟨data,_,hdata,by rw [optimize,hdata,Option.map_some],rfl,?_⟩
  intro h
  obtain ⟨w,hw,_⟩ := h.used none (.inl (by simp [solveAndExtract,optimizeWithOsqp]))
  cases hw

end HandedOver

def zeroSolver : OSQP ℚ Unit := ⟨fun _ _ => some (),fun _ => ⟨1,some fun _ => 0⟩⟩

def noSettings : OSQPSettings ℚ := ⟨0,0,0,0,0,false,false,false⟩

/-- The solver returned a workspace, but the null pointer is solved. -/
theorem optimize_solves_null : ∃ data, (ofKnots 2 (1 : ℚ) ⟨0,0,0⟩ le_rfl).osqpData ⟨[],[],[]⟩ [] = some data ∧
    zeroSolver.setup data { noSettings with maxIter := 4000 } = some () ∧
    (ofKnots 2 (1 : ℚ) ⟨0,0,0⟩ le_rfl).optimize zeroSolver ⟨[],[],[]⟩ [] noSettings 4000 ⟨[],[],[]⟩ =
      some ⟨[.setup (some ()),.solve none,.inspect none],none⟩ ∧
    ¬ HandedOver zeroSolver (ofKnots 2 (1 : ℚ) ⟨0,0,0⟩ le_rfl) data { noSettings with maxIter := 4000 }
      ⟨[.setup (some ()),.solve none,.inspect none],none⟩ := by
  obtain ⟨data,hdata⟩ := (ofKnots 2 (1 : ℚ) ⟨0,0,0⟩ le_rfl).osqpData_isSome ⟨[],[],[]⟩ []
  refine ⟨data,hdata,rfl,by rw [optimize,hdata]; rfl,?_⟩
  intro h
  obtain ⟨w,hw,_⟩ := h.used none (.inl (by simp))
  cases hw

end PiecewiseJerkProblem
end Apollo.Modules.Planning
