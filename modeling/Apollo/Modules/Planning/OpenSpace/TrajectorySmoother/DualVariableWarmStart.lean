import Apollo.Foundation.Numerals
import Apollo.Foundation.CountedLoop
import Mathlib.Algebra.BigOperators.Group.Finset.Basic
import Mathlib.Algebra.Field.Defs
import Mathlib.Algebra.Order.BigOperators.Group.List

/-! The dual variable warm start problem with exact arithmetic, and the interface to IPOPT. The variables are `lambda` for
each edge, four `mu` for each obstacle and the distance `d` for each obstacle, each over the horizon. The running
indices of the loops over the obstacles in closed form. -/
namespace Apollo.Modules.Planning
open Foundation List

structure WarmStartPose (K : Type) [Field K] where
  x : K
  y : K
  cos : K
  sin : K
  unit : cos*cos+sin*sin = 1

/-- The arguments of both interfaces. Matrices are functions of their indices; there is one number of edges for
each obstacle. -/
structure DualVariableWarmStart (K : Type) [Field K] where
  horizon : Nat
  ego : Nat → K
  obstaclesEdgesNum : List Nat
  obstaclesA : Nat → Nat → K
  obstaclesB : Nat → K
  xWS : Nat → WarmStartPose K

namespace DualVariableWarmStart
variable {K : Type} [Field K] (p : DualVariableWarmStart K)

def obstaclesNum : Nat := p.obstaclesEdgesNum.length

def obstaclesEdgesSum : Nat := p.obstaclesEdgesNum.sum

def edgesNum (j : Nat) : Nat := p.obstaclesEdgesNum.getD j 0

def wEv : K := p.ego 1+p.ego 3

def lEv : K := p.ego 0+p.ego 2

def g (k : Nat) : K := [p.lEv/2,p.wEv/2,p.lEv/2,p.wEv/2].getD k 0

def offset : K := (p.ego 0+p.ego 2)/2 - p.ego 2

def lambdaHorizon : Nat := p.obstaclesEdgesSum*(p.horizon+1)

def miuHorizon : Nat := p.obstaclesNum*4*(p.horizon+1)

def dualFormulationHorizon : Nat := p.obstaclesNum*(p.horizon+1)

def lStartIndex : Nat := 0

def nStartIndex : Nat := lStartIndex+p.obstaclesEdgesSum*(p.horizon+1)

def dStartIndex : Nat := p.nStartIndex+4*p.obstaclesNum*(p.horizon+1)

def numOfVariables : Nat := p.lambdaHorizon+p.miuHorizon+p.dualFormulationHorizon

def numOfConstraints : Nat := 4*p.obstaclesNum*(p.horizon+1)+p.numOfVariables

/-- `nnz_jac_g`. The loops add to `tmp` and write nothing. -/
def nnzJacG : Nat :=
  let tmp := (forRange (α := Empty) (fun _ tmp => forRange (fun j tmp =>
    ([], tmp+(p.edgesNum j*4+2+2+4+1))) p.obstaclesNum tmp) (p.horizon+1) 0).2
  tmp+p.numOfVariables

structure Index where
  l : Nat
  n : Nat
  d : Nat
  constraint : Nat
  edgesCounter : Nat

def Index.next (s : Index) (currentEdgesNum : Nat) : Index where
  l := s.l+currentEdgesNum
  n := s.n+4
  d := s.d+1
  constraint := s.constraint+4
  edgesCounter := s.edgesCounter+currentEdgesNum

section Obstacle
variable (x : Nat → K) (i l n d edgesCounter currentEdgesNum : Nat)

/-- The first two columns of `A` times `lambda`, and `b` times `lambda`. -/
def tmp1 : K := ∑ k ∈ Finset.range currentEdgesNum, p.obstaclesA (edgesCounter+k) 0*x (l+k)

def tmp2 : K := ∑ k ∈ Finset.range currentEdgesNum, p.obstaclesA (edgesCounter+k) 1*x (l+k)

def tmp3 : K := ∑ k ∈ Finset.range 4, p.g k*x (n+k)

def tmp4 : K := ∑ k ∈ Finset.range currentEdgesNum, p.obstaclesB (edgesCounter+k)*x (l+k)

def obstacleConstraints : List K :=
  let pose := p.xWS i
  let tmp1 := p.tmp1 x l edgesCounter currentEdgesNum
  let tmp2 := p.tmp2 x l edgesCounter currentEdgesNum
  let tmp3 := p.tmp3 x n
  let tmp4 := p.tmp4 x l edgesCounter currentEdgesNum
  [tmp1*tmp1+tmp2*tmp2,x n - x (n+2)+pose.cos*tmp1+pose.sin*tmp2, x (n+1) - x (n+3) - pose.sin*tmp1+pose.cos*tmp2,
    x d+tmp3 - (pose.x+pose.cos*p.offset)*tmp1 - (pose.y+pose.sin*p.offset)*tmp2+tmp4]

end Obstacle

/-- The loops of `eval_constraints` over the obstacles. The constraints are written one after another. -/
def constraintLoops (x : Nat → K) : List K × Index :=
  forRange (fun i s => forRange (fun j s =>
      let currentEdgesNum := p.edgesNum j
      (p.obstacleConstraints x i s.l s.n s.d s.edgesCounter currentEdgesNum, s.next currentEdgesNum))
    p.obstaclesNum { s with edgesCounter := 0 }) (p.horizon+1)
    ⟨lStartIndex,p.nStartIndex,p.dStartIndex,0,0⟩

/-- The box constraints: one for each variable, in three loops. -/
def boxes {α : Type} (box : Nat → Nat → α) (constraint : Nat) : List α :=
  (range p.lambdaHorizon).map (fun i => box (constraint+i) (lStartIndex+i)) ++
    (range p.miuHorizon).map (fun i => box (constraint+p.lambdaHorizon+i) (p.nStartIndex+i)) ++
    (range p.dualFormulationHorizon).map fun i =>
      box (constraint+p.lambdaHorizon+p.miuHorizon+i) (p.dStartIndex+i)

/-- `constraint_index` at the end of the loops over the boxes. -/
def lastConstraint (constraint : Nat) : Nat := constraint+p.lambdaHorizon+p.miuHorizon+p.dualFormulationHorizon

def evalConstraints (x : Nat → K) : Option (List K) :=
  let loops := p.constraintLoops x
  if p.lastConstraint loops.2.constraint ≠ p.numOfConstraints then none
  else some (loops.1 ++ p.boxes (fun _ variableIndex => x variableIndex) loops.2.constraint)

structure StructureIndex where
  l : Nat
  n : Nat
  d : Nat
  constraint : Nat

def obstacleStructure (s : StructureIndex) (currentEdgesNum : Nat) : List (Nat × Nat) :=
  -- 1. norm(A* lambda <= 1)
  (range currentEdgesNum).map (fun k => (s.constraint, s.l+k)) ++
  -- 2. G' * mu + R' * lambda == 0, part 1
  (range currentEdgesNum).map (fun k => (s.constraint+1, s.l+k)) ++
  [(s.constraint+1, s.n),(s.constraint+1, s.n+2)] ++
  -- 2. G' * mu + R' * lambda == 0, part 2
  (range currentEdgesNum).map (fun k => (s.constraint+2, s.l+k)) ++
  [(s.constraint+2, s.n+1),(s.constraint+2, s.n+3)] ++
  -- -g'*mu + (A*t - b)*lambda > 0
  (range currentEdgesNum).map (fun k => (s.constraint+3, s.l+k)) ++
  (range 4).map (fun k => (s.constraint+3, s.n+k)) ++
  [(s.constraint+3, s.d)]

def structureLoops : List (Nat × Nat) × StructureIndex :=
  forRange (fun _ s => forRange (fun j s =>
      let currentEdgesNum := p.edgesNum j
      (obstacleStructure s currentEdgesNum, ⟨s.l+currentEdgesNum,s.n+4,s.d+1,s.constraint+4⟩))
    p.obstaclesNum s) (p.horizon+1) ⟨lStartIndex,p.nStartIndex,p.dStartIndex,0⟩

/-- `eval_jac_g` without values: rows and columns. -/
def evalJacGStructure : Option (List (Nat × Nat)) :=
  let loops := p.structureLoops
  if p.lastConstraint loops.2.constraint ≠ p.numOfConstraints then none
  else some (loops.1 ++ p.boxes Prod.mk loops.2.constraint)

structure ValuesIndex where
  l : Nat
  n : Nat
  edgesCounter : Nat

def obstacleValues (x : Nat → K) (i l edgesCounter currentEdgesNum : Nat) : List K :=
  let pose := p.xWS i
  let tmp1 := p.tmp1 x l edgesCounter currentEdgesNum
  let tmp2 := p.tmp2 x l edgesCounter currentEdgesNum
  (range currentEdgesNum).map (fun k =>
    2*tmp1*p.obstaclesA (edgesCounter+k) 0+2*tmp2*p.obstaclesA (edgesCounter+k) 1) ++
  (range currentEdgesNum).map (fun k =>
    pose.cos*p.obstaclesA (edgesCounter+k) 0+pose.sin*p.obstaclesA (edgesCounter+k) 1) ++
  [1,-1] ++
  (range currentEdgesNum).map (fun k =>
    -pose.sin*p.obstaclesA (edgesCounter+k) 0+pose.cos*p.obstaclesA (edgesCounter+k) 1) ++
  [1,-1] ++
  (range currentEdgesNum).map (fun k =>
    -(pose.x+pose.cos*p.offset)*p.obstaclesA (edgesCounter+k) 0 -
      (pose.y+pose.sin*p.offset)*p.obstaclesA (edgesCounter+k) 1+p.obstaclesB (edgesCounter+k)) ++
  (range 4).map p.g ++
  [1]

def valuesLoops (x : Nat → K) : List K × ValuesIndex :=
  forRange (fun i s => forRange (fun j s =>
      let currentEdgesNum := p.edgesNum j
      (p.obstacleValues x i s.l s.edgesCounter currentEdgesNum,
        ⟨s.l+currentEdgesNum,s.n+4,s.edgesCounter+currentEdgesNum⟩))
    p.obstaclesNum { s with edgesCounter := 0 }) (p.horizon+1) ⟨lStartIndex,p.nStartIndex,0⟩

/-- `eval_jac_g` with values; `nele_jac` is the announced number of entries. -/
def evalJacGValues (x : Nat → K) (neleJac : Nat) : Option (List K) :=
  let values := (p.valuesLoops x).1 ++ replicate p.lambdaHorizon 1 ++ replicate p.miuHorizon 1 ++
    replicate p.dualFormulationHorizon 1
  if values.length ≠ neleJac then none else some values

open Nat
variable {K : Type} [Field K] (p : DualVariableWarmStart K)

def edgesBefore (j : Nat) : Nat := (p.obstaclesEdgesNum.take j).sum

variable {b j c k : Nat}

theorem edgesBefore_succ (hj : j < p.obstaclesNum) : p.edgesBefore (j+1) = p.edgesBefore j+p.edgesNum j := by
  have hget : p.obstaclesEdgesNum[j]? = some (p.edgesNum j) := by
    rw [edgesNum,getD_eq_getElem?_getD,getElem?_eq_getElem hj,Option.getD_some]
  rw [edgesBefore,take_add_one,hget,List.sum_append]
  rfl

theorem edgesBefore_all : p.edgesBefore p.obstaclesNum = p.obstaclesEdgesSum := by
  rw [edgesBefore,obstaclesNum,take_length,obstaclesEdgesSum]

theorem edgesBefore_le (j : Nat) : p.edgesBefore j ≤ p.obstaclesEdgesSum :=
  (take_sublist j _).sum_le_sum fun _ _ => zero_le _

def numOfBlocks : Nat := (p.horizon+1)*p.obstaclesNum

def blockEdges (b : Nat) : Nat := p.edgesNum (b%p.obstaclesNum)

def blockEdgesCounter (b : Nat) : Nat := p.edgesBefore (b%p.obstaclesNum)

def lIndex (b : Nat) : Nat := b/p.obstaclesNum*p.obstaclesEdgesSum+p.edgesBefore (b%p.obstaclesNum)

def nIndex (b : Nat) : Nat := p.nStartIndex+4*b

def dIndex (b : Nat) : Nat := p.dStartIndex+b

theorem obstaclesNum_pos (hb : b < p.numOfBlocks) : 0 < p.obstaclesNum := by
  rcases Nat.eq_zero_or_pos p.obstaclesNum with hzero | hpos
  · rw [numOfBlocks,hzero,mul_zero] at hb
    cases hb
  · exact hpos

theorem lIndex_zero : p.lIndex 0 = 0 := by
  rw [lIndex,Nat.zero_div,zero_mul,Nat.zero_mod,zero_add]
  rfl

theorem lIndex_succ (hb : b < p.numOfBlocks) : p.lIndex (b+1) = p.lIndex b+p.blockEdges b := by
  have hpos := p.obstaclesNum_pos hb
  have hmod := mod_lt b hpos
  have hnext := p.edgesBefore_succ hmod
  have hdiv := div_add_mod b p.obstaclesNum
  rcases lt_or_ge (b%p.obstaclesNum+1) p.obstaclesNum with hlt | _
  · -- the next obstacle at the same time
    have hsucc : b+1 = p.obstaclesNum*(b/p.obstaclesNum)+(b%p.obstaclesNum+1) := by omega
    have hq : (b+1)/p.obstaclesNum = b/p.obstaclesNum := by
      rw [hsucc,mul_add_div hpos,div_eq_of_lt hlt,add_zero]
    have hr : (b+1)%p.obstaclesNum = b%p.obstaclesNum+1 := by
      rw [hsucc,mul_add_mod,mod_eq_of_lt hlt]
    rw [lIndex,hq,hr,hnext,lIndex,blockEdges,add_assoc]
  · -- the first obstacle at the next time
    have hall : b%p.obstaclesNum+1 = p.obstaclesNum := by omega
    have hsucc : b+1 = p.obstaclesNum*(b/p.obstaclesNum+1) := by
      rw [mul_succ]
      omega
    have hq : (b+1)/p.obstaclesNum = b/p.obstaclesNum+1 := by rw [hsucc,Nat.mul_div_cancel_left _ hpos]
    have hr : (b+1)%p.obstaclesNum = 0 := by rw [hsucc,mul_mod_right]
    rw [hall,p.edgesBefore_all] at hnext
    rw [lIndex,hq,hr,lIndex,blockEdges,add_assoc,← hnext,succ_mul]
    rfl

theorem lIndex_all : p.lIndex p.numOfBlocks = p.lambdaHorizon := by
  rcases Nat.eq_zero_or_pos p.obstaclesNum with hzero | hpos
  · have hsum : p.obstaclesEdgesSum = 0 := by
      rw [← p.edgesBefore_all,hzero]
      rfl
    have hbefore := p.edgesBefore_le (p.numOfBlocks%p.obstaclesNum)
    rw [lIndex,lambdaHorizon,hsum] at *
    omega
  · rw [lIndex,numOfBlocks,Nat.mul_div_cancel _ hpos,Nat.mul_mod_left,lambdaHorizon,mul_comm]
    rfl

theorem lIndex_le (h : b ≤ c) (hc : c ≤ p.numOfBlocks) : p.lIndex b ≤ p.lIndex c := by
  induction h with
  | refl => exact le_rfl
  | step _ ih =>
    rw [p.lIndex_succ hc]
    exact (ih (le_of_succ_le hc)).trans (le_add_right _ _)

theorem nStartIndex_eq : p.nStartIndex = p.lambdaHorizon := zero_add _

theorem dStartIndex_eq : p.dStartIndex = p.lambdaHorizon+p.miuHorizon := by
  rw [dStartIndex,nStartIndex_eq,miuHorizon,mul_comm 4]

theorem miuHorizon_eq : p.miuHorizon = 4*p.numOfBlocks := by
  rw [miuHorizon,numOfBlocks,mul_comm p.obstaclesNum,mul_assoc,mul_comm p.obstaclesNum]

theorem numOfConstraints_eq : p.numOfConstraints = 4*p.numOfBlocks+p.numOfVariables := by
  rw [numOfConstraints,numOfBlocks,mul_assoc,mul_comm p.obstaclesNum]

theorem lIndex_add_lt (hb : b < p.numOfBlocks) (hk : k < p.blockEdges b) : p.lIndex b+k < p.nStartIndex := by
  have hnext := p.lIndex_succ hb
  have hle : p.lIndex (b+1) ≤ _ := p.lIndex_le hb le_rfl
  rw [lIndex_all] at hle
  rw [nStartIndex_eq]
  omega

/-- The indices of `eval_constraints` before obstacle `j` at time `i`. -/
def indexAt (i j : Nat) : Index :=
  ⟨i*p.obstaclesEdgesSum+p.edgesBefore j,p.nStartIndex+4*(i*p.obstaclesNum+j),
    p.dStartIndex+(i*p.obstaclesNum+j),4*(i*p.obstaclesNum+j),p.edgesBefore j⟩

theorem indexAt_succ (i : Nat) (hj : j < p.obstaclesNum) :
    (p.indexAt i j).next (p.edgesNum j) = p.indexAt i (j+1) := by
  simp only [indexAt,Index.next,p.edgesBefore_succ hj,mul_add,add_assoc]

theorem indexAt_end (i : Nat) :
    p.indexAt i p.obstaclesNum = { p.indexAt (i+1) 0 with edgesCounter := p.obstaclesEdgesSum } := by
  have hzero : p.edgesBefore 0 = 0 := rfl
  simp only [indexAt,p.edgesBefore_all,hzero,succ_mul,add_zero]

theorem indexAt_block : p.indexAt (b/p.obstaclesNum) (b%p.obstaclesNum) =
    ⟨p.lIndex b,p.nIndex b,p.dIndex b,4*b,p.blockEdgesCounter b⟩ := by
  simp only [indexAt,div_add_mod',lIndex,nIndex,dIndex,blockEdgesCounter]

/-- The indices before time `i`. The counter of edges is the only one that does not go on from there. -/
def indexBefore (i : Nat) : Index := { p.indexAt i 0 with edgesCounter := if i = 0 then 0 else p.obstaclesEdgesSum }

theorem indexBefore_zero : p.indexBefore 0 = ⟨lStartIndex,p.nStartIndex,p.dStartIndex,0,0⟩ := by
  have hzero : p.edgesBefore 0 = 0 := rfl
  simp only [indexBefore,indexAt,hzero,zero_mul,mul_zero,add_zero,if_true,lStartIndex]

theorem indexBefore_constraint : (p.indexBefore (p.horizon+1)).constraint = 4*p.numOfBlocks := rfl

section Constraints
variable (x : Nat → K)

def blockConstraints (b : Nat) : List K :=
  p.obstacleConstraints x (b/p.obstaclesNum) (p.lIndex b) (p.nIndex b) (p.dIndex b) (p.blockEdgesCounter b)
    (p.blockEdges b)

theorem constraintLoops_eq :
    p.constraintLoops x = ((List.range p.numOfBlocks).flatMap (p.blockConstraints x), p.indexBefore (p.horizon+1)) := by
  have hloops := forRange_forRange
    (fun i j s => (p.obstacleConstraints x i s.l s.n s.d s.edgesCounter (p.edgesNum j), s.next (p.edgesNum j)))
    (fun s => { s with edgesCounter := 0 }) p.indexBefore p.indexAt
    (fun i j => p.obstacleConstraints x i (p.indexAt i j).l (p.indexAt i j).n (p.indexAt i j).d
      (p.indexAt i j).edgesCounter (p.edgesNum j))
    (fun i (_ : i < p.horizon+1) => rfl) (fun i _ => p.indexAt_end i)
    (fun i _ _ hj => congrArg (Prod.mk _) (p.indexAt_succ i hj))
  simp only [indexAt_block,indexBefore_zero] at hloops
  exact hloops

theorem boxes_eq {α : Type} (box : Nat → Nat → α) (constraint : Nat) :
    p.boxes box constraint = (List.range p.numOfVariables).map fun t => box (constraint+t) t := by
  rw [boxes,numOfVariables,range_add,range_add,map_append,map_append,map_map, map_map,nStartIndex_eq,dStartIndex_eq]
  simp only [Function.comp_def,lStartIndex,zero_add,add_assoc]

theorem lastConstraint_eq : p.lastConstraint (4*p.numOfBlocks) = p.numOfConstraints := by
  rw [lastConstraint,numOfConstraints_eq,numOfVariables]
  omega

theorem evalConstraints_eq : p.evalConstraints x =
    some ((List.range p.numOfBlocks).flatMap (p.blockConstraints x) ++ (List.range p.numOfVariables).map x) := by
  unfold evalConstraints
  simp only [constraintLoops_eq,indexBefore_constraint,boxes_eq]
  rw [if_neg (not_not.mpr p.lastConstraint_eq)]

def constraintAt (row : Nat) : K := ((p.evalConstraints x).getD []).getD row 0

theorem length_blockConstraints (b : Nat) : (p.blockConstraints x b).length = 4 := rfl

theorem constraintAt_block {b r : Nat} (hb : b < p.numOfBlocks) (hr : r < 4) :
    p.constraintAt x (4*b+r) = (p.blockConstraints x b).getD r 0 := by
  have hlen : 4*b+r < ((List.range p.numOfBlocks).flatMap (p.blockConstraints x)).length := by
    rw [length_flatMap_const fun k _ => p.length_blockConstraints x k]
    omega
  rw [constraintAt,evalConstraints_eq,Option.getD_some,getD_eq_getElem?_getD,getElem?_append_left hlen,
    getElem?_flatMap_range (fun k _ => p.length_blockConstraints x k) hb hr,← getD_eq_getElem?_getD]

theorem constraintAt_box {t : Nat} (ht : t < p.numOfVariables) : p.constraintAt x (4*p.numOfBlocks+t) = x t := by
  have hlen : ((List.range p.numOfBlocks).flatMap (p.blockConstraints x)).length = 4*p.numOfBlocks :=
    length_flatMap_const fun k _ => p.length_blockConstraints x k
  rw [constraintAt,evalConstraints_eq,Option.getD_some,getD_eq_getElem?_getD,
    getElem?_append_right (hlen ▸ Nat.le_add_right _ _),hlen,Nat.add_sub_cancel_left,getElem?_map,
    getElem?_range ht]
  rfl

end Constraints

end DualVariableWarmStart
end Apollo.Modules.Planning
