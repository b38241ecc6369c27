import Apollo.Foundation.SparseMatrix
import Apollo.Modules.Planning.OpenSpace.TrajectorySmoother.DualVariableWarmStart
import Mathlib.Algebra.BigOperators.Ring.Finset
import Mathlib.Algebra.Order.Ring.Rat
import Mathlib.Tactic.LinearCombination

/-! The interface to OSQP: its constraint matrix, and how it compares with the constraints for IPOPT. -/
namespace Apollo.Modules.Planning.DualVariableWarmStart
open Foundation List Csc Nat

section Model
variable {K : Type} [Field K] (p : DualVariableWarmStart K)

/-- A column with its value of `first_row_location`. -/
structure StartedColumn (K : Type) where
  firstRowLocation : Nat
  entries : List (Nat × K)

structure LambdaIndex where
  r1 : Nat
  r2 : Nat
  r3 : Nat
  firstRowLocation : Nat
  edgesCounter : Nat

/-- A column of `lambda`, with `R` and `t_trans` multiplied out. `R` has the sine with the same sign in both
rows. -/
def lambdaEntries (i edge r1 r2 r3 : Nat) : List (Nat × K) :=
  let pose := p.xWS i
  let a := p.obstaclesA edge
  [(r1, pose.cos*a 0+pose.sin*a 1),(r1+1, pose.sin*a 0+pose.cos*a 1),
    (r2, (pose.x+pose.cos*p.offset)*a 0+(pose.y+pose.sin*p.offset)*a 1 - p.obstaclesB edge),
    (r3, 1)]

def edgeLoop (i currentEdgesNum : Nat) (s : LambdaIndex) : List (StartedColumn K) × LambdaIndex :=
  forRange (fun k s =>
    ([⟨s.firstRowLocation,p.lambdaEntries i (s.edgesCounter+k) s.r1 s.r2 s.r3⟩],
      { s with r3 := s.r3+1, firstRowLocation := s.firstRowLocation+4 })) currentEdgesNum s

def LambdaIndex.next (s : LambdaIndex) (currentEdgesNum : Nat) : LambdaIndex :=
  { s with edgesCounter := s.edgesCounter+currentEdgesNum, r1 := s.r1+2, r2 := s.r2+1 }

def lambdaLoops : List (StartedColumn K) × LambdaIndex :=
  forRange (fun i s => forRange (fun j s =>
      let currentEdgesNum := p.edgesNum j
      let edges := p.edgeLoop i currentEdgesNum s
      (edges.1, edges.2.next currentEdgesNum))
    p.obstaclesNum { s with edgesCounter := 0 }) (p.horizon+1)
    ⟨0,2*p.obstaclesNum*(p.horizon+1),3*p.obstaclesNum*(p.horizon+1),0,0⟩

structure MiuIndex where
  r1 : Nat
  r2 : Nat
  r4 : Nat
  firstRowLocation : Nat

def miuEntries (k r1 r2 r4 : Nat) : List (Nat × K) := [(r1+k%2, if k < 2 then 1 else -1),(r2, -p.g k),(r4, 1)]

/-- The loop over the `mu` of an obstacle. -/
def miuLoop (s : MiuIndex) : List (StartedColumn K) × MiuIndex :=
  forRange (fun k s =>
    ([⟨s.firstRowLocation,p.miuEntries k s.r1 s.r2 s.r4⟩],
      { s with r4 := s.r4+1, firstRowLocation := s.firstRowLocation+3 })) 4 s

def miuLoops (firstRowLocation : Nat) : List (StartedColumn K) × MiuIndex :=
  forRange (fun _ s => forRange (fun _ s =>
      let miu := p.miuLoop s
      (miu.1, { miu.2 with r1 := miu.2.r1+2, r2 := miu.2.r2+1 }))
    p.obstaclesNum s) (p.horizon+1)
    ⟨0,2*p.obstaclesNum*(p.horizon+1),3*p.obstaclesNum*(p.horizon+1)+p.lambdaHorizon, firstRowLocation⟩

/-- `assemble_constraint` with its `CHECK_EQ`s. The variables of OSQP are `lambda` and `mu`. -/
def assembleConstraint : Option (Csc K) :=
  let lambda := p.lambdaLoops
  let miu := p.miuLoops lambda.2.firstRowLocation
  let columns := lambda.1 ++ miu.1
  let data := columns.flatMap fun column => column.entries.map Prod.snd
  let indices := columns.flatMap fun column => column.entries.map Prod.fst
  let indptr := columns.map StartedColumn.firstRowLocation ++ [miu.2.firstRowLocation]
  if data.length ≠ indices.length then none
  else if indptr.length ≠ p.lambdaHorizon+p.miuHorizon+1 then none
  else some ⟨data,indices,indptr⟩

/-- `lb` and `ub` of `optimize`. -/
def osqpBounds (minSafetyDistance : K) (i : Nat) : K × K :=
  (if 2*p.obstaclesNum*(p.horizon+1) ≤ i ∧ i < 3*p.obstaclesNum*(p.horizon+1) then minSafetyDistance else 0,
    if i < 2*p.obstaclesNum*(p.horizon+1) then 0 else 2*10^19)

end Model

section Columns
variable {K : Type} [Field K] (p : DualVariableWarmStart K)

def lambdaColumn (b k : Nat) : List (Nat × K) :=
  p.lambdaEntries (b/p.obstaclesNum) (p.blockEdgesCounter b+k) (2*b) (2*p.numOfBlocks+b)
    (3*p.numOfBlocks+(p.lIndex b+k))

def miuColumn (b k : Nat) : List (Nat × K) :=
  p.miuEntries k (2*b) (2*p.numOfBlocks+b) (3*p.numOfBlocks+p.lambdaHorizon+(4*b+k))

theorem edgeLoop_eq (i e : Nat) (s : LambdaIndex) : p.edgeLoop i e s =
    ((range e).map (fun k => ⟨s.firstRowLocation+4*k,p.lambdaEntries i (s.edgesCounter+k) s.r1 s.r2 (s.r3+k)⟩),
      { s with r3 := s.r3+e, firstRowLocation := s.firstRowLocation+4*e }) := by
  rw [map_eq_flatMap,edgeLoop]
  refine forRange_eq (fun k => { s with r3 := s.r3+k, firstRowLocation := s.firstRowLocation+4*k })
    (fun k => [(⟨s.firstRowLocation+4*k,
      p.lambdaEntries i (s.edgesCounter+k) s.r1 s.r2 (s.r3+k)⟩ : StartedColumn K)]) ?_
  intro _ _
  rfl

theorem miuLoop_eq (s : MiuIndex) : p.miuLoop s =
    ((range 4).map (fun k => ⟨s.firstRowLocation+3*k,p.miuEntries k s.r1 s.r2 (s.r4+k)⟩),
      { s with r4 := s.r4+4, firstRowLocation := s.firstRowLocation+12 }) := rfl

/-- The indices before obstacle `j` at time `i`. -/
def lambdaIndexAt (i j : Nat) : LambdaIndex :=
  ⟨2*(i*p.obstaclesNum+j),2*p.numOfBlocks+(i*p.obstaclesNum+j),
    3*p.numOfBlocks+(i*p.obstaclesEdgesSum+p.edgesBefore j),4*(i*p.obstaclesEdgesSum+p.edgesBefore j),
    p.edgesBefore j⟩

def lambdaIndexBefore (i : Nat) : LambdaIndex :=
  { p.lambdaIndexAt i 0 with edgesCounter := if i = 0 then 0 else p.obstaclesEdgesSum }

theorem lambdaIndexAt_end (i : Nat) : p.lambdaIndexAt i p.obstaclesNum = p.lambdaIndexBefore (i+1) := by
  have hzero : p.edgesBefore 0 = 0 := rfl
  simp only [lambdaIndexBefore,lambdaIndexAt,edgesBefore_all,hzero,succ_mul,add_zero]
  rfl

theorem rows_eq (m : Nat) : m*p.obstaclesNum*(p.horizon+1) = m*p.numOfBlocks := by
  rw [numOfBlocks,mul_assoc,mul_comm p.obstaclesNum]

theorem lambdaLoops_eq : p.lambdaLoops.1 = (range p.numOfBlocks).flatMap (fun b =>
      (range (p.blockEdges b)).map fun k => ⟨4*(p.lIndex b+k),p.lambdaColumn b k⟩) ∧
    p.lambdaLoops.2.firstRowLocation = 4*p.lambdaHorizon := by
  have hzero : p.edgesBefore 0 = 0 := rfl
  have hloops := forRange_forRange
    (fun i j s => ((p.edgeLoop i (p.edgesNum j) s).1, (p.edgeLoop i (p.edgesNum j) s).2.next (p.edgesNum j)))
    (fun s => { s with edgesCounter := 0 }) p.lambdaIndexBefore p.lambdaIndexAt
    (fun i j => (p.edgeLoop i (p.edgesNum j) (p.lambdaIndexAt i j)).1)
    (fun i (_ : i < p.horizon+1) => rfl) (fun i _ => p.lambdaIndexAt_end i)
    (fun i _ _ hj => congrArg (Prod.mk _) (by
      simp only [edgeLoop_eq,LambdaIndex.next,lambdaIndexAt,p.edgesBefore_succ hj,mul_add,add_assoc]))
  have hstart : p.lambdaIndexBefore 0 = ⟨0,2*p.obstaclesNum*(p.horizon+1),3*p.obstaclesNum*(p.horizon+1),0,0⟩ := by
    simp only [lambdaIndexBefore,lambdaIndexAt,rows_eq,hzero,zero_mul,mul_zero,add_zero,if_true]
  rw [hstart] at hloops
  constructor
  · refine (congrArg Prod.fst hloops).trans (flatMap_congr fun _ _ => ?_)
    simp only [edgeLoop_eq,lambdaIndexAt,lambdaColumn,lIndex,blockEdges,blockEdgesCounter,div_add_mod',
      ← mul_add,add_assoc]
  · refine (congrArg (fun r => r.2.firstRowLocation) hloops).trans ?_
    change 4*((p.horizon+1)*p.obstaclesEdgesSum+0) = _
    rw [add_zero,mul_comm (p.horizon+1),lambdaHorizon]

/-- The indices of `mu` before obstacle `j` at time `i`. -/
def miuIndexAt (i j : Nat) : MiuIndex :=
  ⟨2*(i*p.obstaclesNum+j),2*p.numOfBlocks+(i*p.obstaclesNum+j),
    3*p.numOfBlocks+p.lambdaHorizon+4*(i*p.obstaclesNum+j),
    4*p.lambdaHorizon+3*(4*(i*p.obstaclesNum+j))⟩

theorem miuLoops_eq : (p.miuLoops (4*p.lambdaHorizon)).1 = (range p.numOfBlocks).flatMap (fun b =>
      (range 4).map fun k => ⟨4*p.lambdaHorizon+3*(4*b+k),p.miuColumn b k⟩) ∧
    (p.miuLoops (4*p.lambdaHorizon)).2.firstRowLocation = 4*p.lambdaHorizon+3*p.miuHorizon := by
  have hloops := forRange_forRange
    (fun _ _ s => ((p.miuLoop s).1, { (p.miuLoop s).2 with r1 := (p.miuLoop s).2.r1+2, r2 := (p.miuLoop s).2.r2+1 }))
    id (fun i => p.miuIndexAt i 0) p.miuIndexAt (fun i j => (p.miuLoop (p.miuIndexAt i j)).1)
    (fun i (_ : i < p.horizon+1) => rfl)
    (fun i (_ : i < p.horizon+1) => show p.miuIndexAt i p.obstaclesNum = p.miuIndexAt (i+1) 0 by
      simp only [miuIndexAt,succ_mul,add_zero])
    (fun _ _ _ _ => rfl)
  have hstart : p.miuIndexAt 0 0 = ⟨0,2*p.obstaclesNum*(p.horizon+1),
      3*p.obstaclesNum*(p.horizon+1)+p.lambdaHorizon,4*p.lambdaHorizon⟩ := by
    simp only [miuIndexAt,rows_eq,zero_mul,mul_zero,add_zero]
  rw [hstart] at hloops
  constructor
  · refine (congrArg Prod.fst hloops).trans (flatMap_congr fun _ _ => ?_)
    simp only [miuLoop_eq,miuIndexAt,miuColumn,div_add_mod',mul_add,add_assoc]
  · refine (congrArg (fun r => r.2.firstRowLocation) hloops).trans ?_
    change 4*p.lambdaHorizon+3*(4*((p.horizon+1)*p.obstaclesNum+0)) = _
    rw [add_zero,miuHorizon_eq]
    rfl

def columns : Columns K :=
  (range p.numOfBlocks).flatMap (fun b => (range (p.blockEdges b)).map (p.lambdaColumn b)) ++
    (range p.numOfBlocks).flatMap fun b => (range 4).map (p.miuColumn b)

theorem length_lambdaColumns : ((range p.numOfBlocks).flatMap fun b =>
    (range (p.blockEdges b)).map (p.lambdaColumn b)).length = p.lambdaHorizon := by
  have htile := congrArg length (flatMap_range_tile id p.lIndex_zero fun _ hb => p.lIndex_succ hb)
  rw [length_map,length_range,lIndex_all,length_flatMap] at htile
  rw [length_flatMap,← htile]
  simp only [length_map]

theorem length_miuColumns :
    ((range p.numOfBlocks).flatMap fun b => (range 4).map (p.miuColumn b)).length = p.miuHorizon := by
  rw [length_flatMap_const fun _ _ => by rw [length_map,length_range],miuHorizon_eq]

theorem width_lambdaColumns : ∀ column ∈ (range p.numOfBlocks).flatMap (fun b =>
    (range (p.blockEdges b)).map (p.lambdaColumn b)), column.length = 4 := by
  intro _ hcolumn
  obtain ⟨b,_,hmem⟩ := mem_flatMap.mp hcolumn
  obtain ⟨k,_,rfl⟩ := mem_map.mp hmem
  rfl

theorem width_miuColumns : ∀ column ∈ (range p.numOfBlocks).flatMap (fun b =>
    (range 4).map (p.miuColumn b)), column.length = 3 := by
  intro _ hcolumn
  obtain ⟨b,_,hmem⟩ := mem_flatMap.mp hcolumn
  obtain ⟨k,_,rfl⟩ := mem_map.mp hmem
  rfl

theorem indptr_columns : indptrFrom 0 p.columns = (range p.lambdaHorizon).map (4 * ·) ++
    (range p.miuHorizon).map (fun k => 4*p.lambdaHorizon+3*k) ++
    [4*p.lambdaHorizon+3*p.miuHorizon] := by
  have hmiu := indptrFrom_append_const p.width_miuColumns (4*p.lambdaHorizon) []
  rw [append_nil,length_miuColumns] at hmiu
  rw [columns,indptrFrom_append_const p.width_lambdaColumns,length_lambdaColumns,zero_add,hmiu, append_assoc]
  simp only [zero_add]
  rfl

theorem assembleConstraint_eq : p.assembleConstraint = some (ofColumns p.columns) := by
  have hentries : (p.lambdaLoops.1 ++ (p.miuLoops (4*p.lambdaHorizon)).1).map StartedColumn.entries = p.columns := by
    rw [p.lambdaLoops_eq.1,p.miuLoops_eq.1,map_append,map_flatMap,map_flatMap]
    simp only [map_map,Function.comp_def]
    rfl
  have hstarts : (p.lambdaLoops.1 ++ (p.miuLoops (4*p.lambdaHorizon)).1).map StartedColumn.firstRowLocation =
      (range p.lambdaHorizon).map (4 * ·) ++ (range p.miuHorizon).map fun k => 4*p.lambdaHorizon+3*k := by
    have hlambda := flatMap_range_tile (4 * ·) p.lIndex_zero fun b hb => p.lIndex_succ hb
    have hmiu : ((range p.numOfBlocks).flatMap fun b => (range 4).map fun k =>
        4*p.lambdaHorizon+3*(4*b+k)) =
        (range (4*p.numOfBlocks)).map fun k => 4*p.lambdaHorizon+3*k :=
      flatMap_range_tile (fun k => 4*p.lambdaHorizon+3*k) rfl fun b _ => mul_succ 4 b
    rw [lIndex_all] at hlambda
    rw [← miuHorizon_eq] at hmiu
    rw [p.lambdaLoops_eq.1,p.miuLoops_eq.1,map_append,map_flatMap,map_flatMap,← hlambda,← hmiu]
    simp only [map_map,Function.comp_def]
  have hflat {α : Type} (f : Nat × K → α) :
      ((p.lambdaLoops.1 ++ (p.miuLoops (4*p.lambdaHorizon)).1).flatMap fun column => column.entries.map f) =
        p.columns.flatten.map f := by
    rw [← hentries,map_flatten,map_map,flatMap_def]
    rfl
  unfold assembleConstraint
  simp only [p.lambdaLoops_eq.2,p.miuLoops_eq.2,hstarts,hflat]
  rw [if_neg,if_neg,← indptr_columns]
  · rfl
  · rw [← indptr_columns,length_indptrFrom,columns,length_append,length_lambdaColumns,length_miuColumns]
    exact not_not.mpr rfl
  · rw [length_map,length_map]
    exact not_not.mpr rfl

end Columns

section Rows
variable {K : Type} [Field K] (p : DualVariableWarmStart K) (z : Nat → K)

def columnTerm (row : Nat) (column : List (Nat × K)) (value : K) : K :=
  (column.map fun e => if e.1 = row then e.2*value else 0).sum

theorem columnTerm_zero {row : Nat} {column : List (Nat × K)} (h : ∀ e ∈ column, e.1 ≠ row) (value : K) :
    columnTerm row column value = 0 := by
  apply sum_eq_zero
  intro _ hterm
  obtain ⟨e,he,rfl⟩ := mem_map.mp hterm
  exact if_neg (h e he)

theorem mulVec_row {row b : Nat} (hb : b < p.numOfBlocks) (hrow : row < 3*p.numOfBlocks)
    (honly : ∀ c < p.numOfBlocks, c ≠ b → 2*c ≠ row ∧ 2*c+1 ≠ row ∧ 2*p.numOfBlocks+c ≠ row) :
    (ofColumns p.columns).mulVec z row =
      ∑ k ∈ Finset.range (p.blockEdges b), columnTerm row (p.lambdaColumn b k) (z (p.lIndex b+k)) +
      ∑ k ∈ Finset.range 4, columnTerm row (p.miuColumn b k) (z (p.nIndex b+k)) := by
  have hlambda := Columns.sumFrom_flatMap_range (fun r col value => if r = row then value*z col else 0)
    (fun b => (range (p.blockEdges b)).map (p.lambdaColumn b)) p.lIndex (n := p.numOfBlocks)
    fun b hb => by rw [p.lIndex_succ hb,length_map,length_range]
  have hmiu := Columns.sumFrom_flatMap_range (fun r col value => if r = row then value*z col else 0)
    (fun b => (range 4).map (p.miuColumn b)) p.nIndex (n := p.numOfBlocks)
    fun b hb => by rw [nIndex,nIndex,length_map,length_range,mul_succ,add_assoc]
  have hstart : p.nIndex 0 = p.lambdaHorizon := by rw [nIndex,mul_zero,add_zero,nStartIndex_eq]
  simp only [Columns.sumFrom_map_range,lIndex_zero,hstart] at hlambda hmiu
  rw [mulVec_ofColumns,Columns.sum,columns,Columns.sumFrom_append,length_lambdaColumns,zero_add,hlambda, hmiu]
  congr 1
  · apply Finset.sum_eq_single_of_mem b (Finset.mem_range.mpr hb)
    intro c hc hne
    obtain ⟨h1,h2,h3⟩ := honly c (Finset.mem_range.mp hc) hne
    apply Finset.sum_eq_zero
    intro _ _
    apply columnTerm_zero
    simp only [lambdaColumn,lambdaEntries,forall_mem_cons]
    exact ⟨h1,h2,h3,by omega,forall_mem_nil _⟩
  · apply Finset.sum_eq_single_of_mem b (Finset.mem_range.mpr hb)
    intro c hc hne
    obtain ⟨h1,h2,h3⟩ := honly c (Finset.mem_range.mp hc) hne
    apply Finset.sum_eq_zero
    intro _ _
    apply columnTerm_zero
    simp only [miuColumn,miuEntries,forall_mem_cons]
    exact ⟨by omega,h3,by omega,forall_mem_nil _⟩

theorem sum_edges (b : Nat) (u v : K) :
    ∑ k ∈ Finset.range (p.blockEdges b), (u*p.obstaclesA (p.blockEdgesCounter b+k) 0 +
        v*p.obstaclesA (p.blockEdgesCounter b+k) 1)*z (p.lIndex b+k) =
      u*p.tmp1 z (p.lIndex b) (p.blockEdgesCounter b) (p.blockEdges b) +
        v*p.tmp2 z (p.lIndex b) (p.blockEdgesCounter b) (p.blockEdges b) := by
  rw [tmp1,tmp2,Finset.mul_sum,Finset.mul_sum,← Finset.sum_add_distrib]
  apply Finset.sum_congr rfl
  intro _ _
  ring

variable {b : Nat}
variable (hb : b < p.numOfBlocks)
include hb

theorem mulVec_turned : (ofColumns p.columns).mulVec z (2*b) =
      (p.xWS (b/p.obstaclesNum)).cos*p.tmp1 z (p.lIndex b) (p.blockEdgesCounter b) (p.blockEdges b) +
      (p.xWS (b/p.obstaclesNum)).sin*p.tmp2 z (p.lIndex b) (p.blockEdgesCounter b) (p.blockEdges b) +
      (z (p.nIndex b) - z (p.nIndex b+2)) ∧
    (ofColumns p.columns).mulVec z (2*b+1) =
      (p.xWS (b/p.obstaclesNum)).sin*p.tmp1 z (p.lIndex b) (p.blockEdgesCounter b) (p.blockEdges b) +
      (p.xWS (b/p.obstaclesNum)).cos*p.tmp2 z (p.lIndex b) (p.blockEdgesCounter b) (p.blockEdges b) +
      (z (p.nIndex b+1) - z (p.nIndex b+3)) := by
  have hdistance : 2*p.numOfBlocks+b ≠ 2*b ∧ 2*p.numOfBlocks+b ≠ 2*b+1 := by omega
  have hbox (t : Nat) : 3*p.numOfBlocks+t ≠ 2*b ∧ 3*p.numOfBlocks+t ≠ 2*b+1 := by omega
  constructor
  all_goals
    rw [p.mulVec_row z hb (by omega) fun _ _ _ => by omega,← sum_edges]
    simp only [Finset.sum_range_succ,Finset.sum_range_zero,zero_add]
    congr 1
    · apply Finset.sum_congr rfl
      intro _ _
      simp [columnTerm,lambdaColumn,lambdaEntries,hdistance,hbox]
    · simp [columnTerm,miuColumn,miuEntries,hdistance,hbox,add_assoc]
      ring

theorem mulVec_distance : (ofColumns p.columns).mulVec z (2*p.numOfBlocks+b) =
      ((p.xWS (b/p.obstaclesNum)).x+(p.xWS (b/p.obstaclesNum)).cos*p.offset) *
        p.tmp1 z (p.lIndex b) (p.blockEdgesCounter b) (p.blockEdges b) +
      ((p.xWS (b/p.obstaclesNum)).y+(p.xWS (b/p.obstaclesNum)).sin*p.offset) *
        p.tmp2 z (p.lIndex b) (p.blockEdgesCounter b) (p.blockEdges b) -
      p.tmp4 z (p.lIndex b) (p.blockEdgesCounter b) (p.blockEdges b) - p.tmp3 z (p.nIndex b) := by
  have hfirst : 2*b ≠ 2*p.numOfBlocks+b := by omega
  have hsecond : 2*b+1 ≠ 2*p.numOfBlocks+b := by omega
  have hbox (t : Nat) : 3*p.numOfBlocks+t ≠ 2*p.numOfBlocks+b := by omega
  have hlambda : ∑ k ∈ Finset.range (p.blockEdges b),
      columnTerm (2*p.numOfBlocks+b) (p.lambdaColumn b k) (z (p.lIndex b+k)) =
      ((p.xWS (b/p.obstaclesNum)).x+(p.xWS (b/p.obstaclesNum)).cos*p.offset) *
        p.tmp1 z (p.lIndex b) (p.blockEdgesCounter b) (p.blockEdges b) +
      ((p.xWS (b/p.obstaclesNum)).y+(p.xWS (b/p.obstaclesNum)).sin*p.offset) *
        p.tmp2 z (p.lIndex b) (p.blockEdgesCounter b) (p.blockEdges b) -
      p.tmp4 z (p.lIndex b) (p.blockEdgesCounter b) (p.blockEdges b) := by
    rw [← sum_edges,tmp4,← Finset.sum_sub_distrib]
    apply Finset.sum_congr rfl
    intro _ _
    simp only [columnTerm,lambdaColumn,lambdaEntries,map_cons,map_nil,sum_cons,sum_nil,
      if_neg hfirst,if_neg hsecond,if_neg (hbox _),if_true]
    ring
  have hmiu : ∑ k ∈ Finset.range 4, columnTerm (2*p.numOfBlocks+b) (p.miuColumn b k) (z (p.nIndex b+k)) =
      -p.tmp3 z (p.nIndex b) := by
    rw [tmp3,← Finset.sum_neg_distrib]
    apply Finset.sum_congr rfl
    intro k _
    have hmod : 2*b+k%2 ≠ 2*p.numOfBlocks+b := by omega
    simp only [columnTerm,miuColumn,miuEntries,map_cons,map_nil,sum_cons,sum_nil,
      if_neg hmod,if_true,add_assoc,if_neg (hbox _)]
    ring
  rw [p.mulVec_row z hb (by omega) fun _ _ _ => by omega,hlambda,hmiu,sub_eq_add_neg _ (p.tmp3 _ _)]

theorem sin_mul_tmp1 (hsin : ∀ i ≤ p.horizon, ∀ edge < p.obstaclesEdgesSum, (p.xWS i).sin*p.obstaclesA edge 0 = 0) :
    (p.xWS (b/p.obstaclesNum)).sin*p.tmp1 z (p.lIndex b) (p.blockEdgesCounter b) (p.blockEdges b) = 0 := by
  have hpos := p.obstaclesNum_pos hb
  have htime : b/p.obstaclesNum < p.horizon+1 := by
    rw [div_lt_iff_lt_mul hpos]
    exact hb
  have hbefore := p.edgesBefore_succ (mod_lt b hpos)
  have hall := p.edgesBefore_le (b%p.obstaclesNum+1)
  rw [tmp1,Finset.mul_sum]
  apply Finset.sum_eq_zero
  intro k hk
  have hlt : k < p.edgesNum (b%p.obstaclesNum) := Finset.mem_range.mp hk
  have hedge : p.blockEdgesCounter b+k < p.obstaclesEdgesSum := by
    rw [blockEdgesCounter]
    omega
  rw [← mul_assoc,hsin _ (le_of_lt_succ htime) _ hedge,zero_mul]

/-- The second row differs from the constraint for IPOPT by the sign of one of its terms. -/
theorem mulVec_turned_eq : (ofColumns p.columns).mulVec z (2*b) = p.constraintAt z (4*b+1) ∧
    (ofColumns p.columns).mulVec z (2*b+1) = p.constraintAt z (4*b+2) +
      2*((p.xWS (b/p.obstaclesNum)).sin*p.tmp1 z (p.lIndex b) (p.blockEdgesCounter b) (p.blockEdges b)) := by
  rw [(p.mulVec_turned z hb).1,(p.mulVec_turned z hb).2,p.constraintAt_block z hb (by omega),
    p.constraintAt_block z hb (by omega)]
  change _ = z _ - z _+_*_+_*_ ∧ _ = z _ - z _ - (p.xWS (b/p.obstaclesNum)).sin*_+_*_+_
  constructor <;> ring

end Rows

section Single
variable {K : Type} [Field K] (p : DualVariableWarmStart K) (z : Nat → K)

/-- The `lambda`, with the `mu` for which it meets the equality rows. -/
def withMiu (lambda : Nat → K) (m : Nat) : K :=
  if m < p.nStartIndex then lambda m else
    let b := (m - p.nStartIndex)/4
    let pose := p.xWS (b/p.obstaclesNum)
    let tmp1 := p.tmp1 lambda (p.lIndex b) (p.blockEdgesCounter b) (p.blockEdges b)
    let tmp2 := p.tmp2 lambda (p.lIndex b) (p.blockEdgesCounter b) (p.blockEdges b)
    [-(pose.cos*tmp1+pose.sin*tmp2),-(pose.sin*tmp1+pose.cos*tmp2)].getD ((m - p.nStartIndex)%4) 0

variable {b : Nat}

theorem tmp1_withMiu (hb : b < p.numOfBlocks) :
    p.tmp1 (p.withMiu z) (p.lIndex b) (p.blockEdgesCounter b) (p.blockEdges b) =
      p.tmp1 z (p.lIndex b) (p.blockEdgesCounter b) (p.blockEdges b) :=
  Finset.sum_congr rfl fun _ hk => by rw [withMiu,if_pos (p.lIndex_add_lt hb (Finset.mem_range.mp hk))]

theorem tmp2_withMiu (hb : b < p.numOfBlocks) :
    p.tmp2 (p.withMiu z) (p.lIndex b) (p.blockEdgesCounter b) (p.blockEdges b) =
      p.tmp2 z (p.lIndex b) (p.blockEdgesCounter b) (p.blockEdges b) :=
  Finset.sum_congr rfl fun _ hk => by rw [withMiu,if_pos (p.lIndex_add_lt hb (Finset.mem_range.mp hk))]

/-- The edge `k` of a block, alone in `lambda`. -/
theorem tmp1_single {k : Nat} (hk : k < p.blockEdges b) :
    p.tmp1 (Pi.single (p.lIndex b+k) 1) (p.lIndex b) (p.blockEdgesCounter b) (p.blockEdges b) =
      p.obstaclesA (p.blockEdgesCounter b+k) 0 := by
  rw [tmp1,Finset.sum_eq_single_of_mem k (Finset.mem_range.mpr hk) fun j _ hne => ?_]
  · rw [Pi.single_eq_same,mul_one]
  · rw [Pi.single_eq_of_ne (by omega),mul_zero]

/-- An edge is one of an obstacle, which has a block at each time. -/
theorem exists_edge {i edge : Nat} (hi : i ≤ p.horizon) (hedge : edge < p.obstaclesEdgesSum) :
    ∃ b < p.numOfBlocks, ∃ k < p.blockEdges b, b/p.obstaclesNum = i ∧ p.blockEdgesCounter b+k = edge := by
  have hsearch (n : Nat) (hn : n ≤ p.obstaclesNum) (hlt : edge < p.edgesBefore n) :
      ∃ j < p.obstaclesNum, ∃ k < p.edgesNum j, p.edgesBefore j+k = edge := by
    induction n with
    | zero => cases hlt
    | succ j ih =>
      rcases lt_or_ge edge (p.edgesBefore j) with hbefore | hge
      · exact ih (le_of_succ_le hn) hbefore
      · rw [p.edgesBefore_succ hn] at hlt
        exact ⟨j,hn,edge - p.edgesBefore j,by omega,by omega⟩
  obtain ⟨j,hj,k,hk,hat⟩ := hsearch p.obstaclesNum le_rfl (p.edgesBefore_all ▸ hedge)
  have hmod : (i*p.obstaclesNum+j)%p.obstaclesNum = j := by rw [mul_add_mod_self_right,mod_eq_of_lt hj]
  have hdiv : (i*p.obstaclesNum+j)/p.obstaclesNum = i := by
    rw [Nat.mul_comm,mul_add_div (zero_lt_of_lt hj),div_eq_of_lt hj,add_zero]
  refine ⟨i*p.obstaclesNum+j,?_,k,by rwa [blockEdges,hmod],hdiv,by rwa [blockEdgesCounter,hmod]⟩
  calc i*p.obstaclesNum+j < (i+1)*p.obstaclesNum := by rw [succ_mul]; omega
    _ ≤ p.numOfBlocks := Nat.mul_le_mul_right _ (succ_le_succ hi)

end Single

section Agreement
variable {K : Type} [Field K] [LinearOrder K] (p : DualVariableWarmStart K) (z : Nat → K)

def EqualityRows (A : Csc K) (minSafetyDistance : K) : Prop :=
  ∀ row < 2*p.obstaclesNum*(p.horizon+1),
    (p.osqpBounds minSafetyDistance row).1 ≤ A.mulVec z row ∧ A.mulVec z row ≤ (p.osqpBounds minSafetyDistance row).2

theorem equalityRows_iff (minSafetyDistance : K) : p.EqualityRows z (ofColumns p.columns) minSafetyDistance ↔
    ∀ b < p.numOfBlocks, (ofColumns p.columns).mulVec z (2*b) = 0 ∧ (ofColumns p.columns).mulVec z (2*b+1) = 0 := by
  have hzero (row : Nat) (hrow : row < 2*p.numOfBlocks) : p.osqpBounds minSafetyDistance row = (0, 0) := by
    rw [osqpBounds,rows_eq,rows_eq,if_neg (by omega),if_pos hrow]
  rw [EqualityRows,rows_eq]
  constructor
  · intro h b _
    have hfirst := h (2*b) (by omega)
    have hsecond := h (2*b+1) (by omega)
    rw [hzero _ (by omega)] at hfirst hsecond
    exact ⟨le_antisymm hfirst.2 hfirst.1,le_antisymm hsecond.2 hsecond.1⟩
  · intro h row hrow
    obtain ⟨hfirst,hsecond⟩ := h (row/2) (by omega)
    have hrowzero : (ofColumns p.columns).mulVec z row = 0 := by
      rcases mod_two_eq_zero_or_one row with _ | _
      · rwa [show 2*(row/2) = row by omega] at hfirst
      · rwa [show 2*(row/2)+1 = row by omega] at hsecond
    rw [hzero row hrow,hrowzero]
    exact ⟨le_rfl,le_rfl⟩

theorem equalityRows_withMiu (minSafetyDistance : K) :
    p.EqualityRows (p.withMiu z) (ofColumns p.columns) minSafetyDistance := by
  refine (p.equalityRows_iff _ _).mpr fun b hb => ?_
  have hmiu (t : Nat) (ht : t < 4) : p.withMiu z (p.nIndex b+t) = [-((p.xWS (b/p.obstaclesNum)).cos *
      p.tmp1 z (p.lIndex b) (p.blockEdgesCounter b) (p.blockEdges b)+(p.xWS (b/p.obstaclesNum)).sin *
      p.tmp2 z (p.lIndex b) (p.blockEdgesCounter b) (p.blockEdges b)),-((p.xWS (b/p.obstaclesNum)).sin *
      p.tmp1 z (p.lIndex b) (p.blockEdgesCounter b) (p.blockEdges b)+(p.xWS (b/p.obstaclesNum)).cos *
      p.tmp2 z (p.lIndex b) (p.blockEdgesCounter b) (p.blockEdges b))].getD t 0 := by
    have hblock : (p.nIndex b+t - p.nStartIndex)/4 = b := by rw [nIndex]; omega
    have hplace : (p.nIndex b+t - p.nStartIndex)%4 = t := by rw [nIndex]; omega
    rw [withMiu,if_neg (by rw [nIndex]; omega),hblock,hplace]
  have h0 := hmiu 0 (by omega)
  rw [add_zero] at h0
  rw [(p.mulVec_turned _ hb).1,(p.mulVec_turned _ hb).2,p.tmp1_withMiu z hb,p.tmp2_withMiu z hb,h0,hmiu 1 (by omega),
    hmiu 2 (by omega),hmiu 3 (by omega)]
  simp

/-- The two formulations agree exactly if the sine of each heading meets only edges without a first component. The
distance rows agree in any case. -/
theorem assembleConstraint_agrees_iff [IsStrictOrderedRing K] (minSafetyDistance : K) :
    ∃ A, p.assembleConstraint = some A ∧
      (∀ z, ∀ b < p.numOfBlocks, p.constraintAt z (4*b+3) = 0 ↔
        z (p.dIndex b) = A.mulVec z (2*p.obstaclesNum*(p.horizon+1)+b)) ∧
      ((∀ z, p.EqualityRows z A minSafetyDistance ↔
        ∀ b < p.numOfBlocks, p.constraintAt z (4*b+1) = 0 ∧ p.constraintAt z (4*b+2) = 0) ↔
        ∀ i ≤ p.horizon, ∀ edge < p.obstaclesEdgesSum, (p.xWS i).sin*p.obstaclesA edge 0 = 0) := by
  refine ⟨_,p.assembleConstraint_eq,?_,?_,?_⟩
  · intro z b hb
    rw [rows_eq,p.mulVec_distance z hb,p.constraintAt_block z hb (by omega)]
    change z (p.dIndex b)+p.tmp3 z _ - _*p.tmp1 z _ _ _ - _*p.tmp2 z _ _ _+p.tmp4 z _ _ _ = 0 ↔ _
    constructor
    all_goals
      intro h
      linear_combination h
  · intro hall i hi edge hedge
    obtain ⟨b,hb,k,hk,rfl,rfl⟩ := p.exists_edge hi hedge
    -- With one edge in `lambda` both rows are met, and the constraint for IPOPT is twice the product.
    set z := p.withMiu (Pi.single (p.lIndex b+k) 1)
    have hrow := ((p.equalityRows_iff z _).mp (p.equalityRows_withMiu _ minSafetyDistance) b hb).2
    have hconstraint := ((hall z).mp (p.equalityRows_withMiu _ _) b hb).2
    rw [(p.mulVec_turned_eq z hb).2,hconstraint,zero_add,p.tmp1_withMiu _ hb,p.tmp1_single hk] at hrow
    exact (mul_eq_zero.mp hrow).resolve_left two_ne_zero
  · intro hsin z
    rw [equalityRows_iff]
    refine forall₂_congr fun b hb => ?_
    rw [(p.mulVec_turned_eq z hb).1,(p.mulVec_turned_eq z hb).2,p.sin_mul_tmp1 z hb hsin,mul_zero,add_zero]

end Agreement

def singleEdge (a : Nat → ℚ) (pose : WarmStartPose ℚ) : DualVariableWarmStart ℚ where
  horizon := 0
  ego := fun _ => 1
  obstaclesEdgesNum := [1]
  obstaclesA := fun _ => a
  obstaclesB := fun _ => 0
  xWS := fun _ => pose

def ahead : DualVariableWarmStart ℚ := singleEdge (fun _ => 1) ⟨0,0,1,0,by decide +kernel⟩

/-- A vehicle that heads along the second axis, and an edge with normal `(1, 0)`. -/
def across : DualVariableWarmStart ℚ := singleEdge (fun col => if col = 0 then 1 else 0) ⟨0,0,0,1,by decide +kernel⟩

theorem assembleConstraint_agrees_ahead : ∃ A, ahead.assembleConstraint = some A ∧
    ∀ z, ahead.EqualityRows z A 0 ↔
      ∀ b < ahead.numOfBlocks, ahead.constraintAt z (4*b+1) = 0 ∧ ahead.constraintAt z (4*b+2) = 0 := by
  obtain ⟨A,hA,-,hagree⟩ := assembleConstraint_agrees_iff ahead 0
  exact ⟨A,hA,hagree.mpr fun _ _ _ _ => zero_mul _⟩

/-- `lambda = 1` and `mu = (0, 0, 0, 1)`. -/
theorem assembleConstraint_disagrees : ∃ A z, across.assembleConstraint = some A ∧ across.EqualityRows z A 0 ∧
      ¬ ∀ b < across.numOfBlocks, across.constraintAt z (4*b+1) = 0 ∧ across.constraintAt z (4*b+2) = 0 := by
  refine ⟨_,fun m => [1,0,0,0,1].getD m 0,assembleConstraint_eq _,?_,?_⟩
  · unfold EqualityRows
    decide +kernel
  · decide +kernel

end Apollo.Modules.Planning.DualVariableWarmStart
