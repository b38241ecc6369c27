import Apollo.Modules.Planning.OpenSpace.TrajectorySmoother.DualVariableWarmStart
import Mathlib.Analysis.Calculus.Deriv.Add
import Mathlib.Analysis.Calculus.Deriv.Mul
import Mathlib.Topology.Algebra.Module.ModuleTopology

/-! `eval_jac_g`: both modes agree with the constraints and with the announced number of entries. -/
namespace Apollo.Modules.Planning.DualVariableWarmStart
open Foundation List Function Nat

section Entries
variable {K : Type} [Field K] (p : DualVariableWarmStart K)

def blockStructure (b : Nat) : List (Nat × Nat) :=
  obstacleStructure ⟨p.lIndex b,p.nIndex b,p.dIndex b,4*b⟩ (p.blockEdges b)

def blockValues (x : Nat → K) (b : Nat) : List K :=
  p.obstacleValues x (b/p.obstaclesNum) (p.lIndex b) (p.blockEdgesCounter b) (p.blockEdges b)

theorem structureLoops_eq : p.structureLoops.1 = (range p.numOfBlocks).flatMap p.blockStructure ∧
    p.structureLoops.2.constraint = 4*p.numOfBlocks := by
  have hloops := forRange_forRange (fun _ j s => (obstacleStructure s (p.edgesNum j),
      (⟨s.l+p.edgesNum j,s.n+4,s.d+1,s.constraint+4⟩ : StructureIndex)))
    id (fun i => ⟨(p.indexBefore i).l,(p.indexBefore i).n,(p.indexBefore i).d,(p.indexBefore i).constraint⟩)
    (fun i j => ⟨(p.indexAt i j).l,(p.indexAt i j).n,(p.indexAt i j).d,(p.indexAt i j).constraint⟩)
    (fun i j => obstacleStructure
      ⟨(p.indexAt i j).l,(p.indexAt i j).n,(p.indexAt i j).d,(p.indexAt i j).constraint⟩ (p.edgesNum j))
    (fun i (_ : i < p.horizon+1) => rfl)
    (fun i _ => by rw [p.indexAt_end i]; rfl)
    (fun i _ _ hj => by rw [← p.indexAt_succ i hj]; rfl)
  simp only [indexAt_block,indexBefore_zero] at hloops
  exact ⟨congrArg Prod.fst hloops,congrArg (fun r => r.2.constraint) hloops⟩

theorem valuesLoops_eq (x : Nat → K) :
    (p.valuesLoops x).1 = (range p.numOfBlocks).flatMap (p.blockValues x) := by
  have hloops := forRange_forRange (fun i j s => (p.obstacleValues x i s.l s.edgesCounter (p.edgesNum j),
      (⟨s.l+p.edgesNum j,s.n+4,s.edgesCounter+p.edgesNum j⟩ : ValuesIndex)))
    (fun s => { s with edgesCounter := 0 })
    (fun i => ⟨(p.indexBefore i).l,(p.indexBefore i).n,(p.indexBefore i).edgesCounter⟩)
    (fun i j => ⟨(p.indexAt i j).l,(p.indexAt i j).n,(p.indexAt i j).edgesCounter⟩)
    (fun i j => p.obstacleValues x i (p.indexAt i j).l (p.indexAt i j).edgesCounter (p.edgesNum j))
    (fun i (_ : i < p.horizon+1) => rfl)
    (fun i _ => by rw [p.indexAt_end i]; rfl)
    (fun i _ _ hj => by rw [← p.indexAt_succ i hj]; rfl)
  simp only [indexAt_block,indexBefore_zero] at hloops
  exact congrArg Prod.fst hloops

theorem length_blockStructure (b : Nat) : (p.blockStructure b).length = p.blockEdges b*4+2+2+4+1 := by
  simp only [blockStructure,obstacleStructure,length_append,length_map,length_range,length_cons,length_nil]
  omega

theorem length_blockValues (x : Nat → K) (b : Nat) : (p.blockValues x b).length = p.blockEdges b*4+2+2+4+1 := by
  simp only [blockValues,obstacleValues,length_append,length_map,length_range,length_cons,length_nil]
  omega

theorem nnzJacG_eq : p.nnzJacG =
    ((range p.numOfBlocks).map fun b => p.blockEdges b*4+2+2+4+1).sum+p.numOfVariables := by
  have hinner (i tmp : Nat) : (forRange (α := Empty) (fun j tmp => ([], tmp+(p.edgesNum j*4+2+2+4+1)))
      p.obstaclesNum tmp).2 = tmp+((range p.obstaclesNum).map fun j => p.edgesNum j*4+2+2+4+1).sum :=
    forRange_add (fun _ _ => rfl) p.obstaclesNum tmp
  rw [nnzJacG,forRange_add hinner,zero_add,sum_range_mul fun _ j => p.edgesNum j*4+2+2+4+1]
  rfl

theorem evalJacGStructure_eq : p.evalJacGStructure = some ((range p.numOfBlocks).flatMap p.blockStructure ++
      (range p.numOfVariables).map fun t => (4*p.numOfBlocks+t, t)) := by
  unfold evalJacGStructure
  simp only [p.structureLoops_eq.1,p.structureLoops_eq.2,boxes_eq]
  rw [if_neg (not_not.mpr p.lastConstraint_eq)]

theorem length_values (x : Nat → K) :
    ((range p.numOfBlocks).flatMap (p.blockValues x) ++ replicate p.numOfVariables 1).length = p.nnzJacG := by
  rw [nnzJacG_eq,length_append,length_flatMap,length_replicate]
  simp only [length_blockValues]

theorem evalJacGValues_eq (x : Nat → K) : p.evalJacGValues x p.nnzJacG =
    some ((range p.numOfBlocks).flatMap (p.blockValues x) ++ replicate p.numOfVariables 1) := by
  unfold evalJacGValues
  simp only [valuesLoops_eq,append_assoc,replicate_append_replicate]
  exact if_neg (not_not.mpr (p.length_values x))

/-- The columns of `mu` and `d` in row `r` of a block. -/
def restColumns (b : Nat) : Nat → List Nat
  | 0 => []
  | 1 => [p.nIndex b,p.nIndex b+2]
  | 2 => [p.nIndex b+1,p.nIndex b+3]
  | _ => (range 4).map (p.nIndex b + ·) ++ [p.dIndex b]

def rowColumns (b r : Nat) : List Nat := (range (p.blockEdges b)).map (p.lIndex b + ·) ++ p.restColumns b r

theorem blockStructure_eq (b : Nat) :
    p.blockStructure b = (range 4).flatMap fun r => (p.rowColumns b r).map (Prod.mk (4*b+r)) := by
  have hfour : range 4 = [0,1,2,3] := rfl
  simp only [blockStructure,obstacleStructure,rowColumns,restColumns,hfour,flatMap_cons,flatMap_nil,
    map_append,map_map,map_cons,map_nil,append_nil,append_assoc,add_zero,
    comp_def]

variable {b col r k : Nat}

theorem nIndex_lt_dIndex (hb : b < p.numOfBlocks) (hk : k < 4) : p.nIndex b+k < p.dStartIndex := by
  rw [nIndex,dStartIndex_eq,nStartIndex_eq,miuHorizon_eq]
  omega

theorem mem_edgeColumns :
    col ∈ (range (p.blockEdges b)).map (p.lIndex b + ·) ↔ ∃ k < p.blockEdges b, p.lIndex b+k = col := by
  simp only [mem_map,mem_range]

section
variable (hb : b < p.numOfBlocks)
include hb

theorem restColumns_bounds (hcol : col ∈ p.restColumns b r) : p.nIndex b ≤ col ∧ col < p.numOfVariables := by
  have hvars : p.numOfVariables = p.dStartIndex+p.numOfBlocks := by
    rw [numOfVariables,dStartIndex_eq,dualFormulationHorizon,mul_comm,← numOfBlocks]
  have hd : p.dIndex b = p.dStartIndex+b := rfl
  have hn := p.nIndex_lt_dIndex hb (lt_succ_self 3)
  unfold restColumns at hcol
  split at hcol
  · cases hcol
  · simp only [mem_cons,not_mem_nil,or_false] at hcol
    omega
  · simp only [mem_cons,not_mem_nil,or_false] at hcol
    omega
  · simp only [mem_append,mem_map,mem_range,mem_singleton] at hcol
    rcases hcol with ⟨k,hk,rfl⟩ | rfl <;> omega

theorem restColumns_nodup (r : Nat) : (p.restColumns b r).Nodup := by
  have hn := p.nIndex_lt_dIndex hb (lt_succ_self 3)
  have hd : p.dIndex b = p.dStartIndex+b := rfl
  unfold restColumns
  split
  · exact nodup_nil
  · simp
  · simp
  · have hfour : range 4 = [0,1,2,3] := rfl
    simp only [hfour,map_cons,map_nil,cons_append,nil_append,nodup_cons,mem_cons,
      not_mem_nil,or_false,not_or,not_false_eq_true,nodup_nil,and_true]
    omega

theorem rowColumns_nodup (r : Nat) : (p.rowColumns b r).Nodup := by
  refine nodup_append.mpr ⟨?_,p.restColumns_nodup hb r,?_⟩
  · exact nodup_range.map fun _ _ h => add_left_cancel h
  · intro _ hcol _ hcol'
    obtain ⟨k,hk,rfl⟩ := p.mem_edgeColumns.mp hcol
    have hlt := p.lIndex_add_lt hb hk
    have hge := (p.restColumns_bounds hb hcol').1
    have hn : p.nIndex b = p.nStartIndex+4*b := rfl
    omega

theorem rowColumns_lt (hcol : col ∈ p.rowColumns b r) : col < p.numOfVariables := by
  rcases mem_append.mp hcol with hedge | hrest
  · obtain ⟨k,hk,rfl⟩ := p.mem_edgeColumns.mp hedge
    have hlt := p.lIndex_add_lt hb hk
    have hn := p.nStartIndex_eq
    rw [numOfVariables]
    omega
  · exact (p.restColumns_bounds hb hrest).2

end

/-- The derivatives of the constraints of a block with respect to `lambda` number `k`. -/
def edgeValues (x : Nat → K) (b k : Nat) : List K :=
  let pose := p.xWS (b/p.obstaclesNum)
  let a := p.obstaclesA (p.blockEdgesCounter b+k)
  [2*p.tmp1 x (p.lIndex b) (p.blockEdgesCounter b) (p.blockEdges b)*a 0 +
      2*p.tmp2 x (p.lIndex b) (p.blockEdgesCounter b) (p.blockEdges b)*a 1,
    pose.cos*a 0+pose.sin*a 1,-pose.sin*a 0+pose.cos*a 1,
    -(pose.x+pose.cos*p.offset)*a 0 - (pose.y+pose.sin*p.offset)*a 1+p.obstaclesB (p.blockEdgesCounter b+k)]

/-- The values in the columns of `mu` and `d`. -/
def restValues : Nat → List K
  | 0 => []
  | 1 => [1,-1]
  | 2 => [1,-1]
  | _ => (range 4).map p.g ++ [1]

def rowValues (x : Nat → K) (b r : Nat) : List K :=
  (range (p.blockEdges b)).map (fun k => (p.edgeValues x b k).getD r 0) ++ p.restValues r

theorem blockValues_eq (x : Nat → K) (b : Nat) : p.blockValues x b = (range 4).flatMap (p.rowValues x b) := by
  have hfour : (range 4).flatMap (p.rowValues x b) = p.rowValues x b 0 ++ (p.rowValues x b 1 ++
      (p.rowValues x b 2 ++ p.rowValues x b 3)) := by
    rw [show range 4 = [0,1,2,3] from rfl]
    simp only [flatMap_cons,flatMap_nil,append_nil]
  rw [hfour]
  simp only [blockValues,obstacleValues,rowValues,edgeValues,restValues,append_assoc,append_nil,
    getD_cons_zero,getD_cons_succ]

theorem length_restValues (b r : Nat) : (p.restColumns b r).length = (p.restValues r).length := by
  unfold restColumns restValues
  split <;> simp only [length_append,length_map,length_cons,length_nil]

theorem length_rowValues (x : Nat → K) (b r : Nat) : (p.rowColumns b r).length = (p.rowValues x b r).length := by
  rw [rowColumns,rowValues,length_append,length_append,length_map,length_map,length_restValues]

theorem zip_row (x : Nat → K) (b r : Nat) : (p.rowColumns b r).zip (p.rowValues x b r) =
    (range (p.blockEdges b)).map (fun k => (p.lIndex b+k, (p.edgeValues x b k).getD r 0)) ++
      (p.restColumns b r).zip (p.restValues r) := by
  rw [rowColumns,rowValues,zip_append,zip_map']
  rw [length_map,length_map]

theorem zip_block (x : Nat → K) (b : Nat) : (p.blockStructure b).zip (p.blockValues x b) =
    (range 4).flatMap fun r =>
      ((p.rowColumns b r).zip (p.rowValues x b r)).map fun e => ((4*b+r, e.1), e.2) := by
  rw [blockStructure_eq,blockValues_eq,zip_flatMap_range]
  · apply flatMap_congr
    intro _ _
    rw [zip_map_left]
    rfl
  · intro _ _
    rw [length_map,length_rowValues]

theorem mem_zip_iff (x : Nat → K) (t : (Nat × Nat) × K) : t ∈ ((range p.numOfBlocks).flatMap p.blockStructure ++
        (range p.numOfVariables).map fun t => (4*p.numOfBlocks+t, t)).zip
      ((range p.numOfBlocks).flatMap (p.blockValues x) ++ replicate p.numOfVariables 1) ↔
      (∃ b < p.numOfBlocks, ∃ r < 4, ∃ e ∈ (p.rowColumns b r).zip (p.rowValues x b r), ((4*b+r, e.1), e.2) = t) ∨
        ∃ v < p.numOfVariables, ((4*p.numOfBlocks+v, v), 1) = t := by
  have hlen : ((range p.numOfBlocks).flatMap p.blockStructure).length =
      ((range p.numOfBlocks).flatMap (p.blockValues x)).length := by
    rw [length_flatMap,length_flatMap]
    simp only [length_blockStructure,length_blockValues]
  have hones : replicate p.numOfVariables (1 : K) = (range p.numOfVariables).map fun _ => 1 := by
    rw [map_const',length_range]
  rw [zip_append hlen,hones,zip_map',zip_flatMap_range fun _ _ => by
    rw [length_blockStructure,length_blockValues]]
  simp only [zip_block,mem_append,mem_flatMap,mem_map,mem_range]

theorem flatMap_blockStructure : (range p.numOfBlocks).flatMap p.blockStructure =
    (range (p.numOfBlocks*4)).flatMap fun row => (p.rowColumns (row/4) (row%4)).map (Prod.mk row) := by
  rw [funext p.blockStructure_eq,flatMap_range_mul]
  apply flatMap_congr
  intro _ _
  rw [div_add_mod]

theorem structure_nodup : ((range p.numOfBlocks).flatMap p.blockStructure ++
    (range p.numOfVariables).map fun t => (4*p.numOfBlocks+t, t)).Nodup := by
  rw [flatMap_blockStructure]
  refine nodup_append.mpr ⟨nodup_flatMap.mpr ⟨?_,?_⟩,?_,?_⟩
  · intro row hrow
    have hb : row/4 < p.numOfBlocks := Nat.div_lt_of_lt_mul (mul_comm p.numOfBlocks 4 ▸ mem_range.mp hrow)
    exact (p.rowColumns_nodup hb _).map fun _ _ h => (Prod.mk.inj h).2
  · -- entries of different rows
    refine nodup_range.imp ?_
    intro _ _ hne _ he he'
    obtain ⟨_,_,rfl⟩ := mem_map.mp he
    obtain ⟨_,_,heq⟩ := mem_map.mp he'
    exact hne (Prod.mk.inj heq).1.symm
  · exact nodup_range.map fun _ _ h => (Prod.mk.inj h).2
  · intro _ he _ he' heq
    obtain ⟨row,hrow,hmem⟩ := mem_flatMap.mp he
    obtain ⟨_,_,rfl⟩ := mem_map.mp hmem
    obtain ⟨t,_,rfl⟩ := mem_map.mp he'
    have hlt := mem_range.mp hrow
    have hrows := (Prod.mk.inj heq).1
    omega

theorem mem_structure_iff (e : Nat × Nat) : e ∈ (range p.numOfBlocks).flatMap p.blockStructure ++
        (range p.numOfVariables).map (fun t => (4*p.numOfBlocks+t, t)) ↔
      (∃ b < p.numOfBlocks, ∃ r < 4, ∃ col ∈ p.rowColumns b r, (4*b+r, col) = e) ∨
        ∃ v < p.numOfVariables, (4*p.numOfBlocks+v, v) = e := by
  simp only [blockStructure_eq,mem_append,mem_flatMap,mem_map,mem_range]

end Entries

section Derivatives

def dVariable (m col : Nat) : ℝ := if m = col then 1 else 0

theorem dVariable_self (col : Nat) : dVariable col col = 1 := if_pos rfl

variable {r m e k l : Nat}

theorem dVariable_ne {col : Nat} (h : m ≠ col) : dVariable m col = 0 := if_neg h

def dSum (a : Nat → ℝ) (l e col : Nat) : ℝ := ∑ k ∈ Finset.range e, a k*dVariable (l+k) col

theorem dSum_at (a : Nat → ℝ) (l : Nat) (hk : k < e) : dSum a l e (l+k) = a k := by
  rw [dSum,Finset.sum_eq_single_of_mem k (Finset.mem_range.mpr hk),dVariable_self,mul_one]
  intro _ _ hne
  rw [dVariable_ne fun h => hne (add_left_cancel h),mul_zero]

theorem dSum_zero (a : Nat → ℝ) {col : Nat} (h : ∀ k < e, l+k ≠ col) : dSum a l e col = 0 := by
  apply Finset.sum_eq_zero
  intro k hk
  rw [dVariable_ne (h k (Finset.mem_range.mp hk)),mul_zero]

variable (x : Nat → ℝ) (col : Nat)

theorem hasDerivAt_variable (m : Nat) : HasDerivAt (fun v => update x col v m) (dVariable m col) (x col) := by
  by_cases h : m = col
  · subst h
    simp only [update_self,dVariable_self]
    exact hasDerivAt_id (x m)
  · simp only [update_of_ne h,dVariable_ne h]
    exact hasDerivAt_const (x col) (x m)

theorem hasDerivAt_sum (a : Nat → ℝ) (l e : Nat) :
    HasDerivAt (fun v => ∑ k ∈ Finset.range e, a k*update x col v (l+k)) (dSum a l e col) (x col) :=
  HasDerivAt.fun_sum fun k _ => (hasDerivAt_variable x col (l+k)).const_mul (a k)

variable (p : DualVariableWarmStart ℝ) (b : Nat)

noncomputable def blockSlopes : List ℝ :=
  let pose := p.xWS (b/p.obstaclesNum)
  let d1 := dSum (fun k => p.obstaclesA (p.blockEdgesCounter b+k) 0) (p.lIndex b) (p.blockEdges b) col
  let d2 := dSum (fun k => p.obstaclesA (p.blockEdgesCounter b+k) 1) (p.lIndex b) (p.blockEdges b) col
  let d3 := dSum p.g (p.nIndex b) 4 col
  let d4 := dSum (fun k => p.obstaclesB (p.blockEdgesCounter b+k)) (p.lIndex b) (p.blockEdges b) col
  let tmp1 := p.tmp1 x (p.lIndex b) (p.blockEdgesCounter b) (p.blockEdges b)
  let tmp2 := p.tmp2 x (p.lIndex b) (p.blockEdgesCounter b) (p.blockEdges b)
  [2*tmp1*d1+2*tmp2*d2, dVariable (p.nIndex b) col - dVariable (p.nIndex b+2) col+pose.cos*d1+pose.sin*d2,
    dVariable (p.nIndex b+1) col - dVariable (p.nIndex b+3) col - pose.sin*d1+pose.cos*d2,
    dVariable (p.dIndex b) col+d3 - (pose.x+pose.cos*p.offset)*d1 - (pose.y+pose.sin*p.offset)*d2+d4]

theorem hasDerivAt_blockConstraints (hr : r < 4) :
    HasDerivAt (fun v => (p.blockConstraints (update x col v) b).getD r 0)
      ((p.blockSlopes x col b).getD r 0) (x col) := by
  have hself := update_eq_self col x
  have h1 := hasDerivAt_sum x col (fun k => p.obstaclesA (p.blockEdgesCounter b+k) 0) (p.lIndex b) (p.blockEdges b)
  have h2 := hasDerivAt_sum x col (fun k => p.obstaclesA (p.blockEdgesCounter b+k) 1) (p.lIndex b) (p.blockEdges b)
  have h3 := hasDerivAt_sum x col p.g (p.nIndex b) 4
  have h4 := hasDerivAt_sum x col (fun k => p.obstaclesB (p.blockEdgesCounter b+k)) (p.lIndex b) (p.blockEdges b)
  have hn (k : Nat) := hasDerivAt_variable x col (p.nIndex b+k)
  have hd := hasDerivAt_variable x col (p.dIndex b)
  match r with
  | 0 =>
    refine ((h1.mul h1).add (h2.mul h2)).congr_deriv ?_
    simp only [hself]
    change _ = 2*_*_+2*_*_
    simp only [tmp1,tmp2]
    ring
  | 1 => exact ((((hn 0).sub (hn 2)).add (h1.const_mul _)).add (h2.const_mul _))
  | 2 => exact ((((hn 1).sub (hn 3)).sub (h1.const_mul _)).add (h2.const_mul _))
  | 3 => exact ((((hd.add h3).sub (h1.const_mul _)).sub (h2.const_mul _)).add h4)

variable {x col p b}

theorem blockSlopes_lambda (hb : b < p.numOfBlocks) (hk : k < p.blockEdges b) :
    p.blockSlopes x (p.lIndex b+k) b = p.edgeValues x b k := by
  have hlt := p.lIndex_add_lt hb hk
  have hn (m : Nat) : p.nIndex b+m ≠ p.lIndex b+k := by
    rw [nIndex]
    omega
  have hd : p.dIndex b ≠ p.lIndex b+k := by
    have hstart : p.nStartIndex ≤ p.dStartIndex := le_add_right _ _
    rw [dIndex]
    omega
  have hn0 := dVariable_ne (hn 0)
  rw [add_zero] at hn0
  unfold blockSlopes edgeValues
  rw [dSum_at _ _ hk,dSum_at _ _ hk,dSum_at _ _ hk,dSum_zero p.g fun m _ => hn m,hn0,dVariable_ne (hn 1),
    dVariable_ne (hn 2),dVariable_ne (hn 3),dVariable_ne hd]
  simp only [sub_zero,zero_add,zero_sub,neg_mul]

theorem blockSlopes_other (h : ∀ k < p.blockEdges b, p.lIndex b+k ≠ col) :
    p.blockSlopes x col b = [0,dVariable (p.nIndex b) col - dVariable (p.nIndex b+2) col,
      dVariable (p.nIndex b+1) col - dVariable (p.nIndex b+3) col,
      dVariable (p.dIndex b) col+dSum p.g (p.nIndex b) 4 col] := by
  unfold blockSlopes
  rw [dSum_zero _ h,dSum_zero _ h,dSum_zero _ h]
  simp only [mul_zero,add_zero,sub_zero]

theorem lambda_ne_of_le (hb : b < p.numOfBlocks) (hcol : p.nStartIndex ≤ col) :
    ∀ k < p.blockEdges b, p.lIndex b+k ≠ col := by
  intro _ hk
  have hlt := p.lIndex_add_lt hb hk
  omega

theorem blockSlopes_mu (hb : b < p.numOfBlocks) (hm : m < 4) : p.blockSlopes x (p.nIndex b+m) b =
      [0,dVariable 0 m - dVariable 2 m,dVariable 1 m - dVariable 3 m,p.g m] := by
  have hshift (c : Nat) : dVariable (p.nIndex b+c) (p.nIndex b+m) = dVariable c m := by
    simp only [dVariable,add_left_cancel_iff]
  have hzero := hshift 0
  rw [add_zero] at hzero
  have hd : dVariable (p.dIndex b) (p.nIndex b+m) = 0 := by
    have hlt := p.nIndex_lt_dIndex hb hm
    have hle : p.dStartIndex ≤ p.dIndex b := le_add_right _ _
    exact dVariable_ne (by omega)
  have hle : p.nStartIndex ≤ p.nIndex b+m := by
    rw [nIndex]
    omega
  rw [blockSlopes_other (lambda_ne_of_le hb hle),hzero,hshift,hshift,hshift,hd,dSum_at _ _ hm,zero_add]

theorem blockSlopes_distance (hb : b < p.numOfBlocks) : p.blockSlopes x (p.dIndex b) b = [0,0,0,1] := by
  have hn (m : Nat) (hm : m < 4) : p.nIndex b+m ≠ p.dIndex b := by
    have hlt := p.nIndex_lt_dIndex hb hm
    have hle : p.dStartIndex ≤ p.dIndex b := le_add_right _ _
    omega
  have hzero := dVariable_ne (hn 0 (by omega))
  rw [add_zero] at hzero
  have hle : p.nStartIndex ≤ p.dIndex b := (le_add_right _ _).trans (le_add_right _ _)
  rw [blockSlopes_other (lambda_ne_of_le hb hle),hzero,dVariable_ne (hn 1 (by omega)),dVariable_ne (hn 2 (by omega)),
    dVariable_ne (hn 3 (by omega)),dVariable_self,dSum_zero p.g hn,sub_zero,add_zero]

theorem eq_three (hr : r < 4) (h0 : r ≠ 0) (h1 : r ≠ 1) (h2 : r ≠ 2) : r = 3 := by omega

theorem rowValues_slope (hb : b < p.numOfBlocks) (hr : r < 4) :
    ∀ e ∈ (p.rowColumns b r).zip (p.rowValues x b r), e.2 = (p.blockSlopes x e.1 b).getD r 0 := by
  intro _ he
  rw [zip_row] at he
  rcases mem_append.mp he with hedge | hrest
  · obtain ⟨k,hk,rfl⟩ := mem_map.mp hedge
    rw [blockSlopes_lambda hb (mem_range.mp hk)]
  · have hn := blockSlopes_mu (x := x) hb (show 0 < 4 by omega)
    rw [add_zero] at hn
    unfold restColumns restValues at hrest
    split at hrest
    · cases hrest
    · simp only [zip_cons_cons,zip_nil_right,mem_cons,not_mem_nil,or_false] at hrest
      rcases hrest with rfl | rfl
      · rw [hn]
        norm_num [dVariable]
      · rw [blockSlopes_mu hb (by omega)]
        norm_num [dVariable]
    · simp only [zip_cons_cons,zip_nil_right,mem_cons,not_mem_nil,or_false] at hrest
      rcases hrest with rfl | rfl
      all_goals
        rw [blockSlopes_mu hb (by omega)]
        norm_num [dVariable]
    · rename_i h0 h1 h2
      obtain rfl := eq_three hr h0 h1 h2
      rw [zip_append (by rw [length_map,length_map]),zip_map'] at hrest
      rcases mem_append.mp hrest with hmu | hd
      · obtain ⟨m,hm,rfl⟩ := mem_map.mp hmu
        rw [blockSlopes_mu hb (mem_range.mp hm)]
        rfl
      · obtain rfl := mem_singleton.mp hd
        rw [blockSlopes_distance hb]
        rfl

theorem slope_eq_zero (hr : r < 4) (hcol : col ∉ p.rowColumns b r) : (p.blockSlopes x col b).getD r 0 = 0 := by
  rw [rowColumns,mem_append,not_or,mem_edgeColumns] at hcol
  have hother : ∀ k < p.blockEdges b, p.lIndex b+k ≠ col := fun k hk heq => hcol.1 ⟨k,hk,heq⟩
  have hrest := hcol.2
  rw [blockSlopes_other hother]
  unfold restColumns at hrest
  split at hrest
  · rfl
  · simp only [mem_cons,not_mem_nil,or_false,not_or] at hrest
    change dVariable _ _ - dVariable _ _ = 0
    rw [dVariable_ne (Ne.symm hrest.1),dVariable_ne (Ne.symm hrest.2),sub_zero]
  · simp only [mem_cons,not_mem_nil,or_false,not_or] at hrest
    change dVariable _ _ - dVariable _ _ = 0
    rw [dVariable_ne (Ne.symm hrest.1),dVariable_ne (Ne.symm hrest.2),sub_zero]
  · rename_i h0 h1 h2
    obtain rfl := eq_three hr h0 h1 h2
    simp only [mem_append,mem_map,mem_range,mem_singleton,not_or,not_exists,not_and] at hrest
    change dVariable _ _+dSum _ _ _ _ = 0
    rw [dVariable_ne (Ne.symm hrest.2),dSum_zero p.g fun k hk heq => hrest.1 k hk heq,add_zero]

end Derivatives

/-- Both modes return as many entries as were announced, none twice, and all other partial derivatives are zero. -/
theorem evalJacG_exact (p : DualVariableWarmStart ℝ) (x : Nat → ℝ) :
    ∃ entries values, p.evalJacGStructure = some entries ∧ p.evalJacGValues x p.nnzJacG = some values ∧
      entries.length = p.nnzJacG ∧ values.length = p.nnzJacG ∧ entries.Nodup ∧
      (∀ e ∈ entries, e.1 < p.numOfConstraints ∧ e.2 < p.numOfVariables) ∧
      (∀ t ∈ entries.zip values, HasDerivAt (fun v => p.constraintAt (update x t.1.2 v) t.1.1) t.2 (x t.1.2)) ∧
      ∀ row < p.numOfConstraints, ∀ col < p.numOfVariables, (row, col) ∉ entries →
        HasDerivAt (fun v => p.constraintAt (update x col v) row) 0 (x col) := by
  refine ⟨_,_,p.evalJacGStructure_eq,p.evalJacGValues_eq x,?_,p.length_values x,p.structure_nodup,?_,?_,?_⟩
  · rw [nnzJacG_eq,length_append,length_flatMap,length_map,length_range]
    simp only [length_blockStructure]
  · intro e he
    rw [numOfConstraints_eq]
    rcases (p.mem_structure_iff e).mp he with ⟨b,hb,r,hr,col,hcol,rfl⟩ | ⟨v,hv,rfl⟩
    · have hlt := p.rowColumns_lt hb hcol
      exact ⟨by omega,hlt⟩
    · exact ⟨Nat.add_lt_add_left hv _,hv⟩
  · intro t ht
    rcases (p.mem_zip_iff x t).mp ht with ⟨b,hb,r,hr,e,he,rfl⟩ | ⟨v,hv,rfl⟩
    · simp only [p.constraintAt_block _ hb hr,rowValues_slope hb hr e he]
      exact hasDerivAt_blockConstraints x e.1 p b hr
    · simp only [p.constraintAt_box _ hv]
      have hself := hasDerivAt_variable x v v
      rwa [dVariable_self] at hself
  · intro row hrow col _ hnot
    rw [mem_structure_iff,not_or] at hnot
    rw [numOfConstraints_eq] at hrow
    rcases lt_or_ge row (4*p.numOfBlocks) with _ | hbox
    · obtain ⟨b,r,hb,hr,rfl⟩ : ∃ b r, b < p.numOfBlocks ∧ r < 4 ∧ row = 4*b+r :=
        ⟨row/4,row%4,by omega,mod_lt _ (by omega),(div_add_mod row 4).symm⟩
      have hzero : (p.blockSlopes x col b).getD r 0 = 0 :=
        slope_eq_zero hr fun hmem => hnot.1 ⟨b,hb,r,hr,col,hmem,rfl⟩
      have hderiv := hasDerivAt_blockConstraints x col p b hr
      rw [hzero] at hderiv
      simpa only [p.constraintAt_block _ hb hr] using hderiv
    · obtain ⟨v,rfl⟩ := Nat.exists_eq_add_of_le hbox
      have hv := lt_of_add_lt_add_left hrow
      have hne : v ≠ col := by
        rintro rfl
        exact hnot.2 ⟨v,hv,rfl⟩
      have hderiv := hasDerivAt_variable x col v
      rw [dVariable_ne hne] at hderiv
      simpa only [p.constraintAt_box _ hv] using hderiv

end Apollo.Modules.Planning.DualVariableWarmStart
