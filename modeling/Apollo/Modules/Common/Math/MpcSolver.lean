import Apollo.Foundation.BlockRows
import Apollo.Foundation.QuadraticMinimum
import Mathlib.LinearAlgebra.Matrix.NonsingularInverse

/-! `SolveLinearMPC`: the states of a linear system over a horizon are eliminated, which leaves a quadratic program in
the controls. The sizes of the matrices are those of their types, and a matrix with one column is a vector. -/
namespace Apollo.Modules.Common.Math
open Foundation
open scoped Matrix

/-- The arguments of the solver. `min q(x) = 0.5 * x^T * Q * x + x^T c` with `A * x = b` and `C * x >= d`. -/
structure QuadraticProgram (K : Type) (numParam numInequality numEquality : Nat) where
  kernelMatrix : Matrix (Fin numParam) (Fin numParam) K
  offset : Fin numParam → K
  affineInequalityMatrix : Matrix (Fin numInequality) (Fin numParam) K
  affineInequalityBoundary : Fin numInequality → K
  affineEqualityMatrix : Matrix (Fin numEquality) (Fin numParam) K
  affineEqualityBoundary : Fin numEquality → K

/-- The arguments of `SolveLinearMPC`, for states with `p` and controls with `q` numbers. -/
structure LinearMpc (K : Type) (p q : Nat) where
  matrixA : Matrix (Fin p) (Fin p) K
  matrixB : Matrix (Fin p) (Fin q) K
  matrixC : Fin p → K
  matrixQ : Matrix (Fin p) (Fin p) K
  matrixR : Matrix (Fin q) (Fin q) K
  matrixLower : Fin q → K
  matrixUpper : Fin q → K
  matrixInitialState : Fin p → K
  reference : List (Fin p → K)

structure MpcResult (K : Type) (p q : Nat) where
  control : List (Fin q → K)
  controlGain : List (Matrix (Fin q) (Fin p) K)
  additionGain : List (Fin q → K)

variable {K : Type} [Field K] {p q : Nat}

namespace LinearMpc
variable (mpc : LinearMpc K p q)

def horizon : Nat := mpc.reference.length

def matrixT : Fin (mpc.horizon*p) → K := stackRows mpc.horizon p fun j => mpc.reference.getD j 0

def matrixAPower : List (Matrix (Fin p) (Fin p) K) := List.iterate (mpc.matrixA * ·) mpc.matrixA mpc.horizon

/-- The row of blocks `r`, to the left of the diagonal and on it. -/
def setMatrixKRow (stacked : Matrix (Fin (mpc.horizon*p)) (Fin (mpc.horizon*q)) K) (r : Nat) :
    Matrix (Fin (mpc.horizon*p)) (Fin (mpc.horizon*q)) K :=
  setBlock ((List.range r).foldl (fun stacked c =>
    setBlock stacked (r*p) (c*q) (mpc.matrixAPower.getD (r - c - 1) 0*mpc.matrixB)) stacked)
    (r*p) (r*q) mpc.matrixB

def matrixK : Matrix (Fin (mpc.horizon*p)) (Fin (mpc.horizon*q)) K :=
  (List.range' 1 (mpc.horizon - 1)).foldl mpc.setMatrixKRow (setBlock 0 0 0 mpc.matrixB)

def matrixAA : Matrix (Fin (mpc.horizon*p)) (Fin p) K :=
  .of (fillRows mpc.horizon p mpc.matrixA.row fun _ before => (mpc.matrixA*Matrix.of before).row)

def matrixM : Fin (mpc.horizon*p) → K :=
  fillRows mpc.horizon p (mpc.matrixA *ᵥ mpc.matrixInitialState) fun _ before => mpc.matrixA *ᵥ before

def matrixLL : Fin (mpc.horizon*q) → K := stackRows mpc.horizon q fun _ => mpc.matrixLower

def matrixUU : Fin (mpc.horizon*q) → K := stackRows mpc.horizon q fun _ => mpc.matrixUpper

def matrixQQ : Matrix (Fin (mpc.horizon*p)) (Fin (mpc.horizon*p)) K := blockDiag mpc.horizon mpc.matrixQ

def matrixRR : Matrix (Fin (mpc.horizon*q)) (Fin (mpc.horizon*q)) K := blockDiag mpc.horizon mpc.matrixR

def matrixCC : Fin (mpc.horizon*p) → K :=
  fillRows mpc.horizon p mpc.matrixC fun i before =>
    before+Matrix.of (getRows mpc.matrixAA.row ((i - 1)*p) p) *ᵥ mpc.matrixC

def matrixM1 : Matrix (Fin (mpc.horizon*q)) (Fin (mpc.horizon*q)) K :=
  mpc.matrixKᵀ*mpc.matrixQQ*mpc.matrixK+mpc.matrixRR

def matrixM2 : Fin (mpc.horizon*q) → K := (mpc.matrixKᵀ*mpc.matrixQQ) *ᵥ (mpc.matrixM+mpc.matrixCC - mpc.matrixT)

noncomputable def matrixM0 : Matrix (Fin (mpc.horizon*q)) (Fin (mpc.horizon*p)) K :=
  (-1 : K) • mpc.matrixM1⁻¹*mpc.matrixKᵀ*mpc.matrixQQ

noncomputable def matrixCtrlGain : Matrix (Fin (mpc.horizon*q)) (Fin p) K := mpc.matrixM0*mpc.matrixAA

noncomputable def matrixAddGain : Fin (mpc.horizon*q) → K := mpc.matrixM0 *ᵥ mpc.matrixCC

/-- The program for the solver. The equality constraints are all zero. -/
def program : QuadraticProgram K (mpc.horizon*q) (mpc.horizon*q+mpc.horizon*q) (mpc.horizon*q+mpc.horizon*q) where
  kernelMatrix := mpc.matrixM1
  offset := mpc.matrixM2
  affineInequalityMatrix := .of (Fin.append (1 : Matrix (Fin (mpc.horizon*q)) (Fin (mpc.horizon*q)) K).row
    (-1 : Matrix (Fin (mpc.horizon*q)) (Fin (mpc.horizon*q)) K).row)
  affineInequalityBoundary := Fin.append mpc.matrixLL (-mpc.matrixUU)
  affineEqualityMatrix := 0
  affineEqualityBoundary := 0

/-- The whole call, with a solver that can fail. A horizon of zero has no first power of the matrix. -/
noncomputable def solveLinearMpc (solve : QuadraticProgram K (mpc.horizon*q) (mpc.horizon*q+mpc.horizon*q)
      (mpc.horizon*q+mpc.horizon*q) → Option (Fin (mpc.horizon*q) → K)) : Option (MpcResult K p q) :=
  if mpc.reference = [] then none
  else (solve mpc.program).map fun matrixV =>
    { control := (List.range mpc.horizon).map fun i => getRows matrixV (i*q) q
      controlGain := (List.range mpc.horizon).map fun i => .of (getRows mpc.matrixCtrlGain.row (i*q) q)
      additionGain := (List.range mpc.horizon).map fun i => getRows mpc.matrixAddGain (i*q) q }

end LinearMpc

open List Option Matrix
variable {K : Type} [Field K] {p q : Nat}

namespace LinearMpc

def state (mpc : LinearMpc K p q) (controls : Nat → Fin q → K) : Nat → Fin p → K
  | 0 => mpc.matrixInitialState
  | i+1 => mpc.matrixA *ᵥ mpc.state controls i+mpc.matrixB *ᵥ controls i+mpc.matrixC

theorem state_succ (mpc : LinearMpc K p q) (controls : Nat → Fin q → K) (i : Nat) :
    mpc.state controls (i+1) = mpc.matrixA^(i+1) *ᵥ mpc.matrixInitialState +
      ∑ j ∈ Finset.range (i+1), (mpc.matrixA^(i - j)*mpc.matrixB) *ᵥ controls j +
      ∑ k ∈ Finset.range (i+1), mpc.matrixA^k *ᵥ mpc.matrixC := by
  induction i with
  | zero => simp [state]
  | succ i ih =>
    have hforced : ∑ j ∈ Finset.range (i+2), (mpc.matrixA^(i+1 - j)*mpc.matrixB) *ᵥ controls j =
        mpc.matrixA *ᵥ ∑ j ∈ Finset.range (i+1), (mpc.matrixA^(i - j)*mpc.matrixB) *ᵥ controls j +
          mpc.matrixB *ᵥ controls (i+1) := by
      rw [Finset.sum_range_succ,Nat.sub_self,pow_zero,Matrix.one_mul,Matrix.mulVec_sum]
      congr 1
      apply Finset.sum_congr rfl
      intro _ hj
      rw [Nat.succ_sub (Nat.le_of_lt_succ (Finset.mem_range.mp hj)),pow_succ',Matrix.mul_assoc,Matrix.mulVec_mulVec]
    have hdisturbed : ∑ k ∈ Finset.range (i+2), mpc.matrixA^k *ᵥ mpc.matrixC =
        mpc.matrixA *ᵥ ∑ k ∈ Finset.range (i+1), mpc.matrixA^k *ᵥ mpc.matrixC+mpc.matrixC := by
      rw [Finset.sum_range_succ',pow_zero,one_mulVec,mulVec_sum]
      congr 1
      apply Finset.sum_congr rfl
      intro _ _
      rw [pow_succ',mulVec_mulVec]
    rw [state,ih,hforced,hdisturbed,pow_succ' _ (i+1),← mulVec_mulVec,mulVec_add,mulVec_add]
    abel

variable (mpc : LinearMpc K p q)

theorem matrixAPower_getD {k : Nat} (hk : k < mpc.horizon) : mpc.matrixAPower.getD k 0 = mpc.matrixA^(k+1) := by
  have hpower : ∀ k, (mpc.matrixA * ·)^[k] mpc.matrixA = mpc.matrixA^(k+1) := by
    intro k
    induction k with
    | zero => exact (pow_one _).symm
    | succ _ ih => rw [Function.iterate_succ_apply',ih,← pow_succ']
  rw [matrixAPower,getD_eq_getElem?_getD,getElem?_iterate _ _ _ _ hk,getD_some,hpower]

def response (i j : Nat) : Matrix (Fin p) (Fin q) K := if j ≤ i then mpc.matrixA^(i - j)*mpc.matrixB else 0

theorem blockAt_setMatrixKRow {stacked : Matrix (Fin (mpc.horizon*p)) (Fin (mpc.horizon*q)) K} {r : Nat}
    (hr : r < mpc.horizon) (hzero : ∀ i j : Fin mpc.horizon, r ≤ i → blockAt stacked i j = 0) (i j : Fin mpc.horizon) :
    blockAt (mpc.setMatrixKRow stacked r) i j = if i = r then mpc.response r j else blockAt stacked i j := by
  -- the blocks to the left of the diagonal that the first rounds of the inner loop have written
  have hrounds : ∀ c ≤ r, blockAt ((List.range c).foldl (fun stacked c =>
      setBlock stacked (r*p) (c*q) (mpc.matrixAPower.getD (r - c - 1) 0*mpc.matrixB)) stacked) i j =
      if i = r ∧ j < c then mpc.response r j else blockAt stacked i j := by
    intro c hc
    induction c with
    | zero => rw [range_zero,foldl_nil,if_neg fun h => Nat.not_lt_zero _ h.2]
    | succ c ih =>
      rw [range_succ,foldl_append,foldl_cons,foldl_nil,blockAt_setBlock,ih (Nat.le_of_succ_le hc)]
      by_cases hblock : i = r ∧ j = c
      · have hpower : r - c - 1+1 = r - c := by omega
        rw [if_pos hblock,if_pos ⟨hblock.1,hblock.2 ▸ Nat.lt_succ_self _⟩,mpc.matrixAPower_getD (by omega),hpower,
          response,hblock.2,if_pos (Nat.le_of_succ_le hc)]
      · rw [if_neg hblock]
        have hiff : (i = r ∧ j < c) ↔ i = r ∧ j < c+1 := by omega
        simp only [hiff]
  rw [setMatrixKRow,blockAt_setBlock,hrounds r le_rfl]
  by_cases hi : i = r
  · rw [if_pos hi]
    rcases Nat.lt_trichotomy j r with hlt | heq | _
    · rw [if_neg (by omega),if_pos ⟨hi,hlt⟩]
    · rw [if_pos ⟨hi,heq⟩,response,heq,if_pos le_rfl,Nat.sub_self,pow_zero,Matrix.one_mul]
    · rw [if_neg (by omega),if_neg (by omega),hzero i j hi.ge,response,if_neg (by omega)]
  · rw [if_neg (by omega),if_neg (by omega),if_neg hi]

theorem blockAt_matrixK (i j : Fin mpc.horizon) : blockAt mpc.matrixK i j = mpc.response i j := by
  have hrounds : ∀ k < mpc.horizon, ∀ i j : Fin mpc.horizon,
      blockAt ((List.range' 1 k).foldl mpc.setMatrixKRow (setBlock 0 0 0 mpc.matrixB)) i j =
        if i ≤ k then mpc.response i j else 0 := by
    intro k hk
    induction k with intro i j
    | zero =>
      have hstart := blockAt_setBlock (0 : Matrix (Fin (mpc.horizon*p)) (Fin (mpc.horizon*q)) K) 0 0 mpc.matrixB i j
      rw [Nat.zero_mul,Nat.zero_mul] at hstart
      rw [range'_zero,foldl_nil,hstart]
      by_cases hi : i.val = 0
      · by_cases hj : j.val = 0
        · rw [if_pos ⟨hi,hj⟩,if_pos hi.le,response,hi,hj,if_pos le_rfl,Nat.sub_self,pow_zero,Matrix.one_mul]
        · rw [if_neg fun h => hj h.2,if_pos hi.le,response,hi,if_neg (by omega)]
          rfl
      · rw [if_neg fun h => hi h.1,if_neg (by omega)]
        rfl
    | succ k ih =>
      have hbefore := ih (Nat.lt_of_succ_lt hk)
      have hzero : ∀ i j : Fin mpc.horizon, k+1 ≤ i →
          blockAt ((List.range' 1 k).foldl mpc.setMatrixKRow (setBlock 0 0 0 mpc.matrixB)) i j = 0 := by
        intro i j _
        rw [hbefore i j,if_neg (by omega)]
      rw [range'_concat,foldl_append,foldl_cons,foldl_nil,Nat.one_mul,Nat.add_comm 1 k,
        mpc.blockAt_setMatrixKRow hk hzero,hbefore i j]
      by_cases hi : i = k+1
      · rw [if_pos hi,if_pos hi.le,hi]
      · have hiff : i ≤ k ↔ i ≤ k+1 := by omega
        simp only [if_neg hi,hiff]
  have hpos := Nat.zero_lt_of_lt i.isLt
  rw [matrixK,hrounds _ (Nat.sub_lt hpos Nat.one_pos),if_pos (Nat.le_sub_one_of_lt i.isLt)]

theorem rowBlock_matrixAA (i : Fin mpc.horizon) : rowBlock mpc.matrixAA.row i = (mpc.matrixA^(i.val+1)).row := by
  refine rowBlock_fillRows (fun k => (mpc.matrixA^(k+1)).row) ?_ ?_ i
  · rw [pow_one]
  · intro _ _
    rw [pow_succ']
    rfl

theorem rowBlock_matrixM (i : Fin mpc.horizon) :
    rowBlock mpc.matrixM i = mpc.matrixA^(i.val+1) *ᵥ mpc.matrixInitialState := by
  refine rowBlock_fillRows (fun k => mpc.matrixA^(k+1) *ᵥ mpc.matrixInitialState) ?_ ?_ i
  · rw [pow_one]
  · intro _ _
    rw [pow_succ',mulVec_mulVec]

theorem rowBlock_matrixCC (i : Fin mpc.horizon) :
    rowBlock mpc.matrixCC i = ∑ k ∈ Finset.range (i+1), mpc.matrixA^k *ᵥ mpc.matrixC := by
  refine rowBlock_fillRows (fun i => ∑ k ∈ Finset.range (i+1), mpc.matrixA^k *ᵥ mpc.matrixC) ?_ ?_ i
  · rw [Finset.sum_range_one,pow_zero,one_mulVec]
  · intro k hk
    have hpower : of (getRows mpc.matrixAA.row ((k+1 - 1)*p) p) = mpc.matrixA^(k+1) := by
      have hblock := mpc.rowBlock_matrixAA ⟨k,Nat.lt_of_succ_lt hk⟩
      rw [← getRows_eq_rowBlock] at hblock
      exact hblock
    rw [hpower,Finset.sum_range_succ _ (k+1)]

def controlsOf (stacked : Fin (mpc.horizon*q) → K) (i : Nat) : Fin q → K := getRows stacked (i*q) q

/-- The stacked states, in their dependence on the stacked controls. -/
theorem rowBlock_states (stacked : Fin (mpc.horizon*q) → K) (i : Fin mpc.horizon) :
    rowBlock (mpc.matrixK *ᵥ stacked+(mpc.matrixM+mpc.matrixCC - mpc.matrixT)) i =
      mpc.state (mpc.controlsOf stacked) (i+1) - mpc.reference.getD i 0 := by
  have hforced : rowBlock (mpc.matrixK *ᵥ stacked) i =
      ∑ j ∈ Finset.range (i+1), (mpc.matrixA^(i.val - j)*mpc.matrixB) *ᵥ mpc.controlsOf stacked j := by
    calc rowBlock (mpc.matrixK *ᵥ stacked) i
        = ∑ j : Fin mpc.horizon, mpc.response i j *ᵥ mpc.controlsOf stacked j := by
          rw [rowBlock_mulVec]
          apply Finset.sum_congr rfl
          intro _ _
          rw [blockAt_matrixK,controlsOf,getRows_eq_rowBlock]
      _ = ∑ j ∈ Finset.range mpc.horizon, mpc.response i j *ᵥ mpc.controlsOf stacked j :=
          Fin.sum_univ_eq_sum_range (fun j => mpc.response i j *ᵥ mpc.controlsOf stacked j) mpc.horizon
      _ = ∑ j ∈ Finset.range (i+1), mpc.response i j *ᵥ mpc.controlsOf stacked j := by
          refine (Finset.sum_subset (Finset.range_subset_range.mpr i.isLt) ?_).symm
          intro _ _ hj
          rw [response,if_neg (by simpa using hj),zero_mulVec]
      _ = _ := by
          apply Finset.sum_congr rfl
          intro _ hj
          rw [response,if_pos (Nat.le_of_lt_succ (Finset.mem_range.mp hj))]
  have hreference : rowBlock mpc.matrixT i = mpc.reference.getD i 0 := rowBlock_stackRows _ i
  change rowBlock (mpc.matrixK *ᵥ stacked) i+(rowBlock mpc.matrixM i+rowBlock mpc.matrixCC i - rowBlock mpc.matrixT i) = _
  rw [hforced,rowBlock_matrixM,rowBlock_matrixCC,hreference,state_succ]
  abel

def cost (stacked : Fin (mpc.horizon*q) → K) : K :=
  1/2 * ∑ i : Fin mpc.horizon, ((mpc.state (mpc.controlsOf stacked) (i+1) - mpc.reference.getD i 0) ⬝ᵥ
        (mpc.matrixQ *ᵥ (mpc.state (mpc.controlsOf stacked) (i+1) - mpc.reference.getD i 0)) +
      mpc.controlsOf stacked i ⬝ᵥ (mpc.matrixR *ᵥ mpc.controlsOf stacked i))

end LinearMpc

namespace QuadraticProgram
variable {v w e : Nat}

def objective (program : QuadraticProgram K v w e) (x : Fin v → K) : K := quadratic program.kernelMatrix program.offset x

variable [LinearOrder K]

def Feasible (program : QuadraticProgram K v w e) (x : Fin v → K) : Prop :=
  (∀ r, program.affineInequalityBoundary r ≤ (program.affineInequalityMatrix *ᵥ x) r) ∧
    program.affineEqualityMatrix *ᵥ x = program.affineEqualityBoundary

def Minimises (program : QuadraticProgram K v w e) (x : Fin v → K) : Prop :=
  ∀ y, program.objective x ≤ program.objective y

end QuadraticProgram

namespace LinearMpc
variable (mpc : LinearMpc K p q)

theorem matrixM1_isSymm (hQ : mpc.matrixQ.IsSymm) (hR : mpc.matrixR.IsSymm) : mpc.matrixM1.IsSymm := by
  have hQQ : mpc.matrixQQᵀ = mpc.matrixQQ := blockDiag_isSymm hQ
  have hRR : mpc.matrixRRᵀ = mpc.matrixRR := blockDiag_isSymm hR
  rw [Matrix.IsSymm,matrixM1,transpose_add,transpose_mul,transpose_mul,
    Matrix.transpose_transpose,hQQ,hRR,Matrix.mul_assoc]

theorem matrixAA_mulVec : mpc.matrixAA *ᵥ mpc.matrixInitialState = mpc.matrixM := by
  apply ext_rowBlock
  intro i
  rw [rowBlock_matrixM]
  change of (rowBlock mpc.matrixAA.row i) *ᵥ mpc.matrixInitialState = _
  rw [rowBlock_matrixAA]
  rfl

section
variable (hzero : ∀ x ∈ mpc.reference, x = 0)
include hzero

theorem matrixT_eq_zero : mpc.matrixT = 0 := by
  apply ext_rowBlock
  intro i
  rw [matrixT,rowBlock_stackRows,getD_eq_getElem?_getD,getElem?_eq_getElem i.isLt,getD_some]
  exact hzero _ (getElem_mem _)

theorem gain_eq :
    mpc.matrixCtrlGain *ᵥ mpc.matrixInitialState+mpc.matrixAddGain = -(mpc.matrixM1⁻¹ *ᵥ mpc.matrixM2) := by
  rw [matrixCtrlGain,matrixAddGain,← mulVec_mulVec,matrixAA_mulVec,← mulVec_add,matrixM0,matrixM2,
    mpc.matrixT_eq_zero hzero,sub_zero,Matrix.mulVec_mulVec,Matrix.mul_assoc,Matrix.smul_mul,neg_one_smul,
    neg_mulVec]

theorem stationary_iff (hdet : mpc.matrixM1.det ≠ 0) (stacked : Fin (mpc.horizon*q) → K) :
    mpc.matrixM1 *ᵥ stacked+mpc.matrixM2 = 0 ↔
      stacked = mpc.matrixCtrlGain *ᵥ mpc.matrixInitialState+mpc.matrixAddGain := by
  have hright := mul_nonsing_inv mpc.matrixM1 (isUnit_iff_ne_zero.mpr hdet)
  have hleft := nonsing_inv_mul mpc.matrixM1 (isUnit_iff_ne_zero.mpr hdet)
  rw [mpc.gain_eq hzero]
  constructor
  · intro hstationary
    calc stacked = mpc.matrixM1⁻¹ *ᵥ (mpc.matrixM1 *ᵥ stacked) := by
          rw [mulVec_mulVec,hleft,one_mulVec]
      _ = -(mpc.matrixM1⁻¹ *ᵥ mpc.matrixM2) := by
          rw [eq_neg_of_add_eq_zero_left hstationary,mulVec_neg]
  · intro hgain
    rw [hgain,mulVec_neg,mulVec_mulVec,hright,one_mulVec,neg_add_cancel]

end

theorem inequality_mulVec (stacked : Fin (mpc.horizon*q) → K) :
    mpc.program.affineInequalityMatrix *ᵥ stacked = Fin.append stacked (-stacked) := by
  funext k
  refine Fin.addCases (fun k => ?_) (fun k => ?_) k
  · rw [Fin.append_left]
    change Fin.append (1 : Matrix _ _ K).row (-1 : Matrix _ _ K).row (Fin.castAdd _ k) ⬝ᵥ stacked = stacked k
    rw [Fin.append_left]
    exact congrFun (one_mulVec stacked) k
  · rw [Fin.append_right]
    change Fin.append (1 : Matrix _ _ K).row (-1 : Matrix _ _ K).row (Fin.natAdd _ k) ⬝ᵥ stacked = -stacked k
    rw [Fin.append_right]
    exact congrFun ((neg_mulVec stacked 1).trans (congrArg _ (one_mulVec stacked))) k

theorem getD_map_range {α : Type} (f : Nat → α) {n i : Nat} (hi : i < n) (d : α) :
    ((List.range n).map f).getD i d = f i := by
  rw [getD_eq_getElem?_getD,getElem?_map,getElem?_range hi,map_some,getD_some]

theorem gains_of_solve {solve} {result : MpcResult K p q} (h : mpc.solveLinearMpc solve = some result)
    (stacked : Fin (mpc.horizon*q) → K) :
    stacked = mpc.matrixCtrlGain *ᵥ mpc.matrixInitialState+mpc.matrixAddGain ↔
      ∀ i < mpc.horizon, mpc.controlsOf stacked i =
        result.controlGain.getD i 0 *ᵥ mpc.matrixInitialState+result.additionGain.getD i 0 := by
  rw [solveLinearMpc] at h
  split at h
  next => cases h
  obtain ⟨_,-,rfl⟩ := map_eq_some_iff.mp h
  have hgain (i : Fin mpc.horizon) : rowBlock (mpc.matrixCtrlGain *ᵥ mpc.matrixInitialState+mpc.matrixAddGain) i =
      of (getRows mpc.matrixCtrlGain.row (i*q) q) *ᵥ mpc.matrixInitialState+getRows mpc.matrixAddGain (i*q) q := by
    rw [getRows_eq_rowBlock,getRows_eq_rowBlock]
    rfl
  constructor
  · intro hstacked i hi
    have hblock := getRows_eq_rowBlock stacked ⟨i,hi⟩
    rw [getD_map_range _ hi,getD_map_range _ hi,controlsOf,hblock,hstacked,hgain]
  · intro hcontrols
    apply ext_rowBlock
    intro i
    have hi := hcontrols i i.isLt
    rw [getD_map_range _ i.isLt,getD_map_range _ i.isLt,controlsOf,getRows_eq_rowBlock stacked] at hi
    rw [hi,hgain]

variable [LinearOrder K] [IsStrictOrderedRing K]

theorem feasible_iff (stacked : Fin (mpc.horizon*q) → K) : mpc.program.Feasible stacked ↔
    ∀ (i : Fin mpc.horizon) (j : Fin q),
      mpc.matrixLower j ≤ mpc.controlsOf stacked i j ∧ mpc.controlsOf stacked i j ≤ mpc.matrixUpper j := by
  have hblock (i : Fin mpc.horizon) (j : Fin q) : mpc.controlsOf stacked i j = stacked (finProdFinEquiv (i, j)) :=
    congrFun (getRows_eq_rowBlock stacked i) j
  have hlower (i : Fin mpc.horizon) (j : Fin q) : mpc.matrixLL (finProdFinEquiv (i, j)) = mpc.matrixLower j :=
    congrFun (rowBlock_stackRows (fun _ => mpc.matrixLower) i) j
  have hupper (i : Fin mpc.horizon) (j : Fin q) : mpc.matrixUU (finProdFinEquiv (i, j)) = mpc.matrixUpper j :=
    congrFun (rowBlock_stackRows (fun _ => mpc.matrixUpper) i) j
  rw [QuadraticProgram.Feasible,inequality_mulVec]
  change (∀ r, Fin.append mpc.matrixLL (-mpc.matrixUU) r ≤ Fin.append stacked (-stacked) r) ∧ _ ↔ _
  constructor
  · rintro ⟨hinequality,-⟩ i j
    have hl := hinequality (Fin.castAdd _ (finProdFinEquiv (i, j)))
    have hu := hinequality (Fin.natAdd _ (finProdFinEquiv (i, j)))
    rw [Fin.append_left,Fin.append_left,hlower] at hl
    rw [Fin.append_right,Fin.append_right,Pi.neg_apply,Pi.neg_apply,hupper,neg_le_neg_iff] at hu
    rw [hblock]
    exact ⟨hl,hu⟩
  · intro hbounds
    refine ⟨fun k => ?_,zero_mulVec stacked⟩
    refine Fin.addCases (fun k => ?_) (fun k => ?_) k
    · obtain ⟨⟨i,j⟩,rfl⟩ := finProdFinEquiv.surjective k
      rw [Fin.append_left,Fin.append_left,hlower,← hblock]
      exact (hbounds i j).1
    · obtain ⟨⟨i,j⟩,rfl⟩ := finProdFinEquiv.surjective k
      rw [Fin.append_right,Fin.append_right,Pi.neg_apply,Pi.neg_apply,hupper,neg_le_neg_iff,← hblock]
      exact (hbounds i j).2

theorem objective_eq (hQ : mpc.matrixQ.IsSymm) (stacked : Fin (mpc.horizon*q) → K) :
    mpc.program.objective stacked+1/2*((mpc.matrixM+mpc.matrixCC - mpc.matrixT) ⬝ᵥ
      (mpc.matrixQQ *ᵥ (mpc.matrixM+mpc.matrixCC - mpc.matrixT))) = mpc.cost stacked := by
  have hQQ : mpc.matrixQQ.IsSymm := blockDiag_isSymm hQ
  have hform := half_form_affine_add (R := mpc.matrixRR) hQQ mpc.matrixK (mpc.matrixM+mpc.matrixCC - mpc.matrixT) stacked
  change quadratic mpc.matrixM1 mpc.matrixM2 stacked+_ = _
  rw [matrixM1,matrixM2,← hform,matrixQQ,matrixRR,dotProduct_blockDiag_mulVec,dotProduct_blockDiag_mulVec,
    ← Finset.sum_add_distrib,cost]
  congr 1
  apply Finset.sum_congr rfl
  intro _ _
  rw [rowBlock_states,controlsOf,getRows_eq_rowBlock]

/-- The objective is the cost of the controls up to a constant, the constraints are their bounds, and for a reference
of zeros the minimum is given by the gains. -/
theorem condensation (hQ : mpc.matrixQ.IsSymm) (hR : mpc.matrixR.IsSymm) :
    (∃ constant, ∀ stacked, mpc.program.objective stacked+constant = mpc.cost stacked) ∧
    (∀ stacked, mpc.program.Feasible stacked ↔ ∀ (i : Fin mpc.horizon) (j : Fin q),
      mpc.matrixLower j ≤ mpc.controlsOf stacked i j ∧ mpc.controlsOf stacked i j ≤ mpc.matrixUpper j) ∧
    ∀ solve result, mpc.solveLinearMpc solve = some result → (∀ x ∈ mpc.reference, x = 0) →
      mpc.matrixM1.det ≠ 0 → ∀ stacked, mpc.program.Minimises stacked ↔ (∀ i < mpc.horizon, mpc.controlsOf stacked i =
          result.controlGain.getD i 0 *ᵥ mpc.matrixInitialState+result.additionGain.getD i 0) ∧
        ∀ direction, 0 ≤ direction ⬝ᵥ (mpc.matrixM1 *ᵥ direction) := by
  refine ⟨⟨_,mpc.objective_eq hQ⟩,mpc.feasible_iff,?_⟩
  intro _ _ hresult hzero hdet _
  rw [← mpc.gains_of_solve hresult,← mpc.stationary_iff hzero hdet]
  exact quadratic_min_iff (mpc.matrixM1_isSymm hQ hR)

/-- One state, to which the control is added in each of some steps. -/
def integrator (steps : Nat) (costOfState costOfControl : ℚ) : LinearMpc ℚ 1 1 where
  matrixA := 1
  matrixB := 1
  matrixC := 0
  matrixQ := costOfState • 1
  matrixR := costOfControl • 1
  matrixLower := -1
  matrixUpper := 1
  matrixInitialState := 1
  reference := replicate steps 0

theorem integrator_zero (steps : Nat) (costOfState costOfControl : ℚ) :
    ∀ x ∈ (integrator steps costOfState costOfControl).reference, x = 0 := fun _ => eq_of_mem_replicate

theorem integrator_isSymm (steps : Nat) (costOfState costOfControl : ℚ) :
    (integrator steps costOfState costOfControl).matrixQ.IsSymm ∧
      (integrator steps costOfState costOfControl).matrixR.IsSymm :=
  ⟨isSymm_one.smul costOfState,isSymm_one.smul costOfControl⟩

theorem condensation_twoSteps : ∃ result, (integrator 2 1 1).solveLinearMpc (fun _ => some 0) = some result ∧
    (integrator 2 1 1).matrixM1.det ≠ 0 ∧ ∀ stacked, (integrator 2 1 1).program.Minimises stacked ↔
      (∀ i < (integrator 2 1 1).horizon, (integrator 2 1 1).controlsOf stacked i =
        result.controlGain.getD i 0 *ᵥ (integrator 2 1 1).matrixInitialState+result.additionGain.getD i 0) ∧
      ∀ direction, 0 ≤ direction ⬝ᵥ ((integrator 2 1 1).matrixM1 *ᵥ direction) := by
  have hdet : (integrator 2 1 1).matrixM1.det ≠ 0 := by decide +kernel
  obtain ⟨hQ,hR⟩ := integrator_isSymm 2 1 1
  exact ⟨_,rfl,hdet,(condensation (integrator 2 1 1) hQ hR).2.2 (fun _ => some 0) _ rfl (integrator_zero 2 1 1) hdet⟩

/-- A control with a negative cost has no minimum, although the kernel can be inverted. -/
theorem no_minimum_oneStep : (integrator 1 0 (-1)).matrixQ.IsSymm ∧ (integrator 1 0 (-1)).matrixR.IsSymm ∧
    (∀ x ∈ (integrator 1 0 (-1)).reference, x = 0) ∧ (integrator 1 0 (-1)).matrixM1.det ≠ 0 ∧
    ∀ stacked, ¬ (integrator 1 0 (-1)).program.Minimises stacked := by
  obtain ⟨hQ,hR⟩ := integrator_isSymm 1 0 (-1)
  refine ⟨hQ,hR,integrator_zero 1 0 (-1),by decide +kernel,?_⟩
  intro _ hmin
  have hform := ((quadratic_min_iff (matrixM1_isSymm _ hQ hR)).mp hmin).2 1
  revert hform
  decide +kernel

end LinearMpc

end Apollo.Modules.Common.Math
