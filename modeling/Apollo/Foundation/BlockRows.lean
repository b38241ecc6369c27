import Mathlib.LinearAlgebra.Matrix.Symmetric

/-! Vectors and matrices that are written block after block. The rows of a stack of `n` blocks are numbered through;
a block is read and written by the number of its first row. -/
namespace Apollo.Foundation
open List Nat
open scoped Matrix

section Rows
variable {γ : Type} {m n p h : Nat}

/-- The rows of a vector are numbers, those of a matrix are vectors. -/
def rowBlock (v : Fin (n*p) → γ) (i : Fin n) : Fin p → γ := fun x => v (finProdFinEquiv (i, x))

def updateRows (v : Fin m → γ) (start : Nat) (f : Fin h → γ → γ) : Fin m → γ :=
  fun x => if hx : start ≤ x ∧ x - start < h then f ⟨x - start,hx.2⟩ (v x) else v x

def setRows (v : Fin m → γ) (start : Nat) (w : Fin h → γ) : Fin m → γ := updateRows v start fun x _ => w x

def getRows [Zero γ] (v : Fin m → γ) (start h : Nat) : Fin h → γ :=
  fun x => if hx : start+x < m then v ⟨start+x,hx⟩ else 0

theorem ext_rowBlock {v w : Fin (n*p) → γ} (h : ∀ i, rowBlock v i = rowBlock w i) : v = w := by
  funext k
  obtain ⟨⟨i,x⟩,rfl⟩ := finProdFinEquiv.surjective k
  exact congrFun (h i) x

theorem mem_block_iff (i : Fin n) (x : Fin p) (k : Nat) :
    (k*p ≤ finProdFinEquiv (i, x) ∧ finProdFinEquiv (i, x) - k*p < p) ↔ i = k := by
  change (k*p ≤ x+p*i ∧ x+p*i - k*p < p) ↔ i = k
  constructor
  · rintro ⟨hle,_⟩
    have hdiv : (x+p*i)/p = i.val := by
      rw [add_mul_div_left _ _ (zero_lt_of_lt x.isLt),div_eq_of_lt x.isLt,zero_add]
    rw [← hdiv]
    apply Nat.div_eq_of_lt_le hle
    rw [Nat.succ_mul]
    omega
  · rintro rfl
    rw [Nat.mul_comm i p]
    omega

theorem rowBlock_updateRows (v : Fin (n*p) → γ) (k : Nat) (f : Fin p → γ → γ) (i : Fin n) :
    rowBlock (updateRows v (k*p) f) i = if i = k then fun x => f x (rowBlock v i x) else rowBlock v i := by
  funext x
  by_cases hik : i = k
  · rw [if_pos hik,rowBlock,updateRows,dif_pos ((mem_block_iff i x k).mpr hik)]
    congr 1
    apply Fin.ext
    show x+p*i - k*p = x
    rw [← hik,mul_comm]
    omega
  · rw [if_neg hik,rowBlock,updateRows,dif_neg fun h => hik ((mem_block_iff i x k).mp h)]
    rfl

theorem rowBlock_setRows (v : Fin (n*p) → γ) (k : Nat) (w : Fin p → γ) (i : Fin n) :
    rowBlock (setRows v (k*p) w) i = if i = k then w else rowBlock v i := rowBlock_updateRows v k _ i

theorem getRows_eq_rowBlock [Zero γ] (v : Fin (n*p) → γ) (i : Fin n) : getRows v (i*p) p = rowBlock v i := by
  funext x
  have hval : i.val*p+x.val = (finProdFinEquiv (i, x)).val := by
    show i.val*p+x.val = x.val+p*i.val
    rw [mul_comm,add_comm]
  have hlt : i.val*p+x.val < n*p := hval ▸ (finProdFinEquiv (i, x)).isLt
  rw [getRows,dif_pos hlt,rowBlock]
  congr 1
  exact Fin.ext hval

variable [Zero γ]

/-- Each block on its own. -/
def stackRows (n p : Nat) (value : Nat → Fin p → γ) : Fin (n*p) → γ :=
  (List.range n).foldl (fun v i => setRows v (i*p) (value i)) 0

/-- The first block, and each further one from the block before. -/
def fillRows (n p : Nat) (first : Fin p → γ) (next : Nat → (Fin p → γ) → Fin p → γ) : Fin (n*p) → γ :=
  (List.range' 1 (n - 1)).foldl (fun v i => setRows v (i*p) (next i (getRows v ((i - 1)*p) p))) (setRows 0 0 first)

theorem rowBlock_stackRows (value : Nat → Fin p → γ) (i : Fin n) : rowBlock (stackRows n p value) i = value i := by
  -- the blocks that the first rounds have written
  have hrounds : ∀ k ≤ n, ∀ i : Fin n, i.val < k →
      rowBlock ((List.range k).foldl (fun v i => setRows v (i*p) (value i)) (0 : Fin (n*p) → γ)) i = value i := by
    intro k hk
    induction k with intro i hi
    | zero =>
      cases hi
    | succ _ ih =>
      rw [range_succ,foldl_append,foldl_cons,foldl_nil,rowBlock_setRows]
      split
      next heq => rw [heq]
      next hne => exact ih (le_of_succ_le hk) i (lt_of_le_of_ne (le_of_lt_succ hi) hne)
  exact hrounds n le_rfl i i.isLt

theorem rowBlock_fillRows {first : Fin p → γ} {next : Nat → (Fin p → γ) → Fin p → γ} (seq : Nat → Fin p → γ)
    (hfirst : seq 0 = first) (hnext : ∀ k, k+1 < n → seq (k+1) = next (k+1) (seq k)) (i : Fin n) :
    rowBlock (fillRows n p first next) i = seq i := by
  have hrounds : ∀ k < n, ∀ i : Fin n, i.val ≤ k →
      rowBlock ((List.range' 1 k).foldl (fun v i => setRows v (i*p) (next i (getRows v ((i - 1)*p) p)))
        (setRows (0 : Fin (n*p) → γ) 0 first)) i = seq i := by
    intro k hk
    induction k with intro i hi
    | zero =>
      have hzero := le_zero.mp hi
      have hstart := rowBlock_setRows (0 : Fin (n*p) → γ) 0 first i
      rw [zero_mul] at hstart
      rw [range'_zero,foldl_nil,hstart,if_pos hzero,hzero,hfirst]
    | succ k ih =>
      have hprev := ih (lt_of_succ_lt hk)
      rw [range'_concat,foldl_append,foldl_cons,foldl_nil,one_mul,add_comm 1 k, rowBlock_setRows,Nat.add_sub_cancel]
      split
      next heq =>
        have hblock := hprev ⟨k,lt_of_succ_lt hk⟩ le_rfl
        rw [← getRows_eq_rowBlock] at hblock
        rw [hblock,heq,hnext k hk]
      next hne => exact hprev i (le_of_lt_succ (lt_of_le_of_ne hi hne))
  have hpos := zero_lt_of_lt i.isLt
  exact hrounds (n - 1) (sub_lt hpos one_pos) i (le_sub_one_of_lt i.isLt)

end Rows

section Blocks
variable {K : Type} {m n l p q h w : Nat}

def setBlock (M : Matrix (Fin m) (Fin n) K) (r c : Nat) (B : Matrix (Fin h) (Fin w) K) : Matrix (Fin m) (Fin n) K :=
  .of (updateRows M.row r fun x row => setRows row c (B.row x))

def blockAt (M : Matrix (Fin (n*p)) (Fin (l*q)) K) (i : Fin n) (j : Fin l) : Matrix (Fin p) (Fin q) K :=
  .of fun x => rowBlock (rowBlock M.row i x) j

theorem blockAt_setBlock (M : Matrix (Fin (n*p)) (Fin (l*q)) K) (r c : Nat) (B : Matrix (Fin p) (Fin q) K) (i : Fin n)
    (j : Fin l) : blockAt (setBlock M (r*p) (c*q) B) i j = if i = r ∧ j = c then B else blockAt M i j := by
  have hrow : rowBlock (setBlock M (r*p) (c*q) B).row i =
      if i = r then fun x => setRows (rowBlock M.row i x) (c*q) (B.row x) else rowBlock M.row i :=
    rowBlock_updateRows M.row r (fun x row => setRows row (c*q) (B.row x)) i
  rw [blockAt,hrow]
  by_cases hi : i = r
  · simp only [if_pos hi,rowBlock_setRows]
    by_cases hj : j = c
    · simp only [if_pos hj,if_pos (And.intro hi hj)]
      rfl
    · simp only [if_neg hj,if_neg fun h : _ ∧ _ => hj h.2]
      rfl
  · simp only [if_neg hi,if_neg fun h : _ ∧ _ => hi h.1]
    rfl

theorem blockAt_transpose (M : Matrix (Fin (n*p)) (Fin (l*q)) K) (i : Fin n) (j : Fin l) :
    blockAt Mᵀ j i = (blockAt M i j)ᵀ := rfl

theorem ext_blockAt {M N : Matrix (Fin (n*p)) (Fin (l*q)) K} (h : ∀ i j, blockAt M i j = blockAt N i j) : M = N := by
  apply Matrix.ext_row
  intro k
  obtain ⟨⟨i,x⟩,rfl⟩ := finProdFinEquiv.surjective k
  apply ext_rowBlock
  intro j
  exact congrFun (congrArg Matrix.row (h i j)) x

def blockDiag [Zero K] (n : Nat) (B : Matrix (Fin p) (Fin p) K) : Matrix (Fin (n*p)) (Fin (n*p)) K :=
  (List.range n).foldl (fun M i => setBlock M (i*p) (i*p) B) 0

theorem blockAt_blockDiag [Zero K] (B : Matrix (Fin p) (Fin p) K) (i j : Fin n) :
    blockAt (blockDiag n B) i j = if i = j then B else 0 := by
  have hrounds : ∀ k ≤ n, ∀ i j : Fin n, blockAt ((List.range k).foldl (fun M i => setBlock M (i*p) (i*p) B)
        (0 : Matrix (Fin (n*p)) (Fin (n*p)) K)) i j = if i = j ∧ i.val < k then B else 0 := by
    intro k hk
    induction k with intro i j
    | zero =>
      rw [if_neg fun h => not_lt_zero _ h.2]
      rfl
    | succ k ih =>
      rw [range_succ,foldl_append,foldl_cons,foldl_nil,blockAt_setBlock,ih (le_of_succ_le hk)]
      by_cases hij : i = j
      · subst hij
        by_cases hik : i.val = k
        · rw [if_pos ⟨hik,hik⟩,if_pos ⟨rfl,hik ▸ lt_succ_self _⟩]
        · have hlt : i.val < k ↔ i.val < k+1 := by omega
          simp only [hik,false_and,if_false,hlt]
      · have hne : ¬ (i.val = k ∧ j.val = k) := fun h => hij (Fin.ext (h.1.trans h.2.symm))
        rw [if_neg hne,if_neg fun h => hij h.1,if_neg fun h => hij h.1]
  rw [blockDiag,hrounds n le_rfl i j]
  simp only [i.isLt,and_true]

theorem blockDiag_isSymm [Zero K] {B : Matrix (Fin p) (Fin p) K} (hB : B.IsSymm) : (blockDiag n B).IsSymm := by
  apply ext_blockAt
  intro i j
  rw [blockAt_transpose,blockAt_blockDiag,blockAt_blockDiag]
  by_cases hij : i = j
  · rw [if_pos hij,if_pos hij.symm,hB]
  · rw [if_neg hij,if_neg (Ne.symm hij),Matrix.transpose_zero]

end Blocks

section Products
variable {K : Type} [CommSemiring K] {n l p q : Nat}

theorem sum_eq_sum_rowBlock (f : Fin (n*p) → K) : ∑ k, f k = ∑ i, ∑ x, rowBlock f i x := by
  calc ∑ k, f k = ∑ e : Fin n × Fin p, f (finProdFinEquiv e) := (finProdFinEquiv.sum_comp f).symm
    _ = ∑ i, ∑ x, rowBlock f i x := Fintype.sum_prod_type _

theorem dotProduct_eq_sum_rowBlock (v w : Fin (n*p) → K) : v ⬝ᵥ w = ∑ i, rowBlock v i ⬝ᵥ rowBlock w i :=
  sum_eq_sum_rowBlock fun k => v k*w k

theorem rowBlock_mulVec (M : Matrix (Fin (n*p)) (Fin (l*q)) K) (v : Fin (l*q) → K) (i : Fin n) :
    rowBlock (M *ᵥ v) i = ∑ j, blockAt M i j *ᵥ rowBlock v j := by
  funext x
  rw [Finset.sum_apply]
  exact dotProduct_eq_sum_rowBlock (rowBlock M.row i x) v

theorem rowBlock_blockDiag_mulVec (B : Matrix (Fin p) (Fin p) K) (v : Fin (n*p) → K) (i : Fin n) :
    rowBlock (blockDiag n B *ᵥ v) i = B *ᵥ rowBlock v i := by
  rw [rowBlock_mulVec,Finset.sum_eq_single i]
  · rw [blockAt_blockDiag,if_pos rfl]
  · intro _ _ hj
    rw [blockAt_blockDiag,if_neg (Ne.symm hj),Matrix.zero_mulVec]
  · intro hi
    exact absurd (Finset.mem_univ i) hi

/-- The form of a block diagonal matrix is the sum of those of the blocks. -/
theorem dotProduct_blockDiag_mulVec (B : Matrix (Fin p) (Fin p) K) (v : Fin (n*p) → K) :
    v ⬝ᵥ (blockDiag n B *ᵥ v) = ∑ i, rowBlock v i ⬝ᵥ (B *ᵥ rowBlock v i) := by
  rw [dotProduct_eq_sum_rowBlock]
  apply Finset.sum_congr rfl
  intro _ _
  rw [rowBlock_blockDiag_mulVec]

end Products
end Apollo.Foundation
