import Mathlib.Algebra.BigOperators.Group.List.Basic
import Mathlib.Algebra.Order.Ring.Nat

/-! Loops with a counter that write values one after another and carry running indices along. -/
namespace Apollo.Foundation
open List Nat
variable {σ α β : Type}

/-- `for (int i = 0; i < n; ++i)`: what the rounds write, and the variables after them. -/
def forRange (body : Nat → σ → List α × σ) : Nat → σ → List α × σ
  | 0, s => ([], s)
  | n+1, s =>
    let before := forRange body n s
    let round := body n before.2
    (before.1 ++ round.1, round.2)

variable {n width m b r : Nat} {out : Nat → List α}

/-- A loop whose variables are known before each round. -/
theorem forRange_eq {body : Nat → σ → List α × σ} (vars : Nat → σ) (out : Nat → List α)
    (h : ∀ k < n, body k (vars k) = (out k, vars (k+1))) :
    forRange body n (vars 0) = ((range n).flatMap out, vars n) := by
  induction n with
  | zero => rfl
  | succ n ih =>
    have hbefore := ih fun k hk => h k (lt_succ_of_lt hk)
    rw [forRange,hbefore,h n (lt_succ_self n),range_succ,flatMap_append]
    simp only [flatMap_cons,flatMap_nil,append_nil]

/-- Two loops one inside the other are one loop. -/
theorem flatMap_range_mul (out : Nat → Nat → List α) (n m : Nat) :
    ((range n).flatMap fun i => (range m).flatMap (out i)) =
      (range (n*m)).flatMap fun b => out (b/m) (b%m) := by
  induction n with
  | zero => rw [zero_mul]; rfl
  | succ n ih =>
    have hround : (((range m).map (n*m + ·)).flatMap fun b => out (b/m) (b%m)) =
        (range m).flatMap (out n) := by
      rw [flatMap_map]
      apply flatMap_congr
      intro _ hj
      have hlt := mem_range.mp hj
      have hpos := zero_lt_of_lt hlt
      rw [mul_comm,mul_add_div hpos,div_eq_of_lt hlt,add_zero,mul_add_mod, mod_eq_of_lt hlt]
    rw [range_succ,flatMap_append,ih,succ_mul,range_add,flatMap_append,hround]
    simp only [flatMap_cons,flatMap_nil,append_nil]

theorem forRange_forRange (inner : Nat → Nat → σ → List α × σ) (reset : σ → σ) (start : Nat → σ)
    (vars : Nat → Nat → σ) (out : Nat → Nat → List α) (hstart : ∀ i < n, reset (start i) = vars i 0)
    (hend : ∀ i < n, vars i m = start (i+1))
    (hinner : ∀ i < n, ∀ j < m, inner i j (vars i j) = (out i j, vars i (j+1))) :
    forRange (fun i s => forRange (inner i) m (reset s)) n (start 0) =
      ((range (n*m)).flatMap fun b => out (b/m) (b%m), start n) := by
  rw [← flatMap_range_mul]
  apply forRange_eq start
  intro i hi
  rw [hstart i hi,forRange_eq (vars i) (out i) (hinner i hi),hend i hi]

theorem forRange_add {body : Nat → Nat → List α × Nat} {w : Nat → Nat} (h : ∀ k s, (body k s).2 = s+w k)
    (n s : Nat) : (forRange body n s).2 = s+((range n).map w).sum := by
  induction n with
  | zero => rfl
  | succ _ ih =>
    rw [forRange,h,ih,range_succ,map_append,List.sum_append,map_singleton,sum_singleton,add_assoc]

theorem sum_range_mul (w : Nat → Nat → Nat) (n m : Nat) :
    ((range n).map fun i => ((range m).map (w i)).sum).sum =
      ((range (n*m)).map fun b => w (b/m) (b%m)).sum := by
  have hloops := congrArg sum (flatMap_range_mul (fun i j => [w i j]) n m)
  simp only [← map_eq_flatMap] at hloops
  rw [← hloops,flatMap_def,sum_flatten,map_map]
  rfl

theorem length_flatMap_const (hlen : ∀ k < n, (out k).length = width) :
    ((range n).flatMap out).length = width*n := by
  rw [length_flatMap,map_congr_left fun k hk => hlen k (mem_range.mp hk),map_const',
    sum_replicate_nat,length_range,mul_comm]

theorem getElem?_flatMap_range (hlen : ∀ k < n, (out k).length = width) (hb : b < n) (hr : r < width) :
    ((range n).flatMap out)[width*b+r]? = (out b)[r]? := by
  induction n with
  | zero => cases hb
  | succ n ih =>
    have hbefore : ((range n).flatMap out).length = width*n := length_flatMap_const fun k hk =>
      hlen k (lt_succ_of_lt hk)
    rw [range_succ,flatMap_append]
    simp only [flatMap_cons,flatMap_nil,append_nil]
    rcases Nat.lt_succ_iff_lt_or_eq.mp hb with hlt | rfl
    · have hpos : width*b+r < width*n := by
        calc width*b+r < width*b+width := Nat.add_lt_add_left hr _
          _ = width*(b+1) := (mul_succ width b).symm
          _ ≤ width*n := mul_le_mul_left width hlt
      rw [getElem?_append_left (hbefore ▸ hpos)]
      exact ih (fun k hk => hlen k (lt_succ_of_lt hk)) hlt
    · rw [getElem?_append_right (hbefore ▸ Nat.le_add_right _ _),hbefore,Nat.add_sub_cancel_left]

theorem flatMap_range_tile (h : Nat → α) {start : Nat → Nat} {count : Nat → Nat} (hzero : start 0 = 0)
    (hnext : ∀ b < n, start (b+1) = start b+count b) :
    ((range n).flatMap fun b => (range (count b)).map fun k => h (start b+k)) =
      (range (start n)).map h := by
  induction n with
  | zero => rw [hzero]; rfl
  | succ n ih =>
    rw [range_succ,flatMap_append,ih fun b hb => hnext b (lt_succ_of_lt hb),
      hnext n (lt_succ_self n),range_add,map_append,map_map]
    simp only [flatMap_cons,flatMap_nil,append_nil]
    rfl

theorem zip_flatMap_range {vals : Nat → List β} (hlen : ∀ b < n, (out b).length = (vals b).length) :
    ((range n).flatMap out).zip ((range n).flatMap vals) =
      (range n).flatMap fun b => (out b).zip (vals b) := by
  induction n with
  | zero => rfl
  | succ n ih =>
    have hbefore : ((range n).flatMap out).length = ((range n).flatMap vals).length := by
      rw [length_flatMap,length_flatMap]
      congr 1
      apply map_congr_left
      intro b hb
      exact hlen b (lt_succ_of_lt (mem_range.mp hb))
    simp only [range_succ,flatMap_append,flatMap_cons,flatMap_nil,append_nil]
    rw [zip_append hbefore,ih fun b hb => hlen b (lt_succ_of_lt hb)]

end Apollo.Foundation
