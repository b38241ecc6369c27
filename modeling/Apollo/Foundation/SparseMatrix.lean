import Apollo.Foundation.Numerals
import Mathlib.Algebra.BigOperators.Group.Finset.Basic
import Mathlib.Tactic.Ring

/-! Matrices in compressed sparse columns. They are assembled by appending entries to a vector of columns,
which is stored column by column at the end. -/
namespace Apollo.Foundation
open List
variable {K M : Type}

/-- A vector of columns. The entries of a column are its rows and values. -/
abbrev Columns (K : Type) := List (List (Nat × K))

structure Entry (K : Type) where
  col : Nat
  row : Nat
  value : K

namespace Columns

def emplaceBack (columns : Columns K) (e : Entry K) : Columns K :=
  columns.modify e.col fun column => column ++ [(e.row, e.value)]

def emplaceAll (columns : Columns K) (es : List (Entry K)) : Columns K := es.foldl emplaceBack columns

theorem length_emplaceBack (columns : Columns K) (e : Entry K) :
    (columns.emplaceBack e).length = columns.length := length_modify ..

theorem length_emplaceAll (columns : Columns K) (es : List (Entry K)) :
    (columns.emplaceAll es).length = columns.length := by
  induction es generalizing columns with
  | nil => rfl
  | cons e _ ih => exact (ih _).trans (length_emplaceBack columns e)

section Sum
variable [AddCommMonoid M] (f : Nat → Nat → K → M)

/-- A sum over all entries, each with its row and column, from column `j` on. -/
def sumFrom : Nat → Columns K → M
  | _, [] => 0
  | j, column::columns => (column.map fun e => f e.1 j e.2).sum+sumFrom (j+1) columns

def sum (columns : Columns K) : M := columns.sumFrom f 0

theorem sumFrom_modify (columns : Columns K) (j : Nat) (e : Entry K) (h : e.col < columns.length) :
    sumFrom f j (columns.emplaceBack e) = sumFrom f j columns+f e.row (j+e.col) e.value := by
  obtain ⟨col,row,value⟩ := e
  induction columns generalizing j col with
  | nil => cases h
  | cons column columns ih =>
    cases col with
    | zero =>
      change ((column ++ [(row, value)]).map fun e => f e.1 j e.2).sum+sumFrom f (j+1) columns = _
      rw [map_append,sum_append,map_singleton,sum_singleton,add_right_comm]
      rfl
    | succ col =>
      have htail := ih (j+1) col (Nat.lt_of_succ_lt_succ h)
      rw [Nat.add_right_comm] at htail
      change (column.map fun e => f e.1 j e.2).sum+sumFrom f (j+1) (emplaceBack columns ⟨col,row,value⟩) = _
      rw [htail,← add_assoc]
      rfl

variable {columns : Columns K}

theorem sum_emplaceBack {e : Entry K} (h : e.col < columns.length) :
    (columns.emplaceBack e).sum f = columns.sum f+f e.row e.col e.value := by
  have hsum := sumFrom_modify f columns 0 e h
  rwa [Nat.zero_add] at hsum

/-- The sum over the assembled columns is one over the entries in the order of assembly. -/
theorem sum_emplaceAll {es : List (Entry K)} (h : ∀ e ∈ es, e.col < columns.length) :
    (columns.emplaceAll es).sum f = columns.sum f+(es.map fun e => f e.row e.col e.value).sum := by
  induction es generalizing columns with
  | nil => exact (add_zero _).symm
  | cons e es ih =>
    have hcol := h e mem_cons_self
    have hlen : ∀ e' ∈ es, e'.col < (columns.emplaceBack e).length := by
      intro e' he'
      rw [length_emplaceBack]
      exact h e' (mem_cons_of_mem e he')
    rw [emplaceAll,foldl_cons]
    change ((columns.emplaceBack e).emplaceAll es).sum f = _
    rw [ih hlen,sum_emplaceBack f hcol,map_cons,sum_cons,add_assoc]

theorem sumFrom_replicate (n j : Nat) : sumFrom f j (replicate n ([] : List (Nat × K))) = 0 := by
  induction n generalizing j with
  | zero => rfl
  | succ _ ih =>
    rw [replicate_succ,sumFrom,ih,map_nil,sum_nil,add_zero]

theorem sum_replicate (n : Nat) : sum f (replicate n ([] : List (Nat × K))) = 0 := sumFrom_replicate f n 0

theorem sumFrom_append (j : Nat) (xs ys : Columns K) :
    sumFrom f j (xs ++ ys) = sumFrom f j xs+sumFrom f (j+xs.length) ys := by
  induction xs generalizing j with
  | nil => exact (zero_add _).symm
  | cons _ xs ih =>
    have hpos : j+1+xs.length = j+(xs.length+1) := by omega
    rw [cons_append,sumFrom,ih,sumFrom,length_cons,hpos,add_assoc]

theorem sumFrom_map_range (j n : Nat) (c : Nat → List (Nat × K)) :
    sumFrom f j ((range n).map c) = ∑ k ∈ Finset.range n, ((c k).map fun e => f e.1 (j+k) e.2).sum := by
  induction n with
  | zero => rfl
  | succ n ih =>
    have hlast : sumFrom f (j+n) [c n] = ((c n).map fun e => f e.1 (j+n) e.2).sum := add_zero _
    rw [range_succ,map_append,sumFrom_append,ih,length_map,length_range,map_singleton, hlast,Finset.sum_range_succ]

theorem sumFrom_flatMap_range (c : Nat → Columns K) (start : Nat → Nat) {n : Nat}
    (hnext : ∀ b < n, start (b+1) = start b+(c b).length) :
    sumFrom f (start 0) ((range n).flatMap c) = ∑ b ∈ Finset.range n, sumFrom f (start b) (c b) := by
  suffices h : sumFrom f (start 0) ((range n).flatMap c) = ∑ b ∈ Finset.range n, sumFrom f (start b) (c b) ∧
      start 0+((range n).flatMap c).length = start n from h.1
  induction n with
  | zero => exact ⟨rfl,rfl⟩
  | succ n ih =>
    obtain ⟨hsum,hlen⟩ := ih fun b hb => hnext b (Nat.lt_succ_of_lt hb)
    simp only [range_succ,flatMap_append,flatMap_cons,flatMap_nil,append_nil]
    constructor
    · rw [sumFrom_append,hsum,hlen,Finset.sum_range_succ]
    · rw [length_append,← Nat.add_assoc,hlen,hnext n (Nat.lt_succ_self n)]

theorem sumFrom_map {L : Type} (g : K → L) (f : Nat → Nat → L → M) (j : Nat) (columns : Columns K) :
    sumFrom f j (map (map fun e => (e.1, g e.2)) columns) =
      sumFrom (fun i j v => f i j (g v)) j columns := by
  induction columns generalizing j with
  | nil => rfl
  | cons _ _ ih =>
    rw [map_cons,sumFrom,sumFrom,ih,map_map]
    rfl

end Sum

def RowsBelow (bound : Nat) (column : List (Nat × K)) : Prop :=
  (column.map Prod.fst).Pairwise (· < ·) ∧ ∀ e ∈ column, e.1 < bound

variable {bound bound' row : Nat} {column : List (Nat × K)}

theorem RowsBelow.mono (h : RowsBelow bound column) (hle : bound ≤ bound') : RowsBelow bound' column :=
  ⟨h.1,fun e he => (h.2 e he).trans_le hle⟩

theorem RowsBelow.append (h : RowsBelow bound column) (v : K) : RowsBelow (bound+1) (column ++ [(bound, v)]) := by
  constructor
  · rw [map_append,pairwise_append]
    refine ⟨h.1,pairwise_singleton _ _,?_⟩
    intro _ hi k hk
    obtain ⟨e,he,rfl⟩ := mem_map.mp hi
    obtain rfl : k = bound := by simpa using hk
    exact h.2 e he
  · intro e he
    rcases mem_append.mp he with hold | hnew
    · exact Nat.lt_succ_of_lt (h.2 e hold)
    · obtain rfl := mem_singleton.mp hnew
      exact Nat.lt_succ_self bound

theorem rowsBelow_emplaceAll {columns : Columns K} {es : List (Entry K)} (hrow : ∀ e ∈ es, e.row = row)
    (hcols : (es.map Entry.col).Nodup) (hkept : ∀ column ∈ columns, RowsBelow (row+1) column)
    (hfresh : ∀ e ∈ es, ∀ column, columns[e.col]? = some column → RowsBelow row column) :
    ∀ column ∈ columns.emplaceAll es, RowsBelow (row+1) column := by
  induction es generalizing columns with
  | nil => exact hkept
  | cons e _ ih =>
    obtain ⟨hnot,hnodup⟩ := nodup_cons.mp hcols
    apply ih (fun e' he' => hrow e' (mem_cons_of_mem e he')) hnodup
    · -- the changed column gets the row as its last
      intro _ hmem
      obtain ⟨j,hj⟩ := mem_iff_getElem?.mp hmem
      rw [emplaceBack,getElem?_modify] at hj
      obtain ⟨old,hold,rfl⟩ := Option.map_eq_some_iff.mp hj
      split
      case isTrue heq =>
        subst heq
        rw [hrow e mem_cons_self]
        exact (hfresh e mem_cons_self old hold).append e.value
      case isFalse => exact hkept old (mem_of_getElem? hold)
    · intro e' he' _ hcolumn
      have hne : e.col ≠ e'.col := by
        intro heq
        exact hnot (heq ▸ mem_map_of_mem he')
      rw [emplaceBack,getElem?_modify] at hcolumn
      obtain ⟨old,hold,rfl⟩ := Option.map_eq_some_iff.mp hcolumn
      rw [if_neg hne]
      exact hfresh e' (mem_cons_of_mem e he') old hold

end Columns

structure Csc (K : Type) where
  data : List K
  indices : List Nat
  indptr : List Nat
  deriving DecidableEq

namespace Csc

/-- The positions at which the columns begin, and the end. -/
def indptrFrom : Nat → Columns K → List Nat
  | pos, [] => [pos]
  | pos, column::columns => pos::indptrFrom (pos+column.length) columns

def ofColumns (columns : Columns K) : Csc K where
  data := columns.flatten.map Prod.snd
  indices := columns.flatten.map Prod.fst
  indptr := indptrFrom 0 columns

/-- The entries of a column as a reader of the format finds them. -/
def column (m : Csc K) (j : Nat) : List (Nat × K) :=
  ((m.indices.zip m.data).take (m.indptr.getD (j+1) 0)).drop (m.indptr.getD j 0)

def columns (m : Csc K) : Columns K := (range (m.indptr.length - 1)).map m.column

theorem length_indptrFrom (pos : Nat) (columns : Columns K) : (indptrFrom pos columns).length = columns.length+1 := by
  induction columns generalizing pos with
  | nil => rfl
  | cons _ _ ih => rw [indptrFrom,length_cons,ih,length_cons]

theorem getD_indptrFrom (pos : Nat) (columns : Columns K) (j : Nat) (h : j ≤ columns.length) :
    (indptrFrom pos columns).getD j 0 = pos+((columns.map length).take j).sum := by
  induction columns generalizing pos j with
  | nil =>
    obtain rfl : j = 0 := Nat.le_zero.mp h
    rfl
  | cons _ _ ih =>
    cases j with
    | zero => rfl
    | succ j =>
      rw [indptrFrom,getD_cons_succ,ih _ j (Nat.le_of_succ_le_succ h),map_cons,take_succ_cons, sum_cons,Nat.add_assoc]

variable {columns xs : Columns K}

theorem indptrFrom_append_const {width : Nat} (h : ∀ x ∈ xs, x.length = width) (pos : Nat) (ys : Columns K) :
    indptrFrom pos (xs ++ ys) =
      (range xs.length).map (fun k => pos+width*k) ++ indptrFrom (pos+width*xs.length) ys := by
  induction xs generalizing pos with
  | nil => rfl
  | cons x xs ih =>
    have hx := h x mem_cons_self
    rw [cons_append,indptrFrom,ih (fun y hy => h y (mem_cons_of_mem x hy)),hx,length_cons,
      range_succ_eq_map,map_cons,map_map,cons_append,Nat.mul_zero,Nat.add_zero,Nat.mul_succ,
      Nat.add_comm (width*xs.length),← Nat.add_assoc]
    congr 2
    apply map_congr_left
    intro k _
    rw [Function.comp_apply,Nat.mul_succ,Nat.add_comm (width*k),Nat.add_assoc]

theorem column_ofColumns {j : Nat} (h : j < columns.length) : (ofColumns columns).column j = columns[j] := by
  change (((columns.flatten.map Prod.fst).zip (columns.flatten.map Prod.snd)).take
    ((indptrFrom 0 columns).getD (j+1) 0)).drop ((indptrFrom 0 columns).getD j 0) = _
  rw [← zip_of_prod rfl rfl,getD_indptrFrom 0 columns (j+1) h,getD_indptrFrom 0 columns j h.le,Nat.zero_add,Nat.zero_add]
  exact drop_take_succ_flatten_eq_getElem columns j h

/-- A reader finds the columns that were stored. -/
theorem columns_ofColumns (columns : Columns K) : (ofColumns columns).columns = columns := by
  have hlen : (ofColumns columns).indptr.length - 1 = columns.length := by
    change (indptrFrom 0 columns).length - 1 = _
    rw [length_indptrFrom,Nat.add_sub_cancel]
  apply ext_getElem
  · rw [Csc.columns.eq_def,length_map,length_range,hlen]
  · intro _ _ h
    simp only [Csc.columns]
    rw [getElem_map,getElem_range,column_ofColumns h]

structure WellFormed (m : Csc K) (rows cols : Nat) : Prop where
  length : m.indptr.length = cols+1
  first : m.indptr.head? = some 0
  ascending : m.indptr.Pairwise (· ≤ ·)
  last : m.indptr.getLast? = some m.data.length
  paired : m.indices.length = m.data.length
  increasing : ∀ j < cols, ((m.column j).map Prod.fst).Pairwise (· < ·)
  below : ∀ i ∈ m.indices, i < rows

theorem le_of_mem_indptrFrom {pos i : Nat} (h : i ∈ indptrFrom pos columns) : pos ≤ i := by
  induction columns generalizing pos with
  | nil => exact (mem_singleton.mp h).ge
  | cons _ _ ih =>
    rcases mem_cons.mp h with rfl | htail
    · exact le_rfl
    · exact (Nat.le_add_right pos _).trans (ih htail)

theorem pairwise_indptrFrom (pos : Nat) (columns : Columns K) : (indptrFrom pos columns).Pairwise (· ≤ ·) := by
  induction columns generalizing pos with
  | nil => exact pairwise_singleton _ _
  | cons _ _ ih =>
    refine pairwise_cons.mpr ⟨fun _ hi => ?_,ih _⟩
    exact (Nat.le_add_right pos _).trans (le_of_mem_indptrFrom hi)

theorem getLast?_indptrFrom (pos : Nat) (columns : Columns K) :
    (indptrFrom pos columns).getLast? = some (pos+columns.flatten.length) := by
  induction columns generalizing pos with
  | nil => rfl
  | cons _ _ ih =>
    rw [indptrFrom,getLast?_cons,ih,flatten_cons,length_append,Nat.add_assoc]
    rfl

theorem wellFormed_ofColumns {rows : Nat} (h : ∀ column ∈ columns, Columns.RowsBelow rows column) :
    (ofColumns columns).WellFormed rows columns.length where
  length := length_indptrFrom 0 columns
  first := by cases columns <;> rfl
  ascending := pairwise_indptrFrom 0 columns
  last := by
    change (indptrFrom 0 columns).getLast? = some (columns.flatten.map Prod.snd).length
    rw [getLast?_indptrFrom,Nat.zero_add,length_map]
  paired := by
    change (columns.flatten.map Prod.fst).length = (columns.flatten.map Prod.snd).length
    rw [length_map,length_map]
  increasing := by
    intro _ hj
    rw [column_ofColumns hj]
    exact (h _ (getElem_mem hj)).1
  below := by
    intro _ hi
    obtain ⟨e,he,rfl⟩ := mem_map.mp hi
    obtain ⟨column,hcolumn,hmem⟩ := mem_flatten.mp he
    exact (h column hcolumn).2 e hmem

section Meaning
variable [CommSemiring K]

def mulVec (m : Csc K) (z : Nat → K) (i : Nat) : K :=
  m.columns.sum fun row col value => if row = i then value*z col else 0

/-- What an entry adds to `z' P z` if only the entries on and above the diagonal of a symmetric matrix are used. -/
def upperTerm (z : Nat → K) (row col : Nat) (value : K) : K :=
  if row = col then value*(z row*z row) else if row < col then 2*value*(z row*z col) else 0

/-- `z' P z` for a symmetric matrix of which only the entries on and above the diagonal are used. -/
def upperForm (m : Csc K) (z : Nat → K) : K := m.columns.sum (upperTerm z)

theorem mulVec_ofColumns (columns : Columns K) (z : Nat → K) (i : Nat) : (ofColumns columns).mulVec z i =
      columns.sum fun row col value => if row = i then value*z col else 0 := by
  rw [mulVec,columns_ofColumns]

theorem upperForm_ofColumns (columns : Columns K) (z : Nat → K) :
    (ofColumns columns).upperForm z = columns.sum (upperTerm z) := by
  rw [upperForm,columns_ofColumns]

theorem upperTerm_diagonal (z : Nat → K) (i : Nat) (value : K) : upperTerm z i i value = value*(z i*z i) := if_pos rfl

theorem upperTerm_below (z : Nat → K) {row col : Nat} (h : col < row) (value : K) : upperTerm z row col value = 0 := by
  rw [upperTerm,if_neg h.ne',if_neg h.asymm]

theorem upperTerm_mul (z : Nat → K) (row col : Nat) (value factor : K) :
    upperTerm z row col (value*factor) = factor*upperTerm z row col value := by
  unfold upperTerm
  split
  · ring
  · split
    · ring
    · rw [mul_zero]

end Meaning
end Csc

/-- A linear constraint. The terms are columns and coefficients. -/
structure Constraint (K : Type) where
  terms : List (Nat × K)
  lower : K
  upper : K

/-- A constraint matrix on its way: `index` is the next row. -/
structure Assembly (K : Type) where
  columns : Columns K
  lowerBounds : List K
  upperBounds : List K
  index : Nat

namespace Assembly

/-- Each term goes into its column, the bounds are set, and the index is incremented. -/
def add (s : Assembly K) (c : Constraint K) : Assembly K where
  columns := s.columns.emplaceAll (c.terms.map fun term => ⟨term.1,s.index,term.2⟩)
  lowerBounds := s.lowerBounds.set s.index c.lower
  upperBounds := s.upperBounds.set s.index c.upper
  index := s.index+1

def addAll (s : Assembly K) (cs : List (Constraint K)) : Assembly K := cs.foldl add s

/-- `for (int i = 0; i < count; ++i)` with one constraint in each round. -/
def addRange (s : Assembly K) (count : Nat) (c : Nat → Constraint K) : Assembly K :=
  (range count).foldl (fun s i => s.add (c i)) s

theorem addRange_eq (s : Assembly K) (count : Nat) (c : Nat → Constraint K) :
    s.addRange count c = s.addAll ((range count).map c) := by
  rw [addRange,addAll,foldl_map]

theorem addAll_addAll (s : Assembly K) (cs ds : List (Constraint K)) :
    (s.addAll cs).addAll ds = s.addAll (cs ++ ds) := foldl_append.symm

def start [Zero K] (numCols numRows : Nat) : Assembly K :=
  ⟨replicate numCols [],replicate numRows 0,replicate numRows 0,0⟩

section Add
variable (s : Assembly K) (cs : List (Constraint K))

theorem index_addAll : (s.addAll cs).index = s.index+cs.length := by
  induction cs generalizing s with
  | nil => rfl
  | cons c cs ih =>
    change ((s.add c).addAll cs).index = _
    rw [ih,length_cons,Nat.add_comm cs.length,← Nat.add_assoc]
    rfl

theorem length_columns_addAll : (s.addAll cs).columns.length = s.columns.length := by
  induction cs generalizing s with
  | nil => rfl
  | cons _ _ ih => exact (ih _).trans (Columns.length_emplaceAll ..)

section Bounds
variable {bounds : Assembly K → List K} {bound : Constraint K → K} {done rest : List K}
variable (hadd : ∀ s c, bounds (s.add c) = (bounds s).set s.index (bound c))
include hadd

theorem length_bounds_addAll : (bounds (s.addAll cs)).length = (bounds s).length := by
  induction cs generalizing s with
  | nil => rfl
  | cons _ _ ih => exact (ih _).trans (by rw [hadd,length_set])

theorem bounds_addAll (hs : bounds s = done ++ rest) (hi : s.index = done.length) (hlen : cs.length ≤ rest.length) :
    bounds (s.addAll cs) = done ++ cs.map bound ++ rest.drop cs.length := by
  induction cs generalizing s done rest with
  | nil => rw [map_nil,append_nil,length_nil,drop_zero,← hs]; rfl
  | cons c _ ih =>
    cases rest with
    | nil => cases hlen
    | cons _ rest =>
      have hset : bounds (s.add c) = (done ++ [bound c]) ++ rest := by
        rw [hadd,hs,hi,set_append_right _ _ le_rfl,Nat.sub_self,append_assoc]
        rfl
      have hnext : (s.add c).index = (done ++ [bound c]).length := by
        rw [length_append,← hi]
        rfl
      have htail := ih (s.add c) hset hnext (Nat.le_of_succ_le_succ hlen)
      rw [append_assoc done] at htail
      exact htail

theorem bounds_addAll_replicate {k : K} (hs : bounds s = replicate cs.length k) (hi : s.index = 0) :
    bounds (s.addAll cs) = cs.map bound := by
  have h := bounds_addAll s cs hadd (hs.trans (nil_append _).symm) hi length_replicate.ge
  rwa [drop_of_length_le length_replicate.le,append_nil,nil_append] at h

end Bounds

theorem sum_addAll [AddCommMonoid M] (f : Nat → Nat → K → M)
    (hcols : ∀ c ∈ cs, ∀ term ∈ c.terms, term.1 < s.columns.length) :
    (s.addAll cs).columns.sum f = s.columns.sum f +
      ((cs.zipIdx s.index).map fun c => (c.1.terms.map fun term => f c.2 term.1 term.2).sum).sum := by
  induction cs generalizing s with
  | nil => exact (add_zero _).symm
  | cons c cs ih =>
    have hc : ∀ e ∈ c.terms.map (fun term => (⟨term.1,s.index,term.2⟩ : Entry K)), e.col < s.columns.length := by
      intro _ he
      obtain ⟨term,hterm,rfl⟩ := mem_map.mp he
      exact hcols c mem_cons_self term hterm
    have hlen : (s.add c).columns.length = s.columns.length := Columns.length_emplaceAll ..
    have hhead : (s.add c).columns.sum f = s.columns.sum f+(c.terms.map fun term => f s.index term.1 term.2).sum := by
      rw [add,Columns.sum_emplaceAll f hc,map_map]
      rfl
    change ((s.add c).addAll cs).columns.sum f = _
    rw [ih (s.add c) fun d hd term ht => hlen ▸ hcols d (mem_cons_of_mem c hd) term ht,hhead,
      zipIdx_cons,map_cons,sum_cons,add_assoc]
    rfl

theorem rowsBelow_addAll (hs : ∀ column ∈ s.columns, Columns.RowsBelow s.index column)
    (hcs : ∀ c ∈ cs, (c.terms.map Prod.fst).Nodup) :
    ∀ column ∈ (s.addAll cs).columns, Columns.RowsBelow (s.index+cs.length) column := by
  induction cs generalizing s with
  | nil => exact hs
  | cons c cs ih =>
    have hc : ∀ column ∈ (s.add c).columns, Columns.RowsBelow (s.index+1) column := by
      apply Columns.rowsBelow_emplaceAll
      · intro _ he
        obtain ⟨_,_,rfl⟩ := mem_map.mp he
        rfl
      · rw [map_map]
        exact hcs c mem_cons_self
      · intro column hcolumn
        exact (hs column hcolumn).mono (Nat.le_succ _)
      · intro _ _ column hcolumn
        exact hs column (mem_of_getElem? hcolumn)
    have htail := ih (s.add c) hc fun d hd => hcs d (mem_cons_of_mem c hd)
    rw [length_cons,Nat.add_comm cs.length,← Nat.add_assoc]
    exact htail

end Add

end Assembly

section Satisfies
variable [CommSemiring K]

def Constraint.value (c : Constraint K) (z : Nat → K) : K := (c.terms.map fun term => term.2*z term.1).sum

theorem sum_zipIdx_single {α : Type} [AddCommMonoid M] (g : α → M) (l : List α) (k i : Nat) (h : i < l.length) :
    ((l.zipIdx k).map fun a => if a.2 = k+i then g a.1 else 0).sum = g l[i] := by
  induction l generalizing k i with
  | nil => cases h
  | cons _ l ih =>
    rw [zipIdx_cons,map_cons,sum_cons]
    cases i with
    | zero =>
      have htail : ((l.zipIdx (k+1)).map fun b => if b.2 = k+0 then g b.1 else 0).sum = 0 := by
        apply sum_eq_zero
        intro _ hm
        obtain ⟨b,hb,rfl⟩ := mem_map.mp hm
        have hle := le_snd_of_mem_zipIdx hb
        exact if_neg (by omega)
      rw [htail,add_zero]
      exact if_pos rfl
    | succ i =>
      have htail := ih (k+1) i (Nat.lt_of_succ_lt_succ h)
      rw [Nat.add_assoc,Nat.add_comm 1] at htail
      rw [htail,if_neg (by omega),zero_add]
      rfl

variable {cs : List (Constraint K)} {numCols numRows : Nat}

/-- Each row of the product is the value of its constraint. -/
theorem mulVec_addAll (hcols : ∀ c ∈ cs, ∀ term ∈ c.terms, term.1 < numCols) (z : Nat → K) (i : Nat)
    (hi : i < cs.length) :
    (Csc.ofColumns ((Assembly.start numCols numRows).addAll cs).columns).mulVec z i = cs[i].value z := by
  have hlen : ((Assembly.start numCols numRows : Assembly K).columns).length = numCols := length_replicate
  rw [Csc.mulVec_ofColumns,Assembly.sum_addAll _ cs _ (hlen.symm ▸ hcols)]
  change Columns.sum _ (replicate numCols [])+_ = _
  rw [Columns.sum_replicate,zero_add,← sum_zipIdx_single (fun c => c.value z) cs 0 i hi]
  congr 1
  apply map_congr_left
  intro c _
  rw [Nat.zero_add]
  by_cases h : c.2 = i
  · simp only [h,if_true]
    rfl
  · simp only [h,if_false]
    exact sum_eq_zero fun _ hm => by
      obtain ⟨_,_,rfl⟩ := mem_map.mp hm
      rfl

variable [LE K]

def Satisfies (m : Csc K) (lower upper : List K) (z : Nat → K) : Prop :=
  ∀ i < lower.length, lower.getD i 0 ≤ m.mulVec z i ∧ m.mulVec z i ≤ upper.getD i 0

/-- The assembled matrix and bounds say what the constraints say. -/
theorem satisfies_addAll (hcols : ∀ c ∈ cs, ∀ term ∈ c.terms, term.1 < numCols) (z : Nat → K) :
    let s := (Assembly.start numCols cs.length).addAll cs
    Satisfies (Csc.ofColumns s.columns) s.lowerBounds s.upperBounds z ↔
      ∀ c ∈ cs, c.lower ≤ c.value z ∧ c.value z ≤ c.upper := by
  intro s
  have hlower : s.lowerBounds = cs.map Constraint.lower := Assembly.bounds_addAll_replicate _ cs (fun _ _ => rfl) rfl rfl
  have hupper : s.upperBounds = cs.map Constraint.upper := Assembly.bounds_addAll_replicate _ cs (fun _ _ => rfl) rfl rfl
  have hrow (i : Nat) (hi : i < cs.length) : s.lowerBounds.getD i 0 = cs[i].lower ∧
      s.upperBounds.getD i 0 = cs[i].upper ∧ (Csc.ofColumns s.columns).mulVec z i = cs[i].value z := by
    refine ⟨?_,?_,mulVec_addAll hcols z i hi⟩
    · rw [hlower,getD_eq_getElem?_getD,getElem?_eq_getElem (by rwa [length_map]),Option.getD_some,getElem_map]
    · rw [hupper,getD_eq_getElem?_getD,getElem?_eq_getElem (by rwa [length_map]),Option.getD_some,getElem_map]
  rw [Satisfies,hlower,length_map,← hlower]
  constructor
  · intro h _ hc
    obtain ⟨i,hi,rfl⟩ := mem_iff_getElem.mp hc
    obtain ⟨hl,hu,hv⟩ := hrow i hi
    have hbounds := h i hi
    rwa [hl,hu,hv] at hbounds
  · intro h i hi
    obtain ⟨hl,hu,hv⟩ := hrow i hi
    rw [hl,hu,hv]
    exact h cs[i] (getElem_mem hi)

end Satisfies

section Dense
variable [CommSemiring K]

def dot (q : List K) (z : Nat → K) : K := (q.zipIdx.map fun e => e.1*z e.2).sum

/-- `q[i] += value` for each pair in order. -/
def addAllAt (q : List K) (terms : List (Nat × K)) : List K :=
  terms.foldl (fun q term => q.modify term.1 (· + term.2)) q

theorem dot_modify (q : List K) (z : Nat → K) (i : Nat) (value : K) (h : i < q.length) :
    dot (q.modify i (· + value)) z = dot q z+value*z i := by
  suffices hfrom : ∀ k, (((q.modify i (· + value)).zipIdx k).map fun e => e.1*z e.2).sum =
      ((q.zipIdx k).map fun e => e.1*z e.2).sum+value*z (k+i) by
    have hzero := hfrom 0
    rwa [Nat.zero_add] at hzero
  induction q generalizing i with
  | nil => cases h
  | cons _ _ ih =>
    intro k
    cases i with
    | zero =>
      simp only [modify_zero_cons,zipIdx_cons,map_cons,sum_cons,Nat.add_zero]
      ring
    | succ i =>
      simp only [modify_succ_cons,zipIdx_cons,map_cons,sum_cons]
      rw [ih i (Nat.lt_of_succ_lt_succ h) (k+1),show k+1+i = k+(i+1) by omega,add_assoc]

theorem dot_addAllAt (q : List K) (terms : List (Nat × K)) (z : Nat → K) (h : ∀ term ∈ terms, term.1 < q.length) :
    dot (addAllAt q terms) z = dot q z+(terms.map fun term => term.2*z term.1).sum := by
  induction terms generalizing q with
  | nil => exact (add_zero _).symm
  | cons term terms ih =>
    have hlen : ∀ t ∈ terms, t.1 < (q.modify term.1 (· + term.2)).length := by
      intro t ht
      rw [length_modify]
      exact h t (mem_cons_of_mem term ht)
    change dot (addAllAt (q.modify term.1 (· + term.2)) terms) z = _
    rw [ih _ hlen,dot_modify q z term.1 term.2 (h term mem_cons_self),map_cons,sum_cons,add_assoc]

theorem dot_replicate_zero (n : Nat) (z : Nat → K) : dot (replicate n 0) z = 0 := by
  apply sum_eq_zero
  intro _ hv
  obtain ⟨e,he,rfl⟩ := mem_map.mp hv
  have hzero := eq_of_mem_replicate (fst_mem_of_mem_zipIdx he)
  rw [hzero,zero_mul]

end Dense
end Apollo.Foundation
