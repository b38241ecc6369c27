import Apollo.Modules.Map.PncMap.Path
import Mathlib.Data.List.GetD

/-! What the constructor of `PathApproximation` builds. A segment of the approximation and the part of the path that it
stands for. -/
namespace Apollo.Modules.Map.PncMap
open Common.Math List Nat List.IsChain

section Running
variable {α : Type} {r : α → α → Prop} {f : α → α → α} {p d : α} {ps : List α} {j k : Nat}

theorem isChain_scanl (h : ∀ a b, r a (f a b)) : (ps.scanl f p).IsChain r := by
  rw [isChain_iff_getElem]
  intro _ _
  rw [getElem_succ_scanl]
  exact h _ _

theorem rel_scanl (hrefl : ∀ a, r a a) (htrans : ∀ a b c, r a b → r b c → r a c) (hleft : ∀ a b, r a (f a b))
    (hright : ∀ a b, r b (f a b)) (hjk : j ≤ k) (hk : k < (p::ps).length) :
    r ((p::ps).getD j d) ((ps.scanl f p).getD k d) := by
  induction k, hjk using le_induction with
  | base =>
    have hj : j < (ps.scanl f p).length := by rwa [length_scanl]
    rw [getD_eq_getElem _ _ hk,getD_eq_getElem _ _ hj]
    cases j with
    | zero => simpa using hrefl p
    | succ =>
      rw [getElem_succ_scanl,getElem_cons_succ]
      exact hright _ _
  | succ k _ ih =>
    have hk' : k+1 < (ps.scanl f p).length := by rwa [length_scanl]
    refine htrans _ _ _ (ih (k.lt_succ_self.trans hk)) ?_
    rw [getD_eq_getElem _ _ (k.lt_succ_self.trans hk'),getD_eq_getElem _ _ hk',getElem_succ_scanl]
    exact hleft _ _

end Running

namespace PathApproximation
variable {K : Type} [LinearOrder K]

theorem minToRight_reverse (p : K) (ps : List K) : minToRight (p::ps).reverse = (ps.scanl min p).reverse := by
  rw [minToRight,reverse_reverse]

variable {ps : List K} {d : K} {k : Nat}

theorem le_maxToLeft {j : Nat} (hjk : j ≤ k) (hk : k < ps.length) : ps.getD j d ≤ (maxToLeft ps).getD k d := by
  cases ps with
  | nil => cases hk
  | cons => exact rel_scanl le_refl (fun _ _ _ => le_trans) le_max_left le_max_right hjk hk

theorem minToRight_le {j : Nat} (hjk : k ≤ j) (hj : j < ps.length) : (minToRight ps).getD k d ≤ ps.getD j d := by
  obtain ⟨qs,rfl⟩ : ∃ qs, ps = List.reverse qs := ⟨ps.reverse,ps.reverse_reverse.symm⟩
  rw [length_reverse] at hj
  cases qs with
  | nil => cases hj
  | cons p qs =>
    have hlength : (qs.scanl min p).length = (p::qs).length := length_scanl
    have hk := hjk.trans_lt hj
    rw [minToRight_reverse,getD_reverse k (hk.trans_eq hlength.symm),getD_reverse j hj,hlength]
    exact rel_scanl (r := fun a b => b ≤ a) le_refl (fun _ _ _ hab hbc => hbc.trans hab) min_le_left min_le_right
      (Nat.sub_le_sub_left hjk _) (by omega)

theorem isChain_maxToLeft (ps : List K) : (maxToLeft ps).IsChain (· ≤ ·) := by
  cases ps with
  | nil => exact nil
  | cons => exact isChain_scanl le_max_left

theorem isChain_minToRight (ps : List K) : (minToRight ps).IsChain (· ≤ ·) := by
  obtain ⟨qs,rfl⟩ : ∃ qs, ps = List.reverse qs := ⟨ps.reverse,ps.reverse_reverse.symm⟩
  cases qs with
  | nil => exact nil
  | cons =>
    rw [minToRight_reverse,isChain_reverse]
    exact isChain_scanl min_le_left

theorem ascending_of_isChain [Field K] [IsStrictOrderedRing K] (h : ps.IsChain (· ≤ ·)) : ascending ps = true := by
  have hpos : (0 : K) ≤ mathEpsilon := by
    rw [mathEpsilon]
    positivity
  induction h with
  | nil | singleton => rfl
  | cons_cons hle _ ih =>
    rw [ascending,tail_cons,zip_cons_cons,all_cons]
    exact Bool.and_eq_true_iff.mpr ⟨decide_eq_true (hle.trans (le_add_of_nonneg_right hpos)),ih⟩

section Dilute
variable {within : Nat → Nat → Bool} {numOriginalPoints lastIdx : Nat}

def Follower (within : Nat → Nat → Bool) (numOriginalPoints lastIdx nextIdx : Nat) : Prop :=
  lastIdx < nextIdx ∧ nextIdx < numOriginalPoints ∧ within lastIdx nextIdx = true

variable {delta nextIdx : Nat}

theorem widen_follower (h : Follower within numOriginalPoints lastIdx nextIdx) :
    Follower within numOriginalPoints lastIdx (widen within numOriginalPoints lastIdx delta nextIdx).1 := by
  fun_induction widen with
  | case1 delta nextIdx hdelta hwithin ih => exact ih ⟨by omega,hdelta.2,hwithin⟩
  | case2 | case3 => exact h

theorem narrow_follower (h : Follower within numOriginalPoints lastIdx nextIdx) :
    Follower within numOriginalPoints lastIdx (narrow within numOriginalPoints lastIdx delta nextIdx) := by
  fun_induction narrow with
  | case1 delta nextIdx hdelta ih =>
    apply ih
    split
    next hnext =>
      obtain ⟨hlt,hwithin⟩ := Bool.and_eq_true_iff.mp hnext
      exact ⟨h.1.trans_le (le_add_right nextIdx delta),of_decide_eq_true hlt,hwithin⟩
    next => exact h
  | case2 => exact h

variable (hnext : ∀ i, within i (i+1) = true)
include hnext

theorem diluteFrom_spec (h : lastIdx < numOriginalPoints) : ∃ ids,
    diluteFrom within numOriginalPoints lastIdx = lastIdx::ids ∧
    (lastIdx::ids).IsChain (Follower within numOriginalPoints) ∧
    (lastIdx::ids).getLast? = some (numOriginalPoints - 1) := by
  fun_induction diluteFrom with
  | case1 lastIdx hlt ih =>
    have hfollower : Follower within numOriginalPoints lastIdx (nextId within numOriginalPoints lastIdx) :=
      narrow_follower (widen_follower ⟨lastIdx.lt_succ_self,by omega,hnext lastIdx⟩)
    obtain ⟨ids,heq,hchain,hlast⟩ := ih hfollower.2.1
    exact ⟨_,rfl,heq ▸ isChain_cons_cons.mpr ⟨hfollower,hchain⟩,heq ▸ hlast⟩
  | case2 lastIdx hlt =>
    refine ⟨[],rfl,singleton _,?_⟩
    rw [getLast?_singleton,Option.some.injEq]
    omega

end Dilute

section Lists
variable {α β : Type} {d : α}

theorem getD_zipWith_tail {f : α → α → β} {e : β} {l : List α} {i : Nat} (h : i+1 < l.length) :
    (List.zipWith f l l.tail).getD i e = f (l.getD i d) (l.getD (i+1) d) := by
  have htail : i < l.tail.length := by
    rw [length_tail]
    omega
  have hzip : i < (List.zipWith f l l.tail).length := by
    rw [length_zipWith]
    omega
  rw [getD_eq_getElem _ _ hzip,getElem_zipWith,getElem_tail,getD_eq_getElem _ _ h,
    getD_eq_getElem _ _ (i.lt_succ_self.trans h)]

variable {n k : Nat} {f : Nat → List α}

theorem le_of_succ_le {γ : Type} [Preorder γ] {f : Nat → γ} {i : Nat} (h : ∀ i < n, f i ≤ f (i+1)) (hik : i ≤ k)
    (hk : k ≤ n) : f i ≤ f k := by
  induction k, hik using le_induction with
  | base => exact le_rfl
  | succ k _ ih => exact (ih (k.le_succ.trans hk)).trans (h k hk)

theorem length_flatMap_range (offset : Nat → Nat) (hzero : offset 0 = 0)
    (hlength : ∀ i < n, offset i+(f i).length = offset (i+1)) : ((List.range n).flatMap f).length = offset n := by
  induction n with
  | zero => exact hzero.symm
  | succ n ih =>
    rw [range_succ,flatMap_append,length_append,ih fun i hi => hlength i (hi.trans n.lt_succ_self),
      flatMap_singleton,hlength n n.lt_succ_self]

theorem getD_flatMap_range (offset : Nat → Nat) {i j : Nat} (hzero : offset 0 = 0)
    (hlength : ∀ i < n, offset i+(f i).length = offset (i+1)) (hi : i < n) (hj : j < (f i).length) :
    ((List.range n).flatMap f).getD (offset i+j) d = (f i).getD j d := by
  induction n with
  | zero => cases hi
  | succ n ih =>
    have hlength' : ∀ i < n, offset i+(f i).length = offset (i+1) :=
      fun i hi => hlength i (hi.trans n.lt_succ_self)
    have hn := length_flatMap_range offset hzero hlength'
    rw [range_succ,flatMap_append,flatMap_singleton]
    rcases Nat.lt_succ_iff_lt_or_eq.mp hi with hlt | rfl
    · have hmono := le_of_succ_le (fun i hi => (le_add_right _ _).trans_eq (hlength' i hi)) hlt le_rfl
      have hle : offset i+j < offset n := (Nat.add_lt_add_left hj _).trans_le ((hlength' i hlt).trans_le hmono)
      rw [getD_append _ _ _ _ (hle.trans_eq hn.symm),ih hlength' hlt]
    · rw [getD_append_right _ _ _ _ (hn.trans_le (Nat.le_add_right _ _)),hn,Nat.add_sub_cancel_left]

end Lists

section Samples
variable {K : Type} [Field K] [LinearOrder K] {toLeft : List K}

theorem advance_spec (toLeft : List K) (bound index : Nat) (limit : K) : index ≤ advance toLeft bound limit index ∧
    (advance toLeft bound limit index = index ∨
      advance toLeft bound limit index ≤ bound ∧ toLeft.getD (advance toLeft bound limit index) 0 < limit) := by
  fun_induction advance with
  | case1 index h ih =>
    obtain ⟨hle,heq | hlt⟩ := ih
    · rw [heq]
      exact ⟨index.le_succ,.inr h⟩
    · exact ⟨index.le_succ.trans hle,.inr hlt⟩
  | case2 => exact ⟨le_rfl,.inl rfl⟩

/-- A sample is the first index or one of a point that is before the place of the sample. -/
theorem samples_spec [IsStrictOrderedRing K] {numOriginalPoints n lastIndex k : Nat} {proj : K} (hk : k < n) :
    (samples toLeft numOriginalPoints n proj lastIndex).getD k 0 = lastIndex ∨
    (samples toLeft numOriginalPoints n proj lastIndex).getD k 0 ≤ numOriginalPoints - 1 ∧
      toLeft.getD ((samples toLeft numOriginalPoints n proj lastIndex).getD k 0) 0 < proj+k*sampleDistance := by
  have hpos : (0 : K) < sampleDistance := by
    rw [sampleDistance]
    positivity
  induction n generalizing proj lastIndex k with
  | zero => cases hk
  | succ _ ih =>
    obtain ⟨-,hadvance⟩ := advance_spec toLeft (numOriginalPoints - 1) lastIndex proj
    rw [samples]
    cases k with
    | zero =>
      rw [getD_cons_zero,cast_zero,zero_mul,add_zero]
      exact hadvance
    | succ k =>
      rw [getD_cons_succ]
      have hplace : proj+sampleDistance+k*sampleDistance = proj+(k+1 : Nat)*sampleDistance := by
        rw [cast_succ]
        ring
      rcases ih (lt_of_succ_lt_succ hk) with heq | hlt
      · rw [heq]
        refine hadvance.imp_right fun h => ⟨h.1,h.2.trans ?_⟩
        exact lt_add_of_pos_right _ (mul_pos (cast_pos.mpr k.succ_pos) hpos)
      · rw [hplace] at hlt
        exact .inr hlt

end Samples

def idAt (a : PathApproximation K) (i : Nat) : Nat := a.originalIds.getD i 0

def projectionAt [Zero K] (a : PathApproximation K) (i : Nat) : K := a.projections.getD i 0

def originalAt [Zero K] (a : PathApproximation K) (j : Nat) : K := a.originalProjections.getD j 0

structure Built (path : Path ℝ) (maxError : ℝ) (a : PathApproximation ℝ) : Prop where
  maxError_eq : a.maxError = maxError
  id_zero : a.idAt 0 = 0
  id_last : a.idAt a.segments.length = path.pathPoints.length - 1
  follower : ∀ i < a.segments.length,
    Follower (isWithinMaxError .real path (maxError*maxError)) path.pathPoints.length (a.idAt i) (a.idAt (i+1))
  segment : ∀ i < a.segments.length,
    a.segmentAt .real i = .ofEnds .real (path.pointAt (a.idAt i)) (path.pointAt (a.idAt (i+1)))
  error : ∀ i < a.segments.length,
    a.maxErrorPerSegment.getD i 0 = computeMaxError .real path (a.idAt i) (a.idAt (i+1))
  projection_zero : a.projectionAt 0 = 0
  projection_succ : ∀ i < a.segments.length, a.projectionAt (i+1) = a.projectionAt i+(a.segmentAt .real i).length
  maxProjection_eq : a.maxProjection = a.projectionAt a.segments.length
  original_id : ∀ i ≤ a.segments.length, a.originalAt (a.idAt i) = a.projectionAt i
  original_inner : ∀ i < a.segments.length, ∀ j, a.idAt i < j → j < a.idAt (i+1) → a.originalAt j =
    a.projectionAt i+max 0 (min ((a.segmentAt .real i).projectOntoUnit (path.pointAt j)) (a.segmentAt .real i).length)
  toLeft : ∀ j k, j ≤ k → k < path.pathPoints.length → a.originalAt j ≤ a.maxOriginalProjectionsToLeft.getD k 0
  toRight : ∀ j k, k ≤ j → j < path.pathPoints.length → a.minOriginalProjectionsToRight.getD k 0 ≤ a.originalAt j
  numSamples : a.numProjectionSamples = ⌊a.maxProjection/sampleDistance⌋₊ + 1
  sampled : ∀ k < a.numProjectionSamples, a.sampledMaxOriginalProjectionsToLeft.getD k 0 = 0 ∨
    a.sampledMaxOriginalProjectionsToLeft.getD k 0 < path.pathPoints.length ∧
      a.maxOriginalProjectionsToLeft.getD (a.sampledMaxOriginalProjectionsToLeft.getD k 0) 0 < k*sampleDistance

structure Diluted (path : Path ℝ) (maxError : ℝ) (ids : List Nat) : Prop where
  zero : ids.getD 0 0 = 0
  two_le : 2 ≤ ids.length
  last : ids.getD (ids.length - 1) 0 = path.pathPoints.length - 1
  follower : ∀ i, i+1 < ids.length →
    Follower (isWithinMaxError .real path (maxError*maxError)) path.pathPoints.length (ids.getD i 0) (ids.getD (i+1) 0)

variable {path : Path ℝ} {maxError : ℝ} {ids : List Nat} {i j : Nat}

theorem dilute_diluted (hpoints : 2 ≤ path.pathPoints.length) : Diluted path maxError (dilute .real path maxError) := by
  have hnext : ∀ i, isWithinMaxError .real path (maxError*maxError) i (i+1) = true := fun i => if_pos le_rfl
  have hlt : 0 < path.pathPoints.length := by omega
  obtain ⟨ids,heq,hchain,hlast⟩ := diluteFrom_spec hnext hlt
  rw [dilute,heq]
  rw [getLast?_eq_getElem?] at hlast
  refine ⟨rfl,?_,?_,?_⟩
  · cases ids with
    | nil =>
      rw [length_singleton,Nat.sub_self,getElem?_cons_zero,Option.some.injEq] at hlast
      omega
    | cons => exact le_add_left _ _
  · rw [getD_eq_getElem?_getD,hlast,Option.getD_some]
  · intro i hi
    rw [getD_eq_getElem _ _ hi,getD_eq_getElem _ _ (i.lt_succ_self.trans hi)]
    exact isChain_iff_getElem.mp hchain i hi

theorem length_segmentsOf : (segmentsOf .real path ids).length = ids.length - 1 := by
  rw [segmentsOf,length_zipWith,length_tail]
  omega

theorem getD_projectionsOf_succ {segments : List (LineSegment2d ℝ)} {d : LineSegment2d ℝ} (hi : i < segments.length) :
    (projectionsOf segments).getD (i+1) 0 = (projectionsOf segments).getD i 0+(segments.getD i d).length := by
  have hlength : i+1 < (projectionsOf segments).length := by
    rw [projectionsOf,length_scanl,length_map]
    exact succ_lt_succ hi
  rw [getD_eq_getElem _ _ hlength,getD_eq_getElem _ _ (i.lt_succ_self.trans hlength),
    getD_eq_getElem _ _ hi]
  exact (getElem_succ_scanl hlength).trans (congrArg _ (getElem_map _))

theorem getLastD_projectionsOf (segments : List (LineSegment2d ℝ)) :
    (projectionsOf segments).getLastD 0 = (projectionsOf segments).getD segments.length 0 := by
  rw [getLastD_eq_getLast?,getLast?_eq_getElem?,getD_eq_getElem?_getD,projectionsOf,
    length_scanl,length_map,Nat.add_sub_cancel]

section Groups
variable (hids : Diluted path maxError ids) (projections : List ℝ)
include hids

theorem group_length (segment : LineSegment2d ℝ) (projection : ℝ) (hi : i+1 < ids.length) :
    ids.getD i 0+(groupProjections path segment projection (ids.getD i 0) (ids.getD (i+1) 0)).length =
      ids.getD (i+1) 0 := by
  have hlt := (hids.follower i hi).1
  rw [groupProjections,length_cons,length_map,indices,length_range']
  omega

theorem length_groups : ((List.range (segmentsOf .real path ids).length).flatMap fun i =>
    groupProjections path ((segmentsOf .real path ids).getD i (.ofEnds .real ⟨0,0⟩ ⟨0,0⟩)) (projections.getD i 0)
      (ids.getD i 0) (ids.getD (i+1) 0)).length = path.pathPoints.length - 1 := by
  rw [length_segmentsOf,length_flatMap_range (fun i => ids.getD i 0) hids.zero fun _ _ => group_length hids _ _ (by omega),
    hids.last]

theorem length_originalProjectionsOf :
    (originalProjectionsOf .real path ids (segmentsOf .real path ids) projections).length = path.pathPoints.length := by
  have htwo := hids.two_le
  have hlt := (hids.follower 0 htwo).2.1
  rw [originalProjectionsOf,length_append,length_groups hids projections,length_singleton]
  omega

theorem getD_originalProjectionsOf_group (hi : i+1 < ids.length) (hj : ids.getD i 0+j < ids.getD (i+1) 0) :
    (originalProjectionsOf .real path ids (segmentsOf .real path ids) projections).getD (ids.getD i 0+j) 0 =
      (groupProjections path ((segmentsOf .real path ids).getD i (.ofEnds .real ⟨0,0⟩ ⟨0,0⟩)) (projections.getD i 0)
        (ids.getD i 0) (ids.getD (i+1) 0)).getD j 0 := by
  have hlast := (hids.follower i hi).2.1
  have hsegments : i < (segmentsOf .real path ids).length := by
    rw [length_segmentsOf]
    omega
  have hgroup := group_length hids ((segmentsOf .real path ids).getD i (.ofEnds .real ⟨0,0⟩ ⟨0,0⟩))
    (projections.getD i 0) hi
  rw [originalProjectionsOf,getD_append _ _ _ _ (by rw [length_groups hids projections]; omega)]
  apply getD_flatMap_range (fun i => ids.getD i 0) hids.zero _ hsegments (by omega)
  intro _ hi
  rw [length_segmentsOf] at hi
  exact group_length hids _ _ (by omega)

theorem getD_originalProjectionsOf_inner (hi : i+1 < ids.length) (hj : ids.getD i 0 < j)
    (hj' : j < ids.getD (i+1) 0) :
    (originalProjectionsOf .real path ids (segmentsOf .real path ids) projections).getD j 0 =
      projections.getD i 0+max 0 (min
        (((segmentsOf .real path ids).getD i (.ofEnds .real ⟨0,0⟩ ⟨0,0⟩)).projectOntoUnit (path.pointAt j))
        ((segmentsOf .real path ids).getD i (.ofEnds .real ⟨0,0⟩ ⟨0,0⟩)).length) := by
  obtain ⟨k,rfl⟩ := Nat.exists_eq_add_of_lt hj
  rw [add_assoc] at hj' ⊢
  rw [getD_originalProjectionsOf_group hids projections hi hj',groupProjections,getD_cons_succ,indices,
    getD_eq_getElem?_getD,getElem?_map,getElem?_range' (by omega),Option.map_some,Option.getD_some,
    one_mul,add_right_comm,add_assoc]

theorem getD_originalProjectionsOf_last :
    (originalProjectionsOf .real path ids (segmentsOf .real path ids) projections).getD (path.pathPoints.length - 1) 0 =
      projections.getD (segmentsOf .real path ids).length 0 := by
  have hlength := length_groups hids projections
  rw [originalProjectionsOf,getD_append_right _ _ _ _ hlength.le,hlength,Nat.sub_self]
  rfl

end Groups

theorem init_built (maxError : ℝ) (hpoints : 2 ≤ path.pathPoints.length) :
    ∃ a, init .real path maxError = some a ∧ Built path maxError a := by
  have hids : Diluted path maxError (dilute .real path maxError) := dilute_diluted hpoints
  have hsegments : (segmentsOf .real path (dilute .real path maxError)).length = (dilute .real path maxError).length - 1 :=
    length_segmentsOf
  have hlt : ∀ i, i < (segmentsOf .real path (dilute .real path maxError)).length →
      i+1 < (dilute .real path maxError).length := fun i hi => by omega
  have hlength := length_originalProjectionsOf hids
    (projectionsOf (segmentsOf .real path (dilute .real path maxError)))
  refine ⟨_,if_pos (Bool.and_eq_true_iff.mpr
    ⟨ascending_of_isChain (isChain_maxToLeft _),ascending_of_isChain (isChain_minToRight _)⟩),?_⟩
  constructor
  case maxError_eq => rfl
  case id_zero => exact hids.zero
  case id_last => exact (congrArg _ hsegments).trans hids.last
  case follower => exact fun i hi => hids.follower i (hlt i hi)
  case segment => exact fun i hi => getD_zipWith_tail (hlt i hi)
  case error => exact fun i hi => getD_zipWith_tail (hlt i hi)
  case projection_zero => exact congrArg (Option.getD · 0) getElem?_scanl_zero
  case projection_succ => exact fun i hi => getD_projectionsOf_succ hi
  case maxProjection_eq => exact getLastD_projectionsOf _
  case original_id =>
    intro i hi
    rcases hi.lt_or_eq with hi | rfl
    · exact getD_originalProjectionsOf_group (j := 0) hids _ (hlt i hi) (hids.follower i (hlt i hi)).1
    · exact (congrArg _ ((congrArg _ hsegments).trans hids.last)).trans (getD_originalProjectionsOf_last hids _)
  case original_inner => exact fun i hi j hj hj' => getD_originalProjectionsOf_inner hids _ (hlt i hi) hj hj'
  case toLeft => exact fun j k hjk hk => le_maxToLeft hjk (hk.trans_eq hlength.symm)
  case toRight => exact fun _ k hjk hj => minToRight_le hjk (hj.trans_eq hlength.symm)
  case numSamples => rfl
  case sampled =>
    intro _ hk
    rcases samples_spec (K := ℝ) hk with hzero | ⟨hle,hlt⟩
    · exact .inl hzero
    · rw [zero_add] at hlt
      exact .inr ⟨lt_of_le_of_lt hle (by omega),hlt⟩

end PathApproximation

open Foundation LineSegment2d Real
variable {path : Path ℝ} {maxError : ℝ} {a : PathApproximation ℝ}

namespace Path

/-- A path with its segments, none of which is too short to have a direction. -/
structure Spaced (path : Path ℝ) : Prop where
  accumulatedS : path.accumulatedS.getD 0 0 = 0
  segments : path.segments = List.zipWith (ofEnds .real) path.pathPoints path.pathPoints.tail
  apart : ∀ i, i+1 < path.pathPoints.length →
    mathEpsilon < (ofEnds .real (path.pointAt i) (path.pointAt (i+1))).length

noncomputable def chain (path : Path ℝ) (j : Nat) : ℂ := (path.pointAt j).toComplex

noncomputable def distanceTo (path : Path ℝ) (point : Vec2d ℝ) (k : Nat) : ℝ :=
  (chord (path.pointAt k) (path.pointAt (k+1))).distance point.toComplex

variable {point : Vec2d ℝ} {k : Nat}

theorem Spaced.segmentAt (h : path.Spaced) (hk : k+1 < path.pathPoints.length) :
    path.segmentAt .real k = .ofEnds .real (path.pointAt k) (path.pointAt (k+1)) := by
  rw [Path.segmentAt,h.segments]
  exact PathApproximation.getD_zipWith_tail hk

theorem Spaced.numSegments (h : path.Spaced) : path.numSegments = path.pathPoints.length - 1 := by
  rw [Path.numSegments,h.segments,length_zipWith,length_tail]
  omega

section Link
variable (h : path.Spaced) (hk : k+1 < path.pathPoints.length)
include h hk

theorem Spaced.distanceTo_le {y : ℂ} (hy : y ∈ segment ℝ (path.chain k) (path.chain (k+1))) :
    path.distanceTo point k ≤ ‖point.toComplex - y‖ :=
  distance_le_of_mem_segment (not_le.mpr (h.apart k hk)) hy

theorem Spaced.distanceTo_eq (point : Vec2d ℝ) : ∃ y ∈ segment ℝ (path.chain k) (path.chain (k+1)),
    path.distanceTo point k = ‖point.toComplex - y‖ :=
  ⟨_,foot_mem_segment (not_le.mpr (h.apart k hk)) _,rfl⟩

end Link
end Path

namespace PathApproximation

theorem mem_indices {first last k : Nat} : k ∈ indices first last ↔ first ≤ k ∧ k < last := by
  rw [indices,mem_range'_1]
  omega

variable {α : Type} {f : α → ℝ} {l : List α} {b c : ℝ}

theorem le_foldl_max : b ≤ l.foldl (fun b x => max b (f x)) b ∧ ∀ x ∈ l, f x ≤ l.foldl (fun b x => max b (f x)) b := by
  induction l generalizing b with
  | nil => exact ⟨le_rfl,fun _ h => (not_mem_nil h).elim⟩
  | cons y _ ih =>
    have hl := ih (b := max b (f y))
    refine ⟨(le_max_left _ _).trans hl.1,?_⟩
    intro x hx
    rcases mem_cons.mp hx with rfl | hx
    · exact (le_max_right _ _).trans hl.1
    · exact hl.2 x hx

theorem foldl_max_le (hb : b ≤ c) (h : ∀ x ∈ l, f x ≤ c) : l.foldl (fun b x => max b (f x)) b ≤ c := by
  induction l generalizing b with
  | nil => exact hb
  | cons y _ ih =>
    exact ih (max_le hb (h y mem_cons_self)) fun x hx => h x (mem_cons_of_mem y hx)

section Error
variable {s t k : Nat}

theorem computeMaxError_nonneg : 0 ≤ computeMaxError .real path s t := by
  rw [computeMaxError]
  split
  · exact le_rfl
  · exact sqrt_nonneg _

theorem distance_le_computeMaxError (hk : s < k) (hk' : k < t) :
    (chord (path.pointAt s) (path.pointAt t)).distance (path.chain k) ≤ computeMaxError .real path s t := by
  rw [computeMaxError,if_neg (by omega)]
  apply le_sqrt_of_sq_le
  rw [Path.chain,← distanceSquareTo_eq]
  exact (le_foldl_max (f := fun i => (ofEnds .real (path.pointAt s) (path.pointAt t)).distanceSquareTo
    (path.pointAt i))).2 k (mem_indices.mpr ⟨hk,hk'⟩)

theorem computeMaxError_le (hpos : 0 < maxError) (h : isWithinMaxError .real path (maxError*maxError) s t = true) :
    computeMaxError .real path s t ≤ maxError := by
  rw [computeMaxError]
  split
  next => exact hpos.le
  next hlt =>
    rw [isWithinMaxError,if_neg hlt,all_eq_true] at h
    refine sqrt_le_iff.mpr ⟨hpos.le,?_⟩
    rw [sq]
    exact foldl_max_le (mul_nonneg hpos.le hpos.le) fun k hk => of_decide_eq_true (h k hk)

end Error

noncomputable def chordAt (path : Path ℝ) (a : PathApproximation ℝ) (i : Nat) : Chord ℂ :=
  chord (path.pointAt (a.idAt i)) (path.pointAt (a.idAt (i+1)))

def Short (path : Path ℝ) (a : PathApproximation ℝ) (i : Nat) : Prop :=
  (ofEnds .real (path.pointAt (a.idAt i)) (path.pointAt (a.idAt (i+1)))).length ≤ mathEpsilon

noncomputable def errorAt (path : Path ℝ) (a : PathApproximation ℝ) (i : Nat) : ℝ :=
  computeMaxError .real path (a.idAt i) (a.idAt (i+1))

section Group
variable (hb : Built path maxError a) {i : Nat} (hi : i < a.segments.length)
include hb

variable {j first last : Nat}

theorem firstSegmentIdx_spec {limit : ℝ} (hlimit : 0 ≤ limit) (hlt : first < last)
    (hlast : last < path.pathPoints.length) (hmax : ∀ j, first ≤ j → j ≤ last → a.originalAt j ≤ a.maxProjection) :
    first ≤ a.firstSegmentIdx limit first last ∧ a.firstSegmentIdx limit first last ≤ last ∧
    (a.firstSegmentIdx limit first last = first ∨
      ∀ j, first ≤ j → j ≤ a.firstSegmentIdx limit first last → a.originalAt j < limit) := by
  have hsample : (0 : ℝ) < sampleDistance := by
    rw [sampleDistance]
    positivity
  rw [firstSegmentIdx]
  split
  next hbeyond =>
    refine ⟨hlt.le,le_rfl,.inr fun j hj hj' => (hmax j hj hj').trans_lt ?_⟩
    rw [hb.numSamples] at hbeyond
    have hfloor := (Nat.lt_floor_add_one (a.maxProjection/sampleDistance)).trans_le
      ((Nat.cast_succ _).symm.trans_le ((Nat.cast_le.mpr hbeyond).trans
        (Nat.floor_le (div_nonneg hlimit hsample.le))))
    exact (div_lt_div_iff_of_pos_right hsample).mp hfloor
  next hwithin =>
    -- A sample that is not the first point has a place that is not after the limit.
    obtain ⟨sample,hsampled⟩ : ∃ sample,
        sample = a.sampledMaxOriginalProjectionsToLeft.getD ⌊limit/sampleDistance⌋₊ 0 := ⟨_,rfl⟩
    have hleft : sample = 0 ∨ ∀ j, j ≤ sample → a.originalAt j < limit := by
      rcases hb.sampled _ (not_le.mp hwithin) with hzero | ⟨hbound,hbefore⟩
      · exact .inl (hsampled.trans hzero)
      · rw [← hsampled] at hbound hbefore
        have hplace := (le_div_iff₀ hsample).mp (Nat.floor_le (div_nonneg hlimit hsample.le))
        exact .inr fun j hj => ((hb.toLeft j sample hj hbound).trans_lt hbefore).trans_le hplace
    rw [← hsampled]
    dsimp only
    split
    next hpast =>
      rcases hleft with hzero | hleft
      · omega
      · exact ⟨hlt.le,le_rfl,.inr fun j _ _ => hleft j (by omega)⟩
    next hbefore =>
      obtain ⟨hle,hadvance⟩ := advance_spec a.maxOriginalProjectionsToLeft last (max first sample) limit
      refine ⟨(le_max_left _ _).trans hle,?_⟩
      rcases hadvance with heq | ⟨hbound,hlimit'⟩
      · rw [heq]
        refine ⟨(not_le.mp hbefore).le,?_⟩
        rcases hleft with hzero | hleft
        · exact .inl (by omega)
        · rcases max_choice first sample with hmax | hmax
          · exact .inl hmax
          · exact .inr fun j _ hj => hleft j (hj.trans_eq hmax)
      · refine ⟨hbound,.inr fun j _ hj => ?_⟩
        exact (hb.toLeft j _ hj (hbound.trans_lt hlast)).trans_lt hlimit'

variable (h : path.Spaced)
include h hi

theorem degenerate_lt (hzero : Short path a i) : a.idAt i+1 < a.idAt (i+1) := by
  obtain ⟨hlt,hlast,-⟩ := hb.follower i hi
  rcases (Nat.succ_le_of_lt hlt).lt_or_eq with hlt | heq
  · exact hlt
  · rw [← heq] at hlast
    rw [Short,← heq] at hzero
    exact absurd (h.apart _ hlast) (not_lt.mpr hzero)

theorem follows : (chordAt path a i).Follows path.chain (a.idAt i) (a.idAt (i+1)) (errorAt path a i) := by
  obtain ⟨hlt,hlast,-⟩ := hb.follower i hi
  have hnonneg : 0 ≤ errorAt path a i := computeMaxError_nonneg
  have hfirst : (chordAt path a i).distance (path.chain (a.idAt i)) ≤ errorAt path a i :=
    distance_start.trans_le hnonneg
  by_cases hzero : Short path a i
  · refine ⟨hlt,rfl,.inl (unitDirection_zero _ _ hzero),fun k hk hk' => ?_⟩
    rcases hk.lt_or_eq with hk | rfl
    · rcases hk'.lt_or_eq with hk' | rfl
      · exact distance_le_computeMaxError hk hk'
      · -- The first inner point is farther from the start than the end is.
        have hinner := degenerate_lt hb hi h hzero
        calc (chordAt path a i).distance (path.chain (a.idAt (i+1))) ≤ mathEpsilon :=
              (distance_of_short hzero).trans_le hzero
          _ ≤ (chordAt path a i).distance (path.chain (a.idAt i+1)) :=
              (h.apart _ (hinner.trans hlast)).le.trans_eq (distance_of_short hzero).symm
          _ ≤ errorAt path a i := distance_le_computeMaxError (a.idAt i).lt_succ_self hinner
    · exact hfirst
  · refine ⟨hlt,rfl,.inr (place_end hzero),fun _ hk hk' => ?_⟩
    rcases hk.lt_or_eq with hk | rfl
    · rcases hk'.lt_or_eq with hk' | rfl
      · exact distance_le_computeMaxError hk hk'
      · exact (distance_end hzero).trans_le hnonneg
    · exact hfirst

omit h in
theorem projectionAt_le_succ : a.projectionAt i ≤ a.projectionAt (i+1) := by
  rw [hb.projection_succ i hi,hb.segment i hi,ofEnds_length]
  exact le_add_of_nonneg_right (norm_nonneg _)

omit h in
theorem projectionAt_nonneg : 0 ≤ a.projectionAt i :=
  hb.projection_zero.ge.trans (le_of_succ_le (fun _ hk => projectionAt_le_succ hb hk) i.zero_le hi.le)

section
variable (hone : ¬Short path a i)
include hone

omit h in
theorem originalAt_eq (hj : a.idAt i ≤ j) (hj' : j ≤ a.idAt (i+1)) :
    a.originalAt j = a.projectionAt i+(chordAt path a i).place (path.chain j) := by
  rcases hj.lt_or_eq with hj | rfl
  · rcases hj'.lt_or_eq with hj' | rfl
    · rw [hb.original_inner i hi j hj hj',hb.segment i hi,projectOntoUnit_eq]
      rfl
    · rw [hb.original_id _ hi,hb.projection_succ i hi,hb.segment i hi]
      exact congrArg _ (place_end hone).symm
  · rw [hb.original_id _ hi.le,show (chordAt path a i).place (path.chain (a.idAt i)) = 0 from place_start, add_zero]

omit h in
theorem originalAt_le (hj : a.idAt i ≤ j) (hj' : j ≤ a.idAt (i+1)) : a.originalAt j ≤ a.maxProjection := by
  have hsucc : a.projectionAt (i+1) ≤ a.projectionAt a.segments.length :=
    le_of_succ_le (fun _ hk => projectionAt_le_succ hb hk) hi le_rfl
  rw [originalAt_eq hb hi hone hj hj',hb.maxProjection_eq]
  refine le_trans ?_ hsucc
  rw [hb.projection_succ i hi,hb.segment i hi]
  exact add_le_add le_rfl Chord.clamp_le

end

section Window
variable {point : Vec2d ℝ} {bound : ℝ} (hnear : (chordAt path a i).distance point.toComplex < bound)
variable {window : ℝ}

theorem lt_norm_add_error {k : Nat} {y : ℂ} (hone : ¬Short path a i) (hwindow : 0 ≤ window)
    (hbound : bound^2 - square ((a.segmentAt .real i).productOntoUnit point) = window^2) (hk : a.idAt i ≤ k)
    (hk' : k < a.idAt (i+1))
    (hout : (a.originalAt k < a.projectionAt i+((a.segmentAt .real i).projectOntoUnit point - window) ∧
        a.originalAt (k+1) < a.projectionAt i+((a.segmentAt .real i).projectOntoUnit point - window)) ∨
      (a.projectionAt i+(a.segmentAt .real i).projectOntoUnit point+window < a.originalAt k ∧
        a.projectionAt i+(a.segmentAt .real i).projectOntoUnit point+window < a.originalAt (k+1)))
    (hy : y ∈ segment ℝ (path.chain k) (path.chain (k+1))) : bound < ‖point.toComplex - y‖ + errorAt path a i := by
  rw [hb.segment i hi,square_productOntoUnit hone] at hbound
  rw [hb.segment i hi,projectOntoUnit_eq,originalAt_eq hb hi hone hk hk'.le,
    originalAt_eq hb hi hone (hk.trans k.le_succ) hk',add_lt_add_iff_left,add_lt_add_iff_left,add_assoc,
    add_lt_add_iff_left,add_lt_add_iff_left] at hout
  exact (follows hb hi h).lt_norm_add_error (unitDirection_norm _ _ hone) hwindow hbound hk hk' hout hy

omit h in
theorem originalAt_of_short (hzero : Short path a i) {j : Nat} (hj : a.idAt i ≤ j) (hj' : j < a.idAt (i+1)) :
    a.originalAt j = a.projectionAt i := by
  rcases hj.lt_or_eq with hj | rfl
  · have hlength : 0 ≤ (ofEnds .real (path.pointAt (a.idAt i)) (path.pointAt (a.idAt (i+1)))).length :=
      (chordAt path a i).length_nonneg
    rw [hb.original_inner i hi j hj hj',hb.segment i hi,projectOntoUnit_of_short hzero,
      min_eq_left hlength,max_self,add_zero]
  · exact hb.original_id i hi.le

/-- What the scan of a group leaves out is out of reach. -/
structure Leaves (path : Path ℝ) (a : PathApproximation ℝ) (point : Vec2d ℝ) (bound : ℝ) (i first : Nat)
    (maxOriginalProjection : Option ℝ) : Prop where
  le : a.idAt i ≤ first
  lt : first < a.idAt (i+1)
  before : ∀ k, a.idAt i ≤ k → k < first → bound < path.distanceTo point k+errorAt path a i
  after : ∀ p ∈ maxOriginalProjection, ∀ stop, a.idAt i ≤ stop → stop < a.idAt (i+1) →
    p < a.minOriginalProjectionsToRight.getD stop 0 →
    bound < ‖point.toComplex - path.chain stop‖ + errorAt path a i ∧
      ∀ k, stop ≤ k → k < a.idAt (i+1) → bound < path.distanceTo point k+errorAt path a i

omit h in
theorem leaves_of_short (hwindow : 0 ≤ window) (hzero : Short path a i) :
    Leaves path a point bound i (a.idAt i) (some (a.projectionAt i+0+window)) := by
  obtain ⟨hlt,hlast,-⟩ := hb.follower i hi
  refine ⟨le_rfl,hlt,fun _ hk hk' => absurd hk (not_le.mpr hk'),?_⟩
  intro _ hp stop hstop hstop' hright
  cases Option.mem_some.mp hp
  have hle := hb.toRight stop stop le_rfl (hstop'.trans hlast)
  rw [originalAt_of_short hb hi hzero hstop hstop'] at hle
  exact absurd (hright.trans_le hle) (by linarith)

theorem leaves_of_window {first : Nat} (hone : ¬Short path a i) (hwindow : 0 ≤ window)
    (hbound : bound^2 - square ((a.segmentAt .real i).productOntoUnit point) = window^2) (hle : a.idAt i ≤ first)
    (hlt : first < a.idAt (i+1)) (hfirst : first = a.idAt i ∨ ∀ j, a.idAt i ≤ j → j ≤ first →
      a.originalAt j < a.projectionAt i+((a.segmentAt .real i).projectOntoUnit point - window)) :
    Leaves path a point bound i first
      (some (a.projectionAt i+(a.segmentAt .real i).projectOntoUnit point+window)) := by
  obtain ⟨-,_,-⟩ := hb.follower i hi
  refine ⟨hle,hlt,?_,?_⟩
  · intro k hk hk'
    rcases hfirst with rfl | hfirst
    · exact absurd hk (not_le.mpr hk')
    · obtain ⟨y,hy,heq⟩ := h.distanceTo_eq (by omega : k+1 < path.pathPoints.length) point
      rw [heq]
      exact lt_norm_add_error hb hi h hone hwindow hbound hk (by omega)
        (.inl ⟨hfirst k hk hk'.le,hfirst (k+1) (by omega) hk'⟩) hy
  · intro _ hp stop hstop hstop' hright
    cases Option.mem_some.mp hp
    have hout : ∀ j, stop ≤ j → j ≤ a.idAt (i+1) →
        a.projectionAt i+(a.segmentAt .real i).projectOntoUnit point+window < a.originalAt j :=
      fun j hj _ => hright.trans_le (hb.toRight j stop hj (by omega))
    refine ⟨?_,?_⟩
    · exact lt_norm_add_error hb hi h hone hwindow hbound hstop hstop'
        (.inr ⟨hout stop le_rfl hstop'.le,hout (stop+1) stop.le_succ hstop'⟩) (left_mem_segment ℝ _ _)
    · intro k hk hk'
      obtain ⟨y,hy,heq⟩ := h.distanceTo_eq (by omega : k+1 < path.pathPoints.length) point
      rw [heq]
      exact lt_norm_add_error hb hi h hone hwindow hbound (hstop.trans hk) hk'
        (.inr ⟨hout k hk hk'.le,hout (k+1) (by omega) hk'⟩) hy

include hnear in
theorem window_spec : ∃ first maxOriginalProjection,
    a.window .real point (bound^2) i = some (first, a.idAt (i+1) - 1, maxOriginalProjection) ∧
      Leaves path a point bound i first maxOriginalProjection := by
  obtain ⟨hlt,_,-⟩ := hb.follower i hi
  by_cases hgroup : a.idAt i < a.idAt (i+1) - 1
  · have hprod : square ((a.segmentAt .real i).productOntoUnit point) < bound^2 := by
      rw [hb.segment i hi]
      exact square_productOntoUnit_le.trans_lt (pow_lt_pow_left₀ hnear Chord.distance_nonneg two_ne_zero)
    obtain ⟨window,hsqrt⟩ : ∃ window,
        window = sqrt (bound^2 - square ((a.segmentAt .real i).productOntoUnit point)) := ⟨_,rfl⟩
    have hwindow : 0 ≤ window := hsqrt ▸ sqrt_nonneg _
    have hbound : bound^2 - square ((a.segmentAt .real i).productOntoUnit point) = window^2 := by
      rw [hsqrt,sq_sqrt (sub_nonneg.mpr hprod.le)]
    have hsome : a.window .real point (bound^2) i = some
        (if 0 < (a.segmentAt .real i).projectOntoUnit point - window then
          a.firstSegmentIdx (a.projectionAt i+((a.segmentAt .real i).projectOntoUnit point - window)) (a.idAt i)
            (a.idAt (i+1) - 1)
          else a.idAt i, a.idAt (i+1) - 1,
          some (a.projectionAt i+(a.segmentAt .real i).projectOntoUnit point+window)) := by
      rw [hsqrt]
      exact (if_pos hgroup).trans (if_neg (not_le.mpr hprod))
    refine ⟨_,_,hsome,?_⟩
    by_cases hone : Short path a i
    · rw [hb.segment i hi,projectOntoUnit_of_short hone,if_neg (by linarith)]
      exact leaves_of_short hb hi hwindow hone
    · split
      next hmin =>
        obtain ⟨hle,_,hfirst⟩ := firstSegmentIdx_spec hb
          (add_nonneg (projectionAt_nonneg hb hi) hmin.le) hgroup (by omega)
          fun _ hj _ => originalAt_le hb hi hone hj (by omega)
        exact leaves_of_window hb hi h hone hwindow hbound hle (by omega) hfirst
      next => exact leaves_of_window hb hi h hone hwindow hbound le_rfl hlt (.inl rfl)
  · refine ⟨a.idAt i,none,if_neg hgroup,le_rfl,hlt,fun _ hk hk' => absurd hk (not_le.mpr hk'),?_⟩
    intro _ hp
    cases hp

end Window
end Group
end PathApproximation

end Apollo.Modules.Map.PncMap
