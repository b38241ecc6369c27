import Apollo.Modules.Common.Math.LineSegment2d
import Mathlib.Algebra.Order.Floor.Defs

/-! `Path` and `PathApproximation` with exact arithmetic: the points of a path, the coarser path with the tables of
`InitProjections`, the projection of a point with and without it, the look-up of an `s`, and the lane segments of a
range. -/
namespace Apollo.Modules.Map.PncMap
open Common.Math LineSegment2d List Option

structure PathApproximation (K : Type) where
  maxError : K
  originalIds : List Nat
  segments : List (LineSegment2d K)
  maxErrorPerSegment : List K
  projections : List K
  maxProjection : K
  numProjectionSamples : Nat
  originalProjections : List K
  maxOriginalProjectionsToLeft : List K
  minOriginalProjectionsToRight : List K
  sampledMaxOriginalProjectionsToLeft : List Nat

structure Path (K : Type) where
  pathPoints : List (Vec2d K)
  accumulatedS : List K
  segments : List (LineSegment2d K)
  length : K
  approximation : Option (PathApproximation K)

structure Projection (K : Type) where
  accumulateS : K
  lateral : K
  minDistance : K

variable {K : Type}

/-- The smallest distance so far with its index. It starts with infinity. -/
abbrev Nearest (K : Type) := Option (Nat × K)

namespace PathApproximation

/-- The variables of the loop over the segments of the path. `min_distance_updated` tells whether the nearest
one has changed. -/
structure Scan (K : Type) where
  nearest : Nearest K
  minDistanceUpdated : Bool
  isWithinEndPoint : Bool

end PathApproximation

namespace Path

structure InterpolatedIndex (K : Type) where
  id : Int
  offset : K

structure LaneSegment (ι K : Type) where
  lane : ι
  startS : K
  endS : K

end Path

variable [Field K] [LinearOrder K] (m : Cmath K)

namespace Nearest

def record (nearest : Nearest K) (idx : Nat) (distance : K) : Nearest K :=
  if nearest.all fun e => distance < e.2 then some (idx, distance) else nearest

def find (distances : List K) : Nearest K := distances.zipIdx.foldl (fun nearest e => nearest.record e.2 e.1) none

end Nearest

namespace Path

/-- `accumulated_s_` of `InitPoints`. -/
def accumulate : K → List (Vec2d K) → List K
  | _, [] => []
  | s, [_] => [s]
  | s, p::q::points => s::accumulate (s+(q.sub p).length m) (q::points)

/-- The constructor from points, up to the approximation. `none` is a failed check. -/
def init (pathPoints : List (Vec2d K)) : Option (Path K) :=
  if pathPoints.length < 2 then none
  else
    let accumulatedS := accumulate m 0 pathPoints
    some ⟨pathPoints,accumulatedS,List.zipWith (ofEnds m) pathPoints pathPoints.tail, accumulatedS.getLastD 0,none⟩

variable (path : Path K)

def pointAt (i : Nat) : Vec2d K := path.pathPoints.getD i ⟨0,0⟩

def segmentAt (i : Nat) : LineSegment2d K := path.segments.getD i (.ofEnds m ⟨0,0⟩ ⟨0,0⟩)

def numSegments : Nat := path.segments.length

def projectOnto (point : Vec2d K) (minIndex : Nat) (minDistance : K) : Projection K :=
  let nearestSeg := path.segmentAt m minIndex
  let prod := nearestSeg.productOntoUnit point
  let proj := nearestSeg.projectOntoUnit point
  let side := (if 0 < prod then 1 else -1)*minDistance
  if minIndex = 0 then
    ⟨min proj nearestSeg.length,if proj < 0 then prod else side,minDistance⟩
  else if minIndex = path.numSegments - 1 then
    ⟨path.accumulatedS.getD minIndex 0+max 0 proj,if 0 < proj then prod else side,minDistance⟩
  else ⟨path.accumulatedS.getD minIndex 0+max 0 (min proj nearestSeg.length),side,minDistance⟩

def scanProjection (point : Vec2d K) : Option (Projection K) :=
  (Nearest.find (path.segments.map (·.distanceSquareTo point))).map fun e =>
    path.projectOnto m point e.1 (m.sqrt e.2)

end Path

namespace PathApproximation
variable (path : Path K)

def indices (first last : Nat) : List Nat := List.range' first (last - first)

def computeMaxError (s t : Nat) : K :=
  if t ≤ s+1 then 0
  else
    let segment := ofEnds m (path.pointAt s) (path.pointAt t)
    m.sqrt ((indices (s+1) t).foldl
      (fun maxDistanceSqr i => max maxDistanceSqr (segment.distanceSquareTo (path.pointAt i))) 0)

def isWithinMaxError (maxSqrError : K) (s t : Nat) : Bool :=
  if t ≤ s+1 then true
  else
    let segment := ofEnds m (path.pointAt s) (path.pointAt t)
    (indices (s+1) t).all fun i => segment.distanceSquareTo (path.pointAt i) ≤ maxSqrError

section Dilute
variable (within : Nat → Nat → Bool) (numOriginalPoints lastIdx : Nat)

def widen (delta nextIdx : Nat) : Nat × Nat :=
  if 0 < delta ∧ lastIdx+delta < numOriginalPoints then
    if within lastIdx (lastIdx+delta) then widen (delta*2) (lastIdx+delta) else (nextIdx, delta)
  else (nextIdx, delta)
termination_by numOriginalPoints - delta

/-- The loop that halves `delta`. -/
def narrow (delta nextIdx : Nat) : Nat :=
  if 0 < delta then
    narrow (delta/2)
      (if nextIdx+delta < numOriginalPoints && within lastIdx (nextIdx+delta) then nextIdx+delta else nextIdx)
  else nextIdx
termination_by delta

def nextId : Nat :=
  let widened := widen within numOriginalPoints lastIdx 2 (lastIdx+1)
  narrow within numOriginalPoints lastIdx widened.2 widened.1

theorem le_widen {delta nextIdx : Nat} (h : lastIdx < nextIdx) :
    lastIdx < (widen within numOriginalPoints lastIdx delta nextIdx).1 := by
  fun_induction widen with
  | case1 delta nextIdx hdelta _ ih => exact ih (by omega)
  | case2 | case3 => exact h

theorem le_narrow {delta nextIdx : Nat} : nextIdx ≤ narrow within numOriginalPoints lastIdx delta nextIdx := by
  fun_induction narrow with
  | case1 delta nextIdx hdelta ih =>
    refine le_trans ?_ ih
    split
    · exact Nat.le_add_right nextIdx delta
    · exact le_rfl
  | case2 => exact le_rfl

theorem lt_nextId : lastIdx < nextId within numOriginalPoints lastIdx :=
  (le_widen within numOriginalPoints lastIdx lastIdx.lt_succ_self).trans_le (le_narrow ..)

def diluteFrom (lastIdx : Nat) : List Nat :=
  if lastIdx < numOriginalPoints - 1 then
    lastIdx::diluteFrom (nextId within numOriginalPoints lastIdx)
  else [lastIdx]
termination_by numOriginalPoints - lastIdx
decreasing_by
  have := lt_nextId within numOriginalPoints lastIdx
  omega

end Dilute

/-- The greatest one of the first elements, for each element. -/
def maxToLeft : List K → List K
  | [] => []
  | p::ps => ps.scanl max p

/-- The least one of the elements from each one on. -/
def minToRight (ps : List K) : List K :=
  match ps.reverse with
  | [] => []
  | p::ps => (ps.scanl min p).reverse

def ascending (ps : List K) : Bool := (ps.zip ps.tail).all fun e => e.1 ≤ e.2+mathEpsilon

/-- The inner loops that go on to the next point as long as it is before the limit. -/
def advance (toLeft : List K) (bound : Nat) (limit : K) (index : Nat) : Nat :=
  if index < bound ∧ toLeft.getD (index+1) 0 < limit then advance toLeft bound limit (index+1) else index
termination_by bound - index

def sampleDistance : K := 1/4

def samples (toLeft : List K) (numOriginalPoints : Nat) : Nat → K → Nat → List Nat
  | 0, _, _ => []
  | n+1, proj, lastIndex =>
    let lastIndex := advance toLeft (numOriginalPoints - 1) proj lastIndex
    lastIndex::samples toLeft numOriginalPoints n (proj+sampleDistance) lastIndex

/-- The `original_ids_` of `InitDilute`. -/
def dilute (maxError : K) : List Nat :=
  diluteFrom (isWithinMaxError m path (maxError*maxError)) path.pathPoints.length 0

def segmentsOf (ids : List Nat) : List (LineSegment2d K) :=
  List.zipWith (fun s t => ofEnds m (path.pointAt s) (path.pointAt t)) ids ids.tail

def projectionsOf (segments : List (LineSegment2d K)) : List K := (segments.map (·.length)).scanl (· + ·) 0

def groupProjections (segment : LineSegment2d K) (projection : K) (first last : Nat) : List K :=
  projection::(indices (first+1) last).map fun idx =>
    projection+max 0 (min (segment.projectOntoUnit (path.pointAt idx)) segment.length)

def originalProjectionsOf (ids : List Nat) (segments : List (LineSegment2d K)) (projections : List K) : List K :=
  ((List.range segments.length).flatMap fun i =>
    groupProjections path (segments.getD i (.ofEnds m ⟨0,0⟩ ⟨0,0⟩)) (projections.getD i 0) (ids.getD i 0)
      (ids.getD (i+1) 0)) ++ [projections.getD segments.length 0]

variable [FloorSemiring K]

/-- The constructor. `none` is a failed check. -/
def init (maxError : K) : Option (PathApproximation K) :=
  let originalIds := dilute m path maxError
  let segments := segmentsOf m path originalIds
  let projections := projectionsOf segments
  let originalProjections := originalProjectionsOf m path originalIds segments projections
  let toLeft := maxToLeft originalProjections
  let toRight := minToRight originalProjections
  let maxProjection := projections.getLastD 0
  let numProjectionSamples := ⌊maxProjection/sampleDistance⌋₊ + 1
  if ascending toLeft && ascending toRight then
    some ⟨maxError,originalIds,segments,List.zipWith (computeMaxError m path) originalIds originalIds.tail,
      projections,maxProjection,numProjectionSamples,originalProjections,toLeft,toRight,
      samples toLeft path.pathPoints.length numProjectionSamples 0 0⟩
  else none

variable (approximation : PathApproximation K) (point : Vec2d K)

def segmentAt (i : Nat) : LineSegment2d K := approximation.segments.getD i (.ofEnds m ⟨0,0⟩ ⟨0,0⟩)

def firstSegmentIdx (limit : K) (firstSegmentIdx lastSegmentIdx : Nat) : Nat :=
  let sampleIndex := ⌊limit/sampleDistance⌋₊
  if approximation.numProjectionSamples ≤ sampleIndex then lastSegmentIdx
  else
    let first := max firstSegmentIdx (approximation.sampledMaxOriginalProjectionsToLeft.getD sampleIndex 0)
    if lastSegmentIdx ≤ first then lastSegmentIdx
    else advance approximation.maxOriginalProjectionsToLeft lastSegmentIdx limit first

def Scan.update (scan : Scan K) (idx : Nat) (distance : K) (isWithinEndPoint : Bool) : Scan K :=
  if scan.nearest.all fun e => distance < e.2 then ⟨some (idx, distance),true,isWithinEndPoint⟩
  else { scan with isWithinEndPoint }

/-- The body of the loop over the segments of the path, after the break. -/
def visit (lastSegmentIdx idx : Nat) (scan : Scan K) : Scan K :=
  let segment := path.segmentAt m idx
  let x0 := point.x - segment.start.x
  let y0 := point.y - segment.start.y
  let ux := segment.unitDirection.x
  let uy := segment.unitDirection.y
  let proj := x0*ux+y0*uy
  if proj < 0 then
    if scan.isWithinEndPoint then scan else scan.update idx (m.hypot x0 y0) true
  else if proj ≤ segment.length then scan.update idx |x0*uy - y0*ux| true
  else if idx ≠ lastSegmentIdx then { scan with isWithinEndPoint := false }
  else scan.update idx (segment.end_.distanceTo m point) false

/-- The loop over the segments of the path. No greatest projection is infinity. -/
def scanSegments (maxOriginalProjection : Option K) (lastSegmentIdx : Nat) : List Nat → Scan K → Scan K
  | [], scan => scan
  | idx::rest, scan =>
    if maxOriginalProjection.any fun p => p < approximation.minOriginalProjectionsToRight.getD idx 0 then scan
    else scanSegments maxOriginalProjection lastSegmentIdx rest (visit m path point lastSegmentIdx idx scan)

/-- The segments of the path to look at for a segment of the approximation, with the greatest projection. -/
def window (minDistanceSqrWithError : K) (i : Nat) : Option (Nat × Nat × Option K) :=
  let first := approximation.originalIds.getD i 0
  let last := approximation.originalIds.getD (i+1) 0 - 1
  if first < last then
    let segment := approximation.segmentAt m i
    let projection := segment.projectOntoUnit point
    let prodSqr := square (segment.productOntoUnit point)
    if minDistanceSqrWithError ≤ prodSqr then none
    else
      let scanDistance := m.sqrt (minDistanceSqrWithError - prodSqr)
      let minProjection := projection - scanDistance
      let offset := approximation.projections.getD i 0
      some (if 0 < minProjection then approximation.firstSegmentIdx (offset+minProjection) first last else first,
        last, some (offset+projection+scanDistance))
  else some (first, last, none)

/-- The body of the loop over the segments of the approximation. -/
def group (distanceSqrToSegments : List K) (s : K × Nearest K) (i : Nat) : K × Nearest K :=
  if s.1 ≤ distanceSqrToSegments.getD i 0 then s
  else
    match approximation.window m point s.1 i with
    | none => s
    | some (first, last, maxOriginalProjection) =>
      let scan := scanSegments m path approximation point maxOriginalProjection last (indices first (last+1))
        ⟨s.2,false,false⟩
      (if scan.minDistanceUpdated then scan.nearest.elim s.1 fun e => square (e.2+approximation.maxError) else s.1,
        scan.nearest)

/-- The results for the nearest segment. -/
def projectOnto (nearestSegmentIdx : Nat) (minDistance : K) : Projection K :=
  let segment := path.segmentAt m nearestSegmentIdx
  let proj := segment.projectOntoUnit point
  let prod := segment.productOntoUnit point
  let proj := if 0 < nearestSegmentIdx then max 0 proj else proj
  let proj := if nearestSegmentIdx+1 < path.numSegments then min segment.length proj else proj
  ⟨path.accumulatedS.getD nearestSegmentIdx 0+proj,
    if (nearestSegmentIdx = 0 ∧ proj < 0) ∨ (nearestSegmentIdx+1 = path.numSegments ∧ segment.length < proj) then prod
      else if 0 < prod then minDistance else -minDistance,
    minDistance⟩

/-- `GetProjection`. `none` is the result `false`. -/
def getProjection : Option (Projection K) :=
  let distanceSqrToSegments := approximation.segments.map (·.distanceSquareTo point)
  (Nearest.find distanceSqrToSegments).bind fun estimate =>
    let bound := square (m.sqrt estimate.2+approximation.maxErrorPerSegment.getD estimate.1 0 +
      approximation.maxError)
    let s := (List.range approximation.segments.length).foldl
      (group m path approximation point distanceSqrToSegments) (bound, none)
    s.2.map fun e => projectOnto m path point e.1 e.2

end PathApproximation

namespace Path
open PathApproximation

section Projection
variable [FloorSemiring K]

def initWith (pathPoints : List (Vec2d K)) (maxApproximationError : K) : Option (Path K) :=
  (init m pathPoints).bind fun path =>
    if 0 < maxApproximationError then
      (PathApproximation.init m path maxApproximationError).map fun approximation =>
        { path with approximation := some approximation }
    else some path

def getProjection (path : Path K) (point : Vec2d K) : Option (Projection K) :=
  if path.segments = [] then none
  else
    match path.approximation with
    | some approximation => approximation.getProjection m path point
    | none => path.scanProjection m point

end Projection

section Index
variable {ι : Type} (path : Path K)

def LaneSegment.length (segment : LaneSegment ι K) : K := segment.endS - segment.startS

def accumulatedAt (i : Nat) : K := path.accumulatedS.getD i 0

def numPoints : Nat := path.pathPoints.length

/-- The inner loop of `InitPointIndex`. -/
def nextIndex (s : K) (lastIndex : Nat) : Nat :=
  if lastIndex+1 < path.numPoints ∧ path.accumulatedAt (lastIndex+1) ≤ s then nextIndex s (lastIndex+1) else lastIndex
termination_by path.numPoints - lastIndex

def initPointIndex : Nat → K → Nat → List Nat
  | 0, _, _ => []
  | n+1, s, lastIndex =>
    path.nextIndex s lastIndex::initPointIndex n (s+sampleDistance) (path.nextIndex s lastIndex)

def searchIndex (s : K) (low high : Nat) : Nat :=
  if low+1 < high then
    if path.accumulatedAt ((low+high)/2) ≤ s then searchIndex s ((low+high)/2) high
    else searchIndex s low ((low+high)/2)
  else low
termination_by high - low

def getSFromIndex (index : InterpolatedIndex K) : K :=
  if index.id < 0 then 0
  else if path.numPoints ≤ index.id then path.length
  else path.accumulatedAt index.id.toNat+index.offset

structure LastIndex (s : K) (i : Nat) : Prop where
  lt : i < path.numPoints
  le : path.accumulatedAt i ≤ s
  last : ∀ j, i < j → j < path.numPoints → s < path.accumulatedAt j

variable (laneSegments : List (LaneSegment ι K))

def laneAccumulatedS : List K := ((laneSegments.map LaneSegment.length).scanl (· + ·) 0).tail

/-- `none` is the failed check of the number of lane segments. -/
def getLaneIndexFromS (s : K) : Option (InterpolatedIndex K) :=
  if s ≤ 0 then some ⟨0,0⟩
  else laneSegments.getLast?.map fun last =>
    let accumulated := laneAccumulatedS laneSegments
    let index := (accumulated.takeWhile (· < s)).length
    if path.length ≤ s ∨ index = accumulated.length then ⟨laneSegments.length - 1,last.length⟩
    else ⟨index,if index = 0 then s else s - accumulated.getD (index - 1) 0⟩

/-- `none` is a failed check or a read past the end of the lane segments. -/
def getLaneSegments (startS endS : K) : Option (List (LaneSegment ι K)) :=
  if startS+mathEpsilon < endS then some []
  else do
    let startIndex ← path.getLaneIndexFromS laneSegments startS
    let segment ← laneSegments[startIndex.id.toNat]?
    let (id, offset) := if segment.length ≤ startIndex.offset+mathEpsilon then (startIndex.id.toNat+1, 0)
      else (startIndex.id.toNat, startIndex.offset)
    match laneSegments[id]? with
    | none => some []
    | some first =>
      let endIndex ← path.getLaneIndexFromS laneSegments endS
      let lanes := ⟨first.lane,offset,first.length⟩::(laneSegments.take endIndex.id.toNat).drop id
      if mathEpsilon ≤ endIndex.offset then
        laneSegments[endIndex.id.toNat]?.map fun last => lanes ++ [⟨last.lane,0,endIndex.offset⟩]
      else some lanes

variable [FloorSemiring K]

def numSamplePoints : Nat := ⌊path.length/sampleDistance⌋₊+1

def lastPointIndex : List Nat := path.initPointIndex path.numSamplePoints 0 0

def getIndexFromS (s : K) : InterpolatedIndex K :=
  if s ≤ 0 then ⟨0,0⟩
  else if path.length ≤ s ∨ path.numSamplePoints ≤ ⌊s/sampleDistance⌋₊ then ⟨path.numPoints - 1,0⟩
  else
    let sampleId := ⌊s/sampleDistance⌋₊
    let high := if sampleId+1 < path.numSamplePoints then
      min path.numPoints (path.lastPointIndex.getD (sampleId+1) 0+1) else path.numPoints
    let low := path.searchIndex s (path.lastPointIndex.getD sampleId 0) high
    ⟨low,s - path.accumulatedAt low⟩

end Index

variable {path : Path K} {s : K}

section Monotone
variable (hmono : ∀ i j, i ≤ j → j < path.numPoints → path.accumulatedAt i ≤ path.accumulatedAt j)
include hmono

theorem nextIndex_last {lastIndex : Nat} (hlt : lastIndex < path.numPoints) (hle : path.accumulatedAt lastIndex ≤ s) :
    path.LastIndex s (path.nextIndex s lastIndex) := by
  fun_induction nextIndex with
  | case1 lastIndex h ih => exact ih h.1 h.2
  | case2 lastIndex h =>
    refine ⟨hlt,hle,?_⟩
    intro j hj hjn
    have hnext := not_le.mp fun hle => h ⟨by omega,hle⟩
    exact hnext.trans_le (hmono _ _ hj hjn)

theorem searchIndex_last {low high : Nat} (hlow : low < high) (hhigh : high ≤ path.numPoints)
    (hle : path.accumulatedAt low ≤ s) (hlast : ∀ j, high ≤ j → j < path.numPoints → s < path.accumulatedAt j) :
    path.LastIndex s (path.searchIndex s low high) := by
  fun_induction searchIndex with
  | case1 low high h hmid ih => exact ih (by omega) hhigh hmid hlast
  | case2 low high h hmid ih =>
    refine ih (by omega) (by omega) hle ?_
    intro j hj hjn
    exact (not_le.mp hmid).trans_le (hmono _ _ hj hjn)
  | case3 low high h =>
    refine ⟨by omega,hle,?_⟩
    intro j hj hjn
    exact hlast j (by omega) hjn

variable [IsStrictOrderedRing K]

/-- Each sample has the last index at its own `s`. -/
theorem initPointIndex_last {n lastIndex k : Nat} (hlt : lastIndex < path.numPoints)
    (hle : path.accumulatedAt lastIndex ≤ s) (hk : k < n) :
    path.LastIndex (s+k*sampleDistance) ((path.initPointIndex n s lastIndex).getD k 0) := by
  induction n generalizing s lastIndex k with
  | zero => omega
  | succ n ih =>
    have hnext := nextIndex_last hmono hlt hle
    cases k with
    | zero => simpa [initPointIndex] using hnext
    | succ k =>
      have hstep : s ≤ s+sampleDistance := le_add_of_nonneg_right (by norm_num [sampleDistance])
      have h := ih hnext.lt (hnext.le.trans hstep) (Nat.lt_of_succ_lt_succ hk)
      rw [initPointIndex,getD_cons_succ]
      convert h using 1
      push_cast
      ring

variable [FloorSemiring K]

/-- Between the ends the samples bracket the last index. -/
theorem getIndexFromS_between (hn : 0 < path.numPoints) (hzero : path.accumulatedAt 0 = 0) (hs : 0 < s)
    (hlt : s < path.length) : ∃ i : Nat, path.LastIndex s i ∧ path.getIndexFromS s = ⟨i,s - path.accumulatedAt i⟩ := by
  have hd : (0 : K) < sampleDistance := by norm_num [sampleDistance]
  have hsample {k : Nat} (hk : k < path.numSamplePoints) :
      path.LastIndex (k*sampleDistance) (path.lastPointIndex.getD k 0) := by
    simpa [lastPointIndex] using initPointIndex_last hmono hn hzero.le hk
  have hle := (le_div_iff₀ hd).mp (Nat.floor_le (div_nonneg hs.le hd.le))
  have hnext := (div_lt_iff₀ hd).mp (Nat.lt_floor_add_one (s/sampleDistance))
  have hid : ⌊s/sampleDistance⌋₊ < path.numSamplePoints :=
    Nat.lt_succ_of_le (Nat.floor_mono (div_le_div_of_nonneg_right hlt.le hd.le))
  have hlow := hsample hid
  rw [getIndexFromS,if_neg (not_le.mpr hs),if_neg (by simp [hlt,hid])]
  dsimp only
  split
  next h =>
    have hhigh := hsample h
    rw [Nat.cast_add_one] at hhigh
    have hlast : path.lastPointIndex.getD ⌊s/sampleDistance⌋₊ 0 ≤
        path.lastPointIndex.getD (⌊s/sampleDistance⌋₊+1) 0 := by
      by_contra hlt
      have habove := hhigh.last _ (not_le.mp hlt) hlow.lt
      exact absurd (habove.trans_le (hlow.le.trans hle)) hnext.not_gt
    refine ⟨_,searchIndex_last hmono (lt_min hlow.lt (Nat.lt_succ_of_le hlast)) (min_le_left ..) (hlow.le.trans hle) ?_,
      rfl⟩
    intro j hj hjn
    exact hnext.trans (hhigh.last j (by omega) hjn)
  next =>
    refine ⟨_,searchIndex_last hmono hlow.lt le_rfl (hlow.le.trans hle) ?_,rfl⟩
    intro j hj hjn
    omega

end Monotone

variable {m} {pathPoints : List (Vec2d K)}

omit [LinearOrder K] in
theorem length_accumulate (s : K) (points : List (Vec2d K)) : (accumulate m s points).length = points.length := by
  fun_induction accumulate with
  | case1 | case2 => rfl
  | case3 s p q points ih => rw [length_cons,ih,length_cons,length_cons,length_cons]

/-- What `InitPoints` sets. -/
structure Initialized (m : Cmath K) (path : Path K) : Prop where
  size : 2 ≤ path.numPoints
  accumulated : path.accumulatedS = accumulate m 0 path.pathPoints
  length : path.length = path.accumulatedS.getLastD 0

theorem init_initialized (h : init m pathPoints = some path) : path.pathPoints = pathPoints ∧ path.Initialized m := by
  obtain ⟨hsize,h⟩ := ite_none_left_eq_some.mp h
  cases h
  exact ⟨rfl,not_lt.mp hsize,rfl,rfl⟩

omit [LinearOrder K] in
theorem Initialized.accumulatedAt_zero (h : path.Initialized m) : path.accumulatedAt 0 = 0 := by
  rw [accumulatedAt,h.accumulated]
  have hsize := h.size
  rw [numPoints] at hsize
  match path.pathPoints, hsize with
  | _::_::_, _ => rfl

omit [LinearOrder K] in
theorem Initialized.accumulatedAt_last (h : path.Initialized m) :
    path.accumulatedAt (path.numPoints - 1) = path.length := by
  rw [h.length,accumulatedAt,numPoints,← length_accumulate 0,← h.accumulated]
  rw [getLastD_eq_getLast?,getLast?_eq_getElem?,getD_eq_getElem?_getD]

variable [FloorSemiring K]

theorem initWith_initialized {maxError : K} (h : initWith m pathPoints maxError = some path) :
    path.pathPoints = pathPoints ∧ path.Initialized m := by
  obtain ⟨base,hbase,h⟩ := bind_eq_some_iff.mp h
  have hinit := init_initialized hbase
  split at h
  next =>
    obtain ⟨_,-,rfl⟩ := map_eq_some_iff.mp h
    exact ⟨hinit.1,hinit.2.size,hinit.2.accumulated,hinit.2.length⟩
  next =>
    cases h
    exact hinit

variable [IsStrictOrderedRing K]

/-- Between the ends the result is the last index at most `s` away, and on the whole line it leads back to `s`. -/
theorem getIndexFromS_spec {maxError : K} (hinit : initWith m pathPoints maxError = some path)
    (hsorted : path.accumulatedS.Pairwise (· ≤ ·)) (s : K) :
    (0 < s → s < path.length → ∃ i : Nat, path.LastIndex s i ∧ path.getIndexFromS s = ⟨i,s - path.accumulatedAt i⟩) ∧
    path.getSFromIndex (path.getIndexFromS s) = max 0 (min s path.length) := by
  obtain ⟨-,h⟩ := initWith_initialized hinit
  have hsize := h.size
  have hmono : ∀ i j, i ≤ j → j < path.numPoints → path.accumulatedAt i ≤ path.accumulatedAt j := by
    intro i j hij hj
    rw [numPoints,← length_accumulate 0,← h.accumulated] at hj
    simp only [accumulatedAt,getD_eq_getElem?_getD,getElem?_eq_getElem hj,getElem?_eq_getElem (hij.trans_lt hj)]
    exact hsorted.rel_get_of_le (a := ⟨i,hij.trans_lt hj⟩) (b := ⟨j,hj⟩) hij
  have hbetween := getIndexFromS_between (s := s) hmono (by omega) h.accumulatedAt_zero
  have hlength : 0 ≤ path.length := by
    rw [← h.accumulatedAt_zero,← h.accumulatedAt_last]
    exact hmono _ _ (Nat.zero_le _) (by omega)
  refine ⟨hbetween,?_⟩
  rcases le_or_gt s 0 with hs | hs
  · rw [getIndexFromS,if_pos hs,getSFromIndex,if_neg (by simp),if_neg (by simp; omega)]
    rw [max_eq_left ((min_le_left _ _).trans hs)]
    simpa using h.accumulatedAt_zero
  rcases le_or_gt path.length s with hl | hl
  · rw [getIndexFromS,if_neg (not_le.mpr hs),if_pos (.inl hl),getSFromIndex,if_neg (by simp; omega),if_neg (by simp)]
    rw [min_eq_right hl,max_eq_right hlength,← h.accumulatedAt_last]
    simp
  · obtain ⟨i,hi,he⟩ := hbetween hs hl
    have hlt := hi.lt
    rw [he,getSFromIndex,if_neg (by simp),if_neg (by simp; omega),min_eq_left hl.le,max_eq_right hs.le]
    simp

omit [FloorSemiring K] in
/-- The test of the ends is the wrong way round: a range that is long enough has no lane segments. -/
theorem getLaneSegments_short (path : Path K) (laneSegments : List (LaneSegment ι K)) {startS endS : K}
    (h : startS+mathEpsilon < endS) : ∃ lanes, path.getLaneSegments laneSegments startS endS = some lanes ∧
      (lanes.map LaneSegment.length).sum+mathEpsilon < endS - startS := by
  refine ⟨[],if_pos h,?_⟩
  rw [map_nil,sum_nil,zero_add]
  exact lt_sub_iff_add_lt'.mpr h

/-- Two points one metre apart. -/
theorem exists_metre : ∃ path, initWith .real [⟨0,0⟩,⟨1,0⟩] 0 = some path ∧ path.accumulatedS = [0,1] ∧
    path.length = 1 := by
  have haccumulate : accumulate .real 0 [⟨0,0⟩,⟨1,0⟩] = [0,1] := by
    norm_num [accumulate,Vec2d.sub,Vec2d.length,Cmath.hypot,Cmath.real]
  rw [initWith,init,if_neg (by decide),bind_some,if_neg (lt_irrefl 0)]
  exact ⟨_,rfl,haccumulate,congrArg (getLastD · 0) haccumulate⟩

/-- Four points with two corners, and a place on the last of the three metres. -/
theorem getIndexFromS_spec_middle : ∃ path, initWith .real [⟨0,0⟩,⟨1,0⟩,⟨1,1⟩,⟨2,1⟩] 0 = some path ∧
    path.accumulatedS.Pairwise (· ≤ ·) ∧
    path.getSFromIndex (path.getIndexFromS (5/2)) = max 0 (min (5/2) path.length) := by
  have haccumulate : accumulate .real 0 [⟨0,0⟩,⟨1,0⟩,⟨1,1⟩,⟨2,1⟩] = [0,1,2,3] := by
    norm_num [accumulate,Vec2d.sub,Vec2d.length,Cmath.hypot,Cmath.real]
  obtain ⟨path,hinit,haccumulated⟩ : ∃ path, initWith .real [⟨0,0⟩,⟨1,0⟩,⟨1,1⟩,⟨2,1⟩] 0 = some path ∧
      path.accumulatedS = [0,1,2,3] := by
    rw [initWith,init,if_neg (by decide),bind_some,if_neg (lt_irrefl 0)]
    exact ⟨_,rfl,haccumulate⟩
  have hsorted : path.accumulatedS.Pairwise (· ≤ ·) := by
    rw [haccumulated]
    norm_num
  exact ⟨path,hinit,hsorted,(getIndexFromS_spec hinit hsorted _).2⟩

theorem getLaneSegments_short_metre : ∃ path : Path ℝ, 0+mathEpsilon < path.length ∧ ∃ lanes,
    path.getLaneSegments [⟨(),0,1⟩] 0 path.length = some lanes ∧
    (lanes.map LaneSegment.length).sum+mathEpsilon < path.length - 0 := by
  obtain ⟨path,-,-,hlength⟩ := exists_metre
  have hfar : 0+mathEpsilon < path.length := by norm_num [hlength,mathEpsilon]
  exact ⟨path,hfar,getLaneSegments_short path _ hfar⟩

/-- One lane along the path is missing from the whole path. -/
theorem getLaneSegments_whole : ∃ path, initWith .real [⟨0,0⟩,⟨1,0⟩] 0 = some path ∧
    ([⟨(),0,1⟩].map LaneSegment.length).sum = path.length ∧ 0+mathEpsilon < path.length ∧
    path.getLaneSegments [⟨(),0,1⟩] 0 path.length = some [] := by
  obtain ⟨path,hinit,-,hlength⟩ := exists_metre
  have hfar : 0+mathEpsilon < path.length := by norm_num [hlength,mathEpsilon]
  exact ⟨path,hinit,by simp [hlength,LaneSegment.length],hfar,if_pos hfar⟩

end Path
end Apollo.Modules.Map.PncMap
