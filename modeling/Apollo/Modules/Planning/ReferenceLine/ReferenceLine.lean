import Apollo.Foundation.Transition
import Apollo.Modules.Map.PncMap.Path
import Apollo.Modules.Planning.Lattice.Behavior.PathTimeGraph

/-! `ReferenceLine` with its points twice: as reference points and in its map path. `Stitch` and `Shrink` edit the
reference points and build the map path anew at the end. `ReferenceLine::HasOverlap`: the lateral range of a box
against the lane at its middle. -/
namespace Apollo.Modules.Planning
open Foundation Common.Math Map.PncMap List Option Path

/-- A position with the heading, the lanes and the curvature, which are only copied. -/
structure ReferencePoint (K ω : Type) where
  position : Vec2d K
  rest : ω

structure ReferenceLine (K ω : Type) where
  referencePoints : List (ReferencePoint K ω)
  mapPath : Path K

structure SLPoint (K : Type) where
  s : K
  l : K

namespace ReferenceLine
variable {K ω : Type}

inductive Call (K ω : Type)
  | stitch (other : ReferenceLine K ω)
  | shrinkAt (point : Vec2d K) (lookBackward lookForward : K)
  | shrink (s lookBackward lookForward : K)

variable [Field K] [LinearOrder K]

def lowerBound (accumulatedS : List K) (s : K) : Nat := (accumulatedS.takeWhile fun a => a < s).length

def upperBound (accumulatedS : List K) (first : Nat) (s : K) : Nat :=
  first+((accumulatedS.drop first).takeWhile fun a => a ≤ s).length

def stitchingError : K := 1/10

variable (m : Cmath K)

/-- The assignment to `map_path_` at the end of both functions. `none` is a failed check. -/
def rebuild (points : List (ReferencePoint K ω)) : Option (Bool × ReferenceLine K ω) :=
  (init m (points.map ReferencePoint.position)).map fun mapPath => (true, ⟨points,mapPath⟩)

def joins (line : ReferenceLine K ω) (sl : SLPoint K) : Bool := 0 < sl.s && sl.s < line.mapPath.length

/-- The first points that `Shrink` keeps and the first one that it does not. -/
def kept (line : ReferenceLine K ω) (s lookBackward lookForward : K) : Nat × Nat :=
  let startIndex := if lookBackward < s then lowerBound line.mapPath.accumulatedS (s - lookBackward) else 0
  (startIndex, if s+lookForward < line.mapPath.length then
    upperBound line.mapPath.accumulatedS startIndex (s+lookForward) else line.referencePoints.length)

/-- `Shrink` at an `s`. `none` is an iterator out of its range. -/
def shrink (line : ReferenceLine K ω) (s lookBackward lookForward : K) : Option (Bool × ReferenceLine K ω) :=
  let range := line.kept s lookBackward lookForward
  if line.referencePoints.length < range.2 ∨ range.2 < range.1 then none
  else
    let points := (line.referencePoints.take range.2).drop range.1
    if points.length < 2 then some (false, { line with referencePoints := points }) else rebuild m points

variable [FloorSemiring K]

def xyToSl (line : ReferenceLine K ω) (point : Vec2d K) : Option (SLPoint K) :=
  (line.mapPath.getProjection m point).map fun projection => ⟨projection.accumulateS,projection.lateral⟩

def shrinkAt (line : ReferenceLine K ω) (point : Vec2d K) (lookBackward lookForward : K) :
    Option (Bool × ReferenceLine K ω) :=
  match line.xyToSl m point with
  | none => some (false, line)
  | some sl => line.shrink m sl.s lookBackward lookForward

/-- `Stitch` after the projections of the first and the last point. -/
def join (line other : ReferenceLine K ω) (firstSl lastSl : SLPoint K) : Option (Bool × ReferenceLine K ω) :=
  let firstJoin := other.joins firstSl
  let lastJoin := other.joins lastSl
  let accumulatedS := other.mapPath.accumulatedS
  if !firstJoin && !lastJoin then some (false, line)
  else if firstJoin && stitchingError < firstSl.l then some (false, line)
  else
    let startI := if firstJoin then lowerBound accumulatedS firstSl.s else 0
    let endI := upperBound accumulatedS startI lastSl.s
    let points := other.referencePoints.take startI ++ line.referencePoints
    if other.referencePoints.length < startI then none
    else if lastJoin then
      if stitchingError < lastSl.l then some (false, { line with referencePoints := points })
      else if other.referencePoints.length < endI then none
      else rebuild m (points ++ other.referencePoints.drop endI)
    else rebuild m points

/-- `Stitch`. A line without points has no first one. -/
def stitch (line other : ReferenceLine K ω) : Option (Bool × ReferenceLine K ω) :=
  if other.referencePoints = [] then some (true, line)
  else
    match line.referencePoints.head?, line.referencePoints.getLast? with
    | some firstPoint, some lastPoint =>
      match other.xyToSl m firstPoint.position, other.xyToSl m lastPoint.position with
      | some firstSl, some lastSl => line.join m other firstSl lastSl
      | _, _ => some (false, line)
    | _, _ => none

def call (line : ReferenceLine K ω) : Call K ω → Option (Bool × ReferenceLine K ω)
  | .stitch other => line.stitch m other
  | .shrinkAt point lookBackward lookForward => line.shrinkAt m point lookBackward lookForward
  | .shrink s lookBackward lookForward => line.shrink m s lookBackward lookForward

/-- The line of the default constructor, of points, or of the points of a path. -/
inductive Constructed : ReferenceLine K ω → Prop
  | default : Constructed ⟨[],⟨[],[],[],0,none⟩⟩
  | points (points : List (ReferencePoint K ω)) (maxApproximationError : K) (mapPath : Path K) :
      initWith m (points.map ReferencePoint.position) maxApproximationError = some mapPath →
      Constructed ⟨points,mapPath⟩

def system : System (ReferenceLine K ω) (Call K ω) where
  initial := Constructed m
  step line c := (line.call m c).map Prod.snd

def Consistent (line : ReferenceLine K ω) : Prop :=
  line.referencePoints.map ReferencePoint.position = line.mapPath.pathPoints

/-- A line is empty or has two points, with an accumulated `s` for each of them. -/
structure WellFormed (line : ReferenceLine K ω) : Prop where
  consistent : line.Consistent
  accumulated : line.mapPath.accumulatedS.length = line.referencePoints.length
  size : line.referencePoints = [] ∨ 2 ≤ line.referencePoints.length

/-- `Shrink` erases nothing or leaves two points. -/
def Leaves (line : ReferenceLine K ω) (s lookBackward lookForward : K) : Prop :=
  line.kept s lookBackward lookForward = (0, line.referencePoints.length) ∨
    (line.kept s lookBackward lookForward).1+2 ≤ (line.kept s lookBackward lookForward).2

/-- A call may fail, but not after it has changed the points. -/
def Completes (line : ReferenceLine K ω) : Call K ω → Prop
  | .stitch other => other.referencePoints = [] ∨ (other.WellFormed ∧ line.referencePoints ≠ [] ∧
      ∀ firstPoint ∈ line.referencePoints.head?, ∀ lastPoint ∈ line.referencePoints.getLast?,
      ∀ firstSl ∈ other.xyToSl m firstPoint.position, ∀ lastSl ∈ other.xyToSl m lastPoint.position,
        other.joins firstSl = true → firstSl.l ≤ stitchingError → other.joins lastSl = true → lastSl.l ≤ stitchingError)
  | .shrinkAt point lookBackward lookForward => ∀ sl ∈ line.xyToSl m point, line.Leaves sl.s lookBackward lookForward
  | .shrink s lookBackward lookForward => line.Leaves s lookBackward lookForward

def Outcome (line : ReferenceLine K ω) (result : Option (Bool × ReferenceLine K ω)) : Prop :=
  ∃ ok line', result = some (ok, line') ∧ line'.WellFormed ∧ (ok = false → line' = line)

variable {m} {line other : ReferenceLine K ω} {points : List (ReferencePoint K ω)}

omit [LinearOrder K] [FloorSemiring K] in
theorem wellFormed_of_initialized {path : Path K} (hpoints : path.pathPoints = points.map ReferencePoint.position)
    (h : path.Initialized m) : WellFormed ⟨points,path⟩ := by
  have hlength : path.pathPoints.length = points.length := by rw [hpoints,length_map]
  refine ⟨hpoints.symm,?_,.inr (h.size.trans_eq hlength)⟩
  rw [h.accumulated,length_accumulate,hlength]

theorem wellFormed_of_constructed (h : Constructed m line) : line.WellFormed := by
  cases h with
  | default => exact ⟨rfl,rfl,.inl rfl⟩
  | points _ _ _ hpath =>
    obtain ⟨hpoints,hinit⟩ := initWith_initialized hpath
    exact wellFormed_of_initialized hpoints hinit

omit [FloorSemiring K] in
theorem rebuild_outcome (hsize : 2 ≤ points.length) : line.Outcome (rebuild m points) := by
  have hsome : init m (points.map ReferencePoint.position) ≠ none := by
    rw [init,if_neg (by rw [length_map]; omega)]
    exact some_ne_none _
  obtain ⟨mapPath,hpath⟩ := ne_none_iff_exists'.mp hsome
  obtain ⟨hpoints,hinit⟩ := init_initialized hpath
  refine ⟨true,⟨points,mapPath⟩,?_,wellFormed_of_initialized hpoints hinit,fun h => Bool.noConfusion h⟩
  rw [rebuild,hpath,map_some]

omit [Field K] [FloorSemiring K] in
theorem lowerBound_le (l : List K) (s : K) : lowerBound l s ≤ l.length := (takeWhile_sublist _).length_le

omit [Field K] [FloorSemiring K] in
theorem upperBound_le {l : List K} {first : Nat} (h : first ≤ l.length) (s : K) : upperBound l first s ≤ l.length := by
  have hle := (takeWhile_sublist (l := l.drop first) fun a => a ≤ s).length_le
  rw [length_drop] at hle
  rw [upperBound]
  omega

section
variable (h : line.WellFormed)
include h

omit [FloorSemiring K] in
theorem kept_le (s lookBackward lookForward : K) :
    (line.kept s lookBackward lookForward).2 ≤ line.referencePoints.length := by
  have hstart : (if lookBackward < s then lowerBound line.mapPath.accumulatedS (s - lookBackward) else 0)
      ≤ line.mapPath.accumulatedS.length := by
    split
    next => exact lowerBound_le _ _
    next => exact Nat.zero_le _
  dsimp only [kept]
  by_cases hend : s+lookForward < line.mapPath.length
  · rw [if_pos hend,← h.accumulated]
    exact upperBound_le hstart _
  · rw [if_neg hend]

omit [FloorSemiring K] in
theorem shrink_outcome {s lookBackward lookForward : K} (hleaves : line.Leaves s lookBackward lookForward) :
    line.Outcome (line.shrink m s lookBackward lookForward) := by
  have hle := kept_le h s lookBackward lookForward
  obtain hall | _ := hleaves
  · rw [shrink,hall,if_neg (by simp),drop_zero,take_length]
    dsimp only
    split
    next => exact ⟨false,line,rfl,h,fun _ => rfl⟩
    next hsize => exact rebuild_outcome (not_lt.mp hsize)
  · have hsize : 2 ≤ ((line.referencePoints.take (line.kept s lookBackward lookForward).2).drop
        (line.kept s lookBackward lookForward).1).length := by
      rw [length_drop,length_take]
      omega
    rw [shrink,if_neg (by omega),if_neg (by omega)]
    exact rebuild_outcome hsize

omit [FloorSemiring K] in
theorem join_outcome (hsize : 2 ≤ line.referencePoints.length) (hother : other.WellFormed)
    {firstSl lastSl : SLPoint K}
    (herror : other.joins firstSl = true → firstSl.l ≤ stitchingError → other.joins lastSl = true →
      lastSl.l ≤ stitchingError) : line.Outcome (line.join m other firstSl lastSl) := by
  have hunchanged : line.Outcome (some (false, line)) := ⟨false,line,rfl,h,fun _ => rfl⟩
  have hstart : (if other.joins firstSl = true then lowerBound other.mapPath.accumulatedS firstSl.s else 0)
      ≤ other.referencePoints.length := by
    split
    next => exact (lowerBound_le _ _).trans_eq hother.accumulated
    next => exact Nat.zero_le _
  have hend := (upperBound_le (hstart.trans_eq hother.accumulated.symm) lastSl.s).trans_eq hother.accumulated
  rw [join]
  split
  next => exact hunchanged
  split
  next => exact hunchanged
  next hfirst =>
  rw [if_neg (not_lt.mpr hstart)]
  split
  next hlast =>
    split
    next hl =>
      -- only a stitch that has inserted nothing comes here
      have hjoin : ¬ other.joins firstSl = true := by
        intro hjoin
        have hl' : firstSl.l ≤ stitchingError := by simpa [hjoin] using hfirst
        exact absurd (herror hjoin hl' hlast) (not_le.mpr hl)
      rw [if_neg hjoin,take_zero,nil_append]
      exact hunchanged
    next =>
      rw [if_neg (not_lt.mpr hend)]
      apply rebuild_outcome
      rw [length_append,length_append]
      omega
  next =>
    apply rebuild_outcome
    rw [length_append]
    omega

theorem stitch_outcome (hc : line.Completes m (.stitch other)) : line.Outcome (line.stitch m other) := by
  rw [stitch]
  split
  next => exact ⟨true,line,rfl,h,fun _ => rfl⟩
  next hempty =>
  obtain ⟨hother,hne,herror⟩ := hc.resolve_left hempty
  have hsize := h.size.resolve_left hne
  have hfirst := head?_eq_some_head hne
  have hlast := getLast?_eq_some_getLast hne
  rw [hfirst,hlast]
  dsimp only
  split
  next firstSl lastSl hfirstSl hlastSl =>
    exact join_outcome h hsize hother (herror _ hfirst _ hlast firstSl hfirstSl lastSl hlastSl)
  next => exact ⟨false,line,rfl,h,fun _ => rfl⟩

theorem call_outcome {c : Call K ω} (hc : line.Completes m c) : line.Outcome (line.call m c) := by
  cases c with
  | stitch => exact stitch_outcome h hc
  | shrink => exact shrink_outcome h hc
  | shrinkAt =>
    rw [call,shrinkAt]
    split
    next => exact ⟨false,line,rfl,h,fun _ => rfl⟩
    next sl hsl => exact shrink_outcome h (hc sl hsl)

end

theorem step_eq (c : Call K ω) : (system m).step line c = (line.call m c).map Prod.snd := rfl

theorem wellFormed_of_reachable (h : (system m).ReachableWhile (Completes m) line) : line.WellFormed := by
  apply h.invariant
  · intro _ hinit
    exact wellFormed_of_constructed hinit
  · intro _ _ _ hline hc hstep
    obtain ⟨_,_,hcall,hnext,-⟩ := call_outcome hline hc
    rw [step_eq,hcall,map_some] at hstep
    cases hstep
    exact hnext

/-- Calls that fail before they change the points keep both copies of the points equal. -/
theorem points_agree (h : (system m).ReachableWhile (Completes m) line) :
    line.WellFormed ∧ ∀ c, line.Completes m c → line.Outcome (line.call m c) :=
  ⟨wellFormed_of_reachable h,fun _ hc => call_outcome (wellFormed_of_reachable h) hc⟩

/-- Three points one metre apart. -/
noncomputable def straight : ReferenceLine ℝ Unit where
  referencePoints := [⟨⟨0,0⟩,()⟩,⟨⟨1,0⟩,()⟩,⟨⟨2,0⟩,()⟩]
  mapPath :=
    { pathPoints := [⟨0,0⟩,⟨1,0⟩,⟨2,0⟩]
      accumulatedS := [0,1,2]
      segments := [.ofEnds .real ⟨0,0⟩ ⟨1,0⟩,.ofEnds .real ⟨1,0⟩ ⟨2,0⟩]
      length := 2
      approximation := none }

theorem straight_constructed : Constructed .real straight := by
  have haccumulate : accumulate .real 0 [⟨0,0⟩,⟨1,0⟩,⟨2,0⟩] = [0,1,2] := by
    norm_num [accumulate,Vec2d.sub,Vec2d.length,Cmath.hypot,Cmath.real]
  have hinit : init .real [⟨0,0⟩,⟨1,0⟩,⟨2,0⟩] = some straight.mapPath := by
    rw [init,if_neg (by decide),haccumulate]
    rfl
  refine .points _ 0 _ ?_
  show initWith .real [⟨0,0⟩,⟨1,0⟩,⟨2,0⟩] 0 = some straight.mapPath
  rw [initWith,hinit,bind_some,if_neg (lt_irrefl 0)]

theorem kept_straight : straight.kept 1 0 0 = (1, 2) ∧ straight.kept 1 0 1 = (1, 3) := by
  constructor <;> norm_num [kept,straight,lowerBound,upperBound,List.takeWhile]

/-- The points from the middle on remain. -/
theorem points_agree_straight : (system .real).ReachableWhile (Completes .real) straight ∧
    straight.Completes .real (.shrink 1 0 1) ∧ straight.Outcome (straight.call .real (.shrink 1 0 1)) := by
  have hreach : (system Cmath.real).ReachableWhile (Completes .real) straight := .start straight_constructed
  have hc : straight.Completes .real (.shrink 1 0 1) := .inr (by rw [kept_straight.2])
  exact ⟨hreach,hc,(points_agree hreach).2 _ hc⟩

/-- The middle alone is too little. The points before and after it are gone, the map path has all of them. -/
theorem shrink_middle : (system .real).Reachable straight ∧ ∃ line,
    straight.call .real (.shrink 1 0 0) = some (false, line) ∧
    line.referencePoints.length = 1 ∧ line.mapPath.pathPoints.length = 3 ∧ line ≠ straight := by
  refine ⟨.start straight_constructed,{ straight with referencePoints := [⟨⟨1,0⟩,()⟩] },?_,rfl,rfl,?_⟩
  · rw [call,shrink,kept_straight.1]
    rfl
  · intro h
    exact absurd (congrArg (fun line => line.referencePoints.length) h) (by decide)

open PathApproximation LineSegment2d
variable {K ω : Type} [Field K] [LinearOrder K]

/-- A corner, with the middle of the edge to the next one if that is outside of the polygon. -/
def boundaryPoints (corner next middle : SLPoint K) : List (SLPoint K) :=
  if (next.s - corner.s)*(middle.l - corner.l) - (next.l - corner.l)*(middle.s - corner.s) < 0 then [corner,middle]
  else [corner]

def extend (b : SLBoundary K) (p : SLPoint K) : SLBoundary K :=
  ⟨min b.startS p.s,max b.endS p.s,min b.startL p.l,max b.endL p.l⟩

variable [FloorSemiring K] (m : Cmath K) (line : ReferenceLine K ω) (box : Box2d K)

def getSLBoundary : Option (SLBoundary K) := do
  let corners := box.getAllCorners
  let slCorners ← corners.mapM (line.xyToSl m)
  let middles ← (zipWith (fun p q => ⟨(p.x+q.x)*(1/2),(p.y+q.y)*(1/2)⟩) corners (corners.rotate 1)).mapM (line.xyToSl m)
  let points := (zipWith3 boundaryPoints slCorners (slCorners.rotate 1) middles).flatten
  some (points.foldl extend ⟨doubleMax,-doubleMax,doubleMax,-doubleMax⟩)

def getSample (samples : List K) (s : K) : K :=
  let idx := ⌊s/sampleDistance⌋₊
  if s ≤ 0 then samples.headD 0
  else if line.mapPath.numSamplePoints - 1 ≤ idx then samples.getLastD 0
  else
    let ratio := (s - idx*sampleDistance)/sampleDistance
    samples.getD idx 0*(1 - ratio)+samples.getD (idx+1) 0*ratio

variable (laneWidths : List K × List K)

def getLaneWidth (s : K) : Option (K × K) :=
  if s < 0 ∨ line.mapPath.length < s then none
  else some (line.getSample laneWidths.1 s, line.getSample laneWidths.2 s)

def hasOverlap : Bool :=
  match line.getSLBoundary m box with
  | none => false
  | some b =>
    let midS := (b.startS+b.endS)/2
    if b.endS < 0 ∨ line.mapPath.length < b.startS ∨ b.startL*b.endL < 0 then false
    else if midS < 0 ∨ line.mapPath.length < midS then false
    else
      match line.getLaneWidth laneWidths midS with
      | none => false
      | some (left, right) => if 0 < b.startL then b.startL < left else -right < b.endL

variable {m line box laneWidths} [IsStrictOrderedRing K] {b : SLBoundary K} {left right : K}

/-- The test is right exactly for a box on one side of the line. -/
theorem hasOverlap_iff_iff (hb : line.getSLBoundary m box = some b)
    (hs : (0 ≤ b.startS ∧ b.startS ≤ line.mapPath.length) ∧ 0 ≤ b.endS ∧ b.endS ≤ line.mapPath.length)
    (hl : b.startL ≤ b.endL) (hw : line.getLaneWidth laneWidths ((b.startS+b.endS)/2) = some (left, right))
    (hpos : 0 < left ∧ 0 < right) : (line.hasOverlap m box laneWidths = true ↔
      ∃ l, (-right < l ∧ l < left) ∧ b.startL ≤ l ∧ l ≤ b.endL) ↔ 0 ≤ b.startL*b.endL := by
  have hmid := (Option.ite_none_left_eq_some.mp hw).1
  rw [hasOverlap,hb]
  dsimp only
  by_cases hside : b.startL*b.endL < 0
  -- A box across the line has 0 in common with the lane.
  · have hzero : b.startL < 0 ∧ 0 < b.endL := by
      rcases mul_neg_iff.mp hside with h | h
      · exact absurd hl (h.2.trans h.1).not_ge
      · exact h
    rw [if_pos (.inr (.inr hside)),iff_false_right hside.not_ge]
    exact fun h => Bool.false_ne_true (h.mpr ⟨0,⟨neg_lt_zero.mpr hpos.2,hpos.1⟩,hzero.1.le,hzero.2.le⟩)
  rw [if_neg (by simp [hs.2.1,hs.1.2,not_lt.mp hside]),if_neg hmid,hw,iff_true_right (not_lt.mp hside)]
  dsimp only
  split
  next h =>
    rw [decide_eq_true_eq]
    constructor
    · intro hlt
      exact ⟨b.startL,⟨by linarith,hlt⟩,le_rfl,hl⟩
    · rintro ⟨l,hl',hle,-⟩
      exact hle.trans_lt hl'.2
  next h =>
    rw [decide_eq_true_eq]
    constructor
    · intro hlt
      refine ⟨min b.endL 0,⟨lt_min hlt (neg_lt_zero.mpr hpos.2),?_⟩,le_min hl (not_lt.mp h),min_le_left _ _⟩
      exact (min_le_right _ _).trans_lt hpos.1
    · rintro ⟨l,hl',-,hle⟩
      exact hl'.1.trans_le hle

noncomputable def metre : ReferenceLine ℝ Unit where
  referencePoints := [⟨⟨0,0⟩,()⟩,⟨⟨1,0⟩,()⟩]
  mapPath := ⟨[⟨0,0⟩,⟨1,0⟩],[0,1],[.ofEnds .real ⟨0,0⟩ ⟨1,0⟩],1,none⟩

/-- A box along the metre, around a lateral position. -/
noncomputable def along (l halfWidth : ℝ) : Box2d ℝ := ⟨⟨1/2,l⟩,1/2,halfWidth,1,0,0,1,l - halfWidth,l+halfWidth⟩

theorem xyToSl_metre {x y : ℝ} (hx : x = 0 ∨ x = 1/2 ∨ x = 1) (hy : y = -1 ∨ y = 0 ∨ y = 1) :
    metre.xyToSl .real ⟨x,y⟩ = some ⟨x,y⟩ := by
  rcases hx with rfl | rfl | rfl <;> rcases hy with rfl | rfl | rfl <;>
    norm_num [xyToSl,metre,Path.getProjection,Path.scanProjection,Path.projectOnto,Path.segmentAt,Nearest.find,
      Nearest.record,ofEnds,distanceSquareTo,projectOntoUnit,
      productOntoUnit,Vec2d.distanceSquareTo,Vec2d.innerProd,Vec2d.crossProd,Vec2d.sub,square,
      Cmath.hypot,Cmath.real,mathEpsilon]

/-- The boundaries of a box on the line and of one beside it. -/
theorem getSLBoundary_metre : metre.getSLBoundary .real (along 0 1) = some ⟨0,1,-1,1⟩ ∧
    metre.getSLBoundary .real (along 1 0) = some ⟨0,1,1,1⟩ := by
  have hmax : (1 : ℝ) ≤ doubleMax := (one_le_pow₀ one_le_two).trans le_doubleMax
  have hmin : (-1 : ℝ) ≤ doubleMax := (by norm_num : (-1 : ℝ) ≤ 1).trans hmax
  constructor <;>
    norm_num [getSLBoundary,along,Box2d.getAllCorners,xyToSl_metre,boundaryPoints,zipWith3,extend,hmax,hmin,
      neg_le.mp hmin]

theorem getLaneWidth_metre : metre.getLaneWidth (replicate 5 2, replicate 5 2) ((0+1)/2) = some (2, 2) := by
  norm_num [getLaneWidth,metre,getSample,Path.numSamplePoints,sampleDistance]

theorem hasOverlap_iff_iff_left : metre.hasOverlap .real (along 1 0) (replicate 5 2, replicate 5 2) = true ↔
    ∃ l : ℝ, (-2 < l ∧ l < 2) ∧ 1 ≤ l ∧ l ≤ 1 :=
  (hasOverlap_iff_iff getSLBoundary_metre.2 (by norm_num [metre]) le_rfl getLaneWidth_metre (by norm_num)).mpr (by norm_num)

/-- A box across the line is not found on the lane. -/
theorem hasOverlap_across : metre.getSLBoundary .real (along 0 1) = some ⟨0,1,-1,1⟩ ∧
    metre.getLaneWidth (replicate 5 2, replicate 5 2) ((0+1)/2) = some (2, 2) ∧
    metre.hasOverlap .real (along 0 1) (replicate 5 2, replicate 5 2) = false := by
  refine ⟨getSLBoundary_metre.1,getLaneWidth_metre,?_⟩
  rw [hasOverlap,getSLBoundary_metre.1]
  norm_num

end ReferenceLine
end Apollo.Modules.Planning
