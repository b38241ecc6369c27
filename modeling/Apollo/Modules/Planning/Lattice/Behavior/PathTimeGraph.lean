import Apollo.Foundation.FallibleList
import Apollo.Foundation.Fuel
import Apollo.Foundation.Table
import Apollo.Modules.Common.Math.Box2d
import Apollo.Modules.Common.Math.PathMatcher
import Apollo.Modules.Planning.Common.Speed.StBoundary

/-! `PathTimeGraph`: the part of the path that each obstacle takes up over time, as a boundary with four corners. The
setters of the corners leave the time range of a boundary alone, and `GetPathBlockingIntervals` reads it. -/
namespace Apollo.Modules.Planning
open Foundation Common.Math PathMatcher
variable {K : Type}

structure SLBoundary (K : Type) where
  startS : K
  endS : K
  startL : K
  endL : K

structure TrajectoryPoint (K : Type) where
  pathPoint : Option (PathPoint K)
  relativeTime : K

structure PerceptionObstacle (K : Type) where
  position : Vec2d K
  theta : K
  length : K
  width : K

structure Obstacle (K : Type) where
  id : String
  isVirtual : Bool
  perceptionObstacle : PerceptionObstacle K
  perceptionPolygon : List (Vec2d K)
  trajectory : List (TrajectoryPoint K)

structure PlanningFlags (K : Type) where
  defaultReferenceLineWidth : K
  trajectoryTimeLength : K
  trajectoryTimeResolution : K

/-- The arguments of the constructor, with the lane width of the reference line where it has one. -/
structure PathTimeSetup (K : Type) where
  flags : PlanningFlags K
  discretizedRefPoints : List (PathPoint K)
  getLaneWidth : K → Option (K × K)
  pathRange : K × K
  timeRange : K × K

structure PathTimeGraph (K : Type) where
  timeRange : K × K
  pathTimeObstacleMap : Table String (STBoundary K)
  pathTimeObstacles : List (STBoundary K)

variable [Field K] [LinearOrder K] (m : Cmath K)

namespace TrajectoryPoint

/-- `path_point()`, which has zeros if it was not set. -/
def path (point : TrajectoryPoint K) : PathPoint K := point.pathPoint.getD PathPoint.zero

def interpolate (p0 p1 : TrajectoryPoint K) (t : K) : TrajectoryPoint K :=
  match p0.pathPoint, p1.pathPoint with
  | some pp0, some pp1 =>
    let t0 := p0.relativeTime
    let t1 := p1.relativeTime
    ⟨some ⟨lerp pp0.x t0 pp1.x t1 t,lerp pp0.y t0 pp1.y t1 t,slerp m pp0.theta t0 pp1.theta t1 t,
      lerp pp0.s t0 pp1.s t1 t⟩,t⟩
  | _, _ => ⟨some PathPoint.zero,0⟩

end TrajectoryPoint

namespace Obstacle
variable (obstacle : Obstacle K)

def hasTrajectory : Bool := !obstacle.trajectory.isEmpty

/-- The point of the perception for a trajectory of fewer than two points. Else the points around the time. -/
def getPointAtTime (relativeTime : K) : TrajectoryPoint K :=
  match obstacle.trajectory with
  | first::_::_ =>
    let before := obstacle.trajectory.takeWhile fun p => p.relativeTime < relativeTime
    let after := obstacle.trajectory.dropWhile fun p => p.relativeTime < relativeTime
    match before.getLast?, after.head? with
    | none, _ => first
    | some last, none => last
    | some p0, some p1 => p0.interpolate m p1 relativeTime
  | _ =>
    let perception := obstacle.perceptionObstacle
    ⟨some ⟨perception.position.x,perception.position.y,perception.theta,0⟩,0⟩

def getBoundingBox (point : TrajectoryPoint K) : Option (Box2d K) :=
  Box2d.ofHeading m ⟨point.path.x,point.path.y⟩ point.path.theta obstacle.perceptionObstacle.length
    obstacle.perceptionObstacle.width

end Obstacle

namespace PathTimeSetup
variable (setup : PathTimeSetup K) (obstacle : Obstacle K)

def computeObstacleBoundary (vertices : List (Vec2d K)) : Option (SLBoundary K) :=
  vertices.foldlM (fun b point =>
    (getPathFrenetCoordinate m setup.discretizedRefPoints point.x point.y).map fun slPoint =>
      ⟨min b.startS slPoint.1,max b.endS slPoint.1,min b.startL slPoint.2,max b.endL slPoint.2⟩)
    ⟨doubleMax,-doubleMax,doubleMax,-doubleMax⟩

def boundaryAtTime (relativeTime : K) : Option (SLBoundary K) :=
  (obstacle.getBoundingBox m (obstacle.getPointAtTime m relativeTime)).bind fun box =>
    setup.computeObstacleBoundary m box.getAllCorners

/-- The boundary of an obstacle at a time: that of its polygon if it has no trajectory. -/
def obstacleBoundary (t : K) : Option (SLBoundary K) :=
  if obstacle.hasTrajectory then setup.boundaryAtTime m obstacle t
  else setup.computeObstacleBoundary m obstacle.perceptionPolygon

/-- The test of both setters that the obstacle is on the part of the lane that is considered. -/
def considers (slBoundary : SLBoundary K) : Bool :=
  let halfWidth := setup.flags.defaultReferenceLineWidth*(1/2)
  let width := (setup.getLaneWidth slBoundary.startS).getD (halfWidth, halfWidth)
  !(setup.pathRange.2 < slBoundary.startS || slBoundary.endS < setup.pathRange.1 ||
    width.1 < slBoundary.startL || slBoundary.endL < -width.2)

variable (map : Table String (STBoundary K))

/-- A change of `path_time_obstacle_map_[id]`, which makes an empty boundary if there is none. -/
def edit (id : String) (f : STBoundary K → STBoundary K) : Table String (STBoundary K) :=
  map.insert id (f ((map.lookup id).getD .empty))

def setStaticObstacle : Option (Table String (STBoundary K)) :=
  (setup.computeObstacleBoundary m obstacle.perceptionPolygon).map fun slBoundary =>
    if setup.considers slBoundary then
      edit map obstacle.id fun b =>
        ((((b.setId obstacle.id).setBottomLeftPoint ⟨slBoundary.startS,0⟩).setBottomRightPoint
          ⟨slBoundary.startS,setup.flags.trajectoryTimeLength⟩).setUpperLeftPoint ⟨slBoundary.endS,0⟩).setUpperRightPoint
          ⟨slBoundary.endS,setup.flags.trajectoryTimeLength⟩
    else map

def setLeft (slBoundary : SLBoundary K) (relativeTime : K) : Table String (STBoundary K) :=
  if (map.lookup obstacle.id).isNone then
    edit map obstacle.id fun b =>
      ((b.setId obstacle.id).setBottomLeftPoint ⟨slBoundary.startS,relativeTime⟩).setUpperLeftPoint
        ⟨slBoundary.endS,relativeTime⟩
  else map

def setRight (slBoundary : SLBoundary K) (relativeTime : K) : Table String (STBoundary K) :=
  edit map obstacle.id fun b =>
    (b.setBottomRightPoint ⟨slBoundary.startS,relativeTime⟩).setUpperRightPoint ⟨slBoundary.endS,relativeTime⟩

def setDynamicObstacle : Nat → K → Table String (STBoundary K) → Option (Table String (STBoundary K))
  | 0, _, _ => none
  | fuel+1, relativeTime, map =>
    if relativeTime < setup.timeRange.2 then
      (setup.boundaryAtTime m obstacle relativeTime).bind fun slBoundary =>
        if setup.considers slBoundary then
          setDynamicObstacle fuel (relativeTime+setup.flags.trajectoryTimeResolution)
            (setRight obstacle (setLeft obstacle map slBoundary relativeTime) slBoundary relativeTime)
        else if (map.lookup obstacle.id).isSome then some map
        else setDynamicObstacle fuel (relativeTime+setup.flags.trajectoryTimeResolution) map
    else some map

def setObstacle (fuel : Nat) : Option (Table String (STBoundary K)) :=
  if obstacle.isVirtual then some map
  else if obstacle.hasTrajectory then setup.setDynamicObstacle m obstacle fuel setup.timeRange.1 map
  else setup.setStaticObstacle m obstacle map

def setupObstacles (obstacles : List (Obstacle K)) (fuel : Nat) : Option (Table String (STBoundary K)) :=
  obstacles.foldlM (fun map obstacle => setup.setObstacle m obstacle map fuel) ∅

end PathTimeSetup

namespace PathTimeGraph

/-- The constructor. The boundaries stand in the order of the table, which for a hash map is not specified. -/
def init (setup : PathTimeSetup K) (obstacles : List (Obstacle K)) (fuel : Nat) : Option (PathTimeGraph K) :=
  if setup.pathRange.1 < setup.pathRange.2 ∧ setup.timeRange.1 < setup.timeRange.2 then
    (setup.setupObstacles m obstacles fuel).map fun map => ⟨setup.timeRange,map,map.entries.map Sigma.snd⟩
  else none

/-- The interval from `s_lower` to `s_upper`. The points are read from the borders, not from the corners. -/
def blockingInterval (b : STBoundary K) (t : K) : Option (K × K) := do
  let upperLeft ← b.upperPoints.head?
  let upperRight ← b.upperPoints.getLast?
  let bottomLeft ← b.lowerPoints.head?
  let bottomRight ← b.lowerPoints.getLast?
  return (lerp bottomLeft.s bottomLeft.t bottomRight.s bottomRight.t t,
    lerp upperLeft.s upperLeft.t upperRight.s upperRight.t t)

def getPathBlockingIntervals (graph : PathTimeGraph K) (t : K) : Option (List (K × K)) :=
  if graph.timeRange.1 ≤ t ∧ t ≤ graph.timeRange.2 then
    (graph.pathTimeObstacles.filter fun b => ¬(b.maxT < t ∨ t < b.minT)).mapM (blockingInterval · t)
  else none

end PathTimeGraph

open List Option PathTimeSetup
variable {K : Type} [Field K] {map map' : Table String (STBoundary K)} {obstacle : Obstacle K}
  {slBoundary : SLBoundary K}

namespace PathTimeSetup

def Untimed (map : Table String (STBoundary K)) : Prop :=
  ∀ id b, map.lookup id = some b → b.minT = doubleMax ∧ b.maxT = -doubleMax

/-- The step changes the boundary of one obstacle, and no time range. -/
structure Edits (id : String) (map map' : Table String (STBoundary K)) : Prop where
  other : ∀ k, k ≠ id → map'.lookup k = map.lookup k
  untimed : Untimed map → Untimed map'

namespace Edits
variable {id : String} {map'' : Table String (STBoundary K)}

theorem refl : Edits id map map := ⟨fun _ _ => rfl,fun h => h⟩

theorem trans (h : Edits id map map') (h' : Edits id map' map'') : Edits id map map'' :=
  ⟨fun k hk => (h'.other k hk).trans (h.other k hk),fun hmap => h'.untimed (h.untimed hmap)⟩

theorem edit {f : STBoundary K → STBoundary K} (hmin : ∀ b, (f b).minT = b.minT) (hmax : ∀ b, (f b).maxT = b.maxT) :
    Edits id map (edit map id f) where
  other k hk := AList.lookup_insert_ne hk
  untimed hmap := by
    intro k b hb
    rw [PathTimeSetup.edit,Table.lookup_insert_eq_ite] at hb
    split at hb
    next =>
      cases hb
      rw [hmin,hmax]
      cases hid : map.lookup id with
      | none => exact ⟨rfl,rfl⟩
      | some b => exact hmap id b hid
    next => exact hmap k b hb

theorem setLeft (relativeTime : K) : Edits obstacle.id map (setLeft obstacle map slBoundary relativeTime) := by
  rw [PathTimeSetup.setLeft]
  split
  next => exact .edit (fun _ => rfl) fun _ => rfl
  next => exact .refl

theorem setRight (relativeTime : K) : Edits obstacle.id map (setRight obstacle map slBoundary relativeTime) :=
  .edit (fun _ => rfl) fun _ => rfl

end Edits

variable {setup : PathTimeSetup K}

def sampleTime (setup : PathTimeSetup K) (start : K) (k : Nat) : K := start+k*setup.flags.trajectoryTimeResolution

theorem sampleTime_zero (start : K) : setup.sampleTime start 0 = start := by
  rw [sampleTime,Nat.cast_zero,zero_mul,add_zero]

theorem sampleTime_succ (start : K) (k : Nat) :
    setup.sampleTime start (k+1) = setup.sampleTime (start+setup.flags.trajectoryTimeResolution) k := by
  rw [sampleTime,sampleTime,Nat.cast_succ,add_mul,one_mul,add_assoc,add_comm (_*_)]

variable [LinearOrder K] {m : Cmath K} {obstacles : List (Obstacle K)} {fuel : Nat}

theorem edits_setStaticObstacle (h : setup.setStaticObstacle m obstacle map = some map') :
    Edits obstacle.id map map' := by
  obtain ⟨_,-,rfl⟩ := map_eq_some_iff.mp h
  split
  next => exact .edit (fun _ => rfl) fun _ => rfl
  next => exact .refl

theorem setDynamicObstacle_keeps {P : Table String (STBoundary K) → Prop}
    (keep : ∀ map slBoundary relativeTime, P map →
      P (setRight obstacle (setLeft obstacle map slBoundary relativeTime) slBoundary relativeTime))
    {relativeTime : K} (hmap : P map)
    (h : setup.setDynamicObstacle m obstacle fuel relativeTime map = some map') : P map' := by
  induction fuel generalizing relativeTime map with
  | zero => cases h
  | succ _ ih =>
    rw [setDynamicObstacle] at h
    split at h
    next =>
      obtain ⟨slBoundary,-,h⟩ := bind_eq_some_iff.mp h
      split at h
      next => exact ih (keep _ _ _ hmap) h
      next =>
        split at h
        next =>
          cases h
          exact hmap
        next => exact ih hmap h
    next =>
      cases h
      exact hmap

theorem edits_setObstacle (h : setup.setObstacle m obstacle map fuel = some map') : Edits obstacle.id map map' := by
  rw [setObstacle] at h
  split at h
  next =>
    cases h
    exact .refl
  next =>
    split at h
    next =>
      refine setDynamicObstacle_keeps (P := Edits obstacle.id map) ?_ .refl h
      intro _ _ relativeTime hedits
      exact (hedits.trans (.setLeft relativeTime)).trans (.setRight relativeTime)
    next => exact edits_setStaticObstacle h

theorem untimed_setupObstacles (h : setup.setupObstacles m obstacles fuel = some map) : Untimed map := by
  refine foldlM_keeps (P := Untimed) ?_ ?_ h
  · intro _ _ _ _ hmap hstep
    exact (edits_setObstacle hstep).untimed hmap
  · intro _ _ hb
    cases hb

section Returns
variable [IsStrictOrderedRing K] [Archimedean K]
variable (hres : 0 < setup.flags.trajectoryTimeResolution)
include hres

theorem setDynamicObstacle_returns (hboundary : ∀ t, (setup.boundaryAtTime m obstacle t).isSome) (start : K)
    (map : Table String (STBoundary K)) :
    ∃ map', Returns (fun fuel => setup.setDynamicObstacle m obstacle fuel start map) map' := by
  obtain ⟨n,hn⟩ := Archimedean.arch (setup.timeRange.2 - start) hres
  rw [nsmul_eq_mul,sub_le_iff_le_add'] at hn
  change setup.timeRange.2 ≤ setup.sampleTime start n at hn
  have hend {start : K} (map : Table String (STBoundary K)) (hge : ¬ start < setup.timeRange.2) :
      ∃ map', Returns (fun fuel => setup.setDynamicObstacle m obstacle fuel start map) map' := by
    refine ⟨map,(returns_const map).succ fun fuel => ?_⟩
    rw [setDynamicObstacle,if_neg hge]
  induction n generalizing start map with
  | zero =>
    rw [sampleTime_zero] at hn
    exact hend map (not_lt.mpr hn)
  | succ _ ih =>
    rw [sampleTime_succ] at hn
    by_cases htime : start < setup.timeRange.2
    · obtain ⟨sl,hsl⟩ := isSome_iff_exists.mp (hboundary start)
      by_cases hconsiders : setup.considers sl = true
      · obtain ⟨map',h⟩ := ih _ (setRight obstacle (setLeft obstacle map sl start) sl start) hn
        refine ⟨map',h.succ fun fuel => ?_⟩
        rw [setDynamicObstacle,if_pos htime,hsl,bind_some,if_pos hconsiders]
      · by_cases hfound : (map.lookup obstacle.id).isSome = true
        · refine ⟨map,(returns_const map).succ fun fuel => ?_⟩
          rw [setDynamicObstacle,if_pos htime,hsl,bind_some,if_neg hconsiders,if_pos hfound]
        · obtain ⟨map',h⟩ := ih _ map hn
          refine ⟨map',h.succ fun _ => ?_⟩
          rw [setDynamicObstacle,if_pos htime,hsl,bind_some,if_neg hconsiders,if_neg hfound]
    · exact hend map htime

theorem setObstacle_returns (hboundary : ∀ t, (setup.obstacleBoundary m obstacle t).isSome)
    (map : Table String (STBoundary K)) : ∃ map', Returns (fun fuel => setup.setObstacle m obstacle map fuel) map' := by
  by_cases hvirtual : obstacle.isVirtual = true
  · exact ⟨map,0,fun _ _ => if_pos hvirtual⟩
  · by_cases htrajectory : obstacle.hasTrajectory = true
    · simp only [obstacleBoundary,htrajectory,if_true] at hboundary
      have hround : (fun fuel => setup.setObstacle m obstacle map fuel) =
          fun fuel => setup.setDynamicObstacle m obstacle fuel setup.timeRange.1 map := by
        funext fuel
        rw [setObstacle,if_neg hvirtual,if_pos htrajectory]
      rw [hround]
      exact setDynamicObstacle_returns hres hboundary setup.timeRange.1 map
    · have hpolygon := hboundary 0
      rw [obstacleBoundary,if_neg htrajectory] at hpolygon
      obtain ⟨_,hsl⟩ := isSome_iff_exists.mp hpolygon
      have hround : (fun fuel => setup.setObstacle m obstacle map fuel) = fun _ => setup.setStaticObstacle m obstacle map := by
        funext fuel
        rw [setObstacle,if_neg hvirtual,if_neg htrajectory]
      rw [hround,setStaticObstacle,hsl]
      exact ⟨_,returns_const _⟩

end Returns
end PathTimeSetup

namespace PathTimeGraph
variable [LinearOrder K] {m : Cmath K} {setup : PathTimeSetup K} {obstacles : List (Obstacle K)}
  {graph : PathTimeGraph K} {t : K}

theorem init_eq (h : Returns (init m setup obstacles) graph) : ∃ fuel map,
    setup.setupObstacles m obstacles fuel = some map ∧ graph = ⟨setup.timeRange,map,map.entries.map Sigma.snd⟩ := by
  obtain ⟨fuel,hfuel⟩ := h
  have hinit := hfuel fuel le_rfl
  rw [init] at hinit
  split at hinit
  next =>
    obtain ⟨map,hmap,rfl⟩ := map_eq_some_iff.mp hinit
    exact ⟨fuel,map,hmap,rfl⟩
  next => cases hinit

theorem init_returns [IsStrictOrderedRing K] [Archimedean K] (hpath : setup.pathRange.1 < setup.pathRange.2)
    (htime : setup.timeRange.1 < setup.timeRange.2) (hres : 0 < setup.flags.trajectoryTimeResolution)
    (hboundary : ∀ o ∈ obstacles, ∀ t, (setup.obstacleBoundary m o t).isSome) :
    ∃ graph, Returns (init m setup obstacles) graph := by
  obtain ⟨map,h⟩ := exists_returns_foldlM (k := fun fuel map obstacle => setup.setObstacle m obstacle map fuel)
    (fun o ho map => setObstacle_returns hres (hboundary o ho) map) ∅
  have hinit : init m setup obstacles = fun fuel => (setup.setupObstacles m obstacles fuel).map fun map =>
      ⟨setup.timeRange,map,map.entries.map Sigma.snd⟩ := by
    funext fuel
    rw [init,if_pos ⟨hpath,htime⟩]
  rw [hinit]
  exact ⟨_,h.map _⟩

variable [IsStrictOrderedRing K]

theorem getPathBlockingIntervals_eq (h : Returns (init m setup obstacles) graph) (hfrom : setup.timeRange.1 ≤ t)
    (hto : t ≤ setup.timeRange.2) : graph.getPathBlockingIntervals t = some [] := by
  obtain ⟨_,_,hmap,rfl⟩ := init_eq h
  have huntimed := untimed_setupObstacles hmap
  rw [getPathBlockingIntervals,if_pos ⟨hfrom,hto⟩,filter_eq_nil_iff.mpr]
  · rfl
  intro _ hb
  obtain ⟨e,he,rfl⟩ := mem_map.mp hb
  obtain ⟨hmin,hmax⟩ := huntimed e.1 e.2 (AList.mem_lookup_iff.mpr he)
  -- every time is after the latest or before the earliest one
  rw [decide_eq_true_eq,not_not,hmin,hmax]
  rcases le_or_gt t 0 with hle | hgt
  · exact .inr (hle.trans_lt doubleMax_pos)
  · exact .inl ((neg_neg_of_pos doubleMax_pos).trans hgt)

/-- Ten metres of a straight lane, for eight seconds. -/
def straightLane : PathTimeSetup K where
  flags := ⟨4,8,1/10⟩
  discretizedRefPoints := axis
  getLaneWidth _ := some (2, 2)
  pathRange := (0, 10)
  timeRange := (0, 8)

def parkedCar : Obstacle K where
  id := "car"
  isVirtual := false
  perceptionObstacle := ⟨⟨11/2,0⟩,0,1,2⟩
  perceptionPolygon := [⟨5,-1⟩,⟨6,-1⟩,⟨6,1⟩,⟨5,1⟩]
  trajectory := []

theorem obstacleBoundary_parkedCar (t : ℝ) : straightLane.obstacleBoundary .real parkedCar t = some ⟨5,6,-1,1⟩ := by
  have hmax : (2 : ℝ)^3 ≤ doubleMax := pow_le_doubleMax (by decide)
  have hfrenet (x y : ℝ) : getPathFrenetCoordinate .real straightLane.discretizedRefPoints x y = some (x, y) :=
    getPathFrenetCoordinate_axis x y
  show straightLane.computeObstacleBoundary .real [⟨5,-1⟩,⟨6,-1⟩,⟨6,1⟩,⟨5,1⟩] = some ⟨5,6,-1,1⟩
  simp only [computeObstacleBoundary,foldlM_cons,foldlM_nil,hfrenet,map_some, bind_eq_bind,bind_some]
  rw [min_eq_right (by linarith : (5 : ℝ) ≤ doubleMax),max_eq_right (by linarith : -doubleMax ≤ (5 : ℝ)),
    min_eq_right (by linarith : (-1 : ℝ) ≤ doubleMax),max_eq_right (by linarith : -doubleMax ≤ (-1 : ℝ))]
  norm_num

theorem considers_parkedCar : (straightLane : PathTimeSetup ℝ).considers ⟨5,6,-1,1⟩ = true := by
  norm_num [considers,straightLane]

theorem straightLane_returns : ∃ graph, Returns (init .real straightLane [(parkedCar : Obstacle ℝ)]) graph := by
  apply init_returns
  · norm_num [straightLane]
  · norm_num [straightLane]
  · norm_num [straightLane]
  · intro _ ho _
    rw [mem_singleton.mp ho,obstacleBoundary_parkedCar,isSome_some]

def Blocks (graph : PathTimeGraph K) (slBoundary : SLBoundary K) (t : K) : Prop :=
  ∃ intervals, graph.getPathBlockingIntervals t = some intervals ∧
    ∃ interval ∈ intervals, interval.1 ≤ slBoundary.startS ∧ slBoundary.endS ≤ interval.2

/-- The obstacles on the path are blocked exactly when there are none. -/
theorem blocks_iff (h : Returns (init m setup obstacles) graph) (hfrom : setup.timeRange.1 ≤ t)
    (hto : t ≤ setup.timeRange.2) : graph.getPathBlockingIntervals t = some [] ∧
    ((∀ o ∈ obstacles, ∀ sl, setup.obstacleBoundary m o t = some sl → setup.considers sl = true → graph.Blocks sl t) ↔
      ∀ o ∈ obstacles, ∀ sl, setup.obstacleBoundary m o t = some sl → setup.considers sl = false) := by
  have hempty := getPathBlockingIntervals_eq h hfrom hto
  refine ⟨hempty,?_,?_⟩
  · intro hblocks o ho sl hsl
    by_contra hconsiders
    obtain ⟨_,hintervals,_,hmem,-⟩ := hblocks o ho sl hsl (Bool.eq_true_of_not_eq_false hconsiders)
    rw [hempty] at hintervals
    cases hintervals
    cases hmem
  · intro hnone o ho sl hsl hconsiders
    rw [hnone o ho sl hsl] at hconsiders
    cases hconsiders

/-- The lane with the parked car. -/
theorem blocks_iff_parkedCar : ∃ graph, Returns (init .real straightLane [(parkedCar : Obstacle ℝ)]) graph ∧
    graph.getPathBlockingIntervals 4 = some [] := by
  obtain ⟨graph,h⟩ := straightLane_returns
  exact ⟨graph,h,(blocks_iff (t := 4) h (by norm_num [straightLane]) (by norm_num [straightLane])).1⟩

/-- The car is considered and nothing is blocked. -/
theorem parkedCar_unblocked : ∃ graph, Returns (init .real straightLane [(parkedCar : Obstacle ℝ)]) graph ∧
    (parkedCar : Obstacle ℝ).isVirtual = false ∧
    straightLane.obstacleBoundary .real parkedCar (0 : ℝ) = some ⟨5,6,-1,1⟩ ∧
    (straightLane : PathTimeSetup ℝ).considers ⟨5,6,-1,1⟩ = true ∧ ¬ graph.Blocks ⟨5,6,-1,1⟩ 0 := by
  obtain ⟨graph,h⟩ := straightLane_returns
  refine ⟨graph,h,rfl,obstacleBoundary_parkedCar 0,considers_parkedCar,?_⟩
  rintro ⟨_,hintervals,_,hmem,-⟩
  rw [getPathBlockingIntervals_eq (t := 0) h le_rfl (by norm_num [straightLane])] at hintervals
  cases hintervals
  cases hmem

end PathTimeGraph

end Apollo.Modules.Planning
