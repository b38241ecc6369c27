import Apollo.Modules.Common.Math.Box2d
import Apollo.Modules.Planning.OpenSpace.CoarseTrajectoryGenerator.GridSearch

/-! `HybridAStar::Plan` without the smoothing of s-curves, and this smoothing. The generator of Reeds-Shepp paths may
answer anything. The program is aborted by a failed check, by a loop in one of its calls that has no end, and where a
number that is none or infinite would become the index of a node. -/
namespace Apollo.Modules.Planning
open Foundation Common.Math

structure Pose (K : Type) where
  x : K
  y : K
  phi : K

/-- The poses of a node are not empty. The last one is the node's own. -/
structure Node3d (K : Type) where
  first : Pose K
  rest : List (Pose K)
  direction : Bool
  steering : K
  trajCost : K
  heuristicCost : WithTop K

/-- A node with the nodes before it, the nearest first. -/
structure Trail (K : Type) where
  node : Node3d K
  before : List (Node3d K)

structure ReedSheppPath (K : Type) where
  x : List K
  y : List K
  phi : List K

structure VehicleParam (K : Type) where
  length : K
  width : K
  backEdgeToCenter : K
  wheelBase : K

abbrev GridIndex := Int × Int × Int

structure HybridAStar (K : Type) where
  vehicleParam : VehicleParam K
  nextNodeNum : Nat
  maxSteerAngle : K
  stepSize : K
  xyGridResolution : K
  phiGridResolution : K
  deltaT : K
  trajForwardPenalty : K
  trajBackPenalty : K
  trajGearSwitchPenalty : K
  trajSteerPenalty : K
  trajSteerChangePenalty : K
  gridAStarXyResolution : K
  nodeRadius : K
  xyBounds : XYBounds K
  obstaclesLinesegmentsVec : List (List (LineSegment2d K))

structure HybridAStartResult (K : Type) where
  poses : List (Pose K)
  v : List K
  a : List K
  steer : List K

namespace Node3d
variable {K : Type}

def poses (node : Node3d K) : List (Pose K) := node.first::node.rest

def pose (node : Node3d K) : Pose K := node.rest.getLastD node.first

def getStepSize (node : Node3d K) : Nat := node.rest.length+1

def ofPose [Zero K] (pose : Pose K) : Node3d K := ⟨pose,[],true,0,0,((0 : K) : WithTop K)⟩

/-- The constructor from the poses of a path. The sizes are checked, and there is a last pose. -/
def ofTraversed [Zero K] (path : ReedSheppPath K) : Option (Node3d K) :=
  if path.x.length = path.y.length ∧ path.x.length = path.phi.length then
    match List.zipWith (fun x s => Pose.mk x s.1 s.2) path.x (path.y.zip path.phi) with
    | [] => none
    | first::rest => some ⟨first,rest,true,0,0,((0 : K) : WithTop K)⟩
  else none

def getCost [Add K] (node : Node3d K) : WithTop K := node.trajCost+node.heuristicCost

end Node3d

namespace HybridAStar
variable {K : Type} [Field K] [LinearOrder K] (m : Cmath K)

/-- The line segments of the obstacles. An obstacle with no vertices makes the loop leave its vector. -/
def obstaclesLinesegments (obstaclesVerticesVec : List (List (Vec2d K))) : Option (List (List (LineSegment2d K))) :=
  obstaclesVerticesVec.mapM fun vertices =>
    if vertices.isEmpty then none else some (List.zipWith (LineSegment2d.ofEnds m) vertices vertices.tail)

def getBoundingBox (vehicleParam : VehicleParam K) (pose : Pose K) : Option (Box2d K) :=
  let shiftDistance := vehicleParam.length/2 - vehicleParam.backEdgeToCenter
  Box2d.ofHeading m ⟨pose.x+shiftDistance*m.cos pose.phi,pose.y+shiftDistance*m.sin pose.phi⟩ pose.phi
    vehicleParam.length vehicleParam.width

variable (planner : HybridAStar K)

def isOutside (pose : Pose K) : Bool :=
  planner.xyBounds.xmax < pose.x || pose.x < planner.xyBounds.xmin || planner.xyBounds.ymax < pose.y ||
    pose.y < planner.xyBounds.ymin

def hasCollision (box : Box2d K) : Bool :=
  planner.obstaclesLinesegmentsVec.any fun linesegments => linesegments.any fun linesegment =>
    box.hasOverlap m linesegment

def checkPoses : List (Pose K) → Option Bool
  | [] => some true
  | pose::rest =>
    if planner.isOutside pose then some false
    else
      (getBoundingBox m planner.vehicleParam pose).bind fun box =>
        if planner.hasCollision m box then some false else checkPoses rest

/-- The poses from `check_start_index` on. -/
def checkedPoses (node : Node3d K) : List (Pose K) := if node.getStepSize = 1 then [node.first] else node.rest

def validityCheck (node : Node3d K) : Option Bool :=
  if planner.obstaclesLinesegmentsVec.isEmpty then some true else planner.checkPoses m (checkedPoses node)

def drive (steering traveledDistance : K) : Nat → Pose K → List (Pose K)
  | 0, _ => []
  | steps+1, last =>
    let next : Pose K := ⟨last.x+traveledDistance*m.cos last.phi,last.y+traveledDistance*m.sin last.phi,
      m.normalizeAngle (last.phi+traveledDistance/planner.vehicleParam.wheelBase*m.tan steering)⟩
    next::drive steering traveledDistance steps next

variable [FloorRing K]

/-- How often `i < arc / step_size_` holds. With no step size the loop has no end. -/
def driveSteps : Option Nat :=
  let arc := m.sqrt 2*planner.xyGridResolution
  if planner.stepSize = 0 then if 0 < arc then none else some 0
  else some ⌈arc/planner.stepSize⌉.toNat

/-- A motion primitive divides by zero. Its headings after the first one and its positions after the second one are
not numbers. -/
def isUndefined : Bool := planner.nextNodeNum = 2 || planner.vehicleParam.wheelBase = 0

/-- `Next_node_generator`. The result may be the null pointer. -/
def nextNodeGenerator (current : Node3d K) (nextNodeIndex : Nat) : Option (Option (Node3d K)) :=
  let half : K := planner.nextNodeNum/2
  let forward := decide ((nextNodeIndex : K) < half)
  let index := if forward then nextNodeIndex else nextNodeIndex - planner.nextNodeNum/2
  let steering := -planner.maxSteerAngle+2*planner.maxSteerAngle/(half - 1)*index
  let traveledDistance := if forward then planner.stepSize else -planner.stepSize
  (planner.driveSteps m).bind fun steps =>
    let rest := planner.drive m steering traveledDistance steps current.pose
    -- the comparisons with a position that is not a number are false
    let outside := planner.isOutside (rest.getLastD current.pose) && !(planner.isUndefined && 2 ≤ steps)
    if outside then some none
    else if planner.isUndefined && 1 ≤ steps then none
    else some (some ⟨current.pose,rest,decide (0 < traveledDistance),steering,0,((0 : K) : WithTop K)⟩)

def trajCost (current next : Node3d K) : K :=
  (if next.direction then ((next.getStepSize - 1 : Nat) : K)*planner.stepSize*planner.trajForwardPenalty
    else ((next.getStepSize - 1 : Nat) : K)*planner.stepSize*planner.trajBackPenalty) +
  (if current.direction ≠ next.direction then planner.trajGearSwitchPenalty else 0) +
  planner.trajSteerPenalty * |next.steering| +
  planner.trajSteerChangePenalty * |next.steering - current.steering|

def heuristicGenerator : GridSearch K :=
  ⟨planner.gridAStarXyResolution,planner.nodeRadius,planner.xyBounds,planner.obstaclesLinesegmentsVec⟩

def holoObstacleHeuristic (dpMap : DpMap K) (next : Node3d K) : WithTop K :=
  planner.heuristicGenerator.checkDpMap dpMap next.pose.x next.pose.y

def calculateNodeCost (dpMap : DpMap K) (current next : Node3d K) : Node3d K :=
  { next with
    trajCost := current.trajCost+planner.trajCost current next
    heuristicCost := planner.holoObstacleHeuristic dpMap next }

def getIndex (node : Node3d K) : GridIndex :=
  (truncate ((node.pose.x - planner.xyBounds.xmin)/planner.xyGridResolution),
    truncate ((node.pose.y - planner.xyBounds.ymin)/planner.xyGridResolution),
    truncate ((node.pose.phi - -m.pi)/planner.phiGridResolution))

/-- The loop of `GetResult` over the nodes. The last one has no node before it. -/
def collect : List (Node3d K) → List (Pose K)
  | [] => []
  | [start] => [start.pose]
  | node::before => node.poses.reverse.dropLast ++ collect before

def gearOf (pose next : Pose K) : Bool :=
  |m.normalizeAngle (m.atan2 (next.y - pose.y) (next.x - pose.x) - pose.phi)| < m.pi/2

/-- The loop of `TrajectoryPartition`, with the gear and the poses of the current part. -/
def partitionFrom (gear : Bool) (current : List (Pose K)) : List (Pose K) → List (List (Pose K))
  | [] => [current]
  | [last] => [current ++ [last]]
  | pose::next::rest =>
    if gearOf m pose next ≠ gear then (current ++ [pose])::partitionFrom (gearOf m pose next) [pose] (next::rest)
    else partitionFrom gear (current ++ [pose]) (next::rest)

def generateSpeedAcceleration (poses : List (Pose K)) : Option (HybridAStartResult K) :=
  if poses.length < 2 then none
  else
    let pose i := poses.getD i ⟨0,0,0⟩
    let speed i :=
      ((((pose (i+1)).x - (pose i).x)/planner.deltaT)*m.cos (pose i).phi +
          (((pose i).x - (pose (i - 1)).x)/planner.deltaT)*m.cos (pose i).phi)/2 +
        ((((pose (i+1)).y - (pose i).y)/planner.deltaT)*m.sin (pose i).phi +
          (((pose i).y - (pose (i - 1)).y)/planner.deltaT)*m.sin (pose i).phi)/2
    let v := 0::(List.range (poses.length - 2)).map (fun i => speed (i+1)) ++ [0]
    let a := (List.range (poses.length - 1)).map fun i => (v.getD (i+1) 0 - v.getD i 0)/planner.deltaT
    let steer := (List.range (poses.length - 1)).map fun i =>
      let discreteSteer := ((pose (i+1)).phi - (pose i).phi)*planner.vehicleParam.wheelBase/planner.stepSize
      if 0 < v.getD i 0 then m.atan discreteSteer else m.atan (-discreteSteer)
    some ⟨poses,v,a,steer⟩

/-- The loops over the steps of a part. A read of an element that does not exist is `none`. -/
def stepsM {β : Type} (poses : List (Pose K)) (f : Nat → Pose K → Pose K → Option β) : Option (List β) :=
  (List.range (poses.length - 1)).mapM fun i => poses[i]?.bind fun pose => poses[i+1]?.bind (f i pose)

def loadSteer (poses : List (Pose K)) (v : List K) : Option (List K) :=
  stepsM poses fun i pose next => v[i]?.map fun v =>
    let discreteSteer := (next.phi - pose.phi)*planner.vehicleParam.wheelBase/planner.stepSize
    if 0 < v then m.atan discreteSteer else m.atan (-discreteSteer)

/-- What `PiecewiseJerkSpeedProblem` is given of a part. -/
structure PathTimeQp (K : Type) where
  numOfKnots : Nat
  initS : K × K × K
  xBounds : List (K × K)
  dxBounds : List (K × K)
  xRef : List K
  endS : K

structure SpeedProfile (K : Type) where
  optX : List K
  optDx : List K
  optDdx : List K

/-- The result comes with its `accumulated_s`. The inner `none` is the answer `false`. -/
def generateSCurveSpeedAcceleration (optimize : PathTimeQp K → Option (SpeedProfile K)) (poses : List (Pose K)) :
    Option (Option (List K × HybridAStartResult K)) :=
  let xSize := poses.length
  if xSize < 2 then some none
  else
    (stepsM poses fun _ pose next => some (((next.x - pose.x)/planner.deltaT)*m.cos pose.phi +
      ((next.y - pose.y)/planner.deltaT)*m.sin pose.phi)).bind fun speeds =>
        let s := speeds.scanl (fun s discreteV => s+discreteV*planner.deltaT) 0
        let v := (0::speeds).set (xSize - 1) 0
        let xBounds := (-10, 10)::s.tail.map fun s => (s - 10, s+10)
        let dxBounds := ((0, 0)::speeds.map fun discreteV => (discreteV - 10, discreteV+10)).set (xSize - 1) (0, 0)
        s[0]?.bind fun s0 => v[0]?.bind fun v0 => v[1]?.bind fun v1 => s[xSize - 1]?.bind fun endS =>
          match optimize ⟨xSize,(s0, v0, (v1 - v0)/planner.deltaT),xBounds,dxBounds,s,endS⟩ with
          | none => some none
          | some profile => (planner.loadSteer m poses profile.optDx).map fun steer =>
            some (profile.optX, ⟨poses,profile.optDx,profile.optDdx.dropLast,steer⟩)

/-- A point of the path, its `s`, and the time, speed and acceleration there. -/
def loadPoint (s : List K) (part : HybridAStartResult K) (i : Nat) : Option (Pose K × K × K × K × K) :=
  part.poses[i]?.bind fun pose => s[i]?.bind fun s => part.v[i]?.bind fun v => part.a[i]?.map fun a =>
    (pose, s, (i : K)*planner.deltaT, v, a)

def loadPoints (s : List K) (part : HybridAStartResult K) : Option (List (Pose K × K × K × K × K)) :=
  (List.range part.poses.length).mapM (planner.loadPoint s part)

/-- `CombinePathAndSpeedProfile`, with the points that its loop pushes. -/
def combinePathAndSpeedProfile (points : List (Pose K × K × K × K)) : Option (List K × HybridAStartResult K) :=
  let poses := points.map (·.1)
  let v := points.map (·.2.1)
  (planner.loadSteer m poses v).map fun steer =>
    (points.map (·.2.2.2), ⟨poses,v,(points.map (·.2.2.1)).dropLast,steer⟩)

/-- `GetTemporalProfile`. The parts of the trajectory have their common poses once. -/
def getTemporalProfile (poses : List (Pose K)) : Option (HybridAStartResult K) :=
  match poses with
  | first::second::rest =>
    ((partitionFrom m (gearOf m first second) [] (first::second::rest)).mapM
      (planner.generateSpeedAcceleration m)).bind fun parts =>
        parts.getLast?.map fun last =>
          ⟨parts.flatMap (fun part => part.poses.dropLast) ++ last.poses.getLast?.toList,
            parts.flatMap (fun part => part.v.dropLast) ++ last.v.getLast?.toList,
            parts.flatMap fun part => part.a,parts.flatMap fun part => part.steer⟩
  | _ => none

def getResult (final : Trail K) : Option (HybridAStartResult K) :=
  (planner.getTemporalProfile m (collect (final.node::final.before)).reverse).bind fun result =>
    if result.poses.length ≠ result.v.length then none
    else if result.a.length ≠ result.steer.length ∨ result.poses.length - result.a.length ≠ 1 then none
    else some result

/-- `open_set_`, the indices of `close_set_`, and `open_pq_`. -/
structure Search (K : Type) where
  openSet : Table GridIndex (Trail K)
  closeSet : List GridIndex
  openPq : List (GridIndex × WithTop K)

/-- The body of the loop over the next nodes. -/
def visit (dpMap : DpMap K) (current : Trail K) (s : Search K) (i : Nat) : Option (Search K) :=
  (planner.nextNodeGenerator m current.node i).bind fun
    | none => some s
    | some next =>
      let index := planner.getIndex m next
      if index ∈ s.closeSet then some s
      else
        (planner.validityCheck m next).map fun valid =>
          if valid then
            match s.openSet.lookup index with
            | some _ => s
            | none =>
              let next := planner.calculateNodeCost dpMap current.node next
              { s with
                openSet := s.openSet.insert index ⟨next,current.node::current.before⟩
                openPq := (index, next.getCost)::s.openPq }
          else s

/-- `AnalyticExpansion` with an answer of the generator. `none` is the answer `false`. -/
def analyticExpansion (answer : Option (ReedSheppPath K)) (current : Trail K) : Option (Option (Trail K)) :=
  match answer with
  | none => some none
  | some path =>
    (Node3d.ofTraversed path).bind fun node =>
      (planner.validityCheck m node).map fun valid =>
        if valid then some ⟨node,current.node::current.before⟩ else none

/-- Where a call of `Plan` is. What it returns is a result, or `none` for `false`. -/
inductive PlanState (K : Type)
  | mapping (dpMap : DpMap K)
  | searching (dpMap : DpMap K) (search : Search K)
  | returned (result : Option (HybridAStartResult K))
  | aborted

inductive PlanEvent (K : Type)
  | mapIteration (entry : Cell × K)
  | mapEnd
  | searchIteration (entry : GridIndex × WithTop K) (answer : Option (ReedSheppPath K))
  | searchEnd

/-- An iteration of the main loop with the node from the top of the queue. -/
def iterate (dpMap : DpMap K) (s : Search K) (current : Trail K) (answer : Option (ReedSheppPath K)) : PlanState K :=
  match planner.analyticExpansion m answer current with
  | none => .aborted
  | some (some final) => .returned (planner.getResult m final)
  | some none =>
    match (List.range planner.nextNodeNum).foldlM (planner.visit m dpMap current)
      { s with closeSet := planner.getIndex m current.node::s.closeSet } with
    | none => .aborted
    | some s => .searching dpMap s

def startSearch (start : Node3d K) : Search K :=
  ⟨(∅ : Table GridIndex (Trail K)).insert (planner.getIndex m start) ⟨start,[]⟩,[],
    [(planner.getIndex m start, start.getCost)]⟩

def step (sPose : Pose K) (ex ey : K) : PlanState K → PlanEvent K → Option (PlanState K)
  | .mapping dpMap, .mapIteration entry =>
    ((planner.heuristicGenerator.generateDpMap m ex ey).step dpMap entry).map .mapping
  | .mapping dpMap, .mapEnd =>
    if dpMap.openPq.isEmpty then some (.searching dpMap (planner.startSearch m (.ofPose sPose))) else none
  | .searching dpMap s, .searchIteration entry answer =>
    if entry ∈ s.openPq ∧ s.openPq.all fun other => entry.2 ≤ other.2 then
      match s.openSet.lookup entry.1 with
      | none => some .aborted
      | some current => some (planner.iterate m dpMap { s with openPq := s.openPq.erase entry } current answer)
    else none
  | .searching _ s, .searchEnd => if s.openPq.isEmpty then some (.returned none) else none
  | _, _ => none

def planStart (sPose ePose : Pose K) : PlanState K :=
  if planner.xyGridResolution = 0 ∨ planner.phiGridResolution = 0 then .aborted
  else
    match planner.validityCheck m (.ofPose sPose) with
    | none => .aborted
    | some false => .returned none
    | some true =>
      match planner.validityCheck m (.ofPose ePose) with
      | none => .aborted
      | some false => .returned none
      | some true =>
        if planner.gridAStarXyResolution = 0 then .aborted
        else .mapping (.start (planner.heuristicGenerator.endNode ePose.x ePose.y))

/-- `Plan` from a start to an end, with the bounds and obstacles that were loaded. -/
def planLoaded (sPose ePose : Pose K) : System (PlanState K) (PlanEvent K) where
  initial s := s = planner.planStart m sPose ePose
  step := planner.step m sPose ePose.x ePose.y

def plan (sPose ePose : Pose K) (xyBounds : XYBounds K) (obstaclesVerticesVec : List (List (Vec2d K))) :
    Option (System (PlanState K) (PlanEvent K)) :=
  (obstaclesLinesegments m obstaclesVerticesVec).map fun linesegments =>
    planLoaded m { planner with xyBounds := xyBounds, obstaclesLinesegmentsVec := linesegments } sPose ePose

end HybridAStar
end Apollo.Modules.Planning
