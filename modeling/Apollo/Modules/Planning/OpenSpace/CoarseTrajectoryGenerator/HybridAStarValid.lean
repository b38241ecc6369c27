import Apollo.Foundation.FallibleList
import Apollo.Modules.Planning.OpenSpace.CoarseTrajectoryGenerator.HybridAStar

/-! The poses of a plan are poses that `ValidityCheck` went through. -/
namespace Apollo.Modules.Planning
open Foundation Common.Math List LineSegment2d GridSearch Node3d Cmath

namespace HybridAStar
variable {K : Type}

theorem rest_subset_checkedPoses (node : Node3d K) : node.rest ⊆ checkedPoses node := by
  rw [checkedPoses]
  split
  case isTrue hsize =>
    have hnil := eq_nil_of_length_eq_zero (Nat.succ.inj hsize)
    rw [hnil]
    exact nil_subset _
  case isFalse => exact List.Subset.refl _

theorem pose_mem_checkedPoses (node : Node3d K) : node.pose ∈ checkedPoses node := by
  obtain ⟨first,rest,_,_,_,_⟩ := node
  cases rest with
  | nil => exact mem_singleton_self first
  | cons pose rest =>
    apply rest_subset_checkedPoses
    change (pose::rest).getLastD first ∈ pose::rest
    rw [getLastD_cons]
    exact getLastD_mem_cons ..

variable {result : HybridAStartResult K} {poses : List (Pose K)} {final current trail : Trail K} {s : Search K}
  {x : ℝ} {pose : Pose K} {node : Node3d K}

theorem exists_of_mem_collect {nodes : List (Node3d K)} (h : pose ∈ collect nodes) :
    ∃ node ∈ nodes, pose ∈ checkedPoses node := by
  induction nodes using collect.induct with
  | case1 => cases h
  | case2 start =>
    rw [collect,mem_singleton] at h
    rw [h]
    exact ⟨start,mem_cons_self,pose_mem_checkedPoses start⟩
  | case3 node _ hne ih =>
    rw [collect.eq_3 _ _ hne,mem_append] at h
    obtain h | h := h
    · rw [poses,reverse_cons,dropLast_concat,mem_reverse] at h
      exact ⟨node,mem_cons_self,rest_subset_checkedPoses node h⟩
    · obtain ⟨previous,hprevious,hpose⟩ := ih h
      exact ⟨previous,mem_cons_of_mem _ hprevious,hpose⟩

/-- The parts, each without its last pose, and the last pose of the last part. -/
def stitch (parts : List (List (Pose K))) : List (Pose K) :=
  parts.flatMap List.dropLast ++ (parts.getLast?.bind List.getLast?).toList

theorem stitch_cons (part : List (Pose K)) {parts : List (List (Pose K))} (hne : parts ≠ []) :
    stitch (part::parts) = part.dropLast ++ stitch parts := by
  rw [stitch,stitch,flatMap_cons,append_assoc,getLast?_cons_of_ne_nil hne]

theorem exists_stepsM {β : Type} (poses : List (Pose K)) {f : Nat → Pose K → Pose K → Option β}
    (h : ∀ i < poses.length, ∀ pose next, ∃ y, f i pose next = some y) :
    ∃ ys, stepsM poses f = some ys ∧ poses.length - 1 = ys.length := by
  obtain ⟨ys,hys⟩ : ∃ ys, stepsM poses f = some ys := by
    apply exists_mapM
    intro i hi
    have hnext := Nat.add_lt_of_lt_sub (List.mem_range.mp hi)
    have hi := Nat.lt_of_succ_lt hnext
    rw [getElem?_eq_getElem hi,getElem?_eq_getElem hnext]
    exact h i hi ..
  have hlength := (forall₂_of_mapM hys).length_eq
  rw [length_range] at hlength
  exact ⟨ys,hys,hlength⟩

variable [Field K] [LinearOrder K] {m : Cmath K} {planner : HybridAStar K}

theorem partitionFrom_ne_nil (gear : Bool) (current poses : List (Pose K)) :
    partitionFrom m gear current poses ≠ [] := by
  induction gear, current, poses using partitionFrom.induct m with
  | case1 | case2 => simp [partitionFrom]
  | case3 _ _ _ _ _ hgear => simp [partitionFrom,hgear]
  | case4 _ _ _ _ _ hgear => rwa [partitionFrom,if_neg hgear]

theorem stitch_partitionFrom (gear : Bool) (current poses : List (Pose K)) (hne : poses ≠ []) :
    stitch (partitionFrom m gear current poses) = current ++ poses := by
  induction gear, current, poses using partitionFrom.induct m with
  | case1 => exact absurd rfl hne
  | case2 => simp [partitionFrom,stitch]
  | case3 _ _ _ _ _ hgear ih =>
    rw [partitionFrom,if_pos hgear,stitch_cons _ (partitionFrom_ne_nil _ _ _),ih (cons_ne_nil _ _), dropLast_concat]
    rfl
  | case4 _ _ _ _ _ hgear ih =>
    rw [partitionFrom,if_neg hgear,ih (cons_ne_nil _ _),append_assoc]
    rfl

def OneGear (m : Cmath K) (part : List (Pose K)) : Prop :=
  2 ≤ part.length ∧ ∃ gear, part.IsChain fun pose next => gearOf m pose next = gear

theorem partitionFrom_gears (gear : Bool) (current poses : List (Pose K)) (hcurrent : current ≠ []) (hne : poses ≠ [])
    (h : (current ++ poses.take 1).IsChain fun pose next => gearOf m pose next = gear) :
    ∀ part ∈ partitionFrom m gear current poses, OneGear m part := by
  have hlong {current : List (Pose K)} (hcurrent : current ≠ []) (pose : Pose K) :
      2 ≤ (current ++ [pose]).length := by
    rw [length_append]
    exact Nat.succ_le_succ (length_pos_iff.mpr hcurrent)
  induction gear, current, poses using partitionFrom.induct m with
  | case1 => exact absurd rfl hne
  | case2 gear _ last => exact forall_mem_singleton.mpr ⟨hlong hcurrent last,gear,h⟩
  | case3 gear _ pose _ _ hgear ih =>
    rw [partitionFrom,if_pos hgear,forall_mem_cons]
    exact ⟨⟨hlong hcurrent pose,gear,h⟩,ih (cons_ne_nil _ _) (cons_ne_nil _ _) (isChain_pair.mpr rfl)⟩
  | case4 _ _ _ _ _ hgear ih =>
    rw [partitionFrom,if_neg hgear]
    refine ih (append_ne_nil_of_right_ne_nil _ (cons_ne_nil _ _)) (cons_ne_nil _ _) ?_
    refine isChain_append.mpr ⟨h,isChain_singleton _,?_⟩
    rintro last hlast _ ⟨⟩
    rw [getLast?_concat] at hlast
    cases hlast
    exact not_not.mp hgear

theorem partition_gears (first second : Pose K) (rest : List (Pose K)) :
    ∀ part ∈ partitionFrom m (gearOf m first second) [] (first::second::rest), OneGear m part := by
  rw [partitionFrom,if_neg (not_not.mpr rfl)]
  exact partitionFrom_gears _ _ _ (cons_ne_nil _ _) (cons_ne_nil _ _) (isChain_pair.mpr rfl)

structure Sized (result : HybridAStartResult K) : Prop where
  v : result.v.length = result.poses.length
  a : result.a.length+1 = result.poses.length
  steer : result.steer.length = result.a.length

theorem generateSpeedAcceleration_sized (m : Cmath K) (planner : HybridAStar K) (poses : List (Pose K))
    (h : 2 ≤ poses.length) :
    ∃ result, planner.generateSpeedAcceleration m poses = some result ∧ result.poses = poses ∧ Sized result := by
  rw [generateSpeedAcceleration,if_neg (by omega)]
  refine ⟨_,rfl,rfl,?_,?_,?_⟩
  · simp only [length_append,length_cons,length_map,length_range,length_nil]
    omega
  · simp only [length_map,length_range]
    omega
  · simp only [length_map]

theorem generateSpeedAcceleration_poses (h : planner.generateSpeedAcceleration m poses = some result) :
    result.poses = poses := by
  rw [generateSpeedAcceleration] at h
  split at h <;> cases h
  rfl

theorem getTemporalProfile_poses (h : planner.getTemporalProfile m poses = some result) : result.poses = poses := by
  unfold getTemporalProfile at h
  split at h
  case h_2 => cases h
  case h_1 first second rest =>
    obtain ⟨parts,hparts,h⟩ := Option.bind_eq_some_iff.mp h
    obtain ⟨_,hlast,rfl⟩ := Option.map_eq_some_iff.mp h
    have hposes : partitionFrom m (gearOf m first second) [] (first::second::rest) =
        parts.map HybridAStartResult.poses := by
      rw [← forall₂_eq_eq_eq,forall₂_map_right_iff]
      exact (forall₂_of_mapM hparts).imp fun _ _ hpart => (generateSpeedAcceleration_poses hpart).symm
    have hstitch := stitch_partitionFrom (m := m) (gearOf m first second) [] (first::second::rest) (cons_ne_nil _ _)
    rw [hposes,stitch,getLast?_map,hlast,flatMap_map] at hstitch
    exact hstitch

theorem getResult_poses (h : planner.getResult m final = some result) :
    result.poses = (collect (final.node::final.before)).reverse := by
  obtain ⟨_,hprofile,h⟩ := Option.bind_eq_some_iff.mp h
  split at h
  · cases h
  · split at h <;> cases h
    exact getTemporalProfile_poses hprofile

theorem length_flatMap_congr {α β γ : Type} {f : α → List β} {g : α → List γ} {xs : List α}
    (h : ∀ x ∈ xs, (f x).length = (g x).length) : (xs.flatMap f).length = (xs.flatMap g).length := by
  rw [length_flatMap,length_flatMap,map_congr_left h]

theorem length_toList_getLast? {α : Type} {xs : List α} (h : 0 < xs.length) : xs.getLast?.toList.length = 1 := by
  rw [getLast?_eq_some_getLast (length_pos_iff.mp h)]
  rfl

theorem exists_getTemporalProfile (m : Cmath K) (planner : HybridAStar K) (first second : Pose K)
    (rest : List (Pose K)) :
    ∃ result, planner.getTemporalProfile m (first::second::rest) = some result ∧ Sized result := by
  have hparts := partition_gears (m := m) first second rest
  have hne := partitionFrom_ne_nil (m := m) (gearOf m first second) [] (first::second::rest)
  have : Nonempty (HybridAStartResult K) := ⟨⟨[],[],[],[]⟩⟩
  choose! g hsome hposes hsized using generateSpeedAcceleration_sized m planner
  rw [getTemporalProfile,mapM_eq_map fun part hpart => hsome part (hparts part hpart).1,Option.bind_some,getLast?_map,
    getLast?_eq_some_getLast hne]
  have hlast := (hparts _ (getLast_mem hne)).1
  rw [← hposes _ hlast] at hlast
  have hmapped : ∀ r ∈ map g (partitionFrom m (gearOf m first second) [] (first::second::rest)), Sized r := by
    rw [forall_mem_map]
    exact fun part hpart => hsized part (hparts part hpart).1
  refine ⟨_,rfl,?_,?_,length_flatMap_congr fun r hr => (hmapped r hr).steer⟩
  · rw [length_append,length_append,length_toList_getLast?,length_toList_getLast?,length_flatMap_congr]
    · exact fun r hr => by rw [length_dropLast,length_dropLast,(hmapped r hr).v]
    · omega
    · rw [(hsized _ (hparts _ (getLast_mem hne)).1).v]
      omega
  · rw [length_append,length_toList_getLast? (by omega),length_flatMap_congr]
    exact fun r hr => by rw [length_dropLast,← (hmapped r hr).a]; rfl

/-- The parts have two poses and one gear each, and the profile stitched from them has the poses of the path. -/
theorem getTemporalProfile_stitches (m : Cmath K) (planner : HybridAStar K) (first second : Pose K)
    (rest : List (Pose K)) :
    (∀ part ∈ partitionFrom m (gearOf m first second) [] (first::second::rest), OneGear m part) ∧
    ∃ result, planner.getTemporalProfile m (first::second::rest) = some result ∧ result.poses = first::second::rest ∧
      ∀ final : Trail K, (collect (final.node::final.before)).reverse = first::second::rest →
        planner.getResult m final = some result := by
  obtain ⟨result,hprofile,hsized⟩ := exists_getTemporalProfile m planner first second rest
  refine ⟨partition_gears first second rest,result,hprofile,getTemporalProfile_poses hprofile,fun _ hfinal => ?_⟩
  have ha := hsized.a
  rw [getResult,hfinal,hprofile,Option.bind_some,if_neg (not_not.mpr hsized.v.symm),if_neg]
  rw [hsized.steer]
  omega

def Requested (optimize : PathTimeQp K → Option (SpeedProfile K)) : Prop :=
  ∀ qp profile, optimize qp = some profile → profile.optX.length = qp.numOfKnots ∧
    profile.optDx.length = qp.numOfKnots ∧ profile.optDdx.length = qp.numOfKnots

variable {optimize : PathTimeQp K → Option (SpeedProfile K)}

theorem exists_loadSteer (m : Cmath K) (planner : HybridAStar K) {v : List K} (hv : v.length = poses.length) :
    ∃ steer, planner.loadSteer m poses v = some steer := by
  apply Exists.imp fun _ => And.left
  apply exists_stepsM
  intro i hi _ _
  rw [getElem?_eq_getElem (hv ▸ hi)]
  exact ⟨_,rfl⟩

theorem generateSCurveSpeedAcceleration_sized (m : Cmath K) (planner : HybridAStar K) (hoptimize : Requested optimize)
    (hlong : 2 ≤ poses.length) :
    ∃ answer, planner.generateSCurveSpeedAcceleration m optimize poses = some answer ∧ ∀ s part,
      answer = some (s, part) → part.poses = poses ∧ s.length = poses.length ∧ part.v.length = poses.length ∧
        part.a.length = poses.length - 1 := by
  rw [generateSCurveSpeedAcceleration]
  simp only [if_neg (not_lt.mpr hlong)]
  obtain ⟨speeds,hspeeds,hlength⟩ := exists_stepsM poses fun _ _ _ _ => ⟨_,rfl⟩
  rw [hspeeds,Option.bind_some,getElem?_eq_getElem (by simp),getElem?_eq_getElem (by simp),
    getElem?_eq_getElem (by simp; omega),getElem?_eq_getElem (by simp; omega)]
  simp only [Option.bind_some]
  split
  case h_1 => exact ⟨none,rfl,nofun⟩
  case h_2 profile hprofile =>
    obtain ⟨hx,hdx,hddx⟩ := hoptimize _ _ hprofile
    obtain ⟨steer,hsteer⟩ := exists_loadSteer m planner hdx
    rw [hsteer]
    refine ⟨_,rfl,fun s part h => ?_⟩
    cases h
    exact ⟨rfl,hx,hdx,by rw [length_dropLast,hddx]⟩

/-- A vehicle of length two, and a grid with cells of size ten for the heuristic. -/
noncomputable def lotPlanner : HybridAStar ℝ where
  vehicleParam := ⟨2,1,1,1⟩
  nextNodeNum := 10
  maxSteerAngle := 1
  stepSize := 1
  xyGridResolution := 1
  phiGridResolution := 1
  deltaT := 1
  trajForwardPenalty := 1
  trajBackPenalty := 1
  trajGearSwitchPenalty := 1
  trajSteerPenalty := 1
  trajSteerChangePenalty := 1
  gridAStarXyResolution := 10
  nodeRadius := 1
  xyBounds := ⟨0,1,0,0⟩
  obstaclesLinesegmentsVec := [[.ofEnds .real ⟨10,0⟩ ⟨10,1⟩]]

def standing (qp : PathTimeQp ℝ) : Option (SpeedProfile ℝ) :=
  let zeros := replicate qp.numOfKnots 0
  some ⟨zeros,zeros,zeros⟩

theorem requested_standing : Requested standing := by
  intro qp _ h
  cases h
  exact ⟨length_replicate,length_replicate,length_replicate⟩

/-- `pop_back` leaves one acceleration less than the loop over the poses reads, and a part has poses, so that the loop
always fails. Every other read is of an element. -/
theorem sCurve_reads (m : Cmath K) (planner : HybridAStar K) (hoptimize : Requested optimize)
    (first second : Pose K) (rest : List (Pose K)) :
    (∀ poses ∈ partitionFrom m (gearOf m first second) [] (first::second::rest), ∃ answer,
      planner.generateSCurveSpeedAcceleration m optimize poses = some answer ∧ ∀ s part, answer = some (s, part) →
        part.poses ≠ [] ∧ ∀ i < part.poses.length, i < s.length ∧ i < part.v.length ∧
          (planner.loadPoint s part i = none ↔ i+1 = part.poses.length)) ∧
    ∀ points, ∃ answer, planner.combinePathAndSpeedProfile m points = some answer := by
  constructor
  · intro poses hposes
    have hlong := (partition_gears first second rest poses hposes).1
    obtain ⟨answer,hanswer,hsized⟩ := generateSCurveSpeedAcceleration_sized m planner hoptimize hlong
    refine ⟨answer,hanswer,fun s part h => ?_⟩
    obtain ⟨hsame,hs,hv,ha⟩ := hsized s part h
    rw [← hsame] at hs hv ha hlong
    refine ⟨ne_nil_of_length_pos (by omega),fun i hi => ?_⟩
    have his := hi.trans_eq hs.symm
    have hiv := hi.trans_eq hv.symm
    refine ⟨his,hiv,?_⟩
    rw [loadPoint,getElem?_eq_getElem hi,getElem?_eq_getElem his,getElem?_eq_getElem hiv]
    simp only [Option.bind_some,Option.map_eq_none_iff,getElem?_eq_none_iff,ha]
    omega
  · intro points
    have hv : (points.map (·.2.1)).length = (points.map (·.1)).length := by rw [length_map,length_map]
    obtain ⟨steer,hsteer⟩ := exists_loadSteer m planner hv
    rw [combinePathAndSpeedProfile,hsteer]
    exact ⟨_,rfl⟩

theorem sCurve_reads_standing : ∃ answer, lotPlanner.generateSCurveSpeedAcceleration .real standing
    [⟨0,0,0⟩,⟨1,0,0⟩] = some answer ∧ ∀ s part, answer = some (s, part) → part.poses ≠ [] ∧ ∀ i < part.poses.length,
      i < s.length ∧ i < part.v.length ∧ (lotPlanner.loadPoint s part i = none ↔ i+1 = part.poses.length) := by
  have h := (sCurve_reads .real lotPlanner requested_standing ⟨0,0,0⟩ ⟨1,0,0⟩ []).1
  rw [partitionFrom,if_neg (not_not.mpr rfl)] at h
  exact h _ mem_cons_self

theorem loadPoints_past_end : Requested standing ∧ ∃ s part, lotPlanner.generateSCurveSpeedAcceleration .real standing
    [⟨0,0,0⟩,⟨1,0,0⟩] = some (some (s, part)) ∧ lotPlanner.loadPoints s part = none :=
  ⟨requested_standing,_,_,rfl,rfl⟩

/-- The pose is in the bounds, and the box of the vehicle overlaps no obstacle. -/
def IsClear (m : Cmath K) (planner : HybridAStar K) (pose : Pose K) : Prop :=
  planner.isOutside pose = false ∧
    ∃ box, getBoundingBox m planner.vehicleParam pose = some box ∧ planner.hasCollision m box = false

omit [Field K] in
theorem isOutside_eq_false_iff : planner.isOutside pose = false ↔
      (planner.xyBounds.xmin ≤ pose.x ∧ pose.x ≤ planner.xyBounds.xmax) ∧
        planner.xyBounds.ymin ≤ pose.y ∧ pose.y ≤ planner.xyBounds.ymax := by
  simp only [isOutside,Bool.or_eq_false_iff,decide_eq_false_iff_not,not_lt]
  constructor
  · exact fun h => ⟨⟨h.1.1.2,h.1.1.1⟩,h.2,h.1.2⟩
  · exact fun h => ⟨⟨⟨h.1.2,h.1.1⟩,h.2.2⟩,h.2.1⟩

theorem obstaclesLinesegments_eq {obstaclesVerticesVec : List (List (Vec2d K))}
    {linesegments : List (List (LineSegment2d K))}
    (h : obstaclesLinesegments m obstaclesVerticesVec = some linesegments) :
    linesegments = obstaclesVerticesVec.map fun vertices =>
      List.zipWith (ofEnds m) vertices vertices.tail := by
  symm
  rw [← forall₂_eq_eq_eq,forall₂_map_left_iff]
  refine (forall₂_of_mapM h).imp fun _ _ hsegments => ?_
  split at hsegments
  · cases hsegments
  · exact Option.some.inj hsegments

theorem isClear_of_checkPoses (h : planner.checkPoses m poses = some true) :
    ∀ pose ∈ poses, planner.IsClear m pose := by
  induction poses with
  | nil => simp
  | cons _ _ ih =>
    rw [checkPoses] at h
    split at h
    case isTrue => cases h
    case isFalse hinside =>
      obtain ⟨box,hbox,h⟩ := Option.bind_eq_some_iff.mp h
      split at h
      case isTrue => cases h
      case isFalse hfree =>
        rw [forall_mem_cons]
        exact ⟨⟨Bool.eq_false_of_not_eq_true hinside,box,hbox,Bool.eq_false_of_not_eq_true hfree⟩,ih h⟩

def NodeClear (m : Cmath K) (planner : HybridAStar K) (node : Node3d K) : Prop :=
  ∀ pose ∈ checkedPoses node, planner.IsClear m pose

def TrailClear (m : Cmath K) (planner : HybridAStar K) (trail : Trail K) : Prop :=
  ∀ node ∈ trail.node::trail.before, planner.NodeClear m node

theorem nodeClear_of_validityCheck (hobstacles : planner.obstaclesLinesegmentsVec ≠ [])
    (h : planner.validityCheck m node = some true) : planner.NodeClear m node := by
  rw [validityCheck,if_neg (by rwa [List.isEmpty_iff])] at h
  exact isClear_of_checkPoses h

theorem TrailClear.cons (h : planner.TrailClear m trail) (hnode : planner.NodeClear m node) :
    planner.TrailClear m ⟨node,trail.node::trail.before⟩ :=
  forall_mem_cons.mpr ⟨hnode,h⟩

theorem TrailClear.getResult (h : planner.TrailClear m final) (hresult : planner.getResult m final = some result) :
    ∀ pose ∈ result.poses, planner.IsClear m pose := by
  intro pose hpose
  rw [getResult_poses hresult,mem_reverse] at hpose
  obtain ⟨node,hnode,hchecked⟩ := exists_of_mem_collect hpose
  exact h node hnode pose hchecked

def SearchClear (m : Cmath K) (planner : HybridAStar K) (s : Search K) : Prop :=
  ∀ index trail, s.openSet.lookup index = some trail → planner.TrailClear m trail

theorem SearchClear.insert (h : planner.SearchClear m s) (htrail : planner.TrailClear m trail) (index : GridIndex)
    (closeSet : List GridIndex) (openPq : List (GridIndex × WithTop K)) :
    planner.SearchClear m ⟨s.openSet.insert index trail,closeSet,openPq⟩ := by
  intro other found hfound
  rw [Table.lookup_insert_eq_ite] at hfound
  split at hfound
  · cases hfound
    exact htrail
  · exact h other found hfound

theorem TrailClear.analyticExpansion (hobstacles : planner.obstaclesLinesegmentsVec ≠ [])
    (hcurrent : planner.TrailClear m current) {answer : Option (ReedSheppPath K)}
    (h : planner.analyticExpansion m answer current = some (some final)) : planner.TrailClear m final := by
  cases answer with
  | none => cases h
  | some =>
    obtain ⟨_,-,h⟩ := Option.bind_eq_some_iff.mp h
    obtain ⟨_,hvalid,h⟩ := Option.map_eq_some_iff.mp h
    obtain ⟨htrue,h⟩ := Option.ite_none_right_eq_some.mp h
    cases h
    rw [htrue] at hvalid
    exact hcurrent.cons (nodeClear_of_validityCheck hobstacles hvalid)

variable [FloorRing K] {dpMap : DpMap K}

theorem SearchClear.visit (hobstacles : planner.obstaclesLinesegmentsVec ≠ [])
    (hcurrent : planner.TrailClear m current) {t : Search K} (hs : planner.SearchClear m s) {i : Nat}
    (h : planner.visit m dpMap current s i = some t) : planner.SearchClear m t := by
  obtain ⟨next,-,h⟩ := Option.bind_eq_some_iff.mp h
  cases next with
  | none =>
    cases h
    exact hs
  | some next =>
    dsimp only at h
    split at h
    · cases h
      exact hs
    · obtain ⟨_,hvalid,rfl⟩ := Option.map_eq_some_iff.mp h
      split
      case isFalse => exact hs
      case isTrue htrue =>
        rw [htrue] at hvalid
        -- the costs do not change the poses of the node
        have hnext : planner.NodeClear m (planner.calculateNodeCost dpMap current.node next) :=
          nodeClear_of_validityCheck hobstacles hvalid
        split
        · exact hs
        · exact hs.insert (hcurrent.cons hnext) _ _ _

/-- With no obstacle, a state of `Plan` is one before the search. -/
def PlanClear (m : Cmath K) (planner : HybridAStar K) (sPose : Pose K) (ex ey : K) : PlanState K → Prop
  | .mapping dpMap =>
    (planner.heuristicGenerator.generateDpMap m ex ey).Reachable dpMap ∧
      (planner.obstaclesLinesegmentsVec ≠ [] → planner.NodeClear m (.ofPose sPose))
  | .searching _ s => planner.obstaclesLinesegmentsVec ≠ [] ∧ planner.SearchClear m s
  | .returned (some result) => ∀ pose ∈ result.poses, planner.IsClear m pose
  | .returned none => True
  | .aborted => True

variable {sPose ePose : Pose K} {ex ey : K}

theorem planClear_iterate (hobstacles : planner.obstaclesLinesegmentsVec ≠ []) (hs : planner.SearchClear m s)
    (hcurrent : planner.TrailClear m current) (answer : Option (ReedSheppPath K)) :
    planner.PlanClear m sPose ex ey (planner.iterate m dpMap s current answer) := by
  rw [iterate]
  split
  case h_1 => trivial
  case h_2 final hfinal =>
    cases hresult : planner.getResult m final with
    | none => trivial
    | some => exact (hcurrent.analyticExpansion hobstacles hfinal).getResult hresult
  case h_3 =>
    split
    case h_1 => trivial
    case h_2 ht =>
      have hstart : planner.SearchClear m { s with closeSet := planner.getIndex m current.node::s.closeSet } := hs
      exact ⟨hobstacles,foldlM_keeps (fun _ _ _ _ hu hv => hu.visit hobstacles hcurrent hv) hstart ht⟩

theorem obstacles_ne_nil_of_reachable (h : (planner.heuristicGenerator.generateDpMap m ex ey).Reachable dpMap)
    (hempty : dpMap.openPq = []) : planner.obstaclesLinesegmentsVec ≠ [] := by
  intro hnil
  apply (DpMap.Sound.of_reachable h).openPq_ne_nil _ hempty
  intro _
  rw [checkConstraints,if_pos]
  exact isEmpty_iff.mpr hnil

theorem PlanClear.step {s t : PlanState K} {e : PlanEvent K} (hs : planner.PlanClear m sPose ex ey s)
    (h : planner.step m sPose ex ey s e = some t) : planner.PlanClear m sPose ex ey t := by
  unfold HybridAStar.step at h
  split at h
  case h_1 dpMap entry =>
    obtain ⟨next,hnext,rfl⟩ := Option.map_eq_some_iff.mp h
    exact ⟨hs.1.next hnext,hs.2⟩
  case h_2 dpMap =>
    obtain ⟨hempty,h⟩ := Option.ite_none_right_eq_some.mp h
    cases h
    have hobstacles := obstacles_ne_nil_of_reachable hs.1 (isEmpty_iff.mp hempty)
    refine ⟨hobstacles,?_⟩
    intro _ _ htrail
    rw [startSearch,Table.lookup_insert_eq_ite] at htrail
    split at htrail <;> cases htrail
    exact forall_mem_singleton.mpr (hs.2 hobstacles)
  case h_3 dpMap search entry answer =>
    obtain ⟨_,h⟩ := Option.ite_none_right_eq_some.mp h
    split at h
    · cases h
      trivial
    case h_2 hcurrent =>
      cases h
      have hpopped : planner.SearchClear m { search with openPq := search.openPq.erase entry } := hs.2
      exact planClear_iterate hs.1 hpopped (hs.2 _ _ hcurrent) answer
  case h_4 dpMap search =>
    split at h
    case isFalse => cases h
    case isTrue =>
      cases h
      trivial
  case h_5 => cases h

theorem planClear_planStart : planner.PlanClear m sPose ePose.x ePose.y (planner.planStart m sPose ePose) := by
  rw [planStart]
  split
  case isTrue => trivial
  case isFalse =>
    split
    case h_1 => trivial
    case h_2 => trivial
    case h_3 hstart =>
      split
      case h_1 => trivial
      case h_2 => trivial
      case h_3 =>
        split
        case isTrue => trivial
        case isFalse => exact ⟨.start rfl,fun hobstacles => nodeClear_of_validityCheck hobstacles hstart⟩

theorem planClear_of_reachable {s : PlanState K} (h : (planner.planLoaded m sPose ePose).Reachable s) :
    planner.PlanClear m sPose ePose.x ePose.y s := by
  apply h.invariant
  · rintro _ rfl
    exact planClear_planStart
  · exact fun _ _ _ hs ht => hs.step ht

theorem getBoundingBox_lot (h0 : 0 ≤ x) (h1 : x ≤ 1) : getBoundingBox .real lotPlanner.vehicleParam ⟨x,0,0⟩ =
      some ⟨⟨x,0⟩,1,1/2,1,0,x - 1,x+1,-(1/2),1/2⟩ := by
  have hsize : -mathEpsilon < (2 : ℝ) ∧ -mathEpsilon < (1 : ℝ) := by
    rw [mathEpsilon]
    norm_num
  have hmax : (2 : ℝ)^1 ≤ doubleMax := pow_le_doubleMax (by decide)
  simp only [getBoundingBox,lotPlanner]
  rw [Box2d.ofHeading_eq hsize]
  · simp only [real,Real.cos_zero,Real.sin_zero]
    norm_num
    linarith
  all_goals
    simp only [real,Real.cos_zero,Real.sin_zero]
    constructor <;> linarith

theorem hasCollision_lot (h : x ≤ 1) :
    lotPlanner.hasCollision .real ⟨⟨x,0⟩,1,1/2,1,0,x - 1,x+1,-(1/2),1/2⟩ = false := by
  have hlength : (ofEnds real ⟨10,0⟩ ⟨10,1⟩).length = 1 := by
    simp [ofEnds,hypot,real]
  have hlong : ¬(ofEnds real ⟨10,0⟩ ⟨10,1⟩).length ≤ mathEpsilon := by
    rw [hlength,mathEpsilon]
    norm_num
  have hbefore : x+1 < min 10 10 := by
    rw [min_self]
    linarith
  simp only [hasCollision,lotPlanner,any_cons,any_nil,Bool.or_false,Box2d.hasOverlap,if_neg hlong]
  exact if_pos (.inr (.inl hbefore))

theorem checkPoses_lot (h0 : 0 ≤ x) (h1 : x ≤ 1) : lotPlanner.checkPoses .real [⟨x,0,0⟩] = some true := by
  have hinside : lotPlanner.isOutside ⟨x,0,0⟩ = false := isOutside_eq_false_iff.mpr ⟨⟨h0,h1⟩,le_rfl,le_rfl⟩
  rw [checkPoses,hinside,getBoundingBox_lot h0 h1,Option.bind_some,hasCollision_lot h1]
  rfl

theorem validityCheck_lot (h0 : 0 ≤ x) (h1 : x ≤ 1) :
    lotPlanner.validityCheck .real (.ofPose ⟨x,0,0⟩) = some true := by
  rw [validityCheck,if_neg (by simp [lotPlanner])]
  exact checkPoses_lot h0 h1

noncomputable def lotMap : DpMap ℝ := (DpMap.start (.ofGrid 0 0)).take ((0, 0), 0) (.ofGrid 0 0)

theorem endNode_lot : lotPlanner.heuristicGenerator.endNode 1 0 = .ofGrid 0 0 := by
  norm_num [endNode,calcIndex,heuristicGenerator,lotPlanner,truncate]

theorem planStart_lot : lotPlanner.planStart .real ⟨0,0,0⟩ ⟨1,0,0⟩ = .mapping (.start (.ofGrid 0 0)) := by
  rw [planStart,if_neg (by simp [lotPlanner]),validityCheck_lot le_rfl zero_le_one,
    validityCheck_lot zero_le_one le_rfl]
  rw [if_neg (by simp [lotPlanner]),endNode_lot]

noncomputable def lotSystem : System (PlanState ℝ) (PlanEvent ℝ) := lotPlanner.planLoaded .real ⟨0,0,0⟩ ⟨1,0,0⟩

theorem step_map_lot :
    lotSystem.step (.mapping (.start (.ofGrid 0 0))) (.mapIteration ((0, 0), 0)) = some (.mapping lotMap) := by
  have hobstacles : lotPlanner.heuristicGenerator.obstaclesLinesegmentsVec ≠ [] := cons_ne_nil _ _
  have hx : lotPlanner.heuristicGenerator.maxGridX = 0 := by
    norm_num [maxGridX,heuristicGenerator,lotPlanner,round]
  have hy : lotPlanner.heuristicGenerator.maxGridY = 0 := by
    norm_num [maxGridY,heuristicGenerator,lotPlanner,round]
  exact congrArg (Option.map PlanState.mapping) (step_of_oneCell hobstacles hx hy)

theorem step_mapEnd_lot : lotSystem.step (.mapping lotMap) .mapEnd =
      some (.searching lotMap (lotPlanner.startSearch .real (.ofPose ⟨0,0,0⟩))) := by
  have hempty : lotMap.openPq.isEmpty = true := isEmpty_iff.mpr (erase_cons_head ..)
  exact if_pos hempty

def lotPath : ReedSheppPath ℝ := ⟨[0,1],[0,0],[0,0]⟩

def lotNode : Node3d ℝ := ⟨⟨0,0,0⟩,[⟨1,0,0⟩],true,0,0,((0 : ℝ) : WithTop ℝ)⟩

theorem analyticExpansion_lot : lotPlanner.analyticExpansion .real (some lotPath) ⟨.ofPose ⟨0,0,0⟩,[]⟩ =
      some (some ⟨lotNode,[.ofPose ⟨0,0,0⟩]⟩) := by
  have hnode : ofTraversed lotPath = some lotNode := rfl
  have hvalid : lotPlanner.validityCheck .real lotNode = some true := by
    rw [validityCheck,if_neg (by simp [lotPlanner])]
    exact checkPoses_lot zero_le_one le_rfl
  simp only [analyticExpansion,hnode,Option.bind_some,hvalid,Option.map_some,if_true]

theorem getResult_lot : ∃ result, lotPlanner.getResult .real ⟨lotNode,[.ofPose ⟨0,0,0⟩]⟩ = some result := by
  simp [getResult,getTemporalProfile,collect,lotNode,poses,pose,ofPose,partitionFrom,
    generateSpeedAcceleration]

theorem step_search_lot {result : HybridAStartResult ℝ}
    (h : lotPlanner.getResult .real ⟨lotNode,[.ofPose ⟨0,0,0⟩]⟩ = some result) :
    lotSystem.step (.searching lotMap (lotPlanner.startSearch .real (.ofPose ⟨0,0,0⟩)))
      (.searchIteration (lotPlanner.getIndex .real (.ofPose ⟨0,0,0⟩), getCost (.ofPose ⟨0,0,0⟩))
        (some lotPath)) = some (.returned (some result)) := by
  have hlookup : (lotPlanner.startSearch .real (.ofPose ⟨0,0,0⟩)).openSet.lookup
      (lotPlanner.getIndex .real (.ofPose ⟨0,0,0⟩)) = some ⟨.ofPose ⟨0,0,0⟩,[]⟩ := AList.lookup_insert _
  have htop : (lotPlanner.startSearch .real (.ofPose ⟨0,0,0⟩)).openPq.all fun other =>
      getCost (.ofPose (⟨0,0,0⟩ : Pose ℝ)) ≤ other.2 := by
    simp [startSearch]
  refine (if_pos ⟨mem_singleton_self _,htop⟩).trans ?_
  rw [hlookup]
  simp only [iterate,analyticExpansion_lot,h]

/-- Whenever `Plan` returns a result, its poses are in the bounds, and the box of the vehicle at a pose overlaps no
segment of an obstacle. -/
theorem plan_clear {xyBounds : XYBounds K} {obstaclesVerticesVec : List (List (Vec2d K))}
    {system : System (PlanState K) (PlanEvent K)} {result : HybridAStartResult K}
    (hplan : planner.plan m sPose ePose xyBounds obstaclesVerticesVec = some system)
    (hreturn : system.Reachable (.returned (some result))) (pose : Pose K) (hpose : pose ∈ result.poses) :
    ((xyBounds.xmin ≤ pose.x ∧ pose.x ≤ xyBounds.xmax) ∧ xyBounds.ymin ≤ pose.y ∧ pose.y ≤ xyBounds.ymax) ∧
      ∃ box, getBoundingBox m planner.vehicleParam pose = some box ∧
        ∀ vertices ∈ obstaclesVerticesVec, ∀ linesegment ∈ List.zipWith (ofEnds m) vertices vertices.tail,
          box.hasOverlap m linesegment = false := by
  obtain ⟨linesegments,hlinesegments,rfl⟩ := Option.map_eq_some_iff.mp hplan
  obtain ⟨hinside,box,hbox,hfree⟩ := planClear_of_reachable hreturn pose hpose
  refine ⟨isOutside_eq_false_iff.mp hinside,box,hbox,?_⟩
  intro vertices hvertices _ hlinesegment
  have hmem : List.zipWith (ofEnds m) vertices vertices.tail ∈ linesegments := by
    rw [obstaclesLinesegments_eq hlinesegments]
    exact mem_map_of_mem hvertices
  simp only [hasCollision,any_eq_false,Bool.not_eq_true] at hfree
  exact hfree _ hmem _ hlinesegment

theorem plan_clear_lot :
    ∃ system result, lotPlanner.plan .real ⟨0,0,0⟩ ⟨1,0,0⟩ ⟨0,1,0,0⟩ [[⟨10,0⟩,⟨10,1⟩]] = some system ∧
      system.Reachable (.returned (some result)) ∧ result.poses = [⟨0,0,0⟩,⟨1,0,0⟩] ∧
      ∃ box, getBoundingBox .real lotPlanner.vehicleParam ⟨1,0,0⟩ = some box ∧
        box.hasOverlap .real (.ofEnds .real ⟨10,0⟩ ⟨10,1⟩) = false := by
  obtain ⟨result,hresult⟩ := getResult_lot
  have hstart : lotSystem.Reachable (.mapping (.start (.ofGrid 0 0))) := .start planStart_lot.symm
  have hreturn := ((hstart.next step_map_lot).next step_mapEnd_lot).next (step_search_lot hresult)
  have hposes := getResult_poses hresult
  have hend : ⟨1,0,0⟩ ∈ result.poses := by
    rw [hposes]
    exact mem_cons_of_mem _ mem_cons_self
  have hplan : lotPlanner.plan .real ⟨0,0,0⟩ ⟨1,0,0⟩ ⟨0,1,0,0⟩ [[⟨10,0⟩,⟨10,1⟩]] = some lotSystem := rfl
  obtain ⟨-,box,hbox,hfree⟩ := plan_clear hplan hreturn _ hend
  exact ⟨lotSystem,result,hplan,hreturn,hposes,box,hbox,hfree _ mem_cons_self _ mem_cons_self⟩

end HybridAStar
end Apollo.Modules.Planning
