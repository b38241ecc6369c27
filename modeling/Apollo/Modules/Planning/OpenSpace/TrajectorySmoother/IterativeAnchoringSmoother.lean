import Apollo.Modules.Common.Math.Box2d

/-! `IterativeAnchoringSmoother` with exact arithmetic, and the collisions of the paths that `SmoothPath` returns. The
solver may answer anything, in every iteration. A failed check and an exception end the program, which is `none`. -/
namespace Apollo.Modules.Planning
open Common.Math List

structure PathPoint (K : Type) where
  x : K
  y : K
  theta : K
  s : K
  kappa : K
  dkappa : K

namespace DiscretePointsMath

structure PathProfile (K : Type) where
  headings : List K
  accumulatedS : List K
  kappas : List K
  dkappas : List K

variable {K : Type} [Field K] (m : Cmath K)

/-- The change at a point, between its neighbours. The ends have one neighbour only. -/
def change (size : Nat) (value : Nat → K) (i : Nat) : K :=
  if i = 0 then value (i+1) - value i
  else if i = size - 1 then value i - value (i - 1)
  else value (i+1) - value (i - 1)

def delta (size : Nat) (value : Nat → K) (i : Nat) : K :=
  if i = 0 then value (i+1) - value i
  else if i = size - 1 then value i - value (i - 1)
  else 1/2*(value (i+1) - value (i - 1))

def accumulate (fx fy distance : K) : List (K × K) → List K
  | [] => []
  | (nx, ny)::rest =>
    let endSegmentS := m.sqrt ((fx - nx)*(fx - nx)+(fy - ny)*(fy - ny))
    (endSegmentS+distance)::accumulate nx ny (distance+endSegmentS) rest

def computePathProfile : List (K × K) → Option (PathProfile K)
  | [] => none
  | [_] => none
  | first::second::rest =>
    let xyPoints := first::second::rest
    let size := xyPoints.length
    let x i := (xyPoints.getD i (0, 0)).1
    let y i := (xyPoints.getD i (0, 0)).2
    let accumulatedS := 0::accumulate m first.1 first.2 0 (second::rest)
    let s i := accumulatedS.getD i 0
    let xOverS i := change size x i/change size s i
    let yOverS i := change size y i/change size s i
    let xOverSS i := change size xOverS i/change size s i
    let yOverSS i := change size yOverS i/change size s i
    let kappa i := (xOverS i*yOverSS i - yOverS i*xOverSS i) /
      (m.sqrt (xOverS i*xOverS i+yOverS i*yOverS i)*(xOverS i*xOverS i+yOverS i*yOverS i)+1/10^6)
    some ⟨(List.range size).map fun i => m.atan2 (delta size y i) (delta size x i),accumulatedS,
      (List.range size).map kappa,(List.range size).map fun i => change size kappa i/change size s i⟩

end DiscretePointsMath

open DiscretePointsMath

structure IterativeAnchoringSmoother (K : Type) where
  egoLength : K
  egoWidth : K
  centerShiftDistance : K
  obstaclesLinesegmentsVec : List (List (LineSegment2d K))
  inputCollidingPointIndex : List Nat
  enforceInitialKappa : Bool
  gear : Bool
  collisionDecreaseRatio : K

/-- `FemPosDeviationSmoother::Solve` in an iteration. `none` is `false`. -/
abbrev FemPosDeviationSmoother (K : Type) := Nat → List (K × K) → List K → Option (List K × List K)

namespace IterativeAnchoringSmoother
variable {K : Type} [Field K] (m : Cmath K)

def setPathProfile (point2d : List (K × K)) : Option (List (PathPoint K)) :=
  (computePathProfile m point2d).map fun profile =>
    (List.range point2d.length).map fun i =>
      ⟨(point2d.getD i (0, 0)).1,(point2d.getD i (0, 0)).2,profile.headings.getD i 0,profile.accumulatedS.getD i 0,
        profile.kappas.getD i 0,profile.dkappas.getD i 0⟩

def scaleAt (ratio : K) (bounds : List K) (index : Nat) : Option (List K) :=
  if index < bounds.length then some (bounds.modify index fun bound => bound*ratio) else none

def anchorAt (bounds : List K) (index : Nat) : Option (List K) :=
  if index < bounds.length then some (bounds.set index 0) else none

variable (smoother : IterativeAnchoringSmoother K)

def adjustPathBounds (collidingPointIndex : List Nat) (bounds : List K) : Option (List K) := do
  let bounds ← collidingPointIndex.foldlM (scaleAt smoother.collisionDecreaseRatio) bounds
  let bounds ← anchorAt bounds 0
  let bounds ← anchorAt bounds 1
  let bounds ← anchorAt bounds (bounds.length - 1)
  let bounds ← anchorAt bounds (bounds.length - 2)
  if smoother.enforceInitialKappa then anchorAt bounds 2 else some bounds

variable [LinearOrder K]

def obstaclesLinesegments (obstaclesVerticesVec : List (List (Vec2d K))) : List (List (LineSegment2d K)) :=
  obstaclesVerticesVec.map fun vertices => List.zipWith (LineSegment2d.ofEnds m) vertices vertices.tail

def egoBox (point : PathPoint K) : Option (Box2d K) :=
  let heading := if smoother.gear then point.theta else m.normalizeAngle (point.theta+m.pi)
  Box2d.ofHeading m ⟨point.x+smoother.centerShiftDistance*m.cos heading,
    point.y+smoother.centerShiftDistance*m.sin heading⟩ heading smoother.egoLength smoother.egoWidth

def isColliding (box : Box2d K) : Bool :=
  smoother.obstaclesLinesegmentsVec.any fun linesegments => linesegments.any fun linesegment =>
    box.hasOverlap m linesegment

/-- The loop of `CheckCollisionAvoidance` from a point on. The member `input_colliding_point_index_` is given as it
depends on the result, which is the member itself in one of the calls. -/
def checkFrom (input : List Nat → List Nat) : Nat → List (PathPoint K) → List Nat → Option (List Nat)
  | _, [], collidingPointIndex => some collidingPointIndex
  | i, point::rest, collidingPointIndex =>
    if i ∈ input collidingPointIndex then checkFrom input (i+1) rest collidingPointIndex
    else
      (smoother.egoBox m point).bind fun box =>
        checkFrom input (i+1) rest
          (if smoother.isColliding m box then collidingPointIndex ++ [i] else collidingPointIndex)

/-- `CheckCollisionAvoidance` returns whether its result is empty. -/
def checkCollisionAvoidance (pathPoints : List (PathPoint K)) : Option (List Nat) :=
  smoother.checkFrom m (fun _ => smoother.inputCollidingPointIndex) 0 pathPoints []

/-- The call in `Smooth` for the input path, with the member as its result. -/
def checkInput (pathPoints : List (PathPoint K)) : Option (IterativeAnchoringSmoother K) :=
  (smoother.checkFrom m id 0 pathPoints []).map fun index => { smoother with inputCollidingPointIndex := index }

/-- The local variables of `SmoothPath` that an iteration changes, and its result. -/
structure Round (K : Type) where
  flexibleBounds : List K
  collidingPointIndex : List Nat
  smoothedPathPoints : List (PathPoint K)

inductive Ending (K : Type)
  | aborted
  | failed (path : List (PathPoint K))
  | checked (isCollisionFree : Bool) (round : Round K)

def maxIterationNum : Nat := 50

variable (solve : FemPosDeviationSmoother K) (raw : List (PathPoint K))

/-- An iteration after its bounds are adjusted. -/
def solveRound (counter : Nat) (bounds : List K) (path : List (PathPoint K)) : Ending K :=
  match solve counter (raw.map fun point => (point.x, point.y)) bounds with
  | none => .failed path
  | some (optX, optY) =>
    if optX.length < 2 ∨ optY.length < 2 then .failed path
    else if optX.length = optY.length then
      match setPathProfile m (optX.zip optY) with
      | none => .failed []
      | some path =>
        match smoother.checkCollisionAvoidance m path with
        | none => .aborted
        | some index => .checked index.isEmpty ⟨bounds,index,path⟩
    else .aborted

def iterate (counter : Nat) (round : Round K) : Ending K :=
  match smoother.adjustPathBounds round.collidingPointIndex round.flexibleBounds with
  | none => .aborted
  | some bounds => smoother.solveRound m solve raw counter bounds round.smoothedPathPoints

def smoothFrom (counter : Nat) (round : Round K) : Option (Bool × List (PathPoint K)) :=
  if maxIterationNum < counter then some (true, round.smoothedPathPoints)
  else
    match smoother.iterate m solve raw counter round with
    | .aborted => none
    | .failed path => some (false, path)
    | .checked true round => some (true, round.smoothedPathPoints)
    | .checked false round => smoothFrom (counter+1) round
  termination_by maxIterationNum+1 - counter

/-- What `SmoothPath` returns and leaves in `smoothed_path_points`. -/
def smoothPath (bounds : List K) (smoothedPathPoints : List (PathPoint K)) : Option (Bool × List (PathPoint K)) :=
  smoother.smoothFrom m solve raw 0 ⟨bounds,[],smoothedPathPoints⟩

def Collides (point : PathPoint K) : Prop := ∃ box, smoother.egoBox m point = some box ∧ smoother.isColliding m box

/-- The solver answers with a path in an iteration, and the check finds the points `index` of it. -/
def Answers (counter : Nat) (bounds : List K) (index : List Nat) (path : List (PathPoint K)) : Prop :=
  ∃ optX optY, solve counter (raw.map fun point => (point.x, point.y)) bounds = some (optX, optY) ∧
    2 ≤ optX.length ∧ optX.length = optY.length ∧ setPathProfile m (optX.zip optY) = some path ∧
    smoother.checkCollisionAvoidance m path = some index

/-- The solver answers with a colliding path as often as it is asked, each time for the bounds that are adjusted where
the path before collides. -/
def AllCollide (bounds : List K) : Prop :=
  ∃ (flexible : Nat → List K) (index : Nat → List Nat) (path : Nat → List (PathPoint K)),
    flexible 0 = bounds ∧ index 0 = [] ∧ ∀ k ≤ maxIterationNum,
      smoother.adjustPathBounds (index k) (flexible k) = some (flexible (k+1)) ∧
      smoother.Answers m solve raw k (flexible (k+1)) (index (k+1)) (path (k+1)) ∧ index (k+1) ≠ []

section Checks
variable {m smoother}
variable {points : List (PathPoint K)} {i j : Nat} {result index : List Nat}

theorem exists_place_cons {α : Type} {a : α} {l : List α} {p : α → Prop} :
    (∃ n b, (a::l)[n]? = some b ∧ j = i+n ∧ p b) ↔ j = i ∧ p a ∨ ∃ n b, l[n]? = some b ∧ j = i+1+n ∧ p b := by
  constructor
  · rintro ⟨n,b,hget,hj,hb⟩
    cases n with
    | zero =>
      cases hget
      exact .inl ⟨hj,hb⟩
    | succ n =>
      exact .inr ⟨n,b,hget,by omega,hb⟩
  · rintro (⟨hj,ha⟩ | ⟨n,b,hget,hj,hb⟩)
    · exact ⟨0,a,rfl,hj,ha⟩
    · refine ⟨n+1,b,?_,by omega,hb⟩
      rw [getElem?_cons_succ]
      exact hget

theorem mem_checkFrom {input : List Nat → List Nat} (skip : Nat → Prop)
    (hskip : ∀ j index, i ≤ j → (∀ k ∈ index, k < j) → (j ∈ input index ↔ skip j)) (hlt : ∀ k ∈ index, k < i)
    (h : smoother.checkFrom m input i points index = some result) (j : Nat) :
    j ∈ result ↔ j ∈ index ∨ ∃ n point, points[n]? = some point ∧ j = i+n ∧ ¬skip j ∧ smoother.Collides m point := by
  induction points generalizing i index with
  | nil =>
    cases h
    constructor
    · exact .inl
    · rintro (h | ⟨n,point,hget,-⟩)
      · exact h
      · cases hget
  | cons point _ ih =>
    have hskip' : ∀ j index, i+1 ≤ j → (∀ k ∈ index, k < j) → (j ∈ input index ↔ skip j) :=
      fun j index hj => hskip j index (Nat.le_of_succ_le hj)
    have hlt' : ∀ k ∈ index, k < i+1 := fun k hk => Nat.lt_succ_of_lt (hlt k hk)
    rw [exists_place_cons]
    rw [checkFrom] at h
    split at h
    case isTrue hmem =>
      have hs := (hskip i index le_rfl hlt).mp hmem
      have hno : ¬(j = i ∧ ¬skip j ∧ smoother.Collides m point) := by
        rintro ⟨rfl,hj,-⟩
        exact hj hs
      rw [ih hskip' hlt' h,or_iff_right hno]
    case isFalse hmem =>
      have hs : ¬skip i := fun hs => hmem ((hskip i index le_rfl hlt).mpr hs)
      obtain ⟨box,hbox,h⟩ := Option.bind_eq_some_iff.mp h
      split at h
      case isTrue hcol =>
        have hlt'' : ∀ k ∈ index ++ [i], k < i+1 := by
          intro k hk
          obtain hk | hk := mem_append.mp hk
          · exact hlt' k hk
          · rw [mem_singleton.mp hk]
            exact Nat.lt_succ_self i
        have hpoint : j = i ∧ ¬skip j ∧ smoother.Collides m point ↔ j = i := by
          constructor
          · exact And.left
          · rintro rfl
            exact ⟨rfl,hs,box,hbox,hcol⟩
        rw [ih hskip' hlt'' h,mem_append,mem_singleton,hpoint,or_assoc]
      case isFalse hcol =>
        have hno : ¬(j = i ∧ ¬skip j ∧ smoother.Collides m point) := by
          rintro ⟨-,-,_,hbox',hcol'⟩
          rw [hbox] at hbox'
          cases hbox'
          exact hcol hcol'
        rw [ih hskip' hlt' h,or_iff_right hno]

theorem mem_checkCollisionAvoidance (h : smoother.checkCollisionAvoidance m points = some result) (j : Nat) :
    j ∈ result ↔ ∃ point, points[j]? = some point ∧ j ∉ smoother.inputCollidingPointIndex ∧
      smoother.Collides m point := by
  rw [mem_checkFrom (fun j => j ∈ smoother.inputCollidingPointIndex) (fun _ _ _ _ => Iff.rfl)
    (fun _ hk => absurd hk not_mem_nil) h]
  constructor
  · rintro (hj | ⟨n,point,hget,rfl,hj⟩)
    · cases hj
    · rw [Nat.zero_add] at hj ⊢
      exact ⟨point,hget,hj⟩
  · rintro ⟨point,hget,hj⟩
    exact .inr ⟨j,point,hget,(Nat.zero_add j).symm,hj⟩

/-- The first check of `Smooth` finds every point that collides, though it reads the result it writes. -/
theorem mem_checkInput {checked : IterativeAnchoringSmoother K} (h : smoother.checkInput m points = some checked)
    (j : Nat) :
    j ∈ checked.inputCollidingPointIndex ↔ ∃ point, points[j]? = some point ∧ smoother.Collides m point := by
  obtain ⟨index,hcheck,rfl⟩ := Option.map_eq_some_iff.mp h
  have hskip : ∀ (j : Nat) (index : List Nat), 0 ≤ j → (∀ k ∈ index, k < j) → (j ∈ id index ↔ False) := by
    intro j _ _ hlt
    exact iff_of_false (fun hj => absurd (hlt j hj) (Nat.lt_irrefl j)) id
  rw [mem_checkFrom (fun _ => False) hskip (fun _ hk => absurd hk not_mem_nil) hcheck]
  constructor
  · rintro (hj | ⟨n,point,hget,rfl,-,hcol⟩)
    · cases hj
    · rw [Nat.zero_add]
      exact ⟨point,hget,hcol⟩
  · rintro ⟨point,hget,hcol⟩
    exact .inr ⟨j,point,hget,(Nat.zero_add j).symm,id,hcol⟩

end Checks

section Iterations
variable {m smoother solve raw} {counter : Nat} {round next : Round K}

theorem iterate_checked_iff {free : Bool} : smoother.iterate m solve raw counter round = .checked free next ↔
    smoother.adjustPathBounds round.collidingPointIndex round.flexibleBounds = some next.flexibleBounds ∧
      smoother.Answers m solve raw counter next.flexibleBounds next.collidingPointIndex next.smoothedPathPoints ∧
      next.collidingPointIndex.isEmpty = free := by
  rw [iterate]
  constructor
  · intro h
    split at h
    case h_1 => cases h
    case h_2 bounds hbounds =>
      rw [solveRound] at h
      split at h
      case h_1 => cases h
      case h_2 optX optY hsolve =>
        split at h
        case isTrue => cases h
        case isFalse hsize =>
          split at h
          case isFalse => cases h
          case isTrue hxy =>
            split at h
            case h_1 => cases h
            case h_2 hprofile =>
              split at h
              case h_1 => cases h
              case h_2 index hcheck =>
                cases h
                exact ⟨hbounds,⟨optX,optY,hsolve,by omega,hxy,hprofile,hcheck⟩,rfl⟩
  · rintro ⟨hbounds,⟨optX,optY,hsolve,hx,hxy,hprofile,hcheck⟩,rfl⟩
    have hsize : ¬(optX.length < 2 ∨ optX.length < 2) := by omega
    simp only [hbounds,solveRound,hsolve,hprofile,hcheck,← hxy,if_true,if_neg hsize]

theorem free_of_iterate (h : smoother.iterate m solve raw counter round = .checked true next) {i : Nat}
    {point : PathPoint K} (hget : next.smoothedPathPoints[i]? = some point)
    (hi : i ∉ smoother.inputCollidingPointIndex) : ¬smoother.Collides m point := by
  obtain ⟨-,⟨_,_,-,-,-,-,hcheck⟩,hempty⟩ := iterate_checked_iff.mp h
  intro hcol
  have hmem := (mem_checkCollisionAvoidance hcheck i).mpr ⟨point,hget,hi,hcol⟩
  rw [isEmpty_iff.mp hempty] at hmem
  cases hmem

/-- The loop returns `true` with an answer that collides with nothing, or after none of its answers was such a one. -/
theorem smoothFrom_true {path : List (PathPoint K)}
    (h : smoother.smoothFrom m solve raw counter round = some (true, path)) :
    (∃ counter' before last, smoother.iterate m solve raw counter' before = .checked true last ∧
      path = last.smoothedPathPoints) ∨
    ∃ rounds : Nat → Round K, rounds 0 = round ∧ ∀ k, counter+k ≤ maxIterationNum →
      smoother.iterate m solve raw (counter+k) (rounds k) = .checked false (rounds (k+1)) := by
  induction hn : maxIterationNum+1 - counter generalizing counter round with
  | zero => exact .inr ⟨fun _ => round,rfl,fun k hk => by omega⟩
  | succ _ ih =>
    rw [smoothFrom,if_neg (by omega)] at h
    cases hround : smoother.iterate m solve raw counter round with rw [hround] at h
    | aborted | failed => cases h
    | checked isCollisionFree after =>
      cases isCollisionFree with
      | true =>
        cases h
        exact .inl ⟨counter,round,after,hround,rfl⟩
      | false =>
        obtain hend | ⟨rounds,hfirst,hrounds⟩ := ih h (by omega)
        · exact .inl hend
        · refine .inr ⟨fun k => k.casesOn round rounds,rfl,fun k hk => ?_⟩
          cases k with
          | zero => exact hround.trans (congrArg _ hfirst.symm)
          | succ k =>
            rw [show counter+(k+1) = counter+1+k by omega]
            exact hrounds k (by omega)

/-- The loop returns `true` at the limit of its iterations. -/
theorem smoothFrom_limit (p : Nat → Round K → Prop) (hstep : ∀ counter ≤ maxIterationNum, ∀ round, p counter round →
      ∃ next, smoother.iterate m solve raw counter round = .checked false next ∧ p (counter+1) next)
    (hcounter : counter ≤ maxIterationNum+1) (h : p counter round) :
    ∃ last, smoother.smoothFrom m solve raw counter round = some (true, last.smoothedPathPoints) ∧
      p (maxIterationNum+1) last := by
  induction hn : maxIterationNum+1 - counter generalizing counter round with
  | zero =>
    have hc : counter = maxIterationNum+1 := by omega
    subst hc
    exact ⟨round,by rw [smoothFrom,if_pos (by omega)],h⟩
  | succ _ ih =>
    obtain ⟨next,hiterate,hnext⟩ := hstep counter (by omega) round h
    rw [smoothFrom,if_neg (by omega),hiterate]
    exact ih (by omega) hnext (by omega)

end Iterations

variable {bounds : List K} {index : List Nat} {n i : Nat}

omit [LinearOrder K] in
theorem foldlM_scaleAt (ratio : K) (h : ∀ i ∈ index, i < bounds.length) :
    ∃ bounds', index.foldlM (scaleAt ratio) bounds = some bounds' ∧ bounds'.length = bounds.length := by
  induction index generalizing bounds with
  | nil => exact ⟨bounds,rfl,rfl⟩
  | cons i index ih =>
    have hscale : scaleAt ratio bounds i = some (bounds.modify i fun bound => bound*ratio) :=
      if_pos (h i mem_cons_self)
    have hlength : (bounds.modify i fun bound => bound*ratio).length = bounds.length := length_modify ..
    have hrest : ∀ j ∈ index, j < (bounds.modify i fun bound => bound*ratio).length := by
      rw [hlength]
      exact fun j hj => h j (mem_cons_of_mem i hj)
    obtain ⟨bounds',hfold,hlength'⟩ := ih hrest
    refine ⟨bounds',?_,hlength'.trans hlength⟩
    rw [foldlM_cons,hscale]
    exact hfold

omit [LinearOrder K] in
theorem anchorAt_eq (hn : bounds.length = n) (hi : i < n) :
    ∃ bounds', anchorAt bounds i = some bounds' ∧ bounds'.length = n :=
  ⟨bounds.set i 0,if_pos (hn ▸ hi),(length_set ..).trans hn⟩

omit [LinearOrder K] in
theorem adjustPathBounds_eq (hn : bounds.length = n) (h3 : 3 ≤ n) (h : ∀ i ∈ index, i < n) :
    ∃ bounds', smoother.adjustPathBounds index bounds = some bounds' ∧ bounds'.length = n := by
  subst hn
  obtain ⟨b,hscale,hb⟩ := foldlM_scaleAt smoother.collisionDecreaseRatio h
  obtain ⟨_,h0,hb0⟩ := anchorAt_eq (i := 0) hb (by omega)
  obtain ⟨b1,h1,hb1⟩ := anchorAt_eq (i := 1) hb0 (by omega)
  obtain ⟨b2,h2,hb2⟩ := anchorAt_eq (i := b1.length - 1) hb1 (by omega)
  obtain ⟨b3,h3,hb3⟩ := anchorAt_eq (i := b2.length - 2) hb2 (by omega)
  obtain ⟨b4,h4,hb4⟩ := anchorAt_eq (i := 2) hb3 (by omega)
  simp only [adjustPathBounds,hscale,h0,h1,h2,h3,h4,Option.bind_eq_bind,Option.bind_some]
  split
  · exact ⟨b4,rfl,hb4⟩
  · exact ⟨b3,rfl,hb3⟩

section Collisions
variable {m smoother solve raw} {optX optY : List K} {answer : List (PathPoint K)} {n : Nat}

theorem checkFrom_eq (hlength : -mathEpsilon < smoother.egoLength) (hwidth : -mathEpsilon < smoother.egoWidth)
    (input : List Nat → List Nat) (i : Nat) (points : List (PathPoint K)) (index : List Nat) :
    ∃ result, smoother.checkFrom m input i points index = some result := by
  induction points generalizing i index with
  | nil => exact ⟨index,rfl⟩
  | cons point _ ih =>
    rw [checkFrom]
    split
    · exact ih ..
    · obtain ⟨box,hbox⟩ : ∃ box, smoother.egoBox m point = some box := Box2d.exists_ofHeading ⟨hlength,hwidth⟩
      rw [hbox,Option.bind_some]
      exact ih ..

variable {point2d : List (K × K)} {i counter : Nat} {point : PathPoint K}

omit [LinearOrder K] in
theorem length_setPathProfile (h : setPathProfile m point2d = some answer) : answer.length = point2d.length := by
  obtain ⟨_,-,rfl⟩ := Option.map_eq_some_iff.mp h
  rw [length_map,length_range]

omit [LinearOrder K] in
theorem setPathProfile_point (h : setPathProfile m point2d = some answer) (hget : answer[i]? = some point) :
    i < point2d.length ∧ point.x = (point2d.getD i (0, 0)).1 ∧ point.y = (point2d.getD i (0, 0)).2 ∧
      point.theta = m.atan2 (delta point2d.length (fun j => (point2d.getD j (0, 0)).2) i)
        (delta point2d.length (fun j => (point2d.getD j (0, 0)).1) i) := by
  obtain ⟨_,hprofile,rfl⟩ := Option.map_eq_some_iff.mp h
  rw [getElem?_map,Option.map_eq_some_iff] at hget
  obtain ⟨j,hj,rfl⟩ := hget
  obtain ⟨hi,rfl⟩ := List.getElem?_eq_some_iff.mp hj
  rw [length_range] at hi
  rw [getElem_range]
  refine ⟨hi,rfl,rfl,?_⟩
  match point2d with
  | [] | [_] => cases hprofile
  | first::second::rest =>
    cases hprofile
    dsimp only
    rw [getD_eq_getElem?_getD,getElem?_map,getElem?_range hi,Option.map_some,Option.getD_some]

theorem iterate_eq {round : Round K} {index : List Nat} (h3 : 3 ≤ n)
    (hround : round.flexibleBounds.length = n ∧ ∀ j ∈ round.collidingPointIndex, j < n)
    (hsolve : ∀ bounds, bounds.length = n →
      solve counter (raw.map fun point => (point.x, point.y)) bounds = some (optX, optY)) (hx : 2 ≤ optX.length)
    (hxy : optX.length = optY.length) (hprofile : setPathProfile m (optX.zip optY) = some answer)
    (hindex : smoother.checkCollisionAvoidance m answer = some index) :
    ∃ bounds, smoother.iterate m solve raw counter round = .checked index.isEmpty ⟨bounds,index,answer⟩ ∧
      bounds.length = n := by
  obtain ⟨bounds,hadjust,hlength⟩ := smoother.adjustPathBounds_eq hround.1 h3 hround.2
  exact ⟨bounds,iterate_checked_iff.mpr ⟨hadjust,⟨optX,optY,hsolve bounds hlength,hx,hxy,hprofile,hindex⟩,rfl⟩,hlength⟩

/-- With a solver that gives the same colliding path each time, `SmoothPath` returns `true` and that path. -/
theorem smoothPath_colliding (hlength : -mathEpsilon < smoother.egoLength) (hwidth : -mathEpsilon < smoother.egoWidth)
    (hsolve : ∀ counter bounds, bounds.length = n →
      solve counter (raw.map fun point => (point.x, point.y)) bounds = some (optX, optY)) (hx : 2 ≤ optX.length)
    (hxy : optX.length = optY.length) (hprofile : setPathProfile m (optX.zip optY) = some answer)
    (hget : answer[i]? = some point) (hi : i ∉ smoother.inputCollidingPointIndex) (hcol : smoother.Collides m point)
    {bounds : List K} {path : List (PathPoint K)} (hbounds : bounds.length = n) (h3 : 3 ≤ n) (hn : optX.length ≤ n) :
    smoother.smoothPath m solve raw bounds path = some (true, answer) := by
  have hanswer : answer.length ≤ n := by
    rw [length_setPathProfile hprofile,length_zip,hxy,min_self,← hxy]
    exact hn
  obtain ⟨index,hindex⟩ : ∃ index, smoother.checkCollisionAvoidance m answer = some index :=
    checkFrom_eq hlength hwidth ..
  have hmem : i ∈ index := (mem_checkCollisionAvoidance hindex i).mpr ⟨point,hget,hi,hcol⟩
  have hempty : index.isEmpty = false := by
    rw [isEmpty_eq_false_iff]
    exact ne_nil_of_mem hmem
  -- the bounds of an iteration can be adjusted, and from the first one on the path is the answer
  let p (counter : Nat) (round : Round K) : Prop :=
    (round.flexibleBounds.length = n ∧ ∀ j ∈ round.collidingPointIndex, j < n) ∧
      (counter = 0 ∨ round.smoothedPathPoints = answer)
  have hstep (counter : Nat) (_ : counter ≤ maxIterationNum) (round : Round K) (hround : p counter round) :
      ∃ next, smoother.iterate m solve raw counter round = .checked false next ∧ p (counter+1) next := by
    obtain ⟨_,hiterate,hlength'⟩ := iterate_eq h3 hround.1 (hsolve counter) hx hxy hprofile hindex
    rw [hempty] at hiterate
    refine ⟨_,hiterate,⟨hlength',?_⟩,.inr rfl⟩
    intro j hj
    obtain ⟨q,hq,-⟩ := (mem_checkCollisionAvoidance hindex j).mp hj
    exact (List.getElem?_eq_some_iff.mp hq).1.trans_le hanswer
  have hstart : p 0 ⟨bounds,[],path⟩ := ⟨⟨hbounds,fun _ hj => absurd hj not_mem_nil⟩,.inl rfl⟩
  obtain ⟨_,hlast,-,hpath⟩ := smoothFrom_limit p hstep (Nat.zero_le _) hstart
  obtain hzero | hpath := hpath
  · cases hzero
  · rw [smoothPath,hlast,hpath]

end Collisions

section Wall
open LineSegment2d Cmath

/-- A vehicle of length four on the x axis. The wall is at ten. -/
noncomputable def beforeWall : IterativeAnchoringSmoother ℝ where
  egoLength := 4
  egoWidth := 2
  centerShiftDistance := 1
  obstaclesLinesegmentsVec := obstaclesLinesegments .real [[⟨10,0⟩,⟨10,1⟩]]
  inputCollidingPointIndex := []
  enforceInitialKappa := false
  gear := true
  collisionDecreaseRatio := 1/2

def axisPath (x : ℝ) : List (PathPoint ℝ) := [⟨x,0,0,0,0,0⟩,⟨x+1,0,0,1,0,0⟩,⟨x+2,0,0,2,0,0⟩,⟨x+3,0,0,3,0,0⟩]

def axisSolver (x : ℝ) : FemPosDeviationSmoother ℝ := fun _ _ _ => some ([x,x+1,x+2,x+3], [0,0,0,0])

theorem epsilon_pos : (0 : ℝ) < mathEpsilon := by
  rw [mathEpsilon]
  positivity

variable {point : PathPoint ℝ}

theorem egoBox_beforeWall (hy : point.y = 0) (htheta : point.theta = 0) (h0 : 0 ≤ point.x) (h10 : point.x ≤ 10) :
    beforeWall.egoBox .real point = some ⟨⟨point.x+1,0⟩,2,1,1,0,point.x - 1,point.x+3,-1,1⟩ := by
  have hlength : -mathEpsilon < (4 : ℝ) ∧ -mathEpsilon < (2 : ℝ) := by
    have := epsilon_pos
    exact ⟨by linarith,by linarith⟩
  have hbound : (2 : ℝ)^4 ≤ doubleMax := pow_le_doubleMax (by decide)
  have hmin : min (point.x+1 - 2) (point.x+1+2) = point.x - 1 := by
    rw [min_eq_left (by linarith)]
    ring
  have hmax : max (point.x+1 - 2) (point.x+1+2) = point.x+3 := by
    rw [max_eq_right (by linarith)]
    ring
  simp only [egoBox,beforeWall,htheta,hy,if_true]
  rw [Box2d.ofHeading_eq hlength]
  · simp only [real,Real.cos_zero,Real.sin_zero]
    norm_num
    exact ⟨hmin,hmax⟩
  all_goals
    simp only [real,Real.cos_zero,Real.sin_zero]
    constructor <;> linarith

theorem not_length_wall_le : ¬(ofEnds real ⟨10,0⟩ ⟨10,1⟩).length ≤ mathEpsilon := by
  have hlength : (ofEnds real ⟨10,0⟩ ⟨10,1⟩).length = 1 := by
    simp [ofEnds,hypot,real]
  rw [hlength,mathEpsilon]
  norm_num

theorem not_collides_beforeWall (hy : point.y = 0) (htheta : point.theta = 0) (h0 : 0 ≤ point.x) (hx : point.x+3 < 10) :
    ¬beforeWall.Collides .real point := by
  rintro ⟨_,hbox,hcol⟩
  rw [egoBox_beforeWall hy htheta h0 (by linarith)] at hbox
  cases hbox
  simp only [isColliding,beforeWall,obstaclesLinesegments,map_cons,map_nil,tail_cons,
    zipWith_cons_cons,zipWith_nil_right,any_cons,any_nil,Bool.or_false,Box2d.hasOverlap,
    if_neg not_length_wall_le] at hcol
  rw [if_pos] at hcol
  · cases hcol
  · refine .inr (.inl ?_)
    rw [lt_min_iff]
    exact ⟨hx,hx⟩

theorem collides_beforeWall (hy : point.y = 0) (htheta : point.theta = 0) (hx : point.x = 10) :
    beforeWall.Collides .real point := by
  refine ⟨_,egoBox_beforeWall hy htheta (by norm_num [hx]) hx.le,?_⟩
  simp only [isColliding,beforeWall,obstaclesLinesegments,map_cons,map_nil,tail_cons,
    zipWith_cons_cons,zipWith_nil_right,any_cons,any_nil,Bool.or_false,Box2d.hasOverlap,
    if_neg not_length_wall_le,hx]
  have hdistance : (Box2d.mk ⟨(10 : ℝ)+1,0⟩ 2 1 1 0 (10 - 1) (10+3) (-1) 1).distanceToSegment real
      (ofEnds real ⟨10,0⟩ ⟨10,1⟩) = some 0 := by
    rw [Box2d.distanceToSegment,if_neg not_length_wall_le]
    refine if_pos ⟨?_,?_⟩ <;> norm_num [Box2d.ends,Box2d.side,ofEnds]
  rw [if_neg,hdistance]
  · exact decide_eq_true epsilon_pos.le
  · norm_num [ofEnds]

theorem setPathProfile_axis {x : ℝ} {path : List (PathPoint ℝ)}
    (h : setPathProfile .real ([x,x+1,x+2,x+3].zip [0,0,0,0]) = some path) {i : Nat}
    (hget : path[i]? = some point) : i < 4 ∧ point.x = x+i ∧ point.y = 0 ∧ point.theta = 0 := by
  obtain ⟨hi,hx,hy,htheta⟩ := setPathProfile_point h hget
  have hi : i < 4 := hi
  rw [hx,hy,htheta]
  obtain rfl | rfl | rfl | rfl : i = 0 ∨ i = 1 ∨ i = 2 ∨ i = 3 := by omega
  all_goals
    refine ⟨hi,by simp,rfl,?_⟩
    simp only [DiscretePointsMath.delta]
    norm_num
    exact real_atan2_zero (by norm_num)

theorem not_collides_axisPath (i : Nat) :
    ¬∃ point, (axisPath 0)[i]? = some point ∧ beforeWall.Collides .real point := by
  rintro ⟨point,hget,hcol⟩
  have hmem := mem_of_getElem? hget
  simp only [axisPath,mem_cons,not_mem_nil,or_false] at hmem
  obtain rfl | rfl | rfl | rfl := hmem
  all_goals exact not_collides_beforeWall rfl rfl (by norm_num) (by norm_num) hcol

theorem beforeWall_size : -mathEpsilon < beforeWall.egoLength ∧ -mathEpsilon < beforeWall.egoWidth := by
  have heps := epsilon_pos
  constructor
  · change -mathEpsilon < (4 : ℝ)
    linarith
  · change -mathEpsilon < (2 : ℝ)
    linarith

theorem checkInput_beforeWall : beforeWall.checkInput .real (axisPath 0) = some beforeWall := by
  obtain ⟨index,hindex⟩ : ∃ index, beforeWall.checkFrom .real id 0 (axisPath 0) [] = some index :=
    checkFrom_eq beforeWall_size.1 beforeWall_size.2 ..
  have hinput : beforeWall.checkInput .real (axisPath 0) =
      some { beforeWall with inputCollidingPointIndex := index } := by
    rw [checkInput,hindex]
    rfl
  have hnil : index = [] := by
    rw [eq_nil_iff_forall_not_mem]
    intro j hj
    exact not_collides_axisPath j ((mem_checkInput hinput j).mp hj)
  rw [hinput,hnil]
  rfl

/-- The path of the solver that starts at the origin is free. -/
theorem checkCollisionAvoidance_axis {path : List (PathPoint ℝ)} {index : List Nat}
    (hpath : setPathProfile Cmath.real ([(0 : ℝ),0+1,0+2,0+3].zip [0,0,0,0]) = some path)
    (hindex : beforeWall.checkCollisionAvoidance .real path = some index) : index = [] := by
  rw [eq_nil_iff_forall_not_mem]
  intro j hj
  obtain ⟨point,hget,-,hcol⟩ := (mem_checkCollisionAvoidance hindex j).mp hj
  obtain ⟨hlt,_,hy,htheta⟩ := setPathProfile_axis hpath hget
  have hj : (j : ℝ) ≤ 3 := by exact_mod_cast Nat.le_of_lt_succ hlt
  exact not_collides_beforeWall hy htheta (by linarith) (by linarith) hcol

end Wall

section Limit
variable {m smoother solve raw}

end Limit

end IterativeAnchoringSmoother

end Apollo.Modules.Planning
