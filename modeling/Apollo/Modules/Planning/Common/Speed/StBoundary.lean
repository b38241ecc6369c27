import Apollo.Modules.Common.Math.LineSegment2d

/-! `STBoundary`: the region between a lower and an upper border that are linear between their points. The queries look
up the piece at a time, except that the first point is a piece of its own. `none` is a failed check. -/
namespace Apollo.Modules.Planning
open Common.Math List
variable {K : Type}

inductive BoundaryType where
  | unknown
  | stop
  | follow
  | yield
  | overtake
  | keepClear
  deriving DecidableEq

structure STPoint (K : Type) where
  s : K
  t : K

structure STBoundary (K : Type) where
  boundaryType : BoundaryType
  upperPoints : List (STPoint K)
  lowerPoints : List (STPoint K)
  id : String
  minS : K
  maxS : K
  minT : K
  maxT : K
  bottomLeftPoint : STPoint K
  bottomRightPoint : STPoint K
  upperLeftPoint : STPoint K
  upperRightPoint : STPoint K

abbrev PointPair (K : Type) := STPoint K × STPoint K

abbrev PointPairs (K : Type) := List (PointPair K)

variable [Field K] [LinearOrder K]

def STPoint.toVec2d (point : STPoint K) : Vec2d K := ⟨point.t,point.s⟩

def at_ (points : List (STPoint K)) (i : Nat) : STPoint K := points.getD i ⟨0,0⟩

/-- The sum of the first loop of `BuildFromPoints`. -/
def fanArea (origin : Vec2d K) : List (Vec2d K) → K
  | p::q::points => crossProdFrom origin p q+fanArea origin (q::points)
  | _ => 0

/-- The area of the polygon. -/
def buildFromPoints (points : List (Vec2d K)) : Option K :=
  let area := |fanArea (points.headD ⟨0,0⟩) points| / 2
  if 3 ≤ points.length ∧ mathEpsilon < area then some area else none

namespace STBoundary
variable (m : Cmath K)

def isPointNear (seg : LineSegment2d K) (point : Vec2d K) (maxDist : K) : Bool :=
  seg.distanceSquareTo point < maxDist*maxDist

def removeAfter (last : PointPair K) : PointPairs K → PointPairs K
  | pair::next::pairs =>
    if isPointNear (.ofEnds m last.1.toVec2d next.1.toVec2d) pair.1.toVec2d (1/10) &&
        isPointNear (.ofEnds m last.2.toVec2d next.2.toVec2d) pair.2.toVec2d (1/10) then
      removeAfter last (next::pairs)
    else pair::removeAfter pair (next::pairs)
  | pairs => pairs

def removeRedundantPoints : PointPairs K → PointPairs K
  | first::pairs => first::removeAfter m first pairs
  | [] => []

def IsValid (pairs : PointPairs K) : Prop :=
  2 ≤ pairs.length ∧ (∀ pair ∈ pairs, pair.1.s ≤ pair.2.s ∧ |pair.1.t - pair.2.t| ≤ 1/10^9) ∧
    pairs.IsChain fun curr next => max curr.1.t curr.2.t+1/10^6 < min next.1.t next.2.t

instance (pairs : PointPairs K) : Decidable (IsValid pairs) := by
  unfold IsValid
  infer_instance

def empty : STBoundary K :=
  ⟨.unknown,[],[],"",doubleMax,-doubleMax,doubleMax,-doubleMax,⟨0,0⟩,⟨0,0⟩,⟨0,0⟩,⟨0,0⟩⟩

/-- The constructor. Both points of a pair get the time of the first one. -/
def ofPairs (pointPairs : PointPairs K) : Option (STBoundary K) :=
  if IsValid pointPairs then
    let reducedPairs := removeRedundantPoints m pointPairs
    let lower := reducedPairs.map fun item => (⟨item.1.s,item.1.t⟩ : STPoint K)
    let upper := reducedPairs.map fun item => (⟨item.2.s,item.1.t⟩ : STPoint K)
    (buildFromPoints (lower.map STPoint.toVec2d ++ (upper.map STPoint.toVec2d).reverse)).map fun _ =>
      { (empty : STBoundary K) with
        upperPoints := upper
        lowerPoints := lower
        minS := lower.foldl (fun s point => min s point.s) doubleMax
        maxS := upper.foldl (fun s point => max s point.s) (-doubleMax)
        minT := (lower.headD ⟨0,0⟩).t
        maxT := (lower.getLastD ⟨0,0⟩).t }
  else none

variable (b : STBoundary K)

def setId (id : String) : STBoundary K := { b with id }

def setUpperLeftPoint (stPoint : STPoint K) : STBoundary K := { b with upperLeftPoint := stPoint }

def setUpperRightPoint (stPoint : STPoint K) : STBoundary K := { b with upperRightPoint := stPoint }

def setBottomLeftPoint (stPoint : STPoint K) : STBoundary K := { b with bottomLeftPoint := stPoint }

def setBottomRightPoint (stPoint : STPoint K) : STBoundary K := { b with bottomRightPoint := stPoint }

def getIndexRange (points : List (STPoint K)) (t : K) : Option (Nat × Nat) :=
  if t < (points.headD ⟨0,0⟩).t ∨ (points.getLastD ⟨0,0⟩).t < t then none
  else
    -- `std::lower_bound`
    let index := points.findIdx fun p => t ≤ p.t
    some (if index = 0 then (0, 0) else if index = points.length then (points.length - 1, points.length - 1)
      else (index - 1, index))

def isPointInBoundary (stPoint : STPoint K) : Bool :=
  if stPoint.t ≤ b.minT ∨ b.maxT ≤ stPoint.t then false
  else (getIndexRange b.lowerPoints stPoint.t).any fun range =>
    let checkUpper := crossProdFrom stPoint.toVec2d (at_ b.upperPoints range.1).toVec2d (at_ b.upperPoints range.2).toVec2d
    let checkLower := crossProdFrom stPoint.toVec2d (at_ b.lowerPoints range.1).toVec2d (at_ b.lowerPoints range.2).toVec2d
    checkUpper*checkLower < 0

/-- The upper and the lower value at a time. `none` is a division by zero. -/
def crossS (currTime : K) (range : Nat × Nat) : Option (K × K) :=
  let left := at_ b.upperPoints range.1
  let right := at_ b.upperPoints range.2
  if right.t - left.t = 0 then none
  else
    let r := (currTime - left.t)/(right.t - left.t)
    some (left.s+r*(right.s - left.s),
      (at_ b.lowerPoints range.1).s+r*((at_ b.lowerPoints range.2).s - (at_ b.lowerPoints range.1).s))

/-- The values `s_upper` and `s_lower`, if the result is true. `horizon` is `FLAGS_speed_lon_decision_horizon`. -/
def getBoundarySRange (horizon currTime : K) : Option (Option (K × K)) :=
  if currTime < b.minT ∨ b.maxT < currTime then some none
  else
    match getIndexRange b.lowerPoints currTime with
    | none => some none
    | some range => (b.crossS currTime range).map fun cross => some (min cross.1 horizon, max cross.2 0)

/-- The end of `GetUnblockSRange`: the result, `s_upper` and `s_lower`. -/
def unblock (horizon : K) (cross : K × K) : Bool × K × K :=
  match b.boundaryType with
  | .stop | .yield | .follow => (true, cross.2, 0)
  | .overtake => (true, horizon, max 0 cross.1)
  | _ => (false, horizon, 0)

def getUnblockSRange (horizon currTime : K) : Option (Bool × K × K) :=
  if currTime < b.minT ∨ b.maxT < currTime then some (true, horizon, 0)
  else
    match getIndexRange b.lowerPoints currTime with
    | none => some (false, horizon, 0)
    | some range => (b.crossS currTime range).map (b.unblock horizon)

def createInstance (lowerPoints upperPoints : List (STPoint K)) : Option (STBoundary K) :=
  if lowerPoints.length ≠ upperPoints.length ∨ lowerPoints.length < 2 then some empty
  else ofPairs m (lowerPoints.zip upperPoints)

def keptPairs (t : K) : PointPairs K := (b.lowerPoints.zip b.upperPoints).filter fun pair => t ≤ pair.1.t

def cutOffByT (t : K) : Option (STBoundary K) :=
  createInstance m ((b.keptPairs t).map Prod.fst) ((b.keptPairs t).map Prod.snd)

/-- The value at a time on the line through two points. -/
def piece (p q : STPoint K) (t : K) : K := p.s+(t - p.t)/(q.t - p.t)*(q.s - p.s)

/-- The value at a time of a function that is linear between points. -/
def border : List (STPoint K) → K → K
  | p::q::points, t => if t ≤ q.t then piece p q t else border (q::points) t
  | [p], _ => p.s
  | [], _ => 0

variable {m b} {pairs : PointPairs K} {t : K}

theorem border_append {before points : List (STPoint K)} {p : STPoint K} (h : ∀ x ∈ before ++ [p], x.t < t) :
    border (before ++ p::points) t = border (p::points) t := by
  induction before with
  | nil => rfl
  | cons x before ih =>
    have htail : ∀ y ∈ before ++ [p], y.t < t := fun y hy => h y (mem_cons_of_mem x hy)
    rw [cons_append,← ih htail]
    cases before with
    | nil => exact if_neg (not_le.mpr (htail p mem_cons_self))
    | cons y => exact if_neg (not_le.mpr (htail y mem_cons_self))

variable {p q : PointPair K}

omit [Field K] in
theorem exists_split (hp : p.1.t < t) (ht : t ≤ (pairs.getLastD p).1.t) :
    ∃ before q r after, p::pairs = before ++ q::r::after ∧ (∀ x ∈ before ++ [q], x.1.t < t) ∧ t ≤ r.1.t := by
  induction pairs generalizing p with
  | nil => exact absurd hp (not_lt.mpr ht)
  | cons r pairs ih =>
    rw [getLastD_cons] at ht
    by_cases hr : t ≤ r.1.t
    · exact ⟨[],p,r,pairs,rfl,by simpa using hp,hr⟩
    · obtain ⟨before,q,r',after,heq,hbefore,hr'⟩ := ih (not_le.mp hr) ht
      exact ⟨p::before,q,r',after,congrArg _ heq,forall_mem_cons.mpr ⟨hp,hbefore⟩,hr'⟩

structure Built (b : STBoundary K) (pairs : PointPairs K) : Prop where
  ne_nil : pairs ≠ []
  lower : b.lowerPoints = pairs.map Prod.fst
  upper : b.upperPoints = pairs.map Prod.snd
  minT : b.minT = (b.lowerPoints.headD ⟨0,0⟩).t
  maxT : b.maxT = (b.lowerPoints.getLastD ⟨0,0⟩).t
  sameT : ∀ pair ∈ pairs, pair.2.t = pair.1.t
  le : ∀ pair ∈ pairs, pair.1.s ≤ pair.2.s
  gap : pairs.Pairwise fun p q => p.1.t+1/10^6 < q.1.t

theorem removeAfter_sublist (last : PointPair K) : (removeAfter m last pairs).Sublist pairs := by
  fun_induction removeAfter m last pairs with
  | case1 last pair next pairs _ ih => exact ih.cons pair
  | case2 last pair next pairs _ ih => exact ih.cons_cons pair
  | case3 => exact .refl _

theorem removeRedundantPoints_sublist : (removeRedundantPoints m pairs).Sublist pairs := by
  cases pairs with
  | nil => exact .refl _
  | cons first => exact (removeAfter_sublist first).cons_cons first

theorem IsValid.gap [IsStrictOrderedRing K] (h : IsValid pairs) :
    pairs.Pairwise fun p q => p.1.t+1/10^6 < q.1.t := by
  have hpos : (0 : K) < 1/10^6 := by positivity
  let apart (p q : PointPair K) : Prop := p.1.t+1/10^6 < q.1.t
  have htrans : Trans apart apart apart := ⟨fun hpq hqr => by simp only [apart] at *; linarith⟩
  refine (isChain_iff_pairwise (R := apart)).mp (h.2.2.imp fun p q hlt => ?_)
  calc p.1.t+1/10^6 ≤ max p.1.t p.2.t+1/10^6 := add_le_add_left (le_max_left _ _) _
    _ < min q.1.t q.2.t := hlt
    _ ≤ q.1.t := min_le_left _ _

theorem Built.increasing [IsStrictOrderedRing K] (h : b.Built pairs) : pairs.Pairwise fun p q => p.1.t < q.1.t :=
  h.gap.imp fun hgap => (lt_add_of_pos_right _ (by positivity)).trans hgap

def stored (item : PointPair K) : PointPair K := (item.1, ⟨item.2.s,item.1.t⟩)

omit [Field K] [LinearOrder K] in
theorem map_stored (h : ∀ pair ∈ pairs, pair.2.t = pair.1.t) : pairs.map stored = pairs := by
  refine (map_congr_left fun x hx => ?_).trans (map_id _)
  have hsame := h x hx
  rw [stored,← hsame]
  rfl

theorem ofPairs_eq_some [IsStrictOrderedRing K] (h : ofPairs m pairs = some b) :
    b.Built ((removeRedundantPoints m pairs).map stored) := by
  rw [ofPairs] at h
  obtain ⟨hvalid,h⟩ := Option.ite_none_right_eq_some.mp h
  obtain ⟨-,-,rfl⟩ := Option.map_eq_some_iff.mp h
  refine ⟨?_,by simp [stored],by simp [stored],rfl,rfl,?_,?_,?_⟩
  · obtain _ | ⟨_,pairs⟩ := pairs
    · simp [IsValid] at hvalid
    · simp [removeRedundantPoints]
  · exact forall_mem_map.mpr fun item _ => rfl
  · refine forall_mem_map.mpr fun item hitem => ?_
    exact (hvalid.2.1 item (removeRedundantPoints_sublist.subset hitem)).1
  · exact pairwise_map.mpr (hvalid.gap.sublist removeRedundantPoints_sublist)

theorem border_of_split {f : PointPair K → STPoint K} {before after : PointPairs K}
    (hf : ∀ x ∈ before ++ p::q::after, (f x).t = x.1.t) (hbefore : ∀ x ∈ before ++ [p], x.1.t < t)
    (hq : t ≤ q.1.t) : let points := (before ++ p::q::after).map f
    at_ points before.length = f p ∧ at_ points (before.length+1) = f q ∧ border points t = piece (f p) (f q) t := by
  intro points
  have hpoints : points = before.map f ++ f p::f q::after.map f := by simp [points]
  refine ⟨by simp [hpoints,at_],by simp [hpoints,at_],?_⟩
  rw [hpoints,border_append,border,if_pos]
  · rw [hf q (by simp)]
    exact hq
  · intro _ hx
    rw [← map_singleton,← map_append] at hx
    obtain ⟨y,hy,rfl⟩ := mem_map.mp hx
    rw [hf y (by simp at hy ⊢; tauto)]
    exact hbefore y hy

/-- Two pairs that follow each other, the first before a time and the second not. -/
theorem Built.exists_consecutive (h : b.Built pairs) (hmin : b.minT < t) (hmax : t ≤ b.maxT) :
    ∃ before p q after, pairs = before ++ p::q::after ∧ (∀ x ∈ before ++ [p], x.1.t < t) ∧ t ≤ q.1.t := by
  obtain _ | ⟨_,_⟩ := pairs
  · exact absurd rfl h.ne_nil
  rw [h.minT,h.lower] at hmin
  rw [h.maxT,h.lower,map_cons,getLastD_cons,getLastD_eq_getLast?,getLast?_map,Option.getD_map,
    ← getLastD_eq_getLast?] at hmax
  exact exists_split hmin hmax

theorem Built.exists_piece (h : b.Built pairs) (hmin : b.minT < t) (hmax : t ≤ b.maxT) :
    ∃ (p q : PointPair K) (k : Nat), (p ∈ pairs ∧ p.1.t < t) ∧ (q ∈ pairs ∧ t ≤ q.1.t) ∧
      getIndexRange b.lowerPoints t = some (k, k+1) ∧
      (at_ b.lowerPoints k = p.1 ∧ at_ b.lowerPoints (k+1) = q.1 ∧ border b.lowerPoints t = piece p.1 q.1 t) ∧
      at_ b.upperPoints k = p.2 ∧ at_ b.upperPoints (k+1) = q.2 ∧ border b.upperPoints t = piece p.2 q.2 t := by
  have hrange : ¬ (t < (b.lowerPoints.headD ⟨0,0⟩).t ∨ (b.lowerPoints.getLastD ⟨0,0⟩).t < t) := by
    rw [← h.minT,← h.maxT,not_or,not_lt,not_lt]
    exact ⟨hmin.le,hmax⟩
  obtain ⟨before,p,q,_,heq,hbefore,hq⟩ := h.exists_consecutive hmin hmax
  have hlower := h.lower
  have hupper := h.upper
  have hsame := h.sameT
  rw [heq] at hlower hupper hsame ⊢
  have hindex : b.lowerPoints.findIdx (fun x => t ≤ x.t) = before.length+1 := by
    rw [hlower,append_cons,map_append,findIdx_append,findIdx_eq_length.mpr]
    · simp [findIdx_cons,hq]
    · exact forall_mem_map.mpr fun x hx => decide_eq_false (not_le.mpr (hbefore x hx))
  refine ⟨p,q,before.length,⟨by simp,hbefore p (by simp)⟩,⟨by simp,hq⟩,?_,?_,?_⟩
  · rw [getIndexRange,if_neg hrange,hindex,hlower]
    simp
  · rw [hlower]
    exact border_of_split (fun _ _ => rfl) hbefore hq
  · rw [hupper]
    exact border_of_split hsame hbefore hq

/-- At the first time the range is a single point, whose piece has no length. -/
theorem Built.crossS_minT (h : b.Built pairs) (hle : b.minT ≤ b.maxT) :
    ∃ range, getIndexRange b.lowerPoints b.minT = some range ∧ b.crossS b.minT range = none := by
  refine ⟨(0, 0),?_,if_pos (sub_self _)⟩
  have hindex : b.lowerPoints.findIdx (fun p => b.minT ≤ p.t) = 0 := by
    obtain _ | ⟨_,_⟩ := pairs
    · exact absurd rfl h.ne_nil
    · rw [h.minT,h.lower]
      simp [findIdx_cons]
  rw [getIndexRange,← h.minT,← h.maxT,if_neg (not_or.mpr ⟨lt_irrefl _,not_lt.mpr hle⟩),hindex]
  rfl

omit [LinearOrder K] in
theorem crossProdFrom_piece {p q point : STPoint K} (hne : q.t - p.t ≠ 0) :
    crossProdFrom point.toVec2d p.toVec2d q.toVec2d = (q.t - p.t)*(point.s - piece p q point.t) := by
  simp only [crossProdFrom,Vec2d.crossProd,Vec2d.sub,STPoint.toVec2d,piece]
  field_simp
  ring

variable [IsStrictOrderedRing K]

theorem piece_le (hp : p.1.t < t) (hq : t ≤ q.1.t) (hsp : p.1.s ≤ p.2.s) (hsq : q.1.s ≤ q.2.s) (htp : p.2.t = p.1.t)
    (htq : q.2.t = q.1.t) : piece p.1 q.1 t ≤ piece p.2 q.2 t := by
  have hd : 0 < q.1.t - p.1.t := by linarith
  have hr : 0 ≤ (t - p.1.t)/(q.1.t - p.1.t) := div_nonneg (by linarith) hd.le
  have hr' : (t - p.1.t)/(q.1.t - p.1.t) ≤ 1 := (div_le_one hd).mpr (by linarith)
  rw [piece,piece,htp,htq]
  nlinarith

theorem Built.isPointInBoundary_iff (h : b.Built pairs) (point : STPoint K) :
    b.isPointInBoundary point = true ↔ (b.minT < point.t ∧ point.t < b.maxT) ∧
      border b.lowerPoints point.t < point.s ∧ point.s < border b.upperPoints point.t := by
  rw [isPointInBoundary]
  by_cases hrange : point.t ≤ b.minT ∨ b.maxT ≤ point.t
  · rw [if_pos hrange]
    rw [← not_lt,← not_lt,← not_and_or] at hrange
    exact ⟨nofun,fun hin => absurd hin.1 hrange⟩
  rw [if_neg hrange]
  rw [not_or,not_le,not_le] at hrange
  obtain ⟨p,q,k,⟨hpm,hp⟩,⟨hqm,hq⟩,hindex,⟨hpl,hql,hlower⟩,hpu,hqu,hupper⟩ := h.exists_piece hrange.1 hrange.2.le
  have hle := piece_le hp hq (h.le p hpm) (h.le q hqm) (h.sameT p hpm) (h.sameT q hqm)
  have hd : 0 < q.1.t - p.1.t := by linarith
  have hd' : q.2.t - p.2.t = q.1.t - p.1.t := by rw [h.sameT p hpm,h.sameT q hqm]
  have hproduct : (q.1.t - p.1.t)*(point.s - piece p.2 q.2 point.t) *
      ((q.1.t - p.1.t)*(point.s - piece p.1 q.1 point.t)) = -((q.1.t - p.1.t)^2 *
        ((piece p.2 q.2 point.t - point.s)*(point.s - piece p.1 q.1 point.t))) := by ring
  simp only [hindex,Option.any_some,decide_eq_true_iff,hpl,hql,hpu,hqu]
  rw [crossProdFrom_piece hd.ne',crossProdFrom_piece (hd' ▸ hd.ne'),hd',hproduct,hlower,hupper,
    and_iff_right hrange,neg_lt_zero,mul_pos_iff_of_pos_left (pow_pos hd 2),mul_pos_iff]
  constructor
  · rintro (⟨hu,hl⟩ | ⟨hu,hl⟩)
    · exact ⟨sub_pos.mp hl,sub_pos.mp hu⟩
    · linarith
  · rintro ⟨hl,hu⟩
    exact .inl ⟨sub_pos.mpr hu,sub_pos.mpr hl⟩

/-- A boundary that is one high and lasts for ten seconds. -/
noncomputable def flat : PointPairs ℝ := [(⟨0,0⟩, ⟨1,0⟩),(⟨0,10⟩, ⟨1,10⟩)]

theorem ofPairs_flat : ∃ b, ofPairs .real flat = some b ∧ b.minT = 0 ∧ b.maxT = 10 ∧
    b.lowerPoints = [⟨0,0⟩,⟨0,10⟩] ∧ b.upperPoints = [⟨1,0⟩,⟨1,10⟩] := by
  have hvalid : IsValid flat := by
    refine ⟨le_rfl,?_,?_⟩ <;> norm_num [flat]
  have harea : buildFromPoints ([⟨0,0⟩,⟨10,0⟩,⟨10,1⟩,⟨0,1⟩] : List (Vec2d ℝ)) = some 10 := by
    norm_num [buildFromPoints,fanArea,crossProdFrom,Vec2d.crossProd,Vec2d.sub,mathEpsilon]
  exact ⟨_,(if_pos hvalid).trans (congrArg (Option.map _) harea),rfl,rfl,rfl,rfl⟩

theorem border_flat (t s : ℝ) (h : t ≤ 10) : border [⟨s,0⟩,⟨s,10⟩] t = s := by
  simp [border,piece,h]

/-- A point is in the boundary exactly if it is between the borders. -/
theorem isPointInBoundary_iff_between (h : ofPairs m pairs = some b) (point : STPoint K) :
    b.isPointInBoundary point = true ↔ (b.minT < point.t ∧ point.t < b.maxT) ∧
      border b.lowerPoints point.t < point.s ∧ point.s < border b.upperPoints point.t :=
  (ofPairs_eq_some h).isPointInBoundary_iff point

theorem isPointInBoundary_iff_between_flat :
    ∃ b, ofPairs .real flat = some b ∧ b.isPointInBoundary ⟨1/2,5⟩ = true := by
  obtain ⟨b,hb,hmin,hmax,hlower,hupper⟩ := ofPairs_flat
  refine ⟨b,hb,(isPointInBoundary_iff_between hb _).mpr ?_⟩
  rw [hmin,hmax,hlower,hupper,border_flat _ _ (by norm_num),border_flat _ _ (by norm_num)]
  norm_num

theorem Built.crossS_eq (h : b.Built pairs) (hmin : b.minT < t) (hmax : t ≤ b.maxT) :
    ∃ range, getIndexRange b.lowerPoints t = some range ∧
      b.crossS t range = some (border b.upperPoints t, border b.lowerPoints t) := by
  obtain ⟨p,q,k,⟨hpm,_⟩,⟨hqm,_⟩,hindex,⟨hpl,hql,hlower⟩,hpu,hqu,hupper⟩ := h.exists_piece hmin hmax
  have hd : 0 < q.1.t - p.1.t := by linarith
  refine ⟨_,hindex,?_⟩
  simp only [crossS,hpl,hql,hpu,hqu,h.sameT p hpm,h.sameT q hqm,if_neg hd.ne',hlower,hupper,piece]

/-- After the first time the ranges are those of the borders. At the first time they are a quotient of zeros. -/
theorem ranges_of_ofPairs {boundary : STBoundary K} (h : ofPairs m pairs = some boundary) (type : BoundaryType)
    (horizon : K) (hmin : boundary.minT ≤ t) (hmax : t ≤ boundary.maxT) :
    let b := { boundary with boundaryType := type }
    let upper := border b.upperPoints t
    let lower := border b.lowerPoints t
    (b.minT < t → b.getBoundarySRange horizon t = some (some (min upper horizon, max lower 0)) ∧
        b.getUnblockSRange horizon t = some (b.unblock horizon (upper, lower))) ∧
      (t = b.minT → b.getBoundarySRange horizon t = none ∧ b.getUnblockSRange horizon t = none) := by
  intro b upper lower
  have hbuilt : b.Built _ := { ofPairs_eq_some h with }
  have hrange : ¬ (t < b.minT ∨ b.maxT < t) := not_or.mpr ⟨not_lt.mpr hmin,not_lt.mpr hmax⟩
  rw [getBoundarySRange,getUnblockSRange,if_neg hrange,if_neg hrange]
  constructor
  · intro hlt
    obtain ⟨range,hindex,hcross⟩ := hbuilt.crossS_eq hlt hmax
    simp only [hindex,hcross,Option.map_some,upper,lower,true_and]
  · rintro rfl
    obtain ⟨range,hindex,hcross⟩ := hbuilt.crossS_minT hmax
    simp only [hindex,hcross,Option.map_none,true_and]

theorem ranges_of_ofPairs_flat : ∃ b, ofPairs .real flat = some b ∧
    b.getBoundarySRange 200 5 = some (some (min (border b.upperPoints 5) 200, max (border b.lowerPoints 5) 0)) := by
  obtain ⟨b,hb,hmin,hmax,-⟩ := ofPairs_flat
  have hmin' : b.minT < 5 := by norm_num [hmin]
  have hmax' : 5 ≤ b.maxT := by norm_num [hmax]
  exact ⟨b,hb,((ranges_of_ofPairs hb b.boundaryType 200 hmin'.le hmax').1 hmin').1⟩

/-- Both queries divide zero by zero at the first time. -/
theorem ranges_flat_start : ∃ b, ofPairs .real flat = some b ∧ b.minT ≤ 0 ∧ 0 ≤ b.maxT ∧
    b.getBoundarySRange 200 0 = none ∧ b.getUnblockSRange 200 0 = none := by
  obtain ⟨b,hb,hmin,hmax,-⟩ := ofPairs_flat
  have hle : b.minT ≤ b.maxT := by norm_num [hmin,hmax]
  obtain ⟨_,hindex,hcross⟩ := (ofPairs_eq_some hb).crossS_minT hle
  rw [hmin] at hindex hcross
  refine ⟨b,hb,hmin.le,hmin ▸ hle,?_,?_⟩
  · simp [getBoundarySRange,hmin,hmax,hindex,hcross]
  · simp [getUnblockSRange,hmin,hmax,hindex,hcross]

section Pieces
variable {p' q' : PointPair K} {a : K}

/-- The place is between the borders of the piece from one pair to another. -/
def Inside (p q : PointPair K) (t s : K) : Prop := piece p.1 q.1 t < s ∧ s < piece p.2 q.2 t

def Closed (p : PointPair K) : Prop := p.1.s = p.2.s

/-- Two pairs of a boundary, the first before the second. -/
structure Ordered (p q : PointPair K) : Prop where
  lt : p.1.t < q.1.t
  sameT : p.2.t = p.1.t ∧ q.2.t = q.1.t
  le : p.1.s ≤ p.2.s ∧ q.1.s ≤ q.2.s

omit [LinearOrder K] [IsStrictOrderedRing K] in
theorem piece_left (p q : STPoint K) : piece p q p.t = p.s := by
  rw [piece,sub_self,zero_div,zero_mul,add_zero]

omit [LinearOrder K] [IsStrictOrderedRing K] in
theorem piece_right {p q : STPoint K} (h : q.t - p.t ≠ 0) : piece p q q.t = q.s := by
  rw [piece,div_self h,one_mul,add_sub_cancel]

theorem Ordered.piece_eq_iff (h : Ordered p q) (hp : p.1.t < t) (hq : t < q.1.t) :
    piece p.2 q.2 t ≤ piece p.1 q.1 t ↔ Closed p ∧ Closed q := by
  have hd : 0 < q.1.t - p.1.t := sub_pos.mpr h.lt
  have hr : 0 < (t - p.1.t)/(q.1.t - p.1.t) := div_pos (sub_pos.mpr hp) hd
  have hr' : (t - p.1.t)/(q.1.t - p.1.t) < 1 := (div_lt_one hd).mpr (by linarith)
  obtain ⟨hlep,hleq⟩ := h.le
  rw [piece,piece,h.sameT.1,h.sameT.2,Closed,Closed]
  constructor
  · intro hle
    refine ⟨le_antisymm hlep ?_,le_antisymm hleq ?_⟩
    · nlinarith [mul_nonneg hr.le (sub_nonneg.mpr hleq)]
    · nlinarith [mul_nonneg (sub_pos.mpr hr').le (sub_nonneg.mpr hlep)]
  · rintro ⟨hp,hq⟩
    rw [hp,hq]

/-- The region of a piece is empty behind some time exactly if both pairs are closed. -/
theorem Ordered.not_inside_iff (h : Ordered p q) (ha : p.1.t ≤ a) (haq : a < q.1.t) :
    (∀ t s, a < t → t < q.1.t → ¬ Inside p q t s) ↔ Closed p ∧ Closed q := by
  constructor
  · intro hempty
    obtain ⟨t,hat,htq⟩ := exists_between haq
    refine (h.piece_eq_iff (ha.trans_lt hat) htq).mp (not_lt.mp fun hlt => ?_)
    obtain ⟨s,hl,hu⟩ := exists_between hlt
    exact hempty t s hat htq ⟨hl,hu⟩
  · intro hclosed t s hat htq hin
    exact absurd ((h.piece_eq_iff (ha.trans_lt hat) htq).mpr hclosed) (not_le.mpr (hin.1.trans hin.2))

omit [LinearOrder K] [IsStrictOrderedRing K] in
/-- Two lines that agree at two times are the same. -/
theorem piece_injective {p q p' q' : STPoint K} {t' : K} (hp : p'.t = p.t) (hq : q'.t = q.t) (hd : q.t - p.t ≠ 0)
    (hne : t - t' ≠ 0) (h : piece p' q' t = piece p q t) (h' : piece p' q' t' = piece p q t') :
    p'.s = p.s ∧ q'.s = q.s := by
  simp only [piece,hp,hq] at h h'
  have hslope : (q'.s - p'.s) - (q.s - p.s) = 0 := by
    have hmul : (t - t')/(q.t - p.t)*((q'.s - p'.s) - (q.s - p.s)) = 0 := by
      linear_combination h - h'
    exact (mul_eq_zero.mp hmul).resolve_left (div_ne_zero hne hd)
  have hstart : p'.s = p.s := by linear_combination h - (t - p.t)/(q.t - p.t)*hslope
  exact ⟨hstart,by linear_combination hslope+hstart⟩

/-- Two pieces over the same times have the same region behind some time exactly if their pairs are the same or all of
them are closed. -/
theorem Ordered.inside_iff_iff (h : Ordered p q) (h' : Ordered p' q') (hp : p'.1.t = p.1.t) (hq : q'.1.t = q.1.t)
    (ha : p.1.t ≤ a) (haq : a < q.1.t) :
    (∀ t s, a < t → t < q.1.t → (Inside p' q' t s ↔ Inside p q t s)) ↔
      (p' = p ∧ q' = q) ∨ (Closed p ∧ Closed q) ∧ Closed p' ∧ Closed q' := by
  constructor
  · intro hsame
    by_cases hclosed : Closed p ∧ Closed q
    · have hempty := (h.not_inside_iff ha haq).mpr hclosed
      refine .inr ⟨hclosed,(h'.not_inside_iff (hp ▸ ha) (hq ▸ haq)).mp fun t s hat htq => ?_⟩
      rw [hq] at htq
      rw [hsame t s hat htq]
      exact hempty t s hat htq
    left
    have hborders (t : K) (hat : a < t) (htq : t < q.1.t) :
        piece p'.1 q'.1 t = piece p.1 q.1 t ∧ piece p'.2 q'.2 t = piece p.2 q.2 t := by
      have hlt := not_le.mp fun hle => hclosed ((h.piece_eq_iff (ha.trans_lt hat) htq).mp hle)
      obtain ⟨s,hs⟩ := exists_between hlt
      have hlt' : piece p'.1 q'.1 t < piece p'.2 q'.2 t := by
        obtain ⟨hl,hu⟩ := (hsame t s hat htq).mpr hs
        exact hl.trans hu
      obtain ⟨hl,hu⟩ := (Set.Ioo_subset_Ioo_iff hlt).mp fun s => (hsame t s hat htq).mpr
      obtain ⟨hl',hu'⟩ := (Set.Ioo_subset_Ioo_iff hlt').mp fun s => (hsame t s hat htq).mp
      exact ⟨le_antisymm hl hl',le_antisymm hu' hu⟩
    obtain ⟨t,hat,htq⟩ := exists_between haq
    obtain ⟨t',htt',htq'⟩ := exists_between htq
    obtain ⟨hl,hu⟩ := hborders t hat htq
    obtain ⟨hl',hu'⟩ := hborders t' (hat.trans htt') htq'
    have hd : q.1.t - p.1.t ≠ 0 := (sub_pos.mpr h.lt).ne'
    have hne : t - t' ≠ 0 := (sub_neg.mpr htt').ne
    have hp2 : p'.2.t = p.2.t := by rw [h'.sameT.1,h.sameT.1,hp]
    have hq2 : q'.2.t = q.2.t := by rw [h'.sameT.2,h.sameT.2,hq]
    have hd2 : q.2.t - p.2.t ≠ 0 := by rwa [h.sameT.1,h.sameT.2]
    obtain ⟨hlp,hlq⟩ := piece_injective hp hq hd hne hl hl'
    obtain ⟨hup,huq⟩ := piece_injective hp2 hq2 hd2 hne hu hu'
    have heq {x y : PointPair K} (h1 : x.1.t = y.1.t) (h2 : x.2.t = y.2.t) (h3 : x.1.s = y.1.s) (h4 : x.2.s = y.2.s) :
        x = y := by
      obtain ⟨⟨_,_⟩,_,_⟩ := x
      obtain ⟨⟨_,_⟩,_,_⟩ := y
      simp_all
    exact ⟨heq hp hp2 hlp hup,heq hq hq2 hlq huq⟩
  · rintro (⟨rfl,rfl⟩ | ⟨hclosed,hclosed'⟩) t s hat htq
    · rfl
    · refine iff_of_false ?_ ((h.not_inside_iff ha haq).mpr hclosed t s hat htq)
      exact (h'.not_inside_iff (hp ▸ ha) (hq ▸ haq)).mpr hclosed' t s hat (hq ▸ htq)

end Pieces

section Refined
variable {before after : PointPairs K} {f : PointPair K → STPoint K}

omit [IsStrictOrderedRing K] in
theorem border_between (hf : ∀ x ∈ before ++ p::q::after, (f x).t = x.1.t)
    (hlt : (before ++ p::q::after).Pairwise fun x y => x.1.t < y.1.t) (hp : p.1.t ≤ t) (hq : t ≤ q.1.t) :
    border ((before ++ p::q::after).map f) t = piece (f p) (f q) t := by
  have hbefore : ∀ x ∈ before, x.1.t < p.1.t := fun x hx => (pairwise_append.mp hlt).2.2 x hx p mem_cons_self
  obtain hp | rfl := hp.lt_or_eq
  · refine (border_of_split hf ?_ hq).2.2
    exact forall_mem_append.mpr ⟨fun x hx => (hbefore x hx).trans hp,forall_mem_singleton.mpr hp⟩
  have hleft : piece (f p) (f q) p.1.t = (f p).s := by
    rw [← hf p (by simp)]
    exact piece_left _ _
  rw [hleft]
  -- at the time of a vertex the piece before it is taken, if there is one
  obtain rfl | ⟨init,x,rfl⟩ := eq_nil_or_concat' before
  · rw [nil_append,map_cons,map_cons,border,if_pos ((hf q (by simp)).symm ▸ hq)]
    exact hleft
  · have hx := hbefore x (by simp)
    rw [append_assoc,singleton_append] at hf ⊢
    rw [(border_of_split hf ?_ le_rfl).2.2]
    · rw [← hf p (by simp)]
      refine piece_right (sub_ne_zero.mpr ?_)
      rw [hf p (by simp),hf x (by simp)]
      exact hx.ne'
    · exact fun y hy => hbefore y hy

omit [LinearOrder K] [IsStrictOrderedRing K] in
theorem piece_piece {p q : STPoint K} {x y : K} (hd : q.t - p.t ≠ 0) (hne : y - x ≠ 0) :
    piece ⟨piece p q x,x⟩ ⟨piece p q y,y⟩ t = piece p q t := by
  simp only [piece]
  field_simp
  ring

/-- Between two times without a vertex between them, a border is the piece between its values there. -/
theorem border_eq_piece {first : PointPair K} {x y : K} (hf : ∀ z ∈ first::pairs, (f z).t = z.1.t)
    (hlt : (first::pairs).Pairwise fun x y => x.1.t < y.1.t) (hfirst : first.1.t ≤ x) (hxt : x < t) (hty : t ≤ y)
    (hlast : y ≤ (pairs.getLastD first).1.t) (hno : ∀ z ∈ first::pairs, z.1.t ≤ x ∨ y ≤ z.1.t) :
    border ((first::pairs).map f) t =
      piece ⟨border ((first::pairs).map f) x,x⟩ ⟨border ((first::pairs).map f) y,y⟩ t := by
  have hxy : x < y := hxt.trans_le hty
  obtain ⟨before,p,q,after,heq,hbefore,hq⟩ := exists_split (hfirst.trans_lt hxy) hlast
  rw [heq] at hf hlt hno ⊢
  have hp : p.1.t ≤ x := (hno p (by simp)).resolve_right (not_le.mpr (hbefore p (by simp)))
  have hpq : p.1.t < q.1.t := (hp.trans_lt hxy).trans_le hq
  rw [border_between hf hlt (hp.trans hxt.le) (hty.trans hq),border_between hf hlt hp (hxy.le.trans hq),
    border_between hf hlt (hp.trans hxy.le) hq,piece_piece _ (sub_pos.mpr hxy).ne']
  rw [hf p (by simp),hf q (by simp)]
  exact (sub_pos.mpr hpq).ne'

end Refined

section Cut
variable {c : STBoundary K} {t0 : K}

/-- Two pairs of the boundary that follow each other. -/
def Consecutive (b : STBoundary K) (p q : PointPair K) : Prop :=
  ∃ before after, b.lowerPoints.zip b.upperPoints = before ++ p::q::after

/-- The places of the borders of some pairs at the time of a pair. -/
def bordersAt (pairs : PointPairs K) (p : PointPair K) : PointPair K :=
  (⟨border (pairs.map Prod.fst) p.1.t,p.1.t⟩, ⟨border (pairs.map Prod.snd) p.1.t,p.1.t⟩)

def polygon (pairs : PointPairs K) : List (Vec2d K) :=
  pairs.map (fun p => p.1.toVec2d) ++ (pairs.map fun p => p.2.toVec2d).reverse

/-- Of the pairs, those from the time on are kept. If the time is between two pairs, then they are closed. The borders of
the kept pairs that `RemoveRedundantPoints` leaves have an area, and between pairs that follow each other they are the
same as before, or nothing is between them either way. -/
structure KeepsShape (m : Cmath K) (b : STBoundary K) (t0 : K) : Prop where
  area : 2 ≤ (b.keptPairs t0).length → (buildFromPoints (polygon (removeRedundantPoints m (b.keptPairs t0)))).isSome
  dropped : ∀ p q, b.Consecutive p q → p.1.t < t0 → t0 < q.1.t → Closed p ∧ Closed q
  kept : ∀ p q, b.Consecutive p q → t0 ≤ p.1.t →
    let at_ := bordersAt (removeRedundantPoints m (b.keptPairs t0))
    (at_ p = p ∧ at_ q = q) ∨ (Closed p ∧ Closed q) ∧ Closed (at_ p) ∧ Closed (at_ q)

omit [IsStrictOrderedRing K] in
theorem getLast?_removeRedundantPoints : (removeRedundantPoints m pairs).getLast? = pairs.getLast? := by
  cases pairs with
  | nil => rfl
  | cons first pairs =>
    rw [removeRedundantPoints,getLast?_cons,getLast?_cons]
    congr 2
    fun_induction removeAfter m first pairs with
    | case1 last pair next pairs _ ih => rw [ih,getLast?_cons_cons]
    | case2 last pair next pairs _ ih =>
      rw [getLast?_cons,ih,getLast?_cons_cons]
      cases pairs <;> simp [getLast?_cons]
    | case3 => rfl

theorem isPointInBoundary_empty (point : STPoint K) : (empty : STBoundary K).isPointInBoundary point = false := by
  apply if_pos
  obtain hle | hle := le_total point.t 0
  · exact .inl (hle.trans doubleMax_pos.le)
  · exact .inr ((neg_nonpos.mpr doubleMax_pos.le).trans hle)

omit [IsStrictOrderedRing K] in
theorem Ordered.not_inside_of_closed (h : Ordered p q) (hp : Closed p) (hq : Closed q) (s : K) : ¬ Inside p q t s := by
  rintro ⟨hl,hu⟩
  rw [piece,h.sameT.1,h.sameT.2,← hp,← hq] at hu
  exact lt_asymm hl hu

omit [IsStrictOrderedRing K] in
theorem exists_ofPairs_iff (hvalid : IsValid pairs) (hsame : ∀ pair ∈ pairs, pair.2.t = pair.1.t) :
    (∃ c, ofPairs m pairs = some c) ↔ (buildFromPoints (polygon (removeRedundantPoints m pairs))).isSome := by
  have hpolygon : polygon (removeRedundantPoints m pairs) =
      ((removeRedundantPoints m pairs).map fun item => (⟨item.1.s,item.1.t⟩ : STPoint K)).map STPoint.toVec2d ++
        (((removeRedundantPoints m pairs).map fun item => (⟨item.2.s,item.1.t⟩ : STPoint K)).map
          STPoint.toVec2d).reverse := by
    simp only [polygon,map_map]
    congr 2
    refine map_congr_left fun x hx => ?_
    have hx := hsame x (removeRedundantPoints_sublist.subset hx)
    simp only [Function.comp_apply,STPoint.toVec2d,hx]
  rw [ofPairs,if_pos hvalid,hpolygon,← Option.isSome_iff_exists,Option.isSome_map]

section
variable (h : b.Built pairs)
include h

omit [IsStrictOrderedRing K] in
theorem Built.zip_eq : b.lowerPoints.zip b.upperPoints = pairs := by
  rw [h.lower,h.upper,zip_map']
  exact map_id _

omit [IsStrictOrderedRing K] in
theorem Built.keptPairs_eq : b.keptPairs t0 = pairs.filter fun pair => t0 ≤ pair.1.t := by
  rw [keptPairs,h.zip_eq]

omit [IsStrictOrderedRing K] in
theorem Built.keptPairs_sublist : (b.keptPairs t0).Sublist pairs := h.keptPairs_eq ▸ filter_sublist

theorem Built.isValid_keptPairs (hlen : 2 ≤ (b.keptPairs t0).length) : IsValid (b.keptPairs t0) := by
  have hsub : (b.keptPairs t0).Sublist pairs := h.keptPairs_sublist
  refine ⟨hlen,fun pair hpair => ⟨h.le pair (hsub.subset hpair),?_⟩,?_⟩
  · rw [h.sameT pair (hsub.subset hpair),sub_self,abs_zero]
    positivity
  · refine ((h.gap.sublist hsub).imp_of_mem fun {x y} hx hy hgap => ?_).isChain
    rwa [h.sameT x (hsub.subset hx),h.sameT y (hsub.subset hy),max_self,min_self]

/-- The checks of the constructor fail for the kept pairs only if these have no area. -/
theorem Built.exists_cut_iff : (∃ cut, b.cutOffByT m t0 = some cut) ↔
    (2 ≤ (b.keptPairs t0).length → (buildFromPoints (polygon (removeRedundantPoints m (b.keptPairs t0)))).isSome) := by
  have hsame : ∀ pair ∈ b.keptPairs t0, pair.2.t = pair.1.t := fun pair hpair =>
    h.sameT pair (h.keptPairs_sublist.subset hpair)
  rw [cutOffByT,createInstance,length_map,length_map,zip_map',map_id']
  by_cases hlen : 2 ≤ (b.keptPairs t0).length
  · rw [if_neg (by omega),exists_ofPairs_iff (h.isValid_keptPairs hlen) hsame]
    exact (true_imp_iff.symm.trans (imp_congr_left (iff_true_intro hlen).symm))
  · rw [if_pos (.inr (by omega))]
    exact iff_of_true ⟨_,rfl⟩ fun h => absurd h hlen

theorem Built.built_cut (hcut : b.cutOffByT m t0 = some c) (hlen : 2 ≤ (b.keptPairs t0).length) :
    c.Built (removeRedundantPoints m (b.keptPairs t0)) := by
  rw [cutOffByT,createInstance,length_map,length_map,zip_map',map_id',if_neg (by omega)] at hcut
  have hbuilt := ofPairs_eq_some hcut
  rwa [map_stored] at hbuilt
  exact fun pair hpair => h.sameT pair (h.keptPairs_sublist.subset (removeRedundantPoints_sublist.subset hpair))

/-- What is in the cut boundary is behind a kept pair. -/
theorem Built.exists_before (hcut : b.cutOffByT m t0 = some c) {point : STPoint K}
    (hin : c.isPointInBoundary point = true) : ∃ r ∈ pairs, t0 ≤ r.1.t ∧ r.1.t < point.t := by
  by_cases hlen : 2 ≤ (b.keptPairs t0).length
  · have hc := h.built_cut hcut hlen
    obtain ⟨⟨hmin,-⟩,-⟩ := (hc.isPointInBoundary_iff point).mp hin
    rw [hc.minT,hc.lower] at hmin
    obtain ⟨r,hr,hhead⟩ : ∃ r ∈ b.keptPairs t0, (removeRedundantPoints m (b.keptPairs t0)).head? = some r := by
      cases hkept : b.keptPairs t0 with
      | nil => simp [hkept] at hlen
      | cons first => exact ⟨first,mem_cons_self,rfl⟩
    rw [h.keptPairs_eq,mem_filter] at hr
    refine ⟨r,hr.1,of_decide_eq_true hr.2,?_⟩
    rwa [headD_eq_head?_getD,head?_map,hhead] at hmin
  · rw [cutOffByT,createInstance,length_map,length_map,if_pos (.inr (by omega))] at hcut
    cases hcut
    rw [isPointInBoundary_empty] at hin
    cases hin

theorem Built.minT_le {r : PointPair K} (hr : r ∈ pairs) : b.minT ≤ r.1.t := by
  have hincreasing := h.increasing
  rw [h.minT,h.lower]
  cases pairs with
  | nil => cases hr
  | cons =>
    obtain rfl | hr := mem_cons.mp hr
    · exact le_rfl
    · exact (rel_of_pairwise_cons hincreasing hr).le

theorem Built.le_maxT {r : PointPair K} (hr : r ∈ pairs) : r.1.t ≤ b.maxT := by
  have hincreasing := h.increasing
  obtain ⟨init,last,rfl⟩ := (eq_nil_or_concat' pairs).resolve_left h.ne_nil
  rw [h.maxT,h.lower,getLastD_eq_getLast?,getLast?_map,getLast?_concat]
  obtain hr | hr := mem_append.mp hr
  · exact ((pairwise_append.mp hincreasing).2.2 r hr last mem_cons_self).le
  · rw [mem_singleton.mp hr]
    rfl

theorem Built.border_le (hmin : b.minT ≤ t) (hmax : t ≤ b.maxT) :
    border b.lowerPoints t ≤ border b.upperPoints t := by
  obtain hmin | rfl := hmin.lt_or_eq
  · obtain ⟨p,q,_,⟨hpm,hp⟩,⟨hqm,hq⟩,-,⟨-,-,hlower⟩,-,-,hupper⟩ := h.exists_piece hmin hmax
    rw [hlower,hupper]
    exact piece_le hp hq (h.le p hpm) (h.le q hqm) (h.sameT p hpm) (h.sameT q hqm)
  · have hincreasing := h.increasing
    have hsame := h.sameT
    have hle := h.le
    rw [h.minT,h.lower,h.upper]
    obtain _ | ⟨p,_ | ⟨q,_⟩⟩ := pairs
    · exact absurd rfl h.ne_nil
    · exact hle p mem_cons_self
    · have hpq := (rel_of_pairwise_cons hincreasing mem_cons_self).le
      have hp := hsame p mem_cons_self
      simp only [map_cons,headD_cons,border]
      rw [if_pos hpq,hsame q (by simp),if_pos hpq,piece_left,← hp,piece_left]
      exact hle p mem_cons_self

end

section
variable {before after : PointPairs K} (h : b.Built (before ++ p::q::after))
include h

theorem Built.ordered : Ordered p q := by
  have hpq := (pairwise_append.mp h.increasing).2.1
  exact ⟨rel_of_pairwise_cons hpq mem_cons_self,⟨h.sameT p (by simp),h.sameT q (by simp)⟩,h.le p (by simp),h.le q (by simp)⟩

theorem Built.isPointInBoundary_piece {s : K} (hp : p.1.t < t) (hq : t ≤ q.1.t) (hmax : t < b.maxT) :
    b.isPointInBoundary ⟨s,t⟩ = true ↔ Inside p q t s := by
  have hmin : b.minT < t := (h.minT_le (by simp)).trans_lt hp
  rw [h.isPointInBoundary_iff,h.lower,h.upper,and_iff_right ⟨hmin,hmax⟩,
    border_between (fun _ _ => rfl) h.increasing hp.le hq,border_between h.sameT h.increasing hp.le hq]
  rfl

/-- No pair is between two that follow each other. -/
theorem Built.not_between {r : PointPair K} (hr : r ∈ before ++ p::q::after) : r.1.t ≤ p.1.t ∨ q.1.t ≤ r.1.t := by
  obtain ⟨-,hafter,hbefore⟩ := pairwise_append.mp h.increasing
  obtain hr | hr := mem_append.mp hr
  · exact .inl (hbefore r hr p mem_cons_self).le
  · obtain rfl | hr := mem_cons.mp hr
    · exact .inl le_rfl
    · obtain rfl | hr := mem_cons.mp hr
      · exact .inr le_rfl
      · exact .inr (rel_of_pairwise_cons (pairwise_cons.mp hafter).2 hr).le

theorem Built.sublist_keptPairs (hp : t0 ≤ p.1.t) : [p,q].Sublist (b.keptPairs t0) := by
  have hsub : [p,q].Sublist (before ++ p::q::after) := ((nil_sublist after).cons_cons q |>.cons_cons p).trans
    (sublist_append_right ..)
  rw [h.keptPairs_eq]
  refine Sublist.trans ?_ (hsub.filter _)
  simp [hp,hp.trans h.ordered.lt.le]

variable (hcut : b.cutOffByT m t0 = some c)
include hcut

/-- Up to the first kept pair there is no region. -/
theorem Built.not_isPointInBoundary_cut {point : STPoint K} (hp : p.1.t < t0) (hq : point.t ≤ q.1.t) :
    ¬c.isPointInBoundary point = true := by
  intro hin
  obtain ⟨r,hr,hr0,hrt⟩ := h.exists_before hcut hin
  obtain hle | hle := h.not_between hr
  · exact absurd (hr0.trans hle) (not_le.mpr hp)
  · exact absurd (hrt.trans_le hq) (not_lt.mpr hle)

variable (hp : t0 ≤ p.1.t)
include hp

theorem Built.maxT_cut : c.maxT = b.maxT := by
  have hc := h.built_cut hcut (h.sublist_keptPairs hp).length_le
  have hlast : (b.keptPairs t0).getLast? = (before ++ p::q::after).getLast? := by
    rw [h.keptPairs_eq]
    obtain ⟨init,last,heq⟩ := (eq_nil_or_concat' (q::after)).resolve_left (cons_ne_nil _ _)
    have hmem : last ∈ q::after := heq ▸ by simp
    have hle : t0 ≤ last.1.t :=
      hp.trans (rel_of_pairwise_cons (pairwise_append.mp h.increasing).2.1 hmem).le
    have hkept : [last].filter (fun pair => t0 ≤ pair.1.t) = [last] := by simp [hle]
    rw [heq,append_cons,← append_assoc,filter_append,hkept,getLast?_concat,getLast?_concat]
  rw [hc.maxT,h.maxT,hc.lower,h.lower,getLastD_eq_getLast?,getLastD_eq_getLast?,getLast?_map,getLast?_map,
    getLast?_removeRedundantPoints,hlast]

theorem Built.cut_range : c.minT ≤ p.1.t ∧ q.1.t ≤ c.maxT := by
  rw [h.maxT_cut hcut hp]
  refine ⟨?_,h.le_maxT (by simp)⟩
  have hc := h.built_cut hcut (h.sublist_keptPairs hp).length_le
  have hsub : (b.keptPairs t0).Sublist _ := h.keptPairs_sublist
  have hkept := h.increasing.sublist hsub
  have hmem := (h.sublist_keptPairs hp).subset mem_cons_self
  rw [hc.minT,hc.lower]
  cases hk : b.keptPairs t0 with rw [hk] at hmem hkept
  | nil => cases hmem
  | cons first rest =>
    obtain rfl | hmem := mem_cons.mp hmem
    · exact le_rfl
    · exact (rel_of_pairwise_cons hkept hmem).le

/-- Between two kept pairs the region of the cut boundary is that between the new borders. -/
theorem Built.isPointInBoundary_cut {s : K} (hpt : p.1.t < t) (hq : t ≤ q.1.t) (hmax : t < b.maxT) :
    c.isPointInBoundary ⟨s,t⟩ = true ↔ Inside (bordersAt (removeRedundantPoints m (b.keptPairs t0)) p)
      (bordersAt (removeRedundantPoints m (b.keptPairs t0)) q) t s := by
  have hc := h.built_cut hcut (h.sublist_keptPairs hp).length_le
  obtain ⟨hmin,hlast⟩ := h.cut_range hcut hp
  have hno : ∀ z ∈ removeRedundantPoints m (b.keptPairs t0), z.1.t ≤ p.1.t ∨ q.1.t ≤ z.1.t := fun z hz =>
    h.not_between (h.keptPairs_sublist.subset (removeRedundantPoints_sublist.subset hz))
  rw [hc.isPointInBoundary_iff,and_iff_right ⟨hmin.trans_lt hpt,h.maxT_cut hcut hp ▸ hmax⟩,hc.lower,hc.upper]
  have hsame := hc.sameT
  have hincreasing := hc.increasing
  rw [hc.minT,hc.lower] at hmin
  rw [hc.maxT,hc.lower,getLastD_eq_getLast?,getLast?_map] at hlast
  cases hr : removeRedundantPoints m (b.keptPairs t0) with rw [hr] at hno hsame hincreasing hmin hlast
  | nil => exact absurd hr hc.ne_nil
  | cons first rest =>
    have hlast' : q.1.t ≤ (rest.getLastD first).1.t := by
      rwa [getLast?_cons,Option.map_some,Option.getD_some,← getLastD_eq_getLast?] at hlast
    rw [border_eq_piece (fun _ _ => rfl) hincreasing hmin hpt hq hlast' hno,
      border_eq_piece hsame hincreasing hmin hpt hq hlast' hno]
    rfl

theorem Built.ordered_cut : Ordered (bordersAt (removeRedundantPoints m (b.keptPairs t0)) p)
    (bordersAt (removeRedundantPoints m (b.keptPairs t0)) q) := by
  have hc := h.built_cut hcut (h.sublist_keptPairs hp).length_le
  obtain ⟨hmin,hmax⟩ := h.cut_range hcut hp
  have hlt := h.ordered.lt
  refine ⟨hlt,⟨rfl,rfl⟩,?_,?_⟩
  · have hle := hc.border_le hmin (hlt.le.trans hmax)
    rwa [hc.lower,hc.upper] at hle
  · have hle := hc.border_le (hmin.trans hlt.le) hmax
    rwa [hc.lower,hc.upper] at hle

end

end Cut

theorem keptPairs_flat {b : STBoundary ℝ} (hlower : b.lowerPoints = [⟨0,0⟩,⟨0,10⟩])
    (hupper : b.upperPoints = [⟨1,0⟩,⟨1,10⟩]) :
    b.keptPairs 0 = flat ∧ b.keptPairs 5 = [(⟨0,10⟩, ⟨1,10⟩)] := by
  constructor <;> norm_num [keptPairs,hlower,hupper,flat]

end STBoundary
end Apollo.Modules.Planning
