import Apollo.Foundation.Rectangles
import Apollo.Modules.Common.Math.LineSegment2d

/-! `Box2d`: its construction and the operations that change it, its distance to points and segments, and the overlap
with segments and other boxes. `InitCorners` only ever widens the extents of a box. -/
namespace Apollo.Modules.Common.Math
open Foundation List Option Real Rectangle Prod
variable {K : Type}

/-- The numbers `max_x_` to `min_y_` are those of the corners. -/
structure Box2d (K : Type) where
  center : Vec2d K
  halfLength : K
  halfWidth : K
  cosHeading : K
  sinHeading : K
  minX : K
  maxX : K
  minY : K
  maxY : K

/-- The local variables of `DistanceTo`: both ends of the segment as seen from the box, with the side of the box
they are on. -/
structure Box2d.Ends (K : Type) where
  x1 : K
  y1 : K
  gx1 : Int
  gy1 : Int
  x2 : K
  y2 : K
  gx2 : Int
  gy2 : Int
  boxX : K
  boxY : K

namespace Box2d

structure Object (K : Type) extends Box2d K where
  length : K
  width : K
  heading : K
  corners : List (Vec2d K)

inductive Construction (K : Type)
  | default
  | ofHeading (center : Vec2d K) (heading length width : K)
  | ofAxis (axis : LineSegment2d K) (width : K)
  | ofAABox (aabox : AABox2d K)

inductive Operation (K : Type)
  | rotateFromCenter (rotateAngle : K)
  | shift (shiftVec : Vec2d K)
  | longitudinalExtend (extensionLength : K)
  | lateralExtend (extensionLength : K)

def Construction.initsCorners : Construction K → Bool
  | default => false
  | ofHeading .. => true
  | ofAxis .. => true
  | ofAABox _ => false

end Box2d

variable [Field K] [LinearOrder K] (m : Cmath K)

def ptSegDistance (queryX queryY startX startY endX endY length : K) : K :=
  let x0 := queryX - startX
  let y0 := queryY - startY
  let dx := endX - startX
  let dy := endY - startY
  let proj := x0*dx+y0*dy
  if proj ≤ 0 then m.hypot x0 y0
  else if length*length ≤ proj then m.hypot (x0 - dx) (y0 - dy)
  else |x0*dy - y0*dx| / length

namespace Box2d

variable (box : Box2d K) (segment : LineSegment2d K)

def getAllCorners : List (Vec2d K) :=
  let dx1 := box.cosHeading*box.halfLength
  let dy1 := box.sinHeading*box.halfLength
  let dx2 := box.sinHeading*box.halfWidth
  let dy2 := -box.cosHeading*box.halfWidth
  [⟨box.center.x+dx1+dx2,box.center.y+dy1+dy2⟩,⟨box.center.x+dx1 - dx2,box.center.y+dy1 - dy2⟩,
    ⟨box.center.x - dx1 - dx2,box.center.y - dy1 - dy2⟩,⟨box.center.x - dx1+dx2,box.center.y - dy1+dy2⟩]

def Contains (point : Vec2d K) : Prop :=
  ∃ a b, |a| ≤ box.halfLength ∧ |b| ≤ box.halfWidth ∧ point.x = box.center.x+a*box.cosHeading - b*box.sinHeading ∧
    point.y = box.center.y+a*box.sinHeading+b*box.cosHeading

def isPointIn (point : Vec2d K) : Bool :=
  let x0 := point.x - box.center.x
  let y0 := point.y - box.center.y
  let dx := |x0*box.cosHeading+y0*box.sinHeading|
  let dy := |-x0*box.sinHeading+y0*box.cosHeading|
  dx ≤ box.halfLength+mathEpsilon && dy ≤ box.halfWidth+mathEpsilon

def distanceToPoint (point : Vec2d K) : K :=
  let x0 := point.x - box.center.x
  let y0 := point.y - box.center.y
  let dx := |x0*box.cosHeading+y0*box.sinHeading| - box.halfLength
  let dy := |x0*box.sinHeading - y0*box.cosHeading| - box.halfWidth
  if dx ≤ 0 then max 0 dy
  else if dy ≤ 0 then dx
  else m.hypot dx dy

def side (value bound : K) : Int := if bound ≤ value then 1 else if value ≤ -bound then -1 else 0

def ends : Ends K :=
  let refX1 := segment.start.x - box.center.x
  let refY1 := segment.start.y - box.center.y
  let x1 := refX1*box.cosHeading+refY1*box.sinHeading
  let y1 := refX1*box.sinHeading - refY1*box.cosHeading
  let refX2 := segment.end_.x - box.center.x
  let refY2 := segment.end_.y - box.center.y
  let x2 := refX2*box.cosHeading+refY2*box.sinHeading
  let y2 := refX2*box.sinHeading - refY2*box.cosHeading
  ⟨x1,y1,side x1 box.halfLength,side y1 box.halfWidth,x2,y2,side x2 box.halfLength,side y2 box.halfWidth,
    box.halfLength,box.halfWidth⟩

namespace Ends

def flipX (e : Ends K) : Ends K :=
  if e.gx1 < 0 ∨ e.gx1 = 0 ∧ e.gx2 < 0 then { e with x1 := -e.x1, gx1 := -e.gx1, x2 := -e.x2, gx2 := -e.gx2 } else e

def flipY (e : Ends K) : Ends K :=
  if e.gy1 < 0 ∨ e.gy1 = 0 ∧ e.gy2 < 0 then { e with y1 := -e.y1, gy1 := -e.gy1, y2 := -e.y2, gy2 := -e.gy2 } else e

def swap (e : Ends K) : Ends K :=
  if e.gx1 < e.gy1 ∨ e.gx1 = e.gy1 ∧ e.gx2 < e.gy2 then
    ⟨e.y1,e.x1,e.gy1,e.gx1,e.y2,e.x2,e.gy2,e.gx2,e.boxY,e.boxX⟩
  else e

/-- The two `switch` statements. `none` is the state that is not implemented. -/
def distance (length : K) (e : Ends K) : Option K :=
  let corner (x y : K) := ptSegDistance m x y e.x1 e.y1 e.x2 e.y2 length
  let cross (x y : K) := crossProdFrom ⟨e.x1,e.y1⟩ ⟨e.x2,e.y2⟩ ⟨x,y⟩
  let state := e.gx2*3+e.gy2
  if e.gx1 = 1 ∧ e.gy1 = 1 then
    if state = 4 then some (corner e.boxX e.boxY)
    else if state = 3 then some (if e.x2 < e.x1 then e.x2 - e.boxX else corner e.boxX e.boxY)
    else if state = 2 then some (if e.x2 < e.x1 then corner e.boxX (-e.boxY) else corner e.boxX e.boxY)
    else if state = -1 then some (if 0 ≤ cross e.boxX (-e.boxY) then 0 else corner e.boxX (-e.boxY))
    else if state = -4 then
      some (if cross e.boxX (-e.boxY) ≤ 0 then corner e.boxX (-e.boxY)
        else if cross (-e.boxX) e.boxY ≤ 0 then 0 else corner (-e.boxX) e.boxY)
    else none
  else
    if state = 4 then some (if e.x1 < e.x2 then e.x1 - e.boxX else corner e.boxX e.boxY)
    else if state = 3 then some (min e.x1 e.x2 - e.boxX)
    else if state = 1 ∨ state = -2 then some (if cross e.boxX e.boxY ≤ 0 then 0 else corner e.boxX e.boxY)
    else if state = -3 then some 0
    else none

end Ends

def distanceToSegment : Option K :=
  if segment.length ≤ mathEpsilon then some (box.distanceToPoint m segment.start)
  else
    let e := box.ends segment
    if e.gx1 = 0 ∧ e.gy1 = 0 then some 0
    else if e.gx2 = 0 ∧ e.gy2 = 0 then some 0
    else e.flipX.flipY.swap.distance m segment.length

def hasOverlap : Bool :=
  if segment.length ≤ mathEpsilon then box.isPointIn segment.start
  else if max segment.start.x segment.end_.x < box.minX ∨ box.maxX < min segment.start.x segment.end_.x ∨
      max segment.start.y segment.end_.y < box.minY ∨ box.maxY < min segment.start.y segment.end_.y then
    false
  else (box.distanceToSegment m segment).any fun distance => distance ≤ mathEpsilon

def hasOverlapBox (self box : Box2d K) : Bool :=
  if box.maxX < self.minX ∨ self.maxX < box.minX ∨ box.maxY < self.minY ∨ self.maxY < box.minY then false
  else
    let shiftX := box.center.x - self.center.x
    let shiftY := box.center.y - self.center.y
    let dx1 := self.cosHeading*self.halfLength
    let dy1 := self.sinHeading*self.halfLength
    let dx2 := self.sinHeading*self.halfWidth
    let dy2 := -self.cosHeading*self.halfWidth
    let dx3 := box.cosHeading*box.halfLength
    let dy3 := box.sinHeading*box.halfLength
    let dx4 := box.sinHeading*box.halfWidth
    let dy4 := -box.cosHeading*box.halfWidth
    |shiftX*self.cosHeading+shiftY*self.sinHeading| ≤
        |dx3*self.cosHeading+dy3*self.sinHeading| + |dx4*self.cosHeading+dy4*self.sinHeading| + self.halfLength &&
      |shiftX*self.sinHeading - shiftY*self.cosHeading| ≤
        |dx3*self.sinHeading - dy3*self.cosHeading| + |dx4*self.sinHeading - dy4*self.cosHeading| + self.halfWidth &&
      |shiftX*box.cosHeading+shiftY*box.sinHeading| ≤
        |dx1*box.cosHeading+dy1*box.sinHeading| + |dx2*box.cosHeading+dy2*box.sinHeading| + box.halfLength &&
      |shiftX*box.sinHeading - shiftY*box.cosHeading| ≤
        |dx1*box.sinHeading - dy1*box.cosHeading| + |dx2*box.sinHeading - dy2*box.cosHeading| + box.halfWidth

namespace Object

/-- The loop body of `InitCorners`. -/
def widen (o : Object K) (corner : Vec2d K) : Object K :=
  { o with
    maxX := max corner.x o.maxX, minX := min corner.x o.minX,
    maxY := max corner.y o.maxY, minY := min corner.y o.minY }

def initCorners (o : Object K) : Object K := o.getAllCorners.foldl widen { o with corners := o.getAllCorners }

def members (center : Vec2d K) (length width halfLength halfWidth heading cosHeading sinHeading : K) : Object K :=
  ⟨⟨center,halfLength,halfWidth,cosHeading,sinHeading,doubleMax,-doubleMax,doubleMax,-doubleMax⟩,
    length,width,heading,[]⟩

def default : Object K := members ⟨0,0⟩ 0 0 0 0 0 1 0

def checked (o : Object K) : Option (Object K) :=
  if -mathEpsilon < o.length ∧ -mathEpsilon < o.width then some o else none

/-- The constructor from a center and a heading. `none` is a failed check. -/
def ofHeading (center : Vec2d K) (heading length width : K) : Option (Object K) :=
  (members center length width (length/2) (width/2) heading (m.cos heading) (m.sin heading)).checked.map initCorners

/-- The heading of a segment is the angle of its unit direction. -/
def ofAxis (axis : LineSegment2d K) (width : K) : Option (Object K) :=
  (members ⟨(axis.start.x+axis.end_.x)/2,(axis.start.y+axis.end_.y)/2⟩ axis.length width (axis.length/2)
    (width/2) (m.atan2 axis.unitDirection.y axis.unitDirection.x) axis.unitDirection.x
    axis.unitDirection.y).checked.map initCorners

/-- This constructor leaves the corners and the extents as they are. -/
def ofAABox (aabox : AABox2d K) : Option (Object K) :=
  (members aabox.center (2*aabox.halfLength) (2*aabox.halfWidth) aabox.halfLength aabox.halfWidth 0 1 0).checked

def rotateFromCenter (o : Object K) (rotateAngle : K) : Object K :=
  let heading := m.normalizeAngle (o.heading+rotateAngle)
  initCorners { o with heading := heading, cosHeading := m.cos heading, sinHeading := m.sin heading }

def shift (o : Object K) (shiftVec : Vec2d K) : Object K := initCorners { o with center := o.center.add shiftVec }

def longitudinalExtend (o : Object K) (extensionLength : K) : Object K :=
  initCorners { o with length := o.length+extensionLength, halfLength := o.halfLength+extensionLength/2 }

def lateralExtend (o : Object K) (extensionLength : K) : Object K :=
  initCorners { o with width := o.width+extensionLength, halfWidth := o.halfWidth+extensionLength/2 }

/-- The points of the closed rectangle that center, heading, length and width describe. -/
def Covers (o : Object K) (point : Vec2d K) : Prop :=
  ∃ a b, |a| ≤ o.length/2 ∧ |b| ≤ o.width/2 ∧ point.x = o.center.x+a*m.cos o.heading - b*m.sin o.heading ∧
    point.y = o.center.y+a*m.sin o.heading+b*m.cos o.heading

end Object

def ofHeading (center : Vec2d K) (heading length width : K) : Option (Box2d K) :=
  (Object.ofHeading m center heading length width).map Object.toBox2d

variable {m} in
theorem exists_ofHeading {center : Vec2d K} {heading length width : K}
    (hsize : -mathEpsilon < length ∧ -mathEpsilon < width) : ∃ box, ofHeading m center heading length width = some box :=
  ⟨_,congrArg (Option.map Object.toBox2d) (congrArg (Option.map Object.initCorners) (if_pos hsize))⟩

variable {m} in
theorem ofHeading_eq {center : Vec2d K} {heading length width : K}
    (hsize : -mathEpsilon < length ∧ -mathEpsilon < width) :
    let dx1 := m.cos heading*(length/2)
    let dy1 := m.sin heading*(length/2)
    let dx2 := m.sin heading*(width/2)
    let dy2 := -m.cos heading*(width/2)
    let c1 : Vec2d K := ⟨center.x+dx1+dx2,center.y+dy1+dy2⟩
    let c2 : Vec2d K := ⟨center.x+dx1 - dx2,center.y+dy1 - dy2⟩
    let c3 : Vec2d K := ⟨center.x - dx1 - dx2,center.y - dy1 - dy2⟩
    let c4 : Vec2d K := ⟨center.x - dx1+dx2,center.y - dy1+dy2⟩
    (-doubleMax ≤ c1.x ∧ c1.x ≤ doubleMax) → (-doubleMax ≤ c1.y ∧ c1.y ≤ doubleMax) →
      ofHeading m center heading length width = some ⟨center,length/2,width/2,m.cos heading,m.sin heading,
        min c4.x (min c3.x (min c2.x c1.x)),max c4.x (max c3.x (max c2.x c1.x)),
        min c4.y (min c3.y (min c2.y c1.y)),max c4.y (max c3.y (max c2.y c1.y))⟩ := by
  intro dx1 dy1 dx2 dy2 c1 c2 c3 c4 hx hy
  have hchecked : (Object.members center length width (length/2) (width/2) heading (m.cos heading)
      (m.sin heading)).checked = some _ := if_pos hsize
  rw [ofHeading,Object.ofHeading,Option.map_map,hchecked]
  simp only [Option.map_some,Function.comp_apply,Object.initCorners,getAllCorners,Object.members,foldl_cons,foldl_nil,
    Object.widen]
  rw [min_eq_left hx.2,max_eq_left hx.1,min_eq_left hy.2,max_eq_left hy.1]

def Construction.construct : Construction K → Option (Object K)
  | default => some .default
  | ofHeading center heading length width => Object.ofHeading m center heading length width
  | ofAxis axis width => Object.ofAxis m axis width
  | ofAABox aabox => Object.ofAABox aabox

def Operation.apply (o : Object K) : Operation K → Object K
  | rotateFromCenter rotateAngle => o.rotateFromCenter m rotateAngle
  | shift shiftVec => o.shift shiftVec
  | longitudinalExtend extensionLength => o.longitudinalExtend extensionLength
  | lateralExtend extensionLength => o.lateralExtend extensionLength

def Construction.history (c : Construction K) (operations : List (Operation K)) : Option (Object K) :=
  (c.construct m).map (operations.foldl (Operation.apply m))

def Spans (box : Box2d K) (p : Vec2d K) : Prop := (box.minX ≤ p.x ∧ p.x ≤ box.maxX) ∧ box.minY ≤ p.y ∧ p.y ≤ box.maxY

section
omit [Field K]

theorem Spans.not_rejected {self box : Box2d K} {p : Vec2d K} (hself : self.Spans p) (hbox : box.Spans p) :
    ¬(box.maxX < self.minX ∨ self.maxX < box.minX ∨ box.maxY < self.minY ∨ self.maxY < box.minY) := by
  rintro (h | h | h | h)
  · exact h.not_ge (hself.1.1.trans hbox.1.2)
  · exact h.not_ge (hbox.1.1.trans hself.1.2)
  · exact h.not_ge (hself.2.1.trans hbox.2.2)
  · exact h.not_ge (hbox.2.1.trans hself.2.2)

end

namespace Object
variable {o : Object K} {p : Vec2d K}

section
omit [Field K]

theorem spans_widen_self (corner : Vec2d K) : (o.widen corner).Spans corner :=
  ⟨⟨min_le_left _ _,le_max_left _ _⟩,min_le_left _ _,le_max_left _ _⟩

theorem spans_widen (corner : Vec2d K) (h : o.Spans p) : (o.widen corner).Spans p :=
  ⟨⟨(min_le_right _ _).trans h.1.1,h.1.2.trans (le_max_right _ _)⟩,
    (min_le_right _ _).trans h.2.1,h.2.2.trans (le_max_right _ _)⟩

theorem spans_foldl_widen (corners : List (Vec2d K)) (h : o.Spans p ∨ p ∈ corners) :
    (corners.foldl widen o).Spans p := by
  induction corners generalizing o with
  | nil => exact h.resolve_right (not_mem_nil)
  | cons corner _ ih =>
    apply ih
    obtain h | h := h
    · exact .inl (spans_widen corner h)
    · obtain rfl | h := mem_cons.mp h
      · exact .inl (spans_widen_self p)
      · exact .inr h

theorem foldl_widen_eq (corners : List (Vec2d K)) : ∃ minX maxX minY maxY,
    corners.foldl widen o = { o with minX := minX, maxX := maxX, minY := minY, maxY := maxY } := by
  induction corners generalizing o with
  | nil => exact ⟨_,_,_,_,rfl⟩
  | cons corner _ ih =>
    obtain ⟨minX,maxX,minY,maxY,h⟩ := ih (o := o.widen corner)
    exact ⟨minX,maxX,minY,maxY,h⟩

end

theorem initCorners_eq (o : Object K) : ∃ corners minX maxX minY maxY, o.initCorners =
    { o with corners := corners, minX := minX, maxX := maxX, minY := minY, maxY := maxY } := by
  obtain ⟨minX,maxX,minY,maxY,h⟩ := foldl_widen_eq (o := { o with corners := o.getAllCorners }) o.getAllCorners
  exact ⟨_,minX,maxX,minY,maxY,h⟩

theorem checked_eq_some {o' : Object K} (h : o.checked = some o') : o = o' := by
  rw [checked] at h
  split at h
  · exact Option.some.inj h
  · cases h

def Initialized (o : Object K) : Prop := ∀ corner ∈ o.getAllCorners, o.Spans corner

theorem initCorners_initialized (o : Object K) : o.initCorners.Initialized := by
  intro _ h
  apply spans_foldl_widen
  right
  obtain ⟨_,_,_,_,_,heq⟩ := initCorners_eq o
  rw [heq] at h
  exact h

end Object

variable {o : Object ℝ} {c : Construction K}

theorem Construction.construct_initialized {o : Object K} (hc : c.initsCorners = true) (h : c.construct m = some o) :
    o.Initialized := by
  cases c with
  | default | ofAABox => cases hc
  | ofHeading | ofAxis =>
    obtain ⟨o',-,rfl⟩ := map_eq_some_iff.mp h
    exact o'.initCorners_initialized

theorem Construction.history_initialized {operations : List (Operation K)} {o : Object K}
    (hinit : c.initsCorners = true ∨ operations ≠ []) (h : c.history m operations = some o) : o.Initialized := by
  obtain ⟨_,hc,rfl⟩ := map_eq_some_iff.mp h
  obtain rfl | ⟨operations,last,rfl⟩ := operations.eq_nil_or_concat'
  · exact construct_initialized m (hinit.resolve_right fun h => h rfl) hc
  · rw [foldl_append]
    cases last <;> exact Object.initCorners_initialized _

theorem Construction.hasOverlapBox_construct {o : Object K} (hc : c.initsCorners = false) (h : c.construct m = some o)
    (self : Box2d K) (hrange : -doubleMax < self.minX) : self.hasOverlapBox o.toBox2d = false := by
  have hmax : o.maxX = -doubleMax := by
    cases c with
    | default =>
      cases h
      rfl
    | ofAABox =>
      rw [← Object.checked_eq_some h]
      rfl
    | ofHeading | ofAxis => cases hc
  rw [hasOverlapBox,if_pos]
  left
  rwa [hmax]

namespace Object

/-- The members that describe one rectangle twice agree. -/
structure Coherent (o : Object ℝ) : Prop where
  length : o.halfLength = o.length/2
  width : o.halfWidth = o.width/2
  heading : o.cosHeading^2+o.sinHeading^2 = 1 → o.cosHeading = cos o.heading ∧ o.sinHeading = sin o.heading

theorem Coherent.initCorners {o : Object ℝ} (h : o.Coherent) : o.initCorners.Coherent := by
  obtain ⟨_,_,_,_,_,heq⟩ := initCorners_eq o
  rw [heq]
  exact ⟨h.length,h.width,h.heading⟩

theorem Coherent.covers_iff {o : Object ℝ} (h : o.Coherent) (hunit : o.cosHeading^2+o.sinHeading^2 = 1)
    (p : Vec2d ℝ) : o.Covers .real p ↔ o.Contains p := by
  obtain ⟨hcos,hsin⟩ := h.heading hunit
  change (∃ a b, |a| ≤ o.length/2 ∧ |b| ≤ o.width/2 ∧ p.x = o.center.x+a*cos o.heading - b*sin o.heading ∧
    p.y = o.center.y+a*sin o.heading+b*cos o.heading) ↔ _
  rw [← h.length,← h.width,← hcos,← hsin]
  rfl

end Object

theorem Construction.construct_coherent {c : Construction ℝ} (h : c.construct .real = some o) : o.Coherent := by
  cases c with
  | default =>
    cases h
    exact ⟨(zero_div 2).symm,(zero_div 2).symm,fun _ => ⟨cos_zero.symm,sin_zero.symm⟩⟩
  | ofHeading =>
    obtain ⟨o',hchecked,rfl⟩ := map_eq_some_iff.mp h
    rw [← Object.checked_eq_some hchecked]
    exact .initCorners ⟨rfl,rfl,fun _ => ⟨rfl,rfl⟩⟩
  | ofAxis =>
    obtain ⟨o',hchecked,rfl⟩ := map_eq_some_iff.mp h
    rw [← Object.checked_eq_some hchecked]
    refine .initCorners ⟨rfl,rfl,fun hunit => ?_⟩
    obtain ⟨hcos,hsin⟩ := Cmath.real_atan2_unit hunit
    exact ⟨hcos.symm,hsin.symm⟩
  | ofAABox =>
    rw [← Object.checked_eq_some h]
    exact ⟨(mul_div_cancel_left₀ _ two_ne_zero).symm,(mul_div_cancel_left₀ _ two_ne_zero).symm,
      fun _ => ⟨cos_zero.symm,sin_zero.symm⟩⟩

theorem Operation.apply_coherent (h : o.Coherent) (operation : Operation ℝ) : (operation.apply .real o).Coherent := by
  cases operation with
  | rotateFromCenter =>
    exact .initCorners ⟨h.length,h.width,fun _ => ⟨rfl,rfl⟩⟩
  | shift => exact .initCorners ⟨h.length,h.width,h.heading⟩
  | longitudinalExtend extension =>
    refine .initCorners ⟨?_,h.width,h.heading⟩
    change o.halfLength+extension/2 = (o.length+extension)/2
    rw [h.length,add_div]
  | lateralExtend =>
    refine .initCorners ⟨h.length,?_,h.heading⟩
    rw [h.width,add_div]

theorem Construction.history_coherent {c : Construction ℝ} {operations : List (Operation ℝ)}
    (h : c.history .real operations = some o) : o.Coherent := by
  obtain ⟨o',hc,rfl⟩ := map_eq_some_iff.mp h
  have ho := construct_coherent hc
  clear h hc
  induction operations generalizing o' with
  | nil => exact ho
  | cons operation _ ih => exact ih _ (Operation.apply_coherent ho operation)

section Rectangle
variable {box : Box2d ℝ} (hunit : box.cosHeading^2+box.sinHeading^2 = 1) (hlength : 0 ≤ box.halfLength)
  (hwidth : 0 ≤ box.halfWidth)

def rectangle : Rectangle :=
  ⟨(box.center.x, box.center.y),(box.cosHeading, box.sinHeading),box.halfLength,box.halfWidth,hunit,hlength,hwidth⟩

theorem mem_rectangle_iff (p : Vec2d ℝ) : (p.x, p.y) ∈ (rectangle hunit hlength hwidth).points ↔ box.Contains p := by
  constructor
  · intro h
    refine ⟨_,_,h false,h true,?_,?_⟩
    · simp only [along,axis,rectangle,fst_sub,snd_sub]
      linear_combination -(p.x - box.center.x)*hunit
    · simp only [along,axis,rectangle,fst_sub,snd_sub]
      linear_combination -(p.y - box.center.y)*hunit
  · rintro ⟨a,b,ha,hb,hx,hy⟩ i
    have halong : along ((rectangle hunit hlength hwidth).axis i)
        ((p.x, p.y) - (rectangle hunit hlength hwidth).center) = bif i then b else a := by
      cases i
      · simp only [along,axis,rectangle,fst_sub,snd_sub,hx,hy,cond_false]
        linear_combination a*hunit
      · simp only [along,axis,rectangle,fst_sub,snd_sub,hx,hy,cond_true]
        linear_combination b*hunit
    rw [strip,Set.mem_ofPred_eq,halong]
    cases i
    · exact ha
    · exact hb

theorem reach_rectangle (u : ℝ × ℝ) : (rectangle hunit hlength hwidth).reach u =
    |box.cosHeading*box.halfLength*u.1+box.sinHeading*box.halfLength*u.2| +
      |box.sinHeading*box.halfWidth*u.1 + -box.cosHeading*box.halfWidth*u.2| := by
  have hfirst : box.cosHeading*box.halfLength*u.1+box.sinHeading*box.halfLength*u.2 =
      box.halfLength*(u.1*box.cosHeading+u.2*box.sinHeading) := by ring
  have hsecond : box.sinHeading*box.halfWidth*u.1 + -box.cosHeading*box.halfWidth*u.2 =
      -(box.halfWidth*(u.1 * -box.sinHeading+u.2*box.cosHeading)) := by ring
  rw [hfirst,hsecond,abs_neg,abs_mul,abs_mul,abs_of_nonneg hlength,abs_of_nonneg hwidth]
  rfl

end Rectangle

section Extents
variable {box : Box2d ℝ} {p : Vec2d ℝ}
variable {c x y bound : ℝ}

/-- The largest of the four sums is that of the absolute values. -/
theorem add_abs_le (h : c+x+y ≤ bound ∧ c+x - y ≤ bound ∧ c - x - y ≤ bound ∧ c - x+y ≤ bound) :
    c+(|x| + |y|) ≤ bound := by
  obtain ⟨_,_,_,_⟩ := h
  rcases abs_cases x with ⟨hx,-⟩ | ⟨hx,-⟩ <;> rcases abs_cases y with ⟨hy,-⟩ | ⟨hy,-⟩ <;> rw [hx,hy] <;> linarith

theorem le_sub_abs (h : bound ≤ c+x+y ∧ bound ≤ c+x - y ∧ bound ≤ c - x - y ∧ bound ≤ c - x+y) :
    bound ≤ c - (|x| + |y|) := by
  have hneg : -c+(|-x| + |-y|) ≤ -bound := by
    apply add_abs_le
    refine ⟨?_,?_,?_,?_⟩ <;> linarith [h.1,h.2.1,h.2.2.1,h.2.2.2]
  rw [abs_neg,abs_neg] at hneg
  linarith

theorem Contains.spans (hp : box.Contains p) (h : ∀ corner ∈ box.getAllCorners, box.Spans corner) : box.Spans p := by
  obtain ⟨a,b,ha,hb,hx,hy⟩ := hp
  have hbound (u v : ℝ) : |a*u+b*v| ≤ |u*box.halfLength| + |v*box.halfWidth| := by
    refine (abs_add_le _ _).trans ?_
    rw [abs_mul,abs_mul,abs_mul,abs_mul,mul_comm |a|,mul_comm |b|,abs_of_nonneg ((abs_nonneg a).trans ha),
      abs_of_nonneg ((abs_nonneg b).trans hb)]
    exact add_le_add (mul_le_mul_of_nonneg_left ha (abs_nonneg u)) (mul_le_mul_of_nonneg_left hb (abs_nonneg v))
  simp only [getAllCorners,forall_mem_cons,not_mem_nil,false_imp_iff,implies_true,and_true,Spans] at h
  obtain ⟨h1,h2,h3,h4⟩ := h
  have hxBound := abs_le.mp (hbound box.cosHeading (-box.sinHeading))
  have hyBound := abs_le.mp (hbound box.sinHeading box.cosHeading)
  rw [neg_mul,abs_neg] at hxBound
  have hxMin := le_sub_abs ⟨h1.1.1,h2.1.1,h3.1.1,h4.1.1⟩
  have hxMax := add_abs_le ⟨h1.1.2,h2.1.2,h3.1.2,h4.1.2⟩
  have hyMin := le_sub_abs ⟨h1.2.1,h2.2.1,h3.2.1,h4.2.1⟩
  have hyMax := add_abs_le ⟨h1.2.2,h2.2.2,h3.2.2,h4.2.2⟩
  rw [neg_mul,abs_neg] at hyMin hyMax
  rw [Spans,hx,hy]
  refine ⟨⟨?_,?_⟩,?_,?_⟩ <;> linarith [hxBound.1,hxBound.2,hyBound.1,hyBound.2]

end Extents

/-- Behind the quick reject, `HasOverlap` tests the four axes of the boxes. -/
theorem hasOverlapBox_iff_meets {self box : Box2d ℝ} (hself : self.cosHeading^2+self.sinHeading^2 = 1)
    (hbox : box.cosHeading^2+box.sinHeading^2 = 1) (hselfLength : 0 ≤ self.halfLength)
    (hselfWidth : 0 ≤ self.halfWidth) (hboxLength : 0 ≤ box.halfLength) (hboxWidth : 0 ≤ box.halfWidth)
    (hreject : ¬(box.maxX < self.minX ∨ self.maxX < box.minX ∨ box.maxY < self.minY ∨ self.maxY < box.minY)) :
    self.hasOverlapBox box = true ↔
      ((rectangle hself hselfLength hselfWidth).points ∩ (rectangle hbox hboxLength hboxWidth).points).Nonempty := by
  have habs {x y : ℝ} (h : x = -y) : |x| = |y| := abs_eq_abs.mpr (.inr h)
  rw [hasOverlapBox,if_neg hreject,inter_points_nonempty_iff]
  simp only [Bool.and_eq_true,decide_eq_true_eq,Bool.forall_bool,reach_rectangle,and_assoc]
  simp only [along,axis,half,rectangle,fst_sub,snd_sub]
  refine and_congr (by rw [add_comm self.halfLength]) (and_congr ?_ (and_congr ?_ ?_))
  · rw [add_comm self.halfWidth]
    refine iff_of_eq (congrArg₂ (· ≤ ·) (habs (by ring)) (congrArg (· + self.halfWidth) ?_))
    exact congrArg₂ (· + ·) (habs (by ring)) (habs (by ring))
  · rw [add_comm box.halfLength]
    exact iff_of_eq (congrArg (· ≤ _) (habs (by ring)))
  · rw [add_comm box.halfWidth]
    refine iff_of_eq (congrArg₂ (· ≤ ·) (congrArg abs (by ring)) (congrArg (· + box.halfWidth) ?_))
    exact congrArg₂ (· + ·) (habs (by ring)) (habs (by ring))

/-- `HasOverlap` of two boxes that have had their corners initialized. Extensions may be negative, if the sizes that
result are not. -/
theorem hasOverlapBox_iff_covers {c d : Construction ℝ} {operations operations' : List (Operation ℝ)} {a b : Object ℝ}
    (ha : c.history .real operations = some a) (hb : d.history .real operations' = some b)
    (hinitA : c.initsCorners = true ∨ operations ≠ []) (hinitB : d.initsCorners = true ∨ operations' ≠ [])
    (hunitA : a.cosHeading^2+a.sinHeading^2 = 1) (hunitB : b.cosHeading^2+b.sinHeading^2 = 1)
    (hsizeA : 0 ≤ a.length ∧ 0 ≤ a.width) (hsizeB : 0 ≤ b.length ∧ 0 ≤ b.width) :
    a.hasOverlapBox b.toBox2d = true ↔ ∃ p, a.Covers .real p ∧ b.Covers .real p := by
  have hcohA := Construction.history_coherent ha
  have hcohB := Construction.history_coherent hb
  have hspanA := Construction.history_initialized _ hinitA ha
  have hspanB := Construction.history_initialized _ hinitB hb
  have hlengthA : 0 ≤ a.halfLength := hcohA.length ▸ div_nonneg hsizeA.1 zero_le_two
  have hwidthA : 0 ≤ a.halfWidth := hcohA.width ▸ div_nonneg hsizeA.2 zero_le_two
  have hlengthB : 0 ≤ b.halfLength := hcohB.length ▸ div_nonneg hsizeB.1 zero_le_two
  have hwidthB : 0 ≤ b.halfWidth := hcohB.width ▸ div_nonneg hsizeB.2 zero_le_two
  have hcovers (p : Vec2d ℝ) : a.Covers .real p ∧ b.Covers .real p ↔ (p.x, p.y) ∈
      (rectangle hunitA hlengthA hwidthA).points ∩ (rectangle hunitB hlengthB hwidthB).points := by
    rw [hcohA.covers_iff hunitA,hcohB.covers_iff hunitB,Set.mem_inter_iff,mem_rectangle_iff,mem_rectangle_iff]
  constructor
  · intro h
    have hreject : ¬(b.maxX < a.minX ∨ a.maxX < b.minX ∨ b.maxY < a.minY ∨ a.maxY < b.minY) := by
      intro hreject
      rw [hasOverlapBox,if_pos hreject] at h
      cases h
    obtain ⟨p,hp⟩ := (hasOverlapBox_iff_meets hunitA hunitB hlengthA hwidthA hlengthB hwidthB hreject).mp h
    exact ⟨⟨p.1,p.2⟩,(hcovers _).mpr hp⟩
  · rintro ⟨p,hpA,hpB⟩
    have hreject := Spans.not_rejected (((hcohA.covers_iff hunitA p).mp hpA).spans hspanA)
      (((hcohB.covers_iff hunitB p).mp hpB).spans hspanB)
    exact (hasOverlapBox_iff_meets hunitA hunitB hlengthA hwidthA hlengthB hwidthB hreject).mpr
      ⟨_,(hcovers p).mp ⟨hpA,hpB⟩⟩

theorem Object.checked_of_nonneg (hlength : 0 ≤ o.length) (hwidth : 0 ≤ o.width) : o.checked = some o := by
  have hepsilon := neg_lt_zero.mpr LineSegment2d.mathEpsilon_pos
  exact if_pos ⟨hepsilon.trans_le hlength,hepsilon.trans_le hwidth⟩

theorem Construction.construct_square : (Construction.ofAABox ⟨⟨0,0⟩,1,1⟩).construct .real =
    some (Object.members (⟨0,0⟩ : Vec2d ℝ) (2*1) (2*1) 1 1 0 1 0) :=
  Object.checked_of_nonneg (mul_nonneg zero_le_two zero_le_one) (mul_nonneg zero_le_two zero_le_one)

/-- Two squares with a corner in common, one of which has been moved there. -/
theorem hasOverlapBox_iff_covers_squares : ∃ a b : Object ℝ,
    (Construction.ofHeading ⟨0,0⟩ 0 2 2).history .real [] = some a ∧
      (Construction.ofAABox ⟨⟨0,0⟩,1,1⟩).history .real [.shift ⟨2,2⟩] = some b ∧
      (a.hasOverlapBox b.toBox2d = true ↔ ∃ p, a.Covers .real p ∧ b.Covers .real p) := by
  have ha : (Construction.ofHeading ⟨0,0⟩ 0 2 2).history .real [] = some
      (Object.members ⟨0,0⟩ 2 2 (2/2) (2/2) 0 (cos 0) (sin 0)).initCorners :=
    congrArg (fun o => (o.map Object.initCorners).map id) (Object.checked_of_nonneg zero_le_two zero_le_two)
  have hb : (Construction.ofAABox ⟨⟨0,0⟩,1,1⟩).history .real [.shift ⟨2,2⟩] = some
      ((Object.members ⟨0,0⟩ (2*1) (2*1) 1 1 0 1 0).shift ⟨2,2⟩) :=
    congrArg (Option.map (Object.shift · ⟨2,2⟩)) Construction.construct_square
  refine ⟨_,_,ha,hb,hasOverlapBox_iff_covers ha hb (.inl rfl) (.inr (cons_ne_nil _ _)) ?_ ?_ ?_ ?_⟩
  · exact cos_sq_add_sin_sq 0
  · change (1 : ℝ)^2+0^2 = 1
    norm_num
  · exact ⟨zero_le_two,zero_le_two⟩
  · change (0 : ℝ) ≤ 2*1 ∧ (0 : ℝ) ≤ 2*1
    norm_num

/-- A box made from an `AABox2d` does not overlap itself. -/
theorem hasOverlapBox_aabox : ∃ a : Object ℝ, (Construction.ofAABox ⟨⟨0,0⟩,1,1⟩).history .real [] = some a ∧
    a.cosHeading^2+a.sinHeading^2 = 1 ∧ 0 ≤ a.length ∧ 0 ≤ a.width ∧
    a.hasOverlapBox a.toBox2d = false ∧ ∃ p, a.Covers .real p := by
  refine ⟨_,congrArg (Option.map id) Construction.construct_square,?_,?_,?_,?_,⟨0,0⟩,0,0,?_⟩
  · change (1 : ℝ)^2+0^2 = 1
    norm_num
  · change (0 : ℝ) ≤ 2*1
    norm_num
  · change (0 : ℝ) ≤ 2*1
    norm_num
  · refine Construction.hasOverlapBox_construct .real rfl Construction.construct_square _ ?_
    change -doubleMax < doubleMax
    exact neg_lt_self doubleMax_pos
  · norm_num [Object.members]

end Box2d

end Apollo.Modules.Common.Math
