import Apollo.Modules.Common.Math.Box2d

/-! The distance of a box from a segment. In the frame of the box the nearest pair of points has a corner of the box,
an end of the segment, or a common point. -/
namespace Apollo.Modules.Common.Math
open LineSegment2d Real

namespace Box2d.Ends
variable (e : Ends ℝ)

def atX (t : ℝ) : ℝ := e.x1+t*(e.x2 - e.x1)

def atY (t : ℝ) : ℝ := e.y1+t*(e.y2 - e.y1)

def sqLength : ℝ := (e.x2 - e.x1)*(e.x2 - e.x1)+(e.y2 - e.y1)*(e.y2 - e.y1)

noncomputable def cross (x y : ℝ) : ℝ := crossProdFrom ⟨e.x1,e.y1⟩ ⟨e.x2,e.y2⟩ ⟨x,y⟩

def distances : Set ℝ :=
  {r | ∃ u v t, |u| ≤ e.boxX ∧ |v| ≤ e.boxY ∧ 0 ≤ t ∧ t ≤ 1 ∧ r = Cmath.real.hypot (u - e.atX t) (v - e.atY t)}

@[simp] theorem atX_zero : e.atX 0 = e.x1 := by simp [atX]

@[simp] theorem atY_zero : e.atY 0 = e.y1 := by simp [atY]

@[simp] theorem atX_one : e.atX 1 = e.x2 := by simp [atX]

@[simp] theorem atY_one : e.atY 1 = e.y2 := by simp [atY]

theorem cross_eq (x y : ℝ) : e.cross x y = (e.x2 - e.x1)*(y - e.y1) - (e.y2 - e.y1)*(x - e.x1) := rfl

/-- What the side of a coordinate says about it. The same value is on the same side, which is what is left of the
strict comparisons after a reflection. -/
structure OnSide (value : ℝ) (g : Int) (bound : ℝ) : Prop where
  cases : g = 1 ∨ g = -1 ∨ g = 0
  right : g = 1 → bound ≤ value
  left : g = -1 → value ≤ -bound
  inside : g = 0 → -bound ≤ value ∧ value ≤ bound

theorem onSide_side (value bound : ℝ) : OnSide value (side value bound) bound := by
  constructor <;> grind [side]

variable {bound a corner foot value u τ : ℝ}

theorem OnSide.neg {g : Int} (h : OnSide value g bound) : OnSide (-value) (-g) bound where
  cases := by
    have := h.cases
    omega
  right hg := le_neg.mp (h.left (by omega))
  left hg := neg_le_neg (h.right (by omega))
  inside hg := by
    obtain ⟨hlow,hhigh⟩ := h.inside (neg_eq_zero.mp hg)
    exact ⟨neg_le_neg hhigh,neg_le.mp hlow⟩

structure Sided (e : Ends ℝ) : Prop where
  boxX : 0 ≤ e.boxX
  boxY : 0 ≤ e.boxY
  x1 : OnSide e.x1 e.gx1 e.boxX
  y1 : OnSide e.y1 e.gy1 e.boxY
  x2 : OnSide e.x2 e.gx2 e.boxX
  y2 : OnSide e.y2 e.gy2 e.boxY
  same_x : e.x1 = e.x2 → e.gx1 = e.gx2
  same_y : e.y1 = e.y2 → e.gy1 = e.gy2

structure Alike (n e : Ends ℝ) : Prop where
  distances : n.distances = e.distances
  sqLength : n.sqLength = e.sqLength
  sided : e.Sided → n.Sided

theorem Alike.refl : e.Alike e := ⟨rfl,rfl,id⟩

theorem alike_flipX : e.flipX.Alike e := by
  rw [flipX]
  split
  case isFalse => exact .refl e
  case isTrue =>
    have hneg (u w t : ℝ) : Cmath.real.hypot (-u - (-e.x1+t*(-e.x2 - -e.x1))) w =
        Cmath.real.hypot (u - e.atX t) w := by
      refine congrArg sqrt ?_
      rw [atX]
      ring
    refine ⟨Set.ext fun _ => neg_surjective.exists.trans ?_,?_,fun h => ?_⟩
    · simp only [atX,abs_neg,hneg]
      rfl
    · simp only [Ends.sqLength]
      ring
    · exact ⟨h.boxX,h.boxY,h.x1.neg,h.y1,h.x2.neg,h.y2,fun heq => congrArg Neg.neg (h.same_x (neg_injective heq)),
        h.same_y⟩

theorem alike_flipY : e.flipY.Alike e := by
  rw [flipY]
  split
  case isFalse => exact .refl e
  case isTrue =>
    have hneg (v w t : ℝ) : Cmath.real.hypot w (-v - (-e.y1+t*(-e.y2 - -e.y1))) =
        Cmath.real.hypot w (v - e.atY t) := by
      refine congrArg sqrt ?_
      rw [atY]
      ring
    refine ⟨Set.ext fun _ => exists_congr fun _ => neg_surjective.exists.trans ?_,?_,fun h => ?_⟩
    · simp only [atY,abs_neg,hneg]
      rfl
    · simp only [Ends.sqLength]
      ring
    · exact ⟨h.boxX,h.boxY,h.x1,h.y1.neg,h.x2,h.y2.neg,h.same_x,
        fun heq => congrArg Neg.neg (h.same_y (neg_injective heq))⟩

theorem alike_swap : e.swap.Alike e := by
  rw [swap]
  split
  case isFalse => exact .refl e
  case isTrue =>
    have hcomm (x y : ℝ) : Cmath.real.hypot x y = Cmath.real.hypot y x := congrArg sqrt (add_comm _ _)
    refine ⟨Set.ext fun _ => exists_comm.trans ?_,add_comm _ _,fun h => ?_⟩
    · refine exists_congr fun _ => exists_congr fun _ => exists_congr fun _ => ?_
      rw [hcomm]
      exact and_left_comm
    · exact ⟨h.boxY,h.boxX,h.y1,h.x1,h.y2,h.x2,h.same_y,h.same_x⟩

/-- The frame in which `DistanceTo` looks at the sides. -/
structure Normal (e : Ends ℝ) : Prop where
  gx1 : e.gx1 = 1
  gy1 : e.gy1 = 1 ∧ e.gy2 ≤ e.gx2 ∨ e.gy1 = 0 ∧ 0 ≤ e.gy2
  end_ : ¬(e.gx2 = 0 ∧ e.gy2 = 0)

variable {e} {cx cy t length : ℝ}

theorem Sided.normal (h : e.Sided) (hstart : ¬(e.gx1 = 0 ∧ e.gy1 = 0)) (hend : ¬(e.gx2 = 0 ∧ e.gy2 = 0)) :
    e.flipX.flipY.swap.Normal := by
  have hx1 := h.x1.cases
  have hy1 := h.y1.cases
  constructor <;> grind [flipX,flipY,swap]

/-- The segment comes nearest to a point at `t`. -/
structure Foot (e : Ends ℝ) (cx cy t : ℝ) : Prop where
  nonneg : 0 ≤ t
  le_one : t ≤ 1
  nearest {τ : ℝ} : 0 ≤ τ → τ ≤ 1 → 0 ≤ (e.atX t - cx)*(e.atX τ - e.atX t)+(e.atY t - cy)*(e.atY τ - e.atY t)

theorem exists_foot (hpos : 0 < length) (hlength : length*length = e.sqLength) : ∃ t, e.Foot cx cy t ∧
      ptSegDistance .real cx cy e.x1 e.y1 e.x2 e.y2 length = Cmath.real.hypot (cx - e.atX t) (cy - e.atY t) := by
  set proj := (cx - e.x1)*(e.x2 - e.x1)+(cy - e.y1)*(e.y2 - e.y1) with hproj
  rw [sqLength] at hlength
  have halong (t τ : ℝ) : (e.atX t - cx)*(e.atX τ - e.atX t)+(e.atY t - cy)*(e.atY τ - e.atY t) =
      (τ - t)*(t*(length*length) - proj) := by
    rw [hproj,hlength]
    simp only [atX,atY]
    ring
  rw [ptSegDistance]
  by_cases hstart : proj ≤ 0
  · rw [if_pos hstart]
    refine ⟨0,⟨le_rfl,zero_le_one,fun {τ} hτ _ => ?_⟩,by rw [atX_zero,atY_zero]⟩
    rw [halong]
    exact mul_nonneg (by linarith) (by linarith)
  rw [if_neg hstart]
  by_cases hend : length*length ≤ proj
  · rw [if_pos hend]
    refine ⟨1,⟨zero_le_one,le_rfl,fun {τ} _ hτ => ?_⟩,?_⟩
    · rw [halong]
      exact mul_nonneg_of_nonpos_of_nonpos (by linarith) (by linarith)
    · rw [atX_one,atY_one,sub_sub_sub_cancel_right,sub_sub_sub_cancel_right]
  rw [if_neg hend]
  have hsq := mul_pos hpos hpos
  refine ⟨proj/(length*length),⟨div_nonneg (not_le.mp hstart).le hsq.le,
    (div_le_one hsq).mpr (not_le.mp hend).le,fun {τ} _ _ => ?_⟩,?_⟩
  · rw [halong,div_mul_cancel₀ _ hsq.ne',sub_self,mul_zero]
  · -- the part across the segment
    have hacross : (cx - e.atX (proj/(length*length)))*(cx - e.atX (proj/(length*length))) +
        (cy - e.atY (proj/(length*length)))*(cy - e.atY (proj/(length*length))) =
        (((cx - e.x1)*(e.y2 - e.y1) - (cy - e.y1)*(e.x2 - e.x1))/length)^2 := by
      rw [atX,atY,div_pow,sq length,hproj]
      generalize length*length = d at hlength hsq
      field_simp
      rw [hlength]
      ring
    rw [Cmath.hypot,hacross]
    change _ = sqrt _
    rw [sqrt_sq_eq_abs,abs_div,abs_of_pos hpos]

def Beyond (bound corner foot : ℝ) : Prop := corner = bound ∧ corner ≤ foot ∨ corner = -bound ∧ foot ≤ corner

theorem Beyond.product_nonneg (h : Beyond bound corner foot) (hu : |u| ≤ bound) :
    0 ≤ (foot - corner)*(corner - u) := by
  obtain ⟨_,_⟩ := abs_le.mp hu
  obtain ⟨hc,hfoot⟩ | ⟨hc,hfoot⟩ := h
  · exact mul_nonneg (by linarith) (by linarith)
  · exact mul_nonneg_of_nonpos_of_nonpos (by linarith) (by linarith)

theorem Beyond.abs_corner_le (hbound : 0 ≤ bound) (h : Beyond bound corner foot) : |corner| ≤ bound := by
  obtain ⟨hc,-⟩ | ⟨hc,-⟩ := h
  · rw [hc,abs_of_nonneg hbound]
  · rw [hc,abs_neg,abs_of_nonneg hbound]

/-- A corner and its foot are the nearest points if the foot is beyond the corner in both directions: the line through
the corner across their connection separates the box from the segment. -/
theorem Sided.isLeast_corner (hs : e.Sided) (hpos : 0 < length) (hlength : length*length = e.sqLength)
    (hbeyond : ∀ t, e.Foot cx cy t → Beyond e.boxX cx (e.atX t) ∧ Beyond e.boxY cy (e.atY t)) :
    IsLeast e.distances (ptSegDistance .real cx cy e.x1 e.y1 e.x2 e.y2 length) := by
  obtain ⟨t,h,heq⟩ : ∃ t, e.Foot cx cy t ∧ _ := exists_foot hpos hlength
  obtain ⟨hx,hy⟩ := hbeyond t h
  rw [heq]
  refine ⟨⟨cx,cy,t,hx.abs_corner_le hs.boxX,hy.abs_corner_le hs.boxY,h.nonneg,h.le_one,rfl⟩,?_⟩
  rintro _ ⟨u,v,τ,hu,hv,hτ,hτ',rfl⟩
  apply sqrt_le_sqrt
  linarith [hx.product_nonneg hu,hy.product_nonneg hv,h.nearest hτ hτ',sq_nonneg (u - e.atX τ - (cx - e.atX t)),
    sq_nonneg (v - e.atY τ - (cy - e.atY t))]

theorem isLeast_zero (ht : 0 ≤ t) (ht' : t ≤ 1) (hx : |e.atX t| ≤ e.boxX) (hy : |e.atY t| ≤ e.boxY) :
    IsLeast e.distances 0 := by
  constructor
  · refine ⟨e.atX t,e.atY t,t,hx,hy,ht,ht',?_⟩
    rw [sub_self,sub_self,Cmath.hypot,mul_zero,add_zero]
    exact sqrt_zero.symm
  · rintro _ ⟨u,v,τ,-,-,-,-,rfl⟩
    exact sqrt_nonneg _

theorem le_atX (h1 : a ≤ e.x1) (h2 : a ≤ e.x2) (ht : 0 ≤ t) (ht' : t ≤ 1) : a ≤ e.atX t := by
  rw [atX]
  nlinarith

theorem le_atY (h1 : a ≤ e.y1) (h2 : a ≤ e.y2) (ht : 0 ≤ t) (ht' : t ≤ 1) : a ≤ e.atY t := by
  rw [atY]
  nlinarith

theorem atY_le (h1 : e.y1 ≤ a) (h2 : e.y2 ≤ a) (ht : 0 ≤ t) (ht' : t ≤ 1) : e.atY t ≤ a := by
  rw [atY]
  nlinarith

theorem Sided.isLeast_edge (h : e.Sided) (ht : 0 ≤ t) (ht' : t ≤ 1) (hbox : e.boxX ≤ e.atX t)
    (hy : -e.boxY ≤ e.atY t ∧ e.atY t ≤ e.boxY) (hx1 : e.atX t ≤ e.x1) (hx2 : e.atX t ≤ e.x2) :
    IsLeast e.distances (e.atX t - e.boxX) := by
  constructor
  · refine ⟨e.boxX,e.atY t,t,(abs_of_nonneg h.boxX).le,abs_le.mpr hy,ht,ht',?_⟩
    rw [Cmath.hypot,sub_self,mul_zero,add_zero,← neg_mul_neg,neg_sub]
    exact (sqrt_mul_self (sub_nonneg.mpr hbox)).symm
  · rintro _ ⟨u,v,τ,hu,-,hτ,hτ',rfl⟩
    have hfar := le_atX hx1 hx2 hτ hτ'
    have hnear := (abs_le.mp hu).2
    apply le_sqrt_of_sq_le
    nlinarith [sq_nonneg (v - e.atY τ)]

/-- If a point of the segment is above the corner, the foot of the corner is not below it unless it is nearer in the
other direction. -/
theorem Foot.beyond (h : e.Foot cx cy t) (hτ : 0 ≤ τ) (hτ' : τ ≤ 1) (hnear : cx ≤ e.atX τ) (hfar : e.atX τ ≤ e.atX t) :
    (cy ≤ e.atY τ → cy ≤ e.atY t) ∧ (e.atY τ ≤ cy → e.atY t ≤ cy) := by
  have hnearest := h.nearest hτ hτ'
  have hx := mul_nonneg (sub_nonneg.mpr (hnear.trans hfar)) (sub_nonneg.mpr hfar)
  constructor
  · intro hle
    by_contra! hlt
    linarith [mul_pos (sub_pos.mpr hlt) (sub_pos.mpr (hlt.trans_le hle))]
  · intro hle
    by_contra! hlt
    linarith [mul_pos (sub_pos.mpr hlt) (sub_pos.mpr (hle.trans_lt hlt))]

theorem Foot.beyond_start (h : e.Foot cx cy t) (hx1 : cx ≤ e.x1) (hx : e.x1 ≤ e.x2) :
    (cy ≤ e.y1 → cy ≤ e.atY t) ∧ (e.y1 ≤ cy → e.atY t ≤ cy) := by
  have hfar := le_atX le_rfl hx h.nonneg h.le_one
  simpa using h.beyond le_rfl zero_le_one (by simpa using hx1) (by simpa using hfar)

theorem Foot.beyond_end (h : e.Foot cx cy t) (hx2 : cx ≤ e.x2) (hx : e.x2 ≤ e.x1) :
    (cy ≤ e.y2 → cy ≤ e.atY t) ∧ (e.y2 ≤ cy → e.atY t ≤ cy) := by
  have hfar := le_atX hx le_rfl h.nonneg h.le_one
  simpa using h.beyond zero_le_one le_rfl (by simpa using hx2) (by simpa using hfar)

section Passing
variable (hpos : 0 < e.sqLength)
include hpos

/-- A segment that passes a corner has its foot across from the corner. The cross product says on which side. -/
theorem Foot.passing (h : e.Foot cx cy t) (hx1 : cx ≤ e.x1) (hx2 : e.x2 ≤ cx) (hy1 : 0 ≤ (cy - e.y1)*(e.y2 - e.y1))
    (hy2 : 0 ≤ (e.y2 - cy)*(e.y2 - e.y1)) :
    ((0 ≤ e.cross cx cy*(e.y2 - e.y1) → cx ≤ e.atX t) ∧ (e.cross cx cy*(e.y2 - e.y1) ≤ 0 → e.atX t ≤ cx)) ∧
      (e.cross cx cy ≤ 0 → e.atY t ≤ cy) ∧ (0 ≤ e.cross cx cy → cy ≤ e.atY t) := by
  have hdx := sub_nonpos.mpr (hx2.trans hx1)
  have hstart := mul_nonneg_of_nonpos_of_nonpos (sub_nonpos.mpr hx1) hdx
  have hend := mul_nonneg_of_nonpos_of_nonpos (sub_nonpos.mpr hx2) hdx
  have hacross : (e.atX t - cx)*(e.x2 - e.x1)+(e.atY t - cy)*(e.y2 - e.y1) = 0 := by
    set g := (e.atX t - cx)*(e.x2 - e.x1)+(e.atY t - cy)*(e.y2 - e.y1) with hg
    have hnear {τ : ℝ} (hτ : 0 ≤ τ) (hτ' : τ ≤ 1) : 0 ≤ (τ - t)*g := by
      refine (h.nearest hτ hτ').trans_eq ?_
      simp only [hg,atX,atY]
      ring
    obtain hlt | heq | hgt := lt_trichotomy g 0
    · have hone : t = 1 := le_antisymm h.le_one (by nlinarith [hnear zero_le_one le_rfl])
      rw [hg,hone,atX_one,atY_one] at hlt
      linarith
    · exact heq
    · have hzero : t = 0 := le_antisymm (by nlinarith [hnear le_rfl zero_le_one]) h.nonneg
      rw [hg,hzero,atX_zero,atY_zero] at hgt
      linarith
  have hconnX : (e.atX t - cx)*e.sqLength = e.cross cx cy*(e.y2 - e.y1) := by
    rw [atX,atY] at hacross
    rw [atX,cross_eq,sqLength]
    linear_combination (e.x2 - e.x1)*hacross
  have hconnY : (cy - e.atY t)*e.sqLength = e.cross cx cy*(e.x2 - e.x1) := by
    rw [atX,atY] at hacross
    rw [atY,cross_eq,sqLength]
    linear_combination -(e.y2 - e.y1)*hacross
  refine ⟨⟨fun hcross => ?_,fun hcross => ?_⟩,fun hcross => ?_,fun hcross => ?_⟩
  · exact sub_nonneg.mp (nonneg_of_mul_nonneg_left (hcross.trans_eq hconnX.symm) hpos)
  · exact sub_nonpos.mp (nonpos_of_mul_nonpos_left (hconnX.trans_le hcross) hpos)
  · have hprod := mul_nonneg_of_nonpos_of_nonpos hcross hdx
    exact sub_nonneg.mp (nonneg_of_mul_nonneg_left (hprod.trans_eq hconnY.symm) hpos)
  · have hprod := mul_nonpos_of_nonneg_of_nonpos hcross hdx
    exact sub_nonpos.mp (nonpos_of_mul_nonpos_left (hconnY.trans_le hprod) hpos)

theorem Foot.falling (h : e.Foot cx cy t) (hx1 : cx ≤ e.x1) (hx2 : e.x2 ≤ cx) (hy1 : cy ≤ e.y1) (hy2 : e.y2 ≤ cy) :
    (e.cross cx cy ≤ 0 → cx ≤ e.atX t ∧ e.atY t ≤ cy) ∧ (0 ≤ e.cross cx cy → e.atX t ≤ cx ∧ cy ≤ e.atY t) := by
  have hdy := sub_nonpos.mpr (hy2.trans hy1)
  obtain ⟨⟨hright,hleft⟩,hbelow,habove⟩ := h.passing hpos hx1 hx2
    (mul_nonneg_of_nonpos_of_nonpos (sub_nonpos.mpr hy1) hdy) (mul_nonneg_of_nonpos_of_nonpos (sub_nonpos.mpr hy2) hdy)
  exact ⟨fun hcross => ⟨hright (mul_nonneg_of_nonpos_of_nonpos hcross hdy),hbelow hcross⟩,
    fun hcross => ⟨hleft (mul_nonpos_of_nonneg_of_nonpos hcross hdy),habove hcross⟩⟩

theorem Foot.rising (h : e.Foot cx cy t) (hx1 : cx ≤ e.x1) (hx2 : e.x2 ≤ cx) (hy1 : e.y1 ≤ cy) (hy2 : cy ≤ e.y2)
    (hcross : 0 ≤ e.cross cx cy) : cx ≤ e.atX t ∧ cy ≤ e.atY t := by
  have hdy := sub_nonneg.mpr (hy1.trans hy2)
  obtain ⟨⟨hright,-⟩,-,habove⟩ := h.passing hpos hx1 hx2 (mul_nonneg (sub_nonneg.mpr hy1) hdy)
    (mul_nonneg (sub_nonneg.mpr hy2) hdy)
  exact ⟨hright (mul_nonneg hcross hdy),habove hcross⟩

theorem Sided.isLeast_zero_diagonal (h : e.Sided) (hx1 : e.boxX ≤ e.x1) (hx2 : e.x2 ≤ -e.boxX)
    (hy1 : e.boxY ≤ e.y1) (hy2 : e.y2 ≤ -e.boxY) (hright : 0 < e.cross e.boxX (-e.boxY))
    (hleft : e.cross (-e.boxX) e.boxY ≤ 0) : IsLeast e.distances 0 := by
  set p := e.cross e.boxX (-e.boxY) with hp
  set q := e.cross (-e.boxX) e.boxY with hq
  -- the place on the diagonal, from the lower right corner
  obtain ⟨r,hr⟩ : ∃ r, r = p/(p - q) := ⟨_,rfl⟩
  have hr0 : 0 ≤ r := hr ▸ div_nonneg hright.le (by linarith)
  have hr1 : r ≤ 1 := hr ▸ (div_le_one (by linarith)).mpr (by linarith)
  have hscale : r*(p - q) = p := hr ▸ div_mul_cancel₀ p (by linarith)
  have hbound {b : ℝ} (hb : 0 ≤ b) : |(1 - 2*r)*b| ≤ b := by
    rw [abs_mul,abs_of_nonneg hb]
    exact mul_le_of_le_one_left hb (abs_le.mpr ⟨by linarith,by linarith⟩)
  obtain ⟨_,_⟩ := abs_le.mp (hbound h.boxX)
  obtain ⟨_,_⟩ := abs_le.mp (hbound h.boxY)
  rw [hp,hq] at hscale
  simp only [cross_eq] at hscale
  -- its place on the segment
  obtain ⟨τ,hτ⟩ : ∃ τ, τ = (((1 - 2*r)*e.boxX - e.x1)*(e.x2 - e.x1) +
      (-((1 - 2*r)*e.boxY) - e.y1)*(e.y2 - e.y1))/e.sqLength := ⟨_,rfl⟩
  have hdx : e.x2 - e.x1 ≤ 0 := by linarith [h.boxX]
  have hdy : e.y2 - e.y1 ≤ 0 := by linarith [h.boxY]
  have hatX : e.atX τ = (1 - 2*r)*e.boxX := by
    rw [atX,hτ]
    field_simp
    rw [sqLength]
    linear_combination -(e.y2 - e.y1)*hscale
  have hatY : e.atY τ = -((1 - 2*r)*e.boxY) := by
    rw [atY,hτ]
    field_simp
    rw [sqLength]
    linear_combination (e.x2 - e.x1)*hscale
  refine isLeast_zero (t := τ) ?_ ?_ ?_ ?_
  · rw [hτ]
    exact div_nonneg (add_nonneg (mul_nonneg_of_nonpos_of_nonpos (by linarith) hdx)
      (mul_nonneg_of_nonpos_of_nonpos (by linarith) hdy)) hpos.le
  · rw [hτ,div_le_one hpos,sqLength]
    linarith [mul_nonneg_of_nonpos_of_nonpos (show e.x2 - (1 - 2*r)*e.boxX ≤ 0 by linarith) hdx,
      mul_nonneg_of_nonpos_of_nonpos (show e.y2 - -((1 - 2*r)*e.boxY) ≤ 0 by linarith) hdy]
  · exact hatX ▸ hbound h.boxX
  · rw [hatY,abs_neg]
    exact hbound h.boxY

end Passing

section Assembly
variable (h : e.Sided)
include h

theorem Sided.isLeast_zero_right (hx1 : e.boxX ≤ e.x1) (hx2 : e.x2 ≤ e.boxX) (hne : e.gx1 ≠ e.gx2)
    (hy1 : -e.boxY ≤ e.y1) (hy2 : -e.boxY ≤ e.y2)
    (habove : e.y1 ≤ e.boxY ∧ e.y2 ≤ e.boxY ∨ e.cross e.boxX e.boxY ≤ 0) : IsLeast e.distances 0 := by
  have hlt : 0 < e.x1 - e.x2 := sub_pos.mpr ((hx2.trans hx1).lt_of_ne fun heq => hne (h.same_x heq.symm))
  have ht : 0 ≤ (e.x1 - e.boxX)/(e.x1 - e.x2) := div_nonneg (by linarith) hlt.le
  have ht' : (e.x1 - e.boxX)/(e.x1 - e.x2) ≤ 1 := (div_le_one hlt).mpr (by linarith)
  apply isLeast_zero ht ht'
  · have hatX : e.atX ((e.x1 - e.boxX)/(e.x1 - e.x2)) = e.boxX := by
      rw [atX]
      field_simp
      ring
    rw [hatX,abs_of_nonneg h.boxX]
  · refine abs_le.mpr ⟨le_atY hy1 hy2 ht ht',?_⟩
    obtain ⟨hle1,hle2⟩ | hcross := habove
    · exact atY_le hle1 hle2 ht ht'
    · rw [atY,← sub_nonneg,← mul_nonneg_iff_of_pos_right hlt]
      rw [cross_eq] at hcross
      field_simp
      linarith

theorem Sided.isLeast_zero_bottom (hy1 : -e.boxY ≤ e.y1) (hy2 : e.y2 ≤ -e.boxY) (hne : e.gy1 ≠ e.gy2)
    (hx1 : -e.boxX ≤ e.x1) (hx2 : -e.boxX ≤ e.x2) (hcross : 0 ≤ e.cross e.boxX (-e.boxY)) :
    IsLeast e.distances 0 := by
  have hlt : 0 < e.y1 - e.y2 := sub_pos.mpr ((hy2.trans hy1).lt_of_ne fun heq => hne (h.same_y heq.symm))
  have ht : 0 ≤ (e.y1+e.boxY)/(e.y1 - e.y2) := div_nonneg (by linarith) hlt.le
  have ht' : (e.y1+e.boxY)/(e.y1 - e.y2) ≤ 1 := (div_le_one hlt).mpr (by linarith)
  apply isLeast_zero ht ht'
  · refine abs_le.mpr ⟨le_atX hx1 hx2 ht ht',?_⟩
    rw [atX,← sub_nonneg,← mul_nonneg_iff_of_pos_right hlt]
    rw [cross_eq] at hcross
    field_simp
    linarith
  · have hatY : e.atY ((e.y1+e.boxY)/(e.y1 - e.y2)) = -e.boxY := by
      rw [atY]
      field_simp
      ring
    rw [hatY,abs_neg,abs_of_nonneg h.boxY]

variable (hlength : 0 < length) (hsq : length*length = e.sqLength) (hgx1 : e.gx1 = 1) (hend : ¬(e.gx2 = 0 ∧ e.gy2 = 0))
include hlength hsq hgx1 hend

theorem Sided.isLeast_fromCorner (hgy1 : e.gy1 = 1) (hle : e.gy2 ≤ e.gx2) :
    ∃ r, e.distance .real length = some r ∧ IsLeast e.distances r := by
  have hpos : 0 < e.sqLength := hsq ▸ mul_pos hlength hlength
  have hboxX := h.boxX
  have hboxY := h.boxY
  have hx1 := h.x1.right hgx1
  have hy1 := h.y1.right hgy1
  have hstates : (e.gx2 = 1 ∧ e.gy2 = 1 ∨ e.gx2 = 1 ∧ e.gy2 = 0 ∨ e.gx2 = 1 ∧ e.gy2 = -1) ∨
      e.gx2 = 0 ∧ e.gy2 = -1 ∨ e.gx2 = -1 ∧ e.gy2 = -1 := by
    have hx2 := h.x2.cases
    have hy2 := h.y2.cases
    omega
  -- a segment to the right of the box
  have hfar {cy : ℝ} (hx2 : e.boxX ≤ e.x2) (hy : ∀ t, e.Foot e.boxX cy t → Beyond e.boxY cy (e.atY t)) :
      IsLeast e.distances (ptSegDistance .real e.boxX cy e.x1 e.y1 e.x2 e.y2 length) :=
    h.isLeast_corner hlength hsq fun t hfoot =>
      ⟨.inl ⟨rfl,le_atX hx1 hx2 hfoot.nonneg hfoot.le_one⟩,hy t hfoot⟩
  rw [distance,if_pos ⟨hgx1,hgy1⟩]
  obtain (⟨hgx2,hgy2⟩ | ⟨hgx2,hgy2⟩ | ⟨hgx2,hgy2⟩) | ⟨hgx2,hgy2⟩ | ⟨hgx2,hgy2⟩ := hstates <;>
    simp only [hgx2,hgy2,Int.reduceMul,Int.reduceNeg,Int.reduceAdd,Int.reduceEq,if_true,if_false]
  · -- both ends are beyond the corner
    refine ⟨_,rfl,hfar (h.x2.right hgx2) fun t hfoot => .inl ⟨rfl,?_⟩⟩
    exact le_atY hy1 (h.y2.right hgy2) hfoot.nonneg hfoot.le_one
  · -- the end is beside the right edge
    have hx2 := h.x2.right hgx2
    split
    case isTrue hlt =>
      refine ⟨_,rfl,?_⟩
      simpa using h.isLeast_edge (t := 1) zero_le_one le_rfl (by simpa using hx2) (by simpa using h.y2.inside hgy2)
        (by simpa using hlt.le) (by simp)
    case isFalse hge => exact ⟨_,rfl,hfar hx2 fun _ hfoot => .inl ⟨rfl,(hfoot.beyond_start hx1 (not_lt.mp hge)).1 hy1⟩⟩
  · -- the segment goes from above the box to below it
    have hx2 := h.x2.right hgx2
    split
    case isTrue hlt =>
      exact ⟨_,rfl,hfar hx2 fun _ hfoot => .inr ⟨rfl,(hfoot.beyond_end hx2 hlt.le).2 (h.y2.left hgy2)⟩⟩
    case isFalse hge => exact ⟨_,rfl,hfar hx2 fun _ hfoot => .inl ⟨rfl,(hfoot.beyond_start hx1 (not_lt.mp hge)).1 hy1⟩⟩
  · -- the end is below the bottom edge
    obtain ⟨hx2,hx2'⟩ := h.x2.inside hgx2
    have hy2 := h.y2.left hgy2
    split
    case isTrue hcross =>
      exact ⟨_,rfl,h.isLeast_zero_bottom (by linarith) hy2 (by omega) (by linarith) hx2 hcross⟩
    case isFalse hcross =>
      refine ⟨_,rfl,h.isLeast_corner hlength hsq fun t hfoot => ?_⟩
      obtain ⟨hright,hbelow⟩ := (hfoot.falling hpos hx1 hx2' (by linarith) hy2).1 (not_le.mp hcross).le
      exact ⟨.inl ⟨rfl,hright⟩,.inr ⟨rfl,hbelow⟩⟩
  · -- the end is beyond the opposite corner
    have hx2 := h.x2.left hgx2
    have hy2 := h.y2.left hgy2
    split
    case isTrue hcross =>
      refine ⟨_,rfl,h.isLeast_corner hlength hsq fun t hfoot => ?_⟩
      obtain ⟨hright,hbelow⟩ := (hfoot.falling hpos hx1 (by linarith) (by linarith) hy2).1 hcross
      exact ⟨.inl ⟨rfl,hright⟩,.inr ⟨rfl,hbelow⟩⟩
    case isFalse hcross =>
      split
      case isTrue hcross' => exact ⟨_,rfl,h.isLeast_zero_diagonal hpos hx1 hx2 hy1 hy2 (not_le.mp hcross) hcross'⟩
      case isFalse hcross' =>
        refine ⟨_,rfl,h.isLeast_corner hlength hsq fun _ hfoot => ?_⟩
        obtain ⟨hleft,habove⟩ := (hfoot.falling hpos (by linarith) hx2 hy1 (by linarith)).2 (not_le.mp hcross').le
        exact ⟨.inr ⟨rfl,hleft⟩,.inl ⟨rfl,habove⟩⟩

theorem Sided.isLeast_fromEdge (hgy1 : e.gy1 = 0) (hle : 0 ≤ e.gy2) :
    ∃ r, e.distance .real length = some r ∧ IsLeast e.distances r := by
  have hboxX := h.boxX
  have hx1 := h.x1.right hgx1
  obtain ⟨hy1,hy1'⟩ := h.y1.inside hgy1
  have hstates : (e.gx2 = 1 ∧ e.gy2 = 1 ∨ e.gx2 = 1 ∧ e.gy2 = 0 ∨ e.gx2 = -1 ∧ e.gy2 = 0) ∨
      e.gx2 = 0 ∧ e.gy2 = 1 ∨ e.gx2 = -1 ∧ e.gy2 = 1 := by
    have hx2 := h.x2.cases
    have hy2 := h.y2.cases
    omega
  have hedge (hle : e.x1 ≤ e.x2) : IsLeast e.distances (e.x1 - e.boxX) := by
    simpa using h.isLeast_edge (t := 0) le_rfl zero_le_one (by simpa using hx1) (by simpa using ⟨hy1,hy1'⟩) (by simp)
      (by simpa using hle)
  rw [distance,if_neg (fun _ => by omega)]
  obtain (⟨hgx2,hgy2⟩ | ⟨hgx2,hgy2⟩ | ⟨hgx2,hgy2⟩) | hupper := hstates
  · simp only [hgx2,hgy2,Int.reduceMul,Int.reduceAdd,if_true]
    have hx2 := h.x2.right hgx2
    split
    case isTrue hlt => exact ⟨_,rfl,hedge hlt.le⟩
    case isFalse hge =>
      refine ⟨_,rfl,h.isLeast_corner hlength hsq fun t hfoot => ?_⟩
      exact ⟨.inl ⟨rfl,le_atX hx1 hx2 hfoot.nonneg hfoot.le_one⟩,
        .inl ⟨rfl,(hfoot.beyond_end hx2 (not_lt.mp hge)).1 (h.y2.right hgy2)⟩⟩
  · -- both ends are beside the right edge
    simp only [hgx2,hgy2,Int.reduceMul,Int.reduceAdd,Int.reduceEq,if_true,if_false]
    refine ⟨_,rfl,?_⟩
    obtain hmin | hmin := le_total e.x1 e.x2
    · rw [min_eq_left hmin]
      exact hedge hmin
    · rw [min_eq_right hmin]
      simpa using h.isLeast_edge (t := 1) zero_le_one le_rfl (by simpa using h.x2.right hgx2)
        (by simpa using h.y2.inside hgy2) (by simpa using hmin) (by simp)
  · -- the segment goes through the box
    simp only [hgx2,hgy2,Int.reduceMul,Int.reduceNeg,Int.reduceAdd,Int.reduceEq,or_self,if_true,if_false]
    have hx2 := h.x2.left hgx2
    obtain ⟨hy2,hy2'⟩ := h.y2.inside hgy2
    exact ⟨_,rfl,h.isLeast_zero_right hx1 (by linarith) (by omega) hy1 hy2 (.inl ⟨hy1',hy2'⟩)⟩
  · -- the end is above the box
    have hy2 := h.y2.right (hupper.elim And.right And.right)
    have hx2 : e.x2 ≤ e.boxX := by
      obtain ⟨hgx2,-⟩ | ⟨hgx2,-⟩ := hupper
      · exact (h.x2.inside hgx2).2
      · linarith [h.x2.left hgx2]
    rw [if_neg (by omega),if_neg (by omega),if_pos (by omega)]
    split
    case isTrue hcross =>
      exact ⟨_,rfl,h.isLeast_zero_right hx1 hx2 (by omega) hy1 (by linarith) (.inr hcross)⟩
    case isFalse hcross =>
      refine ⟨_,rfl,h.isLeast_corner hlength hsq fun _ hfoot => ?_⟩
      obtain ⟨hright,habove⟩ := hfoot.rising (hsq ▸ mul_pos hlength hlength) hx1 hx2 hy1' hy2 (not_le.mp hcross).le
      exact ⟨.inl ⟨rfl,hright⟩,.inl ⟨rfl,habove⟩⟩

end Assembly

theorem Sided.isLeast_inside (h : e.Sided) :
    (e.gx1 = 0 ∧ e.gy1 = 0 → IsLeast e.distances 0) ∧ (e.gx2 = 0 ∧ e.gy2 = 0 → IsLeast e.distances 0) := by
  constructor
  · rintro ⟨hgx,hgy⟩
    refine isLeast_zero (t := 0) le_rfl zero_le_one (abs_le.mpr ?_) (abs_le.mpr ?_)
    · simpa using h.x1.inside hgx
    · simpa using h.y1.inside hgy
  · rintro ⟨hgx,hgy⟩
    refine isLeast_zero (t := 1) zero_le_one le_rfl (abs_le.mpr ?_) (abs_le.mpr ?_)
    · simpa using h.x2.inside hgx
    · simpa using h.y2.inside hgy

theorem Sided.isLeast_outside (h : e.Sided) (hlength : 0 < length) (hsq : length*length = e.sqLength)
    (hstart : ¬(e.gx1 = 0 ∧ e.gy1 = 0)) (hend : ¬(e.gx2 = 0 ∧ e.gy2 = 0)) :
    ∃ r, e.flipX.flipY.swap.distance .real length = some r ∧ IsLeast e.distances r := by
  have hX := e.alike_flipX
  have hY := e.flipX.alike_flipY
  have hS := e.flipX.flipY.alike_swap
  have hnormal := h.normal hstart hend
  have hsided := hS.sided (hY.sided (hX.sided h))
  rw [← hX.sqLength,← hY.sqLength,← hS.sqLength] at hsq
  rw [← hX.distances,← hY.distances,← hS.distances]
  obtain ⟨hgy1,hle⟩ | ⟨hgy1,hle⟩ := hnormal.gy1
  · exact hsided.isLeast_fromCorner hlength hsq hnormal.gx1 hnormal.end_ hgy1 hle
  · exact hsided.isLeast_fromEdge hlength hsq hnormal.gx1 hnormal.end_ hgy1 hle

end Box2d.Ends

namespace Box2d
variable {box : Box2d ℝ} {start end_ : Vec2d ℝ}

def distancesTo (box : Box2d ℝ) (start end_ : Vec2d ℝ) : Set ℝ :=
  {r | ∃ p q : Vec2d ℝ, box.Contains p ∧ start.Between end_ q ∧ r = p.distanceTo .real q}

section Frame
variable (hunit : box.cosHeading^2+box.sinHeading^2 = 1)
include hunit

theorem sq_frame (dx dy : ℝ) : (dx*box.cosHeading+dy*box.sinHeading)*(dx*box.cosHeading+dy*box.sinHeading) +
      (dx*box.sinHeading - dy*box.cosHeading)*(dx*box.sinHeading - dy*box.cosHeading) = dx*dx+dy*dy := by
  linear_combination (dx*dx+dy*dy)*hunit

theorem ends_sq_length (start end_ : Vec2d ℝ) : (ofEnds .real start end_).length*(ofEnds .real start end_).length =
      (box.ends (.ofEnds .real start end_)).sqLength := by
  have hlength : (ofEnds .real start end_).length*(ofEnds .real start end_).length =
      (end_.x - start.x)*(end_.x - start.x)+(end_.y - start.y)*(end_.y - start.y) :=
    mul_self_sqrt (add_nonneg (mul_self_nonneg _) (mul_self_nonneg _))
  rw [hlength,← sq_frame hunit]
  simp only [Ends.sqLength,ends,ofEnds]
  ring

theorem distances_ends (segment : LineSegment2d ℝ) :
    (box.ends segment).distances = box.distancesTo segment.start segment.end_ := by
  apply Set.ext
  intro _
  have hframe (a b t : ℝ) (p q : Vec2d ℝ) (hpx : p.x = box.center.x+a*box.cosHeading - b*box.sinHeading)
      (hpy : p.y = box.center.y+a*box.sinHeading+b*box.cosHeading)
      (hqx : q.x = segment.start.x+t*(segment.end_.x - segment.start.x))
      (hqy : q.y = segment.start.y+t*(segment.end_.y - segment.start.y)) :
      Cmath.real.hypot (a - (box.ends segment).atX t) (-b - (box.ends segment).atY t) = p.distanceTo .real q := by
    have hsq := sq_frame hunit (p.x - q.x) (p.y - q.y)
    have hx : a - (box.ends segment).atX t = (p.x - q.x)*box.cosHeading+(p.y - q.y)*box.sinHeading := by
      rw [hpx,hpy,hqx,hqy]
      simp only [Ends.atX,ends]
      linear_combination -a*hunit
    have hy : -b - (box.ends segment).atY t = (p.x - q.x)*box.sinHeading - (p.y - q.y)*box.cosHeading := by
      rw [hpx,hpy,hqx,hqy]
      simp only [Ends.atY,ends]
      linear_combination b*hunit
    rw [hx,hy]
    exact congrArg sqrt hsq
  constructor
  · rintro ⟨u,v,t,hu,hv,ht,ht',rfl⟩
    refine ⟨⟨_,_⟩,⟨_,_⟩,⟨u,-v,hu,(abs_neg v).trans_le hv,rfl,rfl⟩,⟨t,ht,ht',rfl,rfl⟩,?_⟩
    rw [← hframe u (-v) t _ _ rfl rfl rfl rfl,neg_neg]
  · rintro ⟨p,q,⟨a,b,ha,hb,hpx,hpy⟩,⟨t,ht,ht',hqx,hqy⟩,rfl⟩
    exact ⟨a,-b,t,ha,(abs_neg b).trans_le hb,ht,ht',(hframe a b t p q hpx hpy hqx hqy).symm⟩

end Frame

theorem ends_sided (segment : LineSegment2d ℝ) (hlength : 0 ≤ box.halfLength) (hwidth : 0 ≤ box.halfWidth) :
    (box.ends segment).Sided where
  boxX := hlength
  boxY := hwidth
  x1 := Ends.onSide_side _ _
  y1 := Ends.onSide_side _ _
  x2 := Ends.onSide_side _ _
  y2 := Ends.onSide_side _ _
  same_x h := congrArg (side · _) h
  same_y h := congrArg (side · _) h

/-- `DistanceTo` of a segment that has a direction is the least distance of a point of the box from one of the
segment. -/
theorem distanceToSegment_isLeast (box : Box2d ℝ) (start end_ : Vec2d ℝ)
    (hunit : box.cosHeading^2+box.sinHeading^2 = 1) (hlengthBox : 0 ≤ box.halfLength)
    (hwidthBox : 0 ≤ box.halfWidth) (hlong : mathEpsilon < (ofEnds .real start end_).length) :
    ∃ r, box.distanceToSegment .real (.ofEnds .real start end_) = some r ∧ IsLeast (box.distancesTo start end_) r := by
  have hset := distances_ends hunit (.ofEnds .real start end_)
  have hsq := ends_sq_length hunit start end_
  have hsided := ends_sided (.ofEnds .real start end_) hlengthBox hwidthBox
  have hpos := mathEpsilon_pos.trans hlong
  change (box.ends (.ofEnds .real start end_)).distances = box.distancesTo start end_ at hset
  rw [← hset,distanceToSegment,if_neg (not_le.mpr hlong)]
  dsimp only
  split
  case isTrue hstart => exact ⟨0,rfl,hsided.isLeast_inside.1 hstart⟩
  case isFalse hstart =>
    split
    case isTrue hend => exact ⟨0,rfl,hsided.isLeast_inside.2 hend⟩
    case isFalse hend => exact hsided.isLeast_outside hpos hsq hstart hend

/-- A box of two by two, and a segment that passes it. -/
theorem distanceToSegment_isLeast_square :
    ∃ r, (⟨⟨0,0⟩,1,1,1,0,-1,1,-1,1⟩ : Box2d ℝ).distanceToSegment .real (.ofEnds .real ⟨0,3⟩ ⟨4,0⟩) = some r ∧
      IsLeast ((⟨⟨0,0⟩,1,1,1,0,-1,1,-1,1⟩ : Box2d ℝ).distancesTo ⟨0,3⟩ ⟨4,0⟩) r := by
  apply distanceToSegment_isLeast
  · norm_num
  · norm_num
  · norm_num
  · have hlength : (ofEnds .real ⟨0,3⟩ ⟨4,0⟩).length = 5 := by
      change sqrt ((4 - 0)*(4 - 0)+(0 - 3)*(0 - 3)) = 5
      rw [show ((4 : ℝ) - 0)*(4 - 0)+(0 - 3)*(0 - 3) = 5^2 by norm_num,sqrt_sq (by norm_num)]
    rw [hlength]
    norm_num [mathEpsilon]

end Box2d
end Apollo.Modules.Common.Math
