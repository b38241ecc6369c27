import Mathlib.Algebra.Order.Group.Int

/-! `PncMap::UpdateNextRoutingWaypointIndex`: four scans of the waypoints of the routing request. -/
namespace Apollo.Modules.Map.PncMap
open List Option

structure WaypointIndex (K : Type) where
  index : Int
  s : K

namespace WaypointIndex
variable {K : Type}

section Scans
variable (waypoints : List (WaypointIndex K)) (test : WaypointIndex K → Bool)

def scanBack : Nat → Nat
  | 0 => 0
  | i+1 => if waypoints[i+1]?.any test then scanBack i else i+1

def scanForward (i : Nat) : Nat :=
  if i < waypoints.length ∧ waypoints[i]?.any test then scanForward (i+1) else i
termination_by waypoints.length - i

variable {waypoints test} {i j : Nat} {w : WaypointIndex K}

theorem scanBack_le : scanBack waypoints test i ≤ i := by
  fun_induction scanBack with
  | case1 | case2 | case3 => omega

theorem scanBack_stop (he : scanBack waypoints test i = j) (hpos : j ≠ 0) (hw : waypoints[j]? = some w) :
    test w = false := by
  subst he
  fun_induction scanBack with
  | case1 => exact absurd rfl hpos
  | case2 i _ ih => exact ih hpos hw
  | case3 i h => simpa only [hw,any_some,Bool.not_eq_true] using h

theorem le_scanForward : i ≤ scanForward waypoints test i := by
  fun_induction scanForward with
  | case1 | case2 => omega

theorem scanForward_stop (he : scanForward waypoints test i = j) (hw : waypoints[j]? = some w) : test w = false := by
  subst he
  fun_induction scanForward with
  | case1 i _ ih => exact ih hw
  | case2 i h =>
    obtain ⟨hi,-⟩ := List.getElem?_eq_some_iff.mp hw
    simpa only [hw,hi,true_and,any_some,Bool.not_eq_true] using h

variable (test) in
/-- A scan does not pass a waypoint that fails its test. -/
theorem scanForward_le (hi : i ≤ j) (hj : ∀ w, waypoints[j]? = some w → test w = false) :
    scanForward waypoints test i ≤ j := by
  fun_induction scanForward with
  | case1 i h ih =>
    refine ih (Nat.lt_of_le_of_ne hi ?_)
    rintro rfl
    obtain ⟨w,hw,htest⟩ := (any_eq_true _ _).mp h.2
    exact Bool.false_ne_true ((hj w hw).symm.trans htest)
  | case2 => exact hi

end Scans

variable [LinearOrder K]

def IsAfter (curIndex : Int) (adcS : K) (w : WaypointIndex K) : Prop :=
  curIndex < w.index ∨ w.index = curIndex ∧ adcS < w.s
deriving Decidable

def updateNextRoutingWaypointIndex (waypoints : List (WaypointIndex K)) (routeIndices : Nat) (adcS : K)
    (nextRoutingWaypointIndex : Nat) (curIndex : Int) : Nat :=
  if curIndex < 0 then 0
  else if routeIndices ≤ curIndex then waypoints.length - 1
  else
    let i := scanBack waypoints (fun w => curIndex < w.index) nextRoutingWaypointIndex
    let i := scanBack waypoints (fun w => w.index = curIndex ∧ adcS < w.s) i
    let i := scanForward waypoints (fun w => w.index < curIndex) i
    let i := scanForward waypoints (fun w => curIndex = w.index ∧ w.s ≤ adcS) i
    if waypoints.length ≤ i then waypoints.length - 1 else i

def Ordered (v w : WaypointIndex K) : Prop := v.index < w.index ∨ v.index = w.index ∧ v.s ≤ w.s

variable {curIndex : Int} {adcS : K} {v w : WaypointIndex K}

theorem IsAfter.mono (h : IsAfter curIndex adcS v) (hvw : Ordered v w) : IsAfter curIndex adcS w := by
  rcases hvw with hlt | ⟨heq,hle⟩
  · exact .inl (h.elim (·.trans hlt) fun h => h.1 ▸ hlt)
  · rw [IsAfter,← heq]
    exact h.imp_right fun h => ⟨h.1,h.2.trans_le hle⟩

variable {waypoints : List (WaypointIndex K)} {i j : Nat} (hsorted : waypoints.Pairwise Ordered)
include hsorted

theorem ordered_of_le (hij : i ≤ j) (hv : waypoints[i]? = some v) (hw : waypoints[j]? = some w) : Ordered v w := by
  obtain rfl | hlt := Nat.eq_or_lt_of_le hij
  · cases hv.symm.trans hw
    exact .inr ⟨rfl,le_rfl⟩
  · obtain ⟨_,rfl⟩ := List.getElem?_eq_some_iff.mp hv
    obtain ⟨_,rfl⟩ := List.getElem?_eq_some_iff.mp hw
    exact pairwise_iff_getElem.mp hsorted i j _ _ hlt

/-- The waypoints after a position are those from the first of them on. -/
theorem isAfter_iff (hw : waypoints[j]? = some w) :
    IsAfter curIndex adcS w ↔ waypoints.findIdx (IsAfter curIndex adcS) ≤ j := by
  obtain ⟨hj,he⟩ := List.getElem?_eq_some_iff.mp hw
  constructor
  · intro h
    by_contra hlt
    have hnot := not_of_lt_findIdx (Nat.lt_of_not_le hlt)
    simp [he,h] at hnot
  · intro hle
    have hlt := Nat.lt_of_le_of_lt hle hj
    have hfirst := findIdx_getElem (w := hlt)
    exact IsAfter.mono (of_decide_eq_true hfirst) (ordered_of_le hsorted hle (List.getElem?_eq_getElem hlt) hw)

variable {i₁ i₂ : Nat}

/-- Both scans backwards stop before the first waypoint after the vehicle, if they do not stop at the front. -/
theorem scanBack_le_findIdx (hi : i < waypoints.length) (h₁ : scanBack waypoints (fun w => curIndex < w.index) i = i₁)
    (h₂ : scanBack waypoints (fun w => w.index = curIndex ∧ adcS < w.s) i₁ = i₂) :
    i₂ ≤ waypoints.findIdx (IsAfter curIndex adcS) := by
  have hle₁ : i₁ ≤ i := h₁ ▸ scanBack_le
  have hle₂ : i₂ ≤ i₁ := h₂ ▸ scanBack_le
  by_contra hlt
  have hw₁ := List.getElem?_eq_getElem (hle₁.trans_lt hi)
  have hw₂ := List.getElem?_eq_getElem (hle₂.trans_lt (hle₁.trans_lt hi))
  have hstop₁ := of_decide_eq_false (scanBack_stop h₁ (by omega) hw₁)
  have hstop₂ := of_decide_eq_false (scanBack_stop h₂ (by omega) hw₂)
  rcases (isAfter_iff hsorted hw₂).mpr (not_le.mp hlt).le with h | h
  · rcases ordered_of_le hsorted hle₂ hw₂ hw₁ with _ | _ <;> omega
  · exact hstop₂ h

/-- Both scans forwards stop at the first waypoint after the vehicle. -/
theorem scanForward_eq_findIdx (hi : i ≤ waypoints.findIdx (IsAfter curIndex adcS))
    (h₁ : scanForward waypoints (fun w => w.index < curIndex) i = i₁)
    (h₂ : scanForward waypoints (fun w => curIndex = w.index ∧ w.s ≤ adcS) i₁ = i₂) :
    i₂ = waypoints.findIdx (IsAfter curIndex adcS) := by
  have hstop {w} (hw : waypoints[waypoints.findIdx (IsAfter curIndex adcS)]? = some w) : IsAfter curIndex adcS w :=
    (isAfter_iff hsorted hw).mpr le_rfl
  have hle₁ := h₁ ▸ scanForward_le _ hi fun w hw => by
    rcases hstop hw with _ | _ <;> exact decide_eq_false (by omega)
  have hle₂ := h₂ ▸ scanForward_le _ hle₁ fun w hw => by
    rcases hstop hw with h | h
    · exact decide_eq_false (by omega)
    · exact decide_eq_false fun he => he.2.not_gt h.2
  refine hle₂.antisymm ?_
  by_contra hlt
  have hle : i₁ ≤ i₂ := h₂ ▸ le_scanForward
  have hlength : i₂ < waypoints.length := (not_le.mp hlt).trans_le findIdx_le_length
  have hw₁ := List.getElem?_eq_getElem (hle.trans_lt hlength)
  have hw₂ := List.getElem?_eq_getElem hlength
  have hstop₁ := of_decide_eq_false (scanForward_stop h₁ hw₁)
  have hstop₂ := of_decide_eq_false (scanForward_stop h₂ hw₂)
  have hnot := mt (isAfter_iff hsorted hw₂).mp hlt
  have hindex : curIndex ≤ waypoints[i₂].index := by
    rcases ordered_of_le hsorted hle hw₁ hw₂ with _ | _ <;> omega
  have heq := hindex.antisymm (not_lt.mp fun h => hnot (.inl h))
  exact hstop₂ ⟨heq,not_lt.mp fun h => hnot (.inr ⟨heq.symm,h⟩)⟩

/-- The index of the first waypoint strictly after the vehicle, or of the last waypoint, whatever it was before. -/
theorem updateNextRoutingWaypointIndex_eq {routeIndices next : Nat} (adcS : K) (hnext : next < waypoints.length)
    (hcur : 0 ≤ curIndex ∧ curIndex < routeIndices) :
    updateNextRoutingWaypointIndex waypoints routeIndices adcS next curIndex =
      min (waypoints.findIdx (IsAfter curIndex adcS)) (waypoints.length - 1) := by
  have hle := waypoints.findIdx_le_length (p := IsAfter curIndex adcS)
  rw [updateNextRoutingWaypointIndex,if_neg (by omega),if_neg (by omega)]
  dsimp only
  rw [scanForward_eq_findIdx hsorted (scanBack_le_findIdx hsorted hnext rfl rfl) rfl rfl]
  split <;> omega

omit hsorted in
/-- Between two waypoints of one segment. -/
theorem updateNextRoutingWaypointIndex_eq_between :
    updateNextRoutingWaypointIndex [⟨0,1⟩,⟨0,3⟩] 1 2 0 0 = min (findIdx (IsAfter 0 2 ·) [⟨0,1⟩,⟨0,3⟩]) 1 :=
  updateNextRoutingWaypointIndex_eq (by simp [Ordered]) 2 (by decide) (by decide)

end WaypointIndex
end Apollo.Modules.Map.PncMap
