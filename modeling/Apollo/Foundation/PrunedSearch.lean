import Mathlib.Tactic.Linarith

/-! Searches for the least value of groups that are only estimated up to an error. A group is left out, or a part
of it, where no value can be below the best one so far. -/
namespace Apollo.Foundation
variable {ι K : Type} [Field K] [LinearOrder K]

/-- Each group has an estimate with an error, and the nearest group has a value that exceeds its estimate by the
error at most. -/
structure PrunedSearch (ι K : Type) [Field K] [LinearOrder K] where
  values : ι → Set K
  estimate : ι → K
  error : ι → K
  maxError : K
  nearest : ι
  error_nonneg : ∀ i, 0 ≤ error i
  error_le : ∀ i, error i ≤ maxError
  maxError_pos : 0 < maxError
  attained : ∃ v ∈ values nearest, v ≤ estimate nearest+error nearest

namespace PrunedSearch
variable (search : PrunedSearch ι K)

/-- What the best value is going to be at most. -/
def target : K := search.estimate search.nearest+search.error search.nearest

/-- The bound that goes with the best value so far. -/
inductive Bounds : K → WithTop K → Prop
  | start : Bounds (search.target+search.maxError) ⊤
  | found (best : K) : Bounds (best+search.maxError) best

/-- A look at a group may leave out values that are far from the bound, or all of them if the estimate is. -/
structure Looks (i : ι) (bound : K) (best best' : WithTop K) : Prop where
  le : best' ≤ best
  seen : ∀ v ∈ search.values i, best' ≤ v ∨ bound < v+search.error i ∨
    bound ≤ search.estimate i ∧ bound ≤ v+search.error i

/-- The values of the groups that were looked at are not below the best one, or they are not below the target. -/
structure Searched (done : Set ι) (bound : K) (best : WithTop K) : Prop where
  bounds : search.Bounds bound best
  seen : ∀ i ∈ done, ∀ v ∈ search.values i, best ≤ v ∨ search.target ≤ v
  target : search.nearest ∈ done → best ≤ search.target

variable {search} {done : Set ι} {i : ι} {bound bound' v : K} {best best' : WithTop K}

theorem Searched.start : search.Searched ∅ (search.target+search.maxError) ⊤ :=
  ⟨.start,fun _ h => h.elim,fun h => h.elim⟩

theorem Searched.least (h : search.Searched done bound best) (hall : ∀ i, i ∈ done) (hv : v ∈ search.values i) :
    best ≤ v := by
  rcases h.seen i (hall i) v hv with hle | hle
  · exact hle
  · exact (h.target (hall _)).trans (WithTop.coe_le_coe.mpr hle)

section Ordered
variable [IsStrictOrderedRing K]

theorem Bounds.le_of_le (h : search.Bounds bound best) (hv : bound ≤ v+search.error i) :
    best ≤ v ∨ search.target ≤ v := by
  have herror := search.error_le i
  cases h with
  | start => exact .inr (by linarith)
  | found => exact .inl (WithTop.coe_le_coe.mpr (by linarith))

theorem Looks.le_target (h : search.Looks search.nearest bound best best') (hb : search.Bounds bound best) :
    best' ≤ search.target := by
  obtain ⟨v,hv,hle⟩ := search.attained
  have hnonneg := search.error_nonneg search.nearest
  have herror := search.error_le search.nearest
  have hpos := search.maxError_pos
  have hle' : v ≤ search.target := hle
  rcases h.seen v hv with hseen | hfar
  · exact hseen.trans (WithTop.coe_le_coe.mpr hle)
  · cases hb with
    | start =>
      rcases hfar with hfar | ⟨hfar,-⟩
      · exact absurd hfar (not_lt.mpr (by linarith))
      · rw [target] at hfar
        exact absurd hfar (not_le.mpr (by linarith))
    | found =>
      refine h.le.trans (WithTop.coe_le_coe.mpr ?_)
      rcases hfar with hfar | ⟨-,hfar⟩ <;> linarith

theorem Searched.look (h : search.Searched done bound best) (hlook : search.Looks i bound best best')
    (hbounds : search.Bounds bound' best') : search.Searched (insert i done) bound' best' := by
  refine ⟨hbounds,?_,?_⟩
  · rintro j (rfl | hj) v hv
    · rcases hlook.seen v hv with hseen | hfar | ⟨-,hfar⟩
      · exact .inl hseen
      · exact (h.bounds.le_of_le hfar.le).imp_left hlook.le.trans
      · exact (h.bounds.le_of_le hfar).imp_left hlook.le.trans
    · exact (h.seen j hj v hv).imp_left hlook.le.trans
  · rintro (rfl | hj)
    · exact hlook.le_target h.bounds
    · exact hlook.le.trans (h.target hj)

end Ordered
end PrunedSearch
end Apollo.Foundation
