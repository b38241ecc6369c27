import Apollo.Modules.Planning.Lattice.Behavior.PathTimeGraph

/-! The search of `DiscretizedTrajectory` for the nearest point with a buffer. -/
namespace Apollo.Modules.Planning.DiscretizedTrajectory
open Common.Math List Option
variable {K : Type} [Field K] [LinearOrder K]

def distanceSquareTo (position : Vec2d K) (point : TrajectoryPoint K) : K :=
  square (point.path.x - position.x)+square (point.path.y - position.y)

/-- The body of the loop, with `index_min` and `dist_sqr_min`. -/
def select (buffer : K) (best : Nat × K) (e : K × Nat) : Nat × K := if e.1 < best.2+buffer then (e.2, e.1) else best

def selectAll (buffer : K) (distances : List K) : Nat × K := distances.zipIdx.foldl (select buffer) (0, doubleMax)

def queryNearestPointWithBuffer (trajectory : List (TrajectoryPoint K)) (position : Vec2d K) (buffer : K) : Nat :=
  (selectAll buffer (trajectory.map (distanceSquareTo position))).1

theorem selectAll_append (buffer : K) (distances : List K) (d : K) :
    selectAll buffer (distances ++ [d]) = select buffer (selectAll buffer distances) (d, distances.length) := by
  rw [selectAll,zipIdx_append,foldl_append,selectAll,zero_add]
  rfl

variable [IsStrictOrderedRing K] {buffer : K} {distances : List K}

/-- What is known after each point: those behind the selected one are beyond the buffer, and the selected one is not
farther than any other that the points behind it are beyond the buffer of. -/
theorem selectAll_spec (hbuffer : 0 ≤ buffer) (hne : distances ≠ []) (hmax : ∀ d ∈ distances, d < doubleMax) :
    distances[(selectAll buffer distances).1]? = some (selectAll buffer distances).2 ∧
      (∀ j > (selectAll buffer distances).1, ∀ d ∈ distances[j]?, (selectAll buffer distances).2+buffer ≤ d) ∧
      ∀ i : Nat, ∀ d ∈ distances[i]?, (∀ j > i, ∀ e ∈ distances[j]?, d+buffer ≤ e) → (selectAll buffer distances).2 ≤ d := by
  induction distances using reverseRecOn with
  | nil => exact absurd rfl hne
  | append_singleton distances d ih =>
    obtain ⟨hmax,hd⟩ := forall_mem_append.mp hmax
    rw [selectAll_append,select]
    obtain rfl | hne := eq_or_ne distances []
    · have htake : d < (selectAll buffer []).2+buffer :=
        (hd d mem_cons_self).trans_le (le_add_of_nonneg_right hbuffer)
      rw [if_pos htake]
      exact ⟨rfl,fun _ _ _ _ => by simp_all [getElem?_singleton],fun _ _ _ _ => by simp_all [getElem?_singleton]⟩
    obtain ⟨hbest,hbehind,hleast⟩ := ih hne hmax
    obtain ⟨hlt,-⟩ := List.getElem?_eq_some_iff.mp hbest
    have hold {i : Nat} {e : K} (he : e ∈ (distances ++ [d])[i]?) : e ∈ distances[i]? ∨ i = distances.length ∧ e = d := by
      rcases lt_trichotomy i distances.length with hi | rfl | hi
      · exact .inl (by rwa [getElem?_append_left hi] at he)
      · exact .inr ⟨rfl,by simpa using he.symm⟩
      · simp [getElem?_eq_none (show (distances ++ [d]).length ≤ i by simp; omega)] at he
    have hleast' {i : Nat} {e : K} (he : e ∈ distances[i]?)
        (hbeyond : ∀ j > i, ∀ e' ∈ (distances ++ [d])[j]?, e+buffer ≤ e') :
        (selectAll buffer distances).2 ≤ e ∧ e+buffer ≤ d := by
      obtain ⟨hi,-⟩ := List.getElem?_eq_some_iff.mp he
      refine ⟨hleast i e he fun j hj e' he' => hbeyond j hj e' ?_,hbeyond _ hi d (by simp)⟩
      obtain ⟨hj,-⟩ := List.getElem?_eq_some_iff.mp he'
      rwa [getElem?_append_left hj]
    split
    case isTrue htake =>
      refine ⟨by simp,fun j hj e he => ?_,fun i e he hbeyond => ?_⟩
      · rcases hold he with he | ⟨rfl,-⟩
        · obtain ⟨_,-⟩ := List.getElem?_eq_some_iff.mp he
          omega
        · exact absurd hj (lt_irrefl _)
      · rcases hold he with he | ⟨-,rfl⟩
        · linarith [hleast' he hbeyond]
        · exact le_rfl
    case isFalse hkeep =>
      rw [getElem?_append_left hlt]
      refine ⟨hbest,fun j hj e he => ?_,fun i e he hbeyond => ?_⟩
      · rcases hold he with he | ⟨-,rfl⟩
        · exact hbehind j hj e he
        · exact not_lt.mp hkeep
      · rcases hold he with he | ⟨-,rfl⟩
        · exact (hleast' he hbeyond).1
        · linarith

/-- The selected point is within the buffer of the nearest one exactly if some point is, and all behind it are beyond
the buffer of that one. -/
theorem queryNearestPointWithBuffer_near_iff {trajectory : List (TrajectoryPoint K)} {position : Vec2d K} {buffer : K}
    (hne : trajectory ≠ []) (hbuffer : 0 ≤ buffer) (hmax : ∀ p ∈ trajectory, distanceSquareTo position p < doubleMax) :
    ∃ p, trajectory[queryNearestPointWithBuffer trajectory position buffer]? = some p ∧
      ((∀ q ∈ trajectory, distanceSquareTo position p ≤ distanceSquareTo position q+buffer) ↔
        ∃ i : Nat, ∃ p ∈ trajectory[i]?, (∀ q ∈ trajectory, distanceSquareTo position p ≤ distanceSquareTo position q+buffer) ∧
          ∀ j > i, ∀ q ∈ trajectory[j]?, distanceSquareTo position p+buffer ≤ distanceSquareTo position q) := by
  obtain ⟨hbest,hbehind,hleast⟩ := selectAll_spec hbuffer (mt map_eq_nil_iff.mp hne) (forall_mem_map.mpr hmax)
  rw [getElem?_map,map_eq_some_iff] at hbest
  obtain ⟨p,hp,hdistance⟩ := hbest
  simp only [← hdistance,getElem?_map,Option.mem_map] at hbehind hleast
  refine ⟨p,hp,fun hnear => ⟨_,p,hp,hnear,fun j hj q hq => hbehind j hj _ ⟨q,hq,rfl⟩⟩,?_⟩
  rintro ⟨i,q,hq,hnear,hbeyond⟩ r hr
  refine (hleast i _ ⟨q,hq,rfl⟩ ?_).trans (hnear r hr)
  rintro j hj _ ⟨r,hr,rfl⟩
  exact hbeyond j hj r hr

def pointAt (x : ℚ) : TrajectoryPoint ℚ := ⟨some ⟨x,0,0,0⟩,x⟩

theorem queryNearestPointWithBuffer_near_iff_far :
    ∃ p, [pointAt 0,pointAt 10,pointAt 20][queryNearestPointWithBuffer [pointAt 0,pointAt 10,pointAt 20] ⟨0,0⟩ 1]? = some p ∧
      ∀ q ∈ [pointAt 0,pointAt 10,pointAt 20], distanceSquareTo ⟨0,0⟩ p ≤ distanceSquareTo ⟨0,0⟩ q+1 := by
  have hmax : ∀ p ∈ [pointAt 0,pointAt 10,pointAt 20], distanceSquareTo ⟨0,0⟩ p < doubleMax := by decide +kernel
  obtain ⟨p,hp,hnear⟩ := queryNearestPointWithBuffer_near_iff (cons_ne_nil _ _) zero_le_one hmax
  refine ⟨p,hp,hnear.mpr ⟨0,pointAt 0,rfl,by decide +kernel,fun j hj q hq => ?_⟩⟩
  obtain ⟨hlt,-⟩ := List.getElem?_eq_some_iff.mp hq
  obtain rfl | rfl : j = 1 ∨ j = 2 := by simp at hlt; omega
  all_goals cases hq; decide +kernel

/-- Squared distances of 0, 0.81 and 1.69 and a buffer of 1. -/
theorem queryNearestPointWithBuffer_drift :
    queryNearestPointWithBuffer [pointAt 0,pointAt (9/10),pointAt (13/10)] ⟨0,0⟩ 1 = 2 ∧
      distanceSquareTo ⟨0,0⟩ (pointAt 0)+1 < distanceSquareTo ⟨0,0⟩ (pointAt (13/10)) := by
  decide +kernel

end Apollo.Modules.Planning.DiscretizedTrajectory
