import Apollo.Foundation.Numerals
import Apollo.Foundation.FallibleList
import Mathlib.Data.Rat.Floor

/-! The end conditions for cruising. -/
namespace Apollo.Modules.Planning.EndConditionSampler
open Foundation List
variable {K : Type} [Field K] [LinearOrder K]

/-- The flags that the sampler reads, with the signs that they need. -/
structure Flags (K : Type) [Field K] [LinearOrder K] where
  longitudinalAccelerationLowerBound : K
  longitudinalAccelerationUpperBound : K
  numVelocitySample : UInt64
  minVelocitySampleGap : K
  trajectoryTimeLength : K
  polynomialMinimalParam : K
  lower_neg : longitudinalAccelerationLowerBound < 0
  upper_nonneg : 0 ≤ longitudinalAccelerationUpperBound
  gap_pos : 0 < minVelocitySampleGap
  length_nonneg : 0 ≤ trajectoryTimeLength
  minimal_nonneg : 0 ≤ polynomialMinimalParam

variable (flags : Flags K) (v refCruiseSpeed : K)

/-- `VUpper` of the feasible region for an initial speed. -/
def vUpper (t : K) : K := v+flags.longitudinalAccelerationUpperBound*t

def tAtZeroSpeed : K := v/(-flags.longitudinalAccelerationLowerBound)

def vLower (t : K) : K := if t < tAtZeroSpeed flags v then v+flags.longitudinalAccelerationLowerBound*t else 0

def timeSamples : List K :=
  flags.polynomialMinimalParam::(List.range 8).map fun i => flags.trajectoryTimeLength*((i+1 : Nat)/8)

abbrev Condition (K : Type) := (K × K × K) × K

/-- The samples of one time: as many as configured at most, with speeds of the feasible region. -/
def Feasible (time : K) (samples : List (Condition K)) : Prop :=
  samples.length ≤ flags.numVelocitySample.toNat ∧
    ∀ c ∈ samples, c.2 = time ∧ vLower flags v c.2 ≤ c.1.2.1 ∧ c.1.2.1 ≤ vUpper flags v c.2

variable [IsStrictOrderedRing K] {flags v refCruiseSpeed} {time : K}

theorem vLower_spec (hv : 0 ≤ v) (ht : 0 ≤ time) : 0 ≤ vLower flags v time ∧ vLower flags v time ≤ vUpper flags v time := by
  have hupper := mul_nonneg flags.upper_nonneg ht
  rw [vLower,vUpper]
  split
  case isTrue hlt =>
    rw [tAtZeroSpeed,lt_div_iff₀ (neg_pos.mpr flags.lower_neg)] at hlt
    have hlower := mul_nonpos_of_nonpos_of_nonneg flags.lower_neg.le ht
    exact ⟨by linarith,by linarith⟩
  case isFalse => exact ⟨le_rfl,add_nonneg hv hupper⟩

theorem timeSamples_nonneg (ht : time ∈ timeSamples flags) : 0 ≤ time := by
  rcases mem_cons.mp ht with rfl | ht
  · exact flags.minimal_nonneg
  · obtain ⟨i,-,rfl⟩ := mem_map.mp ht
    exact mul_nonneg flags.length_nonneg (by positivity)

/-- A speed on the way from the smaller to the larger one. -/
theorem between {lower upper : K} (h : lower ≤ upper) {i n : Nat} (hi : i ≤ n) (hn : 0 < n) :
    lower ≤ lower+(upper - lower)/n*i ∧ lower+(upper - lower)/n*i ≤ upper := by
  have hpos : (0 : K) < n := Nat.cast_pos.mpr hn
  have hrange := sub_nonneg.mpr h
  have hshare : (upper - lower)/n*i ≤ (upper - lower)/n*n :=
    mul_le_mul_of_nonneg_left (Nat.cast_le.mpr hi) (div_nonneg hrange hpos.le)
  rw [div_mul_cancel₀ _ hpos.ne'] at hshare
  exact ⟨le_add_of_nonneg_right (by positivity),by linarith⟩

variable [FloorRing K]

/-- `static_cast<size_t>`, which is undefined for a number that has no value of that type. -/
def toSize (x : K) : Option Nat := if -1 < x ∧ x < 2^64 then some ⌊x⌋₊ else none

/-- The body of the loop over the times. -/
def sampleAt (flags : Flags K) (v refCruiseSpeed time : K) : Option (List (Condition K)) :=
  let upper := min (vUpper flags v time) refCruiseSpeed
  let lower := vLower flags v time
  (toSize ((upper - lower)/flags.minVelocitySampleGap)).map fun size =>
    let numOfMidPoints := min (flags.numVelocitySample - 2).toNat size
    ((0, lower, 0), time)::((0, upper, 0), time)::(List.range numOfMidPoints).map fun i =>
      ((0, lower+(upper - lower)/(numOfMidPoints+1 : Nat)*(i+1 : Nat), 0), time)

/-- `none` is a failed check or an undefined conversion. -/
def sampleLonEndConditionsForCruising (flags : Flags K) (v refCruiseSpeed : K) : Option (List (Condition K)) :=
  if 1 < flags.numVelocitySample ∧ 0 ≤ v then
    ((timeSamples flags).mapM (sampleAt flags v refCruiseSpeed)).map flatten
  else none

theorem sampleAt_feasible (hv : 0 ≤ v) (ht : 0 ≤ time) (hnum : 1 < flags.numVelocitySample)
    (hcruise : vLower flags v time ≤ refCruiseSpeed)
    (hsize : (min (vUpper flags v time) refCruiseSpeed - vLower flags v time)/flags.minVelocitySampleGap < 2^64) :
    ∃ samples, sampleAt flags v refCruiseSpeed time = some samples ∧ Feasible flags v time samples := by
  obtain ⟨_,hle⟩ := @vLower_spec _ _ _ flags v _ time hv ht
  have hrange := le_min hle hcruise
  have hquotient := div_nonneg (sub_nonneg.mpr hrange) flags.gap_pos.le
  refine ⟨_,by rw [sampleAt,toSize,if_pos ⟨by linarith,hsize⟩,Option.map_some],?_,?_⟩
  · have htwo : 1 < flags.numVelocitySample.toNat := UInt64.lt_iff_toNat_lt.mp hnum
    have hsub : (flags.numVelocitySample - 2).toNat = flags.numVelocitySample.toNat - 2 :=
      UInt64.toNat_sub_of_le _ _ (UInt64.lt_iff_toNat_lt.mp hnum)
    rw [length_cons,length_cons,length_map,length_range,hsub]
    omega
  · simp only [mem_cons,mem_map,mem_range]
    rintro c (rfl | rfl | ⟨i,hi,rfl⟩)
    · exact ⟨rfl,le_rfl,hle⟩
    · exact ⟨rfl,hrange,min_le_left _ _⟩
    · obtain ⟨hlow,hhigh⟩ := between hrange (Nat.succ_le_succ hi.le) (Nat.succ_pos _)
      exact ⟨rfl,hlow,hhigh.trans (min_le_left _ _)⟩

omit [IsStrictOrderedRing K] in
/-- The largest speed of a time is sampled. -/
theorem mem_sampleAt {samples : List (Condition K)} (h : sampleAt flags v refCruiseSpeed time = some samples) :
    (min (vUpper flags v time) refCruiseSpeed - vLower flags v time)/flags.minVelocitySampleGap < 2^64 ∧
      ((0, min (vUpper flags v time) refCruiseSpeed, 0), time) ∈ samples := by
  obtain ⟨_,hsize,rfl⟩ := Option.map_eq_some_iff.mp h
  exact ⟨(Option.ite_none_right_eq_some.mp hsize).1.2,mem_cons_of_mem _ mem_cons_self⟩

/-- Every time has feasible samples exactly if the speed of the cruise is not below the smallest one of any time and the
conversions are defined. -/
theorem sampleLonEndConditionsForCruising_feasible_iff (hv : 0 ≤ v) (hnum : 1 < flags.numVelocitySample) :
    (∃ samples : K → List (Condition K),
      sampleLonEndConditionsForCruising flags v refCruiseSpeed = some ((timeSamples flags).flatMap samples) ∧
        ∀ time ∈ timeSamples flags, Feasible flags v time (samples time)) ↔
      ∀ time ∈ timeSamples flags, vLower flags v time ≤ refCruiseSpeed ∧
        (min (vUpper flags v time) refCruiseSpeed - vLower flags v time)/flags.minVelocitySampleGap < 2^64 := by
  rw [sampleLonEndConditionsForCruising,if_pos ⟨hnum,hv⟩]
  constructor
  · rintro ⟨samples,hsamples,hfeasible⟩ time ht
    obtain ⟨lists,hlists,hflat⟩ := Option.map_eq_some_iff.mp hsamples
    obtain ⟨list,hlist,hat⟩ := exists_of_mem_mapM hlists ht
    obtain ⟨hsize,hmem⟩ := mem_sampleAt hat
    -- The sample stands among those of its own time, so its speed is feasible there.
    have hflatten := hflat ▸ mem_flatten_of_mem hlist hmem
    obtain ⟨other,hother,hmem⟩ := mem_flatMap.mp hflatten
    obtain ⟨-,hlower,-⟩ := (hfeasible other hother).2 _ hmem
    exact ⟨hlower.trans (min_le_right _ _),hsize⟩
  · intro hall
    have hall (time : K) (ht : time ∈ timeSamples flags) :=
      sampleAt_feasible hv (timeSamples_nonneg ht) hnum (hall time ht).1 (hall time ht).2
    choose! samples hsamples hfeasible using hall
    exact ⟨samples,by rw [mapM_eq_map hsamples]; rfl,hfeasible⟩

/-- The values of `planning_gflags`. -/
def defaults : Flags ℚ := ⟨-9/2,4,6,1,8,1/100,by norm_num,by norm_num,by norm_num,by norm_num,by norm_num⟩

/-- A cruise speed far above every `VUpper`. -/
theorem sampleLonEndConditionsForCruising_feasible_iff_fast : ∃ samples,
    sampleLonEndConditionsForCruising defaults 5 (10^30) = some ((timeSamples defaults).flatMap samples) ∧
      ∀ time ∈ timeSamples defaults, Feasible defaults 5 time (samples time) :=
  (sampleLonEndConditionsForCruising_feasible_iff (by norm_num) (by decide)).mpr (by decide +kernel)

/-- At 1 m/s and a cruise of 0.5 m/s one speed is below what full deceleration reaches. -/
theorem sampleLonEndConditionsForCruising_slow_cruise :
    ((0, 1/2, 0), 1/100) ∈ (sampleLonEndConditionsForCruising defaults 1 (1/2)).getD [] ∧
      1/2 < vLower defaults 1 (1/100) := by
  decide +kernel

end Apollo.Modules.Planning.EndConditionSampler
