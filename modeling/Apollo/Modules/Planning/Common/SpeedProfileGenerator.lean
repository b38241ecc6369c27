import Apollo.Foundation.Numerals
import Apollo.Foundation.Fuel
import Mathlib.Algebra.Order.Archimedean.Basic

/-! The creep profile of `SpeedProfileGenerator`. -/
namespace Apollo.Modules.Planning.SpeedProfileGenerator
open Foundation
variable {K : Type} [Field K] [LinearOrder K]

structure SpeedPoint (K : Type) where
  (s t v a da : K)
  deriving DecidableEq

/-- `SpeedData::AppendSpeedPoint`. `none` is a failed check. -/
def appendSpeedPoint (speedData : List (SpeedPoint K)) (p : SpeedPoint K) : Option (List (SpeedPoint K)) :=
  if ∀ back ∈ speedData.getLast?, back.t < p.t then some (speedData ++ [p]) else none

def kConstDeceleration : K := -(4/5)

def kProceedingSpeed : K := 223/100

def kDeltaT : K := 1/10

def proceedingSpeed (maxSpeed : K) : K := min maxSpeed kProceedingSpeed

def distanceToStartDeceleration (proceedingSpeed : K) : K := proceedingSpeed*proceedingSpeed/kConstDeceleration/2

structure CreepState (K : Type) where
  isConstDecelerationMode : Bool
  (t s v : K)
  speedData : List (SpeedPoint K)

def creepStep (distance proceedingSpeed : K) (c : CreepState K) : Option (CreepState K) :=
  let t := c.t+kDeltaT
  if c.isConstDecelerationMode then
    let vNew := max 0 (c.v+kConstDeceleration*t)
    (appendSpeedPoint c.speedData ⟨c.s,c.t,c.v,kConstDeceleration,0⟩).map fun speedData =>
      ⟨true,t,c.s+kDeltaT*(c.v+vNew)/2,vNew,speedData⟩
  else
    let s := c.s+kDeltaT*c.v
    (appendSpeedPoint c.speedData ⟨c.s,c.t,c.v,0,0⟩).map fun speedData =>
      ⟨distance - s < distanceToStartDeceleration proceedingSpeed,t,s,c.v,speedData⟩

def creepLoop (distance proceedingSpeed : K) : Nat → CreepState K → Option (List (SpeedPoint K))
  | 0, _ => none
  | fuel+1, c =>
    if c.s < distance ∧ 0 < c.v then
      (creepStep distance proceedingSpeed c).bind (creepLoop distance proceedingSpeed fuel)
    else some c.speedData

def generateFixedDistanceCreepProfile (distance maxSpeed : K) (fuel : Nat) : Option (List (SpeedPoint K)) :=
  let speed := proceedingSpeed maxSpeed
  creepLoop distance speed fuel ⟨distance < distanceToStartDeceleration speed,0,0,speed,[]⟩

/-- The last of the steps before the distance. -/
theorem exists_last_step [Archimedean K] {distance step : K} (hstep : 0 < step) (hpos : 0 < distance) :
    ∃ n : Nat, n*step < distance ∧ distance ≤ (n+1)*step := by
  have hex := Archimedean.arch distance hstep
  have hspec := Nat.find_spec hex
  obtain ⟨n,hn⟩ : ∃ n, Nat.find hex = n+1 := Nat.exists_eq_succ_of_ne_zero fun h => by
    rw [h,zero_nsmul] at hspec
    exact hpos.not_ge hspec
  have hmin := not_le.mp (Nat.find_min hex (m := n) (by omega))
  rw [hn] at hspec
  exact ⟨n,by simpa using hmin,by simpa using hspec⟩

variable [IsStrictOrderedRing K] {distance maxSpeed : K}

theorem distanceToStartDeceleration_nonpos (v : K) : distanceToStartDeceleration v ≤ 0 := by
  rw [distanceToStartDeceleration,kConstDeceleration,div_neg]
  linarith [div_nonneg (mul_self_nonneg v) (by norm_num : (0 : K) ≤ 4/5)]

/-- A state in which the loop has not decelerated: it has gone `k` steps, with a point before each of them. -/
structure Cruising (distance speed : K) (k : Nat) (c : CreepState K) : Prop where
  mode : c.isConstDecelerationMode = true → distance ≤ c.s
  keeps : c.v = speed
  at_step : c.s = k*(kDeltaT*speed)
  before : ∀ back ∈ c.speedData.getLast?, back.t < c.t
  points : ∀ p ∈ c.speedData, p.s < distance ∧ p.v = speed ∧ ∃ i : Nat, p.s = i*(kDeltaT*speed)
  all : ∀ i < k, ∃ p ∈ c.speedData, p.s = i*(kDeltaT*speed)

theorem Cruising.step {v : K} {k : Nat} {c : CreepState K} (hc : Cruising distance v k c) (hlt : c.s < distance) :
    ∃ next, creepStep distance v c = some next ∧ Cruising distance v (k+1) next := by
  have hmode : c.isConstDecelerationMode = false := by
    cases h : c.isConstDecelerationMode with
    | false => rfl
    | true => exact absurd (hc.mode h) (not_le.mpr hlt)
  refine ⟨⟨distance - (c.s+kDeltaT*c.v) < distanceToStartDeceleration v,c.t+kDeltaT,c.s+kDeltaT*c.v,c.v,
    c.speedData ++ [⟨c.s,c.t,c.v,0,0⟩]⟩,?_,⟨fun h => ?_,hc.keeps,?_,?_,?_,fun i hi => ?_⟩⟩
  · rw [creepStep,hmode,if_neg Bool.false_ne_true,appendSpeedPoint,if_pos hc.before,Option.map_some]
  · -- The mode changes only when a negative distance is left.
    linarith [of_decide_eq_true h,distanceToStartDeceleration_nonpos v]
  · simp only [hc.at_step,hc.keeps]
    push_cast
    ring
  · simp [kDeltaT]
  · simp only [List.mem_append,List.mem_singleton]
    rintro p (hp | rfl)
    · exact hc.points p hp
    · exact ⟨hlt,hc.keeps,k,hc.at_step⟩
  · rcases Nat.lt_succ_iff_lt_or_eq.mp hi with hi | rfl
    · obtain ⟨p,hp,hs⟩ := hc.all i hi
      exact ⟨p,List.mem_append_left _ hp,hs⟩
    · exact ⟨_,List.mem_append_right _ (List.mem_singleton_self _),hc.at_step⟩

/-- The loop ends behind the last step before the distance. -/
theorem Cruising.returns {v : K} (hv : 0 < v) {n : Nat} (hbefore : n*(kDeltaT*v) < distance)
    (hend : distance ≤ (n+1)*(kDeltaT*v)) {k : Nat} {c : CreepState K} (hk : k ≤ n+1) (hc : Cruising distance v k c) :
    ∃ last, Returns (fun fuel => creepLoop distance v fuel c) last.speedData ∧ Cruising distance v (n+1) last := by
  have hstep : 0 < kDeltaT*v := mul_pos (by norm_num [kDeltaT]) hv
  induction hm : n+1 - k generalizing k c with
  | zero =>
    obtain rfl : k = n+1 := by omega
    refine ⟨c,(returns_const _).succ fun _ => if_neg fun h => ?_,hc⟩
    have hs := hc.at_step
    push_cast at hs
    linarith [h.1]
  | succ m ih =>
    have hkn : (k : K) ≤ n := by exact_mod_cast (by omega : k ≤ n)
    have hlt : c.s < distance := hc.at_step ▸ (mul_le_mul_of_nonneg_right hkn hstep.le).trans_lt hbefore
    obtain ⟨_,hnext,hcruising⟩ := hc.step hlt
    obtain ⟨last,hlast,hall⟩ := ih (by omega) hcruising (by omega)
    refine ⟨last,hlast.succ fun fuel => ?_,hall⟩
    rw [creepLoop,if_pos ⟨hlt,hc.keeps ▸ hv⟩,hnext,Option.bind_some]

/-- The profile ends before the distance, at full speed. The braking distance is left at its points exactly if it is
left at the last step before the distance, after `n` steps. -/
theorem generateFixedDistanceCreepProfile_iff [Archimedean K] (hspeed : 0 < maxSpeed)
    (hdistance : proceedingSpeed maxSpeed^2/(8/5) ≤ distance) : ∃ points n : _,
      Returns (generateFixedDistanceCreepProfile distance maxSpeed) points ∧
      (∀ p ∈ points, p.s < distance ∧ p.v = proceedingSpeed maxSpeed) ∧
      ((n : Nat)*(kDeltaT*proceedingSpeed maxSpeed) < distance ∧ distance ≤ (n+1)*(kDeltaT*proceedingSpeed maxSpeed)) ∧
      ((∀ p ∈ points, p.v^2/(8/5) ≤ distance - p.s+kDeltaT*proceedingSpeed maxSpeed) ↔
        proceedingSpeed maxSpeed^2/(8/5) ≤ distance - n*(kDeltaT*proceedingSpeed maxSpeed)+kDeltaT*proceedingSpeed maxSpeed) := by
  have hv : 0 < proceedingSpeed maxSpeed := lt_min hspeed (by norm_num [kProceedingSpeed])
  have hstep : 0 < kDeltaT*proceedingSpeed maxSpeed := mul_pos (by norm_num [kDeltaT]) hv
  have hpos : 0 < distance := (div_pos (pow_pos hv 2) (by norm_num)).trans_le hdistance
  obtain ⟨n,hbefore,hend⟩ := exists_last_step hstep hpos
  obtain ⟨last,hreturns,hall⟩ := Cruising.returns hv hbefore hend (Nat.zero_le _)
    (c := ⟨distance < distanceToStartDeceleration (proceedingSpeed maxSpeed),0,0,proceedingSpeed maxSpeed,[]⟩)
    ⟨fun h => (of_decide_eq_true h).le.trans (distanceToStartDeceleration_nonpos _),rfl,by simp,nofun,nofun,nofun⟩
  refine ⟨last.speedData,n,hreturns,fun p hp => ⟨(hall.points p hp).1,(hall.points p hp).2.1⟩,⟨hbefore,hend⟩,
    fun h => ?_,fun h p hp => ?_⟩
  · obtain ⟨p,hp,hs⟩ := hall.all n n.lt_succ_self
    simpa only [(hall.points p hp).2.1,hs] using h p hp
  · -- A point is at one of the steps before the distance, so no more than `n` steps on.
    obtain ⟨hlt,hpv,i,hi⟩ := hall.points p hp
    have hle : i ≤ n := by
      have hin : (i : K) < n+1 := lt_of_mul_lt_mul_right (hi ▸ hlt.trans_le hend) hstep.le
      exact Nat.lt_succ_iff.mp (by exact_mod_cast hin)
    have hs : p.s ≤ n*(kDeltaT*proceedingSpeed maxSpeed) :=
      hi ▸ mul_le_mul_of_nonneg_right (by exact_mod_cast hle) hstep.le
    rw [hpv]
    linarith

/-- Four centimetres at 0.2 m/s. -/
theorem generateFixedDistanceCreepProfile_iff_slow :
    ∃ points n : _, Returns (generateFixedDistanceCreepProfile (1/25 : ℚ) (1/5)) points ∧
      (∀ p ∈ points, p.s < 1/25 ∧ p.v = proceedingSpeed (1/5)) ∧
      ((n : Nat)*(kDeltaT*proceedingSpeed (1/5 : ℚ)) < 1/25 ∧ 1/25 ≤ (n+1)*(kDeltaT*proceedingSpeed (1/5 : ℚ))) ∧
      ((∀ p ∈ points, p.v^2/(8/5) ≤ 1/25 - p.s+kDeltaT*proceedingSpeed (1/5)) ↔
        proceedingSpeed (1/5 : ℚ)^2/(8/5) ≤ 1/25 - n*(kDeltaT*proceedingSpeed (1/5))+kDeltaT*proceedingSpeed (1/5)) :=
  generateFixedDistanceCreepProfile_iff (by norm_num) (by norm_num [proceedingSpeed,kProceedingSpeed])

/-- One metre at 1 m/s: at 0.9 m the speed is still the same. -/
theorem generateFixedDistanceCreepProfile_full_speed :
    ∃ points, generateFixedDistanceCreepProfile (1 : ℚ) 1 11 = some points ∧
      proceedingSpeed (1 : ℚ)^2/(8/5) ≤ 1 ∧ ∃ p ∈ points, 1 - p.s+kDeltaT*proceedingSpeed 1 < p.v^2/(8/5) := by
  refine ⟨(List.range 10).map fun i : Nat => ⟨i/10,i/10,1,0,0⟩,?_,?_,?_⟩ <;> decide +kernel

end Apollo.Modules.Planning.SpeedProfileGenerator
