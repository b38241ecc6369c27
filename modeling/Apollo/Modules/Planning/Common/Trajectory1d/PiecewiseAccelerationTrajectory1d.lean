import Apollo.Modules.Common.Math.PathMatcher
import Mathlib.Analysis.Calculus.Deriv.Add
import Mathlib.Analysis.Calculus.Deriv.Mul
import Mathlib.Topology.Algebra.Module.ModuleTopology

/-! `PiecewiseAccelerationTrajectory1d`. The acceleration of a segment stands beside the speed at its end. -/
namespace Apollo.Modules.Planning.PiecewiseAcceleration
open Common.Math List Topology Option
variable {K : Type}

/-- The entries of `s_`, `v_`, `a_` and `t_` at one index. The four tables grow together. -/
structure Entry (K : Type) where
  (s v a t : K)
  deriving DecidableEq

variable [Field K] [LinearOrder K]

def start (startS startV : K) : List (Entry K) := [⟨startS,startV,0,0⟩]

/-- `FLAGS_numerical_epsilon` is `epsilon`; `none` is a failed check. -/
def appendSegment (epsilon : K) (entries : List (Entry K)) (segment : K × K) : Option (List (Entry K)) :=
  entries.getLast?.bind fun back =>
    let v1 := back.v+segment.1*segment.2
    let s1 := back.s+(back.v+v1)*segment.2*(1/2)
    if -epsilon ≤ v1 ∧ back.s - epsilon ≤ s1 then
      some (entries ++ [⟨max s1 back.s,v1,segment.1,back.t+segment.2⟩])
    else none

/-- The constructor and the calls of `AppendSegment`, each with an acceleration and a duration. -/
def build (epsilon startS startV : K) (segments : List (K × K)) : Option (List (Entry K)) :=
  segments.foldlM (appendSegment epsilon) (start startS startV)

def lowerBound (entries : List (Entry K)) (t : K) : Nat := entries.findIdx fun e => t ≤ e.t

def before (entries : List (Entry K)) (t : K) : Option (Entry K) :=
  match lowerBound entries t with
  | 0 => none
  | index+1 => entries[index]?

def evaluateV (entries : List (Entry K)) (t : K) : Option K :=
  (before entries t).bind fun e0 => entries[lowerBound entries t]?.map fun e1 => lerp e0.v e0.t e1.v e1.t t

def evaluateS (entries : List (Entry K)) (t : K) : Option K :=
  (before entries t).bind fun e0 => (evaluateV entries t).map fun v => (e0.v+v)*(t - e0.t)*(1/2)+e0.s

def evaluateA (entries : List (Entry K)) (t : K) : Option K := (before entries t).map Entry.a

abbrev Accepts (entries : List (Entry K)) (param : K) : Prop :=
  1 < entries.length ∧ (∀ e ∈ entries.head?, e.t ≤ param) ∧ ∀ e ∈ entries.getLast?, param ≤ e.t

def evaluate (entries : List (Entry K)) (order : Nat) (param : K) : Option K :=
  if Accepts entries param then
    match order with
    | 0 => evaluateS entries param
    | 1 => evaluateV entries param
    | 2 => evaluateA entries param
    | _ => some 0
  else none

def Follows (e0 e1 : Entry K) : Prop := e0.t < e1.t ∧ e1.v = e0.v+e1.a*(e1.t - e0.t)

variable {epsilon startS startV t : K} {segments : List (K × K)} {entries : List (Entry K)} {e0 e1 : Entry K} {k : Nat}

theorem evaluate_of_lowerBound (haccepts : Accepts entries t) (hindex : lowerBound entries t = k+1)
    (h0 : entries[k]? = some e0) (h1 : entries[k+1]? = some e1) :
    evaluate entries 0 t = some ((e0.v+lerp e0.v e0.t e1.v e1.t t)*(t - e0.t)*(1/2)+e0.s) ∧
      evaluate entries 1 t = some (lerp e0.v e0.t e1.v e1.t t) ∧ evaluate entries 2 t = some e0.a := by
  have hbefore : before entries t = some e0 := by rw [before,hindex]; exact h0
  have hv : evaluateV entries t = some (lerp e0.v e0.t e1.v e1.t t) := by
    rw [evaluateV,hbefore,hindex,bind_some,h1,map_some]
  refine ⟨?_,?_,?_⟩
  · rw [evaluate,if_pos haccepts,evaluateS,hbefore,bind_some,hv,map_some]
  · rw [evaluate,if_pos haccepts,hv]
  · rw [evaluate,if_pos haccepts,evaluateA,hbefore,map_some]

theorem lowerBound_inside (hchain : entries.IsChain Follows) (h0 : entries[k]? = some e0) (h1 : entries[k+1]? = some e1)
    (hlow : e0.t < t) (hhigh : t < e1.t) : Accepts entries t ∧ lowerBound entries t = k+1 := by
  obtain ⟨hk,rfl⟩ := List.getElem?_eq_some_iff.mp h0
  obtain ⟨hlast,rfl⟩ := List.getElem?_eq_some_iff.mp h1
  have hsorted := ((isChain_map Entry.t).mpr (hchain.imp fun _ _ h => h.1)).pairwise
  rw [pairwise_map,pairwise_iff_getElem] at hsorted
  have hle {i j : Nat} (hi : i < entries.length) (hj : j < entries.length) (hij : i ≤ j) : entries[i].t ≤ entries[j].t := by
    obtain rfl | hlt := hij.eq_or_lt
    · exact le_rfl
    · exact (hsorted i j hi hj hlt).le
  refine ⟨⟨by omega,fun e he => ?_,fun _ he => ?_⟩,(findIdx_eq hlast).mpr ⟨decide_eq_true hhigh.le,fun _ _ => ?_⟩⟩
  · obtain ⟨h,rfl⟩ := List.getElem?_eq_some_iff.mp ((head?_eq_getElem? (l := entries)).symm.trans he)
    exact (hle h hk (Nat.zero_le k)).trans hlow.le
  · obtain ⟨h,rfl⟩ := List.getElem?_eq_some_iff.mp (getLast?_eq_getElem?.symm.trans he)
    exact hhigh.le.trans (hle hlast h (by omega))
  · exact decide_eq_false (not_le.mpr ((hle (by omega) hk (by omega)).trans_lt hlow))

variable [IsStrictOrderedRing K]

theorem appendSegment_chain {next : List (Entry K)} {segment : K × K} (h : appendSegment epsilon entries segment = some next)
    (hpos : 0 < segment.2) (hchain : entries.IsChain Follows) :
    next.IsChain Follows ∧ next.length = entries.length+1 := by
  obtain ⟨_,hback,h⟩ := bind_eq_some_iff.mp h
  obtain ⟨-,h⟩ := ite_none_right_eq_some.mp h
  obtain rfl := some.inj h
  refine ⟨hchain.append (.singleton _) ?_,length_append⟩
  intro _ he _ he1
  obtain rfl := mem_unique he hback
  obtain rfl := some.inj he1
  exact ⟨lt_add_of_pos_right _ hpos,by rw [add_sub_cancel_left]⟩

theorem build_chain (h : build epsilon startS startV segments = some entries) (hpos : ∀ seg ∈ segments, 0 < seg.2) :
    entries.IsChain Follows ∧ entries.length = segments.length+1 := by
  induction segments using reverseRecOn generalizing entries with
  | nil =>
    obtain rfl := some.inj h
    exact ⟨.singleton _,rfl⟩
  | append_singleton _ segment ih =>
    obtain ⟨hpos,hlast⟩ := forall_mem_append.mp hpos
    rw [build,foldlM_append] at h
    obtain ⟨_,hmiddle,h⟩ := bind_eq_some_iff.mp h
    obtain ⟨_,hnext,hentries⟩ := bind_eq_some_iff.mp h
    obtain rfl := some.inj hentries
    obtain ⟨hchain,hlength⟩ := ih hmiddle hpos
    obtain ⟨hchain,hnext⟩ := appendSegment_chain hnext (hlast segment mem_cons_self) hchain
    exact ⟨hchain,by rw [hnext,hlength,length_append]; rfl⟩

/-- An evaluation reads only existing entries, unless it is that of the start. -/
theorem evaluate_isSome_iff (h : build epsilon startS startV segments = some entries) (hne : segments ≠ [])
    (hpos : ∀ seg ∈ segments, 0 < seg.2) (hfront : entries.head? = some e0) (hback : entries.getLast? = some e1)
    (hle : e0.t ≤ t) (ht : t ≤ e1.t) (order : Nat) : (evaluate entries order t).isSome ↔ e0.t < t ∨ 3 ≤ order := by
  have haccepts : Accepts entries t := by
    rw [Accepts,(build_chain h hpos).2,hfront,hback]
    simpa using ⟨length_pos_iff.mpr hne,hle,ht⟩
  have hfound : lowerBound entries t < entries.length :=
    findIdx_lt_length_of_exists ⟨e1,mem_of_getLast? hback,decide_eq_true ht⟩
  -- The search stops at the first entry exactly if the parameter is its time.
  have hzero : lowerBound entries t = 0 ↔ ¬ e0.t < t := by
    obtain ⟨_,rfl⟩ := head?_eq_some_iff.mp hfront
    rw [lowerBound,findIdx_cons]
    by_cases hlt : t ≤ e0.t <;> simp [hlt,not_lt.mpr,not_le.mp]
  rcases order with _ | _ | _ | order
  case succ.succ.succ =>
    have hlate : evaluate entries (order+3) t = some 0 := if_pos haccepts
    simp [hlate]
  all_goals cases hindex : lowerBound entries t with
  | zero =>
    have hbefore : before entries t = none := by rw [before,hindex]
    simp [evaluate,evaluateS,evaluateV,evaluateA,hbefore,hzero.mp hindex]
  | succ k =>
    have hlt : e0.t < t := not_not.mp fun hge => Nat.succ_ne_zero k (hindex.symm.trans (hzero.mpr hge))
    have hvalues := evaluate_of_lowerBound haccepts hindex (getElem?_eq_getElem (by omega)) (getElem?_eq_getElem (by omega))
    simp [hvalues,hlt]

theorem evaluate_isSome_iff_one :
    ∃ entries, build (1/10^6) 0 1 [(1, 1)] = some entries ∧ (evaluate entries 0 (1/2 : ℚ)).isSome := by
  have hbuild : build (1/10^6) (0 : ℚ) 1 [(1, 1)] = some [⟨0,1,0,0⟩,⟨3/2,2,1,1⟩] := by decide +kernel
  exact ⟨_,hbuild,(evaluate_isSome_iff hbuild (cons_ne_nil _ _) (by decide) rfl rfl (by norm_num) (by norm_num) 0).mpr
    (.inl (by norm_num))⟩

/-- The check accepts the start of the segment. -/
theorem evaluate_start :
    ∃ entries : List (Entry ℚ), build (1/10^6) 0 1 [(1, 1)] = some entries ∧ entries.head?.map Entry.t = some 0 ∧
      evaluate entries 1 0 = none :=
  ⟨[⟨0,1,0,0⟩,⟨3/2,2,1,1⟩],by decide +kernel,rfl,by decide +kernel⟩

/-- Interpolation has the acceleration of the segment as its slope, or none if the segment is very short. -/
def slope (e0 e1 : Entry K) : K := if |e1.t - e0.t| ≤ 1/10^6 then 0 else e1.a

theorem lerp_eq (h : Follows e0 e1) (t : K) : lerp e0.v e0.t e1.v e1.t t = e0.v+slope e0 e1*(t - e0.t) := by
  rw [lerp,slope]
  split
  · rw [zero_mul,add_zero]
  · have hne := (sub_pos.mpr h.1).ne'
    rw [h.2]
    field_simp
    ring

theorem hasDerivAt_speed (v a t0 t : ℝ) : HasDerivAt (fun x => v+a*(x - t0)) a t :=
  ((((hasDerivAt_id t).sub_const t0).const_mul a).const_add v).congr_deriv (mul_one a)

/-- The second derivative is right exactly where the acceleration of the preceding segment is the slope of the speed. -/
theorem evaluate_hasDerivAt_iff {epsilon startS startV t : ℝ} {segments : List (ℝ × ℝ)} {entries : List (Entry ℝ)}
    {e0 e1 : Entry ℝ} (h : build epsilon startS startV segments = some entries) (hpos : ∀ seg ∈ segments, 0 < seg.2)
    (h0 : entries[k]? = some e0) (h1 : entries[k+1]? = some e1) (hlow : e0.t < t) (hhigh : t < e1.t) :
    ∃ s v : ℝ → ℝ, (∀ᶠ x in 𝓝 t, evaluate entries 0 x = some (s x) ∧ evaluate entries 1 x = some (v x)) ∧
      HasDerivAt s (v t) t ∧ evaluate entries 2 t = some e0.a ∧
        (HasDerivAt v e0.a t ↔ e0.a = slope e0 e1) := by
  obtain ⟨hchain,-⟩ := build_chain h hpos
  have hfollows : Follows e0 e1 := by
    obtain ⟨_,rfl⟩ := List.getElem?_eq_some_iff.mp h0
    obtain ⟨hlast,rfl⟩ := List.getElem?_eq_some_iff.mp h1
    exact hchain.getElem k hlast
  have hvalues {x : ℝ} (hx : e0.t < x ∧ x < e1.t) :=
    have hinside := lowerBound_inside hchain h0 h1 hx.1 hx.2
    evaluate_of_lowerBound hinside.1 hinside.2 h0 h1
  have hspeed := hasDerivAt_speed e0.v (slope e0 e1) e0.t t
  refine ⟨fun x => (e0.v+(e0.v+slope e0 e1*(x - e0.t)))*(x - e0.t)*(1/2)+e0.s,
    fun x => e0.v+slope e0 e1*(x - e0.t),?_,?_,(hvalues ⟨hlow,hhigh⟩).2.2,fun ha => ha.unique hspeed,
    fun ha => ha ▸ hspeed⟩
  · filter_upwards [Ioo_mem_nhds hlow hhigh] with x hx
    obtain ⟨hs,hv,-⟩ := hvalues hx
    rw [hs,hv,lerp_eq hfollows]
    exact ⟨rfl,rfl⟩
  · refine ((((hspeed.const_add e0.v).mul ((hasDerivAt_id t).sub_const e0.t)).mul_const (1/2)).add_const e0.s).congr_deriv ?_
    simp only [id]
    ring

/-- The second of two segments with the same acceleration. -/
theorem evaluate_hasDerivAt_iff_same :
    ∃ (entries : List (Entry ℝ)) (s v : ℝ → ℝ), build (1/10^6) 0 1 [(1, 1), (1, 1)] = some entries ∧
      (∀ᶠ x in 𝓝 (3/2 : ℝ), evaluate entries 0 x = some (s x) ∧ evaluate entries 1 x = some (v x)) ∧
        HasDerivAt s (v (3/2)) (3/2) ∧ evaluate entries 2 (3/2) = some 1 ∧ HasDerivAt v 1 (3/2) := by
  have hbuild : build (1/10^6) (0 : ℝ) 1 [(1, 1), (1, 1)] = some [⟨0,1,0,0⟩,⟨3/2,2,1,1⟩,⟨4,3,1,2⟩] := by
    norm_num [build,start,appendSegment]
  obtain ⟨s,v,hnear,hs,ha,hv⟩ :=
    evaluate_hasDerivAt_iff (k := 1) (t := 3/2) hbuild (by simp) rfl rfl (by norm_num) (by norm_num)
  exact ⟨_,s,v,hbuild,hnear,hs,ha,hv.mpr (by norm_num [slope])⟩

/-- On a first segment with acceleration 1 the second derivative is given as 0. -/
theorem evaluate_first_segment :
    ∃ entries : List (Entry ℝ), build (1/10^6) 0 1 [(1, 1)] = some entries ∧ evaluate entries 2 (1/2) = some 0 ∧
      ∀ v : ℝ → ℝ, (∀ᶠ x in 𝓝 (1/2 : ℝ), evaluate entries 1 x = some (v x)) → ¬ HasDerivAt v 0 (1/2) := by
  have hbuild : build (1/10^6) (0 : ℝ) 1 [(1, 1)] = some [⟨0,1,0,0⟩,⟨3/2,2,1,1⟩] := by
    norm_num [build,start,appendSegment]
  obtain ⟨hchain,-⟩ := build_chain hbuild (by simp)
  have hvalues {x : ℝ} (hx : 0 < x ∧ x < 1) :=
    have hinside := lowerBound_inside hchain (k := 0) rfl rfl hx.1 hx.2
    evaluate_of_lowerBound hinside.1 hinside.2 rfl rfl
  refine ⟨_,hbuild,(hvalues (by norm_num)).2.2,fun v hv hderiv => ?_⟩
  have hspeed : v =ᶠ[𝓝 (1/2)] fun x => 1+1*(x - 0) := by
    filter_upwards [hv,Ioo_mem_nhds (by norm_num : (0 : ℝ) < 1/2) (by norm_num : (1/2 : ℝ) < 1)] with x hx hmem
    have hlerp := (hvalues hmem).2.1
    rw [hx,lerp_eq (by norm_num [Follows]),slope,if_neg (by norm_num)] at hlerp
    exact some.inj hlerp
  exact zero_ne_one (hderiv.unique ((hasDerivAt_speed 1 1 0 (1/2)).congr_of_eventuallyEq hspeed))

end Apollo.Modules.Planning.PiecewiseAcceleration
