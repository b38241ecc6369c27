import Apollo.Foundation.Fuel
import Apollo.Modules.Planning.OpenSpace.CoarseTrajectoryGenerator.HybridAStar

/-! The poses that `ReedShepp::GenerateLocalConfigurations` interpolates, with exact arithmetic. -/
namespace Apollo.Modules.Planning.ReedShepp
open Foundation Common.Math List

inductive SegType
  | straight
  | left
  | right

structure Segment (K : Type) where
  type : SegType
  length : K

/-- The variables between two pieces. The length before the first piece is 0. -/
structure Cursor (K : Type) where
  ll : K
  last : K
  origin : Pose K

variable {K : Type} [Field K] [LinearOrder K]

def start : Cursor K := ⟨0,0,⟨0,0,0⟩⟩

/-- The inner loop: the offsets, and `pd` at its end. -/
def offsets (d l : K) : Nat → K → Option (List K × K)
  | 0, _ => none
  | fuel+1, pd => if |pd| ≤ |l| then (offsets d l fuel (pd+d)).map fun r => (pd::r.1, r.2) else some ([], pd)

variable (m : Cmath K) (maxKappa : K)

def interpolation (pd : K) (type : SegType) (o : Pose K) : Pose K :=
  let turn (ldy phi : K) : Pose K :=
    let ldx := m.sin pd/maxKappa
    ⟨o.x+(m.cos (-o.phi)*ldx+m.sin (-o.phi)*ldy),o.y+(-m.sin (-o.phi)*ldx+m.cos (-o.phi)*ldy),phi⟩
  match type with
  | .straight => ⟨o.x+pd/maxKappa*m.cos o.phi,o.y+pd/maxKappa*m.sin o.phi,o.phi⟩
  | .left => turn ((1 - m.cos pd)/maxKappa) (o.phi+pd)
  | .right => turn ((1 - m.cos pd)/(-maxKappa)) (o.phi - pd)

variable (stepScaled : K)

/-- The body of the loop over the pieces, with the offset of each pose. -/
def piece (fuel : Nat) (c : Cursor K) (seg : Segment K) : Option (Cursor K × List (K × Pose K)) :=
  let d := if 0 < seg.length then stepScaled else -stepScaled
  let pose (pd : K) := interpolation m maxKappa pd seg.type c.origin
  (offsets d seg.length fuel (if 0 < c.last*seg.length then -d - c.ll else d - c.ll)).map fun r =>
    (⟨seg.length - r.2 - d,seg.length,pose seg.length⟩, (r.1 ++ [seg.length]).map fun pd => (pd, pose pd))

def pieces (fuel : Nat) : Cursor K → List (Segment K) → Option (List (List (K × Pose K)))
  | _, [] => some []
  | c, seg::segs => (piece m maxKappa stepScaled fuel c seg).bind fun r =>
      (pieces fuel r.1 segs).map (r.2 :: ·)

/-- Every pose is on its piece, and the last one is the start of the next piece. -/
def Along : Pose K → List (Segment K) → List (List (K × Pose K)) → Prop
  | _, [], [] => True
  | o, seg::segs, poses::rest =>
    (∀ x ∈ poses, 0 < x.1*seg.length ∧ |x.1| ≤ |seg.length| ∧ x.2 = interpolation m maxKappa x.1 seg.type o) ∧
    ∃ x, poses.getLast? = some x ∧ Along x.2 segs rest
  | _, _, _ => False

def direction (l : K) : K := if 0 < l then stepScaled else -stepScaled

variable [FloorRing K]

/-- The first offset of the next piece: how far the offsets of a piece, of which `pd` is the first, go beyond its end. -/
def carry (pd l : K) : K :=
  if |l| < |pd| then pd - l else pd+(⌊(|l| - |pd|)/stepScaled⌋₊+1 : Nat)*direction stepScaled l - l

/-- The first offset of each piece is in its direction, or it is left out as the piece is shorter. -/
def Fits : K → List (Segment K) → Prop
  | _, [] => True
  | pd, seg::segs => (|seg.length| < |pd| ∨ 0 < pd*seg.length) ∧ Fits (carry stepScaled pd seg.length) segs

variable {m maxKappa stepScaled} {c : Cursor K} {seg : Segment K} {segs : List (Segment K)} {d l pd : K}

omit [FloorRing K] in
theorem pieces_cons_iff {r : Cursor K × List (K × Pose K)} (h : Returns (piece m maxKappa stepScaled · c seg) r)
    {poses : List (List (K × Pose K))} : Returns (pieces m maxKappa stepScaled · c (seg::segs)) poses ↔
      ∃ rest, poses = r.2::rest ∧ Returns (pieces m maxKappa stepScaled · r.1 segs) rest := by
  constructor
  · rintro ⟨n,hn⟩
    obtain ⟨k,hk⟩ := h
    have hall (fuel : Nat) (hf : max n k ≤ fuel) :
        ∃ rest, poses = r.2::rest ∧ pieces m maxKappa stepScaled fuel r.1 segs = some rest := by
      have hposes := hn fuel (le_of_max_le_left hf)
      simp only [pieces,hk fuel (le_of_max_le_right hf),Option.bind_some] at hposes
      obtain ⟨rest,hrest,heq⟩ := Option.map_eq_some_iff.mp hposes
      exact ⟨rest,heq.symm,hrest⟩
    obtain ⟨rest,rfl,-⟩ := hall _ le_rfl
    refine ⟨rest,rfl,max n k,fun fuel hf => ?_⟩
    obtain ⟨_,heq,hrest⟩ := hall fuel hf
    exact hrest.trans (congrArg some (cons.inj heq).2.symm)
  · rintro ⟨rest,rfl,hrest⟩
    exact h.bind (hrest.map _)

omit [FloorRing K] in
theorem direction_eq [IsStrictOrderedRing K] {l l' : K} (hl : l ≠ 0) (hl' : l' ≠ 0) :
    direction stepScaled l' = if 0 < l*l' then direction stepScaled l else -direction stepScaled l := by
  simp only [direction]
  rcases lt_or_gt_of_ne hl with h | h <;> rcases lt_or_gt_of_ne hl' with h' | h'
  · simp [h.not_gt,h'.not_gt,mul_pos_of_neg_of_neg h h']
  · simp [h.not_gt,h',(mul_neg_of_neg_of_pos h h').not_gt]
  · simp [h,h'.not_gt,(mul_neg_of_pos_of_neg h h').not_gt]
  · simp [h,h',mul_pos h h']

variable [IsStrictOrderedRing K]

omit [FloorRing K] in
theorem offset_direction (hpd : 0 < pd*d) (j : Nat) : 0 < (pd+j*d)*d ∧ |pd+j*d| = |pd|+j*|d| := by
  have hj : (0 : K) ≤ j := j.cast_nonneg
  refine ⟨by nlinarith [mul_self_nonneg d],?_⟩
  rcases pos_and_pos_or_neg_and_neg_of_mul_pos hpd with ⟨hp,hd⟩ | ⟨hp,hd⟩
  · rw [abs_of_pos hp,abs_of_pos hd,abs_of_pos (add_pos_of_pos_of_nonneg hp (mul_nonneg hj hd.le))]
  · have hneg := add_neg_of_neg_of_nonpos hp (mul_nonpos_of_nonneg_of_nonpos hj hd.le)
    rw [abs_of_neg hp,abs_of_neg hd,abs_of_neg hneg]
    ring

omit [FloorRing K] in
/-- In the direction of the step the loop ends behind the piece. -/
theorem offsets_returns (n : Nat) (hpd : 0 < pd*d) (hmin : ∀ j < n, |pd|+j*|d| ≤ |l|) (hn : |l| < |pd|+n*|d|) :
    Returns (offsets d l · pd) ((range n).map fun j : Nat => pd+j*d, pd+n*d) := by
  induction n generalizing pd with
  | zero =>
    rw [Nat.cast_zero,zero_mul,add_zero] at hn
    simpa using (returns_const ([], pd)).succ fun _ => if_neg (not_le.mpr hn)
  | succ n ih =>
    obtain ⟨hnext,hsum⟩ := offset_direction hpd 1
    rw [Nat.cast_one,one_mul,one_mul] at hsum
    rw [Nat.cast_one,one_mul] at hnext
    have hshift (j : Nat) : pd+d+j*d = pd+(j+1 : Nat)*d := by
      push_cast
      ring
    have hrest := ih hnext (fun j hj => by have := hmin (j+1) (by omega); push_cast at this; linarith)
      (by push_cast at hn; linarith)
    simp only [hshift] at hrest
    have hfirst := hmin 0 n.succ_pos
    rw [Nat.cast_zero,zero_mul,add_zero] at hfirst
    have hlist : (range (n+1)).map (fun j : Nat => pd+j*d) = pd::(range n).map fun j : Nat => pd+(j+1 : Nat)*d := by
      simp [range_succ_eq_map,Function.comp_def]
    rw [hlist]
    exact (hrest.map fun r => (pd::r.1, r.2)).succ fun _ => if_pos hfirst

/-- A piece whose first offset fits has its poses, and leaves the offset `carry` for the next one. -/
theorem piece_returns (hstep : 0 < stepScaled) (hl : l ≠ 0) (hfits : |l| < |pd| ∨ 0 < pd*l) :
    ∃ os, Returns (offsets (direction stepScaled l) l · pd) (os, carry stepScaled pd l+l) ∧
      ∀ o ∈ os, 0 < o*l ∧ |o| ≤ |l| := by
  rw [carry]
  split
  case isTrue hlt =>
    refine ⟨[],?_,by simp⟩
    rw [sub_add_cancel]
    exact (returns_const _).succ fun _ => if_neg (not_le.mpr hlt)
  case isFalse hle =>
    have hpos := hfits.resolve_left hle
    have hsame : ∃ k > 0, direction stepScaled l = k*l := by
      rw [direction]
      split
      case isTrue h => exact ⟨stepScaled/l,div_pos hstep h,by field_simp⟩
      case isFalse h =>
        have hneg := lt_of_le_of_ne (not_lt.mp h) hl
        exact ⟨-stepScaled/l,div_pos_of_neg_of_neg (neg_lt_zero.mpr hstep) hneg,by field_simp⟩
    obtain ⟨k,hk,hd⟩ := hsame
    have habs : |direction stepScaled l| = stepScaled := by
      rw [direction]
      split
      · exact abs_of_pos hstep
      · rw [abs_neg,abs_of_pos hstep]
    have hpd : 0 < pd*direction stepScaled l := by
      rw [hd,mul_left_comm]
      exact mul_pos hk hpos
    have hquotient : 0 ≤ (|l| - |pd|)/stepScaled := div_nonneg (sub_nonneg.mpr (not_lt.mp hle)) hstep.le
    rw [sub_add_cancel]
    refine ⟨_,offsets_returns _ hpd (fun j hj => ?_) ?_,fun o ho => ?_⟩
    · have hj : (j : K) ≤ (|l| - |pd|)/stepScaled :=
        (Nat.le_floor_iff hquotient).mp (Nat.lt_succ_iff.mp hj)
      rw [le_div_iff₀ hstep] at hj
      rw [habs]
      linarith
    · have hlt := Nat.lt_floor_add_one ((|l| - |pd|)/stepScaled)
      rw [div_lt_iff₀ hstep] at hlt
      rw [habs]
      push_cast
      linarith
    · obtain ⟨j,hj,rfl⟩ := mem_map.mp ho
      obtain ⟨hdir,hsum⟩ := offset_direction hpd j
      refine ⟨pos_of_mul_pos_right (by rwa [mul_left_comm,← hd]) hk.le,?_⟩
      have hj : (j : K) ≤ (|l| - |pd|)/stepScaled :=
        (Nat.le_floor_iff hquotient).mp (Nat.lt_succ_iff.mp (mem_range.mp hj))
      rw [le_div_iff₀ hstep] at hj
      rw [hsum,habs]
      linarith

theorem pieces_iff (hstep : 0 < stepScaled) (hne : ∀ seg ∈ segs, seg.length ≠ 0)
    (hfirst : ∀ seg ∈ segs.head?, (if 0 < c.last*seg.length then -direction stepScaled seg.length - c.ll
      else direction stepScaled seg.length - c.ll) = pd) :
    (∃ poses, Returns (pieces m maxKappa stepScaled · c segs) poses ∧ Along m maxKappa c.origin segs poses) ↔
      Fits stepScaled pd segs := by
  induction segs generalizing c pd with
  | nil => exact iff_of_true ⟨[],returns_const _,trivial⟩ trivial
  | cons seg segs ih =>
    obtain ⟨hl,hne⟩ := forall_mem_cons.mp hne
    have hfirst := hfirst seg rfl
    by_cases hfits : |seg.length| < |pd| ∨ 0 < pd*seg.length
    · obtain ⟨os,hos,hall⟩ := piece_returns hstep hl hfits
      let pose (pd : K) := interpolation m maxKappa pd seg.type c.origin
      have hpiece : Returns (piece m maxKappa stepScaled · c seg)
          (⟨seg.length - (carry stepScaled pd seg.length+seg.length) - direction stepScaled seg.length,seg.length,
            pose seg.length⟩, (os ++ [seg.length]).map fun pd => (pd, pose pd)) := by
        have hmap := hos.map fun r => ((⟨seg.length - r.2 - direction stepScaled seg.length,seg.length,
          pose seg.length⟩ : Cursor K), (r.1 ++ [seg.length]).map fun pd => (pd, pose pd))
        rw [← hfirst] at hmap
        exact hfirst ▸ hmap
      have hon : ∀ x ∈ (os ++ [seg.length]).map fun pd => (pd, pose pd), 0 < x.1*seg.length ∧
          |x.1| ≤ |seg.length| ∧ x.2 = interpolation m maxKappa x.1 seg.type c.origin := by
        intro x hx
        obtain ⟨o,ho,rfl⟩ := mem_map.mp hx
        rcases mem_append.mp ho with ho | ho
        · exact ⟨(hall o ho).1,(hall o ho).2,rfl⟩
        · rw [mem_singleton.mp ho]
          exact ⟨mul_self_pos.mpr hl,le_rfl,rfl⟩
      rw [Fits,and_iff_right hfits,← ih (c := ⟨_,seg.length,pose seg.length⟩) hne fun next hnext => ?_]
      · simp only [pieces_cons_iff hpiece]
        constructor
        · rintro ⟨_,⟨rest,rfl,hrest⟩,-,x,hx,halong⟩
          rw [map_append,map_singleton,getLast?_concat] at hx
          obtain rfl := Option.some_inj.mp hx
          exact ⟨rest,hrest,halong⟩
        · rintro ⟨rest,hrest,halong⟩
          exact ⟨_,⟨rest,rfl,hrest⟩,hon,_,by rw [map_append,map_singleton,getLast?_concat],halong⟩
      · rw [direction_eq hl (hne next (mem_of_mem_head? hnext))]
        split
        all_goals ring
    · refine iff_of_false ?_ fun h => hfits h.1
      rintro ⟨_,⟨n,hn⟩,halong⟩
      obtain ⟨r,hr,hn⟩ := Option.bind_eq_some_iff.mp (hn (n+1) n.le_succ)
      obtain ⟨rest,-,rfl⟩ := Option.map_eq_some_iff.mp hn
      obtain ⟨os,hos,rfl⟩ := Option.map_eq_some_iff.mp hr
      rw [not_or,not_lt] at hfits
      -- The piece is long enough for its first offset, which goes the other way.
      have hos : offsets (direction stepScaled seg.length) seg.length (n+1) pd = some os := hfirst ▸ hos
      rw [offsets,if_pos hfits.1] at hos
      obtain ⟨_,-,rfl⟩ := Option.map_eq_some_iff.mp hos
      exact hfits.2 (halong.1 _ mem_cons_self).1

/-- The poses are on the pieces exactly if the first offset of each piece fits. -/
theorem pieces_along_iff (hstep : 0 < stepScaled) (hne : ∀ s ∈ seg::segs, s.length ≠ 0) :
    (∃ poses, Returns (pieces m maxKappa stepScaled · start (seg::segs)) poses ∧
      Along m maxKappa ⟨0,0,0⟩ (seg::segs) poses) ↔
      Fits stepScaled (direction stepScaled seg.length) (seg::segs) :=
  pieces_iff hstep hne fun s hs => by
    obtain rfl := Option.some_inj.mp hs
    simp [start]

/-- Straight pieces from the origin need no cosine but that of 0. -/
def flat : Cmath ℚ := ⟨id,1,0,0,0,0,0,0⟩

/-- The piece backwards is shorter than what the first one leaves of a step. -/
theorem pieces_along_iff_short : ∃ poses,
    Returns (pieces flat 1 (3/10) · start [⟨.straight,1⟩,⟨.straight,-1/10⟩,⟨.straight,1⟩]) poses ∧
      Along flat 1 ⟨0,0,0⟩ [⟨.straight,1⟩,⟨.straight,-1/10⟩,⟨.straight,1⟩] poses := by
  refine (pieces_along_iff (by norm_num) (by simp)).mpr ⟨.inr (by decide +kernel),.inl ?_,.inr ?_,trivial⟩
  all_goals decide +kernel

/-- After a change of gear the first pose of the piece is beyond its start. -/
theorem pieces_turning : (pieces flat 1 (3/10) 9 start [⟨.straight,1⟩,⟨.straight,-1⟩]).map (·.map (·.map Prod.fst)) =
    some [[3/10,3/5,9/10,1],[1/5,-1/10,-2/5,-7/10,-1,-1]] := by decide +kernel

end Apollo.Modules.Planning.ReedShepp
