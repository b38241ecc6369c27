import Apollo.Foundation.PrunedSearch
import Apollo.Modules.Map.PncMap.PathApproximationTables

/-! The projection with an approximation finds the same distance as the exhaustive scan, for a nearest segment. -/
namespace Apollo.Modules.Map.PncMap
open Foundation Common.Math List Option LineSegment2d Real Chord Nearest
variable {path : Path ℝ} {maxError : ℝ} {a : PathApproximation ℝ} {point : Vec2d ℝ}

namespace Nearest
variable {nearest : Nearest ℝ} {idx : Nat} {d : ℝ}

/-- The smallest distance, or infinity. -/
def best (nearest : Nearest ℝ) : WithTop ℝ := nearest.elim ⊤ fun e => e.2

theorem record_eq (nearest : Nearest ℝ) (idx : Nat) (d : ℝ) : (nearest.record idx d = nearest ∧ nearest.best ≤ d) ∨
    (nearest.record idx d = some (idx, d) ∧ (d : WithTop ℝ) < nearest.best) := by
  cases nearest with
  | none => exact .inr ⟨rfl,WithTop.coe_lt_top d⟩
  | some e =>
    by_cases h : d < e.2
    · exact .inr ⟨if_pos (decide_eq_true h),WithTop.coe_lt_coe.mpr h⟩
    · exact .inl ⟨if_neg (by simpa using h),WithTop.coe_le_coe.mpr (not_lt.mp h)⟩

theorem best_record_le : (nearest.record idx d).best ≤ nearest.best ∧ (nearest.record idx d).best ≤ d := by
  rcases record_eq nearest idx d with ⟨heq,hle⟩ | ⟨heq,hlt⟩
  · rw [heq]
    exact ⟨le_rfl,hle⟩
  · rw [heq]
    exact ⟨hlt.le,le_rfl⟩

/-- The index is one of the numbers before `n` and has the distance. -/
def Attains (distance : Nat → ℝ) (n : Nat) (nearest : Nearest ℝ) : Prop := ∀ e ∈ nearest, e.1 < n ∧ distance e.1 = e.2

theorem Attains.record {distance : Nat → ℝ} {n : Nat} (h : Attains distance n nearest) (hidx : idx < n) :
    Attains distance n (nearest.record idx (distance idx)) := by
  rcases record_eq nearest idx (distance idx) with ⟨heq,-⟩ | ⟨heq,-⟩
  · rw [heq]
    exact h
  · rw [heq]
    intro _ he
    cases mem_some.mp he
    exact ⟨hidx,rfl⟩

theorem eq_some_of_best_le (h : nearest.best ≤ d) : ∃ e, nearest = some e ∧ e.2 ≤ d := by
  cases nearest with
  | none => exact absurd h (not_le.mpr (WithTop.coe_lt_top d))
  | some e => exact ⟨e,rfl,WithTop.coe_le_coe.mp h⟩

theorem find_append (distances : List ℝ) (d : ℝ) :
    find (distances ++ [d]) = (find distances).record distances.length d := by
  rw [find,zipIdx_append,foldl_append,find,zero_add]
  rfl

theorem find_spec (distances : List ℝ) : Attains (distances.getD · 0) distances.length (find distances) ∧
    ∀ j < distances.length, (find distances).best ≤ distances.getD j 0 := by
  induction distances using List.reverseRecOn with
  | nil => exact ⟨fun e he => (not_mem_none e he).elim,fun j hj => (Nat.not_lt_zero j hj).elim⟩
  | append_singleton distances d ih =>
    have hlast : (distances ++ [d]).getD distances.length 0 = d := by
      rw [getD_append_right _ _ _ _ le_rfl,Nat.sub_self,getD_cons_zero]
    have hreal : Attains ((distances ++ [d]).getD · 0) (distances ++ [d]).length (find distances) := by
      intro e he
      obtain ⟨hlt,heq⟩ := ih.1 e he
      rw [length_append]
      exact ⟨hlt.trans_le (Nat.le_add_right _ _),(getD_append _ _ _ _ hlt).trans heq⟩
    have hlt : distances.length < (distances ++ [d]).length := by simp
    rw [find_append]
    refine ⟨?_,?_⟩
    · have hrecord := hreal.record hlt
      rwa [hlast] at hrecord
    · intro j hj
      rw [length_append,length_singleton,Nat.lt_succ_iff] at hj
      rcases hj.lt_or_eq with hj | rfl
      · rw [getD_append _ _ _ _ hj]
        exact best_record_le.1.trans (ih.2 j hj)
      · rw [hlast]
        exact best_record_le.2

end Nearest

theorem getD_map_distance {segments : List (LineSegment2d ℝ)} {d : LineSegment2d ℝ} {i : Nat} {p q : Vec2d ℝ}
    (hi : i < segments.length) (hsegment : segments.getD i d = .ofEnds .real p q) :
    (segments.map (·.distanceSquareTo point)).getD i 0 = (chord p q).distance point.toComplex^2 := by
  rw [getD_eq_getElem _ _ hi] at hsegment
  rw [getD_eq_getElem _ _ (by rwa [length_map]),getElem_map,hsegment]
  exact distanceSquareTo_eq

namespace PathApproximation

section Loop
variable {scan : Scan ℝ} {first last idx : Nat}

theorem update_eq (scan : Scan ℝ) (idx : Nat) (d : ℝ) (b : Bool) :
    (scan.update idx d b).nearest = scan.nearest.record idx d ∧
    ((scan.update idx d b).nearest = scan.nearest ∧
        (scan.update idx d b).minDistanceUpdated = scan.minDistanceUpdated ∨
      (scan.update idx d b).nearest = some (idx, d) ∧ (scan.update idx d b).minDistanceUpdated = true) := by
  rw [Scan.update,record]
  split
  · exact ⟨rfl,.inr ⟨rfl,rfl⟩⟩
  · exact ⟨rfl,.inl ⟨rfl,rfl⟩⟩

/-- What the body of the loop can do: leave out a segment whose start was seen, take its distance, or put off its
end, which is the start of the next one. -/
theorem visit_cases (h : path.Spaced) (hidx : idx+1 < path.pathPoints.length) (point : Vec2d ℝ) (last : Nat)
    (scan : Scan ℝ) :
    (scan.isWithinEndPoint = true ∧ path.distanceTo point idx = ‖point.toComplex - path.chain idx‖ ∧
      visit .real path point last idx scan = scan) ∨
    (∃ b, visit .real path point last idx scan = scan.update idx (path.distanceTo point idx) b) ∨
    (idx ≠ last ∧ path.distanceTo point idx = ‖point.toComplex - path.chain (idx+1)‖ ∧
      visit .real path point last idx scan = { scan with isWithinEndPoint := false }) := by
  have hlong := not_le.mpr (h.apart idx hidx)
  have hend := chord_end hlong
  simp only [visit,h.segmentAt hidx,ofEnds_start,ofEnds_end,along_eq]
  by_cases hproj : (chord (path.pointAt idx) (path.pointAt (idx+1))).proj point.toComplex < 0
  · have hdistance : path.distanceTo point idx = ‖point.toComplex - path.chain idx‖ :=
      distance_of_proj_nonpos hproj.le
    rw [if_pos hproj,Vec2d.hypot_eq_norm]
    cases hwithin : scan.isWithinEndPoint with
    | true => exact .inl ⟨rfl,hdistance,if_pos rfl⟩
    | false =>
      refine .inr (.inl ⟨true,?_⟩)
      rw [hdistance]
      exact if_neg Bool.false_ne_true
  rw [if_neg hproj]
  by_cases hlength : (chord (path.pointAt idx) (path.pointAt (idx+1))).proj point.toComplex ≤
      (ofEnds .real (path.pointAt idx) (path.pointAt (idx+1))).length
  · rw [if_pos hlength,abs_across hlong (not_lt.mp hproj) hlength]
    exact .inr (.inl ⟨true,rfl⟩)
  · have hdistance : path.distanceTo point idx = ‖point.toComplex - path.chain (idx+1)‖ :=
      (distance_of_length_le (not_le.mp hlength).le).trans (by rw [hend]; rfl)
    rw [if_neg hlength]
    by_cases hlast : idx ≠ last
    · exact .inr (.inr ⟨hlast,hdistance,if_pos hlast⟩)
    · refine .inr (.inl ⟨false,?_⟩)
      rw [if_neg hlast,Vec2d.distanceTo_eq_norm,norm_sub_rev,hdistance]
      rfl

/-- The segments before `idx` are seen, or the point at `idx` is as near. A segment that may be left out next was
seen up to its end. -/
structure Seen (path : Path ℝ) (point : Vec2d ℝ) (first last idx : Nat) (scan : Scan ℝ) : Prop where
  before : ∀ k, first ≤ k → k < idx → scan.nearest.best ≤ path.distanceTo point k ∨
    ‖point.toComplex - path.chain idx‖ ≤ path.distanceTo point k
  within : scan.isWithinEndPoint = true ∨ last < idx → scan.nearest.best ≤ ‖point.toComplex - path.chain idx‖

/-- What changed in a scan: the nearest segment was found now, or it is the one before. -/
def Changed (path : Path ℝ) (point : Vec2d ℝ) (scan scan' : Scan ℝ) : Prop :=
  (scan'.nearest = scan.nearest ∧ scan'.minDistanceUpdated = scan.minDistanceUpdated) ∨
  ∃ k, k+1 < path.pathPoints.length ∧ scan'.nearest = some (k, path.distanceTo point k) ∧
    scan'.minDistanceUpdated = true

theorem Changed.trans {scan scan' scan'' : Scan ℝ} (h : Changed path point scan scan')
    (h' : Changed path point scan' scan'') : Changed path point scan scan'' := by
  rcases h' with ⟨hnearest',hupdated'⟩ | hfound
  · rcases h with ⟨hnearest,hupdated⟩ | ⟨k,hk,hnearest,hupdated⟩
    · exact .inl ⟨hnearest'.trans hnearest,hupdated'.trans hupdated⟩
    · exact .inr ⟨k,hk,hnearest'.trans hnearest,hupdated'.trans hupdated⟩
  · exact .inr hfound

section Spaced
variable (h : path.Spaced)
include h

theorem visit_changed (hidx : idx+1 < path.pathPoints.length) (point : Vec2d ℝ) (last : Nat) (scan : Scan ℝ) :
    Changed path point scan (visit .real path point last idx scan) ∧
      (visit .real path point last idx scan).nearest.best ≤ scan.nearest.best := by
  rcases visit_cases h hidx point last scan with ⟨-,-,heq⟩ | ⟨b,heq⟩ | ⟨-,-,heq⟩
  · rw [heq]
    exact ⟨.inl ⟨rfl,rfl⟩,le_rfl⟩
  · rw [heq]
    obtain ⟨hnearest,hupdate⟩ := update_eq scan idx (path.distanceTo point idx) b
    refine ⟨hupdate.imp_right fun hfound => ⟨idx,hidx,hfound⟩,?_⟩
    rw [hnearest]
    exact best_record_le.1
  · rw [heq]
    exact ⟨.inl ⟨rfl,rfl⟩,le_rfl⟩

theorem Seen.visit (hseen : Seen path point first last idx scan) (hidx : idx ≤ last)
    (hlast : last+1 < path.pathPoints.length) :
    Seen path point first last (idx+1) (visit .real path point last idx scan) := by
  have hlength : idx+1 < path.pathPoints.length := by omega
  have hstart : path.distanceTo point idx ≤ ‖point.toComplex - path.chain idx‖ :=
    h.distanceTo_le hlength (left_mem_segment ℝ _ _)
  have hend : path.distanceTo point idx ≤ ‖point.toComplex - path.chain (idx+1)‖ :=
    h.distanceTo_le hlength (right_mem_segment ℝ _ _)
  -- Once the distance of the segment counts, so do the segments before it.
  have hcounts : ∀ scan' : Scan ℝ, scan'.nearest.best ≤ scan.nearest.best →
      scan'.nearest.best ≤ path.distanceTo point idx → Seen path point first last (idx+1) scan' := by
    intro _ hle hbest
    refine ⟨fun k hk hk' => .inl ?_,fun _ => hbest.trans (WithTop.coe_le_coe.mpr hend)⟩
    rcases Nat.lt_succ_iff_lt_or_eq.mp hk' with hk' | rfl
    · rcases hseen.before k hk hk' with hbefore | hbefore
      · exact hle.trans hbefore
      · exact hbest.trans (WithTop.coe_le_coe.mpr (hstart.trans hbefore))
    · exact hbest
  rcases visit_cases h hlength point last scan with ⟨hwithin,hdistance,heq⟩ | ⟨b,heq⟩ | ⟨_,hdistance,heq⟩
  · rw [heq]
    apply hcounts scan le_rfl
    rw [hdistance]
    exact hseen.within (.inl hwithin)
  · rw [heq]
    have hnearest := (update_eq scan idx (path.distanceTo point idx) b).1
    apply hcounts
    · rw [hnearest]
      exact best_record_le.1
    · rw [hnearest]
      exact best_record_le.2
  · rw [heq]
    refine ⟨fun k hk hk' => ?_,fun hwithin => ?_⟩
    · rcases Nat.lt_succ_iff_lt_or_eq.mp hk' with hk' | rfl
      · exact (hseen.before k hk hk').imp_right fun hbefore => hdistance.ge.trans (hstart.trans hbefore)
      · exact .inr hdistance.ge
    · rcases hwithin with hwithin | hwithin
      · cases hwithin
      · omega

/-- The loop has seen all segments, but for those from a stop on and those that end there. -/
theorem scanSegments_spec (a : PathApproximation ℝ) (maxOriginalProjection : Option ℝ) (hfirst : first ≤ idx) (hidx : idx ≤ last+1)
    (hlast : last+1 < path.pathPoints.length) (hseen : Seen path point first last idx scan) :
    let scan' := scanSegments .real path a point maxOriginalProjection last (indices idx (last+1)) scan
    Changed path point scan scan' ∧ scan'.nearest.best ≤ scan.nearest.best ∧
    ∀ k, first ≤ k → k ≤ last → scan'.nearest.best ≤ path.distanceTo point k ∨
      ∃ p ∈ maxOriginalProjection, ∃ stop, first ≤ stop ∧ stop ≤ last ∧
        p < a.minOriginalProjectionsToRight.getD stop 0 ∧
        (stop ≤ k ∨ ‖point.toComplex - path.chain stop‖ ≤ path.distanceTo point k) := by
  obtain ⟨n,hn⟩ : ∃ n, last+1 - idx = n := ⟨_,rfl⟩
  rw [indices,hn]
  induction n generalizing idx scan with
  | zero =>
    refine ⟨.inl ⟨rfl,rfl⟩,le_rfl,fun k hk hk' => .inl ?_⟩
    have hwithin := hseen.within (.inr (by omega))
    rcases hseen.before k hk (by omega) with hbefore | hbefore
    · exact hbefore
    · exact hwithin.trans (WithTop.coe_le_coe.mpr hbefore)
  | succ _ ih =>
    rw [range'_succ]
    rw [scanSegments]
    split
    case isTrue hstop =>
      obtain ⟨p,hp,hlt⟩ := (any_eq_true _ _).mp hstop
      refine ⟨.inl ⟨rfl,rfl⟩,le_rfl,fun k hk _ => ?_⟩
      have hstopped : idx ≤ k ∨ ‖point.toComplex - path.chain idx‖ ≤ path.distanceTo point k →
          ∃ p ∈ maxOriginalProjection, ∃ stop, first ≤ stop ∧ stop ≤ last ∧
            p < a.minOriginalProjectionsToRight.getD stop 0 ∧
            (stop ≤ k ∨ ‖point.toComplex - path.chain stop‖ ≤ path.distanceTo point k) :=
        fun hcase => ⟨p,hp,idx,hfirst,by omega,of_decide_eq_true hlt,hcase⟩
      rcases Nat.lt_or_ge k idx with hlt | hge
      · exact (hseen.before k hk hlt).imp_right fun hbefore => hstopped (.inr hbefore)
      · exact .inr (hstopped (.inl hge))
    case isFalse hstop =>
      have hvisit := visit_changed h (by omega : idx+1 < path.pathPoints.length) point last scan
      have hnext := hseen.visit h (by omega) hlast
      obtain ⟨hchanged,hle,hall⟩ := ih (by omega) (by omega) hnext (by omega)
      exact ⟨hvisit.1.trans hchanged,hle.trans hvisit.2,hall⟩

end Spaced
end Loop

section Search
variable (h : path.Spaced) (hb : Built path maxError a) (hpos : 0 < maxError) (point : Vec2d ℝ)

/-- The distances of the segments of the path, grouped by the segments of the approximation. -/
noncomputable def search (estimate : Fin a.segments.length) : PrunedSearch (Fin a.segments.length) ℝ where
  values i := {d | ∃ k, a.idAt i ≤ k ∧ k < a.idAt (i+1) ∧ d = path.distanceTo point k}
  estimate i := (chordAt path a i).distance point.toComplex
  error i := errorAt path a i
  maxError := maxError
  nearest := estimate
  error_nonneg _ := computeMaxError_nonneg
  error_le i := computeMaxError_le hpos (hb.follower i i.isLt).2.2
  maxError_pos := hpos
  attained := by
    obtain ⟨k,hk,hk',y,hy,hnear⟩ := (follows hb estimate.isLt h).exists_near point.toComplex
    have hlast := (hb.follower estimate estimate.isLt).2.1
    exact ⟨_,⟨k,hk,hk',rfl⟩,(h.distanceTo_le (by omega) hy).trans hnear⟩

variable {point}

/-- The variables of the loop: the bound is a square, and the nearest segment has its distance. -/
structure Runs (path : Path ℝ) (point : Vec2d ℝ) (s : ℝ × Nearest ℝ) (bound : ℝ) : Prop where
  sq : s.1 = bound^2
  nonneg : 0 ≤ bound
  attains : s.2.Attains (path.distanceTo point) (path.pathPoints.length - 1)

variable {estimate : Fin a.segments.length} {s : ℝ × Nearest ℝ}

theorem group_spec {bound : ℝ} (i : Fin a.segments.length) (hs : Runs path point s bound)
    (hbounds : (search h hb hpos point estimate).Bounds bound s.2.best) :
    let s' := group .real path a point (a.segments.map (·.distanceSquareTo point)) s i
    ∃ bound', Runs path point s' bound' ∧ (search h hb hpos point estimate).Bounds bound' s'.2.best ∧
      (search h hb hpos point estimate).Looks i bound s.2.best s'.2.best := by
  obtain ⟨_,_,-⟩ := hb.follower i i.isLt
  have hdistance : (a.segments.map (·.distanceSquareTo point)).getD i 0 =
      (chordAt path a i).distance point.toComplex^2 := getD_map_distance i.isLt (hb.segment i i.isLt)
  rw [group,hdistance,hs.sq]
  by_cases hfar : bound^2 ≤ (chordAt path a i).distance point.toComplex^2
  · rw [if_pos hfar]
    have hle := (pow_le_pow_iff_left₀ hs.nonneg distance_nonneg two_ne_zero).mp hfar
    refine ⟨bound,hs,hbounds,le_rfl,?_⟩
    rintro d ⟨k,hk,hk',rfl⟩
    obtain ⟨y,hy,heq⟩ := h.distanceTo_eq (by omega : k+1 < path.pathPoints.length) point
    rw [heq]
    exact .inr (.inr ⟨hle,hle.trans ((follows hb i.isLt h).distance_le_add_error hk hk' hy)⟩)
  · have hnear := lt_of_pow_lt_pow_left₀ 2 hs.nonneg (not_le.mp hfar)
    obtain ⟨first,maxOriginalProjection,hwindow,hleaves⟩ := window_spec hb i.isLt h hnear
    rw [if_neg hfar,hwindow]
    have hfirst := hleaves.lt
    have hseen : Seen path point first (a.idAt (i+1) - 1) first ⟨s.2,false,false⟩ := by
      refine ⟨fun _ hk hk' => absurd hk (not_le.mpr hk'),fun hwithin => ?_⟩
      rcases hwithin with hwithin | hwithin
      · cases hwithin
      · omega
    obtain ⟨hchanged,hle,hall⟩ := scanSegments_spec h a maxOriginalProjection le_rfl (by omega) (by omega) hseen
    dsimp only at hchanged hle hall ⊢
    obtain ⟨scan,hscan⟩ : ∃ scan, scan = scanSegments .real path a point maxOriginalProjection (a.idAt (i+1) - 1)
      (indices first (a.idAt (i+1) - 1+1)) ⟨s.2,false,false⟩ := ⟨_,rfl⟩
    rw [← hscan] at hchanged hle hall ⊢
    have hlooks : (search h hb hpos point estimate).Looks i bound s.2.best scan.nearest.best := by
      refine ⟨hle,?_⟩
      rintro d ⟨k,hk,hk',rfl⟩
      rcases Nat.lt_or_ge k first with hbefore | hafter
      · exact .inr (.inl (hleaves.before k hk hbefore))
      · rcases hall k hafter (by omega) with hbest | ⟨p,hp,stop,hstop,_,hright,hcase⟩
        · exact .inl hbest
        · obtain ⟨hpoint,hrest⟩ := hleaves.after p hp stop (hleaves.le.trans hstop) (by omega) hright
          rcases hcase with hcase | hcase
          · exact .inr (.inl (hrest k hcase hk'))
          · exact .inr (.inl (hpoint.trans_le (add_le_add hcase le_rfl)))
    rcases hchanged with ⟨hnearest,hupdated⟩ | ⟨k,hk,hnearest,hupdated⟩
    · rw [hnearest] at hlooks
      rw [if_neg (ne_true_of_eq_false hupdated),hnearest]
      exact ⟨bound,⟨rfl,hs.nonneg,hs.attains⟩,hbounds,hlooks⟩
    · rw [hnearest] at hlooks
      rw [if_pos hupdated,hnearest,hb.maxError_eq]
      refine ⟨path.distanceTo point k+maxError,⟨(sq _).symm,?_,?_⟩,.found _,hlooks⟩
      · exact add_nonneg distance_nonneg hpos.le
      · intro _ he
        cases mem_some.mp he
        exact ⟨by omega,rfl⟩

theorem groups_spec (hs : Runs path point s ((search h hb hpos point estimate).target+maxError))
    (hnone : s.2 = none) {n : Nat} (hn : n ≤ a.segments.length) :
    let s' := (List.range n).foldl (group .real path a point (a.segments.map (·.distanceSquareTo point))) s
    ∃ bound, Runs path point s' bound ∧
      (search h hb hpos point estimate).Searched {i | i.val < n} bound s'.2.best := by
  induction n with
  | zero =>
    refine ⟨_,hs,?_⟩
    have hempty : {i : Fin a.segments.length | i.val < 0} = ∅ :=
      Set.eq_empty_of_forall_notMem fun i hi => Nat.not_lt_zero _ hi
    rw [range_zero,foldl_nil,hempty,hnone]
    exact .start
  | succ n ih =>
    obtain ⟨bound,hruns,hsearched⟩ := ih (n.le_succ.trans hn)
    obtain ⟨bound',hruns',hbounds,hlooks⟩ := group_spec h hb hpos ⟨n,hn⟩ hruns hsearched.bounds
    have hinsert : {i : Fin a.segments.length | i.val < n+1} = insert ⟨n,hn⟩ {i | i.val < n} := by
      ext i
      rw [Set.mem_insert_iff,Fin.ext_iff]
      exact Nat.lt_succ_iff_lt_or_eq.trans or_comm
    rw [range_succ,foldl_append,foldl_cons,foldl_nil,hinsert]
    exact ⟨bound',hruns',hsearched.look hlooks hbounds⟩

omit h hpos in
include hb in
theorem exists_group {k : Nat} (hk : k < path.pathPoints.length - 1) :
    ∃ i : Fin a.segments.length, a.idAt i ≤ k ∧ k < a.idAt (i+1) := by
  have hbefore : ∀ n ≤ a.segments.length, k < a.idAt n →
      ∃ i : Fin a.segments.length, a.idAt i ≤ k ∧ k < a.idAt (i+1) := by
    intro n hn hlt
    induction n with
    | zero =>
      rw [hb.id_zero] at hlt
      exact (Nat.not_lt_zero k hlt).elim
    | succ n ih =>
      rcases Nat.lt_or_ge k (a.idAt n) with hlt' | hge
      · exact ih (n.le_succ.trans hn) hlt'
      · exact ⟨⟨n,hn⟩,hge,hlt⟩
  exact hbefore _ le_rfl (hk.trans_eq hb.id_last.symm)

include h hb hpos in
/-- The projection with an approximation is onto a nearest segment. -/
theorem getProjection_spec (hpoints : 2 ≤ path.pathPoints.length) (point : Vec2d ℝ) : ∃ k, k < path.pathPoints.length - 1 ∧
    (∀ j < path.pathPoints.length - 1, path.distanceTo point k ≤ path.distanceTo point j) ∧
    a.getProjection .real path point = some (projectOnto .real path point k (path.distanceTo point k)) := by
  obtain ⟨hattains,hleast⟩ := find_spec (a.segments.map (·.distanceSquareTo point))
  obtain ⟨i,-⟩ := exists_group hb (by omega : 0 < path.pathPoints.length - 1)
  obtain ⟨e,hfind,-⟩ := eq_some_of_best_le (hleast i (by rw [length_map]; exact i.isLt))
  obtain ⟨he,hdistance⟩ := hattains e hfind
  rw [length_map] at he
  have hestimate := (getD_map_distance he (hb.segment e.1 he)).symm.trans hdistance
  -- The bound before the loop is the one for the estimate.
  have hruns : Runs path point (square (sqrt e.2+a.maxErrorPerSegment.getD e.1 0+a.maxError), none)
      ((search h hb hpos point ⟨e.1,he⟩).target+maxError) := by
    refine ⟨?_,?_,fun e he => (not_mem_none e he).elim⟩
    · rw [← hestimate,sqrt_sq distance_nonneg,hb.error e.1 he,hb.maxError_eq]
      exact (sq _).symm
    · exact add_nonneg (add_nonneg distance_nonneg computeMaxError_nonneg) hpos.le
  obtain ⟨_,hruns',hsearched⟩ := groups_spec h hb hpos hruns rfl le_rfl
  obtain ⟨s,hs⟩ : ∃ s, s = (List.range a.segments.length).foldl
    (group .real path a point (a.segments.map (·.distanceSquareTo point)))
    (square (sqrt e.2+a.maxErrorPerSegment.getD e.1 0+a.maxError), none) := ⟨_,rfl⟩
  rw [← hs] at hruns' hsearched
  have hbest : ∀ j < path.pathPoints.length - 1, s.2.best ≤ path.distanceTo point j := by
    intro j hj
    obtain ⟨i,hi,hi'⟩ := exists_group hb hj
    exact hsearched.least (fun i => i.isLt) ⟨j,hi,hi',rfl⟩
  obtain ⟨f,hsome,-⟩ := eq_some_of_best_le (hbest 0 (by omega))
  obtain ⟨hk,hd⟩ := hruns'.attains f hsome
  refine ⟨f.1,hk,?_,?_⟩
  · intro j hj
    have hle := hbest j hj
    rw [hsome] at hle
    exact hd.trans_le (WithTop.coe_le_coe.mp hle)
  · rw [getProjection]
    rw [hfind,bind_some,hd]
    exact congrArg (Option.map _) ((congrArg Prod.snd hs).symm.trans hsome)

end Search
end PathApproximation

namespace Path

def IsNearest (path : Path ℝ) (point : Vec2d ℝ) (k : Nat) : Prop :=
  k < path.numSegments ∧ ∀ j < path.numSegments,
    (path.segmentAt .real k).distanceSquareTo point ≤ (path.segmentAt .real j).distanceSquareTo point

noncomputable def sOn (path : Path ℝ) (point : Vec2d ℝ) (k : Nat) : ℝ := (path.projectOnto .real point k 0).accumulateS

theorem sOn_eq (path : Path ℝ) (point : Vec2d ℝ) (k : Nat) (d : ℝ) :
    (path.projectOnto .real point k d).accumulateS = path.sOn point k := by
  rw [sOn,projectOnto,projectOnto]
  split
  · rfl
  · split <;> rfl

theorem minDistance_eq (path : Path ℝ) (point : Vec2d ℝ) (k : Nat) (d : ℝ) :
    (path.projectOnto .real point k d).minDistance = d := by
  rw [projectOnto]
  split
  · rfl
  · split <;> rfl

section Spaced
variable (h : path.Spaced)
include h

theorem Spaced.isNearest {k : Nat} (hk : k < path.pathPoints.length - 1)
    (hleast : ∀ j < path.pathPoints.length - 1, path.distanceTo point k ≤ path.distanceTo point j) :
    path.IsNearest point k := by
  refine ⟨hk.trans_eq h.numSegments.symm,fun j hj => ?_⟩
  rw [h.numSegments] at hj
  rw [h.segmentAt (by omega),h.segmentAt (by omega),distanceSquareTo_eq,
    distanceSquareTo_eq]
  exact pow_le_pow_left₀ distance_nonneg (hleast j hj) 2

theorem Spaced.scanProjection (hpoints : 2 ≤ path.pathPoints.length) (point : Vec2d ℝ) : ∃ k, k < path.pathPoints.length - 1 ∧
    (∀ j < path.pathPoints.length - 1, path.distanceTo point k ≤ path.distanceTo point j) ∧
    path.scanProjection .real point = some (path.projectOnto .real point k (path.distanceTo point k)) := by
  have hlength : (path.segments.map (·.distanceSquareTo point)).length = path.pathPoints.length - 1 := by
    rw [length_map]
    exact h.numSegments
  have hdistance : ∀ j < path.pathPoints.length - 1,
      (path.segments.map (·.distanceSquareTo point)).getD j 0 = path.distanceTo point j^2 := by
    intro _ hj
    exact getD_map_distance (hj.trans_eq h.numSegments.symm) (h.segmentAt (by omega))
  obtain ⟨hattains,hleast⟩ := find_spec (path.segments.map (·.distanceSquareTo point))
  rw [hlength] at hattains hleast
  obtain ⟨e,hfind,-⟩ := eq_some_of_best_le (hleast 0 (by omega))
  obtain ⟨hk,hd⟩ := hattains e hfind
  have hsq := (hdistance e.1 hk).symm.trans hd
  refine ⟨e.1,hk,?_,?_⟩
  · intro j hj
    have hle := hleast j hj
    rw [hfind,hdistance j hj] at hle
    exact (pow_le_pow_iff_left₀ distance_nonneg distance_nonneg two_ne_zero).mp
      (hsq.trans_le (WithTop.coe_le_coe.mp hle))
  · rw [Path.scanProjection,hfind,map_some,← hsq]
    exact congrArg (fun d => some (path.projectOnto .real point e.1 d)) (sqrt_sq distance_nonneg)

theorem Spaced.accumulateS_eq {k : Nat} (hpoints : 3 ≤ path.pathPoints.length) (hk : k < path.pathPoints.length - 1)
    (point : Vec2d ℝ) (d : ℝ) : (PathApproximation.projectOnto .real path point k d).accumulateS = path.sOn point k := by
  have hnum := h.numSegments
  have hlength : 0 ≤ (path.segmentAt .real k).length := by
    rw [h.segmentAt (by omega),ofEnds_length]
    exact norm_nonneg _
  rw [sOn,projectOnto,PathApproximation.projectOnto]
  by_cases hfirst : k = 0
  · subst hfirst
    rw [if_pos rfl,if_neg (lt_irrefl 0),if_pos (by omega),h.accumulatedS,zero_add,min_comm]
  rw [if_neg hfirst,if_pos (Nat.pos_of_ne_zero hfirst)]
  by_cases hlast : k = path.numSegments - 1
  · rw [if_pos hlast,if_neg (by omega)]
  · rw [if_neg hlast,if_pos (by omega),min_max_distrib_left,min_eq_right hlength,min_comm]

end Spaced

theorem init_spaced {pathPoints : List (Vec2d ℝ)} (hpoints : 2 ≤ pathPoints.length)
    (hapart : pathPoints.IsChain fun p q => mathEpsilon < p.distanceTo .real q) :
    ∃ path, init .real pathPoints = some path ∧ path.pathPoints = pathPoints ∧ path.approximation = none ∧
      path.Spaced := by
  refine ⟨_,if_neg (not_lt.mpr hpoints),rfl,rfl,?_⟩
  constructor
  case accumulatedS =>
    match pathPoints, hpoints with
    | _::_::_, _ => rfl
  case segments => rfl
  case apart =>
    intro i hi
    have hlt := isChain_iff_getElem.mp hapart i hi
    rw [Vec2d.distanceTo_eq_norm,norm_sub_rev,← getD_eq_getElem _ ⟨0,0⟩ hi,
      ← getD_eq_getElem _ ⟨0,0⟩ (i.lt_succ_self.trans hi)] at hlt
    exact hlt.trans_eq (ofEnds_length _ _).symm

end Path

/-- On a path of at least two segments the projection with an approximation has the same distance as the one
without, and both are onto a nearest segment. -/
theorem approximation_exact {pathPoints : List (Vec2d ℝ)} {maxError : ℝ} (hpoints : 3 ≤ pathPoints.length)
    (hapart : pathPoints.IsChain fun p q => mathEpsilon < p.distanceTo .real q) (hpos : 0 < maxError)
    (point : Vec2d ℝ) : ∃ path approximated exact approximate,
      Path.init .real pathPoints = some path ∧ path.getProjection .real point = some exact ∧
      Path.initWith .real pathPoints maxError = some approximated ∧
      approximated.getProjection .real point = some approximate ∧
      approximate.minDistance = exact.minDistance ∧
      ∃ j k, path.IsNearest point j ∧ exact.accumulateS = path.sOn point j ∧
        path.IsNearest point k ∧ approximate.accumulateS = path.sOn point k := by
  obtain ⟨path,hinit,rfl,hnone,h⟩ := Path.init_spaced (by omega) hapart
  obtain ⟨a,ha,hb⟩ := PathApproximation.init_built maxError (by omega : 2 ≤ path.pathPoints.length)
  -- The path with its approximation has the points and segments of the path without it.
  obtain ⟨approximated,hwith⟩ : ∃ approximated, approximated = { path with approximation := some a } := ⟨_,rfl⟩
  have h' : approximated.Spaced := hwith ▸ ⟨h.accumulatedS,h.segments,h.apart⟩
  have hb' : PathApproximation.Built approximated maxError a := hwith ▸ ⟨hb.maxError_eq,hb.id_zero,hb.id_last,
    hb.follower,hb.segment,hb.error,hb.projection_zero,hb.projection_succ,hb.maxProjection_eq,hb.original_id,
    hb.original_inner,hb.toLeft,hb.toRight,hb.numSamples,hb.sampled⟩
  have hlength : approximated.pathPoints.length = path.pathPoints.length := hwith ▸ rfl
  obtain ⟨j,hj,hleast,hexact⟩ := h.scanProjection (by omega) point
  obtain ⟨k,hk,hleast',happroximate⟩ := PathApproximation.getProjection_spec h' hb' hpos (by omega) point
  have haccumulate := h'.accumulateS_eq (by omega) hk point (approximated.distanceTo point k)
  have hsegments : path.segments ≠ [] := by
    intro hnil
    have hnum := h.numSegments
    rw [Path.numSegments,hnil,length_nil] at hnum
    omega
  subst hwith
  refine ⟨path,{ path with approximation := some a },path.projectOnto .real point j (path.distanceTo point j),_,hinit,
    ?_,?_,?_,?_,j,k,h.isNearest hj hleast,path.sOn_eq point j _,h.isNearest hk hleast',haccumulate⟩
  · rw [Path.getProjection,if_neg hsegments,hnone]
    exact hexact
  · rw [Path.initWith,hinit,bind_some,if_pos hpos,ha]
    rfl
  · rw [Path.getProjection,if_neg hsegments]
    exact happroximate
  · rw [Path.minDistance_eq]
    exact le_antisymm (hleast' j hj) (hleast k hk)

/-- A path with a bend that the approximation cuts off. -/
theorem approximation_exact_bend : ∃ path approximated exact approximate,
    Path.init .real [⟨0,0⟩,⟨1,1⟩,⟨2,0⟩] = some path ∧ path.getProjection .real ⟨1,2⟩ = some exact ∧
    Path.initWith .real [⟨0,0⟩,⟨1,1⟩,⟨2,0⟩] 1 = some approximated ∧
    approximated.getProjection .real ⟨1,2⟩ = some approximate ∧
    approximate.minDistance = exact.minDistance ∧
    ∃ j k, path.IsNearest ⟨1,2⟩ j ∧ exact.accumulateS = path.sOn ⟨1,2⟩ j ∧
      path.IsNearest ⟨1,2⟩ k ∧ approximate.accumulateS = path.sOn ⟨1,2⟩ k := by
  have hfar : (mathEpsilon : ℝ) < sqrt 2 := by
    apply lt_sqrt_of_sq_lt
    rw [mathEpsilon]
    norm_num
  refine approximation_exact (by decide) (isChain_cons_cons.mpr ⟨?_,isChain_cons_cons.mpr ⟨?_,.singleton _⟩⟩)
    one_pos ⟨1,2⟩
  all_goals
    refine hfar.trans_eq (congrArg sqrt ?_)
    norm_num

end Apollo.Modules.Map.PncMap
