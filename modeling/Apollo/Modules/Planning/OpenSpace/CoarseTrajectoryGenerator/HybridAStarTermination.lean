import Apollo.Modules.Planning.OpenSpace.CoarseTrajectoryGenerator.HybridAStarValid

/-! The main loop of `HybridAStar::Plan` takes an index from the queue at most once. A node that is put into the queue
is in the bounds and its heading is normalized, so that the grid has a cell for it. -/
namespace Apollo.Modules.Planning
open Apollo.Foundation Apollo.Modules.Common.Math List Real

theorem normalizeAngle_bounds (angle : ℝ) : -π ≤ Cmath.real.normalizeAngle angle ∧ Cmath.real.normalizeAngle angle ≤ π := by
  have hpi := two_pi_pos
  have hx : (angle+π)/(2*π)*(2*π) = angle+π := div_mul_cancel₀ _ hpi.ne'
  have hfloor := Int.floor_le ((angle+π)/(2*π))
  have hfloor' := Int.lt_floor_add_one ((angle+π)/(2*π))
  have hceil := Int.le_ceil ((angle+π)/(2*π))
  have hceil' := Int.ceil_lt_add_one ((angle+π)/(2*π))
  simp only [Cmath.normalizeAngle,Cmath.real]
  split_ifs <;> constructor <;> nlinarith

namespace HybridAStar
variable {planner : HybridAStar ℝ} {node next : Node3d ℝ} {current : Trail ℝ} {dpMap : DpMap ℝ} {s t : Search ℝ}
  {origin : GridIndex} {sPose ePose : Pose ℝ} {i : Nat}

/-- The cells of the bounds, with all headings. -/
noncomputable def cells (planner : HybridAStar ℝ) : Finset GridIndex :=
  Finset.Icc 0 ⌊(planner.xyBounds.xmax - planner.xyBounds.xmin)/planner.xyGridResolution⌋ ×ˢ
    Finset.Icc 0 ⌊(planner.xyBounds.ymax - planner.xyBounds.ymin)/planner.xyGridResolution⌋ ×ˢ
    Finset.Icc 0 ⌊2*π/planner.phiGridResolution⌋

theorem truncate_mem {value bound resolution : ℝ} (hresolution : 0 < resolution) (h0 : 0 ≤ value) (h : value ≤ bound) :
    truncate (value/resolution) ∈ Finset.Icc 0 ⌊bound/resolution⌋ := by
  have hpos := div_nonneg h0 hresolution.le
  rw [truncate,if_pos hpos,Finset.mem_Icc]
  exact ⟨Int.floor_nonneg.mpr hpos,Int.floor_mono (div_le_div_of_nonneg_right h hresolution.le)⟩

theorem drive_normalized {steering distance : ℝ} (steps : Nat) (last : Pose ℝ) :
    ∀ pose ∈ planner.drive .real steering distance steps last, -π ≤ pose.phi ∧ pose.phi ≤ π := by
  induction steps generalizing last with
  | zero => exact forall_mem_nil _
  | succ steps ih => exact forall_mem_cons.mpr ⟨normalizeAngle_bounds _,ih _⟩

theorem getLastD_mem_or {α : Type} (l : List α) (a : α) : l.getLastD a = a ∨ l.getLastD a ∈ l := by
  cases l with
  | nil => exact .inl rfl
  | cons b l =>
    rw [getLastD_cons]
    exact .inr (getLastD_mem_cons ..)

theorem nextNodeGenerator_pose (h : planner.nextNodeGenerator .real node i = some (some next)) :
    planner.isOutside next.pose = false ∧ (next.pose = node.pose ∨ -π ≤ next.pose.phi ∧ next.pose.phi ≤ π) := by
  unfold nextNodeGenerator at h
  extract_lets half forward index steering distance at h
  obtain ⟨steps,-,h⟩ := Option.bind_eq_some_iff.mp h
  extract_lets rest outside at h
  split at h
  case isTrue => cases h
  case isFalse hinside =>
    split at h
    case isTrue => cases h
    case isFalse hdefined =>
      cases h
      constructor
      · cases hundefined : planner.isUndefined
        · simpa [outside,hundefined,Node3d.pose] using hinside
        · have hsteps : steps = 0 := by simpa [hundefined] using hdefined
          simpa [outside,hsteps,Node3d.pose] using hinside
      · exact (getLastD_mem_or rest node.pose).imp id (drive_normalized steps node.pose _)

/-- The indices that were taken from the queue, and those in it. Each of them is there once, however often a node is
found. -/
structure Indexed (planner : HybridAStar ℝ) (origin : GridIndex) (s : Search ℝ) : Prop where
  index : ∀ i trail, s.openSet.lookup i = some trail → planner.getIndex .real trail.node = i
  opened : ∀ i ∈ s.closeSet ++ s.openPq.map Prod.fst, i ∈ s.openSet
  nodup : (s.closeSet ++ s.openPq.map Prod.fst).Nodup
  inCells : ∀ i ∈ s.closeSet ++ s.openPq.map Prod.fst, i ∈ insert origin planner.cells

theorem getIndex_mem_cells (hxy : 0 < planner.xyGridResolution) (hphi : 0 < planner.phiGridResolution)
    (hinside : planner.isOutside node.pose = false) (hturn : -π ≤ node.pose.phi ∧ node.pose.phi ≤ π) :
    planner.getIndex .real node ∈ planner.cells := by
  obtain ⟨⟨hx,hx'⟩,hy,hy'⟩ := isOutside_eq_false_iff.mp hinside
  have hturn0 : 0 ≤ node.pose.phi - -π := by linarith
  have hturn1 : node.pose.phi - -π ≤ 2*π := by linarith
  exact Finset.mem_product.mpr ⟨truncate_mem hxy (sub_nonneg.mpr hx) (sub_le_sub_right hx' _),
    Finset.mem_product.mpr ⟨truncate_mem hxy (sub_nonneg.mpr hy) (sub_le_sub_right hy' _),
      truncate_mem hphi hturn0 hturn1⟩⟩

theorem Indexed.take (hs : planner.Indexed origin s) {entry : GridIndex × WithTop ℝ} (hentry : entry ∈ s.openPq) :
    planner.Indexed origin ⟨s.openSet,entry.1::s.closeSet,s.openPq.erase entry⟩ := by
  have hperm : (entry.1::s.closeSet ++ (s.openPq.erase entry).map Prod.fst).Perm
      (s.closeSet ++ s.openPq.map Prod.fst) :=
    perm_middle.symm.trans (((perm_cons_erase hentry).symm.map Prod.fst).append_left _)
  exact ⟨hs.index,fun i hi => hs.opened i (hperm.mem_iff.mp hi),hperm.nodup_iff.mpr hs.nodup,
    fun i hi => hs.inCells i (hperm.mem_iff.mp hi)⟩

theorem Indexed.push (hs : planner.Indexed origin s) {index : GridIndex} {trail : Trail ℝ} {cost : WithTop ℝ}
    (hindex : planner.getIndex .real trail.node = index) (hnew : index ∉ s.openSet) (hcell : index ∈ planner.cells) :
    planner.Indexed origin ⟨s.openSet.insert index trail,s.closeSet,(index, cost)::s.openPq⟩ := by
  refine ⟨fun i found hfound => ?_,fun i hi => ?_,?_,fun i hi => ?_⟩
  · rw [Table.lookup_insert_eq_ite] at hfound
    split at hfound
    case isTrue hi =>
      cases hfound
      exact hindex.trans hi.symm
    case isFalse => exact hs.index i found hfound
  · obtain rfl | hi := mem_cons.mp (perm_middle.mem_iff.mp hi)
    · exact (AList.mem_insert _).mpr (.inl rfl)
    · exact (AList.mem_insert _).mpr (.inr (hs.opened i hi))
  · exact perm_middle.nodup_iff.mpr (nodup_cons.mpr ⟨fun hi => hnew (hs.opened _ hi),hs.nodup⟩)
  · obtain rfl | hi := mem_cons.mp (perm_middle.mem_iff.mp hi)
    · exact Finset.mem_insert_of_mem hcell
    · exact hs.inCells i hi

theorem Indexed.length_le (hs : planner.Indexed origin s) : s.closeSet.length ≤ planner.cells.card+1 := by
  rw [← toFinset_card_of_nodup (nodup_append.mp hs.nodup).1]
  refine (Finset.card_le_card fun i hi => ?_).trans (Finset.card_insert_le origin _)
  exact hs.inCells i (mem_append_left _ (mem_toFinset.mp hi))

/-- At most `n` iterations of the search are left. -/
def Left (planner : HybridAStar ℝ) (origin : GridIndex) (n : Nat) : PlanState ℝ → Prop
  | .searching _ s => planner.Indexed origin s ∧ planner.cells.card+1 ≤ s.closeSet.length+n
  | .mapping _ => False
  | _ => True

theorem left_startSearch : planner.Left (planner.getIndex .real (.ofPose sPose)) (planner.cells.card+1)
    (.searching dpMap (planner.startSearch .real (.ofPose sPose))) := by
  refine ⟨⟨fun i trail htrail => ?_,?_,nodup_singleton _,?_⟩,Nat.le_add_left _ _⟩
  · rw [startSearch,Table.lookup_insert_eq_ite] at htrail
    split at htrail
    case isTrue hi =>
      cases htrail
      exact hi.symm
    case isFalse => cases htrail
  · exact forall_mem_singleton.mpr ((AList.mem_insert _).mpr (.inl rfl))
  · exact forall_mem_singleton.mpr (Finset.mem_insert_self _ _)

section Runs
variable (hxy : 0 < planner.xyGridResolution) (hphi : 0 < planner.phiGridResolution)
include hxy hphi

theorem Indexed.visit (hs : planner.Indexed origin s ∧ planner.getIndex .real current.node ∈ s.openSet)
    (h : planner.visit .real dpMap current s i = some t) :
    (planner.Indexed origin t ∧ planner.getIndex .real current.node ∈ t.openSet) ∧ t.closeSet = s.closeSet := by
  obtain ⟨next,hnext,h⟩ := Option.bind_eq_some_iff.mp h
  cases next with
  | none =>
    cases h
    exact ⟨hs,rfl⟩
  | some next =>
    dsimp only at h
    split at h
    · cases h
      exact ⟨hs,rfl⟩
    · obtain ⟨valid,-,rfl⟩ := Option.map_eq_some_iff.mp h
      split
      case isFalse => exact ⟨hs,rfl⟩
      case isTrue =>
        split
        case h_1 => exact ⟨hs,rfl⟩
        case h_2 hnew =>
          have hnew := AList.lookup_eq_none.mp hnew
          obtain ⟨hinside,hpose | hturn⟩ := nextNodeGenerator_pose hnext
          · -- the index is that of the current node, which was found
            have hsame : planner.getIndex .real next = planner.getIndex .real current.node := by
              rw [getIndex,getIndex,hpose]
            exact absurd (hsame ▸ hs.2) hnew
          · have hcell := getIndex_mem_cells hxy hphi hinside hturn
            exact ⟨⟨hs.1.push rfl hnew hcell,(AList.mem_insert _).mpr (.inr hs.2)⟩,rfl⟩

theorem left_iterate {entry : GridIndex × WithTop ℝ} {n : Nat} (hs : planner.Indexed origin s) (hentry : entry ∈ s.openPq)
    (hleft : planner.cells.card+1 ≤ s.closeSet.length+(n+1)) (hcurrent : s.openSet.lookup entry.1 = some current)
    (answer : Option (ReedSheppPath ℝ)) : planner.Left origin n
      (planner.iterate .real dpMap { s with openPq := s.openPq.erase entry } current answer) := by
  rw [iterate]
  split
  case h_1 | h_2 => trivial
  case h_3 =>
    have hindex := hs.index _ _ hcurrent
    rw [hindex]
    split
    case h_1 => trivial
    case h_2 t ht =>
      have hopen : planner.getIndex .real current.node ∈ s.openSet := by
        rw [hindex]
        exact AList.lookup_isSome.mp (Option.isSome_of_eq_some hcurrent)
      obtain ⟨⟨ht,-⟩,hclose⟩ := foldlM_keeps (P := fun u => (planner.Indexed origin u ∧
        planner.getIndex .real current.node ∈ u.openSet) ∧ u.closeSet = entry.1::s.closeSet)
        (fun i _ u v hu hv => (Indexed.visit hxy hphi hu.1 hv).imp_right fun h => h.trans hu.2)
        ⟨⟨hs.take hentry,hopen⟩,rfl⟩ ht
      refine ⟨ht,?_⟩
      rw [hclose,length_cons]
      omega

def isSearchIteration : PlanEvent ℝ → Bool
  | .searchIteration _ _ => true
  | _ => false

theorem Left.step {s t : PlanState ℝ} {e : PlanEvent ℝ} {n : Nat} (hs : planner.Left origin n s)
    (h : (planner.planLoaded .real sPose ePose).step s e = some t) :
    ∃ k, k+(if isSearchIteration e then 1 else 0) = n ∧ planner.Left origin k t := by
  change HybridAStar.step .real planner sPose ePose.x ePose.y s e = some t at h
  unfold HybridAStar.step at h
  split at h
  case h_1 | h_2 => exact hs.elim
  case h_3 dpMap search entry answer =>
    split at h
    case isFalse => cases h
    case isTrue hentry =>
      obtain ⟨hs,hleft⟩ := hs
      have hlength : search.closeSet.length+1 ≤ _ := (hs.take hentry.1).length_le
      obtain ⟨n,rfl⟩ : ∃ k, n = k+1 := ⟨n - 1,by omega⟩
      refine ⟨n,rfl,?_⟩
      split at h
      case h_1 =>
        cases h
        trivial
      case h_2 current hcurrent =>
        cases h
        exact left_iterate hxy hphi hs hentry.1 hleft hcurrent answer
  case h_4 dpMap search =>
    split at h
    case isFalse => cases h
    case isTrue =>
      cases h
      exact ⟨n,rfl,trivial⟩
  case h_5 => cases h

theorem Left.exec {s t : PlanState ℝ} {events : List (PlanEvent ℝ)} {n : Nat} (hs : planner.Left origin n s)
    (h : (planner.planLoaded .real sPose ePose).exec s events = some t) :
    events.countP isSearchIteration ≤ n ∧ ∃ k, planner.Left origin k t := by
  induction events generalizing s n with
  | nil =>
    cases h
    exact ⟨Nat.zero_le _,n,hs⟩
  | cons e events ih =>
    obtain ⟨u,hu,h⟩ := System.exec_cons.mp h
    obtain ⟨k,rfl,hk⟩ := hs.step hxy hphi hu
    obtain ⟨hcount,ht⟩ := ih hk h
    rw [countP_cons]
    exact ⟨Nat.add_le_add_right hcount _,ht⟩

/-- An index is put into the queue and taken from it at most once: the indices taken and those in the queue are
distinct. So there is at most one iteration for each cell of the grid and one for the start. -/
theorem plan_search_ends {events : List (PlanEvent ℝ)} {t : PlanState ℝ} (h : (planner.planLoaded .real sPose ePose).exec
      (.searching dpMap (planner.startSearch .real (.ofPose sPose))) events = some t) :
    events.countP isSearchIteration ≤ planner.cells.card+1 ∧
      ∀ dpMap s, t = .searching dpMap s → (s.closeSet ++ s.openPq.map Prod.fst).Nodup := by
  obtain ⟨hcount,k,ht⟩ := Left.exec hxy hphi left_startSearch h
  refine ⟨hcount,fun dpMap s heq => ?_⟩
  rw [heq] at ht
  exact ht.1.nodup

end Runs

theorem plan_search_ends_lot : ∃ t, lotSystem.exec (.searching lotMap (lotPlanner.startSearch .real (.ofPose ⟨0,0,0⟩)))
      [.searchIteration (lotPlanner.getIndex .real (.ofPose ⟨0,0,0⟩), Node3d.getCost (.ofPose ⟨0,0,0⟩)) (some lotPath)] =
        some t ∧ 1 ≤ lotPlanner.cells.card+1 := by
  obtain ⟨result,hresult⟩ := getResult_lot
  have hexec := System.exec_cons.mpr ⟨_,step_search_lot hresult,System.exec_nil _⟩
  exact ⟨_,hexec,(plan_search_ends one_pos one_pos hexec).1⟩

end HybridAStar
end Apollo.Modules.Planning
