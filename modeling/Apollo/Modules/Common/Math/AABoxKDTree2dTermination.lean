import Apollo.Foundation.Fuel
import Apollo.Modules.Common.Math.AABoxKDTree2dQueries

/-! When the construction of an `AABoxKDTree2d` ends. Nothing is assumed of the operations: a middle may be rounded. -/
namespace Apollo.Modules.Common.Math
open Foundation List Option Int32 Relation
variable {K ο : Type} [Add K] [Sub K] [Div K] [Neg K] [Zero K] [One K] [OfNat K 2] [LinearOrder K]

/-- A node with the first objects, where the depth is no limit, hands the second ones to a subnode. -/
inductive Subnode (type : ObjectType K ο) (params : AABoxKDTreeParams K) (objects : List ο) : List ο → Prop
  | left {b : Boundary K} (hb : computeBoundary type objects = some b) (h : splitToSubNodes params b objects 0 = true) :
    Subnode type params objects (partitionObjects type b objects).1
  | right {b : Boundary K} (hb : computeBoundary type objects = some b) (h : splitToSubNodes params b objects 0 = true) :
    Subnode type params objects (partitionObjects type b objects).2.1

variable {type : ObjectType K ο} {routine : Sorting ο} {params : AABoxKDTreeParams K} {objects part : List ο}
  {b : Boundary K} {depth : Int32}

omit [Add K] [Div K] [OfNat K 2] in
theorem not_of_splitToSubNodes (h : splitToSubNodes params b objects depth = true) :
    ¬(0 ≤ params.maxDepth ∧ params.maxDepth ≤ depth) := by
  intro hlimit
  rw [splitToSubNodes,if_pos hlimit] at h
  cases h

omit [Add K] [Div K] [OfNat K 2] in
theorem splitToSubNodes_unlimited (hdepth : ¬ 0 ≤ params.maxDepth) :
    splitToSubNodes params b objects depth = splitToSubNodes params b objects 0 :=
  (if_neg fun h => hdepth h.1).trans (if_neg fun h => hdepth h.1).symm

theorem Subnode.sublist (h : Subnode type params objects part) : part.Sublist objects := by
  cases h <;> exact filter_sublist

theorem Subnode.ne_nil (h : Subnode type params objects part) : objects ≠ [] := by
  rintro rfl
  cases h with
  | left hb => cases hb
  | right hb => cases hb

theorem toInt_ofNat_length (hlen : objects.length < 2147483648) :
    (Int32.ofNat objects.length).toInt = objects.length := by
  have hint : (Int32.ofNat objects.length).toInt = (objects.length : Int).bmod 4294967296 := Int32.toInt_ofNat'
  rw [hint]
  exact Int.bmod_eq_of_le (by omega) (by omega)

omit [Div K] [Neg K] [Zero K] [One K] [OfNat K 2] in
theorem exists_initObjects (partition : Partition) (hlen : objects.length < 2147483648) :
    ∃ own, initObjects type routine partition objects = some own := by
  have hnum : ¬ Int32.ofNat objects.length < 0 := by
    rw [Int32.lt_iff_toInt_lt,toInt_ofNat_length hlen]
    exact not_lt.mpr (Int.natCast_nonneg _)
  exact ⟨_,if_neg hnum⟩

omit [Div K] [Neg K] [Zero K] [One K] [OfNat K 2] in
theorem exists_computeBoundary (hne : objects ≠ []) : ∃ b, computeBoundary type objects = some b := by
  cases objects with
  | nil => exact absurd rfl hne
  | cons => exact ⟨_,rfl⟩

section Unlimited
variable (hdepth : ¬ 0 ≤ params.maxDepth)
include hdepth

/-- A node is built only after its subnodes. -/
theorem build_subnode_eq_none {fuel : Nat} (h : Subnode type params objects part) (hne : part ≠ [])
    (hnone : build type routine params fuel part (depth+1) = none) :
    build type routine params (fuel+1) objects depth = none := by
  apply eq_none_iff_forall_ne_some.mpr
  intro _ htree
  obtain ⟨b,hb,htree⟩ := bind_eq_some_iff.mp htree
  rw [splitToSubNodes_unlimited hdepth] at htree
  cases h with
  | left hb' hsplit =>
    cases hb.symm.trans hb'
    rw [if_pos hsplit] at htree
    obtain ⟨_,-,htree⟩ := bind_eq_some_iff.mp htree
    obtain ⟨_,hleft,-⟩ := bind_eq_some_iff.mp htree
    cases hnone.symm.trans ((if_neg hne).symm.trans hleft)
  | right hb' hsplit =>
    cases hb.symm.trans hb'
    rw [if_pos hsplit] at htree
    obtain ⟨_,-,htree⟩ := bind_eq_some_iff.mp htree
    obtain ⟨_,-,htree⟩ := bind_eq_some_iff.mp htree
    obtain ⟨_,hright,-⟩ := map_eq_some_iff.mp htree
    cases hnone.symm.trans ((if_neg hne).symm.trans hright)

theorem build_same_eq_none (h : Subnode type params objects objects) (fuel : Nat) :
    build type routine params fuel objects depth = none := by
  induction fuel generalizing depth with
  | zero => rfl
  | succ fuel ih => exact build_subnode_eq_none hdepth h h.ne_nil ih

/-- If some node hands all its objects to one subnode, then none above it is built. -/
theorem build_eq_none (h : ReflTransGen (Subnode type params) objects part) (hsame : Subnode type params part part)
    (fuel : Nat) : build type routine params fuel objects depth = none := by
  induction h using ReflTransGen.head_induction_on generalizing fuel depth with
  | refl => exact build_same_eq_none hdepth hsame fuel
  | head hstep htail ih =>
    cases fuel with
    | zero => rfl
    | succ fuel =>
      refine build_subnode_eq_none hdepth hstep ?_ (ih fuel)
      obtain rfl | ⟨_,hnext,-⟩ := htail.cases_head
      · exact hsame.ne_nil
      · exact hnext.ne_nil

end Unlimited

/-- A node is built if its subnodes are. -/
theorem exists_returns_build (hne : objects ≠ []) (hlen : objects.length < 2147483648)
    (h : ∀ b, computeBoundary type objects = some b → splitToSubNodes params b objects depth = true →
      ∀ part, part = (partitionObjects type b objects).1 ∨ part = (partitionObjects type b objects).2.1 → part ≠ [] →
        ∃ tree, Returns (fun fuel => build type routine params fuel part (depth+1)) tree) :
    ∃ tree, Returns (fun fuel => build type routine params fuel objects depth) tree := by
  obtain ⟨b,hb⟩ : ∃ b, computeBoundary type objects = some b := exists_computeBoundary hne
  by_cases hsplit : splitToSubNodes params b objects depth = true
  · have hsub (part : List ο)
        (hpart : part = (partitionObjects type b objects).1 ∨ part = (partitionObjects type b objects).2.1) :
        ∃ tree, Returns (fun fuel =>
          if part = [] then some .null else build type routine params fuel part (depth+1)) tree := by
      by_cases hnil : part = []
      · exact ⟨.null,by simpa only [hnil,if_true] using returns_const _⟩
      · obtain ⟨tree,htree⟩ := h b hb hsplit part hpart hnil
        exact ⟨tree,by simpa only [hnil,if_false] using htree⟩
    obtain ⟨left,hleft⟩ := hsub _ (.inl rfl)
    obtain ⟨right,hright⟩ := hsub _ (.inr rfl)
    obtain ⟨own,hown⟩ : ∃ own, initObjects type routine b.partition (partitionObjects type b objects).2.2 = some own :=
      exists_initObjects b.partition (lt_of_le_of_lt (length_filter_le ..) hlen)
    refine ⟨.node b own left right,(hleft.bind (k := fun fuel leftSubnode =>
      (if (partitionObjects type b objects).2.1 = [] then some .null
        else build type routine params fuel (partitionObjects type b objects).2.1 (depth+1)).map
          (AABoxKDTree2dNode.node b own leftSubnode)) (hright.map _)).succ ?_⟩
    intro _
    rw [build,hb,bind_some,if_pos hsplit]
    change (initObjects type routine b.partition (partitionObjects type b objects).2.2).bind _ = _
    rw [hown]
    rfl
  · obtain ⟨own,hown⟩ : ∃ own, initObjects type routine b.partition objects = some own :=
      exists_initObjects b.partition hlen
    refine ⟨.node b own .null .null,(returns_const _).succ ?_⟩
    intro _
    rw [build,hb,bind_some,if_neg hsplit,hown]
    rfl

theorem exists_returns_of_maxDepth (hdepth : 0 ≤ depth) (hlimit : 0 ≤ params.maxDepth) (hne : objects ≠ [])
    (hlen : objects.length < 2147483648) :
    ∃ tree, Returns (fun fuel => build type routine params fuel objects depth) tree := by
  -- by induction on the depth that is left
  obtain ⟨n,hn⟩ : ∃ n : Nat, params.maxDepth.toInt - depth.toInt ≤ n := ⟨_,Int.self_le_toNat _⟩
  induction n generalizing objects depth with apply exists_returns_build hne hlen
  | zero =>
    intro _ _ hsplit
    have hstop : params.maxDepth ≤ depth := le_iff_toInt_le.mpr (by omega)
    exact absurd ⟨hlimit,hstop⟩ (not_of_splitToSubNodes hsplit)
  | succ _ ih =>
    intro _ _ hsplit part hpart hnil
    have hbelow : depth.toInt < params.maxDepth.toInt := by
      by_contra h
      exact not_of_splitToSubNodes hsplit ⟨hlimit,le_iff_toInt_le.mpr (by omega)⟩
    have hmax := params.maxDepth.toInt_lt
    have hmin : 0 ≤ depth.toInt := le_iff_toInt_le.mp hdepth
    have hnext : (depth+1).toInt = depth.toInt+1 := by
      rw [toInt_add]
      exact Int.bmod_eq_of_le (by change _ ≤ depth.toInt+1; omega) (by change depth.toInt+1 < _; omega)
    have hshorter : part.length ≤ objects.length := by
      obtain rfl | rfl := hpart <;> exact length_filter_le ..
    exact ih (le_iff_toInt_le.mpr (by rw [hnext]; change 0 ≤ _; omega)) hnil (by omega) (by omega)

/-- If no node hands all its objects to one subnode, then the construction ends. -/
theorem exists_returns_of_smaller (hdepth : ¬ 0 ≤ params.maxDepth)
    (h : ∀ part, ReflTransGen (Subnode type params) objects part → ¬ Subnode type params part part) (hne : objects ≠ [])
    (hlen : objects.length < 2147483648) :
    ∃ tree, Returns (fun fuel => build type routine params fuel objects depth) tree := by
  -- by induction on the number of objects, which is smaller in the subnodes
  obtain ⟨n,hn⟩ : ∃ n, objects.length ≤ n := ⟨_,le_rfl⟩
  induction n generalizing objects depth with
  | zero => exact absurd (eq_nil_of_length_eq_zero (Nat.le_zero.mp hn)) hne
  | succ _ ih =>
    apply exists_returns_build hne hlen
    intro b hb hsplit part hpart hnil
    rw [splitToSubNodes_unlimited hdepth] at hsplit
    have hsub : Subnode type params objects part := by
      obtain rfl | rfl := hpart
      · exact .left hb hsplit
      · exact .right hb hsplit
    have hle := hsub.sublist.length_le
    have hshorter : part.length ≠ objects.length := fun heq => by
      rw [hsub.sublist.eq_of_length heq] at hsub
      exact h objects .refl hsub
    exact ih (fun _ hreach => h _ (hreach.head hsub)) hnil (by omega) (by omega)

theorem not_subnode_singleton {object : ο} : ¬ Subnode type {} [object] part := by
  have hsplit (b : Boundary K) : splitToSubNodes ({} : AABoxKDTreeParams K) b [object] 0 = false := rfl
  intro h
  cases h with
  | left _ h => cases (hsplit _).symm.trans h
  | right _ h => cases (hsplit _).symm.trans h

end Apollo.Modules.Common.Math
