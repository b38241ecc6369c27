import Apollo.Modules.Common.Math.AABoxKDTree2d
import Mathlib.Tactic.Ring
import Mathlib.Tactic.Positivity

/-! `GetObjects` against a look at every object. `GetNearestObject` against a look at every object. The slack of the
searches does not add up over the nodes. -/
namespace Apollo.Modules.Common.Math
open Foundation List
variable {K ο : Type}

/-- The loop over sorted objects with a break finds all of them. -/
theorem AABoxKDTree2dNode.scan_eq {num : Int32} {objects : List ο} {bounds : List K} {key : ο → K} {go : K → Bool}
    {accept : ο → Bool} {r : ο → ο → Prop} (hnum : num.toNatClampNeg = objects.length)
    (hb : bounds = objects.map key) (hl : objects.Pairwise r)
    (hgo : ∀ a b, r a b → go (key a) = false → go (key b) = false)
    (hno : ∀ a ∈ objects, go (key a) = false → accept a = false) :
    scan num objects bounds go accept = objects.filter accept := by
  rw [scan,hb,← map_prod_left_eq_zip,hnum,take_of_length_le (by rw [length_map]),takeWhile_map,filterMap_map]
  have hfilter := filter_takeWhile hl hgo hno
  rw [← hfilter,← filterMap_eq_filter]
  rfl

variable [Field K] {type : ObjectType K ο} {object : ο} {point : Vec2d K} {b : Boundary K}

theorem square_sub_comm (p q : K) : square (p - q) = square (q - p) := by
  rw [square,square]
  ring

variable [LinearOrder K] [IsStrictOrderedRing K]

theorem square_nonneg (value : K) : 0 ≤ square value := mul_self_nonneg value

variable {p q lo hi : K}

theorem square_le (hp : 0 ≤ p) (h : p ≤ q) : square p ≤ square q := mul_self_le_mul_self hp h

theorem axis_lower (h : lo ≤ q ∧ q ≤ hi) :
    square (if p < lo then lo - p else if hi < p then p - hi else 0) ≤ square (p - q) := by
  split
  case isTrue hlt =>
    rw [square_sub_comm p q]
    exact square_le (by linarith) (by linarith [h.1])
  case isFalse =>
    split
    case isTrue hlt => exact square_le (by linarith) (by linarith [h.2])
    case isFalse =>
      rw [square,zero_mul]
      exact square_nonneg _

theorem axis_upper (h : lo ≤ q ∧ q ≤ hi) : square (p - q) ≤ square (if (lo+hi)/2 < p then p - lo else p - hi) := by
  split
  case isTrue =>
    apply abs_le_iff_mul_self_le.mp
    have hmid : lo+hi < 2*p := by linarith
    rw [abs_of_nonneg (a := p - lo) (by linarith [h.1,h.2]),abs_le]
    exact ⟨by linarith [h.2],by linarith [h.1]⟩
  case isFalse =>
    apply abs_le_iff_mul_self_le.mp
    rw [abs_of_nonpos (a := p - hi) (by linarith [h.1,h.2]),abs_le]
    exact ⟨by linarith [h.2],by linarith [h.1]⟩

theorem lower_le {q : Vec2d K} (h : b.Contains q) : b.lowerDistanceSquareToPoint point ≤ point.distanceSquareTo q :=
  add_le_add (axis_lower h.1) (axis_lower h.2)

theorem le_upper {q : Vec2d K} (h : b.Contains q) : point.distanceSquareTo q ≤ b.upperDistanceSquareToPoint point :=
  add_le_add (axis_upper h.1) (axis_upper h.2)

section
variable (h : type.Inside object)
include h

theorem ObjectType.Inside.lower_le (hb : (Boundary.ofBox (type.aabox object)).Within b) :
    b.lowerDistanceSquareToPoint point ≤ type.distanceSquareTo object point := by
  apply h.le_distance
  intro _ hq
  exact Math.lower_le (hb.contains hq)

theorem ObjectType.Inside.le_upper (hb : (Boundary.ofBox (type.aabox object)).Within b) :
    type.distanceSquareTo object point ≤ b.upperDistanceSquareToPoint point := by
  apply h.distance_le
  intro _ hq
  exact Math.le_upper (hb.contains hq)

theorem ObjectType.Inside.nonneg : 0 ≤ type.distanceSquareTo object point := by
  apply h.le_distance
  intro _ _
  exact add_nonneg (square_nonneg _) (square_nonneg _)

theorem ObjectType.Inside.along_le (partition : Partition) {d : K} (hd : ∀ q, (Boundary.ofBox (type.aabox object)).Contains q →
      d ≤ square (partition.valueOf point - partition.valueOf q)) : d ≤ type.distanceSquareTo object point := by
  apply h.le_distance
  intro q hq
  cases partition with
  | x => exact le_add_of_le_of_nonneg (hd q hq) (square_nonneg _)
  | y => exact le_add_of_nonneg_of_le (square_nonneg _) (hd q hq)

theorem ObjectType.Inside.min_le (partition : Partition)
    (hp : partition.valueOf point ≤ partition.minOf (type.aabox object)) :
    square (partition.minOf (type.aabox object) - partition.valueOf point) ≤ type.distanceSquareTo object point := by
  refine h.along_le partition fun q hq => ?_
  have hq : partition.minOf (type.aabox object) ≤ partition.valueOf q := by
    cases partition with
    | x => exact hq.1.1
    | y => exact hq.2.1
  rw [square_sub_comm (partition.valueOf point)]
  exact square_le (sub_nonneg.mpr hp) (sub_le_sub_right hq _)

theorem ObjectType.Inside.max_le (partition : Partition)
    (hp : partition.maxOf (type.aabox object) ≤ partition.valueOf point) :
    square (partition.maxOf (type.aabox object) - partition.valueOf point) ≤ type.distanceSquareTo object point := by
  refine h.along_le partition fun q hq => ?_
  have hq : partition.valueOf q ≤ partition.maxOf (type.aabox object) := by
    cases partition with
    | x => exact hq.1.2
    | y => exact hq.2.2
  rw [square_sub_comm]
  exact square_le (sub_nonneg.mpr hp) (sub_le_sub_left hq _)

end

namespace AABoxKDTree2dNode

/-- The loop of `GetObjectsInternal` over the objects of a node. -/
theorem scan_own {own : Objects K ο} {distance : K} (h : own.Stored type b.partition)
    (hin : ∀ object ∈ own.sortedByMin, type.Inside object) (hd : 0 ≤ distance) :
    (if b.partition.valueOf point < b.partitionPosition then
        scan own.numObjects own.sortedByMin own.sortedByMinBound
          (fun bound => bound ≤ b.partition.valueOf point+distance)
          fun object => decide (type.distanceSquareTo object point ≤ square distance)
      else
        scan own.numObjects own.sortedByMax own.sortedByMaxBound
          (fun bound => b.partition.valueOf point - distance ≤ bound)
          fun object => decide (type.distanceSquareTo object point ≤ square distance)).Perm
      (own.sortedByMin.filter fun object => decide (type.distanceSquareTo object point ≤ square distance)) := by
  split
  · rw [scan_eq h.num h.minBound h.ascending]
    · intro _ _ hac hfalse
      exact decide_eq_false fun hle => of_decide_eq_false hfalse (hac.trans hle)
    · intro a ha hfalse
      have hlt := not_le.mp (of_decide_eq_false hfalse)
      apply decide_eq_false
      intro hle
      have hmin : square (b.partition.minOf (type.aabox a) - b.partition.valueOf point) ≤
          type.distanceSquareTo a point := (hin a ha).min_le b.partition (by linarith)
      have hfar : square distance < square (b.partition.minOf (type.aabox a) - b.partition.valueOf point) :=
        mul_self_lt_mul_self hd (by linarith)
      exact absurd (hfar.trans_le hmin) (not_lt.mpr hle)
  · have hnum := h.num.trans h.perm.length_eq.symm
    rw [scan_eq hnum h.maxBound h.descending]
    · exact h.perm.filter _
    · intro _ _ hac hfalse
      exact decide_eq_false fun hle => of_decide_eq_false hfalse (hle.trans hac)
    · intro a ha hfalse
      have hlt := not_le.mp (of_decide_eq_false hfalse)
      apply decide_eq_false
      intro hle
      have hmax : square (b.partition.maxOf (type.aabox a) - b.partition.valueOf point) ≤
          type.distanceSquareTo a point := (hin a (h.perm.mem_iff.mp ha)).max_le b.partition (by linarith)
      rw [square_sub_comm] at hmax
      have hfar : square distance < square (b.partition.valueOf point - b.partition.maxOf (type.aabox a)) :=
        mul_self_lt_mul_self hd (by linarith)
      exact absurd (hfar.trans_le hmax) (not_lt.mpr hle)

theorem getObjectsInternal_perm {distance : K} (hd : 0 ≤ distance) (tree : AABoxKDTree2dNode K ο)
    (hs : tree.Sound type) (hin : ∀ object ∈ tree.getAllObjects, type.Inside object) :
    (tree.getObjectsInternal type point distance (square distance)).Perm (tree.getAllObjects.filter fun object =>
        decide (type.distanceSquareTo object point ≤ square distance)) := by
  induction tree with
  | null => exact .nil
  | node b own left right ihl ihr =>
    obtain ⟨hstored,hleft,hright,hwithin⟩ := hs
    rw [getObjectsInternal]
    split
    case isTrue hlt =>
      -- the box of the node is too far
      rw [filter_eq_nil_iff.mpr]
      intro object hmem hle
      have hlower : b.lowerDistanceSquareToPoint point ≤ type.distanceSquareTo object point :=
        (hin object hmem).lower_le (hwithin object hmem)
      exact absurd (hlt.trans_le hlower) (not_lt.mpr (of_decide_eq_true hle))
    case isFalse =>
      split
      case isTrue hle =>
        -- the box of the node is near enough
        rw [filter_eq_self.mpr]
        intro object hmem
        have hupper : type.distanceSquareTo object point ≤ b.upperDistanceSquareToPoint point :=
          (hin object hmem).le_upper (hwithin object hmem)
        exact decide_eq_true (hupper.trans hle)
      case isFalse =>
        have hown (object : ο) (hm : object ∈ own.sortedByMin) : object ∈ (node b own left right).getAllObjects :=
          mem_append_left _ (mem_append_left _ hm)
        have hl (object : ο) (hm : object ∈ left.getAllObjects) : object ∈ (node b own left right).getAllObjects :=
          mem_append_left _ (mem_append_right _ hm)
        have hr (object : ο) (hm : object ∈ right.getAllObjects) :
            object ∈ (node b own left right).getAllObjects := mem_append_right _ hm
        rw [getAllObjects,filter_append,filter_append]
        exact ((scan_own hstored (fun o hm => hin o (hown o hm)) hd).append
          (ihl hleft fun o hm => hin o (hl o hm))).append (ihr hright fun o hm => hin o (hr o hm))

end AABoxKDTree2dNode

open Int32 Option AABoxKDTree2dNode
namespace AABoxKDTree2dNode
variable {K ο : Type} [LinearOrder K] {objects objects' : List ο} {n n' n'' : Nearest K ο}

def minDistanceSqr : Nearest K ο → WithTop K
  | none => ⊤
  | some e => e.1

variable {value pvalue : K} {own : Objects K ο}

theorem minDistanceSqr_le_of_atMost (h : atMost value n = true) : minDistanceSqr n ≤ (value : K) := by
  cases n with
  | none => cases h
  | some => exact WithTop.coe_le_coe.mpr (of_decide_eq_true h)

theorem minDistanceSqr_lt_of_lessThan (h : lessThan value n = true) : minDistanceSqr n < (value : K) := by
  cases n with
  | none => cases h
  | some => exact WithTop.coe_lt_coe.mpr (of_decide_eq_true h)

variable [Field K] {type : ObjectType K ο} {point : Vec2d K}

/-- A search over the objects: the minimum is that of one of them or as before, does not increase, and comes
close to each of them. -/
structure Improves (type : ObjectType K ο) (point : Vec2d K) (objects : List ο) (nearest after : Nearest K ο) :
    Prop where
  mono : minDistanceSqr after ≤ minDistanceSqr nearest
  origin : after = nearest ∨ ∃ object ∈ objects, after = some (type.distanceSquareTo object point, object)
  covers : ∀ object ∈ objects, minDistanceSqr after ≤ (type.distanceSquareTo object point+mathEpsilon : K)

theorem Improves.skip
    (h : ∀ object ∈ objects, minDistanceSqr n ≤ (type.distanceSquareTo object point+mathEpsilon : K)) :
    Improves type point objects n n := ⟨le_rfl,.inl rfl,h⟩

theorem Improves.append (h : Improves type point objects n n') (h' : Improves type point objects' n' n'') :
    Improves type point (objects ++ objects') n n'' := by
  refine ⟨h'.mono.trans h.mono,?_,?_⟩
  · rcases h'.origin with rfl | ⟨object,hm,heq⟩
    · rcases h.origin with heq | ⟨object,hm,heq⟩
      · exact .inl heq
      · exact .inr ⟨object,mem_append_left _ hm,heq⟩
    · exact .inr ⟨object,mem_append_right _ hm,heq⟩
  · intro object hm
    rcases mem_append.mp hm with hl | hr
    · exact h'.mono.trans (h.covers object hl)
    · exact h'.covers object hr

theorem Improves.congr (h : Improves type point objects n n')
    (hm : ∀ object, object ∈ objects ↔ object ∈ objects') : Improves type point objects' n n' := by
  refine ⟨h.mono,?_,fun object ho => h.covers object ((hm object).mpr ho)⟩
  rcases h.origin with heq | ⟨object,ho,heq⟩
  · exact .inl heq
  · exact .inr ⟨object,(hm object).mp ho,heq⟩

variable [IsStrictOrderedRing K] {b : Boundary K}

theorem mathEpsilon_nonneg : (0 : K) ≤ mathEpsilon := by
  rw [mathEpsilon]
  positivity

theorem coe_le_add_mathEpsilon (value : K) : (value : WithTop K) ≤ (value+mathEpsilon : K) :=
  WithTop.coe_le_coe.mpr (le_add_of_nonneg_right mathEpsilon_nonneg)

theorem Improves.done (h : atMost mathEpsilon n = true) (hin : ∀ object ∈ objects, type.Inside object) :
    Improves type point objects n n := by
  apply Improves.skip
  intro object hm
  apply (minDistanceSqr_le_of_atMost h).trans
  exact WithTop.coe_le_coe.mpr (le_add_of_nonneg_left (hin object hm).nonneg)

theorem improve_improves (object : ο) : Improves type point [object] n (improve type point n object) := by
  cases n with
  | none =>
    refine ⟨le_top,.inr ⟨object,mem_cons_self,rfl⟩,fun other hm => ?_⟩
    cases mem_singleton.mp hm
    exact coe_le_add_mathEpsilon _
  | some e =>
    by_cases hlt : type.distanceSquareTo object point < e.1
    · have heq : improve type point (some e) object = some (type.distanceSquareTo object point, object) :=
        if_pos (decide_eq_true hlt)
      rw [heq]
      refine ⟨WithTop.coe_le_coe.mpr hlt.le,.inr ⟨object,mem_cons_self,rfl⟩,fun other hm => ?_⟩
      cases mem_singleton.mp hm
      exact coe_le_add_mathEpsilon _
    · have heq : improve type point (some e) object = some e :=
        if_neg fun hall => hlt (of_decide_eq_true hall)
      rw [heq]
      apply Improves.skip
      intro _ hm
      cases mem_singleton.mp hm
      exact (WithTop.coe_le_coe.mpr (not_lt.mp hlt)).trans (coe_le_add_mathEpsilon _)

theorem scanNearest_improves {key : ο → K} {beyond : K → Bool} {r : ο → ο → Prop} (hl : objects.Pairwise r)
    (hbeyond : ∀ a c, r a c → beyond (key a) = true →
      beyond (key c) = true ∧ square (key a - pvalue) ≤ square (key c - pvalue))
    (hfar : ∀ a ∈ objects, beyond (key a) = true →
      square (key a - pvalue) ≤ type.distanceSquareTo a point) : Improves type point objects n
      (scanNearest type point pvalue beyond (objects.map fun object => (object, key object)) n) := by
  induction objects generalizing n with
  | nil => exact .skip nofun
  | cons a _ ih =>
    obtain ⟨hhead,htail⟩ := pairwise_cons.mp hl
    rw [map_cons,scanNearest]
    split
    case isTrue hstop =>
      -- the bounds of the others are at least as far
      obtain ⟨hb,hlt⟩ := Bool.and_eq_true_iff.mp hstop
      apply Improves.skip
      intro object hm
      have hsquare : square (key a - pvalue) ≤ type.distanceSquareTo object point := by
        rcases mem_cons.mp hm with rfl | hin
        · exact hfar object hm hb
        · obtain ⟨hb',hle⟩ := hbeyond a object (hhead object hin) hb
          exact hle.trans (hfar object hm hb')
      apply (minDistanceSqr_lt_of_lessThan hlt).le.trans
      exact (WithTop.coe_le_coe.mpr hsquare).trans (coe_le_add_mathEpsilon _)
    case isFalse =>
      have htail' := ih (n := improve type point n a) htail fun c hc => hfar c (mem_cons_of_mem a hc)
      exact (improve_improves a).append htail'

theorem scanNearest_min (h : own.Stored type b.partition) (hin : ∀ object ∈ own.sortedByMin, type.Inside object) :
    Improves type point own.sortedByMin n (scanNearest type point (b.partition.valueOf point)
      (fun bound => decide (b.partition.valueOf point < bound))
      ((own.sortedByMin.zip own.sortedByMinBound).take own.numObjects.toNatClampNeg) n) := by
  rw [h.minBound,← map_prod_left_eq_zip,h.num,take_of_length_le (by rw [length_map])]
  apply scanNearest_improves h.ascending
  · intro _ _ hac hb
    have hlt := of_decide_eq_true hb
    exact ⟨decide_eq_true (hlt.trans_le hac),square_le (sub_nonneg.mpr hlt.le) (sub_le_sub_right hac _)⟩
  · intro a ha hb
    exact (hin a ha).min_le b.partition (of_decide_eq_true hb).le

theorem scanNearest_max (h : own.Stored type b.partition) (hin : ∀ object ∈ own.sortedByMin, type.Inside object) :
    Improves type point own.sortedByMin n (scanNearest type point (b.partition.valueOf point)
      (fun bound => decide (bound < b.partition.valueOf point))
      ((own.sortedByMax.zip own.sortedByMaxBound).take own.numObjects.toNatClampNeg) n) := by
  have hnum := h.num.trans h.perm.length_eq.symm
  rw [h.maxBound,← map_prod_left_eq_zip,hnum,take_of_length_le (by rw [length_map])]
  refine Improves.congr ?_ fun _ => h.perm.mem_iff
  apply scanNearest_improves h.descending
  · intro _ c hac hb
    have hlt := of_decide_eq_true hb
    refine ⟨decide_eq_true (hac.trans_lt hlt),?_⟩
    rw [square_sub_comm,square_sub_comm (b.partition.maxOf (type.aabox c))]
    exact square_le (sub_nonneg.mpr hlt.le) (sub_le_sub_left hac _)
  · intro a ha hb
    exact (hin a (h.perm.mem_iff.mp ha)).max_le b.partition (of_decide_eq_true hb).le

/-- The two subnodes and the objects between them, with the returns of a small minimum. -/
theorem staged {first own second : List ο} {f g k : Nearest K ο → Nearest K ο}
    (hf : ∀ n, Improves type point first n (f n)) (hg : ∀ n, Improves type point own n (g n))
    (hk : ∀ n, Improves type point second n (k n)) (hown : ∀ object ∈ own, type.Inside object)
    (hsecond : ∀ object ∈ second, type.Inside object) :
    Improves type point (first ++ own ++ second) n (if atMost mathEpsilon (f n) then f n
      else if atMost mathEpsilon (g (f n)) then g (f n) else k (g (f n))) := by
  split
  case isTrue hdone => exact ((hf n).append (.done hdone hown)).append (.done hdone hsecond)
  case isFalse =>
    split
    case isTrue hdone => exact ((hf n).append (hg _)).append (.done hdone hsecond)
    case isFalse => exact ((hf n).append (hg _)).append (hk _)

theorem getNearestObjectInternal_improves (tree : AABoxKDTree2dNode K ο) (hs : tree.Sound type)
    (hin : ∀ object ∈ tree.getAllObjects, type.Inside object) (n : Nearest K ο) :
    Improves type point tree.getAllObjects n (tree.getNearestObjectInternal type point n) := by
  induction tree generalizing n with
  | null => exact .skip nofun
  | node b own left right ihl ihr =>
    obtain ⟨hstored,hleft,hright,hwithin⟩ := hs
    have hmem (object : ο) : object ∈ (node b own left right).getAllObjects ↔
        (object ∈ own.sortedByMin ∨ object ∈ left.getAllObjects) ∨ object ∈ right.getAllObjects := by
      rw [getAllObjects,mem_append,mem_append]
    have hown (object : ο) (hm : object ∈ own.sortedByMin) := hin object ((hmem object).mpr (.inl (.inl hm)))
    have hl (object : ο) (hm : object ∈ left.getAllObjects) := hin object ((hmem object).mpr (.inl (.inr hm)))
    have hr (object : ο) (hm : object ∈ right.getAllObjects) := hin object ((hmem object).mpr (.inr hm))
    rw [getNearestObjectInternal]
    split
    case isTrue hprune =>
      -- no object of the node is nearer than its box
      apply Improves.skip
      intro object hm
      cases n with
      | none => cases hprune
      | some =>
        have hle := of_decide_eq_true hprune
        have hlower : b.lowerDistanceSquareToPoint point ≤ type.distanceSquareTo object point :=
          (hin object hm).lower_le (hwithin object hm)
        exact WithTop.coe_le_coe.mpr (sub_le_iff_le_add.mp (hle.trans hlower))
    case isFalse =>
      by_cases hfirst : b.partition.valueOf point < b.partitionPosition
      · simp only [decide_eq_true hfirst,if_true]
        refine (staged (ihl hleft hl) (fun _ => scanNearest_min hstored hown) (ihr hright hr) hown hr).congr ?_
        intro object
        rw [hmem,mem_append,mem_append,or_comm (a := object ∈ left.getAllObjects)]
      · simp only [decide_eq_false hfirst,Bool.false_eq_true,if_false]
        refine (staged (ihr hright hr) (fun _ => scanNearest_max hstored hown) (ihl hleft hl) hown hl).congr ?_
        intro _
        rw [hmem,mem_append,mem_append]
        tauto

end AABoxKDTree2dNode

variable {K ο : Type} [Field K] [LinearOrder K] {type : ObjectType K ο} {routine : Sorting ο}
  {params : AABoxKDTreeParams K} {objects : List ο} {fuel : Nat} {tree : AABoxKDTree2dNode K ο}

theorem buildTree_spec (hlen : objects.length < 2^32) (h : buildTree type routine params fuel objects = some tree) :
    tree.Sound type ∧ tree.getAllObjects.Perm objects := by
  rw [buildTree] at h
  split at h
  case isTrue hnil =>
    cases h
    exact ⟨trivial,hnil ▸ List.Perm.nil⟩
  case isFalse => exact build_spec hlen h

def pointType : ObjectType K (Vec2d K) := ⟨fun q => ⟨q,0,0⟩,fun q point => point.distanceSquareTo q⟩

theorem pointType_inside (q : Vec2d K) : (pointType : ObjectType K (Vec2d K)).Inside q := by
  refine ⟨{q},Set.singleton_nonempty q,?_,?_⟩
  · rintro _ rfl
    refine ⟨⟨(sub_zero _).le,(add_zero _).ge⟩,(sub_zero _).le,(add_zero _).ge⟩
  · intro _
    rw [Set.image_singleton]
    exact isGLB_singleton

theorem splitToSubNodes_cast_zero (b : Boundary K) (depth : Int32) (hzero : ofNat objects.length = 0) :
    splitToSubNodes params b objects depth = false := by
  have hmax : (0 : Int32) ≤ max 1 params.maxLeafSize := by
    change 0 ≤ if 1 ≤ params.maxLeafSize then params.maxLeafSize else 1
    split
    case isTrue hle => exact Int32.le_trans (by decide) hle
    case isFalse => decide
  rw [splitToSubNodes,hzero,if_pos hmax,ite_self]

theorem initObjects_cast_zero (partition : Partition) (hzero : ofNat objects.length = 0) :
    ∃ own, initObjects type routine partition objects = some own ∧ own.numObjects = 0 := by
  have hnum : ¬ ofNat objects.length < 0 := by
    rw [hzero]
    decide
  exact ⟨_,if_neg hnum,hzero⟩

theorem AABoxKDTree2dNode.getNearestObject_leaf {own : Objects K ο} (b : Boundary K) (point : Vec2d K)
    (hnum : own.numObjects = 0) :
    (node b own .null .null).getNearestObject type point = none := by
  have hzero : own.numObjects.toNatClampNeg = 0 := by rw [hnum]; rfl
  rw [getNearestObject,getNearestObjectInternal,hzero]
  simp only [take_zero,scanNearest,getNearestObjectInternal,ite_self,map_none]

theorem buildTree_cast_zero (hne : objects ≠ []) (hzero : ofNat objects.length = 0) :
    ∃ tree, buildTree type routine params 1 objects = some tree ∧
      ∀ point, tree.getNearestObject type point = none := by
  obtain ⟨b,hb⟩ : ∃ b, computeBoundary type objects = some b := by
    cases objects with
    | nil => exact absurd rfl hne
    | cons => exact ⟨_,rfl⟩
  obtain ⟨own,hown,hnum⟩ : ∃ own, initObjects type routine b.partition objects = some own ∧
    own.numObjects = 0 := initObjects_cast_zero b.partition hzero
  refine ⟨.node b own .null .null,?_,fun point => getNearestObject_leaf b point hnum⟩
  rw [buildTree,if_neg hne,build,hb,bind_some,splitToSubNodes_cast_zero b 0 hzero,hown]
  rfl

variable [IsStrictOrderedRing K]

/-- Both queries find what a look at every object finds. -/
theorem queries_eq_all_objects (hne : objects ≠ []) (hlen : objects.length < 2^32)
    (hin : ∀ object ∈ objects, type.Inside object)
    (h : buildTree type routine params fuel objects = some tree) (point : Vec2d K) :
    (∃ object ∈ objects, tree.getNearestObject type point = some object ∧
      ∀ other ∈ objects, type.distanceSquareTo object point ≤ type.distanceSquareTo other point+mathEpsilon) ∧
    ∀ distance, 0 ≤ distance → (tree.getObjects type point distance).Perm
      (objects.filter fun object => decide (type.distanceSquareTo object point ≤ square distance)) := by
  obtain ⟨hs,hperm⟩ := buildTree_spec hlen h
  have hin' (object : ο) (hm : object ∈ tree.getAllObjects) := hin object (hperm.mem_iff.mp hm)
  constructor
  · have himp : AABoxKDTree2dNode.Improves type point tree.getAllObjects none
        (tree.getNearestObjectInternal type point none) := tree.getNearestObjectInternal_improves hs hin' none
    obtain ⟨first,hfirst⟩ := exists_mem_of_ne_nil objects hne
    rcases himp.origin with hnone | ⟨object,hm,hsome⟩
    · -- the minimum is finite, since there is an object
      have htop := himp.covers first (hperm.mem_iff.mpr hfirst)
      rw [hnone] at htop
      exact absurd htop (WithTop.not_top_le_coe _)
    · refine ⟨object,hperm.mem_iff.mp hm,?_,?_⟩
      · rw [getNearestObject,hsome]
        rfl
      · intro other hother
        have hcover := himp.covers other (hperm.mem_iff.mpr hother)
        rw [hsome] at hcover
        exact WithTop.coe_le_coe.mp hcover
  · intro _ hd
    exact (getObjectsInternal_perm hd tree hs hin').trans (hperm.filter _)

/-- Three points, split twice. -/
theorem queries_eq_all_objects_points : ∃ tree : AABoxKDTree2dNode ℚ (Vec2d ℚ),
    buildTree (pointType : ObjectType ℚ (Vec2d ℚ)) (.insertion _) {} 3 [⟨0,0⟩,⟨3,0⟩,⟨2,1⟩] = some tree ∧
    (∃ object ∈ ([⟨0,0⟩,⟨3,0⟩,⟨2,1⟩] : List (Vec2d ℚ)), tree.getNearestObject pointType ⟨1,1⟩ = some object ∧
      ∀ other ∈ ([⟨0,0⟩,⟨3,0⟩,⟨2,1⟩] : List (Vec2d ℚ)),
        pointType.distanceSquareTo object ⟨1,1⟩ ≤ pointType.distanceSquareTo other ⟨1,1⟩+mathEpsilon) ∧
    ∀ distance, 0 ≤ distance → (tree.getObjects pointType ⟨1,1⟩ distance).Perm
      ([⟨0,0⟩,⟨3,0⟩,⟨2,1⟩].filter fun object =>
        decide (pointType.distanceSquareTo object ⟨1,1⟩ ≤ square distance)) := by
  have hsome : (buildTree (pointType : ObjectType ℚ (Vec2d ℚ)) (.insertion _) {} 3
      [⟨0,0⟩,⟨3,0⟩,⟨2,1⟩]).isSome = true := by decide +kernel
  obtain ⟨tree,h⟩ := isSome_iff_exists.mp hsome
  exact ⟨tree,h,queries_eq_all_objects (by decide) (by decide) (fun q _ => pointType_inside q) h ⟨1,1⟩⟩

/-- With `2 ^ 32` objects the tree is a leaf in which nothing is found. -/
theorem nearest_lost_by_cast : ∃ (objects : List (Vec2d ℚ)) (tree : AABoxKDTree2dNode ℚ (Vec2d ℚ)),
    objects ≠ [] ∧ (∀ object ∈ objects, (pointType : ObjectType ℚ (Vec2d ℚ)).Inside object) ∧
    buildTree (pointType : ObjectType ℚ (Vec2d ℚ)) (.insertion _) {} 1 objects = some tree ∧
    tree.getNearestObject pointType ⟨0,0⟩ = none := by
  have hlen : (List.replicate (2^32) (⟨0,0⟩ : Vec2d ℚ)).length = 2^32 := length_replicate
  have hne : List.replicate (2^32) (⟨0,0⟩ : Vec2d ℚ) ≠ [] := by
    apply ne_nil_of_length_pos
    rw [hlen]
    decide
  have hzero : ofNat (List.replicate (2^32) (⟨0,0⟩ : Vec2d ℚ)).length = 0 := by
    rw [hlen]
    decide
  obtain ⟨tree,htree,hnone⟩ : ∃ tree, buildTree (pointType : ObjectType ℚ (Vec2d ℚ)) (.insertion _) {} 1
      (List.replicate (2^32) ⟨0,0⟩) = some tree ∧ ∀ point, tree.getNearestObject pointType point = none :=
    buildTree_cast_zero hne hzero
  exact ⟨_,tree,hne,fun q _ => pointType_inside q,htree,hnone ⟨0,0⟩⟩

end Apollo.Modules.Common.Math
