import Apollo.Foundation.Numerals
import Apollo.Foundation.Sorting
import Mathlib.Algebra.Order.Field.Basic
import Mathlib.Tactic.Linarith

/-! `AABoxKDTree2d`. A node keeps the objects that cross its partition line, sorted by both ends of their boxes, and has
the others in its subnodes. The construction is over any operations on an order, so that it may round, the queries are
over a field. -/
namespace Apollo.Modules.Common.Math
open Foundation

structure Vec2d (K : Type) where
  x : K
  y : K
  deriving DecidableEq

structure AABox2d (K : Type) where
  center : Vec2d K
  halfLength : K
  halfWidth : K

structure ObjectType (K ο : Type) where
  aabox : ο → AABox2d K
  distanceSquareTo : ο → Vec2d K → K

inductive Partition
  | x
  | y
  deriving DecidableEq

structure Boundary (K : Type) where
  minX : K
  maxX : K
  minY : K
  maxY : K

structure Objects (K ο : Type) where
  numObjects : Int32
  sortedByMin : List ο
  sortedByMax : List ο
  sortedByMinBound : List K
  sortedByMaxBound : List K

structure AABoxKDTreeParams (K : Type) [Neg K] [One K] where
  maxDepth : Int32 := -1
  maxLeafSize : Int32 := -1
  maxLeafDimension : K := -1

/-- `null` is the missing subnode. -/
inductive AABoxKDTree2dNode (K ο : Type)
  | null
  | node (boundary : Boundary K) (objects : Objects K ο) (left right : AABoxKDTree2dNode K ο)

variable {K ο : Type}

section Arithmetic
variable [Add K] [Sub K] [Div K] [OfNat K 2] [LinearOrder K]

namespace AABox2d

def minX (box : AABox2d K) : K := box.center.x - box.halfLength

def maxX (box : AABox2d K) : K := box.center.x+box.halfLength

def minY (box : AABox2d K) : K := box.center.y - box.halfWidth

def maxY (box : AABox2d K) : K := box.center.y+box.halfWidth

end AABox2d

namespace Boundary

def midX (b : Boundary K) : K := (b.minX+b.maxX)/2

def midY (b : Boundary K) : K := (b.minY+b.maxY)/2

def ofBox (box : AABox2d K) : Boundary K := ⟨box.minX,box.maxX,box.minY,box.maxY⟩

def extend (b : Boundary K) (box : AABox2d K) : Boundary K :=
  ⟨min b.minX box.minX,max b.maxX box.maxX,min b.minY box.minY,max b.maxY box.maxY⟩

def partition (b : Boundary K) : Partition := if b.maxY - b.minY ≤ b.maxX - b.minX then .x else .y

def partitionPosition (b : Boundary K) : K :=
  match b.partition with
  | .x => (b.minX+b.maxX)/2
  | .y => (b.minY+b.maxY)/2

end Boundary

def Partition.minOf (box : AABox2d K) : Partition → K
  | x => box.minX
  | y => box.minY

def Partition.maxOf (box : AABox2d K) : Partition → K
  | x => box.maxX
  | y => box.maxY

def Partition.valueOf (point : Vec2d K) : Partition → K
  | x => point.x
  | y => point.y

end Arithmetic

section Construction
variable [Add K] [Sub K] [Div K] [Neg K] [Zero K] [One K] [OfNat K 2] [LinearOrder K]
variable (type : ObjectType K ο) (routine : Sorting ο) (params : AABoxKDTreeParams K)

def computeBoundary : List ο → Option (Boundary K)
  | [] => none
  | object::objects =>
    some (objects.foldl (fun b object => b.extend (type.aabox object)) (.ofBox (type.aabox object)))

/-- `InitObjects`. A negative number is too large for `reserve`. -/
def initObjects (partition : Partition) (objects : List ο) : Option (Objects K ο) :=
  let minOf object := partition.minOf (type.aabox object)
  let maxOf object := partition.maxOf (type.aabox object)
  let numObjects := Int32.ofNat objects.length
  let sortedByMin := routine.sort (fun a b => decide (minOf a < minOf b)) objects
  let sortedByMax := routine.sort (fun a b => decide (maxOf b < maxOf a)) objects
  if numObjects < 0 then none
  else some ⟨numObjects,sortedByMin,sortedByMax,sortedByMin.map minOf,sortedByMax.map maxOf⟩

def splitToSubNodes (b : Boundary K) (objects : List ο) (depth : Int32) : Bool :=
  if 0 ≤ params.maxDepth ∧ params.maxDepth ≤ depth then false
  else if Int32.ofNat objects.length ≤ max 1 params.maxLeafSize then false
  else if 0 ≤ params.maxLeafDimension ∧ max (b.maxX - b.minX) (b.maxY - b.minY) ≤ params.maxLeafDimension then
    false
  else true

def goesLeft (b : Boundary K) (object : ο) : Bool := b.partition.maxOf (type.aabox object) ≤ b.partitionPosition

def goesRight (b : Boundary K) (object : ο) : Bool := b.partitionPosition ≤ b.partition.minOf (type.aabox object)

/-- `PartitionObjects`: the objects of the left and of the right subnode, and the others. -/
def partitionObjects (b : Boundary K) (objects : List ο) : List ο × List ο × List ο :=
  (objects.filter (goesLeft type b), objects.filter fun object => !goesLeft type b object && goesRight type b object,
    objects.filter fun object => !goesLeft type b object && !goesRight type b object)

/-- The constructor of a node. The recursion need not end. -/
def build : Nat → List ο → Int32 → Option (AABoxKDTree2dNode K ο)
  | 0, _, _ => none
  | fuel+1, objects, depth =>
    (computeBoundary type objects).bind fun b =>
      if splitToSubNodes params b objects depth then
        let (left, right, other) := partitionObjects type b objects
        (initObjects type routine b.partition other).bind fun own =>
          (if left = [] then some .null else build fuel left (depth+1)).bind fun leftSubnode =>
            (if right = [] then some .null else build fuel right (depth+1)).map fun rightSubnode =>
              .node b own leftSubnode rightSubnode
      else (initObjects type routine b.partition objects).map fun own => .node b own .null .null

def buildTree (fuel : Nat) (objects : List ο) : Option (AABoxKDTree2dNode K ο) :=
  if objects = [] then some .null else build type routine params fuel objects 0

end Construction

variable [Field K] [LinearOrder K]

def mathEpsilon : K := 1/10^10

/-- The largest finite value of a `double`. -/
def doubleMax : K := 2^1024 - 2^971

theorem le_doubleMax [IsStrictOrderedRing K] : (2 : K)^971 ≤ doubleMax := by
  rw [doubleMax,le_sub_iff_add_le]
  calc (2 : K)^971+2^971 = 2^972 := by rw [← mul_two,← pow_succ]
    _ ≤ 2^1024 := pow_le_pow_right₀ one_le_two (by decide)

theorem pow_le_doubleMax [IsStrictOrderedRing K] {n : Nat} (h : n ≤ 971) : (2 : K)^n ≤ doubleMax :=
  (pow_le_pow_right₀ one_le_two h).trans le_doubleMax

theorem doubleMax_pos [IsStrictOrderedRing K] : (0 : K) < doubleMax := (pow_pos two_pos 971).trans_le le_doubleMax

def square (value : K) : K := value*value

namespace Boundary

def lowerDistanceSquareToPoint (b : Boundary K) (point : Vec2d K) : K :=
  let dx :=
    if point.x < b.minX then b.minX - point.x
    else if b.maxX < point.x then point.x - b.maxX else 0
  let dy :=
    if point.y < b.minY then b.minY - point.y
    else if b.maxY < point.y then point.y - b.maxY else 0
  dx*dx+dy*dy

def upperDistanceSquareToPoint (b : Boundary K) (point : Vec2d K) : K :=
  let dx := if b.midX < point.x then point.x - b.minX else point.x - b.maxX
  let dy := if b.midY < point.y then point.y - b.minY else point.y - b.maxY
  dx*dx+dy*dy

end Boundary

namespace AABoxKDTree2dNode
variable (type : ObjectType K ο) (point : Vec2d K)

def getAllObjects : AABoxKDTree2dNode K ο → List ο
  | null => []
  | node _ own left right => own.sortedByMin ++ left.getAllObjects ++ right.getAllObjects

/-- A loop over the first `num` objects of a node with their bounds, up to a break. -/
def scan (num : Int32) (objects : List ο) (bounds : List K) (go : K → Bool) (accept : ο → Bool) : List ο :=
  (((objects.zip bounds).take num.toNatClampNeg).takeWhile fun e => go e.2).filterMap fun e =>
    if accept e.1 then some e.1 else none

def getObjectsInternal (distance distanceSqr : K) : AABoxKDTree2dNode K ο → List ο
  | null => []
  | node b own left right =>
    if distanceSqr < b.lowerDistanceSquareToPoint point then []
    else if b.upperDistanceSquareToPoint point ≤ distanceSqr then (node b own left right).getAllObjects
    else
      let pvalue := b.partition.valueOf point
      let accept object := decide (type.distanceSquareTo object point ≤ distanceSqr)
      (if pvalue < b.partitionPosition then
        scan own.numObjects own.sortedByMin own.sortedByMinBound (fun bound => bound ≤ pvalue+distance) accept
      else
        scan own.numObjects own.sortedByMax own.sortedByMaxBound (fun bound => pvalue - distance ≤ bound) accept)
      ++ left.getObjectsInternal distance distanceSqr ++ right.getObjectsInternal distance distanceSqr

def getObjects (tree : AABoxKDTree2dNode K ο) (distance : K) : List ο :=
  tree.getObjectsInternal type point distance (square distance)

/-- `min_distance_sqr` and `nearest_object`. They start with infinity and no object. -/
abbrev Nearest (K ο : Type) := Option (K × ο)

def atMost (value : K) (nearest : Nearest K ο) : Bool := nearest.any fun e => e.1 ≤ value

def lessThan (value : K) (nearest : Nearest K ο) : Bool := nearest.any fun e => e.1 < value

/-- The body of the loops over the objects of a node. -/
def improve (nearest : Nearest K ο) (object : ο) : Nearest K ο :=
  let distanceSqr := type.distanceSquareTo object point
  if nearest.all fun e => distanceSqr < e.1 then some (distanceSqr, object) else nearest

/-- A loop over the objects of a node with their bounds. `beyond` tells on which side of the point a bound
has to be for the break. -/
def scanNearest (pvalue : K) (beyond : K → Bool) : List (ο × K) → Nearest K ο → Nearest K ο
  | [], nearest => nearest
  | (object, bound)::rest, nearest =>
    if beyond bound && lessThan (square (bound - pvalue)) nearest then nearest
    else scanNearest pvalue beyond rest (improve type point nearest object)

def getNearestObjectInternal : AABoxKDTree2dNode K ο → Nearest K ο → Nearest K ο
  | null, nearest => nearest
  | node b own left right, nearest =>
    if nearest.any fun e => e.1 - mathEpsilon ≤ b.lowerDistanceSquareToPoint point then nearest
    else
      let pvalue := b.partition.valueOf point
      let searchLeftFirst := decide (pvalue < b.partitionPosition)
      let num := own.numObjects.toNatClampNeg
      let nearest := if searchLeftFirst then left.getNearestObjectInternal nearest
        else right.getNearestObjectInternal nearest
      if atMost mathEpsilon nearest then nearest
      else
        let nearest := if searchLeftFirst then
            scanNearest type point pvalue (fun bound => pvalue < bound)
              ((own.sortedByMin.zip own.sortedByMinBound).take num) nearest
          else
            scanNearest type point pvalue (fun bound => bound < pvalue)
              ((own.sortedByMax.zip own.sortedByMaxBound).take num) nearest
        if atMost mathEpsilon nearest then nearest
        else if searchLeftFirst then right.getNearestObjectInternal nearest
        else left.getNearestObjectInternal nearest

def getNearestObject (tree : AABoxKDTree2dNode K ο) : Option ο :=
  (tree.getNearestObjectInternal type point none).map Prod.snd

end AABoxKDTree2dNode

open List Int32
variable {K ο : Type} [LinearOrder K]

def Boundary.Contains (b : Boundary K) (q : Vec2d K) : Prop :=
  (b.minX ≤ q.x ∧ q.x ≤ b.maxX) ∧ b.minY ≤ q.y ∧ q.y ≤ b.maxY

def Boundary.Within (a b : Boundary K) : Prop :=
  (b.minX ≤ a.minX ∧ a.maxX ≤ b.maxX) ∧ b.minY ≤ a.minY ∧ a.maxY ≤ b.maxY

theorem Boundary.Within.refl (b : Boundary K) : b.Within b := ⟨⟨le_rfl,le_rfl⟩,le_rfl,le_rfl⟩

variable {b a c : Boundary K} {objects other leftObjects rightObjects : List ο} {own : Objects K ο}

theorem Boundary.Within.trans (h : a.Within b) (h' : b.Within c) : a.Within c :=
  ⟨⟨h'.1.1.trans h.1.1,h.1.2.trans h'.1.2⟩,h'.2.1.trans h.2.1,h.2.2.trans h'.2.2⟩

theorem Boundary.Within.contains {q : Vec2d K} (h : a.Within b) (hq : a.Contains q) : b.Contains q :=
  ⟨⟨h.1.1.trans hq.1.1,hq.1.2.trans h.1.2⟩,h.2.1.trans hq.2.1,hq.2.2.trans h.2.2⟩

variable [Field K]

def Vec2d.distanceSquareTo (point q : Vec2d K) : K := square (point.x - q.x)+square (point.y - q.y)

/-- The object is a set of points in its box, and its distance is the greatest lower bound of theirs. -/
def ObjectType.Inside (type : ObjectType K ο) (object : ο) : Prop :=
  ∃ region : Set (Vec2d K), region.Nonempty ∧ (∀ q ∈ region, (Boundary.ofBox (type.aabox object)).Contains q) ∧
    ∀ point, IsGLB (point.distanceSquareTo '' region) (type.distanceSquareTo object point)

theorem Boundary.within_extend (b : Boundary K) (box : AABox2d K) : b.Within (b.extend box) :=
  ⟨⟨min_le_left ..,le_max_left ..⟩,min_le_left ..,le_max_left ..⟩

theorem Boundary.ofBox_within_extend (b : Boundary K) (box : AABox2d K) :
    (Boundary.ofBox box).Within (b.extend box) :=
  ⟨⟨min_le_right ..,le_max_right ..⟩,min_le_right ..,le_max_right ..⟩

section Objects
variable {type : ObjectType K ο} {object : ο} {point : Vec2d K} {value : K}

theorem ObjectType.Inside.le_distance (h : type.Inside object)
    (hle : ∀ q, (Boundary.ofBox (type.aabox object)).Contains q → value ≤ point.distanceSquareTo q) :
    value ≤ type.distanceSquareTo object point := by
  obtain ⟨_,_,hbox,hglb⟩ := h
  apply (hglb point).2
  rintro _ ⟨q,hq,rfl⟩
  exact hle q (hbox q hq)

theorem ObjectType.Inside.distance_le (h : type.Inside object)
    (hle : ∀ q, (Boundary.ofBox (type.aabox object)).Contains q → point.distanceSquareTo q ≤ value) :
    type.distanceSquareTo object point ≤ value := by
  obtain ⟨_,⟨q,hq⟩,hbox,hglb⟩ := h
  exact ((hglb point).1 ⟨q,hq,rfl⟩).trans (hle q (hbox q hq))

end Objects

variable {type : ObjectType K ο}

theorem foldl_within (objects : List ο) (b : Boundary K) :
    b.Within (objects.foldl (fun b object => b.extend (type.aabox object)) b) ∧
      ∀ object ∈ objects, (Boundary.ofBox (type.aabox object)).Within
        (objects.foldl (fun b object => b.extend (type.aabox object)) b) := by
  induction objects generalizing b with
  | nil => exact ⟨.refl b,nofun⟩
  | cons object _ ih =>
    obtain ⟨hb,hall⟩ := ih (b.extend (type.aabox object))
    refine ⟨(b.within_extend _).trans hb,?_⟩
    intro other hmem
    rcases mem_cons.mp hmem with rfl | hin
    · exact (b.ofBox_within_extend _).trans hb
    · exact hall other hin

theorem computeBoundary_within (h : computeBoundary type objects = some b) :
    ∀ object ∈ objects, (Boundary.ofBox (type.aabox object)).Within b := by
  cases objects with
  | nil => cases h
  | cons object objects =>
    cases h
    obtain ⟨hb,hall⟩ := foldl_within objects (.ofBox (type.aabox object))
    intro other hmem
    rcases mem_cons.mp hmem with rfl | hin
    · exact hb
    · exact hall other hin

/-- The objects of a node are there in both orders, with their bounds. -/
structure Objects.Stored (type : ObjectType K ο) (partition : Partition) (own : Objects K ο) : Prop where
  num : own.numObjects.toNatClampNeg = own.sortedByMin.length
  perm : own.sortedByMax.Perm own.sortedByMin
  minBound : own.sortedByMinBound = own.sortedByMin.map fun object => partition.minOf (type.aabox object)
  maxBound : own.sortedByMaxBound = own.sortedByMax.map fun object => partition.maxOf (type.aabox object)
  ascending : own.sortedByMin.Pairwise fun a b =>
    partition.minOf (type.aabox a) ≤ partition.minOf (type.aabox b)
  descending : own.sortedByMax.Pairwise fun a b =>
    partition.maxOf (type.aabox b) ≤ partition.maxOf (type.aabox a)

namespace AABoxKDTree2dNode

def Sound (type : ObjectType K ο) : AABoxKDTree2dNode K ο → Prop
  | null => True
  | node b own left right => own.Stored type b.partition ∧ left.Sound type ∧ right.Sound type ∧
      ∀ object ∈ (node b own left right).getAllObjects, (Boundary.ofBox (type.aabox object)).Within b

end AABoxKDTree2dNode

theorem toNatClampNeg_ofNat {n : Nat} (hn : n < 2^32) (h : ¬ ofNat n < 0) : (ofNat n).toNatClampNeg = n := by
  have hint : (ofNat n).toInt = (n : Int).bmod 4294967296 := toInt_ofNat'
  have hpos : ¬ (ofNat n).toInt < 0 := by
    intro hneg
    exact h (lt_iff_toInt_lt.mpr hneg)
  rw [hint,Int.bmod] at hpos
  rw [toNatClampNeg,hint,Int.bmod]
  split at hpos <;> omega

variable {routine : Sorting ο} {params : AABoxKDTreeParams K}

theorem initObjects_spec {partition : Partition} (hlen : objects.length < 2^32)
    (h : initObjects type routine partition objects = some own) :
    own.Stored type partition ∧ own.sortedByMin.Perm objects := by
  rw [initObjects] at h
  obtain ⟨hnum,h⟩ := Option.ite_none_left_eq_some.mp h
  cases h
  refine ⟨⟨?_,?_,rfl,rfl,?_,?_⟩,routine.perm ..⟩
  · rw [toNatClampNeg_ofNat hlen hnum]
    exact (routine.perm ..).length_eq.symm
  · exact (routine.perm ..).trans (routine.perm ..).symm
  · exact routine.ascending (fun object => partition.minOf (type.aabox object)) objects
  · exact routine.descending (fun object => partition.maxOf (type.aabox object)) objects

theorem partitionObjects_perm (b : Boundary K) (objects : List ο) :
    ((partitionObjects type b objects).2.2 ++ (partitionObjects type b objects).1 ++
      (partitionObjects type b objects).2.1).Perm objects := by
  have hleft := filter_append_perm (goesLeft type b) objects
  have hright : ((partitionObjects type b objects).2.1 ++ (partitionObjects type b objects).2.2).Perm
      (objects.filter fun object => !goesLeft type b object) := by
    have hsplit := filter_append_perm (goesRight type b) (objects.filter fun object => !goesLeft type b object)
    rw [filter_filter,filter_filter] at hsplit
    simpa only [partitionObjects,Bool.and_comm] using hsplit
  -- the others go behind the two sides
  have hrotate : ((partitionObjects type b objects).2.2 ++ ((partitionObjects type b objects).1 ++
      (partitionObjects type b objects).2.1)).Perm
      ((partitionObjects type b objects).1 ++ (partitionObjects type b objects).2.1 ++
        (partitionObjects type b objects).2.2) := perm_append_comm
  rw [← append_assoc,append_assoc (partitionObjects type b objects).1] at hrotate
  exact hrotate.trans ((hright.append_left _).trans hleft)

theorem sound_node {left right : AABoxKDTree2dNode K ο} (hb : computeBoundary type objects = some b)
    (hperm : (other ++ leftObjects ++ rightObjects).Perm objects)
    (hown : own.Stored type b.partition ∧ own.sortedByMin.Perm other)
    (hleft : left.Sound type ∧ left.getAllObjects.Perm leftObjects)
    (hright : right.Sound type ∧ right.getAllObjects.Perm rightObjects) :
    (AABoxKDTree2dNode.node b own left right).Sound type ∧
      (AABoxKDTree2dNode.node b own left right).getAllObjects.Perm objects := by
  have hall := ((hown.2.append hleft.2).append hright.2).trans hperm
  refine ⟨⟨hown.1,hleft.1,hright.1,fun object hmem => ?_⟩,hall⟩
  exact computeBoundary_within hb object (hall.mem_iff.mp hmem)

/-- A tree has the objects of which it is built. -/
theorem build_spec {fuel : Nat} {depth : Int32} {tree : AABoxKDTree2dNode K ο} (hlen : objects.length < 2^32)
    (h : build type routine params fuel objects depth = some tree) :
    tree.Sound type ∧ tree.getAllObjects.Perm objects := by
  induction fuel generalizing objects depth tree with
  | zero => cases h
  | succ fuel ih =>
    obtain ⟨b,hb,h⟩ := Option.bind_eq_some_iff.mp h
    split at h
    case isTrue =>
      obtain ⟨own,hown,h⟩ := Option.bind_eq_some_iff.mp h
      obtain ⟨_,hleft,h⟩ := Option.bind_eq_some_iff.mp h
      obtain ⟨_,hright,rfl⟩ := Option.map_eq_some_iff.mp h
      have hperm : ((partitionObjects type b objects).2.2 ++ (partitionObjects type b objects).1 ++
          (partitionObjects type b objects).2.1).Perm objects := partitionObjects_perm b objects
      have hsub (part : List ο) (hpart : part.length ≤ objects.length) {subnode : AABoxKDTree2dNode K ο}
          (hs : (if part = [] then some .null else build type routine params fuel part (depth+1)) =
            some subnode) : subnode.Sound type ∧ subnode.getAllObjects.Perm part := by
        split at hs
        case isTrue hnil =>
          cases hs
          exact ⟨trivial,hnil ▸ List.Perm.nil⟩
        case isFalse => exact ih (lt_of_le_of_lt hpart hlen) hs
      exact sound_node hb hperm (initObjects_spec (lt_of_le_of_lt (length_filter_le ..) hlen) hown)
        (hsub _ (length_filter_le ..) hleft) (hsub _ (length_filter_le ..) hright)
    case isFalse =>
      obtain ⟨own,hown,rfl⟩ := Option.map_eq_some_iff.mp h
      refine sound_node hb ?_ (initObjects_spec hlen hown) ⟨trivial,.nil⟩ ⟨trivial,.nil⟩
      rw [append_nil,append_nil]

end Apollo.Modules.Common.Math
