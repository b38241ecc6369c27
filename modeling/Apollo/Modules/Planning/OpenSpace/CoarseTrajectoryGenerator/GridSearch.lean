import Apollo.Foundation.Table
import Apollo.Foundation.Transition
import Apollo.Foundation.Walk
import Apollo.Modules.Common.Math.LineSegment2d
import Mathlib.Order.Interval.Finset.Basic

/-! `GridSearch::GenerateDpMap` and `CheckDpMap`. An event of the search takes an entry with the least cost from the
priority queue, whichever of them that is. The map is that of the cells that can be reached, whatever the costs are,
and the main loop ends where the constraints keep the nodes in the grid. -/
namespace Apollo.Modules.Planning
open Foundation Common.Math List Option AList System LineSegment2d

/-- `grid_x_` and `grid_y_` of a node. They stand for its string index. -/
abbrev Cell := Int × Int

structure Node2d (C : Type) where
  gridX : Int
  gridY : Int
  pathCost : C
  heuristic : C
  cost : C
  preNode : Option Cell

namespace Node2d
variable {C : Type}

def ofGrid [Zero C] (gridX gridY : Int) : Node2d C := ⟨gridX,gridY,0,0,0,none⟩

def index (node : Node2d C) : Cell := (node.gridX, node.gridY)

def setPathCost [Add C] (node : Node2d C) (pathCost : C) : Node2d C :=
  { node with pathCost := pathCost, cost := pathCost+node.heuristic }

def setCost (node : Node2d C) (cost : C) : Node2d C := { node with cost := cost }

def setPreNode (node : Node2d C) (preNode : Cell) : Node2d C := { node with preNode := some preNode }

end Node2d

/-- The local variables of `GenerateDpMap` and `dp_map_`. The map has pointers to nodes of the open set, which keeps
all its nodes, so that it is given by its indices. -/
structure DpMap (C : Type) where
  openSet : Table Cell (Node2d C)
  dpMap : List Cell
  openPq : List (Cell × C)

namespace DpMap
variable {C : Type} [Add C] [Zero C] [One C] [LinearOrder C] (diagonalDistance : C) (checkConstraints : Cell → Bool)

def nextNode (current : Node2d C) (dx dy : Int) (distance : C) : Node2d C :=
  (Node2d.ofGrid (current.gridX+dx) (current.gridY+dy)).setPathCost (current.pathCost+distance)

def generateNextNodes (current : Node2d C) : List (Node2d C) :=
  let up := nextNode current 0 1 1
  let upRight := nextNode current 1 1 diagonalDistance
  let right := nextNode current 1 0 1
  let downRight := nextNode current 1 (-1) diagonalDistance
  let down := nextNode current 0 (-1) 1
  let downLeft := nextNode current (-1) (-1) diagonalDistance
  let left := nextNode current (-1) 0 1
  let upLeft := nextNode current (-1) 1 diagonalDistance
  [up,upRight,right,downRight,down,downLeft,left,upLeft]

def visit (current : Cell) (s : DpMap C) (nextNode : Node2d C) : DpMap C :=
  if checkConstraints nextNode.index then
    if nextNode.index ∈ s.dpMap then s
    else
      match s.openSet.lookup nextNode.index with
      | none =>
        { s with
          openSet := s.openSet.insert nextNode.index (nextNode.setPreNode current)
          openPq := (nextNode.index, nextNode.cost)::s.openPq }
      | some node =>
        if nextNode.cost < node.cost then
          { s with openSet := s.openSet.insert nextNode.index ((node.setCost nextNode.cost).setPreNode current) }
        else s
  else s

def take (s : DpMap C) (entry : Cell × C) (current : Node2d C) : DpMap C :=
  { s with
    dpMap := if current.index ∈ s.dpMap then s.dpMap else current.index::s.dpMap
    openPq := s.openPq.erase entry }

/-- An iteration of the main loop. An index that is not in the open set is a null pointer. -/
def step (s : DpMap C) (entry : Cell × C) : Option (DpMap C) :=
  if entry ∈ s.openPq ∧ s.openPq.all fun other => entry.2 ≤ other.2 then
    (s.openSet.lookup entry.1).map fun current =>
      (generateNextNodes diagonalDistance current).foldl (visit checkConstraints current.index) (s.take entry current)
  else none

def start (endNode : Node2d C) : DpMap C :=
  ⟨(∅ : Table Cell (Node2d C)).insert endNode.index endNode,[],[(endNode.index, endNode.cost)]⟩

def system (endNode : Node2d C) : System (DpMap C) (Cell × C) where
  initial s := s = start endNode
  step := step diagonalDistance checkConstraints

end DpMap

structure XYBounds (K : Type) where
  xmin : K
  xmax : K
  ymin : K
  ymax : K

structure GridSearch (K : Type) where
  xyGridResolution : K
  nodeRadius : K
  xyBounds : XYBounds K
  obstaclesLinesegmentsVec : List (List (LineSegment2d K))

def truncate {K : Type} [Field K] [LinearOrder K] [FloorRing K] (value : K) : Int :=
  if 0 ≤ value then ⌊value⌋ else ⌈value⌉

def round {K : Type} [Field K] [LinearOrder K] [FloorRing K] (value : K) : Int :=
  if 0 ≤ value then ⌊value+1/2⌋ else ⌈value - 1/2⌉

namespace GridSearch
variable {K : Type} [Field K] [LinearOrder K] [FloorRing K] (m : Cmath K) (search : GridSearch K)

def maxGridX : Int := round ((search.xyBounds.xmax - search.xyBounds.xmin)/search.xyGridResolution)

def maxGridY : Int := round ((search.xyBounds.ymax - search.xyBounds.ymin)/search.xyGridResolution)

def calcIndex (x y : K) : Cell :=
  (truncate ((x - search.xyBounds.xmin)/search.xyGridResolution),
    truncate ((y - search.xyBounds.ymin)/search.xyGridResolution))

def checkConstraints (cell : Cell) : Bool :=
  if search.obstaclesLinesegmentsVec.isEmpty then true
  else if search.maxGridX < cell.1 ∨ cell.1 < 0 ∨ search.maxGridY < cell.2 ∨ cell.2 < 0 then false
  else !search.obstaclesLinesegmentsVec.any fun linesegments => linesegments.any fun linesegment =>
    linesegment.distanceTo m ⟨cell.1,cell.2⟩ < search.nodeRadius

def endNode (ex ey : K) : Node2d K := .ofGrid (search.calcIndex ex ey).1 (search.calcIndex ex ey).2

def generateDpMap (ex ey : K) : System (DpMap K) (Cell × K) :=
  DpMap.system (m.sqrt 2) (search.checkConstraints m) (search.endNode ex ey)

/-- `CheckDpMap`. `none` is infinity. -/
def checkDpMap (s : DpMap K) (sx sy : K) : Option K :=
  if search.calcIndex sx sy ∈ s.dpMap then
    (s.openSet.lookup (search.calcIndex sx sy)).map fun node => node.cost*search.xyGridResolution
  else none

/-- Where `LoadGridAStarResult` puts a cell. -/
def position (cell : Cell) : Vec2d K :=
  ⟨cell.1*search.xyGridResolution+search.xyBounds.xmin,cell.2*search.xyGridResolution+search.xyBounds.ymin⟩

end GridSearch

namespace DpMap
open Node2d
variable {C : Type}

def Step [One C] (diagonalDistance : C) (u v : Cell) (w : C) : Prop :=
  |v.1 - u.1| + |v.2 - u.2| = 1 ∧ w = 1 ∨ |v.1 - u.1| = 1 ∧ |v.2 - u.2| = 1 ∧ w = diagonalDistance

def Edge [One C] (diagonalDistance : C) (checkConstraints : Cell → Bool) (u v : Cell) (w : C) : Prop :=
  Step diagonalDistance u v w ∧ checkConstraints v = true

section Nodes
variable [One C] {diagonalDistance : C} {current node : Node2d C} {u v : Cell} {w w' : C}

variable [Add C] [Zero C]

theorem step_of_mem (h : node ∈ generateNextNodes diagonalDistance current) :
    ∃ w, Step diagonalDistance current.index node.index w ∧ node.pathCost = current.pathCost+w ∧
      node.cost = node.pathCost+0 := by
  simp only [generateNextNodes,mem_cons,not_mem_nil,or_false] at h
  obtain rfl | rfl | rfl | rfl | rfl | rfl | rfl | rfl := h
  all_goals
    refine ⟨_,?_,rfl,rfl⟩
    simp [Step,nextNode,index,ofGrid,setPathCost]

theorem mem_of_step (h : Step diagonalDistance current.index v w) :
    v ∈ (generateNextNodes diagonalDistance current).map index := by
  have hdist : |v.1 - current.gridX| + |v.2 - current.gridY| = 1 ∨
      |v.1 - current.gridX| = 1 ∧ |v.2 - current.gridY| = 1 := h.imp And.left fun h => ⟨h.1,h.2.1⟩
  rw [Int.abs_eq_natAbs,Int.abs_eq_natAbs] at hdist
  change v ∈ [(current.gridX+0, current.gridY+1),(current.gridX+1, current.gridY+1),
    (current.gridX+1, current.gridY+0),(current.gridX+1, current.gridY+-1),(current.gridX+0, current.gridY+-1),
    (current.gridX+-1, current.gridY+-1),(current.gridX+-1, current.gridY+0),(current.gridX+-1, current.gridY+1)]
  have hx : v.1 = current.gridX+0 ∨ v.1 = current.gridX+1 ∨ v.1 = current.gridX+-1 := by omega
  have hy : v.2 = current.gridY+0 ∨ v.2 = current.gridY+1 ∨ v.2 = current.gridY+-1 := by omega
  obtain hx | hx | hx := hx <;> obtain hy | hy | hy := hy
  · omega
  all_goals simp only [mem_cons,Prod.ext_iff,hx,hy,and_self,true_or,or_true]

end Nodes

section Visits
variable [LinearOrder C] {diagonalDistance : C} {checkConstraints : Cell → Bool} {current : Cell} {s t : DpMap C}
  {next : Node2d C} {entry : Cell × C}

theorem visit_cases (checkConstraints : Cell → Bool) (current : Cell) (s : DpMap C) (next : Node2d C) :
    visit checkConstraints current s next = s ∧ (checkConstraints next.index = false ∨ next.index ∈ s.dpMap ∨
          ∃ node, s.openSet.lookup next.index = some node ∧ node.cost ≤ next.cost) ∨
      (checkConstraints next.index = true ∧ next.index ∉ s.dpMap ∧ s.openSet.lookup next.index = none ∧
        visit checkConstraints current s next = { s with
            openSet := s.openSet.insert next.index (next.setPreNode current)
            openPq := (next.index, next.cost)::s.openPq }) ∨
      checkConstraints next.index = true ∧ next.index ∉ s.dpMap ∧
        ∃ node, s.openSet.lookup next.index = some node ∧ next.cost < node.cost ∧
          visit checkConstraints current s next =
            { s with openSet := s.openSet.insert next.index ((node.setCost next.cost).setPreNode current) } := by
  rw [visit]
  split
  case isFalse hcheck => exact .inl ⟨rfl,.inl (Bool.eq_false_iff.mpr hcheck)⟩
  case isTrue hcheck =>
    split
    case isTrue hmem => exact .inl ⟨rfl,.inr (.inl hmem)⟩
    case isFalse hmem =>
      cases hlookup : s.openSet.lookup next.index with
      | none => exact .inr (.inl ⟨hcheck,hmem,rfl,rfl⟩)
      | some node =>
        dsimp only
        split
        case isTrue hlt => exact .inr (.inr ⟨hcheck,hmem,node,rfl,hlt,rfl⟩)
        case isFalse hlt => exact .inl ⟨rfl,.inr (.inr ⟨node,rfl,not_lt.mp hlt⟩)⟩

@[simp] theorem dpMap_visit : (visit checkConstraints current s next).dpMap = s.dpMap := by
  obtain ⟨h,-⟩ | ⟨-,-,-,h⟩ | ⟨-,-,_,-,-,h⟩ := visit_cases checkConstraints current s next
  all_goals rw [h]

theorem dpMap_foldl_visit (current : Cell) (nodes : List (Node2d C)) (s : DpMap C) :
    (nodes.foldl (visit checkConstraints current) s).dpMap = s.dpMap := by
  induction nodes generalizing s with
  | nil => rfl
  | cons _ _ ih => rw [foldl_cons,ih,dpMap_visit]

theorem foldl_visit_of_rejected (current : Cell) {nodes : List (Node2d C)} (s : DpMap C)
    (h : ∀ next ∈ nodes, checkConstraints next.index = false) :
    nodes.foldl (visit checkConstraints current) s = s := by
  induction nodes with
  | nil => rfl
  | cons next _ ih =>
    have hvisit : visit checkConstraints current s next = s := by
      rw [visit,if_neg (by rw [h next mem_cons_self]; exact Bool.false_ne_true)]
    rw [foldl_cons,hvisit]
    exact ih fun node hnode => h node (mem_cons_of_mem _ hnode)

variable [Add C] [Zero C] [One C]

theorem step_cases (h : step diagonalDistance checkConstraints s entry = some t) :
    entry ∈ s.openPq ∧ (∀ other ∈ s.openPq, entry.2 ≤ other.2) ∧ ∃ node, s.openSet.lookup entry.1 = some node ∧
        t = (generateNextNodes diagonalDistance node).foldl (visit checkConstraints node.index) (s.take entry node) := by
  rw [step] at h
  obtain ⟨htop,h⟩ := ite_none_right_eq_some.mp h
  obtain ⟨node,hnode,rfl⟩ := map_eq_some_iff.mp h
  refine ⟨htop.1,?_,node,hnode,rfl⟩
  intro other hother
  exact of_decide_eq_true (all_eq_true.mp htop.2 other hother)

end Visits

def Waiting (current : Cell) (nodes : List (Node2d C)) (u v : Cell) : Prop := u = current ∧ v ∈ nodes.map index

/-- The state between visits. The nodes that wait may not have been found. -/
structure Sound [Add C] [Zero C] [One C] (diagonalDistance : C) (checkConstraints : Cell → Bool) (origin : Cell)
    (waiting : Cell → Cell → Prop) (s : DpMap C) : Prop where
  index : ∀ c node, s.openSet.lookup c = some node → node.index = c
  queued : ∀ e ∈ s.openPq, e.1 ∈ s.openSet ∧ e.1 ∉ s.dpMap
  distinct : (s.openPq.map Prod.fst).Nodup
  settled : ∀ c ∈ s.dpMap, c ∈ s.openSet
  nodup : s.dpMap.Nodup
  known : ∀ c ∈ s.openSet, c ∈ s.dpMap ∨ c ∈ s.openPq.map Prod.fst
  walk : ∀ c ∈ s.openSet, ∃ w, Walk (Edge diagonalDistance checkConstraints) origin c w
  source : origin ∈ s.openSet
  closed : ∀ u ∈ s.dpMap, ∀ v w, Edge diagonalDistance checkConstraints u v w → ¬waiting u v → v ∈ s.openSet

section Sounds
variable [Add C] [Zero C] [One C] {diagonalDistance : C} {checkConstraints : Cell → Bool} {origin : Cell}
  {waiting : Cell → Cell → Prop} {s t : DpMap C} {current next : Node2d C} {rest : List (Node2d C)}
  {entry : Cell × C}

theorem Sound.visited (h : Sound diagonalDistance checkConstraints origin (Waiting current.index (next::rest)) s)
    (hnext : checkConstraints next.index = true → next.index ∈ s.openSet) :
    Sound diagonalDistance checkConstraints origin (Waiting current.index rest) s := by
  refine ⟨h.index,h.queued,h.distinct,h.settled,h.nodup,h.known,h.walk,h.source,?_⟩
  intro u hu v w he hwait
  by_cases hv : v = next.index
  · rw [hv]
    exact hnext (hv ▸ he.2)
  · refine h.closed u hu v w he ?_
    rintro ⟨hcur,hmem⟩
    obtain hmem | hmem := mem_cons.mp hmem
    · exact hv hmem
    · exact hwait ⟨hcur,hmem⟩

variable {c : Cell} {node : Node2d C}

section
variable (h : Sound diagonalDistance checkConstraints origin waiting s)
include h

theorem Sound.find {key : C} (hnode : node.index = next.index) (hnone : s.openSet.lookup next.index = none)
    (hwalk : ∃ w, Walk (Edge diagonalDistance checkConstraints) origin next.index w) :
    Sound diagonalDistance checkConstraints origin waiting
      { s with openSet := s.openSet.insert next.index node, openPq := (next.index, key)::s.openPq } := by
  have hnew := lookup_eq_none.mp hnone
  refine ⟨?_,?_,?_,?_,h.nodup,?_,?_,?_,?_⟩
  · intro c node' hlookup
    rw [Table.lookup_insert_eq_ite] at hlookup
    split at hlookup
    case isTrue hc =>
      cases hlookup
      rw [hc,hnode]
    case isFalse => exact h.index c node' hlookup
  · intro e he
    rw [mem_insert]
    obtain rfl | he := mem_cons.mp he
    · exact ⟨.inl rfl,fun hmem => hnew (h.settled _ hmem)⟩
    · exact ⟨.inr (h.queued e he).1,(h.queued e he).2⟩
  · refine nodup_cons.mpr ⟨?_,h.distinct⟩
    intro hmem
    obtain ⟨e,he,heq⟩ := mem_map.mp hmem
    have hqueued := (h.queued e he).1
    rw [heq] at hqueued
    exact hnew hqueued
  · intro c hc
    exact (mem_insert _).mpr (.inr (h.settled c hc))
  · intro c hc
    obtain rfl | hc := (mem_insert _).mp hc
    · exact .inr mem_cons_self
    · exact (h.known c hc).imp_right (mem_cons_of_mem _)
  · intro c hc
    obtain rfl | hc := (mem_insert _).mp hc
    · exact hwalk
    · exact h.walk c hc
  · exact (mem_insert _).mpr (.inr h.source)
  · intro u hu v w he hwait
    exact (mem_insert _).mpr (.inr (h.closed u hu v w he hwait))

theorem Sound.lower (hnode : node.index = c) (hc : c ∈ s.openSet) :
    Sound diagonalDistance checkConstraints origin waiting { s with openSet := s.openSet.insert c node } := by
  have hmem (c' : Cell) : c' ∈ s.openSet.insert c node ↔ c' ∈ s.openSet := by
    rw [mem_insert]
    constructor
    · rintro (rfl | hc')
      · exact hc
      · exact hc'
    · exact .inr
  refine ⟨?_,?_,h.distinct,?_,h.nodup,?_,?_,?_,?_⟩
  · intro c' node' hlookup
    rw [Table.lookup_insert_eq_ite] at hlookup
    split at hlookup
    case isTrue hc' =>
      cases hlookup
      rw [hc',hnode]
    case isFalse => exact h.index c' node' hlookup
  · exact fun e he => ⟨(hmem e.1).mpr (h.queued e he).1,(h.queued e he).2⟩
  · exact fun c' hc' => (hmem c').mpr (h.settled c' hc')
  · exact fun c' hc' => h.known c' ((hmem c').mp hc')
  · exact fun c' hc' => h.walk c' ((hmem c').mp hc')
  · exact (hmem origin).mpr h.source
  · exact fun u hu v w he hwait => (hmem v).mpr (h.closed u hu v w he hwait)

end

theorem sound_start (gridX gridY : Int) : Sound diagonalDistance checkConstraints (gridX, gridY) (fun _ _ => False)
      (start (ofGrid gridX gridY : Node2d C)) := by
  have hmem (c : Cell) : c ∈ (start (ofGrid gridX gridY : Node2d C)).openSet ↔ c = (gridX, gridY) := by
    change c ∈ (∅ : Table Cell (Node2d C)).insert (gridX, gridY) _ ↔ _
    rw [mem_insert,or_iff_left (notMem_empty c)]
  refine ⟨?_,?_,nodup_singleton _,?_,nodup_nil,?_,?_,(hmem _).mpr rfl,?_⟩
  · intro c node hlookup
    have hc : c = (gridX, gridY) := (hmem c).mp (lookup_isSome.mp (isSome_iff_exists.mpr ⟨node,hlookup⟩))
    rw [hc] at hlookup ⊢
    change ((∅ : Table Cell (Node2d C)).insert (gridX, gridY) _).lookup (gridX, gridY) = some node at hlookup
    rw [lookup_insert] at hlookup
    cases hlookup
    rfl
  · intro _ he
    cases mem_singleton.mp he
    exact ⟨(hmem _).mpr rfl,not_mem_nil⟩
  · exact fun c hc => absurd hc not_mem_nil
  · intro c hc
    rw [(hmem c).mp hc]
    exact .inr mem_cons_self
  · intro c hc
    rw [(hmem c).mp hc]
    exact ⟨0,.nil⟩
  · exact fun _ hu => absurd hu not_mem_nil

section
variable (h : Sound diagonalDistance checkConstraints origin (fun _ _ => False) s)
include h

theorem Sound.mem_dpMap (hempty : s.openPq = []) : c ∈ s.dpMap ↔ c ∈ s.openSet := by
  constructor
  · exact h.settled c
  · intro hc
    obtain hc | hc := h.known c hc
    · exact hc
    · rw [hempty] at hc
      cases hc

/-- The cells of the map are those with a path. -/
theorem Sound.mem_dpMap_iff_walk (hempty : s.openPq = []) :
    c ∈ s.dpMap ↔ ∃ length, Walk (Edge diagonalDistance checkConstraints) origin c length := by
  rw [h.mem_dpMap hempty]
  constructor
  · exact h.walk c
  · rintro ⟨length,hwalk⟩
    refine hwalk.mem_of_closed (fun c => c ∈ s.openSet) h.source ?_
    exact fun u v w hu he => h.closed u ((h.mem_dpMap hempty).mpr hu) v w he id

end

variable [LinearOrder C]

theorem Sound.visit (h : Sound diagonalDistance checkConstraints origin (Waiting current.index (next::rest)) s)
    (hcurrent : current.index ∈ s.openSet)
    (hstep : ∃ w, Step diagonalDistance current.index next.index w) :
    Sound diagonalDistance checkConstraints origin (Waiting current.index rest)
      (visit checkConstraints current.index s next) := by
  obtain ⟨heq,hcase⟩ | ⟨hcheck,-,hnone,heq⟩ | ⟨hcheck,-,node,hsome,-,heq⟩ :=
    visit_cases checkConstraints current.index s next
  · rw [heq]
    apply h.visited
    intro hcheck
    obtain hfalse | hmem | ⟨node,hsome,-⟩ := hcase
    · rw [hcheck] at hfalse
      cases hfalse
    · exact h.settled _ hmem
    · exact lookup_isSome.mp (isSome_iff_exists.mpr ⟨node,hsome⟩)
  · rw [heq]
    obtain ⟨w,hstep⟩ := hstep
    obtain ⟨c,hwalk⟩ := h.walk _ hcurrent
    have hindex : (next.setPreNode current.index).index = next.index := rfl
    refine (h.find hindex hnone ⟨_,hwalk.snoc ⟨hstep,hcheck⟩⟩).visited fun _ => ?_
    exact (mem_insert _).mpr (.inl rfl)
  · rw [heq]
    have hmem : next.index ∈ s.openSet := lookup_isSome.mp (isSome_iff_exists.mpr ⟨node,hsome⟩)
    have hindex : ((node.setCost next.cost).setPreNode current.index).index = next.index := h.index _ node hsome
    refine (h.lower hindex hmem).visited fun _ => ?_
    exact (mem_insert _).mpr (.inl rfl)

theorem Sound.foldl_visit {nodes : List (Node2d C)}
    (h : Sound diagonalDistance checkConstraints origin (Waiting current.index nodes) s)
    (hcurrent : current.index ∈ s.dpMap)
    (hnodes : ∀ node ∈ nodes, ∃ w, Step diagonalDistance current.index node.index w) :
    Sound diagonalDistance checkConstraints origin (fun _ _ => False)
      (nodes.foldl (DpMap.visit checkConstraints current.index) s) := by
  induction nodes generalizing s with
  | nil =>
    refine ⟨h.index,h.queued,h.distinct,h.settled,h.nodup,h.known,h.walk,h.source,?_⟩
    exact fun u hu v w he _ => h.closed u hu v w he fun hwait => absurd hwait.2 not_mem_nil
  | cons next _ ih =>
    have hvisit := h.visit (h.settled _ hcurrent) (hnodes next mem_cons_self)
    exact ih hvisit (by rwa [dpMap_visit]) fun node hnode => hnodes node (mem_cons_of_mem _ hnode)

variable (h : Sound diagonalDistance checkConstraints origin (fun _ _ => False) s)
include h

theorem Sound.take (hentry : entry ∈ s.openPq) (hnode : s.openSet.lookup entry.1 = some current) :
    Sound diagonalDistance checkConstraints origin
      (Waiting current.index (generateNextNodes diagonalDistance current)) (s.take entry current) ∧
      (s.take entry current).dpMap = current.index::s.dpMap := by
  have hindex : current.index = entry.1 := h.index _ _ hnode
  have hnot : current.index ∉ s.dpMap := hindex ▸ (h.queued entry hentry).2
  have hmap : (s.take entry current).dpMap = current.index::s.dpMap := if_neg hnot
  -- the other entries have other indices
  have hother (e : Cell × C) (he : e ∈ s.openPq.erase entry) : e.1 ≠ entry.1 := by
    intro heq
    have hnodup : s.openPq.Nodup := h.distinct.of_map _
    have hne := (hnodup.mem_erase_iff.mp he).1
    exact hne (inj_on_of_nodup_map h.distinct (mem_of_mem_erase he) hentry heq)
  refine ⟨⟨h.index,?_,?_,?_,?_,?_,h.walk,h.source,?_⟩,hmap⟩
  · intro e he
    refine ⟨(h.queued e (mem_of_mem_erase he)).1,?_⟩
    rw [hmap,mem_cons,hindex]
    rintro (heq | hmem)
    · exact hother e he heq
    · exact (h.queued e (mem_of_mem_erase he)).2 hmem
  · exact h.distinct.sublist (erase_sublist.map _)
  · intro c hc
    rw [hmap] at hc
    obtain rfl | hc := mem_cons.mp hc
    · exact hindex ▸ (h.queued entry hentry).1
    · exact h.settled c hc
  · rw [hmap]
    exact nodup_cons.mpr ⟨hnot,h.nodup⟩
  · intro c hc
    rw [hmap,mem_cons,hindex]
    obtain hc | hc := h.known c hc
    · exact .inl (.inr hc)
    · obtain ⟨e,he,rfl⟩ := mem_map.mp hc
      by_cases heq : e = entry
      · exact .inl (.inl (heq ▸ rfl))
      · exact .inr (mem_map_of_mem ((mem_erase_of_ne heq).mpr he))
  · intro u hu v w he hwait
    rw [hmap] at hu
    obtain rfl | hu := mem_cons.mp hu
    · exact absurd ⟨rfl,mem_of_step he.1⟩ hwait
    · exact h.closed u hu v w he id

theorem Sound.step (hs : step diagonalDistance checkConstraints s entry = some t) :
    Sound diagonalDistance checkConstraints origin (fun _ _ => False) t ∧ t.dpMap = entry.1::s.dpMap := by
  obtain ⟨hentry,-,node,hnode,rfl⟩ := step_cases hs
  obtain ⟨htake,hmap⟩ := h.take hentry hnode
  have hmem : node.index ∈ (s.take entry node).dpMap := by
    rw [hmap]
    exact mem_cons_self
  refine ⟨htake.foldl_visit hmem ?_,?_⟩
  · intro _ hnext
    obtain ⟨w,hstep,-⟩ := step_of_mem hnext
    exact ⟨w,hstep⟩
  · rw [dpMap_foldl_visit,hmap,h.index _ _ hnode]

end Sounds

section Runs
variable [Add C] [Zero C] [One C] {diagonalDistance : C} {checkConstraints : Cell → Bool} {origin : Cell}
  {s t : DpMap C} {entries : List (Cell × C)} {gridX gridY : Int}

section
variable (h : Sound diagonalDistance checkConstraints origin (fun _ _ => False) s)
include h

theorem Sound.accepted {c : Cell} (hc : c ∈ s.dpMap) : c = origin ∨ checkConstraints c = true := by
  obtain ⟨w,hwalk⟩ := h.walk c (h.settled c hc)
  cases hwalk with
  | nil => exact .inl rfl
  | snoc _ he => exact .inr he.2

theorem Sound.openPq_ne_nil (hfree : ∀ c, checkConstraints c = true) : s.openPq ≠ [] := by
  intro hnil
  have hmap (c : Cell) (hc : c ∈ s.openSet) : c ∈ s.dpMap := by
    obtain hc | hc := h.known c hc
    · exact hc
    · rw [hnil] at hc
      cases hc
  obtain ⟨c,hc,hmax⟩ := s.dpMap.toFinset.exists_max_image Prod.fst ⟨origin,mem_toFinset.mpr (hmap _ h.source)⟩
  have hstep : Step diagonalDistance c (c.1+1, c.2) 1 := by
    refine .inl ⟨?_,rfl⟩
    simp
  have hright : (c.1+1, c.2) ∈ s.dpMap := hmap _ (h.closed c (mem_toFinset.mp hc) _ 1 ⟨hstep,hfree _⟩ id)
  have hle : c.1+1 ≤ c.1 := hmax _ (mem_toFinset.mpr hright)
  omega

end

variable [LinearOrder C]

/-- The map has one more node after each iteration. -/
theorem Sound.exec (h : Sound diagonalDistance checkConstraints origin (fun _ _ => False) s) {endNode : Node2d C}
    (hexec : (system diagonalDistance checkConstraints endNode).exec s entries = some t) :
    Sound diagonalDistance checkConstraints origin (fun _ _ => False) t ∧
      t.dpMap.length = s.dpMap.length+entries.length := by
  induction entries generalizing s with
  | nil =>
    cases hexec
    exact ⟨h,rfl⟩
  | cons _ _ ih =>
    obtain ⟨u,hstep,hexec⟩ := exec_cons.mp hexec
    obtain ⟨hu,hmap⟩ := h.step hstep
    obtain ⟨ht,hlength⟩ := ih hu hexec
    refine ⟨ht,?_⟩
    rw [hlength,hmap,length_cons,length_cons]
    omega

theorem Sound.of_reachable (h : (system diagonalDistance checkConstraints (ofGrid gridX gridY)).Reachable s) :
    Sound diagonalDistance checkConstraints (gridX, gridY) (fun _ _ => False) s := by
  apply h.invariant
  · rintro _ rfl
    exact sound_start gridX gridY
  · exact fun _ _ _ hs ht => (hs.step ht).1

theorem Sound.exists_step (h : Sound diagonalDistance checkConstraints origin (fun _ _ => False) s)
    (hne : s.openPq ≠ []) : ∃ entry t, DpMap.step diagonalDistance checkConstraints s entry = some t := by
  obtain ⟨entry,hentry,hmin⟩ : ∃ entry ∈ s.openPq, ∀ other ∈ s.openPq, entry.2 ≤ other.2 := by
    obtain ⟨e,he⟩ := exists_mem_of_ne_nil _ hne
    obtain ⟨entry,hentry,hmin⟩ := s.openPq.toFinset.exists_min_image Prod.snd ⟨e,mem_toFinset.mpr he⟩
    exact ⟨entry,mem_toFinset.mp hentry,fun other hother => hmin other (mem_toFinset.mpr hother)⟩
  obtain ⟨node,hnode⟩ := isSome_iff_exists.mp (AList.lookup_isSome.mpr (h.queued entry hentry).1)
  have hall : s.openPq.all fun other => entry.2 ≤ other.2 :=
    all_eq_true.mpr fun other hother => decide_eq_true (hmin other hother)
  refine ⟨entry,(generateNextNodes diagonalDistance node).foldl (DpMap.visit checkConstraints node.index)
    (s.take entry node),?_⟩
  rw [DpMap.step,if_pos ⟨hentry,hall⟩,hnode,map_some]

end Runs
end DpMap

namespace GridSearch
open Node2d
variable {K : Type} [Field K] [LinearOrder K] [FloorRing K] {m : Cmath K} {search : GridSearch K} {ex ey : K}

def InGrid (search : GridSearch K) (c : Cell) : Prop :=
  (0 ≤ c.1 ∧ c.1 ≤ search.maxGridX) ∧ 0 ≤ c.2 ∧ c.2 ≤ search.maxGridY

def numCells (search : GridSearch K) : Nat := (search.maxGridX+1).toNat*(search.maxGridY+1).toNat

theorem length_le_numCells {cells : List Cell} (hnodup : cells.Nodup) (h : ∀ c ∈ cells, search.InGrid c) :
    cells.length ≤ search.numCells := by
  have hsubset : cells.toFinset ⊆ Finset.Icc 0 search.maxGridX ×ˢ Finset.Icc 0 search.maxGridY := by
    intro c hc
    rw [Finset.mem_product,Finset.mem_Icc,Finset.mem_Icc]
    exact h c (mem_toFinset.mp hc)
  have hcard := Finset.card_le_card hsubset
  rw [toFinset_card_of_nodup hnodup,Finset.card_product,Int.card_Icc,Int.card_Icc,sub_zero,sub_zero] at hcard
  exact hcard

theorem inGrid_of_checkConstraints (hobstacles : search.obstaclesLinesegmentsVec ≠ []) {c : Cell}
    (h : search.checkConstraints m c = true) : search.InGrid c := by
  rw [checkConstraints,if_neg (by rwa [List.isEmpty_iff])] at h
  split at h
  case isTrue => cases h
  case isFalse hout =>
    push Not at hout
    exact ⟨⟨hout.2.1,hout.1⟩,hout.2.2.2,hout.2.2.1⟩

section OneCell
variable (hobstacles : search.obstaclesLinesegmentsVec ≠ []) (hx : search.maxGridX = 0) (hy : search.maxGridY = 0)
include hobstacles hx hy

theorem checkConstraints_of_oneCell {c : Cell} (h : c ≠ (0, 0)) : search.checkConstraints m c = false := by
  by_contra htrue
  obtain ⟨⟨_,_⟩,_,_⟩ := inGrid_of_checkConstraints hobstacles (Bool.eq_true_of_not_eq_false htrue)
  exact h (Prod.ext (by omega) (by omega))

theorem rejected_of_oneCell (next : Node2d K) (h : next ∈ DpMap.generateNextNodes (m.sqrt 2) (ofGrid 0 0)) :
    search.checkConstraints m next.index = false := by
  apply checkConstraints_of_oneCell hobstacles hx hy
  intro hindex
  obtain ⟨w,hstep,-⟩ := DpMap.step_of_mem h
  rw [hindex] at hstep
  obtain ⟨hdist,-⟩ | ⟨hdist,-⟩ := hstep <;> cases hdist

theorem step_of_oneCell : DpMap.step (m.sqrt 2) (search.checkConstraints m) (.start (.ofGrid 0 0)) ((0, 0), 0) =
      some ((DpMap.start (.ofGrid 0 0)).take ((0, 0), 0) (.ofGrid 0 0)) := by
  have hlookup : (DpMap.start (ofGrid 0 0 : Node2d K)).openSet.lookup (0, 0) = some (.ofGrid 0 0) :=
    AList.lookup_insert _
  have htop : ((0, 0), (0 : K)) ∈ (DpMap.start (ofGrid 0 0 : Node2d K)).openPq ∧
      (DpMap.start (ofGrid 0 0 : Node2d K)).openPq.all fun other => (0 : K) ≤ other.2 := by
    simp [DpMap.start,ofGrid,index]
  rw [DpMap.step,if_pos htop,hlookup,map_some,
    DpMap.foldl_visit_of_rejected _ _ (rejected_of_oneCell hobstacles hx hy)]

end OneCell

variable [IsStrictOrderedRing K]

theorem truncate_le_round {value bound : K} (h0 : 0 ≤ value) (h : value ≤ bound) :
    0 ≤ truncate value ∧ truncate value ≤ round bound := by
  rw [truncate,round,if_pos h0,if_pos (h0.trans h)]
  refine ⟨Int.floor_nonneg.mpr h0,Int.floor_mono ?_⟩
  linarith

theorem inGrid_calcIndex (hresolution : 0 < search.xyGridResolution)
    (hx : search.xyBounds.xmin ≤ ex ∧ ex ≤ search.xyBounds.xmax)
    (hy : search.xyBounds.ymin ≤ ey ∧ ey ≤ search.xyBounds.ymax) : search.InGrid (search.calcIndex ex ey) :=
  ⟨truncate_le_round (div_nonneg (sub_nonneg.mpr hx.1) hresolution.le)
      (div_le_div_of_nonneg_right (sub_le_sub_right hx.2 _) hresolution.le),
    truncate_le_round (div_nonneg (sub_nonneg.mpr hy.1) hresolution.le)
      (div_le_div_of_nonneg_right (sub_le_sub_right hy.2 _) hresolution.le)⟩

section Bounded
variable (hobstacles : search.obstaclesLinesegmentsVec ≠ []) (hresolution : 0 < search.xyGridResolution)
  (hx : search.xyBounds.xmin ≤ ex ∧ ex ≤ search.xyBounds.xmax)
  (hy : search.xyBounds.ymin ≤ ey ∧ ey ≤ search.xyBounds.ymax)
include hobstacles hresolution hx hy

theorem exec_bounded {entries : List (Cell × K)} {t : DpMap K}
    (h : (search.generateDpMap m ex ey).exec (.start (search.endNode ex ey)) entries = some t) :
    entries.length ≤ search.numCells ∧ (∀ c ∈ t.dpMap, search.InGrid c) ∧
      ((∀ entry, (search.generateDpMap m ex ey).step t entry = none) → t.openPq = []) := by
  obtain ⟨hsound,hlength⟩ := (DpMap.sound_start _ _).exec h
  have hgrid : ∀ c ∈ t.dpMap, search.InGrid c := by
    intro _ hc
    obtain rfl | hcheck := hsound.accepted hc
    · exact inGrid_calcIndex hresolution hx hy
    · exact inGrid_of_checkConstraints hobstacles hcheck
  refine ⟨?_,hgrid,?_⟩
  · have hle := length_le_numCells hsound.nodup hgrid
    rw [hlength] at hle
    exact (zero_add _).symm.trans_le hle
  · intro hstuck
    by_contra hne
    obtain ⟨entry,u,hu⟩ := hsound.exists_step hne
    cases (hstuck entry).symm.trans hu

theorem exists_finished : ∃ entries t,
    (search.generateDpMap m ex ey).exec (.start (search.endNode ex ey)) entries = some t ∧ t.openPq = [] := by
  obtain ⟨entries,t,ht,hstuck⟩ := exists_end search.numCells fun entries t h =>
    (exec_bounded (m := m) hobstacles hresolution hx hy h).1
  exact ⟨entries,t,ht,(exec_bounded hobstacles hresolution hx hy ht).2.2 hstuck⟩

end Bounded

omit [IsStrictOrderedRing K] in
/-- With no obstacle the queue is never empty, and the map leaves the grid. -/
theorem never_ends (hobstacles : search.obstaclesLinesegmentsVec = []) :
    (∀ t, (search.generateDpMap m ex ey).Reachable t → t.openPq ≠ []) ∧
      ∃ t, (search.generateDpMap m ex ey).Reachable t ∧ ∃ c ∈ t.dpMap, ¬ search.InGrid c := by
  have hne (t : DpMap K) (h : (search.generateDpMap m ex ey).Reachable t) : t.openPq ≠ [] :=
    (DpMap.Sound.of_reachable h).openPq_ne_nil fun _ => by rw [checkConstraints,hobstacles]; rfl
  refine ⟨hne,?_⟩
  have progress (s : DpMap K) (h : (search.generateDpMap m ex ey).Reachable s) :
      ∃ e t, (search.generateDpMap m ex ey).step s e = some t ∧ (search.generateDpMap m ex ey).Reachable t := by
    obtain ⟨e,t,ht⟩ := (DpMap.Sound.of_reachable h).exists_step (hne s h)
    exact ⟨e,t,ht,h.next ht⟩
  obtain ⟨_,t,hlength,ht,hreach⟩ := exists_exec progress (search.numCells+1) (System.Reachable.start rfl)
  refine ⟨t,hreach,?_⟩
  by_contra hall
  push Not at hall
  obtain ⟨hsound,hmap⟩ := (DpMap.sound_start _ _).exec ht
  have hle := length_le_numCells hsound.nodup hall
  rw [hmap,hlength] at hle
  exact absurd hle (by simp [DpMap.start])

/-- Exactly with an obstacle there is at most one iteration for each cell of the grid, the loop ends with an empty
queue, and the map is in the grid. -/
theorem generateDpMap_ends_iff (hresolution : 0 < search.xyGridResolution)
    (hx : search.xyBounds.xmin ≤ ex ∧ ex ≤ search.xyBounds.xmax)
    (hy : search.xyBounds.ymin ≤ ey ∧ ey ≤ search.xyBounds.ymax) :
    ((∀ entries t, (search.generateDpMap m ex ey).exec (.start (search.endNode ex ey)) entries = some t →
      entries.length ≤ search.numCells ∧ (∀ c ∈ t.dpMap, search.InGrid c) ∧
        ((∀ entry, (search.generateDpMap m ex ey).step t entry = none) → t.openPq = [])) ∧
      ∃ entries t, (search.generateDpMap m ex ey).exec (.start (search.endNode ex ey)) entries = some t ∧
        t.openPq = []) ↔ search.obstaclesLinesegmentsVec ≠ [] := by
  refine ⟨?_,fun hobstacles =>
    ⟨fun _ _ => exec_bounded hobstacles hresolution hx hy,exists_finished hobstacles hresolution hx hy⟩⟩
  rintro ⟨-,_,t,ht,hempty⟩ hobstacles
  exact (never_ends hobstacles).1 t ((System.Reachable.start rfl).exec ht) hempty

noncomputable def unitField (obstacles : List (List (LineSegment2d ℝ))) : GridSearch ℝ := ⟨1,1,⟨0,1,0,1⟩,obstacles⟩

theorem generateDpMap_ends_iff_unitField :
    ∃ entries t, ((unitField [[.ofEnds .real ⟨3,3⟩ ⟨4,4⟩]]).generateDpMap .real 0 0).exec
      (.start ((unitField [[.ofEnds .real ⟨3,3⟩ ⟨4,4⟩]]).endNode 0 0)) entries = some t ∧ t.openPq = [] :=
  ((generateDpMap_ends_iff one_pos ⟨le_rfl,zero_le_one⟩ ⟨le_rfl,zero_le_one⟩).mpr (cons_ne_nil _ _)).2

theorem generateDpMap_never_ends : (∀ t, ((unitField []).generateDpMap .real 0 0).Reachable t → t.openPq ≠ []) ∧
      ∃ t, ((unitField []).generateDpMap .real 0 0).Reachable t ∧ ∃ c ∈ t.dpMap, ¬(unitField []).InGrid c :=
  never_ends rfl

/-- The position of a cell is at least the radius away from every obstacle. -/
def Clear (m : Cmath K) (search : GridSearch K) (c : Cell) : Prop :=
  ∀ linesegments ∈ search.obstaclesLinesegmentsVec, ∀ linesegment ∈ linesegments,
    search.nodeRadius ≤ linesegment.distanceTo m (search.position c)

/-- Two cells beside each other, before an obstacle that starts at 4. -/
noncomputable def pair (xmin : ℝ) : GridSearch ℝ := ⟨1,1,⟨xmin,xmin+1,0,0⟩,[[.ofEnds .real ⟨4,0⟩ ⟨5,0⟩]]⟩

theorem distanceTo_pair {x : ℝ} (h : x ≤ 4) :
    (ofEnds .real ⟨4,0⟩ ⟨5,0⟩).distanceTo .real ⟨x,0⟩ = 4 - x := by
  have hproj : x - 4 ≤ 0 := by linarith
  have hlength : ¬ (1 : ℝ) ≤ mathEpsilon := by norm_num [mathEpsilon]
  norm_num [distanceTo,ofEnds,Cmath.hypot,Cmath.real,hlength,hproj]
  rw [Real.sqrt_mul_self_eq_abs,abs_of_nonpos hproj,neg_sub]

/-- The second cell is in the map, whatever its position is. -/
theorem mem_dpMap_pair (xmin : ℝ) : ∃ t, ((pair xmin).generateDpMap .real xmin 0).Reachable t ∧ t.openPq = [] ∧
    (1, 0) ∈ t.dpMap ∧ (1, 0) ≠ (pair xmin).calcIndex xmin 0 := by
  have hx : xmin ≤ xmin ∧ xmin ≤ xmin+1 := ⟨le_rfl,by linarith⟩
  have hobstacles : (pair xmin).obstaclesLinesegmentsVec ≠ [] := cons_ne_nil _ _
  obtain ⟨_,t,ht,hempty⟩ := exists_finished (m := .real) hobstacles one_pos hx ⟨le_rfl,le_rfl⟩
  have hreach : ((pair xmin).generateDpMap .real xmin 0).Reachable t := (System.Reachable.start rfl).exec ht
  have horigin : (pair xmin).calcIndex xmin 0 = (0, 0) := by simp [calcIndex,pair,truncate]
  have hcheck : (pair xmin).checkConstraints .real (1, 0) = true := by
    norm_num [checkConstraints,pair,maxGridX,maxGridY,round,distanceTo_pair]
  have hsound := DpMap.Sound.of_reachable hreach
  refine ⟨t,hreach,hempty,(hsound.mem_dpMap_iff_walk hempty).mpr ⟨_,.snoc .nil ⟨.inl ⟨?_,rfl⟩,hcheck⟩⟩,?_⟩
  · rw [horigin]
    rfl
  · rw [horigin]
    decide

end GridSearch

end Apollo.Modules.Planning
