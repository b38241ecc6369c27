import Mathlib.Tactic.Order

/-! The longitudinal decision of an `Obstacle` is the greatest one that was added, in an order of decisions. -/
namespace Apollo.Modules.Planning
open List Prod

inductive ObjectTag where
  | ignore
  | overtake
  | follow
  | yield
  | stop
  deriving DecidableEq

/-- `s_longitudinal_decision_safety_sorter_`. -/
def ObjectTag.safety : ObjectTag → Nat
  | .ignore => 0
  | .overtake => 100
  | .follow => 300
  | .yield => 400
  | .stop => 500

theorem ObjectTag.safety_injective : Function.Injective safety := by
  intro a b h
  cases a <;> cases b <;> first | rfl | cases h

/-- The decisions that `IsLongitudinalDecision` accepts, with the other fields of their messages. -/
inductive ObjectDecision (K R : Type) where
  | ignore
  | overtake (distanceS : K) (rest : R)
  | follow (distanceS : K) (rest : R)
  | yield (distanceS : K) (rest : R)
  | stop (distanceS : K) (rest : R)

namespace ObjectDecision
variable {K R : Type}

def tag : ObjectDecision K R → ObjectTag
  | ignore => .ignore
  | overtake .. => .overtake
  | follow .. => .follow
  | yield .. => .yield
  | stop .. => .stop

def distanceS : ObjectDecision K R → Option K
  | ignore => none
  | overtake d _ | follow d _ | yield d _ | stop d _ => some d

variable [LinearOrder K]

/-- The comparison of `MergeLongitudinalDecision` for decisions with the same tag. -/
def precedes : ObjectDecision K R → ObjectDecision K R → Bool
  | stop d _, stop d' _ => d < d'
  | yield d _, yield d' _ => d < d'
  | follow d _, follow d' _ => d < d'
  | overtake d _, overtake d' _ => d > d'
  | _, _ => false

/-- `none` is a decision that is not set. -/
def mergeLongitudinalDecision :
    Option (ObjectDecision K R) → Option (ObjectDecision K R) → Option (ObjectDecision K R)
  | none, rhs => rhs
  | some lhs, none => some lhs
  | some lhs, some rhs =>
    if lhs.tag.safety < rhs.tag.safety then some rhs
    else if lhs.tag.safety > rhs.tag.safety then some lhs
    else if lhs.precedes rhs then some lhs
    else some rhs

/-- A decision of the same tag has a distance that counts no more: of an overtaking the largest one counts, of
another decision the smallest. -/
def DistanceAtMost (a b : ObjectDecision K R) : Prop :=
  ∀ x ∈ a.distanceS, ∀ y ∈ b.distanceS, if b.tag = .overtake then x ≤ y else y ≤ x

def AtMost (a b : ObjectDecision K R) : Prop := a.tag.safety < b.tag.safety ∨ a.tag = b.tag ∧ DistanceAtMost a b

theorem AtMost.refl (a : ObjectDecision K R) : AtMost a a := by
  refine .inr ⟨rfl,fun _ hx _ hy => ?_⟩
  rw [Option.mem_unique hx hy]
  split <;> exact le_rfl

variable {a b c : ObjectDecision K R}

theorem AtMost.trans (hab : AtMost a b) (hbc : AtMost b c) : AtMost a c := by
  rcases hab with hlt | ⟨htag,hab⟩
  · rcases hbc with hlt' | ⟨htag',-⟩
    · exact .inl (hlt.trans hlt')
    · exact .inl (htag' ▸ hlt)
  · rcases hbc with hlt' | ⟨htag',hbc⟩
    · exact .inl (htag ▸ hlt')
    · refine .inr ⟨htag.trans htag',?_⟩
      cases a <;> cases b <;> cases htag <;> cases c <;> cases htag' <;>
        simp_all [DistanceAtMost,tag,distanceS] <;> order

theorem AtMost.outcome_eq (hab : AtMost a b) (hba : AtMost b a) : a.tag = b.tag ∧ a.distanceS = b.distanceS := by
  cases a <;> cases b <;> simp_all [AtMost,DistanceAtMost,tag,distanceS,ObjectTag.safety] <;> order

theorem exists_merge (lhs rhs : ObjectDecision K R) :
    ∃ merged, mergeLongitudinalDecision (some lhs) (some rhs) = some merged ∧ (merged = lhs ∨ merged = rhs) ∧
      AtMost lhs merged ∧ AtMost rhs merged := by
  rw [mergeLongitudinalDecision]
  split
  case isTrue h => exact ⟨rhs,rfl,.inr rfl,.inl h,.refl rhs⟩
  case isFalse h =>
    split
    case isTrue h' => exact ⟨lhs,rfl,.inl rfl,.refl lhs,.inl h'⟩
    case isFalse h' =>
      have htag : lhs.tag = rhs.tag := ObjectTag.safety_injective (by omega)
      split
      case isTrue hp =>
        refine ⟨lhs,rfl,.inl rfl,.refl lhs,.inr ⟨htag.symm,?_⟩⟩
        cases lhs <;> cases rhs <;> simp_all [precedes,DistanceAtMost,tag,distanceS,le_of_lt]
      case isFalse hp =>
        refine ⟨rhs,rfl,.inr rfl,.inr ⟨htag,?_⟩,.refl rhs⟩
        cases lhs <;> cases rhs <;> simp_all [precedes,DistanceAtMost,tag,distanceS]

end ObjectDecision

structure Obstacle.Decisions (K R : Type) where
  longitudinalDecision : Option (ObjectDecision K R)
  decisions : List (ObjectDecision K R)
  deciderTags : List String

namespace Obstacle.Decisions
variable {K R : Type} [LinearOrder K]

def addLongitudinalDecision (s : Decisions K R) (entry : String × ObjectDecision K R) : Decisions K R where
  longitudinalDecision := ObjectDecision.mergeLongitudinalDecision s.longitudinalDecision (some entry.2)
  decisions := s.decisions ++ [entry.2]
  deciderTags := s.deciderTags ++ [entry.1]

def merged (entries : List (String × ObjectDecision K R)) : Option (ObjectDecision K R) :=
  (entries.foldl addLongitudinalDecision ⟨none,[],[]⟩).longitudinalDecision

open ObjectDecision in
theorem foldl_isGreatest {s : Decisions K R} {d : ObjectDecision K R} (h : s.longitudinalDecision = some d)
    (entries : List (String × ObjectDecision K R)) :
    ∃ r ∈ d::entries.map snd, (entries.foldl addLongitudinalDecision s).longitudinalDecision = some r ∧
      ∀ d' ∈ d::entries.map snd, AtMost d' r := by
  induction entries generalizing s d with
  | nil => exact ⟨d,mem_singleton_self d,h,by simpa using AtMost.refl d⟩
  | cons entry _ ih =>
    obtain ⟨merged,hmerged,hor,hleft,hright⟩ := exists_merge d entry.2
    have hadd : (s.addLongitudinalDecision entry).longitudinalDecision = some merged := by
      rw [addLongitudinalDecision,h,hmerged]
    obtain ⟨r,hr,heq,hall⟩ := ih hadd
    have hfirst := hall _ mem_cons_self
    refine ⟨r,?_,heq,?_⟩
    · rcases mem_cons.mp hr with rfl | hr
      · rcases hor with hor | hor <;> simp [hor]
      · exact mem_cons_of_mem _ (mem_cons_of_mem _ hr)
    · intro d' hd'
      rw [map_cons,mem_cons,mem_cons] at hd'
      rcases hd' with rfl | rfl | hd'
      · exact hleft.trans hfirst
      · exact hright.trans hfirst
      · exact hall d' (mem_cons_of_mem _ hd')

theorem merged_isGreatest {entries : List (String × ObjectDecision K R)} (h : entries ≠ []) :
    ∃ r ∈ entries.map snd, merged entries = some r ∧ ∀ d ∈ entries.map snd, d.AtMost r := by
  obtain ⟨_,entries,rfl⟩ := exists_cons_of_ne_nil h
  exact foldl_isGreatest rfl entries

/-- The decision is one with the safest tag, whose distance counts most among those with this tag, in any order. -/
theorem merged_order_independent (entries : List (String × ObjectDecision K R)) :
    entries = [] ∧ merged entries = none ∨ ∃ r ∈ entries.map snd, merged entries = some r ∧
        (∀ d ∈ entries.map snd, d.tag.safety ≤ r.tag.safety) ∧
        (∀ d ∈ entries.map snd, d.tag = r.tag → d.DistanceAtMost r) ∧
        ∀ entries', entries'.Perm entries →
          ∃ r', merged entries' = some r' ∧ r'.tag = r.tag ∧ r'.distanceS = r.distanceS := by
  by_cases hne : entries = []
  · exact .inl ⟨hne,by rw [hne]; rfl⟩
  obtain ⟨r,hr,heq,hall⟩ := merged_isGreatest hne
  refine .inr ⟨r,hr,heq,?_,?_,?_⟩
  · intro d hd
    rcases hall d hd with hlt | ⟨htag,-⟩
    · exact hlt.le
    · rw [htag]
  · intro d hd htag
    rcases hall d hd with hlt | ⟨-,hdistance⟩
    · exact absurd (congrArg ObjectTag.safety htag) hlt.ne
    · exact hdistance
  · intro entries' hperm
    have hne' : entries' ≠ [] := by
      rintro rfl
      exact hne hperm.nil_eq.symm
    obtain ⟨r',hr',heq',hall'⟩ := merged_isGreatest hne'
    refine ⟨r',heq',?_⟩
    have hperm := hperm.map snd
    exact (hall r' (hperm.mem_iff.mp hr')).outcome_eq (hall' r (hperm.mem_iff.mpr hr))

end Obstacle.Decisions
end Apollo.Modules.Planning
