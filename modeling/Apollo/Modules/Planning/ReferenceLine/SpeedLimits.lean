import Apollo.Foundation.Sorting
import Apollo.Foundation.Transition
import Mathlib.Algebra.Order.Ring.Unbundled.Rat
import Mathlib.Order.Bounds.Basic

/-! The speed limits of a reference line. `AddSpeedLimit` splits the stored ranges at the ends of the new one,
and `GetSpeedLimitFromS` takes the first range around `s` or the limits of the lanes there. -/
namespace Apollo.Modules.Planning.ReferenceLine
open Foundation List
variable {K : Type}

structure SpeedLimit (K : Type) where
  startS : K
  endS : K
  speedLimit : K
  deriving DecidableEq

/-- The stored ranges and a log of the added ones. -/
structure SpeedLimits (K : Type) where
  stored : List (SpeedLimit K)
  added : List (SpeedLimit K)
  deriving DecidableEq

variable [LinearOrder K]

namespace SpeedLimit

def lt (a b : SpeedLimit K) : Bool :=
  if a.startS ≠ b.startS then a.startS < b.startS
  else if a.endS ≠ b.endS then a.endS < b.endS
  else a.speedLimit < b.speedLimit

/-- The ranges that replace one that overlaps with the new range. -/
def split (limit : SpeedLimit K) (startS endS speedLimit : K) : List (SpeedLimit K) :=
  let minSpeed := min limit.speedLimit speedLimit
  if limit.startS ≤ startS then
    ⟨limit.startS,startS,minSpeed⟩ ::
      if endS ≤ limit.endS then [⟨startS,endS,minSpeed⟩,⟨endS,limit.endS,limit.speedLimit⟩]
      else [⟨startS,limit.endS,minSpeed⟩]
  else
    ⟨startS,limit.startS,speedLimit⟩ ::
      if endS ≤ limit.endS then [⟨limit.startS,endS,minSpeed⟩,⟨endS,limit.endS,limit.speedLimit⟩]
      else [⟨limit.startS,limit.endS,minSpeed⟩]

/-- The loop over the stored ranges, which moves `start_s` and `end_s`, with the range that is left after it. -/
def splitAll (speedLimit : K) : List (SpeedLimit K) → K → K → List (SpeedLimit K)
  | [], startS, endS => if startS < endS then [⟨startS,endS,speedLimit⟩] else []
  | limit::limits, startS, endS =>
    if limit.endS ≤ startS ∨ endS ≤ limit.startS then limit::splitAll speedLimit limits startS endS
    else limit.split startS endS speedLimit ++ splitAll speedLimit limits limit.endS (max endS limit.endS)

def Covers (limit : SpeedLimit K) (s : K) : Prop := limit.startS ≤ s ∧ s ≤ limit.endS

def Inside (limit : SpeedLimit K) (s : K) : Prop := limit.startS < s ∧ s < limit.endS

instance (limit : SpeedLimit K) (s : K) : Decidable (limit.Covers s) := inferInstanceAs (Decidable (_ ∧ _))

instance (limit : SpeedLimit K) (s : K) : Decidable (limit.Inside s) := inferInstanceAs (Decidable (_ ∧ _))

end SpeedLimit

def addSpeedLimit (routine : Sorting (SpeedLimit K)) (limits : List (SpeedLimit K)) (startS endS speedLimit : K) :
    List (SpeedLimit K) :=
  routine.sort SpeedLimit.lt
    ((SpeedLimit.splitAll speedLimit limits startS endS).filter fun limit => limit.startS < limit.endS)

/-- The lower one of the flag and of the limits of the lanes. A waypoint without a lane is skipped. -/
def laneSpeedLimit (planningUpperSpeedLimit : K) (laneWaypoints : List (Option K)) : K :=
  laneWaypoints.foldl (fun speedLimit lane => lane.elim speedLimit fun limit => min limit speedLimit)
    planningUpperSpeedLimit

def getSpeedLimitFromS (planningUpperSpeedLimit : K) (laneWaypoints : K → List (Option K))
    (limits : List (SpeedLimit K)) (s : K) : K :=
  match limits.find? fun limit => decide (limit.Covers s) with
  | some limit => limit.speedLimit
  | none => laneSpeedLimit planningUpperSpeedLimit (laneWaypoints s)

namespace SpeedLimits

/-- `AddSpeedLimit` with a range that is not empty. -/
def step (routine : Sorting (SpeedLimit K)) (l : SpeedLimits K) (r : SpeedLimit K) : Option (SpeedLimits K) :=
  if r.startS < r.endS then
    some ⟨addSpeedLimit routine l.stored r.startS r.endS r.speedLimit,l.added ++ [r]⟩
  else none

def system (routine : Sorting (SpeedLimit K)) : System (SpeedLimits K) (SpeedLimit K) where
  initial l := l = ⟨[],[]⟩
  step := step routine

/-- The new range does not begin inside a stored one that has a higher limit. -/
def Cuts (l : SpeedLimits K) (r : SpeedLimit K) : Prop :=
  ∀ p ∈ l.stored, p.Inside r.startS → p.speedLimit ≤ r.speedLimit

end SpeedLimits

namespace SpeedLimit
variable {limit p q : SpeedLimit K} {limits : List (SpeedLimit K)} {startS endS speedLimit s : K}

structure Ordered (limits : List (SpeedLimit K)) : Prop where
  proper : ∀ p ∈ limits, p.startS < p.endS
  apart : limits.Pairwise fun p q => p.endS ≤ q.startS

def Ends (limits : List (SpeedLimit K)) (s : K) : Prop := ∃ p ∈ limits, s = p.startS ∨ s = p.endS

section
variable (h : Ordered (limit::limits))
include h

theorem Ordered.tail : Ordered limits :=
  ⟨fun p hp => h.proper p (mem_cons_of_mem limit hp),(pairwise_cons.mp h.apart).2⟩

theorem Ordered.head_le (hp : p ∈ limits) : limit.endS ≤ p.startS := (pairwise_cons.mp h.apart).1 p hp

theorem Ordered.head_lt : limit.startS < limit.endS := h.proper limit mem_cons_self

end

/-- The part before both starts, the common part and the part after the new range. -/
theorem split_eq : limit.split startS endS speedLimit = ⟨min limit.startS startS,max limit.startS startS,
      if limit.startS ≤ startS then min limit.speedLimit speedLimit else speedLimit⟩ ::
    ⟨max limit.startS startS,min endS limit.endS,min limit.speedLimit speedLimit⟩ ::
    if endS ≤ limit.endS then [⟨endS,limit.endS,limit.speedLimit⟩] else [] := by
  rw [split,min_def limit.startS,max_def limit.startS,min_def endS]
  split_ifs <;> rfl

theorem mem_split (h : q ∈ limit.split startS endS speedLimit) : q = ⟨min limit.startS startS,max limit.startS startS,
      if limit.startS ≤ startS then min limit.speedLimit speedLimit else speedLimit⟩ ∨
    q = ⟨max limit.startS startS,min endS limit.endS,min limit.speedLimit speedLimit⟩ ∨
    (endS ≤ limit.endS ∧ q = ⟨endS,limit.endS,limit.speedLimit⟩) := by
  rw [split_eq] at h
  grind

theorem split_apart (hle : startS ≤ endS) (hafter : limit.startS < endS) :
    (limit.split startS endS speedLimit).Pairwise fun p q => p.endS ≤ q.startS := by
  rw [split_eq]
  split
  case isTrue hend =>
    grind
  case isFalse hend =>
    grind

theorem split_within (hlimit : limit.startS < limit.endS) (hbefore : startS < limit.endS)
    (hafter : limit.startS < endS) (h : q ∈ limit.split startS endS speedLimit) :
    q.endS ≤ limit.endS ∧ (limit.startS ≤ q.startS ∨ startS ≤ q.startS ∧ q.endS ≤ endS) := by
  rcases mem_split h with rfl | rfl | ⟨hend,rfl⟩ <;> grind

theorem split_covers (hs : limit.startS ≤ s ∨ startS ≤ s) (hend : s ≤ limit.endS) :
    ∃ q ∈ limit.split startS endS speedLimit, q.Covers s := by
  rw [split_eq]
  by_cases hfirst : s ≤ max limit.startS startS
  · exact ⟨_,mem_cons_self,by grind [Covers]⟩
  · by_cases hmid : s ≤ min endS limit.endS
    · exact ⟨_,mem_cons_of_mem _ mem_cons_self,by grind [Covers]⟩
    · have hlast : endS ≤ limit.endS := by grind
      rw [if_pos hlast]
      refine ⟨⟨endS,limit.endS,limit.speedLimit⟩,by simp,?_⟩
      grind [Covers]

theorem split_ends (h : q ∈ limit.split startS endS speedLimit) (hs : s = q.startS ∨ s = q.endS) :
    s = startS ∨ s = endS ∨ s = limit.startS ∨ s = limit.endS := by
  rcases mem_split h with rfl | rfl | ⟨hend,rfl⟩ <;> grind

theorem split_speed (hbefore : startS < limit.endS)
    (hafter : limit.startS < endS) (hcut : limit.Inside startS → limit.speedLimit ≤ speedLimit)
    (h : q ∈ limit.split startS endS speedLimit) (hs : q.Inside s) :
    (¬ (startS < s ∧ s < endS) ∧ limit.Inside s ∧ q.speedLimit = limit.speedLimit) ∨
    ((startS < s ∧ s < endS) ∧ limit.Inside s ∧ q.speedLimit = min limit.speedLimit speedLimit) ∨
    (startS < s ∧ s < endS) ∧ s < limit.startS ∧ q.speedLimit = speedLimit := by
  rcases mem_split h with rfl | rfl | ⟨hend,rfl⟩
  · by_cases hstart : limit.startS ≤ startS
    · have hin : limit.startS < s ∧ s < startS := by grind [Inside]
      have hspeed := hcut ⟨hin.1.trans hin.2,hbefore⟩
      refine .inl ⟨fun hnew => lt_asymm hin.2 hnew.1,⟨hin.1,hin.2.trans hbefore⟩,?_⟩
      rw [if_pos hstart,min_eq_left hspeed]
    · have hin : startS < s ∧ s < limit.startS := by grind [Inside]
      exact .inr (.inr ⟨⟨hin.1,hin.2.trans hafter⟩,hin.2,if_neg hstart⟩)
  · obtain ⟨hstart,hend⟩ := hs
    obtain ⟨hlimit,hnew⟩ := max_lt_iff.mp hstart
    obtain ⟨hnew',hlimit'⟩ := lt_min_iff.mp hend
    exact .inr (.inl ⟨⟨hnew,hnew'⟩,⟨hlimit,hlimit'⟩,rfl⟩)
  · exact .inl ⟨fun hnew => lt_asymm hs.1 hnew.2,⟨hafter.trans hs.1,hs.2⟩,rfl⟩

def EndsWith (limits : List (SpeedLimit K)) (startS endS s : K) : Prop := s = startS ∨ s = endS ∨ Ends limits s

theorem splitAll_ends (h : q ∈ splitAll speedLimit limits startS endS) (hs : s = q.startS ∨ s = q.endS) :
    EndsWith limits startS endS s := by
  induction limits generalizing startS endS with
  | nil =>
    rw [splitAll] at h
    split at h
    · cases mem_singleton.mp h
      exact hs.imp_right .inl
    · cases h
  | cons limit limits ih =>
    have hhead : s = limit.startS ∨ s = limit.endS → Ends (limit::limits) s :=
      fun h => ⟨limit,mem_cons_self,h⟩
    have htail : Ends limits s → Ends (limit::limits) s :=
      fun ⟨p,hp,h⟩ => ⟨p,mem_cons_of_mem limit hp,h⟩
    rw [splitAll] at h
    split at h
    · rcases mem_cons.mp h with rfl | hmem
      · exact .inr (.inr (hhead hs))
      · exact (ih hmem).imp_right (.imp_right htail)
    · rcases mem_append.mp h with hmem | hmem
      · exact (split_ends hmem hs).imp_right (.imp_right hhead)
      · rcases ih hmem with h | h | h
        · exact .inr (.inr (hhead (.inr h)))
        · rcases max_choice endS limit.endS with hmax | hmax
          · exact .inr (.inl (h.trans hmax))
          · exact .inr (.inr (hhead (.inr (h.trans hmax))))
        · exact .inr (.inr (htail h))

theorem splitAll_within (hl : Ordered limits) (hle : startS ≤ endS) (h : q ∈ splitAll speedLimit limits startS endS) :
    (∃ p ∈ limits, p.startS ≤ q.startS ∧ q.endS ≤ p.endS) ∨ startS ≤ q.startS ∧ q.endS ≤ endS := by
  induction limits generalizing startS endS with
  | nil =>
    rw [splitAll] at h
    split at h
    · cases mem_singleton.mp h
      exact .inr ⟨le_rfl,le_rfl⟩
    · cases h
  | cons limit limits ih =>
    have hhead : limit.startS ≤ q.startS ∧ q.endS ≤ limit.endS →
        ∃ p ∈ limit::limits, p.startS ≤ q.startS ∧ q.endS ≤ p.endS := fun h => ⟨limit,mem_cons_self,h⟩
    have htail : (∃ p ∈ limits, p.startS ≤ q.startS ∧ q.endS ≤ p.endS) →
        ∃ p ∈ limit::limits, p.startS ≤ q.startS ∧ q.endS ≤ p.endS :=
      fun ⟨p,hp,h⟩ => ⟨p,mem_cons_of_mem limit hp,h⟩
    have hlimit := hl.head_lt
    rw [splitAll] at h
    split at h
    next =>
      rcases mem_cons.mp h with rfl | hmem
      · exact .inl (hhead ⟨le_rfl,le_rfl⟩)
      · exact (ih hl.tail hle hmem).imp_left htail
    next hoverlap =>
      obtain ⟨hbefore,hafter⟩ := not_or.mp hoverlap
      rcases mem_append.mp h with hmem | hmem
      · obtain ⟨hend,hin | hin⟩ := split_within hlimit (not_le.mp hbefore) (not_le.mp hafter) hmem
        · exact .inl (hhead ⟨hin,hend⟩)
        · exact .inr hin
      · rcases ih hl.tail (le_max_right endS limit.endS) hmem with hin | ⟨hstart,hend⟩
        · exact .inl (htail hin)
        · -- The rest of the new range is empty if it ends in this stored range.
          rcases le_total endS limit.endS with hle | hle
          · exact .inl (hhead ⟨hlimit.le.trans hstart,hend.trans_eq (max_eq_right hle)⟩)
          · exact .inr ⟨(not_le.mp hbefore).le.trans hstart,hend.trans_eq (max_eq_left hle)⟩

theorem splitAll_apart (speedLimit : K) (hl : Ordered limits) (hle : startS ≤ endS) :
    (splitAll speedLimit limits startS endS).Pairwise fun p q => p.endS ≤ q.startS ∨ q.endS ≤ p.startS := by
  induction limits generalizing startS endS with
  | nil =>
    rw [splitAll]
    split
    · exact pairwise_singleton _ _
    · exact List.Pairwise.nil
  | cons limit _ ih =>
    have hlimit := hl.head_lt
    rw [splitAll]
    split
    next hout =>
      refine pairwise_cons.mpr ⟨?_,ih hl.tail hle⟩
      intro _ hq
      rcases splitAll_within hl.tail hle hq with ⟨p,hp,hstart,-⟩ | ⟨hstart,hend⟩
      · exact .inl ((hl.head_le hp).trans hstart)
      · exact hout.imp (·.trans hstart) hend.trans
    next hoverlap =>
      obtain ⟨hbefore,hafter⟩ := not_or.mp hoverlap
      have hmax := le_max_right endS limit.endS
      refine pairwise_append.mpr ⟨?_,ih hl.tail hmax,?_⟩
      · exact (split_apart hle (not_le.mp hafter)).imp .inl
      · intro _ hp _ hq
        have hend := (split_within hlimit (not_le.mp hbefore) (not_le.mp hafter) hp).1
        rcases splitAll_within hl.tail hmax hq with ⟨r,hr,hstart,-⟩ | ⟨hstart,-⟩
        · exact .inl (hend.trans ((hl.head_le hr).trans hstart))
        · exact .inl (hend.trans hstart)

theorem splitAll_covers (speedLimit : K) (h : (∃ p ∈ limits, p.Covers s) ∨ startS < s ∧ s < endS) :
    ∃ q ∈ splitAll speedLimit limits startS endS, q.Covers s := by
  induction limits generalizing startS endS with
  | nil =>
    rcases h with ⟨p,hp,-⟩ | ⟨hstart,hend⟩
    · cases hp
    · rw [splitAll,if_pos (hstart.trans hend)]
      exact ⟨_,mem_cons_self,hstart.le,hend.le⟩
  | cons limit limits ih =>
    rw [splitAll]
    split
    next =>
      by_cases hlimit : limit.Covers s
      · exact ⟨limit,mem_cons_self,hlimit⟩
      · have hrest : (∃ p ∈ limits, p.Covers s) ∨ startS < s ∧ s < endS := by grind
        obtain ⟨q,hq,hcovers⟩ := ih hrest
        exact ⟨q,mem_cons_of_mem limit hq,hcovers⟩
    next hoverlap =>
      by_cases hin : (limit.startS ≤ s ∨ startS ≤ s) ∧ s ≤ limit.endS
      · obtain ⟨q,hq,hcovers⟩ := split_covers hin.1 hin.2
        exact ⟨q,mem_append_left _ hq,hcovers⟩
      · have hrest : (∃ p ∈ limits, p.Covers s) ∨ limit.endS < s ∧ s < max endS limit.endS := by grind [Covers]
        obtain ⟨q,hq,hcovers⟩ := ih hrest
        exact ⟨q,mem_append_right _ hq,hcovers⟩

/-- What becomes of the limit at `s`: only the new range lowers it. -/
def Becomes (limits : List (SpeedLimit K)) (startS endS speedLimit s result : K) : Prop :=
  (¬ (startS < s ∧ s < endS) ∧ ∃ p ∈ limits, p.Inside s ∧ result = p.speedLimit) ∨
  (startS < s ∧ s < endS) ∧ ((∃ p ∈ limits, p.Inside s ∧ result = min p.speedLimit speedLimit) ∨
    (∀ p ∈ limits, ¬ p.Inside s) ∧ result = speedLimit)

theorem Becomes.cons {result : K} (h : Becomes limits startS endS speedLimit s result) (hs : ¬ limit.Inside s) :
    Becomes (limit::limits) startS endS speedLimit s result := by
  rcases h with ⟨hnew,p,hp,h⟩ | ⟨hnew,⟨p,hp,h⟩ | ⟨hnone,h⟩⟩
  · exact .inl ⟨hnew,p,mem_cons_of_mem limit hp,h⟩
  · exact .inr ⟨hnew,.inl ⟨p,mem_cons_of_mem limit hp,h⟩⟩
  · exact .inr ⟨hnew,.inr ⟨forall_mem_cons.mpr ⟨hs,hnone⟩,h⟩⟩

theorem splitAll_speed (hl : Ordered limits) (hle : startS ≤ endS)
    (hcut : ∀ p ∈ limits, p.Inside startS → p.speedLimit ≤ speedLimit)
    (h : q ∈ splitAll speedLimit limits startS endS) (hs : q.Inside s) :
    Becomes limits startS endS speedLimit s q.speedLimit := by
  induction limits generalizing startS endS with
  | nil =>
    rw [splitAll] at h
    split at h
    · cases mem_singleton.mp h
      exact .inr ⟨hs,.inr ⟨fun _ hp => (not_mem_nil hp).elim,rfl⟩⟩
    · cases h
  | cons limit limits ih =>
    have hlimit := hl.head_lt
    obtain ⟨hcutHead,hcutTail⟩ := forall_mem_cons.mp hcut
    rw [splitAll] at h
    split at h
    next hout =>
      rcases mem_cons.mp h with rfl | hmem
      · refine .inl ⟨?_,q,mem_cons_self,hs,rfl⟩
        rintro ⟨hstart,hend⟩
        rcases hout with hout | hout
        · exact lt_asymm hstart (hs.2.trans_le hout)
        · exact lt_asymm hend (hout.trans_lt hs.1)
      · have hapart := splitAll_apart speedLimit hl hle
        rw [splitAll,if_pos hout] at hapart
        have hnot : ¬ limit.Inside s := by
          rintro ⟨hstart,hend⟩
          rcases (pairwise_cons.mp hapart).1 q hmem with hle | hle
          · exact lt_asymm hend (hle.trans_lt hs.1)
          · exact lt_asymm hstart (hs.2.trans_le hle)
        exact (ih hl.tail hle hcutTail hmem).cons hnot
    next hoverlap =>
      obtain ⟨hbefore,hafter⟩ := not_or.mp hoverlap
      rcases mem_append.mp h with hmem | hmem
      · rcases split_speed (not_le.mp hbefore) (not_le.mp hafter) hcutHead hmem hs with
          ⟨hnew,hin,h⟩ | ⟨hnew,hin,h⟩ | ⟨hnew,hlt,h⟩
        · exact .inl ⟨hnew,limit,mem_cons_self,hin,h⟩
        · exact .inr ⟨hnew,.inl ⟨limit,mem_cons_self,hin,h⟩⟩
        · refine .inr ⟨hnew,.inr ⟨forall_mem_cons.mpr ⟨fun hin => lt_asymm hlt hin.1,?_⟩,h⟩⟩
          intro _ hp hin
          exact lt_asymm (hlt.trans hlimit) ((hl.head_le hp).trans_lt hin.1)
      · -- The rest of the new range begins where the stored one ends.
        have hmax := le_max_right endS limit.endS
        have hpast : limit.endS < s := by
          rcases splitAll_within hl.tail hmax hmem with ⟨p,hp,hstart,-⟩ | ⟨hstart,-⟩
          · exact ((hl.head_le hp).trans hstart).trans_lt hs.1
          · exact hstart.trans_lt hs.1
        have hcutRest : ∀ p ∈ limits, p.Inside limit.endS → p.speedLimit ≤ speedLimit :=
          fun _ hp hin => absurd hin.1 (not_lt.mpr (hl.head_le hp))
        have hiff : (limit.endS < s ∧ s < max endS limit.endS) ↔ (startS < s ∧ s < endS) := by grind
        have hbecomes := ih hl.tail hmax hcutRest hmem
        rw [Becomes,hiff] at hbecomes
        exact Becomes.cons hbecomes fun hin => lt_asymm hpast hin.2

/-- A split may lower a limit where the new range is not, but never raises one. -/
theorem splitAll_le (hl : Ordered limits) (hle : startS ≤ endS) (h : q ∈ splitAll speedLimit limits startS endS)
    (hs : q.Inside s) : (∀ p ∈ limits, p.Inside s → q.speedLimit ≤ p.speedLimit) ∧
      (startS < s → s < endS → q.speedLimit ≤ speedLimit) := by
  induction limits generalizing startS endS with
  | nil =>
    rw [splitAll] at h
    split at h
    · cases mem_singleton.mp h
      exact ⟨nofun,fun _ _ => le_rfl⟩
    · cases h
  | cons limit limits ih =>
    have hapart := splitAll_apart speedLimit hl hle
    have hafter : ∀ p ∈ limits, p.Inside s → limit.endS < s := fun _ hp hin => (hl.head_le hp).trans_lt hin.1
    have hlimit := hl.head_lt
    have hmax := le_max_right endS limit.endS
    rw [splitAll] at h hapart
    split at h
    next hout =>
      rw [if_pos hout] at hapart
      rcases mem_cons.mp h with rfl | hmem
      · grind [Inside]
      · have hq := (pairwise_cons.mp hapart).1 q hmem
        have hrest := ih hl.tail hle hmem
        grind [Inside]
    next hoverlap =>
      rcases mem_append.mp h with hmem | hmem
      · rcases mem_split hmem with rfl | rfl | ⟨hend,rfl⟩ <;> grind [Inside]
      · have hpast : limit.endS ≤ q.startS := by
          rcases splitAll_within hl.tail hmax hmem with ⟨p,hp,hstart,-⟩ | ⟨hstart,-⟩
          · exact (hl.head_le hp).trans hstart
          · exact hstart
        have hrest := ih hl.tail hmax hmem
        grind [Inside]

variable {a b c : SpeedLimit K}

theorem startS_le_of_lt_false (h : b.lt a = false) : a.startS ≤ b.startS := by
  rw [lt] at h
  split at h
  next => exact not_lt.mp (of_decide_eq_false h)
  next heq => exact (not_ne_iff.mp heq).ge

theorem lt_asymm (h : a.lt b = true) : b.lt a = false := by
  simp only [lt] at *
  grind

theorem lt_false_trans (hab : b.lt a = false) (hbc : c.lt b = false) : c.lt a = false := by
  simp only [lt] at *
  grind

end SpeedLimit

section Add
open SpeedLimit
variable {routine : Sorting (SpeedLimit K)} {limits : List (SpeedLimit K)} {q : SpeedLimit K}
  {startS endS speedLimit s : K}

theorem mem_addSpeedLimit : q ∈ addSpeedLimit routine limits startS endS speedLimit ↔
    q ∈ splitAll speedLimit limits startS endS ∧ q.startS < q.endS := by
  rw [addSpeedLimit,(routine.perm _ _).mem_iff,mem_filter,decide_eq_true_iff]

theorem addSpeedLimit_ordered (hl : Ordered limits) (hle : startS ≤ endS) :
    Ordered (addSpeedLimit routine limits startS endS speedLimit) := by
  have hproper : ∀ p ∈ addSpeedLimit routine limits startS endS speedLimit, p.startS < p.endS :=
    fun p hp => (mem_addSpeedLimit.mp hp).2
  refine ⟨hproper,?_⟩
  have hsorted : (addSpeedLimit routine limits startS endS speedLimit).Pairwise fun p q => p.startS ≤ q.startS :=
    (routine.sorted SpeedLimit.lt _ (fun _ _ => SpeedLimit.lt_asymm) fun _ _ _ => lt_false_trans).imp
      startS_le_of_lt_false
  have hapart : (addSpeedLimit routine limits startS endS speedLimit).Pairwise
      fun p q => p.endS ≤ q.startS ∨ q.endS ≤ p.startS := by
    apply ((routine.perm _ _).pairwise_iff fun {_ _} => Or.symm).mpr
    exact (splitAll_apart speedLimit hl hle).filter _
  refine (hsorted.and hapart).imp_of_mem ?_
  rintro p q - hq ⟨hstart,hle | hle⟩
  · exact hle
  · exact absurd (hle.trans hstart) (not_le.mpr (hproper q hq))

/-- Every number of the stored ranges and of the new one is in a range afterwards. -/
theorem addSpeedLimit_inside (hends : ¬ EndsWith limits startS endS s)
    (h : (∃ p ∈ limits, p.Inside s) ∨ startS < s ∧ s < endS) :
    ∃ q ∈ addSpeedLimit routine limits startS endS speedLimit, q.Inside s := by
  obtain ⟨q,hq,hstart,hend⟩ := splitAll_covers speedLimit (h.imp_left fun ⟨p,hp,hin⟩ => ⟨p,hp,hin.1.le,hin.2.le⟩)
  have hstart' := hstart.lt_of_ne fun h => hends (splitAll_ends hq (.inl h.symm))
  have hend' := hend.lt_of_ne fun h => hends (splitAll_ends hq (.inr h))
  exact ⟨q,mem_addSpeedLimit.mpr ⟨hq,hstart'.trans hend'⟩,hstart',hend'⟩

end Add

namespace SpeedLimits
open SpeedLimit
variable {routine : Sorting (SpeedLimit K)} {l t : SpeedLimits K} {r : SpeedLimit K} {s : K}

def containing (l : SpeedLimits K) (s : K) : Set K := {v | ∃ r ∈ l.added, r.Covers s ∧ r.speedLimit = v}

/-- The stored ranges cover what the added ranges cover, with ends of theirs. -/
structure Partitioned (l : SpeedLimits K) : Prop where
  ordered : Ordered l.stored
  ends : ∀ s, Ends l.stored s → Ends l.added s
  within : ∀ p ∈ l.stored, ∀ s, p.Covers s → ∃ r ∈ l.added, r.Covers s
  inside : ∀ s, ¬ Ends l.added s → ∀ r ∈ l.added, r.Inside s → ∃ p ∈ l.stored, p.Inside s

def Lowest (l : SpeedLimits K) : Prop :=
  ∀ s, ¬ Ends l.added s → ∀ p ∈ l.stored, p.Inside s → IsLeast (l.containing s) p.speedLimit

theorem step_eq (h : (system routine).step l r = some t) :
    r.startS < r.endS ∧ t = ⟨addSpeedLimit routine l.stored r.startS r.endS r.speedLimit,l.added ++ [r]⟩ := by
  by_cases hlt : r.startS < r.endS
  · exact ⟨hlt,(Option.some.inj ((if_pos hlt).symm.trans h)).symm⟩
  · cases (if_neg hlt).symm.trans h

omit [LinearOrder K] in
theorem ends_append : Ends (l.added ++ [r]) s ↔ Ends l.added s ∨ s = r.startS ∨ s = r.endS := by
  simp only [Ends,mem_append,mem_singleton,or_and_right,exists_or,exists_eq_left]

theorem Partitioned.endsWith (hl : Partitioned l) (h : EndsWith l.stored r.startS r.endS s) :
    Ends (l.added ++ [r]) s := by
  rw [ends_append]
  rcases h with h | h | h
  · exact .inr (.inl h)
  · exact .inr (.inr h)
  · exact .inl (hl.ends s h)

theorem Partitioned.step (hl : Partitioned l) (h : (system routine).step l r = some t) : Partitioned t := by
  obtain ⟨hlt,rfl⟩ := step_eq h
  constructor
  case ordered => exact addSpeedLimit_ordered hl.ordered hlt.le
  case ends =>
    rintro s ⟨p,hp,hs⟩
    exact hl.endsWith (splitAll_ends (mem_addSpeedLimit.mp hp).1 hs)
  case within =>
    intro _ hq s hs
    rcases splitAll_within hl.ordered hlt.le (mem_addSpeedLimit.mp hq).1 with
      ⟨p,hp,hstart,hend⟩ | ⟨hstart,hend⟩
    · obtain ⟨r,hr,hcovers⟩ := hl.within p hp s ⟨hstart.trans hs.1,hs.2.trans hend⟩
      exact ⟨r,mem_append_left _ hr,hcovers⟩
    · exact ⟨r,mem_concat_self,hstart.trans hs.1,hs.2.trans hend⟩
  case inside =>
    intro s hs r' hr hin
    apply addSpeedLimit_inside fun h => hs (hl.endsWith h)
    rcases mem_append.mp hr with hr | hr
    · exact .inl (hl.inside s (fun h => hs (ends_append.mpr (.inl h))) r' hr hin)
    · cases mem_singleton.mp hr
      exact .inr hin

theorem inside_iff_covers (hs : ¬ Ends l.added s) (hr : r ∈ l.added) : r.Inside s ↔ r.Covers s := by
  constructor
  · exact fun h => ⟨h.1.le,h.2.le⟩
  · intro h
    exact ⟨h.1.lt_of_ne fun heq => hs ⟨r,hr,.inl heq.symm⟩,h.2.lt_of_ne fun heq => hs ⟨r,hr,.inr heq⟩⟩

theorem containing_append {stored : List (SpeedLimit K)} : (SpeedLimits.mk stored (l.added ++ [r])).containing s =
    l.containing s ∪ {v | r.Covers s ∧ r.speedLimit = v} := by
  ext v
  simp only [containing,Set.mem_ofPred_eq,Set.mem_union,mem_append,mem_singleton,or_and_right,
    exists_or,exists_eq_left]

/-- Without `Cuts` the part of a stored range before the start of the new one would get the new limit. -/
theorem Lowest.step (hl : Partitioned l) (h : Lowest l) (hcut : l.Cuts r)
    (he : (system routine).step l r = some t) : Lowest t := by
  obtain ⟨hlt,rfl⟩ := step_eq he
  intro s hs _ hq hin
  have hs' : ¬ Ends l.added s := fun h => hs (ends_append.mpr (.inl h))
  have hr := inside_iff_covers hs mem_concat_self
  rw [containing_append]
  rcases splitAll_speed hl.ordered hlt.le hcut (mem_addSpeedLimit.mp hq).1 hin with
    ⟨hnew,p,hp,hp',hspeed⟩ | ⟨hnew,⟨p,hp,hp',hspeed⟩ | ⟨hnone,hspeed⟩⟩
  · have hempty : {v | r.Covers s ∧ r.speedLimit = v} = ∅ :=
      Set.eq_empty_of_forall_notMem fun v hv => hnew (hr.mpr hv.1)
    rw [hempty,Set.union_empty,hspeed]
    exact h s hs' p hp hp'
  · have hsingle : IsLeast {v | r.Covers s ∧ r.speedLimit = v} r.speedLimit :=
      ⟨⟨hr.mp hnew,rfl⟩,fun _ hv => hv.2.le⟩
    rw [hspeed]
    exact (h s hs' p hp hp').union hsingle
  · have hempty : l.containing s = ∅ := by
      apply Set.eq_empty_of_forall_notMem
      rintro v ⟨r',hr',hcovers,-⟩
      obtain ⟨p,hp,hp'⟩ := hl.inside s hs' r' hr' ((inside_iff_covers hs' hr').mpr hcovers)
      exact hnone p hp hp'
    rw [hempty,Set.empty_union,hspeed]
    exact ⟨⟨hr.mp hnew,rfl⟩,fun _ hv => hv.2.le⟩

def Safe (l : SpeedLimits K) : Prop :=
  ∀ s, ¬ Ends l.added s → ∀ p ∈ l.stored, p.Inside s → p.speedLimit ∈ lowerBounds (l.containing s)

theorem Safe.step (hl : Partitioned l) (h : Safe l) (he : (system routine).step l r = some t) : Safe t := by
  obtain ⟨hlt,rfl⟩ := step_eq he
  intro s hs q hq hin
  have hs' : ¬ Ends l.added s := fun h => hs (ends_append.mpr (.inl h))
  obtain ⟨hstored,hnew⟩ := splitAll_le hl.ordered hlt.le (mem_addSpeedLimit.mp hq).1 hin
  rw [containing_append]
  rintro v (⟨r',hr',hcovers,rfl⟩ | ⟨hcovers,rfl⟩)
  · obtain ⟨p,hp,hp'⟩ := hl.inside s hs' r' hr' ((inside_iff_covers hs' hr').mpr hcovers)
    exact (hstored p hp hp').trans (h s hs' p hp hp' ⟨r',hr',hcovers,rfl⟩)
  · obtain ⟨hstart,hend⟩ := (inside_iff_covers hs mem_concat_self).mpr hcovers
    exact hnew hstart hend

theorem partitioned_of_reachable (h : (system routine).Reachable l) : Partitioned l := by
  apply h.invariant
  · rintro l rfl
    exact ⟨⟨by simp,List.Pairwise.nil⟩,fun s ⟨p,hp,_⟩ => (not_mem_nil hp).elim,by simp,by simp⟩
  · exact fun _ _ _ hl he => hl.step he

theorem lowest_of_reachableWhile (h : (system routine).ReachableWhile Cuts l) : Lowest l := by
  have hboth : Partitioned l ∧ Lowest l := by
    apply h.invariant
    · rintro l rfl
      have hstart : (system routine).Reachable ⟨[],[]⟩ := .start rfl
      exact ⟨partitioned_of_reachable hstart,fun _ _ _ hp => (not_mem_nil hp).elim⟩
    · exact fun _ _ _ hl hcut he => ⟨hl.1.step he,.step hl.1 hl.2 hcut he⟩
  exact hboth.2

/-- Beside the added ranges the lanes give the limit. In the ranges it is the lowest one, unless a call has
lowered a part of a stored range before its own start. -/
theorem speedLimit_lowest (routine : Sorting (SpeedLimit K)) (planningUpperSpeedLimit : K)
    (laneWaypoints : K → List (Option K)) {l : SpeedLimits K} (h : (system routine).Reachable l) (s : K) :
    ((∀ r ∈ l.added, ¬ r.Covers s) → getSpeedLimitFromS planningUpperSpeedLimit laneWaypoints l.stored s =
      laneSpeedLimit planningUpperSpeedLimit (laneWaypoints s)) ∧
    ((system routine).ReachableWhile Cuts l → ¬ SpeedLimit.Ends l.added s → (∃ r ∈ l.added, r.Covers s) →
      IsLeast (l.containing s) (getSpeedLimitFromS planningUpperSpeedLimit laneWaypoints l.stored s)) := by
  have hl := partitioned_of_reachable h
  constructor
  · intro hout
    have hnone : l.stored.find? (fun limit => decide (limit.Covers s)) = none := by
      apply find?_eq_none.mpr
      intro p hp hcovers
      obtain ⟨r,hr,hr'⟩ := hl.within p hp s (of_decide_eq_true hcovers)
      exact hout r hr hr'
    rw [getSpeedLimitFromS,hnone]
  · rintro hwhile hs ⟨r,hr,hcovers⟩
    obtain ⟨p,hp,hin⟩ := hl.inside s hs r hr ((inside_iff_covers hs hr).mpr hcovers)
    obtain ⟨q,hq⟩ : ∃ q, l.stored.find? (fun limit => decide (limit.Covers s)) = some q := by
      apply Option.isSome_iff_exists.mp
      exact find?_isSome.mpr ⟨p,hp,decide_eq_true ⟨hin.1.le,hin.2.le⟩⟩
    have hmem := mem_of_find?_eq_some hq
    have hcovers : q.Covers s := by simpa using find?_some hq
    obtain ⟨hstart,hend⟩ := hcovers
    have hq' : q.Inside s :=
      ⟨hstart.lt_of_ne fun heq => hs (hl.ends s ⟨q,hmem,.inl heq.symm⟩),
        hend.lt_of_ne fun heq => hs (hl.ends s ⟨q,hmem,.inr heq⟩)⟩
    rw [getSpeedLimitFromS,hq]
    exact lowest_of_reachableWhile hwhile s hs q hmem hq'

/-- A limit of 20 from 5 to 12 does not change the limit of 10 up to 10. -/
theorem speedLimit_lowest_raised : ∃ l : SpeedLimits ℚ, (system (.insertion _)).Reachable l ∧
    getSpeedLimitFromS 30 (fun _ => [some 25,none]) l.stored 13 = laneSpeedLimit 30 [some 25,none] ∧
    IsLeast (l.containing 7) (getSpeedLimitFromS 30 (fun _ => [some 25,none]) l.stored 7) := by
  have hwhile : (system (.insertion _)).ReachableWhile Cuts
      (⟨[⟨0,5,10⟩,⟨5,10,10⟩,⟨10,12,20⟩],[⟨0,10,10⟩,⟨5,12,20⟩]⟩ : SpeedLimits ℚ) := by
    have hfirst : (system (.insertion _)).ReachableWhile Cuts (⟨[⟨0,10,10⟩],[⟨0,10,10⟩]⟩ : SpeedLimits ℚ) :=
      .next (e := ⟨0,10,10⟩) (.start rfl) (fun _ hp => (not_mem_nil hp).elim) (by decide +kernel)
    refine .next (e := ⟨5,12,20⟩) hfirst ?_ (by decide +kernel)
    intro _ hp _
    cases mem_singleton.mp hp
    exact (by decide : (10 : ℚ) ≤ 20)
  have h := hwhile.reachable
  refine ⟨_,h,(speedLimit_lowest _ 30 _ h 13).1 ?_,(speedLimit_lowest _ 30 _ h 7).2 hwhile ?_ ?_⟩
  · decide
  · unfold SpeedLimit.Ends
    decide
  · decide

/-- A limit of 10 from 5 to 8 lowers the limit of 20 before it too. -/
theorem speedLimit_before_start : ∃ l : SpeedLimits ℚ, (system (.insertion _)).Reachable l ∧
    ¬ SpeedLimit.Ends l.added 2 ∧ (∃ r ∈ l.added, r.Covers 2) ∧
    ¬ IsLeast (l.containing 2) (getSpeedLimitFromS 30 (fun _ => []) l.stored 2) := by
  have hinitial : (system (.insertion (SpeedLimit ℚ))).initial ⟨[],[]⟩ := rfl
  obtain ⟨l,hl,hp⟩ := System.reachable_of_exec (system (.insertion (SpeedLimit ℚ))) [⟨0,10,20⟩,⟨5,8,10⟩]
    (fun l => l.added = [⟨0,10,20⟩,⟨5,8,10⟩] && getSpeedLimitFromS 30 (fun _ => []) l.stored 2 = 10)
    hinitial (by decide +kernel)
  obtain ⟨hadded,hlimit⟩ := (Bool.and_eq_true _ _).mp hp
  rw [decide_eq_true_iff] at hadded hlimit
  refine ⟨l,hl,?_,?_,?_⟩
  · rw [hadded]
    unfold SpeedLimit.Ends
    decide
  · rw [hadded]
    decide
  · rw [hlimit,containing,hadded]
    rintro ⟨⟨r,_,_,_⟩,-⟩
    revert r
    decide

/-- Whatever the calls are, no limit that was set for `s` is exceeded there. -/
theorem speedLimit_safe (routine : Sorting (SpeedLimit K)) (planningUpperSpeedLimit : K)
    (laneWaypoints : K → List (Option K)) {l : SpeedLimits K} (h : (system routine).Reachable l) {s : K}
    (hs : ¬ SpeedLimit.Ends l.added s) {r : SpeedLimit K} (hr : r ∈ l.added) (hcovers : r.Covers s) :
    getSpeedLimitFromS planningUpperSpeedLimit laneWaypoints l.stored s ≤ r.speedLimit := by
  obtain ⟨hl,hsafe⟩ : Partitioned l ∧ Safe l := by
    apply h.invariant
    · rintro l rfl
      have hstart : (system routine).Reachable ⟨[],[]⟩ := .start rfl
      exact ⟨partitioned_of_reachable hstart,fun _ _ _ hp => (not_mem_nil hp).elim⟩
    · exact fun _ _ _ hl he => ⟨hl.1.step he,.step hl.1 hl.2 he⟩
  obtain ⟨p,hp,hin⟩ := hl.inside s hs r hr ((inside_iff_covers hs hr).mpr hcovers)
  rw [getSpeedLimitFromS]
  split
  case h_1 q hq =>
    have hmem := mem_of_find?_eq_some hq
    have hin := inside_iff_covers (l := ⟨[],l.stored⟩) (fun h => hs (hl.ends s h)) hmem
    exact hsafe s hs q hmem (hin.mpr (by simpa using find?_some hq)) ⟨r,hr,hcovers,rfl⟩
  case h_2 hnone => exact absurd (decide_eq_true ⟨hin.1.le,hin.2.le⟩) (find?_eq_none.mp hnone p hp)

theorem speedLimit_safe_lowered : ∃ l : SpeedLimits ℚ, l.added = [⟨0,10,20⟩,⟨5,8,10⟩] ∧
    getSpeedLimitFromS 30 (fun _ => []) l.stored 2 ≤ 20 := by
  have hinitial : (system (.insertion (SpeedLimit ℚ))).initial ⟨[],[]⟩ := rfl
  obtain ⟨l,hl,hp⟩ := System.reachable_of_exec _ [⟨0,10,20⟩,⟨5,8,10⟩] (·.added = [⟨0,10,20⟩,⟨5,8,10⟩]) hinitial
    (by decide +kernel)
  have hadded := of_decide_eq_true hp
  refine ⟨l,hadded,speedLimit_safe _ 30 _ hl (r := ⟨0,10,20⟩) ?_ (by simp [hadded]) (by decide)⟩
  rw [hadded]
  unfold SpeedLimit.Ends
  decide

end SpeedLimits
end Apollo.Modules.Planning.ReferenceLine
