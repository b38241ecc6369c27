import Apollo.Cyber.Scheduler.SchedulerExclusive

/-! The steps of a classic scheduler, as far as they bear on the routines with work to do. A routine with work to do
is seen by a processor that has still to pass it, unless its notification is still to come. -/
namespace Apollo.Cyber.Scheduler
open Foundation List Option Function Conf
variable {ρ θ : Type} {groups : List SchedGroup} {s t : State ρ θ} {e : Event ρ θ} {p q : Nat} {r : ρ}
  {u : θ} {g : String} {queue : QueueId}

/-- `READY`, or `SetUpdateFlag` was called. -/
def CRoutine.Pending (cr : CRoutine) : Prop := cr.state = .ready ∨ cr.updated = false

/-- The processor goes through all of its queues before it waits. -/
def Phase.fresh : Phase ρ → Bool
  | .top | .waking .. | .chosen .. | .picked _ | .swapping _ | .running _ | .resumed _ => true
  | _ => false

/-- Before it waits, the processor comes to position `j` of its queue number `k`, where the routine
is, or it has just acquired the routine there. -/
def Phase.covers (k j : Nat) (r : ρ) : Phase ρ → Prop
  | .enter i => i ≤ k
  | .scan i pos => i < k ∨ i = k ∧ pos ≤ j
  | .acquired i pos x => x = r ∨ i < k ∨ i = k ∧ pos < j
  | .notReady i pos _ => i < k ∨ i = k ∧ pos < j
  | .null | .blocked => False
  | _ => True

variable {cr cr' : CRoutine} {ph : Phase ρ} {k j j' : Nat}

theorem Phase.covers_of_fresh (h : ph.fresh) : ph.covers k j r := by
  cases ph <;> trivial

theorem Phase.covers_of_unread (hr : ph.reads ≠ some k) (h : ph.covers k j r) : ph.covers k j' r := by
  cases ph with
  | scan => exact .inl (h.resolve_right fun heq => hr (congrArg some heq.1))
  | acquired => exact h.imp id fun h => .inl (h.resolve_right fun heq => hr (congrArg some heq.1))
  | notReady => exact .inl (h.resolve_right fun heq => hr (congrArg some heq.1))
  | _ => exact h

def groupQueues (name : String) : List QueueId :=
  (List.range maxPrio.toNat).reverse.map fun i => .group name (UInt32.ofNat i)

theorem Conf.queues_of_context {conf : Conf} (h : conf.contexts[p]? = some (.classic g)) :
    conf.queues p = groupQueues g := by
  rw [queues,h]
  rfl

theorem mem_groupQueues {prio : UInt32} (h : prio < maxPrio) : .group g prio ∈ groupQueues g := by
  refine mem_map.mpr ⟨prio.toNat,?_,by simp⟩
  exact mem_reverse.mpr (mem_range.mpr h)

theorem eq_of_mem_groupQueues (h : queue ∈ groupQueues g) : ∃ prio, queue = .group g prio := by
  obtain ⟨i,_,rfl⟩ := mem_map.mp h
  exact ⟨_,rfl⟩

theorem Conf.classic_queues (h : queue ∈ (Conf.classic groups).queues p) :
    ∃ g prio, queue = .group g prio ∧ (classic groups).contexts[p]? = some (.classic g) := by
  rw [queues] at h
  split at h
  case h_1 g hg =>
    obtain ⟨i,_,rfl⟩ := mem_map.mp h
    exact ⟨g,UInt32.ofNat i,rfl,hg⟩
  case h_2 hc =>
    have := mem_of_getElem? hc
    simp [contexts] at this
  case h_3 => cases h

/-- The group that `DispatchTask` gives to a routine of the name. -/
def groupOf (groups : List SchedGroup) (name : String) : Option String :=
  match classicTask groups name with
  | some (_, name) => some name
  | none => groups.head?.map (·.name)

def Settled (groups : List SchedGroup) (cr : CRoutine) : Prop := groupOf groups cr.name = some cr.groupName

theorem clampPriority_settled (h : Settled groups cr) : Settled groups (clampPriority cr) := by
  have hname := (State.clampPriority_flags cr).2.1
  have hgroup : (clampPriority cr).groupName = cr.groupName := by
    rw [clampPriority]
    split <;> rfl
  rwa [Settled,hname,hgroup]

theorem assign_settled (h : (classic groups).assign cr = some cr') : Settled groups cr' := by
  rw [assign] at h
  split at h
  case h_1 hc =>
    cases h
    apply clampPriority_settled
    simp [Settled,groupOf,hc]
  case h_2 hc =>
    obtain ⟨g,hg,rfl⟩ := map_eq_some_iff.mp h
    apply clampPriority_settled
    simp [Settled,groupOf,hc,hg]

/-- The writes of the processors leave the name and the group of a routine alone. -/
def SameGroup (cr cr' : CRoutine) : Prop := cr'.name = cr.name ∧ cr'.groupName = cr.groupName

def SameWork (cr cr' : CRoutine) : Prop := SameGroup cr cr' ∧ cr'.state = cr.state ∧ cr'.updated = cr.updated

theorem SameWork.pending (h : SameWork cr cr') : cr'.Pending ↔ cr.Pending := by
  rw [CRoutine.Pending,CRoutine.Pending,h.2.1,h.2.2]

namespace State

/-- A call has made work for the routine and has not notified yet. -/
def InFlight (s : State ρ θ) (r : ρ) : Prop := ∃ u, s.op u = .enqueued r ∨ s.op u = .notifying r

/-- What the steps of a classic scheduler do to the routines with work and to who sees them. -/
inductive Turn (conf : Conf) (s t : State ρ θ) (e : Event ρ θ) [DecidableEq ρ] [DecidableEq θ] : Prop
  | processor (p : Nat) : t.op = s.op → t.queue = s.queue → (∀ q, q ≠ p → t.phase q = s.phase q) →
      (∀ r, SameGroup (s.routine r) (t.routine r)) →
      (∀ r, (t.routine r).Pending → (s.routine r).Pending ∨ (t.phase p).fresh ∧ t.held p = some r) →
      (∀ i pos r, t.phase p = .notReady i pos r → ¬ (t.routine r).Pending) →
      (∀ queue k j entry, (conf.queues p)[k]? = some queue → (s.queue queue)[j]? = some entry →
        (s.phase p).covers k j entry.2 → (t.routine entry.2).Pending →
        (t.phase p).covers k j entry.2 ∨ s.phase p = .scan k j ∧ s.locks entry.2) → Turn conf s t e
  | quiet (u : θ) (op : Op ρ) : t.phase = s.phase → t.queue = s.queue →
      (∀ r, SameWork (s.routine r) (t.routine r)) → t.op = update s.op u op →
      (∀ r, s.op u ≠ .enqueued r ∧ s.op u ≠ .notifying r ∧ op ≠ .assigned r) → Turn conf s t e
  | assign (u : θ) (r : ρ) (cr : CRoutine) : s.op u = .inserted r → conf.assign (s.routine r) = some cr →
      t = (s.setRoutine r cr).setOp u (.assigned r) → Turn conf s t e
  | enqueue (u : θ) (r : ρ) (queue : QueueId) (prio : UInt32) : s.op u = .assigned r →
      queue = .group (s.routine r).groupName (s.routine r).priority →
      t = ((s.setQueue queue (s.queue queue ++ [(prio, r)])).setOp u (.enqueued r)) → Turn conf s t e
  | notify (u : θ) (woken : Option Nat) (r : ρ) : e = .proceed u woken →
      s.op u = .enqueued r ∨ s.op u = .notifying r → t.op = update s.op u .idle →
      t.routine = s.routine → t.queue = s.queue →
      (t.phase = s.phase ∧ (∀ p, s.phase p = .blocked → conf.contexts[p]? ≠ some (.classic (s.routine r).groupName)) ∨
      ∃ p, s.phase p = .blocked ∧ conf.contexts[p]? = some (.classic (s.routine r).groupName) ∧
        t.phase = update s.phase p .top) → Turn conf s t e
  | erase (u : θ) (queue : QueueId) (f : UInt32 × ρ → Bool) : t.phase = s.phase →
      (∀ r, SameWork (s.routine r) (t.routine r)) → t.op = update s.op u .idle →
      (∀ r, s.op u ≠ .enqueued r ∧ s.op u ≠ .notifying r) → s.unread conf queue →
      t.queue = update s.queue queue ((s.queue queue).eraseP f) → Turn conf s t e
  | flag (u : θ) (woken : Option Nat) (r : ρ) : e = .proceed u woken → s.op u = .flagging r →
      t.phase = s.phase → t.queue = s.queue → t.op = update s.op u (.notifying r) →
      t.routine = update s.routine r { s.routine r with updated := false } → Turn conf s t e

variable [DecidableEq ρ] [DecidableEq θ] {conf : Conf}
variable {ph : Phase ρ} {cr : CRoutine} {woken : Option Nat}

theorem Turn.move (hs : ∀ i pos r, ph ≠ .notReady i pos r)
    (ha : ∀ queue k j entry, (conf.queues p)[k]? = some queue → (s.queue queue)[j]? = some entry →
      (s.phase p).covers k j entry.2 → ph.covers k j entry.2 ∨ s.phase p = .scan k j ∧ s.locks entry.2) :
    Turn conf s (s.setPhase p ph) e := by
  have hph : (s.setPhase p ph).phase p = ph := update_self ..
  refine .processor p rfl rfl (fun _ hq => update_of_ne hq ..) (fun _ => ⟨rfl,rfl⟩)
    (fun _ => .inl) (fun i pos r hp => ?_) fun queue k j entry hk hj hc _ => ?_
  · exact absurd (hph.symm.trans hp) (hs i pos r)
  · rw [hph]
    exact ha queue k j entry hk hj hc

theorem Turn.moveFresh (h : ph.fresh) : Turn conf s (s.setPhase p ph) e := by
  refine .move (fun _ _ _ heq => ?_) fun _ _ _ _ _ _ _ => .inl (Phase.covers_of_fresh h)
  subst heq
  cases h

theorem Turn.write (hw : SameGroup (s.routine r) cr)
    (hb : cr.Pending → (s.routine r).Pending ∨ ph.fresh ∧ ph.held = some r)
    (hs : ∀ i pos x, ph = .notReady i pos x → x = r ∧ ¬ cr.Pending)
    (ha : ∀ queue k j entry, (conf.queues p)[k]? = some queue → (s.queue queue)[j]? = some entry →
      (s.phase p).covers k j entry.2 → (entry.2 = r → cr.Pending) → ph.covers k j entry.2) :
    Turn conf s ((s.setRoutine r cr).setPhase p ph) e := by
  have hph : ((s.setRoutine r cr).setPhase p ph).phase p = ph := update_self ..
  have hself : ((s.setRoutine r cr).setPhase p ph).routine r = cr := update_self ..
  have hother {x : ρ} (hx : x ≠ r) : ((s.setRoutine r cr).setPhase p ph).routine x = s.routine x := update_of_ne hx ..
  refine .processor p rfl rfl (fun _ hq => update_of_ne hq ..) (fun x => ?_) (fun x hx => ?_)
    (fun i pos x hp => ?_) fun queue k j entry hk hj hc hx => .inl ?_
  · by_cases hxr : x = r
    · subst hxr
      rwa [hself]
    · rw [hother hxr]
      exact ⟨rfl,rfl⟩
  · by_cases hxr : x = r
    · subst hxr
      rw [held,hph]
      exact hb (hself ▸ hx)
    · exact .inl (hother hxr ▸ hx)
  · obtain ⟨rfl,_⟩ := hs i pos x (hph.symm.trans hp)
    rwa [hself]
  · rw [hph]
    refine ha queue k j entry hk hj hc fun hxr => ?_
    rwa [hxr,hself] at hx

theorem Turn.writeFresh (h : ph.fresh) (hh : ph.held = some r) (hw : SameGroup (s.routine r) cr) :
    Turn conf s ((s.setRoutine r cr).setPhase p ph) e := by
  refine .write hw (fun _ => .inr ⟨h,hh⟩) (fun _ _ _ heq => ?_)
    fun _ _ _ _ _ _ _ _ => Phase.covers_of_fresh h
  subst heq
  cases h

theorem advance_turn {expired : Bool} (h : s.advance (.classic groups) p expired = some t) :
    Turn (.classic groups) s t e := by
  cases hp : s.phase p with rw [advance,hp] at h
  | top =>
    cases h
    exact .move (by simp) fun _ _ _ _ _ _ _ => .inl (Nat.zero_le _)
  | enter =>
    cases h
    split
    case isTrue =>
      refine .move (by simp) fun queue k j entry hk hj hc => .inl ?_
      rw [hp] at hc
      rcases Nat.lt_or_eq_of_le hc with hlt | heq
      · exact .inl hlt
      · exact .inr ⟨heq,Nat.zero_le _⟩
    case isFalse hlen =>
      refine .move (by simp) fun queue k j entry hk hj hc => ?_
      rw [hp] at hc
      exact absurd (Nat.lt_of_le_of_lt hc (List.getElem?_eq_some_iff.mp hk).1) hlen
  | scan i pos =>
    obtain ⟨queue,hq,rfl⟩ := map_eq_some_iff.mp h
    -- where the routine is that the processor has still to pass
    have hcov {queue' : QueueId} {k j : Nat} {entry : UInt32 × ρ} (hk : ((classic groups).queues p)[k]? = some queue')
        (hj : (s.queue queue')[j]? = some entry) (hc : (s.phase p).covers k j entry.2) :
        i < k ∨ i = k ∧ (pos < j ∨ pos = j) ∧ (s.queue queue)[j]? = some entry := by
      rw [hp] at hc
      rcases hc with hlt | ⟨rfl,hle⟩
      · exact .inl hlt
      · obtain rfl : queue = queue' := some_inj.mp (hq.symm.trans hk)
        exact .inr ⟨rfl,Nat.lt_or_eq_of_le hle,hj⟩
    split
    case h_1 prio r hr =>
      split
      case isTrue hl =>
        refine .move (by simp) fun queue' k j entry hk hj hc => ?_
        rcases hcov hk hj hc with hlt | ⟨rfl,hlt | rfl,hent⟩
        · exact .inl (.inl hlt)
        · exact .inl (.inr ⟨rfl,hlt⟩)
        · cases hr.symm.trans hent
          exact .inr ⟨hp,hl⟩
      case isFalse =>
        refine .write ⟨rfl,rfl⟩ .inl (by simp) fun queue' k j entry hk hj hc _ => ?_
        rcases hcov hk hj hc with hlt | ⟨rfl,hlt | rfl,hent⟩
        · exact .inr (.inl hlt)
        · exact .inr (.inr ⟨rfl,hlt⟩)
        · cases hr.symm.trans hent
          exact .inl rfl
    case h_2 hnone =>
      obtain ⟨g,prio,rfl,_⟩ := classic_queues (mem_of_getElem? hq)
      refine .move (by simp) fun _ k j entry hk hj hc => .inl ?_
      rcases hcov hk hj hc with hlt | ⟨_,hle,hent⟩
      · exact hlt
      · have hlen := getElem?_eq_none_iff.mp hnone
        have hj := (List.getElem?_eq_some_iff.mp hent).1
        omega
  | acquired i pos r =>
    cases h
    rw [updateState]
    split
    case isTrue => exact .writeFresh rfl rfl ⟨rfl,rfl⟩
    case isFalse =>
      split
      case isTrue => exact .writeFresh rfl rfl ⟨rfl,rfl⟩
      case isFalse =>
        split
        case isTrue => exact .writeFresh rfl rfl ⟨rfl,rfl⟩
        case isFalse hready =>
          have hidle : ¬ CRoutine.Pending { s.routine r with updated := true } := by
            simp [CRoutine.Pending,hready]
          refine .write ⟨rfl,rfl⟩ (fun hpend => absurd hpend hidle) (fun _ _ _ heq => ?_)
            fun queue k j entry hk hj hc hx => ?_
          · cases heq
            exact ⟨rfl,hidle⟩
          · rw [hp] at hc
            rcases hc with rfl | hc
            · exact absurd (hx rfl) hidle
            · exact hc
  | notReady =>
    cases h
    refine .write ⟨rfl,rfl⟩ .inl (by simp) fun queue k j entry hk hj hc _ => ?_
    rw [hp] at hc
    exact hc
  | waking =>
    cases h
    exact .writeFresh rfl rfl ⟨rfl,rfl⟩
  | chosen =>
    cases h
    exact .moveFresh rfl
  | picked =>
    cases h
    rw [resume]
    split
    case isTrue => exact .writeFresh rfl rfl ⟨rfl,rfl⟩
    case isFalse =>
      split <;> exact .moveFresh rfl
  | swapping | running =>
    cases h
    exact .moveFresh rfl
  | resumed =>
    cases h
    exact .write ⟨rfl,rfl⟩ .inl (by simp) fun _ _ _ _ _ _ _ _ => trivial
  | null =>
    cases h
    refine .move (by simp) fun _ _ _ _ _ _ hc => ?_
    rw [hp] at hc
    exact hc.elim
  | blocked =>
    cases h

theorem notify_turn (he : e = .proceed u woken) (hop : s.op u = .enqueued r ∨ s.op u = .notifying r)
    {f : State ρ θ → State ρ θ} (hf : ∀ s, (f s).phase = s.phase ∧ (f s).routine = s.routine ∧
      (f s).queue = s.queue ∧ (f s).op = update s.op u .idle)
    (h : (notifyTarget (.classic groups) (s.routine r)).bind (fun target =>
      (s.notify (.classic groups) target woken).map f) = some t) : Turn (.classic groups) s t e := by
  obtain ⟨target,htarget,h⟩ := bind_eq_some_iff.mp h
  obtain rfl : .group (s.routine r).groupName = target := some_inj.mp htarget
  obtain ⟨s',hs,rfl⟩ := map_eq_some_iff.mp h
  obtain ⟨hph,hr,hq,ho⟩ := hf s'
  rcases notifyOne_spec hs with ⟨rfl,hnone⟩ | ⟨p,hb,hl,rfl⟩
  · refine .notify u woken r he hop ho hr hq (.inl ⟨hph,fun p hb hp => ?_⟩)
    exact hnone p (List.getElem?_eq_some_iff.mp hp).1 hb (by simpa [listens] using hp)
  · exact .notify u woken r he hop ho hr hq (.inr ⟨p,hb,by simpa [listens] using hl,hph⟩)

theorem proceed_turn (h : s.proceed (.classic groups) u woken = some t) :
    Turn (.classic groups) s t (.proceed u woken) := by
  have hsame (r : ρ) : SameWork (s.routine r) (s.routine r) := ⟨⟨rfl,rfl⟩,rfl,rfl⟩
  cases hop : s.op u with rw [proceed,hop] at h
  | idle => cases h
  | locked r =>
    simp only [insert] at h
    obtain ⟨_,h⟩ := ite_none_right_eq_some.mp h
    split at h <;> cases h
    · exact .quiet u .idle rfl rfl hsame rfl (by simp [hop])
    · exact .quiet u (.inserted r) rfl rfl hsame rfl (by simp [hop])
  | inserted r =>
    obtain ⟨cr,hcr,rfl⟩ := map_eq_some_iff.mp h
    exact .assign u r cr hop hcr rfl
  | assigned r =>
    obtain ⟨_,hs,rfl⟩ := map_eq_some_iff.mp h
    rw [enqueue] at hs
    obtain ⟨_,hs⟩ := ite_none_right_eq_some.mp hs
    cases hs
    refine .enqueue u r _ (s.routine r).priority hop rfl ?_
    rw [setRoutine,place,update_eq_self]
  | enqueued =>
    refine notify_turn rfl (.inl hop) (fun s => ?_) h
    exact ⟨rfl,rfl,rfl,rfl⟩
  | removing crid =>
    simp only [lookupRemoved] at h
    obtain ⟨_,h⟩ := ite_none_right_eq_some.mp h
    split at h
    · cases h
      exact .quiet u .idle rfl rfl hsame rfl (by simp [hop])
    case h_2 r _ =>
      obtain ⟨queue,_,rfl⟩ := map_eq_some_iff.mp h
      refine .quiet u (.erasing crid queue) rfl rfl (fun x => ?_) rfl (by simp [hop])
      by_cases hx : x = r
      · subst hx
        simp [SameWork,SameGroup,setOp,setIdCr,setRoutine]
      · simpa [setOp,setIdCr,setRoutine,hx] using hsame x
  | erasing _ queue =>
    obtain ⟨hunread,⟨entry,_,rfl⟩ | ⟨_,rfl⟩⟩ := erase_spec h
    · refine .erase u queue _ rfl (fun x => ?_) rfl (by simp [hop]) hunread rfl
      by_cases hx : x = entry.2
      · subst hx
        simp [SameWork,SameGroup,unlock,setOp,setQueue,setRoutine]
      · simpa [unlock,setOp,setQueue,setRoutine,hx] using hsame x
    · exact .quiet u .idle rfl rfl hsame rfl (by simp [hop])
  | found r =>
    dsimp only at h
    split at h <;> cases h
    · exact .quiet u (.flagging r) rfl rfl hsame rfl (by simp [hop])
    · exact .quiet u (.notifying r) rfl rfl hsame rfl (by simp [hop])
  | flagging r =>
    cases h
    exact .flag u woken r rfl hop rfl rfl rfl rfl
  | notifying =>
    refine notify_turn rfl (.inr hop) (fun _ => ?_) h
    exact ⟨rfl,rfl,rfl,rfl⟩

theorem step_turn (h : s.step (.classic groups) e = some t) : Turn (.classic groups) s t e := by
  have hsame (r : ρ) : SameWork (s.routine r) (s.routine r) := ⟨⟨rfl,rfl⟩,rfl,rfl⟩
  cases e with rw [step] at h
  | advance =>
    split at h
    · exact advance_turn h
    · cases h
  | setState p state =>
    split at h
    case h_1 r hp =>
      cases h
      have hmove : s.setRoutine r { s.routine r with state } =
          (s.setRoutine r { s.routine r with state }).setPhase p (.running r) := by
        rw [setPhase,← hp]
        exact congrArg (fun f => { s.setRoutine r { s.routine r with state } with phase := f })
          (update_eq_self p s.phase).symm
      rw [hmove]
      exact .writeFresh rfl rfl ⟨rfl,rfl⟩
    case h_2 => cases h
  | expire =>
    split at h <;> cases h
    exact .moveFresh rfl
  | dispatchTask u r =>
    obtain ⟨hop,h⟩ := ite_none_right_eq_some.mp h
    cases h
    exact .quiet u (.locked r) rfl rfl hsame rfl (by simp [hop.1])
  | removeCRoutine u crid =>
    obtain ⟨hop,h⟩ := ite_none_right_eq_some.mp h
    cases h
    exact .quiet u (.removing crid) rfl rfl hsame rfl (by simp [hop.1])
  | notifyProcessor u =>
    obtain ⟨hop,h⟩ := ite_none_right_eq_some.mp h
    split at h
    case h_1 r _ =>
      cases h
      exact .quiet u (.found r) rfl rfl hsame rfl (by simp [hop])
    case h_2 =>
      cases h
      exact .quiet u .idle rfl rfl hsame (by rw [← hop,update_eq_self]) (by simp [hop])
  | proceed => exact proceed_turn h

end State

open Event
variable {ρ θ : Type} {groups : List SchedGroup} {s t : State ρ θ} {e : Event ρ θ} {p q : Nat} {r : ρ}
  {u : θ} {g : String} {queue : QueueId}

namespace State

structure Grouped (groups : List SchedGroup) (s : State ρ θ) : Prop where
  assigned : ∀ u r, s.op u = .assigned r → Settled groups (s.routine r)
  queued : ∀ g prio r, s.Enqueued (.group g prio) r → Settled groups (s.routine r) ∧ (s.routine r).groupName = g

theorem Grouped.of_sameGroup (h : Grouped groups s) (hr : ∀ r, SameGroup (s.routine r) (t.routine r))
    (ho : ∀ u r, t.op u = .assigned r → s.op u = .assigned r)
    (hq : ∀ queue r, t.Enqueued queue r → s.Enqueued queue r) : Grouped groups t where
  assigned u r hop := by
    have := h.assigned u r (ho u r hop)
    rwa [Settled,(hr r).1,(hr r).2]
  queued g prio r hin := by
    have := h.queued g prio r (hq _ r hin)
    rwa [Settled,(hr r).1,(hr r).2]

variable {conf : Conf}

/-- Work is seen by a processor on its way through the queues or by the coming notification, and not
passed over by a processor that has just looked at it. -/
structure Awake (conf : Conf) (s : State ρ θ) : Prop where
  settled : ∀ p i pos r, s.phase p = .notReady i pos r → ¬ (s.routine r).Pending
  covered : ∀ g k queue j entry, (groupQueues g)[k]? = some queue → (s.queue queue)[j]? = some entry →
    (s.routine entry.2).Pending → s.InFlight entry.2 ∨
      ∃ p, conf.contexts[p]? = some (.classic g) ∧ (s.phase p).covers k j entry.2

/-- If the step sets the update flag of a routine, no processor has found it not ready and not yet
released it. If it notifies, a processor of the group is in `Wait` or has still to pass the
routine. -/
structure Timely (conf : Conf) (s : State ρ θ) (e : Event ρ θ) : Prop where
  unheld : s.Unheld e
  unflagged : ∀ u woken r, e = .proceed u woken → s.op u = .flagging r → ∀ p i pos, s.phase p ≠ .notReady i pos r
  heard : ∀ u woken r, e = .proceed u woken → s.op u = .enqueued r ∨ s.op u = .notifying r →
    ∃ p, conf.contexts[p]? = some (.classic (s.routine r).groupName) ∧ (s.phase p = .blocked ∨
      ∀ k queue j entry, (conf.queues p)[k]? = some queue → (s.queue queue)[j]? = some entry →
        entry.2 = r → (s.phase p).covers k j r)

variable {o o' : Op ρ} {prio : UInt32} {k j : Nat} {woken : Option Nat}

theorem context_of_held (hx : Exclusive (.classic groups) s) (hg : Grouped groups s) (hp : s.held p = some r)
    (hr : s.Enqueued (.group g prio) r) : (classic groups).contexts[p]? = some (.classic g) := by
  obtain ⟨_,hq,hin⟩ := hx.queued p r hp
  obtain ⟨g',prio',rfl,hctx⟩ := classic_queues hq
  rwa [← (hg.queued g' prio' r hin).2,(hg.queued g prio r hr).2] at hctx

theorem enqueued_of_getElem? {entry : UInt32 × ρ} (hk : (groupQueues g)[k]? = some queue)
    (hj : (s.queue queue)[j]? = some entry) : ∃ prio, queue = .group g prio ∧ s.Enqueued (.group g prio) entry.2 := by
  obtain ⟨prio,rfl⟩ := eq_of_mem_groupQueues (mem_of_getElem? hk)
  exact ⟨prio,rfl,entry,mem_of_getElem? hj,rfl⟩

theorem Awake.covers_of_held (h : Awake conf s) (hp : s.held p = some r) (hr : (s.routine r).Pending) :
    (s.phase p).covers k j r := by
  rw [held] at hp
  cases hph : s.phase p with
  | acquired =>
    rw [hph] at hp
    exact .inl (some_inj.mp hp)
  | notReady i pos =>
    rw [hph] at hp
    cases hp
    exact absurd hr (h.settled p i pos r hph)
  | top | enter | scan | null | blocked => rw [hph] at hp; cases hp
  | _ => trivial

theorem Awake.processor (h : Awake (.classic groups) s) (hl : ∀ r, s.locks r → ∃ p, s.held p = some r)
    (hxs : Exclusive (.classic groups) s) (hgs : Grouped groups s)
    (hx : Exclusive (.classic groups) t) (hg : Grouped groups t) (hop : t.op = s.op)
    (hq : t.queue = s.queue) (hph : ∀ q, q ≠ p → t.phase q = s.phase q)
    (hb : ∀ r, (t.routine r).Pending → (s.routine r).Pending ∨ (t.phase p).fresh ∧ t.held p = some r)
    (hs : ∀ i pos r, t.phase p = .notReady i pos r → ¬ (t.routine r).Pending)
    (ha : ∀ queue k j entry, ((classic groups).queues p)[k]? = some queue →
      (s.queue queue)[j]? = some entry → (s.phase p).covers k j entry.2 →
      (t.routine entry.2).Pending →
      (t.phase p).covers k j entry.2 ∨ s.phase p = .scan k j ∧ s.locks entry.2) :
    Awake (.classic groups) t := by
  have hfresh {q : Nat} {r : ρ} (hf : (t.phase p).fresh ∧ t.held p = some r) {i pos : Nat}
      (hqr : t.phase q = .notReady i pos r) : False := by
    have hheld : t.held q = some r := by rw [held,hqr]; rfl
    obtain rfl := hx.unique hf.2 hheld
    rw [hqr] at hf
    cases hf.1
  constructor
  · intro q i pos r hqr hpend
    rcases hb r hpend with hpend' | hf
    · by_cases hqp : q = p
      · subst hqp
        exact hs i pos r hqr hpend
      · exact h.settled q i pos r (hph q hqp ▸ hqr) hpend'
    · exact hfresh hf hqr
  · intro g k queue j entry hk hj hpend
    have hj' : (s.queue queue)[j]? = some entry := hq ▸ hj
    obtain ⟨_,rfl,hin⟩ := enqueued_of_getElem? hk hj
    rcases hb entry.2 hpend with hpend' | ⟨hf,hheld⟩
    · rcases h.covered g k _ j entry hk hj' hpend' with _ | ⟨q,hctx,hc⟩
      · exact .inl (by rwa [InFlight,hop])
      · by_cases hqp : q = p
        · subst hqp
          rw [← queues_of_context hctx] at hk
          rcases ha _ k j entry hk hj' hc hpend with hc | ⟨hscan,hlock⟩
          · exact .inr ⟨q,hctx,hc⟩
          · -- passed over because another processor has it
            obtain ⟨q',hq'⟩ := hl entry.2 hlock
            have hne : q' ≠ q := by
              rintro rfl
              rw [held,hscan] at hq'
              cases hq'
            have hctx' := context_of_held hxs hgs hq' (by rwa [Enqueued,← hq])
            exact .inr ⟨q',hctx',hph q' hne ▸ h.covers_of_held hq' hpend'⟩
        · exact .inr ⟨q,hctx,hph q hqp ▸ hc⟩
    · exact .inr ⟨p,context_of_held hx hg hheld hin,Phase.covers_of_fresh hf⟩

variable [DecidableEq θ]

theorem op_of_update {v : θ} (ho : t.op = update s.op u o) (hne : o ≠ o') (h : t.op v = o') : s.op v = o' := by
  rw [ho] at h
  by_cases hv : v = u
  · subst hv
    exact absurd (by simpa using h) hne
  · simpa [hv] using h

theorem InFlight.of_update (h : s.InFlight r) (ho : t.op = update s.op u o)
    (hu : s.op u ≠ .enqueued r ∧ s.op u ≠ .notifying r) : t.InFlight r := by
  obtain ⟨v,hv⟩ := h
  have hne : v ≠ u := by
    rintro rfl
    exact hv.elim hu.1 hu.2
  exact ⟨v,by rwa [ho,update_of_ne hne]⟩

section
variable (h : Awake conf s)
include h

theorem Awake.quiet (hph : t.phase = s.phase) (hq : t.queue = s.queue)
    (hr : ∀ r, (t.routine r).Pending → (s.routine r).Pending) (hop : t.op = update s.op u o)
    (hne : ∀ r, s.op u ≠ .enqueued r ∧ s.op u ≠ .notifying r) : Awake conf t where
  settled p i pos r hpr hpend := h.settled p i pos r (hph ▸ hpr) (hr r hpend)
  covered g k queue j entry hk hj hpend := by
    rcases h.covered g k queue j entry hk (hq ▸ hj) (hr _ hpend) with hfly | _
    · exact .inl (hfly.of_update hop (hne _))
    · exact .inr (by rwa [hph])

theorem Awake.enqueue (hop : s.op u = .assigned r)
    (heq : t = (s.setQueue queue (s.queue queue ++ [(prio, r)])).setOp u (.enqueued r)) : Awake conf t := by
  have hop' : t.op = update s.op u (.enqueued r) := by rw [heq]; rfl
  have hqueue : t.queue = update s.queue queue (s.queue queue ++ [(prio, r)]) := by
    rw [heq]; rfl
  have hph : t.phase = s.phase := by rw [heq]; rfl
  have hr : t.routine = s.routine := by rw [heq]; rfl
  refine ⟨by simpa only [hph,hr] using h.settled,fun g k queue' j entry hk hj hpend => ?_⟩
  rw [hr] at hpend
  -- the routine has been there before, or the call is about to notify
  have hcases : (s.queue queue')[j]? = some entry ∨ entry.2 = r := by
    by_cases hqq : queue' = queue
    · subst hqq
      rw [hqueue,update_self,getElem?_append] at hj
      split at hj
      · exact .inl hj
      · have := mem_of_getElem? hj
        exact .inr (congrArg Prod.snd (mem_singleton.mp this))
    · exact .inl (by rwa [hqueue,update_of_ne hqq] at hj)
  rcases hcases with hj | hnew
  · rcases h.covered g k queue' j entry hk hj hpend with hfly | _
    · exact .inl (hfly.of_update hop' (by simp [hop]))
    · exact .inr (by rwa [hph])
  · exact .inl ⟨u,.inl (by rw [hop',hnew,update_self])⟩

theorem Awake.notify (hg : Grouped groups s) (ho : s.Timely conf (.proceed u woken))
    (hop : s.op u = .enqueued r ∨ s.op u = .notifying r) (hop' : t.op = update s.op u .idle)
    (hr : t.routine = s.routine) (hq : t.queue = s.queue) (hph : t.phase = s.phase ∧ (∀ p, s.phase p = .blocked →
        conf.contexts[p]? ≠ some (.classic (s.routine r).groupName)) ∨
      ∃ p, s.phase p = .blocked ∧ conf.contexts[p]? = some (.classic (s.routine r).groupName) ∧
        t.phase = update s.phase p .top) : Awake conf t := by
  have hphase (q : Nat) : t.phase q = s.phase q ∨ t.phase q = .top := by
    rcases hph with ⟨hph,_⟩ | ⟨p,_,_,hph⟩
    · exact .inl (by rw [hph])
    · by_cases hqp : q = p
      · exact .inr (by rw [hph,hqp,update_self])
      · exact .inl (by rw [hph,update_of_ne hqp])
  have hcovers {q k j : Nat} {x : ρ} (hc : (s.phase q).covers k j x) : (t.phase q).covers k j x := by
    rcases hphase q with heq | heq
    · rwa [heq]
    · rw [heq]
      trivial
  constructor
  · intro q i pos x hqx hpend
    rcases hphase q with heq | heq
    · exact h.settled q i pos x (heq ▸ hqx) (hr ▸ hpend)
    · cases heq.symm.trans hqx
  · intro g k queue j entry hk hj hpend
    rw [hq] at hj
    rw [hr] at hpend
    rcases h.covered g k queue j entry hk hj hpend with ⟨v,hv⟩ | ⟨q,hctx,hc⟩
    · by_cases hvu : v = u
      · -- the call was for this routine, and somebody hears it
        subst hvu
        obtain rfl : entry.2 = r := by
          rcases hv with hv | hv <;> rcases hop with hop | hop <;> cases hv.symm.trans hop <;> rfl
        obtain ⟨prio,rfl,hin⟩ := enqueued_of_getElem? hk hj
        have hgroup := (hg.queued g prio _ hin).2
        rw [hgroup] at hph
        obtain ⟨p,hctx,hp⟩ := ho.heard v woken entry.2 rfl hop
        rw [hgroup] at hctx
        rcases hph with ⟨_,hnone⟩ | ⟨p',_,hctx',hph⟩
        · rcases hp with hb | hall
          · exact absurd hctx (hnone p hb)
          · rw [← queues_of_context hctx] at hk
            exact .inr ⟨p,hctx,hcovers (hall k _ j entry hk hj rfl)⟩
        · refine .inr ⟨p',hctx',?_⟩
          rw [hph,update_self]
          trivial
      · exact .inl ⟨v,by rwa [hop',update_of_ne hvu]⟩
    · exact .inr ⟨q,hctx,hcovers hc⟩

theorem Awake.erase {f : UInt32 × ρ → Bool} (hph : t.phase = s.phase) (hr : ∀ r, SameWork (s.routine r) (t.routine r))
    (hop : t.op = update s.op u .idle) (hne : ∀ r, s.op u ≠ .enqueued r ∧ s.op u ≠ .notifying r)
    (hun : s.unread conf queue) (hq : t.queue = update s.queue queue ((s.queue queue).eraseP f)) : Awake conf t := by
  constructor
  · intro q i pos r hqr hpend
    exact h.settled q i pos r (hph ▸ hqr) ((hr r).pending.mp hpend)
  · intro g k queue' j entry hk hj hpend
    have hpend' := (hr entry.2).pending.mp hpend
    by_cases hqq : queue' = queue
    · subst hqq
      rw [hq,update_self] at hj
      obtain ⟨j',hj'⟩ := mem_iff_getElem?.mp (mem_of_mem_eraseP (mem_of_getElem? hj))
      rcases h.covered g k queue' j' entry hk hj' hpend' with hfly | ⟨p,hctx,hc⟩
      · exact .inl (hfly.of_update hop (hne _))
      · refine .inr ⟨p,hctx,hph ▸ Phase.covers_of_unread (fun hreads => ?_) hc⟩
        have hlt := (List.getElem?_eq_some_iff.mp hctx).1
        have := all_eq_true.mp hun p (mem_range.mpr hlt)
        rw [hreads,all_some,queues_of_context hctx,hk] at this
        simp at this
    · rw [hq,update_of_ne hqq] at hj
      rcases h.covered g k queue' j entry hk hj hpend' with hfly | hc
      · exact .inl (hfly.of_update hop (hne _))
      · exact .inr (by rwa [hph])

end

variable [DecidableEq ρ]

theorem Grouped.next (h : Grouped groups s) (ht : Turn (.classic groups) s t e) : Grouped groups t := by
  cases ht with
  | processor _ hop hq _ hr =>
    exact h.of_sameGroup hr (fun _ _ => by simp [hop]) fun queue r => by simp [Enqueued,hq]
  | quiet _ _ _ hq hr hop hne =>
    refine h.of_sameGroup (fun r => (hr r).1) (fun v r hv => ?_) fun queue r => by simp [Enqueued,hq]
    exact op_of_update hop (hne r).2.2 hv
  | assign u r cr _ hcr heq =>
    subst heq
    have hcr' := assign_settled hcr
    have hname := (assign_flags hcr).2.1
    have hself : ((s.setRoutine r cr).setOp u (.assigned r)).routine r = cr := update_self ..
    have hother {x : ρ} (hx : x ≠ r) :
        ((s.setRoutine r cr).setOp u (.assigned r)).routine x = s.routine x := update_of_ne hx ..
    constructor
    · intro v x hv
      by_cases hx : x = r
      · rwa [hx,hself]
      · rw [hother hx]
        exact h.assigned v x (op_of_update rfl (by simpa using Ne.symm hx) hv)
    · intro g prio x hin
      have hold := h.queued g prio x hin
      by_cases hx : x = r
      · subst hx
        rw [hself]
        refine ⟨hcr',?_⟩
        have hgroup := hold.1
        rw [Settled,← hname,hcr',hold.2] at hgroup
        exact some_inj.mp hgroup
      · rwa [hother hx]
  | enqueue u r queue _ hop hq heq =>
    subst heq
    refine ⟨fun v x hv => h.assigned v x (op_of_update (u := u) (o := .enqueued r) rfl (by simp) hv),?_⟩
    rintro g prio' x ⟨entry,hin,rfl⟩
    by_cases hqq : QueueId.group g prio' = queue
    · rw [hqq] at hin
      simp only [setOp,setQueue,update_self,mem_append,mem_singleton] at hin
      rcases hin with hin | rfl
      · exact h.queued g prio' _ ⟨entry,hqq ▸ hin,rfl⟩
      · cases hq.symm.trans hqq.symm
        exact ⟨h.assigned u r hop,rfl⟩
    · simp only [setOp,setQueue,update_of_ne hqq] at hin
      exact h.queued g prio' _ ⟨entry,hin,rfl⟩
  | notify _ _ _ _ _ hop hr hq =>
    refine h.of_sameGroup (fun _ => hr ▸ ⟨rfl,rfl⟩) (fun v x hv => ?_) fun queue x => by
      simp [Enqueued,hq]
    exact op_of_update hop (by simp) hv
  | erase _ queue _ _ hr hop _ _ hq =>
    refine h.of_sameGroup (fun r => (hr r).1) (fun _ _ hv => op_of_update hop (by simp) hv) ?_
    rintro queue' r ⟨entry,hin,rfl⟩
    refine ⟨entry,?_,rfl⟩
    by_cases hqq : queue' = queue
    · subst hqq
      rw [hq,update_self] at hin
      exact mem_of_mem_eraseP hin
    · rwa [hq,update_of_ne hqq] at hin
  | flag _ _ r _ _ _ hq hop hr =>
    refine h.of_sameGroup (fun x => ?_) (fun _ _ hv => op_of_update hop (by simp) hv)
      fun _ x => by simp [Enqueued,hq]
    rw [hr]
    by_cases hx : x = r
    · subst hx
      simp [SameGroup]
    · simp [SameGroup,hx]

theorem Awake.flag (h : Awake conf s) (ho : s.Timely conf (.proceed u woken)) (hop : s.op u = .flagging r)
    (hph : t.phase = s.phase) (hq : t.queue = s.queue) (hop' : t.op = update s.op u (.notifying r))
    (hr : t.routine = update s.routine r { s.routine r with updated := false }) : Awake conf t := by
  have hother {x : ρ} (hx : x ≠ r) : t.routine x = s.routine x := by
    rw [hr,update_of_ne hx]
  constructor
  · intro q i pos x hqx hpend
    rw [hph] at hqx
    by_cases hxr : x = r
    · subst hxr
      exact ho.unflagged u woken x rfl hop q i pos hqx
    · exact h.settled q i pos x hqx (hother hxr ▸ hpend)
  · intro g k queue j entry hk hj hpend
    by_cases hxr : entry.2 = r
    · exact .inl ⟨u,.inr (by rw [hop',hxr,update_self])⟩
    · rcases h.covered g k queue j entry hk (hq ▸ hj) (hother hxr ▸ hpend) with hfly | _
      · exact .inl (hfly.of_update hop' (by simp [hop]))
      · exact .inr (by rwa [hph])

theorem Awake.next (h : Awake (.classic groups) s) (hl : ∀ r, s.locks r → ∃ p, s.held p = some r)
    (hxs : Exclusive (.classic groups) s) (hgs : Grouped groups s)
    (hx : Exclusive (.classic groups) t) (hg : Grouped groups t)
    (ho : s.Timely (.classic groups) e) (ht : Turn (.classic groups) s t e) :
    Awake (.classic groups) t := by
  cases ht with
  | processor _ hop hq hph _ hb hs ha => exact h.processor hl hxs hgs hx hg hop hq hph hb hs ha
  | quiet _ _ hph hq hr hop hne =>
    exact h.quiet hph hq (fun r => (hr r).pending.mp) hop fun r => ⟨(hne r).1,(hne r).2.1⟩
  | assign _ r _ hop hcr heq =>
    subst heq
    refine h.quiet rfl rfl (fun x hx => ?_) rfl (by simp [hop])
    by_cases hxr : x = r
    · subst hxr
      have hflags := assign_flags hcr
      rw [CRoutine.Pending,← hflags.2.2.1,← hflags.2.2.2.2.1]
      simpa [setOp,setRoutine,CRoutine.Pending] using hx
    · simpa [setOp,setRoutine,hxr] using hx
  | enqueue _ _ _ _ hop _ heq => exact h.enqueue hop heq
  | notify _ _ _ he hop hop' hr hq hph =>
    subst he
    exact h.notify hgs ho hop hop' hr hq hph
  | erase _ _ _ hph hr hop hne hun hq => exact h.erase hph hr hop hne hun hq
  | flag _ _ _ he hop hph hq hop' hr =>
    subst he
    exact h.flag ho hop hph hq hop' hr

end State

open State
variable [DecidableEq ρ] [DecidableEq θ]

/-- Every lock is one that a processor has. -/
theorem held_of_locks {conf : Conf} (h : (system conf ρ θ).Reachable s) :
    ∀ r, s.locks r → ∃ p, s.held p = some r := by
  apply h.invariant
  · rintro s ⟨_,hr,rfl⟩ r hl
    cases (hr r).2.1.symm.trans hl
  · intro s e t hi (he : s.step conf e = some t) x hx
    cases (step_change he).effect with
    | keep hh hl =>
      rw [hl] at hx
      rw [hh]
      exact hi x hx
    | acquire p r hn _ _ hh hl =>
      by_cases hxr : x = r
      · exact ⟨p,by rw [hh,hxr,update_self]⟩
      · rw [hl,update_of_ne hxr] at hx
        obtain ⟨q,hq⟩ := hi x hx
        have hqp : q ≠ p := by
          rintro rfl
          cases hn.symm.trans hq
        exact ⟨q,by rwa [hh,update_of_ne hqp]⟩
    | release p r hr hh hl =>
      have hxr : x ≠ r := by
        rintro rfl
        simp [hl] at hx
      rw [hl,update_of_ne hxr] at hx
      obtain ⟨q,hq⟩ := hi x hx
      have hqp : q ≠ p := by
        rintro rfl
        exact hxr (some_inj.mp (hq.symm.trans hr))
      exact ⟨q,by rwa [hh,update_of_ne hqp]⟩
    | erase _ _ r _ _ hh hl =>
      have hxr : x ≠ r := by
        rintro rfl
        simp [hl] at hx
      rw [hl,update_of_ne hxr] at hx
      rw [hh]
      exact hi x hx

theorem grouped (h : (system (.classic groups) ρ θ).Reachable s) : Grouped groups s := by
  apply h.invariant
  · rintro s ⟨_,_,rfl⟩
    exact ⟨nofun,by rintro g prio r ⟨entry,hin,_⟩; cases hin⟩
  · intro s e t hi (he : s.step (.classic groups) e = some t)
    exact hi.next (step_turn he)

theorem awake (h : (system (.classic groups) ρ θ).ReachableWhile (Timely (.classic groups)) s) :
    Awake (.classic groups) s := by
  have hexcl {s : State ρ θ} (h : (system (.classic groups) ρ θ).ReachableWhile (Timely (.classic groups)) s) :
      Exclusive (.classic groups) s := exclusive (h.mono fun _ _ ho => ho.unheld)
  induction h with
  | start hs =>
    obtain ⟨_,_,rfl⟩ := hs
    exact ⟨nofun,by rintro g k queue j entry _ hj; cases hj⟩
  | @next s t e hreach ho he ih =>
    have hnext := hreach.next ho he
    exact ih.next (held_of_locks hreach.reachable) (hexcl hreach) (grouped hreach.reachable)
      (hexcl hnext) (grouped hnext.reachable) ho (step_turn he)

/-- All processors of the group are in `Wait`, and a routine of the group is `READY` or flagged without
a notification that is still to come. -/
def LostWakeup (conf : Conf) (s : State ρ θ) (g : String) : Prop :=
  (∀ p, conf.contexts[p]? = some (.classic g) → s.phase p = .blocked) ∧
  ∃ prio < maxPrio, ∃ r, s.Enqueued (.group g prio) r ∧ (s.routine r).Pending ∧ ¬ s.InFlight r

theorem no_lost_wakeup (h : (system (.classic groups) ρ θ).ReachableWhile (Timely (.classic groups)) s)
    (g : String) : ¬ LostWakeup (.classic groups) s g := by
  rintro ⟨hb,_,hprio,r,⟨entry,hin,rfl⟩,hpend,hfly⟩
  obtain ⟨k,hk⟩ := mem_iff_getElem?.mp (mem_groupQueues (g := g) hprio)
  obtain ⟨j,hj⟩ := mem_iff_getElem?.mp hin
  rcases (awake h).covered g k _ j entry hk hj hpend with hf | ⟨p,hctx,hc⟩
  · exact hfly hf
  · rw [hb p hctx] at hc
    exact hc

def oneProcessor : Conf := .classic [⟨"g",1,[("r", 19)]⟩]

def goesToWait : List (Event Unit Unit) := List.replicate 43 (.advance 0 false)

/-- A routine that is dispatched while the processor waits. -/
theorem no_lost_wakeup_dispatched : ∃ s : State Unit Unit,
    (system oneProcessor Unit Unit).ReachableWhile (Timely oneProcessor) s ∧
    s.Enqueued (.group "g" 19) () ∧ (s.routine ()).Pending ∧ ¬ LostWakeup oneProcessor s "g" := by
  obtain ⟨s,hs,hlast⟩ := System.reachableWhile_of_exec (system oneProcessor Unit Unit)
    (fun s _ => (s.taken ()).isNone ∧ s.op () ≠ .flagging () ∧ (s.op () = .enqueued () ∨ s.op () = .notifying () →
        (s.routine ()).groupName = "g" ∧ s.phase 0 = .blocked))
    (goesToWait ++ [dispatchTask () ()] ++ List.replicate 3 (proceed () none) ++
      [proceed () (some 0)])
    (fun s => s.queue (.group "g" 19) = [(19, ())] && (s.routine ()).state = .ready)
    (undispatched_initial _) (by decide +kernel)
  simp only [Bool.and_eq_true,decide_eq_true_eq] at hlast
  have hreach : (system oneProcessor Unit Unit).ReachableWhile (Timely oneProcessor) s := by
    refine hs.mono fun s _ hok => ⟨fun u woken r _ hr => ?_,fun _ _ _ _ hf => absurd hf hok.2.1,
      fun _ _ _ _ hop => ?_⟩
    · have := hok.1
      rw [hr] at this
      cases this
    · obtain ⟨hgroup,hb⟩ := hok.2.2 hop
      exact ⟨0,by rw [hgroup]; rfl,.inl hb⟩
  exact ⟨s,hreach,⟨(19, ()),by rw [hlast.1]; exact mem_singleton_self _,rfl⟩,.inl hlast.2, no_lost_wakeup hreach "g"⟩

/-- `NotifyProcessor` comes between the last look of the only processor at the queue and its `Wait`. -/
theorem wakeup_lost : ∃ s : State Unit Unit, (system oneProcessor Unit Unit).Reachable s ∧
    (∀ u, s.op u = .idle) ∧ LostWakeup oneProcessor s "g" := by
  -- the routine runs and waits for data, and the processor looks at it once more
  obtain ⟨s,hs,hlast⟩ := System.reachable_of_exec (system oneProcessor Unit Unit)
    (dispatching ++ List.replicate 7 (advance 0 false) ++ [setState 0 .dataWait] ++
      List.replicate 47 (advance 0 false) ++ [notifyProcessor () 1] ++
      List.replicate 3 (proceed () none) ++ [advance 0 false])
    (fun s => s.phase 0 = .blocked && s.op () = .idle && s.queue (.group "g" 19) = [(19, ())] &&
      (s.routine ()).updated = false)
    (undispatched_initial _) (by decide +kernel)
  simp only [Bool.and_eq_true,decide_eq_true_eq] at hlast
  obtain ⟨⟨⟨hb,hop⟩,hq⟩,hu⟩ := hlast
  refine ⟨s,hs,fun _ => hop,fun p hp => ?_,19,by decide,(),?_,.inr hu,?_⟩
  · have hlt : p < oneProcessor.contexts.length := (List.getElem?_eq_some_iff.mp hp).1
    obtain rfl : p = 0 := Nat.lt_one_iff.mp hlt
    exact hb
  · exact ⟨(19, ()),by rw [hq]; exact mem_singleton_self _,rfl⟩
  · rintro ⟨u,hfly | hfly⟩ <;> cases hop.symm.trans hfly

end Apollo.Cyber.Scheduler
