import Apollo.Foundation.Ownership
import Apollo.Cyber.Scheduler.Scheduler

/-! Which processors may resume a routine. `RemoveCRoutine` clears the lock flag without having set it; what still
holds then is due to `force_stop_`. -/
namespace Apollo.Cyber.Scheduler
open Foundation Option
variable {ρ θ : Type} {conf : Conf} {s t : State ρ θ} {e : Event ρ θ} {p q : Nat} {r : ρ}

namespace State

/-- If the step takes a routine out of its run queue, no processor is between `Acquire` and `Release`
of it. -/
def Unheld (s : State ρ θ) (e : Event ρ θ) : Prop :=
  ∀ u woken r, e = .proceed u woken → s.taken u = some r → ∀ p, s.held p ≠ some r

/-- The lock flags give each routine to one processor, but for the `exempt` routines. -/
def OwnedBut (exempt : ρ → Prop) (s : State ρ θ) : Prop :=
  Owned (fun p r => s.held p = some r ∧ ¬ exempt r) fun r => s.locks r = true

theorem held_update {f : Nat → Option ρ} {x : Option ρ}
    (h : Function.update f p x q = some r) : q = p ∧ x = some r ∨ q ≠ p ∧ f q = some r := by
  by_cases hq : q = p
  · subst hq
    exact .inl ⟨rfl,by simpa using h⟩
  · exact .inr ⟨hq,by simpa [hq] using h⟩

theorem OwnedBut.mono {exempt exempt' : ρ → Prop} (h : s.OwnedBut exempt)
    (hx : ∀ r, exempt r → exempt' r) : s.OwnedBut exempt' := by
  refine h.sub fun q x hq => ?_
  have hown : s.held q = some x ∧ ¬ exempt x := ⟨hq.1,mt (hx x) hq.2⟩
  exact ⟨hown,h.live q x hown⟩

/-- A held routine is locked, has one holder and is in a run queue of it. -/
structure Exclusive (conf : Conf) (s : State ρ θ) : Prop where
  owned : s.OwnedBut fun _ => False
  queued : ∀ p r, s.held p = some r → ∃ queue ∈ conf.queues p, s.Enqueued queue r

theorem Exclusive.unique (h : Exclusive conf s) (hp : s.held p = some r) (hq : s.held q = some r) :
    p = q := h.owned.unique p q r ⟨hp,id⟩ ⟨hq,id⟩

theorem held_of_executes (h : s.executes p = some r) : s.held p = some r := by
  rw [executes] at h
  rw [held]
  cases hp : s.phase p <;> rw [hp] at h <;> first | exact h | cases h

variable [DecidableEq ρ]

theorem OwnedBut.next {exempt : ρ → Prop} (h : s.OwnedBut exempt) (hc : Change conf s t e)
    (hr : ∀ u woken r, e = .proceed u woken → s.taken u = some r → t.stops r →
      exempt r ∨ ∀ p, s.held p ≠ some r) : t.OwnedBut exempt := by
  cases hc.effect with rw [OwnedBut,hh,hl]
  | keep hh hl =>
    exact h
  | acquire p r _ hf _ hh hl =>
    refine h.grant p r (by simp [hf]) (fun q x hq => ?_) fun x hx => ?_
    · rcases held_update hq.1 with ⟨rfl,heq⟩ | ⟨_,hqx⟩
      · exact .inr ⟨rfl,(some_inj.mp heq).symm⟩
      · exact .inl ⟨hqx,hq.2⟩
    · by_cases hxr : x = r
      · simp [hxr]
      · simpa [hxr] using hx
  | release p r hpr hh hl =>
    refine h.sub fun q x hq => ?_
    rcases held_update hq.1 with ⟨_,heq⟩ | ⟨hne,hqx⟩
    · cases heq
    · have hxr : x ≠ r := by
        rintro rfl
        exact hne (h.unique q p x ⟨hqx,hq.2⟩ ⟨hpr,hq.2⟩)
      exact ⟨⟨hqx,hq.2⟩,by simpa [hxr] using h.live q x ⟨hqx,hq.2⟩⟩
  | erase u woken r he ht hh hl hs =>
    refine h.sub fun q x hq => ⟨hq,?_⟩
    have hxr : x ≠ r := by
      rintro rfl
      rcases hr u woken x he ht hs with hex | hfree
      · exact hq.2 hex
      · exact hfree q hq.1
    simpa [hxr] using h.live q x hq

theorem Exclusive.next (h : Exclusive conf s) (ho : s.Unheld e) (hc : Change conf s t e) : Exclusive conf t := by
  refine ⟨h.owned.next hc fun u woken r he ht _ => .inr (ho u woken r he ht),?_⟩
  cases hc.effect with intro q x hx
  | keep hh _ hin =>
    obtain ⟨queue,hq,hx⟩ := h.queued q x (hh ▸ hx)
    exact ⟨queue,hq,hin queue x hx⟩
  | acquire _ _ _ _ hin hh _ hq =>
    simp only [Enqueued,hq]
    rcases held_update (hh ▸ hx) with ⟨rfl,heq⟩ | ⟨_,hx⟩
    · exact some_inj.mp heq ▸ hin
    · exact h.queued q x hx
  | release _ _ _ hh _ hq =>
    simp only [Enqueued,hq]
    rcases held_update (hh ▸ hx) with ⟨_,heq⟩ | ⟨_,hx⟩
    · cases heq
    · exact h.queued q x hx
  | erase u woken r he ht hh _ _ hin =>
    rw [hh] at hx
    have hxr : x ≠ r := by
      rintro rfl
      exact ho u woken x he ht q hx
    obtain ⟨queue,hq,hx⟩ := h.queued q x hx
    exact ⟨queue,hq,hin queue x hxr hx⟩

end State

open State
variable [DecidableEq ρ] [DecidableEq θ]

theorem exclusive (h : (system conf ρ θ).ReachableWhile Unheld s) : Exclusive conf s := by
  apply h.invariant
  · rintro s ⟨_,_,rfl⟩
    exact ⟨⟨nofun,nofun⟩,nofun⟩
  · intro s e t hi ho (he : s.step conf e = some t)
    exact hi.next ho (step_change he)

/-- `RemoveCRoutine` stops a routine before it clears the lock, so that `Resume` refuses it to whoever
locks it next. -/
theorem owned_unless_stopped (h : (system conf ρ θ).Reachable s) : s.OwnedBut fun r => s.stops r := by
  apply h.invariant
  · rintro s ⟨_,_,rfl⟩
    exact ⟨nofun,nofun⟩
  · intro s e t hi (he : s.step conf e = some t)
    have hc := step_change he
    exact (hi.mono hc.stops).next hc fun _ _ _ _ _ hs => .inl hs

/-- Whoever starts a routine has it and it is not stopped, so nobody else executes it. -/
theorem executes_unique (h : (system conf ρ θ).Reachable s) :
    ∀ p q r, s.executes p = some r → s.executes q = some r → p = q := by
  induction h with
  | start hs =>
    obtain ⟨_,_,rfl⟩ := hs
    exact nofun
  | @next s t e hreach _ he ih =>
    have howned := owned_unless_stopped hreach
    have hstart {p : Nat} {r : ρ} (hs : s.stops r = false) (hp : s.held p = some r) :
        s.held p = some r ∧ ¬ s.stops r := ⟨hp,by simp [hs]⟩
    intro p q r hp hq
    rcases (step_change he).executes p r hp with hp | ⟨hp,hs⟩
    · rcases (step_change he).executes q r hq with hq | ⟨hq,hs⟩
      · exact ih p q r hp hq
      · exact howned.unique p q r (hstart hs (held_of_executes hp)) (hstart hs hq)
    · rcases (step_change he).executes q r hq with hq | ⟨hq,_⟩
      · exact howned.unique p q r (hstart hs hp) (hstart hs (held_of_executes hq))
      · exact howned.unique p q r (hstart hs hp) (hstart hs hq)

theorem step_taken {u : θ} {woken : Option Nat} (ht : s.taken u = some r)
    (he : s.step conf (.proceed u woken) = some t) : t.stops r ∧ t.phase = s.phase := by
  rw [taken] at ht
  split at ht
  case h_1 hop =>
    obtain ⟨entry,hf,rfl⟩ := map_eq_some_iff.mp ht
    rw [step,proceed,hop] at he
    obtain ⟨_,⟨entry',hf',rfl⟩ | ⟨hf',_⟩⟩ := erase_spec he
    · obtain rfl : entry = entry' := some_inj.mp (hf.symm.trans hf')
      exact ⟨by simp [stops,unlock,setOp,setQueue,setRoutine],rfl⟩
    · cases hf.symm.trans hf'
  case h_2 => cases ht

def systemFrom (conf : Conf) (s : State ρ θ) : System (State ρ θ) (Event ρ θ) :=
  { system conf ρ θ with initial := (· = s) }

/-- A stopped routine that nobody executes is never executed again. -/
theorem never_executes (hs : s.stops r) (hx : ∀ p, s.executes p ≠ some r)
    (h : (systemFrom conf s).Reachable t) : ∀ p, t.executes p ≠ some r := by
  have hinv : t.stops r ∧ ∀ p, t.executes p ≠ some r := by
    apply h.invariant
    · rintro _ rfl
      exact ⟨hs,hx⟩
    · intro s e t hi (he : s.step conf e = some t)
      refine ⟨(step_change he).stops r hi.1,fun p hp => ?_⟩
      rcases (step_change he).executes p r hp with hp | ⟨_,hf⟩
      · exact hi.2 p hp
      · exact absurd hi.1 (by simp [hf])
  exact hinv.2

/-- One processor at most executes a routine. In every run that takes no held routine out of its queue, one processor
at most stands between its `Acquire` and `Release`. -/
theorem resumed_by_one (conf : Conf) : (∀ s : State ρ θ, (system conf ρ θ).Reachable s →
      ∀ p q r, s.executes p = some r → s.executes q = some r → p = q) ∧
    ∀ s : State ρ θ, (system conf ρ θ).ReachableWhile Unheld s →
      (∀ p q r, s.held p = some r → s.held q = some r → p = q) ∧
      (∀ p r, s.held p = some r → ∃ queue ∈ conf.queues p, s.Enqueued queue r) ∧
      ∀ u woken r t, s.taken u = some r → s.Unheld (.proceed u woken) →
        s.step conf (.proceed u woken) = some t → ∀ t', (systemFrom conf t).Reachable t' →
          ∀ p, t'.executes p ≠ some r := by
  refine ⟨fun _ h => executes_unique h,fun _ h => ?_⟩
  have hx := exclusive h
  refine ⟨fun _ _ _ hp hq => hx.unique hp hq,hx.queued,?_⟩
  intro u woken r _ ht ho he _ ht'
  obtain ⟨hs,hp⟩ := step_taken ht he
  refine never_executes hs (fun p hexec => ?_) ht'
  rw [executes,hp] at hexec
  exact ho u woken r rfl ht p (held_of_executes hexec)

def twoProcessors : Conf := .classic [⟨"g",2,[("r", 19)]⟩]

def undispatched : State Unit Unit :=
  ⟨fun _ => { id := 1, name := "r" },fun _ => none,fun _ => none,0,fun _ => [],fun _ => .top,
    fun _ => false,fun _ => .idle⟩

theorem undispatched_initial (conf : Conf) : (system conf Unit Unit).initial undispatched :=
  ⟨fun _ => { id := 1, name := "r" },fun _ => ⟨rfl,rfl,rfl,rfl⟩,rfl⟩

def dispatching : List (Event Unit Unit) := .dispatchTask () ()::List.replicate 4 (.proceed () none)

theorem lt_of_mem_queues {queue : QueueId} (h : queue ∈ twoProcessors.queues p) : p < 2 := by
  by_contra hp
  have hlen : twoProcessors.contexts.length = 2 := rfl
  have hnone : twoProcessors.contexts[p]? = none := List.getElem?_eq_none (by omega)
  simp [Conf.queues,hnone] at h

theorem resumed_by_one_removed : ∃ s t : State Unit Unit,
    (system twoProcessors Unit Unit).ReachableWhile Unheld s ∧ s.taken () = some () ∧
    s.step twoProcessors (.proceed () none) = some t ∧
    ∀ t', (systemFrom twoProcessors t).Reachable t' → ∀ p, t'.executes p ≠ some () := by
  -- the first processor has run the routine and released it
  obtain ⟨s,hs,hlast⟩ := System.reachableWhile_of_exec (system twoProcessors Unit Unit)
    (fun s _ => (s.taken ()).isNone) (dispatching ++ List.replicate 9 (Event.advance 0 false) ++
      [Event.removeCRoutine () 1,Event.proceed () none])
    (fun s => s.taken () = some () && s.held 0 = none && s.held 1 = none &&
      (s.step twoProcessors (.proceed () none)).isSome)
    (undispatched_initial _) (by decide +kernel)
  simp only [Bool.and_eq_true,decide_eq_true_eq] at hlast
  obtain ⟨⟨⟨ht,h0⟩,h1⟩,hsome⟩ := hlast
  obtain ⟨t,he⟩ := isSome_iff_exists.mp hsome
  have hreach : (system twoProcessors Unit Unit).ReachableWhile Unheld s := by
    refine hs.mono fun s _ hnone u woken r _ hr => ?_
    rw [hr] at hnone
    cases hnone
  have hfree : s.Unheld (.proceed () none) := by
    intro _ _ r _ _ p hp
    obtain ⟨_,hq,_⟩ := (exclusive hreach).queued p r hp
    have hlt := lt_of_mem_queues hq
    obtain rfl | rfl : p = 0 ∨ p = 1 := by omega
    · cases h0.symm.trans hp
    · cases h1.symm.trans hp
  have hgone := ((resumed_by_one twoProcessors).2 s hreach).2.2 () none () t ht hfree he
  exact ⟨s,t,hreach,ht,he,hgone⟩

/-- `RemoveCRoutine` takes out a routine that a processor is about to run, which runs it all the same. -/
theorem removed_routine_resumed : ∃ s t t' : State Unit Unit,
    (system twoProcessors Unit Unit).Reachable s ∧ s.taken () = some () ∧
    s.step twoProcessors (.proceed () none) = some t ∧ (systemFrom twoProcessors t).Reachable t' ∧
    t'.executes 0 = some () ∧ t'.held 1 = some () := by
  obtain ⟨s,hs,hlast⟩ := System.reachable_of_exec (system twoProcessors Unit Unit)
    (dispatching ++ List.replicate 6 (Event.advance 0 false) ++ [Event.removeCRoutine () 1,Event.proceed () none])
    (fun s => s.taken () = some () && (s.step twoProcessors (.proceed () none)).any fun t =>
      ((systemFrom twoProcessors t).exec t
        (Event.advance 0 false::dispatching ++ List.replicate 5 (Event.advance 1 false))).any fun t' =>
          t'.executes 0 = some () && t'.held 1 = some ())
    (undispatched_initial _) (by decide +kernel)
  simp only [Bool.and_eq_true,decide_eq_true_eq,any_eq_true] at hlast
  obtain ⟨ht,t,he,t',ht',h0,h1⟩ := hlast
  exact ⟨s,t,t',hs,ht,he,(System.Reachable.start rfl).exec ht',h0,h1⟩

end Apollo.Cyber.Scheduler
