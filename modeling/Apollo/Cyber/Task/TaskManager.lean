import Apollo.Cyber.Croutine.Routine

/-! `TaskManager`: worker routines that share one queue of tasks, and the threads that call `Enqueue`. The queue is
taken as a queue of 1000 tasks with atomic operations; a task that finds it full is lost. -/
namespace Apollo.Cyber.Task.TaskManager
open Foundation Croutine Function Option List
open Scheduler (RoutineState)

def taskQueueSize : Nat := 1000

/-- Where a worker stands in its loop: before the test of `stop_`, before `Dequeue`, in `HangUp` before its
store of `DATA_WAIT` and before the swap, in a task, before it gives the processor up inside a task, and
behind the loop. -/
inductive Pc
  | top
  | dequeuing
  | failed
  | hanging
  | working
  | interrupted
  | returned
  deriving DecidableEq

/-- Where a thread stands in `Enqueue`: before the queue, or in `NotifyProcessor`, before its look at the
state of the next worker or before it sets the flag of one. -/
inductive Call (n : Nat) (α : Type)
  | idle
  | enqueuing (task : α)
  | notifying (rest : List (Fin n))
  | flagging (w : Fin n) (rest : List (Fin n))
  deriving DecidableEq

def Call.Owes {n : Nat} {α : Type} : Call n α → Fin n → Prop
  | idle, _ | enqueuing _, _ => False
  | notifying rest, w => w ∈ rest
  | flagging x rest, w => w = x ∨ w ∈ rest

structure State (n : Nat) (θ α : Type) where
  stop : Bool
  queue : List α
  routine : Fin n → Routine
  pc : Fin n → Pc
  call : θ → Call n α

/-- The next operation of a processor with a worker, the next operation of a running worker (its task
returns, or it gives the processor up in a state), a call of `Enqueue`, its next operation, and
`Shutdown`. -/
inductive Event (n : Nat) (θ α : Type)
  | advance (w : Fin n) (expired : Bool)
  | run (w : Fin n) (waits : Option RoutineState)
  | enqueue (t : θ) (task : α)
  | proceed (t : θ)
  | shutdown

namespace State
variable {n : Nat} {θ α : Type} [DecidableEq θ]

def setRoutine (s : State n θ α) (w : Fin n) (routine : Routine) : State n θ α :=
  { s with routine := update s.routine w routine }

def setPc (s : State n θ α) (w : Fin n) (pc : Pc) : State n θ α :=
  { s with pc := update s.pc w pc }

def setCall (s : State n θ α) (t : θ) (call : Call n α) : State n θ α :=
  { s with call := update s.call t call }

/-- The loop of a worker. Its task does not put it into `DATA_WAIT` itself. -/
def run (s : State n θ α) (w : Fin n) (waits : Option RoutineState) : Option (State n θ α) :=
  let r := s.routine w
  if r.turn = .running then
    match s.pc w with
    | .top =>
      if s.stop then some ((s.setRoutine w (r.setState .finished)).setPc w .returned)
      else some (s.setPc w .dequeuing)
    | .dequeuing =>
      match s.queue with
      | [] => some (s.setPc w .failed)
      | _::queue => some ({ s with queue }.setPc w .working)
    | .failed => some ((s.setRoutine w (r.setState .dataWait)).setPc w .hanging)
    | .hanging => some ((s.setRoutine w r.swap).setPc w .top)
    | .working =>
      match waits with
      | none => some (s.setPc w .top)
      | some state =>
        if state = .dataWait then none
        else some ((s.setRoutine w (r.setState state)).setPc w .interrupted)
    | .interrupted => some ((s.setRoutine w r.swap).setPc w .working)
    | .returned => some (s.setRoutine w r.swap)
  else none

/-- A full queue refuses the task. -/
def push (s : State n θ α) (task : α) : State n θ α :=
  if s.queue.length < taskQueueSize then { s with queue := s.queue ++ [task] } else s

def proceed (s : State n θ α) (t : θ) : Option (State n θ α) :=
  match s.call t with
  | .idle => none
  | .enqueuing task => some ((s.push task).setCall t (.notifying (finRange n)))
  | .notifying [] => some (s.setCall t .idle)
  | .notifying (w::rest) =>
    if (s.routine w).state = .dataWait then some (s.setCall t (.flagging w rest))
    else some (s.setCall t (.notifying rest))
  | .flagging w rest =>
    some ((s.setRoutine w (s.routine w).setUpdateFlag).setCall t (.notifying rest))

def step (s : State n θ α) : Event n θ α → Option (State n θ α)
  | .advance w expired => ((s.routine w).advance expired).map (s.setRoutine w)
  | .run w waits => s.run w waits
  | .enqueue t task =>
    match s.call t with
    | .idle => if s.stop then some s else some (s.setCall t (.enqueuing task))
    | _ => none
  | .proceed t => s.proceed t
  | .shutdown => some { s with stop := true }

end State

def init (n : Nat) (θ α : Type) : State n θ α := ⟨false,[],fun _ => {},fun _ => .top,fun _ => .idle⟩

def system (n : Nat) (θ α : Type) [DecidableEq θ] : System (State n θ α) (Event n θ α) where
  initial s := s = init n θ α
  step := State.step

open Routine
variable {n : Nat} {θ α : Type} {s t : State n θ α} {w : Fin n} {u : θ} {y : Routine}

/-- The worker has found the queue empty and is going to wait. -/
def Pc.Blind (pc : Pc) : Prop := pc = .failed ∨ pc = .hanging

def Call.next : Call n α → Option (Fin n)
  | notifying (w::_) => some w
  | _ => none

namespace State

/-- If the step looks at the state of a worker, the worker is not between its failed `Dequeue` and its
store of `DATA_WAIT`. -/
def Seen (s : State n θ α) : Event n θ α → Prop
  | .proceed u => (s.call u).next.all fun w => s.pc w ≠ .failed
  | _ => True

instance (s : State n θ α) (e : Event n θ α) : Decidable (s.Seen e) :=
  match e with
  | .proceed u => inferInstanceAs (Decidable ((s.call u).next.all _ = true))
  | .advance .. | .run .. | .enqueue .. | .shutdown => isTrue trivial

end State

/-- The state of a worker at each place of its loop. -/
def Placed (x : Routine) : Pc → Prop
  | .top | .working => True
  | .dequeuing | .failed => x.turn = .running
  | .hanging => x.turn = .running ∧ x.state = .dataWait
  | .interrupted => x.turn = .running ∧ x.state ≠ .dataWait
  | .returned => x.state ≠ .dataWait

structure Kept (s : State n θ α) (w : Fin n) : Prop where
  placed : Placed (s.routine w) (s.pc w)
  due : s.queue ≠ [] → (∀ u, ¬ (s.call u).Owes w) → (s.routine w).Due .dataWait (s.pc w).Blind

variable {pc : Pc} {waits : Option Scheduler.RoutineState} {call : Call n α} {rest : List (Fin n)}

theorem not_blind (hf : pc ≠ .failed) (hh : pc ≠ .hanging) : ¬ pc.Blind := fun h => h.elim hf hh

theorem Kept.congr (h : Kept s w) (hr : t.routine w = s.routine w) (hp : t.pc w = s.pc w)
    (hq : t.queue ≠ [] → s.queue ≠ []) (ho : ∀ u, (s.call u).Owes w → (t.call u).Owes w) : Kept t w := by
  refine ⟨hr ▸ hp ▸ h.placed,fun hne hn => ?_⟩
  rw [hr,hp]
  exact h.due (hq hne) fun u hu => hn u (ho u hu)

theorem Kept.advance (h : Kept s w) {expired : Bool} (hy : (s.routine w).advance expired = some y) :
    Kept (s.setRoutine w y) w := by
  have hself : (s.setRoutine w y).routine w = y := update_self ..
  obtain ⟨hidle,_⟩ := advance_running hy
  have hfree : Placed y (s.pc w) ∧ ¬ (s.pc w).Blind := by
    have hplaced := h.placed
    cases hpc : s.pc w with rw [hpc] at hplaced
    | top | working => exact ⟨trivial,not_blind nofun nofun⟩
    | dequeuing | failed =>
      exact absurd hplaced hidle
    | hanging | interrupted =>
      exact absurd hplaced.1 hidle
    | returned =>
      refine ⟨?_,not_blind nofun nofun⟩
      change y.state ≠ .dataWait
      rcases advance_state hy with hst | hst
      · rw [hst]
        exact hplaced
      · rw [hst]
        nofun
  refine ⟨?_,fun hne hn => ?_⟩
  · rw [hself]
    exact hfree.1
  · rw [hself]
    exact (h.due hne hn).advance (.inl rfl) hfree.2 hy

theorem Kept.loop (h : Kept s w) (hr : t.routine w = y) (hpc : t.pc w = pc) (hc : t.call = s.call)
    (hq : t.queue ≠ [] → s.queue ≠ []) (hp : Placed y pc)
    (hd : (s.routine w).Due .dataWait (s.pc w).Blind → y.Due .dataWait pc.Blind) : Kept t w := by
  refine ⟨?_,fun hne hn => ?_⟩
  · rwa [hr,hpc]
  · rw [hr,hpc]
    rw [hc] at hn
    exact hd (h.due (hq hne) hn)

theorem Kept.run (h : Kept s w) (ht : s.run w waits = some t) : Kept t w := by
  unfold State.run at ht
  dsimp only at ht
  obtain ⟨hrun,ht⟩ := ite_none_right_eq_some.mp ht
  have hgoto (p : Pc) : (update s.pc w p) w = p := update_self ..
  have hset (y : Routine) : (update s.routine w y) w = y := update_self ..
  have hplaced := h.placed
  cases hpc : s.pc w with rw [hpc] at ht hplaced
  | top =>
    dsimp only at ht
    split at ht <;> cases ht
    · exact h.loop (hset _) (hgoto _) rfl id nofun fun _ =>
        due_of_running hrun (not_blind nofun nofun)
    · exact h.loop rfl (hgoto _) rfl id hrun fun _ =>
        due_of_running hrun (not_blind nofun nofun)
  | dequeuing =>
    dsimp only at ht
    split at ht
    case h_1 hempty =>
      -- there is nothing to do
      cases ht
      refine ⟨?_,fun hne => absurd hempty hne⟩
      change Placed (s.routine w) (update s.pc w .failed w)
      rw [hgoto]
      exact hrun
    case h_2 hqueue =>
      cases ht
      refine h.loop rfl (hgoto _) rfl ?_ trivial fun _ =>
        due_of_running hrun (not_blind nofun nofun)
      rw [hqueue]
      nofun
  | failed =>
    cases ht
    refine h.loop (hset _) (hgoto _) rfl id ⟨hrun,rfl⟩ fun hd => ?_
    exact due_of_flag (hd.2 (.inl hpc))
  | hanging =>
    cases ht
    refine h.loop (hset _) (hgoto _) rfl id trivial fun hd => ?_
    exact due_of_flag (hd.2 (.inr hpc))
  | working =>
    dsimp only at ht
    split at ht
    · cases ht
      exact h.loop rfl (hgoto _) rfl id trivial fun _ =>
        due_of_running hrun (not_blind nofun nofun)
    · split at ht
      · cases ht
      case isFalse hw =>
        cases ht
        exact h.loop (hset _) (hgoto _) rfl id ⟨hrun,hw⟩ fun _ =>
          due_of_running hrun (not_blind nofun nofun)
  | interrupted =>
    cases ht
    exact h.loop (hset _) (hgoto _) rfl id trivial fun _ =>
      due_of_state hplaced.2 (not_blind nofun nofun)
  | returned =>
    cases ht
    exact h.loop (hset _) hpc rfl id hplaced fun _ =>
      due_of_state hplaced (not_blind nofun nofun)

theorem run_frame (ht : s.run w waits = some t) : t.call = s.call ∧ (t.queue ≠ [] → s.queue ≠ []) ∧
      ∀ x, x ≠ w → t.routine x = s.routine x ∧ t.pc x = s.pc x := by
  unfold State.run at ht
  dsimp only at ht
  obtain ⟨_,ht⟩ := ite_none_right_eq_some.mp ht
  have hset {x : Fin n} (hx : x ≠ w) (y : Routine) : update s.routine w y x = s.routine x := update_of_ne hx ..
  have hgoto {x : Fin n} (hx : x ≠ w) (p : Pc) : update s.pc w p x = s.pc x := update_of_ne hx ..
  split at ht
  case h_1 =>
    split at ht <;> cases ht
    · exact ⟨rfl,id,fun _ hx => ⟨hset hx _,hgoto hx _⟩⟩
    · exact ⟨rfl,id,fun _ hx => ⟨rfl,hgoto hx _⟩⟩
  case h_2 =>
    split at ht
    · cases ht
      exact ⟨rfl,id,fun _ hx => ⟨rfl,hgoto hx _⟩⟩
    case h_2 hqueue =>
      cases ht
      refine ⟨rfl,fun _ => ?_,fun _ hx => ⟨rfl,hgoto hx _⟩⟩
      rw [hqueue]
      nofun
  case h_5 =>
    split at ht
    · cases ht
      exact ⟨rfl,id,fun _ hx => ⟨rfl,hgoto hx _⟩⟩
    · split at ht <;> cases ht
      exact ⟨rfl,id,fun _ hx => ⟨hset hx _,hgoto hx _⟩⟩
  case h_3 | h_4 | h_6 =>
    cases ht
    exact ⟨rfl,id,fun _ hx => ⟨hset hx _,hgoto hx _⟩⟩
  case h_7 =>
    cases ht
    exact ⟨rfl,id,fun _ hx => ⟨hset hx _,rfl⟩⟩

variable [DecidableEq θ]

theorem owes_setCall (h : (s.call u).Owes w → call.Owes w) (v : θ) (hv : (s.call v).Owes w) :
    ((s.setCall u call).call v).Owes w := by
  change (update s.call u call v).Owes w
  by_cases hvu : v = u
  · subst hvu
    rw [update_self]
    exact h hv
  · rwa [update_of_ne hvu]

section
variable (h : Kept s w)
include h

theorem Kept.setCall (hc : (s.call u).Owes w → call.Owes w) :
    Kept (s.setCall u call) w := h.congr rfl rfl id (owes_setCall hc)

theorem Kept.push (task : α) : Kept ((s.push task).setCall u (.notifying (finRange n))) w := by
  have hpush : (s.push task).routine = s.routine ∧ (s.push task).pc = s.pc := by
    rw [State.push]
    split <;> exact ⟨rfl,rfl⟩
  refine ⟨?_,fun _ hn => ?_⟩
  · change Placed ((s.push task).routine w) ((s.push task).pc w)
    rw [hpush.1,hpush.2]
    exact h.placed
  · refine absurd ?_ (hn u)
    change (update (s.push task).call u _ u).Owes w
    rw [update_self]
    exact mem_finRange w

theorem Kept.pass (hs : (s.routine w).state ≠ .dataWait) (hf : s.pc w ≠ .failed) :
    Kept (s.setCall u (.notifying rest)) w := by
  refine ⟨h.placed,fun _ _ => due_of_state hs (not_blind hf fun hp => ?_)⟩
  have hplaced := h.placed
  change s.pc w = .hanging at hp
  rw [hp] at hplaced
  exact hs hplaced.2

theorem Kept.flag : Kept ((s.setRoutine w (s.routine w).setUpdateFlag).setCall u (.notifying rest)) w := by
  have hself : ((s.setRoutine w (s.routine w).setUpdateFlag).setCall u (.notifying rest)).routine w =
      (s.routine w).setUpdateFlag := update_self ..
  refine ⟨?_,fun _ _ => ?_⟩
  · rw [hself]
    have hplaced := h.placed
    change Placed _ (s.pc w)
    cases hpc : s.pc w <;> rw [hpc] at hplaced <;> exact hplaced
  · rw [hself]
    exact due_of_flag rfl

theorem Kept.proceed (hseen : s.Seen (.proceed u)) (ht : s.proceed u = some t) : Kept t w := by
  rw [State.Seen] at hseen
  unfold State.proceed at ht
  split at ht
  case h_1 => cases ht
  case h_2 task hcall =>
    cases ht
    exact h.push task
  case h_3 hcall =>
    cases ht
    refine h.setCall fun ho => ?_
    rw [hcall] at ho
    cases ho
  case h_4 x rest hcall =>
    rw [hcall] at hseen
    split at ht
    case isTrue =>
      cases ht
      refine h.setCall fun ho => ?_
      rw [hcall] at ho
      exact mem_cons.mp ho
    case isFalse hs =>
      cases ht
      by_cases hx : w = x
      · subst hx
        exact h.pass hs (of_decide_eq_true hseen)
      · refine h.setCall fun ho => ?_
        rw [hcall] at ho
        exact (mem_cons.mp ho).resolve_left hx
  case h_5 x rest hcall =>
    cases ht
    by_cases hx : w = x
    · subst hx
      exact h.flag
    · refine h.congr (update_of_ne hx ..) rfl id (owes_setCall fun ho => ?_)
      rw [hcall] at ho
      exact ho.resolve_left hx

end

theorem Kept.step {e : Event n θ α} (h : ∀ w, Kept s w) (hs : s.Seen e) (he : s.step e = some t)
    (w : Fin n) : Kept t w := by
  cases e with
  | advance x =>
    obtain ⟨y,hy,rfl⟩ := map_eq_some_iff.mp he
    by_cases hw : w = x
    · subst hw
      exact (h w).advance hy
    · exact (h w).congr (update_of_ne hw ..) rfl id fun _ => id
  | run x =>
    by_cases hw : w = x
    · subst hw
      exact (h w).run he
    · obtain ⟨hc,hq,hother⟩ := run_frame he
      refine (h w).congr (hother w hw).1 (hother w hw).2 hq fun _ _ => ?_
      rwa [hc]
  | enqueue =>
    rw [State.step] at he
    split at he
    case h_1 hcall =>
      split at he <;> cases he
      · exact h w
      · refine (h w).setCall fun ho => ?_
        rw [hcall] at ho
        cases ho
    case h_2 => cases he
  | proceed => exact (h w).proceed hs he
  | shutdown =>
    cases he
    exact (h w).congr rfl rfl id fun _ => id

theorem seen_kept (h : (system n θ α).ReachableWhile State.Seen s) (w : Fin n) : Kept s w := by
  revert w
  apply h.invariant
  · rintro _ rfl w
    exact ⟨trivial,fun hne => absurd rfl hne⟩
  · intro _ _ _ hi hs he
    exact Kept.step hi hs he

/-- There is no state with a task in the queue and all workers parked while no update and no notification
is pending, in every run whose notifications find no worker on its way to wait. -/
theorem no_task_stranded (hn : 0 < n) (h : (system n θ α).ReachableWhile State.Seen s) :
    ¬ (s.queue ≠ [] ∧ ∀ w, (s.routine w).Parked .dataWait ∧ ∀ u, ¬ (s.call u).Owes w) := by
  rintro ⟨hq,hall⟩
  obtain ⟨hp,ho⟩ := hall ⟨0,hn⟩
  exact ((seen_kept h ⟨0,hn⟩).due hq ho).1 hp

/-- The only worker waits when a task comes, and is woken. -/
theorem no_task_stranded_woken : ∃ s : State 1 Unit Nat, s.queue = [7] ∧ s.call () = .idle ∧
    (s.routine 0).state = .dataWait ∧ (s.routine 0).updated = false ∧
    ¬ (s.queue ≠ [] ∧ ∀ w, (s.routine w).Parked .dataWait ∧ ∀ u, ¬ (s.call u).Owes w) := by
  obtain ⟨s,hs,hp⟩ := System.reachableWhile_of_exec (system 1 Unit Nat) State.Seen
    (replicate 3 (Event.advance 0 false) ++ replicate 4 (Event.run 0 none) ++
      [Event.enqueue () 7] ++ replicate 4 (Event.proceed ()))
    (fun s => s.queue = [7] ∧ s.call () = .idle ∧ (s.routine 0).state = .dataWait ∧
      (s.routine 0).updated = false) rfl (by decide +kernel)
  obtain ⟨hq,hc,hst,hu⟩ := of_decide_eq_true hp
  exact ⟨s,hq,hc,hst,hu,no_task_stranded Nat.one_pos hs⟩

/-- A task comes after the worker has found the queue empty and before it stores `DATA_WAIT`. -/
theorem task_stranded : ∃ s : State 1 Unit Nat, (system 1 Unit Nat).Reachable s ∧ s.stop = false ∧
    s.queue = [7] ∧ (s.routine 0).Parked .dataWait ∧ s.call () = .idle := by
  obtain ⟨s,hs,hp⟩ := System.reachable_of_exec (system 1 Unit Nat)
    (replicate 3 (Event.advance 0 false) ++ replicate 2 (Event.run 0 none) ++
      [Event.enqueue () 7] ++ replicate 3 (Event.proceed ()) ++ replicate 2 (Event.run 0 none))
    (fun s => s.stop = false ∧ s.queue = [7] ∧ (s.routine 0).Parked .dataWait ∧ s.call () = .idle)
    rfl (by decide +kernel)
  exact ⟨s,hs,of_decide_eq_true hp⟩

end Apollo.Cyber.Task.TaskManager
