import Apollo.Cyber.Scheduler.Scheduler
import Apollo.Cyber.Data.ChannelBuffer

/-! `CRoutine` under the processors: its state and its update flag, which it shares with the threads that notify it. The
lock gives a routine to one processor at a time, so that the turn of the routine stands for the place of this
processor in its loop. The routines of `CreateRoutineFactory` for one channel each, with the threads that dispatch
messages to them: `DataDispatcher::Dispatch` fills the buffers of a channel one after the other, then
`DataNotifier::Notify` calls `NotifyProcessor` for each routine. -/
namespace Apollo.Cyber.Croutine
open Scheduler (RoutineState)

/-- Nobody has the routine, or a processor has acquired it, has read its state with this result, resumes it
or has come back from it. -/
inductive Turn
  | released
  | acquired
  | notReady
  | waking
  | chosen
  | running
  | resumed
  deriving DecidableEq

/-- `updated` is set while no update is pending. -/
structure Routine where
  state : RoutineState := .ready
  updated : Bool := true
  turn : Turn := .released
  deriving DecidableEq

namespace Routine
variable {r t : Routine} {w : RoutineState} {expired : Bool}

def setUpdateFlag (r : Routine) : Routine := { r with updated := false }

def setState (r : Routine) (state : RoutineState) : Routine := { r with state }

/-- The swap of the contexts at the end of `Yield`. -/
def swap (r : Routine) : Routine := { r with turn := .resumed }

def updateState (r : Routine) (expired : Bool) : Routine :=
  if r.state = .sleep ∧ expired then { r with state := .ready, turn := .chosen }
  else if !r.updated && (r.state = .dataWait || r.state = .ioWait) then
    { r with updated := true, turn := .waking }
  else if r.state = .ready then { r with updated := true, turn := .chosen }
  else { r with updated := true, turn := .notReady }

/-- The next operation of the processor that has the routine, or its `Acquire`. -/
def advance (r : Routine) (expired : Bool) : Option Routine :=
  match r.turn with
  | .released => some { r with turn := .acquired }
  | .acquired => some (r.updateState expired)
  | .notReady => some { r with turn := .released }
  | .waking => some { r with state := .ready, turn := .chosen }
  | .chosen => some { r with turn := if r.state = .ready then .running else .resumed }
  | .running => none
  | .resumed => some { r with turn := .released }

/-- The routine waits in the state, nobody runs or wakes it, and no update is pending. -/
def Parked (w : RoutineState) (r : Routine) : Prop :=
  r.state = w ∧ r.updated = true ∧ r.turn ≠ .running ∧ r.turn ≠ .waking

instance : Decidable (r.Parked w) := inferInstanceAs (Decidable (_ ∧ _))

def Awaits (w : RoutineState) : Prop := w = .dataWait ∨ w = .ioWait

theorem Awaits.ne_ready (hw : Awaits w) : w ≠ .ready := by
  rcases hw with rfl | rfl <;> nofun

theorem parked_of_updateState (hw : Awaits w) (ht : (r.updateState expired).Parked w) :
    r.state = w ∧ r.updated = true := by
  rw [updateState] at ht
  split at ht
  case isTrue => exact absurd ht.1.symm hw.ne_ready
  case isFalse =>
    split at ht
    case isTrue => exact absurd rfl ht.2.2.2
    case isFalse hflag =>
      have hstate : r.state = w := by
        split at ht <;> exact ht.1
      refine ⟨hstate,?_⟩
      -- a pending update would have ended the wait
      rcases hw with rfl | rfl <;> simpa [hstate] using hflag

theorem parked_of_advance (hw : Awaits w) (h : r.advance expired = some t) (ht : t.Parked w) : r.Parked w := by
  cases hturn : r.turn with rw [advance,hturn] at h
  | released | notReady | resumed | chosen =>
    cases h
    exact ⟨ht.1,ht.2.1,by rw [hturn]; nofun,by rw [hturn]; nofun⟩
  | acquired =>
    cases h
    obtain ⟨hstate,hupd⟩ := parked_of_updateState hw ht
    exact ⟨hstate,hupd,by rw [hturn]; nofun,by rw [hturn]; nofun⟩
  | waking =>
    cases h
    exact absurd ht.1.symm hw.ne_ready
  | running =>
    cases h

theorem advance_running (h : r.advance expired = some t) :
    r.turn ≠ .running ∧ (t.turn = .running → t.state = .ready) := by
  cases hturn : r.turn with rw [advance,hturn] at h
  | released | notReady | resumed | waking =>
    cases h
    exact ⟨nofun,nofun⟩
  | acquired =>
    cases h
    refine ⟨nofun,fun ht => ?_⟩
    rw [updateState] at ht
    split at ht
    · cases ht
    · split at ht
      · cases ht
      · split at ht <;> cases ht
  | chosen =>
    cases h
    refine ⟨nofun,fun ht => ?_⟩
    by_cases hr : r.state = .ready
    · exact hr
    · rw [if_neg hr] at ht
      cases ht
  | running =>
    cases h

theorem advance_state (h : r.advance expired = some t) : t.state = r.state ∨ t.state = .ready := by
  cases hturn : r.turn with rw [advance,hturn] at h
  | released | notReady | resumed | chosen =>
    cases h
    exact .inl rfl
  | acquired =>
    cases h
    rw [updateState]
    split
    · exact .inr rfl
    · split
      · exact .inl rfl
      · split <;> exact .inl rfl
  | waking =>
    cases h
    exact .inr rfl
  | running =>
    cases h

/-- The routine is not parked in the state and will look for work before it is: it is not past its last
look (`blind`), or an update is pending. -/
def Due (w : RoutineState) (r : Routine) (blind : Prop) : Prop := ¬ r.Parked w ∧ (blind → r.updated = false)

variable {blind : Prop}

theorem due_of_running (hr : r.turn = .running) (hb : ¬ blind) : r.Due w blind :=
  ⟨fun h => h.2.2.1 hr,fun h => absurd h hb⟩

theorem due_of_state (hs : r.state ≠ w) (hb : ¬ blind) : r.Due w blind := ⟨fun h => hs h.1,fun h => absurd h hb⟩

theorem due_of_flag (hu : r.updated = false) : r.Due w blind := by
  refine ⟨fun h => ?_,fun _ => hu⟩
  cases hu.symm.trans h.2.1

theorem Due.advance (h : r.Due w blind) (hw : Awaits w) (hb : ¬ blind) (ht : r.advance expired = some t) :
    t.Due w blind :=
  ⟨fun hp => h.1 (parked_of_advance hw ht hp),fun hh => absurd hh hb⟩

end Routine

namespace DataRoutine
open Foundation Data Function
/-- Where a routine stands in its loop: before it sets its state, before `TryFetch`, in the function, or
before it gives the processor up: after the function, without a message, or inside the function. -/
inductive Pc
  | top
  | fetching
  | inside
  | leaving
  | hanging
  | interrupted
  deriving DecidableEq

/-- `buffers_map_` and `notifies_map_`, once the visitors are made: each buffer has its notifier. -/
structure Channels (ρ κ : Type) where
  buffers : κ → List ρ
  notifiers : κ → List ρ
  covered : ∀ c r, r ∈ buffers c → r ∈ notifiers c

/-- Where a thread stands in `Dispatch`: before the buffers `rest`, or in `NotifyProcessor`, before its
look at the state of the next routine or before it sets the flag of one. -/
inductive Dispatch (ρ κ α : Type)
  | idle
  | filling (c : κ) (msg : α) (filled rest : List ρ)
  | notifying (rest : List ρ)
  | flagging (r : ρ) (rest : List ρ)
  deriving DecidableEq

/-- The call has filled the buffer of the routine and has still to notify it. -/
def Dispatch.Owes {ρ κ α : Type} : Dispatch ρ κ α → ρ → Prop
  | idle, _ => False
  | filling _ _ filled _, r => r ∈ filled
  | notifying rest, r => r ∈ rest
  | flagging x rest, r => r = x ∨ r ∈ rest

structure State (ρ θ κ α : Type) where
  routine : ρ → Routine
  pc : ρ → Pc
  buffer : ρ → ChannelBuffer.State Unit α
  dispatch : θ → Dispatch ρ κ α

/-- The next operation of a processor with a routine, the next operation of a running routine (the function
returns, or it gives the processor up in a state), a call of `Dispatch` and its next operation. -/
inductive Event (ρ θ κ α : Type)
  | advance (r : ρ) (expired : Bool)
  | run (r : ρ) (waits : Option RoutineState)
  | dispatch (t : θ) (c : κ) (msg : α)
  | proceed (t : θ)

def Unfetched {α : Type} (b : ChannelBuffer.State Unit α) : Prop :=
  ∃ index m, ChannelBuffer.fetch b.buffer (b.nextMsgIndex ()) = some (index, some m)

namespace State
variable {ρ θ κ α : Type} [DecidableEq ρ] [DecidableEq θ]

def setRoutine (s : State ρ θ κ α) (r : ρ) (routine : Routine) : State ρ θ κ α :=
  { s with routine := update s.routine r routine }

def setPc (s : State ρ θ κ α) (r : ρ) (pc : Pc) : State ρ θ κ α :=
  { s with pc := update s.pc r pc }

def setBuffer (s : State ρ θ κ α) (r : ρ) (b : ChannelBuffer.State Unit α) : State ρ θ κ α :=
  { s with buffer := update s.buffer r b }

def setDispatch (s : State ρ θ κ α) (t : θ) (d : Dispatch ρ κ α) : State ρ θ κ α :=
  { s with dispatch := update s.dispatch t d }

def tryFetch (s : State ρ θ κ α) (r : ρ) : Option (State ρ θ κ α) :=
  let b := s.buffer r
  (ChannelBuffer.fetch b.buffer (b.nextMsgIndex ())).bind fun found =>
    (b.tryFetch ()).map fun b =>
      (s.setBuffer r b).setPc r (if found.2.isSome then .inside else .hanging)

/-- The loop of the routine. The function does not put it into `DATA_WAIT` itself. -/
def run (s : State ρ θ κ α) (r : ρ) (waits : Option RoutineState) : Option (State ρ θ κ α) :=
  if (s.routine r).turn = .running then
    match s.pc r with
    | .top => some ((s.setRoutine r ((s.routine r).setState .dataWait)).setPc r .fetching)
    | .fetching => s.tryFetch r
    | .inside =>
      match waits with
      | none => some ((s.setRoutine r ((s.routine r).setState .ready)).setPc r .leaving)
      | some w =>
        if w = .dataWait then none
        else some ((s.setRoutine r ((s.routine r).setState w)).setPc r .interrupted)
    | .leaving => some ((s.setRoutine r (s.routine r).swap).setPc r .top)
    | .hanging => some ((s.setRoutine r (s.routine r).swap).setPc r .top)
    | .interrupted => some ((s.setRoutine r (s.routine r).swap).setPc r .inside)
  else none

def proceed (net : Channels ρ κ) (s : State ρ θ κ α) (t : θ) : Option (State ρ θ κ α) :=
  match s.dispatch t with
  | .idle => none
  | .filling c _ _ [] => some (s.setDispatch t (.notifying (net.notifiers c)))
  | .filling c msg filled (r::rest) =>
    ((s.buffer r).step (.fill msg)).map fun b =>
      (s.setBuffer r b).setDispatch t (.filling c msg (r::filled) rest)
  | .notifying [] => some (s.setDispatch t .idle)
  | .notifying (r::rest) =>
    if (s.routine r).state = .dataWait then some (s.setDispatch t (.flagging r rest))
    else some (s.setDispatch t (.notifying rest))
  | .flagging r rest =>
    some ((s.setRoutine r (s.routine r).setUpdateFlag).setDispatch t (.notifying rest))

def step (net : Channels ρ κ) (s : State ρ θ κ α) : Event ρ θ κ α → Option (State ρ θ κ α)
  | .advance r expired => ((s.routine r).advance expired).map (s.setRoutine r)
  | .run r waits => s.run r waits
  | .dispatch t c msg =>
    match s.dispatch t with
    | .idle => some (s.setDispatch t (.filling c msg [] (net.buffers c)))
    | _ => none
  | .proceed t => s.proceed net t

end State

/-- Routines that have been dispatched and not run yet, with buffers that may have been filled before. -/
def system {ρ κ : Type} (θ α : Type) [DecidableEq ρ] [DecidableEq θ] (net : Channels ρ κ)
    (size : ρ → UInt64) : System (State ρ θ κ α) (Event ρ θ κ α) where
  initial s := (∀ r, s.routine r = {} ∧ s.pc r = .top ∧
      (ChannelBuffer.system Unit α (size r)).Reachable (s.buffer r)) ∧ ∀ t, s.dispatch t = .idle
  step := State.step net

open List Option ChannelBuffer Routine
variable {ρ θ κ α : Type} {net : Channels ρ κ} {size : ρ → UInt64} {s t : State ρ θ κ α} {r : ρ} {u : θ}
  {x y : Routine} {pc : Pc}

/-- The state of the routine at each place of its loop. -/
def Placed (x : Routine) : Pc → Prop
  | .top | .inside => True
  | .fetching | .hanging => x.turn = .running ∧ x.state = .dataWait
  | .leaving | .interrupted => x.turn = .running ∧ x.state ≠ .dataWait

structure Kept (size : ρ → UInt64) (s : State ρ θ κ α) (r : ρ) : Prop where
  reachable : (ChannelBuffer.system Unit α (size r)).Reachable (s.buffer r)
  placed : Placed (s.routine r) (s.pc r)
  due : Unfetched (s.buffer r) → (∀ u, ¬ (s.dispatch u).Owes r) → (s.routine r).Due .dataWait (s.pc r = .hanging)

/-- The buffers that a call has filled and has still to fill are those of its channel. -/
def Filling (net : Channels ρ κ) : Dispatch ρ κ α → Prop
  | .filling c _ filled rest => ∀ r, r ∈ filled ∨ r ∈ rest → r ∈ net.buffers c
  | _ => True

structure Inv (net : Channels ρ κ) (size : ρ → UInt64) (s : State ρ θ κ α) : Prop where
  kept : ∀ r, Kept size s r
  filling : ∀ u, Filling net (s.dispatch u)

theorem Kept.congr (h : Kept size s r) (hr : t.routine r = s.routine r) (hp : t.pc r = s.pc r)
    (hb : t.buffer r = s.buffer r) (hf : ∀ u, (s.dispatch u).Owes r → (t.dispatch u).Owes r) : Kept size t r := by
  refine ⟨hb ▸ h.reachable,hr ▸ hp ▸ h.placed,fun hu hn => ?_⟩
  rw [hr,hp]
  exact h.due (hb ▸ hu) fun u hu => hn u (hf u hu)

theorem Kept.advance (h : Kept size s r) {expired : Bool} (hy : (s.routine r).advance expired = some y)
    (hr : t.routine r = y) (hp : t.pc r = s.pc r) (hb : t.buffer r = s.buffer r)
    (hd : t.dispatch = s.dispatch) : Kept size t r := by
  obtain ⟨hidle,_⟩ := advance_running hy
  have hfree : Placed y (s.pc r) ∧ s.pc r ≠ .hanging := by
    have hplaced := h.placed
    cases hpc : s.pc r with
    | top | inside => exact ⟨trivial,nofun⟩
    | fetching | hanging | leaving | interrupted =>
      rw [hpc] at hplaced
      exact absurd hplaced.1 hidle
  refine ⟨hb ▸ h.reachable,?_,fun hu hn => ?_⟩
  · rw [hr,hp]
    exact hfree.1
  · have hdue := h.due (hb ▸ hu) fun v _ => hn v (by rwa [hd])
    rw [hr,hp]
    exact hdue.advance (.inl rfl) hfree.2 hy

theorem fetch_none {b : CacheBuffer α} {i j : Nat} (h : fetch b i = some (j, none)) : j = i := by
  rw [fetch] at h
  split at h
  · cases h
    rfl
  · split at h
    · cases hb : b.elementAt b.tail <;> rw [hb] at h <;> cases h
    · split at h
      · cases h
        rfl
      · split at h
        · cases hb : b.elementAt b.tail <;> rw [hb] at h <;> cases h
        · cases hb : b.elementAt i <;> rw [hb] at h <;> cases h

variable {b b' : ChannelBuffer.State Unit α} {waits : Option Scheduler.RoutineState} {rest filled : List ρ}

theorem tryFetch_failed {index : Nat} (hf : fetch b.buffer (b.nextMsgIndex ()) = some (index, none))
    (h : b.tryFetch () = some b') : ¬ Unfetched b' := by
  rw [ChannelBuffer.State.tryFetch,hf,map_some,some_inj] at h
  subst h
  rintro ⟨_,m,hm⟩
  change fetch b.buffer (update b.nextMsgIndex () index ()) = _ at hm
  rw [update_self,fetch_none hf,hf] at hm
  cases hm

section Threads
variable [DecidableEq θ]
variable {d : Dispatch ρ κ α}

theorem owes_setDispatch (h : (s.dispatch u).Owes r → d.Owes r) (v : θ) (hv : (s.dispatch v).Owes r) :
    ((s.setDispatch u d).dispatch v).Owes r := by
  change (update s.dispatch u d v).Owes r
  by_cases hvu : v = u
  · subst hvu
    rw [update_self]
    exact h hv
  · rwa [update_of_ne hvu]

theorem Kept.setDispatch (h : Kept size s r) (hd : (s.dispatch u).Owes r → d.Owes r) :
    Kept size (s.setDispatch u d) r :=
  h.congr rfl rfl rfl (owes_setDispatch hd)

theorem Kept.pass {rest : List ρ} (h : Kept size s r) (hs : (s.routine r).state ≠ .dataWait) :
    Kept size (s.setDispatch u (.notifying rest)) r := by
  refine ⟨h.reachable,h.placed,fun _ _ => due_of_state hs fun hp => ?_⟩
  have hplaced := h.placed
  change s.pc r = .hanging at hp
  rw [hp] at hplaced
  exact hs hplaced.2

theorem filling_setDispatch (h : ∀ v, Filling net (s.dispatch v)) (hd : Filling net d) (v : θ) :
    Filling net ((s.setDispatch u d).dispatch v) := by
  change Filling net (update s.dispatch u d v)
  by_cases hv : v = u
  · subst hv
    rwa [update_self]
  · rw [update_of_ne hv]
    exact h v

end Threads

variable [DecidableEq ρ]

theorem Kept.loop {pc' : Pc} (h : Kept size s r) (hp : Placed y pc')
    (hd : (s.routine r).Due .dataWait (s.pc r = .hanging) → y.Due .dataWait (pc' = .hanging)) :
    Kept size ((s.setRoutine r y).setPc r pc') r := by
  have hr : ((s.setRoutine r y).setPc r pc').routine r = y := update_self ..
  have hpc : ((s.setRoutine r y).setPc r pc').pc r = pc' := update_self ..
  refine ⟨h.reachable,?_,fun hu hn => ?_⟩
  · rwa [hr,hpc]
  · rw [hr,hpc]
    exact hd (h.due hu hn)

theorem Kept.tryFetch (h : Kept size s r) (hpc : s.pc r = .fetching) (ht : s.tryFetch r = some t) :
    Kept size t r := by
  have hplaced := h.placed
  rw [hpc] at hplaced
  obtain ⟨⟨_,m⟩,hfetch,ht⟩ := bind_eq_some_iff.mp ht
  obtain ⟨b,hb,rfl⟩ := map_eq_some_iff.mp ht
  have hreach := h.reachable.next (e := ChannelBuffer.Event.tryFetch ()) hb
  have hbuf (p : Pc) : ((s.setBuffer r b).setPc r p).buffer r = b := update_self ..
  have hat (p : Pc) : ((s.setBuffer r b).setPc r p).pc r = p := update_self ..
  cases m with
  | some =>
    refine ⟨?_,?_,fun _ _ => ?_⟩
    · rwa [hbuf]
    · rw [hat]
      trivial
    · rw [hat]
      exact due_of_running hplaced.1 nofun
  | none =>
    refine ⟨?_,?_,fun hu _ => ?_⟩
    · rwa [hbuf]
    · rw [hat]
      exact hplaced
    · rw [hbuf] at hu
      exact absurd hu (tryFetch_failed hfetch hb)

theorem Kept.run (h : Kept size s r) (ht : s.run r waits = some t) : Kept size t r := by
  unfold State.run at ht
  obtain ⟨hrun,ht⟩ := ite_none_right_eq_some.mp ht
  have hplaced := h.placed
  cases hpc : s.pc r with
  | top =>
    rw [hpc] at ht
    cases ht
    exact h.loop ⟨hrun,rfl⟩ fun _ => due_of_running hrun nofun
  | fetching =>
    rw [hpc] at ht
    exact h.tryFetch hpc ht
  | inside =>
    rw [hpc] at ht
    dsimp only at ht
    split at ht
    · cases ht
      exact h.loop ⟨hrun,nofun⟩ fun _ => due_of_running hrun nofun
    · obtain ⟨hw,ht⟩ := ite_none_left_eq_some.mp ht
      cases ht
      exact h.loop ⟨hrun,hw⟩ fun _ => due_of_running hrun nofun
  | leaving | interrupted =>
    rw [hpc] at ht hplaced
    cases ht
    exact h.loop trivial fun _ => due_of_state hplaced.2 nofun
  | hanging =>
    rw [hpc] at ht
    cases ht
    refine h.loop trivial fun hd => ?_
    exact due_of_flag (hd.2 hpc)

theorem run_frame (ht : s.run r waits = some t) : t.dispatch = s.dispatch ∧ ∀ x, x ≠ r →
      t.routine x = s.routine x ∧ t.pc x = s.pc x ∧ t.buffer x = s.buffer x := by
  have hloop (y : Routine) (p : Pc) : ((s.setRoutine r y).setPc r p).dispatch = s.dispatch ∧ ∀ x, x ≠ r →
      ((s.setRoutine r y).setPc r p).routine x = s.routine x ∧ ((s.setRoutine r y).setPc r p).pc x = s.pc x ∧
        ((s.setRoutine r y).setPc r p).buffer x = s.buffer x :=
    ⟨rfl,fun _ hx => ⟨update_of_ne hx ..,update_of_ne hx ..,rfl⟩⟩
  unfold State.run at ht
  obtain ⟨_,ht⟩ := ite_none_right_eq_some.mp ht
  split at ht
  case h_2 =>
    obtain ⟨_,_,ht⟩ := bind_eq_some_iff.mp ht
    obtain ⟨b,_,rfl⟩ := map_eq_some_iff.mp ht
    exact ⟨rfl,fun _ hx => ⟨rfl,update_of_ne hx ..,update_of_ne hx ..⟩⟩
  case h_3 =>
    split at ht
    · cases ht
      exact hloop _ _
    · split at ht <;> cases ht
      exact hloop _ _
  case h_1 | h_4 | h_5 | h_6 =>
    cases ht
    exact hloop _ _

variable [DecidableEq θ]

theorem Kept.fill {c : κ} {msg : α} (h : Kept size s r) (hb : (s.buffer r).step (.fill msg) = some b) :
    Kept size ((s.setBuffer r b).setDispatch u (.filling c msg (r::filled) rest)) r := by
  have hself : ((s.setBuffer r b).setDispatch u (.filling c msg (r::filled) rest)).buffer r = b := update_self ..
  refine ⟨?_,h.placed,fun _ hn => ?_⟩
  · rw [hself]
    exact ChannelBuffer.reachable_step h.reachable hb
  · refine absurd ?_ (hn u)
    change (update s.dispatch u _ u).Owes r
    rw [update_self]
    exact mem_cons_self

theorem Kept.flag (h : Kept size s r) :
    Kept size ((s.setRoutine r (s.routine r).setUpdateFlag).setDispatch u (.notifying rest)) r := by
  have hself : ((s.setRoutine r (s.routine r).setUpdateFlag).setDispatch u (.notifying rest)).routine r =
      (s.routine r).setUpdateFlag := update_self ..
  refine ⟨h.reachable,?_,fun _ _ => ?_⟩
  · rw [hself]
    have hplaced := h.placed
    change Placed _ (s.pc r)
    cases hpc : s.pc r <;> rw [hpc] at hplaced <;> exact hplaced
  · rw [hself]
    exact due_of_flag rfl

theorem Kept.proceed (h : Kept size s r) (hf : Filling net (s.dispatch u))
    (ht : s.proceed net u = some t) : Kept size t r := by
  unfold State.proceed at ht
  split at ht
  case h_1 => cases ht
  case h_2 c msg filled hd =>
    cases ht
    refine h.setDispatch fun ho => ?_
    rw [hd] at hf ho
    exact net.covered c r (hf r (.inl ho))
  case h_3 c msg filled x rest hd =>
    obtain ⟨b,hb,rfl⟩ := map_eq_some_iff.mp ht
    by_cases hx : r = x
    · subst hx
      exact h.fill hb
    · refine h.congr rfl rfl (update_of_ne hx ..) (owes_setDispatch fun ho => ?_)
      rw [hd] at ho
      exact mem_cons_of_mem x ho
  case h_4 hd =>
    cases ht
    refine h.setDispatch fun ho => ?_
    rw [hd] at ho
    cases ho
  case h_5 x rest hd =>
    split at ht
    case isTrue =>
      cases ht
      refine h.setDispatch fun ho => ?_
      rw [hd] at ho
      exact mem_cons.mp ho
    case isFalse hs =>
      cases ht
      by_cases hx : r = x
      · subst hx
        exact h.pass hs
      · refine h.setDispatch fun ho => ?_
        rw [hd] at ho
        exact (mem_cons.mp ho).resolve_left hx
  case h_6 x rest hd =>
    cases ht
    by_cases hx : r = x
    · subst hx
      exact h.flag
    · refine h.congr (update_of_ne hx ..) rfl rfl (owes_setDispatch fun ho => ?_)
      rw [hd] at ho
      exact ho.resolve_left hx

theorem proceed_filling (h : ∀ v, Filling net (s.dispatch v)) (ht : s.proceed net u = some t) (v : θ) :
    Filling net (t.dispatch v) := by
  have hu := h u
  unfold State.proceed at ht
  split at ht
  case h_1 => cases ht
  case h_3 x rest hd =>
    obtain ⟨b,_,rfl⟩ := map_eq_some_iff.mp ht
    rw [hd] at hu
    refine filling_setDispatch (s := s.setBuffer x b) h ?_ v
    intro r hr
    apply hu r
    rcases hr with hr | hr
    · rcases mem_cons.mp hr with rfl | hr
      · exact .inr mem_cons_self
      · exact .inl hr
    · exact .inr (mem_cons_of_mem x hr)
  case h_5 x rest hd =>
    split at ht
    all_goals
      cases ht
      refine filling_setDispatch h ?_ v
      trivial
  case h_6 x rest hd =>
    cases ht
    refine filling_setDispatch (s := s.setRoutine x _) h ?_ v
    trivial
  case h_2 | h_4 =>
    cases ht
    refine filling_setDispatch h ?_ v
    trivial

theorem Inv.step {e : Event ρ θ κ α} (h : Inv net size s) (he : s.step net e = some t) : Inv net size t := by
  cases e with
  | advance x =>
    obtain ⟨y,hy,rfl⟩ := map_eq_some_iff.mp he
    refine ⟨fun r => ?_,h.filling⟩
    by_cases hr : r = x
    · subst hr
      exact (h.kept r).advance hy (update_self ..) rfl rfl rfl
    · exact (h.kept r).congr (update_of_ne hr ..) rfl rfl fun _ => id
  | run x =>
    obtain ⟨hd,hother⟩ := run_frame he
    refine ⟨fun r => ?_,hd ▸ h.filling⟩
    by_cases hr : r = x
    · subst hr
      exact (h.kept r).run he
    · obtain ⟨hrt,hpc,hb⟩ := hother r hr
      refine (h.kept r).congr hrt hpc hb fun u _ => ?_
      rwa [hd]
  | dispatch =>
    rw [State.step] at he
    split at he
    case h_1 hd =>
      cases he
      refine ⟨fun r => (h.kept r).setDispatch fun ho => ?_,filling_setDispatch h.filling fun r hr => ?_⟩
      · rw [hd] at ho
        cases ho
      · exact hr.resolve_left not_mem_nil
    case h_2 => cases he
  | proceed u =>
    exact ⟨fun r => (h.kept r).proceed (h.filling u) he,proceed_filling h.filling he⟩

theorem reachable_inv (h : (system θ α net size).Reachable s) : Inv net size s := by
  apply h.invariant
  · rintro s ⟨hr,hd⟩
    refine ⟨fun r => ?_,fun _ => ?_⟩
    · obtain ⟨hroutine,hpc,hb⟩ := hr r
      refine ⟨hb,?_,fun _ _ => ?_⟩
      · rw [hpc]
        trivial
      · rw [hroutine,hpc]
        exact due_of_state nofun nofun
    · rw [hd]
      trivial
  · intro _ _ _ hi he
    exact hi.step he

/-- A routine that is parked in `DATA_WAIT` while no update is pending and no notification for it is in
flight has no message to fetch: it has got the newest one, if there was any. -/
theorem parked_has_fetched (h : (system θ α net size).Reachable s)
    (hp : (s.routine r).Parked .dataWait) (hn : ∀ u, ¬ (s.dispatch u).Owes r) :
    ¬ Unfetched (s.buffer r) ∧ ((s.buffer r).fills.length+1 < 2^64 →
      (s.buffer r).fills = [] ∨ (s.buffer r).last () = some (s.buffer r).fills.length) := by
  have hk := (reachable_inv h).kept r
  have hu : ¬ Unfetched (s.buffer r) := fun hu => (hk.due hu hn).1 hp
  refine ⟨hu,fun hlen => ?_⟩
  obtain ⟨hst,hfol⟩ := ChannelBuffer.reachable_stored hk.reachable
  rcases ChannelBuffer.fetch_spec (hst (by omega)) hlen (hfol hlen ()) with ⟨hnone,_⟩ | ⟨p,m,_,_,_,_,_,hfetch⟩
  · exact (ChannelBuffer.nextPosition_eq_none hnone).imp_left eq_nil_of_length_eq_zero
  · exact absurd ⟨p,m,hfetch⟩ hu

def single : Channels Unit Unit := ⟨fun _ => [()],fun _ => [()],fun _ _ h => h⟩

/-- A message comes while the routine waits, and the routine waits again. -/
theorem parked_has_fetched_again : ∃ s : State Unit Unit Unit Nat, (s.buffer ()).fills = [7] ∧
    (s.routine ()).Parked .dataWait ∧ ¬ Unfetched (s.buffer ()) := by
  -- from the release of the routine to its next wait
  let release : Event Unit Unit Unit Nat := .advance () false
  let turn := List.replicate 3 release
  let run : Event Unit Unit Unit Nat := .run () none
  let pass := List.replicate 3 run ++ [release]
  obtain ⟨s,hs,hp⟩ := System.reachable_of_exec (system Unit Nat single fun _ => 1)
    (turn ++ pass ++ [Event.dispatch () () 7] ++ List.replicate 5 (Event.proceed ()) ++ turn ++ [release] ++
      List.replicate 4 run ++ [release] ++ turn ++ pass)
    (fun s => (s.buffer ()).fills = [7] ∧ (s.routine ()).Parked .dataWait ∧ s.dispatch () = .idle)
    (s := ⟨fun _ => {},fun _ => .top,fun _ => init 1 fun _ => 0,fun _ => .idle⟩)
    ⟨fun _ => ⟨rfl,rfl,.start ⟨_,rfl⟩⟩,fun _ => rfl⟩ (by decide +kernel)
  obtain ⟨hf,hpark,hd⟩ := of_decide_eq_true hp
  refine ⟨s,hf,hpark,(parked_has_fetched hs hpark fun _ hu => ?_).1⟩
  rw [hd] at hu
  exact hu

end DataRoutine
end Apollo.Cyber.Croutine
