import Apollo.Foundation.Transition

/-! The schedulers with their contexts and processors, for both policies. One event is one access to shared data. What one
step of the scheduler does to the routines that processors hold, to the locks and to the run queues. -/
namespace Apollo.Cyber.Scheduler
open Foundation Function

inductive RoutineState
  | ready
  | finished
  | sleep
  | ioWait
  | dataWait
  deriving DecidableEq

/-- `updated` is set while no update is pending: `SetUpdateFlag` clears it. -/
structure CRoutine where
  id : UInt64
  name : String
  priority : UInt32 := 0
  groupName : String := ""
  processorId : Int32 := -1
  state : RoutineState := .ready
  lock : Bool := false
  updated : Bool := true
  forceStop : Bool := false

def maxPrio : UInt32 := 20

def defaultGroupName : String := "default_grp"

structure SchedGroup where
  name : String
  processorNum : UInt32
  tasks : List (String × UInt32)

structure ChoreographyTask where
  prio : UInt32
  processor : Option Int32

/-- What is left of the configuration files in the two schedulers. -/
inductive Conf
  | classic (groups : List SchedGroup)
  | choreography (procNum taskPoolSize : UInt32) (tasks : List (String × ChoreographyTask))

inductive Context
  | classic (groupName : String)
  | choreography
  deriving DecidableEq

/-- The run queue of a group and a priority, or that of one choreography context. -/
inductive QueueId
  | group (name : String) (prio : UInt32)
  | own (pid : Nat)
  deriving DecidableEq

namespace Conf

def contexts : Conf → List Context
  | classic groups => groups.flatMap fun g => List.replicate g.processorNum.toNat (.classic g.name)
  | choreography procNum taskPoolSize _ =>
    List.replicate procNum.toNat .choreography ++ List.replicate taskPoolSize.toNat (.classic defaultGroupName)

/-- The run queues that `NextRoutine` of a context looks through, in this order. -/
def queues (conf : Conf) (p : Nat) : List QueueId :=
  match conf.contexts[p]? with
  | some (.classic name) =>
    (List.range maxPrio.toNat).reverse.map fun i => .group name (UInt32.ofNat i)
  | some .choreography => [.own p]
  | none => []

/-- `cr_confs_` of the classic scheduler: the last entry of a name counts. -/
def classicTask (groups : List SchedGroup) (name : String) : Option (UInt32 × String) :=
  (groups.flatMap fun g => g.tasks.map fun task => (task.1, task.2, g.name)).reverse.lookup name

def choreographyTask (tasks : List (String × ChoreographyTask)) (name : String) :
    Option ChoreographyTask := tasks.reverse.lookup name

def clampPriority (cr : CRoutine) : CRoutine :=
  if cr.priority ≥ maxPrio then { cr with priority := maxPrio - 1 } else cr

/-- The scheduling attributes that `DispatchTask` takes from the configuration. There is no first
group to fall back to in an empty one. -/
def assign (conf : Conf) (cr : CRoutine) : Option CRoutine :=
  match conf with
  | classic groups =>
    match classicTask groups cr.name with
    | some (prio, name) => some (clampPriority { cr with priority := prio, groupName := name })
    | none => groups.head?.map fun g => clampPriority { cr with groupName := g.name }
  | choreography _ _ tasks =>
    match choreographyTask tasks cr.name with
    | some task =>
      some { cr with priority := task.prio, processorId := task.processor.getD cr.processorId }
    | none => some cr

def place (conf : Conf) (cr : CRoutine) : CRoutine × QueueId :=
  match conf with
  | classic _ => (cr, .group cr.groupName cr.priority)
  | choreography procNum _ _ =>
    if cr.processorId.toUInt32 < procNum then (cr, .own cr.processorId.toUInt32.toNat)
    else
      let cr := { clampPriority cr with groupName := defaultGroupName }
      (cr, .group defaultGroupName cr.priority)

/-- The choreography context at an index of `pctxs_`. Behind them are classic ones, and an `int` below
zero is beyond the table. -/
def contextAt (procNum : UInt32) (pid : Int32) : Option Nat :=
  if 0 ≤ pid ∧ pid.toUInt32 < procNum then some pid.toUInt32.toNat else none

/-- The run queue that `RemoveCRoutine` looks into. A priority beyond the array raises an exception
and a processor that has no choreography context is undefined. -/
def removeFrom (conf : Conf) (cr : CRoutine) : Option QueueId :=
  let pool := if cr.priority < maxPrio then some (QueueId.group cr.groupName cr.priority) else none
  match conf with
  | classic _ => pool
  | choreography procNum _ _ =>
    if cr.processorId = -1 then pool else (contextAt procNum cr.processorId).map .own

end Conf

/-- Whom a notification is for: the waiting contexts of a group, or one choreography context. -/
inductive Target
  | group (name : String)
  | own (pid : Nat)
  deriving DecidableEq

def Conf.notifyTarget (conf : Conf) (cr : CRoutine) : Option Target :=
  match conf with
  | classic _ => some (.group cr.groupName)
  | choreography procNum _ _ =>
    if cr.processorId = -1 then some (.group cr.groupName)
    else (contextAt procNum cr.processorId).map .own

/-- Whether the processor waits for the notifications of the target. -/
def Conf.listens (conf : Conf) (p : Nat) : Target → Bool
  | .group name => conf.contexts[p]? = some (.classic name)
  | .own pid => p = pid

/-- Where a processor stands. From `scan` to `chosen` it is inside `NextRoutine`, in its queue number
`i` at position `pos`, and holds the read lock of this queue. -/
inductive Phase (ρ : Type)
  | top
  | enter (i : Nat)
  | scan (i pos : Nat)
  | acquired (i pos : Nat) (r : ρ)
  | notReady (i pos : Nat) (r : ρ)
  | waking (i pos : Nat) (r : ρ)
  | chosen (i pos : Nat) (r : ρ)
  | picked (r : ρ)
  | swapping (r : ρ)
  | running (r : ρ)
  | resumed (r : ρ)
  | null
  | blocked
  deriving DecidableEq

/-- Where a thread stands: in `DispatchTask`, in `RemoveCRoutine` or in `NotifyProcessor`. -/
inductive Op (ρ : Type)
  | idle
  | locked (r : ρ)
  | inserted (r : ρ)
  | assigned (r : ρ)
  | enqueued (r : ρ)
  | removing (crid : UInt64)
  | erasing (crid : UInt64) (queue : QueueId)
  | found (r : ρ)
  | flagging (r : ρ)
  | notifying (r : ρ)
  deriving DecidableEq

/-- `idMutex` are the mutexes of `id_map_mutex_`, `idReaders` counts the read locks of `id_cr_lock_`.
An entry of a queue has the priority under which it was put there. -/
structure State (ρ θ : Type) where
  routine : ρ → CRoutine
  idCr : UInt64 → Option ρ
  idMutex : UInt64 → Option θ
  idReaders : Nat
  queue : QueueId → List (UInt32 × ρ)
  phase : Nat → Phase ρ
  notified : Nat → Bool
  op : θ → Op ρ

/-- The next operation of a processor (`expired`: the wake time of a sleeping routine has passed), a write of the
running routine to its state, the end of a wait, the three calls, and the next operation of a call (with the processor
that it wakes). -/
inductive Event (ρ θ : Type)
  | advance (p : Nat) (expired : Bool)
  | setState (p : Nat) (state : RoutineState)
  | expire (p : Nat)
  | dispatchTask (t : θ) (r : ρ)
  | removeCRoutine (t : θ) (crid : UInt64)
  | notifyProcessor (t : θ) (crid : UInt64)
  | proceed (t : θ) (woken : Option Nat)

variable {ρ θ : Type} [DecidableEq ρ] [DecidableEq θ]

def Phase.held : Phase ρ → Option ρ
  | acquired _ _ r | notReady _ _ r | waking _ _ r | chosen _ _ r => some r
  | picked r | swapping r | running r | resumed r => some r
  | _ => none

/-- The routine that the processor resumes: `Resume` has passed its tests and not returned. -/
def Phase.executes : Phase ρ → Option ρ
  | swapping r | running r => some r
  | _ => none

/-- The number of the queue whose read lock the processor holds. -/
def Phase.reads : Phase ρ → Option Nat
  | scan i _ | acquired i _ _ | notReady i _ _ | waking i _ _ | chosen i _ _ => some i
  | _ => none

namespace State

def setPhase (s : State ρ θ) (p : Nat) (phase : Phase ρ) : State ρ θ :=
  { s with phase := update s.phase p phase }

def setRoutine (s : State ρ θ) (r : ρ) (cr : CRoutine) : State ρ θ :=
  { s with routine := update s.routine r cr }

def setOp (s : State ρ θ) (t : θ) (op : Op ρ) : State ρ θ :=
  { s with op := update s.op t op }

def setQueue (s : State ρ θ) (queue : QueueId) (entries : List (UInt32 × ρ)) : State ρ θ :=
  { s with queue := update s.queue queue entries }

def setIdCr (s : State ρ θ) (crid : UInt64) (r : Option ρ) : State ρ θ :=
  { s with idCr := update s.idCr crid r }

/-- `UpdateState` up to its test of the flag. -/
def updateState (s : State ρ θ) (p i pos : Nat) (r : ρ) (expired : Bool) : State ρ θ :=
  let cr := s.routine r
  if cr.state = .sleep ∧ expired then
    (s.setRoutine r { cr with state := .ready }).setPhase p (.chosen i pos r)
  else
    let s := s.setRoutine r { cr with updated := true }
    if !cr.updated && (cr.state = .dataWait || cr.state = .ioWait) then s.setPhase p (.waking i pos r)
    else if cr.state = .ready then s.setPhase p (.chosen i pos r)
    else s.setPhase p (.notReady i pos r)

def resume (s : State ρ θ) (p : Nat) (r : ρ) : State ρ θ :=
  let cr := s.routine r
  if cr.forceStop then (s.setRoutine r { cr with state := .finished }).setPhase p (.resumed r)
  else if cr.state ≠ .ready then s.setPhase p (.resumed r)
  else s.setPhase p (.swapping r)

/-- `Acquire` of the next routine in the queue, or the end of the queue. -/
def scanNext (conf : Conf) (s : State ρ θ) (p i pos : Nat) : Option (State ρ θ) :=
  (conf.queues p)[i]?.map fun queue =>
    match (s.queue queue)[pos]? with
    | some (_, r) =>
      if (s.routine r).lock then s.setPhase p (.scan i (pos+1))
      else (s.setRoutine r { s.routine r with lock := true }).setPhase p (.acquired i pos r)
    | none =>
      match queue with
      | .group _ _ => s.setPhase p (.enter (i+1))
      | .own _ => { s with notified := update s.notified p false }.setPhase p (.enter (i+1))

def release (s : State ρ θ) (r : ρ) : State ρ θ := s.setRoutine r { s.routine r with lock := false }

def advance (conf : Conf) (s : State ρ θ) (p : Nat) (expired : Bool) : Option (State ρ θ) :=
  match s.phase p with
  | .top => some (s.setPhase p (.enter 0))
  | .enter i => some (s.setPhase p (if i < (conf.queues p).length then .scan i 0 else .null))
  | .scan i pos => s.scanNext conf p i pos
  | .acquired i pos r => some (s.updateState p i pos r expired)
  | .notReady i pos r => some ((s.release r).setPhase p (.scan i (pos+1)))
  | .waking i pos r =>
    some ((s.setRoutine r { s.routine r with state := .ready }).setPhase p (.chosen i pos r))
  | .chosen _ _ r => some (s.setPhase p (.picked r))
  | .picked r => some (s.resume p r)
  | .swapping r => some (s.setPhase p (.running r))
  | .running r => some (s.setPhase p (.resumed r))
  | .resumed r => some ((s.release r).setPhase p .top)
  | .null => some (s.setPhase p .blocked)
  | .blocked => none

def unread (conf : Conf) (s : State ρ θ) (queue : QueueId) : Bool :=
  (List.range conf.contexts.length).all fun p =>
    (s.phase p).reads.all fun i => (conf.queues p)[i]? ≠ some queue

/-- `notify_one`: one of the waiting processors, if there are any. -/
def notifyOne (conf : Conf) (s : State ρ θ) (target : Target) (woken : Option Nat) : Option (State ρ θ) :=
  match woken with
  | some p =>
    if p < conf.contexts.length ∧ s.phase p = .blocked ∧ conf.listens p target then
      some (s.setPhase p .top)
    else none
  | none =>
    if (List.range conf.contexts.length).all fun p =>
      s.phase p ≠ .blocked || !conf.listens p target then some s
    else none

/-- `Notify` of the contexts: a choreography context is notified once until its queue is empty. -/
def notify (conf : Conf) (s : State ρ θ) (target : Target) (woken : Option Nat) : Option (State ρ θ) :=
  match target with
  | .group _ => s.notifyOne conf target woken
  | .own pid =>
    if s.notified pid then if woken = none then some s else none
    else { s with notified := update s.notified pid true }.notifyOne conf target woken

def unlock (s : State ρ θ) (t : θ) (crid : UInt64) : State ρ θ :=
  { s with idMutex := update s.idMutex crid none }.setOp t .idle

/-- The entry of `id_cr_`, unless the id has one. -/
def insert (s : State ρ θ) (t : θ) (r : ρ) : Option (State ρ θ) :=
  let crid := (s.routine r).id
  if s.idReaders = 0 then
    if (s.idCr crid).isSome then some (s.unlock t crid)
    else some ((s.setIdCr crid (some r)).setOp t (.inserted r))
  else none

def assign (conf : Conf) (s : State ρ θ) (t : θ) (r : ρ) : Option (State ρ θ) :=
  (conf.assign (s.routine r)).map fun cr => (s.setRoutine r cr).setOp t (.assigned r)

/-- The queues of the groups are vectors, those of the choreography contexts are ordered by
decreasing priority. -/
def enqueue (conf : Conf) (s : State ρ θ) (r : ρ) : Option (State ρ θ) :=
  let placed := conf.place (s.routine r)
  let entries := s.queue placed.2
  let entry := (placed.1.priority, r)
  if s.unread conf placed.2 then
    match placed.2 with
    | .group _ _ => some ((s.setRoutine r placed.1).setQueue placed.2 (entries ++ [entry]))
    | .own _ =>
      some ((s.setRoutine r placed.1).setQueue placed.2 (entries.takeWhile (fun e => entry.1 ≤ e.1) ++ entry ::
          entries.dropWhile (fun e => entry.1 ≤ e.1)))
  else none

/-- The entry of `id_cr_` goes and its routine is stopped. -/
def lookupRemoved (conf : Conf) (s : State ρ θ) (t : θ) (crid : UInt64) : Option (State ρ θ) :=
  if s.idReaders = 0 then
    match s.idCr crid with
    | none => some (s.unlock t crid)
    | some r => (conf.removeFrom (s.routine r)).map fun queue =>
      ((s.setRoutine r { s.routine r with forceStop := true }).setIdCr crid none).setOp t (.erasing crid queue)
  else none

/-- The first routine of the queue with the id is stopped, taken out and released. -/
def erase (conf : Conf) (s : State ρ θ) (t : θ) (crid : UInt64) (queue : QueueId) : Option (State ρ θ) :=
  let matched := fun entry : UInt32 × ρ => (s.routine entry.2).id == crid
  if s.unread conf queue then
    match (s.queue queue).find? matched with
    | some entry =>
      some (((s.setRoutine entry.2 { s.routine entry.2 with forceStop := true, lock := false }).setQueue
        queue ((s.queue queue).eraseP matched)).unlock t crid)
    | none => some (s.unlock t crid)
  else none

/-- The end of the read lock of `id_cr_lock_` in `NotifyProcessor`: before the notification in the
choreography scheduler, after it in the classic one. -/
def leaveTable (conf : Conf) (s : State ρ θ) (before : Bool) : State ρ θ :=
  match conf, before with
  | .choreography .., true | .classic _, false => { s with idReaders := s.idReaders - 1 }
  | _, _ => s

/-- The next operation of a call. The classic scheduler inserts, assigns, enqueues and notifies; the
choreography scheduler assigns, inserts and enqueues. -/
def proceed (conf : Conf) (s : State ρ θ) (t : θ) (woken : Option Nat) : Option (State ρ θ) :=
  match s.op t with
  | .idle => none
  | .locked r =>
    match conf with
    | .classic _ => s.insert t r
    | .choreography .. => s.assign conf t r
  | .inserted r =>
    match conf with
    | .classic _ => s.assign conf t r
    | .choreography .. => (s.enqueue conf r).map (·.unlock t (s.routine r).id)
  | .assigned r =>
    match conf with
    | .classic _ => (s.enqueue conf r).map (·.setOp t (.enqueued r))
    | .choreography .. => s.insert t r
  | .enqueued r =>
    (conf.notifyTarget (s.routine r)).bind fun target =>
      (s.notify conf target woken).map (·.unlock t (s.routine r).id)
  | .removing crid => s.lookupRemoved conf t crid
  | .erasing crid queue => s.erase conf t crid queue
  | .found r =>
    if (s.routine r).state = .dataWait then some (s.setOp t (.flagging r))
    else some ((s.leaveTable conf true).setOp t (.notifying r))
  | .flagging r =>
    some (((s.setRoutine r { s.routine r with updated := false }).leaveTable conf true).setOp t (.notifying r))
  | .notifying r =>
    (conf.notifyTarget (s.routine r)).bind fun target =>
      (s.notify conf target woken).map fun s => (s.leaveTable conf false).setOp t .idle

def step (conf : Conf) (s : State ρ θ) : Event ρ θ → Option (State ρ θ)
  | .advance p expired => if p < conf.contexts.length then s.advance conf p expired else none
  | .setState p state =>
    match s.phase p with
    | .running r => some (s.setRoutine r { s.routine r with state })
    | _ => none
  | .expire p => if s.phase p = .blocked then some (s.setPhase p .top) else none
  | .dispatchTask t r =>
    let crid := (s.routine r).id
    if s.op t = .idle ∧ s.idMutex crid = none then
      some ({ s with idMutex := update s.idMutex crid (some t) }.setOp t (.locked r))
    else none
  | .removeCRoutine t crid =>
    if s.op t = .idle ∧ s.idMutex crid = none then
      some ({ s with idMutex := update s.idMutex crid (some t) }.setOp t (.removing crid))
    else none
  | .notifyProcessor t crid =>
    if s.op t = .idle then
      match s.idCr crid with
      | some r => some ({ s with idReaders := s.idReaders+1 }.setOp t (.found r))
      | none => some s
    else none
  | .proceed t woken => s.proceed conf t woken

end State

def system (conf : Conf) (ρ θ : Type) [DecidableEq ρ] [DecidableEq θ] : System (State ρ θ) (Event ρ θ) where
  initial s := ∃ routine : ρ → CRoutine, (∀ r, (routine r).state = .ready ∧ (routine r).lock = false ∧
      (routine r).updated ∧ (routine r).forceStop = false) ∧
    s = ⟨routine,fun _ => none,fun _ => none,0,fun _ => [],fun _ => .top,fun _ => false,
      fun _ => .idle⟩
  step s e := s.step conf e

namespace State
open List Option
variable {ρ θ : Type} {s t : State ρ θ} {p : Nat} {r : ρ} {queue : QueueId}

def held (s : State ρ θ) (p : Nat) : Option ρ := (s.phase p).held

def executes (s : State ρ θ) (p : Nat) : Option ρ := (s.phase p).executes

def locks (s : State ρ θ) (r : ρ) : Bool := (s.routine r).lock

def stops (s : State ρ θ) (r : ρ) : Bool := (s.routine r).forceStop

def Enqueued (s : State ρ θ) (queue : QueueId) (r : ρ) : Prop := ∃ entry ∈ s.queue queue, entry.2 = r

/-- The routine that the next operation of the call takes out of its run queue. -/
def taken (s : State ρ θ) (u : θ) : Option ρ :=
  match s.op u with
  | .erasing crid queue =>
    ((s.queue queue).find? fun entry => (s.routine entry.2).id == crid).map Prod.snd
  | _ => none

variable {ph : Phase ρ} {cr cr' : CRoutine} {target : Target}

@[simp] theorem held_setPhase : (s.setPhase p ph).held = update s.held p ph.held := by
  funext q
  by_cases hq : q = p
  · subst hq
    simp [held,setPhase]
  · simp [held,setPhase,hq]

theorem held_setPhase_eq (h : ph.held = s.held p) : (s.setPhase p ph).held = s.held := by
  rw [held_setPhase,h,update_eq_self]

theorem executes_setPhase (h : ∀ r, ph.executes = some r →
      s.executes p = some r ∨ s.held p = some r ∧ s.stops r = false) (q : Nat) (r : ρ)
    (hq : (s.setPhase p ph).executes q = some r) : s.executes q = some r ∨ s.held q = some r ∧ s.stops r = false := by
  by_cases hp : q = p
  · subst hp
    exact h r (by simpa [executes,setPhase] using hq)
  · exact .inl (by simpa [executes,setPhase,hp] using hq)

theorem executes_of_idle (ht : t.phase = update s.phase p ph) (he : ph.executes = none) (q : Nat) (r : ρ)
    (hq : t.executes q = some r) : s.executes q = some r := by
  by_cases hp : q = p
  · subst hp
    simp [executes,ht,he] at hq
  · simpa [executes,ht,hp] using hq

theorem leaveTable_eq (conf : Conf) (s : State ρ θ) (before : Bool) :
    ∃ n, s.leaveTable conf before = { s with idReaders := n } := by
  cases conf <;> cases before <;> exact ⟨_,rfl⟩

variable [DecidableEq ρ]

@[simp] theorem locks_setRoutine : (s.setRoutine r cr).locks = update s.locks r cr.lock := by
  funext x
  by_cases hx : x = r
  · subst hx
    simp [locks,setRoutine]
  · simp [locks,setRoutine,hx]

theorem locks_setRoutine_eq (h : cr.lock = s.locks r) : (s.setRoutine r cr).locks = s.locks := by
  rw [locks_setRoutine,h,update_eq_self]

theorem stops_setRoutine (h : s.stops r → cr.forceStop) (x : ρ) (hx : s.stops x) : (s.setRoutine r cr).stops x := by
  by_cases hr : x = r
  · subst hr
    simpa [stops,setRoutine] using h hx
  · simpa [stops,setRoutine,hr] using hx

inductive Effect (conf : Conf) (s t : State ρ θ) (e : Event ρ θ) : Prop
  | keep : t.held = s.held → t.locks = s.locks →
      (∀ queue r, s.Enqueued queue r → t.Enqueued queue r) → Effect conf s t e
  | acquire (p : Nat) (r : ρ) : s.held p = none → s.locks r = false → (∃ queue ∈ conf.queues p, s.Enqueued queue r) →
      t.held = update s.held p (some r) → t.locks = update s.locks r true →
      t.queue = s.queue → Effect conf s t e
  | release (p : Nat) (r : ρ) : s.held p = some r → t.held = update s.held p none → t.locks = update s.locks r false →
      t.queue = s.queue → Effect conf s t e
  | erase (u : θ) (woken : Option Nat) (r : ρ) : e = .proceed u woken →
      s.taken u = some r → t.held = s.held → t.locks = update s.locks r false → t.stops r →
      (∀ queue x, x ≠ r → s.Enqueued queue x → t.Enqueued queue x) → Effect conf s t e

/-- Along with it, a stopped routine stays stopped and is not resumed any more. -/
structure Change (conf : Conf) (s t : State ρ θ) (e : Event ρ θ) : Prop where
  effect : Effect conf s t e
  stops : ∀ r, s.stops r → t.stops r
  executes : ∀ p r, t.executes p = some r → s.executes p = some r ∨ s.held p = some r ∧ s.stops r = false

variable {conf : Conf} {e : Event ρ θ}

theorem Change.call (hp : t.phase = s.phase) (hl : t.locks = s.locks)
    (hq : ∀ queue r, s.Enqueued queue r → t.Enqueued queue r) (hs : ∀ r, s.stops r → t.stops r) :
    Change conf s t e where
  effect := .keep (by funext p; rw [held,held,hp]) hl hq
  stops := hs
  executes p r h := .inl (by rwa [State.executes,← hp])

theorem Change.move (hp : ph.held = s.held p) (he : ∀ r, ph.executes = some r →
      s.executes p = some r ∨ s.held p = some r ∧ s.stops r = false) : Change conf s (s.setPhase p ph) e where
  effect := .keep (held_setPhase_eq hp) rfl fun _ _ => id
  stops _ := id
  executes := executes_setPhase he

theorem Change.write (hc : cr.lock = s.locks r) (hs : s.stops r → cr.forceStop) (hp : ph.held = s.held p)
    (he : ph.executes = none) : Change conf s ((s.setRoutine r cr).setPhase p ph) e where
  effect := .keep (held_setPhase_eq hp) (locks_setRoutine_eq hc) fun _ _ => id
  stops := stops_setRoutine hs
  executes q x hx := .inl (executes_of_idle rfl he q x hx)

theorem Change.free (hh : s.held p = some r) (hn : ph.held = none) (he : ph.executes = none) :
    Change conf s ((s.release r).setPhase p ph) e where
  effect := .release p r hh (hn ▸ held_setPhase) locks_setRoutine rfl
  stops := stops_setRoutine id
  executes q x hx := .inl (executes_of_idle rfl he q x hx)

theorem advance_change {expired : Bool} (h : s.advance conf p expired = some t) : Change conf s t e := by
  cases hp : s.phase p with rw [advance,hp] at h
  | top =>
    cases h
    exact .move (by rw [held,hp]; rfl) nofun
  | enter =>
    cases h
    split <;> exact .move (by rw [held,hp]; rfl) nofun
  | scan =>
    have hnone : s.held p = none := by rw [held,hp]; rfl
    obtain ⟨queue,hq,rfl⟩ := map_eq_some_iff.mp h
    split
    case h_1 k r hr =>
      split
      case isTrue => exact .move hnone.symm nofun
      case isFalse hl =>
        have hin : s.Enqueued queue r := ⟨(k, r),mem_of_getElem? hr,rfl⟩
        exact ⟨.acquire p r hnone (Bool.eq_false_iff.mpr hl) ⟨queue,mem_of_getElem? hq,hin⟩
          held_setPhase locks_setRoutine rfl,stops_setRoutine id,
          fun q x hx => .inl (executes_of_idle rfl rfl q x hx)⟩
    case h_2 =>
      split
      · exact .move hnone.symm nofun
      · exact ⟨.keep (held_setPhase_eq (s := { s with notified := _ }) hnone.symm) rfl fun _ _ => id,
          fun _ => id,fun q x hx => .inl (executes_of_idle rfl rfl q x hx)⟩
  | acquired _ _ r =>
    cases h
    have hheld : s.held p = some r := by rw [held,hp]; rfl
    rw [updateState]
    split
    case isTrue => exact .write rfl id hheld.symm rfl
    case isFalse =>
      split
      case isTrue => exact .write rfl id hheld.symm rfl
      case isFalse =>
        split <;> exact .write rfl id hheld.symm rfl
  | notReady =>
    cases h
    exact .free (by rw [held,hp]; rfl) rfl rfl
  | waking =>
    cases h
    exact .write rfl id (by rw [held,hp]; rfl) rfl
  | chosen =>
    cases h
    exact .move (by rw [held,hp]; rfl) nofun
  | picked r =>
    cases h
    have hheld : s.held p = some r := by rw [held,hp]; rfl
    rw [resume]
    split
    case isTrue => exact .write rfl id hheld.symm rfl
    case isFalse hstop =>
      split
      · exact .move hheld.symm nofun
      · refine .move hheld.symm fun x hx => .inr ?_
        obtain rfl : r = x := some_inj.mp hx
        exact ⟨hheld,Bool.eq_false_iff.mpr hstop⟩
  | swapping =>
    cases h
    exact .move (by rw [held,hp]; rfl) fun _ hx => .inl (by rw [executes,hp]; exact hx)
  | running =>
    cases h
    exact .move (by rw [held,hp]; rfl) nofun
  | resumed =>
    cases h
    exact .free (by rw [held,hp]; rfl) rfl rfl
  | null =>
    cases h
    exact .move (by rw [held,hp]; rfl) nofun
  | blocked =>
    cases h

theorem Change.congr {t' : State ρ θ} (h : Change conf s t e) (hp : t'.phase = t.phase)
    (hr : t'.routine = t.routine) (hq : t'.queue = t.queue) : Change conf s t' e := by
  cases t
  cases t'
  cases hp
  cases hr
  cases hq
  refine ⟨?_,h.stops,h.executes⟩
  cases h.effect with
  | keep hh hl hin => exact .keep hh hl hin
  | acquire p r hn hf hin hh hl hq => exact .acquire p r hn hf hin hh hl hq
  | release p r hr hh hl hq => exact .release p r hr hh hl hq
  | erase u woken r he ht hh hl hs hin => exact .erase u woken r he ht hh hl hs hin

theorem notifyOne_spec {woken : Option Nat} (h : s.notifyOne conf target woken = some t) :
    t = s ∧ (∀ p < conf.contexts.length, s.phase p = .blocked → ¬ conf.listens p target) ∨
    ∃ p, s.phase p = .blocked ∧ conf.listens p target ∧ t = s.setPhase p .top := by
  cases woken with rw [notifyOne] at h
  | none =>
    obtain ⟨hall,h⟩ := ite_none_right_eq_some.mp h
    cases h
    refine .inl ⟨rfl,fun p hlt hb => ?_⟩
    have := all_eq_true.mp hall p (mem_range.mpr hlt)
    simpa [hb] using this
  | some p =>
    obtain ⟨hp,h⟩ := ite_none_right_eq_some.mp h
    cases h
    exact .inr ⟨p,hp.2.1,hp.2.2,rfl⟩

theorem notify_spec {woken : Option Nat} (h : s.notify conf target woken = some t) :
    t.routine = s.routine ∧ t.queue = s.queue ∧ t.op = s.op ∧
    (t.phase = s.phase ∨ ∃ p, s.phase p = .blocked ∧ t.phase = update s.phase p .top) := by
  cases target with
  | group =>
    rcases notifyOne_spec h with ⟨rfl,_⟩ | ⟨p,hb,_,rfl⟩
    · exact ⟨rfl,rfl,rfl,.inl rfl⟩
    · exact ⟨rfl,rfl,rfl,.inr ⟨p,hb,rfl⟩⟩
  | own =>
    rw [notify] at h
    split at h
    case isTrue =>
      split at h <;> cases h
      exact ⟨rfl,rfl,rfl,.inl rfl⟩
    case isFalse =>
      rcases notifyOne_spec h with ⟨rfl,_⟩ | ⟨p,hb,_,rfl⟩
      · exact ⟨rfl,rfl,rfl,.inl rfl⟩
      · exact ⟨rfl,rfl,rfl,.inr ⟨p,hb,rfl⟩⟩

theorem notify_change {woken : Option Nat} (h : s.notify conf target woken = some t) : Change conf s t e := by
  obtain ⟨hr,hq,_,hp⟩ := notify_spec h
  have hl : t.locks = s.locks := by
    funext x
    rw [locks,locks,hr]
  have hin (queue : QueueId) (r : ρ) (hx : s.Enqueued queue r) : t.Enqueued queue r := by
    rwa [Enqueued,hq]
  have hs (r : ρ) (hx : s.stops r) : t.stops r := by
    rwa [stops,hr]
  rcases hp with hp | ⟨p,hb,hp⟩
  · exact .call hp hl hin hs
  · refine ⟨.keep ?_ hl hin,hs,fun q x hx => .inl (executes_of_idle hp rfl q x hx)⟩
    funext q
    by_cases hqp : q = p
    · subst hqp
      simp [held,hp,hb,Phase.held]
    · simp [held,hp,hqp]

/-- `DispatchTask` writes the scheduling attributes of a routine only. -/
def SameFlags (cr cr' : CRoutine) : Prop :=
  cr'.id = cr.id ∧ cr'.name = cr.name ∧ cr'.state = cr.state ∧ cr'.lock = cr.lock ∧
    cr'.updated = cr.updated ∧ cr'.forceStop = cr.forceStop

theorem clampPriority_flags (cr : CRoutine) : SameFlags cr (Conf.clampPriority cr) := by
  rw [Conf.clampPriority]
  split <;> exact ⟨rfl,rfl,rfl,rfl,rfl,rfl⟩

theorem assign_flags (h : conf.assign cr = some cr') : SameFlags cr cr' := by
  cases conf with rw [Conf.assign] at h
  | classic =>
    split at h
    · cases h
      exact clampPriority_flags { cr with priority := _, groupName := _ }
    · obtain ⟨g,_,rfl⟩ := map_eq_some_iff.mp h
      exact clampPriority_flags { cr with groupName := g.name }
  | choreography =>
    split at h
    all_goals
      cases h
      exact ⟨rfl,rfl,rfl,rfl,rfl,rfl⟩

theorem place_flags (cr : CRoutine) : SameFlags cr (conf.place cr).1 := by
  cases conf with
  | classic => exact ⟨rfl,rfl,rfl,rfl,rfl,rfl⟩
  | choreography =>
    rw [Conf.place]
    split
    · exact ⟨rfl,rfl,rfl,rfl,rfl,rfl⟩
    · exact clampPriority_flags cr

theorem enqueue_spec (h : s.enqueue conf r = some t) :
    ∃ entries, (∀ entry, entry ∈ entries ↔ entry = ((conf.place (s.routine r)).1.priority, r) ∨
        entry ∈ s.queue (conf.place (s.routine r)).2) ∧ s.unread conf (conf.place (s.routine r)).2 ∧
      t = (s.setRoutine r (conf.place (s.routine r)).1).setQueue (conf.place (s.routine r)).2 entries := by
  rw [enqueue] at h
  obtain ⟨hu,h⟩ := ite_none_right_eq_some.mp h
  split at h <;> cases h
  · exact ⟨_,by simp [or_comm],hu,rfl⟩
  · refine ⟨_,fun _ => ?_,hu,rfl⟩
    rw [mem_append,mem_cons,or_left_comm,← mem_append,takeWhile_append_dropWhile]

theorem enqueue_change (h : s.enqueue conf r = some t) : Change conf s t e := by
  obtain ⟨_,hmem,_,rfl⟩ := enqueue_spec h
  have hflags : SameFlags (s.routine r) (conf.place (s.routine r)).1 := place_flags _
  refine .call rfl (locks_setRoutine_eq hflags.2.2.2.1) ?_ (stops_setRoutine fun hx => hflags.2.2.2.2.2.trans hx)
  rintro queue x ⟨entry,he,rfl⟩
  refine ⟨entry,?_,rfl⟩
  by_cases hq : queue = (conf.place (s.routine r)).2
  · subst hq
    simpa [setQueue] using (hmem entry).mpr (.inr he)
  · simpa [setQueue,setRoutine,hq] using he

variable [DecidableEq θ] {u : θ} {woken : Option Nat} {crid : UInt64}

theorem mem_eraseP_of_ne {α : Type} {l : List α} {q : α → Bool} {a b : α}
    (hf : l.find? q = some a) (hb : b ∈ l) (hne : b ≠ a) : b ∈ l.eraseP q := by
  induction l with
  | nil => exact hb
  | cons c _ ih =>
    by_cases hc : q c = true
    · rw [find?_cons_of_pos hc,some_inj] at hf
      rw [eraseP_cons_of_pos hc]
      exact (mem_cons.mp hb).resolve_left (hf ▸ hne)
    · rw [find?_cons_of_neg hc] at hf
      rw [eraseP_cons_of_neg hc,mem_cons]
      exact (mem_cons.mp hb).imp id (ih hf)

theorem erase_spec (h : s.erase conf u crid queue = some t) : s.unread conf queue ∧
    ((∃ entry, (s.queue queue).find? (fun entry => (s.routine entry.2).id == crid) = some entry ∧
      t = ((s.setRoutine entry.2 { s.routine entry.2 with forceStop := true, lock := false }).setQueue
        queue ((s.queue queue).eraseP fun entry => (s.routine entry.2).id == crid)).unlock u crid) ∨
    (s.queue queue).find? (fun entry => (s.routine entry.2).id == crid) = none ∧ t = s.unlock u crid) := by
  rw [erase] at h
  obtain ⟨hu,h⟩ := ite_none_right_eq_some.mp h
  refine ⟨hu,?_⟩
  split at h
  case h_1 entry hf =>
    cases h
    exact .inl ⟨entry,hf,rfl⟩
  case h_2 hf =>
    cases h
    exact .inr ⟨hf,rfl⟩

theorem erase_change (hop : s.op u = .erasing crid queue) (h : s.erase conf u crid queue = some t) :
    Change conf s t (.proceed u woken) := by
  obtain ⟨_,⟨entry,hf,rfl⟩ | ⟨_,rfl⟩⟩ := erase_spec h
  · have htaken : s.taken u = some entry.2 := by
      rw [taken,hop]
      simp [hf]
    refine ⟨.erase u woken entry.2 rfl htaken rfl locks_setRoutine ?_ ?_,
      stops_setRoutine fun _ => rfl,fun _ _ => .inl⟩
    · simp [stops,unlock,setOp,setQueue,setRoutine]
    · rintro q x hx ⟨other,ho,rfl⟩
      refine ⟨other,?_,rfl⟩
      by_cases hq : q = queue
      · subst hq
        have := mem_eraseP_of_ne hf ho fun he => hx (congrArg Prod.snd he)
        simpa [unlock,setOp,setQueue,setRoutine] using this
      · simpa [unlock,setOp,setQueue,setRoutine,hq] using ho
  · exact .call rfl rfl (fun _ _ => id) fun _ => id

theorem insert_change (h : s.insert u r = some t) : Change conf s t e := by
  rw [insert] at h
  obtain ⟨_,h⟩ := ite_none_right_eq_some.mp h
  split at h
  all_goals
    cases h
    exact .call rfl rfl (fun _ _ => id) fun _ => id

theorem assign_change (h : s.assign conf u r = some t) : Change conf s t e := by
  obtain ⟨_,hcr,rfl⟩ := map_eq_some_iff.mp h
  have hflags := assign_flags hcr
  exact .call rfl (locks_setRoutine_eq hflags.2.2.2.1) (fun _ _ => id)
    (stops_setRoutine fun hx => hflags.2.2.2.2.2.trans hx)

theorem lookupRemoved_change (h : s.lookupRemoved conf u crid = some t) : Change conf s t e := by
  rw [lookupRemoved] at h
  obtain ⟨_,h⟩ := ite_none_right_eq_some.mp h
  split at h
  · cases h
    exact .call rfl rfl (fun _ _ => id) fun _ => id
  · obtain ⟨_,_,rfl⟩ := map_eq_some_iff.mp h
    exact .call rfl (locks_setRoutine_eq rfl) (fun _ _ => id) (stops_setRoutine fun _ => rfl)

theorem proceed_change (h : s.proceed conf u woken = some t) : Change conf s t (.proceed u woken) := by
  cases hop : s.op u with rw [proceed,hop] at h
  | idle => cases h
  | locked =>
    cases conf with
    | classic => exact insert_change h
    | choreography => exact assign_change h
  | inserted =>
    cases conf with
    | classic => exact assign_change h
    | choreography =>
      obtain ⟨s',hs,rfl⟩ := map_eq_some_iff.mp h
      exact (enqueue_change hs).congr rfl rfl rfl
  | assigned =>
    cases conf with
    | classic =>
      obtain ⟨s',hs,rfl⟩ := map_eq_some_iff.mp h
      exact (enqueue_change hs).congr rfl rfl rfl
    | choreography => exact insert_change h
  | enqueued =>
    obtain ⟨target,_,h⟩ := bind_eq_some_iff.mp h
    obtain ⟨s',hs,rfl⟩ := map_eq_some_iff.mp h
    exact (notify_change hs).congr rfl rfl rfl
  | removing => exact lookupRemoved_change h
  | erasing => exact erase_change hop h
  | found =>
    dsimp only at h
    split at h <;> cases h
    · exact .call rfl rfl (fun _ _ => id) fun _ => id
    · obtain ⟨n,hn⟩ := leaveTable_eq conf s true
      rw [hn]
      exact .call rfl rfl (fun _ _ => id) fun _ => id
  | flagging r =>
    cases h
    obtain ⟨n,hn⟩ := leaveTable_eq conf (s.setRoutine r { s.routine r with updated := false }) true
    rw [hn]
    exact .call rfl (locks_setRoutine_eq rfl) (fun _ _ => id) (stops_setRoutine id)
  | notifying =>
    obtain ⟨target,_,h⟩ := bind_eq_some_iff.mp h
    obtain ⟨s',hs,rfl⟩ := map_eq_some_iff.mp h
    obtain ⟨n,hn⟩ := leaveTable_eq conf s' false
    rw [hn]
    exact (notify_change hs).congr rfl rfl rfl

theorem step_change (h : s.step conf e = some t) : Change conf s t e := by
  cases e with rw [step] at h
  | advance =>
    split at h
    · exact advance_change h
    · cases h
  | setState =>
    split at h <;> cases h
    exact .call rfl (locks_setRoutine_eq rfl) (fun _ _ => id) (stops_setRoutine id)
  | expire =>
    obtain ⟨hb,h⟩ := ite_none_right_eq_some.mp h
    cases h
    exact .move (by rw [held,hb]; rfl) nofun
  | dispatchTask | removeCRoutine =>
    split at h <;> cases h
    exact .call rfl rfl (fun _ _ => id) fun _ => id
  | notifyProcessor =>
    split at h
    · split at h
      all_goals
        cases h
        exact .call rfl rfl (fun _ _ => id) fun _ => id
    · cases h
  | proceed => exact proceed_change h

end State
end Apollo.Cyber.Scheduler
