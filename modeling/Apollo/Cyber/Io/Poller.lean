import Apollo.Foundation.Table
import Apollo.Foundation.Transition

/-! `Poller`: the table of requests, the control operations that are not applied yet, and the thread that applies them,
waits for the kernel and calls back. `Register` and `Unregister` run under the write lock of both tables; the thread
holds the read lock while a callback runs. The kernel's interest set follows the table of requests, up to the
operations that are still to be applied. -/
namespace Apollo.Cyber.Io
open Foundation

inductive Operation
  | add
  | mod
  | del
  deriving DecidableEq

structure PollRequest (κ : Type) where
  fd : Int32 := -1
  events : UInt32 := 0
  timeoutMs : Int32 := -1
  callback : Option κ := none
  deriving DecidableEq

structure PollCtrlParam where
  operation : Operation
  fd : Int32
  events : UInt32
  deriving DecidableEq

/-- An entry of the kernel's interest set. An event disarms a one-shot entry. -/
structure Interest where
  events : UInt32
  armed : Bool
  deriving DecidableEq

namespace Poller

def epollIn : UInt32 := 0x001

def epollOut : UInt32 := 0x004

def epollOneShot : UInt32 := 0x40000000

def epollEt : UInt32 := 0x80000000

def pollSize : Nat := 32

/-- What `epoll_ctl` leaves of the entry of its fd: `EPOLL_CTL_ADD` fails on an entry, the other
operations fail without one. -/
def epollCtl (param : PollCtrlParam) : Option Interest → Option Interest
  | none => if param.operation = .add then some ⟨param.events,true⟩ else none
  | some entry =>
    match param.operation with
    | .add => some entry
    | .mod => some ⟨param.events,true⟩
    | .del => none

def disarm (entry : Interest) : Interest :=
  { entry with armed := entry.armed && entry.events &&& epollOneShot = 0 }

/-- Where the thread stands in its loop: before `HandleChanges`, in it with the operations that it
took and has not applied yet, in `Poll` with the responses that it has not handed over yet, or in a
callback, before the rest of the responses. -/
inductive Phase (κ : Type)
  | changes
  | applying (params : Table Int32 PollCtrlParam)
  | responding (responses : Table Int32 UInt32)
  | calling (callback : κ) (events : UInt32) (responses : Table Int32 UInt32)

structure State (κ : Type) where
  isShutdown : Bool
  requests : Table Int32 (PollRequest κ)
  ctrlParams : Table Int32 PollCtrlParam
  phase : Phase κ
  kernel : Int32 → Option Interest

/-- `poll` is the return of `epoll_wait` after `interval` milliseconds with the events of `ready`, up
to the list of the responses; `returned` is the end of a callback and `loop` the end of `Poll`. -/
inductive Event (κ : Type)
  | register (req : PollRequest κ)
  | unregister (req : PollRequest κ)
  | shutdown
  | clear
  | handleChanges
  | ctl (fd : Int32)
  | poll (interval : Int32) (ready : List (Int32 × UInt32))
  | respond (fd : Int32)
  | returned
  | loop

variable {κ : Type}

def init (pipe : Int32) (drain : κ) : State κ where
  isShutdown := false
  requests := AList.insert pipe ⟨pipe,epollIn,-1,some drain⟩ ∅
  ctrlParams := AList.insert pipe ⟨.add,pipe,epollIn⟩ ∅
  phase := .changes
  kernel _ := none

namespace State

def reads (s : State κ) : Bool :=
  match s.phase with
  | .calling .. => true
  | _ => false

def register (s : State κ) (req : PollRequest κ) : State κ × Bool :=
  if s.isShutdown ∨ req.fd < 0 ∨ req.callback.isNone then (s, false)
  else
    let operation := if req.fd ∈ s.requests then .mod else .add
    ({ s with
      requests := s.requests.insert req.fd req
      ctrlParams := s.ctrlParams.insert req.fd ⟨operation,req.fd,req.events⟩ }, true)

/-- `Unregister`, with its answer. The events of `EPOLL_CTL_DEL` are not set and not read. -/
def unregister (s : State κ) (req : PollRequest κ) : State κ × Bool :=
  if s.isShutdown ∨ req.fd < 0 ∨ req.callback.isNone ∨ req.fd ∉ s.requests then (s, false)
  else
    ({ s with
      requests := s.requests.erase req.fd
      ctrlParams := s.ctrlParams.insert req.fd ⟨.del,req.fd,0⟩ }, true)

def handleChanges (s : State κ) : State κ := { s with ctrlParams := ∅, phase := .applying s.ctrlParams }

def elapsed (interval timeoutMs : Int32) : Int32 :=
  if 0 < timeoutMs then if timeoutMs - interval < 0 then 0 else timeoutMs - interval else timeoutMs

/-- A request without a pending operation whose time is over. -/
def expires (s : State κ) (interval : Int32) (req : PollRequest κ) : Bool :=
  req.fd ∉ s.ctrlParams && elapsed interval req.timeoutMs = 0

def tick (s : State κ) (interval : Int32) (req : PollRequest κ) : PollRequest κ :=
  if req.fd ∈ s.ctrlParams then req
  else if s.expires interval req then { req with timeoutMs := -1 }
  else { req with timeoutMs := elapsed interval req.timeoutMs }

def responses (s : State κ) (interval : Int32) (ready : List (Int32 × UInt32)) : Table Int32 UInt32 :=
  let expired := s.requests.entries.filter fun entry => s.expires interval entry.2
  ready.foldl (fun table e => table.insert e.1 e.2) (expired.foldl (fun table entry => table.insert entry.1 0) ∅)

/-- What `epoll_wait` may return: events of armed entries. -/
def awaits (s : State κ) (ready : List (Int32 × UInt32)) : Bool :=
  ready.length ≤ pollSize ∧ (ready.map Prod.fst).Nodup ∧ ready.all fun e => (s.kernel e.1).any (·.armed)

def poll (s : State κ) (interval : Int32) (ready : List (Int32 × UInt32)) : State κ :=
  { s with
    requests := s.requests.mapValues fun _ => s.tick interval
    phase := .responding (s.responses interval ready)
    kernel := fun fd =>
      if fd ∈ ready.map Prod.fst then (s.kernel fd).map disarm else s.kernel fd }

def respond (s : State κ) (fd : Int32) (responses : Table Int32 UInt32) : Option (State κ) :=
  (responses.lookup fd).bind fun events =>
    match s.requests.lookup fd with
    | none => some { s with phase := .responding (responses.erase fd) }
    | some req => req.callback.map fun callback => { s with
        requests := s.requests.insert fd { req with timeoutMs := -1 }
        phase := .calling callback events (responses.erase fd) }

def step (s : State κ) : Event κ → Option (State κ)
  | .register req => if s.reads then none else some (s.register req).1
  | .unregister req => if s.reads then none else some (s.unregister req).1
  | .shutdown => some { s with isShutdown := true }
  | .clear =>
    -- the thread has left its loop, and the epoll instance is closed
    match s.phase, s.isShutdown with
    | .changes, true => some { s with requests := ∅, ctrlParams := ∅, kernel := fun _ => none }
    | _, _ => none
  | .handleChanges =>
    match s.phase, s.isShutdown with
    | .changes, false => some s.handleChanges
    | _, _ => none
  | .ctl fd =>
    match s.phase with
    | .applying params => (params.lookup fd).map fun param => { s with
        phase := .applying (params.erase fd)
        kernel := Function.update s.kernel param.fd (epollCtl param (s.kernel param.fd)) }
    | _ => none
  | .poll interval ready =>
    match s.phase with
    | .applying params =>
      if params.entries = [] ∧ 0 < interval ∧ s.awaits ready then some (s.poll interval ready) else none
    | _ => none
  | .respond fd =>
    match s.phase with
    | .responding responses => s.respond fd responses
    | _ => none
  | .returned =>
    match s.phase with
    | .calling _ _ responses => some { s with phase := .responding responses }
    | _ => none
  | .loop =>
    match s.phase with
    | .responding responses => if responses.entries = [] then some { s with phase := .changes } else none
    | _ => none

end State

def system (κ : Type) (pipe : Int32) (drain : κ) : System (State κ) (Event κ) where
  initial s := s = init pipe drain
  step := State.step

open Option Function State Table AList
variable {κ : Type} {s t : State κ} {req : PollRequest κ} {fd : Int32} {pipe : Int32} {drain : κ}

def settle (param : Option PollCtrlParam) (entry : Option Interest) : Option Interest :=
  param.elim entry fun param => epollCtl param entry

variable {entry entry' : Option Interest} {events : UInt32} {param : PollCtrlParam}
  {params : Table Int32 PollCtrlParam}

theorem settle_congr {param : Option PollCtrlParam} (h : entry.map (·.events) = entry'.map (·.events)) :
    (settle param entry).map (·.events) = (settle param entry').map (·.events) := by
  cases param with
  | none => exact h
  | some param =>
    cases entry with
    | none =>
      cases entry' with
      | none => rfl
      | some => cases h
    | some =>
      cases entry' with
      | none => cases h
      | some =>
        obtain ⟨operation,_,_⟩ := param
        cases operation with
        | add => exact h
        | mod | del => rfl

theorem settle_add (h : entry = none) : settle (some ⟨.add,fd,events⟩) entry = some ⟨events,true⟩ := by
  subst h
  rfl

theorem settle_mod (h : entry.isSome) : settle (some ⟨.mod,fd,events⟩) entry = some ⟨events,true⟩ := by
  obtain ⟨entry,rfl⟩ := isSome_iff_exists.mp h
  rfl

theorem settle_del (entry : Option Interest) : settle (some ⟨.del,fd,events⟩) entry = none := by
  cases entry with
  | none | some => rfl

namespace State

/-- The operations that the running `HandleChanges` has still to apply. -/
def applying (s : State κ) : Table Int32 PollCtrlParam :=
  match s.phase with
  | .applying params => params
  | _ => ∅

/-- What the kernel has when the running `HandleChanges` ends. -/
def upcoming (s : State κ) (fd : Int32) : Option Interest := settle (s.applying.lookup fd) (s.kernel fd)

/-- An accepted `Register` finds the fd in the table of requests exactly if the kernel has it, the
operations that `HandleChanges` is about to apply included. -/
def InStep (s : State κ) : Event κ → Prop
  | .register req => (s.register req).2 = true → (req.fd ∈ s.requests ↔ (s.upcoming req.fd).isSome)
  | _ => True

instance (s : State κ) (e : Event κ) : Decidable (s.InStep e) :=
  match e with
  | .register _ => inferInstanceAs (Decidable (_ → _))
  | .unregister _ | .shutdown | .clear | .handleChanges | .ctl _ | .poll _ _ | .respond _
  | .returned | .loop => isTrue trivial

end State

structure Inv (s : State κ) : Prop where
  pendingFd : ∀ fd param, s.ctrlParams.lookup fd = some param → param.fd = fd
  applyingFd : ∀ fd param, s.applying.lookup fd = some param → param.fd = fd
  requested : ∀ fd, (settle (s.ctrlParams.lookup fd) (s.upcoming fd)).map (·.events) =
    (s.requests.lookup fd).map (·.events)

theorem Inv.congr (h : Inv s) (hc : t.ctrlParams = s.ctrlParams)
    (ha : ∀ fd, t.applying.lookup fd = s.applying.lookup fd)
    (hk : ∀ fd, (t.kernel fd).map (·.events) = (s.kernel fd).map (·.events))
    (hr : ∀ fd, (t.requests.lookup fd).map (·.events) = (s.requests.lookup fd).map (·.events)) :
    Inv t where
  pendingFd := hc ▸ h.pendingFd
  applyingFd fd param hp := h.applyingFd fd param (ha fd ▸ hp)
  requested fd := by
    rw [hr,← h.requested,hc]
    apply settle_congr
    rw [upcoming,ha]
    exact settle_congr (hk fd)

theorem init_inv : Inv (init pipe drain) where
  pendingFd fd param hp := by
    rw [init,lookup_insert_eq_ite] at hp
    obtain ⟨he,hp⟩ := ite_none_right_eq_some.mp hp
    cases hp
    exact he.symm
  applyingFd fd param hp := by cases hp
  requested fd := by
    rw [init,lookup_insert_eq_ite,lookup_insert_eq_ite]
    split <;> rfl

theorem Inv.record (h : Inv s) (fd : Int32) (hfd : param.fd = fd) (hc : t.ctrlParams = s.ctrlParams.insert fd param)
    (ht : t.phase = s.phase) (hk : t.kernel = s.kernel)
    (hr : ∀ fd', fd' ≠ fd → t.requests.lookup fd' = s.requests.lookup fd')
    (he : (settle (some param) (s.upcoming fd)).map (·.events) = (t.requests.lookup fd).map (·.events)) : Inv t := by
  have ha : t.applying = s.applying := by rw [applying,applying,ht]
  have hu (fd' : Int32) : t.upcoming fd' = s.upcoming fd' := by
    rw [upcoming,upcoming,ha,hk]
  constructor
  · intro fd' param' hp
    rw [hc,lookup_insert_eq_ite] at hp
    split at hp
    case isTrue heq =>
      cases hp
      rw [hfd,heq]
    case isFalse => exact h.pendingFd fd' param' hp
  · rw [ha]
    exact h.applyingFd
  · intro fd'
    rw [hc,lookup_insert_eq_ite,hu]
    by_cases hfd' : fd' = fd
    · subst hfd'
      rw [if_pos rfl,he]
    · rw [if_neg hfd',hr fd' hfd',h.requested]

theorem Inv.register (h : Inv s) (hin : s.InStep (.register req)) : Inv (s.register req).1 := by
  rw [State.InStep] at hin
  by_cases hv : s.isShutdown ∨ req.fd < 0 ∨ req.callback.isNone
  · rw [State.register,if_pos hv]
    exact h
  · rw [State.register,if_neg hv] at hin ⊢
    refine h.record req.fd rfl rfl rfl rfl (fun _ hne => lookup_insert_ne hne) ?_
    have hiff := hin rfl
    rw [lookup_insert]
    split
    case isTrue hreq =>
      rw [settle_mod (hiff.mp hreq)]
      rfl
    case isFalse hreq =>
      rw [settle_add (not_isSome_iff_eq_none.mp (hiff.not.mp hreq))]
      rfl

theorem Inv.unregister (h : Inv s) : Inv (s.unregister req).1 := by
  rw [State.unregister]
  split
  · exact h
  · refine h.record req.fd rfl rfl rfl rfl (fun _ hne => lookup_erase_ne hne) ?_
    rw [settle_del,lookup_erase]
    rfl

theorem Inv.handleChanges (h : Inv s) (hp : s.phase = .changes) : Inv s.handleChanges where
  pendingFd fd param hp := by cases hp
  applyingFd := h.pendingFd
  requested fd := by
    have hu : s.upcoming fd = s.kernel fd := by
      rw [upcoming,applying,hp]
      rfl
    have hr := h.requested fd
    rw [hu] at hr
    exact hr

theorem Inv.ctl (h : Inv s) (hp : s.phase = .applying params) (hl : params.lookup fd = some param) : Inv { s with
      phase := .applying (params.erase fd)
      kernel := update s.kernel param.fd (epollCtl param (s.kernel param.fd)) } := by
  have ha : s.applying = params := by rw [applying,hp]
  obtain rfl := h.applyingFd fd param (ha ▸ hl)
  constructor
  · exact h.pendingFd
  · intro fd' param' hl'
    change (params.erase param.fd).lookup fd' = some param' at hl'
    rw [lookup_erase_eq_ite] at hl'
    split at hl'
    · cases hl'
    · exact h.applyingFd fd' param' (ha ▸ hl')
  · intro fd'
    rw [← h.requested fd']
    apply settle_congr
    change (settle ((params.erase param.fd).lookup fd') (update s.kernel _ _ fd')).map _ = _
    rw [lookup_erase_eq_ite,upcoming,ha]
    by_cases hfd : fd' = param.fd
    · subst hfd
      rw [if_pos rfl,update_self,hl]
      rfl
    · rw [if_neg hfd,update_of_ne hfd]

theorem tick_events (interval : Int32) : (s.tick interval req).events = req.events := by
  rw [tick]
  split
  · rfl
  · split <;> rfl

theorem Inv.poll {interval : Int32} {ready : List (Int32 × UInt32)} (h : Inv s) (hp : s.phase = .applying params)
    (he : params.entries = []) : Inv (s.poll interval ready) := by
  have ha : s.applying = ∅ := by
    rw [applying,hp]
    exact ext he
  refine h.congr rfl (fun _ => by rw [ha]; rfl) (fun fd => ?_) fun fd => ?_
  · rw [State.poll]
    dsimp only
    split
    · cases s.kernel fd with
      | none | some => rfl
    · rfl
  · rw [State.poll,lookup_mapValues,map_map]
    cases s.requests.lookup fd with
    | none => rfl
    | some => exact congrArg some (tick_events interval)

theorem Inv.respond {responses : Table Int32 UInt32} (h : Inv s) (hp : s.phase = .responding responses)
    (ht : s.respond fd responses = some t) : Inv t := by
  have ha : s.applying = ∅ := by rw [applying,hp]
  obtain ⟨_,_,ht⟩ := bind_eq_some_iff.mp ht
  cases hr : s.requests.lookup fd with rw [hr] at ht
  | none =>
    cases ht
    exact h.congr rfl (fun _ => by rw [ha]; rfl) (fun _ => rfl) fun _ => rfl
  | some =>
    obtain ⟨_,_,rfl⟩ := map_eq_some_iff.mp ht
    refine h.congr rfl (fun _ => by rw [ha]; rfl) (fun _ => rfl) fun _ => ?_
    rw [lookup_insert_eq_ite]
    split
    case isTrue he =>
      rw [he,hr]
      rfl
    case isFalse => rfl

theorem Inv.clear (hp : s.phase = .changes) :
    Inv { s with requests := ∅, ctrlParams := ∅, kernel := fun _ => none } := by
  have ha : applying { s with requests := ∅, ctrlParams := ∅, kernel := fun _ => none } = ∅ := by
    rw [applying,hp]
  constructor
  · intro _ _ hl
    cases hl
  · intro _ _ hl
    rw [ha] at hl
    cases hl
  · intro _
    rw [upcoming,ha]
    rfl

theorem Inv.step {e : Event κ} (h : Inv s) (hin : s.InStep e) (he : s.step e = some t) : Inv t := by
  cases e with rw [State.step] at he
  | register =>
    split at he <;> cases he
    exact h.register hin
  | unregister =>
    split at he <;> cases he
    exact h.unregister
  | shutdown =>
    cases he
    exact h.congr rfl (fun _ => rfl) (fun _ => rfl) fun _ => rfl
  | clear =>
    split at he
    case h_1 hp _ =>
      cases he
      exact .clear hp
    case h_2 => cases he
  | handleChanges =>
    split at he
    case h_1 hp _ =>
      cases he
      exact h.handleChanges hp
    case h_2 => cases he
  | ctl =>
    split at he
    case h_1 params hp =>
      obtain ⟨_,hl,rfl⟩ := map_eq_some_iff.mp he
      exact h.ctl hp hl
    case h_2 => cases he
  | poll =>
    split at he
    case h_1 params hp =>
      obtain ⟨hc,he⟩ := ite_none_right_eq_some.mp he
      cases he
      exact h.poll hp hc.1
    case h_2 => cases he
  | respond =>
    split at he
    case h_1 hp => exact h.respond hp he
    case h_2 => cases he
  | returned =>
    split at he
    case h_1 hp =>
      cases he
      have ha : s.applying = ∅ := by rw [applying,hp]
      exact h.congr rfl (fun _ => by rw [ha]; rfl) (fun _ => rfl) fun _ => rfl
    case h_2 => cases he
  | loop =>
    split at he
    case h_1 hp =>
      split at he <;> cases he
      have ha : s.applying = ∅ := by rw [applying,hp]
      exact h.congr rfl (fun _ => by rw [ha]; rfl) (fun _ => rfl) fun _ => rfl
    case h_2 => cases he

theorem inStep_inv (h : (system κ pipe drain).ReachableWhile State.InStep s) : Inv s := by
  apply h.invariant
  · rintro _ rfl
    exact init_inv
  · intro _ _ _ hs hin he
    exact hs.step hin he

def State.Handled (s : State κ) : Prop := s.applying.entries = []

instance : Decidable s.Handled := inferInstanceAs (Decidable (_ = _))

/-- When `HandleChanges` has returned, the kernel has exactly the requested events of every fd that no
later call has changed, in every run whose registrations are in step with the kernel. -/
theorem interest_is_requested (h : (system κ pipe drain).ReachableWhile State.InStep s)
    (hh : s.Handled) (fd : Int32) (hn : s.ctrlParams.lookup fd = none) :
    (s.kernel fd).map (·.events) = (s.requests.lookup fd).map (·.events) := by
  have hr := (inStep_inv h).requested fd
  have ha : s.applying = ∅ := ext hh
  rw [hn,upcoming,ha] at hr
  exact hr

/-- A registration is applied before the next one of its fd. -/
theorem interest_is_requested_modified : ∃ s : State Unit, s.Handled ∧ s.ctrlParams.lookup 5 = none ∧
    (s.requests.lookup 5).map (·.events) = some epollOut ∧
    (s.kernel 5).map (·.events) = (s.requests.lookup 5).map (·.events) := by
  obtain ⟨s,hs,hp⟩ := System.reachableWhile_of_exec (system Unit 3 ()) State.InStep
    [.register ⟨5,epollIn,-1,some ()⟩,.handleChanges,.ctl 3,.ctl 5,.poll 1 [(3, epollIn)],
      .respond 3,.returned,.loop,.register ⟨5,epollOut,-1,some ()⟩,.handleChanges,.ctl 5]
    (fun s => s.Handled ∧ s.ctrlParams.lookup 5 = none ∧
      (s.requests.lookup 5).map (·.events) = some epollOut) rfl (by decide)
  obtain ⟨hh,hn,hr⟩ := of_decide_eq_true hp
  exact ⟨s,hh,hn,hr,interest_is_requested hs hh 5 hn⟩

/-- A second registration before `HandleChanges` overwrites `EPOLL_CTL_ADD` by `EPOLL_CTL_MOD`. -/
theorem addition_overwritten : ∃ s : State Unit, (system Unit 3 ()).Reachable s ∧ s.Handled ∧
    s.ctrlParams.lookup 5 = none ∧ (s.requests.lookup 5).map (·.events) = some epollOut ∧
    s.kernel 5 = none := by
  obtain ⟨s,hs,hp⟩ := System.reachable_of_exec (system Unit 3 ())
    [.register ⟨5,epollIn,-1,some ()⟩,.register ⟨5,epollOut,-1,some ()⟩,.handleChanges,.ctl 3,.ctl 5]
    (fun s => s.Handled ∧ s.ctrlParams.lookup 5 = none ∧
      (s.requests.lookup 5).map (·.events) = some epollOut ∧ s.kernel 5 = none) rfl (by decide)
  exact ⟨s,hs,of_decide_eq_true hp⟩

end Poller
end Apollo.Cyber.Io
