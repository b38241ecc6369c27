import Apollo.Foundation.Transition
import Mathlib.Algebra.Order.Ring.Int

/-! `AsyncLogger`: callers that write, flush and stop, and the thread that swaps the two buffers and hands the messages to
the file objects of their modules. What runs under `mutex_` is one event. A wait on a condition variable may end at
any time. A call of `Flush` waits for two rounds, since the first may have begun before the call. The accepted messages
go to the file objects of their modules, in order; the wrapped logger is only asked for its size. -/
namespace Apollo.Cyber.Logger
open Foundation

abbrev Module := List Char

structure Msg where
  ts : Int64
  message : List Char
  level : Int32
  deriving DecidableEq

inductive Call
  | write (name : Module) (shouldFlush : Bool) (ts : Int64) (text : List Char)
  | flush (name : Module)
  deriving DecidableEq

/-- The calls of the wrapped logger. -/
inductive WrappedCall
  | write (forceFlush : Bool) (ts : Int64) (message : List Char)
  | flush
  | logSize
  deriving DecidableEq

structure Buffer where
  messages : List Msg := []
  size : Int32 := 0
  flush : Bool := false
  deriving DecidableEq

def msgSize : Int32 := 48

namespace Buffer

def add (buf : Buffer) (msg : Msg) (forceFlush : Bool) : Buffer where
  messages := buf.messages ++ [msg]
  size := buf.size+(msgSize + .ofNat msg.message.length)
  flush := buf.flush || forceFlush

def needsFlushOrWrite (buf : Buffer) : Bool := buf.flush || buf.messages ≠ []

end Buffer

def levelOf (message : List Char) : Int32 :=
  match message.head? with
  | some 'F' => 3
  | some 'E' => 2
  | some 'W' => 1
  | some 'I' => 0
  | _ => -1

/-- `FindModuleName`: the name in the first brackets, and the message without them. -/
def findModuleName (processGroup : Module) (message : List Char) : Module × List Char :=
  let before := message.takeWhile (· ≠ '[')
  match message.dropWhile (· ≠ '[') with
  | [] => (processGroup, message)
  | _::tail =>
    match tail.dropWhile (· ≠ ']') with
    | [] => (processGroup, message)
    | _::rest =>
      let name := tail.takeWhile (· ≠ ']')
      (if name = [] then processGroup else name, before ++ rest)

/-- The call of `Write` of a file object for the message. -/
def Msg.call (processGroup : Module) (msg : Msg) : Call :=
  let (name, text) := findModuleName processGroup msg.message
  .write name (0 < msg.level) msg.ts text

def Msg.name (processGroup : Module) (msg : Msg) : Module := (findModuleName processGroup msg.message).1

def Msg.entry (msg : Msg) : Int64 × List Char := (msg.ts, msg.message)

def Call.isWrite : Call → Bool
  | write .. => true
  | flush _ => false

def writes (calls : List Call) : List Call := calls.filter Call.isWrite

theorem writes_append (calls calls' : List Call) : writes (calls ++ calls') = writes calls ++ writes calls' :=
  List.filter_append ..

namespace AsyncLogger

inductive LoggerState
  | initted
  | running
  | stopped
  deriving DecidableEq

/-- Where the thread stands: before `RunThread`, in the wait, in the loop over the messages, in the loop
over the file objects, and behind `RunThread`. -/
inductive Phase
  | absent
  | started
  | waiting
  | writing (rest : List Msg)
  | flushing (rest : List Module)
  | exited
  deriving DecidableEq

/-- Where a caller stands. `before` is the number of messages that were accepted before the call. -/
inductive Pc
  | idle
  | writing (forceFlush : Bool) (ts : Int64) (message : List Char)
  | flushing (before : Nat)
  | awaiting (before : Nat) (origFlushCount : UInt64)
  | flushed (before : Nat) (running : Bool)
  | stopping
  | joining
  | stopped
  deriving DecidableEq

/-- `accepted` has the messages in the order in which they went into a buffer, `calls` those of the file
objects and `wrapped` those of the wrapped logger. -/
structure State (θ : Type) where
  state : LoggerState
  activeBuf : Buffer
  flushingBuf : Buffer
  flushCount : UInt64
  moduleLoggerMap : List Module
  phase : Phase
  pc : θ → Pc
  accepted : List Msg
  calls : List Call
  wrapped : List WrappedCall

/-- `wake` is the end of a wait of the thread and `run` the next operation of a caller. The others are
operations of the thread: its start, the next message, the end of the messages, the next file object and
the end of a round. -/
inductive Event (θ : Type)
  | start
  | write (u : θ) (forceFlush : Bool) (ts : Int64) (message : List Char)
  | flush (u : θ)
  | stop (u : θ)
  | logSize
  | run (u : θ)
  | enter
  | wake (timeout : Bool)
  | output
  | close
  | flushModule (name : Module)
  | finish

def maxBufferBytes (bytes : Int32) : Int32 := if bytes ≤ 0 then 2*1024*1024 else bytes

def bufferFull (bytes : Int32) (buf : Buffer) : Bool := maxBufferBytes bytes/2 < buf.size

namespace State
variable {θ : Type}

/-- The swap of the buffers, and the begin of the loop over the messages. -/
def swap (s : State θ) : State θ :=
  { s with
    activeBuf := s.flushingBuf
    flushingBuf := s.activeBuf
    phase := .writing s.activeBuf.messages }

def await (s : State θ) : State θ :=
  if !s.activeBuf.needsFlushOrWrite && s.state = .running then { s with phase := .waiting } else s.swap

def loop (s : State θ) : State θ :=
  if s.state = .running || s.activeBuf.needsFlushOrWrite then s.await else { s with phase := .exited }

def output (processGroup : Module) (s : State θ) (msg : Msg) (rest : List Msg) : State θ :=
  { s with
    moduleLoggerMap :=
      if msg.name processGroup ∈ s.moduleLoggerMap then s.moduleLoggerMap
      else s.moduleLoggerMap ++ [msg.name processGroup]
    calls := s.calls ++ [msg.call processGroup]
    phase := .writing rest }

def advance (processGroup : Module) (s : State θ) : Event θ → Option (State θ)
  | .enter => if s.phase = .started then some s.loop else none
  | .wake timeout =>
    if s.phase = .waiting then
      some { s with activeBuf := { s.activeBuf with flush := s.activeBuf.flush || timeout } }.await
    else none
  | .output =>
    match s.phase with
    | .writing (msg::rest) => some (s.output processGroup msg rest)
    | _ => none
  | .close =>
    if s.phase = .writing [] then
      some { s with phase := .flushing (if s.flushingBuf.flush then s.moduleLoggerMap else []) }
    else none
  | .flushModule name =>
    match s.phase with
    | .flushing rest =>
      if name ∈ rest then
        some { s with calls := s.calls ++ [.flush name], phase := .flushing (rest.erase name) }
      else none
    | _ => none
  | .finish =>
    if s.phase = .flushing [] then
      some { s with flushingBuf := {}, flushCount := s.flushCount+1 }.loop
    else none
  | _ => none

variable [DecidableEq θ]

def setPc (s : State θ) (u : θ) (pc : Pc) : State θ := { s with pc := Function.update s.pc u pc }

def accept (s : State θ) (forceFlush : Bool) (ts : Int64) (message : List Char) : State θ :=
  let msg : Msg := ⟨ts,message,levelOf message⟩
  { s with activeBuf := s.activeBuf.add msg forceFlush, accepted := s.accepted ++ [msg] }

/-- The test of the loop of `Flush`, up to its wait or its return. -/
def awaitFlush (s : State θ) (u : θ) (before : Nat) (origFlushCount : UInt64) : State θ :=
  if s.flushCount < origFlushCount+2 ∧ s.state = .running then
    { s with activeBuf := { s.activeBuf with flush := true } }.setPc u (.awaiting before origFlushCount)
  else s.setPc u (.flushed before (s.state = .running))

def run (s : State θ) (u : θ) : Option (State θ) :=
  match s.pc u with
  | .idle => none
  | .writing forceFlush ts message =>
    some ((if s.state = .running then s.accept forceFlush ts message else s).setPc u .idle)
  | .flushing before =>
    some (if s.state = .running then s.awaitFlush u before s.flushCount else s.setPc u (.flushed before false))
  | .awaiting before origFlushCount => some (s.awaitFlush u before origFlushCount)
  | .flushed _ _ => some (s.setPc u .idle)
  | .stopping =>
    -- `CHECK_EQ` ends the process
    if s.state = .running then some ({ s with state := .stopped }.setPc u .joining) else none
  | .joining =>
    if s.phase = .exited ∧ s.activeBuf.messages = [] ∧ s.flushingBuf.messages = [] then
      some (s.setPc u .stopped)
    else none
  | .stopped => some (s.setPc u .idle)

def step (processGroup : Module) (bytes : Int32) (s : State θ) : Event θ → Option (State θ)
  | .start => if s.state = .initted then some { s with state := .running, phase := .started } else none
  | .write u forceFlush ts message =>
    if s.pc u = .idle then
      some (if bufferFull bytes s.activeBuf then s else s.setPc u (.writing forceFlush ts message))
    else none
  | .flush u => if s.pc u = .idle then some (s.setPc u (.flushing s.accepted.length)) else none
  | .stop u => if s.pc u = .idle then some (s.setPc u .stopping) else none
  | .logSize => some { s with wrapped := s.wrapped ++ [.logSize] }
  | .run u => s.run u
  | e => s.advance processGroup e

end State

def init (θ : Type) : State θ where
  state := .initted
  activeBuf := {}
  flushingBuf := {}
  flushCount := 0
  moduleLoggerMap := []
  phase := .absent
  pc _ := .idle
  accepted := []
  calls := []
  wrapped := []

def system (θ : Type) [DecidableEq θ] (processGroup : Module) (bytes : Int32) :
    System (State θ) (Event θ) where
  initial s := s = init θ
  step := State.step processGroup bytes

open List Option System Msg
variable {θ : Type} {group : Module} {bytes : Int32} {s t : State θ} {e : Event θ} {u : θ} {before : Nat}

def Phase.acts : Phase → Bool
  | .absent | .exited => false
  | _ => true

def Event.byThread : Event θ → Bool
  | .enter | .wake _ | .output | .close | .flushModule _ | .finish => true
  | _ => false

theorem step_of_byThread [DecidableEq θ] (h : e.byThread = true) : s.step group bytes e = s.advance group e := by
  cases e <;> first | rfl | cases h

/-- What the thread leaves to the others. -/
structure Frame (s t : State θ) : Prop where
  state : t.state = s.state
  pc : t.pc = s.pc
  wrapped : t.wrapped = s.wrapped

theorem await_frame : Frame s s.await := by
  rw [State.await]
  split <;> exact ⟨rfl,rfl,rfl⟩

theorem loop_frame : Frame s s.loop := by
  rw [State.loop]
  split
  · exact await_frame
  · exact ⟨rfl,rfl,rfl⟩

theorem advance_frame (he : s.advance group e = some t) : s.phase.acts = true ∧ Frame s t := by
  cases e with rw [State.advance] at he
  | enter =>
    obtain ⟨hphase,rfl⟩ := ite_some_none_eq_some.mp he
    exact ⟨hphase ▸ rfl,loop_frame⟩
  | wake =>
    obtain ⟨hphase,rfl⟩ := ite_some_none_eq_some.mp he
    exact ⟨hphase ▸ rfl,await_frame.state,await_frame.pc,await_frame.wrapped⟩
  | output =>
    split at he <;> cases he
    case h_1 hphase => exact ⟨hphase ▸ rfl,rfl,rfl,rfl⟩
  | close =>
    obtain ⟨hphase,rfl⟩ := ite_some_none_eq_some.mp he
    exact ⟨hphase ▸ rfl,rfl,rfl,rfl⟩
  | flushModule =>
    split at he
    case h_1 hphase =>
      obtain ⟨-,rfl⟩ := ite_some_none_eq_some.mp he
      exact ⟨hphase ▸ rfl,rfl,rfl,rfl⟩
    case h_2 => cases he
  | finish =>
    obtain ⟨hphase,rfl⟩ := ite_some_none_eq_some.mp he
    exact ⟨hphase ▸ rfl,loop_frame.state,loop_frame.pc,loop_frame.wrapped⟩
  | _ => cases he

section Order

/-- The messages of the round that are not written yet. -/
def Phase.rest : Phase → List Msg
  | .writing rest => rest
  | _ => []

def Phase.busy : Phase → Bool
  | .writing _ | .flushing _ => true
  | _ => false

/-- An accepted message has been written, or is left to the round, or waits in the active buffer. -/
structure Kept (group : Module) (s : State θ) : Prop where
  order : s.accepted.map (call group) = writes s.calls ++ (s.phase.rest ++ s.activeBuf.messages).map (call group)
  idle : s.phase.busy = false → s.flushingBuf.messages = []

/-- Between two rounds. -/
structure Ready (group : Module) (s : State θ) : Prop where
  order : s.accepted.map (call group) = writes s.calls ++ s.activeBuf.messages.map (call group)
  empty : s.flushingBuf.messages = []

theorem Ready.await (h : Ready group s) : Kept group s.await := by
  rw [State.await]
  split
  case isTrue => exact ⟨h.order,fun _ => h.empty⟩
  case isFalse =>
    refine ⟨?_,nofun⟩
    change _ = _ ++ (s.activeBuf.messages ++ s.flushingBuf.messages).map _
    rw [h.empty,append_nil]
    exact h.order

theorem Ready.loop (h : Ready group s) : Kept group s.loop := by
  rw [State.loop]
  split
  case isTrue => exact h.await
  case isFalse => exact ⟨h.order,fun _ => h.empty⟩

theorem Kept.ready (h : Kept group s) (hphase : s.phase = .started ∨ s.phase = .waiting) : Ready group s := by
  have hidle : s.phase.busy = false ∧ s.phase.rest = [] := by
    obtain hphase | hphase := hphase <;> exact hphase ▸ ⟨rfl,rfl⟩
  refine ⟨?_,h.idle hidle.1⟩
  rw [h.order,hidle.2]
  rfl

theorem Kept.advance (h : Kept group s) (he : s.advance group e = some t) : Kept group t := by
  have horder := h.order
  cases e with rw [State.advance] at he
  | enter =>
    obtain ⟨hphase,rfl⟩ := ite_some_none_eq_some.mp he
    exact (h.ready (.inl hphase)).loop
  | wake =>
    obtain ⟨hphase,rfl⟩ := ite_some_none_eq_some.mp he
    have hready := h.ready (.inr hphase)
    exact Ready.await ⟨hready.order,hready.empty⟩
  | output =>
    split at he <;> cases he
    case h_1 msg rest hphase =>
      rw [hphase] at horder
      refine ⟨horder.trans ?_,nofun⟩
      change _ = writes (s.calls ++ [msg.call group]) ++ (rest ++ s.activeBuf.messages).map _
      rw [writes_append,append_assoc]
      rfl
  | close =>
    obtain ⟨hphase,rfl⟩ := ite_some_none_eq_some.mp he
    rw [hphase] at horder
    exact ⟨horder,nofun⟩
  | flushModule =>
    split at he
    case h_1 hphase =>
      obtain ⟨-,rfl⟩ := ite_some_none_eq_some.mp he
      rw [hphase] at horder
      refine ⟨horder.trans ?_,nofun⟩
      rw [writes_append]
      exact congrArg (· ++ _) (append_nil _).symm
    case h_2 => cases he
  | finish =>
    obtain ⟨hphase,rfl⟩ := ite_some_none_eq_some.mp he
    rw [hphase] at horder
    exact Ready.loop ⟨horder,rfl⟩
  | _ => cases he

/-- After `Stop` has set the state nothing is accepted, and when it returns nothing is left. -/
def Called (s : State θ) : Pc → Prop
  | .joining => s.state = .stopped
  | .stopped => s.state = .stopped ∧ s.phase = .exited ∧ s.activeBuf.messages = []
  | _ => True

structure Inv (group : Module) (s : State θ) : Prop where
  kept : Kept group s
  absent : s.state = .initted → s.phase = .absent
  called : ∀ u, Called s (s.pc u)

theorem Inv.advance (h : Inv group s) (he : s.advance group e = some t) : Inv group t := by
  obtain ⟨hphase,hframe⟩ := advance_frame he
  refine ⟨h.kept.advance he,fun hinit => ?_,fun u => ?_⟩
  · rw [h.absent (hframe.state ▸ hinit)] at hphase
    cases hphase
  have hu := h.called u
  rw [hframe.pc]
  cases hpc : s.pc u with rw [hpc] at hu
  | joining => exact hframe.state.trans hu
  | stopped =>
    rw [hu.2.1] at hphase
    cases hphase
  | _ => trivial

/-- No `Stop` has set the state. -/
theorem Inv.called_open (h : Inv group s) (hopen : s.state ≠ .stopped) (hpc : t.pc = s.pc) (u : θ) : Called t (t.pc u) := by
  have hu := h.called u
  rw [hpc]
  cases hu' : s.pc u with rw [hu'] at hu
  | joining => exact absurd hu hopen
  | stopped => exact absurd hu.1 hopen
  | _ => trivial

theorem Inv.accept (h : Inv group s) (hrun : s.state = .running) {forceFlush : Bool} {ts : Int64} {message : List Char} :
    Inv group (s.accept forceFlush ts message) := by
  refine ⟨⟨?_,h.kept.idle⟩,h.absent,h.called_open (hrun ▸ nofun) rfl⟩
  simp only [State.accept,Buffer.add]
  rw [← append_assoc,map_append,map_append,← append_assoc,h.kept.order]

variable [DecidableEq θ]

theorem Inv.setPc {pc : Pc} (h : Inv group s) (hpc : Called s pc) : Inv group (s.setPc u pc) := by
  refine ⟨⟨h.kept.order,h.kept.idle⟩,h.absent,fun v => ?_⟩
  change Called s (Function.update s.pc u pc v)
  by_cases hv : v = u
  · rw [hv,Function.update_self]
    exact hpc
  · rw [Function.update_of_ne hv]
    exact h.called v

theorem Inv.awaitFlush (h : Inv group s) {orig : UInt64} : Inv group (s.awaitFlush u before orig) := by
  rw [State.awaitFlush]
  split
  case isTrue hwait =>
    refine Inv.setPc ⟨⟨h.kept.order,h.kept.idle⟩,h.absent,h.called_open ?_ rfl⟩ trivial
    rw [hwait.2]
    nofun
  case isFalse => exact h.setPc trivial

theorem Inv.run (h : Inv group s) (he : s.run u = some t) : Inv group t := by
  have hu := h.called u
  rw [State.run] at he
  cases hpc : s.pc u with rw [hpc] at he hu
  | idle => cases he
  | writing =>
    cases he
    split
    case isTrue hrun => exact (h.accept hrun).setPc trivial
    case isFalse => exact h.setPc trivial
  | flushing =>
    cases he
    split
    · exact h.awaitFlush
    · exact h.setPc trivial
  | awaiting =>
    cases he
    exact h.awaitFlush
  | flushed | stopped =>
    cases he
    exact h.setPc trivial
  | stopping =>
    obtain ⟨hrun,rfl⟩ := ite_some_none_eq_some.mp he
    refine Inv.setPc ⟨⟨h.kept.order,h.kept.idle⟩,nofun,h.called_open ?_ rfl⟩ rfl
    rw [hrun]
    nofun
  | joining =>
    obtain ⟨hend,rfl⟩ := ite_some_none_eq_some.mp he
    exact h.setPc ⟨hu,hend.1,hend.2.1⟩

theorem Inv.step (h : Inv group s) (he : s.step group bytes e = some t) : Inv group t := by
  cases e with
  | start =>
    obtain ⟨hinit,rfl⟩ := ite_some_none_eq_some.mp he
    have horder := h.kept.order
    have hidle := h.kept.idle
    rw [h.absent hinit] at horder hidle
    exact ⟨⟨horder,fun _ => hidle rfl⟩,nofun,h.called_open (hinit ▸ nofun) rfl⟩
  | write =>
    obtain ⟨-,rfl⟩ := ite_some_none_eq_some.mp he
    split
    · exact h
    · exact h.setPc trivial
  | flush | stop =>
    obtain ⟨-,rfl⟩ := ite_some_none_eq_some.mp he
    exact h.setPc trivial
  | logSize =>
    cases he
    exact ⟨⟨h.kept.order,h.kept.idle⟩,h.absent,h.called⟩
  | run => exact h.run he
  | enter | wake | output | close | flushModule | finish =>
    rw [step_of_byThread rfl] at he
    exact h.advance he

/-- The file objects of the modules get the accepted messages once and in order, and all of them when `Stop` returns. -/
theorem written_in_order (h : (system θ group bytes).Reachable s) : writes s.calls <+: s.accepted.map (call group) ∧
    ∀ u, s.pc u = .stopped → writes s.calls = s.accepted.map (call group) := by
  have hinv : Inv group s := by
    refine h.invariant ?_ fun _ _ _ hs he => hs.step he
    rintro _ rfl
    exact ⟨⟨rfl,fun _ => rfl⟩,fun _ => rfl,fun _ => trivial⟩
  rw [hinv.kept.order]
  refine ⟨prefix_append _ _,fun u hu => ?_⟩
  have hcalled := hinv.called u
  rw [hu] at hcalled
  rw [hcalled.2.1,hcalled.2.2]
  exact (append_nil _).symm

/-- Two messages are accepted, one of them while the other one is written. -/
theorem written_in_order_two : ∃ s : State Bool, s.pc false = .stopped ∧
    s.accepted.map entry = [(1, ['I','a']),(2, ['[','m',']','E'])] ∧ writes s.calls = s.accepted.map (call ['g']) := by
  obtain ⟨s,hs,hp⟩ := reachable_of_exec (system Bool ['g'] 0)
    [.start,.enter,.write true false 1 ['I','a'],.run true,.wake false,.write true false 2 ['[','m',']','E'],.run true,
      .output,.close,.finish,.output,.close,.finish,.stop false,.run false,.wake false,.close,.finish,.run false]
    (fun s => s.pc false = .stopped ∧ s.accepted.map entry = [(1, ['I','a']),(2, ['[','m',']','E'])]) rfl (by decide)
  obtain ⟨hstopped,haccepted⟩ := of_decide_eq_true hp
  exact ⟨s,hstopped,haccepted,(written_in_order hs).2 false hstopped⟩

end Order

section Wrapped
variable [DecidableEq θ]

def Runs (group : Module) (bytes : Int32) (s t : State θ) : Prop :=
  ∃ es, (∀ e ∈ es, Event.byThread e = true) ∧ (system θ group bytes).exec s es = some t

theorem Runs.refl : Runs group bytes s s := ⟨[],nofun,rfl⟩

def WrappedCall.entry : WrappedCall → Option (Int64 × List Char)
  | .write _ ts message => some (ts, message)
  | _ => none

/-- What the wrapped logger is to get: the accepted messages once and in order, those before a `Flush` and a flush of the
logger when it returns, and all of them when `Stop` returns. -/
structure Delivered (group : Module) (bytes : Int32) (s : State θ) : Prop where
  inOrder : s.wrapped.filterMap WrappedCall.entry <+: s.accepted.map Msg.entry
  reaches : ∃ t, Runs group bytes s t ∧ t.accepted = s.accepted ∧
    t.wrapped.filterMap WrappedCall.entry = s.accepted.map Msg.entry
  flushed : ∀ u before running, s.pc u = .flushed before running → ∃ pre post, s.wrapped = pre ++ .flush::post ∧
    (s.accepted.take before).map Msg.entry <+: pre.filterMap WrappedCall.entry
  stopped : ∀ u, s.pc u = .stopped → s.wrapped.filterMap WrappedCall.entry = s.accepted.map Msg.entry

theorem wrapped_awaitFlush {orig : UInt64} : (s.awaitFlush u before orig).wrapped = s.wrapped := by
  rw [State.awaitFlush]
  split <;> rfl

theorem wrapped_run (he : s.run u = some t) : t.wrapped = s.wrapped := by
  rw [State.run] at he
  cases hpc : s.pc u with rw [hpc] at he
  | idle => cases he
  | writing =>
    cases he
    split <;> rfl
  | flushing =>
    cases he
    split
    · exact wrapped_awaitFlush
    · rfl
  | awaiting =>
    cases he
    exact wrapped_awaitFlush
  | flushed | stopped =>
    cases he
    rfl
  | stopping | joining =>
    obtain ⟨-,rfl⟩ := ite_some_none_eq_some.mp he
    rfl

theorem wrapped_step (he : s.step group bytes e = some t) (h : ∀ c ∈ s.wrapped, c = .logSize) :
    ∀ c ∈ t.wrapped, c = .logSize := by
  cases e with
  | start | flush | stop =>
    obtain ⟨-,rfl⟩ := ite_some_none_eq_some.mp he
    exact h
  | write =>
    obtain ⟨-,rfl⟩ := ite_some_none_eq_some.mp he
    split <;> exact h
  | logSize =>
    cases he
    exact forall_mem_append.mpr ⟨h,forall_mem_singleton.mpr rfl⟩
  | run =>
    rw [wrapped_run he]
    exact h
  | enter | wake | output | close | flushModule | finish =>
    rw [step_of_byThread rfl] at he
    rw [(advance_frame he).2.wrapped]
    exact h

theorem reachable_wrapped (h : (system θ group bytes).Reachable s) : ∀ c ∈ s.wrapped, c = .logSize := by
  apply h.invariant (P := fun s => ∀ c ∈ s.wrapped, c = .logSize)
  · rintro _ rfl
    nofun
  · exact fun _ _ _ hs he => wrapped_step he hs

theorem Runs.wrapped (h : Runs group bytes s t) (hs : ∀ c ∈ s.wrapped, c = .logSize) : ∀ c ∈ t.wrapped, c = .logSize := by
  obtain ⟨_,_,hexec⟩ := h
  exact exec_keeps (P := fun s => ∀ c ∈ s.wrapped, c = .logSize) (fun _ _ _ _ hs he => wrapped_step he hs) hs hexec

omit [DecidableEq θ] in
theorem entries_eq_nil (h : ∀ c ∈ s.wrapped, c = .logSize) : s.wrapped.filterMap WrappedCall.entry = [] := by
  apply filterMap_eq_nil_iff.mpr
  intro c hc
  rw [h c hc]
  rfl

/-- The wrapped logger gets what it is to get exactly as long as no message has been accepted and no `Flush` returns. -/
theorem delivered_iff (h : (system θ group bytes).Reachable s) : Delivered group bytes s ↔
    s.accepted = [] ∧ ∀ u before running, s.pc u ≠ .flushed before running := by
  have hwrapped := reachable_wrapped h
  have hnil := entries_eq_nil hwrapped
  constructor
  · intro hd
    obtain ⟨t,hruns,-,hall⟩ := hd.reaches
    rw [entries_eq_nil (hruns.wrapped hwrapped)] at hall
    refine ⟨map_eq_nil_iff.mp hall.symm,fun u before running hpc => ?_⟩
    obtain ⟨pre,post,heq,-⟩ := hd.flushed u before running hpc
    cases hwrapped .flush (by rw [heq]; simp)
  · rintro ⟨haccepted,hflush⟩
    have hall : s.wrapped.filterMap WrappedCall.entry = s.accepted.map Msg.entry := by rw [hnil,haccepted,map_nil]
    exact ⟨hall ▸ prefix_refl _,⟨s,.refl,rfl,hall⟩,fun _ _ _ hpc => absurd hpc (hflush _ _ _),fun _ _ => hall⟩

/-- A started logger that is asked for its size. -/
theorem delivered_iff_started : ∃ s : State Unit, s.wrapped = [.logSize] ∧ Delivered ['g'] 0 s := by
  obtain ⟨s,hs,hp⟩ := reachable_of_exec (system Unit ['g'] 0) [.start,.enter,.logSize,.wake true,.close,.finish]
    (fun s => s.wrapped = [.logSize] ∧ s.accepted = [] ∧ s.pc () = .idle) rfl (by decide)
  obtain ⟨hwrapped,haccepted,hpc⟩ := of_decide_eq_true hp
  exact ⟨s,hwrapped,(delivered_iff hs).mpr ⟨haccepted,fun _ _ _ h => by cases hpc.symm.trans h⟩⟩

/-- A message is accepted and written to the file object of its module, and `Flush` and `Stop` return, but the wrapped
logger is never called. -/
theorem not_delivered_stopped : ∃ s : State Bool, (system Bool ['g'] 0).Reachable s ∧
    s.accepted.map Msg.entry = [(1, ['I','a'])] ∧ s.pc true = .flushed 1 true ∧ s.pc false = .stopped ∧ s.wrapped = [] ∧
    ¬ Delivered ['g'] 0 s := by
  obtain ⟨s,hs,hp⟩ := reachable_of_exec (system Bool ['g'] 0)
    [.start,.enter,.write true false 1 ['I','a'],.run true,.flush true,.run true,.wake false,.output,.close,
      .flushModule ['g'],.finish,.run true,.wake false,.close,.flushModule ['g'],.finish,.run true,.stop false,.run false,
      .wake false,.close,.finish,.run false]
    (fun s => s.accepted.map Msg.entry = [(1, ['I','a'])] ∧ s.pc true = .flushed 1 true ∧ s.pc false = .stopped ∧
      s.wrapped = []) rfl (by decide)
  obtain ⟨haccepted,hflushed,hstopped,hwrapped⟩ := of_decide_eq_true hp
  refine ⟨s,hs,haccepted,hflushed,hstopped,hwrapped,fun hd => ?_⟩
  have hall := hd.stopped false hstopped
  rw [hwrapped,haccepted] at hall
  cases hall

end Wrapped

end AsyncLogger
end Apollo.Cyber.Logger
