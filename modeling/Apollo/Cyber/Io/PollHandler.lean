import Apollo.Cyber.Croutine.Routine
import Apollo.Cyber.Io.Poller

/-! `PollHandler` with the routines that call `Block` and the poller whose thread runs `ResponseCallback`. One event
is one access to what they share. -/
namespace Apollo.Cyber.Io.PollHandler
open Foundation Croutine Function Routine
open Scheduler (RoutineState)

/-- The callbacks of the poller: that of its pipe, that of this handler and those of other handlers. -/
inductive Callback
  | drain
  | response
  | other
  deriving DecidableEq

/-- Where a routine stands: outside of `Block`, before it gives the processor up there, and in `Block`
before the exchange of `is_blocking_`, before `Fill`, before `Register`, after a refused `Register`, before
the store of `IO_WAIT`, before the swap, behind it, and before the end. -/
inductive Pc
  | outside
  | elsewhere
  | entering (timeoutMs : Int32) (isRead : Bool)
  | filling (timeoutMs : Int32) (isRead : Bool)
  | registering (isRead : Bool)
  | refused
  | registered (isRead : Bool)
  | parking (isRead : Bool)
  | hung (isRead : Bool)
  | leaving (result : Bool)
  deriving DecidableEq

/-- Where the thread of the poller stands in `ResponseCallback`: before its tests, before the store of the
response, before its look at the state, before `SetUpdateFlag`. -/
inductive CallbackPc
  | idle
  | testing
  | storing
  | looking
  | flagging
  | done
  deriving DecidableEq

/-- `unblocking` counts the calls of `Unblock` that have still to unregister the request, and `answered`
tells whether a response callback has run since the routine registered last. -/
structure State (ρ : Type) where
  poller : Poller.State Callback
  isBlocking : Bool
  unblocking : Nat
  owner : Option ρ
  request : PollRequest Callback
  response : UInt32
  callback : CallbackPc
  routine : ρ → Routine
  pc : ρ → Pc
  answered : ρ → Bool

/-- The next operation of a processor with a routine, a call of `Block` in a routine and outside of one,
another wait of a routine, the next operation of a running routine, the two operations of `Unblock`, an
event of the poller and the next operation of the callback. -/
inductive Event (ρ : Type)
  | advance (r : ρ) (expired : Bool)
  | block (r : ρ) (timeoutMs : Int32) (isRead : Bool)
  | blockOutside (timeoutMs : Int32)
  | wait (r : ρ) (state : RoutineState)
  | run (r : ρ)
  | unblock
  | unregister
  | poller (e : Poller.Event Callback)
  | callback

def targetEvents (isRead : Bool) : UInt32 := if isRead then Poller.epollIn else Poller.epollOut

def fill (fd : Int32) (timeoutMs : Int32) (isRead : Bool) : PollRequest Callback :=
  ⟨fd,Poller.epollEt ||| Poller.epollOneShot ||| targetEvents isRead,timeoutMs,some .response⟩

namespace State
variable {ρ : Type} [DecidableEq ρ]

def setRoutine (s : State ρ) (r : ρ) (routine : Routine) : State ρ :=
  { s with routine := update s.routine r routine }

def setPc (s : State ρ) (r : ρ) (pc : Pc) : State ρ := { s with pc := update s.pc r pc }

def check (fd : Int32) (s : State ρ) (current : Option ρ) (timeoutMs : Int32) : State ρ × Bool :=
  if timeoutMs = 0 ∨ fd < 0 then (s, false) else ({ s with owner := current }, current.isSome)

def block (fd : Int32) (s : State ρ) (r : ρ) (timeoutMs : Int32) (isRead : Bool) : State ρ :=
  let (s, ok) := s.check fd (some r) timeoutMs
  if ok then s.setPc r (.entering timeoutMs isRead) else s

def register (s : State ρ) (r : ρ) (isRead : Bool) : Option (State ρ) :=
  if s.poller.reads then none
  else if (s.poller.register s.request).2 then
    some ({ s with
      poller := (s.poller.register s.request).1
      answered := update s.answered r false }.setPc r (.registered isRead))
  else some (s.setPc r .refused)

def run (fd : Int32) (s : State ρ) (r : ρ) : Option (State ρ) :=
  match s.pc r with
  | .outside => none
  | .elsewhere => some ((s.setRoutine r (s.routine r).swap).setPc r .outside)
  | .entering timeoutMs isRead =>
    some ({ s with isBlocking := true }.setPc r (if s.isBlocking then .outside else .filling timeoutMs isRead))
  | .filling timeoutMs isRead =>
    some ({ s with request := fill fd timeoutMs isRead }.setPc r (.registering isRead))
  | .registering isRead => s.register r isRead
  | .refused => some ({ s with isBlocking := false }.setPc r .outside)
  | .registered isRead => some ((s.setRoutine r ((s.routine r).setState .ioWait)).setPc r (.parking isRead))
  | .parking isRead => some ((s.setRoutine r (s.routine r).swap).setPc r (.hung isRead))
  | .hung isRead => some (s.setPc r (.leaving (s.response &&& targetEvents isRead ≠ 0)))
  | .leaving _ => some ({ s with isBlocking := false }.setPc r .outside)

def finish (s : State ρ) : State ρ := { s with callback := .done, answered := fun _ => true }

def delivered (s : State ρ) : UInt32 :=
  match s.poller.phase with
  | .calling _ events _ => events
  | _ => 0

def respond (s : State ρ) : Option (State ρ) :=
  match s.callback with
  | .idle | .done => none
  | .testing =>
    some (if !s.isBlocking || s.owner.isNone then s.finish else { s with callback := .storing })
  | .storing => some { s with response := s.delivered, callback := .looking }
  | .looking => s.owner.map fun r =>
    if (s.routine r).state = .ioWait then { s with callback := .flagging } else s.finish
  | .flagging => s.owner.map fun r => (s.setRoutine r (s.routine r).setUpdateFlag).finish

/-- The thread of the poller goes into a callback and comes back from it; other handlers register and
unregister their requests. -/
def pollerStep (s : State ρ) (e : Poller.Event Callback) : Option (State ρ) :=
  match e with
  | .register req | .unregister req =>
    if req.callback = some .response then none
    else (s.poller.step e).map fun poller => { s with poller }
  | .respond _ => (s.poller.step e).map fun poller => { s with
      poller
      callback := match poller.phase with
        | .calling .response _ _ => .testing
        | _ => .idle }
  | .returned =>
    match s.callback with
    | .idle | .done => (s.poller.step e).map fun poller => { s with poller, callback := .idle }
    | _ => none
  | _ => (s.poller.step e).map fun poller => { s with poller }

def step (fd : Int32) (s : State ρ) : Event ρ → Option (State ρ)
  | .advance r expired => ((s.routine r).advance expired).map (s.setRoutine r)
  | .block r timeoutMs isRead =>
    if (s.routine r).turn = .running ∧ s.pc r = .outside then some (s.block fd r timeoutMs isRead) else none
  | .wait r state =>
    if (s.routine r).turn = .running ∧ s.pc r = .outside then
      some ((s.setRoutine r ((s.routine r).setState state)).setPc r .elsewhere)
    else none
  | .blockOutside timeoutMs => some (s.check fd none timeoutMs).1
  | .run r => if (s.routine r).turn = .running then s.run fd r else none
  | .unblock => some { s with isBlocking := false, unblocking := s.unblocking+1 }
  | .unregister =>
    if s.poller.reads ∨ s.unblocking = 0 then none
    else some { s with
      poller := (s.poller.unregister s.request).1
      unblocking := s.unblocking - 1 }
  | .poller e => s.pollerStep e
  | .callback => s.respond

end State

def init (ρ : Type) (pipe : Int32) : State ρ where
  poller := Poller.init pipe .drain
  isBlocking := false
  unblocking := 0
  owner := none
  request := {}
  response := 0
  callback := .idle
  routine _ := {}
  pc _ := .outside
  answered _ := false

def system (ρ : Type) [DecidableEq ρ] (pipe fd : Int32) : System (State ρ) (Event ρ) where
  initial s := s = init ρ pipe
  step := State.step fd

open Option State
variable {ρ : Type} {fd pipe : Int32} {s t : State ρ} {r q : ρ} {x : Routine}

/-- The routine is in `Block`, behind `Check`. -/
def Pc.inBlock : Pc → Bool
  | .outside | .elsewhere => false
  | _ => true

/-- The routine has set `is_blocking_` and not reset it. -/
def Pc.blocks : Pc → Bool
  | .outside | .elsewhere | .entering .. => false
  | _ => true

/-- The routine has registered its request and not seen the response. -/
def Pc.waits : Pc → Bool
  | .registered _ | .parking _ | .hung _ => true
  | _ => false

/-- The routine has registered its request and still runs. -/
def Pc.blind : Pc → Bool
  | .registered _ | .parking _ => true
  | _ => false

/-- One routine at a time uses the handler, nobody unblocks it meanwhile, and the callback does not look at
the state of a routine between its `Register` and its store of `IO_WAIT`. -/
def State.Sound (s : State ρ) : Event ρ → Prop
  | .block r _ _ => ∀ q, (s.pc q).inBlock = true → q = r
  | .blockOutside _ | .unblock => ∀ q, (s.pc q).inBlock = false
  | .callback => s.callback = .looking → ∀ r isRead, s.pc r ≠ .registered isRead
  | _ => True

/-- With a single routine the condition can be evaluated. -/
instance (s : State Unit) (e : Event Unit) : Decidable (s.Sound e) :=
  match e with
  | .block .. => .isTrue fun _ _ => rfl
  | .blockOutside _ | .unblock => decidable_of_iff ((s.pc ()).inBlock = false) ⟨fun h _ => h,fun h => h ()⟩
  | .callback =>
    decidable_of_iff (s.callback = .looking → s.pc () ≠ .registered false ∧ s.pc () ≠ .registered true)
      ⟨fun h hc _ => Bool.forall_bool.mpr (h hc),fun h hc => Bool.forall_bool.mp (h hc ())⟩
  | .advance .. | .wait .. | .run _ | .unregister | .poller _ => .isTrue trivial

def Placed (x : Routine) : Pc → Prop
  | .registered _ => x.turn = .running
  | .parking _ => x.turn = .running ∧ x.state = .ioWait
  | _ => True

structure Kept (s : State ρ) (r : ρ) : Prop where
  owner : (s.pc r).inBlock = true → s.owner = some r
  blocking : (s.pc r).blocks = true → s.isBlocking = true
  placed : Placed (s.routine r) (s.pc r)
  due : (s.pc r).waits = true → s.answered r = true → (s.routine r).Due .ioWait ((s.pc r).blind = true)

variable {pc : Pc} {isRead expired : Bool}

theorem Pc.inBlock_of_blocks (h : pc.blocks = true) : pc.inBlock = true := by
  cases pc <;> first | rfl | cases h

theorem Pc.blocks_of_waits (h : pc.waits = true) : pc.blocks = true := by
  cases pc <;> first | rfl | cases h

theorem Pc.waits_of_blind (h : pc.blind = true) : pc.waits = true := by
  cases pc <;> first | rfl | cases h

theorem Placed.running (h : Placed x pc) (hb : pc.blind = true) : x.turn = .running := by
  cases pc with
  | registered => exact h
  | parking => exact h.1
  | outside | elsewhere | entering | filling | registering | refused | hung | leaving => cases hb

theorem placed_of_not_blind (hb : pc.blind ≠ true) : Placed x pc := by
  cases pc with
  | registered | parking => exact absurd rfl hb
  | outside | elsewhere | entering | filling | registering | refused | hung | leaving => trivial

theorem Kept.unique (hr : Kept s r) (hq : Kept s q) (h : (s.pc r).inBlock = true)
    (h' : (s.pc q).inBlock = true) : q = r :=
  some_inj.mp ((hq.owner h').symm.trans (hr.owner h))

theorem Kept.congr (h : Kept s r) (hr : t.routine r = s.routine r) (hp : t.pc r = s.pc r)
    (ho : (s.pc r).inBlock = true → t.owner = s.owner)
    (hb : (s.pc r).blocks = true → t.isBlocking = s.isBlocking)
    (ha : t.answered r = s.answered r) : Kept t r := by
  refine ⟨?_,?_,?_,?_⟩
  · intro hin
    rw [hp] at hin
    rw [ho hin]
    exact h.owner hin
  · intro hin
    rw [hp] at hin
    rw [hb hin]
    exact h.blocking hin
  · rw [hr,hp]
    exact h.placed
  · rw [hr,hp,ha]
    exact h.due

theorem Kept.finish (h : Kept s r) (hd : (s.pc r).waits = true →
    (s.routine r).Due .ioWait ((s.pc r).blind = true)) : Kept s.finish r :=
  ⟨h.owner,h.blocking,h.placed,fun hw _ => hd hw⟩

theorem Kept.advance (h : Kept s r) {y : Routine} (hy : (s.routine r).advance expired = some y) (hr : t.routine r = y)
    (hp : t.pc r = s.pc r) (ho : t.owner = s.owner) (hb : t.isBlocking = s.isBlocking) (ha : t.answered = s.answered) :
    Kept t r := by
  have hidle := (advance_running hy).1
  have hblind : (s.pc r).blind ≠ true := fun hb => hidle (h.placed.running hb)
  refine ⟨?_,?_,?_,?_⟩
  · rw [hp,ho]
    exact h.owner
  · rw [hp,hb]
    exact h.blocking
  · rw [hr,hp]
    exact placed_of_not_blind hblind
  · rw [hr,hp,ha]
    intro hw hans
    exact (h.due hw hans).advance (.inr rfl) hblind hy

theorem pollerStep_frame {e : Poller.Event Callback} (ht : s.pollerStep e = some t) :
    ∃ poller callback, t = { s with poller, callback } := by
  cases e with
  | register | unregister =>
    rw [pollerStep] at ht
    split at ht
    · cases ht
    · obtain ⟨poller,_,rfl⟩ := map_eq_some_iff.mp ht
      exact ⟨poller,s.callback,rfl⟩
  | respond =>
    obtain ⟨poller,_,rfl⟩ := map_eq_some_iff.mp ht
    exact ⟨poller,_,rfl⟩
  | returned =>
    rw [pollerStep] at ht
    split at ht
    · obtain ⟨poller,_,rfl⟩ := map_eq_some_iff.mp ht
      exact ⟨poller,.idle,rfl⟩
    · obtain ⟨poller,_,rfl⟩ := map_eq_some_iff.mp ht
      exact ⟨poller,.idle,rfl⟩
    · cases ht
  | shutdown | clear | handleChanges | ctl | poll | loop =>
    rw [pollerStep] at ht
    · obtain ⟨poller,_,rfl⟩ := map_eq_some_iff.mp ht
      exact ⟨poller,s.callback,rfl⟩
    all_goals nofun

theorem Kept.pass (h : Kept s r) (hs : (s.routine r).state ≠ .ioWait)
    (hreg : ∀ isRead, s.pc r ≠ .registered isRead) : Kept s.finish r := by
  refine h.finish fun _ => due_of_state hs fun hb => ?_
  have hplaced := h.placed
  cases hpc : s.pc r with
  | registered isRead => exact hreg isRead hpc
  | parking =>
    rw [hpc] at hplaced
    exact hs hplaced.2
  | outside | elsewhere | entering | filling | registering | refused | hung | leaving =>
    rw [hpc] at hb
    cases hb

/-- What the routine leaves of the others. It resets `is_blocking_` only in `Block`. -/
structure Frame (s t : State ρ) (r q : ρ) : Prop where
  routine : t.routine q = s.routine q
  pc : t.pc q = s.pc q
  owner : t.owner = s.owner
  answered : t.answered q = s.answered q
  isBlocking : t.isBlocking = s.isBlocking ∨ t.isBlocking = true ∨ (s.pc r).inBlock = true

theorem Kept.of_frame (hr : Kept s r) (h : Kept s q) (hq : q ≠ r) (hf : Frame s t r q) : Kept t q := by
  refine h.congr hf.routine hf.pc (fun _ => hf.owner) (fun hb => ?_) hf.answered
  rcases hf.isBlocking with he | he | hin
  · exact he
  · exact he.trans (h.blocking hb).symm
  · exact absurd (hr.unique h hin (Pc.inBlock_of_blocks hb)) hq

theorem kept_of_not_inBlock (h : (t.pc r).inBlock = false) : Kept t r := by
  have hblocks : (t.pc r).blocks ≠ true := by
    intro hb
    cases (Pc.inBlock_of_blocks hb).symm.trans h
  have hwaits : (t.pc r).waits ≠ true := fun hw => hblocks (Pc.blocks_of_waits hw)
  refine ⟨?_,?_,?_,?_⟩
  · intro hin
    cases hin.symm.trans h
  · exact fun hb => absurd hb hblocks
  · exact placed_of_not_blind fun hb => hwaits (Pc.waits_of_blind hb)
  · exact fun hw => absurd hw hwaits

theorem kept_of_not_waits (ho : t.owner = some r) (hb : (t.pc r).blocks = true → t.isBlocking = true)
    (hw : (t.pc r).waits = false) : Kept t r := by
  have hwaits : (t.pc r).waits ≠ true := by
    intro h
    cases h.symm.trans hw
  exact ⟨fun _ => ho,hb,placed_of_not_blind fun hb => hwaits (Pc.waits_of_blind hb),
    fun h => absurd h hwaits⟩

variable [DecidableEq ρ]

theorem pc_setPc (pc : Pc) : (s.setPc r pc).pc r = pc := update_self ..

theorem routine_setRoutine : (s.setRoutine r x).routine r = x := update_self ..

theorem Kept.register (h : Kept s r) (hpc : s.pc r = .registering isRead) (hrun : (s.routine r).turn = .running)
    (ht : s.register r isRead = some t) : Kept t r := by
  have ho : s.owner = some r := h.owner (by rw [hpc]; rfl)
  have hb : s.isBlocking = true := h.blocking (by rw [hpc]; rfl)
  rw [State.register] at ht
  split at ht
  · cases ht
  · split at ht <;> cases ht
    · refine ⟨fun _ => ho,fun _ => hb,?_,?_⟩
      · rw [pc_setPc]
        exact hrun
      · intro _ hans
        -- no callback has run since this registration
        change update s.answered r false r = true at hans
        rw [update_self] at hans
        cases hans
    · exact kept_of_not_waits ho (fun _ => hb) (by rw [pc_setPc]; rfl)

theorem Kept.run (h : Kept s r) (hrun : (s.routine r).turn = .running) (ht : s.run fd r = some t) : Kept t r := by
  have ho := h.owner
  have hb := h.blocking
  have hdue := h.due
  rw [State.run] at ht
  cases hpc : s.pc r with rw [hpc] at ho hb hdue ht
  | outside => cases ht
  | elsewhere | refused | leaving =>
    cases ht
    exact kept_of_not_inBlock (by rw [pc_setPc]; rfl)
  | entering =>
    cases ht
    refine kept_of_not_waits (ho rfl) (fun _ => rfl) ?_
    rw [pc_setPc]
    split <;> rfl
  | filling | hung =>
    cases ht
    exact kept_of_not_waits (ho rfl) (fun _ => hb rfl) (by rw [pc_setPc]; rfl)
  | registering => exact h.register hpc hrun ht
  | registered =>
    cases ht
    refine ⟨fun _ => ho rfl,fun _ => hb rfl,?_,?_⟩
    · rw [pc_setPc]
      change Placed ((s.setRoutine r _).routine r) _
      rw [routine_setRoutine]
      exact ⟨hrun,rfl⟩
    · intro _ hans
      change ((s.setRoutine r _).routine r).Due _ _
      rw [routine_setRoutine]
      exact due_of_flag ((hdue rfl hans).2 rfl)
  | parking =>
    cases ht
    refine ⟨fun _ => ho rfl,fun _ => hb rfl,?_,?_⟩
    · rw [pc_setPc]
      trivial
    · intro _ hans
      change ((s.setRoutine r _).routine r).Due _ _
      rw [routine_setRoutine]
      exact due_of_flag ((hdue rfl hans).2 rfl)

theorem register_frame (hq : q ≠ r) (ht : s.register r isRead = some t) : Frame s t r q := by
  rw [register] at ht
  split at ht
  · cases ht
  · split at ht <;> cases ht
    · exact ⟨rfl,update_of_ne hq ..,rfl,update_of_ne hq ..,.inl rfl⟩
    · exact ⟨rfl,update_of_ne hq ..,rfl,rfl,.inl rfl⟩

theorem run_frame (hq : q ≠ r) (ht : s.run fd r = some t) : Frame s t r q := by
  cases hpc : s.pc r with rw [run,hpc] at ht
  | outside =>
    cases ht
  | elsewhere | registered | parking =>
    cases ht
    exact ⟨update_of_ne hq ..,update_of_ne hq ..,rfl,rfl,.inl rfl⟩
  | entering =>
    cases ht
    exact ⟨rfl,update_of_ne hq ..,rfl,rfl,.inr (.inl rfl)⟩
  | filling | hung =>
    cases ht
    exact ⟨rfl,update_of_ne hq ..,rfl,rfl,.inl rfl⟩
  | registering =>
    exact register_frame hq ht
  | refused | leaving =>
    cases ht
    exact ⟨rfl,update_of_ne hq ..,rfl,rfl,.inr (.inr (by rw [hpc]; rfl))⟩

theorem Placed.setUpdateFlag (h : Placed x pc) : Placed x.setUpdateFlag pc := by
  cases pc with
  | registered => exact h
  | parking => exact ⟨h.1,h.2⟩
  | outside | elsewhere | entering | filling | registering | refused | hung | leaving => trivial

theorem Kept.flag (h : Kept s q) (ho : s.owner = some r) :
    Kept (s.setRoutine r (s.routine r).setUpdateFlag).finish q := by
  by_cases hq : q = r
  · subst hq
    refine ⟨h.owner,h.blocking,?_,fun _ _ => ?_⟩
    · change Placed ((s.setRoutine q _).routine q) (s.pc q)
      rw [routine_setRoutine]
      exact h.placed.setUpdateFlag
    · change ((s.setRoutine q _).routine q).Due _ _
      rw [routine_setRoutine]
      exact due_of_flag rfl
  · have hk : Kept (s.setRoutine r (s.routine r).setUpdateFlag) q :=
      h.congr (update_of_ne hq ..) rfl (fun _ => rfl) (fun _ => rfl) rfl
    refine hk.finish fun hw => ?_
    -- a routine that waits is the one of the handler
    have hin := h.owner (Pc.inBlock_of_blocks (Pc.blocks_of_waits hw))
    exact absurd (some_inj.mp (hin.symm.trans ho)) hq

theorem Kept.respond (h : Kept s r) (hs : s.Sound .callback) (ht : s.respond = some t) : Kept t r := by
  cases hc : s.callback with rw [State.respond,hc] at ht
  | idle | done =>
    cases ht
  | testing =>
    cases ht
    split
    case isTrue hskip =>
      refine h.finish fun hw => ?_
      have hblocks := Pc.blocks_of_waits hw
      rw [h.blocking hblocks,h.owner (Pc.inBlock_of_blocks hblocks)] at hskip
      cases hskip
    case isFalse => exact h.congr rfl rfl (fun _ => rfl) (fun _ => rfl) rfl
  | storing =>
    cases ht
    exact h.congr rfl rfl (fun _ => rfl) (fun _ => rfl) rfl
  | looking =>
    obtain ⟨q,ho,rfl⟩ := map_eq_some_iff.mp ht
    split
    case isTrue => exact h.congr rfl rfl (fun _ => rfl) (fun _ => rfl) rfl
    case isFalse hstate =>
      by_cases hr : r = q
      · subst hr
        exact h.pass hstate (hs hc r)
      · refine h.finish fun hw => ?_
        have hin := h.owner (Pc.inBlock_of_blocks (Pc.blocks_of_waits hw))
        exact absurd (some_inj.mp (hin.symm.trans ho)) hr
  | flagging =>
    obtain ⟨q,ho,rfl⟩ := map_eq_some_iff.mp ht
    exact h.flag ho

theorem Kept.block {timeoutMs : Int32} (h : Kept s q) (hs : s.Sound (.block r timeoutMs isRead)) :
    Kept (s.block fd r timeoutMs isRead) q := by
  by_cases hbad : timeoutMs = 0 ∨ fd < 0
  · rw [State.block,State.check,if_pos hbad]
    exact h
  · have hblock : s.block fd r timeoutMs isRead =
        { s with owner := some r }.setPc r (.entering timeoutMs isRead) := by
      rw [State.block,State.check,if_neg hbad]
      rfl
    rw [hblock]
    by_cases hq : q = r
    · subst hq
      refine kept_of_not_waits rfl (fun hb => ?_) (by rw [pc_setPc]; rfl)
      rw [pc_setPc] at hb
      cases hb
    · -- nobody else is in the call
      have hno : (s.pc q).inBlock = false := by
        rw [Bool.eq_false_iff]
        exact fun hin => hq (hs q hin)
      refine kept_of_not_inBlock ?_
      change (update s.pc r _ q).inBlock = false
      rwa [update_of_ne hq]

theorem Kept.step {e : Event ρ} (h : ∀ r, Kept s r) (hs : s.Sound e) (he : s.step fd e = some t) (q : ρ) :
    Kept t q := by
  cases e with rw [State.step] at he
  | advance r =>
    obtain ⟨y,hy,rfl⟩ := map_eq_some_iff.mp he
    by_cases hq : q = r
    · subst hq
      exact (h q).advance hy routine_setRoutine rfl rfl rfl rfl
    · exact (h q).congr (update_of_ne hq ..) rfl (fun _ => rfl) (fun _ => rfl) rfl
  | block =>
    obtain ⟨_,he⟩ := ite_none_right_eq_some.mp he
    cases he
    exact (h q).block hs
  | blockOutside =>
    cases he
    rw [check]
    split
    · exact h q
    · exact kept_of_not_inBlock (hs q)
  | wait r =>
    obtain ⟨_,he⟩ := ite_none_right_eq_some.mp he
    cases he
    by_cases hq : q = r
    · subst hq
      exact kept_of_not_inBlock (by rw [pc_setPc]; rfl)
    · exact (h q).congr (update_of_ne hq ..) (update_of_ne hq ..) (fun _ => rfl) (fun _ => rfl) rfl
  | run r =>
    obtain ⟨hrun,he⟩ := ite_none_right_eq_some.mp he
    by_cases hq : q = r
    · subst hq
      exact (h q).run hrun he
    · exact (h r).of_frame (h q) hq (run_frame hq he)
  | unblock =>
    cases he
    exact kept_of_not_inBlock (hs q)
  | unregister =>
    split at he <;> cases he
    exact (h q).congr rfl rfl (fun _ => rfl) (fun _ => rfl) rfl
  | poller =>
    obtain ⟨poller,callback,rfl⟩ := pollerStep_frame he
    exact (h q).congr rfl rfl (fun _ => rfl) (fun _ => rfl) rfl
  | callback => exact (h q).respond hs he

theorem sound_kept (h : (system ρ pipe fd).ReachableWhile State.Sound s) (r : ρ) : Kept s r := by
  revert r
  apply h.invariant
  · rintro _ rfl r
    exact kept_of_not_inBlock rfl
  · intro _ _ _ hi hs he
    exact Kept.step hi hs he

/-- No routine is parked in `Block` after its response callback has run, in every run in which one routine
at a time uses the handler and the callback finds no routine between `Register` and `IO_WAIT`. -/
theorem response_wakes (h : (system ρ pipe fd).ReachableWhile State.Sound s) {isRead : Bool}
    (hpc : s.pc r = .hung isRead) (ha : s.answered r = true) : ¬ (s.routine r).Parked .ioWait := by
  have hdue := (sound_kept h r).due
  rw [hpc] at hdue
  exact (hdue rfl ha).1

def responding : List (Event Unit) :=
  [.poller .handleChanges,.poller (.ctl 3),.poller (.ctl 5),.poller (.poll 1 [(5, Poller.epollIn)]),
    .poller (.respond 5)]

/-- The response comes when the routine waits. -/
theorem response_wakes_waiting : ∃ s : State Unit, s.pc () = .hung true ∧ s.answered () = true ∧
    (s.routine ()).state = .ioWait ∧ s.response = Poller.epollIn ∧ ¬ (s.routine ()).Parked .ioWait := by
  obtain ⟨s,hs,hp⟩ := System.reachableWhile_of_exec (system Unit 3 5) State.Sound
    (List.replicate 3 (Event.advance () false) ++ [Event.block () (-1) true] ++
      List.replicate 5 (Event.run ()) ++ responding ++ List.replicate 4 Event.callback)
    (fun s => s.pc () = .hung true ∧ s.answered () = true ∧ (s.routine ()).state = .ioWait ∧
      s.response = Poller.epollIn) rfl (by decide +kernel)
  obtain ⟨hpc,ha,hst,hr⟩ := of_decide_eq_true hp
  exact ⟨s,hpc,ha,hst,hr,response_wakes hs hpc ha⟩

/-- The response comes between `Register` and the store of `IO_WAIT`. Its one-shot entry is spent. -/
theorem response_lost : ∃ s : State Unit, (system Unit 3 5).Reachable s ∧ s.pc () = .hung true ∧
    s.answered () = true ∧ (s.routine ()).Parked .ioWait ∧ s.response = Poller.epollIn ∧
    s.callback = .idle ∧ (s.poller.kernel 5).map (·.armed) = some false := by
  obtain ⟨s,hs,hp⟩ := System.reachable_of_exec (system Unit 3 5)
    (List.replicate 3 (Event.advance () false) ++ [Event.block () (-1) true] ++
      List.replicate 3 (Event.run ()) ++ responding ++ List.replicate 3 Event.callback ++
      [Event.poller .returned,Event.run (),Event.run ()])
    (fun s => s.pc () = .hung true ∧ s.answered () = true ∧ (s.routine ()).Parked .ioWait ∧
      s.response = Poller.epollIn ∧ s.callback = .idle ∧
      (s.poller.kernel 5).map (·.armed) = some false) rfl (by decide +kernel)
  exact ⟨s,hs,of_decide_eq_true hp⟩

end Apollo.Cyber.Io.PollHandler
