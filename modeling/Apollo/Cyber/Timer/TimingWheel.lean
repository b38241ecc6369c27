import Apollo.Foundation.Transition
import Apollo.Foundation.Bucket
import Mathlib.Data.Nat.Bitwise

/-! `TimingWheel`: a work wheel of one bucket per tick and an assistant wheel of one bucket per lap of the work wheel.
`TickFunc` is split where it sleeps, since that is where tasks are added; buckets hold weak pointers, so a task may
expire while it waits. -/
namespace Apollo.Cyber.Timer.TimingWheel
open Foundation Bucket

def workWheelSize : Nat := 512

def assistantWheelSize : Nat := 64

def timerMaxIntervalMs : Nat := workWheelSize*assistantWheelSize

def getWorkWheelIndex (index : Nat) : Nat := index &&& (workWheelSize - 1)

def getAssistantWheelIndex (index : Nat) : Nat := index &&& (assistantWheelSize - 1)

/-- The fields of a task that the wheel uses; `alive` while somebody holds it. -/
structure TimerTask where
  nextFireDurationMs : Nat
  remainderIntervalMs : Nat
  alive : Bool
  deriving DecidableEq

/-- Whether `TickFunc` runs `Tick` next or sleeps after it. -/
inductive Phase
  | tick
  | sleep
  deriving DecidableEq

/-- `dispatched` are the tasks handed to `Async` by each `Tick`, the latest one last. -/
structure State (ι : Type) where
  tasks : ι → TimerTask
  running : Bool
  workWheel : Nat → List ι
  assistantWheel : Nat → List ι
  currentWorkWheelIndex : Nat
  currentAssistantWheelIndex : Nat
  phase : Phase
  dispatched : List (List ι)

/-- `add` sets the duration of a task and adds it, `expire` drops its last strong pointer and
`timer` is the next part of the loop of `TickFunc`. -/
inductive Event (ι : Type)
  | add (x : ι) (durationMs : Nat)
  | expire (x : ι)
  | timer
  | shutdown

variable {ι : Type}

def init : State ι where
  tasks _ := ⟨0,0,true⟩
  running := false
  workWheel _ := []
  assistantWheel _ := []
  currentWorkWheelIndex := 0
  currentAssistantWheelIndex := 0
  phase := .tick
  dispatched := []

namespace State

/-- The thread starts at the head of the loop of `TickFunc`. -/
def start (s : State ι) : State ι :=
  if s.running then s else { s with running := true, phase := .tick }

def tick (s : State ι) : State ι :=
  let bucket := s.workWheel s.currentWorkWheelIndex
  { s with
    workWheel := clear s.workWheel s.currentWorkWheelIndex
    dispatched := s.dispatched ++ [bucket.filter fun x => (s.tasks x).alive] }

variable [DecidableEq ι]

def setTask (s : State ι) (x : ι) (t : TimerTask) : State ι :=
  { s with tasks := Function.update s.tasks x t }

def cascade (s : State ι) (assistantWheelIndex : Nat) : State ι :=
  { s with
    workWheel := pushAll (fun x => (s.tasks x).alive)
      (fun x => (s.tasks x).remainderIntervalMs) (s.assistantWheel assistantWheelIndex) s.workWheel
    assistantWheel := clear s.assistantWheel assistantWheelIndex }

def addTaskAt (s : State ι) (x : ι) (currentWorkWheelIndex : Nat) : State ι :=
  let s := s.start
  let workWheelIndex := (currentWorkWheelIndex+(s.tasks x).nextFireDurationMs)%2^64
  if workWheelSize ≤ workWheelIndex then
    let realWorkWheelIndex := getWorkWheelIndex workWheelIndex
    let s := s.setTask x { s.tasks x with remainderIntervalMs := realWorkWheelIndex }
    let assistantTicks := workWheelIndex/workWheelSize
    if assistantTicks = 1 ∧ realWorkWheelIndex ≠ s.currentWorkWheelIndex then
      { s with workWheel := push s.workWheel realWorkWheelIndex x }
    else
      let assistantWheelIndex := getAssistantWheelIndex ((s.currentAssistantWheelIndex+assistantTicks)%2^64)
      { s with assistantWheel := push s.assistantWheel assistantWheelIndex x }
  else { s with workWheel := push s.workWheel workWheelIndex x }

def addTask (s : State ι) (x : ι) : State ι := s.addTaskAt x s.currentWorkWheelIndex

/-- `TickFunc` after the sleep. -/
def advance (s : State ι) : State ι :=
  let s := { s with currentWorkWheelIndex := getWorkWheelIndex (s.currentWorkWheelIndex+1) }
  if s.currentWorkWheelIndex = 0 then
    let s := { s with currentAssistantWheelIndex := getAssistantWheelIndex (s.currentAssistantWheelIndex+1) }
    s.cascade s.currentAssistantWheelIndex
  else s

def tickFunc (s : State ι) : State ι :=
  match s.phase with
  | .tick => { s.tick with phase := .sleep }
  | .sleep => { s.advance with phase := .tick }

/-- The thread leaves its loop at the next check of `running_`, which `Shutdown` waits for. -/
def shutdown (s : State ι) : State ι :=
  if s.running then
    match s.phase with
    | .tick => { s with running := false }
    | .sleep => { s.tickFunc with running := false }
  else s

def step (s : State ι) : Event ι → Option (State ι)
  | .add x d =>
      if (s.tasks x).alive then
        some ((s.setTask x { s.tasks x with nextFireDurationMs := d }).addTask x)
      else none
  | .expire x => some (s.setTask x { s.tasks x with alive := false })
  | .timer => if s.running then some s.tickFunc else none
  | .shutdown => some s.shutdown

end State

def system (ι : Type) [DecidableEq ι] : System (State ι) (Event ι) where
  initial s := s = init
  step := State.step

open Foundation.Bucket Function State Nat
variable {ι : Type} {s t : State ι} {x y : ι} {d m : Nat}

/-- The indices stay inside the wheels, and a stopped thread left no round unfinished. -/
structure Wf (s : State ι) : Prop where
  work : s.currentWorkWheelIndex < workWheelSize
  assistant : s.currentAssistantWheelIndex < assistantWheelSize
  remainder : ∀ x, (s.tasks x).remainderIntervalMs < workWheelSize
  stopped : s.running = false → s.phase = .tick

/-- The bucket, counted from the start of the lap, that the next `Tick` serves. -/
def State.upcoming (s : State ι) : Nat :=
  match s.phase with
  | .tick => s.currentWorkWheelIndex
  | .sleep => s.currentWorkWheelIndex+1

theorem getWorkWheelIndex_eq (n : Nat) : getWorkWheelIndex n = n%workWheelSize := and_two_pow_sub_one_eq_mod n 9

theorem getAssistantWheelIndex_eq (n : Nat) : getAssistantWheelIndex n = n%assistantWheelSize :=
  and_two_pow_sub_one_eq_mod n 6

theorem init_wf : Wf (init : State ι) := ⟨zero_lt_succ _,zero_lt_succ _,fun _ => zero_lt_succ _,fun _ => rfl⟩

theorem start_eq (hw : Wf s) : s.start = { s with running := true } := by
  unfold start
  cases hr : s.running with
  | true =>
    obtain ⟨_,running⟩ := s
    cases hr
    rfl
  | false =>
    have := hw.stopped hr
    obtain ⟨_,_,_,_,_,_,_⟩ := s
    cases this
    rfl

theorem tickFunc_tick (hp : s.phase = .tick) : s.tickFunc = { s.tick with phase := .sleep } := by
  rw [tickFunc,hp]

theorem tickFunc_sleep (hp : s.phase = .sleep) : s.tickFunc = { s.advance with phase := .tick } := by
  rw [tickFunc,hp]

theorem advance_inner (h : s.currentWorkWheelIndex+1 < workWheelSize) :
    s.advance = { s with currentWorkWheelIndex := s.currentWorkWheelIndex+1 } := by
  rw [advance,getWorkWheelIndex_eq,mod_eq_of_lt h]
  exact if_neg (succ_ne_zero _)

theorem advance_wrap (h : s.currentWorkWheelIndex+1 = workWheelSize) : s.advance = { s with
      currentWorkWheelIndex := 0
      currentAssistantWheelIndex := (s.currentAssistantWheelIndex+1)%assistantWheelSize
      }.cascade ((s.currentAssistantWheelIndex+1)%assistantWheelSize) := by
  rw [advance,getWorkWheelIndex_eq,h,mod_self,if_pos rfl,getAssistantWheelIndex_eq]

theorem upcoming_congr (hw : t.currentWorkWheelIndex = s.currentWorkWheelIndex)
    (hp : t.phase = s.phase) : t.upcoming = s.upcoming := by
  rw [upcoming,upcoming,hw,hp]

theorem upcoming_bounds (s : State ι) :
    s.currentWorkWheelIndex ≤ s.upcoming ∧ s.upcoming ≤ s.currentWorkWheelIndex+1 := by
  unfold upcoming
  split <;> omega

/-- The comparison with the current index lets a task of more than one lap into the work
wheel, in front of the current index. -/
def Slips (s : State ι) (d : Nat) : Prop := workWheelSize < d ∧ s.currentWorkWheelIndex+d < 2*workWheelSize

instance (s : State ι) (d : Nat) : Decidable (Slips s d) := inferInstanceAs (Decidable (_ ∧ _))

/-- The `Tick`, counted from the insertion, that dispatches a task of duration `d`. -/
def dueTick (s : State ι) (d : Nat) : Nat :=
  (if Slips s d then d - workWheelSize else d)+match s.phase with
    | .tick => 1
    | .sleep => 0

theorem upcoming_add_dueTick (s : State ι) (d : Nat) : s.upcoming+dueTick s d =
    (if Slips s d then s.currentWorkWheelIndex+d - workWheelSize else s.currentWorkWheelIndex+d)+1 := by
  unfold upcoming dueTick
  by_cases hs : Slips s d
  · have := hs.1
    simp only [if_pos hs]
    cases s.phase <;> dsimp only <;> omega
  · simp only [if_neg hs]
    cases s.phase <;> dsimp only <;> omega

theorem slot_work {w : Nat} (hw : Wf s) (hd : 1 ≤ d) (he : w = s.currentWorkWheelIndex+d)
    (hplace : w < workWheelSize ∨ w/workWheelSize = 1 ∧ w%workWheelSize ≠ s.currentWorkWheelIndex) (m : Nat) :
    m < workWheelSize ∧ (s.upcoming+m)%workWheelSize = w%workWheelSize ↔ m+1 = dueTick s d := by
  have hcur := hw.work
  have hsum := upcoming_add_dueTick s d
  have hbounds := upcoming_bounds s
  generalize dueTick s d = k at *
  generalize s.upcoming = u at *
  by_cases hslip : Slips s d
  · have := hslip.1
    rw [if_pos hslip] at hsum
    unfold workWheelSize at *
    omega
  · rw [if_neg hslip] at hsum
    unfold Slips workWheelSize at *
    omega

theorem slot_assistant {w : Nat} (hw : Wf s) (hd : 1 ≤ d) (hd' : d < timerMaxIntervalMs)
    (he : w = s.currentWorkWheelIndex+d) (hle : workWheelSize ≤ w)
    (hlap : w/workWheelSize = 1 → w%workWheelSize = s.currentWorkWheelIndex) (m : Nat) :
    ((s.upcoming+m)%workWheelSize = w%workWheelSize ∧
        1 ≤ (s.upcoming+m)/workWheelSize ∧ (s.upcoming+m)/workWheelSize ≤ assistantWheelSize) ∧
      (s.currentAssistantWheelIndex+(s.upcoming+m)/workWheelSize)%assistantWheelSize =
        (s.currentAssistantWheelIndex+w/workWheelSize)%assistantWheelSize ↔
      m+1 = dueTick s d := by
  have hcur := hw.work
  have hsum := upcoming_add_dueTick s d
  have hslip : ¬ Slips s d := by
    unfold Slips workWheelSize at *
    omega
  rw [if_neg hslip] at hsum
  generalize dueTick s d = k at *
  generalize s.upcoming = u at *
  unfold timerMaxIntervalMs workWheelSize assistantWheelSize at *
  omega

theorem ite_add_ite {p q : Prop} [Decidable p] [Decidable q] (c : Nat) :
    (if p then c+(if q then 1 else 0) else 0) = (if p then c else 0)+if p ∧ q then 1 else 0 := by
  by_cases hp : p <;> simp [hp]

variable [DecidableEq ι]

/-- How often a live task is dispatched by the `Tick` that `m` others precede. -/
def forecast (s : State ι) (x : ι) (m : Nat) : Nat :=
  (if m < workWheelSize then (s.workWheel ((s.upcoming+m)%workWheelSize)).count x else 0) +
  if (s.upcoming+m)%workWheelSize = (s.tasks x).remainderIntervalMs ∧
      1 ≤ (s.upcoming+m)/workWheelSize ∧ (s.upcoming+m)/workWheelSize ≤ assistantWheelSize then
    (s.assistantWheel ((s.currentAssistantWheelIndex+(s.upcoming+m)/workWheelSize) % assistantWheelSize)).count x
  else 0

def Idle (s : State ι) (x : ι) : Prop :=
  (∀ b < workWheelSize, (s.workWheel b).count x = 0) ∧
  ∀ b < assistantWheelSize, (s.assistantWheel b).count x = 0

theorem Idle.forecast (h : Idle s x) (m : Nat) : forecast s x m = 0 := by
  have hwork := h.1 _ (mod_lt (s.upcoming+m) (by decide))
  have hassist := h.2 _ (mod_lt (s.currentAssistantWheelIndex+(s.upcoming+m)/workWheelSize) (by decide))
  simp only [TimingWheel.forecast,hwork,hassist,ite_self]

/-! `AddTask` -/

structure Inserted (s : State ι) (x : ι) (workWheelIndex : Nat) (t : State ι) : Prop where
  others : ∀ y, y ≠ x → t.tasks y = s.tasks y
  alive : (t.tasks x).alive = true
  remainder : (t.tasks x).remainderIntervalMs < workWheelSize
  running : t.running = true
  work : t.currentWorkWheelIndex = s.currentWorkWheelIndex
  assistant : t.currentAssistantWheelIndex = s.currentAssistantWheelIndex
  phase : t.phase = s.phase
  dispatched : t.dispatched = s.dispatched
  place : (workWheelIndex < workWheelSize ∧ t.workWheel = push s.workWheel workWheelIndex x ∧
      t.assistantWheel = s.assistantWheel) ∨
    (workWheelIndex/workWheelSize = 1 ∧ workWheelIndex%workWheelSize ≠ s.currentWorkWheelIndex ∧
      t.workWheel = push s.workWheel (workWheelIndex%workWheelSize) x ∧
      t.assistantWheel = s.assistantWheel) ∨
    (workWheelSize ≤ workWheelIndex ∧ (workWheelIndex/workWheelSize = 1 →
        workWheelIndex%workWheelSize = s.currentWorkWheelIndex) ∧
      (t.tasks x).remainderIntervalMs = workWheelIndex%workWheelSize ∧
      t.workWheel = s.workWheel ∧ t.assistantWheel = push s.assistantWheel
        ((s.currentAssistantWheelIndex+workWheelIndex/workWheelSize)%assistantWheelSize) x)

theorem addTaskAt_inserted (hw : Wf s) (ha : (s.tasks x).alive = true) (i : Nat) :
    Inserted s x ((i+(s.tasks x).nextFireDurationMs)%2^64) (s.addTaskAt x i) := by
  have others : ∀ task y, y ≠ x → update s.tasks x task y = s.tasks y :=
    fun _ _ hy => update_of_ne hy ..
  rw [addTaskAt,start_eq hw]
  dsimp only
  generalize (i+(s.tasks x).nextFireDurationMs)%2^64 = w
  have hrem : w%workWheelSize < workWheelSize := mod_lt _ (by decide)
  split
  · next hle =>
    split
    · next hc =>
      rw [getWorkWheelIndex_eq] at hc ⊢
      exact ⟨others _,by simp [setTask,ha],by simp [setTask,hrem],rfl,rfl,rfl,rfl,
        rfl,.inr (.inl ⟨hc.1,hc.2,rfl,rfl⟩)⟩
    · next hc =>
      rw [getWorkWheelIndex_eq] at hc
      rw [getWorkWheelIndex_eq,getAssistantWheelIndex_eq]
      refine ⟨others _,by simp [setTask,ha],by simp [setTask,hrem],rfl,rfl,rfl,rfl,
        rfl,.inr (.inr ⟨hle,fun h1 => ?_,by simp [setTask],rfl,?_⟩)⟩
      · by_contra hne
        exact hc ⟨h1,hne⟩
      · rw [mod_mod_of_dvd _ (by decide)]
        rfl
  · next hlt =>
    exact ⟨fun _ _ => rfl,ha,hw.remainder x,rfl,rfl,rfl,rfl,rfl,.inl ⟨Nat.lt_of_not_le hlt,rfl,rfl⟩⟩

theorem add_inserted (hw : Wf s) (h : s.step (.add x d) = some t) :
    Inserted s x ((s.currentWorkWheelIndex+d)%2^64) t := by
  rw [step] at h
  split at h
  · next ha =>
    cases h
    generalize hu : s.setTask x { s.tasks x with nextFireDurationMs := d } = u
    have hx : u.tasks x = { s.tasks x with nextFireDurationMs := d } := by
      rw [← hu]
      exact update_self ..
    have hwu : Wf u := by
      subst hu
      refine ⟨hw.work,hw.assistant,?_,hw.stopped⟩
      exact (forall_update_iff s.tasks (p := fun _ t => t.remainderIntervalMs < _)).mpr
        ⟨hw.remainder x,fun y _ => hw.remainder y⟩
    have := addTaskAt_inserted hwu (by rw [hx]; exact ha) u.currentWorkWheelIndex
    rw [hx] at this
    subst hu
    refine ⟨fun y hy => (this.others y hy).trans ?_,this.alive,this.remainder,this.running,
      this.work,this.assistant,this.phase,this.dispatched,this.place⟩
    exact update_of_ne hy ..
  · cases h

theorem forecast_congr (hu : t.upcoming = s.upcoming)
    (hj : t.currentAssistantWheelIndex = s.currentAssistantWheelIndex)
    (hr : (t.tasks x).remainderIntervalMs = (s.tasks x).remainderIntervalMs)
    (hw : ∀ b, (t.workWheel b).count x = (s.workWheel b).count x)
    (ha : ∀ b, (t.assistantWheel b).count x = (s.assistantWheel b).count x) (m : Nat) :
    forecast t x m = forecast s x m := by
  simp only [forecast,hu,hj,hr,hw,ha]

theorem Inserted.count_other {w : Nat} (hi : Inserted s y w t) (hy : y ≠ x) (b : Nat) :
    (t.workWheel b).count x = (s.workWheel b).count x ∧
    (t.assistantWheel b).count x = (s.assistantWheel b).count x := by
  rcases hi.place with ⟨_,hw,ha⟩ | ⟨_,_,hw,ha⟩ | ⟨_,_,_,hw,ha⟩ <;> rw [hw,ha]
  · exact ⟨push_count_of_ne hy,rfl⟩
  · exact ⟨push_count_of_ne hy,rfl⟩
  · exact ⟨rfl,push_count_of_ne hy⟩

/-- The insertion adds one dispatch, by the tick that its duration leads to. Copies that are
in the wheel already get the new remainder. -/
theorem Inserted.forecast (hw : Wf s) (hi : Inserted s x ((s.currentWorkWheelIndex+d)%2^64) t)
    (hd : 1 ≤ d) (hd' : d < timerMaxIntervalMs) (m : Nat) :
    forecast t x m = TimingWheel.forecast { s with tasks := t.tasks } x m +
      if m+1 = dueTick s d then 1 else 0 := by
  have hu := upcoming_congr hi.work hi.phase
  have hu' : ({ s with tasks := t.tasks } : State ι).upcoming = s.upcoming := rfl
  have hsmall : s.currentWorkWheelIndex+d < 2^64 := by
    have := hw.work
    unfold timerMaxIntervalMs workWheelSize assistantWheelSize at *
    omega
  have hplace := hi.place
  rw [mod_eq_of_lt hsmall] at hplace
  generalize he : s.currentWorkWheelIndex+d = w at hplace
  simp only [TimingWheel.forecast,hu,hu',hi.assistant]
  rcases hplace with ⟨hlt,hpw,hpa⟩ | ⟨hlap,hne,hpw,hpa⟩ | ⟨hle,hlap,hr,hpw,hpa⟩
  · have hslot := slot_work hw hd he.symm (.inl hlt) m
    rw [mod_eq_of_lt hlt] at hslot
    rw [hpw,hpa,push_count_self,ite_add_ite,if_congr hslot rfl rfl,add_right_comm]
  · have hslot := slot_work hw hd he.symm (.inr ⟨hlap,hne⟩) m
    rw [hpw,hpa,push_count_self,ite_add_ite,if_congr hslot rfl rfl,add_right_comm]
  · have hslot := slot_assistant hw hd hd' he.symm hle hlap m
    rw [hpw,hpa,push_count_self,ite_add_ite,hr,if_congr hslot rfl rfl,add_assoc]

theorem tickFunc_forecast_tick (hw : Wf s) (hp : s.phase = .tick) (m : Nat) :
    forecast s.tickFunc x m = forecast s x (m+1) := by
  have hcur := hw.work
  have hup : s.upcoming = s.currentWorkWheelIndex := by rw [upcoming,hp]
  have hup' : s.tickFunc.upcoming = s.currentWorkWheelIndex+1 := by rw [tickFunc_tick hp]; rfl
  have hslot : s.currentWorkWheelIndex+1+m = s.currentWorkWheelIndex+(m+1) := by omega
  unfold forecast
  rw [hup,hup',hslot,tickFunc_tick hp]
  dsimp only [tick]
  congr 1
  rw [clear_count]
  by_cases hm : m+1 < workWheelSize
  · rw [if_pos hm,if_pos (by omega),if_neg (by unfold workWheelSize at *; omega)]
  · rw [if_neg hm]
    split
    · rw [if_pos (by unfold workWheelSize at *; omega)]
    · rfl

theorem served_count (hw : Wf s) (hp : s.phase = .tick) (ha : (s.tasks x).alive = true) :
    ((s.workWheel s.currentWorkWheelIndex).filter fun y => (s.tasks y).alive).count x = forecast s x 0 := by
  have hcur := hw.work
  have hup : s.upcoming = s.currentWorkWheelIndex := by rw [upcoming,hp]
  rw [List.count_filter (p := fun y => (s.tasks y).alive) ha]
  unfold forecast
  rw [hup,add_zero,mod_eq_of_lt hcur,div_eq_of_lt hcur]
  simp [workWheelSize]

/-- The cascade at the end of a lap puts the tasks of the next assistant bucket into the
buckets of the work wheel that they were forecast for. -/
theorem wrap_forecast (hup : s.upcoming = s.currentWorkWheelIndex+1)
    (hc : s.currentWorkWheelIndex+1 = workWheelSize) (ha : (s.tasks x).alive = true) (m : Nat) :
    forecast { s.advance with phase := .tick } x m = forecast s x m := by
  have hup' : ({ s.advance with phase := .tick } : State ι).upcoming = 0 := by
    rw [advance_wrap hc]
    rfl
  have hdiv : (workWheelSize+m)/workWheelSize = m/workWheelSize+1 := add_div_left _ (by decide)
  unfold forecast
  rw [hup',hup,hc,zero_add,add_mod_left,hdiv,advance_wrap hc]
  dsimp only [cascade]
  rw [pushAll_count,clear_count]
  split
  case isTrue hm =>
    rw [mod_eq_of_lt hm,div_eq_of_lt hm]
    simp [ha,assistantWheelSize,eq_comm]
  case isFalse hm =>
    rw [zero_add,zero_add]
    generalize hl : m/workWheelSize = laps
    have hpos : 1 ≤ laps := by
      unfold workWheelSize at *
      omega
    have hnext : ((s.currentAssistantWheelIndex+1)%assistantWheelSize+laps)%assistantWheelSize =
        (s.currentAssistantWheelIndex+(laps+1))%assistantWheelSize := by
      rw [mod_add_mod,add_assoc,add_comm 1]
    rw [hnext]
    by_cases hle : laps+1 ≤ assistantWheelSize
    · rw [if_neg (by unfold assistantWheelSize at *; omega)]
      exact if_congr (and_congr_right fun _ => by omega) rfl rfl
    · rw [if_neg (c := _ ∧ _ ∧ laps+1 ≤ _) fun h => hle h.2.2]
      refine ite_eq_right_iff.mpr fun _ => if_pos ?_
      unfold assistantWheelSize at *
      omega

theorem tickFunc_forecast_sleep (hw : Wf s) (hp : s.phase = .sleep) (ha : (s.tasks x).alive = true)
    (m : Nat) : forecast s.tickFunc x m = forecast s x m := by
  have hup : s.upcoming = s.currentWorkWheelIndex+1 := by rw [upcoming,hp]
  rw [tickFunc_sleep hp]
  by_cases hc : s.currentWorkWheelIndex+1 < workWheelSize
  · rw [advance_inner hc]
    exact forecast_congr (t := { s with
      currentWorkWheelIndex := s.currentWorkWheelIndex+1
      phase := .tick }) hup.symm rfl rfl (fun _ => rfl) (fun _ => rfl) m
  · exact wrap_forecast hup (by have := hw.work; omega) ha m

theorem exists_forecast_pos (hw : Wf s) (h : ¬ Idle s x) : ∃ m, 0 < forecast s x m := by
  have hbounds := upcoming_bounds s
  have hcur := hw.work
  have hassist := hw.assistant
  have hrem := hw.remainder x
  by_cases hwork : ∀ b < workWheelSize, (s.workWheel b).count x = 0
  · have : ∃ b < assistantWheelSize, (s.assistantWheel b).count x ≠ 0 := by
      by_contra hc
      push Not at hc
      exact h ⟨hwork,hc⟩
    obtain ⟨b,hb,hx⟩ := this
    -- the lap in which this bucket is cascaded, at most a whole turn of the assistant wheel away
    obtain ⟨laps,hpos,hle,hlaps⟩ : ∃ laps, 1 ≤ laps ∧ laps ≤ assistantWheelSize ∧
        (s.currentAssistantWheelIndex+laps)%assistantWheelSize = b := by
      refine ⟨(b+63 - s.currentAssistantWheelIndex)%64+1,?_⟩
      unfold assistantWheelSize at *
      omega
    have hslot : s.upcoming+(workWheelSize*laps+(s.tasks x).remainderIntervalMs - s.upcoming) =
        (s.tasks x).remainderIntervalMs+workWheelSize*laps := by
      unfold workWheelSize at *
      omega
    refine ⟨workWheelSize*laps+(s.tasks x).remainderIntervalMs - s.upcoming,?_⟩
    have hmod : ((s.tasks x).remainderIntervalMs+workWheelSize*laps)%workWheelSize =
        (s.tasks x).remainderIntervalMs := by
      rw [add_mul_mod_self_left,mod_eq_of_lt hrem]
    have hdiv : ((s.tasks x).remainderIntervalMs+workWheelSize*laps)/workWheelSize = laps := by
      rw [add_mul_div_left _ _ (by decide),div_eq_of_lt hrem,zero_add]
    rw [forecast,hslot,hmod,hdiv,if_pos (c := _ ∧ _) ⟨rfl,hpos,hle⟩,hlaps]
    omega
  · push Not at hwork
    obtain ⟨b,hb,hx⟩ := hwork
    obtain ⟨m,hm,hslot⟩ : ∃ m < workWheelSize, (s.upcoming+m)%workWheelSize = b := by
      refine ⟨(b+512 - s.upcoming%512)%512,?_⟩
      unfold workWheelSize at *
      omega
    refine ⟨m,?_⟩
    rw [forecast,if_pos hm,hslot]
    omega

open Foundation.Bucket List State
variable {ι : Type} {s t : State ι} {x y : ι} {d k m n : Nat} {e : Event ι} {es : List (Event ι)}

/-- The events that expire the task or add it again. -/
def Event.Touches (x : ι) : Event ι → Prop
  | .add y _ | .expire y => y = x
  | .timer | .shutdown => False

theorem advance_dispatched (s : State ι) : s.advance.dispatched = s.dispatched := by
  unfold advance
  dsimp only
  split <;> rfl

theorem advance_tasks (s : State ι) : s.advance.tasks = s.tasks := by
  unfold advance
  dsimp only
  split <;> rfl

theorem advance_running (s : State ι) : s.advance.running = s.running := by
  unfold advance
  dsimp only
  split <;> rfl

theorem tickFunc_running (s : State ι) : s.tickFunc.running = s.running := by
  unfold tickFunc
  split
  · rfl
  · exact advance_running s

theorem sleep_wf (hw : Wf s) (hp : s.phase = .sleep) : Wf s.tickFunc := by
  rw [tickFunc_sleep hp]
  by_cases hc : s.currentWorkWheelIndex+1 < workWheelSize
  · rw [advance_inner hc]
    exact ⟨hc,hw.assistant,hw.remainder,fun _ => rfl⟩
  · rw [advance_wrap (by have := hw.work; omega)]
    exact ⟨Nat.zero_lt_succ _,Nat.mod_lt _ (Nat.zero_lt_succ _),hw.remainder,fun _ => rfl⟩

theorem dueTick_pos (hd : 1 ≤ d) : 1 ≤ dueTick s d := by
  unfold dueTick
  by_cases hs : Slips s d
  · have := hs.1
    rw [if_pos hs]
    omega
  · rw [if_neg hs]
    omega

theorem dueTick_eq_iff : dueTick s d = d ↔ s.phase = .sleep ∧ ¬ Slips s d := by
  unfold dueTick
  by_cases hs : Slips s d
  · have hlt := hs.1
    have hsize : 1 < workWheelSize := by decide
    refine iff_of_false ?_ fun h => h.2 hs
    rw [if_pos hs]
    split <;> omega
  · rw [if_neg hs]
    cases s.phase <;> simp [hs]

variable [DecidableEq ι]
variable {f : Nat → Nat} {w : Nat}

theorem Inserted.wf (hw : Wf s) (hi : Inserted s y w t) : Wf t := by
  refine ⟨hi.work ▸ hw.work,hi.assistant ▸ hw.assistant,fun x => ?_,fun hr => ?_⟩
  · by_cases hx : x = y
    · subst hx
      exact hi.remainder
    · rw [hi.others x hx]
      exact hw.remainder x
  · cases hi.running.symm.trans hr

theorem step_wf (hw : Wf s) (h : s.step e = some t) : Wf t := by
  cases e with
  | add => exact (add_inserted hw h).wf hw
  | expire y =>
    cases h
    refine ⟨hw.work,hw.assistant,?_,hw.stopped⟩
    exact (Function.forall_update_iff s.tasks (p := fun _ t => t.remainderIntervalMs < _)).mpr
      ⟨hw.remainder y,fun z _ => hw.remainder z⟩
  | timer =>
    rw [step] at h
    split at h
    · next hr =>
      cases h
      cases hp : s.phase with
      | tick =>
        rw [tickFunc_tick hp]
        exact ⟨hw.work,hw.assistant,hw.remainder,fun hf => by cases hr.symm.trans hf⟩
      | sleep => exact sleep_wf hw hp
    · cases h
  | shutdown =>
    cases h
    rw [shutdown]
    split
    · split
      · next hp => exact ⟨hw.work,hw.assistant,hw.remainder,fun _ => hp⟩
      · next hp =>
        have := sleep_wf hw hp
        exact ⟨this.work,this.assistant,this.remainder,fun _ => by rw [tickFunc_sleep hp]⟩
    · exact hw

theorem reachable_wf (h : (system ι).Reachable s) : Wf s := by
  apply h.invariant
  · rintro _ rfl
    exact init_wf
  · exact fun _ _ _ hw he => step_wf hw he

structure Keeps (x : ι) (s t : State ι) : Prop where
  tasks : t.tasks x = s.tasks x
  dispatched : t.dispatched = s.dispatched
  forecast : ∀ m, forecast t x m = forecast s x m

theorem Inserted.keeps (hi : Inserted s y w t) (hy : y ≠ x) : Keeps x s t := by
  have hx := hi.others x (Ne.symm hy)
  refine ⟨hx,hi.dispatched,forecast_congr (upcoming_congr hi.work hi.phase) hi.assistant (by rw [hx])
    (fun b => ?_) (fun b => ?_)⟩
  · exact (hi.count_other hy b).1
  · exact (hi.count_other hy b).2

theorem sleep_keeps (hw : Wf s) (ha : (s.tasks x).alive = true) (hp : s.phase = .sleep) : Keeps x s s.tickFunc := by
  refine ⟨?_,?_,tickFunc_forecast_sleep hw hp ha⟩
  · rw [tickFunc_sleep hp]
    exact congrFun (advance_tasks s) x
  · rw [tickFunc_sleep hp]
    exact advance_dispatched s

theorem step_keeps (hw : Wf s) (ha : (s.tasks x).alive = true) (h : s.step e = some t)
    (he : ¬ e.Touches x) : s.phase = .tick ∧ t = s.tickFunc ∨ Keeps x s t := by
  cases e with
  | add => exact .inr ((add_inserted hw h).keeps he)
  | expire y =>
    cases h
    have hx : (s.setTask y { s.tasks y with alive := false }).tasks x = s.tasks x :=
      Function.update_of_ne (Ne.symm he) ..
    exact .inr ⟨hx,rfl,forecast_congr rfl rfl (by rw [hx]) (fun _ => rfl) (fun _ => rfl)⟩
  | timer =>
    rw [step] at h
    split at h <;> cases h
    cases hp : s.phase with
    | tick => exact .inl ⟨rfl,rfl⟩
    | sleep => exact .inr (sleep_keeps hw ha hp)
  | shutdown =>
    cases h
    rw [shutdown]
    split
    · split
      · exact .inr ⟨rfl,rfl,fun _ => rfl⟩
      · next hp =>
        have := sleep_keeps hw ha hp
        exact .inr ⟨this.tasks,this.dispatched,this.forecast⟩
    · exact .inr ⟨rfl,rfl,fun _ => rfl⟩

/-- The ticks after the first `n` have dispatched the task as forecast, and the rest of the
forecast is ahead. -/
structure Tracked (n : Nat) (count : Nat → Nat) (x : ι) (t : State ι) : Prop where
  alive : (t.tasks x).alive = true
  past : n ≤ t.dispatched.length
  served : ∀ m l, t.dispatched[n+m]? = some l → l.count x = count m
  ahead : ∀ m, forecast t x m = count (m+(t.dispatched.length - n))

theorem Tracked.keeps (h : Tracked n f x s) (hk : Keeps x s t) : Tracked n f x t := by
  refine ⟨by rw [hk.tasks]; exact h.alive,hk.dispatched ▸ h.past,hk.dispatched ▸ h.served,?_⟩
  intro m
  rw [hk.forecast,hk.dispatched]
  exact h.ahead m

theorem Tracked.tick (hw : Wf s) (h : Tracked n f x s) (hp : s.phase = .tick) : Tracked n f x s.tickFunc := by
  have hd : s.tickFunc.dispatched =
      s.dispatched ++ [(s.workWheel s.currentWorkWheelIndex).filter fun y => (s.tasks y).alive] := by
    rw [tickFunc_tick hp]
    rfl
  have hpast := h.past
  refine ⟨?_,by rw [hd,length_append]; omega,fun m l hl => ?_,fun m => ?_⟩
  · rw [tickFunc_tick hp]
    exact h.alive
  · rw [hd] at hl
    by_cases hm : n+m < s.dispatched.length
    · rw [getElem?_append_left hm] at hl
      exact h.served m l hl
    · have hm : n+m = s.dispatched.length := by
        have := (List.getElem?_eq_some_iff.mp hl).1
        rw [length_append,length_singleton] at this
        omega
      rw [hm,getElem?_concat_length] at hl
      cases hl
      rw [served_count hw hp h.alive,h.ahead 0,← hm,Nat.zero_add,Nat.add_sub_cancel_left]
  · rw [tickFunc_forecast_tick hw hp,h.ahead,hd,length_append,length_singleton]
    congr 1
    omega

theorem step_tracked (hw : Wf s) (h : Tracked n f x s) (hs : s.step e = some t) (he : ¬ e.Touches x) :
    Tracked n f x t := by
  rcases step_keeps hw h.alive hs he with ⟨hp,rfl⟩ | hk
  · exact h.tick hw hp
  · exact h.keeps hk

theorem exec_served (hw : Wf s) (ha : (s.tasks x).alive = true) (hes : ∀ e ∈ es, ¬ e.Touches x)
    (he : (system ι).exec s es = some t) {l : List ι}
    (hl : t.dispatched[s.dispatched.length+m]? = some l) : l.count x = forecast s x m := by
  have start : Tracked s.dispatched.length (forecast s x) x s := by
    refine ⟨ha,Nat.le_refl _,fun m l hl => ?_,fun _ => by rw [Nat.sub_self,Nat.add_zero]⟩
    have := (List.getElem?_eq_some_iff.mp hl).1
    omega
  have kept : Wf t ∧ Tracked s.dispatched.length (forecast s x) x t := by
    refine System.exec_keeps (P := fun t => Wf t ∧ Tracked s.dispatched.length (forecast s x) x t) ?_ ⟨hw,start⟩ he
    exact fun _ e _ hmem hu hv => ⟨step_wf hu.1 hv,step_tracked hu.1 hu.2 hv (hes e hmem)⟩
  exact kept.2.served m l hl

theorem add_enabled (ha : (s.tasks x).alive = true) (d : Nat) : ∃ t, s.step (.add x d) = some t := ⟨_,if_pos ha⟩

theorem timer_step (hr : s.running = true) : (system ι).step s .timer = some s.tickFunc := if_pos hr

theorem exists_tick (hr : s.running = true) : ∃ es t, (∀ e ∈ es, e = Event.timer) ∧
    (system ι).exec s es = some t ∧ t.running = true ∧
    t.dispatched.length = s.dispatched.length+1 := by
  have atTick : ∀ u : State ι, u.phase = .tick → u.tickFunc.dispatched.length = u.dispatched.length+1 := by
    intro _ hu
    rw [tickFunc_tick hu]
    exact length_append
  have hr' := (tickFunc_running s).trans hr
  cases hp : s.phase with
  | tick =>
    exact ⟨[.timer],s.tickFunc,by simp,System.exec_cons.mpr ⟨_,timer_step hr,rfl⟩,hr',atTick s hp⟩
  | sleep =>
    have hp' : s.tickFunc.phase = .tick := by rw [tickFunc_sleep hp]
    have hd : s.tickFunc.dispatched = s.dispatched := by
      rw [tickFunc_sleep hp]
      exact advance_dispatched s
    refine ⟨[.timer,.timer],s.tickFunc.tickFunc,by simp,?_,(tickFunc_running _).trans hr',?_⟩
    · exact System.exec_cons.mpr ⟨_,timer_step hr,System.exec_cons.mpr ⟨_,timer_step hr',rfl⟩⟩
    · rw [atTick _ hp',hd]

theorem exists_ticks (hr : s.running = true) (n : Nat) : ∃ es t, (∀ e ∈ es, e = Event.timer) ∧
    (system ι).exec s es = some t ∧ t.running = true ∧
    t.dispatched.length = s.dispatched.length+n := by
  induction n with
  | zero => exact ⟨[],s,by simp,rfl,hr,rfl⟩
  | succ _ ih =>
    obtain ⟨es,t,hes,ht,hrt,_⟩ := ih
    obtain ⟨fs,u,hfs,hu,hru,_⟩ := exists_tick hrt
    refine ⟨es ++ fs,u,fun e he => ?_,System.exec_append.mpr ⟨t,ht,hu⟩,hru,by omega⟩
    exact (mem_append.mp he).elim (hes e) (hfs e)

/-- From `s` on, as long as the task lives and is not added again, the `k`-th `Tick`
dispatches it once and no other `Tick` does. -/
def FiresOnce (s : State ι) (x : ι) (k : Nat) : Prop :=
  ∀ es t, (∀ e ∈ es, ¬ e.Touches x) → (system ι).exec s es = some t →
    ∀ m l, t.dispatched[s.dispatched.length+m]? = some l → l.count x = if m+1 = k then 1 else 0

theorem firesOnce_iff (hw : Wf s) (ha : (s.tasks x).alive = true) (hr : s.running = true) :
    FiresOnce s x k ↔ ∀ m, forecast s x m = if m+1 = k then 1 else 0 := by
  constructor
  · intro h m
    obtain ⟨es,t,hes,he,_,_⟩ := exists_ticks hr (m+1)
    have hes : ∀ e ∈ es, ¬ e.Touches x := by
      intro e hmem
      rw [hes e hmem]
      exact id
    have hl := getElem?_eq_getElem (show s.dispatched.length+m < t.dispatched.length by omega)
    rw [← exec_served hw ha hes he hl]
    exact h es t hes he m _ hl
  · intro h _ _ hes he m _ hl
    rw [exec_served hw ha hes he hl]
    exact h m

theorem Inserted.firesOnce (hw : Wf s) (hx : Idle s x) (hi : Inserted s x ((s.currentWorkWheelIndex+d)%2^64) t)
    (hd : 1 ≤ d) (hd' : d < timerMaxIntervalMs) : FiresOnce t x (dueTick s d) := by
  have hx : Idle { s with tasks := t.tasks } x := hx
  refine (firesOnce_iff (hi.wf hw) hi.alive hi.running).mpr fun _ => ?_
  rw [hi.forecast hw hd hd',hx.forecast,Nat.zero_add]

theorem Inserted.due_of_firesOnce (hw : Wf s) (hi : Inserted s x ((s.currentWorkWheelIndex+d)%2^64) t)
    (hd : 1 ≤ d) (hd' : d < timerMaxIntervalMs) (h : FiresOnce t x k) :
    Idle s x ∧ dueTick s d = k := by
  have hsum : ∀ m, TimingWheel.forecast { s with tasks := t.tasks } x m +
      (if m+1 = dueTick s d then 1 else 0) = if m+1 = k then 1 else 0 := by
    intro _
    rw [← hi.forecast hw hd hd',(firesOnce_iff (hi.wf hw) hi.alive hi.running).mp h]
  have hk : dueTick s d = k := by
    have hpos := dueTick_pos (s := s) hd
    have := hsum (dueTick s d - 1)
    rw [Nat.sub_add_cancel hpos,if_pos rfl] at this
    split at this
    · assumption
    · omega
  subst hk
  refine ⟨?_,rfl⟩
  by_contra hx
  have hw' : Wf { s with tasks := t.tasks } := ⟨hw.work,hw.assistant,(hi.wf hw).remainder,hw.stopped⟩
  obtain ⟨m,_⟩ := exists_forecast_pos (x := x) hw' hx
  have := hsum m
  omega

/-- A task that is added while it is in no bucket is dispatched exactly once, and by the tick of its duration exactly
if it was added during a sleep and does not slip. -/
theorem fires_on_time (h : (system ι).Reachable s) (hd : 1 ≤ d) (hd' : d < timerMaxIntervalMs)
    (hadd : s.step (.add x d) = some t) :
    (Idle s x → FiresOnce t x (dueTick s d)) ∧ 1 ≤ dueTick s d ∧
    (FiresOnce t x d ↔ Idle s x ∧ s.phase = .sleep ∧ ¬ Slips s d) := by
  have hw := reachable_wf h
  have hi := add_inserted hw hadd
  refine ⟨fun hx => hi.firesOnce hw hx hd hd',dueTick_pos hd,?_⟩
  rw [← dueTick_eq_iff]
  constructor
  · exact hi.due_of_firesOnce hw hd hd'
  · rintro ⟨hx,he⟩
    have hfire := hi.firesOnce hw hx hd hd'
    rwa [he] at hfire

/-- Another task has started the wheel, which sleeps after its first `Tick`. -/
theorem sleeping : ∃ s : State Bool, (system Bool).Reachable s ∧ Idle s true ∧
    s.phase = .sleep ∧ s.currentWorkWheelIndex = 0 ∧ (s.tasks true).alive = true := by
  have hs : (system Bool).Reachable init := System.Reachable.start rfl
  obtain ⟨t,ht⟩ := add_enabled (s := init) (x := false) rfl 1
  have hi := add_inserted init_wf ht
  have hk := hi.keeps (x := true) (by decide)
  have hp := hi.phase
  have ht := hs.next (e := Event.add false 1) ht
  refine ⟨t.tickFunc,ht.next (timer_step hi.running),?_⟩
  rw [tickFunc_tick hp]
  refine ⟨⟨fun b _ => ?_,fun b _ => ?_⟩,rfl,hi.work,by dsimp only [tick]; rw [hk.tasks]; rfl⟩
  · dsimp only [tick]
    rw [clear_count,(hi.count_other (by decide) b).1]
    exact ite_self _
  · exact (hi.count_other (by decide) b).2

theorem fires_on_time_short : ∃ s t : State Bool, s.step (.add true 3) = some t ∧ FiresOnce t true 3 := by
  obtain ⟨s,hs,hx,hp,_,ha⟩ := sleeping
  obtain ⟨t,hadd⟩ := add_enabled ha 3
  refine ⟨s,t,hadd,(fires_on_time hs (by decide) (by decide) hadd).2.2.mpr ⟨hx,hp,?_⟩⟩
  exact fun h => absurd h.1 (by decide)

/-- A task of 600 ms, added at index 0, is dispatched after 88 ticks. -/
theorem long_task_fires_early : ∃ s t : State Bool, (system Bool).Reachable s ∧ Idle s true ∧
    s.phase = .sleep ∧ s.step (.add true 600) = some t ∧ FiresOnce t true 88 ∧
    ¬ FiresOnce t true 600 := by
  obtain ⟨s,hs,hx,hp,hc,ha⟩ := sleeping
  obtain ⟨t,hadd⟩ := add_enabled ha 600
  have hw := reachable_wf hs
  have hi := add_inserted hw hadd
  have hslip : Slips s 600 := by
    rw [Slips,hc]
    decide
  have hdue : dueTick s 600 = 88 := by
    rw [dueTick,if_pos hslip,hp]
    rfl
  refine ⟨s,t,hs,hx,hp,hadd,?_,fun h => ?_⟩
  · exact hdue ▸ hi.firesOnce hw hx (by decide) (by decide)
  · have := (hi.due_of_firesOnce hw (by decide) (by decide) h).2
    omega

end Apollo.Cyber.Timer.TimingWheel
