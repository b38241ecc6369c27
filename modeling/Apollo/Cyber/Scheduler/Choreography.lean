import Apollo.Cyber.Scheduler.SchedulerExclusive

/-! The tables that the calls of the choreography scheduler share, each of which finds the run queue from the attributes
of a routine. In which run queue the choreography scheduler has a routine. The mutex of an id is held from the first
operation of a call to its last one. -/
namespace Apollo.Cyber.Scheduler
open Foundation List Option Function Conf
variable {ρ θ : Type} {n k : UInt32} {tasks : List (String × ChoreographyTask)}

def QueueId.target : QueueId → Target
  | group name _ => .group name
  | own pid => .own pid

namespace Conf

/-- `RemoveCRoutine` and `NotifyProcessor` of the routine address the queue. -/
def Addresses (conf : Conf) (cr : CRoutine) (queue : QueueId) : Prop :=
  conf.removeFrom cr = some queue ∧ conf.notifyTarget cr = some queue.target

instance (conf : Conf) (cr : CRoutine) (queue : QueueId) : Decidable (conf.Addresses cr queue) :=
  inferInstanceAs (Decidable (_ ∧ _))

/-- The processor is the index of a choreography context or is left open. -/
def Fits (procNum : UInt32) (cr : CRoutine) : Prop :=
  cr.processorId = -1 ∨ 0 ≤ cr.processorId ∧ cr.processorId.toUInt32 < procNum

instance (procNum : UInt32) (cr : CRoutine) : Decidable (Fits procNum cr) := inferInstanceAs (Decidable (_ ∨ _))

theorem clampPriority_lt (cr : CRoutine) : (clampPriority cr).priority < maxPrio := by
  rw [clampPriority]
  split
  case isTrue => exact (by decide : maxPrio - 1 < maxPrio)
  case isFalse h => exact UInt32.not_le.mp h

theorem clampPriority_processorId (cr : CRoutine) : (clampPriority cr).processorId = cr.processorId := by
  rw [clampPriority]
  split <;> rfl

theorem place_processorId (cr : CRoutine) : ((choreography n k tasks).place cr).1.processorId = cr.processorId := by
  rw [place]
  split
  · rfl
  · exact clampPriority_processorId cr

theorem not_open_lt : ¬ (-1 : Int32).toUInt32 < n := by
  have hn := n.toNat_lt
  rw [UInt32.lt_iff_toNat_lt]
  change ¬ 4294967295 < n.toNat
  omega

/-- The calls for a placed routine agree exactly if its processor fits. -/
theorem addresses_place_iff (cr : CRoutine) : (choreography n k tasks).Addresses ((choreography n k tasks).place cr).1
      ((choreography n k tasks).place cr).2 ↔ Fits n cr := by
  rw [Addresses,removeFrom,notifyTarget,place_processorId]
  by_cases hopen : cr.processorId = -1
  · have hlt : ¬ cr.processorId.toUInt32 < n := hopen ▸ not_open_lt
    simp only [hopen,if_true,Fits,true_or,iff_true]
    rw [place,if_neg hlt]
    exact ⟨if_pos (clampPriority_lt cr),rfl⟩
  · rw [if_neg hopen,if_neg hopen,place,contextAt,Fits]
    by_cases hlt : cr.processorId.toUInt32 < n
    · by_cases hpos : 0 ≤ cr.processorId <;> simp [hlt,hpos,hopen,QueueId.target]
    · simp [hlt,hopen]

variable {cr : CRoutine}

theorem Addresses.fits {queue : QueueId} (h : (choreography n k tasks).Addresses cr queue) : Fits n cr := by
  have hn := h.2
  rw [notifyTarget] at hn
  split at hn
  case isTrue hopen => exact .inl hopen
  case isFalse =>
    obtain ⟨_,hpid,_⟩ := map_eq_some_iff.mp hn
    rw [contextAt] at hpid
    split at hpid
    case isTrue hin => exact .inr hin
    case isFalse => cases hpid

theorem Fits.notifyTarget (h : Fits n cr) : ((choreography n k tasks).notifyTarget cr).isSome := by
  rw [Conf.notifyTarget]
  split
  case isTrue => rfl
  case isFalse hopen =>
    rw [contextAt,if_pos (h.resolve_left hopen)]
    rfl

end Conf

def CRoutine.attributes (cr : CRoutine) : CRoutine where
  id := cr.id
  name := cr.name
  priority := cr.priority
  groupName := cr.groupName
  processorId := cr.processorId

structure Tables (ρ θ : Type) where
  attributes : ρ → CRoutine
  idCr : UInt64 → Option ρ
  idMutex : UInt64 → Option θ
  queue : QueueId → List (UInt32 × ρ)
  op : θ → Op ρ

def State.tables (s : State ρ θ) : Tables ρ θ := ⟨fun r => (s.routine r).attributes,s.idCr,s.idMutex,s.queue,s.op⟩

/-- The call holds no mutex: there is none, or it is `NotifyProcessor`. -/
def Op.quiet : Op ρ → Bool
  | .idle | .found _ | .flagging _ | .notifying _ => true
  | _ => false

/-- The routine of a call of `NotifyProcessor`. -/
def Op.notified : Op ρ → Option ρ
  | .found r | .flagging r | .notifying r => some r
  | _ => none

namespace Tables

def entries (a : Tables ρ θ) (crid : UInt64) (queue : QueueId) : List (UInt32 × ρ) :=
  (a.queue queue).filter fun entry => (a.attributes entry.2).id == crid

variable [DecidableEq ρ] [DecidableEq θ]

def setOp (a : Tables ρ θ) (u : θ) (op : Op ρ) : Tables ρ θ :=
  { a with op := update a.op u op }

def setMutex (a : Tables ρ θ) (crid : UInt64) (owner : Option θ) : Tables ρ θ :=
  { a with idMutex := update a.idMutex crid owner }

def setAttributes (a : Tables ρ θ) (r : ρ) (cr : CRoutine) : Tables ρ θ :=
  { a with attributes := update a.attributes r cr }

def setIdCr (a : Tables ρ θ) (crid : UInt64) (r : Option ρ) : Tables ρ θ :=
  { a with idCr := update a.idCr crid r }

def setQueue (a : Tables ρ θ) (queue : QueueId) (entries : List (UInt32 × ρ)) : Tables ρ θ :=
  { a with queue := update a.queue queue entries }

/-- `DispatchTask` may be called for the routine: it is not registered itself, and its processor fits
when the configuration is applied. -/
def Dispatchable (n k : UInt32) (tasks : List (String × ChoreographyTask)) (a : Tables ρ θ) (r : ρ) : Prop :=
  a.idCr (a.attributes r).id ≠ some r ∧ ((choreography n k tasks).assign (a.attributes r)).all (Conf.Fits n ·)

instance (a : Tables ρ θ) (r : ρ) : Decidable (a.Dispatchable n k tasks r) := inferInstanceAs (Decidable (_ ∧ _))

inductive Move (n k : UInt32) (tasks : List (String × ChoreographyTask)) :
    Tables ρ θ → Tables ρ θ → Prop
  | keep (a) : Move n k tasks a a
  | notification (a u op) : (a.op u).quiet → op.quiet →
      (∀ r, op.notified = some r → (a.op u).notified = some r ∨ ∃ crid, a.idCr crid = some r) →
      Move n k tasks a (a.setOp u op)
  | lock (a u r) : (a.op u).quiet → a.idMutex (a.attributes r).id = none → a.Dispatchable n k tasks r →
      Move n k tasks a ((a.setMutex (a.attributes r).id (some u)).setOp u (.locked r))
  | assign (a u r cr) : a.op u = .locked r → (choreography n k tasks).assign (a.attributes r) = some cr →
      Move n k tasks a ((a.setAttributes r cr).setOp u (.assigned r))
  | refuse (a u r) : a.op u = .assigned r → a.idCr (a.attributes r).id ≠ none →
      Move n k tasks a ((a.setMutex (a.attributes r).id none).setOp u .idle)
  | insert (a u r) : a.op u = .assigned r → a.idCr (a.attributes r).id = none →
      Move n k tasks a ((a.setIdCr (a.attributes r).id (some r)).setOp u (.inserted r))
  | enqueue (a u r cr queue before after) : a.op u = .inserted r →
      (choreography n k tasks).place (a.attributes r) = (cr, queue) →
      a.queue queue = before ++ after →
      Move n k tasks a ((((a.setAttributes r cr).setQueue queue
        (before ++ (cr.priority, r)::after)).setMutex (a.attributes r).id none).setOp u .idle)
  | lockRemoval (a u crid) : (a.op u).quiet → a.idMutex crid = none →
      Move n k tasks a ((a.setMutex crid (some u)).setOp u (.removing crid))
  | absent (a u crid) : a.op u = .removing crid → a.idCr crid = none →
      Move n k tasks a ((a.setMutex crid none).setOp u .idle)
  | unregister (a u crid r queue) : a.op u = .removing crid → a.idCr crid = some r →
      (choreography n k tasks).removeFrom (a.attributes r) = some queue →
      Move n k tasks a ((a.setIdCr crid none).setOp u (.erasing crid queue))
  | erase (a u crid queue) : a.op u = .erasing crid queue →
      Move n k tasks a (((a.setQueue queue ((a.queue queue).eraseP fun entry =>
        (a.attributes entry.2).id == crid)).setMutex crid none).setOp u .idle)

end Tables

namespace State
variable {s t : State ρ θ} {r : ρ} {cr : CRoutine} {p : Nat} {u : θ} {e : Event ρ θ}

/-- `DispatchTask` is called for routines that are not registered and whose processor fits. -/
def Sound (n k : UInt32) (tasks : List (String × ChoreographyTask)) (s : State ρ θ) : Event ρ θ → Prop
  | .dispatchTask _ r => s.tables.Dispatchable n k tasks r
  | _ => True

theorem leaveTable_tables (conf : Conf) (before : Bool) : (s.leaveTable conf before).tables = s.tables := by
  obtain ⟨m,hm⟩ := leaveTable_eq conf s before
  rw [hm]
  rfl

variable [DecidableEq ρ]

instance (s : State ρ θ) (e : Event ρ θ) : Decidable (s.Sound n k tasks e) :=
  match e with
  | .dispatchTask _ r => inferInstanceAs (Decidable (s.tables.Dispatchable n k tasks r))
  | .advance .. | .setState .. | .expire _ | .removeCRoutine .. | .notifyProcessor .. | .proceed .. =>
    isTrue trivial

theorem tables_setRoutine : (s.setRoutine r cr).tables = s.tables.setAttributes r cr.attributes := by
  have h : (fun x => (update s.routine r cr x).attributes) =
      update (fun x => (s.routine x).attributes) r cr.attributes := by
    funext x
    by_cases hx : x = r
    · subst hx
      simp
    · simp [hx]
  rw [tables,Tables.setAttributes,setRoutine,h]
  rfl

theorem tables_setRoutine_eq (h : cr.attributes = (s.routine r).attributes) :
    (s.setRoutine r cr).tables = s.tables := by
  rw [tables_setRoutine,h]
  exact congrArg (fun a => { s.tables with attributes := a }) (update_eq_self r _)

variable {conf : Conf} {target : Target} {crid : UInt64}

theorem advance_tables {expired : Bool} (h : s.advance conf p expired = some t) : t.tables = s.tables := by
  cases hp : s.phase p with rw [advance,hp] at h
  | scan =>
    obtain ⟨_,_,rfl⟩ := map_eq_some_iff.mp h
    split
    · split
      · rfl
      · exact tables_setRoutine_eq rfl
    · split <;> rfl
  | acquired =>
    cases h
    rw [updateState]
    split
    · exact tables_setRoutine_eq rfl
    · split
      · exact tables_setRoutine_eq rfl
      · split <;> exact tables_setRoutine_eq rfl
  | picked =>
    cases h
    rw [resume]
    split
    · exact tables_setRoutine_eq rfl
    · split <;> rfl
  | notReady | waking | resumed =>
    cases h
    exact tables_setRoutine_eq rfl
  | top | enter | chosen | swapping | running | null =>
    cases h
    rfl
  | blocked =>
    cases h

theorem notifyOne_tables {woken : Option Nat} (h : s.notifyOne conf target woken = some t) : t.tables = s.tables := by
  rcases notifyOne_spec h with ⟨rfl,_⟩ | ⟨p,_,_,rfl⟩ <;> rfl

theorem notify_tables {woken : Option Nat} (h : s.notify conf target woken = some t) : t.tables = s.tables := by
  cases target with
  | group => exact notifyOne_tables h
  | own =>
    rw [notify] at h
    split at h
    · split at h <;> cases h
      rfl
    · rw [notifyOne_tables h]
      rfl

theorem assign_attributes (cr : CRoutine) : (choreography n k tasks).assign cr.attributes =
      ((choreography n k tasks).assign cr).map CRoutine.attributes := by
  have hname : cr.attributes.name = cr.name := rfl
  rw [Conf.assign,Conf.assign,hname]
  cases choreographyTask tasks cr.name <;> rfl

theorem clampPriority_attributes (cr : CRoutine) : clampPriority cr.attributes = (clampPriority cr).attributes := by
  rw [clampPriority,clampPriority]
  change (if cr.priority ≥ maxPrio then _ else _) = _
  split <;> rfl

theorem place_attributes (cr : CRoutine) : (choreography n k tasks).place cr.attributes =
    (((choreography n k tasks).place cr).1.attributes, ((choreography n k tasks).place cr).2) := by
  rw [place,place,clampPriority_attributes]
  change (if cr.processorId.toUInt32 < n then _ else _) = _
  split <;> rfl

variable [DecidableEq θ] {woken : Option Nat}
open Tables

theorem enqueue_move (hop : s.op u = .inserted r) (h : s.enqueue (.choreography n k tasks) r = some t) :
    Move n k tasks s.tables (t.unlock u (s.routine r).id).tables := by
  rw [enqueue] at h
  obtain ⟨_,h⟩ := ite_none_right_eq_some.mp h
  have hmove (before after : List (UInt32 × ρ))
      (hq : s.queue ((choreography n k tasks).place (s.routine r)).2 = before ++ after) :=
    Move.enqueue s.tables u r _ _ before after hop (place_attributes (s.routine r)) hq
  have hset (entries : List (UInt32 × ρ)) :
      (((s.setRoutine r ((choreography n k tasks).place (s.routine r)).1).setQueue
        ((choreography n k tasks).place (s.routine r)).2 entries).unlock u (s.routine r).id).tables =
      (((s.tables.setAttributes r ((choreography n k tasks).place (s.routine r)).1.attributes).setQueue
        ((choreography n k tasks).place (s.routine r)).2 entries).setMutex
          (s.routine r).id none).setOp u .idle := by
    rw [← tables_setRoutine]
    rfl
  split at h <;> cases h
  · rw [hset]
    exact hmove _ [] (append_nil _).symm
  · rw [hset]
    exact hmove _ _ takeWhile_append_dropWhile.symm

theorem insert_move (hop : s.op u = .assigned r) (h : s.insert u r = some t) : Move n k tasks s.tables t.tables := by
  rw [insert] at h
  obtain ⟨_,h⟩ := ite_none_right_eq_some.mp h
  split at h
  case isTrue hsome =>
    cases h
    exact .refuse s.tables u r hop (isSome_iff_ne_none.mp hsome)
  case isFalse hnone =>
    cases h
    exact .insert s.tables u r hop (not_isSome_iff_eq_none.mp hnone)

theorem assign_move (hop : s.op u = .locked r)
    (h : s.assign (.choreography n k tasks) u r = some t) : Move n k tasks s.tables t.tables := by
  obtain ⟨cr,hcr,rfl⟩ := map_eq_some_iff.mp h
  have hset : ((s.setRoutine r cr).setOp u (.assigned r)).tables =
      (s.tables.setAttributes r cr.attributes).setOp u (.assigned r) := by
    rw [← tables_setRoutine]
    rfl
  rw [hset]
  refine .assign s.tables u r cr.attributes hop ?_
  change (choreography n k tasks).assign (s.routine r).attributes = _
  rw [assign_attributes,hcr]
  rfl

theorem lookupRemoved_move (hop : s.op u = .removing crid)
    (h : s.lookupRemoved (.choreography n k tasks) u crid = some t) : Move n k tasks s.tables t.tables := by
  rw [lookupRemoved] at h
  obtain ⟨_,h⟩ := ite_none_right_eq_some.mp h
  split at h
  case h_1 hnone =>
    cases h
    exact .absent s.tables u crid hop hnone
  case h_2 r hr =>
    obtain ⟨queue,hq,rfl⟩ := map_eq_some_iff.mp h
    have hset : ((s.setRoutine r { s.routine r with forceStop := true }).setIdCr crid none |>.setOp u
        (.erasing crid queue)).tables = (s.tables.setIdCr crid none).setOp u (.erasing crid queue) := by
      have hcr : (s.setRoutine r { s.routine r with forceStop := true }).tables = s.tables := tables_setRoutine_eq rfl
      rw [← hcr]
      rfl
    rw [hset]
    exact .unregister s.tables u crid r queue hop hr hq

theorem erase_move {queue : QueueId} (hop : s.op u = .erasing crid queue)
    (h : s.erase (.choreography n k tasks) u crid queue = some t) : Move n k tasks s.tables t.tables := by
  have hmove : Move n k tasks _ _ := .erase s.tables u crid queue hop
  obtain ⟨_,⟨entry,_,rfl⟩ | ⟨hf,rfl⟩⟩ := erase_spec h
  · have hset (entries : List (UInt32 × ρ)) :
        (((s.setRoutine entry.2 { s.routine entry.2 with forceStop := true, lock := false }).setQueue
          queue entries).unlock u crid).tables =
        ((s.tables.setQueue queue entries).setMutex crid none).setOp u .idle := by
      have hcr : (s.setRoutine entry.2 { s.routine entry.2 with forceStop := true, lock := false }).tables =
          s.tables := tables_setRoutine_eq rfl
      rw [← hcr]
      rfl
    rw [hset]
    exact hmove
  · -- nothing to take out
    have hq : (s.tables.queue queue).eraseP (fun entry => (s.tables.attributes entry.2).id == crid) =
        s.tables.queue queue := eraseP_of_forall_not (find?_eq_none.mp hf)
    have hset : s.tables.setQueue queue (s.tables.queue queue) = s.tables :=
      congrArg (fun q => { s.tables with queue := q }) (update_eq_self queue _)
    rw [hq,hset] at hmove
    exact hmove

theorem notification_move {op : Op ρ} (ht : t.tables = s.tables) (hq : (s.op u).quiet) (ho : op.quiet)
    (hn : ∀ r, op.notified = some r → (s.op u).notified = some r ∨ ∃ crid, s.idCr crid = some r) :
    Move n k tasks s.tables (t.setOp u op).tables := by
  have hset : (t.setOp u op).tables = t.tables.setOp u op := rfl
  rw [hset,ht]
  exact .notification s.tables u op hq ho hn

theorem proceed_move (h : s.proceed (.choreography n k tasks) u woken = some t)
    (henq : ∀ r, s.op u ≠ .enqueued r) : Move n k tasks s.tables t.tables := by
  cases hop : s.op u with rw [proceed,hop] at h
  | idle => cases h
  | locked => exact assign_move hop h
  | inserted =>
    obtain ⟨s',hs,rfl⟩ := map_eq_some_iff.mp h
    exact enqueue_move hop hs
  | assigned => exact insert_move hop h
  | enqueued r => exact absurd hop (henq r)
  | removing => exact lookupRemoved_move hop h
  | erasing => exact erase_move hop h
  | found =>
    dsimp only at h
    split at h <;> cases h
    · exact notification_move rfl (by rw [hop]; rfl) rfl fun x hx => .inl (by rw [hop]; exact hx)
    · exact notification_move (leaveTable_tables _ _) (by rw [hop]; rfl) rfl fun x hx =>
        .inl (by rw [hop]; exact hx)
  | flagging =>
    cases h
    exact notification_move ((leaveTable_tables _ _).trans (tables_setRoutine_eq rfl)) (by rw [hop]; rfl)
      rfl fun x hx => .inl (by rw [hop]; exact hx)
  | notifying =>
    obtain ⟨_,_,h⟩ := bind_eq_some_iff.mp h
    obtain ⟨s',hs,rfl⟩ := map_eq_some_iff.mp h
    refine notification_move ((leaveTable_tables _ _).trans (notify_tables hs)) (by rw [hop]; rfl) rfl ?_
    intro _ hx
    cases hx

theorem step_move (h : s.step (.choreography n k tasks) e = some t) (hs : s.Sound n k tasks e)
    (henq : ∀ u r, s.op u ≠ .enqueued r) : Move n k tasks s.tables t.tables := by
  cases e with rw [step] at h
  | advance =>
    split at h
    · rw [advance_tables h]
      exact .keep _
    · cases h
  | setState =>
    split at h <;> cases h
    rw [tables_setRoutine_eq]
    · exact .keep _
    · rfl
  | expire =>
    split at h <;> cases h
    exact .keep _
  | dispatchTask u r =>
    obtain ⟨hidle,h⟩ := ite_none_right_eq_some.mp h
    cases h
    exact .lock s.tables u r (congrArg Op.quiet hidle.1) hidle.2 hs
  | removeCRoutine u crid =>
    obtain ⟨hidle,h⟩ := ite_none_right_eq_some.mp h
    cases h
    exact .lockRemoval s.tables u crid (congrArg Op.quiet hidle.1) hidle.2
  | notifyProcessor _ crid =>
    obtain ⟨hidle,h⟩ := ite_none_right_eq_some.mp h
    split at h
    case h_1 r hr =>
      cases h
      refine notification_move (s := s) (t := { s with idReaders := s.idReaders+1 }) rfl
        (congrArg Op.quiet hidle) rfl ?_
      intro _ hx
      cases hx
      exact .inr ⟨crid,hr⟩
    case h_2 =>
      cases h
      exact .keep _
  | proceed u => exact proceed_move h (henq u)

end State

open State
variable {ρ θ : Type} {n k : UInt32} {tasks : List (String × ChoreographyTask)}

namespace Tables
variable {a b : Tables ρ θ} {crid : UInt64} {r : ρ} {u v : θ} {op : Op ρ} {queue : QueueId}

def holds (a : Tables ρ θ) : Op ρ → Option UInt64
  | .locked r | .assigned r | .inserted r => some (a.attributes r).id
  | .removing crid | .erasing crid _ => some crid
  | _ => none

/-- The id for which the call has changed `id_cr_` and has still to change the queue. -/
def moves (a : Tables ρ θ) : Op ρ → Option UInt64
  | .inserted r => some (a.attributes r).id
  | .erasing crid _ => some crid
  | _ => none

/-- The only entry with the id is one of the routine, in the queue. -/
def At (a : Tables ρ θ) (crid : UInt64) (queue : QueueId) (r : ρ) : Prop :=
  ∃ prio, a.entries crid = fun q => if q = queue then [(prio, r)] else []

/-- No call is about to change the queues for the id: a registered routine is in the queue that its
attributes address. -/
def Settled (conf : Conf) (a : Tables ρ θ) (crid : UInt64) : Prop :=
  match a.idCr crid with
  | none => a.entries crid = fun _ => []
  | some r => (a.attributes r).id = crid ∧ ∃ queue, conf.Addresses (a.attributes r) queue ∧ a.At crid queue r

def Stage (n k : UInt32) (tasks : List (String × ChoreographyTask)) (a : Tables ρ θ) : Op ρ → Prop
  | .locked r => a.Dispatchable n k tasks r
  | .assigned r => a.idCr (a.attributes r).id ≠ some r ∧ Conf.Fits n (a.attributes r)
  | .inserted r => a.idCr (a.attributes r).id = some r ∧ Conf.Fits n (a.attributes r) ∧
      a.entries (a.attributes r).id = fun _ => []
  | .enqueued _ => False
  | .erasing crid queue => a.idCr crid = none ∧ ∃ r, a.At crid queue r
  | .found r | .flagging r | .notifying r => Conf.Fits n (a.attributes r)
  | .idle | .removing _ => True

structure Inv (n k : UInt32) (tasks : List (String × ChoreographyTask)) (a : Tables ρ θ) : Prop where
  mutex : ∀ u crid, a.holds (a.op u) = some crid → a.idMutex crid = some u
  stage : ∀ u, a.Stage n k tasks (a.op u)
  settled : ∀ crid, (∀ u, a.moves (a.op u) ≠ some crid) → a.Settled (.choreography n k tasks) crid

theorem holds_of_quiet (h : op.quiet) : a.holds op = none := by
  cases op <;> first | rfl | cases h

theorem holds_of_moves (h : a.moves op = some crid) : a.holds op = some crid := by
  cases op <;> first | exact h | cases h

theorem init_inv (routine : ρ → CRoutine) :
    Inv n k tasks (⟨routine,fun _ => none,fun _ => none,fun _ => [],fun _ => .idle⟩ : Tables ρ θ) where
  mutex _ _ h := by cases h
  stage _ := trivial
  settled _ _ := rfl

structure Frame (n : UInt32) (crid : UInt64) (a b : Tables ρ θ) : Prop where
  ids : ∀ r, (b.attributes r).id = (a.attributes r).id
  attributes : ∀ r, (a.attributes r).id ≠ crid → b.attributes r = a.attributes r
  fits : ∀ r, Conf.Fits n (a.attributes r) → Conf.Fits n (b.attributes r)
  idCr : ∀ x, x ≠ crid → b.idCr x = a.idCr x
  entries : ∀ x, x ≠ crid → b.entries x = a.entries x

theorem Frame.holds (h : Frame n crid a b) (op : Op ρ) : b.holds op = a.holds op := by
  cases op <;> first | rfl | exact congrArg some (h.ids _)

theorem Frame.moves (h : Frame n crid a b) (op : Op ρ) : b.moves op = a.moves op := by
  cases op <;> first | rfl | exact congrArg some (h.ids _)

theorem At.congr (h : b.entries crid = a.entries crid) (ha : a.At crid queue r) : b.At crid queue r := by
  obtain ⟨prio,ha⟩ := ha
  exact ⟨prio,h.trans ha⟩

variable {conf : Conf} {α : Type}

theorem Settled.congr (h : a.Settled conf crid) (hid : b.idCr crid = a.idCr crid)
    (hr : ∀ r, a.idCr crid = some r → b.attributes r = a.attributes r) (he : b.entries crid = a.entries crid) :
    b.Settled conf crid := by
  rw [Settled] at h ⊢
  rw [hid]
  cases hc : a.idCr crid with rw [hc] at h
  | none =>
    exact he.trans h
  | some r =>
    obtain ⟨hrid,queue,haddr,hat⟩ := h
    have hattr := hr r hc
    exact ⟨hattr ▸ hrid,queue,hattr ▸ haddr,hat.congr he⟩

theorem Frame.settled {x : UInt64} (hf : Frame n crid a b) (hx : x ≠ crid) (h : a.Settled conf x) :
    b.Settled conf x := by
  refine h.congr (hf.idCr x hx) (fun r hr => hf.attributes r ?_) (hf.entries x hx)
  rw [Settled,hr] at h
  rw [h.1]
  exact hx

theorem Frame.stage (hf : Frame n crid a b) (hh : a.holds op ≠ some crid) (h : a.Stage n k tasks op) :
    b.Stage n k tasks op := by
  cases op with
  | idle | removing => trivial
  | enqueued => exact h
  | found r | flagging r | notifying r => exact hf.fits r h
  | locked r =>
    have hne : (a.attributes r).id ≠ crid := fun he => hh (congrArg some he)
    rw [Stage,Dispatchable,hf.attributes r hne,hf.idCr _ hne]
    exact h
  | assigned r =>
    have hne : (a.attributes r).id ≠ crid := fun he => hh (congrArg some he)
    rw [Stage,hf.attributes r hne,hf.idCr _ hne]
    exact h
  | inserted r =>
    have hne : (a.attributes r).id ≠ crid := fun he => hh (congrArg some he)
    rw [Stage,hf.attributes r hne,hf.idCr _ hne,hf.entries _ hne]
    exact h
  | erasing x =>
    have hne : x ≠ crid := fun he => hh (congrArg some he)
    obtain ⟨hid,r,hat⟩ := h
    exact ⟨(hf.idCr x hne).trans hid,r,hat.congr (hf.entries x hne)⟩

theorem Frame.of_eq (ha : b.attributes = a.attributes) (hi : b.idCr = a.idCr) (hq : b.queue = a.queue) :
    Frame n crid a b := by
  have he : b.entries = a.entries := by
    funext x q
    rw [Tables.entries,Tables.entries,ha,hq]
  refine ⟨fun r => ?_,fun r _ => ?_,fun _ _ => ?_,fun x _ => ?_,fun _ _ => ?_⟩
  · rw [ha]
  · rw [ha]
  · rwa [ha]
  · rw [hi]
  · rw [he]

section
variable (h : Inv n k tasks a)
include h

theorem Inv.free (hu : a.holds (a.op u) = some crid) : ∀ v, a.idMutex crid = some v → v = u := by
  intro _ hv
  exact some_inj.mp (hv.symm.trans (h.mutex u crid hu))

theorem Inv.unmoved (hfree : ∀ v, a.idMutex crid = some v → v = u) (hu : a.moves (a.op u) ≠ some crid) :
    a.Settled (.choreography n k tasks) crid := by
  apply h.settled
  intro v hv
  obtain rfl := hfree v (h.mutex v crid (holds_of_moves hv))
  exact hu hv

theorem Inv.registered (hr : a.idCr crid = some r) : (∃ u, a.op u = .inserted r) ∨ ∃ queue,
      (choreography n k tasks).Addresses (a.attributes r) queue ∧ a.At crid queue r := by
  by_cases hm : ∃ v, a.moves (a.op v) = some crid
  · obtain ⟨v,hv⟩ := hm
    have hst := h.stage v
    cases hop : a.op v with
    | inserted =>
      rw [hop] at hst hv
      rw [Stage,some_inj.mp hv,hr] at hst
      rw [some_inj.mp hst.1]
      exact .inl ⟨v,hop⟩
    | erasing =>
      rw [hop] at hst hv
      rw [Stage,some_inj.mp hv,hr] at hst
      cases hst.1
    | _ =>
      rw [hop] at hv
      cases hv
  · have hs := h.settled crid (not_exists.mp hm)
    rw [Settled,hr] at hs
    exact .inr hs.2

theorem Inv.fits (hr : a.idCr crid = some r) : Conf.Fits n (a.attributes r) := by
  rcases h.registered hr with ⟨u,hop⟩ | ⟨_,haddr,_⟩
  · have hst := h.stage u
    rw [hop] at hst
    exact hst.2.1
  · exact haddr.fits

theorem Inv.notified (hr : (a.op u).notified = some r) : Conf.Fits n (a.attributes r) := by
  have hst := h.stage u
  cases hop : a.op u with
  | found | flagging | notifying =>
    rw [hop] at hr hst
    rw [← some_inj.mp hr]
    exact hst
  | _ =>
    rw [hop] at hr
    cases hr

end

theorem entries_setQueue (l : List (UInt32 × ρ)) (x : UInt64) (q : QueueId) : (a.setQueue queue l).entries x q =
      if q = queue then l.filter fun entry => (a.attributes entry.2).id == x else a.entries x q := by
  rw [entries,setQueue]
  by_cases hq : q = queue
  · subst hq
    simp
  · simp [hq,entries]

section Attributes
variable [DecidableEq ρ] {cr : CRoutine}

theorem attributes_setAttributes_of_ne {x : ρ} (h : x ≠ r) :
    (a.setAttributes r cr).attributes x = a.attributes x := update_of_ne h ..

theorem attributes_setAttributes_self : (a.setAttributes r cr).attributes r = cr := update_self ..

variable (h : cr.id = (a.attributes r).id)
include h

theorem ids_setAttributes (x : ρ) : ((a.setAttributes r cr).attributes x).id = (a.attributes x).id := by
  by_cases hx : x = r
  · subst hx
    rw [attributes_setAttributes_self,h]
  · rw [attributes_setAttributes_of_ne hx]

theorem entries_setAttributes : (a.setAttributes r cr).entries = a.entries := by
  funext x q
  rw [entries,entries]
  apply filter_congr
  intro _ _
  rw [ids_setAttributes h]

theorem Frame.setAttributes (hc : Conf.Fits n cr) : Frame n (a.attributes r).id a (a.setAttributes r cr) where
  ids := ids_setAttributes h
  attributes x hx := attributes_setAttributes_of_ne fun he => hx (he ▸ rfl)
  fits x hx := by
    by_cases hxr : x = r
    · subst hxr
      rwa [attributes_setAttributes_self]
    · rwa [attributes_setAttributes_of_ne hxr]
  idCr _ _ := rfl
  entries x _ := congrFun (entries_setAttributes h) x

end Attributes

variable [DecidableEq θ]

section
variable (h : Inv n k tasks a)
include h

theorem Inv.move (hf : Frame n crid a b) (hop : b.op = update a.op u op)
    (hfree : ∀ v, a.idMutex crid = some v → v = u) (hleft : ∀ x, a.holds (a.op u) = some x → x = crid)
    (hm : ∀ x, x ≠ crid → b.idMutex x = a.idMutex x)
    (hu : ∀ x, a.holds op = some x → x = crid ∧ b.idMutex crid = some u) (hst : b.Stage n k tasks op)
    (hs : b.moves op ≠ some crid → b.Settled (.choreography n k tasks) crid) : Inv n k tasks b := by
  have hself : b.op u = op := by rw [hop,update_self]
  have hother {v : θ} (hv : v ≠ u) : b.op v = a.op v := by rw [hop,update_of_ne hv]
  have hne {v : θ} (hv : v ≠ u) : a.holds (a.op v) ≠ some crid := fun he =>
    hv (hfree v (h.mutex v crid he))
  refine ⟨?_,?_,?_⟩
  · intro v x hx
    by_cases hv : v = u
    · subst hv
      rw [hself,hf.holds] at hx
      obtain ⟨rfl,hmu⟩ := hu x hx
      exact hmu
    · rw [hother hv,hf.holds] at hx
      have hxc : x ≠ crid := fun he => hne hv (he ▸ hx)
      rw [hm x hxc]
      exact h.mutex v x hx
  · intro v
    by_cases hv : v = u
    · subst hv
      rwa [hself]
    · rw [hother hv]
      exact hf.stage (hne hv) (h.stage v)
  · intro x hx
    by_cases hxc : x = crid
    · subst hxc
      exact hs (hself ▸ hx u)
    · refine hf.settled hxc (h.settled x fun v hv => ?_)
      by_cases hvu : v = u
      · subst hvu
        exact hxc (hleft x (holds_of_moves hv))
      · apply hx v
        rw [hother hvu,hf.moves]
        exact hv

theorem Inv.notification (hq : (a.op u).quiet) (ho : op.quiet)
    (hn : ∀ r, op.notified = some r → (a.op u).notified = some r ∨ ∃ crid, a.idCr crid = some r) :
    Inv n k tasks (a.setOp u op) := by
  have hself : (a.setOp u op).op u = op := update_self ..
  have hother {v : θ} (hv : v ≠ u) : (a.setOp u op).op v = a.op v := update_of_ne hv ..
  have hfits (r : ρ) (hr : op.notified = some r) : Conf.Fits n (a.attributes r) := by
    rcases hn r hr with hr | ⟨crid,hr⟩
    · exact h.notified hr
    · exact h.fits hr
  refine ⟨fun v x hx => ?_,fun v => ?_,fun x hx => ?_⟩
  · by_cases hv : v = u
    · subst hv
      rw [hself,holds_of_quiet ho] at hx
      cases hx
    · rw [hother hv] at hx
      exact h.mutex v x hx
  · by_cases hv : v = u
    · subst hv
      rw [hself]
      cases op with
      | idle => trivial
      | found r | flagging r | notifying r => exact hfits r rfl
      | _ => cases ho
    · rw [hother hv]
      exact h.stage v
  · apply h.settled
    intro v hv
    by_cases hvu : v = u
    · subst hvu
      have hnone := (holds_of_moves hv).symm.trans (holds_of_quiet hq)
      cases hnone
    · apply hx v
      rw [hother hvu]
      exact hv

theorem Inv.go (hh : a.holds (a.op u) = some crid) (hf : Frame n crid a b) (hop : b.op = update a.op u op)
    (hm : ∀ x, x ≠ crid → b.idMutex x = a.idMutex x)
    (hu : a.holds op = none ∨ a.holds op = some crid ∧ b.idMutex crid = a.idMutex crid) (hst : b.Stage n k tasks op)
    (hs : b.moves op ≠ some crid → b.Settled (.choreography n k tasks) crid) : Inv n k tasks b := by
  refine h.move hf hop (h.free hh) ?_ hm ?_ hst hs
  · intro _ hx
    exact some_inj.mp (hx.symm.trans hh)
  · intro _ hx
    rcases hu with hu | ⟨hu,hmu⟩
    · cases hx.symm.trans hu
    · exact ⟨some_inj.mp (hx.symm.trans hu),hmu.trans (h.mutex u crid hh)⟩

theorem Inv.take (hq : (a.op u).quiet) (hfree : a.idMutex crid = none) (hu : a.holds op = some crid)
    (hst : a.Stage n k tasks op) : Inv n k tasks ((a.setMutex crid (some u)).setOp u op) := by
  have hown (v : θ) (hv : a.idMutex crid = some v) : v = u := by cases hfree.symm.trans hv
  refine h.move (Frame.of_eq rfl rfl rfl) rfl hown ?_ ?_ ?_ ?_ ?_
  · intro _ hx
    cases (holds_of_quiet hq).symm.trans hx
  · intro _ hx
    exact update_of_ne hx _ _
  · intro _ hx
    exact ⟨some_inj.mp (hx.symm.trans hu),update_self ..⟩
  · cases op <;> exact hst
  · intro _
    refine h.unmoved hown fun hx => ?_
    cases (holds_of_quiet hq).symm.trans (holds_of_moves hx)

theorem Inv.give (hh : a.holds (a.op u) = some crid) (hm : a.moves (a.op u) = none) :
    Inv n k tasks ((a.setMutex crid none).setOp u .idle) := by
  refine h.go hh (Frame.of_eq rfl rfl rfl) rfl (fun _ hx => update_of_ne hx _ _) (.inl rfl) trivial ?_
  intro _
  refine h.unmoved (h.free hh) ?_
  rw [hm]
  nofun

theorem Inv.insert (hop : a.op u = .assigned r) (hnone : a.idCr (a.attributes r).id = none) :
    Inv n k tasks ((a.setIdCr (a.attributes r).id (some r)).setOp u (.inserted r)) := by
  have hh : a.holds (a.op u) = some (a.attributes r).id := by rw [hop]; rfl
  have hst := h.stage u
  rw [hop] at hst
  have hs := h.unmoved (h.free hh) (by rw [hop]; nofun)
  rw [Settled,hnone] at hs
  refine h.go hh ⟨fun _ => rfl,fun _ _ => rfl,fun _ => id,fun _ hx => update_of_ne hx _ _,
    fun _ _ => rfl⟩ rfl (fun _ _ => rfl) (.inr ⟨rfl,rfl⟩) ?_ ?_
  · exact ⟨update_self ..,hst.2,hs⟩
  · intro hne
    exact absurd rfl hne

theorem Inv.unregister (hop : a.op u = .removing crid) (hr : a.idCr crid = some r)
    (hq : (choreography n k tasks).removeFrom (a.attributes r) = some queue) :
    Inv n k tasks ((a.setIdCr crid none).setOp u (.erasing crid queue)) := by
  have hh : a.holds (a.op u) = some crid := by rw [hop]; rfl
  have hs := h.unmoved (h.free hh) (by rw [hop]; nofun)
  rw [Settled,hr] at hs
  obtain ⟨_,queue',haddr,hat⟩ := hs
  obtain rfl : queue' = queue := some_inj.mp (haddr.1.symm.trans hq)
  refine h.go hh ⟨fun _ => rfl,fun _ _ => rfl,fun _ => id,fun _ hx => update_of_ne hx _ _,
    fun _ _ => rfl⟩ rfl (fun _ _ => rfl) (.inr ⟨rfl,rfl⟩) ?_ ?_
  · exact ⟨update_self ..,r,hat⟩
  · intro hne
    exact absurd rfl hne

end

theorem filter_eraseP_self (l : List α) (p : α → Bool) : (l.eraseP p).filter p = (l.filter p).tail := by
  induction l with
  | nil => rfl
  | cons c _ ih =>
    by_cases hc : p c = true
    · rw [eraseP_cons_of_pos hc,filter_cons_of_pos hc,tail_cons]
    · rw [eraseP_cons_of_neg hc,filter_cons_of_neg hc,filter_cons_of_neg hc,ih]

theorem filter_eraseP_of_not (l : List α) {p q : α → Bool} (h : ∀ x, p x = true → ¬ q x = true) :
    (l.eraseP p).filter q = l.filter q := by
  induction l with
  | nil => rfl
  | cons c _ ih =>
    by_cases hc : p c = true
    · rw [eraseP_cons_of_pos hc,filter_cons_of_neg (h c hc)]
    · rw [eraseP_cons_of_neg hc,filter_cons,filter_cons,ih]

theorem Inv.erase (h : Inv n k tasks a) (hop : a.op u = .erasing crid queue) :
    Inv n k tasks (((a.setQueue queue ((a.queue queue).eraseP fun entry =>
      (a.attributes entry.2).id == crid)).setMutex crid none).setOp u .idle) := by
  have hh : a.holds (a.op u) = some crid := by rw [hop]; rfl
  have hst := h.stage u
  rw [hop] at hst
  obtain ⟨hnone,r,_,hat⟩ := hst
  have hentries (x : UInt64) (q : QueueId) :
      (a.setQueue queue ((a.queue queue).eraseP fun entry => (a.attributes entry.2).id == crid)).entries
        x q = if x = crid then [] else a.entries x q := by
    rw [entries_setQueue]
    by_cases hx : x = crid
    · subst hx
      rw [if_pos rfl,filter_eraseP_self]
      change (if q = queue then (a.entries x queue).tail else a.entries x q) = []
      rw [hat]
      by_cases hq : q = queue <;> simp [hq]
    · have hne : ∀ entry : UInt32 × ρ, ((a.attributes entry.2).id == crid) = true →
          ¬ ((a.attributes entry.2).id == x) = true := by
        intro _ he
        rw [beq_iff_eq] at he ⊢
        rw [he]
        exact Ne.symm hx
      rw [if_neg hx,filter_eraseP_of_not _ hne]
      by_cases hq : q = queue
      · rw [if_pos hq,hq]
        rfl
      · rw [if_neg hq]
  refine h.go hh ⟨fun _ => rfl,fun _ _ => rfl,fun _ => id,fun _ _ => rfl,fun x hx => ?_⟩ rfl
    (fun _ hx => update_of_ne hx _ _) (.inl rfl) trivial ?_
  · funext q
    exact (hentries x q).trans (if_neg hx)
  · intro _
    rw [Settled]
    change (match a.idCr crid with | none => _ | some r => _)
    rw [hnone]
    funext q
    exact (hentries crid q).trans (if_pos rfl)

variable [DecidableEq ρ] {cr : CRoutine}
variable (h : Inv n k tasks a)
include h

theorem Inv.assign (hop : a.op u = .locked r) (hcr : (choreography n k tasks).assign (a.attributes r) = some cr) :
    Inv n k tasks ((a.setAttributes r cr).setOp u (.assigned r)) := by
  have hid := (assign_flags hcr).1
  have hh : a.holds (a.op u) = some (a.attributes r).id := by rw [hop]; rfl
  have hst := h.stage u
  rw [hop] at hst
  have hfits : Conf.Fits n cr := by
    have hall := hst.2
    rw [hcr] at hall
    exact of_decide_eq_true hall
  have hf := Frame.setAttributes hid hfits
  refine h.go hh ⟨hf.ids,hf.attributes,hf.fits,hf.idCr,hf.entries⟩ rfl (fun _ _ => rfl) (.inr ⟨rfl,rfl⟩) ?_ ?_
  · change a.idCr ((a.setAttributes r cr).attributes r).id ≠ some r ∧
      Conf.Fits n ((a.setAttributes r cr).attributes r)
    rw [attributes_setAttributes_self,hid]
    exact ⟨hst.1,hfits⟩
  · intro _
    have hs := h.unmoved (h.free hh) (by rw [hop]; nofun)
    refine hs.congr rfl (fun _ hx => attributes_setAttributes_of_ne ?_) (congrFun (entries_setAttributes hid) _)
    rintro rfl
    exact hst.1 hx

theorem Inv.enqueue {before after : List (UInt32 × ρ)} (hop : a.op u = .inserted r)
    (hp : (choreography n k tasks).place (a.attributes r) = (cr, queue)) (hq : a.queue queue = before ++ after) :
    Inv n k tasks ((((a.setAttributes r cr).setQueue queue
      (before ++ (cr.priority, r)::after)).setMutex (a.attributes r).id none).setOp u .idle) := by
  have hh : a.holds (a.op u) = some (a.attributes r).id := by rw [hop]; rfl
  have hst := h.stage u
  rw [hop] at hst
  obtain ⟨hidCr,hfits,hnone⟩ := hst
  have hid : cr.id = (a.attributes r).id := by
    have hflags : ((choreography n k tasks).place (a.attributes r)).1.id = (a.attributes r).id :=
      (place_flags (a.attributes r)).1
    rwa [hp] at hflags
  have haddr : (choreography n k tasks).Addresses ((choreography n k tasks).place (a.attributes r)).1
      ((choreography n k tasks).place (a.attributes r)).2 :=
    (addresses_place_iff (a.attributes r)).mpr hfits
  rw [hp] at haddr
  have hentries (x : UInt64) (q : QueueId) :
      ((a.setAttributes r cr).setQueue queue (before ++ (cr.priority, r)::after)).entries x q =
        if x = (a.attributes r).id then if q = queue then [(cr.priority, r)] else []
        else a.entries x q := by
    simp only [entries_setQueue,entries_setAttributes hid,ids_setAttributes hid]
    have hold : before.filter (fun entry => (a.attributes entry.2).id == x) ++
        after.filter (fun entry => (a.attributes entry.2).id == x) = a.entries x queue := by
      rw [entries,hq,filter_append]
    by_cases hx : x = (a.attributes r).id
    · subst hx
      rw [hnone] at hold
      obtain ⟨hbefore,hafter⟩ := append_eq_nil_iff.mp hold
      simp only [filter_append,filter_cons,beq_self_eq_true,if_true,hbefore,hafter,hnone,nil_append]
    · have hne := beq_eq_false_iff_ne.mpr (Ne.symm hx)
      simp only [filter_append,filter_cons,hne,Bool.false_eq_true,if_false,hold,hx]
      by_cases hqq : q = queue
      · rw [if_pos hqq,hqq]
      · rw [if_neg hqq]
  have hf := Frame.setAttributes hid haddr.fits
  refine h.go hh ⟨hf.ids,hf.attributes,hf.fits,hf.idCr,fun x hx => ?_⟩ rfl
    (fun _ hx => update_of_ne hx _ _) (.inl rfl) trivial ?_
  · funext q
    exact (hentries x q).trans (if_neg hx)
  · intro _
    rw [Settled]
    change (match a.idCr (a.attributes r).id with | none => _ | some r => _)
    rw [hidCr]
    change ((a.setAttributes r cr).attributes r).id = _ ∧ ∃ queue,
      Conf.Addresses _ ((a.setAttributes r cr).attributes r) queue ∧ _
    rw [attributes_setAttributes_self]
    refine ⟨hid,queue,haddr,cr.priority,?_⟩
    funext q
    exact (hentries _ q).trans (if_pos rfl)

theorem Inv.next (hm : Move n k tasks a b) : Inv n k tasks b := by
  cases hm with
  | keep => exact h
  | notification _ _ hq ho hn => exact h.notification hq ho hn
  | lock _ _ hq hfree hd => exact h.take hq hfree rfl hd
  | assign _ _ _ hop hcr => exact h.assign hop hcr
  | refuse _ _ hop => exact h.give (by rw [hop]; rfl) (by rw [hop]; rfl)
  | insert _ _ hop hnone => exact h.insert hop hnone
  | enqueue _ _ _ _ _ _ hop hp hq => exact h.enqueue hop hp hq
  | lockRemoval _ _ hq hfree => exact h.take hq hfree rfl trivial
  | absent _ _ hop => exact h.give (by rw [hop]; rfl) (by rw [hop]; rfl)
  | unregister _ _ _ _ hop hr hq => exact h.unregister hop hr hq
  | erase _ _ _ hop => exact h.erase hop

end Tables

variable {s : State ρ θ} [DecidableEq ρ] [DecidableEq θ]

theorem sound_inv (h : (system (.choreography n k tasks) ρ θ).ReachableWhile (State.Sound n k tasks) s) :
    s.tables.Inv n k tasks := by
  apply h.invariant
  · rintro _ ⟨_,_,rfl⟩
    exact Tables.init_inv _
  · intro s _ _ hi hs he
    refine hi.next (step_move he hs fun u _ hop => ?_)
    have hst := hi.stage u
    change s.tables.Stage n k tasks (s.op u) at hst
    rw [hop] at hst
    exact hst

/-- In every run that dispatches only routines whose processor is left open or is the index of a choreography context,
and none of them while it is registered, a registered routine is in the one queue that the calls for it address. -/
theorem choreography_calls_agree (n k : UInt32) (tasks : List (String × ChoreographyTask)) :
    (∀ cr, (choreography n k tasks).Addresses ((choreography n k tasks).place cr).1
      ((choreography n k tasks).place cr).2 ↔ Conf.Fits n cr) ∧
    ∀ s : State ρ θ, (system (.choreography n k tasks) ρ θ).ReachableWhile (State.Sound n k tasks) s →
      (∀ crid r, s.idCr crid = some r → (∀ u, s.op u ≠ .inserted r) → ∃ queue,
        (choreography n k tasks).Addresses (s.routine r) queue ∧ s.tables.At crid queue r) ∧
      (∀ u r, (s.op u).notified = some r → ((choreography n k tasks).notifyTarget (s.routine r)).isSome) ∧
      ∀ u crid queue, s.op u = .erasing crid queue → ∃ r, s.tables.At crid queue r := by
  refine ⟨addresses_place_iff,fun s h => ?_⟩
  have hi := sound_inv h
  refine ⟨fun crid r hr hn => ?_,fun u r hr => ?_,fun u _ _ hop => ?_⟩
  · rcases hi.registered hr with ⟨u,hop⟩ | hq
    · exact absurd hop (hn u)
    · exact hq
  · have hfits : Conf.Fits n (s.routine r) := hi.notified hr
    exact hfits.notifyTarget
  · have hst := hi.stage u
    change s.tables.Stage n k tasks (s.op u) at hst
    rw [hop] at hst
    exact hst.2

/-- A routine for the only processor. -/
theorem choreography_calls_agree_own : ∃ s : State Unit Unit, s.idCr 1 = some () ∧
    ∃ queue, Conf.Addresses (.choreography 1 1 [("r", ⟨25,some 0⟩)]) (s.routine ()) queue ∧
      s.tables.At 1 queue () := by
  obtain ⟨s,hs,hp⟩ := System.reachableWhile_of_exec
    (system (.choreography 1 1 [("r", ⟨25,some 0⟩)]) Unit Unit) (State.Sound 1 1 [("r", ⟨25,some 0⟩)])
    [.dispatchTask () (),.proceed () none,.proceed () none,.proceed () none]
    (fun s => s.idCr 1 = some () ∧ s.op () = .idle) (undispatched_initial _) (by decide)
  obtain ⟨hr,hop⟩ := of_decide_eq_true hp
  refine ⟨s,hr,((choreography_calls_agree 1 1 [("r", ⟨25,some 0⟩)]).2 s hs).1 1 () hr ?_⟩
  intro _ hu
  cases hop.symm.trans hu

/-- A configured processor behind the last one puts the routine into the pool, where neither of the
other calls looks for it. -/
theorem processor_beyond_table : ∃ s : State Unit Unit,
    (system (.choreography 1 1 [("r", ⟨5,some 1⟩)]) Unit Unit).Reachable s ∧ s.idCr 1 = some () ∧
    s.op () = .idle ∧ s.queue (.group defaultGroupName 5) = [(5, ())] ∧
    removeFrom (.choreography 1 1 [("r", ⟨5,some 1⟩)]) (s.routine ()) = none ∧
    notifyTarget (.choreography 1 1 [("r", ⟨5,some 1⟩)]) (s.routine ()) = none := by
  obtain ⟨s,hs,hp⟩ := System.reachable_of_exec (system (.choreography 1 1 [("r", ⟨5,some 1⟩)]) Unit Unit)
    [.dispatchTask () (),.proceed () none,.proceed () none,.proceed () none]
    (fun s => s.idCr 1 = some () ∧ s.op () = .idle ∧ s.queue (.group defaultGroupName 5) = [(5, ())] ∧
      removeFrom (.choreography 1 1 [("r", ⟨5,some 1⟩)]) (s.routine ()) = none ∧
      notifyTarget (.choreography 1 1 [("r", ⟨5,some 1⟩)]) (s.routine ()) = none)
    (undispatched_initial _) (by decide)
  exact ⟨s,hs,of_decide_eq_true hp⟩

end Apollo.Cyber.Scheduler
