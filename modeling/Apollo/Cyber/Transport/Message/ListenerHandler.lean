import Apollo.Cyber.Base.Signal
import Apollo.Foundation.Table
import Apollo.Foundation.Transition

/-! `ListenerHandler<MessageT>`: one signal for the messages of all senders and one for each opposite id, with the
connections by self id. A listener may be an empty function. Which listeners a message reaches. For a pair of ids the
handler knows only the connection that was made last. -/
namespace Apollo.Cyber.Transport
open Foundation Base

/-- In a connection, `none` is `signal_` and an opposite id is the signal in `signals_`. `next` is the
address of the next slot. -/
structure ListenerHandler (α : Type) where
  signal : Signal α := {}
  signalConns : Table UInt64 (Connection (Option UInt64)) := ∅
  signals : Table UInt64 (Signal α) := ∅
  signalsConns : Table UInt64 (Table UInt64 (Connection (Option UInt64))) := ∅
  next : Nat := 0

namespace ListenerHandler
variable {α : Type}

def connect (h : ListenerHandler α) (selfId : UInt64) (listener : Option α) : ListenerHandler α :=
  { h with
    signal := h.signal.connect h.next listener
    signalConns := h.signalConns.insert selfId ⟨h.next,none⟩
    next := h.next+1 }

def connectTo (h : ListenerHandler α) (selfId oppoId : UInt64) (listener : Option α) :
    ListenerHandler α :=
  let signal := (h.signals.lookup oppoId).getD {}
  let conns := (h.signalsConns.lookup oppoId).getD ∅
  { h with
    signals := h.signals.insert oppoId (signal.connect h.next listener)
    signalsConns := h.signalsConns.insert oppoId (conns.insert selfId ⟨h.next,some oppoId⟩)
    next := h.next+1 }

def disconnectSlot (h : ListenerHandler α) (conn : Connection (Option UInt64)) : ListenerHandler α :=
  match conn.signal with
  | none => { h with signal := h.signal.disconnect conn.slot }
  | some oppoId =>
    match h.signals.lookup oppoId with
    | none => h
    | some signal => { h with signals := h.signals.insert oppoId (signal.disconnect conn.slot) }

def disconnect (h : ListenerHandler α) (selfId : UInt64) : ListenerHandler α :=
  match h.signalConns.lookup selfId with
  | none => h
  | some conn => { h.disconnectSlot conn with signalConns := h.signalConns.erase selfId }

def disconnectFrom (h : ListenerHandler α) (selfId oppoId : UInt64) : ListenerHandler α :=
  match h.signalsConns.lookup oppoId with
  | none => h
  | some conns =>
    match conns.lookup selfId with
    | none => h
    | some conn => { h.disconnectSlot conn with
        signalsConns := h.signalsConns.insert oppoId (conns.erase selfId) }

/-- `Run` for a message of the sender with this hash value: the listeners that it invokes, in their
order, and what it leaves behind. -/
def run (h : ListenerHandler α) (sender : UInt64) : List α × ListenerHandler α :=
  let all := h.signal.invoke
  let h := { h with signal := all.2 }
  match h.signals.lookup sender with
  | none => (all.1, h)
  | some signal => (all.1 ++ signal.invoke.1, { h with
      signals := h.signals.insert sender signal.invoke.2 })

/-- A call of `Connect`, with the address of its slot. -/
structure Link (α : Type) where
  address : Nat
  selfId : UInt64
  oppoId : Option UInt64
  listener : Option α

/-- What is meant by `Disconnect(self_id)` and by `Disconnect(self_id, oppo_id)`. -/
def Link.endedBy (link : Link α) (selfId : UInt64) (oppoId : Option UInt64) : Bool :=
  link.selfId = selfId ∧ (oppoId = none ∨ link.oppoId = oppoId)

/-- `live` logs the calls of `Connect` that no `Disconnect` has ended. -/
structure State (α : Type) where
  handler : ListenerHandler α
  live : List (Link α)

/-- The two overloads of `Connect` and `Disconnect` differ by the opposite id. -/
inductive Event (α : Type)
  | connect (selfId : UInt64) (oppoId : Option UInt64) (listener : Option α)
  | disconnect (selfId : UInt64) (oppoId : Option UInt64)
  | run (sender : UInt64)

namespace State

def connect (s : State α) (selfId : UInt64) (oppoId : Option UInt64) (listener : Option α) : State α where
  handler :=
    match oppoId with
    | none => s.handler.connect selfId listener
    | some oppoId => s.handler.connectTo selfId oppoId listener
  live := s.live ++ [⟨s.handler.next,selfId,oppoId,listener⟩]

def disconnect (s : State α) (selfId : UInt64) (oppoId : Option UInt64) : State α where
  handler :=
    match oppoId with
    | none => s.handler.disconnect selfId
    | some oppoId => s.handler.disconnectFrom selfId oppoId
  live := s.live.filter (!·.endedBy selfId oppoId)

def step (s : State α) : Event α → Option (State α)
  | .connect selfId oppoId listener => some (s.connect selfId oppoId listener)
  | .disconnect selfId oppoId => some (s.disconnect selfId oppoId)
  | .run sender => some { s with handler := (s.handler.run sender).2 }

end State

def system (α : Type) : System (State α) (Event α) where
  initial s := s = ⟨{},[]⟩
  step := State.step

def addressees (live : List (Link α)) (sender : UInt64) : List α :=
  (live.filter (·.oppoId = none)).filterMap (·.listener) ++
    (live.filter (·.oppoId = some sender)).filterMap (·.listener)

open List Link Table ListenerHandler
variable {α : Type} {s t : State α} {h : ListenerHandler α} {selfId : UInt64} {oppoId : Option UInt64}

def Link.slot (link : Link α) : Slot α := ⟨link.address,link.listener,true⟩

def Link.connection (link : Link α) : Connection (Option UInt64) := ⟨link.address,link.oppoId⟩

def signalOf (h : ListenerHandler α) : Option UInt64 → Signal α
  | none => h.signal
  | some oppoId => (h.signals.lookup oppoId).getD {}

def connectionOf (h : ListenerHandler α) (selfId : UInt64) : Option UInt64 → Option (Connection (Option UInt64))
  | none => h.signalConns.lookup selfId
  | some oppoId => ((h.signalsConns.lookup oppoId).getD ∅).lookup selfId

theorem signalOf_connect (s : State α) (listener : Option α) (o : Option UInt64) :
    (s.connect selfId oppoId listener).handler.signalOf o =
      if o = oppoId then (s.handler.signalOf o).connect s.handler.next listener
      else s.handler.signalOf o := by
  cases oppoId with
  | none =>
    cases o with
    | none | some => rfl
  | some =>
    cases o with
    | none => rfl
    | some =>
      simp only [State.connect,connectTo,signalOf,lookup_insert_eq_ite,Option.some.injEq]
      split
      case isTrue ho =>
        subst ho
        rfl
      case isFalse => rfl

theorem connectionOf_connect (s : State α) (listener : Option α) (x : UInt64) (o : Option UInt64) :
    (s.connect selfId oppoId listener).handler.connectionOf x o =
      if x = selfId ∧ o = oppoId then some ⟨s.handler.next,oppoId⟩ else s.handler.connectionOf x o := by
  cases oppoId with
  | none =>
    cases o with
    | none => simp [State.connect,connect,connectionOf,lookup_insert_eq_ite]
    | some => simp [State.connect,connect,connectionOf]
  | some oppoId =>
    cases o with
    | none => simp [State.connect,connectTo,connectionOf]
    | some o =>
      simp only [State.connect,connectTo,connectionOf,lookup_insert_eq_ite,Option.some.injEq]
      by_cases ho : o = oppoId
      · subst ho
        simp [lookup_insert_eq_ite]
      · simp [ho]

section
variable (conn : Connection (Option UInt64))
include conn

theorem signalOf_disconnectSlot (o : Option UInt64) (hc : (h.signalOf conn.signal).Connected) :
    (h.disconnectSlot conn).signalOf o =
      if o = conn.signal then ⟨(h.signalOf o).slots.filter (·.address ≠ conn.slot)⟩
      else h.signalOf o := by
  obtain ⟨slot,signal⟩ := conn
  cases signal with
  | none =>
    cases o with
    | none => exact hc.disconnect slot
    | some => rfl
  | some =>
    have hd := hc.disconnect slot
    cases o with rw [disconnectSlot]
    | none =>
      dsimp only
      split <;> rfl
    | some =>
      simp only [signalOf,Option.some.injEq] at hd ⊢
      split
      case h_1 hl =>
        split
        case isTrue ho =>
          subst ho
          rw [hl]
          rfl
        case isFalse => rfl
      case h_2 signal hl =>
        rw [hl] at hd
        rw [lookup_insert_eq_ite]
        split
        case isTrue ho =>
          subst ho
          rw [hl]
          exact hd
        case isFalse => rfl

theorem disconnectSlot_next : (h.disconnectSlot conn).next = h.next := by
  rw [disconnectSlot]
  split
  · rfl
  · split <;> rfl

theorem disconnectSlot_conns : (h.disconnectSlot conn).signalConns = h.signalConns ∧
      (h.disconnectSlot conn).signalsConns = h.signalsConns := by
  rw [disconnectSlot]
  split
  · exact ⟨rfl,rfl⟩
  · split <;> exact ⟨rfl,rfl⟩

end

theorem disconnect_unknown (hc : s.handler.connectionOf selfId oppoId = none) :
    (s.disconnect selfId oppoId).handler = s.handler := by
  cases oppoId with
  | none =>
    change s.handler.disconnect selfId = s.handler
    rw [disconnect,show s.handler.signalConns.lookup selfId = none from hc]
  | some oppoId =>
    change s.handler.disconnectFrom selfId oppoId = s.handler
    rw [disconnectFrom]
    split
    case h_1 => rfl
    case h_2 conns hl =>
      rw [connectionOf,hl] at hc
      rw [show conns.lookup selfId = none from hc]

theorem disconnect_known {conn : Connection (Option UInt64)} (hc : s.handler.connectionOf selfId oppoId = some conn) :
    (∀ o, (s.disconnect selfId oppoId).handler.signalOf o = (s.handler.disconnectSlot conn).signalOf o) ∧
    (∀ x o, (s.disconnect selfId oppoId).handler.connectionOf x o =
      if x = selfId ∧ o = oppoId then none else s.handler.connectionOf x o) ∧
    (s.disconnect selfId oppoId).handler.next = s.handler.next := by
  obtain ⟨hconns,hsconns⟩ := disconnectSlot_conns (h := s.handler) conn
  cases oppoId with
  | none =>
    have hd : (s.disconnect selfId none).handler =
        { s.handler.disconnectSlot conn with signalConns := s.handler.signalConns.erase selfId } := by
      change s.handler.disconnect selfId = _
      rw [disconnect,show s.handler.signalConns.lookup selfId = some conn from hc]
    rw [hd]
    refine ⟨fun o => ?_,fun x o => ?_,disconnectSlot_next conn⟩
    · cases o <;> rfl
    · cases o with
      | none => simp [connectionOf,lookup_erase_eq_ite]
      | some => simp [connectionOf,hsconns]
  | some oppoId =>
    have hd : (s.disconnect selfId (some oppoId)).handler = { s.handler.disconnectSlot conn with
        signalsConns := s.handler.signalsConns.insert oppoId
          (((s.handler.signalsConns.lookup oppoId).getD ∅).erase selfId) } := by
      change s.handler.disconnectFrom selfId oppoId = _
      rw [disconnectFrom]
      rw [connectionOf] at hc
      split
      case h_1 hl =>
        rw [hl] at hc
        cases hc
      case h_2 hl =>
        rw [hl,Option.getD_some] at hc
        rw [hc,hl]
        rfl
    rw [hd]
    refine ⟨fun o => ?_,fun _ o => ?_,disconnectSlot_next conn⟩
    · cases o <;> rfl
    · cases o with
      | none => simp [connectionOf,hconns]
      | some o =>
        simp only [connectionOf,lookup_insert_eq_ite,Option.some.injEq]
        by_cases ho : o = oppoId
        · subst ho
          simp [lookup_erase_eq_ite]
        · simp [ho]

def Link.Between (link : Link α) (selfId : UInt64) (oppoId : Option UInt64) : Prop :=
  link.selfId = selfId ∧ link.oppoId = oppoId

instance (link : Link α) : Decidable (link.Between selfId oppoId) := inferInstanceAs (Decidable (_ ∧ _))

structure Inv (s : State α) : Prop where
  slots : ∀ o, (s.handler.signalOf o).slots = (s.live.filter (·.oppoId = o)).map slot
  conns : ∀ x o, s.handler.connectionOf x o = (s.live.filter (·.Between x o)).getLast?.map connection
  nodup : (s.live.map address).Nodup
  fresh : ∀ link ∈ s.live, link.address < s.handler.next

namespace State

/-- A `Disconnect` ends at most one live connection, and one that was made with just its ids. -/
def Single (s : State α) : Event α → Prop
  | .disconnect selfId oppoId => (s.live.filter (·.endedBy selfId oppoId)).length ≤ 1 ∧
      ∀ link ∈ s.live, link.endedBy selfId oppoId → link.oppoId = oppoId
  | _ => True

instance (s : State α) (e : Event α) : Decidable (s.Single e) :=
  match e with
  | .disconnect _ _ => inferInstanceAs (Decidable (_ ∧ _))
  | .connect .. | .run _ => isTrue trivial

end State

theorem Inv.connected (hi : Inv s) (o : Option UInt64) : (s.handler.signalOf o).Connected := by
  intro _ hs
  rw [hi.slots] at hs
  obtain ⟨_,_,rfl⟩ := mem_map.mp hs
  rfl

theorem Inv.connect (hi : Inv s) (listener : Option α) : Inv (s.connect selfId oppoId listener) := by
  have hnext : (s.connect selfId oppoId listener).handler.next = s.handler.next+1 := by
    cases oppoId <;> rfl
  constructor
  · intro o
    rw [signalOf_connect]
    change _ = ((s.live ++ [_]).filter _).map _
    rw [filter_append,map_append,← hi.slots]
    by_cases ho : o = oppoId
    · simp [ho,Signal.connect,slot]
    · simp [ho,Ne.symm ho]
  · intro x o
    rw [connectionOf_connect]
    change _ = ((s.live ++ [_]).filter _).getLast?.map _
    rw [filter_append,hi.conns]
    by_cases hx : x = selfId ∧ o = oppoId
    · obtain ⟨rfl,rfl⟩ := hx
      simp [Link.Between,connection]
    · have hb : ¬ Link.Between ⟨s.handler.next,selfId,oppoId,listener⟩ x o :=
        fun hb => hx ⟨hb.1.symm,hb.2.symm⟩
      simp [hx,hb]
  · change ((s.live ++ [_]).map _).Nodup
    rw [map_append,map_singleton]
    refine List.Nodup.append hi.nodup (nodup_singleton _) ?_
    intro _ ha hn
    obtain ⟨link,hl,rfl⟩ := mem_map.mp ha
    exact ne_of_lt (hi.fresh link hl) (mem_singleton.mp hn)
  · intro link hl
    rw [hnext]
    rcases mem_append.mp hl with hl | hl
    · exact Nat.lt_succ_of_lt (hi.fresh link hl)
    · cases mem_singleton.mp hl
      exact Nat.lt_succ_self _

variable {link x y other : Link α}

theorem eq_of_length_le_one {l : List (Link α)} (hl : l.length ≤ 1) (hx : x ∈ l) (hy : y ∈ l) : x = y := by
  cases l with
  | nil => cases hx
  | cons _ l =>
    obtain rfl : l = [] := length_eq_zero_iff.mp (by simpa using hl)
    rw [mem_singleton.mp hx,mem_singleton.mp hy]

theorem endedBy_iff : link.endedBy selfId oppoId ↔
    link.selfId = selfId ∧ (oppoId = none ∨ link.oppoId = oppoId) := decide_eq_true_iff

theorem State.Single.endedBy_iff_between (hs : s.Single (.disconnect selfId oppoId)) (hl : link ∈ s.live) :
    link.endedBy selfId oppoId ↔ link.Between selfId oppoId := by
  constructor
  · intro he
    exact ⟨(endedBy_iff.mp he).1,hs.2 link hl he⟩
  · intro hb
    exact endedBy_iff.mpr ⟨hb.1,.inr hb.2⟩

theorem Inv.endedBy_iff_address (hi : Inv s) (hs : s.Single (.disconnect selfId oppoId)) (hl : link ∈ s.live)
    (he : link.endedBy selfId oppoId) (ho : other ∈ s.live) :
    other.endedBy selfId oppoId ↔ other.address = link.address := by
  constructor
  · intro heo
    exact congrArg address (eq_of_length_le_one hs.1 (mem_filter.mpr ⟨ho,heo⟩) (mem_filter.mpr ⟨hl,he⟩))
  · intro ha
    rw [inj_on_of_nodup_map hi.nodup ho hl ha]
    exact he

theorem Inv.disconnect (hi : Inv s) (hs : s.Single (.disconnect selfId oppoId)) :
    Inv (s.disconnect selfId oppoId) := by
  have hlive : (s.disconnect selfId oppoId).live = s.live.filter (!·.endedBy selfId oppoId) := rfl
  have hconn := hi.conns selfId oppoId
  cases hlast : (s.live.filter (·.Between selfId oppoId)).getLast? with
  | none =>
    -- there is no such connection, and nothing changes
    have hkeep : s.live.filter (!·.endedBy selfId oppoId) = s.live := by
      apply filter_eq_self.mpr
      intro link hl
      have hb : ¬ link.Between selfId oppoId := by
        simpa using filter_eq_nil_iff.mp (getLast?_eq_none_iff.mp hlast) link hl
      rw [Bool.not_eq_true',Bool.eq_false_iff]
      exact (hs.endedBy_iff_between hl).not.mpr hb
    rw [hlast] at hconn
    have hsame : s.disconnect selfId oppoId = s := by
      exact congrArg₂ State.mk (disconnect_unknown hconn) hkeep
    rwa [hsame]
  | some link =>
    rw [hlast] at hconn
    obtain ⟨hl,hb⟩ := mem_filter.mp (mem_of_getLast? hlast)
    replace hb : link.Between selfId oppoId := of_decide_eq_true hb
    have he := (hs.endedBy_iff_between hl).mpr hb
    have haddress {other : Link α} (ho : other ∈ s.live) := hi.endedBy_iff_address hs hl he ho
    obtain ⟨hsignal,hconns,hnext⟩ := disconnect_known hconn
    constructor
    · intro _
      rw [hsignal,signalOf_disconnectSlot _ _ (hi.connected _),hlive,filter_filter]
      split
      case isTrue ho =>
        rw [hi.slots,filter_map,filter_filter]
        refine congrArg (List.map slot) (filter_congr fun other hother => ?_)
        simp only [Function.comp_apply,slot,connection]
        grind
      case isFalse ho =>
        rw [hi.slots]
        refine congrArg (List.map slot) (filter_congr fun other hother => ?_)
        have := hs.2 other hother
        have : link.connection.signal = oppoId := hb.2
        grind
    · intro x o
      rw [hconns,hlive,filter_filter]
      by_cases hx : x = selfId ∧ o = oppoId
      · obtain ⟨rfl,rfl⟩ := hx
        have hnil : s.live.filter (fun l => decide (l.Between x o) && !l.endedBy x o) = [] := by
          apply filter_eq_nil_iff.mpr
          intro _ hother
          have := hs.endedBy_iff_between hother
          simp [this]
        rw [if_pos ⟨rfl,rfl⟩,hnil]
        rfl
      · rw [if_neg hx,hi.conns]
        congr 2
        apply filter_congr
        intro _ hother
        have := hs.endedBy_iff_between hother
        grind [Link.Between]
    · exact hi.nodup.sublist (filter_sublist.map _)
    · intro other hother
      rw [hnext]
      exact hi.fresh other (mem_filter.mp hother).1

theorem run_calls (h : ListenerHandler α) (sender : UInt64) : (h.run sender).1 =
    (h.signalOf none).slots.filterMap Slot.invoke ++ (h.signalOf (some sender)).slots.filterMap Slot.invoke := by
  rw [run,signalOf,signalOf]
  split
  case h_1 hl =>
    rw [hl]
    exact (append_nil _).symm
  case h_2 hl =>
    rw [hl]
    rfl

theorem signalOf_run (hc : ∀ o, (h.signalOf o).Connected) (sender : UInt64) (o : Option UInt64) :
    (h.run sender).2.signalOf o = h.signalOf o := by
  rw [run]
  have hnone := (hc none).clear
  split
  case h_1 =>
    cases o with
    | none => exact hnone
    | some => rfl
  case h_2 hl =>
    cases o with
    | none => exact hnone
    | some =>
      have hsome := (hc (some sender)).clear
      rw [signalOf,hl,Option.getD_some] at hsome
      rw [signalOf,signalOf,lookup_insert_eq_ite]
      split
      case isTrue ho =>
        rw [ho,hl]
        exact hsome
      case isFalse => rfl

theorem run_conns (h : ListenerHandler α) (sender : UInt64) :
    (h.run sender).2.signalConns = h.signalConns ∧ (h.run sender).2.signalsConns = h.signalsConns ∧
      (h.run sender).2.next = h.next := by
  rw [run]
  split <;> exact ⟨rfl,rfl,rfl⟩

theorem Inv.run (hi : Inv s) (sender : UInt64) : Inv { s with handler := (s.handler.run sender).2 } := by
  obtain ⟨hconns,hsconns,hnext⟩ := run_conns s.handler sender
  constructor
  · intro o
    rw [signalOf_run hi.connected]
    exact hi.slots o
  · intro x o
    have hsame : (s.handler.run sender).2.connectionOf x o = s.handler.connectionOf x o := by
      cases o with
      | none => rw [connectionOf,connectionOf,hconns]
      | some => rw [connectionOf,connectionOf,hsconns]
    rw [hsame]
    exact hi.conns x o
  · exact hi.nodup
  · intro link hl
    rw [hnext]
    exact hi.fresh link hl

theorem Inv.calls (hi : Inv s) (sender : UInt64) : (s.handler.run sender).1 = addressees s.live sender := by
  have hcalls (o : Option UInt64) : (s.handler.signalOf o).slots.filterMap Slot.invoke =
      (s.live.filter (·.oppoId = o)).filterMap (·.listener) := by
    rw [hi.slots,filterMap_map]
    rfl
  rw [run_calls,hcalls,hcalls]
  rfl

theorem init_inv : Inv (⟨{},[]⟩ : State α) where
  slots o := by cases o <;> rfl
  conns x o := by cases o <;> rfl
  nodup := nodup_nil
  fresh _ hl := by cases hl

theorem single_inv (h : (system α).ReachableWhile State.Single s) : Inv s := by
  apply h.invariant
  · rintro _ rfl
    exact init_inv
  · intro _ e _ hi hs he
    cases e with
    | connect _ _ listener =>
      cases he
      exact hi.connect listener
    | disconnect =>
      cases he
      exact hi.disconnect hs
    | run sender =>
      cases he
      exact hi.run sender

/-- `Run` invokes the listeners of the live connections for all senders and for this one, once each and in order, in
every run whose disconnections end at most one connection each. -/
theorem run_invokes_addressees (h : (system α).ReachableWhile State.Single s) :
    (∀ sender, (s.handler.run sender).1 = addressees s.live sender) ∧
    ∀ selfId, s.Single (.disconnect selfId none) → ∀ sender, ((s.disconnect selfId none).handler.run sender).1 =
        addressees (s.live.filter (·.selfId ≠ selfId)) sender := by
  refine ⟨(single_inv h).calls,fun _ hs _ => ?_⟩
  rw [((single_inv h).disconnect hs).calls]
  congr 1
  apply filter_congr
  intro _ _
  simp [endedBy]

/-- Two listeners, one of them for the messages of one sender, and a disconnection. -/
theorem run_invokes_addressees_two : ∃ s : State String, (s.handler.run 7).1 = ["all", "seven"] ∧
      ((s.disconnect 1 none).handler.run 7).1 = ["seven"] := by
  have h : (system String).ReachableWhile State.Single ⟨{},[]⟩ := .start rfl
  have h := h.next (e := Event.connect 1 none (some "all")) trivial rfl
  have h := h.next (e := Event.connect 2 (some 7) (some "seven")) trivial rfl
  have hs := run_invokes_addressees h
  exact ⟨_,(hs.1 7).trans (by decide),(hs.2 1 (by decide) 7).trans (by decide)⟩

/-- Of two connections under one id, `Disconnect` ends the later one only. -/
theorem earlier_listener_invoked : ∃ s : State String, (system String).Reachable s ∧ s.live = [] ∧
    (s.handler.run 7).1 = ["first"] := by
  obtain ⟨s,hs,hp⟩ := System.reachable_of_exec (system String)
    [.connect 1 none (some "first"),.connect 1 none (some "second"),.disconnect 1 none]
    (fun s => s.live.isEmpty && (s.handler.run 7).1 == ["first"]) rfl (by decide)
  simp only [Bool.and_eq_true,List.isEmpty_iff,beq_iff_eq] at hp
  exact ⟨s,hs,hp⟩

end ListenerHandler
end Apollo.Cyber.Transport
