import Apollo.Cyber.Transport.Message.MessageInfo
import Apollo.Foundation.Table
import Apollo.Foundation.Transition

/-! `Client` and `Service` over a network that loses, repeats and reorders messages. A client sends and handles a
response under `pending_requests_mutex_`, so that each of the two is one event. The sequence numbers of one client
differ up to their wrap. -/
namespace Apollo.Cyber.Service
open Foundation Transport

/-- Which request of which client a message belongs to. The programs do not see this. -/
structure Origin (κ : Type) where
  client : κ
  number : Nat
  deriving DecidableEq

structure Packet (κ π : Type) where
  payload : π
  sample : SampleIdentity
  origin : Origin κ

structure Task (κ α : Type) where
  request : α
  info : MessageInfo
  origin : Origin κ

/-- A return of `service_callback_`. -/
structure Produced (κ α β : Type) where
  origin : Origin κ
  request : α
  response : β
  deriving DecidableEq

/-- A `set_value` on the promise of a request. -/
structure Fulfilled (κ β : Type) where
  promise : Origin κ
  response : β
  deriving DecidableEq

/-- The promise of a pending request is known by the number of the request. -/
structure Client where
  isInit : Bool
  sequenceNumber : UInt64
  pendingRequests : Table UInt64 Nat

/-- `isInit` tells whether the service has its request receiver, and `working` is the task that its thread
executes. The network keeps every message, and `sent` has the requests of each client. -/
structure State (κ α β : Type) where
  client : κ → Client
  sent : κ → List α
  requests : List (Packet κ α)
  responses : List (Packet κ β)
  isInit : Bool
  inited : Bool
  tasks : List (Task κ α)
  working : Option (Task κ α)
  produced : List (Produced κ α β)
  fulfilled : List (Fulfilled κ β)

/-- The network delivers any message that was ever sent. `handle` is the end of `service_callback_` with
the response that it has produced. -/
inductive Event (κ α β : Type)
  | initClient (c : κ)
  | initService
  | destroy
  | send (c : κ) (request : α)
  | deliverRequest (i : Nat)
  | take
  | handle (response : β)
  | deliverResponse (c : κ) (i : Nat)

structure Ids (κ : Type) where
  hash : Vector UInt8 8 → UInt64
  writerId : κ → Identity
  serviceId : Identity

namespace State
variable {κ α β : Type} [DecidableEq κ]

def setClient (s : State κ α β) (c : κ) (client : Client) : State κ α β :=
  { s with client := Function.update s.client c client }

/-- `AsyncSendRequest` behind its test of `IsInit`. -/
def asyncSendRequest (ids : Ids κ) (s : State κ α β) (c : κ) (request : α) : State κ α β :=
  let sequenceNumber := (s.client c).sequenceNumber+1
  let info : MessageInfo := ⟨ids.writerId c,sequenceNumber,ids.writerId c⟩
  let number := (s.sent c).length
  let pendingRequests := (s.client c).pendingRequests.insert info.seqNum number
  { s.setClient c { s.client c with sequenceNumber, pendingRequests } with
    sent := Function.update s.sent c (s.sent c ++ [request])
    requests := s.requests ++ [⟨request,info.toSample,⟨c,number⟩⟩] }

def enqueue (ids : Ids κ) (s : State κ α β) (packet : Packet κ α) : State κ α β :=
  { s with tasks := s.tasks ++ [⟨packet.payload,packet.sample.toInfo ids.hash,packet.origin⟩] }

def handleRequest (ids : Ids κ) (s : State κ α β) (task : Task κ α) (response : β) : State κ α β :=
  let info := { task.info with senderId := ids.serviceId }
  { s with
    working := none
    responses := s.responses ++ [⟨response,info.toSample,task.origin⟩]
    produced := s.produced ++ [⟨task.origin,task.request,response⟩] }

def handleResponse (ids : Ids κ) (s : State κ α β) (c : κ) (packet : Packet κ β) : State κ α β :=
  let info := packet.sample.toInfo ids.hash
  if !info.spareId.same (ids.writerId c) then s
  else
    match (s.client c).pendingRequests.lookup info.seqNum with
    | none => s
    | some number =>
      let pendingRequests := (s.client c).pendingRequests.erase info.seqNum
      { s.setClient c { s.client c with pendingRequests } with
        fulfilled := s.fulfilled ++ [⟨⟨c,number⟩,packet.payload⟩] }

def step (ids : Ids κ) (s : State κ α β) : Event κ α β → Option (State κ α β)
  | .initClient c => some (s.setClient c { s.client c with isInit := true })
  | .initService => some (if s.isInit then s else { s with isInit := true, inited := true })
  | .destroy => some { s with inited := false, tasks := [] }
  | .send c request => some (if (s.client c).isInit then s.asyncSendRequest ids c request else s)
  | .deliverRequest i => if s.isInit then (s.requests[i]?).map (s.enqueue ids) else none
  | .take =>
    match s.tasks, s.inited, s.working with
    | task::tasks, true, none => some { s with tasks, working := some task }
    | _, _, _ => none
  | .handle response => s.working.map fun task => s.handleRequest ids task response
  | .deliverResponse c i =>
    if (s.client c).isInit then (s.responses[i]?).map (s.handleResponse ids c) else none

end State

def init (κ α β : Type) : State κ α β where
  client _ := ⟨false,0,∅⟩
  sent _ := []
  requests := []
  responses := []
  isInit := false
  inited := false
  tasks := []
  working := none
  produced := []
  fulfilled := []

def system (κ α β : Type) [DecidableEq κ] (ids : Ids κ) : System (State κ α β) (Event κ α β) where
  initial s := s = init κ α β
  step := State.step ids

open List Function UInt64
variable {κ α β : Type} {ids : Ids κ} {s t : State κ α β} {c : κ}

def Stamped (ids : Ids κ) (info : MessageInfo) (origin : Origin κ) : Prop :=
  info.spareId.data = (ids.writerId origin.client).data ∧ info.seqNum = ofNat (origin.number+1)

def State.Asked (s : State κ α β) (origin : Origin κ) (request : α) : Prop :=
  (s.sent origin.client)[origin.number]? = some request

def State.Answered (s : State κ α β) (origin : Origin κ) (response : β) : Prop :=
  ∃ request, s.Asked origin request ∧ ⟨origin,request,response⟩ ∈ s.produced

structure Carried (ids : Ids κ) (s : State κ α β) : Prop where
  requests : ∀ p ∈ s.requests, Stamped ids (p.sample.toInfo ids.hash) p.origin ∧ s.Asked p.origin p.payload
  tasks : ∀ task ∈ s.tasks, Stamped ids task.info task.origin ∧ s.Asked task.origin task.request
  working : ∀ task ∈ s.working, Stamped ids task.info task.origin ∧ s.Asked task.origin task.request
  responses : ∀ p ∈ s.responses, Stamped ids (p.sample.toInfo ids.hash) p.origin ∧ s.Answered p.origin p.payload

structure Promised (s : State κ α β) : Prop where
  sequence : ∀ c, (s.client c).sequenceNumber = ofNat (s.sent c).length
  pending : ∀ c seqNum number, (s.client c).pendingRequests.lookup seqNum = some number →
    seqNum = ofNat (number+1) ∧ number < (s.sent c).length ∧
      (⟨c,number⟩ : Origin κ) ∉ s.fulfilled.map Fulfilled.promise
  kept : ∀ f ∈ s.fulfilled, f.promise.number < (s.sent f.promise.client).length
  once : (s.fulfilled.map Fulfilled.promise).Nodup

/-- The promises have the responses of their requests, as long as no sequence number has come again. -/
def Matched (s : State κ α β) : Prop :=
  ∀ f ∈ s.fulfilled, (s.sent f.promise.client).length ≤ 2^64 → s.Answered f.promise f.response

variable {origin : Origin κ} {task : Task κ α}

theorem Stamped.toSample {info : MessageInfo} (h : Stamped ids info origin) :
    Stamped ids (info.toSample.toInfo ids.hash) origin := by
  rw [Stamped,spareId_toInfo_toSample,seqNum_toInfo_toSample]
  exact h

theorem number_eq {i j n : Nat} (hi : i < n) (hj : j < n) (hn : n ≤ 2^64)
    (h : ofNat (i+1) = ofNat (j+1)) : i = j := by
  have hmod := congrArg toNat h
  rw [toNat_ofNat',toNat_ofNat'] at hmod
  omega

/-- Nothing that was sent or produced is forgotten. -/
structure Grows (s t : State κ α β) : Prop where
  sent : ∀ c, s.sent c <+: t.sent c
  produced : s.produced ⊆ t.produced

theorem Grows.asked {request : α} (h : Grows s t) (ha : s.Asked origin request) : t.Asked origin request := by
  obtain ⟨_,hrest⟩ := h.sent origin.client
  obtain ⟨hlt,_⟩ := List.getElem?_eq_some_iff.mp ha
  rw [State.Asked,← hrest,getElem?_append_left hlt]
  exact ha

theorem Grows.answered {response : β} (h : Grows s t) (ha : s.Answered origin response) :
    t.Answered origin response := by
  obtain ⟨request,hr,hp⟩ := ha
  exact ⟨request,h.asked hr,h.produced hp⟩

theorem Grows.length_le (h : Grows s t) (c : κ) : (s.sent c).length ≤ (t.sent c).length := (h.sent c).length_le

theorem Grows.matched (h : Grows s t) (hm : Matched s) (hf : t.fulfilled = s.fulfilled) : Matched t := by
  intro f hmem hlen
  rw [hf] at hmem
  exact h.answered (hm f hmem (le_trans (h.length_le _) hlen))

theorem Promised.congr (h : Promised s) (hseq : ∀ c, (t.client c).sequenceNumber = (s.client c).sequenceNumber)
    (hp : ∀ c, (t.client c).pendingRequests = (s.client c).pendingRequests) (hs : t.sent = s.sent)
    (hf : t.fulfilled = s.fulfilled) : Promised t := by
  refine ⟨?_,?_,?_,?_⟩
  · intro c
    rw [hseq,hs]
    exact h.sequence c
  · intro c seqNum number hl
    rw [hp] at hl
    rw [hs,hf]
    exact h.pending c seqNum number hl
  · rw [hf,hs]
    exact h.kept
  · rw [hf]
    exact h.once

structure Inv (ids : Ids κ) (s : State κ α β) : Prop where
  carried : Carried ids s
  promised : Promised s
  matched : Matched s

theorem Inv.enqueue {p : Packet κ α} (h : Inv ids s) (hp : p ∈ s.requests) : Inv ids (s.enqueue ids p) := by
  refine ⟨⟨h.carried.requests,?_,h.carried.working,h.carried.responses⟩,
    h.promised.congr (fun _ => rfl) (fun _ => rfl) rfl rfl,h.matched⟩
  intro task hmem
  rcases mem_append.mp hmem with hold | hnew
  · exact h.carried.tasks task hold
  · obtain rfl := mem_singleton.mp hnew
    exact h.carried.requests p hp

theorem Inv.take {tasks : List (Task κ α)} (h : Inv ids s) (ht : s.tasks = task::tasks) :
    Inv ids { s with tasks, working := some task } := by
  refine ⟨⟨h.carried.requests,?_,?_,h.carried.responses⟩,
    h.promised.congr (fun _ => rfl) (fun _ => rfl) rfl rfl,h.matched⟩
  · intro task' hmem
    exact h.carried.tasks task' (ht ▸ mem_cons_of_mem _ hmem)
  · rintro _ ⟨⟩
    exact h.carried.tasks task (ht ▸ mem_cons_self)

theorem Inv.handleRequest (h : Inv ids s) (hw : s.working = some task) (response : β) :
    Inv ids (s.handleRequest ids task response) := by
  have hgrows : Grows s (s.handleRequest ids task response) := ⟨fun _ => prefix_rfl,subset_append_left ..⟩
  obtain ⟨hst,hasked⟩ := h.carried.working task hw
  refine ⟨⟨?_,?_,?_,?_⟩,h.promised.congr (fun _ => rfl) (fun _ => rfl) rfl rfl,hgrows.matched h.matched rfl⟩
  · exact h.carried.requests
  · exact h.carried.tasks
  · intro _ hmem
    cases hmem
  · intro p hp
    rcases mem_append.mp hp with hold | hnew
    · obtain ⟨hst',ha⟩ := h.carried.responses p hold
      exact ⟨hst',hgrows.answered ha⟩
    · obtain rfl := mem_singleton.mp hnew
      -- the copy of the message info keeps the spare id and the number
      have hcopy : Stamped ids { task.info with senderId := ids.serviceId } task.origin := hst
      exact ⟨hcopy.toSample,task.request,hasked,mem_append_right _ mem_cons_self⟩

theorem init_inv : Inv ids (init κ α β) := by
  refine ⟨⟨?_,?_,?_,?_⟩,⟨fun _ => rfl,?_,?_,nodup_nil⟩,?_⟩
  · intro _ hp
    cases hp
  · intro _ hmem
    cases hmem
  · intro _ hmem
    cases hmem
  · intro _ hp
    cases hp
  · intro _ _ _ hl
    cases hl
  · intro _ hf
    cases hf
  · intro _ hf
    cases hf

section Clients
variable [DecidableEq κ]

theorem client_setClient_self (client : Client) : (s.setClient c client).client c = client := update_self ..

variable {d : κ} {client : Client} {p : Packet κ β} {number : Nat}

theorem client_setClient_of_ne (client : Client) (h : d ≠ c) :
    (s.setClient c client).client d = s.client d := update_of_ne h ..

theorem sequenceNumber_setClient (h : client.sequenceNumber = (s.client c).sequenceNumber) (d : κ) :
    ((s.setClient c client).client d).sequenceNumber = (s.client d).sequenceNumber := by
  by_cases hd : d = c
  · subst hd
    rw [client_setClient_self,h]
  · rw [client_setClient_of_ne client hd]

theorem pendingRequests_setClient (h : client.pendingRequests = (s.client c).pendingRequests) (d : κ) :
    ((s.setClient c client).client d).pendingRequests = (s.client d).pendingRequests := by
  by_cases hd : d = c
  · subst hd
    rw [client_setClient_self,h]
  · rw [client_setClient_of_ne client hd]

theorem sent_asyncSendRequest_self (request : α) :
    (s.asyncSendRequest ids c request).sent c = s.sent c ++ [request] := update_self ..

theorem sent_asyncSendRequest_of_ne (request : α) (h : d ≠ c) :
    (s.asyncSendRequest ids c request).sent d = s.sent d := update_of_ne h ..

theorem asyncSendRequest_grows (request : α) : Grows s (s.asyncSendRequest ids c request) := by
  refine ⟨fun d => ?_,List.Subset.refl _⟩
  by_cases hd : d = c
  · subst hd
    rw [sent_asyncSendRequest_self]
    exact prefix_append ..
  · refine ⟨[],?_⟩
    rw [sent_asyncSendRequest_of_ne request hd,append_nil]

theorem Promised.asyncSendRequest (h : Promised s) (request : α) : Promised (s.asyncSendRequest ids c request) := by
  have hgrows : Grows s (s.asyncSendRequest ids c request) := asyncSendRequest_grows request
  have hnumber : (s.client c).sequenceNumber+1 = ofNat ((s.sent c).length+1) := by
    rw [h.sequence,ofNat_add]
    rfl
  refine ⟨?_,?_,?_,h.once⟩
  · intro d
    by_cases hd : d = c
    · subst hd
      rw [sent_asyncSendRequest_self,length_append,length_singleton,← hnumber]
      exact congrArg Client.sequenceNumber (client_setClient_self ..)
    · rw [sent_asyncSendRequest_of_ne request hd,← h.sequence]
      exact congrArg Client.sequenceNumber (client_setClient_of_ne _ hd)
  · intro d seqNum number hl
    by_cases hd : d = c
    · subst hd
      have hclient : ((s.asyncSendRequest ids d request).client d).pendingRequests =
          (s.client d).pendingRequests.insert ((s.client d).sequenceNumber+1) (s.sent d).length :=
        congrArg Client.pendingRequests (client_setClient_self ..)
      rw [hclient,Table.lookup_insert_eq_ite] at hl
      split at hl
      case isTrue hnew =>
        cases hl
        refine ⟨hnew.trans hnumber,?_,?_⟩
        · rw [sent_asyncSendRequest_self,length_append]
          exact Nat.lt_succ_self _
        · -- the promises so far are of earlier requests
          intro hmem
          obtain ⟨f,hf,hp⟩ := mem_map.mp hmem
          have hlt := h.kept f hf
          rw [hp] at hlt
          exact lt_irrefl _ hlt
      case isFalse =>
        obtain ⟨hseq,hlt,hnot⟩ := h.pending d seqNum number hl
        exact ⟨hseq,lt_of_lt_of_le hlt (hgrows.length_le d),hnot⟩
    · have hclient : (s.asyncSendRequest ids c request).client d = s.client d :=
        client_setClient_of_ne _ hd
      rw [hclient] at hl
      obtain ⟨hseq,hlt,hnot⟩ := h.pending d seqNum number hl
      exact ⟨hseq,lt_of_lt_of_le hlt (hgrows.length_le d),hnot⟩
  · intro f hf
    exact lt_of_lt_of_le (h.kept f hf) (hgrows.length_le _)

theorem Inv.asyncSendRequest (h : Inv ids s) (request : α) : Inv ids (s.asyncSendRequest ids c request) := by
  have hgrows : Grows s (s.asyncSendRequest ids c request) := asyncSendRequest_grows request
  refine ⟨⟨?_,?_,?_,?_⟩,h.promised.asyncSendRequest request,hgrows.matched h.matched rfl⟩
  · intro p hp
    rcases mem_append.mp hp with hold | hnew
    · obtain ⟨hst,ha⟩ := h.carried.requests p hold
      exact ⟨hst,hgrows.asked ha⟩
    · obtain rfl := mem_singleton.mp hnew
      refine ⟨Stamped.toSample ⟨rfl,?_⟩,?_⟩
      · rw [h.promised.sequence,ofNat_add]
        rfl
      · change ((s.asyncSendRequest ids c request).sent c)[(s.sent c).length]? = some request
        rw [sent_asyncSendRequest_self]
        exact getElem?_concat_length
  · intro task hmem
    obtain ⟨hst,ha⟩ := h.carried.tasks task hmem
    exact ⟨hst,hgrows.asked ha⟩
  · intro task hmem
    obtain ⟨hst,ha⟩ := h.carried.working task hmem
    exact ⟨hst,hgrows.asked ha⟩
  · intro p hp
    obtain ⟨hst,ha⟩ := h.carried.responses p hp
    exact ⟨hst,hgrows.answered ha⟩

/-- What a response that finds a promise does. -/
def State.fulfill (s : State κ α β) (c : κ) (seqNum : UInt64) (number : Nat) (response : β) : State κ α β :=
  { s.setClient c { s.client c with pendingRequests := (s.client c).pendingRequests.erase seqNum } with
    fulfilled := s.fulfilled ++ [⟨⟨c,number⟩,response⟩] }

theorem handleResponse_pending (hid : (p.sample.toInfo ids.hash).spareId.data = (ids.writerId c).data)
    (hl : (s.client c).pendingRequests.lookup (p.sample.toInfo ids.hash).seqNum = some number) :
    s.handleResponse ids c p = s.fulfill c (p.sample.toInfo ids.hash).seqNum number p.payload := by
  have hsame : (p.sample.toInfo ids.hash).spareId.same (ids.writerId c) = true := (Identity.same_iff _ _).mpr hid
  simp only [State.handleResponse,hsame,hl]
  rfl

theorem handleResponse_cases (p : Packet κ β) : s.handleResponse ids c p = s ∨
      ∃ number, (p.sample.toInfo ids.hash).spareId.data = (ids.writerId c).data ∧
        (s.client c).pendingRequests.lookup (p.sample.toInfo ids.hash).seqNum = some number ∧
        s.handleResponse ids c p = s.fulfill c (p.sample.toInfo ids.hash).seqNum number p.payload := by
  cases hsame : (p.sample.toInfo ids.hash).spareId.same (ids.writerId c) with
  | false =>
    left
    simp only [State.handleResponse,hsame]
    rfl
  | true =>
    have hid := (Identity.same_iff _ _).mp hsame
    cases hl : (s.client c).pendingRequests.lookup (p.sample.toInfo ids.hash).seqNum with
    | none =>
      left
      simp only [State.handleResponse,hsame,hl]
      rfl
    | some number => exact .inr ⟨number,hid,rfl,handleResponse_pending hid hl⟩

theorem Promised.fulfill {seqNum : UInt64} (h : Promised s)
    (hl : (s.client c).pendingRequests.lookup seqNum = some number) (response : β) :
    Promised (s.fulfill c seqNum number response) := by
  obtain ⟨hseq,hlt,hnot⟩ := h.pending c seqNum number hl
  have hpromises : (s.fulfill c seqNum number response).fulfilled.map Fulfilled.promise =
      s.fulfilled.map Fulfilled.promise ++ [⟨c,number⟩] := map_append
  refine ⟨?_,?_,?_,?_⟩
  · intro d
    have hsame : ((s.fulfill c seqNum number response).client d).sequenceNumber = (s.client d).sequenceNumber := by
      apply sequenceNumber_setClient
      rfl
    exact hsame.trans (h.sequence d)
  · intro d seqNum' number' hl'
    rw [hpromises]
    by_cases hd : d = c
    · subst hd
      have hclient : ((s.fulfill d seqNum number response).client d).pendingRequests =
          (s.client d).pendingRequests.erase seqNum :=
        congrArg Client.pendingRequests (client_setClient_self ..)
      rw [hclient,Table.lookup_erase_eq_ite] at hl'
      split at hl'
      case isTrue => cases hl'
      case isFalse hne =>
        obtain ⟨hseq',hlt',hnot'⟩ := h.pending d seqNum' number' hl'
        refine ⟨hseq',hlt',fun hmem => ?_⟩
        rcases mem_append.mp hmem with hold | hnew
        · exact hnot' hold
        · -- one number has one sequence number
          cases mem_singleton.mp hnew
          exact hne (hseq'.trans hseq.symm)
    · have hclient : (s.fulfill c seqNum number response).client d = s.client d :=
        client_setClient_of_ne _ hd
      rw [hclient] at hl'
      obtain ⟨hseq',hlt',hnot'⟩ := h.pending d seqNum' number' hl'
      refine ⟨hseq',hlt',fun hmem => ?_⟩
      rcases mem_append.mp hmem with hold | hnew
      · exact hnot' hold
      · cases mem_singleton.mp hnew
        exact hd rfl
  · intro f hf
    rcases mem_append.mp hf with hold | hnew
    · exact h.kept f hold
    · obtain rfl := mem_singleton.mp hnew
      exact hlt
  · rw [hpromises]
    exact nodup_append.mpr ⟨h.once,nodup_singleton _,fun _ ha _ hb hab =>
      hnot (mem_singleton.mp hb ▸ hab ▸ ha)⟩

section
variable (hid : Function.Injective fun c => (ids.writerId c).data)
include hid

theorem Inv.handleResponse (h : Inv ids s) (hp : p ∈ s.responses) : Inv ids (s.handleResponse ids c p) := by
  rcases handleResponse_cases p with heq | ⟨number,hspare,hl,heq⟩
  · rw [heq]
    exact h
  · rw [heq]
    have hc := h.carried
    refine ⟨⟨hc.requests,hc.tasks,hc.working,hc.responses⟩,h.promised.fulfill hl _,?_⟩
    intro f hf hlen
    rcases mem_append.mp hf with hold | hnew
    · exact h.matched f hold hlen
    · obtain rfl := mem_singleton.mp hnew
      obtain ⟨⟨horigin,hseq⟩,hans⟩ := hc.responses p hp
      have hclient := hid (horigin.symm.trans hspare)
      obtain ⟨hseq',hlt,_⟩ := h.promised.pending c _ number hl
      have hlt' : p.origin.number < (s.sent p.origin.client).length := by
        obtain ⟨_,hasked,_⟩ := hans
        exact (List.getElem?_eq_some_iff.mp hasked).1
      rw [hclient] at hlt'
      have hnumber := number_eq hlt' hlt hlen (hseq.symm.trans hseq')
      have horig : p.origin = ⟨c,number⟩ := by
        rw [← hclient,← hnumber]
      exact horig ▸ hans

theorem Inv.step {e : Event κ α β} (h : Inv ids s) (he : s.step ids e = some t) : Inv ids t := by
  have hc := h.carried
  cases e with
  | initClient =>
    cases he
    exact ⟨⟨hc.requests,hc.tasks,hc.working,hc.responses⟩,
      h.promised.congr (sequenceNumber_setClient rfl) (pendingRequests_setClient rfl) rfl rfl,h.matched⟩
  | initService =>
    cases he
    split
    · exact h
    · exact ⟨⟨hc.requests,hc.tasks,hc.working,hc.responses⟩,
        h.promised.congr (fun _ => rfl) (fun _ => rfl) rfl rfl,h.matched⟩
  | destroy =>
    cases he
    refine ⟨⟨hc.requests,?_,hc.working,hc.responses⟩,
      h.promised.congr (fun _ => rfl) (fun _ => rfl) rfl rfl,h.matched⟩
    intro _ hmem
    cases hmem
  | send _ request =>
    cases he
    split
    · exact h.asyncSendRequest request
    · exact h
  | deliverRequest =>
    rw [State.step] at he
    split at he
    · obtain ⟨p,hp,rfl⟩ := Option.map_eq_some_iff.mp he
      exact h.enqueue (mem_of_getElem? hp)
    · cases he
  | take =>
    rw [State.step] at he
    split at he
    case h_1 task tasks ht _ _ =>
      cases he
      exact h.take ht
    case h_2 => cases he
  | handle response =>
    obtain ⟨task,hw,rfl⟩ := Option.map_eq_some_iff.mp he
    exact h.handleRequest hw response
  | deliverResponse =>
    rw [State.step] at he
    split at he
    · obtain ⟨p,hp,rfl⟩ := Option.map_eq_some_iff.mp he
      exact h.handleResponse hid (mem_of_getElem? hp)
    · cases he

theorem reachable_inv (h : (system κ α β ids).Reachable s) : Inv ids s := by
  apply h.invariant
  · rintro _ rfl
    exact init_inv
  · intro _ _ _ hs he
    exact hs.step hid he

end

/-- Every promise is fulfilled at most once, and with the response that the handler has produced for its
request, unless its client has sent more than `2 ^ 64` requests. -/
theorem responses_match (hid : Function.Injective fun c => (ids.writerId c).data)
    (h : (system κ α β ids).Reachable s) :
    (s.fulfilled.map Fulfilled.promise).Nodup ∧
      ∀ f ∈ s.fulfilled, (s.sent f.promise.client).length ≤ 2^64 → s.Answered f.promise f.response := by
  have hinv := reachable_inv hid h
  exact ⟨hinv.promised.once,hinv.matched⟩

end Clients

def twoIds : Ids Bool where
  hash _ := 0
  writerId c := ⟨.replicate 8 (if c then 1 else 2),0, ""⟩
  serviceId := .zero

/-- A request is handled twice, and responses arrive in another order and at the wrong client. -/
theorem responses_match_two : ∃ s : State Bool Nat Nat,
    s.fulfilled = [⟨⟨true,0⟩,12⟩,⟨⟨false,0⟩,21⟩] ∧ (s.fulfilled.map Fulfilled.promise).Nodup ∧
      ∀ f ∈ s.fulfilled, (s.sent f.promise.client).length ≤ 2^64 → s.Answered f.promise f.response := by
  have hid : Function.Injective fun c => (twoIds.writerId c).data := by
    intro c d h
    cases c <;> cases d <;> first | rfl | exact absurd h (by decide)
  obtain ⟨s,hs,hp⟩ := System.reachable_of_exec (system Bool Nat Nat twoIds)
    [.initService,.initClient true,.initClient false,.send true 10,.send false 20,.deliverRequest 1,
      .deliverRequest 0,.deliverRequest 0,.take,.handle 21,.take,.handle 11,.take,.handle 12,
      .deliverResponse true 0,.deliverResponse true 2,.deliverResponse true 1,.deliverResponse false 0]
    (fun s => s.fulfilled = [⟨⟨true,0⟩,12⟩,⟨⟨false,0⟩,21⟩]) rfl (by decide)
  exact ⟨s,of_decide_eq_true hp,responses_match hid hs⟩

def oneId : Ids Unit := ⟨fun _ => 0,fun _ => .zero,.zero⟩

theorem exists_sends {s : State Unit Unit Unit} (h : (system Unit Unit Unit oneId).Reachable s)
    (hinit : (s.client ()).isInit = true) (n : Nat) :
    ∃ t, (system Unit Unit Unit oneId).Reachable t ∧ (t.client ()).isInit = true ∧
      (t.sent ()).length = (s.sent ()).length+n ∧ t.responses = s.responses ∧
      t.produced = s.produced ∧ t.fulfilled = s.fulfilled := by
  induction n with
  | zero => exact ⟨s,h,hinit,rfl,rfl,rfl,rfl⟩
  | succ _ ih =>
    obtain ⟨t,ht,hi,hlen,hr,hp,hf⟩ := ih
    refine ⟨t.asyncSendRequest oneId () (),ht.next (e := .send () ()) ?_,?_,?_,hr,hp,hf⟩
    · exact congrArg some (if_pos hi)
    · exact (congrArg Client.isInit (client_setClient_self ..)).trans hi
    · rw [sent_asyncSendRequest_self,length_append,hlen]
      rfl

/-- After `2 ^ 64` requests the first sequence number comes again, and a late response to the first request
fulfills the promise of the new one. -/
theorem late_response_matches_wrapped : ∃ s : State Unit Unit Unit, (system Unit Unit Unit oneId).Reachable s ∧
      ∃ f ∈ s.fulfilled, ¬ s.Answered f.promise f.response := by
  obtain ⟨s,hs,hp⟩ := System.reachable_of_exec (system Unit Unit Unit oneId)
    [.initService,.initClient (),.send () (),.deliverRequest 0,.take,.handle ()]
    (fun s => (s.client ()).isInit = true ∧ (s.sent ()).length = 1 ∧
      s.responses.map (fun p => (p.sample.toInfo oneId.hash).seqNum) = [1] ∧
      s.produced = [⟨⟨(),0⟩,(),()⟩] ∧ s.fulfilled = []) rfl (by decide)
  obtain ⟨hinit,hlen,hresp,hprod,_⟩ := of_decide_eq_true hp
  obtain ⟨t,ht,hi,hlen',hr,hp',-⟩ := exists_sends hs hinit (2^64 - 1)
  have hid : Function.Injective fun c => (oneId.writerId c).data := fun _ _ _ => rfl
  have hlast : (t.sent ()).length = 2^64 := by
    rw [hlen',hlen]
    omega
  obtain ⟨p,hpm,hseq⟩ : ∃ p ∈ t.responses, (p.sample.toInfo oneId.hash).seqNum = 1 := by
    have hmem : (1 : UInt64) ∈ s.responses.map fun p => (p.sample.toInfo oneId.hash).seqNum := hresp ▸ mem_cons_self
    obtain ⟨p,hpm,hseq⟩ := mem_map.mp hmem
    exact ⟨p,hr ▸ hpm,hseq⟩
  have hspare := ((reachable_inv hid ht).carried.responses p hpm).1.1
  -- the sequence number of the next request is 1 again
  have hsent : (system Unit Unit Unit oneId).Reachable (t.asyncSendRequest oneId () ()) :=
    ht.next (e := .send () ()) (congrArg some (if_pos hi))
  have hpending : ((t.asyncSendRequest oneId () ()).client ()).pendingRequests.lookup
      (p.sample.toInfo oneId.hash).seqNum = some (2^64) := by
    have hwrap : (t.client ()).sequenceNumber+1 = 1 := by
      rw [(reachable_inv hid ht).promised.sequence,hlast]
      rfl
    have hclient : ((t.asyncSendRequest oneId () ()).client ()).pendingRequests =
        (t.client ()).pendingRequests.insert ((t.client ()).sequenceNumber+1) (t.sent ()).length :=
      congrArg Client.pendingRequests (client_setClient_self ..)
    rw [hclient,hwrap,hseq,hlast,AList.lookup_insert]
  obtain ⟨i,hpi⟩ := mem_iff_getElem?.mp hpm
  refine ⟨(t.asyncSendRequest oneId () ()).handleResponse oneId () p,
    hsent.next (e := .deliverResponse () i) ?_,⟨⟨(),2^64⟩,p.payload⟩,?_,?_⟩
  · have hready : ((t.asyncSendRequest oneId () ()).client ()).isInit = true :=
      (congrArg Client.isInit (client_setClient_self ..)).trans hi
    refine (if_pos hready).trans ?_
    exact congrArg (Option.map _) hpi
  · rw [handleResponse_pending hspare hpending]
    exact mem_append_right _ mem_cons_self
  · rw [handleResponse_pending hspare hpending]
    rintro ⟨_,-,hmem⟩
    change _ ∈ t.produced at hmem
    rw [hp',hprod] at hmem
    have hzero : 2^64 = 0 := congrArg (fun entry => entry.origin.number) (mem_singleton.mp hmem)
    exact absurd hzero (by decide)

end Apollo.Cyber.Service
