import Mathlib.Data.List.AList
import Apollo.Foundation.Transition

/-! Roles of the topology with their attributes, the two kinds of tables that hold them, and what the three managers
share. An attribute that a message does not carry reads as its default and matches everything. The managers of the
nodes and of the services keep one role for each name, under its hash: that of the join that holds the name. -/
namespace Apollo.Cyber.ServiceDiscovery
open Foundation Option

structure RoleAttributes where
  hostName : Option String := none
  processId : Option Int32 := none
  nodeName : Option String := none
  nodeId : Option UInt64 := none
  channelName : Option String := none
  channelId : Option UInt64 := none
  id : Option UInt64 := none
  serviceName : Option String := none
  serviceId : Option UInt64 := none
  deriving DecidableEq

/-- A process as `GlobalData` names it. -/
structure Process where
  hostName : String
  processId : Int32
  deriving DecidableEq

namespace RoleAttributes

def getHostName (attr : RoleAttributes) : String := attr.hostName.getD ""
def getProcessId (attr : RoleAttributes) : Int32 := attr.processId.getD 0
def getNodeName (attr : RoleAttributes) : String := attr.nodeName.getD ""
def getNodeId (attr : RoleAttributes) : UInt64 := attr.nodeId.getD 0
def getChannelName (attr : RoleAttributes) : String := attr.channelName.getD ""
def getChannelId (attr : RoleAttributes) : UInt64 := attr.channelId.getD 0
def getId (attr : RoleAttributes) : UInt64 := attr.id.getD 0
def getServiceId (attr : RoleAttributes) : UInt64 := attr.serviceId.getD 0

def process (attr : RoleAttributes) : Process := ⟨attr.getHostName,attr.getProcessId⟩

/-- The attributes that `OnTopoModuleLeave` searches for. -/
def ofProcess (p : Process) : RoleAttributes :=
  { hostName := some p.hostName, processId := some p.processId }

end RoleAttributes

inductive OperateType
  | join
  | leave
  deriving DecidableEq

inductive RoleType
  | node
  | writer
  | reader
  | server
  | client
  | participant
  deriving DecidableEq

structure ChangeMsg where
  timestamp : UInt64
  operateType : OperateType
  roleType : RoleType
  roleAttr : RoleAttributes
  deriving DecidableEq

/-- The class of a role: `RoleBase`, `RoleWriter` (also of readers), `RoleServer` (also of
clients). -/
inductive RoleClass
  | base
  | writer
  | server
  deriving DecidableEq

structure Role where
  cls : RoleClass
  attributes : RoleAttributes
  timestampNs : UInt64 := 0
  deriving DecidableEq

namespace Role

def agrees {α : Type} [DecidableEq α] (target : Option α) (own : α) : Bool :=
  match target with
  | none => true
  | some value => value == own

def matchBase (r : Role) (target : RoleAttributes) : Bool :=
  agrees target.nodeId r.attributes.getNodeId && agrees target.processId r.attributes.getProcessId &&
    agrees target.hostName r.attributes.getHostName

def isMatch (r : Role) (target : RoleAttributes) : Bool :=
  match r.cls with
  | .base => r.matchBase target
  | .writer => agrees target.channelId r.attributes.getChannelId &&
      agrees target.id r.attributes.getId && r.matchBase target
  | .server => agrees target.serviceId r.attributes.getServiceId && r.matchBase target

def isEarlierThan (r other : Role) : Bool := r.timestampNs < other.timestampNs

theorem agrees_iff {α : Type} [DecidableEq α] {target : Option α} {own : α} :
    agrees target own ↔ ∀ value ∈ target, value = own := by
  cases target <;> simp [agrees]

/-- Any role matches the attributes of exactly its own process. -/
theorem isMatch_ofProcess {r : Role} {p : Process} : r.isMatch (.ofProcess p) ↔ r.attributes.process = p := by
  have hbase : r.matchBase (.ofProcess p) ↔ r.attributes.process = p := by
    obtain ⟨_,_⟩ := p
    simp only [matchBase,agrees,RoleAttributes.ofProcess,RoleAttributes.process,Bool.true_and,
      Bool.and_eq_true,beq_iff_eq,Process.mk.injEq]
    exact ⟨fun h => ⟨h.2.symm,h.1.symm⟩,fun h => ⟨h.2.symm,h.1.symm⟩⟩
  rw [← hbase]
  cases hc : r.cls <;> simp [isMatch,hc,agrees,RoleAttributes.ofProcess]

end Role

structure MultiValueWarehouse where
  roles : List (UInt64 × Role) := []

namespace MultiValueWarehouse

def add (w : MultiValueWarehouse) (key : UInt64) (role : Role) (ignoreIfExist : Bool) : Bool × MultiValueWarehouse :=
  if !ignoreIfExist && w.roles.any (·.1 == key) then (false, w)
  else (true, ⟨(key, role)::w.roles⟩)

def remove (w : MultiValueWarehouse) (key : UInt64) (role : Role) : MultiValueWarehouse :=
  ⟨w.roles.filter fun item => !(item.1 == key && item.2.isMatch role.attributes)⟩

def search (w : MultiValueWarehouse) (target : RoleAttributes) : List Role :=
  (w.roles.map Prod.snd).filter (·.isMatch target)

end MultiValueWarehouse

structure SingleValueWarehouse where
  roles : AList fun _ : UInt64 => Role := ∅

namespace SingleValueWarehouse

def add (w : SingleValueWarehouse) (key : UInt64) (role : Role) (ignoreIfExist : Bool) :
    Bool × SingleValueWarehouse :=
  if !ignoreIfExist && key ∈ w.roles then (false, w) else (true, ⟨w.roles.insert key role⟩)

def remove (w : SingleValueWarehouse) (key : UInt64) : SingleValueWarehouse := ⟨w.roles.erase key⟩

def search (w : SingleValueWarehouse) (key : UInt64) : Option Role := w.roles.lookup key

def searchAll (w : SingleValueWarehouse) (target : RoleAttributes) : List Role :=
  (w.roles.entries.map fun item => item.2).filter (·.isMatch target)

end SingleValueWarehouse

/-- The virtual functions of a manager with the tables `τ`. -/
structure Manager.Interface (τ : Type) where
  allowedRole : RoleType → Bool
  check : RoleAttributes → Bool
  dispose : τ → ChangeMsg → τ
  onTopoModuleLeave : τ → Process → τ

structure Manager (τ : Type) where
  isShutdown : Bool
  isDiscoveryStarted : Bool
  tables : τ

namespace Manager
variable {τ : Type}

/-- `created` tells whether publisher and subscriber could be created. -/
inductive Event
  | join (attr : RoleAttributes) (role : RoleType) (now : UInt64)
  | leave (attr : RoleAttributes) (role : RoleType) (now : UInt64)
  | onRemoteChange (msg : ChangeMsg)
  | onTopoModuleLeave (process : Process)
  | startDiscovery (created : Bool)
  | stopDiscovery
  | shutdown

def convert (self : Process) (attr : RoleAttributes) (role : RoleType) (opt : OperateType)
    (now : UInt64) : ChangeMsg :=
  { timestamp := now
    operateType := opt
    roleType := role
    roleAttr := { attr with
      hostName := some (attr.hostName.getD self.hostName)
      processId := some (attr.processId.getD self.processId) } }

def isFromSameProcess (self : Process) (msg : ChangeMsg) : Bool := msg.roleAttr.process == self

def disposed (v : Interface τ) (self : Process) (m : Manager τ) : Event → Option ChangeMsg
  | .join attr role now =>
    if !m.isShutdown && v.allowedRole role && v.check attr then
      some (convert self attr role .join now)
    else none
  | .leave attr role now =>
    if !m.isShutdown && v.allowedRole role && v.check attr then
      some (convert self attr role .leave now)
    else none
  | .onRemoteChange msg =>
    if !m.isShutdown && !isFromSameProcess self msg && v.check msg.roleAttr then some msg else none
  | _ => none

def dispose (v : Interface τ) (m : Manager τ) : Option ChangeMsg → Manager τ
  | some msg => { m with tables := v.dispose m.tables msg }
  | none => m

def step (v : Interface τ) (self : Process) (m : Manager τ) : Event → Option (Manager τ)
  | .onTopoModuleLeave p =>
    some (if m.isDiscoveryStarted then { m with tables := v.onTopoModuleLeave m.tables p } else m)
  | .startDiscovery created => some { m with isDiscoveryStarted := m.isDiscoveryStarted || created }
  | .stopDiscovery => some { m with isDiscoveryStarted := false }
  | .shutdown =>
    some (if m.isShutdown then m else { m with isShutdown := true, isDiscoveryStarted := false })
  | e => some (m.dispose v (m.disposed v self e))

def system (v : Interface τ) (self : Process) (tables : τ) : System (Manager τ) Event where
  initial m := m = ⟨false,false,tables⟩
  step := step v self

variable {v : Interface τ} {self : Process} {m n : Manager τ} {e : Event}

theorem step_tables (h : m.step v self e = some n) :
    (∃ msg, m.disposed v self e = some msg ∧ n.tables = v.dispose m.tables msg) ∨
    (∃ p, e = .onTopoModuleLeave p ∧ m.isDiscoveryStarted ∧ n.tables = v.onTopoModuleLeave m.tables p) ∨
    m.disposed v self e = none ∧ (∀ p, e = .onTopoModuleLeave p → ¬ m.isDiscoveryStarted) ∧ n.tables = m.tables := by
  have hd {o : Option ChangeMsg} (hn : m.dispose v o = n) :
      (∃ msg, o = some msg ∧ n.tables = v.dispose m.tables msg) ∨ o = none ∧ n.tables = m.tables := by
    subst hn
    cases o with
    | none => exact .inr ⟨rfl,rfl⟩
    | some msg => exact .inl ⟨msg,rfl,rfl⟩
  cases e with
  | join | leave | onRemoteChange =>
    exact (hd (some_inj.mp h)).imp id fun ⟨ho,ht⟩ => .inr ⟨ho,nofun,ht⟩
  | onTopoModuleLeave p =>
    rw [step,some_inj] at h
    split at h
    case isTrue hs => exact .inr (.inl ⟨p,rfl,hs,h ▸ rfl⟩)
    case isFalse hs => exact .inr (.inr ⟨rfl,fun _ _ => hs,h ▸ rfl⟩)
  | startDiscovery | stopDiscovery =>
    cases h
    exact .inr (.inr ⟨rfl,nofun,rfl⟩)
  | shutdown =>
    rw [step,some_inj] at h
    refine .inr (.inr ⟨rfl,nofun,?_⟩)
    subst h
    split <;> rfl

/-- What the tables keep under every disposed message that meets `ok` and under the exit of a
process holds in every run of such messages. -/
theorem tables_invariant {tables : τ} {P : τ → Prop} (ok : τ → ChangeMsg → Prop)
    (h : (system v self tables).ReachableWhile (fun m e => ∀ msg ∈ m.disposed v self e, ok m.tables msg) m)
    (base : P tables) (keep : ∀ t msg, P t → ok t msg → P (v.dispose t msg))
    (exit : ∀ t p, P t → P (v.onTopoModuleLeave t p)) : P m.tables := by
  apply h.invariant (P := fun m => P m.tables)
  · rintro _ rfl
    exact base
  · intro m e n hm ho (he : m.step v self e = some n)
    rcases step_tables he with ⟨msg,hd,ht⟩ | ⟨p,_,_,ht⟩ | ⟨_,_,ht⟩
    · rw [ht]
      exact keep _ _ hm (ho msg hd)
    · rw [ht]
      exact exit _ _ hm
    · rwa [ht]

end Manager

open System
/-- `terminated` records that `AsyncShutdown` has been called. -/
structure NodeManager where
  nodes : SingleValueWarehouse := {}
  terminated : Bool := false

namespace NodeManager

def check (attr : RoleAttributes) : Bool := attr.nodeName.isSome && attr.nodeId.isSome

def disposeJoin (self : Process) (m : NodeManager) (msg : ChangeMsg) : NodeManager :=
  let node : Role := ⟨.base,msg.roleAttr,msg.timestamp⟩
  let key := node.attributes.getNodeId
  match m.nodes.add key node false with
  | (true, nodes) => { m with nodes }
  | (false, _) =>
    match m.nodes.search key with
    | none => { m with nodes := (m.nodes.add key node true).2 }
    | some existing =>
      -- The earlier one of the two stays.
      let earlier := node.isEarlierThan existing
      let newer := if earlier then existing else node
      { nodes := if earlier then (m.nodes.add key node true).2 else m.nodes
        terminated := m.terminated || newer.attributes.process == self }

def disposeLeave (m : NodeManager) (msg : ChangeMsg) : NodeManager :=
  { m with nodes := m.nodes.remove msg.roleAttr.getNodeId }

def dispose (self : Process) (m : NodeManager) (msg : ChangeMsg) : NodeManager :=
  match msg.operateType with
  | .join => m.disposeJoin self msg
  | .leave => m.disposeLeave msg

def onTopoModuleLeave (m : NodeManager) (p : Process) : NodeManager :=
  let nodesToRemove := m.nodes.searchAll (.ofProcess p)
  { m with nodes := nodesToRemove.foldl (fun w node => w.remove node.attributes.getNodeId) m.nodes }

def interface (self : Process) : Manager.Interface NodeManager where
  allowedRole role := role = .node
  check := check
  dispose := dispose self
  onTopoModuleLeave := onTopoModuleLeave

def system (self : Process) : System (Manager NodeManager) Manager.Event := Manager.system (interface self) self {}

end NodeManager

structure ServiceManager where
  servers : SingleValueWarehouse := {}
  clients : MultiValueWarehouse := {}

namespace ServiceManager

def check (attr : RoleAttributes) : Bool := attr.serviceName.isSome && attr.serviceId.isSome

def disposeJoin (m : ServiceManager) (msg : ChangeMsg) : ServiceManager :=
  let role : Role := ⟨.server,msg.roleAttr,0⟩
  if msg.roleType = .server then
    { m with servers := (m.servers.add role.attributes.getServiceId role true).2 }
  else { m with clients := (m.clients.add role.attributes.getServiceId role true).2 }

def disposeLeave (m : ServiceManager) (msg : ChangeMsg) : ServiceManager :=
  let role : Role := ⟨.server,msg.roleAttr,0⟩
  if msg.roleType = .server then { m with servers := m.servers.remove role.attributes.getServiceId }
  else { m with clients := m.clients.remove role.attributes.getServiceId role }

def dispose (m : ServiceManager) (msg : ChangeMsg) : ServiceManager :=
  match msg.operateType with
  | .join => m.disposeJoin msg
  | .leave => m.disposeLeave msg

def onTopoModuleLeave (m : ServiceManager) (p : Process) : ServiceManager :=
  let serversToRemove := m.servers.searchAll (.ofProcess p)
  let clientsToRemove := m.clients.search (.ofProcess p)
  { servers := serversToRemove.foldl (fun w s => w.remove s.attributes.getServiceId) m.servers
    clients := clientsToRemove.foldl (fun w c => w.remove c.attributes.getServiceId c) m.clients }

def interface : Manager.Interface ServiceManager where
  allowedRole role := role = .server || role = .client
  check := check
  dispose := dispose
  onTopoModuleLeave := onTopoModuleLeave

def system (self : Process) : System (Manager ServiceManager) Manager.Event := Manager.system interface self {}

end ServiceManager

open List Option Function NodeManager SingleValueWarehouse
namespace SingleValueWarehouse
variable {w : SingleValueWarehouse} {k key : UInt64} {role : Role}

theorem search_add : (w.add key role true).2.search k = if k = key then some role else w.search k := by
  by_cases hk : k = key
  · subst hk
    simp [add,search]
  · simp [add,search,hk,AList.lookup_insert_ne hk]

theorem search_remove : (w.remove key).search k = if k = key then none else w.search k := by
  by_cases hk : k = key
  · subst hk
    simp [remove,search]
  · simp [remove,search,hk,AList.lookup_erase_ne hk]

theorem search_foldl_remove {id : Role → UInt64} {rs : List Role} :
    (rs.foldl (fun w r => w.remove (id r)) w).search k =
      if k ∈ rs.map id then none else w.search k := by
  induction rs generalizing w with
  | nil => rfl
  | cons _ rs ih =>
    rw [foldl_cons,ih,search_remove,map_cons]
    by_cases hr : k ∈ rs.map id
    · simp [hr]
    · simp [hr,mem_cons]

theorem mem_searchAll {attr : RoleAttributes} :
    role ∈ w.searchAll attr ↔ (∃ k, w.search k = some role) ∧ role.isMatch attr := by
  rw [searchAll,mem_filter,List.mem_map]
  refine and_congr_left fun _ => ⟨?_,?_⟩
  · rintro ⟨⟨k,role⟩,hi,rfl⟩
    exact ⟨k,AList.mem_lookup_iff.mpr hi⟩
  · rintro ⟨k,hk⟩
    exact ⟨⟨k,role⟩,AList.mem_lookup_iff.mp hk,rfl⟩

end SingleValueWarehouse

/-- How a manager keeps names: in which table, under which id, for which messages, the role of a join, and whether a
join takes a name from the join that holds it. -/
structure Naming (τ : Type) where
  table : τ → SingleValueWarehouse
  id : RoleAttributes → UInt64
  registers : ChangeMsg → Bool
  role : ChangeMsg → Role
  takes : ChangeMsg → ChangeMsg → Bool

/-- The manager touches the table only at the id of a message that registers. A leave removes what stands there, and an
exit what the search of the process finds. -/
structure Naming.Spec {τ : Type} (n : Naming τ) (v : Manager.Interface τ) : Prop where
  attributes : ∀ msg, (n.role msg).attributes = msg.roleAttr
  frame : ∀ t msg k, ¬ (n.registers msg ∧ k = n.id msg.roleAttr) →
    (n.table (v.dispose t msg)).search k = (n.table t).search k
  free : ∀ t msg, n.registers msg → msg.operateType = .join → (n.table t).search (n.id msg.roleAttr) = none →
    (n.table (v.dispose t msg)).search (n.id msg.roleAttr) = some (n.role msg)
  taken : ∀ t msg held, n.registers msg → msg.operateType = .join →
    (n.table t).search (n.id msg.roleAttr) = some (n.role held) →
    (n.table (v.dispose t msg)).search (n.id msg.roleAttr) =
      some (if n.takes msg held then n.role msg else n.role held)
  leave : ∀ t msg, n.registers msg → msg.operateType = .leave →
    (n.table (v.dispose t msg)).search (n.id msg.roleAttr) = none
  exit : ∀ t p, n.table (v.onTopoModuleLeave t p) = ((n.table t).searchAll (.ofProcess p)).foldl
    (fun w r => w.remove (n.id r.attributes)) (n.table t)

/-- If the event disposes of a leave message, the roles of all other processes stay. -/
def Naming.KeepsOthers {τ : Type} (n : Naming τ) (v : Manager.Interface τ) (self : Process)
    (m : Manager τ) (e : Manager.Event) : Prop :=
  ∀ msg, m.disposed v self e = some msg → msg.operateType = .leave → ∀ m' k r,
    m.step v self e = some m' → (n.table m.tables).search k = some r →
    r.attributes.process ≠ msg.roleAttr.process → (n.table m'.tables).search k = some r

/-- A manager with the join that holds each name by the messages handled so far. -/
structure Registry (τ : Type) where
  manager : Manager τ
  holder : UInt64 → Option ChangeMsg

namespace Registry
variable {τ : Type}

/-- The holder of a name after a join of it. -/
def join (n : Naming τ) (msg : ChangeMsg) : Option ChangeMsg → ChangeMsg
  | none => msg
  | some held => if n.takes msg held then msg else held

/-- The holders after an event: a leave and the exit of the holder's process free a name. -/
def nextHolder (n : Naming τ) (v : Manager.Interface τ) (self : Process) (s : Registry τ)
    (e : Manager.Event) : UInt64 → Option ChangeMsg :=
  match s.manager.disposed v self e, e with
  | some msg, _ =>
    if n.registers msg then
      update s.holder (n.id msg.roleAttr)
        (if msg.operateType = .join then some (join n msg (s.holder (n.id msg.roleAttr))) else none)
    else s.holder
  | none, .onTopoModuleLeave p =>
    if s.manager.isDiscoveryStarted then
      fun k => if (s.holder k).any fun held => held.roleAttr.process = p then none else s.holder k
    else s.holder
  | none, _ => s.holder

def system (n : Naming τ) (v : Manager.Interface τ) (self : Process) (tables : τ) :
    System (Registry τ) Manager.Event where
  initial s := (Manager.system v self tables).initial s.manager ∧ ∀ k, s.holder k = none
  step s e := (s.manager.step v self e).map fun manager => ⟨manager,s.nextHolder n v self e⟩

/-- A leave of a name comes while the name is free or from the process of the join that holds it. -/
def LeavesOwn (n : Naming τ) (v : Manager.Interface τ) (self : Process) (s : Registry τ)
    (e : Manager.Event) : Prop :=
  ∀ msg ∈ s.manager.disposed v self e, n.registers msg → msg.operateType = .leave →
    ∀ held ∈ s.holder (n.id msg.roleAttr), held.roleAttr.process = msg.roleAttr.process

instance (n : Naming τ) (v : Manager.Interface τ) (self : Process) (s : Registry τ)
    (e : Manager.Event) : Decidable (s.LeavesOwn n v self e) :=
  inferInstanceAs (Decidable (∀ msg ∈ s.manager.disposed v self e, n.registers msg → _ → ∀ held ∈ _, _))

/-- The table has the roles of the holders, under their ids. -/
def Held (n : Naming τ) (s : Registry τ) : Prop :=
  ∀ k, (n.table s.manager.tables).search k = (s.holder k).map n.role ∧ ∀ held ∈ s.holder k, k = n.id held.roleAttr

variable {n : Naming τ} {v : Manager.Interface τ} {self : Process} {tables : τ} {s t : Registry τ}
  {e : Manager.Event}

theorem held_message (hn : n.Spec v) (hs : s.Held n) {msg : ChangeMsg} (hreg : n.registers msg = true) :
    (n.table (v.dispose s.manager.tables msg)).search (n.id msg.roleAttr) =
      (if msg.operateType = .join then some (join n msg (s.holder (n.id msg.roleAttr))) else none).map n.role ∧
    ∀ held ∈ s.holder (n.id msg.roleAttr), n.id msg.roleAttr = n.id (join n msg (some held)).roleAttr := by
  obtain ⟨hsearch,hid⟩ := hs (n.id msg.roleAttr)
  constructor
  · cases hop : msg.operateType with
    | leave => exact hn.leave _ _ hreg hop
    | join =>
      rw [if_pos rfl,map_some]
      cases hheld : s.holder (n.id msg.roleAttr) with
      | none =>
        rw [hheld] at hsearch
        exact hn.free _ _ hreg hop hsearch
      | some held =>
        rw [hheld] at hsearch
        rw [hn.taken _ _ _ hreg hop hsearch,join,apply_ite n.role]
  · intro held hheld
    rw [join]
    split
    · rfl
    · exact hid held hheld

/-- The roles that match a process are those of the names that it holds. -/
theorem mem_searchAll_iff_held (hn : n.Spec v) (hs : s.Held n) {p : Process} {k : UInt64} :
    k ∈ (searchAll (n.table s.manager.tables) (.ofProcess p)).map (fun r => n.id r.attributes) ↔
      ((s.holder k).any fun held => held.roleAttr.process = p) = true := by
  simp only [List.mem_map,Option.any_eq_true,decide_eq_true_eq]
  constructor
  · rintro ⟨r,hr,rfl⟩
    obtain ⟨⟨k,hk⟩,hmatch⟩ := mem_searchAll.mp hr
    obtain ⟨hsearch,hid⟩ := hs k
    obtain ⟨held,hheld,rfl⟩ := map_eq_some_iff.mp (hsearch.symm.trans hk)
    rw [Role.isMatch_ofProcess,hn.attributes] at hmatch
    rw [hn.attributes,← hid held hheld]
    exact ⟨held,hheld,hmatch⟩
  · rintro ⟨held,hheld,hp⟩
    obtain ⟨hsearch,hid⟩ := hs k
    refine ⟨n.role held,mem_searchAll.mpr ⟨⟨k,hsearch.trans (congrArg _ hheld)⟩,?_⟩,?_⟩
    · rw [Role.isMatch_ofProcess,hn.attributes,hp]
    · rw [hn.attributes,← hid held hheld]

theorem step_held (hn : n.Spec v) (hs : s.Held n) (he : (system n v self tables).step s e = some t) : t.Held n := by
  obtain ⟨m,hm,rfl⟩ := map_eq_some_iff.mp he
  intro k
  rcases Manager.step_tables hm with ⟨msg,hmsg,ht⟩ | ⟨p,rfl,hstarted,ht⟩ | ⟨hnone,hidle,ht⟩
  · simp only [ht,nextHolder,hmsg]
    by_cases hk : n.registers msg ∧ k = n.id msg.roleAttr
    · obtain ⟨hreg,rfl⟩ := hk
      obtain ⟨hsearch,hid⟩ := held_message hn hs hreg
      rw [if_pos hreg,update_self]
      refine ⟨hsearch,fun held hheld => ?_⟩
      obtain ⟨-,hheld⟩ := ite_none_right_eq_some.mp hheld
      rw [← some_inj.mp hheld]
      cases hold : s.holder (n.id msg.roleAttr) with
      | none => rfl
      | some old => exact hid old hold
    · rw [hn.frame _ _ _ hk]
      split
      case isTrue hreg => rw [update_of_ne fun h => hk ⟨hreg,h⟩]; exact hs k
      case isFalse => exact hs k
  · obtain ⟨hsearch,hid⟩ := hs k
    simp only [ht,hn.exit,search_foldl_remove,nextHolder,Manager.disposed,hstarted,if_true]
    refine ⟨?_,fun held hheld => hid held (ite_none_left_eq_some.mp hheld).2⟩
    rw [if_congr (mem_searchAll_iff_held hn hs) rfl rfl,hsearch,apply_ite (Option.map n.role)]
    rfl
  · simp only [ht]
    cases e with
    | onTopoModuleLeave p => simpa [nextHolder,hnone,hidle p rfl] using hs k
    | _ => simpa only [nextHolder,hnone] using hs k

theorem reachable_held (hn : n.Spec v) (hempty : ∀ k, (n.table tables).search k = none)
    (h : (system n v self tables).Reachable s) : s.Held n := by
  apply h.invariant
  · rintro ⟨_,_⟩ ⟨rfl,hfree⟩ k
    rw [hfree k]
    exact ⟨hempty k,fun _ hheld => by cases hheld⟩
  · exact fun _ _ _ hs he => step_held hn hs he

theorem keepsOthers_iff (hn : n.Spec v) (hs : s.Held n) :
    n.KeepsOthers v self s.manager e ↔ s.LeavesOwn n v self e := by
  have htables {msg : ChangeMsg} {m : Manager τ} (hmsg : s.manager.disposed v self e = some msg)
      (hm : s.manager.step v self e = some m) : m.tables = v.dispose s.manager.tables msg := by
    rcases Manager.step_tables hm with ⟨_,hmsg',ht⟩ | ⟨p,rfl,_⟩ | ⟨hnone,_⟩
    · cases hmsg.symm.trans hmsg'
      exact ht
    · cases hmsg
    · cases hmsg.symm.trans hnone
  constructor
  · intro hkeeps msg hmsg hreg hop held hheld
    by_contra hp
    obtain ⟨m,hm⟩ : ∃ m, s.manager.step v self e = some m := by cases e <;> exact ⟨_,rfl⟩
    have hrole := (hs _).1.trans (congrArg _ hheld)
    have hkept := hkeeps msg hmsg hop m _ _ hm hrole ((congrArg _ (hn.attributes held)).trans_ne hp)
    rw [htables hmsg hm,hn.leave _ _ hreg hop] at hkept
    cases hkept
  · intro hown msg hmsg hop m k r hm hr hp
    rw [htables hmsg hm,hn.frame _ _ _ ?_,hr]
    rintro ⟨hreg,rfl⟩
    obtain ⟨held,hheld,rfl⟩ := map_eq_some_iff.mp ((hs _).1.symm.trans hr)
    rw [hn.attributes] at hp
    exact hp (hown msg hmsg hreg hop held hheld)

end Registry

namespace NodeManager

/-- Every message of the node manager is about the name of a node. -/
def naming : Naming NodeManager where
  table m := m.nodes
  id attr := attr.getNodeId
  registers _ := true
  role msg := ⟨.base,msg.roleAttr,msg.timestamp⟩
  takes msg held := msg.timestamp < held.timestamp

theorem disposeJoin_free {self : Process} {m : NodeManager} {msg : ChangeMsg}
    (h : m.nodes.search msg.roleAttr.getNodeId = none) : (m.disposeJoin self msg).nodes =
      (m.nodes.add msg.roleAttr.getNodeId ⟨.base,msg.roleAttr,msg.timestamp⟩ true).2 := by
  have hmem : msg.roleAttr.getNodeId ∉ m.nodes.roles := AList.lookup_eq_none.mp h
  simp [disposeJoin,add,hmem]

theorem disposeJoin_taken {self : Process} {m : NodeManager} {msg : ChangeMsg} {existing : Role}
    (h : m.nodes.search msg.roleAttr.getNodeId = some existing) : (m.disposeJoin self msg).nodes =
      if msg.timestamp < existing.timestampNs then
        (m.nodes.add msg.roleAttr.getNodeId ⟨.base,msg.roleAttr,msg.timestamp⟩ true).2
      else m.nodes := by
  have hmem : msg.roleAttr.getNodeId ∈ m.nodes.roles := AList.lookup_isSome.mp (congrArg Option.isSome h)
  simp [disposeJoin,add,hmem,h,Role.isEarlierThan]

theorem naming_spec (self : Process) : naming.Spec (interface self) where
  attributes _ := rfl
  frame m msg k hk := by
    have hk : k ≠ msg.roleAttr.getNodeId := fun h => hk ⟨rfl,h⟩
    cases hop : msg.operateType with
    | leave => simp [naming,interface,dispose,hop,disposeLeave,search_remove,hk]
    | join =>
      simp only [naming,interface,dispose,hop]
      cases h : m.nodes.search msg.roleAttr.getNodeId with
      | none => rw [disposeJoin_free h,search_add,if_neg hk]
      | some existing =>
        rw [disposeJoin_taken h]
        split
        · rw [search_add,if_neg hk]
        · rfl
  free m msg _ hop h := by
    simp only [naming,interface,dispose,hop] at h ⊢
    rw [disposeJoin_free h,search_add,if_pos rfl]
  taken m msg held _ hop h := by
    simp only [naming,interface,dispose,hop,decide_eq_true_eq] at h ⊢
    rw [disposeJoin_taken h]
    split
    · rw [search_add,if_pos rfl]
    · exact h
  leave m msg _ hop := by
    simp [naming,interface,dispose,hop,disposeLeave,search_remove]
  exit m p := rfl

end NodeManager

namespace ServiceManager

/-- The messages about servers are about the name of a service. -/
def naming : Naming ServiceManager where
  table m := m.servers
  id attr := attr.getServiceId
  registers msg := msg.roleType = .server
  role msg := ⟨.server,msg.roleAttr,0⟩
  takes _ _ := true

theorem naming_spec : naming.Spec interface where
  attributes _ := rfl
  frame m msg k hk := by
    by_cases hs : msg.roleType = .server
    · have hk : k ≠ msg.roleAttr.getServiceId := fun h => hk ⟨decide_eq_true hs,h⟩
      cases hop : msg.operateType <;>
        simp [naming,interface,dispose,hop,hs,disposeJoin,disposeLeave, search_add,search_remove,hk]
    · cases hop : msg.operateType <;>
        simp [naming,interface,dispose,hop,hs,disposeJoin,disposeLeave]
  free m msg hreg hop _ := by
    have hs := of_decide_eq_true hreg
    simp [naming,interface,dispose,hop,hs,disposeJoin,search_add]
  taken m msg held hreg hop _ := by
    have hs := of_decide_eq_true hreg
    simp [naming,interface,dispose,hop,hs,disposeJoin,search_add]
  leave m msg hreg hop := by
    have hs := of_decide_eq_true hreg
    simp [naming,interface,dispose,hop,hs,disposeLeave,search_remove]
  exit m p := rfl

end ServiceManager

/-- In every run a leave message keeps the nodes and the servers of the other processes exactly if the name is free or
the message is from the process of the join that holds it. -/
theorem leave_keeps_other_owners_iff (self : Process) (e : Manager.Event) :
    (∀ s, (Registry.system naming (interface self) self {}).Reachable s →
      (naming.KeepsOthers (interface self) self s.manager e ↔ s.LeavesOwn naming (interface self) self e)) ∧
    ∀ s, (Registry.system ServiceManager.naming ServiceManager.interface self {}).Reachable s →
      (ServiceManager.naming.KeepsOthers ServiceManager.interface self s.manager e ↔
        s.LeavesOwn ServiceManager.naming ServiceManager.interface self e) := by
  constructor
  · intro _ hs
    exact Registry.keepsOthers_iff (naming_spec self) (Registry.reachable_held (naming_spec self) (fun _ => rfl) hs)
  · intro _ hs
    exact Registry.keepsOthers_iff ServiceManager.naming_spec
      (Registry.reachable_held ServiceManager.naming_spec (fun _ => rfl) hs)

/-- A second process is rejected at the name of the first one, joins another one and leaves that. The node of the first
one stays. -/
theorem leave_keeps_other_owners_iff_node : ∃ m n : Manager NodeManager, ∃ r,
    m.tables.nodes.search 1 = some r ∧ r.attributes.process = ⟨"host",1⟩ ∧
    m.step (interface ⟨"host",1⟩) ⟨"host",1⟩ (.onRemoteChange ⟨3,.leave,.node,
      { hostName := some "host", processId := some 2, nodeName := some "b", nodeId := some 2 }⟩) = some n ∧
    n.tables.nodes.search 1 = some r := by
  let attr (name : String) (id : UInt64) (pid : Int32) : RoleAttributes :=
    { hostName := some "host", processId := some pid, nodeName := some name, nodeId := some id }
  let leave : Manager.Event := .onRemoteChange ⟨3,.leave,.node,attr "b" 2 2⟩
  let p (s : Registry NodeManager) : Bool :=
    s.LeavesOwn naming (interface ⟨"host",1⟩) ⟨"host",1⟩ leave ∧
    s.manager.tables.nodes.search 1 = some ⟨.base,attr "a" 1 1,0⟩ ∧ s.manager.isShutdown = false
  have hinit : (Registry.system naming (interface ⟨"host",1⟩) ⟨"host",1⟩
      {}).initial ⟨⟨false,false,{}⟩,fun _ => none⟩ := ⟨rfl,fun _ => rfl⟩
  obtain ⟨s,hs,hp⟩ := reachable_of_exec (Registry.system naming (interface ⟨"host",1⟩) ⟨"host",1⟩ {})
    [.join (attr "a" 1 1) .node 0,.onRemoteChange ⟨1,.join,.node,attr "a" 1 2⟩,
      .onRemoteChange ⟨2,.join,.node,attr "b" 2 2⟩] p hinit (by decide)
  obtain ⟨hown,hr,hflag⟩ := of_decide_eq_true hp
  have hkeeps := ((leave_keeps_other_owners_iff ⟨"host",1⟩ leave).1 s hs).mpr hown
  have hmsg : s.manager.disposed (interface ⟨"host",1⟩) ⟨"host",1⟩ leave = some ⟨3,.leave,.node,attr "b" 2 2⟩ := by
    simp only [Manager.disposed,leave,hflag]
    decide
  exact ⟨s.manager,_,_,hr,rfl,rfl,hkeeps _ hmsg rfl _ _ _ rfl hr (by decide)⟩

/-- A second process joins the taken name, is rejected as the later one, and its leave removes the node of the first
one. -/
theorem leave_removes_other_owner : (∃ m e, (system ⟨"host",1⟩).Reachable m ∧
      ¬ naming.KeepsOthers (interface ⟨"host",1⟩) ⟨"host",1⟩ m e) ∧
    ∃ m e, (ServiceManager.system ⟨"host",1⟩).Reachable m ∧
      ¬ ServiceManager.naming.KeepsOthers ServiceManager.interface ⟨"host",1⟩ m e := by
  constructor
  · let attr (pid : Int32) : RoleAttributes :=
      { hostName := some "host", processId := some pid, nodeName := some "a", nodeId := some 1 }
    let leave : Manager.Event := .onRemoteChange ⟨2,.leave,.node,attr 2⟩
    let p (m : Manager NodeManager) : Bool :=
      m.disposed (interface ⟨"host",1⟩) ⟨"host",1⟩ leave = some ⟨2,.leave,.node,attr 2⟩ ∧
      m.tables.nodes.search 1 = some ⟨.base,attr 1,0⟩ ∧
      (m.step (interface ⟨"host",1⟩) ⟨"host",1⟩ leave).any
        fun n => n.tables.nodes.search 1 = none
    obtain ⟨m,hm,hp⟩ := reachable_of_exec (system ⟨"host",1⟩)
      [.join (attr 1) .node 0,.onRemoteChange ⟨1,.join,.node,attr 2⟩] p rfl (by decide)
    obtain ⟨hmsg,hr,hstep⟩ := of_decide_eq_true hp
    obtain ⟨n,hn,hnone⟩ := (any_eq_true _ _).mp hstep
    refine ⟨m,leave,hm,fun hk => ?_⟩
    have hsome := hk _ hmsg rfl _ _ _ hn hr (by decide)
    cases hsome.symm.trans (of_decide_eq_true hnone)
  · let attr (pid : Int32) : RoleAttributes :=
      { hostName := some "host", processId := some pid, serviceName := some "a", serviceId := some 1 }
    let leave : Manager.Event := .leave (attr 1) .server 2
    let p (m : Manager ServiceManager) : Bool :=
      m.disposed ServiceManager.interface ⟨"host",1⟩ leave = some ⟨2,.leave,.server,attr 1⟩ ∧
      m.tables.servers.search 1 = some ⟨.server,attr 2,0⟩ ∧
      (m.step ServiceManager.interface ⟨"host",1⟩ leave).any fun n => n.tables.servers.search 1 = none
    obtain ⟨m,hm,hp⟩ := reachable_of_exec (ServiceManager.system ⟨"host",1⟩)
      [.join (attr 1) .server 0,.onRemoteChange ⟨1,.join,.server,attr 2⟩] p rfl (by decide)
    obtain ⟨hmsg,hr,hstep⟩ := of_decide_eq_true hp
    obtain ⟨n,hn,hnone⟩ := (any_eq_true _ _).mp hstep
    refine ⟨m,leave,hm,fun hk => ?_⟩
    have hsome := hk _ hmsg rfl _ _ _ hn hr (by decide)
    cases hsome.symm.trans (of_decide_eq_true hnone)

end Apollo.Cyber.ServiceDiscovery
