import Apollo.Cyber.ServiceDiscovery.Graph
import Apollo.Cyber.ServiceDiscovery.Manager

/-! The channel manager: tables of the writers and of the readers, each indexed by node and by channel, and the graph
of the nodes. A leave removes the node from a channel of the graph, but the matching roles from the tables. -/
namespace Apollo.Cyber.ServiceDiscovery
open Foundation Prod

/-- The tables of one type of role: `node_writers_` and `channel_writers_`, or `node_readers_` and
`channel_readers_`. -/
structure RoleTables where
  node : MultiValueWarehouse := {}
  channel : MultiValueWarehouse := {}

namespace RoleTables

def add (t : RoleTables) (role : Role) : RoleTables :=
  { node := (t.node.add role.attributes.getNodeId role true).2
    channel := (t.channel.add role.attributes.getChannelId role true).2 }

def remove (t : RoleTables) (role : Role) : RoleTables :=
  { node := t.node.remove role.attributes.getNodeId role
    channel := t.channel.remove role.attributes.getChannelId role }

end RoleTables

structure ChannelManager where
  writers : RoleTables := {}
  readers : RoleTables := {}
  nodeGraph : Graph := .empty

namespace ChannelManager

def check (attr : RoleAttributes) : Bool := attr.channelName.isSome && attr.channelId.isSome && attr.id.isSome

/-- The edge of a message: out of the node of a writer, into the node of a reader. -/
def edge (msg : ChangeMsg) : Edge :=
  let v : Vertice := ⟨msg.roleAttr.getNodeName⟩
  if msg.roleType = .writer then ⟨v,⟨""⟩,msg.roleAttr.getChannelName⟩
  else ⟨⟨""⟩,v,msg.roleAttr.getChannelName⟩

def disposeJoin (m : ChannelManager) (msg : ChangeMsg) : ChannelManager :=
  let role : Role := ⟨.writer,msg.roleAttr,msg.timestamp⟩
  if msg.roleType = .writer then
    { m with writers := m.writers.add role, nodeGraph := m.nodeGraph.insert (edge msg) }
  else { m with readers := m.readers.add role, nodeGraph := m.nodeGraph.insert (edge msg) }

def disposeLeave (m : ChannelManager) (msg : ChangeMsg) : ChannelManager :=
  let role : Role := ⟨.writer,msg.roleAttr,0⟩
  if msg.roleType = .writer then
    { m with writers := m.writers.remove role, nodeGraph := m.nodeGraph.delete (edge msg) }
  else { m with readers := m.readers.remove role, nodeGraph := m.nodeGraph.delete (edge msg) }

def dispose (m : ChannelManager) (msg : ChangeMsg) : ChannelManager :=
  match msg.operateType with
  | .join => m.disposeJoin msg
  | .leave => m.disposeLeave msg

/-- The leave messages of `OnTopoModuleLeave`. Their time is not read. -/
def leaveMsg (self : Process) (type : RoleType) (role : Role) : ChangeMsg :=
  Manager.convert self role.attributes type .leave 0

def onTopoModuleLeave (self : Process) (m : ChannelManager) (p : Process) : ChannelManager :=
  let writersToRemove := m.writers.channel.search (.ofProcess p)
  let readersToRemove := m.readers.channel.search (.ofProcess p)
  let m := writersToRemove.foldl (fun m w => m.disposeLeave (leaveMsg self .writer w)) m
  readersToRemove.foldl (fun m r => m.disposeLeave (leaveMsg self .reader r)) m

def interface (self : Process) : Manager.Interface ChannelManager where
  allowedRole role := role = .writer || role = .reader
  check := check
  dispose := dispose
  onTopoModuleLeave := onTopoModuleLeave self

def system (self : Process) : System (Manager ChannelManager) Manager.Event := Manager.system (interface self) self {}

end ChannelManager

open List RoleAttributes
structure RoleAttributes.Carries (attr : RoleAttributes) : Prop where
  nodeId : attr.nodeId.isSome
  channelId : attr.channelId.isSome
  id : attr.id.isSome
  hostName : attr.hostName.isSome
  processId : attr.processId.isSome

instance (attr : RoleAttributes) : Decidable attr.Carries :=
  decidable_of_iff (attr.nodeId.isSome ∧ attr.channelId.isSome ∧ attr.id.isSome ∧
    attr.hostName.isSome ∧ attr.processId.isSome)
    ⟨fun ⟨hn,hc,hi,hh,hp⟩ => ⟨hn,hc,hi,hh,hp⟩,fun ⟨hn,hc,hi,hh,hp⟩ => ⟨hn,hc,hi,hh,hp⟩⟩

namespace Role
variable {r : Role} {target : RoleAttributes}

theorem eq_of_isMatch (hw : r.cls = .writer) (ht : target.Carries) (h : r.isMatch target) :
    target.getNodeId = r.attributes.getNodeId ∧ target.getChannelId = r.attributes.getChannelId ∧
    target.process = r.attributes.process := by
  obtain ⟨_,hn⟩ := Option.isSome_iff_exists.mp ht.nodeId
  obtain ⟨_,hc⟩ := Option.isSome_iff_exists.mp ht.channelId
  obtain ⟨_,hh⟩ := Option.isSome_iff_exists.mp ht.hostName
  obtain ⟨_,hp⟩ := Option.isSome_iff_exists.mp ht.processId
  simp only [isMatch,hw,matchBase,Bool.and_eq_true,agrees_iff,hn,hc,hh,hp,Option.mem_some_iff, forall_eq'] at h
  obtain ⟨⟨hchannel,_⟩,⟨hnode,hpid⟩,hhost⟩ := h
  simp only [getNodeId,getChannelId,process,hn,hc, Option.getD_some,getHostName,getProcessId,hh,hp]
    at hnode hchannel hhost hpid ⊢
  exact ⟨hnode,hchannel,by rw [hhost,hpid]⟩

theorem isMatch_self : r.isMatch r.attributes := by
  have hagree {α : Type} [DecidableEq α] (o : Option α) (d : α) : agrees o (o.getD d) = true := by
    cases o <;> simp [agrees]
  cases hc : r.cls <;>
    simp [isMatch,hc,matchBase,getNodeId,getChannelId, getId,getHostName,getProcessId, getServiceId,hagree]

end Role

namespace RoleTables
variable {t : RoleTables} {role : Role}

structure Agree (t : RoleTables) : Prop where
  node : ∀ item ∈ t.node.roles, item.1 = item.2.attributes.getNodeId
  channel : ∀ item ∈ t.channel.roles, item.1 = item.2.attributes.getChannelId
  writer : ∀ item ∈ t.node.roles, item.2.cls = .writer ∧ item.2.attributes.Carries
  perm : (t.node.roles.map snd).Perm (t.channel.roles.map snd)

theorem agree_empty : Agree {} where
  node _ hi := absurd hi not_mem_nil
  channel _ hi := absurd hi not_mem_nil
  writer _ hi := absurd hi not_mem_nil
  perm := .refl _

theorem Agree.channel_writer (h : t.Agree) :
    ∀ item ∈ t.channel.roles, item.2.cls = .writer ∧ item.2.attributes.Carries := by
  intro _ hi
  obtain ⟨other,ho,he⟩ := mem_map.mp (h.perm.mem_iff.mpr (mem_map_of_mem hi))
  exact he ▸ h.writer other ho

theorem Agree.add (h : t.Agree) (hw : role.cls = .writer) (hc : role.attributes.Carries) : (t.add role).Agree where
  node := by simpa [RoleTables.add,MultiValueWarehouse.add] using h.node
  channel := by simpa [RoleTables.add,MultiValueWarehouse.add] using h.channel
  writer := by simpa [RoleTables.add,MultiValueWarehouse.add,hw,hc] using h.writer
  perm := by simpa [RoleTables.add,MultiValueWarehouse.add] using h.perm

def filter (t : RoleTables) (keep : Role → Bool) : RoleTables :=
  ⟨⟨t.node.roles.filter fun item => keep item.2⟩,⟨t.channel.roles.filter fun item => keep item.2⟩⟩

theorem Agree.filter (h : t.Agree) (keep : Role → Bool) : (t.filter keep).Agree where
  node item hi := h.node item (mem_of_mem_filter hi)
  channel item hi := h.channel item (mem_of_mem_filter hi)
  writer item hi := h.writer item (mem_of_mem_filter hi)
  perm := by
    have hmap (l : List (UInt64 × Role)) : (l.filter fun item => keep item.2).map snd =
        (l.map snd).filter keep := by
      rw [filter_map]
      rfl
    simpa only [RoleTables.filter,hmap] using h.perm.filter keep

theorem filter_filter (p q : Role → Bool) : (t.filter p).filter q = t.filter fun r => p r && q r := by
  simp [filter,Bool.and_comm]

theorem filter_congr {p q : Role → Bool} (hn : ∀ item ∈ t.node.roles, p item.2 = q item.2)
    (hc : ∀ item ∈ t.channel.roles, p item.2 = q item.2) : t.filter p = t.filter q := by
  rw [filter,filter,List.filter_congr hn,List.filter_congr hc]

theorem Agree.remove_eq (h : t.Agree) (hc : role.attributes.Carries) :
    t.remove role = t.filter fun r => !r.isMatch role.attributes := by
  have hnode : ∀ item ∈ t.node.roles, item.2.isMatch role.attributes → item.1 = role.attributes.getNodeId :=
    fun item hi hm => (h.node item hi).trans (Role.eq_of_isMatch (h.writer item hi).1 hc hm).1.symm
  have hchannel : ∀ item ∈ t.channel.roles, item.2.isMatch role.attributes →
      item.1 = role.attributes.getChannelId := fun item hi hm =>
    (h.channel item hi).trans (Role.eq_of_isMatch (h.channel_writer item hi).1 hc hm).2.1.symm
  have hkey {k key : UInt64} {b : Bool} (hb : b → k = key) : (!(k == key && b)) = !b := by
    cases b with
    | false => rw [Bool.and_false]
    | true => rw [hb rfl,BEq.rfl,Bool.and_true]
  rw [remove,RoleTables.filter,MultiValueWarehouse.remove,MultiValueWarehouse.remove]
  congr 2
  · exact List.filter_congr fun item hi => hkey (hnode item hi)
  · exact List.filter_congr fun item hi => hkey (hchannel item hi)

theorem Agree.foldl_remove {ws : List Role} (h : t.Agree) (hws : ∀ w ∈ ws, w.attributes.Carries) :
    ws.foldl remove t = t.filter fun r => ws.all fun w => !r.isMatch w.attributes := by
  induction ws generalizing t with
  | nil => simp [RoleTables.filter]
  | cons _ _ ih =>
    rw [forall_mem_cons] at hws
    rw [foldl_cons,h.remove_eq hws.1,ih (h.filter _) hws.2,filter_filter]
    simp only [all_cons]

theorem Agree.remove_process (h : t.Agree) (p : Process) :
    (t.channel.search (.ofProcess p)).foldl remove t = t.filter fun r => r.attributes.process != p := by
  have hfound {w : Role} : w ∈ t.channel.search (.ofProcess p) ↔
      (∃ item ∈ t.channel.roles, item.2 = w) ∧ w.attributes.process = p := by
    rw [MultiValueWarehouse.search,mem_filter,mem_map,Role.isMatch_ofProcess]
  have hcarries : ∀ w ∈ t.channel.search (.ofProcess p), w.attributes.Carries := by
    intro _ hw
    obtain ⟨⟨item,hi,rfl⟩,_⟩ := hfound.mp hw
    exact (h.channel_writer item hi).2
  have hkeep (r : Role) (hr : r.cls = .writer) (hm : ∃ item ∈ t.channel.roles, item.2 = r) :
      ((t.channel.search (.ofProcess p)).all fun w => !r.isMatch w.attributes) = (r.attributes.process != p) := by
    rw [Bool.eq_iff_iff]
    simp only [all_eq_true,Bool.not_eq_true',bne_iff_ne]
    constructor
    · intro hall hp
      have := hall r (hfound.mpr ⟨hm,hp⟩)
      rw [Role.isMatch_self] at this
      cases this
    · intro hne w hw
      rw [Bool.eq_false_iff]
      intro hmatch
      exact hne ((Role.eq_of_isMatch hr (hcarries w hw) hmatch).2.2.symm.trans (hfound.mp hw).2)
  rw [h.foldl_remove hcarries]
  refine filter_congr (fun item hi => ?_) fun item hi => ?_
  · apply hkeep _ (h.writer item hi).1
    exact mem_map.mp (h.perm.mem_iff.mp (mem_map_of_mem hi))
  · exact hkeep _ (h.channel_writer item hi).1 ⟨item,hi,rfl⟩

end RoleTables

namespace ChannelManager
variable {m : ChannelManager} {self p : Process}
variable {type : RoleType} {r : Role}

theorem leaveMsg_roleAttr (h : r.attributes.Carries) : (leaveMsg self type r).roleAttr = r.attributes := by
  obtain ⟨_,hh⟩ := Option.isSome_iff_exists.mp h.hostName
  obtain ⟨_,hp⟩ := Option.isSome_iff_exists.mp h.processId
  rw [leaveMsg,Manager.convert,hh,hp,Option.getD_some,Option.getD_some,← hh,← hp]

theorem remove_leaveMsg {t : RoleTables} (h : r.attributes.Carries) :
    t.remove ⟨.writer,(leaveMsg self type r).roleAttr,0⟩ = t.remove r := by
  rw [leaveMsg_roleAttr h]
  rfl

theorem leave_writers (m : ChannelManager) (self : Process) {ws : List Role} (hws : ∀ w ∈ ws, w.attributes.Carries) :
    let n := ws.foldl (fun m w => m.disposeLeave (leaveMsg self .writer w)) m
    n.writers = ws.foldl RoleTables.remove m.writers ∧ n.readers = m.readers := by
  induction ws generalizing m with
  | nil => exact ⟨rfl,rfl⟩
  | cons w _ ih =>
    rw [forall_mem_cons] at hws
    obtain ⟨hw,hr⟩ := ih (m.disposeLeave (leaveMsg self .writer w)) hws.2
    refine ⟨hw.trans ?_,hr⟩
    rw [foldl_cons,← remove_leaveMsg hws.1]
    rfl

theorem leave_readers (m : ChannelManager) (self : Process) {rs : List Role} (hrs : ∀ r ∈ rs, r.attributes.Carries) :
    let n := rs.foldl (fun m r => m.disposeLeave (leaveMsg self .reader r)) m
    n.readers = rs.foldl RoleTables.remove m.readers ∧ n.writers = m.writers := by
  induction rs generalizing m with
  | nil => exact ⟨rfl,rfl⟩
  | cons r _ ih =>
    rw [forall_mem_cons] at hrs
    obtain ⟨hr,hw⟩ := ih (m.disposeLeave (leaveMsg self .reader r)) hrs.2
    refine ⟨hr.trans ?_,hw⟩
    rw [foldl_cons,← remove_leaveMsg hrs.1]
    rfl

/-- Writer and reader tables agree. -/
def Agree (m : ChannelManager) : Prop := m.writers.Agree ∧ m.readers.Agree

theorem Agree.dispose {msg : ChangeMsg} (h : m.Agree) (hc : msg.roleAttr.Carries) : (m.dispose msg).Agree := by
  have hremove {t : RoleTables} (ht : t.Agree) : (t.remove ⟨.writer,msg.roleAttr,0⟩).Agree := by
    rw [ht.remove_eq hc]
    exact ht.filter _
  cases ho : msg.operateType <;> by_cases hw : msg.roleType = .writer <;>
    simp only [ChannelManager.dispose,ho,disposeJoin,disposeLeave,hw,if_true,if_false]
  · exact ⟨h.1.add rfl hc,h.2⟩
  · exact ⟨h.1,h.2.add rfl hc⟩
  · exact ⟨hremove h.1,h.2⟩
  · exact ⟨h.1,hremove h.2⟩

theorem Agree.onTopoModuleLeave (h : m.Agree) (self p : Process) :
    (m.onTopoModuleLeave self p).writers = m.writers.filter (fun r => r.attributes.process != p) ∧
    (m.onTopoModuleLeave self p).readers = m.readers.filter (fun r => r.attributes.process != p) := by
  have hcarries {t : RoleTables} (ht : t.Agree) : ∀ w ∈ t.channel.search (.ofProcess p), w.attributes.Carries := by
    intro _ hw
    obtain ⟨item,hi,rfl⟩ := mem_map.mp (mem_of_mem_filter hw)
    exact (ht.channel_writer item hi).2
  obtain ⟨hw₁,hr₁⟩ := leave_writers m self (hcarries h.1)
  obtain ⟨hr₂,hw₂⟩ := leave_readers ((m.writers.channel.search (.ofProcess p)).foldl
    (fun m w => m.disposeLeave (leaveMsg self .writer w)) m) self (hcarries h.2)
  rw [← h.1.remove_process,← h.2.remove_process]
  exact ⟨hw₂.trans hw₁,hr₂.trans (by rw [hr₁])⟩

/-- The change message that the event disposes of carries the ids. -/
def Identified (self : Process) (m : Manager ChannelManager) (e : Manager.Event) : Prop :=
  ∀ msg ∈ m.disposed (interface self) self e, msg.roleAttr.Carries

instance (self : Process) (m : Manager ChannelManager) (e : Manager.Event) :
    Decidable (Identified self m e) :=
  inferInstanceAs (Decidable (∀ msg ∈ m.disposed (interface self) self e, msg.roleAttr.Carries))

theorem reachable_agree {m : Manager ChannelManager}
    (h : (system self).ReachableWhile (Identified self) m) : m.tables.Agree := by
  refine Manager.tables_invariant (fun _ msg => msg.roleAttr.Carries) h ?_
    (fun _ _ ht hc => ht.dispose hc) fun _ p ht => ?_
  · exact ⟨RoleTables.agree_empty,RoleTables.agree_empty⟩
  · obtain ⟨hw,hr⟩ := ht.onTopoModuleLeave self p
    exact ⟨hw ▸ ht.1.filter _,hr ▸ ht.2.filter _⟩

/-- In runs of messages that carry the ids both indexes hold the same roles, and the exit of a process leaves exactly
those of the other processes. -/
theorem tables_agree {m : Manager ChannelManager} (h : (system self).ReachableWhile (Identified self) m) :
    (m.tables.writers.node.roles.map snd).Perm (m.tables.writers.channel.roles.map snd) ∧
    (m.tables.readers.node.roles.map snd).Perm (m.tables.readers.channel.roles.map snd) ∧
    ∀ p, ∃ n, m.step (interface self) self (.onTopoModuleLeave p) = some n ∧
      if m.isDiscoveryStarted then
        n.tables.writers = m.tables.writers.filter (fun r => r.attributes.process != p) ∧
        n.tables.readers = m.tables.readers.filter (fun r => r.attributes.process != p)
      else n = m := by
  have ha := reachable_agree h
  refine ⟨ha.1.perm,ha.2.perm,fun p => ⟨_,rfl,?_⟩⟩
  split
  case isTrue => exact ha.onTopoModuleLeave self p
  case isFalse => rfl

/-- Two processes write one channel, the second one exits. -/
theorem tables_agree_exit : ∃ m n : Manager ChannelManager, m.tables.writers.node.roles.length = 2 ∧
    m.step (interface ⟨"host",1⟩) ⟨"host",1⟩ (.onTopoModuleLeave ⟨"host",2⟩) = some n ∧
    n.tables.writers = m.tables.writers.filter fun r => r.attributes.process != ⟨"host",2⟩ := by
  let attr (pid : Int32) : RoleAttributes :=
    { hostName := some "host", processId := some pid, nodeId := some 1, channelName := some "c"
      channelId := some 2, id := some 3 }
  let p (m : Manager ChannelManager) : Bool := m.isDiscoveryStarted ∧ m.tables.writers.node.roles.length = 2
  obtain ⟨m,hm,hp⟩ := System.reachableWhile_of_exec (system ⟨"host",1⟩) (Identified ⟨"host",1⟩)
    [.join (attr 1) .writer 0,.onRemoteChange ⟨0,.join,.writer,attr 2⟩,.startDiscovery true] p
    rfl (by decide)
  obtain ⟨hs,hlen⟩ := of_decide_eq_true hp
  obtain ⟨n,hn,hexit⟩ := (tables_agree hm).2.2 ⟨"host",2⟩
  rw [if_pos hs] at hexit
  exact ⟨m,n,hlen,hn,hexit.1⟩

end ChannelManager

open Graph
def Role.IsOf (r : Role) (c : String) (v : Vertice) : Prop :=
  r.attributes.getChannelName = c ∧ r.attributes.getNodeName = v.value

instance (r : Role) (c : String) (v : Vertice) : Decidable (r.IsOf c v) := inferInstanceAs (Decidable (_ ∧ _))

namespace MultiValueWarehouse
variable {w : MultiValueWarehouse} {role : Role} {key : UInt64} {reg reg' : String → Vertice → Prop}

/-- The removal by key and match concerns exactly the roles with the given node and channel names. -/
def Exact (w : MultiValueWarehouse) (key : UInt64) (attr : RoleAttributes) : Prop :=
  ∀ item ∈ w.roles, item.1 = key ∧ item.2.isMatch attr ↔ item.2.IsOf attr.getChannelName ⟨attr.getNodeName⟩

instance (w : MultiValueWarehouse) (key : UInt64) (attr : RoleAttributes) : Decidable (w.Exact key attr) :=
  inferInstanceAs (Decidable (∀ item ∈ w.roles, _ ↔ _))

/-- The registered nodes of each channel are those with a role in the table. -/
structure Mirrors (w : MultiValueWarehouse) (reg : String → Vertice → Prop) : Prop where
  iff : ∀ c v, reg c v ↔ ∃ item ∈ w.roles, item.2.IsOf c v
  named : ∀ item ∈ w.roles, item.2.attributes.getChannelName ≠ "" ∧ item.2.attributes.getNodeName ≠ ""

variable (h : w.Mirrors reg)
include h

theorem Mirrors.congr (hr : ∀ c v, reg' c v ↔ reg c v) : w.Mirrors reg' :=
  ⟨fun c v => (hr c v).trans (h.iff c v),h.named⟩

theorem Mirrors.reg_named {c : String} {v : Vertice} (hr : reg c v) : c ≠ "" ∧ v.value ≠ "" := by
  obtain ⟨item,hi,rfl,hv⟩ := (h.iff c v).mp hr
  exact ⟨(h.named item hi).1,hv ▸ (h.named item hi).2⟩

theorem Mirrors.add (hn : role.attributes.getChannelName ≠ "" ∧ role.attributes.getNodeName ≠ "")
    (hr : ∀ c v, reg' c v ↔ reg c v ∨ role.IsOf c v) : (w.add key role true).2.Mirrors reg' where
  iff c v := by simp [MultiValueWarehouse.add,hr,h.iff,or_comm]
  named := by simpa [MultiValueWarehouse.add,hn] using h.named

theorem Mirrors.remove (he : w.Exact key role.attributes) (hr : ∀ c v, reg' c v ↔ reg c v ∧ ¬ role.IsOf c v) :
    (w.remove key role).Mirrors reg' := by
  have hmem (item) : item ∈ (w.remove key role).roles ↔ item ∈ w.roles ∧
      ¬ item.2.IsOf role.attributes.getChannelName ⟨role.attributes.getNodeName⟩ := by
    rw [MultiValueWarehouse.remove,List.mem_filter]
    refine and_congr_right fun hi => ?_
    rw [← he item hi]
    simp [imp_iff_not_or]
  refine ⟨fun _ _ => ?_,fun item hi => h.named item ((hmem item).mp hi).1⟩
  rw [hr,h.iff]
  constructor
  · rintro ⟨⟨item,hi,hc,hv⟩,hne⟩
    refine ⟨item,(hmem item).mpr ⟨hi,fun hof => hne ?_⟩,hc,hv⟩
    exact ⟨hof.1.symm.trans hc,hof.2.symm.trans hv⟩
  · rintro ⟨item,hi,hc,hv⟩
    obtain ⟨hi,hne⟩ := (hmem item).mp hi
    refine ⟨⟨item,hi,hc,hv⟩,fun hof => hne ?_⟩
    exact ⟨hc.trans hof.1.symm,hv.trans hof.2.symm⟩

end MultiValueWarehouse

namespace ChannelManager
variable {m : ChannelManager} {msg : ChangeMsg} {c : String} {v : Vertice}

/-- A join names its node and its channel; a leave matches all roles of its node on its channel and
no other ones. -/
def Separates (m : ChannelManager) (msg : ChangeMsg) : Prop :=
  let t := if msg.roleType = .writer then m.writers else m.readers
  match msg.operateType with
  | .join => msg.roleAttr.getChannelName ≠ "" ∧ msg.roleAttr.getNodeName ≠ ""
  | .leave => t.node.Exact msg.roleAttr.getNodeId msg.roleAttr ∧
      t.channel.Exact msg.roleAttr.getChannelId msg.roleAttr

def Registers (msg : ChangeMsg) (c : String) (v : Vertice) : Prop :=
  c ≠ "" ∧ v.value ≠ "" ∧ Role.IsOf ⟨.writer,msg.roleAttr,msg.timestamp⟩ c v

theorem edge_registers :
    (msg.roleType = .writer → ((edge msg).Outgoing c v ↔ Registers msg c v) ∧ ¬ (edge msg).Incoming c v) ∧
    (msg.roleType ≠ .writer → ((edge msg).Incoming c v ↔ Registers msg c v) ∧ ¬ (edge msg).Outgoing c v) := by
  obtain ⟨_⟩ := v
  constructor
  all_goals
    intro hw
    simp only [edge,hw,if_true,if_false,Edge.Outgoing,Edge.Incoming,Edge.isValid,Vertice.isDummy,Registers,Role.IsOf]
    refine ⟨⟨?_,?_⟩,by simp⟩
    · rintro ⟨_,_,rfl,h⟩
      cases h
      simp_all
    · rintro ⟨_,_,rfl,rfl⟩
      simp_all

/-- Sources are the nodes with writers, destinations those with readers, in either index. -/
structure Shown (m : ChannelManager) : Prop where
  nodeWriters : m.writers.node.Mirrors m.nodeGraph.Source
  channelWriters : m.writers.channel.Mirrors m.nodeGraph.Source
  nodeReaders : m.readers.node.Mirrors m.nodeGraph.Destination
  channelReaders : m.readers.channel.Mirrors m.nodeGraph.Destination

theorem Shown.disposeJoin (h : m.Shown) (hn : msg.roleAttr.getChannelName ≠ "" ∧ msg.roleAttr.getNodeName ≠ "") :
    (m.disposeJoin msg).Shown := by
  have hreg (c v) : Registers msg c v ↔ Role.IsOf ⟨.writer,msg.roleAttr,msg.timestamp⟩ c v := by
    refine ⟨fun h => h.2.2,fun hof => ⟨hof.1 ▸ hn.1,hof.2 ▸ hn.2,hof⟩⟩
  rw [ChannelManager.disposeJoin]
  split
  case isTrue hw =>
    have hs (c v) := (insert_source (g := m.nodeGraph) (c := c) (v := v)).trans
      (or_congr Iff.rfl ((edge_registers.1 hw).1.trans (hreg c v)))
    have hd (c v) := (insert_destination (g := m.nodeGraph) (c := c) (v := v)).trans (or_iff_left (edge_registers.1 hw).2)
    exact ⟨h.nodeWriters.add hn hs,h.channelWriters.add hn hs,h.nodeReaders.congr hd,h.channelReaders.congr hd⟩
  case isFalse hw =>
    have hd (c v) := (insert_destination (g := m.nodeGraph) (c := c) (v := v)).trans
      (or_congr Iff.rfl ((edge_registers.2 hw).1.trans (hreg c v)))
    have hs (c v) := (insert_source (g := m.nodeGraph) (c := c) (v := v)).trans (or_iff_left (edge_registers.2 hw).2)
    exact ⟨h.nodeWriters.congr hs,h.channelWriters.congr hs,h.nodeReaders.add hn hd,h.channelReaders.add hn hd⟩

theorem Shown.disposeLeave (h : m.Shown) (ho : msg.operateType = .leave) (hsep : m.Separates msg) :
    (m.disposeLeave msg).Shown := by
  -- A registered pair has names, so that the edge of the message is valid where it matters.
  have hreg {reg : String → Vertice → Prop} {w : MultiValueWarehouse} (hm : w.Mirrors reg) (c v) :
      reg c v ∧ ¬ Registers msg c v ↔ reg c v ∧ ¬ Role.IsOf ⟨.writer,msg.roleAttr,0⟩ c v := by
    refine and_congr_right fun hr => not_congr ⟨fun h => h.2.2,fun hof => ?_⟩
    exact ⟨(hm.reg_named hr).1,(hm.reg_named hr).2,hof⟩
  simp only [Separates,ho] at hsep
  rw [ChannelManager.disposeLeave]
  split
  case isTrue hw =>
    rw [if_pos hw] at hsep
    have hs (c v) := (delete_source (g := m.nodeGraph) (c := c) (v := v)).trans
      ((and_congr Iff.rfl (not_congr (edge_registers.1 hw).1)).trans (hreg h.nodeWriters c v))
    have hd (c v) := (delete_destination (g := m.nodeGraph) (c := c) (v := v)).trans (and_iff_left (edge_registers.1 hw).2)
    exact ⟨h.nodeWriters.remove hsep.1 hs,h.channelWriters.remove hsep.2 hs,h.nodeReaders.congr hd,
      h.channelReaders.congr hd⟩
  case isFalse hw =>
    rw [if_neg hw] at hsep
    have hd (c v) := (delete_destination (g := m.nodeGraph) (c := c) (v := v)).trans
      ((and_congr Iff.rfl (not_congr (edge_registers.2 hw).1)).trans (hreg h.nodeReaders c v))
    have hs (c v) := (delete_source (g := m.nodeGraph) (c := c) (v := v)).trans (and_iff_left (edge_registers.2 hw).2)
    exact ⟨h.nodeWriters.congr hs,h.channelWriters.congr hs,h.nodeReaders.remove hsep.1 hd,
      h.channelReaders.remove hsep.2 hd⟩

/-- A step of a run of join and leave messages, whose messages separate their roles. -/
def Separated (self : Process) (m : Manager ChannelManager) (e : Manager.Event) : Prop :=
  (∀ p, e ≠ .onTopoModuleLeave p) ∧ ∀ msg ∈ m.disposed (interface self) self e, m.tables.Separates msg

theorem reachable_shown {self : Process} {m : Manager ChannelManager}
    (h : (system self).ReachableWhile (Separated self) m) : m.tables.Shown := by
  apply h.invariant (P := fun m => m.tables.Shown)
  · rintro _ rfl
    have hempty : ({} : MultiValueWarehouse).Mirrors fun _ _ => False :=
      ⟨by simp,fun _ hi => absurd hi List.not_mem_nil⟩
    have hs (c v) : empty.Source c v ↔ False := by simp [Graph.Source,related,empty]
    have hd (c v) : empty.Destination c v ↔ False := by
      simp [Graph.Destination,related,empty]
    exact ⟨hempty.congr hs,hempty.congr hs,hempty.congr hd,hempty.congr hd⟩
  · intro m e n hm ho (he : m.step (interface self) self e = some n)
    rcases Manager.step_tables he with ⟨msg,hd,ht⟩ | ⟨p,hp,_⟩ | ⟨_,_,ht⟩
    · have hsep := ho.2 msg hd
      have ht : n.tables = m.tables.dispose msg := ht
      rw [ht,dispose]
      cases hop : msg.operateType with
      | join =>
        simp only [Separates,hop] at hsep
        exact hm.disposeJoin hsep
      | leave => exact hm.disposeLeave hop hsep
    · exact absurd hp (ho.1 p)
    · rwa [ht]

/-- While every leave message matches exactly the roles of its node on its channel, the sources of the graph are the
nodes with writers, and its destinations those with readers. -/
theorem graph_shows_tables {self : Process} {m : Manager ChannelManager}
    (h : (system self).ReachableWhile (Separated self) m) (c : String) (v : Vertice) :
    (m.tables.nodeGraph.Source c v ↔ ∃ item ∈ m.tables.writers.node.roles, item.2.IsOf c v) ∧
    (m.tables.nodeGraph.Source c v ↔ ∃ item ∈ m.tables.writers.channel.roles, item.2.IsOf c v) ∧
    (m.tables.nodeGraph.Destination c v ↔ ∃ item ∈ m.tables.readers.node.roles, item.2.IsOf c v) ∧
    (m.tables.nodeGraph.Destination c v ↔ ∃ item ∈ m.tables.readers.channel.roles, item.2.IsOf c v) := by
  have hs := reachable_shown h
  exact ⟨hs.nodeWriters.iff c v,hs.channelWriters.iff c v,hs.nodeReaders.iff c v,hs.channelReaders.iff c v⟩

/-- Writers of two nodes on one channel. The first one leaves, and the node of the second one stays. -/
theorem graph_shows_tables_writer : ∃ m, (system ⟨"host",1⟩).ReachableWhile (Separated ⟨"host",1⟩) m ∧
    m.tables.nodeGraph.Source "c" ⟨"n"⟩ ∧ ¬ m.tables.nodeGraph.Source "c" ⟨"o"⟩ := by
  let attr (name : String) (id : UInt64) : RoleAttributes :=
    { nodeName := some name, nodeId := some id, channelName := some "c", channelId := some 2, id := some id }
  have hsep (t : ChannelManager) (e : Manager.Event) (msg : ChangeMsg)
      (hmsg : Manager.disposed (interface ⟨"host",1⟩) ⟨"host",1⟩ ⟨false,false,t⟩ e = some msg) (h : t.Separates msg) :
      Separated ⟨"host",1⟩ ⟨false,false,t⟩ e := by
    refine ⟨?_,fun _ h' => Option.some_inj.mp (hmsg.symm.trans h') ▸ h⟩
    rintro p rfl
    cases hmsg
  have hinit : (system ⟨"host",1⟩).ReachableWhile (Separated ⟨"host",1⟩) ⟨false,false,{}⟩ := .start rfl
  have hfirst := hinit.next (hsep {} (.join (attr "o" 3) .writer 0) _ rfl ⟨by decide,by decide⟩) rfl
  have hsecond := hfirst.next (hsep _ (.join (attr "n" 4) .writer 1) _ rfl ⟨by decide,by decide⟩) rfl
  have hr := hsecond.next (hsep _ (.leave (attr "o" 3) .writer 2) _ rfl ⟨by decide,by decide⟩) rfl
  refine ⟨_,hr,(graph_shows_tables hr "c" ⟨"n"⟩).1.mpr ?_,fun h => ?_⟩
  · decide
  · have hitem := (graph_shows_tables hr "c" ⟨"o"⟩).1.mp h
    revert hitem
    decide

/-- Two writers of one node on one channel: the leave of the first one takes the node out of the
graph, while the second one stays in the tables. -/
theorem partial_leave_hides_writer : ∃ m, (system ⟨"host",1⟩).Reachable m ∧ ¬ m.tables.nodeGraph.Source "c" ⟨"n"⟩ ∧
    (∃ item ∈ m.tables.writers.node.roles, item.2.IsOf "c" ⟨"n"⟩) ∧
    ∃ item ∈ m.tables.writers.channel.roles, item.2.IsOf "c" ⟨"n"⟩ := by
  let attr (id : UInt64) : RoleAttributes :=
    { nodeName := some "n", nodeId := some 1, channelName := some "c", channelId := some 2, id := some id }
  let p (m : Manager ChannelManager) : Bool := ¬ m.tables.nodeGraph.Source "c" ⟨"n"⟩ ∧
    (∃ item ∈ m.tables.writers.node.roles, item.2.IsOf "c" ⟨"n"⟩) ∧
    ∃ item ∈ m.tables.writers.channel.roles, item.2.IsOf "c" ⟨"n"⟩
  obtain ⟨m,hm,hp⟩ := System.reachable_of_exec (system ⟨"host",1⟩)
    [.join (attr 3) .writer 0,.join (attr 4) .writer 0,.leave (attr 3) .writer 0] p rfl (by decide)
  exact ⟨m,hm,of_decide_eq_true hp⟩

end ChannelManager

end Apollo.Cyber.ServiceDiscovery
