import Apollo.Cyber.Transport.Shm.Block

/-! `Segment`: how the processes of one channel create, open, remap and recreate its shared
memory. One event is one system call, which may fail, or one access to the `State` at the
start of the memory. The outcome of locking a block
comes with the event, since the index may lie outside of the mapped segment. -/
namespace Apollo.Cyber.Transport.Shm.Segment
open Foundation ShmConf

inductive ReadWriteMode
  | readOnly
  | writeOnly
  deriving DecidableEq

inductive Acquire
  | read (index : Nat)
  | write (msgSize : Nat)
  deriving DecidableEq

/-- Where a running `OpenOrCreate` or `OpenOnly` returns to. -/
inductive Return
  | init (c : Acquire)
  | remap (c : Acquire)
  | recreate (msgSize : Nat)
  deriving DecidableEq

/-- Where a running `Remove` returns to. -/
inductive Removal
  | create (r : Return) (retry : Nat)
  | destroy
  deriving DecidableEq

/-- The next shared access of a segment object. `create` and `openOnly` are the `shmget` of
`OpenOrCreate` and `OpenOnly`, `count` is `IncreaseReferenceCounts`; `discount` and
`checkCount` belong to `Destroy`. -/
inductive Pc
  | idle
  | needRemap (c : Acquire)
  | create (r : Return) (retry : Nat)
  | attachNew (r : Return) (shmid : Nat)
  | construct (r : Return)
  | openOnly (r : Return)
  | attach (r : Return) (shmid : Nat)
  | readCeiling (r : Return)
  | count (r : Return)
  | markRemap (msgSize : Nat)
  | removeGet (r : Removal)
  | removeCtl (r : Removal) (shmid : Nat)
  | lock (c : Acquire)
  | discount
  | checkCount
  | gone
  deriving DecidableEq

/-- A segment object of a process; `mapped` stands for `managed_shm_`, `state_`, `blocks_` and
`block_buf_addrs_`, which are set and cleared together. -/
structure Object where
  mode : ReadWriteMode
  init : Bool
  conf : ShmConf
  mapped : Option Nat
  pc : Pc

/-- A System V segment. `conf` is the layout it was created for; the memory is zero until
the creator has placed a `State` into it. -/
structure Region where
  conf : ShmConf
  constructed : Bool
  needRemap : Bool
  referenceCounts : Nat

/-- `key` is the segment that `shmget` finds; a removed one lives on in those who mapped it. -/
structure Memory where
  key : Option Nat
  next : Nat
  regions : Nat → Region

inductive Errno
  | einval
  | other

def Region.ceilingMsgSize (x : Region) : Nat := if x.constructed then x.conf.ceilingMsgSize else 0

namespace Memory

def set (m : Memory) (id : Nat) (x : Region) : Memory :=
  { m with regions := Function.update m.regions id x }

def create (m : Memory) (conf : ShmConf) : Memory :=
  { (m.set m.next ⟨conf,false,false,0⟩) with key := some m.next, next := m.next+1 }

def remove (m : Memory) (id : Nat) : Memory :=
  { m with key := if m.key = some id then none else m.key }

end Memory

namespace Object

def goto (o : Object) (p : Pc) : Object := { o with pc := p }

/-- The calls after `Init`; a read checks its index here. -/
def afterInit (o : Object) (c : Acquire) (result : Bool) : Object :=
  if result then
    match c with
    | .read index => if o.conf.blockNum ≤ index then o.goto .idle else o.goto (.needRemap c)
    | .write _ => o.goto (.needRemap c)
  else o.goto .idle

/-- The calls after the test of `need_remap`. `Recreate` begins with a store through `state_`. -/
def afterRemap (o : Object) (c : Acquire) (result : Bool) : Object :=
  match c with
  | .read _ => if result then o.goto (.lock c) else o.goto .idle
  | .write msgSize =>
      if o.conf.ceilingMsgSize < msgSize then
        { o with conf := update msgSize, init := false, pc := .markRemap msgSize }
      else if result then o.goto (.lock c) else o.goto .idle

def opened (o : Object) (r : Return) (result : Bool) : Object :=
  match r with
  | .init c => o.afterInit c result
  | .remap c => o.afterRemap c result
  | .recreate msgSize => if result then o.goto (.lock (.write msgSize)) else o.goto .idle

def removed (o : Object) (r : Removal) : Object :=
  match r with
  | .create r retry => if retry < 2 then o.goto (.create r retry) else o.opened r false
  | .destroy => o.goto .gone

def acquire (o : Object) (c : Acquire) : Option Object :=
  match o.pc with
  | .idle =>
      if o.init then some (o.afterInit c true)
      else match o.mode with
        | .readOnly => some (o.goto (.openOnly (.init c)))
        | .writeOnly => some (o.goto (.create (.init c) 0))
  | _ => none

def destroy (o : Object) : Option Object :=
  match o.pc with
  | .idle => if o.init then some { o with init := false, pc := .discount } else some (o.goto .gone)
  | _ => none

/-- The next access, with a system call that succeeds. A null `state_` is not followed. -/
def proceed (m : Memory) (o : Object) : Option (Memory × Object) :=
  match o.pc with
  | .needRemap c => o.mapped.map fun id =>
      if (m.regions id).needRemap then
        (m, { o with init := false, mapped := none, pc := .openOnly (.remap c) })
      else (m, o.afterRemap c true)
  | .create r _ =>
      match m.key with
      | some _ => some (m, o.goto (.openOnly r))
      | none => some (m.create o.conf, o.goto (.attachNew r m.next))
  | .attachNew r id => some (m, { o with mapped := some id, pc := .construct r })
  | .construct r => o.mapped.map fun id =>
      (m.set id { m.regions id with constructed := true, needRemap := false, referenceCounts := 0 },
        { o with conf := update o.conf.ceilingMsgSize, pc := .count r })
  | .openOnly r =>
      match m.key with
      | some id => some (m, o.goto (.attach r id))
      | none => some (m, o.opened r false)
  | .attach r id => some (m, { o with mapped := some id, pc := .readCeiling r })
  | .readCeiling r => o.mapped.map fun id =>
      (m, { o with conf := update (m.regions id).ceilingMsgSize, pc := .count r })
  | .count r => o.mapped.map fun id =>
      (m.set id { m.regions id with referenceCounts := (m.regions id).referenceCounts+1 },
        { o with init := true }.opened r true)
  | .markRemap msgSize => o.mapped.map fun id =>
      (m.set id { m.regions id with needRemap := true },
        { o with mapped := none, pc := .removeGet (.create (.recreate msgSize) 0) })
  | .removeGet r =>
      match m.key with
      | some id => some (m, o.goto (.removeCtl r id))
      | none => some (m, o.removed r)
  | .removeCtl r id => some (m.remove id, o.removed r)
  | .discount => o.mapped.map fun id =>
      (m.set id { m.regions id with referenceCounts := (m.regions id).referenceCounts - 1 }, o.goto .checkCount)
  | .checkCount => o.mapped.map fun id =>
      if (m.regions id).referenceCounts = 0 then (m, o.goto (.removeGet .destroy))
      else (m, o.goto .gone)
  | .idle | .lock _ | .gone => none

/-- The next system call fails. Since the key of an existing segment is answered before the
size is checked, a creation fails only without one. -/
def fail (m : Memory) (o : Object) (e : Errno) : Option (Memory × Object) :=
  match o.pc with
  | .create r retry =>
      match m.key, e with
      | none, .einval =>
          some (m, { o with mapped := none, pc := .removeGet (.create r (retry+1)) })
      | none, .other => some (m, o.opened r false)
      | some _, _ => none
  | .attachNew r id => some (m.remove id, o.opened r false)
  | .openOnly r | .attach r _ => some (m, o.opened r false)
  | .removeGet r | .removeCtl r _ => some (m, o.removed r)
  | _ => none

/-- The block of a call that succeeds: the index of a read, or where the search for a
writable block ends. -/
def lock (o : Object) (tryIdx : Nat) : Option (Acquire × Nat × Nat) :=
  match o.pc, o.mapped with
  | .lock (.read index), some id => some (.read index, index, id)
  | .lock (.write msgSize), some id =>
      some (.write msgSize, Block.reduce o.conf.blockNum tryIdx, id)
  | _, _ => none

/-- `TryLockForRead` fails. -/
def busy (o : Object) : Option Object :=
  match o.pc with
  | .lock (.read _) => some (o.goto .idle)
  | _ => none

end Object

/-- A call that returned true, with the mapping it returned a block of. -/
structure Grant (ι : Type) where
  object : ι
  call : Acquire
  index : Nat
  shmid : Nat
  conf : ShmConf

/-- `granted` are the successful calls, the newest one first. -/
structure State (ι : Type) where
  memory : Memory
  objects : ι → Object
  granted : List (Grant ι)

inductive Event (ι : Type)
  | acquire (i : ι) (c : Acquire)
  | destroy (i : ι)
  | proceed (i : ι)
  | fail (i : ι) (e : Errno)
  | lock (i : ι) (tryIdx : Nat)
  | busy (i : ι)

variable {ι : Type}

def init (mode : ι → ReadWriteMode) : State ι where
  memory := ⟨none,0,fun _ => ⟨default,false,false,0⟩⟩
  objects i := ⟨mode i,false,default,none,.idle⟩
  granted := []

variable [DecidableEq ι]
namespace State

def set (s : State ι) (m : Memory) (i : ι) (o : Object) : State ι :=
  { s with memory := m, objects := Function.update s.objects i o }

def step (s : State ι) : Event ι → Option (State ι)
  | .acquire i c => ((s.objects i).acquire c).map (s.set s.memory i)
  | .destroy i => (s.objects i).destroy.map (s.set s.memory i)
  | .proceed i => ((s.objects i).proceed s.memory).map fun r => s.set r.1 i r.2
  | .fail i e => ((s.objects i).fail s.memory e).map fun r => s.set r.1 i r.2
  | .lock i tryIdx => ((s.objects i).lock tryIdx).map fun r =>
      { s.set s.memory i ((s.objects i).goto .idle) with
        granted := ⟨i,r.1,r.2.1,r.2.2,(s.objects i).conf⟩::s.granted }
  | .busy i => (s.objects i).busy.map (s.set s.memory i)

end State

def system (ι : Type) [DecidableEq ι] : System (State ι) (Event ι) where
  initial s := ∃ mode, s = init mode
  step := State.step

end Apollo.Cyber.Transport.Shm.Segment
