import Apollo.Foundation.Transition
import Apollo.Foundation.Word

/-! `ReentrantRWLock`, used through its guards: a thread releases its guards in the reverse order of their
construction. Every access to `write_thread_id_` and every atomic operation is one event; the counted retries before a
yield are left out. The lock number counts either the readers or the nesting of the one writer, whose id is the stored
one. -/
namespace Apollo.Cyber.Base.ReentrantRWLock
open Foundation

def rwLockFree : Int := 0
def writeExclusive : Int := -1

inductive Guard
  | read
  | write
  deriving DecidableEq

/-- Where a thread stands; the groups are `ReadLock`, `WriteLock`, `ReadUnlock` and
`WriteUnlock`. -/
inductive Pc
  | idle
  | readCheck
  | readLoad
  | readTest (lockNum : Int)
  | readExchange (lockNum : Int)
  | writeCheck
  | writeReenter
  | writeWait
  | writeExchange
  | writeStore
  | writeUnwait
  | unreadCheck
  | unreadSub
  | unwriteAdd
  | unwriteReset
  deriving DecidableEq

/-- `held` are the guards whose lock call has returned and whose unlock call has not begun,
the newest one first. -/
structure Thread where
  pc : Pc
  held : List Guard
  deriving DecidableEq

/-- `readers` names the thread of every read lock that is counted in `lock_num_`. -/
structure State (ι : Type) where
  writeThreadId : Option ι
  writeLockWaitNum : Nat
  lockNum : Int
  thread : ι → Thread
  readers : List ι

/-- The construction of a guard, the destruction of the newest one, the next operation of
the running call, or a spurious failure of its weak exchange. -/
inductive Act
  | readLock
  | writeLock
  | unlock
  | advance
  | spurious

variable {ι : Type}

def init : State ι where
  writeThreadId := none
  writeLockWaitNum := 0
  lockNum := rwLockFree
  thread _ := ⟨.idle,[]⟩
  readers := []

/-- The waiting loops of `ReadLock` for a freshly loaded lock number. -/
def Pc.tested (writeFirst : Bool) (lockNum : Int) : Pc :=
  if lockNum < rwLockFree then .readLoad
  else if writeFirst then .readTest lockNum
  else .readExchange lockNum

variable [DecidableEq ι]
namespace State

def move (s : State ι) (i : ι) (t : Thread) : State ι :=
  { s with thread := Function.update s.thread i t }

def advance (writeFirst : Bool) (s : State ι) (i : ι) : Option (State ι) :=
  match s.thread i with
  | ⟨.idle,_⟩ => none
  | ⟨.readCheck,h⟩ =>
      if s.writeThreadId = some i then some (s.move i ⟨.idle,.read::h⟩)
      else some (s.move i ⟨.readLoad,h⟩)
  | ⟨.readLoad,h⟩ => some (s.move i ⟨.tested writeFirst s.lockNum,h⟩)
  | ⟨.readTest n,h⟩ =>
      if s.writeLockWaitNum > 0 then some (s.move i ⟨.readLoad,h⟩)
      else some (s.move i ⟨.readExchange n,h⟩)
  | ⟨.readExchange n,h⟩ =>
      -- computing `lock_num + 1` is undefined for the largest number
      if n+1 < 2^31 then
        if s.lockNum = n then
          some ({ s with lockNum := n+1, readers := i::s.readers }.move i ⟨.idle,.read::h⟩)
        else some (s.move i ⟨.tested writeFirst s.lockNum,h⟩)
      else none
  | ⟨.writeCheck,h⟩ =>
      if s.writeThreadId = some i then some (s.move i ⟨.writeReenter,h⟩)
      else some (s.move i ⟨.writeWait,h⟩)
  | ⟨.writeReenter,h⟩ =>
      some ({ s with lockNum := int32 (s.lockNum - 1) }.move i ⟨.idle,.write::h⟩)
  | ⟨.writeWait,h⟩ =>
      some ({ s with writeLockWaitNum := (s.writeLockWaitNum+1)%2^32 }.move i ⟨.writeExchange,h⟩)
  | ⟨.writeExchange,h⟩ =>
      if s.lockNum = rwLockFree then
        some ({ s with lockNum := writeExclusive }.move i ⟨.writeStore,h⟩)
      else some (s.move i ⟨.writeExchange,h⟩)
  | ⟨.writeStore,h⟩ => some ({ s with writeThreadId := some i }.move i ⟨.writeUnwait,h⟩)
  | ⟨.writeUnwait,h⟩ =>
      some ({ s with writeLockWaitNum := (s.writeLockWaitNum+2^32 - 1)%2^32 }.move i ⟨.idle,.write::h⟩)
  | ⟨.unreadCheck,h⟩ =>
      if s.writeThreadId = some i then some (s.move i ⟨.idle,h⟩)
      else some (s.move i ⟨.unreadSub,h⟩)
  | ⟨.unreadSub,h⟩ =>
      some ({ s with lockNum := int32 (s.lockNum - 1), readers := s.readers.erase i }.move i ⟨.idle,h⟩)
  | ⟨.unwriteAdd,h⟩ =>
      some ({ s with lockNum := int32 (s.lockNum+1) }.move i
        ⟨if s.lockNum = writeExclusive then .unwriteReset else .idle,h⟩)
  | ⟨.unwriteReset,h⟩ => some ({ s with writeThreadId := none }.move i ⟨.idle,h⟩)

def spurious (writeFirst : Bool) (s : State ι) (i : ι) : Option (State ι) :=
  match s.thread i with
  | ⟨.readExchange _,h⟩ => some (s.move i ⟨.tested writeFirst s.lockNum,h⟩)
  | ⟨.writeExchange,h⟩ => some (s.move i ⟨.writeExchange,h⟩)
  | _ => none

def step (writeFirst : Bool) (s : State ι) (e : ι × Act) : Option (State ι) :=
  match e.2, s.thread e.1 with
  | .readLock, ⟨.idle,h⟩ => some (s.move e.1 ⟨.readCheck,h⟩)
  | .writeLock, ⟨.idle,h⟩ => some (s.move e.1 ⟨.writeCheck,h⟩)
  | .unlock, ⟨.idle,.read::h⟩ => some (s.move e.1 ⟨.unreadCheck,h⟩)
  | .unlock, ⟨.idle,.write::h⟩ => some (s.move e.1 ⟨.unwriteAdd,h⟩)
  | .advance, _ => s.advance writeFirst e.1
  | .spurious, _ => s.spurious writeFirst e.1
  | _, _ => none

end State

def system (ι : Type) [DecidableEq ι] (writeFirst : Bool) : System (State ι) (ι × Act) where
  initial s := s = init
  step := State.step writeFirst

/-- The loops of a thread that found another owner. -/
def Pc.waiting : Pc → Bool
  | .readLoad | .readTest _ | .readExchange _ | .writeWait | .writeExchange => true
  | _ => false

def Pc.sample : Pc → Int
  | .readTest n | .readExchange n => n
  | _ => 0

/-- Moves of thread `i` that change neither `lock_num_` nor `write_thread_id_`. -/
inductive Quiet (id : Option ι) (i : ι) : Thread → Thread → Prop
  | readLock (h : List Guard) : Quiet id i ⟨.idle,h⟩ ⟨.readCheck,h⟩
  | writeLock (h : List Guard) : Quiet id i ⟨.idle,h⟩ ⟨.writeCheck,h⟩
  | readUnlock (h : List Guard) : Quiet id i ⟨.idle,.read::h⟩ ⟨.unreadCheck,h⟩
  | writeUnlock (h : List Guard) : Quiet id i ⟨.idle,.write::h⟩ ⟨.unwriteAdd,h⟩
  | readReenter (h : List Guard) : id = some i → Quiet id i ⟨.readCheck,h⟩ ⟨.idle,.read::h⟩
  | readEnter (h : List Guard) : id ≠ some i → Quiet id i ⟨.readCheck,h⟩ ⟨.readLoad,h⟩
  | writeReenter (h : List Guard) : id = some i → Quiet id i ⟨.writeCheck,h⟩ ⟨.writeReenter,h⟩
  | writeEnter (h : List Guard) : id ≠ some i → Quiet id i ⟨.writeCheck,h⟩ ⟨.writeWait,h⟩
  | wait (p q : Pc) (h : List Guard) : p.waiting → q.waiting → (0 ≤ p.sample → 0 ≤ q.sample) → Quiet id i ⟨p,h⟩ ⟨q,h⟩
  | writeReturn (h : List Guard) : Quiet id i ⟨.writeUnwait,h⟩ ⟨.idle,.write::h⟩
  | unreadReenter (h : List Guard) : id = some i → Quiet id i ⟨.unreadCheck,h⟩ ⟨.idle,h⟩
  | unreadEnter (h : List Guard) : id ≠ some i → Quiet id i ⟨.unreadCheck,h⟩ ⟨.unreadSub,h⟩

inductive Moves (s : State ι) (i : ι) : State ι → Prop
  | quiet (t : Thread) (w : Nat) : Quiet s.writeThreadId i (s.thread i) t →
      Moves s i ({ s with writeLockWaitNum := w }.move i t)
  | readAcquire (h : List Guard) : s.thread i = ⟨.readExchange s.lockNum,h⟩ → s.lockNum+1 < 2^31 →
      Moves s i ({ s with lockNum := s.lockNum+1, readers := i::s.readers }.move i ⟨.idle,.read::h⟩)
  | writeNest (h : List Guard) : s.thread i = ⟨.writeReenter,h⟩ →
      Moves s i ({ s with lockNum := int32 (s.lockNum - 1) }.move i ⟨.idle,.write::h⟩)
  | writeAcquire (h : List Guard) : s.thread i = ⟨.writeExchange,h⟩ → s.lockNum = 0 →
      Moves s i ({ s with lockNum := -1 }.move i ⟨.writeStore,h⟩)
  | writeStore (h : List Guard) : s.thread i = ⟨.writeStore,h⟩ →
      Moves s i ({ s with writeThreadId := some i }.move i ⟨.writeUnwait,h⟩)
  | readRelease (h : List Guard) : s.thread i = ⟨.unreadSub,h⟩ →
      Moves s i ({ s with lockNum := int32 (s.lockNum - 1), readers := s.readers.erase i }.move i ⟨.idle,h⟩)
  | writeRelease (h : List Guard) : s.thread i = ⟨.unwriteAdd,h⟩ →
      Moves s i ({ s with lockNum := int32 (s.lockNum+1) }.move i ⟨if s.lockNum = -1 then .unwriteReset else .idle,h⟩)
  | reset (h : List Guard) : s.thread i = ⟨.unwriteReset,h⟩ →
      Moves s i ({ s with writeThreadId := none }.move i ⟨.idle,h⟩)

theorem tested_waiting (writeFirst : Bool) (n : Int) :
    (Pc.tested writeFirst n).waiting ∧ 0 ≤ (Pc.tested writeFirst n).sample := by
  unfold Pc.tested
  split
  · exact ⟨rfl,Int.le_refl 0⟩
  · next hn =>
    have : 0 ≤ n := Int.not_lt.mp hn
    cases writeFirst <;> exact ⟨rfl,this⟩

variable {writeFirst : Bool} {s t : State ι}

theorem retested {i : ι} {p : Pc} {h : List Guard} (hp : s.thread i = ⟨p,h⟩)
    (hw : p.waiting) : Moves s i (s.move i ⟨.tested writeFirst s.lockNum,h⟩) := by
  obtain ⟨hq,hn⟩ := tested_waiting writeFirst s.lockNum
  exact .quiet _ s.writeLockWaitNum (by rw [hp]; exact .wait p _ h hw hq fun _ => hn)

theorem quiet_moves {i : ι} {t₁ t₂ : Thread} (hp : s.thread i = t₁)
    (hq : Quiet s.writeThreadId i t₁ t₂) : Moves s i (s.move i t₂) :=
  .quiet t₂ s.writeLockWaitNum (hp ▸ hq)

theorem advance_moves {i : ι} (h : s.advance writeFirst i = some t) : Moves s i t := by
  unfold State.advance at h
  split at h
  case h_1 => cases h
  case h_2 g hp =>
    split at h
    · next he => cases h; exact quiet_moves hp (.readReenter g he)
    · next he => cases h; exact quiet_moves hp (.readEnter g he)
  case h_3 g hp => cases h; exact retested hp rfl
  case h_4 n g hp =>
    split at h
    · cases h; exact quiet_moves hp (.wait _ _ g rfl rfl fun _ => Int.le_refl 0)
    · cases h; exact quiet_moves hp (.wait _ _ g rfl rfl fun hn => hn)
  case h_5 n g hp =>
    split at h
    · next hb =>
      split at h
      · next he => cases h; subst he; exact .readAcquire g hp hb
      · cases h; exact retested hp rfl
    · cases h
  case h_6 g hp =>
    split at h
    · next he => cases h; exact quiet_moves hp (.writeReenter g he)
    · next he => cases h; exact quiet_moves hp (.writeEnter g he)
  case h_7 g hp => cases h; exact .writeNest g hp
  case h_8 g hp =>
    cases h
    exact .quiet _ _ (by rw [hp]; exact .wait _ _ g rfl rfl fun _ => Int.le_refl 0)
  case h_9 g hp =>
    split at h
    · next he => cases h; exact .writeAcquire g hp he
    · cases h; exact quiet_moves hp (.wait _ _ g rfl rfl fun _ => Int.le_refl 0)
  case h_10 g hp => cases h; exact .writeStore g hp
  case h_11 g hp => cases h; exact .quiet _ _ (by rw [hp]; exact .writeReturn g)
  case h_12 g hp =>
    split at h
    · next he => cases h; exact quiet_moves hp (.unreadReenter g he)
    · next he => cases h; exact quiet_moves hp (.unreadEnter g he)
  case h_13 g hp => cases h; exact .readRelease g hp
  case h_14 g hp => cases h; exact .writeRelease g hp
  case h_15 g hp => cases h; exact .reset g hp

theorem step_moves {e : ι × Act} (h : s.step writeFirst e = some t) : Moves s e.1 t := by
  unfold State.step at h
  split at h
  case h_1 g _ hp => cases h; exact quiet_moves hp (.readLock g)
  case h_2 g _ hp => cases h; exact quiet_moves hp (.writeLock g)
  case h_3 g _ hp => cases h; exact quiet_moves hp (.readUnlock g)
  case h_4 g _ hp => cases h; exact quiet_moves hp (.writeUnlock g)
  case h_5 => exact advance_moves h
  case h_6 =>
    unfold State.spurious at h
    split at h
    case h_1 g hp => cases h; exact retested hp rfl
    case h_2 g hp => cases h; exact quiet_moves hp (.wait _ _ g rfl rfl fun _ => Int.le_refl 0)
    case h_3 => cases h
  case h_7 => cases h

open List Function Thread Option Pc Guard
variable {ι : Type}

/-- Write locks counted in `lock_num_` whose call has not returned or whose unlock has begun. -/
def Pc.writes : Pc → Nat
  | .writeStore | .writeUnwait | .unwriteAdd => 1
  | _ => 0

def Pc.reads : Pc → Nat
  | .unreadCheck | .unreadSub => 1
  | _ => 0

def Pc.plain : Pc → Bool
  | .writeStore | .writeUnwait | .unwriteAdd | .unwriteReset => false
  | _ => true

/-- How often a thread is counted as a writer in `lock_num_`. -/
def Thread.depth (t : Thread) : Nat := t.held.count .write+t.pc.writes

/-- How often a thread is counted as a reader in `lock_num_`. -/
def Thread.counted (t : Thread) : Nat :=
  if .write ∈ t.held then 0 else t.held.length+t.pc.reads

def Thread.Owner (t : Thread) : Prop := .write ∈ t.held ∨ t.pc = .writeUnwait

def Thread.Leaving (t : Thread) : Prop := t.pc = .unwriteAdd ∨ t.pc = .unwriteReset

def Pc.Ok : Pc → List Guard → Prop
  | .idle, _ | .readCheck, _ | .writeCheck, _ | .unreadCheck, _ => True
  | .readLoad, h | .writeWait, h | .writeExchange, h | .unreadSub, h => .write ∉ h
  | .readTest n, h | .readExchange n, h => .write ∉ h ∧ 0 ≤ n
  | .writeReenter, h => .write ∈ h
  | .writeStore, h | .writeUnwait, h | .unwriteReset, h => h = []
  | .unwriteAdd, h => .write ∉ h → h = []

/-- The oldest guard of a writer is a write guard, since a thread never gets the write lock
on top of a counted read lock. -/
def Thread.Ok (t : Thread) : Prop := (.write ∈ t.held → t.held.getLast? = some .write) ∧ t.pc.Ok t.held

structure Settled (id : Option ι) (i : ι) (t : Thread) : Prop where
  ok : t.Ok
  stored : t.Owner → id = some i
  known : id = some i → t.Owner ∨ t.Leaving

/-- `w` is the writer, if there is one. -/
structure Inv [DecidableEq ι] (s : State ι) (w : Option ι) : Prop where
  writer : ∀ i, 0 < (s.thread i).depth ↔ w = some i
  free : w = none → s.lockNum = s.readers.length
  exclusive : ∀ i, w = some i → s.lockNum = -((s.thread i).depth : Int) ∧ s.readers = []
  counted : ∀ i, s.readers.count i = (s.thread i).counted
  settled : ∀ i, Settled s.writeThreadId i (s.thread i)
  range : -2^31 ≤ s.lockNum ∧ s.lockNum < 2^31

/-- No reset hits a thread that has stored its id and not released the lock, and the write
lock is nested less than `2 ^ 31` times. -/
def Undisturbed (s : State ι) (e : ι × Act) : Prop :=
  ((s.thread e.1).pc = .unwriteReset → ∀ j, j ≠ e.1 → ¬ (s.thread j).Owner) ∧
  ((s.thread e.1).pc = .writeReenter → -2^31 < s.lockNum)

theorem Thread.Owner.depth_pos {t : Thread} (h : t.Owner) : 0 < t.depth := by
  rcases h with h | h
  · have := count_pos_iff.mpr h
    unfold depth
    omega
  · simp [depth,h,writes]

variable [DecidableEq ι] {s t : State ι} {w : Option ι} {i : ι}

theorem init_inv : Inv (init : State ι) none where
  writer i := by simp [init,depth,writes]
  free _ := rfl
  exclusive i h := by cases h
  counted i := rfl
  settled i := ⟨⟨nofun,trivial⟩,fun h => (by rcases h with h | h <;> cases h),nofun⟩
  range := ⟨by simp [init,rwLockFree],by simp [init,rwLockFree]⟩

variable {h : List Guard} {p : Pc} {id id' w' : Option ι} {k : Nat}

omit [DecidableEq ι] in
/-- Away from the writer's entry and exit the stored id tells whether a write guard is held. -/
theorem settled_iff (hp : p.plain) : Settled id i ⟨p,h⟩ ↔ Thread.Ok ⟨p,h⟩ ∧ (.write ∈ h ↔ id = some i) := by
  have owner : Thread.Owner ⟨p,h⟩ ↔ .write ∈ h := by
    cases p <;> cases hp <;> simp [Thread.Owner]
  have leaving : ¬ Thread.Leaving ⟨p,h⟩ := by
    cases p <;> cases hp <;> simp [Thread.Leaving]
  constructor
  · rintro ⟨ok,stored,known⟩
    exact ⟨ok,fun hw => stored (owner.mpr hw),fun hid => owner.mp ((known hid).resolve_right leaving)⟩
  · rintro ⟨ok,hiff⟩
    exact ⟨ok,fun ho => hiff.mp (owner.mp ho),fun hid => .inl (owner.mpr (hiff.mpr hid))⟩

theorem ok_waiting (hp : p.waiting) : Thread.Ok ⟨p,h⟩ ↔
    (.write ∈ h → h.getLast? = some .write) ∧ .write ∉ h ∧ 0 ≤ p.sample := by
  refine and_congr_right fun _ => ?_
  cases p <;> cases hp <;> simp [Pc.Ok,sample]

theorem bottom_tail {g : Guard} (hb : .write ∈ g::h → (g::h).getLast? = some .write) :
    (.write ∈ h → h.getLast? = some .write) ∧ (g = .write → .write ∉ h → h = []) := by
  cases h with
  | nil => exact ⟨nofun,fun _ _ => rfl⟩
  | cons g' h =>
    have last : .write ∈ g::g' :: h → (g' :: h).getLast? = some .write := by
      simpa [getLast?_cons_cons] using hb
    refine ⟨fun hw => last (mem_cons_of_mem _ hw),fun hg hw => ?_⟩
    exact absurd (mem_of_getLast? (last (hg ▸ mem_cons_self))) hw

omit [DecidableEq ι] in
theorem Quiet.keeps {t₁ t₂ : Thread} (hq : Quiet id i t₁ t₂) (hs : Settled id i t₁) :
    Settled id i t₂ ∧ t₂.depth = t₁.depth ∧ t₂.counted = t₁.counted := by
  cases hq with
  | readLock | writeLock =>
    rw [settled_iff (by rfl)] at hs ⊢
    exact ⟨⟨⟨hs.1.1,trivial⟩,hs.2⟩,rfl,rfl⟩
  | readUnlock h =>
    rw [settled_iff (by rfl)] at hs ⊢
    have hw : .write ∈ read::h ↔ .write ∈ h := by simp
    refine ⟨⟨⟨(bottom_tail hs.1.1).1,trivial⟩,hw.symm.trans hs.2⟩,by simp [depth,writes],?_⟩
    simp [counted,reads]
  | writeUnlock h =>
    obtain ⟨⟨hb,_⟩,hiff⟩ := (settled_iff (by rfl)).mp hs
    have hid := hiff.mp mem_cons_self
    obtain ⟨hb',hempty⟩ := bottom_tail hb
    refine ⟨⟨⟨hb',hempty rfl⟩,fun _ => hid,fun _ => .inr (.inl rfl)⟩,?_,?_⟩
    · simp [depth,writes]
    · by_cases hw : .write ∈ h
      · simp [counted,hw]
      · simp [counted,hempty rfl hw,reads]
  | readReenter _ hid =>
    rw [settled_iff (by rfl)] at hs ⊢
    have hw := hs.2.mpr hid
    refine ⟨⟨⟨fun _ => ?_,trivial⟩,by simp [hw,hid]⟩,by simp [depth,writes],?_⟩
    · obtain ⟨g,_,rfl⟩ := exists_cons_of_ne_nil (ne_nil_of_mem hw)
      exact (getLast?_cons_cons ..).trans (hs.1.1 hw)
    · simp [counted,hw]
  | readEnter _ hid | writeEnter _ hid =>
    rw [settled_iff (by rfl)] at hs ⊢
    exact ⟨⟨⟨hs.1.1,fun hw => hid (hs.2.mp hw)⟩,hs.2⟩,rfl,rfl⟩
  | writeReenter _ hid =>
    rw [settled_iff (by rfl)] at hs ⊢
    exact ⟨⟨⟨hs.1.1,hs.2.mpr hid⟩,hs.2⟩,rfl,rfl⟩
  | wait p q _ hp hq hn =>
    rw [settled_iff (by cases p <;> first | rfl | cases hp),ok_waiting hp] at hs
    rw [settled_iff (by cases q <;> first | rfl | cases hq),ok_waiting hq]
    refine ⟨⟨⟨hs.1.1,hs.1.2.1,hn hs.1.2.2⟩,hs.2⟩,?_,?_⟩ <;> cases p <;> cases hp <;> cases q <;> cases hq <;> rfl
  | writeReturn h =>
    obtain ⟨⟨hb,hh⟩,stored,_⟩ := hs
    obtain rfl : h = [] := hh
    have hid := stored (.inr rfl)
    exact ⟨(settled_iff (by rfl)).mpr ⟨⟨fun _ => rfl,trivial⟩,by simp [hid]⟩,rfl,rfl⟩
  | unreadReenter _ hid =>
    rw [settled_iff (by rfl)] at hs ⊢
    have hw := hs.2.mpr hid
    exact ⟨⟨⟨hs.1.1,trivial⟩,hs.2⟩,rfl,by simp [counted,hw]⟩
  | unreadEnter _ hid =>
    rw [settled_iff (by rfl)] at hs ⊢
    exact ⟨⟨⟨hs.1.1,fun hw => hid (hs.2.mp hw)⟩,hs.2⟩,rfl,rfl⟩

section
variable (hi : Inv s w)
include hi

theorem Inv.update {n : Int} {r : List ι} {t : Thread} (hw : ∀ j, j ≠ i → (w' = some j ↔ w = some j))
    (hd : 0 < t.depth ↔ w' = some i) (free : w' = none → n = r.length)
    (exclusive : w' = some i → n = -(t.depth : Int) ∧ r = [])
    (other : ∀ j, j ≠ i → w' = some j → n = s.lockNum ∧ r = s.readers)
    (hc : ∀ j, j ≠ i → r.count j = s.readers.count j) (hci : r.count i = t.counted) (hs : Settled id' i t)
    (hso : ∀ j, j ≠ i → Settled id' j (s.thread j)) (range : -2^31 ≤ n ∧ n < 2^31) :
    Inv { writeThreadId := id', writeLockWaitNum := k, lockNum := n,
          thread := update s.thread i t, readers := r } w' where
  writer := (forall_update_iff s.thread (p := fun j t => 0 < t.depth ↔ w' = some j)).mpr
    ⟨hd,fun j hj => (hi.writer j).trans (hw j hj).symm⟩
  free := free
  exclusive := by
    refine (forall_update_iff s.thread
      (p := fun j t => w' = some j → n = -(t.depth : Int) ∧ r = [])).mpr ⟨exclusive,fun j hj hwj => ?_⟩
    obtain ⟨rfl,rfl⟩ := other j hj hwj
    exact hi.exclusive j ((hw j hj).mp hwj)
  counted := (forall_update_iff s.thread (p := fun j t => r.count j = t.counted)).mpr
    ⟨hci,fun j hj => (hc j hj).trans (hi.counted j)⟩
  settled := (forall_update_iff s.thread (p := fun j t => Settled id' j t)).mpr ⟨hs,hso⟩
  range := range

theorem Inv.quiet {t : Thread} (hq : Quiet s.writeThreadId i (s.thread i) t) :
    Inv ({ s with writeLockWaitNum := k }.move i t) w := by
  obtain ⟨hs,hd,hc⟩ := hq.keeps (hi.settled i)
  apply hi.update (fun _ _ => Iff.rfl) (hd ▸ hi.writer i) hi.free (hd ▸ hi.exclusive i)
    (fun _ _ _ => ⟨rfl,rfl⟩) (fun _ _ => rfl) (hc ▸ hi.counted i) hs (fun j _ => hi.settled j) hi.range

theorem Inv.no_writer (h : 0 ≤ s.lockNum ∨ s.readers ≠ []) : w = none := by
  cases w with
  | none => rfl
  | some j =>
    obtain ⟨_,hr⟩ := hi.exclusive j rfl
    have := (hi.writer j).mpr rfl
    rcases h with h | h
    · omega
    · exact absurd hr h

theorem Inv.readAcquire (hp : s.thread i = ⟨.readExchange s.lockNum,h⟩) (hb : s.lockNum+1 < 2^31) :
    Inv ({ s with lockNum := s.lockNum+1, readers := i::s.readers }.move i ⟨.idle,.read::h⟩) w := by
  have hs := hi.settled i
  have hc := hi.counted i
  have hd := hi.writer i
  rw [hp] at hs hc hd
  obtain ⟨⟨_,(hw : write ∉ h),hn⟩,hiff⟩ := (settled_iff (by rfl)).mp hs
  obtain rfl := hi.no_writer (.inl hn)
  have hw' : write ∉ read::h := by simpa using hw
  refine hi.update (n := s.lockNum+1) (r := i::s.readers) (fun _ _ => Iff.rfl) ?_ (fun _ => ?_)
    nofun nofun (fun j hj => ?_) ?_ ((settled_iff (by rfl)).mpr ⟨⟨fun h => absurd h hw',trivial⟩,?_⟩)
    (fun j _ => hi.settled j) ⟨by have := hi.range; omega,hb⟩
  · simpa [depth,writes] using hd
  · rw [hi.free rfl,length_cons]
    rfl
  · exact count_cons_of_ne (Ne.symm hj)
  · rw [count_cons_self,hc]
    simp [Thread.counted,hw,reads]
  · exact ⟨fun h => absurd h hw',fun hid => absurd (hiff.mpr hid) hw⟩

theorem Inv.readRelease (hp : s.thread i = ⟨.unreadSub,h⟩) :
    Inv ({ s with lockNum := int32 (s.lockNum - 1), readers := s.readers.erase i }.move i ⟨.idle,h⟩) w := by
  have hs := hi.settled i
  have hc := hi.counted i
  have hd := hi.writer i
  rw [hp] at hs hc hd
  obtain ⟨⟨hb,(hw : write ∉ h)⟩,hiff⟩ := (settled_iff (by rfl)).mp hs
  have hcount : s.readers.count i = h.length+1 := by simpa [Thread.counted,hw,reads] using hc
  have hmem : i ∈ s.readers := count_pos_iff.mp (by omega)
  obtain rfl := hi.no_writer (.inr (ne_nil_of_mem hmem))
  have hlen := length_erase_of_mem hmem
  have hpos := length_pos_of_mem hmem
  have hn := hi.free rfl
  rw [int32_eq (by omega) (by have := hi.range; omega)]
  refine hi.update (n := s.lockNum - 1) (r := s.readers.erase i) (fun _ _ => Iff.rfl) hd (fun _ => ?_)
    nofun nofun (fun j hj => ?_) ?_ ((settled_iff (by rfl)).mpr ⟨⟨hb,trivial⟩,hiff⟩)
    (fun j _ => hi.settled j) ⟨by omega,by have := hi.range; omega⟩
  · omega
  · exact count_erase_of_ne hj
  · rw [count_erase_self,hcount]
    simp [Thread.counted,hw,reads]

theorem Inv.writeNest (hp : s.thread i = ⟨.writeReenter,h⟩) (hb : -2^31 < s.lockNum) :
    Inv ({ s with lockNum := int32 (s.lockNum - 1) }.move i ⟨.idle,.write::h⟩) w := by
  have hs := hi.settled i
  have hc := hi.counted i
  have hd := hi.writer i
  rw [hp] at hs hc hd
  obtain ⟨⟨hbot,(hw : write ∈ h)⟩,hiff⟩ := (settled_iff (by rfl)).mp hs
  have hpos := count_pos_iff.mpr hw
  obtain rfl := hd.mp (lt_of_lt_of_le hpos (Nat.le_add_right _ _))
  obtain ⟨hn,hr⟩ := hi.exclusive i rfl
  rw [hp] at hn
  have hdepth : depth ⟨.idle,.write::h⟩ = depth ⟨.writeReenter,h⟩+1 := by
    simp [depth,writes]
  rw [int32_eq (by omega) (by have := hi.range; omega)]
  refine hi.update (n := s.lockNum - 1) (r := s.readers) (fun _ _ => Iff.rfl) ?_ nofun
    (fun _ => ⟨by omega,hr⟩) (fun j hj he => ?_)
    (fun _ _ => rfl) ?_ ((settled_iff (by rfl)).mpr ⟨⟨fun _ => ?_,trivial⟩,?_⟩)
    (fun j _ => hi.settled j) ⟨by omega,by have := hi.range; omega⟩
  · exact ⟨fun _ => rfl,fun _ => by omega⟩
  · exact absurd (some.inj he) (Ne.symm hj)
  · rw [hc]
    simp [Thread.counted,hw]
  · obtain ⟨g,_,rfl⟩ := exists_cons_of_ne_nil (ne_nil_of_mem hw)
    exact (getLast?_cons_cons ..).trans (hbot hw)
  · exact ⟨fun _ => hiff.mp hw,fun _ => mem_cons_self⟩

theorem Inv.writeAcquire (hp : s.thread i = ⟨.writeExchange,h⟩) (hn : s.lockNum = 0) :
    Inv ({ s with lockNum := -1 }.move i ⟨.writeStore,h⟩) (some i) := by
  have hs := hi.settled i
  have hc := hi.counted i
  rw [hp] at hs hc
  obtain ⟨⟨hb,(hw : write ∉ h)⟩,hiff⟩ := (settled_iff (by rfl)).mp hs
  obtain rfl := hi.no_writer (.inl (Int.le_of_eq hn.symm))
  have hr : s.readers = [] := eq_nil_of_length_eq_zero (by have := hi.free rfl; omega)
  obtain rfl : h = [] := by
    rw [hr] at hc
    simpa [Thread.counted,hw,reads] using hc.symm
  refine hi.update (n := -1) (r := s.readers) (fun j hj => ?_) ⟨fun _ => rfl,fun _ => Nat.one_pos⟩
    nofun (fun _ => ⟨rfl,hr⟩) (fun j hj he => ?_) (fun _ _ => rfl) hc ⟨⟨nofun,rfl⟩,?_,?_⟩
    (fun j _ => hi.settled j) (by decide)
  · exact ⟨fun he => absurd (some.inj he) (Ne.symm hj),nofun⟩
  · exact absurd (some.inj he) (Ne.symm hj)
  · rintro (hw' | hw') <;> cases hw'
  · exact fun hid => absurd (hiff.mpr hid) hw

theorem Inv.is_writer (hp : s.thread i = ⟨p,h⟩) (hw : p.writes = 1) :
    w = some i ∧ s.lockNum = -(h.count .write+1 : Int) ∧ s.readers = [] := by
  have hd := hi.writer i
  have he := hi.exclusive i
  rw [hp] at hd he
  have hdepth : depth ⟨p,h⟩ = h.count .write+1 := by rw [depth,hw]
  rw [hdepth] at hd he
  have hwi := hd.mp (Nat.succ_pos _)
  exact ⟨hwi,by simpa using he hwi⟩

theorem Inv.writeStore (hp : s.thread i = ⟨.writeStore,h⟩) :
    Inv ({ s with writeThreadId := some i }.move i ⟨.writeUnwait,h⟩) w := by
  have hs := hi.settled i
  have hc := hi.counted i
  have hd := hi.writer i
  have he := hi.exclusive i
  rw [hp] at hs hc hd he
  obtain ⟨rfl,_,_⟩ := hi.is_writer hp rfl
  refine hi.update (fun _ _ => Iff.rfl) hd nofun he (fun _ _ _ => ⟨rfl,rfl⟩) (fun _ _ => rfl) hc
    ⟨hs.ok,fun _ => rfl,fun _ => .inl (.inr rfl)⟩ (fun j hj => ⟨(hi.settled j).ok,?_,?_⟩) hi.range
  · exact fun ho => absurd ((hi.writer j).mp ho.depth_pos) fun h => hj (some.inj h).symm
  · exact fun h => absurd (some.inj h) (Ne.symm hj)

theorem Inv.writeRelease (hp : s.thread i = ⟨.unwriteAdd,h⟩) :
    ∃ w', Inv ({ s with lockNum := int32 (s.lockNum+1) }.move i
      ⟨if s.lockNum = -1 then .unwriteReset else .idle,h⟩) w' := by
  have hs := hi.settled i
  have hc := hi.counted i
  rw [hp] at hs hc
  obtain ⟨rfl,hn,hr⟩ := hi.is_writer hp rfl
  rw [int32_eq (by have := hi.range; omega) (by omega)]
  have other : ∀ j, j ≠ i → ¬ some i = some j := fun j hj he => hj (some.inj he).symm
  by_cases hw : .write ∈ h
  · have hpos := count_pos_iff.mpr hw
    refine ⟨some i,?_⟩
    rw [if_neg (by omega)]
    refine hi.update (n := s.lockNum+1) (r := s.readers) (fun _ _ => Iff.rfl)
      ⟨fun _ => rfl,fun _ => hpos⟩ nofun (fun _ => ⟨?_,hr⟩) (fun j hj he => absurd he (other j hj))
      (fun _ _ => rfl) ?_ ((settled_iff (by rfl)).mpr ⟨⟨hs.ok.1,trivial⟩,?_⟩)
      (fun j _ => hi.settled j) (by have := hi.range; omega)
    · simp [depth,writes]
      omega
    · rw [hc]
      simp [Thread.counted,hw]
    · exact ⟨fun _ => hs.stored (.inl hw),fun _ => hw⟩
  · obtain rfl : h = [] := hs.ok.2 hw
    refine ⟨none,?_⟩
    have hn : s.lockNum = -1 := by simpa using hn
    rw [if_pos hn]
    refine hi.update (n := s.lockNum+1) (r := s.readers) (fun j hj => ?_) ⟨nofun,nofun⟩
      (fun _ => ?_) nofun nofun (fun _ _ => rfl) hc ⟨⟨nofun,rfl⟩,?_,fun _ => .inr (.inr rfl)⟩
      (fun j _ => hi.settled j) (by omega)
    · exact ⟨nofun,fun he => absurd he (other j hj)⟩
    · rw [hr,hn]
      rfl
    · rintro (hw' | hw') <;> cases hw'

theorem Inv.reset (hp : s.thread i = ⟨.unwriteReset,h⟩) (ho : ∀ j, j ≠ i → ¬ (s.thread j).Owner) :
    Inv ({ s with writeThreadId := none }.move i ⟨.idle,h⟩) w := by
  have hs := hi.settled i
  have hc := hi.counted i
  have hd := hi.writer i
  have he := hi.exclusive i
  rw [hp] at hs hc hd he
  obtain rfl : h = [] := hs.ok.2
  exact hi.update (fun _ _ => Iff.rfl) hd hi.free he (fun _ _ _ => ⟨rfl,rfl⟩) (fun _ _ => rfl) hc
    ((settled_iff (by rfl)).mpr ⟨⟨nofun,trivial⟩,nofun,nofun⟩)
    (fun j hj => ⟨(hi.settled j).ok,fun h => absurd h (ho j hj),nofun⟩) hi.range

theorem moves_inv (h : Moves s i t) (hr : (s.thread i).pc = .unwriteReset → ∀ j, j ≠ i → ¬ (s.thread j).Owner)
    (hn : (s.thread i).pc = .writeReenter → -2^31 < s.lockNum) : ∃ w', Inv t w' := by
  cases h with
  | quiet _ _ hq => exact ⟨w,hi.quiet hq⟩
  | readAcquire _ hp hb => exact ⟨w,hi.readAcquire hp hb⟩
  | writeNest _ hp => exact ⟨w,hi.writeNest hp (hn (by rw [hp]))⟩
  | writeAcquire _ hp h0 => exact ⟨some i,hi.writeAcquire hp h0⟩
  | writeStore _ hp => exact ⟨w,hi.writeStore hp⟩
  | readRelease _ hp => exact ⟨w,hi.readRelease hp⟩
  | writeRelease _ hp => exact hi.writeRelease hp
  | reset _ hp => exact ⟨w,hi.reset hp (hr (by rw [hp]))⟩

end

theorem undisturbed_inv {writeFirst : Bool}
    (h : (system ι writeFirst).ReachableWhile Undisturbed s) : ∃ w, Inv s w := by
  apply h.invariant
  · rintro _ rfl
    exact ⟨none,init_inv⟩
  · rintro s e t ⟨w,hi⟩ ⟨hr,hn⟩ he
    exact moves_inv hi (step_moves he) hr hn

/-- In a run without a disturbing reset the stored id is that of the thread that holds a write guard, and its nested
calls return without waiting. -/
theorem writer_is_stored {writeFirst : Bool} {s : State ι} {i : ι}
    (h : (system ι writeFirst).ReachableWhile Undisturbed s) (hw : .write ∈ (s.thread i).held) :
    s.writeThreadId = some i ∧
    ((s.thread i).pc = .readCheck →
      s.step writeFirst (i, .advance) = some (s.move i ⟨.idle,.read::(s.thread i).held⟩)) ∧
    ((s.thread i).pc = .writeCheck →
      s.step writeFirst (i, .advance) = some (s.move i ⟨.writeReenter,(s.thread i).held⟩)) ∧
    ((s.thread i).pc = .writeReenter → s.step writeFirst (i, .advance) =
      some ({ s with lockNum := int32 (s.lockNum - 1) }.move i ⟨.idle,.write::(s.thread i).held⟩)) := by
  obtain ⟨w,hi⟩ := undisturbed_inv h
  have hid := (hi.settled i).stored (.inl hw)
  cases ht : s.thread i with
  | mk =>
    refine ⟨hid,?_,?_,?_⟩ <;> rintro rfl <;> simp [State.step,State.advance,ht,hid]

instance (t : Thread) : Decidable t.Owner := inferInstanceAs (Decidable (_ ∨ _))

instance (s : State Bool) (e : Bool × Act) : Decidable (Undisturbed s e) := inferInstanceAs (Decidable (_ ∧ _))

/-- A thread takes the write lock and calls `ReadLock` and `WriteLock` on top of it. -/
theorem writer_is_stored_nested : ∃ s, (system Bool true).ReachableWhile Undisturbed s ∧
      (s.thread true).held = [.write,.read,.write] ∧ s.writeThreadId = some true := by
  obtain ⟨s,hs,hp⟩ := System.reachableWhile_of_exec (system Bool true) Undisturbed
    [(true, .writeLock),(true, .advance),(true, .advance),(true, .advance),(true, .advance),
     (true, .advance),(true, .readLock),(true, .advance),(true, .writeLock),(true, .advance),
     (true, .advance)]
    (fun s => (s.thread true).held = [.write,.read,.write]) rfl (by decide +kernel)
  have hh := of_decide_eq_true hp
  exact ⟨s,hs,hh,(writer_is_stored hs (by rw [hh]; simp)).1⟩

/-- A thread releases the write lock, another one takes it and stores its id, and only then
the first one resets the stored id. -/
theorem late_reset : ∃ s, (system Bool true).Reachable s ∧
    s.thread false = ⟨.idle,[.write]⟩ ∧ s.writeThreadId = none := by
  obtain ⟨s,hs,hp⟩ := System.reachable_of_exec (system Bool true)
    [(true, .writeLock),(true, .advance),(true, .advance),(true, .advance),(true, .advance),
     (true, .advance),(true, .unlock),(true, .advance),
     (false, .writeLock),(false, .advance),(false, .advance),(false, .advance),(false, .advance),
     (false, .advance),(true, .advance)]
    (fun s => decide (s.thread false = ⟨.idle,[.write]⟩ ∧ s.writeThreadId = none)) rfl
    (by decide +kernel)
  exact ⟨s,hs,of_decide_eq_true hp⟩

end Apollo.Cyber.Base.ReentrantRWLock
