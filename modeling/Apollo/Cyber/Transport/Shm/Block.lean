import Apollo.Foundation.Transition
import Apollo.Foundation.Word
import Apollo.Cyber.Transport.Shm.ShmConf

/-! The lock words of the blocks of one mapped segment, and the search of
`Segment::GetNextWritableBlockIndex` for a block to write. One event is one atomic
operation of a reader or a writer; only a holder releases. -/
namespace Apollo.Cyber.Transport.Shm.Block
open Foundation List Function ShmConf

def rwLockFree : Int := 0
def writeExclusive : Int := -1
def maxTryLockTimes : Nat := 5

/-- Where a reader or writer stands; the groups are `TryLockForRead`, `TryLockForWrite`,
`GetNextWritableBlockIndex` and the two releases. -/
inductive Pc
  | idle
  | readLoad (block tryTimes : Nat)
  | readExchange (block : Nat) (lockNum : Int) (tryTimes : Nat)
  | writeExchange (block : Nat)
  | loadWroteNum
  | tryBlock (tryIdx : Nat)
  | increaseWroteNum (tryIdx : Nat)
  | releaseWrite (block : Nat)
  | releaseRead (block : Nat)

/-- `readers` and `writers` are the holders of each block, `returned` the results of
`GetNextWritableBlockIndex`, the newest one first. -/
structure State (ι : Type) where
  lockNum : Nat → Int
  wroteNum : Nat
  pc : ι → Pc
  readers : Nat → List ι
  writers : Nat → List ι
  returned : List (ι × Nat)

/-- A call, the next operation of a call, or a spurious failure of a weak exchange. -/
inductive Act
  | tryLockForRead (block : Nat)
  | tryLockForWrite (block : Nat)
  | getNextWritableBlockIndex
  | releaseWriteLock (block : Nat)
  | releaseReadLock (block : Nat)
  | advance
  | spurious

/-- The reduction of `try_idx` at the head of the search loop. -/
def reduce (blockNum tryIdx : Nat) : Nat :=
  if tryIdx ≥ blockNum then tryIdx &&& (blockNum - 1) else tryIdx

variable {ι : Type}

def init : State ι where
  lockNum _ := rwLockFree
  wroteNum := 0
  pc _ := .idle
  readers _ := []
  writers _ := []
  returned := []

variable [DecidableEq ι]
namespace State

def goto (s : State ι) (i : ι) (p : Pc) : State ι := { s with pc := update s.pc i p }

def setLock (s : State ι) (b : Nat) (n : Int) : State ι :=
  { s with lockNum := update s.lockNum b n }

def readFailed (s : State ι) (i : ι) (b tryTimes : Nat) : State ι :=
  if tryTimes+1 = maxTryLockTimes then s.goto i .idle else s.goto i (.readLoad b (tryTimes+1))

def tryNext (blockNum : Nat) (s : State ι) (i : ι) (tryIdx : Nat) : State ι :=
  s.goto i (.tryBlock (reduce blockNum ((tryIdx+1)%2^32)))

def lockWrite (s : State ι) (i : ι) (b : Nat) : State ι :=
  { s with lockNum := update s.lockNum b writeExclusive
           writers := update s.writers b (i::s.writers b) }

def advance (blockNum : Nat) (s : State ι) (i : ι) : Option (State ι) :=
  match s.pc i with
  | .idle => none
  | .readLoad b tryTimes =>
      if s.lockNum b < rwLockFree then some (s.goto i .idle)
      else some (s.goto i (.readExchange b (s.lockNum b) tryTimes))
  | .readExchange b n tryTimes =>
      -- computing `lock_num + 1` is undefined for the largest number
      if n+1 < 2^31 then
        if s.lockNum b = n then
          some ({ s.setLock b (n+1) with
            readers := update s.readers b (i::s.readers b) }.goto i .idle)
        else some (s.readFailed i b tryTimes)
      else none
  | .writeExchange b =>
      if s.lockNum b = rwLockFree then some ((s.lockWrite i b).goto i .idle)
      else some (s.goto i .idle)
  | .loadWroteNum => some (s.goto i (.tryBlock (reduce blockNum s.wroteNum)))
  | .tryBlock idx =>
      if s.lockNum idx = rwLockFree then some ((s.lockWrite i idx).goto i (.increaseWroteNum idx))
      else some (s.tryNext blockNum i idx)
  | .increaseWroteNum idx =>
      some ({ s with wroteNum := (s.wroteNum+1)%2^32
                     returned := (i, idx)::s.returned }.goto i .idle)
  | .releaseWrite b =>
      some ({ s.setLock b (int32 (s.lockNum b+1)) with
        writers := update s.writers b ((s.writers b).erase i) }.goto i .idle)
  | .releaseRead b =>
      some ({ s.setLock b (int32 (s.lockNum b - 1)) with
        readers := update s.readers b ((s.readers b).erase i) }.goto i .idle)

def spurious (blockNum : Nat) (s : State ι) (i : ι) : Option (State ι) :=
  match s.pc i with
  | .readExchange b _ tryTimes => some (s.readFailed i b tryTimes)
  | .writeExchange _ => some (s.goto i .idle)
  | .tryBlock idx => some (s.tryNext blockNum i idx)
  | _ => none

def step (blockNum : Nat) (s : State ι) (e : ι × Act) : Option (State ι) :=
  match e.2, s.pc e.1 with
  | .tryLockForRead b, .idle => some (s.goto e.1 (.readLoad b 0))
  | .tryLockForWrite b, .idle => some (s.goto e.1 (.writeExchange b))
  | .getNextWritableBlockIndex, .idle => some (s.goto e.1 .loadWroteNum)
  | .releaseWriteLock b, .idle =>
      if e.1 ∈ s.writers b then some (s.goto e.1 (.releaseWrite b)) else none
  | .releaseReadLock b, .idle =>
      if e.1 ∈ s.readers b then some (s.goto e.1 (.releaseRead b)) else none
  | .advance, _ => s.advance blockNum e.1
  | .spurious, _ => s.spurious blockNum e.1
  | _, _ => none

end State

/-- The blocks of a segment for messages of the given size, under every interleaving. -/
def system (ι : Type) [DecidableEq ι] (msgSize : Nat) : System (State ι) (ι × Act) where
  initial s := s = init
  step := State.step (update msgSize).blockNum

variable {s t : State ι} {i : ι} {msgSize : Nat}

theorem reduce_lt (msgSize tryIdx : Nat) :
    reduce (update msgSize).blockNum tryIdx < (update msgSize).blockNum := by
  obtain ⟨k,_,hk⟩ := blockNum_pow msgSize
  rw [hk]
  unfold reduce
  split
  · rw [Nat.and_two_pow_sub_one_eq_mod]
    exact Nat.mod_lt _ (Nat.two_pow_pos k)
  · omega

def Local (blockNum : Nat) (s : State ι) (i : ι) : Pc → Prop
  | .readExchange _ n _ => 0 ≤ n
  | .tryBlock idx => idx < blockNum
  | .increaseWroteNum idx => idx < blockNum ∧ i ∈ s.writers idx
  | .releaseWrite b => i ∈ s.writers b
  | .releaseRead b => i ∈ s.readers b
  | _ => True

/-- A lock word counts the readers, or one writer holds the block alone. -/
def Held (lockNum : Int) (readers writers : List ι) : Prop :=
  (writers = [] ∧ lockNum = readers.length) ∨ (∃ i, writers = [i]) ∧ readers = [] ∧ lockNum = -1

structure Inv (blockNum : Nat) (s : State ι) : Prop where
  held : ∀ b, Held (s.lockNum b) (s.readers b) (s.writers b)
  range : ∀ b, s.lockNum b < 2^31
  locals : ∀ i, Local blockNum s i (s.pc i)

inductive Moves (blockNum : Nat) (s : State ι) (i : ι) : State ι → Prop
  | quiet (p : Pc) : Local blockNum s i p → Moves blockNum s i (s.goto i p)
  | readAcquire (b tryTimes : Nat) : s.pc i = .readExchange b (s.lockNum b) tryTimes →
      s.lockNum b+1 < 2^31 →
      Moves blockNum s i ({ s.setLock b (s.lockNum b+1) with
        readers := update s.readers b (i::s.readers b) }.goto i .idle)
  | writeAcquire (b : Nat) (p : Pc) : s.lockNum b = 0 →
      (p = .idle ∨ p = .increaseWroteNum b ∧ s.pc i = .tryBlock b) →
      Moves blockNum s i ((s.lockWrite i b).goto i p)
  | increaseWroteNum (idx : Nat) : s.pc i = .increaseWroteNum idx →
      Moves blockNum s i ({ s with wroteNum := (s.wroteNum+1)%2^32
                                   returned := (i, idx)::s.returned }.goto i .idle)
  | releaseWrite (b : Nat) : s.pc i = .releaseWrite b →
      Moves blockNum s i ({ s.setLock b (int32 (s.lockNum b+1)) with
        writers := update s.writers b ((s.writers b).erase i) }.goto i .idle)
  | releaseRead (b : Nat) : s.pc i = .releaseRead b →
      Moves blockNum s i ({ s.setLock b (int32 (s.lockNum b - 1)) with
        readers := update s.readers b ((s.readers b).erase i) }.goto i .idle)

variable {b tryTimes k idx : Nat} {p : Pc}

theorem readFailed_moves {blockNum : Nat} : Moves blockNum s i (s.readFailed i b tryTimes) := by
  unfold State.readFailed
  split
  · exact .quiet .idle trivial
  · exact .quiet (.readLoad b (tryTimes+1)) trivial

theorem advance_moves (h : s.advance (update msgSize).blockNum i = some t) :
    Moves (update msgSize).blockNum s i t := by
  unfold State.advance at h
  split at h
  case h_1 => cases h
  case h_2 b k hp =>
    split at h
    · cases h; exact .quiet .idle trivial
    · next hn => cases h; exact .quiet (.readExchange b (s.lockNum b) k) (Int.not_lt.mp hn)
  case h_3 b n k hp =>
    split at h
    · next hb =>
      split at h
      · next he => cases h; subst he; exact .readAcquire b k hp hb
      · cases h; exact readFailed_moves
    · cases h
  case h_4 b hp =>
    split at h
    · next he => cases h; exact .writeAcquire b .idle he (.inl rfl)
    · cases h; exact .quiet .idle trivial
  case h_5 hp => cases h; exact .quiet (.tryBlock _) (reduce_lt msgSize s.wroteNum)
  case h_6 idx hp =>
    split at h
    · next he => cases h; exact .writeAcquire idx (.increaseWroteNum idx) he (.inr ⟨rfl,hp⟩)
    · cases h; exact .quiet (.tryBlock _) (reduce_lt msgSize _)
  case h_7 idx hp => cases h; exact .increaseWroteNum idx hp
  case h_8 b hp => cases h; exact .releaseWrite b hp
  case h_9 b hp => cases h; exact .releaseRead b hp

theorem step_moves {e : ι × Act} (h : s.step (update msgSize).blockNum e = some t) :
    Moves (update msgSize).blockNum s e.1 t := by
  unfold State.step at h
  split at h
  case h_1 b _ _ => cases h; exact .quiet (.readLoad b 0) trivial
  case h_2 b _ _ => cases h; exact .quiet (.writeExchange b) trivial
  case h_3 => cases h; exact .quiet .loadWroteNum trivial
  case h_4 b _ _ =>
    split at h
    · next hm => cases h; exact .quiet (.releaseWrite b) hm
    · cases h
  case h_5 b _ _ =>
    split at h
    · next hm => cases h; exact .quiet (.releaseRead b) hm
    · cases h
  case h_6 => exact advance_moves h
  case h_7 =>
    unfold State.spurious at h
    split at h
    case h_1 => cases h; exact readFailed_moves
    case h_2 => cases h; exact .quiet .idle trivial
    case h_3 => cases h; exact .quiet (.tryBlock _) (reduce_lt msgSize _)
    case h_4 => cases h
  case h_8 => cases h

variable {blockNum : Nat}

omit [DecidableEq ι] in
theorem Local.mono (hl : Local blockNum s i p) (hw : ∀ b, i ∈ s.writers b → i ∈ t.writers b)
    (hr : ∀ b, i ∈ s.readers b → i ∈ t.readers b) : Local blockNum t i p := by
  cases p with
  | increaseWroteNum idx => exact ⟨hl.1,hw idx hl.2⟩
  | releaseWrite b => exact hw b hl
  | releaseRead b => exact hr b hl
  | idle | readLoad | readExchange | writeExchange | loadWroteNum | tryBlock => exact hl

theorem Inv.change (hi : Inv blockNum s) {n : Int} {rs ws : List ι} {l : List (ι × Nat)} (held : Held n rs ws)
    (range : n < 2^31) (hr : ∀ j, j ≠ i → j ∈ s.readers b → j ∈ rs) (hw : ∀ j, j ≠ i → j ∈ s.writers b → j ∈ ws)
    (hp : ∀ t : State ι, t.writers = update s.writers b ws → Local blockNum t i p) :
    Inv blockNum { lockNum := update s.lockNum b n, wroteNum := k,
                   pc := update s.pc i p, readers := update s.readers b rs,
                   writers := update s.writers b ws, returned := l } where
  held c := by
    by_cases hc : c = b
    · subst hc
      simpa using held
    · simpa [update_of_ne hc] using hi.held c
  range c := by
    by_cases hc : c = b
    · subst hc
      simpa using range
    · simpa [update_of_ne hc] using hi.range c
  locals := by
    refine (forall_update_iff s.pc (p := fun j q => Local blockNum _ j q)).mpr
      ⟨hp _ rfl,fun j hj => (hi.locals j).mono (fun c hm => ?_) fun c hm => ?_⟩
    · by_cases hc : c = b
      · subst hc
        simpa using hw j hj hm
      · simpa [update_of_ne hc] using hm
    · by_cases hc : c = b
      · subst hc
        simpa using hr j hj hm
      · simpa [update_of_ne hc] using hm

theorem moves_inv (hi : Inv blockNum s) (h : Moves blockNum s i t) : Inv blockNum t := by
  have hl := hi.locals i
  cases h with
  | quiet p hp =>
    refine ⟨hi.held,hi.range,(forall_update_iff s.pc
      (p := fun j q => Local blockNum _ j q)).mpr ⟨?_,fun j _ => ?_⟩⟩
    · exact hp.mono (fun _ h => h) fun _ h => h
    · exact (hi.locals j).mono (fun _ h => h) fun _ h => h
  | readAcquire b _ hp hb =>
    rw [hp] at hl
    have held : Held (s.lockNum b+1) (i::s.readers b) (s.writers b) := by
      rcases hi.held b with ⟨hw,hn⟩ | ⟨_,_,hn⟩
      · exact .inl ⟨hw,by rw [hn,length_cons]; rfl⟩
      · have : 0 ≤ s.lockNum b := hl
        omega
    simpa [State.setLock,State.goto] using hi.change (i := i) (p := .idle) held hb
      (fun _ _ hj => mem_cons_of_mem i hj) (fun _ _ hj => hj) fun _ _ => trivial
  | writeAcquire b p _ hp =>
    obtain ⟨hw,hr⟩ : s.writers b = [] ∧ s.readers b = [] := by
      rcases hi.held b with ⟨hw,hn⟩ | ⟨_,_,hn⟩
      · exact ⟨hw,eq_nil_of_length_eq_zero (by omega)⟩
      · omega
    have held : Held writeExclusive (s.readers b) (i::s.writers b) :=
      .inr ⟨⟨i,by rw [hw]⟩,hr,rfl⟩
    simpa [State.lockWrite,State.goto] using hi.change (i := i) (p := p) held (by decide)
      (fun _ _ hj => hj) (fun _ _ hj => mem_cons_of_mem i hj) fun _ ht => by
        rcases hp with rfl | ⟨rfl,hp⟩
        · trivial
        · rw [hp] at hl
          refine ⟨hl,?_⟩
          rw [ht,update_self]
          exact mem_cons_self
  | increaseWroteNum =>
    refine ⟨hi.held,hi.range,(forall_update_iff s.pc
      (p := fun j q => Local blockNum _ j q)).mpr ⟨trivial,fun j _ => ?_⟩⟩
    exact (hi.locals j).mono (fun _ h => h) fun _ h => h
  | releaseWrite b hp =>
    rw [hp] at hl
    have hl : i ∈ s.writers b := hl
    obtain ⟨hw,hr,hn⟩ : s.writers b = [i] ∧ s.readers b = [] ∧ s.lockNum b = -1 := by
      rcases hi.held b with ⟨hw,_⟩ | ⟨⟨j,hw⟩,hr,hn⟩
      · exact absurd hl (by rw [hw]; simp)
      · obtain rfl : i = j := by simpa [hw] using hl
        exact ⟨hw,hr,hn⟩
    have held : Held (int32 (s.lockNum b+1)) (s.readers b) ((s.writers b).erase i) := by
      rw [hw,hr,hn]
      exact .inl ⟨by simp,rfl⟩
    simpa [State.setLock,State.goto] using hi.change (i := i) (p := .idle) held
      (by rw [hn]; decide) (fun _ _ hj => hj) (fun _ hj hm => (mem_erase_of_ne hj).mpr hm)
      fun _ _ => trivial
  | releaseRead b hp =>
    rw [hp] at hl
    have hl : i ∈ s.readers b := hl
    have hlen := length_erase_of_mem hl
    have hpos := length_pos_of_mem hl
    obtain ⟨hw,hn⟩ : s.writers b = [] ∧ s.lockNum b = (s.readers b).length := by
      rcases hi.held b with h | ⟨_,hr,_⟩
      · exact h
      · exact absurd hl (by rw [hr]; simp)
    have heq : int32 (s.lockNum b - 1) = s.lockNum b - 1 :=
      int32_eq (by omega) (by have := hi.range b; omega)
    have held : Held (int32 (s.lockNum b - 1)) ((s.readers b).erase i) (s.writers b) :=
      .inl ⟨hw,by rw [heq,hlen,hn]; omega⟩
    simpa [State.setLock,State.goto] using hi.change (i := i) (p := .idle) held
      (by rw [heq]; have := hi.range b; omega) (fun _ hj hm => (mem_erase_of_ne hj).mpr hm)
      (fun _ _ hj => hj) fun _ _ => trivial

omit [DecidableEq ι] in
theorem init_inv : Inv blockNum (init : State ι) where
  held _ := .inl ⟨rfl,rfl⟩
  range _ := by simp [init,rwLockFree]
  locals _ := trivial

theorem reachable_inv (h : (system ι msgSize).Reachable s) :
    Inv (update msgSize).blockNum s := by
  apply h.invariant
  · rintro _ rfl
    exact init_inv
  · exact fun _ _ _ hi he => moves_inv hi (step_moves he)

theorem Moves.returned (h : Moves blockNum s i t) (hr : t.returned = (i, idx)::s.returned) :
    s.pc i = .increaseWroteNum idx ∧ t.writers = s.writers ∧ t.readers = s.readers := by
  cases h with
  | increaseWroteNum idx' hp =>
    obtain rfl : idx' = idx := by simpa [State.goto] using hr
    exact ⟨hp,rfl,rfl⟩
  | quiet | readAcquire | writeAcquire | releaseWrite | releaseRead =>
    exact absurd (congrArg List.length hr) (by simp [State.goto,State.setLock,State.lockWrite])

/-- In every reachable state a block has readers or one writer, and its word says which;
an index returned by the search is in range and the block is the caller's alone. -/
theorem lock_exclusive (msgSize : Nat) {s : State ι} (h : (system ι msgSize).Reachable s) :
    (∀ b, (s.writers b).length ≤ 1 ∧ (s.writers b ≠ [] → s.readers b = []) ∧
      (s.lockNum b = -1 ↔ (s.writers b).length = 1) ∧
      (s.lockNum b ≠ -1 → s.lockNum b = (s.readers b).length)) ∧
    ∀ e t idx, (system ι msgSize).step s e = some t → t.returned = (e.1, idx)::s.returned →
      idx < (update msgSize).blockNum ∧ t.writers idx = [e.1] ∧ t.readers idx = [] := by
  have hi := reachable_inv h
  refine ⟨fun b => ?_,fun e _ idx he hr => ?_⟩
  · rcases hi.held b with ⟨hw,hn⟩ | ⟨⟨i,hw⟩,hr,hn⟩
    · rw [hw,hn]
      refine ⟨by simp,fun h => absurd rfl h,⟨fun h => ?_,nofun⟩,fun _ => rfl⟩
      omega
    · rw [hw,hr,hn]
      exact ⟨by simp,fun _ => rfl,⟨fun _ => rfl,fun _ => rfl⟩,fun h => absurd rfl h⟩
  · obtain ⟨hp,hw,hrd⟩ := (step_moves he).returned hr
    have hl := hi.locals e.1
    rw [hp] at hl
    rw [hw,hrd]
    rcases hi.held idx with ⟨hnil,_⟩ | ⟨⟨j,hone⟩,hnone,_⟩
    · exact absurd hl.2 (by rw [hnil]; simp)
    · obtain rfl : e.1 = j := by simpa [hone] using hl.2
      exact ⟨hl.1,hone,hnone⟩

/-- A writer gets block 1 while a reader holds block 0. -/
theorem lock_exclusive_search : ∃ s t : State Bool, (system Bool 0).Reachable s ∧
    (system Bool 0).step s (true, .advance) = some t ∧ t.returned = [(true, 1)] ∧
    s.readers 0 = [false] ∧ t.writers 1 = [true] ∧ t.readers 1 = [] := by
  obtain ⟨s,hs,hp⟩ := System.reachable_of_exec (system Bool 0)
    [(false, .tryLockForRead 0),(false, .advance),(false, .advance),
     (true, .getNextWritableBlockIndex),(true, .advance),(true, .advance),(true, .advance)]
    (fun s => decide (s.returned = [] ∧ s.readers 0 = [false]) &&
      ((system Bool 0).step s (true, .advance)).any fun t => t.returned = [(true, 1)]) rfl
    (by decide +kernel)
  obtain ⟨hd,ht⟩ := Bool.and_eq_true_iff.mp hp
  obtain ⟨hnil,hread⟩ := of_decide_eq_true hd
  obtain ⟨t,ht,hr⟩ := (Option.any_eq_true _ _).mp ht
  have hr := of_decide_eq_true hr
  obtain ⟨_,hw,hrd⟩ := (lock_exclusive 0 hs).2 (true, .advance) t 1 ht (by rw [hr,hnil])
  exact ⟨s,t,hs,ht,hr,hread,hw,hrd⟩

end Apollo.Cyber.Transport.Shm.Block
