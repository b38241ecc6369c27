import Apollo.Foundation.Transition
import Apollo.Foundation.Ring
import Mathlib.Algebra.Order.Ring.Nat
import Mathlib.Data.List.Infix

/-! The ring of `BoundedQueue<T>`, one event per atomic load, compare-exchange or slot access. Any number of threads
run `Enqueue` and `Dequeue`; the two `Enqueue` overloads have the same body. Waiting and notification do not touch the
ring. The three counters only grow, so an exchange that succeeds proves that its counter has not moved since it was
sampled. They are numbers without bound; those of the source are the same until one reaches `2^64`. -/
namespace Apollo.Cyber.Base.BoundedQueue
open Foundation Option Function Nat

/-- Where a thread stands. The first group is `Enqueue`, the second `Dequeue`. -/
inductive Pc (α : Type)
  | idle
  | loadTail (element : α)
  | loadHead (element : α) (oldTail : Nat)
  | exchangeTail (element : α) (oldTail : Nat)
  | write (element : α) (oldTail : Nat)
  | exchangeCommit (element : α) (oldTail : Nat)
  | enqueued (result : Bool)
  | loadOldHead
  | loadCommit (oldHead : Nat)
  | read (oldHead : Nat)
  | exchangeHead (oldHead : Nat) (element : α)
  | dequeued (result : Option α)

def Pc.ready {α : Type} : Pc α → Bool
  | .idle | .enqueued _ | .dequeued _ => true
  | _ => false

/-- The queue's fields and every thread's program point. `committed` and `taken`
log the elements in the order of the successful exchanges of `commit_` and `head_`. -/
structure State (ι α : Type) where
  head : Nat
  tail : Nat
  commit : Nat
  poolSize : Nat
  pool : Nat → α
  pc : ι → Pc α
  committed : List α
  taken : List α

/-- A call, the next atomic action of a call, or a spurious failure of a weak exchange. -/
inductive Act (α : Type)
  | enqueue (element : α)
  | dequeue
  | advance
  | spurious

variable {ι α : Type} [DecidableEq ι]

/-- `Init`: head and tail each occupy a space; the size is a 64-bit sum. -/
def init (size : UInt64) (pool : Nat → α) : State ι α where
  head := 0
  tail := 1
  commit := 1
  poolSize := (size+2).toNat
  pool := pool
  pc _ := .idle
  committed := []
  taken := []

/-- `GetIndex`; the quotient by an empty pool traps. -/
def getIndex (poolSize num : Nat) : Option Nat :=
  if poolSize = 0 then none else some (num - num/poolSize*poolSize)

namespace State

def goto (s : State ι α) (i : ι) (p : Pc α) : State ι α :=
  { s with pc := update s.pc i p }

/-- The next atomic action of the call thread `i` is executing. -/
def advance (s : State ι α) (i : ι) : Option (State ι α) :=
  match s.pc i with
  | .loadTail x => some (s.goto i (.loadHead x s.tail))
  | .loadHead x oldTail => do
      let new ← getIndex s.poolSize (oldTail+1)
      let old ← getIndex s.poolSize s.head
      some (s.goto i (if new = old then .enqueued false else .exchangeTail x oldTail))
  | .exchangeTail x oldTail =>
      if s.tail = oldTail then
        some ({ s with tail := oldTail+1 }.goto i (.write x oldTail))
      else some (s.goto i (.loadHead x s.tail))
  | .write x oldTail => do
      let k ← getIndex s.poolSize oldTail
      some ({ s with pool := update s.pool k x }.goto i (.exchangeCommit x oldTail))
  | .exchangeCommit x oldTail =>
      if s.commit = oldTail then
        some ({ s with commit := oldTail+1, committed := s.committed ++ [x] }.goto i (.enqueued true))
      else some s
  | .loadOldHead => some (s.goto i (.loadCommit s.head))
  | .loadCommit oldHead =>
      some (s.goto i (if oldHead+1 = s.commit then .dequeued none else .read oldHead))
  | .read oldHead => do
      let k ← getIndex s.poolSize (oldHead+1)
      some (s.goto i (.exchangeHead oldHead (s.pool k)))
  | .exchangeHead oldHead x =>
      if s.head = oldHead then
        some ({ s with head := oldHead+1, taken := s.taken ++ [x] }.goto i (.dequeued (some x)))
      else some (s.goto i (.loadCommit s.head))
  | _ => none

/-- A weak exchange may fail although the values agree; it reloads the expected value. -/
def spurious (s : State ι α) (i : ι) : Option (State ι α) :=
  match s.pc i with
  | .exchangeTail x _ => some (s.goto i (.loadHead x s.tail))
  | .exchangeCommit _ _ => some s
  | .exchangeHead _ _ => some (s.goto i (.loadCommit s.head))
  | _ => none

def step (s : State ι α) (e : ι × Act α) : Option (State ι α) :=
  match e.2 with
  | .enqueue x => if (s.pc e.1).ready then some (s.goto e.1 (.loadTail x)) else none
  | .dequeue => if (s.pc e.1).ready then some (s.goto e.1 .loadOldHead) else none
  | .advance => s.advance e.1
  | .spurious => s.spurious e.1

end State

def system (ι α : Type) [DecidableEq ι] (size : UInt64) : System (State ι α) (ι × Act α) where
  initial s := ∃ pool, s = init size pool
  step := State.step

inductive Moves (s : State ι α) (i : ι) : State ι α → Prop
  | stay : Moves s i s
  | enqueue (x : α) : Moves s i (s.goto i (.loadTail x))
  | dequeue : Moves s i (s.goto i .loadOldHead)
  | sampleTail (x : α) : Moves s i (s.goto i (.loadHead x s.tail))
  | full (x : α) (oldTail : Nat) : s.pc i = .loadHead x oldTail → Moves s i (s.goto i (.enqueued false))
  | vacant (x : α) (oldTail : Nat) : s.pc i = .loadHead x oldTail → s.poolSize ≠ 0 →
      (oldTail+1)%s.poolSize ≠ s.head%s.poolSize →
      Moves s i (s.goto i (.exchangeTail x oldTail))
  | reserve (x : α) (oldTail : Nat) : s.pc i = .exchangeTail x oldTail → s.tail = oldTail →
      Moves s i ({ s with tail := oldTail+1 }.goto i (.write x oldTail))
  | write (x : α) (oldTail : Nat) : s.pc i = .write x oldTail →
      Moves s i ({ s with pool := update s.pool (oldTail%s.poolSize) x }.goto i (.exchangeCommit x oldTail))
  | commit (x : α) (oldTail : Nat) : s.pc i = .exchangeCommit x oldTail → s.commit = oldTail →
      Moves s i ({ s with commit := oldTail+1, committed := s.committed ++ [x] }.goto i (.enqueued true))
  | sampleHead : Moves s i (s.goto i (.loadCommit s.head))
  | empty (oldHead : Nat) : s.pc i = .loadCommit oldHead → oldHead+1 = s.commit →
      Moves s i (s.goto i (.dequeued none))
  | filled (oldHead : Nat) : s.pc i = .loadCommit oldHead → oldHead+1 ≠ s.commit →
      Moves s i (s.goto i (.read oldHead))
  | read (oldHead : Nat) : s.pc i = .read oldHead →
      Moves s i (s.goto i (.exchangeHead oldHead (s.pool ((oldHead+1)%s.poolSize))))
  | take (oldHead : Nat) (x : α) : s.pc i = .exchangeHead oldHead x → s.head = oldHead →
      Moves s i ({ s with head := oldHead+1, taken := s.taken ++ [x] }.goto i (.dequeued (some x)))

variable {poolSize num k : Nat} {s t : State ι α}

theorem getIndex_eq (h : poolSize ≠ 0) (num : Nat) : getIndex poolSize num = some (num%poolSize) := by
  rw [getIndex,if_neg h,mul_comm,← mod_eq_sub]

theorem getIndex_eq_some (h : getIndex poolSize num = some k) : poolSize ≠ 0 ∧ k = num%poolSize := by
  by_cases hp : poolSize = 0
  · simp [getIndex,hp] at h
  · rw [getIndex_eq hp] at h
    exact ⟨hp,(some.inj h).symm⟩

theorem advance_moves {i : ι} (h : s.advance i = some t) : Moves s i t := by
  unfold State.advance at h
  split at h
  case h_1 x _ => cases h; exact .sampleTail x
  case h_2 x oldTail hp =>
    simp only [bind_eq_bind,bind_eq_some_iff,some.injEq] at h
    obtain ⟨a,ha,b,hb,rfl⟩ := h
    obtain ⟨hz,rfl⟩ := getIndex_eq_some ha
    obtain ⟨_,rfl⟩ := getIndex_eq_some hb
    split
    · exact .full x oldTail hp
    · next hne => exact .vacant x oldTail hp hz hne
  case h_3 x oldTail hp =>
    split at h
    · next he => cases h; exact .reserve x oldTail hp he
    · cases h; exact .sampleTail x
  case h_4 x oldTail hp =>
    simp only [bind_eq_bind,bind_eq_some_iff,some.injEq] at h
    obtain ⟨k,hk,rfl⟩ := h
    obtain ⟨_,rfl⟩ := getIndex_eq_some hk
    exact .write x oldTail hp
  case h_5 x oldTail hp =>
    split at h
    · next he => cases h; exact .commit x oldTail hp he
    · cases h; exact .stay
  case h_6 => cases h; exact .sampleHead
  case h_7 oldHead hp =>
    cases h
    split
    · next he => exact .empty oldHead hp he
    · next hne => exact .filled oldHead hp hne
  case h_8 oldHead hp =>
    simp only [bind_eq_bind,bind_eq_some_iff,some.injEq] at h
    obtain ⟨k,hk,rfl⟩ := h
    obtain ⟨_,rfl⟩ := getIndex_eq_some hk
    exact .read oldHead hp
  case h_9 oldHead x hp =>
    split at h
    · next he => cases h; exact .take oldHead x hp he
    · cases h; exact .sampleHead
  case h_10 => cases h

theorem step_moves {e : ι × Act α} (h : s.step e = some t) : Moves s e.1 t := by
  unfold State.step at h
  split at h
  case h_1 x _ => split at h <;> cases h; exact .enqueue x
  case h_2 => split at h <;> cases h; exact .dequeue
  case h_3 => exact advance_moves h
  case h_4 =>
    unfold State.spurious at h
    split at h <;> cases h
    · exact .sampleTail _
    · exact .stay
    · exact .sampleHead

open List State
variable {ι α : Type} {size : Nat} {s t : State ι α}

/-- The ticket an `Enqueue` has reserved and not yet committed. -/
def Pc.ticket : Pc α → Option Nat
  | .write _ k | .exchangeCommit _ k => some k
  | _ => none

def Local (size : Nat) (s : State ι α) : Pc α → Prop
  | .loadHead _ k => k ≤ s.tail
  | .exchangeTail _ k => s.poolSize = size+2 ∧ k ≤ s.tail ∧ (k = s.tail → k ≤ s.head+size)
  | .write _ k => s.poolSize = size+2 ∧ s.commit ≤ k ∧ k < s.tail
  | .exchangeCommit x k =>
      s.poolSize = size+2 ∧ s.commit ≤ k ∧ k < s.tail ∧ s.pool (k%s.poolSize) = x
  | .loadCommit h => h ≤ s.head
  | .read h => h ≤ s.head ∧ (h = s.head → h+1 < s.commit)
  | .exchangeHead h x =>
      h ≤ s.head ∧ (h = s.head → h+1 < s.commit ∧ s.committed[h]? = some x)
  | _ => True

structure Inv (size : Nat) (s : State ι α) : Prop where
  /-- The 64-bit sum of `Init` is exact, or leaves no room for an element. -/
  poolSize : s.poolSize = size+2 ∨ s.poolSize ≤ 1
  head_lt : s.head < s.commit
  commit_le : s.commit ≤ s.tail
  room : s.tail ≤ s.head+size+1
  regular : s.tail ≠ 1 → s.poolSize = size+2
  logged : s.committed.length+1 = s.commit
  taken : s.taken = s.committed.take s.head
  slots : ∀ k, s.head < k → k < s.commit → s.committed[k - 1]? = some (s.pool (k%s.poolSize))
  locals : ∀ i, Local size s (s.pc i)
  tickets : ∀ i j k, (s.pc i).ticket = some k → (s.pc j).ticket = some k → i = j

theorem init_inv (size : UInt64) (pool : Nat → α) : Inv size.toNat (init size pool : State ι α) where
  poolSize := by
    have := size.toNat_lt
    simp only [init,UInt64.toNat_add,UInt64.reduceToNat]
    omega
  head_lt := by simp [init]
  commit_le := by simp [init]
  room := by simp [init]
  regular h := absurd rfl h
  logged := rfl
  taken := rfl
  slots k h1 h2 := by simp only [init] at h1 h2; omega
  locals _ := trivial
  tickets i j k h := by simp [init,Pc.ticket] at h

variable [DecidableEq ι]
variable {i : ι} {x : α} {p : Pc α}

theorem tickets_of_none {pc : ι → Pc α} (h : ∀ j k n, (pc j).ticket = some n → (pc k).ticket = some n → j = k)
    (ht : p.ticket = none) (j k : ι) (n : Nat) (hj : (update pc i p j).ticket = some n)
    (hk : (update pc i p k).ticket = some n) : j = k := by
  simp only [update_apply] at hj hk
  split at hj
  · rw [ht] at hj; cases hj
  · split at hk
    · rw [ht] at hk; cases hk
    · exact h j k n hj hk

section
variable (h : Inv size s)
include h

theorem Inv.goto (i : ι) (hl : Local size s p) (ht : p.ticket = none) : Inv size (s.goto i p) where
  poolSize := h.poolSize
  head_lt := h.head_lt
  commit_le := h.commit_le
  room := h.room
  regular := h.regular
  logged := h.logged
  taken := h.taken
  slots := h.slots
  locals := by
    refine (forall_update_iff s.pc (p := fun _ q => Local size (s.goto i p) q)).mpr ⟨?_,?_⟩
    · cases p <;> exact hl
    · intro j _
      have := h.locals j
      cases hq : s.pc j <;> rw [hq] at this <;> exact this
  tickets := tickets_of_none h.tickets ht

theorem Inv.reserve (hp : s.pc i = .exchangeTail x s.tail) :
    Inv size ({ s with tail := s.tail+1 }.goto i (.write x s.tail)) := by
  have hl := h.locals i
  rw [hp] at hl
  obtain ⟨hreg,_,_⟩ := hl
  have hc := h.commit_le
  have fresh : ∀ j, (s.pc j).ticket ≠ some s.tail := by
    intro j hj
    have := h.locals j
    cases hq : s.pc j <;> rw [hq] at this hj <;> cases hj
    · exact absurd this.2.2 (lt_irrefl _)
    · exact absurd this.2.2.1 (lt_irrefl _)
  refine
    { poolSize := h.poolSize, head_lt := h.head_lt, commit_le := by simp only [State.goto]; omega,
      room := by simp only [State.goto]; omega, regular := fun _ => hreg, logged := h.logged,
      taken := h.taken, slots := h.slots, locals := ?_, tickets := ?_ }
  · refine (forall_update_iff s.pc (p := fun _ q => Local size _ q)).mpr
      ⟨⟨hreg,hc,lt_succ_self _⟩,?_⟩
    intro j _
    have := h.locals j
    cases hq : s.pc j <;> rw [hq] at this <;> simp only [Local,State.goto] at this ⊢ <;>
      first | exact this | omega | exact ⟨this.1,this.2.1,by omega,this.2.2.2⟩
  · intro j k n hj hk
    simp only [State.goto,update_apply] at hj hk
    split at hj
    · next hji =>
      split at hk
      · next hki => rw [hji,hki]
      · cases hj; exact absurd hk (fresh k)
    · split at hk
      · cases hk; exact absurd hj (fresh j)
      · exact h.tickets j k n hj hk

/-- The slot of a ticket is written while no other ticket and no stored element uses it. -/
theorem Inv.write {n : Nat} (hp : s.pc i = .write x n) :
    Inv size ({ s with pool := update s.pool (n%s.poolSize) x }.goto i (.exchangeCommit x n)) := by
  have hl := h.locals i
  rw [hp] at hl
  obtain ⟨hreg,hcn,hnt⟩ := hl
  have hroom := h.room
  have apart : ∀ m, m ≠ n → s.head < m → m < s.tail → m%s.poolSize ≠ n%s.poolSize := by
    intro _ hne _ _
    have := h.head_lt
    rcases lt_or_gt_of_ne hne with hlt | hgt
    · exact Ring.slot_ne hlt (by omega)
    · exact (Ring.slot_ne hgt (by omega)).symm
  have hh := h.head_lt
  refine
    { poolSize := h.poolSize, head_lt := h.head_lt, commit_le := h.commit_le, room := h.room,
      regular := h.regular, logged := h.logged, taken := h.taken, slots := ?_, locals := ?_,
      tickets := ?_ }
  · intro k hk hkc
    simp only [State.goto] at hk hkc ⊢
    rw [update_of_ne (apart k (by omega) hk (by omega))]
    exact h.slots k hk hkc
  · refine (forall_update_iff s.pc (p := fun _ q => Local size _ q)).mpr
      ⟨⟨hreg,hcn,hnt,update_self ..⟩,?_⟩
    intro j hji
    have := h.locals j
    cases hq : s.pc j <;> rw [hq] at this <;> simp only [Local,State.goto] at this ⊢ <;>
      try exact this
    case exchangeCommit m =>
      have hne : m ≠ n := by
        rintro rfl
        exact hji (h.tickets j i m (by rw [hq]; rfl) (by rw [hp]; rfl))
      rw [update_of_ne (apart m hne (by omega) this.2.2.1)]
      exact this
  · intro j k m hj hk
    simp only [State.goto,update_apply] at hj hk
    split at hj
    · next hji =>
      split at hk
      · next hki => rw [hji,hki]
      · cases hj; subst hji; exact h.tickets j k n (by rw [hp]; rfl) hk
    · split at hk
      · next hki => cases hk; subst hki; exact h.tickets j k n hj (by rw [hp]; rfl)
      · exact h.tickets j k m hj hk

/-- The exchange of `commit_` publishes the next element in ticket order. -/
theorem Inv.commit (hp : s.pc i = .exchangeCommit x s.commit) :
    Inv size ({ s with commit := s.commit+1, committed := s.committed ++ [x] }.goto i (.enqueued true)) := by
  have hl := h.locals i
  rw [hp] at hl
  obtain ⟨_,_,_,hx⟩ := hl
  have hlog := h.logged
  have hh := h.head_lt
  refine
    { poolSize := h.poolSize, head_lt := by simp only [State.goto]; omega,
      commit_le := by simp only [State.goto]; omega, room := h.room, regular := h.regular,
      logged := by simp only [State.goto,length_append,length_singleton]; omega,
      taken := ?_, slots := ?_, locals := ?_, tickets := tickets_of_none h.tickets rfl }
  · simp only [State.goto]
    rw [take_append_of_le_length (by omega)]
    exact h.taken
  · intro k hk hkc
    simp only [State.goto] at hk hkc ⊢
    rcases lt_or_ge k s.commit with hlt | _
    · rw [getElem?_append_left (by omega)]
      exact h.slots k hk hlt
    · have : k = s.commit := by omega
      subst this
      rw [getElem?_append_right (by omega),hx]
      simp [show s.commit - 1 - s.committed.length = 0 by omega]
  · refine (forall_update_iff s.pc (p := fun _ q => Local size _ q)).mpr ⟨trivial,?_⟩
    intro j hji
    have := h.locals j
    have distinct : ∀ n, (s.pc j).ticket = some n → n ≠ s.commit := by
      rintro n hn rfl
      exact hji (h.tickets j i _ hn (by rw [hp]; rfl))
    cases hq : s.pc j <;> rw [hq] at this distinct <;>
      simp only [Local,State.goto] at this ⊢ <;> try exact this
    case write y n => have := distinct n rfl; omega
    case exchangeCommit y n =>
      have hne := distinct n rfl
      exact ⟨this.1,by omega,this.2.2⟩
    case read n => exact ⟨this.1,fun he => lt_succ_of_lt (this.2 he)⟩
    case exchangeHead n y =>
      refine ⟨this.1,fun he => ⟨lt_succ_of_lt (this.2 he).1,?_⟩⟩
      rw [getElem?_append_left (by omega)]
      exact (this.2 he).2

theorem Inv.take (hp : s.pc i = .exchangeHead s.head x) :
    Inv size ({ s with head := s.head+1, taken := s.taken ++ [x] }.goto i (.dequeued (some x))) := by
  have hl := h.locals i
  rw [hp] at hl
  obtain ⟨hlt,hx⟩ := hl.2 rfl
  have hroom := h.room
  refine
    { poolSize := h.poolSize, head_lt := hlt, commit_le := h.commit_le,
      room := by simp only [State.goto]; omega, regular := h.regular, logged := h.logged,
      taken := ?_, slots := ?_, locals := ?_, tickets := tickets_of_none h.tickets rfl }
  · simp only [State.goto]
    rw [take_add_one,hx,← h.taken]
    rfl
  · intro k hk hkc
    exact h.slots k (lt_of_succ_lt hk) hkc
  · refine (forall_update_iff s.pc (p := fun _ q => Local size _ q)).mpr ⟨trivial,?_⟩
    intro j _
    have := h.locals j
    cases hq : s.pc j <;> rw [hq] at this <;> simp only [Local,State.goto] at this ⊢ <;>
      first | exact this | omega

theorem moves_inv (hm : Moves s i t) : Inv size t := by
  have hh := h.head_lt
  cases hm with have hl := h.locals i
  | stay => exact h
  | enqueue | dequeue => exact h.goto i trivial rfl
  | sampleTail => exact h.goto i (le_refl _) rfl
  | full => exact h.goto i trivial rfl
  | vacant _ n hp _ hne =>
    rw [hp] at hl
    -- a pool of one slot has a single index, so it always looks full
    have hreg : s.poolSize = size+2 := by
      rcases h.poolSize with hp | hp
      · exact hp
      · rw [show s.poolSize = 1 by omega,mod_one,mod_one] at hne
        exact absurd rfl hne
    refine h.goto i ⟨hreg,hl,fun he => ?_⟩ rfl
    have hroom := h.room
    by_contra hbad
    apply hne
    rw [show n+1 = s.head+s.poolSize by omega,add_mod_right]
  | reserve _ _ hp he => subst he; exact h.reserve hp
  | write _ _ hp => exact h.write hp
  | commit _ _ hp he => subst he; exact h.commit hp
  | sampleHead => exact h.goto i (le_refl _) rfl
  | empty => exact h.goto i trivial rfl
  | filled _ hp =>
    rw [hp] at hl
    exact h.goto i ⟨hl,fun _ => by omega⟩ rfl
  | read n hp =>
    rw [hp] at hl
    refine h.goto i ⟨hl.1,fun he => ⟨hl.2 he,?_⟩⟩ rfl
    exact h.slots (n+1) (by omega) (hl.2 he)
  | take _ _ hp he => subst he; exact h.take hp

end

theorem reachable_inv {size : UInt64} (h : (system ι α size).Reachable s) : Inv size.toNat s :=
  h.invariant (by rintro _ ⟨pool,rfl⟩; exact init_inv size pool)
    fun _ _ _ hs he => moves_inv hs (step_moves he)

/-- The abstract queue: what has been committed and not yet taken. -/
def State.contents (s : State ι α) : List α := s.committed.drop s.head

/-- The dequeued elements are a prefix of the committed ones, and every committed element that was not dequeued is
still in its slot. -/
theorem fifo (size : UInt64) (h : (system ι α size).Reachable s) :
    s.head < s.commit ∧ s.commit ≤ s.tail ∧ s.tail - s.head - 1 ≤ size.toNat ∧
    s.committed.length = s.commit - 1 ∧ s.taken.length = s.head ∧ s.taken <+: s.committed ∧
    ∀ k, s.head < k → k < s.commit → ∃ j, getIndex s.poolSize k = some j ∧ s.committed[k - 1]? = some (s.pool j) := by
  have hi := reachable_inv h
  have hlog := hi.logged
  have hh := hi.head_lt
  have hroom := hi.room
  refine ⟨hi.head_lt,hi.commit_le,by omega,by omega,?_,?_,?_⟩
  · rw [hi.taken,length_take]
    omega
  · rw [hi.taken]
    exact take_prefix _ _
  · intro k hk hkc
    have hc := hi.commit_le
    have hreg := hi.regular (by omega)
    exact ⟨_,getIndex_eq (by omega) k,hi.slots k hk hkc⟩

/-- Two producers race for a ring of two elements while a consumer takes one. -/
theorem fifo_race : ∃ s, (system (Fin 3) Nat 2).Reachable s ∧
    s.taken = [8] ∧ s.committed = [8,7] ∧ s.taken <+: s.committed := by
  obtain ⟨s,hs,hp⟩ := (system (Fin 3) Nat 2).reachable_of_exec
    [(0, .enqueue 7),(1, .enqueue 8),(0, .advance),(1, .advance),(1, .advance),
      (1, .advance),(0, .advance),(0, .advance),(1, .advance),(1, .advance),(2, .dequeue),
      (2, .advance),(2, .advance),(0, .advance),(0, .advance),(0, .advance),(2, .advance),
      (0, .advance),(2, .spurious),(2, .advance),(2, .advance),(2, .advance)]
    (fun s => s.taken == [8] && s.committed == [8,7])
    (show (system (Fin 3) Nat 2).initial (init 2 fun _ => 0) from ⟨_,rfl⟩) (by decide +kernel)
  simp only [Bool.and_eq_true,beq_iff_eq] at hp
  exact ⟨s,hs,hp.1,hp.2,(fifo 2 hs).2.2.2.2.2.1⟩

variable {ι α : Type}

/-- `Size`: the elements that are reserved or committed. -/
def State.held (s : State ι α) : Nat := s.tail - s.head - 1

theorem Inv.held_eq {size : Nat} {s : State ι α} (h : Inv size s) (hsize : s.poolSize = size+2) {oldTail : Nat}
    (htail : oldTail ≤ s.tail) (hhead : s.head ≤ oldTail)
    (hslots : (oldTail+1)%s.poolSize = s.head%s.poolSize) : s.held = size := by
  have hroom := h.room
  have hlap : oldTail+1 = s.head+(size+2) := by
    by_contra hne
    refine Ring.slot_ne (p := s.head) (q := oldTail+1) ?_ ?_ hslots.symm <;> omega
  rw [held]
  omega

variable [DecidableEq ι]

/-- A call of `Enqueue` by thread `i` starts with the step to `started` and returns `result` with the step from
`last`. In between the threads do `events`, and thread `i` makes no other call. -/
structure EnqueueCall (size : UInt64) (i : ι) (x : α) (s started : State ι α) (events : List (ι × Act α))
    (last t : State ι α) (result : Bool) : Prop where
  start : s.step (i, .enqueue x) = some started
  run : (system ι α size).exec started events = some last
  own : ∀ e ∈ events, e.1 = i → e.2 matches .advance | .spurious
  returns : last.step (i, .advance) = some t
  result : t.pc i = .enqueued result

/-- The queue had `size` elements at some moment of the call. -/
def FullDuring (size : UInt64) (started : State ι α) (events : List (ι × Act α)) : Prop :=
  ∃ before s, before <+: events ∧ (system ι α size).exec started before = some s ∧ s.held = size.toNat

variable {size : UInt64} {i : ι} {x : α} {s started last t : State ι α} {events : List (ι × Act α)}

theorem State.goto_pc (s : State ι α) (i : ι) (p : Pc α) : (s.goto i p).pc i = p := Function.update_self ..

theorem slots_eq_of_enqueued_false (h : s.advance i = some t) (hfalse : t.pc i = .enqueued false) :
    ∃ y oldTail, s.pc i = .loadHead y oldTail ∧ (oldTail+1)%s.poolSize = s.head%s.poolSize := by
  unfold advance at h
  split at h
  case h_1 =>
    cases h
    rw [goto_pc] at hfalse
    cases hfalse
  case h_2 y oldTail hp =>
    simp only [bind_eq_bind,bind_eq_some_iff,some.injEq] at h
    obtain ⟨_,hnew,_,hold,rfl⟩ := h
    obtain ⟨-,rfl⟩ := getIndex_eq_some hnew
    obtain ⟨-,rfl⟩ := getIndex_eq_some hold
    rw [goto_pc] at hfalse
    split at hfalse
    · next heq => exact ⟨y,oldTail,hp,heq⟩
    · cases hfalse
  case h_3 =>
    split at h <;> cases h <;> rw [goto_pc] at hfalse <;> cases hfalse
  case h_4 =>
    obtain ⟨k,-,h⟩ := bind_eq_some_iff.mp h
    cases h
    rw [goto_pc] at hfalse
    cases hfalse
  case h_5 hp =>
    split at h <;> cases h
    · rw [goto_pc] at hfalse
      cases hfalse
    · rw [hp] at hfalse
      cases hfalse
  case h_6 =>
    cases h
    rw [goto_pc] at hfalse
    cases hfalse
  case h_7 =>
    cases h
    rw [goto_pc] at hfalse
    split at hfalse <;> cases hfalse
  case h_8 =>
    obtain ⟨k,-,h⟩ := bind_eq_some_iff.mp h
    cases h
    rw [goto_pc] at hfalse
    cases hfalse
  case h_9 =>
    split at h <;> cases h <;> rw [goto_pc] at hfalse <;> cases hfalse
  case h_10 => cases h

theorem poolSize_of_reachable (h : (system ι α size).Reachable s) : s.poolSize = (size+2).toNat := by
  apply h.invariant (P := fun s => s.poolSize = (size+2).toNat)
  · rintro _ ⟨_,rfl⟩
    rfl
  · intro _ _ _ hs he
    have hmoves := step_moves he
    cases hmoves <;> exact hs

theorem call_of_exec (size : UInt64) (pool : Nat → α) (i : ι) (x : α) (events : List (ι × Act α))
    (hown : ∀ e ∈ events, e.1 = i → e.2 matches .advance | .spurious)
    (h : ((system ι α size).exec ((init size pool).goto i (.loadTail x)) (events ++ [(i, .advance)])).any
      (fun t => t.pc i matches .enqueued false)) :
    ∃ last t, EnqueueCall size i x (init size pool) ((init size pool).goto i (.loadTail x)) events last t false := by
  obtain ⟨t,ht,hresult⟩ := (any_eq_true _ _).mp h
  obtain ⟨last,hlast,hreturn⟩ := System.exec_append.mp ht
  obtain ⟨u,hu,hend⟩ := System.exec_cons.mp hreturn
  cases hend
  refine ⟨last,t,rfl,hlast,hown,hu,?_⟩
  cases hp : t.pc i with rw [hp] at hresult
  | enqueued result =>
    cases result with
    | false => rfl
    | true => cases hresult
  | _ =>
    cases hresult

/-- A call that returns `false` while the head has not passed the tail that it has read found the queue full. No counter
has wrapped at its end: the tail is the largest. -/
theorem enqueue_false_full (hsize : size.toNat+2 < 2^64) (_htail : last.tail+1 < 2^64) (h : (system ι α size).Reachable s)
    (hcall : EnqueueCall size i x s started events last t false)
    (hhead : ∀ y oldTail, last.pc i = .loadHead y oldTail → last.head ≤ oldTail) : FullDuring size started events := by
  have hstarted : (system ι α size).Reachable started := h.next (e := (i, .enqueue x)) hcall.start
  have hlast := hstarted.exec hcall.run
  have hinv := reachable_inv hlast
  obtain ⟨y,oldTail,hp,hslots⟩ := slots_eq_of_enqueued_false hcall.returns hcall.result
  have htail : oldTail ≤ last.tail := by
    have hlocal := hinv.locals i
    rwa [hp] at hlocal
  have hpool : last.poolSize = size.toNat+2 := by
    rw [poolSize_of_reachable hlast,UInt64.toNat_add]
    exact mod_eq_of_lt hsize
  exact ⟨events,last,List.prefix_refl _,hcall.run,hinv.held_eq hpool htail (hhead y oldTail hp) hslots⟩

/-- Another thread fills a queue of one element before the tail is read. -/
theorem enqueue_false_full_filled : FullDuring 1 ((init 1 fun _ => 0 : State (Fin 2) Nat).goto 0 (.loadTail 8))
      [(1, .enqueue 7),(1, .advance),(1, .advance),(1, .advance),(1, .advance),(1, .advance),(0, .advance)] := by
  obtain ⟨_,t,hcall⟩ := call_of_exec 1 (fun _ => 0) (0 : Fin 2) 8
    [(1, .enqueue 7),(1, .advance),(1, .advance),(1, .advance),(1, .advance),(1, .advance),(0, .advance)]
    (by decide) (by decide +kernel)
  have hcounters : ((system (Fin 2) Nat 1).exec ((init 1 fun _ => 0 : State (Fin 2) Nat).goto 0 (.loadTail 8))
      [(1, .enqueue 7),(1, .advance),(1, .advance),(1, .advance),(1, .advance),(1, .advance),
        (0, .advance)]).any (fun s => s.head == 0 && s.tail == 2) := by decide +kernel
  rw [hcall.run,any_some,Bool.and_eq_true,beq_iff_eq,beq_iff_eq] at hcounters
  refine enqueue_false_full (by decide) (by omega) (.start ⟨_,rfl⟩) hcall fun _ oldTail _ => ?_
  rw [hcounters.1]
  exact zero_le oldTail

/-- A queue for two elements that never has more than one. The tail is read at the start, then another thread
enqueues and dequeues twice. -/
theorem enqueue_false_not_full : ∃ (started last t : State (Fin 2) Nat) (events : List (Fin 2 × Act Nat)),
      EnqueueCall 2 0 7 (init 2 fun _ => 0) started events last t false ∧
        ∀ before s, before <+: events → (system (Fin 2) Nat 2).exec started before = some s → s.held ≤ 1 := by
  have hreplay (events : List (Fin 2 × Act Nat)) (started : State (Fin 2) Nat)
      (h : events.inits.all fun before => ((system (Fin 2) Nat 2).exec started before).all fun s => s.held ≤ 1)
      (before : List (Fin 2 × Act Nat)) (s : State (Fin 2) Nat) (hbefore : before <+: events)
      (hs : (system (Fin 2) Nat 2).exec started before = some s) : s.held ≤ 1 := by
    have hall := List.all_eq_true.mp h before ((List.mem_inits _ _).mpr hbefore)
    rw [hs,all_some] at hall
    exact of_decide_eq_true hall
  obtain ⟨last,t,hcall⟩ := call_of_exec 2 (fun _ => 0) (0 : Fin 2) 7 [(0, .advance),
      (1, .enqueue 8),(1, .advance),(1, .advance),(1, .advance),(1, .advance),(1, .advance),
      (1, .dequeue),(1, .advance),(1, .advance),(1, .advance),(1, .advance),
      (1, .enqueue 9),(1, .advance),(1, .advance),(1, .advance),(1, .advance),(1, .advance),
      (1, .dequeue),(1, .advance),(1, .advance),(1, .advance),(1, .advance)]
    (by decide) (by decide +kernel)
  exact ⟨_,last,t,_,hcall,hreplay _ _ (by decide +kernel)⟩

inductive Op (α : Type)
  | enqueue (element : α) (result : Bool)
  | dequeue (result : Option α)

/-- The calls and their answers take a queue without concurrency from `q` to `r`. An `Enqueue` may fail at any time, and
leaves the queue as it is. -/
def Replays : List α → List (Op α) → List α → Prop
  | q, [], r => q = r
  | q, .enqueue x true::ops, r => Replays (q ++ [x]) ops r
  | q, .enqueue _ false::ops, r => Replays q ops r
  | q, .dequeue none::ops, r => q = [] ∧ Replays q ops r
  | q, .dequeue (some x)::ops, r => ∃ rest, q = x::rest ∧ Replays rest ops r

/-- The call whose answer a step of its thread decides. What is left of the call is the notification. -/
def decided (before : Pc α) : Pc α → List (Op α)
  | .enqueued result => match before with
    | .loadHead x _ | .exchangeCommit x _ => [.enqueue x result]
    | _ => []
  | .dequeued result => if before.ready then [] else [.dequeue result]
  | _ => []

/-- The calls of a run with their answers, in the order of the steps that decide them. -/
def history : State ι α → List (ι × Act α) → List (Op α)
  | _, [] => []
  | s, e::events => (s.step e).elim [] fun t => decided (s.pc e.1) (t.pc e.1) ++ history t events

theorem decided_self (p : Pc α) : decided p p = [] := by
  unfold decided
  split <;> simp [Pc.ready]

/-- The exchanges of `commit_` and `head_`, and the loads that find nothing or no room, are where the calls take
effect. -/
theorem Inv.replays {size : Nat} {ops : List (Op α)} {r : List α} (h : Inv size s) (hm : Moves s i t)
    (hr : Replays t.contents ops r) : Replays s.contents (decided (s.pc i) (t.pc i) ++ ops) r := by
  have hl := h.locals i
  have hlog := h.logged
  have hh := h.head_lt
  cases hm with
  | stay => rwa [decided_self]
  | commit x _ hp =>
    rw [goto_pc,hp]
    have hc : (s.committed ++ [x]).drop s.head = s.contents ++ [x] := drop_append_of_le_length (by omega)
    change Replays (s.contents ++ [x]) ops r
    rwa [← hc]
  | full x oldTail hp =>
    rw [goto_pc,hp]
    exact hr
  | empty oldHead hp he =>
    rw [hp] at hl ⊢
    rw [goto_pc]
    have hl : oldHead ≤ s.head := hl
    exact ⟨drop_eq_nil_of_le (by omega),hr⟩
  | take oldHead x hp he =>
    rw [hp] at hl ⊢
    rw [goto_pc]
    obtain ⟨hlt,hx⟩ := List.getElem?_eq_some_iff.mp (hl.2 he.symm).2
    exact ⟨s.committed.drop (oldHead+1),by rw [contents,he,drop_eq_getElem_cons hlt,hx],hr⟩
  | _ =>
    rw [goto_pc]
    exact hr

theorem replays_of_exec (h : (system ι α size).Reachable s) (he : (system ι α size).exec s events = some t) :
    Replays s.contents (history s events) t.contents := by
  induction events generalizing s with
  | nil =>
    cases he
    rfl
  | cons e events ih =>
    obtain ⟨u,hu,he⟩ := System.exec_cons.mp he
    have hu : s.step e = some u := hu
    rw [history,hu]
    exact (reachable_inv h).replays (step_moves hu) (ih (h.next hu) he)

/-- The queue is linearizable: in every interleaving, each call has a step of its own that decides its answer, and in
the order of these steps the answers are those of a queue that runs one call after another, and that never has more
than `size` elements. -/
theorem linearizable {pool : Nat → α} (_htail : t.tail+1 < 2^64) (h : (system ι α size).exec (init size pool) events = some t) :
    Replays [] (history (init size pool : State ι α) events) t.contents ∧ t.contents.length ≤ size.toNat := by
  have hstart : (system ι α size).Reachable (init size pool) := .start ⟨pool,rfl⟩
  have hi := reachable_inv (hstart.exec h)
  have hlog := hi.logged
  have hc := hi.commit_le
  have hroom := hi.room
  refine ⟨replays_of_exec hstart h,?_⟩
  rw [contents,length_drop]
  omega

/-- The consumer finds the queue empty and the producer finds no room for a second element. -/
theorem linearizable_full : ∃ t : State (Fin 2) Nat,
    Replays [] [.dequeue none,.enqueue 7 true,.enqueue 8 false,.dequeue (some 7)] t.contents := by
  let run : List (Fin 2 × Act Nat) := [(0, .enqueue 7),(1, .dequeue),(0, .advance),(1, .advance),(1, .advance),
    (1, .dequeue),(1, .advance),(0, .advance),(0, .advance),(0, .advance),(0, .advance),(0, .enqueue 8),(0, .advance),
    (0, .advance),(1, .advance),(1, .advance),(1, .advance)]
  obtain ⟨t,ht,htail⟩ := (any_eq_true _ _).mp
    (by decide +kernel : ((system (Fin 2) Nat 1).exec (init 1 fun _ => 0) run).any (·.tail == 2))
  exact ⟨t,(linearizable (by rw [beq_iff_eq.mp htail]; decide) ht).1⟩

end Apollo.Cyber.Base.BoundedQueue
