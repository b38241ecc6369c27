import Apollo.Foundation.Transition
import Apollo.Foundation.Linked

/-! The free list of `CCObjectPool<T>`: a stack of arena nodes behind one tagged head word. `GetObject` and
`ConstructObject` both pop through `FindFreeHead`, the deleter of the returned pointer runs `ReleaseObject`. The tag
does not wrap: a head word sampled earlier equals the current one only if no exchange succeeded in between. -/
namespace Apollo.Cyber.Base.ObjectPool
open Foundation Function List

/-- The word `free_head_` that is exchanged as a whole. -/
structure Head where
  count : Nat
  node : Option Nat
  deriving DecidableEq

/-- Where a thread stands: the first group is `FindFreeHead`, the second `ReleaseObject`. -/
inductive Pc
  | idle
  | loadFree
  | readNext (oldHead : Head)
  | exchangeFree (oldHead : Head) (node : Nat) (next : Option Nat)
  | loadRelease (node : Nat)
  | linkNode (node : Nat) (oldHead : Head)
  | exchangeRelease (node : Nat) (oldHead : Head)

/-- `held` are the nodes owned by a returned pointer, `releasing` those whose deleter
has started; a node handed out twice would occur twice. -/
structure State (ι : Type) where
  next : Nat → Option Nat
  freeHead : Head
  pc : ι → Pc
  held : List Nat
  releasing : List Nat

/-- A call, the next action of a call, or a spurious failure of a weak exchange. -/
inductive Act
  | getObject
  | releaseObject (node : Nat)
  | advance
  | spurious

/-- The constructor's loop over the zeroed arena, then its last assignment. -/
def arena (capacity : Nat) : Nat → Option Nat :=
  update ((List.range (capacity - 1)).foldl (fun next i => update next i (some (1+i)))
      fun _ => none)
    (capacity - 1) none

variable {ι : Type}

def init (capacity : Nat) : State ι where
  next := arena capacity
  freeHead := ⟨0,some 0⟩
  pc _ := .idle
  held := []
  releasing := []

variable [DecidableEq ι]
namespace State

def goto (s : State ι) (i : ι) (p : Pc) : State ι := { s with pc := update s.pc i p }

def advance (s : State ι) (i : ι) : Option (State ι) :=
  match s.pc i with
  | .loadFree => some (s.goto i (.readNext s.freeHead))
  | .readNext old =>
      match old.node with
      | none => some (s.goto i .idle)
      | some n => some (s.goto i (.exchangeFree old n (s.next n)))
  | .exchangeFree old n next =>
      if s.freeHead = old then
        some ({ s with freeHead := ⟨old.count+1,next⟩, held := n::s.held }.goto i .idle)
      else some (s.goto i (.readNext s.freeHead))
  | .loadRelease n => some (s.goto i (.linkNode n s.freeHead))
  | .linkNode n old =>
      some ({ s with next := update s.next n old.node }.goto i (.exchangeRelease n old))
  | .exchangeRelease n old =>
      if s.freeHead = old then
        some ({ s with freeHead := ⟨old.count+1,some n⟩, releasing := s.releasing.erase n }.goto i .idle)
      else some (s.goto i (.linkNode n s.freeHead))
  | .idle => none

def spurious (s : State ι) (i : ι) : Option (State ι) :=
  match s.pc i with
  | .exchangeFree _ _ _ => some (s.goto i (.readNext s.freeHead))
  | .exchangeRelease n _ => some (s.goto i (.linkNode n s.freeHead))
  | _ => none

/-- `ReleaseObject` is only run by the deleter of a pointer that owns the node. -/
def step (s : State ι) (e : ι × Act) : Option (State ι) :=
  match e.2, s.pc e.1 with
  | .getObject, .idle => some (s.goto e.1 .loadFree)
  | .releaseObject n, .idle =>
      if n ∈ s.held then
        some ({ s with held := s.held.erase n, releasing := n::s.releasing }.goto e.1 (.loadRelease n))
      else none
  | .advance, _ => s.advance e.1
  | .spurious, _ => s.spurious e.1
  | _, _ => none

end State

def system (ι : Type) [DecidableEq ι] (capacity : Nat) : System (State ι) (ι × Act) where
  initial s := s = init capacity
  step := State.step

inductive Moves (s : State ι) (i : ι) : State ι → Prop
  | getObject : Moves s i (s.goto i .loadFree)
  | releaseObject (n : Nat) : n ∈ s.held →
      Moves s i ({ s with held := s.held.erase n, releasing := n::s.releasing }.goto i (.loadRelease n))
  | sampleFree : Moves s i (s.goto i (.readNext s.freeHead))
  | exhausted (old : Head) : s.pc i = .readNext old → old.node = none → Moves s i (s.goto i .idle)
  | readNext (old : Head) (n : Nat) : s.pc i = .readNext old → old.node = some n →
      Moves s i (s.goto i (.exchangeFree old n (s.next n)))
  | pop (n : Nat) (next : Option Nat) : s.pc i = .exchangeFree s.freeHead n next →
      Moves s i ({ s with freeHead := ⟨s.freeHead.count+1,next⟩, held := n::s.held }.goto i .idle)
  | sampleRelease (n : Nat) : (s.pc i = .loadRelease n ∨ ∃ old, s.pc i = .exchangeRelease n old) →
      Moves s i (s.goto i (.linkNode n s.freeHead))
  | linkNode (n : Nat) (old : Head) : s.pc i = .linkNode n old →
      Moves s i ({ s with next := update s.next n old.node }.goto i (.exchangeRelease n old))
  | push (n : Nat) : s.pc i = .exchangeRelease n s.freeHead →
      Moves s i ({ s with freeHead := ⟨s.freeHead.count+1,some n⟩, releasing := s.releasing.erase n }.goto i .idle)

theorem advance_moves {s t : State ι} {i : ι} (h : s.advance i = some t) : Moves s i t := by
  unfold State.advance at h
  split at h
  case h_1 => cases h; exact .sampleFree
  case h_2 old hp =>
    split at h
    · next hn => cases h; exact .exhausted old hp hn
    · next n hn => cases h; exact .readNext old n hp hn
  case h_3 old n next hp =>
    split at h
    · next he => cases h; subst he; exact .pop n next hp
    · cases h; exact .sampleFree
  case h_4 n hp => cases h; exact .sampleRelease n (.inl hp)
  case h_5 n old hp => cases h; exact .linkNode n old hp
  case h_6 n old hp =>
    split at h
    · next he => cases h; subst he; exact .push n hp
    · cases h; exact .sampleRelease n (.inr ⟨old,hp⟩)
  case h_7 => cases h

theorem step_moves {s t : State ι} {e : ι × Act} (h : s.step e = some t) : Moves s e.1 t := by
  unfold State.step at h
  split at h
  case h_1 => cases h; exact .getObject
  case h_2 n _ _ =>
    split at h
    · next hn => cases h; exact .releaseObject n hn
    · cases h
  case h_3 => exact advance_moves h
  case h_4 =>
    unfold State.spurious at h
    split at h
    · cases h; exact .sampleFree
    · next n old hp => cases h; exact .sampleRelease n (.inr ⟨old,hp⟩)
    · cases h
  case h_5 => cases h

variable {ι : Type} {s t : State ι} {capacity : Nat} {free : List Nat}

/-- A head word sampled at some earlier moment. -/
def Sampled (s : State ι) (old : Head) : Prop :=
  old.count ≤ s.freeHead.count ∧ (old.count = s.freeHead.count → old = s.freeHead)

def Local (s : State ι) : Pc → Prop
  | .idle | .loadFree => True
  | .readNext old => Sampled s old
  | .exchangeFree old n next =>
      Sampled s old ∧ old.node = some n ∧ (old = s.freeHead → s.next n = next)
  | .loadRelease n => n ∈ s.releasing
  | .linkNode n old => n ∈ s.releasing ∧ Sampled s old
  | .exchangeRelease n old => n ∈ s.releasing ∧ Sampled s old ∧ s.next n = old.node

def Pc.node : Pc → Option Nat
  | .loadRelease n | .linkNode n _ | .exchangeRelease n _ => some n
  | _ => none

/-- `free` is the chain behind the head word; together with the nodes handed out it is
a rearrangement of the arena. -/
structure Inv (capacity : Nat) (s : State ι) (free : List Nat) : Prop where
  head : s.freeHead.node = free.head?
  linked : Linked s.next free
  partition : (free ++ (s.held ++ s.releasing)).Perm (List.range capacity)
  locals : ∀ i, Local s (s.pc i)
  releasers : ∀ i j n, (s.pc i).node = some n → (s.pc j).node = some n → i = j

theorem Inv.nodup (h : Inv capacity s free) : (free ++ (s.held ++ s.releasing)).Nodup :=
  h.partition.nodup_iff.mpr nodup_range

theorem foldl_next (n j : Nat) : (List.range n).foldl (fun next i => update next i (some (1+i)))
      (fun _ => none) j = if j < n then some (j+1) else none := by
  induction n with
  | zero => rfl
  | succ _ ih =>
    rw [range_succ,foldl_append,foldl_cons,foldl_nil,update_apply]
    split
    · next he => subst he; rw [if_pos (Nat.lt_succ_self j),Nat.add_comm]
    · next hne => rw [ih]; congr 1; rw [eq_iff_iff]; omega

variable {i : ι} {n : Nat} {old : Head} {p : Pc}

theorem arena_eq (h : 1 ≤ capacity) (j : Nat) : arena capacity j = if j+1 < capacity then some (j+1) else none := by
  rw [arena,update_apply]
  split
  · next he => rw [if_neg (by omega)]
  · next hne => rw [foldl_next]; congr 1; rw [eq_iff_iff]; omega

theorem arena_linked (h : 1 ≤ capacity) (n k : Nat) (hk : k+n = capacity) :
    Linked (arena capacity) (List.range' k n) := by
  induction n generalizing k with
  | zero => trivial
  | succ n ih =>
    rw [range'_succ]
    refine ⟨?_,ih (k+1) (by omega)⟩
    rw [arena_eq h]
    cases n with
    | zero => rw [if_neg (by omega)]; rfl
    | succ => rw [if_pos (by omega)]; rfl

theorem init_inv (h : 1 ≤ capacity) : Inv capacity (init capacity : State ι) (List.range capacity) where
  head := by
    obtain ⟨n,rfl⟩ : ∃ n, capacity = n+1 := ⟨capacity - 1,by omega⟩
    rw [range_succ_eq_map]
    rfl
  linked := by
    rw [range_eq_range']
    exact arena_linked h capacity 0 (Nat.zero_add _)
  partition := by simp [init]
  locals _ := trivial
  releasers i j n hi := by simp [init,Pc.node] at hi

theorem sampled_self : Sampled s s.freeHead := ⟨Nat.le_refl _,fun _ => rfl⟩

/-- After a successful exchange every earlier sample is out of date. -/
theorem Sampled.raised (h : Sampled s old) (ht : t.freeHead.count = s.freeHead.count+1) :
    Sampled t old ∧ old ≠ t.freeHead := by
  have hne : old.count ≠ t.freeHead.count := by have := h.1; omega
  refine ⟨⟨by have := h.1; omega,fun he => absurd he hne⟩,?_⟩
  rintro rfl
  exact hne rfl

variable [DecidableEq ι]

theorem releasers_of_none {pc : ι → Pc} (h : ∀ j k n, (pc j).node = some n → (pc k).node = some n → j = k)
    (hp : ∀ n, p.node = some n → (pc i).node = some n) (j k : ι) (n : Nat) (hj : (update pc i p j).node = some n)
    (hk : (update pc i p k).node = some n) : j = k := by
  have back : ∀ m, (update pc i p m).node = some n → (pc m).node = some n := by
    intro _ hm
    rw [update_apply] at hm
    split at hm
    · next he => rw [he]; exact hp n hm
    · exact hm
  exact h j k n (back j hj) (back k hk)

section
variable (h : Inv capacity s free)
include h

theorem Inv.goto (i : ι) (hl : Local s p) (hp : ∀ n, p.node = some n → (s.pc i).node = some n) :
    Inv capacity (s.goto i p) free where
  head := h.head
  linked := h.linked
  partition := h.partition
  locals := by
    refine (forall_update_iff s.pc (p := fun _ q => Local (s.goto i p) q)).mpr ⟨?_,?_⟩
    · cases p <;> exact hl
    · intro j _
      have := h.locals j
      cases hq : s.pc j <;> rw [hq] at this <;> exact this
  releasers := releasers_of_none h.releasers hp

theorem Inv.releaseObject (hn : n ∈ s.held) :
    Inv capacity ({ s with held := s.held.erase n, releasing := n::s.releasing }.goto i (.loadRelease n)) free := by
  have fresh := disjoint_of_nodup_append (List.Nodup.of_append_right h.nodup) hn
  have others : ∀ j, (s.pc j).node ≠ some n := by
    intro j hj
    have := h.locals j
    cases hq : s.pc j <;> rw [hq] at this hj <;> cases hj
    · exact fresh this
    · exact fresh this.1
    · exact fresh this.1
  refine { head := h.head, linked := h.linked, partition := ?_, locals := ?_, releasers := ?_ }
  · refine List.Perm.trans (List.Perm.append_left free ?_) h.partition
    exact perm_middle.trans ((perm_cons_erase hn).symm.append_right s.releasing)
  · refine (forall_update_iff s.pc (p := fun _ q => Local _ q)).mpr ⟨mem_cons_self,?_⟩
    intro j _
    have := h.locals j
    cases hq : s.pc j <;> rw [hq] at this
    case loadRelease m => exact mem_cons_of_mem n this
    case linkNode m old => exact ⟨mem_cons_of_mem n this.1,this.2⟩
    case exchangeRelease m old => exact ⟨mem_cons_of_mem n this.1,this.2⟩
    all_goals exact this
  · intro j k m hj hk
    simp only [State.goto,update_apply] at hj hk
    split at hj
    · next hji =>
      split at hk
      · next hki => rw [hji,hki]
      · cases hj; exact absurd hk (others k)
    · split at hk
      · cases hk; exact absurd hj (others j)
      · exact h.releasers j k m hj hk

/-- The exchange of `FindFreeHead` succeeds only on the current head, whose next pointer
was read after the head and has not changed since. -/
theorem Inv.pop {next : Option Nat} (hp : s.pc i = .exchangeFree s.freeHead n next) :
    Inv capacity ({ s with freeHead := ⟨s.freeHead.count+1,next⟩, held := n::s.held }.goto i .idle) free.tail := by
  have hl := h.locals i
  rw [hp] at hl
  obtain ⟨_,hnode,hnext⟩ := hl
  have hnext := hnext rfl
  rw [h.head] at hnode
  obtain ⟨rest,rfl⟩ : ∃ rest, free = n::rest := by
    cases free with
    | nil => cases hnode
    | cons _ rest => cases hnode; exact ⟨rest,rfl⟩
  refine { head := ?_, linked := h.linked.2, partition := ?_, locals := ?_, releasers := ?_ }
  · exact hnext.symm.trans h.linked.1
  · exact perm_middle.trans h.partition
  · refine (forall_update_iff s.pc (p := fun _ q => Local _ q)).mpr ⟨trivial,?_⟩
    intro j _
    have := h.locals j
    cases hq : s.pc j <;> rw [hq] at this
    case readNext old => exact (this.raised rfl).1
    case exchangeFree old m _ =>
      exact ⟨(this.1.raised rfl).1,this.2.1,fun he => absurd he (this.1.raised rfl).2⟩
    case linkNode m old => exact ⟨this.1,(this.2.raised rfl).1⟩
    case exchangeRelease m old => exact ⟨this.1,(this.2.1.raised rfl).1,this.2.2⟩
    all_goals exact this
  · exact releasers_of_none h.releasers fun m hm => by cases hm

theorem Inv.linkNode (hp : s.pc i = .linkNode n old) :
    Inv capacity ({ s with next := update s.next n old.node }.goto i (.exchangeRelease n old)) free := by
  have hl := h.locals i
  rw [hp] at hl
  have outside : n ∉ free := fun hm =>
    disjoint_of_nodup_append h.nodup hm (mem_append_right _ hl.1)
  refine { head := h.head, linked := h.linked.update_of_notMem outside, partition := h.partition,
           locals := ?_, releasers := ?_ }
  · refine (forall_update_iff s.pc (p := fun _ q => Local _ q)).mpr ⟨⟨hl.1,hl.2,update_self ..⟩,?_⟩
    intro j hji
    have := h.locals j
    cases hq : s.pc j <;> rw [hq] at this
    case exchangeFree old' m next =>
      refine ⟨this.1,this.2.1,fun he => ?_⟩
      have hm : m ∈ free := mem_of_head? (h.head ▸ he ▸ this.2.1)
      have hne : m ≠ n := fun he => outside (he ▸ hm)
      simp only [State.goto,update_of_ne hne]
      exact this.2.2 he
    case exchangeRelease m old' =>
      have hne : m ≠ n := by
        rintro rfl
        exact hji (h.releasers j i m (by rw [hq]; rfl) (by rw [hp]; rfl))
      refine ⟨this.1,this.2.1,?_⟩
      simp only [State.goto,update_of_ne hne]
      exact this.2.2
    all_goals exact this
  · exact releasers_of_none h.releasers fun m hm => by rw [hp]; exact hm

/-- The exchange of `ReleaseObject` succeeds only while the node still points to the head. -/
theorem Inv.push (hp : s.pc i = .exchangeRelease n s.freeHead) :
    Inv capacity ({ s with freeHead := ⟨s.freeHead.count+1,some n⟩,
                           releasing := s.releasing.erase n }.goto i .idle) (n::free) := by
  have hl := h.locals i
  rw [hp] at hl
  obtain ⟨hn,_,hnext⟩ := hl
  refine { head := rfl, linked := ⟨hnext.trans h.head,h.linked⟩, partition := ?_, locals := ?_, releasers := ?_ }
  · refine List.Perm.trans ?_ h.partition
    rw [← append_assoc,← append_assoc]
    exact (perm_middle.symm.trans ((perm_cons_erase hn).symm.append_left _))
  · refine (forall_update_iff s.pc (p := fun _ q => Local _ q)).mpr ⟨trivial,?_⟩
    intro j hji
    have := h.locals j
    have kept : ∀ m, (s.pc j).node = some m → m ∈ s.releasing → m ∈ s.releasing.erase n := by
      intro m hm hmem
      refine (mem_erase_of_ne ?_).mpr hmem
      rintro rfl
      exact hji (h.releasers j i m hm (by rw [hp]; rfl))
    cases hq : s.pc j <;> rw [hq] at this kept
    case readNext old => exact (this.raised rfl).1
    case exchangeFree old m _ =>
      exact ⟨(this.1.raised rfl).1,this.2.1,fun he => absurd he (this.1.raised rfl).2⟩
    case loadRelease m => exact kept m rfl this
    case linkNode m old => exact ⟨kept m rfl this.1,(this.2.raised rfl).1⟩
    case exchangeRelease m old => exact ⟨kept m rfl this.1,(this.2.1.raised rfl).1,this.2.2⟩
    all_goals exact this
  · exact releasers_of_none h.releasers fun m hm => by cases hm

theorem moves_inv (hm : Moves s i t) : ∃ free', Inv capacity t free' := by
  cases hm with
  | getObject => exact ⟨_,h.goto i trivial fun n hn => by cases hn⟩
  | releaseObject _ hn => exact ⟨_,h.releaseObject hn⟩
  | sampleFree => exact ⟨_,h.goto i sampled_self fun n hn => by cases hn⟩
  | exhausted _ _ hn => exact ⟨_,h.goto i trivial fun n hn => by cases hn⟩
  | readNext _ n hp hn =>
    have hl := h.locals i
    rw [hp] at hl
    exact ⟨_,h.goto i ⟨hl,hn,fun _ => rfl⟩ fun n hn => by cases hn⟩
  | pop _ _ hp => exact ⟨_,h.pop hp⟩
  | sampleRelease n hp =>
    have hl := h.locals i
    have hn : n ∈ s.releasing ∧ (s.pc i).node = some n := by
      rcases hp with hp | ⟨old,hp⟩ <;> rw [hp] at hl ⊢
      · exact ⟨hl,rfl⟩
      · exact ⟨hl.1,rfl⟩
    exact ⟨_,h.goto i ⟨hn.1,sampled_self⟩ fun m hm => by cases hm; exact hn.2⟩
  | linkNode _ _ hp => exact ⟨_,h.linkNode hp⟩
  | push _ hp => exact ⟨_,h.push hp⟩

end

/-- The pointers behind the head word form a finite list without duplicates, and free and handed-out nodes together
are exactly the arena. -/
theorem arena_partition (hc : 1 ≤ capacity) (h : (system ι capacity).Reachable s) :
    ∃ free, s.freeHead.node = free.head? ∧ Linked s.next free ∧ free.Nodup ∧
      (s.held ++ s.releasing).Nodup ∧ free.Disjoint (s.held ++ s.releasing) ∧
      ∀ n, n ∈ free ∨ n ∈ s.held ∨ n ∈ s.releasing ↔ n < capacity := by
  obtain ⟨free,hi⟩ := h.invariant (P := fun s => ∃ free, Inv capacity s free) (by rintro _ rfl; exact ⟨_,init_inv hc⟩)
    fun _ _ _ ⟨_,hs⟩ he => moves_inv hs (step_moves he)
  refine ⟨free,hi.head,hi.linked,hi.nodup.of_append_left,hi.nodup.of_append_right,
    disjoint_of_nodup_append hi.nodup,fun n => ?_⟩
  rw [← mem_range,← hi.partition.mem_iff,mem_append,mem_append]

/-- A popped node is released and popped again while another thread still holds the head
word it sampled before: that thread's exchange fails and it starts over. -/
theorem arena_partition_stale_sample : ∃ s, (system (Fin 2) 2).Reachable s ∧
    s.held = [1,0] ∧ (∃ free, s.freeHead.node = free.head? ∧ Linked s.next free ∧
      ∀ n, n ∈ free ∨ n ∈ s.held ∨ n ∈ s.releasing ↔ n < 2) := by
  obtain ⟨s,hs,hp⟩ := (system (Fin 2) 2).reachable_of_exec
    [(0, .getObject),(0, .advance),(0, .advance),(1, .getObject),(1, .advance),
      (1, .advance),(1, .advance),(1, .releaseObject 0),(1, .advance),(1, .advance),
      (1, .advance),(0, .advance),(0, .advance),(0, .advance),(1, .getObject),(1, .advance),
      (1, .advance),(1, .advance)]
    (fun s => s.held == [1,0]) (show (system (Fin 2) 2).initial (init 2) from rfl)
    (by decide +kernel)
  obtain ⟨free,hh,hl,_,_,_,hm⟩ := arena_partition (by decide) hs
  exact ⟨s,hs,by simpa using hp,free,hh,hl,hm⟩

end Apollo.Cyber.Base.ObjectPool
