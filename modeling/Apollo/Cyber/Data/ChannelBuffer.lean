import Apollo.Foundation.Transition
import Mathlib.Algebra.Order.Ring.Int
import Apollo.Foundation.Fuel
import Apollo.Foundation.Ring

/-! `CacheBuffer<T>`, `ChannelBuffer<T>` and the cursor of a `DataVisitor`. Positions are unsigned 64-bit numbers that
start at 1; `Fill` and `Fetch` run under the buffer's mutex. The stream that a channel buffer carries: its tail counts
the fills, and a visitor's cursor is one past the position it fetched last. -/
namespace Apollo.Cyber.Data
open Foundation Function

/-- `head_` is one position before the oldest element. -/
structure CacheBuffer (α : Type) where
  head : Nat
  tail : Nat
  capacity : Nat
  buffer : Nat → α

namespace CacheBuffer
variable {α : Type}

def ofSize (size : UInt64) (buffer : Nat → α) : CacheBuffer α := ⟨0,0,(size+1).toNat,buffer⟩

/-- The remainder by an empty capacity traps. -/
def getIndex (b : CacheBuffer α) (pos : Nat) : Option Nat :=
  if b.capacity = 0 then none else some (pos%b.capacity)

def elementAt (b : CacheBuffer α) (pos : Nat) : Option α := (b.getIndex pos).map b.buffer

def front (b : CacheBuffer α) : Nat := (b.head+1)%2^64

def size (b : CacheBuffer α) : Nat := (b.tail+2^64 - b.head)%2^64

def empty (b : CacheBuffer α) : Bool := b.tail == 0

def full (b : CacheBuffer α) : Bool := (b.capacity+2^64 - 1)%2^64 == b.size

/-- `Fill` of a buffer without a fusion callback. -/
def fill (b : CacheBuffer α) (value : α) : Option (CacheBuffer α) :=
  if b.full then
    (b.getIndex b.head).map fun i => { b with
      buffer := update b.buffer i value
      head := (b.head+1)%2^64
      tail := (b.tail+1)%2^64 }
  else
    (b.getIndex ((b.tail+1)%2^64)).map fun i => { b with
      buffer := update b.buffer i value
      tail := (b.tail+1)%2^64 }

end CacheBuffer

namespace ChannelBuffer
variable {α : Type}

/-- `Fetch`: the index it leaves behind and the message, if it returns true. -/
def fetch (b : CacheBuffer α) (index : Nat) : Option (Nat × Option α) :=
  if b.empty then some (index, none)
  else if index = 0 then (b.elementAt b.tail).map fun m => (b.tail, some m)
  else if index = (b.tail+1)%2^64 then some (index, none)
  else if index < b.front then (b.elementAt b.tail).map fun m => (b.tail, some m)
  else (b.elementAt index).map fun m => (index, some m)

/-- The loop of `FetchMulti` from an index on. It has no end if the tail is the largest number. -/
def fetchFrom (b : CacheBuffer α) : Nat → Nat → Option (List α)
  | 0, _ => none
  | fuel+1, index =>
    if index ≤ b.tail then
      (b.elementAt index).bind fun m => (fetchFrom b fuel ((index+1)%2^64)).map (m :: ·)
    else some []

/-- `FetchMulti`: the messages it appends, if it returns true. -/
def fetchMulti (b : CacheBuffer α) (fetchSize : UInt64) (fuel : Nat) : Option (Option (List α)) :=
  if b.empty then some none
  else (fetchFrom b fuel ((b.tail+2^64 - min b.size fetchSize.toNat+1)%2^64)).map some

/-- The state of one buffer and of the visitors that read it. `fills` and `fetched` log what
was filled and what each visitor has fetched, with its position. -/
structure State (ι α : Type) where
  buffer : CacheBuffer α
  nextMsgIndex : ι → Nat
  fills : List α
  fetched : ι → List (Nat × α)

inductive Event (ι α : Type)
  | fill (value : α)
  | tryFetch (i : ι)

variable {ι : Type}

def init (size : UInt64) (buffer : Nat → α) : State ι α where
  buffer := .ofSize size buffer
  nextMsgIndex _ := 0
  fills := []
  fetched _ := []

variable [DecidableEq ι]

def State.tryFetch (s : State ι α) (i : ι) : Option (State ι α) :=
  (fetch s.buffer (s.nextMsgIndex i)).map fun
    | (index, some m) => { s with
        nextMsgIndex := update s.nextMsgIndex i ((index+1)%2^64)
        fetched := update s.fetched i (s.fetched i ++ [(index, m)]) }
    | (index, none) => { s with nextMsgIndex := update s.nextMsgIndex i index }

def State.step (s : State ι α) : Event ι α → Option (State ι α)
  | .fill value => (s.buffer.fill value).map fun b => { s with buffer := b, fills := s.fills ++ [value] }
  | .tryFetch i => s.tryFetch i

def system (ι α : Type) [DecidableEq ι] (size : UInt64) : System (State ι α) (Event ι α) where
  initial s := ∃ buffer, s = init size buffer
  step := State.step

open List Option State Nat CacheBuffer
variable {ι α : Type} {s t : State ι α} {size : UInt64} {i : ι}

/-- The position that a fetch returns from a stream of `n` elements, the last `size` of which
are buffered, after `last` was fetched. -/
def nextPosition (size n : Nat) (last : Option Nat) : Option Nat :=
  if n = 0 ∨ last = some n then none
  else match last with
    | none => some n
    | some p => if n < p+1+size then some (p+1) else some n

variable {x : α} {p k n q : Nat}

theorem nextPosition_eq_none {last : Option Nat} (h : nextPosition k n last = none) : n = 0 ∨ last = some n := by
  by_contra hne
  unfold nextPosition at h
  rw [if_neg hne] at h
  cases last with
  | none => cases h
  | some =>
    dsimp only at h
    split at h <;> cases h

def State.last (s : State ι α) (i : ι) : Option Nat := (s.fetched i).getLast?.map Prod.fst

/-- The buffer after fewer than `2 ^ 64` fills. -/
structure Stored (size : UInt64) (s : State ι α) : Prop where
  capacity : s.buffer.capacity = (size+1).toNat
  tail : s.buffer.tail = s.fills.length
  head : s.buffer.head = s.fills.length - size.toNat
  trapped : s.buffer.capacity = 0 → s.fills = []
  holds : Ring.Holds s.buffer.capacity s.buffer.buffer s.fills

/-- A visitor after fewer than `2 ^ 64 - 1` fills. -/
structure Follows (s : State ι α) (i : ι) : Prop where
  cursor : s.nextMsgIndex i = ((s.last i).map (· + 1)).getD 0
  range : ∀ x ∈ s.fetched i, 1 ≤ x.1 ∧ x.1 ≤ s.fills.length
  values : ∀ x ∈ s.fetched i, s.fills[x.1 - 1]? = some x.2
  increasing : (s.fetched i).Pairwise fun x y => x.1 < y.1

theorem Follows.last_le (h : Follows s i) (hq : s.last i = some q) : 1 ≤ q ∧ q ≤ s.fills.length := by
  obtain ⟨x,hx,rfl⟩ := map_eq_some_iff.mp hq
  exact h.range x (mem_of_getLast? hx)

theorem le_getLast {l : List (Nat × α)} (h : l.Pairwise fun x y => x.1 < y.1) {x : Nat × α}
    (hx : x ∈ l) : ∃ y, l.getLast? = some y ∧ x.1 ≤ y.1 := by
  rcases eq_nil_or_concat l with rfl | ⟨l,y,rfl⟩
  · cases hx
  · rw [concat_eq_append] at h hx ⊢
    refine ⟨y,getLast?_concat,?_⟩
    rcases mem_append.mp hx with hx | hx
    · exact ((pairwise_append.mp h).2.2 x hx y mem_cons_self).le
    · rw [mem_singleton.mp hx]

theorem capacity_eq (h : (size+1).toNat ≠ 0) : (size+1).toNat = size.toNat+1 := by
  rw [UInt64.toNat_add] at h ⊢
  have := size.toNat_lt
  rw [UInt64.toNat_one] at h ⊢
  omega

theorem Stored.full (h : Stored size s) (hn : s.fills.length < 2^64) (hc : s.buffer.capacity ≠ 0) :
    s.buffer.full = true ↔ size.toNat ≤ s.fills.length := by
  have hcap := h.capacity ▸ capacity_eq (h.capacity ▸ hc)
  have := size.toNat_lt
  rw [CacheBuffer.full,CacheBuffer.size,h.tail,h.head,hcap,beq_iff_eq]
  omega

theorem fill_eq (h : Stored size s) (hn : s.fills.length+1 < 2^64) (hc : s.buffer.capacity ≠ 0)
    (x : α) : s.buffer.fill x = some { s.buffer with
      head := s.fills.length+1 - size.toNat
      tail := s.fills.length+1
      buffer := update s.buffer.buffer ((s.fills.length+1)%s.buffer.capacity) x } := by
  have hcap := h.capacity ▸ capacity_eq (h.capacity ▸ hc)
  have hfull := h.full (by omega) hc
  rw [fill]
  split
  · next hf =>
    have hle := hfull.mp hf
    have hslot : (s.fills.length - size.toNat)%s.buffer.capacity = (s.fills.length+1)%s.buffer.capacity := by
      rw [show s.fills.length+1 = s.fills.length - size.toNat+s.buffer.capacity by omega,add_mod_right]
    rw [getIndex,if_neg hc,map_some,h.tail,h.head,hslot,
      mod_eq_of_lt hn,mod_eq_of_lt (show s.fills.length - size.toNat+1 < 2^64 by omega),
      Nat.sub_add_comm hle]
  · next hf =>
    have hlt := Nat.lt_of_not_le (hfull.not.mp hf)
    have hhead : s.fills.length+1 - size.toNat = s.buffer.head := by rw [h.head]; omega
    rw [getIndex,if_neg hc,map_some,h.tail,mod_eq_of_lt hn,hhead]

theorem fill_trapped (hc : s.buffer.capacity = 0) (x : α) : s.buffer.fill x = none := by
  rw [fill]
  split <;> rw [getIndex,if_pos hc] <;> rfl

theorem Stored.elementAt (h : Stored size s) (hp : 1 ≤ p) (hle : p ≤ s.fills.length)
    (hlt : s.fills.length < p+(size.toNat+1)) : s.buffer.elementAt p = s.fills[p - 1]? := by
  have hc : s.buffer.capacity ≠ 0 := by
    intro h0
    rw [h.trapped h0,length_nil] at hle
    omega
  have hcap := h.capacity ▸ capacity_eq (h.capacity ▸ hc)
  rw [CacheBuffer.elementAt,CacheBuffer.getIndex,if_neg hc,map_some,h.holds p hp hle (hcap ▸ hlt)]

theorem fetched_eq (h : Stored size s) (hp : 1 ≤ p) (hle : p ≤ s.fills.length)
    (hlt : s.fills.length < p+(size.toNat+1)) : ∃ m, s.fills[p - 1]? = some m ∧
      (s.buffer.elementAt p).map (fun m => (p, some m)) = some (p, some m) := by
  obtain ⟨m,hm⟩ : ∃ m, s.fills[p - 1]? = some m := ⟨_,getElem?_eq_getElem (by omega)⟩
  refine ⟨m,hm,?_⟩
  rw [h.elementAt hp hle hlt,hm,map_some]

theorem Stored.fetchFrom (h : Stored size s) (hn : s.fills.length+1 < 2^64) (hk : k ≤ s.fills.length)
    (hsize : k ≤ size.toNat) :
    Returns (fetchFrom s.buffer · (s.fills.length - k+1)) (s.fills.drop (s.fills.length - k)) := by
  -- the induction is on the positions that are left, the last one of which is the tail
  induction k with
  | zero =>
    refine (returns_const _).succ fun _ => ?_
    rw [ChannelBuffer.fetchFrom,if_neg (by rw [h.tail]; omega),Nat.sub_zero,drop_length]
  | succ k ih =>
    have hlt : s.fills.length - (k+1) < s.fills.length := by omega
    have hnext : s.fills.length - (k+1)+1 = s.fills.length - k := by omega
    have hat := h.elementAt (p := s.fills.length - k) (by omega) (by omega) (by omega)
    rw [← hnext,Nat.add_sub_cancel,getElem?_eq_getElem hlt] at hat
    rw [drop_eq_getElem_cons hlt,hnext]
    refine ((ih (by omega) (by omega)).map _).succ fun _ => ?_
    rw [ChannelBuffer.fetchFrom,if_pos (by rw [h.tail]; omega),← hnext,hat,hnext,mod_eq_of_lt (by omega)]
    rfl

theorem Follows.congr (h : Follows s i) (hc : t.nextMsgIndex i = s.nextMsgIndex i)
    (hf : t.fetched i = s.fetched i) (hp : s.fills <+: t.fills) : Follows t i := by
  obtain ⟨l,hl⟩ := hp
  refine ⟨by rw [hc,last,hf]; exact h.cursor,fun x hx => ?_,fun x hx => ?_,hf ▸ h.increasing⟩
  · have := h.range x (hf ▸ hx)
    rw [← hl,length_append]
    omega
  · have := h.range x (hf ▸ hx)
    rw [← hl,getElem?_append_left (by omega)]
    exact h.values x (hf ▸ hx)

theorem fetch_spec (h : Stored size s) (hn : s.fills.length+1 < 2^64) (hf : Follows s i) :
    (nextPosition size.toNat s.fills.length (s.last i) = none ∧
      fetch s.buffer (s.nextMsgIndex i) = some (s.nextMsgIndex i, none)) ∨
    ∃ p m, nextPosition size.toNat s.fills.length (s.last i) = some p ∧ p ≤ s.fills.length ∧
      (∀ q, s.last i = some q → q < p) ∧ 1 ≤ p ∧
      s.fills[p - 1]? = some m ∧ fetch s.buffer (s.nextMsgIndex i) = some (p, some m) := by
  have hfront : s.buffer.front = s.fills.length - size.toNat+1 := by
    rw [front,h.head,mod_eq_of_lt (by omega)]
  rw [fetch,empty,h.tail,hfront,mod_eq_of_lt hn]
  unfold nextPosition
  by_cases h0 : s.fills.length = 0
  · exact .inl ⟨if_pos (.inl h0),if_pos (by rw [h0]; rfl)⟩
  rw [if_neg (c := _ = true) (by simpa using h0),hf.cursor]
  cases hl : s.last i with
  | none =>
    obtain ⟨m,hm,he⟩ := fetched_eq h (p := s.fills.length) (by omega) (le_refl _) (by omega)
    exact .inr ⟨_,m,by simp [h0],le_refl _,nofun,by omega,hm,(if_pos rfl).trans he⟩
  | some q =>
    have hq := hf.last_le hl
    simp only [map_some,getD_some]
    rw [if_neg (succ_ne_zero q)]
    by_cases hqn : q = s.fills.length
    · exact .inl ⟨if_pos (.inr (by rw [hqn])),if_pos (by rw [hqn])⟩
    right
    have hne : ¬ (s.fills.length = 0 ∨ some q = some s.fills.length) := by simp [h0,hqn]
    rw [if_neg hne,if_neg (c := q+1 = _) (by omega)]
    by_cases hb : s.fills.length < q+1+size.toNat
    · obtain ⟨m,hm,he⟩ := fetched_eq h (p := q+1) (by omega) (by omega) (by omega)
      refine ⟨_,m,if_pos hb,by omega,?_,by omega,hm,(if_neg (by omega)).trans he⟩
      rintro _ ⟨⟩
      exact lt_succ_self q
    · obtain ⟨m,hm,he⟩ := fetched_eq h (p := s.fills.length) (by omega) (le_refl _) (by omega)
      refine ⟨_,m,if_neg hb,le_refl _,?_,by omega,hm,(if_pos (by omega)).trans he⟩
      rintro _ ⟨⟩
      omega

variable [DecidableEq ι] {e : Event ι α}

theorem step_fill (h : Stored size s) (hn : s.fills.length+1 < 2^64) (hs : s.step (.fill x) = some t) :
    Stored size t ∧ t.fills = s.fills ++ [x] ∧ t.nextMsgIndex = s.nextMsgIndex ∧ t.fetched = s.fetched := by
  by_cases hc : s.buffer.capacity = 0
  · rw [step,fill_trapped hc] at hs
    cases hs
  · rw [step,fill_eq h hn hc] at hs
    cases hs
    have hlen : (s.fills ++ [x]).length = s.fills.length+1 := length_append
    refine ⟨⟨h.capacity,hlen.symm,?_,fun h0 => absurd h0 hc,h.holds.push x⟩,rfl,rfl,rfl⟩
    rw [hlen]

/-- The state after visitor `i` has fetched the element at a position. -/
def State.received (s : State ι α) (i : ι) (p : Nat) (m : α) : State ι α :=
  { s with
    nextMsgIndex := update s.nextMsgIndex i (p+1)
    fetched := update s.fetched i (s.fetched i ++ [(p, m)]) }

theorem tryFetch_spec (h : Stored size s) (hn : s.fills.length+1 < 2^64) (hf : Follows s i) :
    (nextPosition size.toNat s.fills.length (s.last i) = none ∧ s.tryFetch i = some s) ∨
    ∃ p m, nextPosition size.toNat s.fills.length (s.last i) = some p ∧ s.fills[p - 1]? = some m ∧
      s.tryFetch i = some (s.received i p m) ∧ Follows (s.received i p m) i := by
  rcases fetch_spec h hn hf with ⟨hnone,he⟩ | ⟨p,m,hsome,hle,hlast,hp,hm,he⟩
  · refine .inl ⟨hnone,?_⟩
    rw [tryFetch,he,map_some]
    dsimp only
    rw [update_eq_self]
  · refine .inr ⟨p,m,hsome,hm,?_,?_⟩
    · rw [tryFetch,he,map_some]
      dsimp only
      rw [mod_eq_of_lt (by omega)]
      rfl
    · have hfetched : (s.received i p m).fetched i = s.fetched i ++ [(p, m)] := update_self ..
      refine ⟨?_,?_,?_,?_⟩
      · rw [last,hfetched,getLast?_concat]
        exact update_self ..
      · rw [hfetched]
        intro x hx
        rcases mem_append.mp hx with hx | hx
        · exact hf.range x hx
        · rw [mem_singleton.mp hx]
          exact ⟨hp,hle⟩
      · rw [hfetched]
        intro x hx
        rcases mem_append.mp hx with hx | hx
        · exact hf.values x hx
        · rw [mem_singleton.mp hx]
          exact hm
      · rw [hfetched,pairwise_append]
        refine ⟨hf.increasing,pairwise_singleton _ _,fun _ hx _ hy => ?_⟩
        rw [mem_singleton.mp hy]
        obtain ⟨z,hz,hxz⟩ := le_getLast hf.increasing hx
        exact lt_of_le_of_lt hxz (hlast z.1 (by rw [last,hz]; rfl))

theorem tryFetch_frame (hs : s.tryFetch i = some t) : t.buffer = s.buffer ∧ t.fills = s.fills ∧
    ∀ j, j ≠ i → t.nextMsgIndex j = s.nextMsgIndex j ∧ t.fetched j = s.fetched j := by
  obtain ⟨⟨_,m⟩,_,rfl⟩ := map_eq_some_iff.mp hs
  cases m with
  | none => exact ⟨rfl,rfl,fun _ hj => ⟨update_of_ne hj ..,rfl⟩⟩
  | some =>
    exact ⟨rfl,rfl,fun _ hj => ⟨update_of_ne hj ..,update_of_ne hj ..⟩⟩

theorem step_fill_fills (hs : s.step (.fill x) = some t) : t.fills = s.fills ++ [x] := by
  rw [step] at hs
  obtain ⟨b,_,rfl⟩ := map_eq_some_iff.mp hs
  rfl

theorem step_fill_length (hs : s.step (.fill x) = some t) : t.fills.length = s.fills.length+1 := by
  rw [step_fill_fills hs]
  exact length_append

theorem step_stored (h : s.fills.length < 2^64 → Stored size s) (hs : s.step e = some t)
    (hn : t.fills.length < 2^64) : Stored size t := by
  cases e with
  | fill =>
    have hlen := step_fill_length hs
    exact (step_fill (h (by omega)) (by omega) hs).1
  | tryFetch =>
    obtain ⟨hb,hf,_⟩ := tryFetch_frame hs
    have h := h (hf ▸ hn)
    exact ⟨hb ▸ h.capacity,by rw [hb,hf]; exact h.tail,by rw [hb,hf]; exact h.head,
      by rw [hb,hf]; exact h.trapped,by rw [hb,hf]; exact h.holds⟩

theorem step_follows (hst : Stored size s) (h : ∀ i, Follows s i) (hs : s.step e = some t)
    (hn : t.fills.length+1 < 2^64) (i : ι) : Follows t i := by
  cases e with
  | fill x =>
    have hlen := step_fill_length hs
    obtain ⟨_,hf,hc,hl⟩ := step_fill hst (by omega) hs
    exact (h i).congr (by rw [hc]) (by rw [hl]) ⟨[x],hf.symm⟩
  | tryFetch j =>
    obtain ⟨_,hf,hframe⟩ := tryFetch_frame hs
    by_cases hj : i = j
    · subst hj
      rcases tryFetch_spec hst (hf ▸ hn) (h i) with ⟨_,he⟩ | ⟨p,m,_,_,he,hfol⟩
      · cases he.symm.trans hs
        exact h i
      · cases he.symm.trans hs
        exact hfol
    · obtain ⟨hc,hl⟩ := hframe i hj
      exact (h i).congr hc hl ⟨[],by rw [hf,append_nil]⟩

theorem reachable_step (h : (system ι α size).Reachable s) (he : s.step e = some t) :
    (system ι α size).Reachable t := h.next he

theorem reachable_stored (h : (system ι α size).Reachable s) :
    (s.fills.length < 2^64 → Stored size s) ∧ (s.fills.length+1 < 2^64 → ∀ i, Follows s i) := by
  apply h.invariant (P := fun s => (s.fills.length < 2^64 → Stored size s) ∧
    (s.fills.length+1 < 2^64 → ∀ i, Follows s i))
  · rintro _ ⟨buffer,rfl⟩
    exact ⟨fun _ => ⟨rfl,rfl,(Nat.zero_sub _).symm,fun _ => rfl,Ring.holds_nil⟩,fun _ _ => ⟨rfl,nofun,nofun,List.Pairwise.nil⟩⟩
  · intro s e t hi (he : s.step e = some t)
    have hle : s.fills.length ≤ t.fills.length := by
      cases e with
      | fill =>
        have := step_fill_length he
        omega
      | tryFetch => rw [(tryFetch_frame he).2.1]
    exact ⟨step_stored hi.1 he,
      fun hn => step_follows (hi.1 (by omega)) (hi.2 (by omega)) he hn⟩

/-- Below `2 ^ 64` fills the last `size` values are at their positions. Below `2 ^ 64 - 1` fills the next fetch of a
visitor returns the next value if that is still buffered, otherwise the newest one. -/
theorem stream (h : (system ι α size).Reachable s) (hn : s.fills.length < 2^64) :
    s.buffer.tail = s.fills.length ∧ s.buffer.size = min size.toNat s.fills.length ∧
    (∀ p ≤ s.fills.length, s.fills.length < p+s.buffer.size → s.buffer.elementAt p = s.fills[p - 1]?) ∧
    (s.fills.length+1 < 2^64 → ∀ i, (s.fetched i).Pairwise (fun x y => x.1 < y.1) ∧
      (∀ x ∈ s.fetched i, s.fills[x.1 - 1]? = some x.2) ∧
      ∃ t, s.step (.tryFetch i) = some t ∧
        match nextPosition size.toNat s.fills.length (s.last i) with
        | none => t.fetched i = s.fetched i
        | some p => ∃ m, s.fills[p - 1]? = some m ∧ t.fetched i = s.fetched i ++ [(p, m)]) := by
  obtain ⟨hst,hfol⟩ := reachable_stored h
  have hst := hst hn
  have hsize : s.buffer.size = min size.toNat s.fills.length := by
    rw [CacheBuffer.size,hst.tail,hst.head]
    omega
  refine ⟨hst.tail,hsize,fun p hp _ => ?_,fun hn' i => ?_⟩
  · exact hst.elementAt (by omega) hp (by omega)
  · have hf := hfol hn' i
    refine ⟨hf.increasing,hf.values,?_⟩
    rcases tryFetch_spec hst hn' hf with ⟨hnone,he⟩ | ⟨p,m,hsome,hm,he,_⟩
    · refine ⟨s,he,?_⟩
      rw [hnone]
    · refine ⟨_,he,?_⟩
      rw [hsome]
      exact ⟨m,hm,update_self ..⟩

/-- Below `2 ^ 64 - 1` fills, `FetchMulti` returns the newest messages in the order of their fills, as many as are
asked for and buffered. -/
theorem fetchMulti_newest (h : (system ι α size).Reachable s) (hn : s.fills.length+1 < 2^64) (fetchSize : UInt64) :
    Returns (fetchMulti s.buffer fetchSize) (if s.fills = [] then none else
      some (s.fills.drop (s.fills.length - min size.toNat fetchSize.toNat))) := by
  have hst := (reachable_stored h).1 (by omega)
  by_cases hnil : s.fills = []
  · rw [if_pos hnil]
    refine ⟨0,fun _ _ => ?_⟩
    rw [fetchMulti,empty,hst.tail,hnil]
    rfl
  · have hpos := length_pos_iff.mpr hnil
    obtain ⟨k,hk⟩ : ∃ k, k = min s.buffer.size fetchSize.toNat := ⟨_,rfl⟩
    have hnum : k = min (min size.toNat s.fills.length) fetchSize.toNat := by
      rw [hk,CacheBuffer.size,hst.tail,hst.head]
      omega
    rw [if_neg hnil,show s.fills.length - min size.toNat fetchSize.toNat = s.fills.length - k by omega]
    have hfrom := (hst.fetchFrom hn (k := k) (by omega) (by omega)).map some
    convert hfrom using 2 with fuel
    rw [fetchMulti,if_neg (by rw [empty,hst.tail,beq_iff_eq]; omega),← hk,hst.tail,
      show (s.fills.length+2^64 - k+1)%2^64 = s.fills.length - k+1 by omega]

theorem fetchMulti_newest_two : ∃ s : State Unit Nat, s.fills = [7,8,9] ∧ Returns (fetchMulti s.buffer 5) (some [8,9]) := by
  obtain ⟨s,hs,hp⟩ := System.reachable_of_exec (system Unit Nat 2) [.fill 7,.fill 8,.fill 9] (·.fills == [7,8,9])
    (s := init 2 fun _ => 0) ⟨_,rfl⟩ (by decide)
  have hfills := eq_of_beq hp
  refine ⟨s,hfills,?_⟩
  simpa [hfills] using fetchMulti_newest hs (by rw [hfills]; decide) 5

/-- Three fills of a buffer of two and a fetch in between. -/
theorem stream_overtaken : ∃ s : State Unit Nat, (system Unit Nat 2).Reachable s ∧
    s.fills = [7,8,9,10] ∧ s.fetched () = [(1, 7)] ∧
    ∃ t, s.step (.tryFetch ()) = some t ∧ t.fetched () = [(1, 7),(4, 10)] := by
  let p : State Unit Nat → Bool := fun s => s.fills = [7,8,9,10] ∧ s.fetched () = [(1, 7)]
  obtain ⟨s,hs,hp⟩ := System.reachable_of_exec (system Unit Nat 2)
    [.fill 7,.tryFetch (),.fill 8,.fill 9,.fill 10] p (s := init 2 fun _ => 0) ⟨_,rfl⟩ (by decide)
  obtain ⟨hfills,hfetched⟩ := of_decide_eq_true hp
  obtain ⟨t,ht,hnext⟩ := ((stream hs (by rw [hfills]; decide)).2.2.2 (by rw [hfills]; decide) ()).2.2
  refine ⟨s,hs,hfills,hfetched,t,ht,?_⟩
  rw [last,hfetched,hfills] at hnext
  obtain ⟨m,hm,he⟩ := hnext
  cases hm
  exact he

theorem exists_fills (n : Nat) (hn : n < 2^64) : ∃ s : State Unit Unit,
    (system Unit Unit 1).Reachable s ∧ s.fills.length = n ∧ s.nextMsgIndex () = 0 ∧
    s.fetched () = [] := by
  induction n with
  | zero => exact ⟨init 1 fun _ => (),.start ⟨_,rfl⟩,rfl,rfl,rfl⟩
  | succ _ ih =>
    obtain ⟨s,hs,hlen,hc,hf⟩ := ih (by omega)
    have hst := (reachable_stored hs).1 (by omega)
    have hcap : s.buffer.capacity ≠ 0 := by
      rw [hst.capacity]
      decide
    obtain ⟨t,ht⟩ : ∃ t, s.step (.fill ()) = some t := by
      rw [step,fill_eq hst (by omega) hcap]
      exact ⟨_,rfl⟩
    obtain ⟨_,hfills,hcur,hfet⟩ := step_fill hst (by omega) ht
    refine ⟨t,reachable_step hs ht,?_,by rw [hcur,hc],by rw [hfet,hf]⟩
    rw [hfills,length_append,hlen,length_singleton]

theorem tryFetch_wraps (hst : Stored size s) (hlen : s.fills.length = 2^64 - 1)
    (hc : s.nextMsgIndex i = 0) : ∃ t m, s.step (.tryFetch i) = some t ∧
      s.fills[s.fills.length - 1]? = some m ∧ t.fills = s.fills ∧ t.nextMsgIndex i = 0 ∧
        t.fetched i = s.fetched i ++ [(2^64 - 1, m)] := by
  obtain ⟨m,hm,he⟩ := fetched_eq hst (p := s.fills.length) (by omega) (le_refl _) (by omega)
  have hne : ¬ s.buffer.empty = true := by
    rw [empty,hst.tail,hlen]
    decide
  have hfetch : fetch s.buffer (s.nextMsgIndex i) = some (s.fills.length, some m) := by
    rw [fetch,if_neg hne,if_pos hc,hst.tail,he]
  rw [step,tryFetch,hfetch]
  refine ⟨_,m,rfl,hm,rfl,?_,?_⟩
  all_goals
    rw [hlen]
    exact update_self ..

/-- After `2 ^ 64 - 1` fills the cursor wraps to zero behind the newest position, which the next
fetch returns once more. -/
theorem cursor_wraps : ∃ s : State Unit Unit, (system Unit Unit 1).Reachable s ∧
    s.fills.length < 2^64 ∧ ¬ (s.fetched ()).Pairwise fun x y => x.1 < y.1 := by
  obtain ⟨s,hs,hlen,hc,hf⟩ := exists_fills (2^64 - 1) (by omega)
  have hst := (reachable_stored hs).1 (by omega)
  obtain ⟨t,m,ht,_,hfills,hc,hf₁⟩ := tryFetch_wraps hst hlen hc
  have ht := reachable_step hs ht
  have hst := (reachable_stored ht).1 (by rw [hfills]; omega)
  obtain ⟨u,_,hu,_,hfills',_,hf₂⟩ := tryFetch_wraps hst (by rw [hfills,hlen]) hc
  refine ⟨u,reachable_step ht hu,by rw [hfills',hfills]; omega,?_⟩
  rw [hf₂,hf₁,hf]
  simp

end ChannelBuffer
end Apollo.Cyber.Data
