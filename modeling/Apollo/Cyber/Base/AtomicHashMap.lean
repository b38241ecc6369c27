import Apollo.Foundation.Transition
import Apollo.Foundation.Linked
import Mathlib.Data.Finset.Basic
import Mathlib.Algebra.Order.Ring.Int

/-! `AtomicHashMap<K, V, TableSize>`: a table of sorted linked lists that only grow. One event is one atomic
operation, the copy made by `Get(K, V *)` or the `delete` of a replaced value; work on objects no other thread can
reach belongs to the event before it. The allocator may return any address that is not in use. The three `Set`
overloads insert a value; the one without argument inserts `V()`. -/
namespace Apollo.Cyber.Base.AtomicHashMap
open Foundation Option Function
variable {ι V : Type}

/-- The locals of `Insert` that survive a failed exchange. -/
structure Insertion (V : Type) where
  key : Int
  value : V
  newEntry : Option Nat
  newValue : Option Nat

/-- Where a thread stands. `prev` is the entry whose next pointer is loaded next. -/
inductive Pc (V : Type)
  | idle
  | has (key : Int) (prev : Nat)
  | get (key : Int) (prev : Nat)
  | getValue (key : Int) (target : Nat)
  | copyValue (key : Int) (val : Nat)
  | insert (op : Insertion V) (prev : Nat)
  | loadValue (op : Insertion V) (target : Nat)
  | exchangeValue (op : Insertion V) (target oldValue : Nat)
  | deleteValue (op : Insertion V) (oldValue : Nat)
  | storeNext (op : Insertion V) (prev : Nat) (target : Option Nat)
  | exchangeNext (op : Insertion V) (prev : Nat) (target : Option Nat)

inductive Call (V : Type)
  | set (key : Int) (value : V)
  | get (key : Int)
  | has (key : Int)

inductive Op (V : Type)
  | set (key : Int) (value : V)
  | get (key : Int) (result : Option V)
  | has (key : Int) (result : Bool)
  deriving DecidableEq

def Op.call : Op V → Call V
  | .set k v => .set k v
  | .get k _ => .get k
  | .has k _ => .has k

/-- The shared memory. `entries` and `values` are the allocated `Entry` and `V` objects. -/
structure Heap (V : Type) where
  next : Nat → Option Nat
  key : Nat → Int
  valuePtr : Nat → Nat
  entries : Finset Nat
  values : Nat → Option V

/-- `history` lists the completed calls in the order in which they return, `writes` the
successful exchanges of `Insert`. -/
structure State (ι V : Type) where
  heap : Heap V
  pc : ι → Pc V
  history : List (Op V)
  writes : List (Int × V)

/-- A call, or its next atomic operation with two addresses the allocator would return. -/
inductive Act (V : Type)
  | call (c : Call V)
  | advance (entry value : Nat)

/-- `key & mode_num_`, where the key is first converted to 64 bits. -/
def index (bits : Nat) (key : Int) : Nat := (key%2^64).toNat &&& (2^bits - 1)

/-- What one turn of the loop in `Find` concludes. -/
inductive Found
  | found (target : Nat)
  | missing (target : Option Nat)
  | onward (target : Nat)

namespace Heap

/-- The table of `2 ^ bits` buckets; the sentinel `head_` of a bucket has its number as
address. -/
def init (bits : Nat) : Heap V where
  next _ := none
  key _ := 0
  valuePtr _ := 0
  entries := Finset.range (2^bits)
  values _ := none

/-- One turn of `Find`: load `prev->next` and compare the key there. -/
def find (m : Heap V) (key : Int) (prev : Nat) : Found :=
  match m.next prev with
  | none => .missing none
  | some target =>
      if m.key target = key then .found target
      else if m.key target > key then .missing (some target)
      else .onward target

def storeNext (m : Heap V) (e : Nat) (target : Option Nat) : Heap V :=
  { m with next := update m.next e target }

def newValue (m : Heap V) (p : Nat) (value : V) : Option (Heap V) :=
  if (m.values p).isNone then some { m with values := update m.values p (some value) }
  else none

def newEntry (m : Heap V) (e p : Nat) (key : Int) (value : V) : Option (Heap V) :=
  if e ∈ m.entries then none
  else (m.newValue p value).map fun m =>
    { m with entries := insert e m.entries, key := update m.key e key,
             valuePtr := update m.valuePtr e p, next := update m.next e none }

def deleteValue (m : Heap V) (p : Nat) : Heap V :=
  { m with values := update m.values p none }

def deleteEntry (m : Heap V) (e : Nat) : Heap V :=
  { m.deleteValue (m.valuePtr e) with entries := m.entries.erase e }

def replace (m : Heap V) (target p : Nat) : Heap V :=
  { m with valuePtr := update m.valuePtr target p }

/-- Delete the value that was replaced and an entry prepared before. -/
def deleteOld (m : Heap V) (old : Nat) (unused : Option Nat) : Heap V :=
  match unused with
  | some e => (m.deleteValue old).deleteEntry e
  | none => m.deleteValue old

/-- Publish `new_entry` behind `prev` and delete a value prepared before. -/
def link (m : Heap V) (prev e : Nat) (unused : Option Nat) : Heap V :=
  let m := m.storeNext prev (some e)
  match unused with
  | some p => m.deleteValue p
  | none => m

end Heap

def init (bits : Nat) : State ι V where
  heap := .init bits
  pc _ := .idle
  history := []
  writes := []

variable [DecidableEq ι]
namespace State

def goto (s : State ι V) (i : ι) (p : Pc V) : State ι V :=
  { s with pc := update s.pc i p }

def put (s : State ι V) (i : ι) (m : Heap V) (p : Pc V) : State ι V :=
  { s with heap := m, pc := update s.pc i p }

def finish (s : State ι V) (i : ι) (m : Heap V) (op : Op V) : State ι V :=
  { s with heap := m, pc := update s.pc i .idle, history := s.history ++ [op] }

/-- The exchange that makes the value of an insertion visible. -/
def write (s : State ι V) (op : Insertion V) : State ι V :=
  { s with writes := s.writes ++ [(op.key, op.value)] }

def advance (bits : Nat) (s : State ι V) (i : ι) (entry value : Nat) : Option (State ι V) :=
  match s.pc i with
  | .idle => none
  | .has key prev =>
      match s.heap.next prev with
      | none => some (s.finish i s.heap (.has key false))
      | some target =>
          if s.heap.key target < key then some (s.goto i (.has key target))
          else some (s.finish i s.heap (.has key (s.heap.key target == key)))
  | .get key prev =>
      match s.heap.find key prev with
      | .found target => some (s.goto i (.getValue key target))
      | .missing _ => some (s.finish i s.heap (.get key none))
      | .onward target => some (s.goto i (.get key target))
  | .getValue key target => some (s.goto i (.copyValue key (s.heap.valuePtr target)))
  | .copyValue key val =>
      -- reading an object that was deleted is undefined
      (s.heap.values val).map fun v => s.finish i s.heap (.get key (some v))
  | .insert op prev =>
      match s.heap.find op.key prev with
      | .found target => some (s.goto i (.loadValue op target))
      | .missing target => some (s.goto i (.storeNext op prev target))
      | .onward target => some (s.goto i (.insert op target))
  | .loadValue op target =>
      match op.newValue with
      | some _ => some (s.goto i (.exchangeValue op target (s.heap.valuePtr target)))
      | none => (s.heap.newValue value op.value).map fun m =>
          s.put i m (.exchangeValue { op with newValue := some value } target (m.valuePtr target))
  | .exchangeValue op target old =>
      op.newValue.bind fun p =>
        if s.heap.valuePtr target = old then
          some ((s.write op).put i (s.heap.replace target p) (.deleteValue { op with newValue := none } old))
        else some (s.goto i (.insert op (index bits op.key)))
  | .deleteValue op old =>
      some (s.finish i (s.heap.deleteOld old op.newEntry) (.set op.key op.value))
  | .storeNext op prev target =>
      match op.newEntry with
      | some e => some (s.put i (s.heap.storeNext e target) (.exchangeNext op prev target))
      | none => (s.heap.newEntry entry value op.key op.value).map fun m =>
          s.put i (m.storeNext entry target) (.exchangeNext { op with newEntry := some entry } prev target)
  | .exchangeNext op prev target =>
      op.newEntry.bind fun e =>
        if s.heap.next prev = target then
          some ((s.write op).finish i (s.heap.link prev e op.newValue) (.set op.key op.value))
        else some (s.goto i (.insert op (index bits op.key)))

def step (bits : Nat) (s : State ι V) (e : ι × Act V) : Option (State ι V) :=
  match e.2, s.pc e.1 with
  | .call (.set k v), .idle => some (s.goto e.1 (.insert ⟨k,v,none,none⟩ (index bits k)))
  | .call (.get k), .idle => some (s.goto e.1 (.get k (index bits k)))
  | .call (.has k), .idle => some (s.goto e.1 (.has k (index bits k)))
  | .advance entry value, _ => s.advance bits e.1 entry value
  | _, _ => none

variable (s : State ι V) (i : ι) (m : Heap V) (p : Pc V) (op : Op V)

@[simp] theorem goto_pc : (s.goto i p).pc i = p := update_self ..

@[simp] theorem put_pc : (s.put i m p).pc i = p := update_self ..

@[simp] theorem finish_pc : (s.finish i m op).pc i = .idle := update_self ..

end State

def system (ι V : Type) [DecidableEq ι] (bits : Nat) : System (State ι V) (ι × Act V) where
  initial s := s = init bits
  step := State.step bits

def Call.start (bits : Nat) : Call V → Pc V
  | .set k v => .insert ⟨k,v,none,none⟩ (index bits k)
  | .get k => .get k (index bits k)
  | .has k => .has k (index bits k)

inductive Moves (bits : Nat) (s : State ι V) (i : ι) : State ι V → Prop
  | call (c : Call V) : s.pc i = .idle → Moves bits s i (s.goto i (c.start bits))
  | hasOnward (k : Int) (prev t : Nat) : s.pc i = .has k prev → s.heap.next prev = some t →
      s.heap.key t < k → Moves bits s i (s.goto i (.has k t))
  | hasDone (k : Int) (prev : Nat) (r : Bool) : s.pc i = .has k prev →
      (∀ t, s.heap.next prev = some t → k ≤ s.heap.key t) →
      (r = true ↔ ∃ t, s.heap.next prev = some t ∧ s.heap.key t = k) →
      Moves bits s i (s.finish i s.heap (.has k r))
  | getFound (k : Int) (prev t : Nat) : s.pc i = .get k prev → s.heap.find k prev = .found t →
      Moves bits s i (s.goto i (.getValue k t))
  | getMissing (k : Int) (prev : Nat) (t : Option Nat) : s.pc i = .get k prev →
      s.heap.find k prev = .missing t → Moves bits s i (s.finish i s.heap (.get k none))
  | getOnward (k : Int) (prev t : Nat) : s.pc i = .get k prev → s.heap.find k prev = .onward t →
      Moves bits s i (s.goto i (.get k t))
  | getValue (k : Int) (t : Nat) : s.pc i = .getValue k t →
      Moves bits s i (s.goto i (.copyValue k (s.heap.valuePtr t)))
  | copyValue (k : Int) (p : Nat) (v : V) : s.pc i = .copyValue k p → s.heap.values p = some v →
      Moves bits s i (s.finish i s.heap (.get k (some v)))
  | insertFound (op : Insertion V) (prev t : Nat) : s.pc i = .insert op prev →
      s.heap.find op.key prev = .found t → Moves bits s i (s.goto i (.loadValue op t))
  | insertMissing (op : Insertion V) (prev : Nat) (t : Option Nat) : s.pc i = .insert op prev →
      s.heap.find op.key prev = .missing t → Moves bits s i (s.goto i (.storeNext op prev t))
  | insertOnward (op : Insertion V) (prev t : Nat) : s.pc i = .insert op prev →
      s.heap.find op.key prev = .onward t → Moves bits s i (s.goto i (.insert op t))
  | loadValue (op : Insertion V) (t p : Nat) : s.pc i = .loadValue op t → op.newValue = some p →
      Moves bits s i (s.goto i (.exchangeValue op t (s.heap.valuePtr t)))
  | allocValue (op : Insertion V) (t p : Nat) (m : Heap V) : s.pc i = .loadValue op t →
      op.newValue = none → s.heap.newValue p op.value = some m →
      Moves bits s i (s.put i m (.exchangeValue { op with newValue := some p } t (m.valuePtr t)))
  | replace (op : Insertion V) (t p : Nat) : s.pc i = .exchangeValue op t (s.heap.valuePtr t) → op.newValue = some p →
      Moves bits s i ((s.write op).put i (s.heap.replace t p)
        (.deleteValue { op with newValue := none } (s.heap.valuePtr t)))
  | deleteValue (op : Insertion V) (old : Nat) : s.pc i = .deleteValue op old →
      Moves bits s i (s.finish i (s.heap.deleteOld old op.newEntry) (.set op.key op.value))
  | retry (op : Insertion V) :
      ((∃ t old, s.pc i = .exchangeValue op t old) ∨ ∃ prev t, s.pc i = .exchangeNext op prev t) →
      Moves bits s i (s.goto i (.insert op (index bits op.key)))
  | storeNext (op : Insertion V) (prev e : Nat) (t : Option Nat) : s.pc i = .storeNext op prev t →
      op.newEntry = some e →
      Moves bits s i (s.put i (s.heap.storeNext e t) (.exchangeNext op prev t))
  | allocEntry (op : Insertion V) (prev e p : Nat) (t : Option Nat) (m : Heap V) :
      s.pc i = .storeNext op prev t → op.newEntry = none →
      s.heap.newEntry e p op.key op.value = some m →
      Moves bits s i (s.put i (m.storeNext e t) (.exchangeNext { op with newEntry := some e } prev t))
  | link (op : Insertion V) (prev e : Nat) : s.pc i = .exchangeNext op prev (s.heap.next prev) →
      op.newEntry = some e →
      Moves bits s i ((s.write op).finish i (s.heap.link prev e op.newValue) (.set op.key op.value))

variable {bits entry value prev : Nat} {s t : State ι V} {i : ι}

theorem has_moves {key : Int} (hp : s.pc i = .has key prev) (h : s.advance bits i entry value = some t) :
    Moves bits s i t := by
  simp only [State.advance,hp] at h
  split at h
  · next hn =>
    cases h
    exact .hasDone key prev false hp (by simp [hn]) (by simp [hn])
  · next target hn =>
    split at h
    · next hlt => cases h; exact .hasOnward key prev target hp hn hlt
    · next hge =>
      cases h
      apply Moves.hasDone key prev _ hp
      · intro _ hu
        rw [hn] at hu
        cases hu
        omega
      · simp [hn]

theorem exchange_moves {op : Insertion V} (h : s.advance bits i entry value = some t)
    (hp : (∃ u old, s.pc i = .exchangeValue op u old) ∨ ∃ prev u, s.pc i = .exchangeNext op prev u) :
    Moves bits s i t := by
  rcases hp with ⟨u,old,hp⟩ | ⟨prev,u,hp⟩
  · simp only [State.advance,hp,bind_eq_some_iff] at h
    obtain ⟨p,hv,h⟩ := h
    split at h
    · next he => cases h; subst he; exact .replace op u p hp hv
    · cases h; exact .retry op (.inl ⟨u,old,hp⟩)
  · simp only [State.advance,hp,bind_eq_some_iff] at h
    obtain ⟨e,hv,h⟩ := h
    split at h
    · next he => cases h; subst he; exact .link op prev e hp hv
    · cases h; exact .retry op (.inr ⟨prev,u,hp⟩)

theorem advance_moves (h : s.advance bits i entry value = some t) : Moves bits s i t := by
  cases hp : s.pc i with
  | idle => simp [State.advance,hp] at h
  | has => exact has_moves hp h
  | get key prev =>
    simp only [State.advance,hp] at h
    split at h
    · next u hf => cases h; exact .getFound key prev u hp hf
    · next u hf => cases h; exact .getMissing key prev u hp hf
    · next u hf => cases h; exact .getOnward key prev u hp hf
  | getValue key target =>
    simp only [State.advance,hp] at h
    cases h
    exact .getValue key target hp
  | copyValue key val =>
    simp only [State.advance,hp] at h
    obtain ⟨v,hv,rfl⟩ := map_eq_some_iff.mp h
    exact .copyValue key val v hp hv
  | deleteValue op old =>
    simp only [State.advance,hp] at h
    cases h
    exact .deleteValue op old hp
  | insert op prev =>
    simp only [State.advance,hp] at h
    split at h
    · next u hf => cases h; exact .insertFound op prev u hp hf
    · next u hf => cases h; exact .insertMissing op prev u hp hf
    · next u hf => cases h; exact .insertOnward op prev u hp hf
  | loadValue op target =>
    simp only [State.advance,hp] at h
    split at h
    · next p hv => cases h; exact .loadValue op target p hp hv
    · next hv =>
      obtain ⟨m,hm,rfl⟩ := map_eq_some_iff.mp h
      exact .allocValue op target value m hp hv hm
  | exchangeValue _ target old => exact exchange_moves h (.inl ⟨target,old,hp⟩)
  | storeNext op prev target =>
    simp only [State.advance,hp] at h
    split at h
    · next e hv => cases h; exact .storeNext op prev e target hp hv
    · next hv =>
      obtain ⟨m,hm,rfl⟩ := map_eq_some_iff.mp h
      exact .allocEntry op prev entry value target m hp hv hm
  | exchangeNext _ prev target => exact exchange_moves h (.inr ⟨prev,target,hp⟩)

theorem step_moves {e : ι × Act V} (h : s.step bits e = some t) : Moves bits s e.1 t := by
  unfold State.step at h
  split at h
  case h_1 k v _ hp => cases h; exact .call (.set k v) hp
  case h_2 k _ hp => cases h; exact .call (.get k) hp
  case h_3 k _ hp => cases h; exact .call (.has k) hp
  case h_4 => exact advance_moves h
  case h_5 => cases h

theorem index_lt (bits : Nat) (key : Int) : index bits key < 2^bits :=
  Nat.lt_of_le_of_lt Nat.and_le_right (Nat.sub_lt (Nat.two_pow_pos bits) Nat.one_pos)

open List
variable {V : Type} {bits : Nat} {m m' : Heap V} {w w' : List (Int × V)}
  {chain chain' : Nat → List Nat} {k : Int} {prev : Nat}

def lastWrite (w : List (Int × V)) (k : Int) : Option V := (w.reverse.find? fun kv => kv.1 = k).map Prod.snd

theorem lastWrite_append (w : List (Int × V)) (k k' : Int) (v : V) :
    lastWrite (w ++ [(k', v)]) k = if k' = k then some v else lastWrite w k := by
  rw [lastWrite,reverse_append,reverse_singleton,singleton_append,find?_cons]
  by_cases hk : k' = k
  · simp [hk]
  · simp [hk,lastWrite]

theorem mem_of_lastWrite {v : V} (hv : lastWrite w k = some v) : (k, v) ∈ w := by
  obtain ⟨⟨k',_⟩,hf,rfl⟩ := map_eq_some_iff.mp hv
  have hk : k' = k := by simpa using find?_some hf
  rw [← hk]
  exact mem_reverse.mp (mem_of_find?_eq_some hf)

/-- The lists of the table and what they say about the writes so far. `chain b` are the
entries behind the sentinel of bucket `b`. -/
structure Table (bits : Nat) (m : Heap V) (w : List (Int × V)) (chain : Nat → List Nat) :
    Prop where
  linked : ∀ b < 2^bits, Linked m.next (b::chain b)
  sorted : ∀ b < 2^bits, (chain b).Pairwise fun x y => m.key x < m.key y
  published : ∀ b < 2^bits, ∀ x ∈ chain b, 2^bits ≤ x ∧ x ∈ m.entries ∧ index bits (m.key x) = b
  sentinels : ∀ b < 2^bits, b ∈ m.entries
  content : ∀ b < 2^bits, ∀ x ∈ chain b, m.values (m.valuePtr x) = lastWrite w (m.key x)
  complete : ∀ k v, (k, v) ∈ w → ∃ x ∈ chain (index bits k), m.key x = k

/-- A place to read from while looking for a key: the sentinel or an entry before it. -/
def Before (bits : Nat) (m : Heap V) (chain : Nat → List Nat) (k : Int) (prev : Nat) : Prop :=
  prev = index bits k ∨ prev ∈ chain (index bits k) ∧ m.key prev < k

/-- What was found behind such a place when the key was missing. -/
def Above (bits : Nat) (m : Heap V) (chain : Nat → List Nat) (k : Int) (target : Option Nat) : Prop :=
  ∀ x, target = some x → x ∈ chain (index bits k) ∧ k < m.key x

theorem Before.mono (h : Before bits m chain k prev)
    (hc : ∀ b < 2^bits, ∀ x ∈ chain b, x ∈ chain' b ∧ m'.key x = m.key x) :
    Before bits m' chain' k prev := by
  rcases h with h | ⟨hx,hk⟩
  · exact .inl h
  · obtain ⟨hx',hk'⟩ := hc _ (index_lt bits k) prev hx
    exact .inr ⟨hx',hk' ▸ hk⟩

theorem Above.mono {t : Option Nat} (h : Above bits m chain k t)
    (hc : ∀ b < 2^bits, ∀ x ∈ chain b, x ∈ chain' b ∧ m'.key x = m.key x) :
    Above bits m' chain' k t := by
  intro x hx
  obtain ⟨hm,hk⟩ := h x hx
  obtain ⟨hm',hk'⟩ := hc _ (index_lt bits k) x hm
  exact ⟨hm',hk' ▸ hk⟩

namespace Table
variable {b b' x e y t p : Nat} {v : V}

section
variable (ht : Table bits m w chain)
include ht

theorem nodup (hb : b < 2^bits) : (b::chain b).Nodup := by
  rw [nodup_cons]
  refine ⟨fun hm => ?_,(ht.sorted b hb).imp fun hlt he => ?_⟩
  · exact absurd (ht.published b hb b hm).1 (Nat.not_le_of_lt hb)
  · rw [he] at hlt
    exact absurd hlt (Int.lt_irrefl _)

theorem keys_nodup (hb : b < 2^bits) : ((chain b).map m.key).Nodup :=
  pairwise_map.mpr ((ht.sorted b hb).imp fun hlt he => absurd (he ▸ hlt) (Int.lt_irrefl _))

theorem key_inj (hb : b < 2^bits) (hb' : b' < 2^bits) (hx : x ∈ chain b) (hy : y ∈ chain b')
    (he : m.key x = m.key y) : x = y := by
  have hbb : b = b' := by
    rw [← (ht.published b hb x hx).2.2,← (ht.published b' hb' y hy).2.2,he]
  subst hbb
  exact inj_on_of_nodup_map (ht.keys_nodup hb) hx hy he

theorem bucket_inj (hb : b < 2^bits) (hb' : b' < 2^bits) (hx : x ∈ b::chain b) (hx' : x ∈ b' :: chain b') :
    b = b' := by
  have late := fun b hb hx => (ht.published b hb x hx).1
  rcases mem_cons.mp hx with rfl | hx
  · rcases mem_cons.mp hx' with rfl | hx'
    · rfl
    · have := late b' hb' hx'
      omega
  · rcases mem_cons.mp hx' with rfl | hx'
    · have := late b hb hx
      omega
    · rw [← (ht.published b hb x hx).2.2,← (ht.published b' hb' x hx').2.2]

/-- The bucket falls into the entries up to `prev`, all with smaller keys, and the rest. -/
theorem split (hp : Before bits m chain k prev) :
    ∃ l₀ l₁ l₂, chain (index bits k) = l₁ ++ l₂ ∧ index bits k::l₁ = l₀ ++ [prev] ∧
      m.next prev = l₂.head? ∧ ∀ x ∈ l₁, m.key x < k := by
  have hl := ht.linked _ (index_lt bits k)
  rcases hp with rfl | ⟨hmem,hlt⟩
  · exact ⟨[],[],_,rfl,rfl,hl.1,fun _ hx => (by cases hx)⟩
  · obtain ⟨l₁,l₂,he⟩ := append_of_mem hmem
    have hs := ht.sorted _ (index_lt bits k)
    rw [he,pairwise_append] at hs
    rw [he] at hl
    refine ⟨index bits k::l₁,l₁ ++ [prev],l₂,by rw [he]; simp,rfl,hl.2.next_eq,fun x hx => ?_⟩
    rw [mem_append,mem_singleton] at hx
    rcases hx with hx | rfl
    · have := hs.2.2 x hx prev mem_cons_self
      omega
    · exact hlt

/-- What follows `prev` belongs to the bucket and comes before every entry with a key that
is not smaller. -/
theorem behind (hp : Before bits m chain k prev) : (∀ t, m.next prev = some t → t ∈ chain (index bits k)) ∧
    ∀ x ∈ chain (index bits k), k ≤ m.key x → ∃ t, m.next prev = some t ∧ m.key t ≤ m.key x := by
  obtain ⟨_,_,l₂,he,_,hn,hlt⟩ := ht.split hp
  have hs := ht.sorted _ (index_lt bits k)
  rw [he,pairwise_append] at hs
  rw [he,hn]
  constructor
  · intro _ ht
    exact mem_append_right _ (mem_of_mem_head? ht)
  · intro x hx _
    have hx : x ∈ l₂ := by
      rcases mem_append.mp hx with hx | hx
      · have := hlt x hx
        omega
      · exact hx
    cases l₂ with
    | nil => cases hx
    | cons y =>
      refine ⟨y,rfl,?_⟩
      rcases mem_cons.mp hx with rfl | hx
      · exact Int.le_refl _
      · have := (pairwise_cons.mp hs.2.1).1 x hx
        omega

theorem absent (hp : Before bits m chain k prev) (hgt : ∀ t, m.next prev = some t → k < m.key t) :
    lastWrite w k = none := by
  by_contra hne
  obtain ⟨v,hv⟩ := ne_none_iff_exists'.mp hne
  obtain ⟨x,hx,_⟩ := ht.complete k v (mem_of_lastWrite hv)
  obtain ⟨t,hn,_⟩ := (ht.behind hp).2 x hx (by omega)
  have := hgt t hn
  omega

/-- Memory that differs only outside the published entries and their values. -/
theorem frame (hs : ∀ b < 2^bits, m'.next b = m.next b ∧ b ∈ m'.entries)
    (he : ∀ b < 2^bits, ∀ x ∈ chain b, m'.next x = m.next x ∧ m'.key x = m.key x ∧
      x ∈ m'.entries ∧ m'.values (m'.valuePtr x) = m.values (m.valuePtr x)) : Table bits m' w chain where
  linked b hb := by
    apply (ht.linked b hb).congr
    intro x hx
    rcases mem_cons.mp hx with rfl | hx
    · exact (hs x hb).1
    · exact (he b hb x hx).1
  sorted b hb := by
    refine (ht.sorted b hb).imp_of_mem fun hx hy hlt => ?_
    rw [(he b hb _ hx).2.1,(he b hb _ hy).2.1]
    exact hlt
  published b hb x hx := by
    obtain ⟨hle,_,hi⟩ := ht.published b hb x hx
    exact ⟨hle,(he b hb x hx).2.2.1,by rw [(he b hb x hx).2.1]; exact hi⟩
  sentinels b hb := (hs b hb).2
  content b hb x hx := by
    rw [(he b hb x hx).2.2.2,(he b hb x hx).2.1]
    exact ht.content b hb x hx
  complete k v hk := by
    obtain ⟨x,hx,hkx⟩ := ht.complete k v hk
    exact ⟨x,hx,(he _ (index_lt bits k) x hx).2.1.trans hkx⟩

theorem replace (hx : t ∈ chain (index bits k)) (hk : m.key t = k) (hv : m.values p = some v) :
    Table bits (m.replace t p) (w ++ [(k, v)]) chain where
  linked := ht.linked
  sorted := ht.sorted
  published := ht.published
  sentinels := ht.sentinels
  content b hb x hxb := by
    change m.values (update m.valuePtr t p x) = lastWrite (w ++ [(k, v)]) (m.key x)
    rw [lastWrite_append]
    by_cases hxt : x = t
    · subst hxt
      rw [if_pos hk.symm,update_self,hv]
    · have hne : k ≠ m.key x := fun he =>
        hxt (ht.key_inj hb (index_lt bits k) hxb hx (he.symm.trans hk.symm))
      rw [if_neg hne,update_of_ne hxt]
      exact ht.content b hb x hxb
  complete k' v' hkv := by
    rcases mem_append.mp hkv with hkv | hkv
    · exact ht.complete k' v' hkv
    · cases mem_singleton.mp hkv
      exact ⟨t,hx,hk⟩

end

theorem insert_sorted {l₁ l₂ : List Nat} (hs : (l₁ ++ l₂).Pairwise fun x y => m.key x < m.key y)
    (h₁ : ∀ x ∈ l₁, m.key x < m.key e) (h₂ : ∀ x ∈ l₂.head?, m.key e < m.key x) :
    (l₁ ++ e::l₂).Pairwise (fun x y => m.key x < m.key y) ∧ ∀ x ∈ l₁ ++ l₂, m.key x ≠ m.key e := by
  rw [pairwise_append] at hs
  have above : ∀ x ∈ l₂, m.key e < m.key x := by
    intro x hx
    cases l₂ with
    | nil => cases hx
    | cons y =>
      have hy := h₂ y rfl
      rcases mem_cons.mp hx with rfl | hx
      · exact hy
      · have := (pairwise_cons.mp hs.2.1).1 x hx
        omega
  constructor
  · refine pairwise_append.mpr ⟨hs.1,pairwise_cons.mpr ⟨above,hs.2.1⟩,fun x hx y hy => ?_⟩
    rcases mem_cons.mp hy with rfl | hy
    · exact h₁ x hx
    · exact hs.2.2 x hx y hy
  · intro x hx _
    rcases mem_append.mp hx with hx | hx
    · have := h₁ x hx
      omega
    · have := above x hx
      omega

/-- Linking an entry behind the place where its key is missing. -/
theorem insert (ht : Table bits m w chain) (hp : Before bits m chain k prev) (ha : Above bits m chain k (m.next prev))
    (hlive : e ∈ m.entries ∧ 2^bits ≤ e) (hnew : ∀ b < 2^bits, b ≠ e ∧ ∀ x ∈ chain b, x ≠ e) (hk : m.key e = k)
    (hn : m.next e = m.next prev) (hv : m.values (m.valuePtr e) = some v) :
    ∃ chain', Table bits (m.storeNext prev (some e)) (w ++ [(k, v)]) chain' ∧
      ∀ b x, x ∈ chain' b ↔ x ∈ chain b ∨ b = index bits k ∧ x = e := by
  have hb := index_lt bits k
  obtain ⟨l₀,l₁,l₂,hc,hl,hnext,hlt⟩ := ht.split hp
  have hbc : index bits k::chain (index bits k) = l₀ ++ prev::l₂ := by
    rw [hc,← cons_append,hl,append_assoc,singleton_append]
  have hbc' : index bits k::(l₁ ++ e::l₂) = l₀ ++ prev::e::l₂ := by
    rw [← cons_append,hl,append_assoc,singleton_append]
  have hprev : prev ∈ index bits k::chain (index bits k) := by rw [hbc]; simp
  have hsorted := ht.sorted _ hb
  rw [hc] at hsorted
  obtain ⟨sorted,fresh⟩ := insert_sorted (e := e) hsorted (fun x hx => hk ▸ hlt x hx)
    (fun x hx => hk ▸ (ha x (hnext.trans hx)).2)
  have mem : ∀ b x, x ∈ update chain (index bits k) (l₁ ++ e::l₂) b ↔ x ∈ chain b ∨ b = index bits k ∧ x = e := by
    intro b _
    by_cases hbk : b = index bits k
    · subst hbk
      rw [update_self,hc]
      simp only [mem_append,mem_cons,true_and]
      tauto
    · rw [update_of_ne hbk]
      simp [hbk]
  refine ⟨update chain (index bits k) (l₁ ++ e::l₂),?_,mem⟩
  constructor
  case linked =>
    intro b hb'
    by_cases hbk : b = index bits k
    · subst hbk
      rw [update_self,hbc']
      apply Linked.insert
      · rw [← hbc]
        exact ht.linked _ hb
      · rw [← hbc]
        exact ht.nodup hb
      · rw [← hbc,mem_cons,not_or]
        exact ⟨(hnew _ hb).1.symm,fun hx => (hnew _ hb).2 e hx rfl⟩
      · exact hn.trans hnext
    · rw [update_of_ne hbk]
      apply (ht.linked b hb').update_of_notMem
      intro hmem
      exact hbk (ht.bucket_inj hb' hb hmem hprev)
  case sorted =>
    intro b hb'
    by_cases hbk : b = index bits k
    · subst hbk
      rw [update_self]
      exact sorted
    · rw [update_of_ne hbk]
      exact ht.sorted b hb'
  case published =>
    intro b hb' x hx
    rcases (mem b x).mp hx with hx | ⟨rfl,rfl⟩
    · exact ht.published b hb' x hx
    · exact ⟨hlive.2,hlive.1,by rw [← hk]; rfl⟩
  case sentinels => exact ht.sentinels
  case content =>
    intro b hb' x hx
    change m.values (m.valuePtr x) = lastWrite (w ++ [(k, v)]) (m.key x)
    rw [lastWrite_append]
    rcases (mem b x).mp hx with hxb | ⟨rfl,rfl⟩
    · have hne : k ≠ m.key x := by
        intro he
        have hbk : b = index bits k := by rw [← (ht.published b hb' x hxb).2.2,he]
        rw [hbk,hc] at hxb
        exact fresh x hxb (he.symm.trans hk.symm)
      rw [if_neg hne]
      exact ht.content b hb' x hxb
    · rw [if_pos hk.symm,hv]
  case complete =>
    intro k' v' hkv
    rcases mem_append.mp hkv with hkv | hkv
    · obtain ⟨x,hx,hkx⟩ := ht.complete k' v' hkv
      exact ⟨x,(mem _ x).mpr (.inl hx),hkx⟩
    · cases mem_singleton.mp hkv
      exact ⟨e,(mem _ e).mpr (.inr ⟨rfl,rfl⟩),hk⟩

end Table

namespace Heap
variable {e t p : Nat} {v : V}

theorem find_found (hf : m.find k prev = .found t) : m.next prev = some t ∧ m.key t = k := by
  unfold find at hf
  split at hf
  · cases hf
  · next u hu =>
    split at hf
    · next he => cases hf; exact ⟨hu,he⟩
    · split at hf <;> cases hf

theorem find_onward (hf : m.find k prev = .onward t) : m.next prev = some t ∧ m.key t < k := by
  unfold find at hf
  split at hf
  · cases hf
  · next u hu =>
    split at hf
    · cases hf
    · split at hf
      · cases hf
      · cases hf; exact ⟨hu,by omega⟩

theorem find_missing {t : Option Nat} (hf : m.find k prev = .missing t) :
    m.next prev = t ∧ ∀ x, t = some x → k < m.key x := by
  unfold find at hf
  split at hf
  · next hu => cases hf; exact ⟨hu,fun _ hx => (by cases hx)⟩
  · next u hu =>
    split at hf
    · cases hf
    · split at hf
      · next hgt => cases hf; exact ⟨hu,fun _ hx => (by cases hx; exact hgt)⟩
      · cases hf

theorem newValue_eq (h : m.newValue p v = some m') :
    m.values p = none ∧ m' = { m with values := update m.values p (some v) } := by
  unfold newValue at h
  split at h
  · next hn => cases h; exact ⟨isNone_iff_eq_none.mp hn,rfl⟩
  · cases h

theorem newEntry_eq (h : m.newEntry e p k v = some m') : e ∉ m.entries ∧ m.values p = none ∧
      m' = { next := update m.next e none, key := update m.key e k,
             valuePtr := update m.valuePtr e p, entries := insert e m.entries,
             values := update m.values p (some v) } := by
  unfold newEntry at h
  split at h
  · cases h
  · next he =>
    obtain ⟨_,hm,rfl⟩ := map_eq_some_iff.mp h
    obtain ⟨hv,rfl⟩ := newValue_eq hm
    exact ⟨he,hv,rfl⟩

variable {old q x : Nat} {unused : Option Nat}

@[simp] theorem deleteOld_next : (m.deleteOld old unused).next = m.next := by cases unused <;> rfl

@[simp] theorem deleteOld_key : (m.deleteOld old unused).key = m.key := by cases unused <;> rfl

@[simp] theorem deleteOld_valuePtr : (m.deleteOld old unused).valuePtr = m.valuePtr := by
  cases unused <;> rfl

theorem mem_deleteOld : x ∈ (m.deleteOld old unused).entries ↔ x ∈ m.entries ∧ unused ≠ some x := by
  cases unused with
  | none => simp [deleteOld,deleteValue]
  | some => simp [deleteOld,deleteEntry,deleteValue,and_comm,eq_comm]

theorem deleteOld_values (h : q ≠ old) (he : ∀ e, unused = some e → q ≠ m.valuePtr e) :
    (m.deleteOld old unused).values q = m.values q := by
  cases unused with
  | none => exact update_of_ne h ..
  | some e => exact (update_of_ne (he e rfl) ..).trans (update_of_ne h ..)

theorem deleteValue_none (h : m.values q = none) : (m.deleteValue old).values q = none := by
  by_cases hq : q = old
  · exact hq ▸ update_self ..
  · exact (update_of_ne hq ..).trans h

theorem deleteOld_none (h : m.values q = none) : (m.deleteOld old unused).values q = none := by
  cases unused with
  | none => exact deleteValue_none h
  | some => exact deleteValue_none (m := m.deleteValue old) (deleteValue_none h)

theorem link_eq : m.link prev e unused =
    { m.storeNext prev (some e) with values := (m.link prev e unused).values } := by
  cases unused <;> rfl

theorem link_values (h : unused ≠ some q) : (m.link prev e unused).values q = m.values q := by
  cases unused with
  | none => rfl
  | some => exact update_of_ne (fun he => h (congrArg some he.symm)) ..

theorem link_none (h : m.values q = none) : (m.link prev e unused).values q = none := by
  cases unused with
  | none => exact h
  | some => exact deleteValue_none (m := m.storeNext prev (some e)) h

end Heap

end Apollo.Cyber.Base.AtomicHashMap
