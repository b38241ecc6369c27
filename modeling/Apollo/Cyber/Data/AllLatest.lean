import Apollo.Cyber.Data.ChannelBuffer
import Apollo.Foundation.FallibleList
import Mathlib.Data.List.NodupEquivFin

/-! `AllLatest`: the callback of the primary buffer pairs a message with the newest ones of the other channels and
fills the pair into a buffer of its own, from which the consumer fetches. The messages of the other channels have
one type here, and a fusion has any number of them. -/
namespace Apollo.Cyber.Data
open List Option ChannelBuffer

/-- `Latest`: the newest message, if there is one. -/
def ChannelBuffer.latest {α : Type} (b : CacheBuffer α) : Option (Option α) :=
  if b.empty then some none else (b.elementAt b.tail).map some

namespace AllLatest
open Foundation
variable {α β : Type}

/-- The buffers of the other channels and the buffer of the pairs with its consumer. `dispatched` logs each primary
message with the messages that the other channels had got last. -/
structure State (α β : Type) where
  others : List (ChannelBuffer.State Empty β)
  fusion : ChannelBuffer.State Unit (α × List β)
  dispatched : List (α × List (Option β))

inductive Event (α β : Type)
  | primary (m : α)
  | other (j : Nat) (m : β)
  | tryFetch

namespace State

def newest (s : State α β) : List (Option β) := s.others.map (·.fills.getLast?)

/-- The callback returns without a pair if a channel has no message yet. -/
def fuse (s : State α β) (m : α) : Option (State α β) :=
  (s.others.mapM fun o => latest o.buffer).bind fun found =>
    match found.mapM id with
    | none => some s
    | some ms => (s.fusion.step (.fill (m, ms))).map fun fusion => { s with fusion }

/-- `Fill` of the primary buffer calls the callback only. -/
def step (s : State α β) : Event α β → Option (State α β)
  | .primary m => (s.fuse m).map fun t => { t with dispatched := s.dispatched ++ [(m, s.newest)] }
  | .other j m => s.others[j]?.bind fun o =>
      (o.step (.fill m)).map fun o => { s with others := s.others.set j o }
  | .tryFetch => (s.fusion.step (.tryFetch ())).map fun fusion => { s with fusion }

end State

/-- The size of the buffer of the pairs: the capacity of the primary buffer without one. -/
def fusionSize (size : UInt64) : UInt64 := size+1 - 1

def init (size : UInt64) (sizes : List UInt64) (buffer : Nat → α × List β) (buffers : UInt64 → Nat → β) : State α β where
  others := sizes.map fun size => ChannelBuffer.init size (buffers size)
  fusion := ChannelBuffer.init (fusionSize size) buffer
  dispatched := []

def system (α β : Type) (size : UInt64) (sizes : List UInt64) : System (State α β) (Event α β) where
  initial s := ∃ buffer buffers, s = init size sizes buffer buffers
  step := State.step

variable {size : UInt64} {sizes : List UInt64} {s t : State α β} {m : α}

theorem latest_eq {ι : Type} {b : ChannelBuffer.State ι β} (h : ChannelBuffer.Stored size b) :
    latest b.buffer = some b.fills.getLast? := by
  rw [latest,CacheBuffer.empty,h.tail]
  rcases eq_nil_or_concat b.fills with hnil | ⟨l,x,hl⟩
  · rw [hnil]
    rfl
  · have hlength : b.fills.length = l.length+1 := by
      rw [hl,length_concat]
    have hlast : b.fills[b.fills.length - 1]? = some x := by
      rw [hlength,hl]
      simp
    rw [if_neg (by simp [hlength]),h.elementAt (by omega) le_rfl (by omega),hlast,hl]
    simp

/-- Each channel has got fewer than `2 ^ 64` messages. -/
def Counted (s : State α β) : Prop := ∀ o ∈ s.others, o.fills.length < 2^64

def logged (pair : α × List β) : α × List (Option β) := (pair.1, pair.2.map some)

/-- The pairs are those of the log in which no message is missing, in the same order. -/
structure Inv (size : UInt64) (s : State α β) : Prop where
  others : ∀ o ∈ s.others, ∃ size, (ChannelBuffer.system Empty β size).Reachable o
  fusion : (ChannelBuffer.system Unit (α × List β) (fusionSize size)).Reachable s.fusion
  pairs : Counted s → (s.fusion.fills.map logged).Sublist s.dispatched

theorem fuse_cases (hfuse : s.fuse m = some t) :
    t = s ∨ ∃ ms fusion, (s.others.mapM fun o => latest o.buffer) = some (ms.map some) ∧
      s.fusion.step (.fill (m, ms)) = some fusion ∧ t = { s with fusion } := by
  obtain ⟨_,hfound,hfuse⟩ := bind_eq_some_iff.mp hfuse
  split at hfuse
  case h_1 => exact .inl (Option.some.inj hfuse).symm
  case h_2 ms hms =>
    obtain ⟨fusion,hfill,rfl⟩ := map_eq_some_iff.mp hfuse
    rw [mapM_id_eq_some hms] at hfound
    exact .inr ⟨ms,fusion,hfound,hfill,rfl⟩

theorem Inv.latest (h : Inv size s) (hcounted : Counted s) :
    (s.others.mapM fun o => ChannelBuffer.latest o.buffer) = some s.newest := by
  refine mapM_eq_map fun o ho => ?_
  obtain ⟨size,hreachable⟩ := h.others o ho
  exact latest_eq ((ChannelBuffer.reachable_stored hreachable).1 (hcounted o ho))

theorem Inv.primary (h : Inv size s) (hstep : s.step (.primary m) = some t) : Inv size t := by
  obtain ⟨t,hfuse,rfl⟩ := map_eq_some_iff.mp hstep
  rcases fuse_cases hfuse with rfl | ⟨_,fusion,hfound,hfill,rfl⟩
  · exact ⟨h.others,h.fusion,fun hcounted => (h.pairs hcounted).trans (sublist_append_left _ _)⟩
  · refine ⟨h.others,ChannelBuffer.reachable_step h.fusion hfill,fun hcounted => ?_⟩
    have hnewest := Option.some.inj ((h.latest hcounted).symm.trans hfound)
    rw [ChannelBuffer.step_fill_fills hfill,map_append,hnewest]
    exact (h.pairs hcounted).append (List.Sublist.refl _)

theorem Inv.other {j : Nat} {x : β} (h : Inv size s) (hstep : s.step (.other j x) = some t) : Inv size t := by
  obtain ⟨o,ho,hstep⟩ := bind_eq_some_iff.mp hstep
  obtain ⟨o',hfill,rfl⟩ := map_eq_some_iff.mp hstep
  have hmem := mem_of_getElem? ho
  refine ⟨?_,h.fusion,fun hcounted => h.pairs ?_⟩
  · intro p hp
    rcases mem_or_eq_of_mem_set hp with hp | rfl
    · exact h.others p hp
    · obtain ⟨size,hreachable⟩ := h.others o hmem
      exact ⟨size,ChannelBuffer.reachable_step hreachable hfill⟩
  · -- the channel had fewer messages before
    intro p hp
    obtain ⟨i,hi⟩ := getElem?_of_mem hp
    by_cases hij : j = i
    · subst hij
      cases hi.symm.trans ho
      have hlength := ChannelBuffer.step_fill_length hfill
      have hlt := hcounted o' (List.mem_set (List.getElem?_eq_some_iff.mp ho).1 o')
      omega
    · refine hcounted p (mem_of_getElem? (i := i) ?_)
      exact (getElem?_set_ne hij).trans hi

theorem Inv.tryFetch (h : Inv size s) (hstep : s.step .tryFetch = some t) : Inv size t := by
  obtain ⟨fusion,hfetch,rfl⟩ := map_eq_some_iff.mp hstep
  refine ⟨h.others,ChannelBuffer.reachable_step h.fusion hfetch,fun hcounted => ?_⟩
  have hfills := (ChannelBuffer.tryFetch_frame hfetch).2.1
  rw [hfills]
  exact h.pairs hcounted

theorem reachable_step {e : Event α β} (h : (system α β size sizes).Reachable s) (he : s.step e = some t) :
    (system α β size sizes).Reachable t := h.next he

theorem reachable_inv (h : (system α β size sizes).Reachable s) : Inv size s := by
  refine h.invariant ?_ ?_
  · rintro _ ⟨buffer,buffers,rfl⟩
    refine ⟨fun _ ho => ?_,.start ⟨buffer,rfl⟩,fun _ => List.Sublist.refl _⟩
    obtain ⟨size,_,rfl⟩ := mem_map.mp ho
    exact ⟨size,.start ⟨buffers size,rfl⟩⟩
  · intro _ e _ hs hstep
    cases e with
    | primary => exact hs.primary hstep
    | other => exact hs.other hstep
    | tryFetch => exact hs.tryFetch hstep

/-- The fetched pairs stand in the log at increasing positions, with the newest message of every other channel:
none of these was missing. -/
theorem fetched_logged (h : (system α β size sizes).Reachable s) (hcounted : Counted s)
    (hfills : s.fusion.fills.length+1 < 2^64) :
    ∃ positions : List Nat, positions.Pairwise (· < ·) ∧
      List.Forall₂ (fun i x => s.dispatched[i]? = some (logged x.2)) positions (s.fusion.fetched ()) := by
  have hinv := reachable_inv h
  have hfollows := (ChannelBuffer.reachable_stored hinv.fusion).2 hfills ()
  obtain ⟨f,hf⟩ := sublist_iff_exists_orderEmbedding_getElem?_eq.mp (hinv.pairs hcounted)
  refine ⟨(s.fusion.fetched ()).map fun x => f (x.1 - 1),?_,?_⟩
  · rw [pairwise_map]
    refine hfollows.increasing.imp_of_mem fun {x y} hx _ hlt => f.strictMono ?_
    have hpos := (hfollows.range x hx).1
    omega
  · rw [forall₂_map_left_iff,forall₂_same]
    intro x hx
    rw [← hf,getElem?_map,hfollows.values x hx,map_some]

/-- The first message has no partner, and the others are fetched with the newest one of the other channel. -/
theorem fetched_logged_twice : ∃ s : State Nat Nat, (system Nat Nat 1 [1]).Reachable s ∧
    s.fusion.fetched () = [(1, (8, [20])),(3, (10, [21]))] ∧ ∃ positions : List Nat, positions.Pairwise (· < ·) ∧
      List.Forall₂ (fun i x => s.dispatched[i]? = some (logged x.2)) positions (s.fusion.fetched ()) := by
  let p : State Nat Nat → Bool := fun s => s.others.length = 1 ∧ (s.others.all fun o => o.fills.length = 2) ∧
    s.fusion.fills.length = 3 ∧ s.fusion.fetched () = [(1, (8, [20])),(3, (10, [21]))]
  obtain ⟨s,hs,hp⟩ := System.reachable_of_exec (system Nat Nat 1 [1])
    [.primary 7,.other 0 20,.primary 8,.tryFetch,.primary 9,.other 0 21,.primary 10,.tryFetch] p
    (s := init 1 [1] (fun _ => (0, [])) fun _ _ => 0) ⟨_,_,rfl⟩ (by decide)
  obtain ⟨_,hothers,hfills,hfetched⟩ := of_decide_eq_true hp
  refine ⟨s,hs,hfetched,fetched_logged hs ?_ ?_⟩
  · intro o ho
    rw [of_decide_eq_true (all_eq_true.mp hothers o ho)]
    decide
  · rw [hfills]
    decide

/-- Any number of numbered messages can be paired. -/
theorem exists_pairs (n : Nat) (hn : n < 2^64) : ∃ s : State Nat Unit, (system Nat Unit 1 [1]).Reachable s ∧
    ((s.others.mapM fun o => ChannelBuffer.latest o.buffer) = some [some ()] ∧ s.newest = [some ()]) ∧
    s.dispatched = (List.range n).map (fun i => (i, [some ()])) ∧
    s.fusion.fills = (List.range n).map (fun i => (i, [()])) ∧
    s.fusion.nextMsgIndex () = 0 ∧ s.fusion.fetched () = [] := by
  induction n with
  | zero =>
    let p : State Nat Unit → Bool := fun s =>
      ((s.others.mapM fun o => ChannelBuffer.latest o.buffer) = some [some ()] ∧ s.newest = [some ()]) ∧
        s.dispatched = [] ∧ s.fusion.fills = [] ∧ s.fusion.nextMsgIndex () = 0 ∧ s.fusion.fetched () = []
    obtain ⟨s,hs,hp⟩ := System.reachable_of_exec (system Nat Unit 1 [1]) [.other 0 ()] p
      (s := init 1 [1] (fun _ => (0, [])) fun _ _ => ()) ⟨_,_,rfl⟩ (by decide)
    exact ⟨s,hs,of_decide_eq_true hp⟩
  | succ n ih =>
    obtain ⟨s,hs,hlatest,hdispatched,hfills,hcursor,hfetched⟩ := ih (by omega)
    have hlength : s.fusion.fills.length = n := by rw [hfills,length_map,length_range]
    have hstored := (ChannelBuffer.reachable_stored (reachable_inv hs).fusion).1 (by omega)
    have hcapacity : s.fusion.buffer.capacity ≠ 0 := by
      rw [hstored.capacity]
      decide
    obtain ⟨fusion,hfill⟩ : ∃ fusion, s.fusion.step (.fill (n, [()])) = some fusion := by
      rw [ChannelBuffer.State.step,ChannelBuffer.fill_eq hstored (by omega) hcapacity]
      exact ⟨_,rfl⟩
    obtain ⟨_,hfills',hcursor',hfetched'⟩ := ChannelBuffer.step_fill hstored (by omega) hfill
    have hfuse : s.fuse n = some { s with fusion } := by
      rw [State.fuse,hlatest.1,bind_some]
      exact congrArg (Option.map _) hfill
    have hstep : s.step (.primary n) = some { s with fusion, dispatched := s.dispatched ++ [(n, s.newest)] } := by
      rw [State.step,hfuse]
      rfl
    refine ⟨_,reachable_step hs hstep,hlatest,?_,?_,?_,?_⟩
    · rw [hdispatched,hlatest.2,range_succ,map_append]
      rfl
    · rw [hfills',hfills,range_succ,map_append]
      rfl
    · rw [hcursor',hcursor]
    · rw [hfetched',hfetched]

/-- After `2 ^ 64 - 1` pairs the cursor wraps to zero, and the newest pair is fetched twice. -/
theorem fetched_again : ∃ s : State Nat Unit, (system Nat Unit 1 [1]).Reachable s ∧
    ¬ ∃ positions : List Nat, positions.Pairwise (· < ·) ∧
      List.Forall₂ (fun i x => s.dispatched[i]? = some (logged x.2)) positions (s.fusion.fetched ()) := by
  obtain ⟨n,hn⟩ : ∃ n, n = 2^64 - 1 := ⟨_,rfl⟩
  obtain ⟨s,hs,_,hdispatched,hfills,hcursor,hfetched⟩ := exists_pairs n (by omega)
  have hlength : s.fusion.fills.length = 2^64 - 1 := by rw [hfills,length_map,length_range,hn]
  have hstored := (ChannelBuffer.reachable_stored (reachable_inv hs).fusion).1 (by omega)
  obtain ⟨fusion,x,hfetch,hx,hsame,hcursor,hone⟩ := ChannelBuffer.tryFetch_wraps hstored hlength hcursor
  have ht : s.step .tryFetch = some { s with fusion } := congrArg (Option.map _) hfetch
  have ht := reachable_step hs ht
  have hstored := (ChannelBuffer.reachable_stored (reachable_inv ht).fusion).1 (by rw [hsame]; omega)
  obtain ⟨fusion',x',hfetch',hx',_,_,htwo⟩ := ChannelBuffer.tryFetch_wraps hstored (by rw [hsame,hlength]) hcursor
  have hu : ({ s with fusion } : State Nat Unit).step .tryFetch = some { s with fusion := fusion' } :=
    congrArg (Option.map _) hfetch'
  refine ⟨_,reachable_step ht hu,?_⟩
  rintro ⟨positions,hincreasing,hlogged⟩
  have hsame' : x' = x := by
    rw [hsame,hx] at hx'
    exact (Option.some.inj hx').symm
  rw [htwo,hone,hfetched,hsame',nil_append,singleton_append] at hlogged
  obtain ⟨i,_,hi,hrest,rfl⟩ := forall₂_cons_right_iff.mp hlogged
  obtain ⟨j,_,hj,_,rfl⟩ := forall₂_cons_right_iff.mp hrest
  -- a pair has only one position in the log
  have hunique (i : Nat) (hi : s.dispatched[i]? = some (logged x)) : i = x.1 := by
    rw [hdispatched,getElem?_map,map_eq_some_iff] at hi
    obtain ⟨k,hk,hpair⟩ := hi
    obtain ⟨hlt,rfl⟩ := List.getElem?_eq_some_iff.mp hk
    rw [getElem_range] at hpair
    exact congrArg Prod.fst hpair
  have hlt := rel_of_pairwise_cons hincreasing mem_cons_self
  rw [hunique i hi,hunique j hj] at hlt
  exact lt_irrefl _ hlt

end AllLatest
end Apollo.Cyber.Data
