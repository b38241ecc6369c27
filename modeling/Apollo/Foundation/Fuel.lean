import Mathlib.Order.OrderIsoNat

/-! Loops with a bound that returns `none` when it is used up. A result counts only if every larger
bound gives it too. -/
namespace Apollo.Foundation
variable {α β : Type} {f : Nat → Option α} {x : α}

/-- Enough fuel gives the result. -/
def Returns (f : Nat → Option α) (x : α) : Prop := ∃ n, ∀ fuel, n ≤ fuel → f fuel = some x

theorem returns_const (x : α) : Returns (fun _ => some x) x := ⟨0,fun _ _ => rfl⟩

theorem Returns.succ {g : Nat → Option α} (h : Returns g x) (hf : ∀ fuel, f (fuel+1) = g fuel) : Returns f x := by
  obtain ⟨n,hn⟩ := h
  refine ⟨n+1,fun fuel _ => ?_⟩
  obtain ⟨m,rfl⟩ : ∃ m, fuel = m+1 := ⟨fuel - 1,by omega⟩
  rw [hf,hn m (by omega)]

variable {k : Nat → α → Option β} {y : β}

theorem Returns.bind (h : Returns f x) (hk : Returns (fun fuel => k fuel x) y) :
    Returns (fun fuel => (f fuel).bind (k fuel)) y := by
  obtain ⟨n,hn⟩ := h
  obtain ⟨m,hm⟩ := hk
  refine ⟨max n m,fun fuel _ => ?_⟩
  calc (f fuel).bind (k fuel) = (some x).bind (k fuel) := by rw [hn fuel (by omega)]
    _ = some y := hm fuel (by omega)

theorem Returns.round {g : Nat → Option β} (h : Returns f x) (hg : ∀ fuel, g (fuel+1) = (f fuel).bind (k fuel))
    (hk : Returns (fun fuel => k fuel x) y) : Returns g y :=
  (h.bind hk).succ hg

theorem Returns.map (h : Returns f x) (g : α → β) : Returns (fun fuel => (f fuel).map g) (g x) := by
  obtain ⟨n,hn⟩ := h
  refine ⟨n,fun fuel hle => ?_⟩
  change (f fuel).map g = some (g x)
  rw [hn fuel hle,Option.map_some]

theorem exists_returns_foldlM {k : Nat → α → β → Option α} {items : List β}
    (h : ∀ b ∈ items, ∀ s, ∃ t, Returns (fun fuel => k fuel s b) t) (s : α) :
    ∃ t, Returns (fun fuel => items.foldlM (k fuel) s) t := by
  induction items generalizing s with
  | nil => exact ⟨s,returns_const s⟩
  | cons _ _ ih =>
    obtain ⟨hb,hitems⟩ := List.forall_mem_cons.mp h
    obtain ⟨u,hu⟩ := hb s
    obtain ⟨t,ht⟩ := ih hitems u
    exact ⟨t,hu.bind ht⟩

/-- If each call in a good state gives some result and leaves a good state, then the calls can be made one after
another without end. -/
theorem exists_calls {good : Nat → α → Prop} {call : Nat → α → β → α → Prop} (hx : good 0 x)
    (h : ∀ n s, good n s → ∃ y t, good (n+1) t ∧ call n s y t) :
    ∃ (states : Nat → α) (results : Nat → β), states 0 = x ∧ ∀ n, call n (states n) (results n) (states (n+1)) := by
  obtain ⟨y,_⟩ := h 0 x hx
  have : Nonempty α := ⟨x⟩
  have : Nonempty β := ⟨y⟩
  choose! result next hgood hcall using h
  let states (n : Nat) : α := n.rec x fun n s => next n s
  have hstates (n : Nat) : good n (states n) := by
    induction n with
    | zero => exact hx
    | succ n ih => exact hgood n (states n) ih
  exact ⟨states,fun n => result n (states n),rfl,fun n => hcall n (states n) (hstates n)⟩

/-- A rank that never grows goes down only finitely often. -/
theorem finite_descents {ρ : Type} [LinearOrder ρ] [WellFoundedLT ρ] (rank : Nat → ρ) {descends : Nat → Prop}
    (hle : ∀ n, rank (n+1) ≤ rank n) (hlt : ∀ n, descends n → rank (n+1) < rank n) :
    { n | descends n }.Finite := by
  let ranks : Nat →o ρᵒᵈ := ⟨fun n => OrderDual.toDual (rank n),monotone_nat_of_le_succ hle⟩
  obtain ⟨bound,hconstant⟩ := WellFoundedGT.monotone_chain_condition ranks
  refine (Set.finite_lt_nat bound).subset fun n hn => ?_
  by_contra hge
  have hbound := Nat.not_lt.mp hge
  have hsame : rank n = rank (n+1) := (hconstant n hbound).symm.trans (hconstant (n+1) (Nat.le_succ_of_le hbound))
  exact absurd (hlt n hn) (hsame ▸ lt_irrefl _)

end Apollo.Foundation
