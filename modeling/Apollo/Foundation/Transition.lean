import Mathlib.Logic.Function.Basic

/-! Guarded transition systems. One executable step function serves replayed
traces, invariants of every reachable state and runs restricted by a guard. -/
namespace Apollo.Foundation

/-- A step is `none` when the event cannot happen in the given state. -/
structure System (σ ε : Type) where
  initial : σ → Prop
  step : σ → ε → Option σ

namespace System
variable {σ ε : Type} {sys : System σ ε} {ok ok' : σ → ε → Prop} {s t u : σ}

/-- States reached by a run all of whose steps meet `ok`. -/
inductive ReachableWhile (sys : System σ ε) (ok : σ → ε → Prop) : σ → Prop
  | start {s : σ} : sys.initial s → ReachableWhile sys ok s
  | next {s t : σ} {e : ε} : ReachableWhile sys ok s → ok s e → sys.step s e = some t → ReachableWhile sys ok t

def Reachable (sys : System σ ε) : σ → Prop := sys.ReachableWhile fun _ _ => True

def exec (sys : System σ ε) : σ → List ε → Option σ
  | s, [] => some s
  | s, e::es => (sys.step s e).bind fun t => sys.exec t es

variable {P : σ → Prop} {es fs : List ε} {e : ε}

/-- What holds initially and survives every allowed step holds in every state of
such a run. -/
theorem ReachableWhile.invariant (h : sys.ReachableWhile ok s) (base : ∀ s, sys.initial s → P s)
    (keep : ∀ s e t, P s → ok s e → sys.step s e = some t → P t) : P s := by
  induction h with
  | start hs => exact base _ hs
  | next _ ho he ih => exact keep _ _ _ ih ho he

theorem Reachable.invariant (h : sys.Reachable s) (base : ∀ s, sys.initial s → P s)
    (keep : ∀ s e t, P s → sys.step s e = some t → P t) : P s :=
  ReachableWhile.invariant h base fun s e t hs _ he => keep s e t hs he

theorem Reachable.start (h : sys.initial s) : sys.Reachable s := ReachableWhile.start h

theorem Reachable.next (h : sys.Reachable s) (he : sys.step s e = some t) :
    sys.Reachable t := ReachableWhile.next h trivial he

theorem ReachableWhile.mono (h : sys.ReachableWhile ok s) (hle : ∀ s e, ok s e → ok' s e) :
    sys.ReachableWhile ok' s := by
  induction h with
  | start hs => exact .start hs
  | next _ ho he ih => exact .next ih (hle _ _ ho) he

theorem ReachableWhile.reachable (h : sys.ReachableWhile ok s) : sys.Reachable s := h.mono fun _ _ _ => trivial

@[simp] theorem exec_nil (s : σ) : sys.exec s [] = some s := rfl

theorem exec_cons : sys.exec s (e::es) = some u ↔ ∃ t, sys.step s e = some t ∧ sys.exec t es = some u := by
  rw [exec,Option.bind_eq_some_iff]

theorem exec_append : sys.exec s (es ++ fs) = some u ↔ ∃ t, sys.exec s es = some t ∧ sys.exec t fs = some u := by
  induction es generalizing s with
  | nil => simp
  | cons _ _ ih =>
    rw [List.cons_append,exec_cons]
    constructor
    · rintro ⟨t,ht,hu⟩
      obtain ⟨v,hv,hw⟩ := ih.mp hu
      exact ⟨v,exec_cons.mpr ⟨t,ht,hv⟩,hw⟩
    · rintro ⟨v,hv,hw⟩
      obtain ⟨t,ht,hu⟩ := exec_cons.mp hv
      exact ⟨t,ht,ih.mpr ⟨v,hu,hw⟩⟩

theorem exec_keeps (keep : ∀ s e t, e ∈ es → P s → sys.step s e = some t → P t) (hs : P s)
    (h : sys.exec s es = some t) : P t := by
  induction es generalizing s with
  | nil => cases h; exact hs
  | cons _ _ ih =>
    obtain ⟨u,hu,ht⟩ := exec_cons.mp h
    exact ih (fun s f t hf => keep s f t (List.mem_cons_of_mem _ hf)) (keep _ _ _ List.mem_cons_self hs hu) ht

theorem Reachable.exec (hs : sys.Reachable s) (h : sys.exec s es = some t) : sys.Reachable t :=
  exec_keeps (fun _ _ _ _ hr he => hr.next he) hs h

theorem reachable_of_exec (sys : System σ ε) (es : List ε) (p : σ → Bool) (hs : sys.initial s)
    (h : (sys.exec s es).any p = true) : ∃ t, sys.Reachable t ∧ p t = true := by
  obtain ⟨t,ht,hp⟩ := (Option.any_eq_true _ _).mp h
  exact ⟨t,(Reachable.start hs).exec ht,hp⟩

/-- States that always have a next one of their kind have runs of any length. -/
theorem exists_exec (progress : ∀ s, P s → ∃ e t, sys.step s e = some t ∧ P t) (n : Nat) (hs : P s) :
    ∃ es t, es.length = n ∧ sys.exec s es = some t ∧ P t := by
  induction n generalizing s with
  | zero => exact ⟨[],s,rfl,rfl,hs⟩
  | succ _ ih =>
    obtain ⟨e,t,he,ht⟩ := progress s hs
    obtain ⟨es,u,hlength,hu,hP⟩ := ih ht
    exact ⟨e::es,u,congrArg Nat.succ hlength,exec_cons.mpr ⟨t,he,hu⟩,hP⟩

/-- Where the runs are bounded, one of them ends in a state with no next one. -/
theorem exists_end (n : Nat) (bound : ∀ es t, sys.exec s es = some t → es.length ≤ n) :
    ∃ es t, sys.exec s es = some t ∧ ∀ e, sys.step t e = none := by
  by_contra hno
  have progress : ∀ t, (∃ es, sys.exec s es = some t) →
      ∃ e u, sys.step t e = some u ∧ ∃ es, sys.exec s es = some u := by
    rintro t ⟨es,ht⟩
    obtain ⟨e,he⟩ := Classical.not_forall.mp fun hall => hno ⟨es,t,ht,hall⟩
    obtain ⟨u,hu⟩ := Option.ne_none_iff_exists'.mp he
    exact ⟨e,u,hu,es ++ [e],exec_append.mpr ⟨t,ht,exec_cons.mpr ⟨u,hu,rfl⟩⟩⟩
  obtain ⟨es,t,_,ht,-⟩ := exists_exec progress (n+1) ⟨[],rfl⟩
  have hle := bound es t ht
  omega

/-- The system without the steps that `ok` rules out. -/
def guarded (sys : System σ ε) (ok : σ → ε → Prop) [∀ s e,Decidable (ok s e)] : System σ ε where
  initial := sys.initial
  step s e := if ok s e then sys.step s e else none

theorem ReachableWhile.of_guarded [∀ s e,Decidable (ok s e)] (h : (sys.guarded ok).Reachable s) :
    sys.ReachableWhile ok s := by
  apply h.invariant
  · exact fun s hs => .start hs
  · intro s e _ hs he
    by_cases ho : ok s e
    · exact .next hs ho ((if_pos ho).symm.trans he)
    · cases (if_neg ho).symm.trans he

theorem reachableWhile_of_exec (sys : System σ ε) (ok : σ → ε → Prop) [∀ s e,Decidable (ok s e)]
    (es : List ε) (p : σ → Bool) (hs : sys.initial s)
    (h : ((sys.guarded ok).exec s es).any p = true) : ∃ t, sys.ReachableWhile ok t ∧ p t = true := by
  obtain ⟨t,ht,hp⟩ := reachable_of_exec (sys.guarded ok) es p hs h
  exact ⟨t,.of_guarded ht,hp⟩

end System
end Apollo.Foundation
