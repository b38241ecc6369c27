import Mathlib.Data.List.Basic

/-! `Signal`, `Slot` and `Connection`. A slot is known by its address; a callback may be empty. -/
namespace Apollo.Cyber.Base
open List

structure Slot (α : Type) where
  address : Nat
  cb : Option α
  connected : Bool := true

def Slot.invoke {α : Type} (slot : Slot α) : Option α := if slot.connected then slot.cb else none

structure Signal (α : Type) where
  slots : List (Slot α) := []

/-- A connection of the signal `signal` to one of its slots. -/
structure Connection (ι : Type) where
  slot : Nat
  signal : ι

namespace Signal
variable {α : Type}

def clearDisconnectedSlots (signal : Signal α) : Signal α := ⟨signal.slots.filter (·.connected)⟩

/-- `operator()`: the callbacks that it invokes and what it leaves behind. -/
def invoke (signal : Signal α) : List α × Signal α :=
  (signal.slots.filterMap Slot.invoke, signal.clearDisconnectedSlots)

def connect (signal : Signal α) (address : Nat) (cb : Option α) : Signal α :=
  ⟨signal.slots ++ [{ address := address, cb := cb }]⟩

def disconnect (signal : Signal α) (address : Nat) : Signal α :=
  if signal.slots.any (·.address == address) then
    clearDisconnectedSlots ⟨signal.slots.map fun slot =>
      if slot.address = address then { slot with connected := false } else slot⟩
  else signal

/-- A slot leaves the signal as soon as it is disconnected. -/
def Connected (signal : Signal α) : Prop := ∀ slot ∈ signal.slots, slot.connected

variable {signal : Signal α}
variable (h : signal.Connected)
include h

theorem Connected.clear : signal.clearDisconnectedSlots = signal := by
  rw [clearDisconnectedSlots,filter_eq_self.mpr h]

theorem Connected.clear_marked (address : Nat) : clearDisconnectedSlots ⟨signal.slots.map fun slot =>
      if slot.address = address then { slot with connected := false } else slot⟩ =
    ⟨signal.slots.filter (·.address ≠ address)⟩ := by
  obtain ⟨slots⟩ := signal
  rw [clearDisconnectedSlots]
  congr 1
  induction slots with
  | nil => rfl
  | cons slot _ ih =>
    have hslot := h slot mem_cons_self
    have ih := ih fun slot hs => h slot (mem_cons_of_mem _ hs)
    by_cases ha : slot.address = address
    · simpa [ha] using ih
    · simpa [ha,hslot] using ih

theorem Connected.disconnect (address : Nat) :
    signal.disconnect address = ⟨signal.slots.filter (·.address ≠ address)⟩ := by
  rw [Signal.disconnect]
  split
  case isTrue => exact h.clear_marked address
  case isFalse hn =>
    have hself : signal.slots.filter (·.address ≠ address) = signal.slots := by
      apply filter_eq_self.mpr
      intro slot hs
      simp only [any_eq_true,beq_iff_eq,not_exists,not_and] at hn
      exact decide_eq_true (hn slot hs)
    rw [hself]

end Signal
end Apollo.Cyber.Base
