import Mathlib.Logic.Equiv.Basic

/-! Objects with one owner: every owned object is live and no two owners share one. Objects
are freed, granted while fresh, or exchanged between two owners. -/
namespace Apollo.Foundation
variable {ω α : Type} {owns owns' : ω → α → Prop} {live live' : α → Prop}

structure Owned (owns : ω → α → Prop) (live : α → Prop) : Prop where
  live : ∀ o x, owns o x → live x
  unique : ∀ o o' x, owns o x → owns o' x → o = o'

namespace Owned

variable (h : Owned owns live)
include h

theorem sub (hs : ∀ o x, owns' o x → owns o x ∧ live' x) : Owned owns' live' where
  live o x ho := (hs o x ho).2
  unique o o' x ho ho' := h.unique o o' x (hs o x ho).1 (hs o' x ho').1

theorem grant (a : ω) (y : α) (hx : ¬ live y) (hs : ∀ o x, owns' o x → owns o x ∨ o = a ∧ x = y)
    (hl : ∀ x, live x ∨ x = y → live' x) : Owned owns' live' where
  live o x ho := by
    rcases hs o x ho with ho | ⟨_,he⟩
    · exact hl x (.inl (h.live o x ho))
    · exact hl x (.inr he)
  unique o o' x ho ho' := by
    rcases hs o x ho with ho | ⟨rfl,rfl⟩
    · rcases hs o' x ho' with ho' | ⟨_,rfl⟩
      · exact h.unique o o' x ho ho'
      · exact absurd (h.live o x ho) hx
    · rcases hs o' x ho' with ho' | ⟨rfl,_⟩
      · exact absurd (h.live o' x ho') hx
      · rfl

theorem give (a b : ω) (hs : ∀ o x, owns' o x → o ≠ a ∧ (owns o x ∨ o = b ∧ owns a x)) : Owned owns' live where
  live o x ho := by
    rcases (hs o x ho).2 with ho | ⟨_,ho⟩
    · exact h.live o x ho
    · exact h.live a x ho
  unique o o' x ho ho' := by
    obtain ⟨hne,ho⟩ := hs o x ho
    obtain ⟨hne',ho'⟩ := hs o' x ho'
    rcases ho with ho | ⟨rfl,ho⟩
    · rcases ho' with ho' | ⟨_,ho'⟩
      · exact h.unique o o' x ho ho'
      · exact absurd (h.unique o a x ho ho') hne
    · rcases ho' with ho' | ⟨rfl,_⟩
      · exact absurd (h.unique o' a x ho' ho) hne'
      · rfl

theorem swap [DecidableEq ω] (a b : ω) (hs : ∀ o x, owns' o x → owns (Equiv.swap a b o) x) : Owned owns' live where
  live o x ho := h.live _ x (hs o x ho)
  unique o o' x ho ho' := (Equiv.swap a b).injective (h.unique _ _ x (hs o x ho) (hs o' x ho'))

end Owned
end Apollo.Foundation
