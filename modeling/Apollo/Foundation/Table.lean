import Mathlib.Data.List.AList
import Mathlib.Data.List.Perm.Basic

/-! Tables: finite maps with one entry for each key, such as the hash maps of a program. Ordered multimaps as lists: a new
value goes behind those with the same key. -/
namespace Apollo.Foundation

abbrev Table (κ ν : Type) := AList fun _ : κ => ν

namespace Table
variable {κ ν μ : Type} {k k' : κ} {v : ν}

def mapValues (f : κ → ν → μ) (table : Table κ ν) : Table κ μ :=
  ⟨table.entries.map (.map id f),.map₂ f _ table.nodupKeys⟩

variable [DecidableEq κ]

theorem lookup_mapValues (f : κ → ν → μ) (table : Table κ ν) (k : κ) :
    (table.mapValues f).lookup k = (table.lookup k).map (f k) := List.dlookup_map₂ k

theorem lookup_insert_eq_ite (table : Table κ ν) :
    (table.insert k v).lookup k' = if k' = k then some v else table.lookup k' := by
  by_cases h : k' = k
  · subst h
    rw [if_pos rfl,AList.lookup_insert]
  · rw [if_neg h,AList.lookup_insert_ne h]

theorem lookup_erase_eq_ite (table : Table κ ν) :
    (table.erase k).lookup k' = if k' = k then none else table.lookup k' := by
  by_cases h : k' = k
  · subst h
    rw [if_pos rfl,AList.lookup_erase]
  · rw [if_neg h,AList.lookup_erase_ne h]

end Table

namespace Multimap
open List
variable {α κ : Type} [LT κ] [DecidableLT κ] {key : α → κ}

def emplace (key : α → κ) (x : α) : List α → List α
  | [] => [x]
  | y::l => if key x < key y then x::y::l else y::emplace key x l

theorem emplace_perm (x : α) (l : List α) : (emplace key x l).Perm (x::l) := by
  induction l with
  | nil => exact .refl _
  | cons y l ih =>
    rw [emplace]
    split
    · exact .refl _
    · exact (ih.cons y).trans (.swap x y l)

def emplaceAll (key : α → κ) (l xs : List α) : List α := xs.foldl (fun l x => emplace key x l) l

theorem emplaceAll_perm (l xs : List α) : (emplaceAll key l xs).Perm (l ++ xs) := by
  induction xs generalizing l with
  | nil => rw [append_nil]; exact .refl _
  | cons x xs ih =>
    have hhead : (emplace key x l ++ xs).Perm (x::l ++ xs) := (emplace_perm x l).append_right xs
    exact (ih (emplace key x l)).trans (hhead.trans perm_middle.symm)

variable [LE κ] [Std.IsLinearOrder κ] [Std.LawfulOrderLT κ]

def Sorted (key : α → κ) (l : List α) : Prop := l.Pairwise fun x y => key x ≤ key y

theorem Sorted.emplace {x : α} {l : List α} (h : Sorted key l) : Sorted key (emplace key x l) := by
  induction l with
  | nil => exact pairwise_singleton ..
  | cons _ l ih =>
    obtain ⟨hy,hl⟩ := pairwise_cons.mp h
    rw [Multimap.emplace]
    split
    case isTrue hlt =>
      refine pairwise_cons.mpr ⟨fun z hz => ?_,h⟩
      have hle := Std.le_of_lt hlt
      rcases mem_cons.mp hz with rfl | hz
      · exact hle
      · exact Std.le_trans hle (hy z hz)
    case isFalse hlt =>
      refine pairwise_cons.mpr ⟨fun z hz => ?_,ih hl⟩
      rcases mem_cons.mp ((emplace_perm x l).mem_iff.mp hz) with rfl | hz
      · exact Std.not_lt.mp hlt
      · exact hy z hz

theorem Sorted.emplaceAll {l : List α} (h : Sorted key l) (xs : List α) : Sorted key (emplaceAll key l xs) := by
  induction xs generalizing l with
  | nil => exact h
  | cons _ _ ih => exact ih h.emplace

end Multimap
end Apollo.Foundation
