import Mathlib.Data.List.Forall2

/-! Loops over lists whose rounds can fail. A failure ends the loop. -/
namespace Apollo.Foundation
open List Option
variable {α β σ : Type}
variable {f : α → Option β} {xs items : List α}

theorem forall₂_of_mapM {ys : List β} (h : xs.mapM f = some ys) : List.Forall₂ (fun x y => f x = some y) xs ys := by
  induction xs generalizing ys with
  | nil =>
    cases h
    exact .nil
  | cons _ _ ih =>
    rw [mapM_cons] at h
    obtain ⟨y,hy,h⟩ := bind_eq_some_iff.mp h
    obtain ⟨_,hrest,h⟩ := bind_eq_some_iff.mp h
    cases h
    exact .cons hy (ih hrest)

theorem exists_of_mem_mapM {ys : List β} (h : xs.mapM f = some ys) {x : α} (hx : x ∈ xs) : ∃ y ∈ ys, f x = some y := by
  obtain ⟨i,hi,rfl⟩ := getElem_of_mem hx
  have hall := forall₂_of_mapM h
  have hlt := hall.length_eq ▸ hi
  exact ⟨ys[i],getElem_mem hlt,hall.get hi hlt⟩

theorem exists_mapM (h : ∀ x ∈ xs, ∃ y, f x = some y) : ∃ ys, xs.mapM f = some ys := by
  induction xs with
  | nil => exact ⟨[],rfl⟩
  | cons x xs ih =>
    obtain ⟨⟨y,hy⟩,hxs⟩ := forall_mem_cons.mp h
    obtain ⟨ys,hys⟩ := ih hxs
    rw [mapM_cons,hy,hys]
    exact ⟨y::ys,rfl⟩

theorem mapM_eq_map {g : α → β} (h : ∀ x ∈ xs, f x = some (g x)) : xs.mapM f = some (xs.map g) := by
  induction xs with
  | nil => rfl
  | cons _ _ ih =>
    obtain ⟨hx,hxs⟩ := forall_mem_cons.mp h
    rw [mapM_cons,hx,ih hxs]
    rfl

theorem mapM_id_eq_some {xs : List (Option α)} {ys : List α} (h : xs.mapM id = some ys) : xs = ys.map some := by
  have hsame : List.Forall₂ (· = ·) xs (ys.map some) := forall₂_map_right_iff.mpr (forall₂_of_mapM h)
  rwa [forall₂_eq_eq_eq] at hsame

theorem foldlM_keeps {P : σ → Prop} {f : σ → α → Option σ} {s t : σ}
    (keep : ∀ a ∈ items, ∀ s t, P s → f s a = some t → P t) (hs : P s) (h : items.foldlM f s = some t) : P t := by
  induction items generalizing s with
  | nil =>
    cases h
    exact hs
  | cons _ _ ih =>
    obtain ⟨ha,hitems⟩ := forall_mem_cons.mp keep
    obtain ⟨u,hu,ht⟩ := bind_eq_some_iff.mp h
    exact ih hitems (ha s u hs hu) ht

end Apollo.Foundation
