import Mathlib.Algebra.BigOperators.Group.Finset.Basic

/-! Search of a target with a queue of vertices and a set of visited ones. On finitely many
vertices it ends and decides reachability. -/
namespace Apollo.Foundation.Search
open List Relation.ReflTransGen
variable {α : Type} {succ : α → List α} {target : α}

def Reach (succ : α → List α) : α → α → Prop := Relation.ReflTransGen fun x y => y ∈ succ x

/-- Visited vertices lead to visited or queued ones. -/
def Closed (succ : α → List α) (visited queue : List α) : Prop := ∀ x ∈ visited, ∀ y ∈ succ x, y ∈ visited ∨ y ∈ queue

variable {visited queue : List α} {x : α} {vertices : Finset α}

theorem Closed.exit (h : Closed succ visited queue) (hx : x ∈ visited) (ht : target ∉ visited)
    (hr : Reach succ x target) : ∃ y ∈ queue, Reach succ y target := by
  induction hr using head_induction_on with
  | refl => exact absurd hx ht
  | head hxy hr ih =>
    rcases h _ hx _ hxy with hy | hy
    · exact ih hy
    · exact ⟨_,hy,hr⟩

theorem Closed.visit (h : Closed succ visited (x::queue)) : Closed succ (x::visited) (queue ++ succ x) := by
  intro y hy z hz
  rcases mem_cons.mp hy with rfl | hy
  · exact .inr (mem_append_right _ hz)
  · rcases h y hy z hz with hv | hq
    · exact .inl (mem_cons_of_mem _ hv)
    · rcases mem_cons.mp hq with rfl | hq
      · exact .inl mem_cons_self
      · exact .inr (mem_append_left _ hq)

variable [DecidableEq α]

/-- The search with a bound on the number of vertices it takes from the queue. -/
def traverse (succ : α → List α) (target : α) : Nat → List α → List α → Option Bool
  | 0, _, _ => none
  | _+1, visited, [] => some (target ∈ visited)
  | n+1, visited, x::queue =>
      if x ∈ visited then traverse succ target n visited queue
      else if x = target then some true
      else traverse succ target n (x::visited) (queue ++ succ x)

def pending (succ : α → List α) (vertices : Finset α) (visited : List α) : Nat :=
  ∑ x ∈ vertices \ visited.toFinset, (succ x).length

theorem pending_visit (hs : x ∉ vertices → succ x = []) (hv : x ∉ visited) :
    pending succ vertices (x::visited)+(succ x).length = pending succ vertices visited := by
  rw [pending,pending,toFinset_cons,Finset.sdiff_insert]
  by_cases hx : x ∈ vertices
  · have hmem : x ∈ vertices \ visited.toFinset := by simp [hx,hv]
    exact Finset.sum_erase_add _ _ hmem
  · rw [Finset.erase_eq_of_notMem fun h => hx (Finset.mem_sdiff.mp h).1,hs hx,length_nil,add_zero]

/-- With enough fuel the search ends, and finds the target exactly if a queued vertex
reaches it. -/
theorem traverse_spec (hs : ∀ x, x ∉ vertices → succ x = []) {fuel : Nat}
    (hf : queue.length+pending succ vertices visited < fuel) (ht : target ∉ visited)
    (hc : Closed succ visited queue) : ∃ b, traverse succ target fuel visited queue = some b ∧
      (b = true ↔ ∃ x ∈ queue, Reach succ x target) := by
  induction fuel generalizing visited queue with
  | zero => omega
  | succ n ih =>
    cases queue with
    | nil => exact ⟨false,by simp [traverse,ht],by simp⟩
    | cons x queue =>
      rw [length_cons] at hf
      rw [traverse]
      by_cases hx : x ∈ visited
      · have hc' : Closed succ visited queue := by
          intro y hy z hz
          rcases hc y hy z hz with hv | hq
          · exact .inl hv
          · rcases mem_cons.mp hq with rfl | hq
            · exact .inl hx
            · exact .inr hq
        obtain ⟨b,hb,hiff⟩ := ih (by omega) ht hc'
        refine ⟨b,(if_pos hx).trans hb,hiff.trans ⟨?_,?_⟩⟩
        · rintro ⟨y,hy,hr⟩
          exact ⟨y,mem_cons_of_mem _ hy,hr⟩
        · rintro ⟨y,hy,hr⟩
          rcases mem_cons.mp hy with rfl | hy
          · exact hc'.exit hx ht hr
          · exact ⟨y,hy,hr⟩
      · rw [if_neg hx]
        by_cases he : x = target
        · subst he
          exact ⟨true,if_pos rfl,by simpa using .inl .refl⟩
        · rw [if_neg he]
          have hpend : (queue ++ succ x).length+pending succ vertices (x::visited) < n := by
            rw [length_append]
            have := pending_visit (hs x) hx
            omega
          obtain ⟨b,hb,hiff⟩ := ih hpend (by simp [ht,Ne.symm he]) hc.visit
          refine ⟨b,hb,hiff.trans ⟨?_,?_⟩⟩
          · rintro ⟨y,hy,hr⟩
            rcases mem_append.mp hy with hy | hy
            · exact ⟨y,mem_cons_of_mem _ hy,hr⟩
            · exact ⟨x,mem_cons_self,.head hy hr⟩
          · rintro ⟨y,hy,hr⟩
            rcases mem_cons.mp hy with rfl | hy
            · rcases cases_head hr with heq | ⟨z,hz,hr⟩
              · exact absurd heq he
              · exact ⟨z,mem_append_right _ hz,hr⟩
            · exact ⟨y,mem_append_left _ hy,hr⟩

end Apollo.Foundation.Search
