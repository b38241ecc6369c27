import Apollo.Foundation.Fuel

/-! `DisjointSetFind` and `DisjointSetUnion`. A function that gives each element its root is kept by the lookups and
merged by the unions. -/
namespace Apollo.Modules.Common.Util
open Foundation Function Relation

/-- The fields of the elements, which are the members of `T`. -/
structure DisjointSet (T : Type) where
  parent : T → T
  nodeRank : T → Nat

namespace DisjointSet
variable {T : Type} [DecidableEq T]

def makeSets : DisjointSet T := ⟨id,fun _ => 0⟩

def setParent (s : DisjointSet T) (x y : T) : DisjointSet T := { s with parent := update s.parent x y }

def findRecursive (s : DisjointSet T) : Nat → T → Option (T × DisjointSet T)
  | 0, _ => none
  | fuel+1, x =>
    if s.parent x ≠ x then (s.findRecursive fuel (s.parent x)).map fun found => (found.1, found.2.setParent x found.1)
    else some (s.parent x, s)

def find (s : DisjointSet T) (fuel : Nat) (x : T) : Option (T × DisjointSet T) :=
  let y := s.parent x
  if y = x ∨ s.parent y = y then some (y, s)
  else (s.findRecursive fuel (s.parent y)).map fun found =>
    (found.1, (found.2.setParent x found.1).setParent y found.1)

/-- The end of `DisjointSetUnion`, for two roots. -/
def link (s : DisjointSet T) (x y : T) : DisjointSet T :=
  if x = y then s
  else if s.nodeRank x < s.nodeRank y then s.setParent x y
  else if s.nodeRank y < s.nodeRank x then s.setParent y x
  else { s.setParent y x with nodeRank := update s.nodeRank x (s.nodeRank x+1) }

def union (s : DisjointSet T) (fuel : Nat) (x y : T) : Option (DisjointSet T) :=
  (s.find fuel x).bind fun foundX => (foundX.2.find fuel y).map fun foundY => foundY.2.link foundX.1 foundY.1

inductive Call (T : Type) where
  | find (x : T)
  | union (x y : T)

def call (fuel : Nat) (s : DisjointSet T) : Call T → Option (DisjointSet T)
  | .find x => (s.find fuel x).map Prod.snd
  | .union x y => s.union fuel x y

def run (calls : List (Call T)) (fuel : Nat) : Option (DisjointSet T) := calls.foldlM (call fuel) makeSets

structure Forest (s : DisjointSet T) (root : T → T) : Prop where
  rank_lt : ∀ x, s.parent x ≠ x → s.nodeRank x < s.nodeRank (s.parent x)
  bounded : ∃ n, ∀ x, s.nodeRank x ≤ n
  parent_root : ∀ x, s.parent (root x) = root x
  root_parent : ∀ x, root (s.parent x) = root x
  root_eq : ∀ x, s.parent x = x → root x = x

namespace Forest
variable {s : DisjointSet T} {root : T → T}
variable (h : s.Forest root)
include h

/-- Induction from the parents to their children. -/
theorem induct {P : T → Prop} (top : ∀ x, s.parent x = x → P x) (child : ∀ x, s.parent x ≠ x → P (s.parent x) → P x)
    (x : T) : P x := by
  obtain ⟨n,hn⟩ := h.bounded
  induction hk : n - s.nodeRank x using Nat.strong_induction_on generalizing x with
  | _ _ ih =>
    by_cases hx : s.parent x = x
    · exact top x hx
    · have hlt := h.rank_lt x hx
      have hle := hn (s.parent x)
      exact child x hx (ih _ (by omega) (s.parent x) rfl)

omit [DecidableEq T] in
theorem not_root {x : T} (hx : s.parent x ≠ x) : root x ≠ x :=
  fun heq => hx (heq ▸ h.parent_root x)

theorem exists_iterate (x : T) : ∃ n, s.parent^[n] x = root x := by
  induction x using h.induct with
  | top x hx => exact ⟨0,(h.root_eq x hx).symm⟩
  | child x _ ih =>
    obtain ⟨n,hn⟩ := ih
    exact ⟨n+1,hn.trans (h.root_parent x)⟩

omit [DecidableEq T] in
theorem root_root (x : T) : root (root x) = root x := h.root_eq _ (h.parent_root x)

theorem rank_lt_root (x : T) (hx : root x ≠ x) : s.nodeRank x < s.nodeRank (root x) := by
  induction x using h.induct with
  | top x hx' => exact absurd (h.root_eq x hx') hx
  | child x hx' ih =>
    rw [← h.root_parent x]
    have hlt := h.rank_lt x hx'
    by_cases hp : root (s.parent x) = s.parent x
    · rwa [hp]
    · exact hlt.trans (ih hp)

/-- A path may be shortened to its root. -/
theorem setParent {x : T} (hx : root x ≠ x) : (s.setParent x (root x)).Forest root := by
  have hother {z : T} (hz : z ≠ x) : (s.setParent x (root x)).parent z = s.parent z := update_of_ne hz ..
  have hself : (s.setParent x (root x)).parent x = root x := update_self ..
  refine ⟨fun z hz => ?_,h.bounded,fun z => ?_,fun z => ?_,fun z hz => ?_⟩
  · rcases eq_or_ne z x with rfl | hne
    · rw [hself]
      exact h.rank_lt_root z hx
    · rw [hother hne] at hz ⊢
      exact h.rank_lt z hz
  · rw [hother,h.parent_root]
    rintro rfl
    exact hx (h.root_root z)
  · rcases eq_or_ne z x with rfl | hne
    · rw [hself,h.root_root]
    · rw [hother hne,h.root_parent]
  · rcases eq_or_ne z x with rfl | hne
    · rwa [hself] at hz
    · exact h.root_eq z (hother hne ▸ hz)

/-- A root is put below another one, whose rank may grow. -/
theorem below {x y : T} {rank : Nat} (hx : s.parent x = x) (hy : s.parent y = y) (hne : x ≠ y)
    (hlt : s.nodeRank x < rank) (hle : s.nodeRank y ≤ rank) :
    Forest ⟨update s.parent x y,update s.nodeRank y rank⟩ ((fun z => if z = x then y else z) ∘ root) := by
  have hranks (z : T) : s.nodeRank z ≤ update s.nodeRank y rank z := by
    rcases eq_or_ne z y with rfl | hz
    · rwa [update_self]
    · rw [update_of_ne hz]
  refine ⟨fun z hz => ?_,?_,fun z => ?_,fun z => ?_,fun z hz => ?_⟩ <;> dsimp only [comp_apply] at *
  · rcases eq_or_ne z x with rfl | hzx
    · rwa [update_self,update_self,update_of_ne hne]
    · rw [update_of_ne hzx] at hz ⊢
      have hzy : z ≠ y := fun heq => hz (heq ▸ hy)
      rw [update_of_ne hzy]
      exact (h.rank_lt z hz).trans_le (hranks _)
  · obtain ⟨n,hn⟩ := h.bounded
    refine ⟨max n rank,fun z => ?_⟩
    rcases eq_or_ne z y with rfl | hz
    · rw [update_self]
      exact le_max_right n rank
    · rw [update_of_ne hz]
      exact (hn z).trans (le_max_left n rank)
  · split
    next => rw [update_of_ne hne.symm,hy]
    next hz => rw [update_of_ne hz,h.parent_root]
  · rcases eq_or_ne z x with rfl | hz
    · rw [update_self,h.root_eq y hy,h.root_eq z hx,if_neg hne.symm,if_pos rfl]
    · rw [update_of_ne hz,h.root_parent]
  · rcases eq_or_ne z x with rfl | hzx
    · rw [update_self] at hz
      exact absurd hz hne.symm
    · rw [update_of_ne hzx] at hz
      rw [h.root_eq z hz,if_neg hzx]

end Forest

namespace Forest
variable {s : DisjointSet T} {root : T → T}

theorem findRecursive_returns (h : s.Forest root) (x : T) :
    ∃ t, Returns (fun fuel => s.findRecursive fuel x) (root x, t) ∧ t.Forest root := by
  induction x using h.induct with
  | top x hx =>
    refine ⟨s,(returns_const _).succ fun fuel => ?_,h⟩
    rw [findRecursive,if_neg (not_not.mpr hx),hx,h.root_eq x hx]
  | child x hx ih =>
    obtain ⟨t,hreturns,ht⟩ := ih
    rw [h.root_parent] at hreturns
    have hround := hreturns.map fun found => (found.1, found.2.setParent x found.1)
    exact ⟨_,hround.succ fun _ => if_pos hx,ht.setParent (h.not_root hx)⟩

theorem find_returns (h : s.Forest root) (x : T) :
    ∃ t, Returns (fun fuel => s.find fuel x) (root x, t) ∧ t.Forest root := by
  by_cases hnear : s.parent x = x ∨ s.parent (s.parent x) = s.parent x
  · have hroot : root x = s.parent x := by
      rw [← h.root_parent x]
      rcases hnear with hx | hx
      · rw [hx,h.root_eq x hx]
      · rw [h.root_eq _ hx]
    exact ⟨s,⟨0,fun _ _ => (if_pos hnear).trans (by rw [hroot])⟩,h⟩
  · obtain ⟨hx,hy⟩ := not_or.mp hnear
    obtain ⟨t,hreturns,ht⟩ := h.findRecursive_returns (s.parent (s.parent x))
    rw [h.root_parent,h.root_parent] at hreturns
    have hset := (ht.setParent (h.not_root hx)).setParent (h.not_root hy)
    rw [h.root_parent] at hset
    have hcall : (fun fuel => s.find fuel x) = _ := funext fun _ => if_neg hnear
    exact ⟨_,hcall ▸ hreturns.map _,hset⟩

/-- The roots after a union are those of before, but for one of the two. -/
theorem exists_link (h : s.Forest root) {x y : T} (hx : s.parent x = x) (hy : s.parent y = y) :
    ∃ merge : T → T, (s.link x y).Forest (merge ∘ root) ∧ merge x = merge y ∧
      ∀ u v, merge u = merge v → u = v ∨ u = x ∧ v = y ∨ u = y ∧ v = x := by
  have hmerge (a b u v : T) (heq : (if u = a then b else u) = if v = a then b else v) :
      u = v ∨ u = a ∧ v = b ∨ u = b ∧ v = a := by
    split at heq <;> split at heq <;> simp_all
  rw [link]
  split
  next heq => exact ⟨id,h,heq,fun _ _ huv => .inl huv⟩
  next hne =>
    split
    next hlt =>
      have hbelow := h.below hx hy hne hlt le_rfl
      rw [update_eq_self] at hbelow
      exact ⟨_,hbelow,by simp [Ne.symm hne],hmerge x y⟩
    next hge =>
      have hswap (u v : T) (heq : (if u = y then x else u) = if v = y then x else v) := (hmerge y x u v heq).imp_right Or.symm
      split
      next hlt =>
        have hbelow := h.below hy hx (Ne.symm hne) hlt le_rfl
        rw [update_eq_self] at hbelow
        exact ⟨_,hbelow,by simp [hne],hswap⟩
      next hge' =>
        exact ⟨_,h.below hy hx (Ne.symm hne) (by omega) (Nat.le_succ _),by simp [hne],hswap⟩

end Forest

def Connected (calls : List (Call T)) : T → T → Prop := EqvGen fun u v => .union u v ∈ calls

omit [DecidableEq T] in
theorem Connected.eq {calls : List (Call T)} {f : T → T} (h : ∀ u v, .union u v ∈ calls → f u = f v) {u v : T}
    (huv : Connected calls u v) : f u = f v := by
  induction huv with
  | rel a b hab => exact h a b hab
  | refl => rfl
  | symm _ _ _ ih => exact ih.symm
  | trans _ _ _ _ _ ih ih' => exact ih.trans ih'

structure Classes (s : DisjointSet T) (calls : List (Call T)) (root : T → T) : Prop where
  forest : s.Forest root
  iff : ∀ u v, root u = root v ↔ Connected calls u v

theorem Classes.call_returns {s : DisjointSet T} {calls : List (Call T)} {root : T → T} (h : s.Classes calls root)
    (c : Call T) : ∃ t root', Returns (fun fuel => call fuel s c) t ∧ t.Classes (calls ++ [c]) root' := by
  have hmono {u v : T} (huv : Connected calls u v) : Connected (calls ++ [c]) u v :=
    huv.mono fun a b hab => List.mem_append_left _ hab
  cases c with
  | find x =>
    obtain ⟨t,hreturns,ht⟩ := h.forest.find_returns x
    refine ⟨t,root,hreturns.map _,ht,fun u v => ?_⟩
    simp [h.iff,Connected]
  | union x y =>
    obtain ⟨t,hx,ht⟩ := h.forest.find_returns x
    obtain ⟨_,hy,ht'⟩ := ht.find_returns y
    obtain ⟨merge,hlink,hxy,hmerge⟩ := ht'.exists_link (ht'.parent_root x) (ht'.parent_root y)
    refine ⟨_,_,hx.bind (hy.map _),hlink,fun u v => ⟨fun huv => ?_,fun huv => ?_⟩⟩
    · have hnew : Connected (calls ++ [.union x y]) x y := .rel _ _ (List.mem_append_right _ (List.mem_singleton_self _))
      rcases hmerge _ _ huv with heq | ⟨hu,hv⟩ | ⟨hu,hv⟩
      · exact hmono ((h.iff u v).mp heq)
      · exact ((hmono ((h.iff u x).mp hu)).trans _ _ _ hnew).trans _ _ _ (hmono ((h.iff y v).mp hv.symm))
      · exact ((hmono ((h.iff u y).mp hu)).trans _ _ _ (hnew.symm _ _)).trans _ _ _ (hmono ((h.iff x v).mp hv.symm))
    · refine huv.eq fun a b hab => ?_
      rcases List.mem_append.mp hab with hab | hab
      · exact congrArg merge ((h.iff a b).mpr (.rel a b hab))
      · cases List.mem_singleton.mp hab
        exact hxy

theorem run_returns (calls : List (Call T)) : ∃ t root, Returns (run calls) t ∧ t.Classes calls root := by
  induction calls using List.reverseRecOn with
  | nil =>
    refine ⟨makeSets,id,returns_const _,⟨fun _ hx => absurd rfl hx,⟨0,fun _ => le_rfl⟩,fun _ => rfl,fun _ => rfl,
      fun _ _ => rfl⟩,fun _ _ => ⟨?_,fun huv => huv.eq (f := id) fun _ _ hab => absurd hab List.not_mem_nil⟩⟩
    rintro rfl
    exact .refl _
  | append_singleton calls c ih =>
    obtain ⟨t,root,hreturns,ht⟩ := ih
    obtain ⟨t',root',hcall,ht'⟩ := ht.call_returns c
    have hrun : run (calls ++ [c]) = fun fuel => (run calls fuel).bind fun s => call fuel s c := by
      funext fuel
      simp [run,List.foldlM_append]
    exact ⟨t',root',hrun ▸ hreturns.bind hcall,ht'⟩

/-- After any calls the ranks increase from child to parent, every lookup returns, and two elements have the same root
exactly if the unions have connected them. -/
theorem run_disjoint (calls : List (Call T)) :
    ∃ s, Returns (run calls) s ∧ (∀ x, s.parent x ≠ x → s.nodeRank x < s.nodeRank (s.parent x)) ∧
      ∃ root : T → T, (∀ x, s.parent (root x) = root x ∧ (∃ n, s.parent^[n] x = root x) ∧
          ∃ t, Returns (fun fuel => s.find fuel x) (root x, t)) ∧
        ∀ x y, root x = root y ↔ Connected calls x y := by
  obtain ⟨s,root,hreturns,h⟩ := run_returns calls
  refine ⟨s,hreturns,h.forest.rank_lt,root,fun x => ?_,h.iff⟩
  obtain ⟨t,hfind,-⟩ := h.forest.find_returns x
  exact ⟨h.forest.parent_root x,h.forest.exists_iterate x,t,hfind⟩

end DisjointSet
end Apollo.Modules.Common.Util
