import Apollo.Foundation.Transition
import Apollo.Foundation.Search
import Mathlib.Data.List.AList
import Mathlib.Algebra.Order.Ring.Nat

/-! The topology graph: for each channel the vertices registered as its sources and destinations, and adjacency lists
under keys composed of the channel and the destination. The adjacency lists against the registrations, as long as no
two edges of a source share a composed key. -/
namespace Apollo.Cyber.ServiceDiscovery
open Foundation

inductive FlowDirection
  | unreachable
  | upstream
  | downstream
  deriving DecidableEq

structure Vertice where
  value : String
  deriving DecidableEq

namespace Vertice

def isDummy (v : Vertice) : Bool := v.value == ""

def getKey (v : Vertice) : String := v.value

end Vertice

structure Edge where
  src : Vertice
  dst : Vertice
  value : String
  deriving DecidableEq

namespace Edge

def isValid (e : Edge) : Bool := e.value != "" && !(e.src.isDummy && e.dst.isDummy)

def getKey (e : Edge) : String := e.value ++ "_" ++ e.dst.getKey

def Outgoing (e : Edge) (c : String) (v : Vertice) : Prop :=
  e.isValid ∧ e.src.isDummy = false ∧ c = e.value ∧ v = e.src

def Incoming (e : Edge) (c : String) (v : Vertice) : Prop :=
  e.isValid ∧ e.dst.isDummy = false ∧ c = e.value ∧ v = e.dst

end Edge

abbrev VerticeSet := AList fun _ : String => Vertice

structure RelatedVertices where
  src : VerticeSet
  dst : VerticeSet

structure Graph where
  edges : AList fun _ : String => RelatedVertices
  list : AList fun _ : String => VerticeSet

namespace Graph

def empty : Graph := ⟨∅,∅⟩

def related (g : Graph) (value : String) : RelatedVertices := (g.edges.lookup value).getD ⟨∅,∅⟩

def adjacent (g : Graph) (key : String) : VerticeSet := (g.list.lookup key).getD ∅

def addVertice (g : Graph) (key : String) : Graph :=
  if key ∈ g.list then g else { g with list := g.list.insert key ∅ }

def insertCompleteEdge (g : Graph) (e : Edge) : Graph :=
  let g := (g.addVertice e.src.getKey).addVertice e.dst.getKey
  { g with list := g.list.insert e.src.getKey ((g.adjacent e.src.getKey).insert e.getKey e.dst) }

def insertOutgoingEdge (g : Graph) (e : Edge) : Graph :=
  let r := g.related e.value
  if e.src.getKey ∈ r.src then g
  else
    let g := { g with edges := g.edges.insert e.value { r with src := r.src.insert e.src.getKey e.src } }
    r.dst.entries.foldl (fun g item => g.insertCompleteEdge ⟨e.src,item.2,e.value⟩) g

def insertIncomingEdge (g : Graph) (e : Edge) : Graph :=
  let r := g.related e.value
  if e.dst.getKey ∈ r.dst then g
  else
    let g := { g with edges := g.edges.insert e.value { r with dst := r.dst.insert e.dst.getKey e.dst } }
    r.src.entries.foldl (fun g item => g.insertCompleteEdge ⟨item.2,e.dst,e.value⟩) g

def addRelated (g : Graph) (value : String) : Graph :=
  if value ∈ g.edges then g else { g with edges := g.edges.insert value ⟨∅,∅⟩ }

def insert (g : Graph) (e : Edge) : Graph :=
  if e.isValid then
    let g := g.addRelated e.value
    let g := if e.src.isDummy then g else g.insertOutgoingEdge e
    if e.dst.isDummy then g else g.insertIncomingEdge e
  else g

def deleteCompleteEdge (g : Graph) (e : Edge) : Graph :=
  { g with list := g.list.insert e.src.getKey ((g.adjacent e.src.getKey).erase e.getKey) }

def deleteOutgoingEdge (g : Graph) (e : Edge) : Graph :=
  let r := g.related e.value
  if e.src.getKey ∈ r.src then
    let g := { g with edges := g.edges.insert e.value { r with src := r.src.erase e.src.getKey } }
    r.dst.entries.foldl (fun g item => g.deleteCompleteEdge ⟨e.src,item.2,e.value⟩) g
  else g

def deleteIncomingEdge (g : Graph) (e : Edge) : Graph :=
  let r := g.related e.value
  if e.dst.getKey ∈ r.dst then
    let g := { g with edges := g.edges.insert e.value { r with dst := r.dst.erase e.dst.getKey } }
    r.src.entries.foldl (fun g item => g.deleteCompleteEdge ⟨item.2,e.dst,e.value⟩) g
  else g

def delete (g : Graph) (e : Edge) : Graph :=
  if e.isValid then
    if e.value ∈ g.edges then
      let g := if e.src.isDummy then g else g.deleteOutgoingEdge e
      if e.dst.isDummy then g else g.deleteIncomingEdge e
    else g
  else g

def getNumOfEdge (g : Graph) : Nat := (g.list.entries.map fun item => item.2.entries.length).sum

def successors (g : Graph) (v : Vertice) : List Vertice := (g.adjacent v.getKey).entries.map fun item => item.2

/-- `LevelTraverse`; each edge is queued at most once, which bounds the loop. -/
def levelTraverse (g : Graph) (first last : Vertice) : Option Bool :=
  Search.traverse g.successors last (g.getNumOfEdge+2) [] [first]

def getDirectionOf (g : Graph) (lhs rhs : Vertice) : Option FlowDirection :=
  if lhs.isDummy || rhs.isDummy then some .unreachable
  else if lhs.getKey ∉ g.list ∨ rhs.getKey ∉ g.list then some .unreachable
  else do
    if ← g.levelTraverse lhs rhs then return .upstream
    if ← g.levelTraverse rhs lhs then return .downstream
    return .unreachable

inductive Event
  | insert (e : Edge)
  | delete (e : Edge)

def step (g : Graph) : Event → Option Graph
  | .insert e => some (g.insert e)
  | .delete e => some (g.delete e)

def system : System Graph Event where
  initial g := g = empty
  step := step

/-- The adjacency relation: an entry of the list of `s` holds `d`. -/
def Adj (g : Graph) (s d : Vertice) : Prop := d ∈ g.successors s

instance (g : Graph) (s d : Vertice) : Decidable (g.Adj s d) := inferInstanceAs (Decidable (_ ∈ _))

def Source (g : Graph) (channel : String) (s : Vertice) : Prop := s.getKey ∈ (g.related channel).src

def Destination (g : Graph) (channel : String) (d : Vertice) : Prop := d.getKey ∈ (g.related channel).dst

instance (g : Graph) (c : String) (s : Vertice) : Decidable (g.Source c s) := inferInstanceAs (Decidable (_ ∈ _))

instance (g : Graph) (c : String) (d : Vertice) : Decidable (g.Destination c d) := inferInstanceAs (Decidable (_ ∈ _))

variable {g : Graph} {e : Edge} {c : String} {v : Vertice}

@[simp] theorem addVertice_edges (key : String) : (g.addVertice key).edges = g.edges := by
  rw [addVertice]
  split <;> rfl

@[simp] theorem insertCompleteEdge_edges : (g.insertCompleteEdge e).edges = g.edges := by
  simp [insertCompleteEdge]

@[simp] theorem deleteCompleteEdge_edges : (g.deleteCompleteEdge e).edges = g.edges := rfl

variable {β : Type} {f : Graph → β → Graph}

theorem foldl_edges (hf : ∀ g x, (f g x).edges = g.edges) (items : List β) : (items.foldl f g).edges = g.edges := by
  induction items generalizing g with
  | nil => rfl
  | cons x _ ih => exact ih.trans (hf g x)

theorem related_congr {h : Graph} (he : h.edges = g.edges) : h.related c = g.related c := by
  rw [related,related,he]

theorem related_insert (r : RelatedVertices) (value : String) :
    ({ g with edges := g.edges.insert value r }).related c = if c = value then r else g.related c := by
  by_cases h : c = value
  · subst h
    simp [related]
  · simp [related,AList.lookup_insert_ne h,h]

theorem related_update (hf : ∀ g x, (f g x).edges = g.edges) (items : List β) (r : RelatedVertices) (value : String)
    (p : Prop) [Decidable p] : (if p then items.foldl f { g with edges := g.edges.insert value r } else g).related c =
      if p ∧ c = value then r else g.related c := by
  by_cases hp : p
  · simpa [hp] using (related_congr (foldl_edges hf items)).trans (related_insert r value)
  · simp [hp]

theorem related_insertOutgoingEdge : (g.insertOutgoingEdge e).related c =
    if e.src.getKey ∉ (g.related e.value).src ∧ c = e.value then
      { g.related e.value with src := (g.related e.value).src.insert e.src.getKey e.src }
    else g.related c := by
  rw [insertOutgoingEdge,← ite_not]
  exact related_update (fun _ _ => insertCompleteEdge_edges) ..

theorem related_insertIncomingEdge : (g.insertIncomingEdge e).related c =
    if e.dst.getKey ∉ (g.related e.value).dst ∧ c = e.value then
      { g.related e.value with dst := (g.related e.value).dst.insert e.dst.getKey e.dst }
    else g.related c := by
  rw [insertIncomingEdge,← ite_not]
  exact related_update (fun _ _ => insertCompleteEdge_edges) ..

theorem related_deleteOutgoingEdge : (g.deleteOutgoingEdge e).related c =
    if e.src.getKey ∈ (g.related e.value).src ∧ c = e.value then
      { g.related e.value with src := (g.related e.value).src.erase e.src.getKey }
    else g.related c := by
  rw [deleteOutgoingEdge]
  exact related_update (fun _ _ => deleteCompleteEdge_edges) ..

theorem related_deleteIncomingEdge : (g.deleteIncomingEdge e).related c =
    if e.dst.getKey ∈ (g.related e.value).dst ∧ c = e.value then
      { g.related e.value with dst := (g.related e.value).dst.erase e.dst.getKey }
    else g.related c := by
  rw [deleteIncomingEdge]
  exact related_update (fun _ _ => deleteCompleteEdge_edges) ..

theorem getKey_inj {w : Vertice} : v.getKey = w.getKey ↔ v = w := by
  cases v
  cases w
  simp [Vertice.getKey]

theorem insertOutgoingEdge_source : (g.insertOutgoingEdge e).Source c v ↔ g.Source c v ∨ c = e.value ∧ v = e.src := by
  rw [Source,related_insertOutgoingEdge,Source]
  split
  case isTrue h =>
    rw [h.2]
    simp [getKey_inj,or_comm]
  case isFalse h =>
    rw [not_and',not_not] at h
    refine ⟨.inl,fun hv => hv.elim id ?_⟩
    rintro ⟨rfl,rfl⟩
    exact h rfl

theorem insertOutgoingEdge_destination : (g.insertOutgoingEdge e).Destination c v ↔ g.Destination c v := by
  rw [Destination,related_insertOutgoingEdge,Destination]
  split
  case isTrue h => rw [h.2]
  case isFalse => rfl

theorem insertIncomingEdge_destination :
    (g.insertIncomingEdge e).Destination c v ↔ g.Destination c v ∨ c = e.value ∧ v = e.dst := by
  rw [Destination,related_insertIncomingEdge,Destination]
  split
  case isTrue h =>
    rw [h.2]
    simp [getKey_inj,or_comm]
  case isFalse h =>
    rw [not_and',not_not] at h
    refine ⟨.inl,fun hv => hv.elim id ?_⟩
    rintro ⟨rfl,rfl⟩
    exact h rfl

theorem insertIncomingEdge_source : (g.insertIncomingEdge e).Source c v ↔ g.Source c v := by
  rw [Source,related_insertIncomingEdge,Source]
  split
  case isTrue h => rw [h.2]
  case isFalse => rfl

theorem deleteOutgoingEdge_source :
    (g.deleteOutgoingEdge e).Source c v ↔ g.Source c v ∧ ¬ (c = e.value ∧ v = e.src) := by
  rw [Source,related_deleteOutgoingEdge,Source]
  split
  case isTrue h =>
    rw [h.2]
    simp [getKey_inj,and_comm]
  case isFalse h =>
    refine ⟨fun hv => ⟨hv,?_⟩,And.left⟩
    rintro ⟨rfl,rfl⟩
    exact h ⟨hv,rfl⟩

theorem deleteOutgoingEdge_destination : (g.deleteOutgoingEdge e).Destination c v ↔ g.Destination c v := by
  rw [Destination,related_deleteOutgoingEdge,Destination]
  split
  case isTrue h => rw [h.2]
  case isFalse => rfl

theorem deleteIncomingEdge_destination :
    (g.deleteIncomingEdge e).Destination c v ↔ g.Destination c v ∧ ¬ (c = e.value ∧ v = e.dst) := by
  rw [Destination,related_deleteIncomingEdge,Destination]
  split
  case isTrue h =>
    rw [h.2]
    simp [getKey_inj,and_comm]
  case isFalse h =>
    refine ⟨fun hv => ⟨hv,?_⟩,And.left⟩
    rintro ⟨rfl,rfl⟩
    exact h ⟨hv,rfl⟩

theorem deleteIncomingEdge_source : (g.deleteIncomingEdge e).Source c v ↔ g.Source c v := by
  rw [Source,related_deleteIncomingEdge,Source]
  split
  case isTrue h => rw [h.2]
  case isFalse => rfl

theorem related_of_notMem (h : c ∉ g.edges) : g.related c = ⟨∅,∅⟩ := by
  rw [related,AList.lookup_eq_none.mpr h,Option.getD_none]

@[simp] theorem related_addRelated (value : String) : (g.addRelated value).related c = g.related c := by
  rw [addRelated]
  split
  case isTrue => rfl
  case isFalse h =>
    rw [related_insert]
    split
    case isTrue hc => rw [hc,related_of_notMem h]
    case isFalse => rfl

@[simp] theorem list_addRelated (value : String) : (g.addRelated value).list = g.list := by
  rw [addRelated]
  split <;> rfl

@[simp] theorem addRelated_source (value : String) : (g.addRelated value).Source c v ↔ g.Source c v := by
  rw [Source,related_addRelated,Source]

@[simp] theorem addRelated_destination (value : String) :
    (g.addRelated value).Destination c v ↔ g.Destination c v := by
  rw [Destination,related_addRelated,Destination]

theorem insert_source : (g.insert e).Source c v ↔ g.Source c v ∨ e.Outgoing c v := by
  by_cases hv : e.isValid = true <;> by_cases hs : e.src.isDummy = true <;> by_cases hd : e.dst.isDummy = true <;>
    simp [insert,Edge.Outgoing,hv,hs,hd,insertOutgoingEdge_source,insertIncomingEdge_source]

theorem insert_destination : (g.insert e).Destination c v ↔ g.Destination c v ∨ e.Incoming c v := by
  by_cases hv : e.isValid = true <;> by_cases hs : e.src.isDummy = true <;> by_cases hd : e.dst.isDummy = true <;>
    simp [insert,Edge.Incoming,hv,hs,hd,insertOutgoingEdge_destination,insertIncomingEdge_destination]

theorem delete_source : (g.delete e).Source c v ↔ g.Source c v ∧ ¬ e.Outgoing c v := by
  rw [delete,Edge.Outgoing]
  by_cases hm : e.value ∈ g.edges
  · by_cases hv : e.isValid = true <;> by_cases hs : e.src.isDummy = true <;> by_cases hd : e.dst.isDummy = true <;>
      simp [hv,hs,hd,hm,deleteOutgoingEdge_source,deleteIncomingEdge_source]
  · have hn : g.Source c v → c ≠ e.value := by
      rintro h rfl
      simp [Source,related_of_notMem hm] at h
    simp only [hm,if_false,ite_self]
    exact ⟨fun h => ⟨h,fun he => hn h he.2.2.1⟩,And.left⟩

theorem delete_destination : (g.delete e).Destination c v ↔ g.Destination c v ∧ ¬ e.Incoming c v := by
  rw [delete,Edge.Incoming]
  by_cases hm : e.value ∈ g.edges
  · by_cases hv : e.isValid = true <;> by_cases hs : e.src.isDummy = true <;> by_cases hd : e.dst.isDummy = true <;>
      simp [hv,hs,hd,hm,deleteOutgoingEdge_destination,deleteIncomingEdge_destination]
  · have hn : g.Destination c v → c ≠ e.value := by
      rintro h rfl
      simp [Destination,related_of_notMem hm] at h
    simp only [hm,if_false,ite_self]
    exact ⟨fun h => ⟨h,fun he => hn h he.2.2.1⟩,And.left⟩

open List AList Search Relation.ReflTransGen
variable {g h : Graph} {e : Edge} {es : List Edge} {c k x : String} {s d v : Vertice}
  {E F : Edge → Prop}

def entry (g : Graph) (x k : String) : Option Vertice := (g.adjacent x).lookup k

/-- Source and destination of the edge are registered for its channel. -/
def Complete (g : Graph) (e : Edge) : Prop := g.Source e.value e.src ∧ g.Destination e.value e.dst

/-- Some channel has `s` as a source and `d` as a destination. -/
def Flows (g : Graph) (s d : Vertice) : Prop := ∃ c, g.Complete ⟨s,d,c⟩

/-- No two of the edges share their source and their composed key. -/
def Distinct (E : Edge → Prop) : Prop := ∀ ⦃e₁ e₂⦄, E e₁ → E e₂ → e₁.src = e₂.src → e₁.getKey = e₂.getKey → e₁ = e₂

/-- The complete edges after the registrations of an inserted edge are distinct. -/
def Unambiguous (g : Graph) : Event → Prop
  | .insert e => Distinct fun f => (g.Source f.value f.src ∨ e.Outgoing f.value f.src) ∧
      (g.Destination f.value f.dst ∨ e.Incoming f.value f.dst)
  | .delete _ => True

/-- The lists hold the destinations of the edges of `E` under their keys. -/
def Lists (g : Graph) (E : Edge → Prop) : Prop :=
  ∀ x k d, g.entry x k = some d ↔ ∃ e, E e ∧ e.src.getKey = x ∧ e.getKey = k ∧ e.dst = d

theorem adjacent_insert (set : VerticeSet) (key : String) :
    ({ g with list := g.list.insert key set }).adjacent x = if x = key then set else g.adjacent x := by
  by_cases hx : x = key
  · subst hx
    simp [adjacent]
  · simp [adjacent,lookup_insert_ne hx,hx]

@[simp] theorem adjacent_addVertice (key : String) : (g.addVertice key).adjacent x = g.adjacent x := by
  rw [addVertice]
  split
  case isTrue => rfl
  case isFalse hk =>
    rw [adjacent_insert]
    split
    case isTrue hx => rw [hx,adjacent,lookup_eq_none.mpr hk,Option.getD_none]
    case isFalse => rfl

theorem entry_insertCompleteEdge : (g.insertCompleteEdge e).entry x k =
    if e.src.getKey = x ∧ e.getKey = k then some e.dst else g.entry x k := by
  rw [entry,insertCompleteEdge,adjacent_insert]
  by_cases hx : x = e.src.getKey
  · subst hx
    by_cases hk : k = e.getKey
    · subst hk
      simp
    · simp [lookup_insert_ne hk,Ne.symm hk,entry]
  · simp [hx,Ne.symm hx,entry]

theorem entry_deleteCompleteEdge : (g.deleteCompleteEdge e).entry x k =
    if e.src.getKey = x ∧ e.getKey = k then none else g.entry x k := by
  rw [entry,deleteCompleteEdge,adjacent_insert]
  by_cases hx : x = e.src.getKey
  · subst hx
    by_cases hk : k = e.getKey
    · subst hk
      simp
    · simp [lookup_erase_ne hk,Ne.symm hk,entry]
  · simp [hx,Ne.symm hx,entry]

theorem Distinct.mono (hE : Distinct E) (h : ∀ e, F e → E e) : Distinct F :=
  fun _ _ h₁ h₂ => hE (h _ h₁) (h _ h₂)

section
variable (hL : g.Lists E)
include hL

theorem Lists.congr (hl : h.list = g.list) (hE : ∀ e, F e ↔ E e) : h.Lists F := by
  intro x k d
  have he : h.entry x k = g.entry x k := by rw [entry,entry,adjacent,adjacent,hl]
  simpa [he,hE] using hL x k d

theorem Lists.insertCompleteEdge (hE : Distinct fun f => E f ∨ f = e) :
    (g.insertCompleteEdge e).Lists fun f => E f ∨ f = e := by
  intro _ _ _
  rw [entry_insertCompleteEdge]
  split
  case isTrue he =>
    rw [Option.some_inj]
    refine ⟨fun hd => ⟨e,.inr rfl,he.1,he.2,hd⟩,?_⟩
    rintro ⟨f,hf,hx,hk,rfl⟩
    rw [hE hf (.inr rfl) (getKey_inj.mp (hx.trans he.1.symm)) (hk.trans he.2.symm)]
  case isFalse he =>
    rw [hL]
    constructor
    · rintro ⟨f,hf,hrest⟩
      exact ⟨f,.inl hf,hrest⟩
    · rintro ⟨f,hf | rfl,hx,hk,hd⟩
      · exact ⟨f,hf,hx,hk,hd⟩
      · exact absurd ⟨hx,hk⟩ he

theorem Lists.foldl_insert (hE : Distinct fun f => E f ∨ f ∈ es) :
    (es.foldl Graph.insertCompleteEdge g).Lists fun f => E f ∨ f ∈ es := by
  induction es generalizing g E with
  | nil => exact hL.congr rfl (by simp)
  | cons e es ih =>
    have hadd : ∀ f, (E f ∨ f = e) ∨ f ∈ es ↔ E f ∨ f ∈ e::es := by simp [or_assoc]
    have hnext := hL.insertCompleteEdge (hE.mono fun f hf => (hadd f).mp (.inl hf))
    exact (ih hnext (hE.mono fun f => (hadd f).mp)).congr rfl fun f => (hadd f).symm

theorem Lists.deleteCompleteEdge (hE : Distinct fun f => E f ∨ f = e) :
    (g.deleteCompleteEdge e).Lists fun f => E f ∧ f ≠ e := by
  intro _ _ _
  rw [entry_deleteCompleteEdge]
  split
  case isTrue he =>
    refine ⟨nofun,?_⟩
    rintro ⟨f,⟨hf,hne⟩,hx,hk,rfl⟩
    exact absurd (hE (.inl hf) (.inr rfl) (getKey_inj.mp (hx.trans he.1.symm)) (hk.trans he.2.symm)) hne
  case isFalse he =>
    rw [hL]
    constructor
    · rintro ⟨f,hf,hx,hk,hd⟩
      refine ⟨f,⟨hf,?_⟩,hx,hk,hd⟩
      rintro rfl
      exact he ⟨hx,hk⟩
    · rintro ⟨f,⟨hf,_⟩,hrest⟩
      exact ⟨f,hf,hrest⟩

theorem Lists.foldl_delete (hE : Distinct fun f => E f ∨ f ∈ es) :
    (es.foldl Graph.deleteCompleteEdge g).Lists fun f => E f ∧ f ∉ es := by
  induction es generalizing g E with
  | nil => exact hL.congr rfl (by simp)
  | cons e _ ih =>
    have hnext := hL.deleteCompleteEdge (e := e) (hE.mono fun _ hf => hf.imp id (by simp +contextual))
    have hrest := ih hnext (hE.mono fun _ hf => hf.imp And.left (mem_cons_of_mem e))
    exact hrest.congr rfl (by simp [and_assoc])

end

def Keyed (set : VerticeSet) : Prop := ∀ item ∈ set.entries, item.2.getKey = item.1

variable {set : VerticeSet} {f : Edge}

section
variable (hk : Keyed set)
include hk

theorem Keyed.mem_iff : v.getKey ∈ set ↔ ∃ item ∈ set.entries, item.2 = v := by
  constructor
  · intro hv
    obtain ⟨w,hw⟩ := lookup_isSome.mpr hv |> Option.isSome_iff_exists.mp
    have hmem := mem_lookup_iff.mp hw
    exact ⟨_,hmem,getKey_inj.mp (hk _ hmem)⟩
  · rintro ⟨item,hi,rfl⟩
    rw [hk item hi]
    exact mem_keys.mp (mem_map_of_mem hi)

theorem Keyed.insert : Keyed (set.insert v.getKey v) := by
  intro item hi
  rcases mem_cons.mp hi with rfl | hi
  · rfl
  · exact hk item ((kerase_sublist _ _).subset hi)

theorem Keyed.erase : Keyed (set.erase x) :=
  fun item hi => hk item ((kerase_sublist _ _).subset hi)

theorem Keyed.mem_map (edge : Vertice → Edge) :
    f ∈ set.entries.map (fun item => edge item.2) ↔ ∃ v, v.getKey ∈ set ∧ edge v = f := by
  simp only [hk.mem_iff,List.mem_map]
  constructor
  · rintro ⟨item,hi,rfl⟩
    exact ⟨_,⟨item,hi,rfl⟩,rfl⟩
  · rintro ⟨_,⟨item,hi,rfl⟩,rfl⟩
    exact ⟨item,hi,rfl⟩

end

def Noded (g : Graph) : Prop := ∀ x k d, g.entry x k = some d → x ∈ g.list ∧ d.getKey ∈ g.list

@[simp] theorem mem_addVertice {y : String} : y ∈ (g.addVertice x).list ↔ y = x ∨ y ∈ g.list := by
  rw [addVertice]
  split
  case isTrue h =>
    refine ⟨.inr,fun hy => hy.elim ?_ id⟩
    rintro rfl
    exact h
  case isFalse => simp

theorem Noded.congr (hn : g.Noded) (hl : h.list = g.list) : h.Noded := by
  intro x k d
  rw [entry,adjacent,hl]
  exact hn x k d

theorem Noded.insertCompleteEdge (hn : g.Noded) : (g.insertCompleteEdge e).Noded := by
  intro x k d hd
  rw [entry_insertCompleteEdge] at hd
  split at hd
  case isTrue he =>
    cases hd
    simp [Graph.insertCompleteEdge,← he.1]
  case isFalse =>
    obtain ⟨hx,hd⟩ := hn x k d hd
    simp [Graph.insertCompleteEdge,hx,hd]

theorem Noded.deleteCompleteEdge (hn : g.Noded) : (g.deleteCompleteEdge e).Noded := by
  intro x k d hd
  rw [entry_deleteCompleteEdge] at hd
  split at hd
  case isTrue => cases hd
  case isFalse =>
    obtain ⟨hx,hd⟩ := hn x k d hd
    simp [Graph.deleteCompleteEdge,hx,hd]

theorem Noded.foldl {f : Graph → Edge → Graph} (hf : ∀ {g e}, g.Noded → (f g e).Noded) (hn : g.Noded) :
    (es.foldl f g).Noded := by
  induction es generalizing g with
  | nil => exact hn
  | cons _ _ ih => exact ih (hf hn)

/-- The lists hold the complete edges, which are distinct, and no dummy is registered. -/
structure Related (g : Graph) : Prop where
  keyed : ∀ c, Keyed (g.related c).src ∧ Keyed (g.related c).dst
  named : ∀ c v, g.Source c v ∨ g.Destination c v → v.isDummy = false
  distinct : Distinct g.Complete
  lists : g.Lists g.Complete
  noded : g.Noded

theorem Related.congr (hg : g.Related) (hr : ∀ c, h.related c = g.related c) (hl : h.list = g.list) : h.Related := by
  have hs (c v) : h.Source c v ↔ g.Source c v := by rw [Source,Source,hr]
  have hd (c v) : h.Destination c v ↔ g.Destination c v := by rw [Destination,Destination,hr]
  have hc (e) : h.Complete e ↔ g.Complete e := and_congr (hs ..) (hd ..)
  refine ⟨fun c => hr c ▸ hg.keyed c,fun c v hv => hg.named c v ?_,hg.distinct.mono fun e => (hc e).mp,
    hg.lists.congr hl hc,hg.noded.congr hl⟩
  rwa [hs,hd] at hv

section Update
variable {edges : AList fun _ : String => RelatedVertices} (hg : g.Related)
  (hkeyed : ∀ c, Keyed (h.related c).src ∧ Keyed (h.related c).dst)
  (hnamed : ∀ c v, h.Source c v ∨ h.Destination c v → v.isDummy = false)
include hg hkeyed hnamed

theorem Related.insertions (es : List Edge) (hd : Distinct h.Complete)
    (hh : h = es.foldl Graph.insertCompleteEdge { g with edges })
    (hc : ∀ f, h.Complete f ↔ g.Complete f ∨ f ∈ es) : h.Related := by
  have hlists := (hg.lists.congr (h := { g with edges }) rfl fun _ => Iff.rfl).foldl_insert
    (hd.mono fun f => (hc f).mpr)
  subst hh
  exact ⟨hkeyed,hnamed,hd,hlists.congr rfl hc,(hg.noded.congr rfl).foldl .insertCompleteEdge⟩

theorem Related.deletions (hh : h = es.foldl Graph.deleteCompleteEdge { g with edges })
    (hes : ∀ f ∈ es, g.Complete f) (hc : ∀ f, h.Complete f ↔ g.Complete f ∧ f ∉ es) : h.Related := by
  have hlists := (hg.lists.congr (h := { g with edges }) rfl fun _ => Iff.rfl).foldl_delete
    (hg.distinct.mono fun f hf => hf.elim id (hes f))
  subst hh
  exact ⟨hkeyed,hnamed,hg.distinct.mono fun f hf => ((hc f).mp hf).1,hlists.congr rfl hc,
    (hg.noded.congr rfl).foldl .deleteCompleteEdge⟩

end Update

section Edges
variable (hg : g.Related)
include hg

theorem Related.mem_outgoing : f ∈ (g.related e.value).dst.entries.map (fun item => ⟨e.src,item.2,e.value⟩) ↔
    (f.value = e.value ∧ f.src = e.src) ∧ g.Destination f.value f.dst := by
  rw [(hg.keyed e.value).2.mem_map fun v => ⟨e.src,v,e.value⟩]
  constructor
  · rintro ⟨v,hv,rfl⟩
    exact ⟨⟨rfl,rfl⟩,hv⟩
  · rintro ⟨⟨hv,hs⟩,hd⟩
    exact ⟨f.dst,hv ▸ hd,by rw [← hv,← hs]⟩

theorem Related.mem_incoming : f ∈ (g.related e.value).src.entries.map (fun item => ⟨item.2,e.dst,e.value⟩) ↔
    g.Source f.value f.src ∧ f.value = e.value ∧ f.dst = e.dst := by
  rw [(hg.keyed e.value).1.mem_map fun v => ⟨v,e.dst,e.value⟩]
  constructor
  · rintro ⟨v,hv,rfl⟩
    exact ⟨hv,rfl,rfl⟩
  · rintro ⟨hs,hv,hd⟩
    exact ⟨f.src,hv ▸ hs,by rw [← hv,← hd]⟩

theorem Related.insertOutgoingEdge (hs : e.src.isDummy = false) (hd : Distinct (g.insertOutgoingEdge e).Complete) :
    (g.insertOutgoingEdge e).Related := by
  by_cases hm : e.src.getKey ∈ (g.related e.value).src
  · rwa [Graph.insertOutgoingEdge,if_pos hm]
  refine hg.insertions (fun c => ?_) (fun c v hv => ?_)
    ((g.related e.value).dst.entries.map fun item => ⟨e.src,item.2,e.value⟩) hd (by rw [Graph.insertOutgoingEdge,if_neg hm,foldl_map]) fun f => ?_
  · rw [related_insertOutgoingEdge]
    split
    · exact ⟨(hg.keyed e.value).1.insert,(hg.keyed e.value).2⟩
    · exact hg.keyed c
  · rw [insertOutgoingEdge_source,insertOutgoingEdge_destination] at hv
    rcases hv with (hv | ⟨_,rfl⟩) | hv
    · exact hg.named c v (.inl hv)
    · exact hs
    · exact hg.named c v (.inr hv)
  · rw [Complete,insertOutgoingEdge_source,insertOutgoingEdge_destination,hg.mem_outgoing,or_and_right]
    rfl

theorem Related.insertIncomingEdge (ht : e.dst.isDummy = false) (hd : Distinct (g.insertIncomingEdge e).Complete) :
    (g.insertIncomingEdge e).Related := by
  by_cases hm : e.dst.getKey ∈ (g.related e.value).dst
  · rwa [Graph.insertIncomingEdge,if_pos hm]
  refine hg.insertions (fun c => ?_) (fun c v hv => ?_)
    ((g.related e.value).src.entries.map fun item => ⟨item.2,e.dst,e.value⟩) hd (by rw [Graph.insertIncomingEdge,if_neg hm,foldl_map]) fun f => ?_
  · rw [related_insertIncomingEdge]
    split
    · exact ⟨(hg.keyed e.value).1,(hg.keyed e.value).2.insert⟩
    · exact hg.keyed c
  · rw [insertIncomingEdge_source,insertIncomingEdge_destination] at hv
    rcases hv with hv | hv | ⟨_,rfl⟩
    · exact hg.named c v (.inl hv)
    · exact hg.named c v (.inr hv)
    · exact ht
  · rw [Complete,insertIncomingEdge_source,insertIncomingEdge_destination,hg.mem_incoming,and_or_left]
    rfl

theorem Related.deleteOutgoingEdge : (g.deleteOutgoingEdge e).Related := by
  by_cases hm : e.src.getKey ∈ (g.related e.value).src
  swap
  · rwa [Graph.deleteOutgoingEdge,if_neg hm]
  refine hg.deletions (fun c => ?_) (fun c v hv => ?_) (by rw [Graph.deleteOutgoingEdge,if_pos hm,foldl_map])
    (fun f hf => ?_) fun f => ?_
  · rw [related_deleteOutgoingEdge]
    split
    · exact ⟨(hg.keyed e.value).1.erase,(hg.keyed e.value).2⟩
    · exact hg.keyed c
  · rw [deleteOutgoingEdge_source,deleteOutgoingEdge_destination] at hv
    exact hg.named c v (hv.imp And.left id)
  · obtain ⟨⟨hv,hs⟩,hd⟩ := hg.mem_outgoing.mp hf
    rw [← hv,← hs] at hm
    exact ⟨hm,hd⟩
  · rw [Complete,deleteOutgoingEdge_source,deleteOutgoingEdge_destination,hg.mem_outgoing,and_right_comm]
    exact and_congr_right fun hf => not_congr (and_iff_left hf.2).symm

theorem Related.deleteIncomingEdge : (g.deleteIncomingEdge e).Related := by
  by_cases hm : e.dst.getKey ∈ (g.related e.value).dst
  swap
  · rwa [Graph.deleteIncomingEdge,if_neg hm]
  refine hg.deletions (fun c => ?_) (fun c v hv => ?_) (by rw [Graph.deleteIncomingEdge,if_pos hm,foldl_map])
    (fun f hf => ?_) fun f => ?_
  · rw [related_deleteIncomingEdge]
    split
    · exact ⟨(hg.keyed e.value).1,(hg.keyed e.value).2.erase⟩
    · exact hg.keyed c
  · rw [deleteIncomingEdge_source,deleteIncomingEdge_destination] at hv
    exact hg.named c v (hv.imp id And.left)
  · obtain ⟨hs,hv,hd⟩ := hg.mem_incoming.mp hf
    rw [← hv,← hd] at hm
    exact ⟨hs,hm⟩
  · rw [Complete,deleteIncomingEdge_source,deleteIncomingEdge_destination,hg.mem_incoming,← and_assoc]
    exact and_congr_right fun hf => not_congr (and_iff_right hf.1).symm

end Edges

theorem Related.insert (hg : g.Related) (hu : g.Unambiguous (.insert e)) : (g.insert e).Related := by
  have hd : Distinct (g.insert e).Complete := hu.mono fun f => (and_congr insert_source insert_destination).mp
  by_cases hv : e.isValid = true
  swap
  · rwa [Graph.insert,if_neg hv]
  have hr : (g.addRelated e.value).Related := hg.congr (fun _ => related_addRelated _) (list_addRelated _)
  by_cases hs : e.src.isDummy = true <;> by_cases ht : e.dst.isDummy = true <;>
    simp only [Graph.insert,hv,hs,ht,if_true,Bool.false_eq_true,if_false] at hd ⊢
  · exact hr
  · exact hr.insertIncomingEdge (by simpa using ht) hd
  · exact hr.insertOutgoingEdge (by simpa using hs) hd
  · have hout := hr.insertOutgoingEdge (by simpa using hs) (hd.mono fun _ hf =>
      ⟨insertIncomingEdge_source.mpr hf.1,insertIncomingEdge_destination.mpr (.inl hf.2)⟩)
    exact hout.insertIncomingEdge (by simpa using ht) hd

theorem Related.delete (hg : g.Related) : (g.delete e).Related := by
  rw [Graph.delete]
  split
  case isFalse => exact hg
  case isTrue =>
    split
    case isFalse => exact hg
    case isTrue =>
      by_cases hs : e.src.isDummy = true <;> by_cases ht : e.dst.isDummy = true <;>
        simp only [hs,ht,if_true,Bool.false_eq_true,if_false]
      · exact hg
      · exact hg.deleteIncomingEdge
      · exact hg.deleteOutgoingEdge
      · exact hg.deleteOutgoingEdge.deleteIncomingEdge

theorem reachable_related (hr : system.ReachableWhile Unambiguous g) : g.Related := by
  apply hr.invariant
  · rintro _ rfl
    exact ⟨fun _ => ⟨nofun,nofun⟩,by simp [Source,Destination,related,empty],
      fun _ _ h => by simp [Complete,Source,related,empty] at h,
      fun _ _ _ => by simp [entry,adjacent,empty,Complete,Source,related],
      fun _ _ _ => by simp [entry,adjacent,empty]⟩
  · intro g e h hg ho (he : g.step e = some h)
    cases e with
    | insert =>
      cases he
      exact hg.insert ho
    | delete =>
      cases he
      exact hg.delete

theorem mem_successors : d ∈ g.successors s ↔ ∃ k, g.entry s.getKey k = some d := by
  simp only [successors,entry,mem_map]
  constructor
  · rintro ⟨⟨k,d⟩,hi,rfl⟩
    exact ⟨k,mem_lookup_iff.mpr hi⟩
  · rintro ⟨k,hk⟩
    exact ⟨⟨k,d⟩,mem_lookup_iff.mp hk,rfl⟩

theorem Related.mem_successors (hg : g.Related) : d ∈ g.successors s ↔ g.Flows s d := by
  rw [Graph.mem_successors]
  constructor
  · rintro ⟨k,hk⟩
    obtain ⟨⟨_,_,value⟩,hc,hs,_,rfl⟩ := (hg.lists ..).mp hk
    cases getKey_inj.mp hs
    exact ⟨value,hc⟩
  · rintro ⟨c,hc⟩
    exact ⟨_,(hg.lists ..).mpr ⟨_,hc,rfl,rfl,rfl⟩⟩

def vertices (g : Graph) : List Vertice := g.list.keys.map Vertice.mk

theorem successors_of_notMem (hv : v.getKey ∉ g.list) : g.successors v = [] := by
  rw [successors,adjacent,lookup_eq_none.mpr hv]
  rfl

theorem pending_eq_getNumOfEdge : pending g.successors g.vertices.toFinset [] = g.getNumOfEdge := by
  have hnodup : g.vertices.Nodup := g.list.keys_nodup.map fun _ _ h => congrArg Vertice.value h
  rw [pending,toFinset_nil,Finset.sdiff_empty,sum_toFinset _ hnodup,vertices,
    getNumOfEdge,AList.keys,List.keys,map_map,map_map]
  refine congrArg List.sum (map_congr_left fun item hi => ?_)
  have hl : g.list.lookup item.1 = some item.2 := AList.mem_lookup_iff.mpr hi
  simp [successors,adjacent,Vertice.getKey,hl]

theorem Related.levelTraverse (hg : g.Related) : ∃ b, g.levelTraverse s d = some b ∧
    (b = true ↔ Relation.ReflTransGen g.Flows s d) := by
  have hs (x : Vertice) (hx : x ∉ g.vertices.toFinset) : g.successors x = [] := by
    apply successors_of_notMem
    intro hk
    exact hx (mem_toFinset.mpr (mem_map.mpr ⟨_,hk,rfl⟩))
  have hfuel : [s].length+pending g.successors g.vertices.toFinset [] < g.getNumOfEdge+2 := by
    rw [pending_eq_getNumOfEdge,length_singleton]
    omega
  have hclosed : Search.Closed g.successors [] [s] := fun x hx => absurd hx not_mem_nil
  obtain ⟨b,hb,hiff⟩ := traverse_spec hs hfuel (not_mem_nil (a := d)) hclosed
  have hflows : (fun x y => y ∈ g.successors x) = g.Flows := funext₂ fun _ _ => propext hg.mem_successors
  refine ⟨b,hb,hiff.trans ?_⟩
  simp [Search.Reach,hflows]

theorem Related.end_mem (hg : g.Related) (hr : Relation.ReflTransGen g.Flows s d) (hne : s ≠ d) :
    (s.getKey ∈ g.list ∧ s.isDummy = false) ∧ (d.getKey ∈ g.list ∧ d.isDummy = false) := by
  have hmem {s d : Vertice} (hf : g.Flows s d) : s.getKey ∈ g.list ∧ d.getKey ∈ g.list := by
    obtain ⟨k,hk⟩ := Graph.mem_successors.mp (hg.mem_successors.mpr hf)
    exact hg.noded _ _ _ hk
  constructor
  · obtain rfl | ⟨x,hx,_⟩ := cases_head hr
    · exact absurd rfl hne
    · exact ⟨(hmem hx).1,hg.named _ _ (.inl hx.choose_spec.1)⟩
  · obtain rfl | ⟨x,_,hx⟩ := cases_tail hr
    · exact absurd rfl hne
    · exact ⟨(hmem hx).2,hg.named _ _ (.inr hx.choose_spec.2)⟩

theorem getDirectionOf_self : g.getDirectionOf v v =
    some (if v.isDummy ∨ v.getKey ∉ g.list then .unreachable else .upstream) := by
  by_cases hv : v.isDummy = true <;> by_cases hl : v.getKey ∈ g.list <;>
    simp [getDirectionOf,Graph.levelTraverse,Search.traverse,hv,hl]

theorem Related.getDirectionOf (hg : g.Related) (hne : s ≠ d) : ∃ dir, g.getDirectionOf s d = some dir ∧
    (dir = .upstream ↔ Relation.ReflTransGen g.Flows s d) ∧
    (dir = .downstream ↔ Relation.ReflTransGen g.Flows d s ∧ ¬ Relation.ReflTransGen g.Flows s d) ∧
    (dir = .unreachable ↔ ¬ Relation.ReflTransGen g.Flows s d ∧ ¬ Relation.ReflTransGen g.Flows d s) := by
  have hsd := fun hr => hg.end_mem (s := s) (d := d) hr hne
  have hds := fun hr => hg.end_mem (s := d) (d := s) hr hne.symm
  rw [Graph.getDirectionOf]
  by_cases hdummy : (s.isDummy || d.isDummy) = true
  · refine ⟨.unreachable,if_pos hdummy,?_⟩
    have h₁ : ¬ Relation.ReflTransGen g.Flows s d := fun hr => by simp [hsd hr] at hdummy
    have h₂ : ¬ Relation.ReflTransGen g.Flows d s := fun hr => by simp [hds hr] at hdummy
    simp [h₁,h₂]
  by_cases hlist : s.getKey ∉ g.list ∨ d.getKey ∉ g.list
  · refine ⟨.unreachable,by rw [if_neg hdummy,if_pos hlist],?_⟩
    have h₁ : ¬ Relation.ReflTransGen g.Flows s d := fun hr => by simp [hsd hr] at hlist
    have h₂ : ¬ Relation.ReflTransGen g.Flows d s := fun hr => by simp [hds hr] at hlist
    simp [h₁,h₂]
  obtain ⟨b₁,h₁,hb₁⟩ := hg.levelTraverse (s := s) (d := d)
  obtain ⟨b₂,h₂,hb₂⟩ := hg.levelTraverse (s := d) (d := s)
  rw [if_neg hdummy,if_neg hlist,h₁,h₂,← hb₁,← hb₂]
  cases b₁ <;> cases b₂ <;> exact ⟨_,rfl,by decide⟩

/-- While the keys of the complete edges are distinct, the adjacency relation is the flow of the
registered channels, and the direction of two vertices is that of the paths between them. -/
theorem adjacency_and_directions (hr : system.ReachableWhile Unambiguous g) : (∀ s d, g.Adj s d ↔ g.Flows s d) ∧
    (∀ s d, s ≠ d → ∃ dir, g.getDirectionOf s d = some dir ∧ (dir = .upstream ↔ Relation.ReflTransGen g.Flows s d) ∧
      (dir = .downstream ↔ Relation.ReflTransGen g.Flows d s ∧ ¬ Relation.ReflTransGen g.Flows s d) ∧
      (dir = .unreachable ↔ ¬ Relation.ReflTransGen g.Flows s d ∧ ¬ Relation.ReflTransGen g.Flows d s)) ∧
    ∀ v, g.getDirectionOf v v = some (if v.isDummy ∨ v.getKey ∉ g.list then .unreachable else .upstream) := by
  have hg := reachable_related hr
  exact ⟨fun _ _ => hg.mem_successors,fun _ _ hne => hg.getDirectionOf hne,
    fun _ => getDirectionOf_self⟩

theorem adjacency_and_directions_edge : ∃ g, system.ReachableWhile Unambiguous g ∧
    g.Adj ⟨"s"⟩ ⟨"d"⟩ ∧ g.Flows ⟨"s"⟩ ⟨"d"⟩ ∧ g.getDirectionOf ⟨"d"⟩ ⟨"s"⟩ = some .downstream := by
  let e : Edge := ⟨⟨"s"⟩,⟨"d"⟩, "c"⟩
  have hu : Unambiguous empty (.insert e) := by
    rintro ⟨_,_,_⟩ ⟨_,_,_⟩
    simp +contextual [Source,Destination,related,empty,Edge.Outgoing,Edge.Incoming]
  have hr : system.ReachableWhile Unambiguous (empty.insert e) := .next (.start rfl) hu rfl
  have hadj : (empty.insert e).Adj ⟨"s"⟩ ⟨"d"⟩ := by decide
  exact ⟨_,hr,hadj,((adjacency_and_directions hr).1 _ _).mp hadj,by decide⟩

/-- The keys of `a_b` to `c` and of `a` to `b_c` are the same: the second edge replaces the first
one in the list of the source. -/
theorem colliding_keys_lose_edge : ∃ g, system.Reachable g ∧ g.Flows ⟨"s"⟩ ⟨"c"⟩ ∧
    ¬ g.Adj ⟨"s"⟩ ⟨"c"⟩ ∧ g.getDirectionOf ⟨"s"⟩ ⟨"c"⟩ = some .unreachable := by
  refine ⟨(empty.insert ⟨⟨"s"⟩,⟨"c"⟩, "a_b"⟩).insert ⟨⟨"s"⟩,⟨"b_c"⟩, "a"⟩,
    .next (e := .insert _) (.next (e := .insert _) (.start rfl) rfl) rfl,
    ⟨"a_b",?_,?_⟩,by decide,by decide⟩
  · simp [insert_source,Edge.Outgoing,Edge.isValid,Vertice.isDummy]
  · simp [insert_destination,Edge.Incoming,Edge.isValid,Vertice.isDummy]

/-- An edge of `E` is inserted and none is deleted later. -/
def Kept (E : Edge → Prop) (events : List Event) : Prop :=
  ∃ before e after, events = before ++ .insert e::after ∧ E e ∧ ∀ f, .delete f ∈ after → ¬ E f

variable {events : List Event}

theorem kept_cons {event : Event} : Kept E (event::events) ↔
    (∃ e, event = .insert e ∧ E e ∧ ∀ f, .delete f ∈ events → ¬ E f) ∨ Kept E events := by
  constructor
  · rintro ⟨_ | ⟨_,before⟩,e,after,h,he⟩ <;> cases h
    · exact .inl ⟨e,rfl,he⟩
    · exact .inr ⟨before,e,after,rfl,he⟩
  · rintro (⟨e,rfl,he⟩ | ⟨before,e,after,rfl,he⟩)
    · exact ⟨[],e,events,rfl,he⟩
    · exact ⟨event::before,e,after,rfl,he⟩

theorem iff_kept_of_exec {P : Graph → Prop} (hi : ∀ {g e}, P (g.insert e) ↔ P g ∨ E e)
    (hd : ∀ {g e}, P (g.delete e) ↔ P g ∧ ¬ E e) (hx : system.exec g events = some h) :
    P h ↔ P g ∧ (∀ f, .delete f ∈ events → ¬ E f) ∨ Kept E events := by
  induction events generalizing g with
  | nil =>
    cases hx
    simp [Kept]
  | cons event events ih =>
    obtain ⟨u,hu,hx⟩ := System.exec_cons.mp hx
    rw [ih hx,kept_cons]
    cases event <;> cases hu <;> grind

/-- After any run, also with colliding keys, a vertex is registered if it was not deleted after an insertion. -/
theorem registered_iff_kept (hx : system.exec empty events = some g) (c : String) (v : Vertice) :
    (g.Source c v ↔ Kept (·.Outgoing c v) events) ∧ (g.Destination c v ↔ Kept (·.Incoming c v) events) := by
  constructor
  · rw [iff_kept_of_exec (P := (·.Source c v)) insert_source delete_source hx]
    simp [Source,related,empty]
  · rw [iff_kept_of_exec (P := (·.Destination c v)) insert_destination delete_destination hx]
    simp [Destination,related,empty]

theorem registered_iff_kept_again : let e : Edge := ⟨⟨"s"⟩,⟨""⟩, "c"⟩
    Kept (·.Outgoing "c" ⟨"s"⟩) [.insert e,.delete e,.insert e] := (registered_iff_kept rfl _ _).1.mp (by decide)

end Graph
end Apollo.Cyber.ServiceDiscovery
