import Apollo.Cyber.Base.AtomicHashMap
import Apollo.Foundation.Ownership

/-! The objects a thread has prepared or taken out belong to it alone. With that every event keeps the lists in order.
-/
namespace Apollo.Cyber.Base.AtomicHashMap
open Foundation List Function Heap Option Sum
variable {ι V : Type} {bits : Nat} {m m' : Heap V} {w w' : List (Int × V)}
  {chain chain' : Nat → List Nat} {k : Int} {prev : Nat}

def Pc.op : Pc V → Option (Insertion V)
  | .insert op _ | .loadValue op _ | .exchangeValue op _ _ | .deleteValue op _
  | .storeNext op _ _ | .exchangeNext op _ _ => some op
  | _ => none

def Pc.entry (p : Pc V) : Option Nat := p.op.bind Insertion.newEntry

/-- The value a thread has prepared, or has taken out and not yet deleted. -/
def Pc.value : Pc V → Option Nat
  | .deleteValue _ old => some old
  | p => p.op.bind Insertion.newValue

def entryOwner (bits : Nat) (chain : Nat → List Nat) (pc : ι → Pc V) : Option ι → Nat → Prop
  | none, e => ∃ b < 2^bits, e ∈ chain b
  | some i, e => (pc i).entry = some e

def valueOwner (bits : Nat) (m : Heap V) (pc : ι → Pc V) : Nat ⊕ ι → Nat → Prop
  | .inl x, p => x ∈ m.entries ∧ 2^bits ≤ x ∧ m.valuePtr x = p
  | .inr i, p => (pc i).value = some p

def Prepared (m : Heap V) (op : Insertion V) : Prop :=
  (∀ e, op.newEntry = some e → m.key e = op.key ∧ m.values (m.valuePtr e) = some op.value) ∧
  ∀ p, op.newValue = some p → m.values p = some op.value

def Local (bits : Nat) (m : Heap V) (w : List (Int × V)) (chain : Nat → List Nat) : Pc V → Prop
  | .idle | .copyValue _ _ => True
  | .has k prev | .get k prev => Before bits m chain k prev
  | .insert op prev => Before bits m chain op.key prev
  | .getValue k t => t ∈ chain (index bits k) ∧ m.key t = k
  | .loadValue op t | .exchangeValue op t _ => t ∈ chain (index bits op.key) ∧ m.key t = op.key
  | .deleteValue op old =>
      op.newValue = none ∧ (op.key, op.value) ∈ w ∧ ∃ v, m.values old = some v ∧ (op.key, v) ∈ w
  | .storeNext op prev t => Before bits m chain op.key prev ∧ Above bits m chain op.key t
  | .exchangeNext op prev t =>
      Before bits m chain op.key prev ∧ Above bits m chain op.key t ∧
      ∀ e, op.newEntry = some e → m.next e = t

def sets (h : List (Op V)) : List (Int × V) :=
  h.filterMap fun
    | .set k v => some (k, v)
    | _ => none

structure Inv (bits : Nat) (s : State ι V) (chain : Nat → List Nat) : Prop where
  table : Table bits s.heap s.writes chain
  entries : Owned (entryOwner bits chain s.pc) fun e => e ∈ s.heap.entries ∧ 2^bits ≤ e
  values : Owned (valueOwner bits s.heap s.pc) fun p => (s.heap.values p).isSome
  bounded : ∃ n, ∀ a, n ≤ a → a ∉ s.heap.entries ∧ s.heap.values a = none
  locals : ∀ i, Local bits s.heap s.writes chain (s.pc i)
  prepared : ∀ i op, (s.pc i).op = some op → Prepared s.heap op
  returned : ∀ kv ∈ sets s.history, kv ∈ s.writes

theorem init_inv (bits : Nat) : Inv bits (init bits : State ι V) fun _ => [] where
  table :=
    { linked := fun _ _ => ⟨rfl,trivial⟩
      sorted := fun _ _ => .nil
      published := fun _ _ x hx => by cases hx
      sentinels := fun b hb => Finset.mem_range.mpr hb
      content := fun _ _ x hx => by cases hx
      complete := fun k v hk => by cases hk }
  entries :=
    { live := fun o x ho => by
        cases o with
        | none => obtain ⟨b,_,hx⟩ := ho; cases hx
        | some i => cases ho
      unique := fun o o' x ho => by
        cases o with
        | none => obtain ⟨b,_,hx⟩ := ho; cases hx
        | some i => cases ho }
  values :=
    { live := fun o x ho => by
        cases o with
        | inl x => exact absurd (Finset.mem_range.mp ho.1) (Nat.not_lt_of_le ho.2.1)
        | inr i => cases ho
      unique := fun o o' x ho => by
        cases o with
        | inl x => exact absurd (Finset.mem_range.mp ho.1) (Nat.not_lt_of_le ho.2.1)
        | inr i => cases ho }
  bounded := ⟨2^bits,fun a ha =>
    ⟨fun hm => absurd (Finset.mem_range.mp hm) (Nat.not_lt_of_le ha),rfl⟩⟩
  locals _ := trivial
  prepared i op ho := by cases ho
  returned kv hkv := by cases hkv

variable {i : ι} {p : Pc V} {op : Insertion V} {e q t x b old : Nat} {pc : ι → Pc V}

theorem Local.mono (hl : Local bits m w chain p)
    (hc : ∀ b < 2^bits, ∀ x ∈ chain b, x ∈ chain' b ∧ m'.key x = m.key x) (hw : ∀ kv ∈ w, kv ∈ w')
    (hn : ∀ e, p.entry = some e → m'.next e = m.next e) (hv : ∀ q, p.value = some q → m'.values q = m.values q) :
    Local bits m' w' chain' p := by
  have found : ∀ k x, x ∈ chain (index bits k) ∧ m.key x = k → x ∈ chain' (index bits k) ∧ m'.key x = k := by
    rintro k x ⟨hx,hk⟩
    obtain ⟨hx',hk'⟩ := hc _ (index_lt bits k) x hx
    exact ⟨hx',hk'.trans hk⟩
  cases p with
  | idle => trivial
  | has | get => exact Before.mono hl hc
  | getValue k t => exact found k t hl
  | copyValue => trivial
  | insert => exact Before.mono hl hc
  | loadValue op t | exchangeValue op t => exact found op.key t hl
  | deleteValue _ old =>
    obtain ⟨hn,hk,v,hold,hkv⟩ := hl
    exact ⟨hn,hw _ hk,v,(hv old rfl).trans hold,hw _ hkv⟩
  | storeNext => exact ⟨hl.1.mono hc,hl.2.mono hc⟩
  | exchangeNext =>
    exact ⟨hl.1.mono hc,hl.2.1.mono hc,fun e he => (hn e he).trans (hl.2.2 e he)⟩

theorem Local.value (hl : Local bits m w chain p) (ho : p.op = some op) (hq : op.newValue = some q) :
    p.value = some q := by
  cases p with
  | deleteValue =>
    cases ho
    rw [hl.1] at hq
    cases hq
  | insert | loadValue | exchangeValue | storeNext | exchangeNext => cases ho; exact hq
  | idle | has | get | getValue | copyValue => cases ho

variable {s : State ι V} [DecidableEq ι]

theorem entryOwner_update {o : Option ι} (ho : entryOwner bits chain (update pc i p) o e) :
    (o ≠ some i ∧ entryOwner bits chain pc o e) ∨ o = some i ∧ p.entry = some e := by
  cases o with
  | none => exact .inl ⟨nofun,ho⟩
  | some =>
    rw [entryOwner,update_apply] at ho
    split at ho
    · next hj => exact .inr ⟨congrArg some hj,ho⟩
    · next hj => exact .inl ⟨fun he => hj (some.inj he),ho⟩

theorem valueOwner_update {o : Nat ⊕ ι} (ho : valueOwner bits m (update pc i p) o q) :
    (o ≠ .inr i ∧ valueOwner bits m pc o q) ∨ o = .inr i ∧ p.value = some q := by
  cases o with
  | inl => exact .inl ⟨nofun,ho⟩
  | inr =>
    rw [valueOwner,update_apply] at ho
    split at ho
    · next hj => exact .inr ⟨congrArg inr hj,ho⟩
    · next hj => exact .inl ⟨fun he => hj (inr.inj he),ho⟩

section
variable (hi : Inv bits s chain)
include hi

/-- Thread `i` moves to `p` and changes the memory where no other thread relies on it. -/
theorem Inv.put {h' : List (Op V)} (i : ι) (table : Table bits m' w' chain')
    (entries : Owned (entryOwner bits chain' (update s.pc i p))
      fun e => e ∈ m'.entries ∧ 2^bits ≤ e)
    (values : Owned (valueOwner bits m' (update s.pc i p)) fun q => (m'.values q).isSome)
    (bounded : ∃ n, ∀ a, n ≤ a → a ∉ m'.entries ∧ m'.values a = none)
    (hc : ∀ b < 2^bits, ∀ x ∈ chain b, x ∈ chain' b ∧ m'.key x = s.heap.key x) (hw : ∀ kv ∈ s.writes, kv ∈ w')
    (he : ∀ j ≠ i, ∀ e, (s.pc j).entry = some e → m'.next e = s.heap.next e ∧
      m'.key e = s.heap.key e ∧ m'.values (m'.valuePtr e) = s.heap.values (s.heap.valuePtr e))
    (hv : ∀ j ≠ i, ∀ q, (s.pc j).value = some q → m'.values q = s.heap.values q) (hl : Local bits m' w' chain' p)
    (hp : ∀ op, p.op = some op → Prepared m' op) (hh : ∀ kv ∈ sets h', kv ∈ w') :
    Inv bits { heap := m', pc := update s.pc i p, history := h', writes := w' } chain' where
  table := table
  entries := entries
  values := values
  bounded := bounded
  locals := by
    refine (forall_update_iff s.pc (p := fun _ q => Local bits m' w' chain' q)).mpr
      ⟨hl,fun j hj => ?_⟩
    exact (hi.locals j).mono hc hw (fun e hn => (he j hj e hn).1) (hv j hj)
  prepared := by
    refine (forall_update_iff s.pc
      (p := fun _ q => ∀ op, q.op = some op → Prepared m' op)).mpr ⟨hp,fun j hj op ho => ?_⟩
    constructor
    · intro e hn
      obtain ⟨_,hk,hval⟩ := he j hj e (by rw [Pc.entry,ho]; exact hn)
      obtain ⟨hk',hval'⟩ := (hi.prepared j op ho).1 e hn
      exact ⟨hk.trans hk',hval.trans hval'⟩
    · intro q hn
      exact (hv j hj q ((hi.locals j).value ho hn)).trans ((hi.prepared j op ho).2 q hn)
  returned := hh

theorem Inv.sameEntries (he : ∀ e, p.entry = some e → (s.pc i).entry = some e) :
    Owned (entryOwner bits chain (update s.pc i p))
      fun e => e ∈ s.heap.entries ∧ 2^bits ≤ e := by
  refine hi.entries.sub fun o e ho => ?_
  have own : entryOwner bits chain s.pc o e := by
    rcases entryOwner_update ho with ⟨_,ho'⟩ | ⟨rfl,ho'⟩
    · exact ho'
    · exact he e ho'
  exact ⟨own,hi.entries.live o e own⟩

theorem Inv.sameValues (hv : ∀ q, p.value = some q → (s.pc i).value = some q) :
    Owned (valueOwner bits s.heap (update s.pc i p))
      fun q => (s.heap.values q).isSome := by
  refine hi.values.sub fun o q ho => ?_
  have own : valueOwner bits s.heap s.pc o q := by
    rcases valueOwner_update ho with ⟨_,ho'⟩ | ⟨rfl,ho'⟩
    · exact ho'
    · exact hv q ho'
  exact ⟨own,hi.values.live o q own⟩

theorem Inv.goto (i : ι) (hl : Local bits s.heap s.writes chain p)
    (he : ∀ e, p.entry = some e → (s.pc i).entry = some e) (hv : ∀ q, p.value = some q → (s.pc i).value = some q)
    (hp : ∀ op, p.op = some op → Prepared s.heap op) : Inv bits (s.goto i p) chain :=
  hi.put i hi.table (hi.sameEntries he) (hi.sameValues hv) hi.bounded (fun _ _ _ hx => ⟨hx,rfl⟩)
    (fun _ hkv => hkv) (fun _ _ _ _ => ⟨rfl,rfl,rfl⟩) (fun _ _ _ _ => rfl) hl hp hi.returned

end

theorem sets_append (h : List (Op V)) (op : Op V) : sets (h ++ [op]) = sets h ++ sets [op] := filterMap_append

section
variable (hi : Inv bits s chain)
include hi

theorem Inv.answer (i : ι) {op : Op V} (hop : sets [op] = []) : Inv bits (s.finish i s.heap op) chain := by
  refine hi.put i hi.table (hi.sameEntries nofun) (hi.sameValues nofun) hi.bounded
    (fun b _ x hx => ⟨hx,rfl⟩) (fun kv hkv => hkv) (fun j _ e _ => ⟨rfl,rfl,rfl⟩)
    (fun j _ q _ => rfl) trivial nofun fun kv hkv => ?_
  rw [sets_append,hop,append_nil] at hkv
  exact hi.returned kv hkv

omit [DecidableEq ι] in
/-- The entry of a thread is outside the table and no other thread has it. -/
theorem Inv.apart (he : (s.pc i).entry = some e) : (∀ b < 2^bits, b ≠ e ∧ ∀ x ∈ chain b, x ≠ e) ∧
      ∀ j ≠ i, ∀ e', (s.pc j).entry = some e' → e' ≠ e := by
  have hlive := hi.entries.live (some i) e he
  refine ⟨fun b hb => ⟨by omega,?_⟩,?_⟩
  · rintro x hx rfl
    have := hi.entries.unique none (some i) x ⟨b,hb,hx⟩ he
    cases this
  · rintro j hj e' hej rfl
    exact hj (some.inj (hi.entries.unique (some j) (some i) e' hej he))

omit [DecidableEq ι] in
theorem Inv.fresh {p : Nat} (hfree : s.heap.values p = none) (v : V) : (∀ o q, valueOwner bits s.heap s.pc o q →
      update s.heap.values p (some v) q = s.heap.values q) ∧
    (∀ q, (s.heap.values q).isSome ∨ q = p → (update s.heap.values p (some v) q).isSome) ∧
    ∃ n, ∀ a, n ≤ a → a ∉ s.heap.entries ∧ update s.heap.values p (some v) a = none := by
  refine ⟨fun o q ho => ?_,fun q hq => ?_,?_⟩
  · apply update_of_ne
    rintro rfl
    have := hi.values.live o q ho
    rw [hfree] at this
    cases this
  · rw [update_apply]
    split
    · rfl
    · next hne => exact hq.resolve_right hne
  · obtain ⟨n,hb⟩ := hi.bounded
    refine ⟨max n (p+1),fun a ha => ⟨(hb a (by omega)).1,?_⟩⟩
    rw [← (hb a (by omega)).2]
    exact update_of_ne (by omega) ..

theorem Inv.allocValue {p : Nat} (hp : s.pc i = .loadValue op t) (hm : s.heap.newValue p op.value = some m') :
    Inv bits (s.put i m' (.exchangeValue { op with newValue := some p } t (m'.valuePtr t))) chain := by
  obtain ⟨hfree,rfl⟩ := newValue_eq hm
  obtain ⟨other,live,bounded⟩ := hi.fresh hfree op.value
  have entry : ∀ x, x ∈ s.heap.entries ∧ 2^bits ≤ x → update s.heap.values p (some op.value) (s.heap.valuePtr x) =
        s.heap.values (s.heap.valuePtr x) := fun x hx => other (.inl x) _ ⟨hx.1,hx.2,rfl⟩
  refine hi.put i (hi.table.frame (fun b hb => ⟨rfl,hi.table.sentinels b hb⟩) fun b hb x hx => ?_)
    (hi.sameEntries fun e he => by rw [hp]; exact he) ?_ bounded (fun _ _ _ hx => ⟨hx,rfl⟩)
    (fun _ hkv => hkv) (fun j _ e he => ⟨rfl,rfl,entry e (hi.entries.live (some j) e he)⟩)
    (fun j _ q hq => other (.inr j) q hq) ?_ ?_ hi.returned
  · obtain ⟨hle,hmem,_⟩ := hi.table.published b hb x hx
    exact ⟨rfl,rfl,hmem,entry x ⟨hmem,hle⟩⟩
  · refine hi.values.grant (.inr i) p (by rw [hfree]; nofun) (fun o q ho => ?_) live
    rcases valueOwner_update ho with ⟨_,ho'⟩ | ⟨rfl,ho'⟩
    · cases o <;> exact .inl ho'
    · cases ho'
      exact .inr ⟨rfl,rfl⟩
  · have := hi.locals i
    rw [hp] at this
    exact this
  · rintro _ ⟨rfl⟩
    have old := hi.prepared i op (by rw [hp]; rfl)
    refine ⟨fun e he => ⟨(old.1 e he).1,?_⟩,?_⟩
    · have own : entryOwner bits chain s.pc (some i) e := by rw [entryOwner,hp]; exact he
      exact (entry e (hi.entries.live (some i) e own)).trans (old.1 e he).2
    · rintro q ⟨rfl⟩
      exact update_self ..

theorem Inv.storeNext {t : Option Nat} (hp : s.pc i = .storeNext op prev t) (he : op.newEntry = some e) :
    Inv bits (s.put i (s.heap.storeNext e t) (.exchangeNext op prev t)) chain := by
  have own : (s.pc i).entry = some e := by rw [hp]; exact he
  obtain ⟨hpub,hoth⟩ := hi.apart own
  have hl := hi.locals i
  rw [hp] at hl
  refine hi.put i (hi.table.frame (fun b hb => ⟨?_,hi.table.sentinels b hb⟩) fun b hb x hx => ?_)
    (hi.sameEntries fun e he => by rw [hp]; exact he) (hi.sameValues fun e he => by rw [hp]; exact he)
    hi.bounded (fun _ _ _ hx => ⟨hx,rfl⟩) (fun _ hkv => hkv) (fun j hj e' he' => ⟨?_,rfl,rfl⟩)
    (fun _ _ _ _ => rfl) ⟨hl.1,hl.2,?_⟩ (fun op ho => hi.prepared i op (by rw [hp]; exact ho))
    hi.returned
  · exact update_of_ne (hpub b hb).1 ..
  · exact ⟨update_of_ne ((hpub b hb).2 x hx) ..,rfl,(hi.table.published b hb x hx).2.1,rfl⟩
  · exact update_of_ne (hoth j hj e' he') ..
  · intro _ he'
    rw [he] at he'
    cases he'
    exact update_self ..

omit [DecidableEq ι] in
theorem Inv.freshEntry {p : Nat} {v : V} (hm : s.heap.newEntry e p k v = some m') (hx : x ∈ s.heap.entries) :
    m'.next x = s.heap.next x ∧ m'.key x = s.heap.key x ∧ x ∈ m'.entries ∧
      (2^bits ≤ x → m'.values (m'.valuePtr x) = s.heap.values (s.heap.valuePtr x)) := by
  obtain ⟨hnew,hfree,rfl⟩ := newEntry_eq hm
  have hne : x ≠ e := by
    rintro rfl
    exact hnew hx
  refine ⟨update_of_ne hne ..,update_of_ne hne ..,Finset.mem_insert_of_mem hx,?_⟩
  intro hle
  dsimp only
  rw [update_of_ne hne]
  exact (hi.fresh hfree v).1 (.inl x) _ ⟨hx,hle,rfl⟩

/-- `new Entry(key, value)`; the entry's next pointer is stored afterwards. -/
theorem Inv.allocEntry {p : Nat} {t : Option Nat} (hp : s.pc i = .storeNext op prev t)
    (hm : s.heap.newEntry e p op.key op.value = some m') :
    Inv bits (s.put i m' (.storeNext { op with newEntry := some e } prev t)) chain := by
  have old := fun x hx => hi.freshEntry hm (x := x) hx
  obtain ⟨hnew,hfree,rfl⟩ := newEntry_eq hm
  obtain ⟨other,live,n,bounded⟩ := hi.fresh hfree op.value
  have hle : 2^bits ≤ e := not_lt.mp fun hlt => hnew (hi.table.sentinels e hlt)
  have key : ∀ b < 2^bits, ∀ x ∈ chain b, x ∈ chain b ∧ update s.heap.key e op.key x = s.heap.key x :=
    fun b hb x hx => ⟨hx,(old x (hi.table.published b hb x hx).2.1).2.1⟩
  have hl := hi.locals i
  rw [hp] at hl
  refine hi.put i (hi.table.frame (fun b hb => ?_) fun b hb x hx => ?_) ?_ ?_ ?_ key
    (fun _ hkv => hkv) (fun j hj e' he' => ?_) (fun j hj q hq => other (.inr j) q hq)
    ⟨hl.1.mono key,hl.2.mono key⟩ ?_ hi.returned
  · obtain ⟨hn,_,hmem,_⟩ := old b (hi.table.sentinels b hb)
    exact ⟨hn,hmem⟩
  · obtain ⟨hle,hmem,_⟩ := hi.table.published b hb x hx
    obtain ⟨hn,hk,hmem',hv⟩ := old x hmem
    exact ⟨hn,hk,hmem',hv hle⟩
  · refine hi.entries.grant (some i) e (fun h => hnew h.1) (fun o x ho => ?_) ?_
    · rcases entryOwner_update ho with ⟨_,ho'⟩ | ⟨rfl,ho'⟩
      · exact .inl ho'
      · cases ho'
        exact .inr ⟨rfl,rfl⟩
    · rintro x (⟨hx,hxle⟩ | rfl)
      · exact ⟨Finset.mem_insert_of_mem hx,hxle⟩
      · exact ⟨Finset.mem_insert_self ..,hle⟩
  · refine hi.values.grant (.inl e) p (by rw [hfree]; nofun) (fun o q ho => ?_) live
    rcases valueOwner_update ho with ⟨_,ho'⟩ | ⟨rfl,ho'⟩
    · cases o with
      | inl x =>
        obtain ⟨hx,hxle,hq⟩ := ho'
        by_cases hxe : x = e
        · subst hxe
          exact .inr ⟨rfl,hq.symm.trans (update_self ..)⟩
        · exact .inl ⟨Finset.mem_of_mem_insert_of_ne hx hxe,hxle,
            (update_of_ne hxe ..).symm.trans hq⟩
      | inr => exact .inl ho'
    · left
      rw [valueOwner,hp]
      exact ho'
  · refine ⟨max n (e+1),fun a ha => ⟨fun hmem => ?_,(bounded a (by omega)).2⟩⟩
    exact (bounded a (by omega)).1 (Finset.mem_of_mem_insert_of_ne hmem (by omega))
  · obtain ⟨hmem,hle'⟩ := hi.entries.live (some j) e' he'
    obtain ⟨hn,hk,_,hv⟩ := old e' hmem
    exact ⟨hn,hk,hv hle'⟩
  · rintro _ ⟨rfl⟩
    refine ⟨?_,fun q hq => ?_⟩
    · rintro e' ⟨rfl⟩
      refine ⟨update_self ..,?_⟩
      dsimp only
      rw [update_self,update_self]
    · refine (other (.inr i) q ?_).trans ((hi.prepared i op (by rw [hp]; rfl)).2 q hq)
      rw [valueOwner,hp]
      exact hq

omit [DecidableEq ι] in
/-- The value of a published entry is the last one written for its key. -/
theorem Inv.current (hb : b < 2^bits) (hx : x ∈ chain b) :
    ∃ v, s.heap.values (s.heap.valuePtr x) = some v ∧ lastWrite s.writes (s.heap.key x) = some v := by
  obtain ⟨hle,hmem,_⟩ := hi.table.published b hb x hx
  obtain ⟨v,hv⟩ := isSome_iff_exists.mp (hi.values.live (.inl x) _ ⟨hmem,hle,rfl⟩)
  exact ⟨v,hv,(hi.table.content b hb x hx).symm.trans hv⟩

theorem Inv.replace {p : Nat} (hp : s.pc i = .exchangeValue op t (s.heap.valuePtr t))
    (hn : op.newValue = some p) : Inv bits ((s.write op).put i (s.heap.replace t p)
      (.deleteValue { op with newValue := none } (s.heap.valuePtr t))) chain := by
  have hl := hi.locals i
  rw [hp] at hl
  have hb := index_lt bits op.key
  obtain ⟨hle,hmem,_⟩ := hi.table.published _ hb t hl.1
  have prepared := hi.prepared i op (by rw [hp]; rfl)
  -- an entry some thread has prepared is not the one that gets the value
  have kept : ∀ j e, (s.pc j).entry = some e → update s.heap.valuePtr t p e = s.heap.valuePtr e := fun j e he =>
    update_of_ne (((hi.apart he).1 _ hb).2 t hl.1).symm ..
  refine hi.put i (hi.table.replace hl.1 hl.2 (prepared.2 p hn))
    (hi.sameEntries fun e he => by rw [hp]; exact he)
    (hi.values.swap (.inr i) (.inl t) fun o q ho => ?_) hi.bounded (fun _ _ _ hx => ⟨hx,rfl⟩)
    (fun _ hkv => mem_append_left _ hkv) (fun j _ e he => ⟨rfl,rfl,?_⟩)
    (fun _ _ _ _ => rfl) ⟨rfl,mem_append_right _ mem_cons_self,?_⟩ ?_
    fun kv hkv => mem_append_left _ (hi.returned kv hkv)
  · rcases valueOwner_update ho with ⟨hne,ho'⟩ | ⟨rfl,ho'⟩
    · cases o with
      | inl x =>
        obtain ⟨hx,hxle,hq⟩ := ho'
        by_cases hxt : x = t
        · subst hxt
          rw [Equiv.swap_apply_right,valueOwner,hp]
          exact hn.trans (congrArg some ((update_self ..).symm.trans hq))
        · rw [Equiv.swap_apply_of_ne_of_ne inl_ne_inr fun he => hxt (inl.inj he)]
          exact ⟨hx,hxle,(update_of_ne hxt ..).symm.trans hq⟩
      | inr =>
        rw [Equiv.swap_apply_of_ne_of_ne hne inr_ne_inl]
        exact ho'
    · rw [Equiv.swap_apply_left]
      exact ⟨hmem,hle,some.inj ho'⟩
  · exact congrArg s.heap.values (kept j e he)
  · obtain ⟨v,hv,hlast⟩ := hi.current hb hl.1
    exact ⟨v,hv,mem_append_left _ (mem_of_lastWrite (hl.2 ▸ hlast))⟩
  · rintro _ ⟨rfl⟩
    refine ⟨fun e he => ⟨(prepared.1 e he).1,?_⟩,nofun⟩
    rw [← (prepared.1 e he).2]
    exact congrArg s.heap.values (kept i e (by rw [hp]; exact he))

theorem Inv.deleteValue (hp : s.pc i = .deleteValue op old) :
    Inv bits (s.finish i (s.heap.deleteOld old op.newEntry) (.set op.key op.value)) chain := by
  have hl := hi.locals i
  rw [hp] at hl
  have own : ∀ e, op.newEntry = some e → (s.pc i).entry = some e := fun e he => by rw [hp]; exact he
  -- what belongs to somebody else survives
  have kept : ∀ o q, valueOwner bits s.heap s.pc o q → o ≠ .inr i → (∀ e, op.newEntry = some e → o ≠ .inl e) →
      (s.heap.deleteOld old op.newEntry).values q = s.heap.values q := by
    intro o q ho hoi hoe
    apply deleteOld_values
    · rintro rfl
      exact hoi (hi.values.unique o (.inr i) q ho (by rw [valueOwner,hp]; rfl))
    · rintro e he rfl
      obtain ⟨hmem,hle⟩ := hi.entries.live (some i) e (own e he)
      exact hoe e he (hi.values.unique o (.inl e) _ ho ⟨hmem,hle,rfl⟩)
  have entry : ∀ x, x ∈ s.heap.entries ∧ 2^bits ≤ x → op.newEntry ≠ some x →
      x ∈ (s.heap.deleteOld old op.newEntry).entries ∧
      (s.heap.deleteOld old op.newEntry).values (s.heap.valuePtr x) = s.heap.values (s.heap.valuePtr x) := by
    rintro x ⟨hx,hle⟩ hne
    refine ⟨mem_deleteOld.mpr ⟨hx,hne⟩,kept (.inl x) _ ⟨hx,hle,rfl⟩ nofun ?_⟩
    rintro e he ⟨rfl⟩
    exact hne he
  refine hi.put i (hi.table.frame (fun b hb => ?_) fun b hb x hx => ?_)
    (hi.entries.sub fun o e ho => ?_) (hi.values.sub fun o q ho => ?_) ?_
    (fun _ _ _ hx => ⟨hx,by rw [deleteOld_key]⟩) (fun _ hkv => hkv) (fun j hj e he => ?_)
    (fun j hj q hq => ?_) trivial nofun ?_
  · refine ⟨by rw [deleteOld_next],mem_deleteOld.mpr ⟨hi.table.sentinels b hb,fun he => ?_⟩⟩
    exact ((hi.apart (own b he)).1 b hb).1 rfl
  · obtain ⟨hle,hmem,_⟩ := hi.table.published b hb x hx
    have hne : op.newEntry ≠ some x := fun he => ((hi.apart (own x he)).1 b hb).2 x hx rfl
    rw [deleteOld_next,deleteOld_key,deleteOld_valuePtr]
    exact ⟨rfl,rfl,entry x ⟨hmem,hle⟩ hne⟩
  · rcases entryOwner_update ho with ⟨hoi,ho'⟩ | ⟨_,ho'⟩
    · obtain ⟨hmem,hle⟩ := hi.entries.live o e ho'
      refine ⟨ho',mem_deleteOld.mpr ⟨hmem,fun he => hoi ?_⟩,hle⟩
      exact hi.entries.unique o (some i) e ho' (own e he)
    · cases ho'
  · rcases valueOwner_update ho with ⟨hoi,ho'⟩ | ⟨_,ho'⟩
    · have ho'' : valueOwner bits s.heap s.pc o q ∧ ∀ e, op.newEntry = some e → o ≠ .inl e := by
        cases o with
        | inl =>
          obtain ⟨hx,hle,hq⟩ := ho'
          obtain ⟨hx,hne⟩ := mem_deleteOld.mp hx
          rw [deleteOld_valuePtr] at hq
          refine ⟨⟨hx,hle,hq⟩,?_⟩
          rintro e he ⟨rfl⟩
          exact hne he
        | inr => exact ⟨ho',nofun⟩
      refine ⟨ho''.1,?_⟩
      rw [kept o q ho''.1 hoi ho''.2]
      exact hi.values.live o q ho''.1
    · cases ho'
  · obtain ⟨n,hb⟩ := hi.bounded
    exact ⟨n,fun a ha => ⟨fun hm => (hb a ha).1 (mem_deleteOld.mp hm).1, deleteOld_none (hb a ha).2⟩⟩
  · have hne : op.newEntry ≠ some e := fun hn => (hi.apart (own e hn)).2 j hj e he rfl
    rw [deleteOld_next,deleteOld_key,deleteOld_valuePtr]
    exact ⟨rfl,rfl,(entry e (hi.entries.live (some j) e he) hne).2⟩
  · exact kept (.inr j) q hq (fun he => hj (inr.inj he)) nofun
  · intro kv hkv
    rw [sets_append] at hkv
    rcases mem_append.mp hkv with hkv | hkv
    · exact hi.returned kv hkv
    · cases mem_singleton.mp hkv
      exact hl.2.1

theorem Inv.link (hp : s.pc i = .exchangeNext op prev (s.heap.next prev)) (he : op.newEntry = some e) :
    ∃ chain', Inv bits ((s.write op).finish i (s.heap.link prev e op.newValue) (.set op.key op.value))
      chain' ∧ ∀ b x, x ∈ chain b → x ∈ chain' b := by
  have hl := hi.locals i
  rw [hp] at hl
  obtain ⟨hbefore,habove,hnext⟩ := hl
  have own : (s.pc i).entry = some e := by rw [hp]; exact he
  have prepared := (hi.prepared i op (by rw [hp]; rfl)).1 e he
  have hlive := hi.entries.live (some i) e own
  obtain ⟨chain',table,mem⟩ := hi.table.insert hbefore habove hlive (hi.apart own).1 prepared.1
    (hnext e he) prepared.2
  -- what belongs to somebody else survives
  have kept : ∀ o q, valueOwner bits s.heap s.pc o q → o ≠ .inr i →
      (s.heap.link prev e op.newValue).values q = s.heap.values q := by
    intro o q ho hoi
    apply link_values
    intro hn
    exact hoi (hi.values.unique o (.inr i) q ho (by rw [valueOwner,hp]; exact hn))
  have entry : ∀ x, x ∈ s.heap.entries ∧ 2^bits ≤ x → (s.heap.link prev e op.newValue).values (s.heap.valuePtr x) =
        s.heap.values (s.heap.valuePtr x) :=
    fun x hx => kept (.inl x) _ ⟨hx.1,hx.2,rfl⟩ inl_ne_inr
  refine ⟨chain',?_,fun b x hx => (mem b x).mpr (.inl hx)⟩
  rw [link_eq]
  refine hi.put i (table.frame (fun b hb => ⟨rfl,table.sentinels b hb⟩) fun b hb x hx => ?_)
    (hi.entries.give (some i) none fun o x ho => ?_) (hi.values.sub fun o q ho => ?_) ?_
    (fun b _ x hx => ⟨(mem b x).mpr (.inl hx),rfl⟩) (fun _ hkv => mem_append_left _ hkv)
    (fun j hj e' he' => ⟨?_,rfl,entry e' (hi.entries.live (some j) e' he')⟩)
    (fun j hj q hq => kept (.inr j) q hq fun he => hj (inr.inj he)) trivial nofun fun kv hkv => ?_
  · obtain ⟨hle,hmem,_⟩ := table.published b hb x hx
    exact ⟨rfl,rfl,hmem,entry x ⟨hmem,hle⟩⟩
  · rcases entryOwner_update ho with ⟨hne,ho'⟩ | ⟨_,ho'⟩
    · refine ⟨hne,?_⟩
      cases o with
      | none =>
        obtain ⟨b,hb,hx⟩ := ho'
        rcases (mem b x).mp hx with hx | ⟨rfl,rfl⟩
        · exact .inl ⟨b,hb,hx⟩
        · exact .inr ⟨rfl,own⟩
      | some => exact .inl ho'
    · cases ho'
  · rcases valueOwner_update ho with ⟨hne,ho'⟩ | ⟨_,ho'⟩
    · have ho'' : valueOwner bits s.heap s.pc o q := by cases o <;> exact ho'
      refine ⟨ho'',?_⟩
      rw [kept o q ho'' hne]
      exact hi.values.live o q ho''
    · cases ho'
  · obtain ⟨n,hb⟩ := hi.bounded
    exact ⟨n,fun a ha => ⟨(hb a ha).1,link_none (hb a ha).2⟩⟩
  · obtain ⟨hpub,_⟩ := hi.apart he'
    obtain ⟨hb,hx⟩ := hpub _ (index_lt bits op.key)
    apply update_of_ne
    rcases hbefore with rfl | ⟨hprev,_⟩
    · exact hb.symm
    · exact (hx prev hprev).symm
  · rw [sets_append] at hkv
    rcases mem_append.mp hkv with hkv | hkv
    · exact mem_append_left _ (hi.returned kv hkv)
    · cases mem_singleton.mp hkv
      exact mem_append_right _ mem_cons_self

theorem moves_inv {t : State ι V} (h : Moves bits s i t) :
    ∃ chain', Inv bits t chain' ∧ ∀ b x, x ∈ chain b → x ∈ chain' b := by
  have keep : Inv bits t chain → ∃ chain', Inv bits t chain' ∧ ∀ b x, x ∈ chain b → x ∈ chain' b :=
    fun h => ⟨chain,h,fun _ _ hx => hx⟩
  have hl := hi.locals i
  have hpr := hi.prepared i
  cases h with
  | call c =>
    apply keep
    cases c with
    | set =>
      refine hi.goto i (.inl rfl) nofun nofun ?_
      rintro op ⟨rfl⟩
      exact ⟨nofun,nofun⟩
    | get | has => exact hi.goto i (.inl rfl) nofun nofun nofun
  | hasOnward _ _ t hp hn hlt =>
    rw [hp] at hl
    exact keep (hi.goto i (.inr ⟨(hi.table.behind hl).1 t hn,hlt⟩) nofun nofun nofun)
  | hasDone => exact keep (hi.answer i rfl)
  | getFound _ _ t hp hf =>
    rw [hp] at hl
    obtain ⟨hn,hk⟩ := find_found hf
    exact keep (hi.goto i ⟨(hi.table.behind hl).1 t hn,hk⟩ nofun nofun nofun)
  | getMissing => exact keep (hi.answer i rfl)
  | getOnward _ _ t hp hf =>
    rw [hp] at hl
    obtain ⟨hn,hk⟩ := find_onward hf
    exact keep (hi.goto i (.inr ⟨(hi.table.behind hl).1 t hn,hk⟩) nofun nofun nofun)
  | getValue => exact keep (hi.goto i trivial nofun nofun nofun)
  | copyValue => exact keep (hi.answer i rfl)
  | insertFound _ _ t hp hf =>
    rw [hp] at hl hpr
    obtain ⟨hn,hk⟩ := find_found hf
    exact keep (hi.goto i ⟨(hi.table.behind hl).1 t hn,hk⟩ (fun e he => by rw [hp]; exact he)
      (fun q hq => by rw [hp]; exact hq) hpr)
  | insertMissing _ _ _ hp hf =>
    rw [hp] at hl hpr
    obtain ⟨hn,hk⟩ := find_missing hf
    exact keep (hi.goto i ⟨hl,fun x hx => ⟨(hi.table.behind hl).1 x (hn.trans hx),hk x hx⟩⟩
      (fun e he => by rw [hp]; exact he) (fun q hq => by rw [hp]; exact hq) hpr)
  | insertOnward _ _ t hp hf =>
    rw [hp] at hl hpr
    obtain ⟨hn,hk⟩ := find_onward hf
    exact keep (hi.goto i (.inr ⟨(hi.table.behind hl).1 t hn,hk⟩)
      (fun e he => by rw [hp]; exact he) (fun q hq => by rw [hp]; exact hq) hpr)
  | loadValue _ _ _ hp =>
    rw [hp] at hl hpr
    exact keep (hi.goto i hl (fun e he => by rw [hp]; exact he) (fun q hq => by rw [hp]; exact hq) hpr)
  | allocValue _ _ _ _ hp _ hm => exact keep (hi.allocValue hp hm)
  | replace _ _ _ hp hn => exact keep (hi.replace hp hn)
  | deleteValue _ _ hp => exact keep (hi.deleteValue hp)
  | retry _ hp =>
    rcases hp with ⟨t,old,hp⟩ | ⟨prev,t,hp⟩ <;> rw [hp] at hpr <;>
    exact keep (hi.goto i (.inl rfl) (fun e he => by rw [hp]; exact he) (fun q hq => by rw [hp]; exact hq) hpr)
  | storeNext _ _ _ _ hp he => exact keep (hi.storeNext hp he)
  | allocEntry op prev e _ t m hp _ hm =>
    have hp' : (s.put i m (.storeNext { op with newEntry := some e } prev t)).pc i =
        .storeNext { op with newEntry := some e } prev t := update_self ..
    have := (hi.allocEntry hp hm).storeNext hp' rfl
    simp only [State.put,update_idem] at this
    exact keep this
  | link _ _ _ hp he => exact hi.link hp he

end

theorem reachable_inv (h : (system ι V bits).Reachable s) : ∃ chain, Inv bits s chain := by
  apply h.invariant
  · rintro _ rfl
    exact ⟨_,init_inv bits⟩
  · rintro s e t ⟨chain,hi⟩ he
    obtain ⟨chain',hi',_⟩ := moves_inv hi (step_moves he)
    exact ⟨chain',hi'⟩

end Apollo.Cyber.Base.AtomicHashMap
