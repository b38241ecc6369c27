import Apollo.Cyber.Base.AtomicHashMapSteps

/-! What the calls return, as long as no value is deleted between the load of its pointer and the copy. -/
namespace Apollo.Cyber.Base.AtomicHashMap
open Foundation List Option Function State Heap Pc
variable {ι V : Type} {bits : Nat} {s t : State ι V} {chain chain' : Nat → List Nat} {i : ι} {k : Int}

/-- The result a call must have after the given completed calls. -/
def Correct (h : List (Op V)) : Op V → Prop
  | .set _ _ => True
  | .get k r => r = lastWrite (sets h) k
  | .has k r => r = (lastWrite (sets h) k).isSome

/-- Every completed call has the result a sequential map would give. -/
def Legal (h : List (Op V)) : Prop := ∀ h₁ op h₂, h = h₁ ++ op::h₂ → Correct h₁ op

variable {op : Op V} {p x prev : Nat}

theorem legal_append {h : List (Op V)} (hl : Legal h) (hc : Correct h op) : Legal (h ++ [op]) := by
  intro h₁ op' h₂ he
  rcases eq_nil_or_concat h₂ with rfl | ⟨h₃,x,rfl⟩
  · obtain ⟨rfl,hx⟩ := append_inj' he rfl
    cases hx
    exact hc
  · rw [concat_eq_append,← cons_append,← append_assoc] at he
    exact hl h₁ op' h₃ (append_inj' he rfl).1

/-- No value is deleted between another thread's load of its address and the copy. -/
def NoReader (s : State ι V) (e : ι × Act V) : Prop :=
  ∀ op old, s.pc e.1 = .deleteValue op old → ∀ j k, s.pc j ≠ .copyValue k old

def Sequential (s : State ι V) (e : ι × Act V) : Prop := ∀ j, j ≠ e.1 → s.pc j = .idle

theorem Sequential.noReader {e : ι × Act V} (h : Sequential s e) : NoReader s e := by
  intro _ _ hp j _ hj
  by_cases hje : j = e.1
  · subst hje
    rw [hp] at hj
    cases hj
  · rw [h j hje] at hj
    cases hj

/-- Loaded addresses are current values or values that wait for their deletion. -/
def Held (bits : Nat) (s : State ι V) (chain : Nat → List Nat) : Prop :=
  ∀ i k p, s.pc i = .copyValue k p → (∃ x ∈ chain (index bits k), s.heap.key x = k ∧ s.heap.valuePtr x = p) ∨
    ∃ j op, s.pc j = .deleteValue op p ∧ op.key = k

/-- What a copy reads was written for its key. -/
theorem Held.written (hh : Held bits s chain) (hi : Inv bits s chain) (hp : s.pc i = .copyValue k p) :
    ∃ v, s.heap.values p = some v ∧ (k, v) ∈ s.writes := by
  rcases hh i k p hp with ⟨x,hx,hk,rfl⟩ | ⟨j,_,hj,rfl⟩
  · obtain ⟨v,hv,hlast⟩ := hi.current (index_lt bits k) hx
    exact ⟨v,hv,mem_of_lastWrite (hk ▸ hlast)⟩
  · have hl := hi.locals j
    rw [hj] at hl
    exact hl.2.2

variable [DecidableEq ι]

theorem Moves.pc_other (h : Moves bits s i t) {j : ι} (hj : j ≠ i) : t.pc j = s.pc j := by
  cases h <;> exact update_of_ne hj ..

theorem Moves.entry (h : Moves bits s i t) (hx : x ∈ s.heap.entries) :
    t.heap.key x = s.heap.key x ∧ (t.heap.valuePtr x = s.heap.valuePtr x ∨
      ∃ op op' old, s.pc i = .exchangeValue op x old ∧
        t.pc i = .deleteValue op' (s.heap.valuePtr x) ∧ op'.key = op.key) := by
  cases h with
  | allocValue _ _ _ _ _ _ hm =>
    obtain ⟨_,rfl⟩ := newValue_eq hm
    exact ⟨rfl,.inl rfl⟩
  | replace op u _ hp =>
    refine ⟨rfl,?_⟩
    by_cases hxu : x = u
    · subst hxu
      exact .inr ⟨op,_,_,hp,update_self ..,rfl⟩
    · exact .inl (update_of_ne hxu ..)
  | deleteValue =>
    dsimp only [finish]
    rw [deleteOld_key,deleteOld_valuePtr]
    exact ⟨rfl,.inl rfl⟩
  | allocEntry _ _ e _ _ _ _ _ hm =>
    obtain ⟨hnew,_,rfl⟩ := newEntry_eq hm
    have hne : x ≠ e := by
      rintro rfl
      exact hnew hx
    exact ⟨update_of_ne hne ..,.inl (update_of_ne hne ..)⟩
  | link =>
    rw [link_eq]
    exact ⟨rfl,.inl rfl⟩
  | _ => exact ⟨rfl,.inl rfl⟩

/-- Only the load of `value_ptr` brings a thread to the copy. -/
theorem Moves.copyValue_inv (h : Moves bits s i t) (hp : t.pc i = .copyValue k p) :
    ∃ x, s.pc i = .getValue k x ∧ t.heap.valuePtr x = p ∧ t.heap.key x = s.heap.key x := by
  cases h with
  | getValue _ x hx =>
    rw [goto_pc] at hp
    cases hp
    exact ⟨x,hx,rfl,rfl⟩
  | call c =>
    rw [goto_pc] at hp
    cases c <;> cases hp
  | _ => simp at hp

theorem moves_held (hi : Inv bits s chain) (hh : Held bits s chain) (h : Moves bits s i t)
    (ho : ∀ op old, s.pc i = .deleteValue op old → ∀ j k, s.pc j ≠ .copyValue k old)
    (hc : ∀ b x, x ∈ chain b → x ∈ chain' b) : Held bits t chain' := by
  intro j k p hp
  by_cases hj : j = i
  · subst hj
    obtain ⟨x,hx,hv,hk⟩ := h.copyValue_inv hp
    have hl := hi.locals j
    rw [hx] at hl
    exact .inl ⟨x,hc _ x hl.1,hk.trans hl.2,hv⟩
  · rw [h.pc_other hj] at hp
    rcases hh j k p hp with ⟨x,hx,hk,hv⟩ | ⟨j',op,hj',hk⟩
    · obtain ⟨hkey,hval⟩ := h.entry (hi.table.published _ (index_lt bits k) x hx).2.1
      rcases hval with hval | ⟨op,op',old,hpi,hti,hop⟩
      · exact .inl ⟨x,hc _ x hx,hkey.trans hk,hval.trans hv⟩
      · have hl := hi.locals i
        rw [hpi] at hl
        exact .inr ⟨i,op',hv ▸ hti,hop.trans (hl.2.symm.trans hk)⟩
    · have hne : j' ≠ i := by
        rintro rfl
        exact ho op p hj' j k hp
      exact .inr ⟨j',op,(h.pc_other hne).trans hj',hk⟩

theorem Moves.writes (h : Moves bits s i t) : ∀ kv ∈ s.writes, kv ∈ t.writes := by
  intro _ hkv
  cases h with
  | replace | link => exact mem_append_left _ hkv
  | _ => exact hkv

theorem Moves.returned {v : V} (h : Moves bits s i t) (hr : .get k (some v) ∈ t.history) :
    .get k (some v) ∈ s.history ∨ ∃ p, s.pc i = .copyValue k p ∧ s.heap.values p = some v := by
  cases h with
  | copyValue _ p _ hp hv =>
    rcases mem_append.mp hr with hr | hr
    · exact .inl hr
    · cases mem_singleton.mp hr
      exact .inr ⟨p,hp,hv⟩
  | hasDone | getMissing | deleteValue | link =>
    rcases mem_append.mp hr with hr | hr
    · exact .inl hr
    · cases mem_singleton.mp hr
  | _ => exact .inl hr

/-- Without a deletion under a reader, every returned value was written for its key. -/
theorem noReader_returned (h : (system ι V bits).ReachableWhile NoReader s) :
    (∃ chain, Inv bits s chain ∧ Held bits s chain) ∧ ∀ k v, .get k (some v) ∈ s.history → (k, v) ∈ s.writes := by
  apply h.invariant
  · rintro _ rfl
    exact ⟨⟨_,init_inv bits,nofun⟩,nofun⟩
  · rintro s e t ⟨⟨chain,hi,hh⟩,hr⟩ ho he
    have hm := step_moves he
    obtain ⟨chain',hi',hc⟩ := moves_inv hi hm
    refine ⟨⟨chain',hi',moves_held hi hh hm ho hc⟩,fun k v hkv => ?_⟩
    rcases hm.returned hkv with hkv | ⟨p,hp,hv⟩
    · exact hm.writes _ (hr k v hkv)
    · obtain ⟨_,hv',hkv⟩ := hh.written hi hp
      rw [hv] at hv'
      cases hv'
      exact hm.writes _ hkv

def Pc.pending : Pc V → List (Int × V)
  | .deleteValue op _ => [(op.key, op.value)]
  | _ => []

omit [DecidableEq ι] in
theorem Inv.has_iff (hi : Inv bits s chain) (hp : Before bits s.heap chain k prev)
    (hge : ∀ t, s.heap.next prev = some t → k ≤ s.heap.key t) :
    (lastWrite s.writes k).isSome ↔ ∃ t, s.heap.next prev = some t ∧ s.heap.key t = k := by
  constructor
  · intro hs
    obtain ⟨v,hv⟩ := isSome_iff_exists.mp hs
    obtain ⟨x,hx,_⟩ := hi.table.complete k v (mem_of_lastWrite hv)
    obtain ⟨t,hn,_⟩ := (hi.table.behind hp).2 x hx (by omega)
    have := hge t hn
    exact ⟨t,hn,by omega⟩
  · rintro ⟨t,hn,rfl⟩
    obtain ⟨v,_,hlast⟩ := hi.current (index_lt bits _) ((hi.table.behind hp).1 t hn)
    exact isSome_of_eq_some hlast

/-- While the others are idle, a call returns what a sequential map would. -/
theorem moves_correct (hi : Inv bits s chain) (hh : Held bits s chain) (h : Moves bits s i t)
    (ho : ∀ j, j ≠ i → s.pc j = .idle) (hw : s.writes = sets s.history ++ (s.pc i).pending)
    (hr : t.history = s.history ++ [op]) : Correct s.history op := by
  have hl := hi.locals i
  have same : ∀ op', s.history ++ [op'] = s.history ++ [op] → op' = op := fun _ he => by simpa using he
  cases h with
  | hasDone _ _ _ hp hge hiff =>
    obtain rfl := same _ hr
    rw [hp] at hl
    have hw : s.writes = sets s.history := by simpa [hp,pending] using hw
    rw [Correct,← hw,Bool.eq_iff_iff,hiff,hi.has_iff hl hge]
  | getMissing _ _ _ hp hf =>
    obtain rfl := same _ hr
    rw [hp] at hl
    have hw : s.writes = sets s.history := by simpa [hp,pending] using hw
    obtain ⟨hn,hk⟩ := find_missing hf
    rw [Correct,← hw,hi.table.absent hl fun x hx => hk x (hn.symm.trans hx)]
  | copyValue k p _ hp hv =>
    obtain rfl := same _ hr
    have hw : s.writes = sets s.history := by simpa [hp,pending] using hw
    rcases hh i k p hp with ⟨x,hx,hk,rfl⟩ | ⟨j,op,hj,_⟩
    · rw [Correct,← hw,← hv,← hk]
      exact hi.table.content _ (index_lt bits k) x hx
    · by_cases hji : j = i
      · rw [hji,hp] at hj
        cases hj
      · rw [ho j hji] at hj
        cases hj
  | deleteValue | link => obtain rfl := same _ hr; trivial
  | _ => exact absurd (congrArg List.length hr) (by simp [goto,put,write])

theorem Moves.pending (h : Moves bits s i t) (hw : s.writes = sets s.history ++ (s.pc i).pending) :
    t.writes = sets t.history ++ (t.pc i).pending := by
  cases h with
  | call c hp => cases c <;> simpa [hp,pending,goto,Call.start] using hw
  | hasDone _ _ _ hp | getMissing _ _ _ hp | copyValue _ _ _ hp | deleteValue _ _ hp =>
    simpa [hp,pending,finish,sets] using hw
  | replace _ _ _ hp => simpa [hp,pending,put,write] using hw
  | link _ _ _ hp => simpa [hp,pending,finish,write,sets] using hw
  | allocValue _ _ _ _ hp | storeNext _ _ _ _ hp | allocEntry _ _ _ _ _ _ hp =>
    simpa [hp,pending,put] using hw
  | retry _ hp =>
    rcases hp with ⟨u,old,hp⟩ | ⟨prev,u,hp⟩ <;> simpa [hp,pending,goto] using hw
  | hasOnward _ _ _ hp | getFound _ _ _ hp | getOnward _ _ _ hp | getValue _ _ hp
  | insertFound _ _ _ hp | insertMissing _ _ _ hp | insertOnward _ _ _ hp | loadValue _ _ _ hp =>
    simpa [hp,pending,goto] using hw

theorem Moves.history (h : Moves bits s i t) : t.history = s.history ∨ ∃ op, t.history = s.history ++ [op] := by
  cases h with
  | hasDone | getMissing | copyValue | deleteValue | link => exact .inr ⟨_,rfl⟩
  | _ => exact .inl rfl

/-- A sequential run gives every call the result of a sequential map. -/
theorem sequential_legal (h : (system ι V bits).ReachableWhile Sequential s) :
    (∃ chain, Inv bits s chain ∧ Held bits s chain) ∧
      (∀ i, (∀ j, j ≠ i → s.pc j = .idle) → s.writes = sets s.history ++ (s.pc i).pending) ∧
      Legal s.history := by
  apply h.invariant
  · rintro _ rfl
    exact ⟨⟨_,init_inv bits,nofun⟩,fun _ _ => rfl,fun _ _ _ he => by simp [init] at he⟩
  · rintro s ⟨i,a⟩ t ⟨⟨chain,hi,hh⟩,hw,hl⟩ ho he
    have hm := step_moves he
    obtain ⟨chain',hi',hc⟩ := moves_inv hi hm
    have hwi := hm.pending (hw i ho)
    refine ⟨⟨chain',hi',moves_held hi hh hm ho.noReader hc⟩,fun i' hi' => ?_,?_⟩
    · by_cases he : i' = i
      · exact he ▸ hwi
      · rw [hi' i (Ne.symm he)] at hwi
        rw [hm.pc_other he,ho i' he]
        exact hwi
    · rcases hm.history with hr | ⟨op,hr⟩
      · exact hr ▸ hl
      · rw [hr]
        exact legal_append hl (moves_correct hi hh hm ho (hw i ho) hr)

/-- Running alone, thread `i` returns from the given call. -/
def Finishes (bits : Nat) (s : State ι V) (i : ι) (c : Call V) : Prop :=
  ∃ es t op, (∀ e ∈ es, e.1 = i) ∧ (system ι V bits).exec s es = some t ∧ t.pc i = .idle ∧
    t.history = s.history ++ [op] ∧ op.call = c

section Alone
variable {a : Act V} {c : Call V} {prev e p : Nat} {v : V} {l : List Nat}

theorem Finishes.step (h : s.step bits (i, a) = some t) (hh : t.history = s.history)
    (hf : Finishes bits t i c) : Finishes bits s i c := by
  obtain ⟨es,u,op,hes,hu,hp,hr,hc⟩ := hf
  refine ⟨(i, a)::es,u,op,?_,System.exec_cons.mpr ⟨t,h,hu⟩,hp,hh ▸ hr,hc⟩
  rintro e' (_ | ⟨_,he⟩)
  · rfl
  · exact hes e' he

variable {m : Heap V}

theorem Finishes.last {o : Op V} {w : List (Int × V)}
    (h : s.step bits (i, a) = some ({ s with writes := w }.finish i m o)) (hc : o.call = c) : Finishes bits s i c := by
  refine ⟨[(i, a)],_,o,?_,System.exec_cons.mpr ⟨_,h,rfl⟩,finish_pc ..,rfl,hc⟩
  rintro _ (_ | ⟨_,he⟩)
  · rfl
  · cases he

theorem finishes_has (hl : Linked s.heap.next (prev::l)) : Finishes bits (s.goto i (.has k prev)) i (.has k) := by
  induction l generalizing prev with
  | nil =>
    refine .last (a := .advance 0 0) (m := s.heap) (o := .has k false) (w := s.writes) ?_ rfl
    simp [step,advance,goto,hl.1]
  | cons y _ ih =>
    by_cases hlt : s.heap.key y < k
    · refine .step (a := .advance 0 0) (t := s.goto i (.has k y)) ?_ rfl (ih hl.2)
      simp [step,advance,goto,hl.1,hlt]
    · refine .last (a := .advance 0 0) (m := s.heap) (o := .has k (s.heap.key y == k)) (w := s.writes) ?_ rfl
      simp [step,advance,goto,hl.1,hlt]

theorem find_cases (hn : m.next prev = l.head?) (k : Int) : m.find k prev = .missing (m.next prev) ∨
      ∃ y l', l = y::l' ∧ (m.find k prev = .found y ∨ m.find k prev = .onward y) := by
  cases l with
  | nil => exact .inl (by rw [find,hn]; rfl)
  | cons y l' =>
    rw [find,hn]
    dsimp only [head?_cons]
    by_cases heq : m.key y = k
    · exact .inr ⟨y,l',rfl,.inl (if_pos heq)⟩
    · rw [if_neg heq]
      by_cases hgt : m.key y > k
      · exact .inl (if_pos hgt)
      · exact .inr ⟨y,l',rfl,.inr (if_neg hgt)⟩

theorem finishes_get (hl : Linked s.heap.next (prev::l)) (hv : ∀ x ∈ l, (s.heap.values (s.heap.valuePtr x)).isSome) :
    Finishes bits (s.goto i (.get k prev)) i (.get k) := by
  induction l generalizing prev with
  | nil =>
    refine .last (a := .advance 0 0) (m := s.heap) (o := .get k none) (w := s.writes) ?_ rfl
    simp [step,advance,find,goto,hl.1]
  | cons y _ ih =>
    rcases find_cases hl.1 k with hf | ⟨_,_,⟨⟩,hf | hf⟩
    · refine .last (a := .advance 0 0) (m := s.heap) (o := .get k none) (w := s.writes) ?_ rfl
      simp [step,advance,goto,hf]
    · obtain ⟨v,hvy⟩ := isSome_iff_exists.mp (hv y mem_cons_self)
      refine .step (a := .advance 0 0) (t := s.goto i (.getValue k y)) ?_ rfl ?_
      · simp [step,advance,goto,hf]
      refine .step (a := .advance 0 0) (t := s.goto i (.copyValue k (s.heap.valuePtr y))) ?_ rfl ?_
      · simp [step,advance,goto]
      refine .last (a := .advance 0 0) (m := s.heap) (o := .get k (some v)) (w := s.writes) ?_ rfl
      simp [step,advance,goto,hvy]
    · refine .step (a := .advance 0 0) (t := s.goto i (.get k y)) ?_ rfl
        (ih hl.2 fun x hx => hv x (mem_cons_of_mem _ hx))
      simp [step,advance,goto,hf]

theorem finishes_replace {y : Nat} (hp : s.pc i = .loadValue ⟨k,v,none,none⟩ y)
    (hfree : s.heap.values p = none) : Finishes bits s i (.set k v) := by
  let m : Heap V := { s.heap with values := update s.heap.values p (some v) }
  refine .step (a := .advance 0 p)
    (t := s.put i m (.exchangeValue ⟨k,v,none,some p⟩ y (m.valuePtr y))) ?_ rfl ?_
  · simp [step,advance,hp,newValue,hfree,m]
  refine .step (a := .advance 0 0) (t := ((s.put i m .idle).write ⟨k,v,none,some p⟩).put i
    (m.replace y p) (.deleteValue ⟨k,v,none,none⟩ (m.valuePtr y))) ?_ rfl ?_
  · simp [step,advance,put,write]
  refine .last (a := .advance 0 0) (m := (m.replace y p).deleteOld (m.valuePtr y) none)
    (o := .set k v) (w := s.writes ++ [(k, v)]) ?_ rfl
  simp [step,advance,put,write]

theorem finishes_link (hp : s.pc i = .storeNext ⟨k,v,none,none⟩ prev (s.heap.next prev))
    (hprev : prev ∈ s.heap.entries) (hnew : e ∉ s.heap.entries) (hfree : s.heap.values p = none) :
    Finishes bits s i (.set k v) := by
  have hne : prev ≠ e := by
    rintro rfl
    exact hnew hprev
  obtain ⟨m,hm⟩ : ∃ m, s.heap.newEntry e p k v = some m := by
    simp [newEntry,hnew,newValue,hfree]
  have hnext : (m.storeNext e (s.heap.next prev)).next prev = s.heap.next prev := by
    obtain ⟨_,_,rfl⟩ := newEntry_eq hm
    exact (update_of_ne hne ..).trans (update_of_ne hne ..)
  refine .step (a := .advance e p) (t := s.put i (m.storeNext e (s.heap.next prev))
    (.exchangeNext ⟨k,v,some e,none⟩ prev (s.heap.next prev))) ?_ rfl ?_
  · simp [step,advance,hp,hm]
  refine .last (a := .advance 0 0) (m := (m.storeNext e (s.heap.next prev)).link prev e none) (o := .set k v)
    (w := s.writes ++ [(k, v)]) ?_ rfl
  simp [step,advance,put,write,hnext]

theorem finishes_insert (hl : Linked s.heap.next (prev::l))
    (hm : ∀ x ∈ prev::l, x ∈ s.heap.entries) (hnew : e ∉ s.heap.entries)
    (hfree : s.heap.values p = none) :
    Finishes bits (s.goto i (.insert ⟨k,v,none,none⟩ prev)) i (.set k v) := by
  induction l generalizing prev with
  | nil =>
    refine .step (a := .advance 0 0)
      (t := s.goto i (.storeNext ⟨k,v,none,none⟩ prev (s.heap.next prev))) ?_ rfl
      (finishes_link (goto_pc ..) (hm prev mem_cons_self) hnew hfree)
    simp [step,advance,find,goto,hl.1]
  | cons y _ ih =>
    rcases find_cases hl.1 k with hf | ⟨_,_,⟨⟩,hf | hf⟩
    · refine .step (a := .advance 0 0)
        (t := s.goto i (.storeNext ⟨k,v,none,none⟩ prev (s.heap.next prev))) ?_ rfl
        (finishes_link (goto_pc ..) (hm prev mem_cons_self) hnew hfree)
      simp [step,advance,goto,hf]
    · refine .step (a := .advance 0 0) (t := s.goto i (.loadValue ⟨k,v,none,none⟩ y)) ?_ rfl
        (finishes_replace (goto_pc ..) hfree)
      simp [step,advance,goto,hf]
    · refine .step (a := .advance 0 0) (t := s.goto i (.insert ⟨k,v,none,none⟩ y)) ?_ rfl
        (ih hl.2 fun x hx => hm x (mem_cons_of_mem _ hx))
      simp [step,advance,goto,hf]

/-- From every state that satisfies the invariant an idle thread can finish any call. -/
theorem Inv.finishes (hi : Inv bits s chain) (hp : s.pc i = .idle) (c : Call V) : Finishes bits s i c := by
  have linked := fun k => hi.table.linked _ (index_lt bits k)
  refine .step (a := .call c) (t := s.goto i (c.start bits)) ?_ rfl ?_
  · cases c <;> simp [step,hp,Call.start]
  cases c with
  | has k => exact finishes_has (linked k)
  | get k =>
    refine finishes_get (linked k) fun x hx => ?_
    obtain ⟨v,hv,_⟩ := hi.current (index_lt bits k) hx
    exact isSome_of_eq_some hv
  | set k =>
    obtain ⟨n,hb⟩ := hi.bounded
    refine finishes_insert (linked k) (fun x hx => ?_) (hb n (le_refl n)).1 (hb n (le_refl n)).2
    rcases mem_cons.mp hx with rfl | hx
    · exact hi.table.sentinels _ (index_lt bits k)
    · exact (hi.table.published _ (index_lt bits k) x hx).2.1

end Alone

def Contains (bits : Nat) (m : Heap V) (k : Int) : Prop := ∃ l, Linked m.next (index bits k::l) ∧ ∃ x ∈ l, m.key x = k

omit [DecidableEq ι] in
theorem Inv.contains_iff (hi : Inv bits s chain) (k : Int) :
    Contains bits s.heap k ↔ ∃ x ∈ chain (index bits k), s.heap.key x = k := by
  have hl := hi.table.linked _ (index_lt bits k)
  constructor
  · rintro ⟨l,hl',hx⟩
    rw [← (List.cons.inj (hl'.unique hl rfl)).2]
    exact hx
  · exact fun hx => ⟨_,hl,hx⟩

theorem exec_contains {es : List (ι × Act V)} (hi : Inv bits s chain)
    (h : (system ι V bits).exec s es = some t) (hk : Contains bits s.heap k) :
    Contains bits t.heap k := by
  refine (System.exec_keeps (P := fun t => (∃ chain, Inv bits t chain) ∧ Contains bits t.heap k)
    ?_ ⟨⟨chain,hi⟩,hk⟩ h).2
  rintro s e t _ ⟨⟨chain,hi⟩,hk⟩ he
  have hm := step_moves he
  obtain ⟨chain',hi',hc⟩ := moves_inv hi hm
  obtain ⟨x,hx,hkx⟩ := (hi.contains_iff k).mp hk
  refine ⟨⟨chain',hi'⟩,(hi'.contains_iff k).mpr ⟨x,hc _ x hx,?_⟩⟩
  rw [(hm.entry (hi.table.published _ (index_lt bits k) x hx).2.1).1,hkx]

/-- The buckets are finite sorted lists from which no key is ever removed, and a thread that runs alone returns. While
no value is deleted between the load and the copy of a `Get`, every `Get` returns a value written for its key. -/
theorem sorted_lists_and_written_values (ι V : Type) [DecidableEq ι] (bits : Nat) :
    (∀ s, (system ι V bits).Reachable s → (∀ b < 2^bits, ∃ l, Linked s.heap.next (b::l) ∧
        l.Pairwise (fun x y => s.heap.key x < s.heap.key y) ∧
        ∀ x ∈ l, index bits (s.heap.key x) = b) ∧
      (∀ k v, .set k v ∈ s.history → ∃ l, Linked s.heap.next (index bits k::l) ∧ (l.map s.heap.key).count k = 1) ∧
      (∀ es t, (system ι V bits).exec s es = some t → ∀ k, Contains bits s.heap k → Contains bits t.heap k) ∧
      ∀ i c, s.pc i = .idle → Finishes bits s i c) ∧
    (∀ s, (system ι V bits).ReachableWhile NoReader s →
      (∀ i k p, s.pc i = .copyValue k p → ∃ v, s.heap.values p = some v ∧ (k, v) ∈ s.writes) ∧
      ∀ k v, .get k (some v) ∈ s.history → (k, v) ∈ s.writes) ∧
    ∀ s, (system ι V bits).ReachableWhile Sequential s → Legal s.history := by
  refine ⟨fun s hs => ?_,fun s hs => ?_,fun _ hs => (sequential_legal hs).2.2⟩
  · obtain ⟨chain,hi⟩ := reachable_inv hs
    refine ⟨fun b hb => ?_,fun k v hk => ?_,fun _ _ he _ hk => exec_contains hi he hk,
      fun _ c hp => hi.finishes hp c⟩
    · exact ⟨chain b,hi.table.linked b hb,hi.table.sorted b hb,
        fun x hx => (hi.table.published b hb x hx).2.2⟩
    · have hset : (k, v) ∈ sets s.history := mem_filterMap.mpr ⟨_,hk,rfl⟩
      obtain ⟨x,hx,hkx⟩ := hi.table.complete k v (hi.returned _ hset)
      refine ⟨_,hi.table.linked _ (index_lt bits k),?_⟩
      exact count_eq_one_of_mem (hi.table.keys_nodup (index_lt bits k)) (mem_map.mpr ⟨x,hx,hkx⟩)
  · obtain ⟨⟨chain,hi,hh⟩,hr⟩ := noReader_returned hs
    exact ⟨fun _ _ _ hp => hh.written hi hp,hr⟩

/-- Between the load and the copy of `Get(1)` another thread replaces the value, deletes it
and gets its address again for the value of key 2. -/
theorem get_returns_foreign_value : ∃ s, (system Bool Nat 7).Reachable s ∧
    .get 1 (some 20) ∈ s.history ∧ ∀ v, (1, v) ∈ s.writes → v ≠ 20 := by
  obtain ⟨s,hs,hp⟩ := System.reachable_of_exec (system Bool Nat 7)
    [(true, .call (.set 1 10)),(true, .advance 0 0),(true, .advance 128 0),(true, .advance 0 0),
     (false, .call (.get 1)),(false, .advance 0 0),(false, .advance 0 0),
     (true, .call (.set 1 11)),(true, .advance 0 0),(true, .advance 0 1),(true, .advance 0 0),
     (true, .advance 0 0),
     (true, .call (.set 2 20)),(true, .advance 0 0),(true, .advance 129 0),(true, .advance 0 0),
     (false, .advance 0 0)]
    (fun s => decide (.get 1 (some 20) ∈ s.history ∧ s.writes = [(1, 10),(1, 11),(2, 20)]))
    rfl (by decide +kernel)
  obtain ⟨hget,hw⟩ := of_decide_eq_true hp
  refine ⟨s,hs,hget,fun _ hv => ?_⟩
  rw [hw] at hv
  simp at hv
  omega

end Apollo.Cyber.Base.AtomicHashMap
