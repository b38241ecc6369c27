import Apollo.Cyber.Transport.Shm.Segment

/-! An initialised object has the configuration of the segment it maps, as long as no ceiling is read before its `State`
is placed. The blocks that `AcquireBlockToRead` and `AcquireBlockToWrite` hand out. -/
namespace Apollo.Cyber.Transport.Shm.Segment
open Foundation Option Function ShmConf Memory Object

/-- The running call of a creation, which works with the object's own configuration. -/
def Pc.creates : Pc → Option Return
  | .create r _ | .attachNew r _ | .construct r | .removeGet (.create r _)
  | .removeCtl (.create r _) _ => some r
  | _ => none

def Pc.opens : Pc → Option Return
  | .openOnly r | .attach r _ | .readCeiling r => some r
  | _ => none

def Pc.Quiet : Pc → Prop
  | .idle | .discount | .checkCount | .gone | .removeGet .destroy | .removeCtl .destroy _ => True
  | _ => False

/-- Segments keep their layout, and new ones get new numbers. -/
structure Memory.Evolves (m n : Memory) : Prop where
  next : m.next ≤ n.next
  conf : ∀ id < m.next, (n.regions id).conf = (m.regions id).conf

structure Memory.Wf (m : Memory) : Prop where
  key : ∀ id, m.key = some id → id < m.next
  conf : ∀ id < m.next, ∃ size, (m.regions id).conf = update size

inductive Moves (m : Memory) (o : Object) : Memory → Object → Prop
  | quiet (b : Bool) (p : Pc) (n : Memory) : p.Quiet → (b = true → o.init = true) →
      m.Evolves n → (m.Wf → n.Wf) → Moves m o n { o with init := b, pc := p }
  | acquired (c : Acquire) : o.init = true → Moves m o m (o.afterInit c true)
  | opening (c : Acquire) (p : Pc) : o.init = false →
      p = .openOnly (.init c) ∨ p = .create (.init c) 0 → Moves m o m (o.goto p)
  | current (c : Acquire) : o.pc = .needRemap c → Moves m o m (o.afterRemap c true)
  | remap (c : Acquire) : o.pc = .needRemap c → Moves m o m
      { o with init := false, mapped := none, pc := .openOnly (.remap c) }
  | inUse (r : Return) : o.pc.creates = some r → Moves m o m (o.goto (.openOnly r))
  | create (r : Return) : o.pc.creates = some r → Moves m o (m.create o.conf) (o.goto (.attachNew r m.next))
  | attachNew (r : Return) (id : Nat) : o.pc = .attachNew r id →
      Moves m o m { o with mapped := some id, pc := .construct r }
  | construct (r : Return) (id : Nat) : o.pc = .construct r → o.mapped = some id → Moves m o
      (m.set id { m.regions id with constructed := true, needRemap := false, referenceCounts := 0 })
      { o with conf := update o.conf.ceilingMsgSize, pc := .count r }
  | found (r : Return) (id : Nat) : o.pc = .openOnly r → m.key = some id → Moves m o m (o.goto (.attach r id))
  | attach (r : Return) (id : Nat) : o.pc = .attach r id →
      Moves m o m { o with mapped := some id, pc := .readCeiling r }
  | readCeiling (r : Return) (id : Nat) : o.pc = .readCeiling r → o.mapped = some id → Moves m o m
      { o with conf := update (m.regions id).ceilingMsgSize, pc := .count r }
  | count (r : Return) (id : Nat) : o.pc = .count r → o.mapped = some id → Moves m o
      (m.set id { m.regions id with referenceCounts := (m.regions id).referenceCounts+1 })
      ({ o with init := true }.opened r true)
  | markRemap (msgSize id : Nat) : o.pc = .markRemap msgSize → o.mapped = some id → Moves m o
      (m.set id { m.regions id with needRemap := true })
      { o with mapped := none, pc := .removeGet (.create (.recreate msgSize) 0) }
  | remove (r : Return) (p : Pc) (n : Memory) : o.pc.creates = some r → p.creates = some r →
      (∀ id, p ≠ .attachNew r id) → p ≠ .construct r → m.Evolves n → (m.Wf → n.Wf) →
      Moves m o n (o.goto p)
  | retry (r : Return) (k : Nat) : o.pc = .create r k →
      Moves m o m { o with mapped := none, pc := .removeGet (.create r (k+1)) }
  | failed (r : Return) (n : Memory) : o.pc.creates = some r ∨ o.pc.opens = some r →
      m.Evolves n → (m.Wf → n.Wf) → Moves m o n (o.opened r false)

theorem Memory.Evolves.refl (m : Memory) : m.Evolves m := ⟨Nat.le_refl _,fun _ _ => rfl⟩

variable {m : Memory} {id : Nat} {x : Region}

theorem Memory.set_evolves (hx : x.conf = (m.regions id).conf) : m.Evolves (m.set id x) := by
  refine ⟨le_refl _,fun j _ => ?_⟩
  change (update m.regions id x j).conf = _
  rw [update_apply]
  split
  · next h => rw [h,hx]
  · rfl

theorem Memory.set_wf (hx : x.conf = (m.regions id).conf) (h : m.Wf) : (m.set id x).Wf :=
  ⟨h.key,fun j hj => by rw [(set_evolves hx).conf j hj]; exact h.conf j hj⟩

theorem Memory.remove_evolves (m : Memory) (id : Nat) : m.Evolves (m.remove id) := ⟨Nat.le_refl _,fun _ _ => rfl⟩

theorem Memory.remove_wf (id : Nat) (h : m.Wf) : (m.remove id).Wf := by
  refine ⟨fun j hj => h.key j ?_,h.conf⟩
  change (if m.key = some id then none else m.key) = some j at hj
  split at hj
  · cases hj
  · exact hj

theorem Memory.create_evolves (m : Memory) (conf : ShmConf) : m.Evolves (m.create conf) := by
  refine ⟨Nat.le_succ _,fun j hj => ?_⟩
  change (update m.regions m.next _ j).conf = _
  rw [update_of_ne (ne_of_lt hj)]

theorem Memory.create_conf (m : Memory) (conf : ShmConf) : ((m.create conf).regions m.next).conf = conf := by
  change (update m.regions m.next _ m.next).conf = _
  rw [update_self]

theorem Memory.create_wf {conf : ShmConf} (hc : ∃ size, conf = update size) (h : m.Wf) : (m.create conf).Wf := by
  refine ⟨fun id hid => ?_,fun id hid => ?_⟩
  · cases hid
    exact Nat.lt_succ_self _
  · rcases Nat.lt_succ_iff_lt_or_eq.mp hid with hlt | rfl
    · rw [(m.create_evolves conf).conf id hlt]
      exact h.conf id hlt
    · rw [create_conf]
      exact hc

section Moves
variable {m n : Memory} {o p : Object}

theorem removed_moves {r : Removal} (hp : o.pc = .removeGet r ∨ ∃ id, o.pc = .removeCtl r id)
    (he : m.Evolves n) (hw : m.Wf → n.Wf) : Moves m o n (o.removed r) := by
  cases r with
  | create r =>
    have hc : o.pc.creates = some r := by rcases hp with hp | ⟨id,hp⟩ <;> rw [hp] <;> rfl
    rw [removed]
    split
    · exact .remove r _ n hc rfl nofun nofun he hw
    · exact .failed r n (.inl hc) he hw
  | destroy => exact .quiet o.init .gone n trivial id he hw

theorem acquire_moves {c : Acquire} (h : o.acquire c = some p) : Moves m o m p := by
  rw [acquire] at h
  split at h
  · split at h
    · next hi => cases h; exact .acquired c hi
    · next hi =>
      have hi : o.init = false := by simpa using hi
      split at h <;> cases h
      · exact .opening c _ hi (.inl rfl)
      · exact .opening c _ hi (.inr rfl)
  · cases h

theorem destroy_moves (h : o.destroy = some p) : Moves m o m p := by
  rw [destroy] at h
  split at h
  · split at h <;> cases h
    · exact .quiet false .discount m trivial nofun (.refl m) id
    · exact .quiet o.init .gone m trivial id (.refl m) id
  · cases h

theorem busy_moves (h : o.busy = some p) : Moves m o m p := by
  rw [busy] at h
  split at h <;> cases h
  exact .quiet o.init .idle m trivial id (.refl m) id

theorem proceed_moves (h : o.proceed m = some (n, p)) : Moves m o n p := by
  rw [proceed] at h
  split at h
  case h_1 c hp =>
    obtain ⟨id,hm,h⟩ := map_eq_some_iff.mp h
    split at h <;> cases h
    · exact .remap c hp
    · exact .current c hp
  case h_2 r k hp =>
    have hc : o.pc.creates = some r := by rw [hp]; rfl
    split at h <;> cases h
    · exact .inUse r hc
    · exact .create r hc
  case h_3 r id hp => cases h; exact .attachNew r id hp
  case h_4 r hp =>
    obtain ⟨id,hm,h⟩ := map_eq_some_iff.mp h
    cases h
    exact .construct r id hp hm
  case h_5 r hp =>
    split at h
    · next id hk => cases h; exact .found r id hp hk
    · cases h; exact .failed r m (.inr (by rw [hp]; rfl)) (.refl m) id
  case h_6 r id hp => cases h; exact .attach r id hp
  case h_7 r hp =>
    obtain ⟨id,hm,h⟩ := map_eq_some_iff.mp h
    cases h
    exact .readCeiling r id hp hm
  case h_8 r hp =>
    obtain ⟨id,hm,h⟩ := map_eq_some_iff.mp h
    cases h
    exact .count r id hp hm
  case h_9 msgSize hp =>
    obtain ⟨id,hm,h⟩ := map_eq_some_iff.mp h
    cases h
    exact .markRemap msgSize id hp hm
  case h_10 r hp =>
    split at h
    · next id hk =>
      cases h
      cases r with
      | create r =>
        exact .remove r _ m (by rw [hp]; rfl) rfl nofun nofun (.refl m) (fun h => h)
      | destroy => exact .quiet o.init _ m trivial (fun h => h) (.refl m) (fun h => h)
    · cases h; exact removed_moves (.inl hp) (.refl m) id
  case h_11 r id hp =>
    cases h
    exact removed_moves (.inr ⟨id,hp⟩) (m.remove_evolves id) (remove_wf id)
  case h_12 hp =>
    obtain ⟨id,hm,h⟩ := map_eq_some_iff.mp h
    cases h
    exact .quiet o.init .checkCount _ trivial (fun h => h) (set_evolves rfl) (set_wf rfl)
  case h_13 hp =>
    obtain ⟨id,hm,h⟩ := map_eq_some_iff.mp h
    split at h <;> cases h
    · exact .quiet o.init (.removeGet .destroy) m trivial (fun h => h) (.refl m) (fun h => h)
    · exact .quiet o.init .gone m trivial (fun h => h) (.refl m) (fun h => h)
  all_goals cases h

theorem fail_moves {e : Errno} (h : o.fail m e = some (n, p)) : Moves m o n p := by
  rw [fail] at h
  split at h
  case h_1 r k hp =>
    split at h <;> cases h
    · exact .retry r k hp
    · exact .failed r m (.inl (by rw [hp]; rfl)) (.refl m) id
  case h_2 r id hp =>
    cases h
    exact .failed r _ (.inl (by rw [hp]; rfl)) (m.remove_evolves id) (remove_wf id)
  case h_3 r hp => cases h; exact .failed r m (.inr (by rw [hp]; rfl)) (.refl m) id
  case h_4 r id hp => cases h; exact .failed r m (.inr (by rw [hp]; rfl)) (.refl m) (fun h => h)
  case h_5 r hp => cases h; exact removed_moves (.inl hp) (.refl m) id
  case h_6 r id hp => cases h; exact removed_moves (.inr ⟨id,hp⟩) (.refl m) (fun h => h)
  case h_7 => cases h

end Moves

def Object.Maps (m : Memory) (o : Object) : Prop := ∃ id < m.next, o.mapped = some id ∧ (m.regions id).conf = o.conf

def Object.At (m : Memory) (o : Object) : Pc → Prop
  | .idle | .discount | .checkCount | .gone | .removeGet .destroy | .removeCtl .destroy _ => True
  | .needRemap _ | .lock _ => o.init = true
  | .create _ _ | .openOnly _ | .markRemap _ | .removeGet (.create _ _)
  | .removeCtl (.create _ _) _ => o.init = false
  | .attachNew _ id => o.init = false ∧ id < m.next ∧ (m.regions id).conf = o.conf
  | .attach _ id => o.init = false ∧ id < m.next
  | .readCeiling _ => o.init = false ∧ ∀ id, o.mapped = some id → id < m.next
  | .construct _ | .count _ => o.init = false ∧ o.Maps m

structure Object.Ready (m : Memory) (o : Object) : Prop where
  conf : ∃ size, o.conf = update size
  init : o.init = true → o.Maps m

structure Object.Ok (m : Memory) (o : Object) : Prop extends o.Ready m where
  here : o.At m o.pc

/-- The next access does not read the ceiling of a segment that is not constructed. -/
def Object.settled (m : Memory) (o : Object) : Bool :=
  match o.pc, o.mapped with
  | .readCeiling _, some id => (m.regions id).constructed
  | _, _ => true

section Ok
variable {m n : Memory} {o p : Object}

theorem Object.Maps.mono (h : o.Maps m) (he : m.Evolves n) : o.Maps n := by
  obtain ⟨id,hlt,hm,hc⟩ := h
  exact ⟨id,lt_of_lt_of_le hlt he.next,hm,(he.conf id hlt).trans hc⟩

variable {q : Pc} {r : Return} {b : Bool} {c : Acquire}

theorem Object.At.mono (h : o.At m q) (he : m.Evolves n) : o.At n q := by
  match q, h with
  | .attachNew _ id, h =>
    exact ⟨h.1,lt_of_lt_of_le h.2.1 he.next,(he.conf id h.2.1).trans h.2.2⟩
  | .attach _ _, h => exact ⟨h.1,lt_of_lt_of_le h.2 he.next⟩
  | .readCeiling _, h => exact ⟨h.1,fun id hm => lt_of_lt_of_le (h.2 id hm) he.next⟩
  | .construct _, h | .count _, h => exact ⟨h.1,h.2.mono he⟩
  | .idle, _ | .discount, _ | .checkCount, _ | .gone, _ | .removeGet .destroy, _
  | .removeCtl .destroy _, _ => trivial
  | .needRemap _, h | .lock _, h | .create _ _, h | .openOnly _, h | .markRemap _, h
  | .removeGet (.create _ _), h | .removeCtl (.create _ _) _, h => exact h

theorem Object.Ready.mono (h : o.Ready m) (he : m.Evolves n) : o.Ready n := ⟨h.conf,fun hi => (h.init hi).mono he⟩

theorem Object.Ok.mono (h : o.Ok m) (he : m.Evolves n) : o.Ok n := ⟨h.toReady.mono he,h.here.mono he⟩

theorem Object.At.closed (h : o.At m q) (hq : q.creates = some r ∨ q.opens = some r) : o.init = false := by
  match q, h with
  | .create _ _, h | .openOnly _, h | .removeGet (.create _ _), h
  | .removeCtl (.create _ _) _, h => exact h
  | .attachNew _ _, h | .construct _, h | .attach _ _, h | .readCeiling _, h => exact h.1
  | .idle, _ | .discount, _ | .checkCount, _ | .gone, _ | .removeGet .destroy, _
  | .removeCtl .destroy _, _ | .needRemap _, _ | .lock _, _ | .markRemap _, _ | .count _, _ =>
    rcases hq with hq | hq <;> cases hq

theorem Object.Ready.goto (h : o.Ready m) (hq : o.At m q) : (o.goto q).Ok m := by
  exact ⟨⟨h.conf,h.init⟩,hq⟩

theorem Object.Ready.afterInit (h : o.Ready m) (hb : b = true → o.init = true) : (o.afterInit c b).Ok m := by
  unfold Object.afterInit
  split
  · next hr =>
    split
    · split
      · exact h.goto trivial
      · exact h.goto (hb hr)
    · exact h.goto (hb hr)
  · exact h.goto trivial

theorem Object.Ready.afterRemap (h : o.Ready m) (hb : b = true → o.init = true) : (o.afterRemap c b).Ok m := by
  unfold Object.afterRemap
  split
  · split
    · next hr => exact h.goto (hb hr)
    · exact h.goto trivial
  · split
    · exact ⟨⟨⟨_,rfl⟩,nofun⟩,rfl⟩
    · split
      · next hr => exact h.goto (hb hr)
      · exact h.goto trivial

theorem Object.Ready.opened (h : o.Ready m) (hb : b = true → o.init = true) : (o.opened r b).Ok m := by
  cases r with
  | init => exact h.afterInit hb
  | remap => exact h.afterRemap hb
  | recreate =>
    rw [opened]
    split
    · next hr => exact h.goto (hb hr)
    · exact h.goto trivial

theorem update_read {id : Nat} (h : o.Ok m) (hw : m.Wf) (hp : o.pc = .readCeiling r) (hmap : o.mapped = some id)
    (hs : o.settled m = true) : id < m.next ∧ update (m.regions id).ceilingMsgSize = (m.regions id).conf := by
  have here := h.here
  rw [hp] at here
  have hid := here.2 id hmap
  have hc : (m.regions id).constructed = true := by
    rw [settled,hp,hmap] at hs
    exact hs
  obtain ⟨_,hconf⟩ := hw.conf id hid
  refine ⟨hid,?_⟩
  rw [Region.ceilingMsgSize,if_pos hc,hconf,update_ceiling]

theorem moves_ok (h : o.Ok m) (hw : m.Wf) (hm : Moves m o n p) (hs : o.settled m = true) :
    p.Ok n ∧ n.Wf ∧ m.Evolves n := by
  have here := h.here
  have closed : ∀ {P : Prop}, o.init = false → o.init = true → P := by
    intro _ hf ht
    cases hf.symm.trans ht
  cases hm with
  | quiet _ q _ hq hb he hwn =>
    refine ⟨⟨⟨h.conf,fun hi => (h.init (hb hi)).mono he⟩,?_⟩,hwn hw,he⟩
    match q, hq with
    | .idle, _ | .discount, _ | .checkCount, _ | .gone, _ | .removeGet .destroy, _
    | .removeCtl .destroy _, _ => trivial
  | acquired _ hi => exact ⟨h.afterInit fun _ => hi,hw,.refl m⟩
  | opening _ _ hi hq =>
    refine ⟨h.goto ?_,hw,.refl m⟩
    rcases hq with rfl | rfl <;> exact hi
  | current _ hp =>
    rw [hp] at here
    exact ⟨h.afterRemap fun _ => here,hw,.refl m⟩
  | remap => exact ⟨⟨⟨h.conf,nofun⟩,rfl⟩,hw,.refl m⟩
  | inUse _ hc => exact ⟨h.goto (here.closed (.inl hc)),hw,.refl m⟩
  | create _ hc =>
    have he := m.create_evolves o.conf
    exact ⟨(h.toReady.mono he).goto ⟨here.closed (.inl hc),Nat.lt_succ_self _,m.create_conf o.conf⟩,
      create_wf h.conf hw,he⟩
  | attachNew _ id hp =>
    rw [hp] at here
    exact ⟨⟨⟨h.conf,closed here.1⟩,here.1,id,here.2.1,rfl,here.2.2⟩,hw,.refl m⟩
  | construct _ id hp =>
    rw [hp] at here
    obtain ⟨_,hconf⟩ := h.conf
    have he : m.Evolves (m.set id { m.regions id with
      constructed := true, needRemap := false, referenceCounts := 0 }) := set_evolves rfl
    have hsame : update o.conf.ceilingMsgSize = o.conf := by
      rw [hconf,update_ceiling]
    rw [hsame]
    exact ⟨⟨⟨h.conf,closed here.1⟩,here.1,here.2.mono he⟩,set_wf rfl hw,he⟩
  | found _ id hp hk =>
    rw [hp] at here
    exact ⟨h.goto ⟨here,hw.key id hk⟩,hw,.refl m⟩
  | attach _ _ hp =>
    rw [hp] at here
    refine ⟨⟨⟨h.conf,closed here.1⟩,here.1,fun _ hj => ?_⟩,hw,.refl m⟩
    cases hj
    exact here.2
  | readCeiling _ id hp hmap =>
    obtain ⟨hid,hsame⟩ := update_read h hw hp hmap hs
    rw [hp] at here
    exact ⟨⟨⟨⟨_,rfl⟩,closed here.1⟩,here.1,id,hid,hmap,hsame.symm⟩,hw,.refl m⟩
  | count _ id hp =>
    rw [hp] at here
    have he : m.Evolves (m.set id { m.regions id with
      referenceCounts := (m.regions id).referenceCounts+1 }) := set_evolves rfl
    exact ⟨Object.Ready.opened ⟨h.conf,fun _ => here.2.mono he⟩ fun _ => rfl,set_wf rfl hw,he⟩
  | markRemap _ _ hp =>
    rw [hp] at here
    exact ⟨⟨⟨h.conf,closed here⟩,here⟩,set_wf rfl hw,set_evolves rfl⟩
  | remove _ q _ hc hq hnew hcon he hwn =>
    have hi := here.closed (.inl hc)
    refine ⟨(h.toReady.mono he).goto ?_,hwn hw,he⟩
    match q, hq with
    | .create _ _, _ | .removeGet (.create _ _), _ | .removeCtl (.create _ _) _, _ => exact hi
    | .attachNew _ id, hq => cases hq; exact absurd rfl (hnew id)
    | .construct _, hq => cases hq; exact absurd rfl hcon
  | retry _ _ hp =>
    rw [hp] at here
    exact ⟨⟨⟨h.conf,closed here⟩,here⟩,hw,.refl m⟩
  | failed _ _ _ he hwn =>
    exact ⟨(h.toReady.mono he).opened nofun,hwn hw,he⟩

end Ok

section Runs
variable {ι : Type} {s t : State ι} {e : Event ι}

def Event.object : Event ι → ι
  | .acquire i _ | .destroy i | .proceed i | .fail i _ | .lock i _ | .busy i => i

def Settled (s : State ι) (e : Event ι) : Prop := (s.objects e.object).settled s.memory = true

structure Grant.Ok (m : Memory) (g : Grant ι) : Prop where
  conf : ∃ size, g.conf = update size
  shmid : g.shmid < m.next
  mapped : (m.regions g.shmid).conf = g.conf

structure Inv (s : State ι) : Prop where
  memory : s.memory.Wf
  objects : ∀ i, (s.objects i).Ok s.memory
  granted : ∀ g ∈ s.granted, g.Ok s.memory

variable [DecidableEq ι]

theorem step_moves (h : s.step e = some t) :
    (∃ n p, Moves s.memory (s.objects e.object) n p ∧ t = s.set n e.object p) ∨
    ∃ c index id, (s.objects e.object).pc = .lock c ∧ (s.objects e.object).mapped = some id ∧
      (∀ k, c = .read k → index = k) ∧
      (∀ k, c = .write k → ∃ tryIdx, index = Block.reduce (s.objects e.object).conf.blockNum tryIdx) ∧
      t = { s.set s.memory e.object ((s.objects e.object).goto .idle) with
        granted := ⟨e.object,c,index,id,(s.objects e.object).conf⟩::s.granted } := by
  cases e with
  | acquire =>
    obtain ⟨p,hp,rfl⟩ := map_eq_some_iff.mp h
    exact .inl ⟨_,p,acquire_moves hp,rfl⟩
  | destroy =>
    obtain ⟨p,hp,rfl⟩ := map_eq_some_iff.mp h
    exact .inl ⟨_,p,destroy_moves hp,rfl⟩
  | proceed =>
    obtain ⟨⟨n,p⟩,hp,rfl⟩ := map_eq_some_iff.mp h
    exact .inl ⟨n,p,proceed_moves hp,rfl⟩
  | fail =>
    obtain ⟨⟨n,p⟩,hp,rfl⟩ := map_eq_some_iff.mp h
    exact .inl ⟨n,p,fail_moves hp,rfl⟩
  | busy =>
    obtain ⟨p,hp,rfl⟩ := map_eq_some_iff.mp h
    exact .inl ⟨_,p,busy_moves hp,rfl⟩
  | lock _ tryIdx =>
    obtain ⟨⟨c,index,id⟩,hp,rfl⟩ := map_eq_some_iff.mp h
    refine .inr ⟨c,index,id,?_⟩
    rw [lock] at hp
    split at hp <;> cases hp
    · next k id hpc hm => exact ⟨hpc,hm,fun _ hk => by cases hk; rfl,nofun,rfl⟩
    · next k id hpc hm => exact ⟨hpc,hm,nofun,fun _ _ => ⟨tryIdx,rfl⟩,rfl⟩

theorem step_inv (h : Inv s) (hs : s.step e = some t) (hset : Settled s e) : Inv t := by
  have ho := h.objects e.object
  rcases step_moves hs with ⟨n,p,hm,rfl⟩ | ⟨c,_,_,hp,hmap,_,_,rfl⟩
  · obtain ⟨hok,hw,he⟩ := moves_ok ho h.memory hm hset
    refine ⟨hw,?_,fun g hg => ?_⟩
    · refine (forall_update_iff s.objects (p := fun _ o => o.Ok n)).mpr ⟨hok,?_⟩
      exact fun j _ => (h.objects j).mono he
    · have := h.granted g hg
      exact ⟨this.conf,lt_of_lt_of_le this.shmid he.next,(he.conf _ this.shmid).trans this.mapped⟩
  · refine ⟨h.memory,?_,fun g hg => ?_⟩
    · refine (forall_update_iff s.objects (p := fun _ o => o.Ok s.memory)).mpr ⟨ho.goto trivial,?_⟩
      exact fun j _ => h.objects j
    · rcases List.mem_cons.mp hg with rfl | hg
      · have here := ho.here
        rw [hp] at here
        obtain ⟨_,hlt,hm',hc⟩ := ho.init here
        cases hmap.symm.trans hm'
        exact ⟨ho.conf,hlt,hc⟩
      · exact h.granted g hg

theorem settled_inv (h : (system ι).ReachableWhile Settled s) : Inv s := by
  apply h.invariant
  · rintro _ ⟨_,rfl⟩
    exact ⟨⟨nofun,nofun⟩,fun _ => ⟨⟨⟨_,rfl⟩,nofun⟩,trivial⟩,nofun⟩
  · exact fun _ _ _ hs hok he => step_inv hs he hok

end Runs

open List System Pc
/-- The next access does not remap a read to a segment without the block it wants. -/
def Object.keepsIndex (m : Memory) (o : Object) : Bool :=
  match o.pc, o.mapped with
  | .readCeiling (.remap (.read index)), some id => decide (index < (m.regions id).conf.blockNum)
  | _, _ => true

/-- The next access does not open a smaller segment than the one a write is to recreate. -/
def Object.keepsSize (m : Memory) (o : Object) : Bool :=
  match o.pc, o.mapped with
  | .readCeiling (.recreate msgSize), some id =>
      decide (msgSize ≤ (m.regions id).conf.ceilingMsgSize)
  | _, _ => true

/-- Where the index of a read has been compared with the current configuration. -/
def Pc.InRange (conf : ShmConf) : Pc → Prop
  | .needRemap (.read index) | .lock (.read index) | .count (.remap (.read index)) =>
      index < conf.blockNum
  | p => ∀ c, p.creates ≠ some (.remap c)

/-- The configuration is for messages of this size, if there is any. -/
def Covers (msgSize : Nat) (conf : ShmConf) : Prop := msgSize ≤ messageSizeMore → msgSize ≤ conf.ceilingMsgSize

/-- Where the current configuration is the one of the message to write. -/
def Pc.Fits (conf : ShmConf) : Pc → Prop
  | .lock (.write msgSize) | .count (.recreate msgSize) | .markRemap msgSize => Covers msgSize conf
  | p => ∀ msgSize, p.creates = some (.recreate msgSize) → Covers msgSize conf

section Moves
variable {m n : Memory} {o p : Object}
variable {r : Return} {b : Bool} {q : Pc} {conf : ShmConf}

theorem Pc.creates_inRange (hq : q.creates = some r) : q.InRange conf ↔ ∀ c, r ≠ .remap c := by
  match q, hq with
  | .create _ _, rfl | .attachNew _ _, rfl | .construct _, rfl | .removeGet (.create _ _), rfl
  | .removeCtl (.create _ _) _, rfl => simp [Pc.InRange,creates]

theorem Pc.creates_fits (hq : q.creates = some r) :
    q.Fits conf ↔ ∀ msgSize, r = .recreate msgSize → Covers msgSize conf := by
  match q, hq with
  | .create _ _, rfl | .attachNew _ _, rfl | .construct _, rfl | .removeGet (.create _ _), rfl
  | .removeCtl (.create _ _) _, rfl => simp [Pc.Fits,creates]

theorem afterInit_inRange (c : Acquire) (b : Bool) : (o.afterInit c b).pc.InRange (o.afterInit c b).conf := by
  unfold afterInit
  split
  · split
    · split
      · exact nofun
      · next h => exact Nat.lt_of_not_le h
    · exact nofun
  · exact nofun

theorem afterRemap_inRange {c : Acquire} (h : ∀ index, c = .read index → b = true → index < o.conf.blockNum) :
    (o.afterRemap c b).pc.InRange (o.afterRemap c b).conf := by
  unfold afterRemap
  split
  · split
    · next hb => exact h _ rfl hb
    · exact nofun
  · split
    · exact nofun
    · split <;> exact nofun

theorem opened_inRange (h : ∀ index, r = .remap (.read index) → b = true → index < o.conf.blockNum) :
    (o.opened r b).pc.InRange (o.opened r b).conf := by
  cases r with
  | init c => exact afterInit_inRange c b
  | remap => exact afterRemap_inRange fun index hc => h index (by rw [hc])
  | recreate =>
    rw [opened]
    split <;> (intro c hc; cases hc)

theorem moves_inRange (h : o.pc.InRange o.conf) (hw : m.Wf) (hok : o.Ok m) (hm : Moves m o n p)
    (hs : o.settled m = true) (hk : o.keepsIndex m = true) : p.pc.InRange p.conf := by
  cases hm with
  | quiet _ q _ hq =>
    match q, hq with
    | .idle, _ | .discount, _ | .checkCount, _ | .gone, _ | .removeGet .destroy, _
    | .removeCtl .destroy _, _ => exact nofun
  | acquired c => exact afterInit_inRange c true
  | opening _ _ _ hq => rcases hq with rfl | rfl <;> exact nofun
  | current _ hp =>
    rw [hp] at h
    refine afterRemap_inRange fun index hc _ => ?_
    rw [hc] at h
    exact h
  | remap | inUse => exact nofun
  | create _ hc => exact (creates_inRange rfl).mpr ((creates_inRange hc).mp h)
  | attachNew _ _ hp =>
    rw [hp] at h
    exact h
  | construct r _ hp =>
    rw [hp,creates_inRange rfl] at h
    match r with
    | .init _ | .recreate _ | .remap (.write _) => exact nofun
    | .remap (.read _) => exact absurd rfl (h _)
  | found | attach => exact nofun
  | readCeiling r _ hp hmap =>
    have hsame := (update_read hok hw hp hmap hs).2
    match r with
    | .init _ | .recreate _ | .remap (.write _) => exact nofun
    | .remap (.read index) =>
      rw [keepsIndex,hp,hmap,decide_eq_true_eq] at hk
      rwa [hsame]
  | count _ _ hp =>
    refine opened_inRange fun index hr _ => ?_
    rw [hp,hr] at h
    exact h
  | markRemap => exact nofun
  | remove _ _ _ hc hq => exact (creates_inRange hq).mpr ((creates_inRange hc).mp h)
  | retry _ _ hp =>
    rw [hp] at h
    exact h
  | failed => exact opened_inRange nofun

theorem afterInit_fits (c : Acquire) (b : Bool) : (o.afterInit c b).pc.Fits (o.afterInit c b).conf := by
  unfold afterInit
  split
  · split
    · split <;> exact nofun
    · exact nofun
  · exact nofun

theorem afterRemap_fits (c : Acquire) (b : Bool) : (o.afterRemap c b).pc.Fits (o.afterRemap c b).conf := by
  unfold afterRemap
  split
  · split <;> exact nofun
  · split
    · exact le_ceiling
    · next h =>
      split
      · exact fun _ => Nat.le_of_not_lt h
      · exact nofun

theorem opened_fits (h : ∀ msgSize, r = .recreate msgSize → b = true → Covers msgSize o.conf) :
    (o.opened r b).pc.Fits (o.opened r b).conf := by
  cases r with
  | init c => exact afterInit_fits c b
  | remap c => exact afterRemap_fits c b
  | recreate msgSize =>
    rw [opened]
    split
    · next hb => exact h msgSize rfl hb
    · intro _ hk
      cases hk

theorem moves_fits (h : o.pc.Fits o.conf) (hw : m.Wf) (hok : o.Ok m) (hm : Moves m o n p)
    (hs : o.settled m = true) (hk : o.keepsSize m = true) : p.pc.Fits p.conf := by
  cases hm with
  | quiet _ q _ hq =>
    match q, hq with
    | .idle, _ | .discount, _ | .checkCount, _ | .gone, _ | .removeGet .destroy, _
    | .removeCtl .destroy _, _ => exact nofun
  | acquired c => exact afterInit_fits c true
  | opening _ _ _ hq => rcases hq with rfl | rfl <;> exact nofun
  | current c => exact afterRemap_fits c true
  | remap | inUse | found | attach => exact nofun
  | create _ hc => exact (creates_fits rfl).mpr ((creates_fits hc).mp h)
  | attachNew _ _ hp =>
    rw [hp] at h
    exact h
  | construct r _ hp =>
    obtain ⟨_,hconf⟩ := hok.conf
    rw [hp,creates_fits rfl] at h
    have hsame : update o.conf.ceilingMsgSize = o.conf := by
      rw [hconf,update_ceiling]
    rw [hsame]
    match r with
    | .init _ | .remap _ => exact nofun
    | .recreate msgSize => exact h msgSize rfl
  | readCeiling r _ hp hmap =>
    have hsame := (update_read hok hw hp hmap hs).2
    rw [hsame]
    match r with
    | .init _ | .remap _ => exact nofun
    | .recreate msgSize =>
      rw [keepsSize,hp,hmap,decide_eq_true_eq] at hk
      exact fun _ => hk
  | count _ _ hp =>
    refine opened_fits fun msgSize hr _ => ?_
    rw [hp,hr] at h
    exact h
  | markRemap _ _ hp =>
    rw [hp] at h
    exact (creates_fits rfl).mpr fun k hk => by cases hk; exact h
  | remove _ _ _ hc hq => exact (creates_fits hq).mpr ((creates_fits hc).mp h)
  | retry _ _ hp =>
    rw [hp] at h
    exact h
  | failed => exact opened_fits nofun

end Moves

/-- `MessageInfo::kSize`, the bytes that `Transmit` appends to the message. -/
def messageInfoKSize : Nat := 2*8+8

section Runs
variable {ι : Type} {s t : State ι} {e : Event ι}

def IndexKept (s : State ι) (e : Event ι) : Prop := Settled s e ∧ (s.objects e.object).keepsIndex s.memory = true

def SizeKept (s : State ι) (e : Event ι) : Prop := Settled s e ∧ (s.objects e.object).keepsSize s.memory = true

instance (s : State ι) (e : Event ι) : Decidable (IndexKept s e) := inferInstanceAs (Decidable (_ = true ∧ _ = true))

instance (s : State ι) (e : Event ι) : Decidable (SizeKept s e) := inferInstanceAs (Decidable (_ = true ∧ _ = true))

variable [DecidableEq ι]

theorem step_grants {P : Object → Prop} {R : Acquire → Nat → ShmConf → Prop}
    (ho : ∀ i, P (s.objects i)) (hg : ∀ g ∈ s.granted, R g.call g.index g.conf)
    (hs : s.step e = some t)
    (move : ∀ n p, Moves s.memory (s.objects e.object) n p → P p)
    (done : P ((s.objects e.object).goto .idle))
    (grant : ∀ c index, (s.objects e.object).pc = .lock c → (∀ k, c = .read k → index = k) →
      (∀ k, c = .write k → ∃ tryIdx, index = Block.reduce (s.objects e.object).conf.blockNum tryIdx) →
      R c index (s.objects e.object).conf) :
    (∀ i, P (t.objects i)) ∧ ∀ g ∈ t.granted, R g.call g.index g.conf := by
  rcases step_moves hs with ⟨n,p,hm,rfl⟩ | ⟨c,index,_,hp,_,hread,hwrite,rfl⟩
  · refine ⟨(Function.forall_update_iff s.objects (p := fun _ o => P o)).mpr ⟨move n p hm,?_⟩,hg⟩
    exact fun j _ => ho j
  · refine ⟨(Function.forall_update_iff s.objects (p := fun _ o => P o)).mpr ⟨done,?_⟩,?_⟩
    · exact fun j _ => ho j
    · intro g hmem
      rcases mem_cons.mp hmem with rfl | hmem
      · exact grant c index hp hread hwrite
      · exact hg g hmem

theorem indexKept_inRange (h : (system ι).ReachableWhile IndexKept s) :
    Inv s ∧ (∀ i, (s.objects i).pc.InRange (s.objects i).conf) ∧
    ∀ g ∈ s.granted, ∀ index, g.call = .read index → g.index = index ∧ index < g.conf.blockNum := by
  apply h.invariant
  · rintro _ ⟨mode,rfl⟩
    exact ⟨settled_inv (.start ⟨mode,rfl⟩),fun i => nofun,nofun⟩
  · rintro s e t ⟨hi,ho,hg⟩ hk hs
    refine ⟨step_inv hi hs hk.1,step_grants (P := fun o => o.pc.InRange o.conf)
      (R := fun c i conf => ∀ k, c = .read k → i = k ∧ k < conf.blockNum) ho hg hs ?_ nofun ?_⟩
    · exact fun n p hm => moves_inRange (ho _) hi.memory (hi.objects _) hm hk.1 hk.2
    · intro _ _ hp hread _ k hc
      have here := ho e.object
      rw [hp,hc] at here
      exact ⟨hread k hc,here⟩

theorem sizeKept_fits (h : (system ι).ReachableWhile SizeKept s) :
    Inv s ∧ (∀ i, (s.objects i).pc.Fits (s.objects i).conf) ∧
    ∀ g ∈ s.granted, ∀ msgSize, g.call = .write msgSize → g.index < g.conf.blockNum ∧ Covers msgSize g.conf := by
  apply h.invariant
  · rintro _ ⟨mode,rfl⟩
    exact ⟨settled_inv (.start ⟨mode,rfl⟩),fun i => nofun,nofun⟩
  · rintro s e t ⟨hi,ho,hg⟩ hk hs
    refine ⟨step_inv hi hs hk.1,step_grants (P := fun o => o.pc.Fits o.conf)
      (R := fun c i conf => ∀ k, c = .write k → i < conf.blockNum ∧ Covers k conf) ho hg hs ?_ nofun ?_⟩
    · exact fun n p hm => moves_fits (ho _) hi.memory (hi.objects _) hm hk.1 hk.2
    · intro _ _ hp _ hwrite k hc
      have here := ho e.object
      rw [hp,hc] at here
      obtain ⟨size,hconf⟩ := (hi.objects e.object).conf
      obtain ⟨tryIdx,rfl⟩ := hwrite k hc
      refine ⟨?_,here⟩
      rw [hconf]
      exact Block.reduce_lt size tryIdx

/-- A read that returns true has its block in the segment that is mapped then. -/
theorem read_block_mapped (h : (system ι).ReachableWhile IndexKept s) :
    ∀ g ∈ s.granted, ∀ index, g.call = .read index → g.index = index ∧ g.conf = (s.memory.regions g.shmid).conf ∧
      index < (s.memory.regions g.shmid).conf.blockNum := by
  obtain ⟨hi,_,hread⟩ := indexKept_inRange h
  intro g hg index hcall
  obtain ⟨hindex,hlt⟩ := hread g hg index hcall
  have hconf := (hi.granted g hg).mapped
  exact ⟨hindex,hconf.symm,hconf ▸ hlt⟩

/-- The buffer of a write that returns true holds the message and the area of its info exactly
if the table has a ceiling for the message. -/
theorem write_capacity (h : (system ι).ReachableWhile SizeKept s) :
    ∀ g ∈ s.granted, ∀ msgSize, g.call = .write msgSize → g.conf = (s.memory.regions g.shmid).conf ∧
      g.index < (s.memory.regions g.shmid).conf.blockNum ∧
      (msgSize+messageInfoSize ≤ (s.memory.regions g.shmid).conf.blockBufSize ↔ msgSize ≤ messageSizeMore) ∧
      (msgSize ≤ messageSizeMore → msgSize+messageInfoKSize ≤ (s.memory.regions g.shmid).conf.blockBufSize) := by
  obtain ⟨hi,_,hwrite⟩ := sizeKept_fits h
  intro g hg msgSize hcall
  obtain ⟨hindex,hcov⟩ := hwrite g hg msgSize hcall
  have hok := hi.granted g hg
  obtain ⟨size,hconf⟩ := hok.conf
  have hle := update_row (P := fun c _ => c ≤ messageSizeMore) (by decide) size
  have hbuf : g.conf.blockBufSize = g.conf.ceilingMsgSize+messageInfoSize := by
    rw [hconf]
    rfl
  have hinfo : messageInfoKSize ≤ messageInfoSize := by decide
  unfold Covers at hcov
  rw [← hconf] at hle
  rw [hok.mapped,hbuf]
  refine ⟨rfl,hindex,⟨?_,?_⟩,?_⟩ <;> omega

def modes : Bool → ReadWriteMode
  | true => .writeOnly
  | false => .readOnly

def openBoth : List (Event Bool) :=
  [.acquire true (.write 100),.proceed true,.proceed true,.proceed true,.proceed true,
   .proceed true,.lock true 300,.acquire false (.read 5),.proceed false,.proceed false,
   .proceed false,.proceed false,.proceed false,.lock false 0]

def grow (msgSize : Nat) : List (Event Bool) :=
  [.acquire true (.write msgSize),.proceed true,.proceed true,.proceed true,.proceed true,
   .proceed true,.proceed true,.proceed true,.proceed true,.lock true 0]

theorem read_block_mapped_small : ∃ s : State Bool, ∃ g ∈ s.granted, g.call = .read 5 ∧
    5 < (s.memory.regions g.shmid).conf.blockNum := by
  obtain ⟨s,hs,hp⟩ := reachableWhile_of_exec (system Bool) IndexKept openBoth
    (fun s => s.granted.any fun g => g.call == .read 5) ⟨modes,rfl⟩ (by decide +kernel)
  obtain ⟨g,hg,hcall⟩ := any_eq_true.mp hp
  have hcall := beq_iff_eq.mp hcall
  exact ⟨s,g,hg,hcall,(read_block_mapped hs g hg 5 hcall).2.2⟩

/-- A read of block 300 that is remapped to a segment of 128 blocks returns true. -/
theorem read_block_missing : ∃ s : State Bool, (system Bool).Reachable s ∧ ∃ g ∈ s.granted,
    ∃ index, g.call = .read index ∧ (s.memory.regions g.shmid).conf.blockNum ≤ index := by
  obtain ⟨s,hs,hp⟩ := reachable_of_exec (system Bool)
    (openBoth ++ grow 100000 ++ [Event.acquire false (.read 300)] ++
      List.replicate 5 (Event.proceed false) ++ [Event.lock false 0])
    (fun s => s.granted.any fun g => g.call == .read 300 &&
      decide ((s.memory.regions g.shmid).conf.blockNum ≤ 300)) ⟨modes,rfl⟩ (by decide +kernel)
  obtain ⟨g,hg,hcall⟩ := any_eq_true.mp hp
  rw [Bool.and_eq_true,beq_iff_eq,decide_eq_true_eq] at hcall
  exact ⟨s,hs,g,hg,300,hcall.1,hcall.2⟩

theorem write_capacity_grown : ∃ s : State Bool, ∃ g ∈ s.granted, g.call = .write 100000 ∧
    100000+messageInfoKSize ≤ (s.memory.regions g.shmid).conf.blockBufSize := by
  obtain ⟨s,hs,hp⟩ := reachableWhile_of_exec (system Bool) SizeKept
    (openBoth ++ grow 100000) (fun s => s.granted.any fun g => g.call == .write 100000)
    ⟨modes,rfl⟩ (by decide +kernel)
  obtain ⟨g,hg,hcall⟩ := any_eq_true.mp hp
  have hcall := beq_iff_eq.mp hcall
  exact ⟨s,g,hg,hcall,(write_capacity hs g hg _ hcall).2.2.2 (by decide)⟩

/-- A message of 64 MiB gets a buffer of 32 MiB and the area of its info. -/
theorem write_overflow : ∃ s : State Bool, (system Bool).Reachable s ∧ ∃ g ∈ s.granted,
    ∃ msgSize, g.call = .write msgSize ∧ (s.memory.regions g.shmid).conf.blockBufSize < msgSize := by
  obtain ⟨s,hs,hp⟩ := reachable_of_exec (system Bool) (openBoth ++ grow 67108864)
    (fun s => s.granted.any fun g => g.call == .write 67108864 &&
      decide ((s.memory.regions g.shmid).conf.blockBufSize < 67108864)) ⟨modes,rfl⟩
    (by decide +kernel)
  obtain ⟨g,hg,hcall⟩ := any_eq_true.mp hp
  rw [Bool.and_eq_true,beq_iff_eq,decide_eq_true_eq] at hcall
  exact ⟨s,hs,g,hg,67108864,hcall.1,hcall.2⟩

end Runs

end Apollo.Cyber.Transport.Shm.Segment
