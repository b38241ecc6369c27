import Apollo.Foundation.Transition

/-! `ConditionNotifier`: a ring of `kBufLength` slots in shared memory. A `Notify` draws a sequence number, writes the
info and then the number into its slot; a `Listen` polls the slot of its own next number. Every such access is one
event. The notifiers are not shut down and the sequence numbers do not wrap. The zero-initialised number of slot 0 may
be taken for the first notification. -/
namespace Apollo.Cyber.Transport.Shm.ConditionNotifier
open Foundation Function

def bufLength : Nat := 4096

structure ReadableInfo where
  hostId : Nat
  blockIndex : Nat
  channelId : Nat
  deriving DecidableEq

def ReadableInfo.zero : ReadableInfo := ⟨0,0,0⟩

/-- Where a notifier stands after drawing `seq`. -/
inductive NotifyPc
  | idle
  | writeInfo (seq : Nat) (info : ReadableInfo)
  | writeSeq (seq : Nat)

/-- The sequence number of the running `Notify`. -/
def NotifyPc.seq : NotifyPc → Option Nat
  | .idle => none
  | .writeInfo n _ | .writeSeq n => some n

/-- `detached` before the constructor has loaded `next_seq`; `compare` after a poll that saw
another number than the listener's own; `copy` after the slot's number matched. -/
inductive ListenPc
  | detached
  | idle
  | compare
  | copy
  deriving DecidableEq

structure Listener where
  pc : ListenPc
  nextSeq : Nat
  deriving DecidableEq

/-- `drawn` are the infos of the `Notify` calls in the order of their numbers, `obtained` the
listener, number and info of every successful `Listen`, the newest one first. -/
structure State (ι κ : Type) where
  nextSeq : Nat
  infos : Nat → ReadableInfo
  seqs : Nat → Nat
  notifier : ι → NotifyPc
  listener : κ → Listener
  drawn : List ReadableInfo
  obtained : List (κ × Nat × ReadableInfo)

/-- `notify` draws the number and `write` is the next store of the call; `attach` is the
load of the constructor, `listen` the load of a poll and `read` its next access. A poll that
fails ends the call or is repeated, which is another `listen`. -/
inductive Event (ι κ : Type)
  | notify (i : ι) (info : ReadableInfo)
  | write (i : ι)
  | attach (k : κ)
  | listen (k : κ)
  | read (k : κ)

variable {ι κ : Type}

def init : State ι κ where
  nextSeq := 0
  infos _ := .zero
  seqs _ := 0
  notifier _ := .idle
  listener _ := ⟨.detached,0⟩
  drawn := []
  obtained := []

variable [DecidableEq ι] [DecidableEq κ]
namespace State

def setNotifier (s : State ι κ) (i : ι) (p : NotifyPc) : State ι κ :=
  { s with notifier := update s.notifier i p }

def setListener (s : State ι κ) (k : κ) (l : Listener) : State ι κ :=
  { s with listener := update s.listener k l }

def notify (s : State ι κ) (i : ι) (info : ReadableInfo) : Option (State ι κ) :=
  match s.notifier i with
  | .idle => some ({ s with nextSeq := s.nextSeq+1, drawn := s.drawn ++ [info] }.setNotifier i
      (.writeInfo s.nextSeq info))
  | _ => none

def write (s : State ι κ) (i : ι) : Option (State ι κ) :=
  match s.notifier i with
  | .idle => none
  | .writeInfo n info =>
      some ({ s with infos := update s.infos (n%bufLength) info }.setNotifier i (.writeSeq n))
  | .writeSeq n =>
      some ({ s with seqs := update s.seqs (n%bufLength) n }.setNotifier i .idle)

def attach (s : State ι κ) (k : κ) : Option (State ι κ) :=
  match s.listener k with
  | ⟨.detached,_⟩ => some (s.setListener k ⟨.idle,s.nextSeq⟩)
  | _ => none

def listen (s : State ι κ) (k : κ) : Option (State ι κ) :=
  match s.listener k with
  | ⟨.idle,n⟩ =>
      if s.nextSeq ≠ n then some (s.setListener k ⟨.compare,n⟩) else some (s.setListener k ⟨.idle,n⟩)
  | _ => none

def read (s : State ι κ) (k : κ) : Option (State ι κ) :=
  match s.listener k with
  | ⟨.compare,n⟩ =>
      if s.seqs (n%bufLength) = n then some (s.setListener k ⟨.copy,n⟩)
      else some (s.setListener k ⟨.idle,n⟩)
  | ⟨.copy,n⟩ =>
      some ({ s with obtained := (k, n, s.infos (n%bufLength))::s.obtained }.setListener k ⟨.idle,n+1⟩)
  | _ => none

def step (s : State ι κ) : Event ι κ → Option (State ι κ)
  | .notify i info => s.notify i info
  | .write i => s.write i
  | .attach k => s.attach k
  | .listen k => s.listen k
  | .read k => s.read k

end State

def system (ι κ : Type) [DecidableEq ι] [DecidableEq κ] : System (State ι κ) (Event ι κ) where
  initial s := s = init
  step := State.step

inductive Moves (s : State ι κ) : Event ι κ → State ι κ → Prop
  | draw (i : ι) (info : ReadableInfo) : s.notifier i = .idle → Moves s (.notify i info)
      ({ s with nextSeq := s.nextSeq+1, drawn := s.drawn ++ [info] }.setNotifier i (.writeInfo s.nextSeq info))
  | writeInfo (i : ι) (n : Nat) (info : ReadableInfo) : s.notifier i = .writeInfo n info →
      Moves s (.write i) ({ s with infos := update s.infos (n%bufLength) info }.setNotifier i (.writeSeq n))
  | writeSeq (i : ι) (n : Nat) : s.notifier i = .writeSeq n → Moves s (.write i)
      ({ s with seqs := update s.seqs (n%bufLength) n }.setNotifier i .idle)
  | attach (k : κ) : (s.listener k).pc = .detached → Moves s (.attach k) (s.setListener k ⟨.idle,s.nextSeq⟩)
  | poll (k : κ) (n : Nat) (e : Event ι κ) : (s.listener k).pc ≠ .detached →
      (s.listener k).nextSeq = n → Moves s e (s.setListener k ⟨.idle,n⟩)
  | compare (k : κ) (n : Nat) : s.listener k = ⟨.idle,n⟩ → s.nextSeq ≠ n →
      Moves s (.listen k) (s.setListener k ⟨.compare,n⟩)
  | matched (k : κ) (n : Nat) : s.listener k = ⟨.compare,n⟩ → s.seqs (n%bufLength) = n →
      Moves s (.read k) (s.setListener k ⟨.copy,n⟩)
  | copy (k : κ) (n : Nat) : s.listener k = ⟨.copy,n⟩ → Moves s (.read k)
      ({ s with obtained := (k, n, s.infos (n%bufLength))::s.obtained }.setListener k ⟨.idle,n+1⟩)

theorem step_moves {s t : State ι κ} {e : Event ι κ} (h : s.step e = some t) : Moves s e t := by
  cases e with
  | notify i info =>
    rw [State.step,State.notify] at h
    split at h
    case h_1 hp => cases h; exact .draw i info hp
    case h_2 => cases h
  | write i =>
    rw [State.step,State.write] at h
    split at h
    case h_1 => cases h
    case h_2 n info hp => cases h; exact .writeInfo i n info hp
    case h_3 n hp => cases h; exact .writeSeq i n hp
  | attach k =>
    rw [State.step,State.attach] at h
    split at h
    case h_1 hp => cases h; exact .attach k (by rw [hp])
    case h_2 => cases h
  | listen k =>
    rw [State.step,State.listen] at h
    split at h
    case h_1 n hp =>
      split at h
      · next hne => cases h; exact .compare k n hp hne
      · cases h; exact .poll k n _ (by rw [hp]; nofun) (by rw [hp])
    case h_2 => cases h
  | read k =>
    rw [State.step,State.read] at h
    split at h
    case h_1 n hp =>
      split at h
      · next he => cases h; exact .matched k n hp he
      · cases h; exact .poll k n _ (by rw [hp]; nofun) (by rw [hp])
    case h_2 n hp => cases h; exact .copy k n hp
    case h_3 => cases h

variable {ι κ : Type} {s t : State ι κ}

/-- The `Notify` that drew `n` has not returned. -/
def InProgress (s : State ι κ) (n : Nat) : Prop := ∃ i, (s.notifier i).seq = some n

theorem not_inProgress (hq : ∀ i, s.notifier i = .idle) (n : Nat) : ¬ InProgress s n := by
  rintro ⟨i,hn⟩
  rw [hq i] at hn
  cases hn

variable {i j : ι} {n m : Nat} {p q : NotifyPc} {f : ι → NotifyPc} {info a : ReadableInfo}

theorem drawn_concat {l : List ReadableInfo} (b : ReadableInfo) (h : l[n]? = some a) : (l ++ [b])[n]? = some a := by
  rw [List.getElem?_append_left (List.getElem?_eq_some_iff.mp h).1,h]

/-- No number is drawn for a slot that a running `Notify` still writes. -/
def NoOverlap (s : State ι κ) : Event ι κ → Prop
  | .notify _ _ => ∀ n, InProgress s n → n%bufLength ≠ s.nextSeq%bufLength
  | _ => True

structure Inv (s : State ι κ) : Prop where
  drawn : s.drawn.length = s.nextSeq
  newest : ∀ n, InProgress s n → n < s.nextSeq ∧ ∀ m < s.nextSeq, m%bufLength = n%bufLength → m ≤ n
  single : ∀ i j n, (s.notifier i).seq = some n → (s.notifier j).seq = some n → i = j
  given : ∀ i n info, s.notifier i = .writeInfo n info → s.drawn[n]? = some info
  written : ∀ i n, s.notifier i = .writeSeq n → s.drawn[n]? = some (s.infos (n%bufLength))
  latest : ∀ m < s.nextSeq, ¬ InProgress s m → m ≤ s.seqs (m%bufLength)
  stamped : ∀ j, (s.seqs j = 0 ∧ ∀ m < s.nextSeq, m%bufLength = j → InProgress s m) ∨
    s.seqs j%bufLength = j ∧ s.seqs j < s.nextSeq ∧ ¬ InProgress s (s.seqs j)
  content : ∀ j, ¬ InProgress s (s.seqs j) → s.seqs j < s.nextSeq → s.seqs j%bufLength = j →
    (∀ i n, s.notifier i = .writeSeq n → n%bufLength ≠ j) →
    s.drawn[s.seqs j]? = some (s.infos j)

theorem init_inv : Inv (init : State ι κ) where
  drawn := rfl
  newest n h := by obtain ⟨i,h⟩ := h; cases h
  single i j n h := by cases h
  given i n info h := by cases h
  written i n h := by cases h
  latest m h := absurd h (Nat.not_lt_zero m)
  stamped j := .inl ⟨rfl,fun m h => absurd h (Nat.not_lt_zero m)⟩
  content j _ h := absurd h (Nat.not_lt_zero _)

theorem Inv.slot_inj (hi : Inv s) (hn : (s.notifier i).seq = some n) (hm : (s.notifier j).seq = some m)
    (he : n%bufLength = m%bufLength) : i = j := by
  have h₁ := (hi.newest n ⟨i,hn⟩).2 m (hi.newest m ⟨j,hm⟩).1 he.symm
  have h₂ := (hi.newest m ⟨j,hm⟩).2 n (hi.newest n ⟨i,hn⟩).1 he
  obtain rfl := Nat.le_antisymm h₂ h₁
  exact hi.single i j n hn hm

theorem Inv.listener (hi : Inv s) (f : κ → Listener) (l : List (κ × Nat × ReadableInfo)) :
    Inv { s with listener := f, obtained := l } :=
  ⟨hi.drawn,hi.newest,hi.single,hi.given,hi.written,hi.latest,hi.stamped,hi.content⟩

variable [DecidableEq ι]

theorem notifier_update (h : update f i p j = q) : j = i ∧ p = q ∨ j ≠ i ∧ f j = q := by
  rw [update_apply] at h
  split at h
  · next hj => exact .inl ⟨hj,h⟩
  · next hj => exact .inr ⟨hj,h⟩

theorem seq_update (h : (update f i p j).seq = some n) : j = i ∧ p.seq = some n ∨ j ≠ i ∧ (f j).seq = some n := by
  rcases notifier_update (q := update f i p j) rfl with ⟨hj,he⟩ | ⟨hj,he⟩
  · exact .inl ⟨hj,he ▸ h⟩
  · exact .inr ⟨hj,he ▸ h⟩

theorem inProgress_update (ht : t.notifier = update s.notifier i p) :
    InProgress t n ↔ p.seq = some n ∨ ∃ j, j ≠ i ∧ (s.notifier j).seq = some n := by
  unfold InProgress
  rw [ht]
  constructor
  · rintro ⟨j,hj⟩
    rcases seq_update hj with ⟨_,hn⟩ | ⟨hne,hn⟩
    · exact .inl hn
    · exact .inr ⟨j,hne,hn⟩
  · rintro (hn | ⟨j,hne,hn⟩)
    · exact ⟨i,by rw [update_self]; exact hn⟩
    · exact ⟨j,by rw [update_of_ne hne]; exact hn⟩

theorem Inv.draw (hi : Inv s) (hp : s.notifier i = .idle)
    (ho : ∀ n, InProgress s n → n%bufLength ≠ s.nextSeq%bufLength) :
    Inv ({ s with nextSeq := s.nextSeq+1, drawn := s.drawn ++ [info] }.setNotifier i
      (.writeInfo s.nextSeq info)) := by
  have running : ∀ n, InProgress ({ s with nextSeq := s.nextSeq+1, drawn := s.drawn ++ [info]
      }.setNotifier i (.writeInfo s.nextSeq info)) n ↔ n = s.nextSeq ∨ InProgress s n := by
    intro _
    rw [inProgress_update (s := s) rfl]
    refine or_congr ⟨fun h => (Option.some.inj h).symm,fun h => congrArg some h.symm⟩ ?_
    refine exists_congr fun j => and_iff_right_of_imp ?_
    rintro hj rfl
    rw [hp] at hj
    cases hj
  constructor
  case drawn => simp [State.setNotifier,hi.drawn]
  case newest =>
    intro n hn
    rcases (running n).mp hn with rfl | hn
    · exact ⟨Nat.lt_succ_self _,fun _ hm _ => Nat.le_of_lt_succ hm⟩
    · obtain ⟨hlt,hle⟩ := hi.newest n hn
      refine ⟨Nat.lt_succ_of_lt hlt,fun m hm he => ?_⟩
      rcases Nat.lt_succ_iff_lt_or_eq.mp hm with hm | rfl
      · exact hle m hm he
      · exact absurd he.symm (ho n hn)
  case single =>
    intro j j' n hj hj'
    have old : ∀ j, (s.notifier j).seq = some s.nextSeq → False := fun j hj =>
      Nat.lt_irrefl _ (hi.newest _ ⟨j,hj⟩).1
    rcases seq_update hj with ⟨rfl,hn⟩ | ⟨_,hn⟩ <;> rcases seq_update hj' with ⟨rfl,hn'⟩ | ⟨_,hn'⟩
    · rfl
    · cases hn
      exact absurd hn' (old j')
    · cases hn'
      exact absurd hn (old j)
    · exact hi.single j j' n hn hn'
  case given =>
    intro j n a hj
    rcases notifier_update hj with ⟨_,he⟩ | ⟨_,hj⟩
    · cases he
      rw [← hi.drawn]
      exact List.getElem?_concat_length
    · exact drawn_concat info (hi.given j n a hj)
  case written =>
    intro j n hj
    rcases notifier_update hj with ⟨_,he⟩ | ⟨_,hj⟩
    · cases he
    · exact drawn_concat info (hi.written j n hj)
  case latest =>
    intro m hm hn
    rw [running,not_or] at hn
    have hm : m < s.nextSeq+1 := hm
    exact hi.latest m (by omega) hn.2
  case stamped =>
    intro j
    rcases hi.stamped j with ⟨h0,hall⟩ | ⟨hslot,hlt,hn⟩
    · refine .inl ⟨h0,fun m hm he => (running m).mpr ?_⟩
      rcases Nat.lt_succ_iff_lt_or_eq.mp hm with hm | rfl
      · exact .inr (hall m hm he)
      · exact .inl rfl
    · refine .inr ⟨hslot,Nat.lt_succ_of_lt hlt,fun hr => ?_⟩
      rcases (running _).mp hr with he | hr
      · exact absurd he (Nat.ne_of_lt hlt)
      · exact hn hr
  case content =>
    intro j hn hlt hslot hw
    rw [running,not_or] at hn
    have hlt : s.seqs j < s.nextSeq+1 := hlt
    have hne : s.seqs j ≠ s.nextSeq := hn.1
    refine drawn_concat info (hi.content j hn.2 (by omega) hslot fun i' n hi' => ?_)
    apply hw i' n
    have : i' ≠ i := by
      rintro rfl
      rw [hp] at hi'
      cases hi'
    exact (update_of_ne this ..).trans hi'

theorem Inv.writeInfo (hi : Inv s) (hp : s.notifier i = .writeInfo n info) :
    Inv ({ s with infos := update s.infos (n%bufLength) info }.setNotifier i (.writeSeq n)) := by
  have hseq : (s.notifier i).seq = some n := by rw [hp]; rfl
  have running : ∀ m, InProgress ({ s with infos := update s.infos (n%bufLength) info
      }.setNotifier i (.writeSeq n)) m ↔ InProgress s m := by
    intro _
    rw [inProgress_update (s := s) rfl]
    constructor
    · rintro (hm | ⟨j,_,hj⟩)
      · cases hm
        exact ⟨i,hseq⟩
      · exact ⟨j,hj⟩
    · rintro ⟨j,hj⟩
      by_cases hji : j = i
      · subst hji
        exact .inl (hseq.symm.trans hj)
      · exact .inr ⟨j,hji,hj⟩
  constructor
  case drawn => exact hi.drawn
  case newest =>
    intro m hm
    exact hi.newest m ((running m).mp hm)
  case single =>
    have old : ∀ j m, (update s.notifier i (.writeSeq n) j).seq = some m → (s.notifier j).seq = some m := by
      intro _ _ hj
      rcases seq_update hj with ⟨rfl,hm⟩ | ⟨_,hm⟩
      · exact hseq.trans hm
      · exact hm
    exact fun j j' m hj hj' => hi.single j j' m (old j m hj) (old j' m hj')
  case given =>
    intro j m a hj
    rcases notifier_update hj with ⟨_,he⟩ | ⟨_,hj⟩
    · cases he
    · exact hi.given j m a hj
  case written =>
    intro j m hj
    dsimp only [State.setNotifier]
    rcases notifier_update hj with ⟨_,he⟩ | ⟨hji,hj⟩
    · cases he
      rw [update_self]
      exact hi.given i n info hp
    · have hne : m%bufLength ≠ n%bufLength := fun he =>
        hji (hi.slot_inj (by rw [hj]; rfl) hseq he)
      rw [update_of_ne hne]
      exact hi.written j m hj
  case latest =>
    intro m hm hn
    exact hi.latest m hm ((running m).not.mp hn)
  case stamped =>
    intro j
    rcases hi.stamped j with ⟨h0,hall⟩ | ⟨hslot,hlt,hn⟩
    · exact .inl ⟨h0,fun m hm he => (running m).mpr (hall m hm he)⟩
    · exact .inr ⟨hslot,hlt,(running _).not.mpr hn⟩
  case content =>
    intro j hn hlt hslot hw
    have hne := (hw i n (update_self ..)).symm
    dsimp only [State.setNotifier]
    rw [update_of_ne hne]
    refine hi.content j ((running _).not.mp hn) hlt hslot fun i' m hi' => hw i' m ?_
    have : i' ≠ i := by
      rintro rfl
      rw [hp] at hi'
      cases hi'
    exact (update_of_ne this ..).trans hi'

theorem Inv.writeSeq (hi : Inv s) (hp : s.notifier i = .writeSeq n) :
    Inv ({ s with seqs := update s.seqs (n%bufLength) n }.setNotifier i .idle) := by
  have hseq : (s.notifier i).seq = some n := by rw [hp]; rfl
  obtain ⟨hlt,hnew⟩ := hi.newest n ⟨i,hseq⟩
  have running : ∀ m, InProgress ({ s with seqs := update s.seqs (n%bufLength) n
      }.setNotifier i .idle) m ↔ InProgress s m ∧ m ≠ n := by
    intro m
    rw [inProgress_update (s := s) rfl]
    constructor
    · rintro (hm | ⟨j,hji,hj⟩)
      · cases hm
      · refine ⟨⟨j,hj⟩,?_⟩
        rintro rfl
        exact hji (hi.single j i m hj hseq)
    · rintro ⟨⟨j,hj⟩,hne⟩
      refine .inr ⟨j,?_,hj⟩
      rintro rfl
      exact hne (Option.some.inj (hj.symm.trans hseq))
  constructor
  case drawn => exact hi.drawn
  case newest =>
    intro m hm
    exact hi.newest m ((running m).mp hm).1
  case single =>
    intro j j' m hj hj'
    rcases seq_update hj with ⟨_,hm⟩ | ⟨_,hj⟩
    · cases hm
    · rcases seq_update hj' with ⟨_,hm⟩ | ⟨_,hj'⟩
      · cases hm
      · exact hi.single j j' m hj hj'
  case given =>
    intro j m a hj
    rcases notifier_update hj with ⟨_,he⟩ | ⟨_,hj⟩
    · cases he
    · exact hi.given j m a hj
  case written =>
    intro j m hj
    rcases notifier_update hj with ⟨_,he⟩ | ⟨_,hj⟩
    · cases he
    · exact hi.written j m hj
  case latest =>
    intro m hm hn
    dsimp only [State.setNotifier]
    by_cases he : m%bufLength = n%bufLength
    · rw [he,update_self]
      exact hnew m hm he
    · rw [update_of_ne he]
      refine hi.latest m hm fun hr => hn ((running m).mpr ⟨hr,?_⟩)
      rintro rfl
      exact he rfl
  case stamped =>
    intro j
    dsimp only [State.setNotifier]
    by_cases hj : j = n%bufLength
    · subst hj
      rw [update_self]
      exact .inr ⟨rfl,hlt,fun hr => ((running n).mp hr).2 rfl⟩
    · rw [update_of_ne hj]
      rcases hi.stamped j with ⟨h0,hall⟩ | ⟨hslot,hlt,hn⟩
      · refine .inl ⟨h0,fun m hm he => (running m).mpr ⟨hall m hm he,?_⟩⟩
        rintro rfl
        exact hj he.symm
      · exact .inr ⟨hslot,hlt,fun hr => hn ((running _).mp hr).1⟩
  case content =>
    intro j
    dsimp only [State.setNotifier]
    by_cases hj : j = n%bufLength
    · subst hj
      rw [update_self]
      exact fun _ _ _ _ => hi.written i n hp
    · rw [update_of_ne hj]
      intro hn hlt' hslot hw
      have hne : s.seqs j ≠ n := by
        rintro rfl
        exact hj hslot.symm
      refine hi.content j (fun hr => hn ((running _).mpr ⟨hr,hne⟩)) hlt' hslot fun i' m hi' => ?_
      by_cases hii : i' = i
      · subst hii
        rw [hp] at hi'
        cases hi'
        exact Ne.symm hj
      · exact hw i' m ((update_of_ne hii ..).trans hi')

variable [DecidableEq κ]

theorem moves_inv {e : Event ι κ} (hi : Inv s) (h : Moves s e t) (ho : NoOverlap s e) : Inv t := by
  cases h with
  | draw _ _ hp => exact hi.draw hp ho
  | writeInfo _ _ _ hp => exact hi.writeInfo hp
  | writeSeq _ _ hp => exact hi.writeSeq hp
  | attach | poll | compare | matched | copy => exact hi.listener _ _

theorem noOverlap_inv (h : (system ι κ).ReachableWhile NoOverlap s) : Inv s := by
  apply h.invariant
  · rintro _ rfl
    exact init_inv
  · exact fun _ _ _ hi ho he => moves_inv hi (step_moves he) ho

open List State
variable {ι κ : Type} {s t : State ι κ} {k : κ} {n : Nat}

theorem Inv.current (hi : Inv s) (hq : ∀ m, ¬ InProgress s m) (hn : n < s.nextSeq) :
    s.seqs (n%bufLength) = n ↔ s.nextSeq ≤ n+bufLength := by
  have hle := hi.latest n hn (hq n)
  constructor
  · intro he
    by_contra hlt
    have := hi.latest (n+bufLength) (by omega) (hq _)
    rw [Nat.add_mod_right,he] at this
    unfold bufLength at this
    omega
  · intro _
    rcases hi.stamped (n%bufLength) with ⟨_,hall⟩ | ⟨_,hlt,_⟩
    · exact absurd (hall n hn rfl) (hq n)
    · generalize s.seqs (n%bufLength) = m at *
      unfold bufLength at *
      omega

variable [DecidableEq ι] [DecidableEq κ]

/-- The next `Listen`, run without interruption, returns a notification. -/
def Returns (s : State ι κ) (k : κ) : Prop :=
  ∃ t info, (system ι κ).exec s [.listen k,.read k,.read k] = some t ∧
    t.obtained = (k, (s.listener k).nextSeq, info)::s.obtained ∧
    (t.listener k).nextSeq = (s.listener k).nextSeq+1

/-- Whatever happens from now on, the listener gets nothing more. -/
def Stuck (s : State ι κ) (k : κ) : Prop :=
  ∀ es t, (system ι κ).exec s es = some t → (t.listener k).nextSeq = (s.listener k).nextSeq ∧
    ∀ a, (k, a) ∈ t.obtained → (k, a) ∈ s.obtained

theorem returns_of_seq (hk : s.listener k = ⟨.idle,n⟩) (hne : s.nextSeq ≠ n)
    (hs : s.seqs (n%bufLength) = n) : Returns s k := by
  refine ⟨{ s with obtained := (k, n, s.infos (n%bufLength))::s.obtained }.setListener k
    ⟨.idle,n+1⟩,s.infos (n%bufLength),?_,by rw [hk]; rfl,?_⟩
  · simp [System.exec,system,State.step,State.listen,State.read,State.setListener,hk,hne,hs]
  · simp [setListener,hk]

/-- A listener waits for a number that was drawn and completed but is not in its slot. -/
structure Overtaken (s : State ι κ) (k : κ) (n : Nat) : Prop where
  drawn : n < s.nextSeq
  done : ¬ InProgress s n
  passed : s.seqs (n%bufLength) ≠ n
  polling : s.listener k = ⟨.idle,n⟩ ∨ s.listener k = ⟨.compare,n⟩

variable {l : Listener} {e : Event ι κ}

omit [DecidableEq ι] in
theorem Overtaken.setListener {j : κ} (h : Overtaken s k n) (hl : j = k → l = ⟨.idle,n⟩ ∨ l = ⟨.compare,n⟩) :
    Overtaken (s.setListener j l) k n := by
  refine ⟨h.drawn,h.done,h.passed,?_⟩
  change update s.listener j l k = _ ∨ update s.listener j l k = _
  by_cases hk : j = k
  · rw [← hk,update_self]
    exact hl hk
  · rw [update_of_ne (Ne.symm hk)]
    exact h.polling

theorem moves_overtaken (h : Overtaken s k n) (hm : Moves s e t) :
    Overtaken t k n ∧ ∀ a, (k, a) ∈ t.obtained → (k, a) ∈ s.obtained := by
  cases hm with
  | draw =>
    refine ⟨⟨Nat.lt_succ_of_lt h.drawn,fun hr => ?_,h.passed,h.polling⟩,fun _ => id⟩
    rcases (inProgress_update (s := s) rfl).mp hr with hn | ⟨j,_,hj⟩
    · exact absurd (Option.some.inj hn) (Nat.ne_of_gt h.drawn)
    · exact h.done ⟨j,hj⟩
  | writeInfo i _ _ hp =>
    refine ⟨⟨h.drawn,fun hr => ?_,h.passed,h.polling⟩,fun _ => id⟩
    rcases (inProgress_update (s := s) rfl).mp hr with hn | ⟨j,_,hj⟩
    · exact h.done ⟨i,by rw [hp]; exact hn⟩
    · exact h.done ⟨j,hj⟩
  | writeSeq i m hp =>
    have hne : m ≠ n := by
      rintro rfl
      exact h.done ⟨i,by rw [hp]; rfl⟩
    refine ⟨⟨h.drawn,fun hr => ?_,?_,h.polling⟩,fun _ => id⟩
    · rcases (inProgress_update (s := s) rfl).mp hr with hn | ⟨j,_,hj⟩
      · cases hn
      · exact h.done ⟨j,hj⟩
    · change update s.seqs (m%bufLength) m (n%bufLength) ≠ n
      rw [update_apply]
      split
      · exact hne
      · exact h.passed
  | attach _ hd =>
    refine ⟨h.setListener fun hk => ?_,fun _ => id⟩
    subst hk
    rcases h.polling with hp | hp <;> (rw [hp] at hd; cases hd)
  | poll _ _ _ _ hn =>
    refine ⟨h.setListener fun hk => .inl ?_,fun _ => id⟩
    subst hk
    rcases h.polling with hp | hp <;> (rw [hp] at hn; cases hn; rfl)
  | compare _ _ hk' =>
    refine ⟨h.setListener fun hk => .inr ?_,fun _ => id⟩
    subst hk
    rcases h.polling with hp | hp <;> cases hp.symm.trans hk'
    rfl
  | matched _ _ hk' hs =>
    refine ⟨h.setListener fun hk => ?_,fun _ => id⟩
    subst hk
    rcases h.polling with hp | hp <;> cases hp.symm.trans hk'
    exact absurd hs h.passed
  | copy k' m hk' =>
    have hk : k' ≠ k := by
      rintro rfl
      rcases h.polling with hp | hp <;> cases hp.symm.trans hk'
    have := h.setListener (j := k') (l := ⟨.idle,m+1⟩) fun he => absurd he hk
    refine ⟨⟨this.drawn,this.done,this.passed,this.polling⟩,fun _ ha => ?_⟩
    rcases mem_cons.mp ha with he | ha
    · cases he
      exact absurd rfl hk
    · exact ha

theorem Overtaken.stuck (h : Overtaken s k n) : Stuck s k := by
  intro _ t he
  have kept : Overtaken t k n ∧ ∀ a, (k, a) ∈ t.obtained → (k, a) ∈ s.obtained := by
    refine System.exec_keeps (P := fun t => Overtaken t k n ∧
      ∀ a, (k, a) ∈ t.obtained → (k, a) ∈ s.obtained) ?_ ⟨h,fun _ => id⟩ he
    rintro u e v - ⟨hu,ho⟩ hv
    obtain ⟨hv,hov⟩ := moves_overtaken hu (step_moves hv)
    exact ⟨hv,fun a ha => ho a (hov a ha)⟩
  have waits : ∀ u : State ι κ, Overtaken u k n → (u.listener k).nextSeq = n := by
    intro _ hu
    rcases hu.polling with hp | hp <;> rw [hp]
  exact ⟨(waits t kept.1).trans (waits s h).symm,kept.2⟩

/-- While nobody notifies, the next `Listen` returns exactly if the wanted number is among the last `kBufLength` ones;
a listener that was overtaken by more never gets anything again. -/
theorem listen_returns_iff {s : State ι κ} {k : κ} (h : (system ι κ).ReachableWhile NoOverlap s)
    (hq : ∀ i, s.notifier i = .idle) (hk : (s.listener k).pc = .idle)
    (hn : (s.listener k).nextSeq < s.nextSeq) :
    (Returns s k ↔ s.nextSeq ≤ (s.listener k).nextSeq+bufLength) ∧
    ((s.listener k).nextSeq+bufLength < s.nextSeq → Stuck s k) := by
  have hi := noOverlap_inv h
  have quiet := not_inProgress hq
  cases hl : s.listener k with
  | mk p n =>
    rw [hl] at hk hn
    obtain rfl : p = .idle := hk
    have hcur := hi.current quiet hn
    have stuck : n+bufLength < s.nextSeq → Stuck s k := by
      intro hlt
      refine Overtaken.stuck (n := n) ⟨hn,quiet n,fun he => ?_,.inl hl⟩
      exact absurd (hcur.mp he) (Nat.not_le_of_lt hlt)
    refine ⟨⟨?_,fun hle => returns_of_seq hl (Nat.ne_of_gt hn) (hcur.mpr hle)⟩,stuck⟩
    rintro ⟨t,_,he,_,_⟩
    by_contra hlt
    have := (stuck (Nat.lt_of_not_le hlt) _ t he).1
    omega

theorem notify_completes (i : ι) (info : ReadableInfo) (hi : s.notifier i = .idle) :
    ∃ t, (system ι κ).exec s [.notify i info,.write i,.write i] = some t ∧
      t.notifier = s.notifier ∧ t.listener = s.listener ∧ t.nextSeq = s.nextSeq+1 := by
  refine ⟨{ s with
    nextSeq := s.nextSeq+1
    drawn := s.drawn ++ [info]
    infos := update s.infos (s.nextSeq%bufLength) info
    seqs := update s.seqs (s.nextSeq%bufLength) s.nextSeq },?_,rfl,rfl,rfl⟩
  have back : update s.notifier i .idle = s.notifier := by
    rw [← hi,update_eq_self]
  simp [System.exec,system,step,notify,write,setNotifier,hi,back]

/-- A listener attaches first and `n` notifications follow, one after the other. -/
theorem notified (n : Nat) : ∃ s, (system Unit Unit).ReachableWhile NoOverlap s ∧
    (∀ i, s.notifier i = .idle) ∧ s.listener () = ⟨.idle,0⟩ ∧ s.nextSeq = n := by
  induction n with
  | zero =>
    exact ⟨init.setListener () ⟨.idle,0⟩,.next (e := .attach ()) (.start rfl) trivial rfl,
      fun _ => rfl,rfl,rfl⟩
  | succ _ ih =>
    obtain ⟨s,hs,hq,hk,hn⟩ := ih
    obtain ⟨t,ht,hqt,hkt,hnt⟩ := notify_completes () .zero (hq ())
    obtain ⟨u,hu,ht⟩ := System.exec_cons.mp ht
    obtain ⟨v,hv,ht⟩ := System.exec_cons.mp ht
    obtain ⟨w,hw,ht⟩ := System.exec_cons.mp ht
    cases ht
    refine ⟨_,((hs.next ?_ hu).next (e := Event.write ()) trivial hv).next
      (e := Event.write ()) trivial hw,fun _ => ?_,?_,?_⟩
    · exact fun m hm => absurd hm (not_inProgress hq m)
    · rw [hqt,hq]
    · rw [hkt,hk]
    · rw [hnt,hn]

/-- A listener that lags by one notification gets it. -/
theorem listen_returns_iff_one : ∃ s : State Unit Unit, s.nextSeq = 1 ∧ Returns s () := by
  obtain ⟨s,hs,hq,hk,hn⟩ := notified 1
  refine ⟨s,hn,(listen_returns_iff hs hq (k := ()) (by rw [hk]) (by rw [hk,hn]; decide)).1.mpr ?_⟩
  rw [hn,hk]
  decide

/-- After one notification more than the ring holds, a listener that has not read any of
them never gets one. -/
theorem overtaken_stuck : ∃ s : State Unit Unit, (system Unit Unit).Reachable s ∧
    (∀ i, s.notifier i = .idle) ∧ (s.listener ()).nextSeq < s.nextSeq ∧ Stuck s () := by
  obtain ⟨s,hs,hq,hk,_⟩ := notified (bufLength+1)
  have quiet := not_inProgress hq
  have hlt : 0 < s.nextSeq := by omega
  refine ⟨s,hs.reachable,hq,by rw [hk]; exact hlt, Overtaken.stuck (n := 0) ⟨hlt,quiet 0,fun he => ?_,.inl hk⟩⟩
  have := ((noOverlap_inv hs).current quiet hlt).mp he
  omega

/-- No notifier writes the slot that a listener has matched and not yet copied, and no
listener matches a slot whose info is already the next one's, or the first number before it
was written. -/
def Undisturbed (s : State ι κ) : Event ι κ → Prop
  | .write i => ∀ n info, s.notifier i = .writeInfo n info → ∀ k m, s.listener k = ⟨.copy,m⟩ →
      m%bufLength ≠ n%bufLength
  | .read k => ∀ m, s.listener k = ⟨.compare,m⟩ → s.seqs (m%bufLength) = m → ¬ InProgress s m ∧
      ∀ i n, s.notifier i = .writeSeq n → n%bufLength ≠ m%bufLength
  | e => NoOverlap s e

/-- What a listener can rely on at each point of `Listen`. -/
def Listener.Ok (s : State ι κ) : Listener → Prop
  | ⟨.detached,_⟩ => True
  | ⟨.idle,n⟩ => n ≤ s.nextSeq
  | ⟨.compare,n⟩ => n < s.nextSeq
  | ⟨.copy,n⟩ => n < s.nextSeq ∧ s.drawn[n]? = some (s.infos (n%bufLength))

structure Faithful (s : State ι κ) : Prop where
  listener : ∀ k, (s.listener k).Ok s
  obtained : ∀ k n info, (k, n, info) ∈ s.obtained → s.drawn[n]? = some info

omit [DecidableEq ι] [DecidableEq κ] in
theorem Listener.Ok.le (h : l.Ok s) (hl : l.pc ≠ .detached) : l.nextSeq ≤ s.nextSeq := by
  match l, h with
  | ⟨.detached,_⟩, _ => exact absurd rfl hl
  | ⟨.idle,_⟩, h => exact h
  | ⟨.compare,_⟩, h => exact Nat.le_of_lt h
  | ⟨.copy,_⟩, h => exact Nat.le_of_lt h.1

omit [DecidableEq ι] [DecidableEq κ] in
theorem Listener.Ok.mono (h : l.Ok s) (hn : s.nextSeq ≤ t.nextSeq)
    (hd : ∀ (n : Nat) a, s.drawn[n]? = some a → t.drawn[n]? = some a)
    (hf : ∀ n, l = ⟨.copy,n⟩ → t.infos (n%bufLength) = s.infos (n%bufLength)) : l.Ok t := by
  match l, h with
  | ⟨.detached,_⟩, _ => trivial
  | ⟨.idle,_⟩, h => exact Nat.le_trans h hn
  | ⟨.compare,_⟩, h => exact Nat.lt_of_lt_of_le h hn
  | ⟨.copy,n⟩, h => exact ⟨Nat.lt_of_lt_of_le h.1 hn,hd n _ ((hf n rfl).symm ▸ h.2)⟩

omit [DecidableEq ι] in
theorem Faithful.setListener (h : Faithful s) (hl : l.Ok s) : Faithful (s.setListener k l) where
  listener k' := by
    refine (forall_update_iff s.listener (p := fun _ l => l.Ok s)).mpr ⟨hl,?_⟩ k'
    exact fun k' _ => h.listener k'
  obtained := h.obtained

theorem moves_faithful (h : Faithful s) (hi : Inv s) (hm : Moves s e t) (hu : Undisturbed s e) : Faithful t := by
  cases hm with
  | draw _ info =>
    exact ⟨fun k => (h.listener k).mono (Nat.le_succ _) (fun _ _ => drawn_concat info) fun _ _ => rfl,
      fun k n a ha => drawn_concat info (h.obtained k n a ha)⟩
  | writeInfo _ n info hp =>
    refine ⟨fun k => (h.listener k).mono (Nat.le_refl _) (fun _ _ => id) fun m hk => ?_,h.obtained⟩
    exact update_of_ne (hu n info hp k m hk) ..
  | writeSeq =>
    exact ⟨fun k => (h.listener k).mono (Nat.le_refl _) (fun _ _ => id) fun _ _ => rfl,h.obtained⟩
  | attach => exact h.setListener (Nat.le_refl _)
  | poll k _ _ hd hn => exact h.setListener (hn ▸ (h.listener k).le hd)
  | compare k n hk hne =>
    have hle : n ≤ s.nextSeq := by simpa [hk] using (h.listener k).le (by simp [hk])
    exact h.setListener (Nat.lt_of_le_of_ne hle (Ne.symm hne))
  | matched k n hk hs =>
    have hlt : n < s.nextSeq := by
      have := h.listener k
      rwa [hk] at this
    obtain ⟨_,hw⟩ := hu n hk hs
    have := hi.content (n%bufLength) (by rwa [hs]) (by rwa [hs]) (by rw [hs]) hw
    exact h.setListener ⟨hlt,by rwa [hs] at this⟩
  | copy k n hk =>
    have held := h.listener k
    rw [hk] at held
    have := h.setListener (k := k) (l := ⟨.idle,n+1⟩) held.1
    refine ⟨this.listener,fun k' m a ha => ?_⟩
    rcases mem_cons.mp ha with he | ha
    · cases he
      exact held.2
    · exact h.obtained k' m a ha

/-- In an undisturbed run, what a listener obtains for a number is the info of the `Notify`
that drew it. -/
theorem obtained_is_notified {s : State ι κ} (h : (system ι κ).ReachableWhile Undisturbed s) :
    ∀ k n info, (k, n, info) ∈ s.obtained → s.drawn[n]? = some info := by
  have both : Inv s ∧ Faithful s := by
    apply h.invariant
    · rintro _ rfl
      exact ⟨init_inv,fun _ => trivial,fun _ _ _ h => absurd h not_mem_nil⟩
    · intro _ e _ hs hu he
      have hm := step_moves he
      refine ⟨moves_inv hs.1 hm ?_,moves_faithful hs.2 hs.1 hm hu⟩
      cases e with
      | notify => exact hu
      | write | attach | listen | read => trivial
  exact both.2.obtained

/-- One notification, completed before the listener polls. -/
theorem obtained_is_notified_first : ∃ s : State Unit Unit,
    s.obtained = [((), 0, ⟨1,0,1⟩)] ∧ s.drawn[0]? = some ⟨1,0,1⟩ := by
  have h : (system Unit Unit).ReachableWhile Undisturbed init := .start rfl
  have h := h.next (e := Event.attach ()) trivial rfl
  have h := h.next (e := Event.notify () ⟨1,0,1⟩) (by rintro n ⟨i,hn⟩; cases hn) rfl
  have h := h.next (e := Event.write ()) (by rintro n a - k m hk; cases hk) rfl
  have h := h.next (e := Event.write ()) (by rintro n a - k m hk; cases hk) rfl
  have h := h.next (e := Event.listen ()) trivial rfl
  have h := h.next (e := Event.read ()) (by
    rintro m - -
    constructor
    · rintro ⟨i,hi⟩; cases hi
    · intro i n hi; cases hi) rfl
  have h := h.next (e := Event.read ()) (by rintro m hm; cases hm) rfl
  exact ⟨_,rfl,obtained_is_notified h () 0 _ mem_cons_self⟩

/-- The zeros of the fresh indicator pass for the first notification. -/
theorem zeros_obtained : ∃ s : State Unit Unit, (system Unit Unit).Reachable s ∧
    ∃ k n info, (k, n, info) ∈ s.obtained ∧ s.drawn[n]? ≠ some info := by
  obtain ⟨s,hs,hp⟩ := System.reachable_of_exec (system Unit Unit)
    [.attach (),.notify () ⟨1,0,1⟩,.listen (),.read (),.read ()]
    (fun s => s.obtained == [((), 0, .zero)] && s.drawn == [⟨1,0,1⟩]) rfl (by decide)
  simp only [Bool.and_eq_true,beq_iff_eq] at hp
  refine ⟨s,hs,(),0,.zero,?_,?_⟩
  · simp [hp.1]
  · simp [hp.2,ReadableInfo.zero]

end Apollo.Cyber.Transport.Shm.ConditionNotifier
