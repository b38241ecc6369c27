import Apollo.Foundation.Table
import Apollo.Cyber.Record.RecordFileWriterStatistics

/-! The viewer merges the messages of several readers by time. The list of channels that the readers have is left out. The
viewer on valid files: it returns the messages of its time range and its channels, by time. -/
namespace Apollo.Cyber.Record
open Foundation RecordReader List RecordMessage Multimap

/-- The buffer is a multimap by time. A reader stands beside its entry of `readers_finished_`. -/
structure RecordViewer where
  beginTime : UInt64
  endTime : UInt64
  channels : List String
  readers : List (RecordReader × Bool)
  currBeginTime : UInt64 := 0
  msgBuffer : List RecordMessage := []
  stepTimeNanoSec : UInt64
  bufferMinSize : Nat

namespace RecordViewer

def isValid (v : RecordViewer) : Bool := !(v.beginTime > v.endTime)

/-- The order of the readers: by the begin of their files, then by the end. -/
def before (lhs rhs : RecordReader) : Bool :=
  if lhs.header.getBeginTime = rhs.header.getBeginTime then lhs.header.getEndTime < rhs.header.getEndTime
  else lhs.header.getBeginTime < rhs.header.getBeginTime

def init (v : RecordViewer) : RecordViewer :=
  { v with readers := v.readers.mergeSort fun lhs rhs => !before rhs.1 lhs.1 }

def minBeginTime (v : RecordViewer) : UInt64 :=
  v.readers.foldl (fun time (r, _) =>
    if r.isValid ∧ time > r.header.getBeginTime then r.header.getBeginTime else time) lastTime

def maxEndTime (v : RecordViewer) : UInt64 :=
  v.readers.foldl (fun time (r, _) =>
    if r.isValid ∧ time < r.header.getEndTime then r.header.getEndTime else time) 0

def updateTime (v : RecordViewer) : RecordViewer :=
  let beginTime := if v.beginTime < v.minBeginTime then v.minBeginTime else v.beginTime
  let endTime := if v.endTime > v.maxEndTime then v.maxEndTime else v.endTime
  { v with beginTime, endTime, currBeginTime := beginTime }

/-- The last two parameters are constants of the class. -/
def new (readers : List RecordReader) (beginTime endTime : UInt64) (channels : List String)
    (stepTimeNanoSec : UInt64 := 1000000000) (bufferMinSize : Nat := 128) : RecordViewer :=
  updateTime (init { beginTime, endTime, channels, stepTimeNanoSec, bufferMinSize,
                     readers := readers.map (·, false) })

def reset (v : RecordViewer) : RecordViewer :=
  { v with
    readers := v.readers.map fun (r, _) => (r.reset, false)
    currBeginTime := v.beginTime
    msgBuffer := [] }

def pull (codec : Codec) (beginTime endTime : UInt64) :
    Nat → RecordReader → List RecordMessage → Option (RecordReader × List RecordMessage)
  | 0, _, _ => none
  | fuel+1, r, buffer =>
    (readMessage codec beginTime endTime fuel r).bind fun
      | (none, r) => some (r, buffer)
      | (some m, r) => pull codec beginTime endTime fuel r (emplace time m buffer)

def pullAll (codec : Codec) (beginTime endTime : UInt64) (fuel : Nat) :
    List (RecordReader × Bool) → List RecordMessage → Option (List (RecordReader × Bool) × List RecordMessage)
  | [], buffer => some ([], buffer)
  | (r, finished)::readers, buffer =>
    (if finished then some (r, buffer) else pull codec beginTime endTime fuel r buffer).bind
      fun (r, buffer) => (pullAll codec beginTime endTime fuel readers buffer).map
        fun (readers, buffer) => ((r, finished)::readers, buffer)

def finish (beginTime : UInt64) : RecordReader × Bool → RecordReader × Bool
  | (r, finished) =>
    if !finished ∧ r.header.getEndTime < beginTime then (r.reset, true) else (r, finished)

def thisEndTime (v : RecordViewer) : UInt64 :=
  if v.currBeginTime+v.stepTimeNanoSec > v.endTime then v.endTime
  else v.currBeginTime+v.stepTimeNanoSec

def fillBuffer (codec : Codec) : Nat → RecordViewer → Option RecordViewer
  | 0, _ => none
  | fuel+1, v =>
    if v.currBeginTime ≤ v.endTime ∧ v.msgBuffer.length < v.bufferMinSize then
      (pullAll codec v.currBeginTime v.thisEndTime fuel (v.readers.map (finish v.currBeginTime))
        v.msgBuffer).bind fun (readers, msgBuffer) =>
          fillBuffer codec fuel { v with readers, msgBuffer, currBeginTime := v.thisEndTime+1 }
    else some v

def selects (channels : List String) (m : RecordMessage) : Bool := channels.isEmpty || channels.contains m.channelName

/-- The next message on a channel of the viewer, and none at the end. -/
def update (codec : Codec) : Nat → RecordViewer → Option (Option RecordMessage × RecordViewer)
  | 0, _ => none
  | fuel+1, v =>
    (if v.msgBuffer.isEmpty then fillBuffer codec fuel v else some v).bind fun v =>
      match v.msgBuffer with
      | [] => some (none, v)
      | m::msgBuffer =>
        if selects v.channels m then some (some m, { v with msgBuffer })
        else update codec fuel { v with msgBuffer }

def rest (codec : Codec) : Nat → RecordViewer → Option (List RecordMessage)
  | 0, _ => none
  | fuel+1, v =>
    (update codec fuel v).bind fun
      | (none, _) => some []
      | (some m, v) => (rest codec fuel v).map (m :: ·)

def iterate (codec : Codec) (v : RecordViewer) (fuel : Nat) : Option (List RecordMessage) :=
  if v.reset.isValid then rest codec fuel v.reset else some []

end RecordViewer

theorem Bounded.fits {header : ChunkHeader} {body : ChunkBody} (h : Bounded header body)
    (beginTime endTime : UInt64) : Fits beginTime endTime header body := by
  refine ⟨fun hearly m hm => UInt64.lt_of_le_of_lt (h.2 m hm).2 hearly,fun hlate => ?_⟩
  cases body with
  | nil => exact absurd rfl h.1
  | cons m rest => exact ⟨m,rest,rfl,UInt64.lt_of_lt_of_le hlate (h.2 m mem_cons_self).1⟩

structure ValidReader (codec : Codec) where
  reader : RecordReader
  items : List Item
  valid : reader.isValid
  holds : Holds codec Bounded reader.fileReader.file reader.header items
  sorted : (items.flatMap Item.messages).Pairwise fun x y => x.getTime ≤ y.getTime
  inside : ∀ m ∈ items.flatMap Item.messages,
    reader.header.getBeginTime ≤ m.getTime ∧ m.getTime ≤ reader.header.getEndTime

def window (beginTime endTime : UInt64) (messages : List SingleMessage) : List RecordMessage :=
  (messages.filter fun m => beginTime ≤ m.getTime ∧ m.getTime ≤ endTime).map (·.toRecordMessage)

variable {beginTime endTime : UInt64} {messages : List SingleMessage}

theorem window_eq_nil (h : ∀ m ∈ messages, beginTime ≤ m.getTime → endTime < m.getTime) :
    window beginTime endTime messages = [] := by
  rw [window,map_eq_nil_iff,filter_eq_nil_iff]
  intro m hm hin
  obtain ⟨hb,he⟩ := of_decide_eq_true hin
  exact UInt64.not_le.mpr (h m hm hb) he

theorem window_append (beginTime endTime : UInt64) (front back : List SingleMessage) :
    window beginTime endTime (front ++ back) = window beginTime endTime front ++ window beginTime endTime back := by
  rw [window,filter_append,map_append]
  rfl

theorem mem_window {m : RecordMessage} (h : m ∈ window beginTime endTime messages) :
    beginTime ≤ m.time ∧ m.time ≤ endTime := by
  obtain ⟨x,hx,rfl⟩ := mem_map.mp h
  exact of_decide_eq_true (mem_filter.mp hx).2

namespace RecordViewer
variable {codec : Codec} {beginTime endTime : UInt64} {header : Header} {r : RecordReader}
  {ms : List SingleMessage}

theorem pull_inside (hle : beginTime ≤ endTime)
    (hrange : ¬ (beginTime > header.getEndTime ∨ endTime < header.getBeginTime))
    (hsorted : ms.Pairwise fun x y => x.getTime ≤ y.getTime) (h : Stands codec Bounded header r ms)
    (buffer : List RecordMessage) : ∃ r' done left, ms = done ++ left ∧ (∀ m ∈ done, m.getTime ≤ endTime) ∧
      Stands codec Bounded header r' left ∧
      Returns (fun fuel => pull codec beginTime endTime fuel r buffer)
        (r', emplaceAll time buffer (window beginTime endTime ms)) := by
  induction hn : ms.length using Nat.strong_induction_on generalizing r ms buffer with
  | _ _ ih =>
    obtain ⟨r',hr,hstands⟩ := readMessage_spec (fun _ _ hb => hb.fits _ _) hle hrange h
    obtain ⟨early,hearly,hsplit⟩ := nextIn_split beginTime endTime ms
    have hpast (m : SingleMessage) (hm : m ∈ early) : m.getTime ≤ endTime :=
      UInt64.le_trans (UInt64.le_of_lt (hearly m hm)) hle
    have hnone : window beginTime endTime early = [] :=
      window_eq_nil fun m hm hb => absurd (hearly m hm) (UInt64.not_lt.mpr hb)
    split at hsplit
    case h_1 left hnext =>
      obtain ⟨rfl,hlate⟩ := hsplit
      rw [hnext] at hr hstands
      have hafter : window beginTime endTime left = [] := by
        refine window_eq_nil fun m hm _ => ?_
        cases left with
        | nil => cases hm
        | cons x =>
          have hx := hlate x rfl
          rcases mem_cons.mp hm with rfl | hm
          · exact hx
          · have hs := (pairwise_cons.mp (pairwise_append.mp hsorted).2.1).1
            exact UInt64.lt_of_lt_of_le hx (hs m hm)
      refine ⟨r',early,left,rfl,hpast,hstands,?_⟩
      rw [window_append,hnone,hafter]
      exact hr.round (fun _ => rfl) (returns_const _)
    case h_2 m left hnext =>
      obtain ⟨rfl,hb,he⟩ := hsplit
      rw [hnext] at hr hstands
      have hsorted' := (pairwise_cons.mp (pairwise_append.mp hsorted).2.1).2
      obtain ⟨r'',done,left',rfl,hdone,hstands',hreturns⟩ :=
        ih left.length (by simp at hn; omega) hsorted' hstands
          (emplace time m.toRecordMessage buffer) rfl
      refine ⟨r'',early ++ m::done,left',by simp,fun x hx => ?_,hstands',?_⟩
      · rcases mem_append.mp hx with hx | hx
        · exact hpast x hx
        · rcases mem_cons.mp hx with rfl | hx
          · exact he
          · exact hdone x hx
      · have hwindow : window beginTime endTime (m::(done ++ left')) =
            m.toRecordMessage::window beginTime endTime (done ++ left') := by
          simp [window,hb,he]
        rw [window_append,hnone,hwindow]
        exact hr.round (fun _ => rfl) hreturns

/-- The loop over the messages of a reader puts the window into the buffer. -/
theorem pull_spec (hle : beginTime ≤ endTime) (hsorted : ms.Pairwise fun x y => x.getTime ≤ y.getTime)
    (hinside : ∀ m ∈ ms, header.getBeginTime ≤ m.getTime ∧ m.getTime ≤ header.getEndTime)
    (h : Stands codec Bounded header r ms) (buffer : List RecordMessage) :
    ∃ r' done left, ms = done ++ left ∧ (∀ m ∈ done, m.getTime ≤ endTime) ∧ Stands codec Bounded header r' left ∧
      Returns (fun fuel => pull codec beginTime endTime fuel r buffer)
        (r', emplaceAll time buffer (window beginTime endTime ms)) := by
  by_cases hrange : beginTime > header.getEndTime ∨ endTime < header.getBeginTime
  · have hnone : window beginTime endTime ms = [] := by
      refine window_eq_nil fun m hm hb => ?_
      rcases hrange with hend | hbegin
      · exact absurd (UInt64.le_trans hb (hinside m hm).2) (UInt64.not_le.mpr hend)
      · exact UInt64.lt_of_lt_of_le hbegin (hinside m hm).1
    have hread : Returns (fun fuel => readMessage codec beginTime endTime fuel r) (none, r) := by
      refine Returns.succ (returns_const _) fun fuel => ?_
      rw [readMessage,h.valid,h.header,if_pos hrange]
      rfl
    refine ⟨r,[],ms,rfl,by simp,h,?_⟩
    rw [hnone]
    exact hread.round (fun _ => rfl) (returns_const _)
  · exact pull_inside hle hrange hsorted h buffer

/-- What the viewer knows of a reader before a window that begins at `time`: it is finished, or it
stands before all messages from then on. -/
structure Tracks (time : UInt64) (file : ValidReader codec) (entry : RecordReader × Bool) : Prop where
  header : entry.1.header = file.reader.header
  finished : entry.2 = true → file.reader.header.getEndTime < time
  ahead : entry.2 = false → ∃ done left, file.items.flatMap Item.messages = done ++ left ∧
    (∀ m ∈ done, m.getTime < time) ∧ Stands codec Bounded file.reader.header entry.1 left

variable {file : ValidReader codec} {files : List (ValidReader codec)} {entry : RecordReader × Bool}
  {entries : List (RecordReader × Bool)}

theorem Tracks.finish (h : Tracks beginTime file entry) : Tracks beginTime file (finish beginTime entry) := by
  rw [RecordViewer.finish]
  split
  case isTrue hend =>
    refine ⟨h.header,fun _ => ?_,by simp⟩
    rw [← h.header]
    exact hend.2
  case isFalse => exact h

theorem Tracks.later {time : UInt64} (h : Tracks time file entry) (hle : time ≤ beginTime)
    (hfinished : entry.2 = true) : Tracks beginTime file entry := by
  refine ⟨h.header,fun hf => UInt64.lt_of_lt_of_le (h.finished hf) hle,fun hf => ?_⟩
  rw [hfinished] at hf
  cases hf

def windows (files : List (ValidReader codec)) (beginTime endTime : UInt64) : List RecordMessage :=
  files.flatMap fun file => window beginTime endTime (file.items.flatMap Item.messages)

theorem windows_eq_nil (h : endTime < beginTime) : windows files beginTime endTime = [] :=
  flatMap_eq_nil_iff.mpr fun _ _ => window_eq_nil fun _ _ hb => UInt64.lt_of_lt_of_le h hb

theorem pull_entry (hle : beginTime ≤ endTime) (hnext : endTime < endTime+1)
    (h : Tracks beginTime file entry) (buffer : List RecordMessage) :
    ∃ r', Tracks (endTime+1) file (r', entry.2) ∧ Returns (fun fuel => if entry.2 then some (entry.1, buffer)
          else pull codec beginTime endTime fuel entry.1 buffer)
        (r', emplaceAll time buffer
          (window beginTime endTime (file.items.flatMap Item.messages))) := by
  obtain ⟨r,finished⟩ := entry
  cases finished with
  | true =>
    have hend := h.finished rfl
    have hnone : window beginTime endTime (file.items.flatMap Item.messages) = [] :=
      window_eq_nil fun m hm hb =>
        absurd (UInt64.le_trans hb (file.inside m hm).2) (UInt64.not_le.mpr hend)
    refine ⟨r,h.later ?_ rfl,?_⟩
    · exact UInt64.le_trans hle (UInt64.le_of_lt hnext)
    · rw [hnone]
      exact returns_const _
  | false =>
    obtain ⟨done,_,hsplit,hdone,hstands⟩ := h.ahead rfl
    have hsorted := file.sorted
    have hinside := file.inside
    rw [hsplit] at hsorted hinside
    obtain ⟨r',done',left',rfl,hdone',hstands',hreturns⟩ := pull_spec hle
      (pairwise_append.mp hsorted).2.1 (fun m hm => hinside m (mem_append_right _ hm))
      hstands buffer
    refine ⟨r',⟨hstands'.header,by simp,fun _ => ⟨done ++ done',left',?_,fun m hm => ?_,hstands'⟩⟩,?_⟩
    · rw [hsplit,append_assoc]
    · refine UInt64.lt_of_le_of_lt ?_ hnext
      rcases mem_append.mp hm with hm | hm
      · exact UInt64.le_trans (UInt64.le_of_lt (hdone m hm)) hle
      · exact hdone' m hm
    · have hpast : window beginTime endTime done = [] :=
        window_eq_nil fun m hm hb => absurd (hdone m hm) (UInt64.not_lt.mpr hb)
      rw [hsplit,window_append,hpast]
      exact hreturns

/-- The second loop of `FillBuffer` puts the windows of all files into the buffer. -/
theorem pullAll_spec (hle : beginTime ≤ endTime) (hnext : endTime < endTime+1)
    (h : List.Forall₂ (Tracks beginTime) files entries) (buffer : List RecordMessage) :
    ∃ entries', List.Forall₂ (Tracks (endTime+1)) files entries' ∧
      Returns (fun fuel => pullAll codec beginTime endTime fuel entries buffer)
        (entries', emplaceAll time buffer (windows files beginTime endTime)) := by
  induction h generalizing buffer with
  | nil => exact ⟨[],.nil,returns_const _⟩
  | @cons file entry files entries hfile _ ih =>
    obtain ⟨r',hentry,hpull⟩ := pull_entry hle hnext hfile buffer
    obtain ⟨entries',htracks,hreturns⟩ := ih (emplaceAll time buffer
      (window beginTime endTime (file.items.flatMap Item.messages)))
    refine ⟨(r', entry.2)::entries',.cons hentry htracks,?_⟩
    rw [windows,flatMap_cons,emplaceAll,foldl_append]
    exact hpull.bind (hreturns.map fun next => ((r', entry.2)::next.1, next.2))

end RecordViewer

open UInt64
open RecordFileWriter in
theorem closed_valid {codec : Codec} {s : State}
    (h : (system codec).ReachableWhile (fun s e => s.Serializes codec e ∧ e.Filled codec) s) (hpc : s.pc = .closed)
    (hsorted : s.content.Pairwise fun x y => x.getTime ≤ y.getTime)
    (hinside : ∀ m ∈ s.content, s.header.getBeginTime ≤ m.getTime ∧ m.getTime ≤ s.header.getEndTime) :
    ∃ file : ValidReader codec, file.reader = openFile codec s.file ∧
      file.items.flatMap Item.messages = s.content := by
  rw [(sound h).stage.content_closed hpc] at hsorted hinside ⊢
  obtain ⟨header,hholds,hbegin,hend⟩ := closed_bounded h hpc fun m hm => (hinside m hm).1
  have hstands := openFile_stands hholds
  rw [← hbegin,← hend,← hstands.header] at hinside
  refine ⟨⟨openFile codec s.file,s.items,hstands.valid,?_,hsorted,hinside⟩,rfl,rfl⟩
  rw [openFile_file hholds,hstands.header]
  exact hholds

namespace RecordViewer
variable {codec : Codec} {beginTime endTime : UInt64} {file : ValidReader codec}
  {files : List (ValidReader codec)} {entry : RecordReader × Bool} {v : RecordViewer}

/-- The windows from the current one on end below the largest time. -/
def Room (v : RecordViewer) : Prop :=
  v.endTime.toNat+1 < 2^64 ∧ ∀ k : Nat, v.currBeginTime.toNat+k*(v.stepTimeNanoSec.toNat+1) ≤ v.endTime.toNat →
      v.currBeginTime.toNat+k*(v.stepTimeNanoSec.toNat+1)+v.stepTimeNanoSec.toNat < 2^64

/-- The buffer is sorted and has only messages of earlier windows. -/
structure Inv (files : List (ValidReader codec)) (v : RecordViewer) : Prop where
  tracks : List.Forall₂ (Tracks v.currBeginTime) files v.readers
  sorted : Multimap.Sorted time v.msgBuffer
  past : ∀ m ∈ v.msgBuffer, m.time < v.currBeginTime
  room : v.Room
  size : 0 < v.bufferMinSize

/-- The messages that the viewer has still to return or to pass over. -/
def left (files : List (ValidReader codec)) (v : RecordViewer) : List RecordMessage :=
  v.msgBuffer ++ windows files v.currBeginTime v.endTime

theorem toNat_thisEndTime (hroom : v.Room) (hle : v.currBeginTime ≤ v.endTime) :
    v.thisEndTime.toNat = min (v.currBeginTime.toNat+v.stepTimeNanoSec.toNat) v.endTime.toNat := by
  rw [le_iff_toNat_le] at hle
  have hfirst := hroom.2 0 (by omega)
  have hsum : (v.currBeginTime+v.stepTimeNanoSec).toNat = v.currBeginTime.toNat+v.stepTimeNanoSec.toNat := by
    rw [UInt64.toNat_add]
    omega
  rw [thisEndTime]
  split
  case isTrue h =>
    rw [gt_iff_lt,lt_iff_toNat_lt,hsum] at h
    omega
  case isFalse h =>
    rw [gt_iff_lt,lt_iff_toNat_lt,hsum] at h
    omega

theorem toNat_thisEndTime_succ (hroom : v.Room) (hle : v.currBeginTime ≤ v.endTime) :
    (v.thisEndTime+1).toNat = v.thisEndTime.toNat+1 := by
  have hend := toNat_thisEndTime hroom hle
  have hlast := hroom.1
  change (v.thisEndTime.toNat+1)%2^64 = _
  omega

theorem thisEndTime_bounds (hroom : v.Room) (hle : v.currBeginTime ≤ v.endTime) :
    v.currBeginTime ≤ v.thisEndTime ∧ v.thisEndTime ≤ v.endTime := by
  have hend := toNat_thisEndTime hroom hle
  rw [le_iff_toNat_le] at hle ⊢
  rw [le_iff_toNat_le]
  omega

theorem Room.next (hroom : v.Room) (hle : v.currBeginTime ≤ v.endTime) (readers : List (RecordReader × Bool))
    (msgBuffer : List RecordMessage) :
    ({ v with readers, msgBuffer, currBeginTime := v.thisEndTime+1 } : RecordViewer).Room := by
  have hend := toNat_thisEndTime hroom hle
  have hsucc := toNat_thisEndTime_succ hroom hle
  refine ⟨hroom.1,fun k hk => ?_⟩
  have hroom := hroom.2 (k+1)
  rw [Nat.succ_mul] at hroom
  simp only at hk ⊢
  omega

variable {m : RecordMessage}

theorem windows_split {middle next : UInt64} (hbegin : beginTime ≤ middle) (hend : middle ≤ endTime)
    (hnext : next.toNat = middle.toNat+1) : (windows files beginTime middle ++ windows files next endTime).Perm
      (windows files beginTime endTime) := by
  rw [le_iff_toNat_le] at hbegin hend
  have hfile (ms : List SingleMessage) :
      (window beginTime middle ms ++ window next endTime ms).Perm (window beginTime endTime ms) := by
    let inside := ms.filter fun m => beginTime ≤ m.getTime ∧ m.getTime ≤ endTime
    have hfront : ms.filter (fun m => beginTime ≤ m.getTime ∧ m.getTime ≤ middle) =
        inside.filter fun m => m.getTime ≤ middle := by
      rw [filter_filter]
      refine filter_congr fun m _ => ?_
      rw [← Bool.decide_and,decide_eq_decide]
      simp only [le_iff_toNat_le]
      omega
    have hback : ms.filter (fun m => next ≤ m.getTime ∧ m.getTime ≤ endTime) =
        inside.filter fun m => !decide (m.getTime ≤ middle) := by
      rw [filter_filter]
      refine filter_congr fun _ _ => ?_
      rw [← decide_not,← Bool.decide_and,decide_eq_decide]
      simp only [le_iff_toNat_le]
      omega
    rw [window,window,window,← map_append,hfront,hback]
    exact (filter_append_perm _ _).map _
  exact (flatMap_append_perm ..).trans (List.Perm.flatMap_left _ fun _ _ => hfile _)

def filled (files : List (ValidReader codec)) (v : RecordViewer) (readers : List (RecordReader × Bool)) :
    RecordViewer :=
  { v with
    readers
    msgBuffer := Multimap.emplaceAll time v.msgBuffer (windows files v.currBeginTime v.thisEndTime)
    currBeginTime := v.thisEndTime+1 }

section
variable (h : Inv files v)
include h

theorem fill_round (hle : v.currBeginTime ≤ v.endTime) : ∃ readers,
      Returns (fun fuel => pullAll codec v.currBeginTime v.thisEndTime fuel
        (v.readers.map (finish v.currBeginTime)) v.msgBuffer)
        (readers, (filled files v readers).msgBuffer) ∧
      Inv files (filled files v readers) ∧ (left files (filled files v readers)).Perm (left files v) ∧
      v.currBeginTime < v.thisEndTime+1 := by
  have hsucc := toNat_thisEndTime_succ h.room hle
  obtain ⟨hbegin,hlast⟩ := thisEndTime_bounds h.room hle
  have hnext : v.thisEndTime < v.thisEndTime+1 := by
    rw [lt_iff_toNat_lt]
    omega
  have hlater := UInt64.lt_of_le_of_lt hbegin hnext
  have htracks : List.Forall₂ (Tracks v.currBeginTime) files (v.readers.map (finish v.currBeginTime)) := by
    rw [forall₂_map_right_iff]
    exact h.tracks.imp fun _ _ htrack => htrack.finish
  obtain ⟨readers,htracks',hreturns⟩ := pullAll_spec hbegin hnext htracks v.msgBuffer
  have hperm : (filled files v readers).msgBuffer.Perm
      (v.msgBuffer ++ windows files v.currBeginTime v.thisEndTime) := Multimap.emplaceAll_perm ..
  refine ⟨readers,hreturns,⟨htracks',h.sorted.emplaceAll _,fun m hm => ?_,h.room.next hle _ _,h.size⟩,?_, hlater⟩
  · -- what was read now is in the window, and the rest was earlier already
    rcases mem_append.mp (hperm.mem_iff.mp hm) with hm | hm
    · exact UInt64.lt_trans (h.past m hm) hlater
    · obtain ⟨_,_,hm⟩ := mem_flatMap.mp hm
      exact UInt64.lt_of_le_of_lt (mem_window hm).2 hnext
  · refine (hperm.append_right _).trans ?_
    rw [append_assoc]
    exact (windows_split hbegin hlast hsucc).append_left _

/-- `FillBuffer` ends with messages in the buffer if any are left, and loses none. -/
theorem fillBuffer_spec : ∃ v', Returns (fun fuel => fillBuffer codec fuel v) v' ∧ Inv files v' ∧
      (left files v').Perm (left files v) ∧ v'.channels = v.channels ∧
      (v'.msgBuffer = [] → left files v' = []) := by
  -- the windows that are still to come become fewer
  induction hn : v.endTime.toNat+1 - v.currBeginTime.toNat using Nat.strong_induction_on generalizing v with
  | _ n ih =>
    by_cases hround : v.currBeginTime ≤ v.endTime ∧ v.msgBuffer.length < v.bufferMinSize
    · obtain ⟨readers,hreturns,hinv,hperm,hlater⟩ := fill_round h hround.1
      have hless : (filled files v readers).endTime.toNat+1 - (filled files v readers).currBeginTime.toNat < n := by
        have hle := le_iff_toNat_le.mp hround.1
        rw [lt_iff_toNat_lt] at hlater
        simp only [filled]
        omega
      obtain ⟨v',hfill,hinv',hperm',hchannels,hempty⟩ := ih _ hless hinv rfl
      exact ⟨v',hreturns.round (fun _ => if_pos hround) hfill,hinv',hperm'.trans hperm,hchannels,hempty⟩
    · refine ⟨v,Returns.succ (returns_const v) fun _ => ?_,h,.refl _,rfl,fun hnil => ?_⟩
      · rw [fillBuffer,if_neg hround]
      · have hsize := h.size
        have hover : ¬ v.currBeginTime ≤ v.endTime := fun hle => hround ⟨hle,by rw [hnil]; exact hsize⟩
        rw [left,hnil,windows_eq_nil (UInt64.not_le.mp hover)]
        rfl

theorem Inv.pop {buffer : List RecordMessage} (hbuffer : v.msgBuffer = m::buffer) :
    Inv files { v with msgBuffer := buffer } ∧ left files v = m::left files { v with msgBuffer := buffer } ∧
      ∀ x ∈ left files { v with msgBuffer := buffer }, m.time ≤ x.time := by
  have hsorted := h.sorted
  have hpast := h.past
  rw [hbuffer] at hsorted hpast
  obtain ⟨hfirst,htail⟩ := pairwise_cons.mp hsorted
  refine ⟨⟨h.tracks,htail,fun x hx => hpast x (mem_cons_of_mem _ hx),h.room,h.size⟩,?_,
    fun x hx => ?_⟩
  · rw [left,hbuffer]
    rfl
  · rcases mem_append.mp hx with hx | hx
    · exact hfirst x hx
    · obtain ⟨_,_,hx⟩ := mem_flatMap.mp hx
      exact UInt64.le_of_lt (UInt64.lt_of_lt_of_le (hpast m mem_cons_self) (mem_window hx).1)

theorem refill_spec : ∃ v', Returns (fun fuel => if v.msgBuffer.isEmpty then fillBuffer codec fuel v else some v) v' ∧
      Inv files v' ∧ (left files v').Perm (left files v) ∧ v'.channels = v.channels ∧
      (v'.msgBuffer = [] → left files v' = []) := by
  cases hbuffer : v.msgBuffer with
  | nil => exact fillBuffer_spec h
  | cons => exact ⟨v,returns_const v,h,.refl _,rfl,fun hnil => by simp [hbuffer] at hnil⟩

/-- `Update` returns an earliest message on the channels, if there is one. -/
theorem update_spec : ∃ found v', Returns (fun fuel => update codec fuel v) (found, v') ∧
      match found with
      | none => (left files v).filter (selects v.channels) = []
      | some m => Inv files v' ∧ v'.channels = v.channels ∧ (∀ x ∈ left files v', m.time ≤ x.time) ∧
          ((left files v).filter (selects v.channels)).Perm (m::(left files v').filter (selects v.channels)) := by
  induction hn : (left files v).length using Nat.strong_induction_on generalizing v with
  | _ n ih =>
    obtain ⟨v₁,hfill,hinv,hperm,hchannels,hempty⟩ := refill_spec h
    cases hbuffer : v₁.msgBuffer with
    | nil =>
      rw [hempty hbuffer] at hperm
      refine ⟨none,v₁,hfill.round (fun _ => rfl) ?_,by rw [hperm.symm.eq_nil]; rfl⟩
      simp only [hbuffer]
      exact returns_const _
    | cons m buffer =>
      obtain ⟨hinv',hleft,hfirst⟩ := hinv.pop hbuffer
      rw [hleft] at hperm
      have hfilter := hperm.symm.filter (selects v.channels)
      cases hselects : selects v.channels m with
      | true =>
        refine ⟨some m,{ v₁ with msgBuffer := buffer },hfill.round (fun _ => rfl) ?_,hinv',hchannels, hfirst,?_⟩
        · simp only [hbuffer,hchannels,hselects]
          exact returns_const _
        · rwa [filter_cons_of_pos hselects] at hfilter
      | false =>
        have hless : (left files { v₁ with msgBuffer := buffer }).length < n := by
          have := hperm.length_eq
          rw [length_cons] at this
          omega
        obtain ⟨found,v',hupdate,hfound⟩ := ih _ hless hinv' rfl
        refine ⟨found,v',hfill.round (fun _ => rfl) ?_,?_⟩
        · rw [← hchannels] at hselects
          simp only [hbuffer,hselects]
          exact hupdate
        · rw [filter_cons_of_neg (by simp [hselects])] at hfilter
          simp only [hchannels] at hfound
          split at hfound
          · exact (hfilter.trans (.of_eq hfound)).eq_nil
          · obtain ⟨hinv'',hchannels',hearliest,hrest⟩ := hfound
            exact ⟨hinv'',hchannels',hearliest,hfilter.trans hrest⟩

/-- The iterator returns what is left on the channels, by time. -/
theorem rest_spec : ∃ messages, Returns (fun fuel => rest codec fuel v) messages ∧
      messages.Perm ((left files v).filter (selects v.channels)) ∧
      Multimap.Sorted time messages := by
  induction hn : ((left files v).filter (selects v.channels)).length generalizing v with
  | zero =>
    obtain ⟨found,v',hupdate,hfound⟩ := update_spec h
    cases found with
    | none =>
      refine ⟨[],hupdate.round (fun _ => rfl) (returns_const _),?_,.nil⟩
      rw [hfound]
    | some =>
      have := hfound.2.2.2.length_eq
      simp [hn] at this
  | succ _ ih =>
    obtain ⟨found,v',hupdate,hfound⟩ := update_spec h
    cases found with
    | none =>
      rw [hfound] at hn
      cases hn
    | some m =>
      obtain ⟨hinv,hchannels,hfirst,hperm⟩ := hfound
      have hlen := hperm.length_eq
      rw [hn,length_cons] at hlen
      obtain ⟨messages,hrest,hmessages,hsorted⟩ := ih hinv (by rw [hchannels]; omega)
      rw [hchannels] at hmessages
      refine ⟨m::messages,hupdate.round (fun _ => rfl) (hrest.map (m :: ·)),
        (hmessages.cons m).trans hperm.symm,pairwise_cons.mpr ⟨fun x hx => ?_,hsorted⟩⟩
      exact hfirst x (mem_filter.mp (hmessages.mem_iff.mp hx)).1

end

theorem foldl_best {better R : UInt64 → UInt64 → Prop} [DecidableRel better]
    (hrefl : ∀ x, R x x) (htrans : ∀ x y z, R x y → R y z → R x z) (hbetter : ∀ x y, better x y → R x y)
    (hnot : ∀ x y, ¬ better x y → R y x) (key : RecordReader → UInt64)
    (entries : List (RecordReader × Bool)) (time : UInt64) :
    let best := entries.foldl (fun time (r, _) =>
      if r.isValid ∧ better (key r) time then key r else time) time
    R best time ∧ ∀ entry ∈ entries, entry.1.isValid → R best (key entry.1) := by
  induction entries generalizing time with
  | nil => exact ⟨hrefl time,by simp⟩
  | cons entry _ ih =>
    obtain ⟨r,_⟩ := entry
    by_cases h : r.isValid ∧ better (key r) time
    · simp only [foldl_cons,if_pos h]
      obtain ⟨hbest,hall⟩ := ih (key r)
      exact ⟨htrans _ _ _ hbest (hbetter _ _ h.2),forall_mem_cons.mpr ⟨fun _ => hbest,hall⟩⟩
    · simp only [foldl_cons,if_neg h]
      obtain ⟨hbest,hall⟩ := ih time
      refine ⟨hbest,forall_mem_cons.mpr ⟨fun hvalid => ?_,hall⟩⟩
      exact htrans _ _ _ hbest (hnot _ _ fun hb => h ⟨hvalid,hb⟩)

theorem minBeginTime_le (v : RecordViewer) (hmem : entry ∈ v.readers) (hvalid : entry.1.isValid) :
    v.minBeginTime ≤ entry.1.header.getBeginTime :=
  (foldl_best (R := (· ≤ ·)) UInt64.le_refl (fun _ _ _ => UInt64.le_trans) (fun _ _ => UInt64.le_of_lt)
    (fun _ _ => UInt64.not_lt.mp) (·.header.getBeginTime) v.readers lastTime).2 entry hmem hvalid

theorem le_maxEndTime (v : RecordViewer) (hmem : entry ∈ v.readers) (hvalid : entry.1.isValid) :
    entry.1.header.getEndTime ≤ v.maxEndTime :=
  (foldl_best (R := (· ≥ ·)) UInt64.le_refl (fun _ _ _ h h' => UInt64.le_trans h' h)
    (fun _ _ => UInt64.le_of_lt) (fun _ _ => UInt64.not_lt.mp) (·.header.getEndTime) v.readers 0).2
    entry hmem hvalid

def arrange (files : List (ValidReader codec)) : List (ValidReader codec) :=
  files.mergeSort fun lhs rhs => !before rhs.reader lhs.reader

theorem new_readers (files : List (ValidReader codec)) (beginTime endTime : UInt64) (channels : List String)
    (step : UInt64) (size : Nat) :
    (new (files.map (·.reader)) beginTime endTime channels step size).readers =
      (arrange files).map fun file => (file.reader, false) := by
  have hsort : (arrange files).map (fun file => (file.reader, false)) =
      (files.map fun file => (file.reader, false)).mergeSort fun lhs rhs => !before rhs.1 lhs.1 :=
    map_mergeSort fun _ _ _ _ => rfl
  rw [hsort]
  simp only [new,updateTime,init,map_map]
  rfl

theorem reset_inv (hsize : 0 < v.bufferMinSize)
    (hreaders : v.readers = files.map fun file => (file.reader, false)) (hroom : v.reset.Room) :
    Inv files v.reset := by
  refine ⟨?_,.nil,by simp [reset],hroom,hsize⟩
  simp only [reset,hreaders,map_map]
  rw [forall₂_map_right_iff,forall₂_same]
  intro file _
  exact ⟨rfl,nofun,fun _ => ⟨[],_,rfl,by simp,reset_stands file.valid rfl file.holds⟩⟩

theorem window_updateTime (hmem : (file.reader, false) ∈ v.readers) :
    window v.updateTime.beginTime v.updateTime.endTime (file.items.flatMap Item.messages) =
      window v.beginTime v.endTime (file.items.flatMap Item.messages) := by
  have hmin := minBeginTime_le v hmem file.valid
  have hmax := le_maxEndTime v hmem file.valid
  have hbegin (time : UInt64) (h : v.minBeginTime ≤ time) : v.updateTime.beginTime ≤ time ↔ v.beginTime ≤ time := by
    simp only [updateTime]
    split
    case isTrue hlt => exact ⟨UInt64.le_trans (UInt64.le_of_lt hlt),fun _ => h⟩
    case isFalse => rfl
  have hend (time : UInt64) (h : time ≤ v.maxEndTime) : time ≤ v.updateTime.endTime ↔ time ≤ v.endTime := by
    simp only [updateTime]
    split
    case isTrue hlt => exact ⟨fun _ => UInt64.le_trans h (UInt64.le_of_lt hlt),fun _ => h⟩
    case isFalse => rfl
  refine congrArg (List.map _) (filter_congr fun m hm => ?_)
  obtain ⟨hfirst,hlast⟩ := file.inside m hm
  rw [decide_eq_decide,hbegin _ (UInt64.le_trans hmin hfirst),hend _ (UInt64.le_trans hlast hmax)]

/-- The times of the viewer may be cut off, and the readers are in another order. -/
theorem windows_new (files : List (ValidReader codec)) (beginTime endTime : UInt64) (channels : List String)
    (step : UInt64) (size : Nat) :
    (windows (arrange files) (new (files.map (·.reader)) beginTime endTime channels step size).beginTime
      (new (files.map (·.reader)) beginTime endTime channels step size).endTime).Perm
        (windows files beginTime endTime) := by
  have hreaders := new_readers files beginTime endTime channels step size
  have hfile : ∀ file ∈ arrange files, window
      (new (files.map (·.reader)) beginTime endTime channels step size).beginTime
      (new (files.map (·.reader)) beginTime endTime channels step size).endTime
      (file.items.flatMap Item.messages) = window beginTime endTime (file.items.flatMap Item.messages) := by
    intro file hmem
    have hentry : (file.reader, false) ∈
        (new (files.map (·.reader)) beginTime endTime channels step size).readers := by
      rw [hreaders]
      exact mem_map.mpr ⟨file,hmem,rfl⟩
    exact window_updateTime hentry
  rw [windows,flatMap_congr hfile]
  exact (mergeSort_perm ..).flatMap_right _

theorem updateTime_endTime_le (v : RecordViewer) : v.updateTime.endTime ≤ v.endTime := by
  simp only [updateTime]
  split
  case isTrue hlt => exact UInt64.le_of_lt hlt
  case isFalse => exact UInt64.le_refl _

theorem room_new (readers : List RecordReader) (beginTime : UInt64) (channels : List String) {step : UInt64}
    (size : Nat) (h : endTime.toNat+step.toNat+1 < 2^64) :
    (new readers beginTime endTime channels step size).Room := by
  have hend : (new readers beginTime endTime channels step size).endTime.toNat ≤ endTime.toNat :=
    le_iff_toNat_le.mp (updateTime_endTime_le _)
  have hstep : (new readers beginTime endTime channels step size).stepTimeNanoSec = step := rfl
  refine ⟨by omega,fun _ hk => ?_⟩
  rw [hstep] at hk ⊢
  omega

theorem selects_iff {channels : List String} :
    selects channels m = true ↔ channels = [] ∨ m.channelName ∈ channels := by
  simp [selects]

def all (files : List (ValidReader codec)) : List RecordMessage :=
  files.flatMap fun file => (file.items.flatMap Item.messages).map (·.toRecordMessage)

theorem filter_windows (files : List (ValidReader codec)) (beginTime endTime : UInt64) (channels : List String) :
    (windows files beginTime endTime).filter (selects channels) = (all files).filter fun m =>
      (beginTime ≤ m.time ∧ m.time ≤ endTime) ∧ (channels = [] ∨ m.channelName ∈ channels) := by
  rw [windows,all,filter_flatMap,filter_flatMap]
  refine flatMap_congr fun _ _ => ?_
  rw [window,filter_map,filter_map,filter_filter]
  refine congrArg (List.map _) (filter_congr fun _ _ => ?_)
  rw [Bool.eq_iff_iff,Bool.and_eq_true,decide_eq_true_eq,and_comm,Function.comp_apply,selects_iff,
    Function.comp_apply,decide_eq_true_eq]
  rfl

end RecordViewer

end Apollo.Cyber.Record
