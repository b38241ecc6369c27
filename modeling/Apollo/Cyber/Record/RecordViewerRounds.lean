import Apollo.Cyber.Record.RecordReaderTermination
import Apollo.Cyber.Record.RecordViewer

/-! The windows of `FillBuffer` on readers of any files. -/
namespace Apollo.Cyber.Record
open Foundation RecordFileReader RecordReader List Option Relation

namespace RecordViewer

def fillWindows (codec : Codec) : Nat → RecordViewer → Option (List (UInt64 × UInt64))
  | 0, _ => none
  | fuel+1, v =>
    if v.currBeginTime ≤ v.endTime ∧ v.msgBuffer.length < v.bufferMinSize then
      (pullAll codec v.currBeginTime v.thisEndTime fuel (v.readers.map (finish v.currBeginTime))
        v.msgBuffer).bind fun (readers, msgBuffer) =>
          (fillWindows codec fuel { v with readers, msgBuffer, currBeginTime := v.thisEndTime+1 }).map
            ((v.currBeginTime, v.thisEndTime) :: ·)
    else some []

/-- Windows up to an end time, each right behind the one before it. -/
inductive Adjacent (endTime : UInt64) : UInt64 → List (UInt64 × UInt64) → UInt64 → Prop
  | nil {time} : Adjacent endTime time [] time
  | cons {first last next time windows} : first ≤ last → last ≤ endTime → next.toNat = last.toNat+1 →
      Adjacent endTime next windows time → Adjacent endTime first ((first, last)::windows) time

/-- The states of an iteration: `Reset`, then calls of `FillBuffer`, with messages taken from the buffer
in between. -/
inductive Iterates (codec : Codec) (start : RecordViewer) : RecordViewer → Prop
  | reset : Iterates codec start start.reset
  | fill {v v'} : Iterates codec start v → Returns (fun fuel => fillBuffer codec fuel v) v' → Iterates codec start v'
  | take {v} : Iterates codec start v → Iterates codec start { v with msgBuffer := v.msgBuffer.tail }

variable {codec : Codec} {v : RecordViewer} {r : RecordReader} {beginTime endTime : UInt64}

/-- A call of `ReadMessage` that gives a message of the time range, after which another one follows. -/
def PullRound (codec : Codec) (beginTime endTime : UInt64) (r r' : RecordReader) : Prop :=
  ∃ m, Returns (fun fuel => readMessage codec beginTime endTime fuel r) (some m, r')

def InRound (v : RecordViewer) : Prop := v.currBeginTime ≤ v.endTime ∧ v.msgBuffer.length < v.bufferMinSize

/-- A round of `FillBuffer`. -/
def FillRound (codec : Codec) (v v' : RecordViewer) : Prop :=
  v.InRound ∧ ∃ readers msgBuffer, Returns (fun fuel => pullAll codec v.currBeginTime v.thisEndTime fuel
      (v.readers.map (finish v.currBeginTime)) v.msgBuffer) (readers, msgBuffer) ∧
    v' = { v with readers, msgBuffer, currBeginTime := v.thisEndTime+1 }

/-- No call of `ReadMessage` that a call of `FillBuffer` makes skips a chunk body of negative size. -/
def SkipsForward (codec : Codec) (v : RecordViewer) : Prop :=
  ∀ w, ReflTransGen (FillRound codec) v w → w.InRound → ∀ entry ∈ w.readers.map (finish w.currBeginTime),
    entry.2 = false → ∀ r, ReflTransGen (PullRound codec w.currBeginTime w.thisEndTime) entry.1 r →
      RecordReader.SkipsForward codec w.currBeginTime w.thisEndTime r

variable {fuel : Nat} {entry : RecordReader × Bool} {readers : List (RecordReader × Bool)}
  {buffer : List RecordMessage}

theorem pull_returns (h : ∀ r', ReflTransGen (PullRound codec beginTime endTime) r r' →
      RecordReader.SkipsForward codec beginTime endTime r') (buffer : List RecordMessage) :
    ∃ out, Returns (fun fuel => pull codec beginTime endTime fuel r buffer) out := by
  induction hn : r.rank using WellFoundedLT.induction generalizing r buffer with
  | _ rank ih =>
    obtain ⟨m,r',hreturns,-,hlt⟩ := readMessage_returns (h r .refl)
    cases m with
    | none => exact ⟨(r', buffer),hreturns.round (fun _ => rfl) (returns_const _)⟩
    | some m =>
      obtain ⟨out,hpull⟩ := ih r'.rank (hn ▸ hlt rfl) (fun r'' hr => h r'' (hr.head ⟨m,hreturns⟩))
        (Multimap.emplace RecordMessage.time m buffer) rfl
      exact ⟨out,hreturns.round (fun _ => rfl) hpull⟩

theorem pullAll_returns (h : ∀ entry ∈ readers, entry.2 = false → ∀ r,
      ReflTransGen (PullRound codec beginTime endTime) entry.1 r → RecordReader.SkipsForward codec beginTime endTime r)
    (buffer : List RecordMessage) : ∃ out, Returns (fun fuel => pullAll codec beginTime endTime fuel readers buffer) out := by
  induction readers generalizing buffer with
  | nil => exact ⟨([], buffer),returns_const _⟩
  | cons entry _ ih =>
    obtain ⟨r,finished⟩ := entry
    obtain ⟨hr,hreaders⟩ := forall_mem_cons.mp h
    obtain ⟨⟨r',buffer'⟩,hpull⟩ : ∃ out,
        Returns (fun fuel => if finished then some (r, buffer) else pull codec beginTime endTime fuel r buffer) out := by
      cases finished with
      | true => exact ⟨(r, buffer),returns_const _⟩
      | false => exact pull_returns (hr rfl) buffer
    obtain ⟨out,hrest⟩ := ih hreaders buffer'
    exact ⟨_,hpull.bind (hrest.map _)⟩

/-- A call of `FillBuffer` ends, and its windows are adjacent. -/
theorem fillBuffer_adjacent (hroom : v.Room) (hskips : v.SkipsForward codec) :
    ∃ windows v', Returns (fun fuel => fillWindows codec fuel v) windows ∧
      Returns (fun fuel => fillBuffer codec fuel v) v' ∧ Adjacent v.endTime v.currBeginTime windows v'.currBeginTime := by
  -- the windows that are still to come become fewer
  induction hn : v.endTime.toNat+1 - v.currBeginTime.toNat using Nat.strong_induction_on generalizing v with
  | _ n ih =>
    by_cases hround : v.InRound
    · obtain ⟨hbegin,hend⟩ := thisEndTime_bounds hroom hround.1
      have hsucc := toNat_thisEndTime_succ hroom hround.1
      obtain ⟨⟨readers,msgBuffer⟩,hpull⟩ := pullAll_returns (hskips v .refl hround) v.msgBuffer
      have hless : v.endTime.toNat+1 - (v.thisEndTime+1).toNat < n := by
        rw [UInt64.le_iff_toNat_le] at hbegin hend
        omega
      obtain ⟨windows,v',hwindows,hfill,hadjacent⟩ :=
        ih _ hless (v := { v with readers, msgBuffer, currBeginTime := v.thisEndTime+1 })
          (hroom.next hround.1 readers msgBuffer)
          (fun w hw => hskips w (hw.head ⟨hround,readers,msgBuffer,hpull,rfl⟩)) rfl
      exact ⟨_,v',hpull.round (fun _ => if_pos hround) (hwindows.map _),
        hpull.round (fun _ => if_pos hround) hfill,.cons hbegin hend hsucc hadjacent⟩
    · refine ⟨[],v,Returns.succ (returns_const []) fun fuel => ?_,Returns.succ (returns_const v) fun _ => ?_,.nil⟩
      · exact if_neg hround
      · exact if_neg hround

theorem fillBuffer_room (hroom : v.Room) {v' : RecordViewer} (h : fillBuffer codec fuel v = some v') : v'.Room := by
  induction fuel generalizing v with
  | zero => cases h
  | succ _ ih =>
    rw [fillBuffer] at h
    split at h
    case isTrue hround =>
      obtain ⟨⟨readers,msgBuffer⟩,-,h⟩ := bind_eq_some_iff.mp h
      exact ih (hroom.next hround.1 readers msgBuffer) h
    case isFalse =>
      cases h
      exact hroom

theorem Iterates.room {start : RecordViewer} (hroom : start.reset.Room) (h : Iterates codec start v) : v.Room := by
  induction h with
  | reset => exact hroom
  | fill _ hreturns ih =>
    obtain ⟨fuel,hfuel⟩ := hreturns
    exact fillBuffer_room ih (hfuel fuel le_rfl)
  | take _ ih => exact ih

/-- The windows of each call of `FillBuffer` lie in the time range and follow one another, also from call to
call. -/
theorem windows_adjacent {readers : List RecordReader} {channels : List String}
    (hroom : (new readers beginTime endTime channels).Room)
    (h : Iterates codec (new readers beginTime endTime channels) v) (hskips : v.SkipsForward codec) :
    ∃ windows v', Returns (fun fuel => fillWindows codec fuel v) windows ∧
      Returns (fun fuel => fillBuffer codec fuel v) v' ∧
        Adjacent v.endTime v.currBeginTime windows v'.currBeginTime :=
  have hreset : (new readers beginTime endTime channels).reset.Room := hroom
  fillBuffer_adjacent (h.room hreset) hskips

structure Silent (r : RecordReader) : Prop where
  chunk : r.chunk = []
  length : r.fileReader.file.length ≤ sectionLength+headerLength
  position : sectionLength+headerLength ≤ r.fileReader.position

theorem Silent.reset (h : r.fileReader.file.length ≤ sectionLength+headerLength) : Silent r.reset := ⟨rfl,h,le_rfl⟩

theorem Silent.readSection (h : Silent r) : r.fileReader.readSection = (none, r.fileReader) := by
  have hdrop := drop_eq_nil_of_le (h.length.trans h.position)
  rw [RecordFileReader.readSection,hdrop,take_nil,if_neg (by decide)]
  rfl

theorem Silent.finish (h : Silent entry.1) : Silent (finish beginTime entry).1 := by
  rw [RecordViewer.finish]
  split
  case isTrue => exact .reset h.length
  case isFalse => exact h

theorem Silent.nextChunk (h : Silent r) {skip : Bool} {out : Bool × RecordReader}
    (hout : nextChunk codec beginTime endTime fuel skip r = some out) : out.1 = false ∧ Silent out.2 := by
  cases fuel with
  | zero => cases hout
  | succ =>
    rw [RecordReader.nextChunk,h.readSection] at hout
    split at hout
    all_goals
      cases hout
      exact ⟨rfl,h⟩

theorem Silent.readMessage (h : Silent r) {out : Option RecordMessage × RecordReader}
    (hout : readMessage codec beginTime endTime fuel r = some out) : out.1 = none ∧ Silent out.2 := by
  cases fuel with
  | zero => cases hout
  | succ =>
    have hscan (i : Nat) : scan beginTime endTime (r.chunk.drop i) i = (none, i) := by
      rw [h.chunk,drop_nil,scan]
    rw [RecordReader.readMessage,hscan] at hout
    split at hout
    case isTrue =>
      cases hout
      exact ⟨rfl,h⟩
    case isFalse =>
      split at hout
      case isTrue =>
        cases hout
        exact ⟨rfl,h⟩
      case isFalse =>
        obtain ⟨⟨_,_⟩,hnext,hout⟩ := bind_eq_some_iff.mp hout
        obtain ⟨rfl,hsilent⟩ := h.nextChunk hnext
        cases hout
        exact ⟨rfl,hsilent⟩

theorem Silent.pull (h : Silent r) {out : RecordReader × List RecordMessage}
    (hout : pull codec beginTime endTime fuel r buffer = some out) : Silent out.1 ∧ out.2 = buffer := by
  cases fuel with
  | zero => cases hout
  | succ =>
    obtain ⟨⟨m,_⟩,hread,hout⟩ := bind_eq_some_iff.mp hout
    obtain ⟨rfl,hsilent⟩ := h.readMessage hread
    cases hout
    exact ⟨hsilent,rfl⟩

theorem pullAll_silent (h : ∀ entry ∈ readers, Silent entry.1) {out : List (RecordReader × Bool) × List RecordMessage}
    (hout : pullAll codec beginTime endTime fuel readers buffer = some out) :
    (∀ entry ∈ out.1, Silent entry.1) ∧ out.2 = buffer := by
  induction readers generalizing buffer out with
  | nil =>
    cases hout
    exact ⟨h,rfl⟩
  | cons entry _ ih =>
    obtain ⟨r,finished⟩ := entry
    obtain ⟨hr,hreaders⟩ := forall_mem_cons.mp h
    obtain ⟨⟨r',buffer'⟩,hpull,hout⟩ := bind_eq_some_iff.mp hout
    obtain ⟨⟨_,_⟩,hrest,rfl⟩ := map_eq_some_iff.mp hout
    obtain ⟨hsilent,rfl⟩ : Silent r' ∧ buffer' = buffer := by
      cases finished with
      | true =>
        cases hpull
        exact ⟨hr,rfl⟩
      | false => exact hr.pull hpull
    obtain ⟨hsilents,rfl⟩ := ih hreaders hrest
    exact ⟨forall_mem_cons.mpr ⟨hsilent,hsilents⟩,rfl⟩

theorem Silent.skipsForward (h : Silent r) : RecordReader.SkipsForward codec beginTime endTime r := by
  intro _ hs
  induction hs with
  | @loop r _ s _ _ _ hrounds =>
    rcases hrounds.cases_head with rfl | ⟨_,hround,-⟩
    · exact nofun
    · have hsection := h.readSection
      cases hround with
      | index _ hsec | channel _ hsec | chunkHeader _ hsec => cases hsection.symm.trans hsec
  | @again r i _ _ _ _ _ hreturns =>
    obtain ⟨fuel,hfuel⟩ := hreturns
    have hsilent : Silent { r with messageIndex := i } := ⟨h.chunk,h.length,h.position⟩
    cases (hsilent.nextChunk (hfuel fuel le_rfl)).1

/-- Readers without messages have nothing to skip. -/
theorem skipsForward_silent (hreaders : ∀ entry ∈ v.readers, Silent entry.1) : v.SkipsForward codec := by
  have hfinish {w : RecordViewer} (hw : ∀ entry ∈ w.readers, Silent entry.1) :
      ∀ entry ∈ w.readers.map (RecordViewer.finish w.currBeginTime), Silent entry.1 := by
    intro entry hentry
    obtain ⟨entry,hmem,rfl⟩ := mem_map.mp hentry
    exact (hw entry hmem).finish
  have hrounds {w : RecordViewer} (hw : ReflTransGen (FillRound codec) v w) : ∀ entry ∈ w.readers, Silent entry.1 := by
    induction hw with
    | refl => exact hreaders
    | tail _ hround ih =>
      obtain ⟨-,readers,msgBuffer,⟨fuel,hfuel⟩,rfl⟩ := hround
      exact (pullAll_silent (hfinish ih) (hfuel fuel le_rfl)).1
  intro w hw _ entry hentry _ r hpulls
  have hsilent : Silent entry.1 := hfinish (hrounds hw) entry hentry
  rcases hpulls.cases_head with rfl | ⟨_,⟨_,fuel,hfuel⟩,-⟩
  · exact hsilent.skipsForward
  · cases (hsilent.readMessage (hfuel fuel le_rfl)).1

theorem fillBuffer_endless (hreaders : ∀ entry ∈ v.readers, Silent entry.1) (hend : v.endTime = lastTime)
    (hbuffer : v.msgBuffer = []) (hsize : 0 < v.bufferMinSize) (fuel : Nat) : fillBuffer codec fuel v = none := by
  induction fuel generalizing v with
  | zero => rfl
  | succ _ ih =>
    have hround : v.currBeginTime ≤ v.endTime ∧ v.msgBuffer.length < v.bufferMinSize := by
      rw [hend,hbuffer]
      exact ⟨le_lastTime _,hsize⟩
    rw [fillBuffer,if_pos hround,bind_eq_none_iff]
    intro _ hout
    have hfinish : ∀ entry ∈ v.readers.map (RecordViewer.finish v.currBeginTime), Silent entry.1 := by
      intro entry hentry
      obtain ⟨entry,hmem,rfl⟩ := mem_map.mp hentry
      exact (hreaders entry hmem).finish
    obtain ⟨hsilents,hsame⟩ := pullAll_silent hfinish hout
    exact ih hsilents hend (hsame.trans hbuffer) hsize

theorem new_singleton (hvalid : r.isValid) : new [r] 0 lastTime [] =
    { beginTime := r.header.getBeginTime, endTime := r.header.getEndTime, channels := [], readers := [(r, false)],
      currBeginTime := r.header.getBeginTime, stepTimeNanoSec := 1000000000, bufferMinSize := 128 } := by
  have hmin : (if lastTime > r.header.getBeginTime then r.header.getBeginTime else lastTime) =
      r.header.getBeginTime := by
    split
    case isTrue => rfl
    case isFalse h => exact UInt64.le_antisymm (UInt64.not_lt.mp h) (le_lastTime _)
  have hzero (time : UInt64) : (if 0 < time then time else 0) = time := by
    split
    case isTrue => rfl
    case isFalse h => exact (UInt64.le_zero_iff.mp (UInt64.not_lt.mp h)).symm
  have hmax : (if lastTime > r.header.getEndTime then r.header.getEndTime else lastTime) = r.header.getEndTime := by
    split
    case isTrue => rfl
    case isFalse h => exact UInt64.le_antisymm (UInt64.not_lt.mp h) (le_lastTime _)
  simp only [new,init,map_cons,map_nil,mergeSort_singleton,updateTime,minBeginTime,maxEndTime,
    foldl_cons,foldl_nil,hvalid,true_and,hmin,hzero,hmax]

/-- A serialisation in which all messages take two bytes, for headers at the largest time. -/
def lateCodec : Codec where
  serialize _ _ := [0,0]
  parse
    | .header, _, _ => ⟨true,{ beginTime := some lastTime, endTime := some lastTime },2⟩
    | t, _, _ => ⟨true,t.fresh,2⟩

def headerReader (codec : Codec) : RecordReader := openFile codec (codec.headerOf {})

theorem headerReader_silent (hfile : (headerReader codec).fileReader.file = codec.headerOf {})
    (hfit : (codec.serialize .header {}).length ≤ headerLength) : Silent (headerReader codec).reset := by
  refine .reset ?_
  rw [hfile,Codec.length_headerOf hfit]

theorem windows_adjacent_header :
    ∃ windows v', Returns (fun fuel => fillWindows twoBytes fuel (new [headerReader twoBytes] 0 lastTime []).reset) windows ∧
      Returns (fun fuel => fillBuffer twoBytes fuel (new [headerReader twoBytes] 0 lastTime []).reset) v' ∧
        Adjacent 5 0 windows v'.currBeginTime := by
  have hnew := new_singleton (r := headerReader twoBytes) rfl
  have hroom : (new [headerReader twoBytes] 0 lastTime []).Room := by
    rw [hnew]
    refine ⟨by decide,fun k hk => ?_⟩
    change 0+k*(1000000000+1) ≤ 5 at hk
    change 0+k*(1000000000+1)+1000000000 < 2^64
    omega
  have hskips : (new [headerReader twoBytes] 0 lastTime []).reset.SkipsForward twoBytes :=
    skipsForward_silent fun entry hentry => by
      rw [hnew] at hentry
      rw [mem_singleton.mp hentry]
      exact headerReader_silent rfl (by decide)
  have hresult := windows_adjacent hroom .reset hskips
  rw [hnew] at hresult ⊢
  exact hresult

/-- The first window of a file at the largest time wraps, and the call of `FillBuffer` does not end. -/
theorem fillBuffer_wraps : (headerReader lateCodec).isValid ∧
    ∃ v, v = (new [headerReader lateCodec] 0 lastTime []).reset ∧ v.currBeginTime ≤ v.endTime ∧
      v.thisEndTime < v.currBeginTime ∧ ∀ fuel, fillBuffer lateCodec fuel v = none := by
  refine ⟨rfl,_,rfl,?_⟩
  rw [new_singleton (r := headerReader lateCodec) rfl]
  refine ⟨by decide,by decide,fillBuffer_endless ?_ rfl rfl (by decide)⟩
  intro _ hentry
  rw [mem_singleton.mp hentry]
  exact headerReader_silent rfl (by decide)

end RecordViewer
end Apollo.Cyber.Record
