import Apollo.Cyber.Record.RecordFileWriter

/-! The times in the headers that the writer makes. A time of 0 stands for no time. -/
namespace Apollo.Cyber.Record
open Foundation List ChunkHeader Item

theorem ChunkHeader.le_endTime_of {body : ChunkBody} {m : SingleMessage} (hm : m ∈ body) :
    m.getTime ≤ (of body).endTime := by
  induction body using List.reverseRecOn with
  | nil => cases hm
  | append_singleton _ _ ih =>
    rw [of_append]
    simp only [add]
    rcases mem_append.mp hm with hm | hm
    · split
      case isTrue hlt => exact UInt64.le_trans (ih hm) (UInt64.le_of_lt hlt)
      case isFalse => exact ih hm
    · rw [mem_singleton.mp hm]
      split
      case isTrue => exact UInt64.le_refl _
      case isFalse hlt => exact UInt64.not_lt.mp hlt

theorem ChunkHeader.add_beginTime (header : ChunkHeader) (m : SingleMessage) : (header.add m).beginTime =
      if header.beginTime = 0 ∨ m.getTime < header.beginTime then m.getTime else header.beginTime := by
  simp only [add]
  by_cases hzero : header.beginTime = 0 <;> simp [hzero]

theorem ChunkHeader.beginTime_of {body : ChunkBody} (hpos : ∀ m ∈ body, m.getTime ≠ 0) :
    (body ≠ [] → (of body).beginTime ≠ 0) ∧ ∀ m ∈ body, (of body).beginTime ≤ m.getTime := by
  induction body using List.reverseRecOn with
  | nil => exact ⟨fun h => absurd rfl h,by simp⟩
  | append_singleton _ x ih =>
    obtain ⟨hne,hle⟩ := ih fun m hm => hpos m (mem_append_left _ hm)
    have hx : x.getTime ≠ 0 := hpos x (by simp)
    rw [of_append,add_beginTime]
    split
    case isTrue hnew =>
      refine ⟨fun _ => hx,fun m hm => ?_⟩
      rcases mem_append.mp hm with hm | hm
      · rcases hnew with hzero | hlt
        · exact absurd hzero (hne (ne_nil_of_mem hm))
        · exact UInt64.le_trans (UInt64.le_of_lt hlt) (hle m hm)
      · rw [mem_singleton.mp hm]
        exact UInt64.le_refl _
    case isFalse hold =>
      obtain ⟨hzero,hlt⟩ := not_or.mp hold
      refine ⟨fun _ => hzero,fun m hm => ?_⟩
      rcases mem_append.mp hm with hm | hm
      · exact hle m hm
      · rw [mem_singleton.mp hm]
        exact UInt64.not_lt.mp hlt

namespace RecordFileWriter
variable {codec : Codec} {s t : State} {e : Event}

def State.Begins (s : State) : Prop :=
  s.header.getBeginTime = 0 → ∀ item ∈ s.items, item.Meets fun header _ => header.beginTime = 0

theorem State.Begins.of_eq (h : s.Begins) (hheader : t.header.beginTime = s.header.beginTime)
    (hitems : t.items = s.items) : t.Begins := by
  rw [Begins,Header.getBeginTime,hheader,hitems]
  exact h

theorem State.Begins.writeChunk (h : s.Begins) (chunk : Chunk) : (s.writeChunk codec chunk).Begins := by
  intro hzero item hitem
  change (if s.header.getBeginTime = 0 then some chunk.header.beginTime else s.header.beginTime).getD 0 = 0 at hzero
  by_cases hold : s.header.getBeginTime = 0
  · rw [if_pos hold] at hzero
    rcases mem_append.mp hitem with hitem | hitem
    · exact h hold item hitem
    · rw [mem_singleton.mp hitem]
      exact hzero
  · rw [if_neg hold] at hzero
    exact absurd hzero hold

theorem State.Begins.step (h : s.Begins) (he : s.step codec e = some t) : t.Begins := by
  cases step_transition he with
  | writeChunk => exact (h.writeChunk s.flush).of_eq rfl rfl
  | writeChannel =>
    intro hzero item hitem
    rcases mem_append.mp hitem with hitem | hitem
    · exact h hzero item hitem
    · rw [mem_singleton.mp hitem]
      trivial
  | writeMessage | close | swap | drained | lastSwap | flushed | stop | joined | writeIndex | writeHeader
    | clear | loop => exact h.of_eq rfl rfl

theorem begins (h : (system codec).Reachable s) : s.Begins := by
  refine h.invariant ?_ fun s e t hi (he : s.step codec e = some t) => hi.step he
  rintro s ⟨_,_,_,_,rfl⟩ _ _ hitem
  cases hitem

/-- If no message is before the begin of the file, the chunk headers bound their messages. -/
theorem closed_bounded (h : (system codec).ReachableWhile (fun s e => s.Serializes codec e ∧ e.Filled codec) s)
    (hpc : s.pc = .closed)
    (hbegin : ∀ m ∈ s.items.flatMap messages, s.header.getBeginTime ≤ m.getTime) :
    ∃ header, Holds codec Bounded s.file header s.items ∧
      header.getBeginTime = s.header.getBeginTime ∧ header.getEndTime = s.header.getEndTime := by
  obtain ⟨header,hholds,htimes⟩ := (sound h).holds hpc
  refine ⟨header,⟨hholds.bytes,hholds.size,hholds.header,fun item hitem => ?_⟩,htimes⟩
  obtain ⟨hrt,hmade⟩ := hholds.items item hitem
  refine ⟨hrt,?_⟩
  cases item with
  | channel => trivial
  | chunk header body =>
    obtain ⟨hne,rfl⟩ := hmade
    refine ⟨hne,fun m hm => ⟨?_,le_endTime_of hm⟩⟩
    by_cases hzero : s.header.getBeginTime = 0
    · have hchunk : (of body).beginTime = 0 := begins h.reachable hzero _ hitem
      rw [hchunk]
      exact UInt64.zero_le
    · refine (beginTime_of fun x hx hx0 => hzero ?_).2 m hm
      have hle := hbegin x (mem_flatMap.mpr ⟨_,hitem,hx⟩)
      rw [hx0] at hle
      exact UInt64.le_zero_iff.mp hle

end RecordFileWriter

open Option
def ChunkBody.times (body : ChunkBody) : Set UInt64 := {time | ∃ m ∈ body, m.getTime = time}

/-- The counts and the end are right. -/
structure ChunkHeader.Counts (header : ChunkHeader) (body : ChunkBody) : Prop where
  messageNumber : header.messageNumber = body.length
  rawSize : header.rawSize = (body.map fun m => m.getContent.length).sum
  endTime : IsGreatest (ChunkBody.times body) header.endTime

namespace ChunkHeader

theorem rawSize_of (body : ChunkBody) : (of body).rawSize = (body.map fun m => m.getContent.length).sum := by
  induction body using List.reverseRecOn with
  | nil => rfl
  | append_singleton _ _ ih =>
    rw [of_append,map_append,sum_append,map_singleton,sum_singleton,← ih]
    rfl

variable {body : ChunkBody}

theorem endTime_mem_times (hne : body ≠ []) : (of body).endTime ∈ ChunkBody.times body := by
  induction body using List.reverseRecOn with
  | nil => exact absurd rfl hne
  | append_singleton body x ih =>
    rw [of_append]
    simp only [add]
    split
    case isTrue => exact ⟨x,by simp,rfl⟩
    case isFalse hlt =>
      by_cases hbody : body = []
      · -- no time is below the first end, which is 0
        subst hbody
        refine ⟨x,by simp,?_⟩
        exact UInt64.le_zero_iff.mp (UInt64.not_lt.mp hlt)
      · obtain ⟨m,hm,htime⟩ := ih hbody
        exact ⟨m,mem_append_left _ hm,htime⟩

theorem beginTime_mem_times (hne : body ≠ []) (hpos : ∀ m ∈ body, m.getTime ≠ 0) :
    (of body).beginTime ∈ ChunkBody.times body := by
  induction body using List.reverseRecOn with
  | nil => exact absurd rfl hne
  | append_singleton body x ih =>
    rw [of_append,add_beginTime]
    split
    case isTrue => exact ⟨x,by simp,rfl⟩
    case isFalse hold =>
      have hbody : body ≠ [] := by
        rintro rfl
        exact hold (.inl rfl)
      obtain ⟨m,hm,htime⟩ := ih hbody fun m hm => hpos m (mem_append_left _ hm)
      exact ⟨m,mem_append_left _ hm,htime⟩

theorem counts_of (hne : body ≠ []) : (of body).Counts body where
  messageNumber := messageNumber_of body
  rawSize := rawSize_of body
  endTime := by
    refine ⟨endTime_mem_times hne,?_⟩
    rintro _ ⟨m,hm,rfl⟩
    exact le_endTime_of hm

/-- The begin is 0 exactly if the last message has this time. -/
theorem beginTime_eq_zero_iff (hne : body ≠ []) : (of body).beginTime = 0 ↔ ∀ m ∈ body.getLast?, m.getTime = 0 := by
  obtain ⟨front,x,rfl⟩ := (eq_nil_or_concat' body).resolve_left hne
  rw [of_append,add_beginTime,getLast?_concat]
  split
  case isTrue => simp
  case isFalse hold =>
    obtain ⟨hzero,hlt⟩ := not_or.mp hold
    refine iff_of_false hzero fun h => hlt ?_
    rw [h x rfl]
    exact UInt64.pos_iff_ne_zero.mpr hzero

end ChunkHeader

def Item.chunk? : Item → Option (ChunkHeader × ChunkBody)
  | .channel _ => none
  | .chunk header body => some (header, body)

namespace RecordFileWriter
variable {codec : Codec} {s t : State} {e : Event}

def State.chunks (s : State) : List (ChunkHeader × ChunkBody) := s.items.filterMap chunk?

/-- How the header follows the chunks of the file, if it has no begin before the first chunk. -/
structure State.Spans (s : State) : Prop where
  zero : (∀ chunk ∈ s.chunks, chunk.1.beginTime = 0) → s.header.getBeginTime = 0
  beginTime : ∀ first ∈ s.chunks.head?, first.1.beginTime ≠ 0 → s.header.getBeginTime = first.1.beginTime
  endTime : ∀ last ∈ s.chunks.getLast?, s.header.getEndTime = last.1.endTime

theorem State.Spans.of_eq (h : s.Spans) (hbegin : t.header.beginTime = s.header.beginTime)
    (hend : t.header.endTime = s.header.endTime) (hchunks : t.chunks = s.chunks) : t.Spans := by
  have hbegin' : t.header.getBeginTime = s.header.getBeginTime := congrArg (Option.getD · 0) hbegin
  have hend' : t.header.getEndTime = s.header.getEndTime := congrArg (Option.getD · 0) hend
  refine ⟨?_,?_,?_⟩
  · rw [hchunks,hbegin']
    exact h.zero
  · rw [hchunks,hbegin']
    exact h.beginTime
  · rw [hchunks,hend']
    exact h.endTime

theorem State.chunks_writeChunk (codec : Codec) (s : State) (chunk : Chunk) :
    (s.writeChunk codec chunk).chunks = s.chunks ++ [(chunk.header, chunk.body)] := filterMap_append

theorem State.chunks_writeChannel (channel : Channel) : (s.writeChannel codec channel).chunks = s.chunks :=
  filterMap_append.trans (append_nil _)

theorem State.Spans.writeChunk (h : s.Spans) (chunk : Chunk) : (s.writeChunk codec chunk).Spans := by
  have hbegin : (s.writeChunk codec chunk).header.getBeginTime =
      if s.header.getBeginTime = 0 then chunk.header.beginTime else s.header.getBeginTime := by
    change (if s.header.getBeginTime = 0 then some chunk.header.beginTime else s.header.beginTime).getD 0 = _
    split <;> rfl
  refine ⟨?_,?_,?_⟩
  · intro hzero
    simp only [State.chunks_writeChunk,forall_mem_append,forall_mem_singleton] at hzero
    rw [hbegin,if_pos (h.zero hzero.1),hzero.2]
  · intro first hfirst hne
    rw [hbegin]
    rw [State.chunks_writeChunk] at hfirst
    cases hchunks : s.chunks with rw [hchunks] at hfirst
    | nil =>
      cases hfirst
      rw [if_pos (h.zero (by simp [hchunks]))]
    | cons =>
      cases hfirst
      have hold : s.header.getBeginTime = first.1.beginTime := h.beginTime first (by rw [hchunks]; rfl) hne
      rw [hold,if_neg hne]
  · intro _ hlast
    rw [State.chunks_writeChunk,getLast?_concat] at hlast
    cases hlast
    rfl

theorem State.Spans.step (h : s.Spans) (he : s.step codec e = some t) : t.Spans := by
  cases step_transition he with
  | writeChunk => exact (h.writeChunk s.flush).of_eq rfl rfl rfl
  | writeChannel channel => exact h.of_eq rfl rfl (State.chunks_writeChannel channel)
  | writeMessage | close | swap | drained | lastSwap | flushed | stop | joined | writeIndex | writeHeader
    | clear | loop => exact h.of_eq rfl rfl rfl

/-- The chunks in the file have messages, and headers made of them. -/
def State.Keeps (s : State) : Prop := s.Stage ∧ ∀ chunk ∈ s.chunks, State.Made chunk.1 chunk.2

theorem State.Keeps.step (h : s.Keeps) (he : s.step codec e = some t) : t.Keeps := by
  refine ⟨h.1.step he,?_⟩
  cases step_transition he with
  | writeChunk hphase =>
    intro chunk hchunk
    have hchunk : chunk ∈ s.chunks ++ [(s.flush.header, s.flush.body)] :=
      State.chunks_writeChunk codec s s.flush ▸ hchunk
    rcases mem_append.mp hchunk with hchunk | hchunk
    · exact h.2 chunk hchunk
    · rw [mem_singleton.mp hchunk]
      exact ⟨h.1.filled hphase,s.flush.made⟩
  | writeChannel =>
    rw [State.chunks_writeChannel]
    exact h.2
  | writeMessage | close | swap | drained | lastSwap | flushed | stop | joined | writeIndex | writeHeader
    | clear | loop => exact h.2

/-- Each chunk ends with a message at time 0, or no message has this time and an earliest one is in the first chunk. A
latest one is in the last chunk. -/
def TimesFit (bodies : List ChunkBody) : Prop :=
  ((∀ body ∈ bodies, ∀ m ∈ body.getLast?, m.getTime = 0) ∨ (∀ body ∈ bodies, ∀ m ∈ body, m.getTime ≠ 0) ∧
    ∀ first ∈ bodies.head?, ∃ x ∈ first, ∀ body ∈ bodies, ∀ m ∈ body, x.getTime ≤ m.getTime) ∧
  ∀ last ∈ bodies.getLast?, ∃ x ∈ last, ∀ body ∈ bodies, ∀ m ∈ body, m.getTime ≤ x.getTime

section
variable (h : s.Spans) (hkeeps : s.Keeps)
include h hkeeps

theorem State.Spans.getEndTime {last : ChunkHeader × ChunkBody} (hlast : last ∈ s.chunks.getLast?) :
    IsGreatest (ChunkBody.times last.2) s.header.getEndTime := by
  obtain ⟨hne,hmade⟩ := hkeeps.2 last (mem_of_getLast? hlast)
  rw [h.endTime last hlast,hmade]
  exact (counts_of hne).endTime

/-- Where no message has the time 0, the header begins with the first chunk. -/
theorem State.Spans.getBeginTime {first : ChunkHeader × ChunkBody} (hfirst : first ∈ s.chunks.head?)
    (hpos : ∀ m ∈ first.2, m.getTime ≠ 0) : IsLeast (ChunkBody.times first.2) s.header.getBeginTime := by
  obtain ⟨hne,hmade⟩ := hkeeps.2 first (mem_of_mem_head? hfirst)
  obtain ⟨hzero,hle⟩ := beginTime_of hpos
  rw [h.beginTime first hfirst (hmade ▸ hzero hne),hmade]
  refine ⟨beginTime_mem_times hne hpos,?_⟩
  rintro _ ⟨m,hm,rfl⟩
  exact hle m hm

theorem State.Spans.timesFit (hbegins : s.Begins)
    (hbounds : ∀ chunk ∈ s.chunks, ∀ m ∈ chunk.2,
      s.header.getBeginTime ≤ m.getTime ∧ m.getTime ≤ s.header.getEndTime) : TimesFit (s.chunks.map Prod.snd) := by
  simp only [TimesFit,head?_map,getLast?_map,List.forall_mem_map,Option.forall_mem_map]
  constructor
  · by_cases hzero : ∃ chunk ∈ s.chunks, ∃ m ∈ chunk.2, m.getTime = 0
    · obtain ⟨chunk,hchunk,m,hm,htime⟩ := hzero
      have hbegin : s.header.getBeginTime = 0 := UInt64.le_zero_iff.mp (htime ▸ (hbounds chunk hchunk m hm).1)
      refine .inl fun chunk hchunk => ?_
      obtain ⟨hne,hmade⟩ := hkeeps.2 chunk hchunk
      obtain ⟨item,hitem,heq⟩ := mem_filterMap.mp hchunk
      cases item with
      | channel => cases heq
      | chunk =>
        cases heq
        have hmeets : _ = (0 : UInt64) := hbegins hbegin _ hitem
        exact (beginTime_eq_zero_iff hne).mp (hmade ▸ hmeets)
    · push Not at hzero
      refine .inr ⟨hzero,fun first hfirst => ?_⟩
      obtain ⟨⟨x,hx,htime⟩,-⟩ := h.getBeginTime hkeeps hfirst (hzero first (mem_of_mem_head? hfirst))
      exact ⟨x,hx,fun chunk hchunk m hm => htime ▸ (hbounds chunk hchunk m hm).1⟩
  · intro last hlast
    obtain ⟨⟨x,hx,htime⟩,-⟩ := h.getEndTime hkeeps hlast
    exact ⟨x,hx,fun chunk hchunk m hm => htime ▸ (hbounds chunk hchunk m hm).2⟩

theorem State.Spans.bounds (hfit : TimesFit (s.chunks.map Prod.snd)) {chunk : ChunkHeader × ChunkBody}
    (hchunk : chunk ∈ s.chunks) : IsLeast (ChunkBody.times chunk.2) chunk.1.beginTime ∧
      ∀ m ∈ chunk.2, s.header.getBeginTime ≤ m.getTime ∧ m.getTime ≤ s.header.getEndTime := by
  simp only [TimesFit,head?_map,getLast?_map,List.forall_mem_map,Option.forall_mem_map] at hfit
  obtain ⟨hbegin,hend⟩ := hfit
  obtain ⟨hne,hmade⟩ := hkeeps.2 chunk hchunk
  have hchunks := ne_nil_of_mem hchunk
  obtain ⟨x,hx,hle⟩ := hend _ (getLast?_eq_some_getLast hchunks)
  have hlast (m : SingleMessage) (hm : m ∈ chunk.2) : m.getTime ≤ s.header.getEndTime :=
    UInt64.le_trans (hle chunk hchunk m hm) ((h.getEndTime hkeeps (getLast?_eq_some_getLast hchunks)).2 ⟨x,hx,rfl⟩)
  rcases hbegin with hzero | ⟨hpos,hfirst⟩
  · have hbegins (c : ChunkHeader × ChunkBody) (hc : c ∈ s.chunks) : c.1.beginTime = 0 := by
      obtain ⟨hne,hmade⟩ := hkeeps.2 c hc
      rw [hmade]
      exact (beginTime_eq_zero_iff hne).mpr (hzero c hc)
    rw [hbegins chunk hchunk,h.zero hbegins]
    have hmem := getLast?_eq_some_getLast hne
    exact ⟨⟨⟨_,mem_of_getLast? hmem,hzero chunk hchunk _ hmem⟩,fun _ _ => UInt64.zero_le⟩,
      fun m hm => ⟨UInt64.zero_le,hlast m hm⟩⟩
  · obtain ⟨x,hx,hle⟩ := hfirst _ (head?_eq_some_head hchunks)
    have hleast := h.getBeginTime hkeeps (head?_eq_some_head hchunks) (hpos _ (head_mem hchunks))
    refine ⟨⟨hmade ▸ beginTime_mem_times hne (hpos chunk hchunk),?_⟩,fun m hm =>
      ⟨UInt64.le_trans (hleast.2 ⟨x,hx,rfl⟩) (hle chunk hchunk m hm),hlast m hm⟩⟩
    rintro _ ⟨m,hm,rfl⟩
    exact hmade ▸ (beginTime_of (hpos chunk hchunk)).2 m hm

end

/-- The headers of the chunks have their least time, and the header of the file bounds all messages, exactly if the
times of the chunks fit. The counts and the ends are right in any case. -/
theorem statistics_iff {old : List UInt8} {header : Header} {events : List Event} (hbegin : header.getBeginTime = 0)
    (h : (system codec).exec (State.opened codec old header) events = some s) :
    (∀ chunk ∈ s.chunks, chunk.1.Counts chunk.2) ∧
      ((∀ chunk ∈ s.chunks, IsLeast (ChunkBody.times chunk.2) chunk.1.beginTime ∧
        ∀ m ∈ chunk.2, s.header.getBeginTime ≤ m.getTime ∧ m.getTime ≤ s.header.getEndTime) ↔
        TimesFit (s.chunks.map Prod.snd)) := by
  have hopened : (State.opened codec old header).Keeps :=
    ⟨State.stage_of_pc (by simp [State.opened,State.writeHeader]) (by simp [State.opened,State.writeHeader]),
      fun _ hchunk => by cases hchunk⟩
  have hkeeps : s.Keeps := System.exec_keeps (fun s e t _ hs (he : s.step codec e = some t) => hs.step he) hopened h
  have hspans : (State.opened codec old header).Spans :=
    ⟨fun _ => hbegin,fun _ hfirst => (by cases hfirst),fun _ hlast => (by cases hlast)⟩
  have hspans : s.Spans := System.exec_keeps (fun s e t _ hs (he : s.step codec e = some t) => hs.step he) hspans h
  have hbegins : s.Begins := System.exec_keeps (fun s e t _ hs (he : s.step codec e = some t) => hs.step he)
    (fun _ _ hitem => by cases hitem) h
  refine ⟨fun chunk hchunk => ?_,fun hall => hspans.timesFit hkeeps hbegins fun chunk hchunk => (hall chunk hchunk).2,
    fun hfit chunk hchunk => hspans.bounds hkeeps hfit hchunk⟩
  obtain ⟨hne,hmade⟩ := hkeeps.2 chunk hchunk
  exact hmade ▸ counts_of hne

def messageAt (time : UInt64) (content : List UInt8) : SingleMessage := ⟨some "/a",some time,some content⟩

def blankCodec : Codec where
  serialize _ _ := []
  parse t _ _ := ⟨false,t.fresh,0⟩

def twoChunkRun (first : SingleMessage) (others : List SingleMessage) : List Event :=
  [.writeMessage first,.advance] ++ List.replicate 5 .flush ++ others.map .writeMessage ++
    [.close,.advance,.advance] ++ List.replicate 5 .flush ++
    [.advance,.advance,.flush,.advance,.advance,.advance]

/-- The only message of the first chunk is at 5, the others are at 7 and 6. -/
theorem statistics_iff_in_order :
    ∃ s, (system blankCodec).exec (State.opened blankCodec [] { chunkRawSize := some 1 })
        (twoChunkRun (messageAt 5 [1,1]) [messageAt 7 [],messageAt 6 []]) = some s ∧ s.pc = .closed ∧
      ∀ chunk ∈ s.chunks, ∀ m ∈ chunk.2, s.header.getBeginTime ≤ m.getTime ∧ m.getTime ≤ s.header.getEndTime := by
  have hrun : ((system blankCodec).exec (State.opened blankCodec [] { chunkRawSize := some 1 })
      (twoChunkRun (messageAt 5 [1,1]) [messageAt 7 [],messageAt 6 []])).any (fun s =>
        s.pc = .closed ∧ s.chunks.map Prod.snd = [[messageAt 5 [1,1]],[messageAt 7 [],messageAt 6 []]]) := by
    decide +kernel
  obtain ⟨s,hs,hend⟩ := (any_eq_true _ _).mp hrun
  obtain ⟨hpc,hchunks⟩ := of_decide_eq_true hend
  have hfit : TimesFit (s.chunks.map Prod.snd) := by
    rw [hchunks,TimesFit]
    decide
  exact ⟨s,hs,hpc,fun chunk hchunk => (((statistics_iff rfl hs).2.mpr hfit) chunk hchunk).2⟩

/-- The range of the file is from 9 to 7, and the second chunk begins at 7 although it has a message at 0. -/
theorem statistics_out_of_order :
    ∃ s, (system blankCodec).exec (State.opened blankCodec [] { chunkRawSize := some 1 })
        (twoChunkRun (messageAt 9 [1,1]) [messageAt 5 [],messageAt 0 [],messageAt 7 []]) = some s ∧ s.pc = .closed ∧
      (∃ chunk ∈ s.chunks, messageAt 0 [] ∈ chunk.2 ∧ chunk.1.beginTime = 7) ∧
      messageAt 5 [] ∈ s.items.flatMap messages ∧ s.header.getBeginTime = 9 ∧ s.header.getEndTime = 7 := by
  have hrun : ((system blankCodec).exec (State.opened blankCodec [] { chunkRawSize := some 1 })
      (twoChunkRun (messageAt 9 [1,1]) [messageAt 5 [],messageAt 0 [],messageAt 7 []])).any (fun s =>
        s.pc = .closed ∧ (s.chunks.any fun chunk => chunk.2.contains (messageAt 0 []) && chunk.1.beginTime == 7) ∧
          messageAt 5 [] ∈ s.items.flatMap messages ∧ s.header.getBeginTime = 9 ∧ s.header.getEndTime = 7) := by
    decide +kernel
  obtain ⟨s,hs,hend⟩ := (any_eq_true _ _).mp hrun
  obtain ⟨hpc,hchunk,hrest⟩ := of_decide_eq_true hend
  refine ⟨s,hs,hpc,?_,hrest⟩
  obtain ⟨chunk,hchunk,hboth⟩ := any_eq_true.mp hchunk
  rw [Bool.and_eq_true,contains_iff_mem,beq_iff_eq] at hboth
  exact ⟨chunk,hchunk,hboth⟩

end RecordFileWriter

end Apollo.Cyber.Record
