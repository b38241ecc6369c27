import Mathlib.Data.List.Induction
import Apollo.Foundation.Transition
import Apollo.Cyber.Record.RecordReader

/-! The writer of a record file. The writing thread fills one chunk while the flush thread writes the other one. One event
is one operation of a thread under a mutex, or one that only this thread can notice. What each step of the writer does
with the messages, how far `Close` has come, and what a closed file holds. The messages of a closed file are those
that were written. -/
namespace Apollo.Cyber.Record
open Foundation List ChunkHeader

/-- How `Chunk::add` changes the header. A time of 0 stands for no time in `begin_time`. -/
def ChunkHeader.add (header : ChunkHeader) (message : SingleMessage) : ChunkHeader :=
  let time := message.getTime
  let first := if header.beginTime = 0 then time else header.beginTime
  { beginTime := if first > time then time else first
    endTime := if header.endTime < time then time else header.endTime
    messageNumber := header.messageNumber+1
    rawSize := header.rawSize+message.getContent.length }

def ChunkHeader.of (body : ChunkBody) : ChunkHeader := body.foldl ChunkHeader.add {}

/-- A chunk starts empty and changes by `add` only. -/
structure Chunk where
  header : ChunkHeader := {}
  body : ChunkBody := []
  made : header = of body := by rfl
  deriving DecidableEq

theorem ChunkHeader.of_append (body : ChunkBody) (message : SingleMessage) :
    of (body ++ [message]) = (of body).add message := by
  rw [of,foldl_append]
  rfl

theorem ChunkHeader.messageNumber_of (body : ChunkBody) : (ChunkHeader.of body).messageNumber = body.length := by
  induction body using List.reverseRecOn with
  | nil => rfl
  | append_singleton _ _ ih =>
    rw [of_append,length_append,length_singleton,← ih]
    rfl

namespace Chunk

def add (chunk : Chunk) (message : SingleMessage) : Chunk where
  header := chunk.header.add message
  body := chunk.body ++ [message]
  made := by rw [of_append,chunk.made]

def empty (chunk : Chunk) : Bool := chunk.header.messageNumber == 0

theorem empty_iff (chunk : Chunk) : chunk.empty = true ↔ chunk.body = [] := by
  rw [empty,beq_iff_eq,chunk.made,messageNumber_of,length_eq_zero_iff]

end Chunk

namespace RecordFileWriter

/-- Where the writing thread stands: between two calls, in `WriteMessage` before the swap of the
chunks, or in `Close`. -/
inductive Pc
  | ready
  | swapping
  | draining
  | lastSwap
  | flushing
  | stopping
  | joining
  | indexing
  | finishing
  | closed
  deriving DecidableEq

/-- Where `Flush` stands: before the test of its loop, before it has the mutex, in the wait, behind it,
before and after `WriteChunk`, or at its end. -/
inductive Phase
  | test
  | entering
  | waiting
  | awake
  | writing
  | clearing
  | done
  deriving DecidableEq

/-- Whether `Flush` has locked `flush_mutex_`. -/
def Phase.locks : Phase → Bool
  | awake | writing | clearing => true
  | _ => false

/-- `written` are the arguments of `WriteMessage` so far, and `items` is what the sections of the file
hold. -/
structure State where
  file : List UInt8
  position : Nat
  header : Header
  index : Index
  active : Chunk
  flush : Chunk
  isWriting : Bool
  channelMessageNumberMap : String → Option UInt64
  pc : Pc
  phase : Phase
  written : List SingleMessage
  items : List Item

inductive Event
  | writeChannel (channel : Channel)
  | writeMessage (message : SingleMessage)
  | close
  | advance
  | flush

/-- A channel that is written has at least one byte. -/
def Event.Filled (codec : Codec) : Event → Prop
  | .writeChannel channel => 0 < (codec.serialize .channel channel).length
  | _ => True

namespace State

def writeSection (codec : Codec) (s : State) (t : SectionType) (x : t.Payload) : State :=
  let bytes := codec.sectionOf t x
  let position := s.position+bytes.length
  { s with
    file := Bytes.overwrite s.file s.position bytes
    position
    header := { s.header with size := some (UInt64.ofNat position) } }

def writeHeader (codec : Codec) (s : State) (header : Header) : State :=
  let bytes := codec.headerOf header
  { s with
    file := Bytes.overwrite s.file 0 bytes
    position := bytes.length
    header := { header with size := some (UInt64.ofNat bytes.length) } }

def addIndex (s : State) (type : SectionType) (cache : Cache) : State :=
  { s with index := s.index ++ [⟨type,s.position,cache⟩] }

def writeChannel (codec : Codec) (s : State) (channel : Channel) : State :=
  let s := s.writeSection codec .channel channel
  let header := { s.header with channelNumber := some (s.header.channelNumber.getD 0+1) }
  let s := { s with header, items := s.items ++ [Item.channel channel] }
  s.addIndex .channel (.channel 0 (channel.name.getD "") (channel.messageType.getD "") (channel.protoDesc.getD []))

def writeChunk (codec : Codec) (s : State) (chunk : Chunk) : State :=
  let s := s.writeSection codec .chunkHeader chunk.header
  let s := s.addIndex .chunkHeader (.chunkHeader chunk.header)
  let s := s.writeSection codec .chunkBody chunk.body
  let header := { s.header with
    chunkNumber := some (s.header.chunkNumber.getD 0+1)
    beginTime := if s.header.getBeginTime = 0 then some chunk.header.beginTime else s.header.beginTime
    endTime := some chunk.header.endTime
    messageNumber := some (s.header.messageNumber.getD 0+UInt64.ofNat chunk.header.messageNumber) }
  let s := { s with header, items := s.items ++ [Item.chunk chunk.header chunk.body] }
  s.addIndex .chunkBody (.chunkBody chunk.body.length)

/-- The numbers of messages are only known now. -/
def countMessages (s : State) (entry : SingleIndex) : SingleIndex :=
  match entry.cache with
  | .channel _ name messageType protoDesc =>
    match s.channelMessageNumberMap name with
    | some n => { entry with cache := .channel n name messageType protoDesc }
    | none => entry
  | _ => entry

def writeIndex (codec : Codec) (s : State) : State :=
  let index := s.index.map s.countMessages
  let header := { s.header with indexPosition := some (UInt64.ofNat s.position) }
  { s with index, header }.writeSection codec .index index

def addMessage (s : State) (message : SingleMessage) : State :=
  let name := message.channelName.getD ""
  { s with
    active := s.active.add message
    channelMessageNumberMap := Function.update s.channelMessageNumberMap name
      (some ((s.channelMessageNumberMap name).getD 0+1))
    written := s.written ++ [message] }

def needFlush (s : State) (message : SingleMessage) : Bool :=
  let interval := s.header.chunkInterval.getD 0
  let rawSize := s.header.chunkRawSize.getD 0
  (interval > 0 && message.getTime - s.active.header.beginTime > interval) ||
    (rawSize > 0 && s.active.header.rawSize > rawSize.toNat)

def writeMessage (s : State) (message : SingleMessage) : State :=
  let s := s.addMessage message
  { s with pc := if s.needFlush message then .swapping else .ready }

/-- The swap of the chunks with `flush_mutex_` locked. The notification needs no place in the state,
since the wait of `Flush` may end at any time. -/
def swap (s : State) (pc : Pc) : Option State :=
  if s.phase.locks then none else some { s with active := s.flush, flush := s.active, pc }

/-- `Close`, and the end of `WriteMessage`. The two loops of `Close` go on as long as there is
something to flush. -/
def advance (codec : Codec) (s : State) : Option State :=
  match s.pc with
  | .ready | .closed => none
  | .swapping => s.swap .ready
  | .draining => if s.flush.empty then some { s with pc := .lastSwap } else none
  | .lastSwap => s.swap .flushing
  | .flushing => if s.flush.empty then some { s with pc := .stopping } else none
  | .stopping => some { s with isWriting := false, pc := .joining }
  | .joining => if s.phase = .done then some { s with pc := .indexing } else none
  | .indexing => some { s.writeIndex codec with pc := .finishing }
  | .finishing =>
    some { s.writeHeader codec { s.header with isComplete := some true } with pc := .closed }

/-- The loop of the flush thread. -/
def flushStep (codec : Codec) (s : State) : Option State :=
  match s.phase with
  | .test => some { s with phase := if s.isWriting then .entering else .done }
  | .entering => some { s with phase := if !s.flush.empty || !s.isWriting then .awake else .waiting }
  | .waiting => some { s with phase := .entering }
  | .awake =>
    if !s.isWriting then some { s with phase := .done }
    else some { s with phase := if s.flush.empty then .test else .writing }
  | .writing => some { s.writeChunk codec s.flush with phase := .clearing }
  | .clearing => some { s with flush := {}, phase := .test }
  | .done => none

def step (codec : Codec) (s : State) : Event → Option State
  | .writeChannel channel => if s.pc = .ready then some (s.writeChannel codec channel) else none
  | .writeMessage message => if s.pc = .ready then some (s.writeMessage message) else none
  | .close => if s.pc = .ready ∧ s.isWriting then some { s with pc := .draining } else none
  | .advance => s.advance codec
  | .flush => s.flushStep codec

/-- After `Open` of a path with the content `old`, and `WriteHeader`. -/
def opened (codec : Codec) (old : List UInt8) (header : Header) : State :=
  writeHeader codec ⟨old,0,{},[],{},{},true,fun _ => none,.ready,.test,[],[]⟩ header

end State

/-- The file is not too large for its positions, and the header that it is opened with fits into its
place. -/
def system (codec : Codec) : System State Event where
  initial s := ∃ old header, old.length < 2^63 ∧
    (codec.serialize .header header).length ≤ headerLength ∧ s = State.opened codec old header
  step s e := s.step codec e

end RecordFileWriter

namespace RecordFileWriter
open Option State Codec Bytes
namespace State
variable {codec : Codec} {s t : State} {e : Event} {pc : Pc}

/-- The steps with their guards. Of the loop of the flush thread only the places where it writes or
clears the chunk are told apart. -/
inductive Transition (codec : Codec) (s : State) : Event → State → Prop
  | writeChannel (channel : Channel) (hpc : s.pc = .ready) :
      Transition codec s (.writeChannel channel) (s.writeChannel codec channel)
  | writeMessage (message : SingleMessage) (hpc : s.pc = .ready)
      (hpc' : (s.writeMessage message).pc = .ready ∨ (s.writeMessage message).pc = .swapping) :
      Transition codec s (.writeMessage message) (s.writeMessage message)
  | close (hpc : s.pc = .ready) : Transition codec s .close { s with pc := .draining }
  | swap (hpc : s.pc = .swapping) (hlocks : s.phase.locks = false) :
      Transition codec s .advance { s with active := s.flush, flush := s.active, pc := .ready }
  | drained (hpc : s.pc = .draining) (hflush : s.flush.body = []) :
      Transition codec s .advance { s with pc := .lastSwap }
  | lastSwap (hpc : s.pc = .lastSwap) (hlocks : s.phase.locks = false) :
      Transition codec s .advance { s with active := s.flush, flush := s.active, pc := .flushing }
  | flushed (hpc : s.pc = .flushing) (hflush : s.flush.body = []) :
      Transition codec s .advance { s with pc := .stopping }
  | stop (hpc : s.pc = .stopping) :
      Transition codec s .advance { s with isWriting := false, pc := .joining }
  | joined (hpc : s.pc = .joining) (hphase : s.phase = .done) :
      Transition codec s .advance { s with pc := .indexing }
  | writeIndex (hpc : s.pc = .indexing) :
      Transition codec s .advance { s.writeIndex codec with pc := .finishing }
  | writeHeader (hpc : s.pc = .finishing) : Transition codec s .advance
      { s.writeHeader codec { s.header with isComplete := some true } with pc := .closed }
  | writeChunk (hphase : s.phase = .writing) :
      Transition codec s .flush { s.writeChunk codec s.flush with phase := .clearing }
  | clear (hphase : s.phase = .clearing) :
      Transition codec s .flush { s with flush := {}, phase := .test }
  | loop (phase : Phase) (hphase : s.phase ∉ [.writing,.clearing,.done]) (hclear : phase ≠ .clearing)
      (hwrite : phase = .writing → s.flush.body ≠ []) : Transition codec s .flush { s with phase }

theorem flushStep_transition (he : s.flushStep codec = some t) : Transition codec s .flush t := by
  cases hphase : s.phase with rw [flushStep,hphase] at he
  | writing =>
    cases he
    exact .writeChunk hphase
  | clearing =>
    cases he
    exact .clear hphase
  | done => cases he
  | awake =>
    dsimp only at he
    split at he <;> cases he
    · exact .loop _ (by simp [hphase]) (by simp) (by simp)
    · refine .loop _ (by simp [hphase]) (by split <;> simp) ?_
      simp [s.flush.empty_iff]
  | waiting =>
    cases he
    exact .loop _ (by simp [hphase]) (by simp) (by simp)
  | test | entering =>
    cases he
    exact .loop _ (by simp [hphase]) (by split <;> simp) (by split <;> simp)

theorem swap_eq (he : s.swap pc = some t) :
    s.phase.locks = false ∧ { s with active := s.flush, flush := s.active, pc } = t := by
  simpa [swap] using he

theorem advance_transition (he : s.advance codec = some t) : Transition codec s .advance t := by
  cases hpc : s.pc <;>
    simp only [advance,hpc,ite_none_right_eq_some,Option.some.injEq] at he
  case ready => cases he
  case closed => cases he
  case swapping =>
    obtain ⟨hlocks,rfl⟩ := swap_eq he
    exact .swap hpc hlocks
  case draining =>
    obtain ⟨hempty,rfl⟩ := he
    exact .drained hpc (s.flush.empty_iff.mp hempty)
  case lastSwap =>
    obtain ⟨hlocks,rfl⟩ := swap_eq he
    exact .lastSwap hpc hlocks
  case flushing =>
    obtain ⟨hempty,rfl⟩ := he
    exact .flushed hpc (s.flush.empty_iff.mp hempty)
  case stopping => exact he ▸ .stop hpc
  case joining =>
    obtain ⟨hdone,rfl⟩ := he
    exact .joined hpc hdone
  case indexing => exact he ▸ .writeIndex hpc
  case finishing => exact he ▸ .writeHeader hpc

theorem step_transition (he : s.step codec e = some t) : Transition codec s e t := by
  cases e with simp only [step,ite_none_right_eq_some,Option.some.injEq] at he
  | advance => exact advance_transition he
  | flush => exact flushStep_transition he
  | writeChannel channel =>
    exact he.2 ▸ .writeChannel channel he.1
  | writeMessage message =>
    refine he.2 ▸ .writeMessage message he.1 ?_
    simp only [writeMessage]
    split <;> simp
  | close =>
    exact he.2 ▸ .close he.1.1

/-- What `Close` has waited for so far. -/
structure Stage (s : State) : Prop where
  filled : s.phase = .writing → s.flush.body ≠ []
  lastSwap : s.pc = .lastSwap → s.flush.body = []
  flushing : s.pc = .flushing → s.active.body = []
  stopped : s.pc ∈ [.stopping,.joining,.indexing,.finishing,.closed] → s.flush.body = [] ∧ s.active.body = []
  joined : s.pc ∈ [.indexing,.finishing,.closed] → s.phase = .done

theorem stage_of_pc (hpc : s.pc ∈ [.ready,.swapping,.draining])
    (hfilled : s.phase = .writing → s.flush.body ≠ []) : s.Stage := by
  simp only [List.mem_cons,List.not_mem_nil,or_false] at hpc
  rcases hpc with hpc | hpc | hpc <;>
    exact ⟨hfilled,by simp [hpc],by simp [hpc],by simp [hpc],by simp [hpc]⟩

theorem ne_writing_of_locks (hlocks : s.phase.locks = false) : s.phase ≠ .writing := by
  intro hphase
  simp [hphase,Phase.locks] at hlocks

theorem ne_clearing_of_locks (hlocks : s.phase.locks = false) : s.phase ≠ .clearing := by
  intro hphase
  simp [hphase,Phase.locks] at hlocks

theorem Stage.step (h : s.Stage) (he : s.step codec e = some t) : t.Stage := by
  -- the flush thread has not ended while it takes steps
  have hpc (hphase : s.phase ≠ .done) : s.pc ∉ [.indexing,.finishing,.closed] :=
    fun hmem => hphase (h.joined hmem)
  cases step_transition he with
  | writeChannel => exact ⟨h.filled,h.lastSwap,h.flushing,h.stopped,h.joined⟩
  | writeMessage _ _ hpc' => exact stage_of_pc (by rcases hpc' with h | h <;> simp [h]) h.filled
  | close => exact stage_of_pc (by simp) h.filled
  | swap _ hlocks =>
    exact stage_of_pc (by simp) fun hphase => absurd hphase (ne_writing_of_locks hlocks)
  | drained _ hflush => exact ⟨h.filled,fun _ => hflush,by simp,by simp,by simp⟩
  | lastSwap hpc hlocks =>
    exact ⟨fun hphase => absurd hphase (ne_writing_of_locks hlocks),by simp,fun _ => h.lastSwap hpc, by simp,by simp⟩
  | flushed hpc hflush =>
    exact ⟨h.filled,by simp,by simp,fun _ => ⟨hflush,h.flushing hpc⟩,by simp⟩
  | stop hpc => exact ⟨h.filled,by simp,by simp,fun _ => h.stopped (by simp [hpc]),by simp⟩
  | joined hpc hphase =>
    exact ⟨h.filled,by simp,by simp,fun _ => h.stopped (by simp [hpc]),fun _ => hphase⟩
  | writeIndex hpc | writeHeader hpc =>
    exact ⟨h.filled,by simp,by simp,fun _ => h.stopped (by simp [hpc]),
      fun _ => h.joined (by simp [hpc])⟩
  | writeChunk hphase =>
    exact ⟨by simp,h.lastSwap,h.flushing,h.stopped,
      fun hmem => absurd hmem (hpc (by simp [hphase]))⟩
  | clear hphase =>
    exact ⟨by simp,fun _ => rfl,h.flushing,fun hmem => ⟨rfl,(h.stopped hmem).2⟩,
      fun hmem => absurd hmem (hpc (by simp [hphase]))⟩
  | loop _ hphase _ hwrite =>
    exact ⟨hwrite,h.lastSwap,h.flushing,h.stopped,
      fun hmem => absurd hmem (hpc fun hdone => by simp [hdone] at hphase)⟩

/-- The messages in the order in which they are or will be in the file, if no further swap comes. -/
def content (s : State) : List SingleMessage :=
  s.items.flatMap Item.messages ++ ((if s.phase = .clearing then [] else s.flush.body) ++ s.active.body)

inductive Moves (s t : State) : Event → Prop
  | takes (m : SingleMessage) : t.written = s.written ++ [m] → t.content = s.content ++ [m] →
      Moves s t (.writeMessage m)
  | keeps (e : Event) : t.written = s.written → t.content = s.content → Moves s t e
  | swaps : s.pc = .swapping ∨ s.pc = .lastSwap → t.written = s.written →
      s.content = s.items.flatMap Item.messages ++ (s.flush.body ++ s.active.body) →
      t.content = s.items.flatMap Item.messages ++ (s.active.body ++ s.flush.body) → Moves s t .advance

theorem step_moves (he : s.step codec e = some t) : Moves s t e := by
  cases step_transition he with
  | writeMessage message =>
    refine .takes message rfl ?_
    simp only [content,List.append_assoc]
    rfl
  | writeChannel =>
    refine .keeps _ rfl ?_
    simp [content,Item.messages,writeChannel,writeSection,addIndex]
  | swap hpc hlocks =>
    have hclear := ne_clearing_of_locks hlocks
    exact .swaps (.inl hpc) rfl (by simp [content,hclear]) (by simp [content,hclear])
  | lastSwap hpc hlocks =>
    have hclear := ne_clearing_of_locks hlocks
    exact .swaps (.inr hpc) rfl (by simp [content,hclear]) (by simp [content,hclear])
  | writeChunk hphase =>
    refine .keeps _ rfl ?_
    simp [content,hphase,Item.messages,writeChunk,writeSection,addIndex]
  | clear hphase => exact .keeps _ rfl (by simp [content,hphase])
  | loop phase hphase hclear =>
    have hclear' : s.phase ≠ .clearing := fun hc => by simp [hc] at hphase
    exact .keeps _ rfl (by simp [content,hclear,hclear'])
  | close | drained | flushed | stop | joined | writeIndex | writeHeader => exact .keeps _ rfl rfl

theorem Stage.content_closed (h : s.Stage) (hpc : s.pc = .closed) : s.content = s.items.flatMap Item.messages := by
  obtain ⟨hflush,hactive⟩ := h.stopped (by simp [hpc])
  simp [content,hflush,hactive]

variable {codec : Codec} {s t : State} {e : Event} {front rest : List UInt8}

/-- The file starts with the bytes, and the next section comes behind them. -/
def At (s : State) (front : List UInt8) : Prop := front <+: s.file ∧ s.position = front.length

theorem At.of_eq (h : s.At front) (hfile : t.file = s.file) (hpos : t.position = s.position) : t.At front := by
  rw [At,hfile,hpos]
  exact h

theorem At.writeSection (h : s.At front) (codec : Codec) (type : SectionType) (x : type.Payload) :
    (s.writeSection codec type x).At (front ++ codec.sectionOf type x) := by
  obtain ⟨⟨rest,hfile⟩,hpos⟩ := h
  refine ⟨⟨rest.drop (codec.sectionOf type x).length,?_⟩,?_⟩
  · rw [State.writeSection,← hfile,hpos,overwrite_append]
  · rw [State.writeSection,hpos,length_append]

theorem At.writeChannel (h : s.At front) (codec : Codec) (channel : Channel) :
    (s.writeChannel codec channel).At (front ++ codec.itemOf (.channel channel)) := by
  have hsection := h.writeSection codec .channel channel
  exact hsection.of_eq rfl rfl

theorem At.writeChunk (h : s.At front) (codec : Codec) (chunk : Chunk) :
    (s.writeChunk codec chunk).At (front ++ codec.itemOf (.chunk chunk.header chunk.body)) := by
  have hheader := h.writeSection codec .chunkHeader chunk.header
  have hindex : ((s.writeSection codec .chunkHeader chunk.header).addIndex .chunkHeader
      (.chunkHeader chunk.header)).At (front ++ codec.sectionOf .chunkHeader chunk.header) :=
    hheader.of_eq rfl rfl
  have hbody := hindex.writeSection codec .chunkBody chunk.body
  rw [itemOf,← append_assoc]
  exact hbody.of_eq rfl rfl

variable {header : Header} {item : Item}

theorem writeHeader_starts (h : front ++ rest <+: s.file) (hlen : front.length = (codec.headerOf header).length) :
    codec.headerOf header ++ rest <+: (s.writeHeader codec header).file := by
  obtain ⟨tail,hfile⟩ := h
  refine ⟨tail,?_⟩
  have hwrite := overwrite_append [] s.file (codec.headerOf header)
  rw [nil_append,length_nil,nil_append] at hwrite
  rw [State.writeHeader,hwrite,← hfile,← hlen,append_assoc,append_assoc,drop_left]

/-- What the file holds, by how far `Close` has come. -/
def Lays (codec : Codec) (s : State) : Prop :=
  match s.pc with
  | .closed => ∃ header index, codec.ReadsBack .header header ∧
      (codec.serialize .header header).length ≤ headerLength ∧
      (codec.serialize .index index).length < 2^31 ∧
      header.getBeginTime = s.header.getBeginTime ∧ header.getEndTime = s.header.getEndTime ∧
      codec.headerOf header ++ (s.items.flatMap codec.itemOf ++ codec.sectionOf .index index) <+: s.file
  | .finishing => ∃ area index, area.length = sectionLength+headerLength ∧
      (codec.serialize .index index).length < 2^31 ∧
      s.At (area ++ (s.items.flatMap codec.itemOf ++ codec.sectionOf .index index))
  | _ => ∃ area, area.length = sectionLength+headerLength ∧ s.At (area ++ s.items.flatMap codec.itemOf)

theorem lays_iff (hpc : s.pc ∉ [.finishing,.closed]) : s.Lays codec ↔
      ∃ area, area.length = sectionLength+headerLength ∧ s.At (area ++ s.items.flatMap codec.itemOf) := by
  rw [Lays]
  split
  case h_1 h => simp [h] at hpc
  case h_2 h => simp [h] at hpc
  case h_3 => rfl

theorem Lays.move (h : s.Lays codec) (hpc : s.pc ∉ [.finishing,.closed])
    (hpc' : t.pc ∉ [.finishing,.closed]) (hfile : t.file = s.file) (hposition : t.position = s.position)
    (hitems : t.items = s.items) : t.Lays codec := by
  obtain ⟨area,hlen,hat⟩ := (lays_iff hpc).mp h
  refine (lays_iff hpc').mpr ⟨area,hlen,?_⟩
  rw [hitems]
  exact hat.of_eq hfile hposition

theorem Lays.add (h : s.Lays codec) (hpc : s.pc ∉ [.finishing,.closed]) (hpc' : t.pc = s.pc)
    (hitems : t.items = s.items ++ [item]) (hat : ∀ front, s.At front → t.At (front ++ codec.itemOf item)) :
    t.Lays codec := by
  obtain ⟨area,hlen,harea⟩ := (lays_iff hpc).mp h
  refine (lays_iff (hpc' ▸ hpc)).mpr ⟨area,hlen,?_⟩
  rw [hitems,flatMap_append,← append_assoc,flatMap_singleton]
  exact hat _ harea

def Fits (s : State) (bytes : List UInt8) : Prop := s.position+bytes.length < 2^63

/-- The step can write all its sections, and they can be read back. Chunks and the file header are never empty. Of the
index only the size matters. -/
def Serializes (codec : Codec) (s : State) : Event → Prop
  | .writeChannel channel => codec.RoundTrips .channel channel ∧ s.Fits (codec.itemOf (.channel channel))
  | .flush => s.phase = .writing →
      codec.ReadsBack .chunkHeader s.flush.header ∧ codec.ReadsBack .chunkBody s.flush.body ∧
      s.Fits (codec.itemOf (.chunk s.flush.header s.flush.body))
  | .advance =>
      (s.pc = .indexing → (codec.serialize .index (s.index.map s.countMessages)).length < 2^31 ∧
        s.Fits (codec.sectionOf .index (s.index.map s.countMessages))) ∧
      (s.pc = .finishing → codec.ReadsBack .header { s.header with isComplete := some true } ∧
        (codec.serialize .header { s.header with isComplete := some true }).length ≤ headerLength)
  | _ => True

section
variable (h : s.file.length < 2^63)
include h

theorem writeSection_size {type : SectionType} {x : type.Payload} (hfits : s.Fits (codec.sectionOf type x)) :
    (s.writeSection codec type x).file.length < 2^63 := by
  rw [writeSection,length_overwrite]
  exact Nat.max_lt.mpr ⟨h,hfits⟩

theorem writeChunk_size {chunk : Chunk} (hfits : s.Fits (codec.itemOf (.chunk chunk.header chunk.body))) :
    (s.writeChunk codec chunk).file.length < 2^63 := by
  rw [Fits,itemOf,length_append,← add_assoc] at hfits
  let s' := (s.writeSection codec .chunkHeader chunk.header).addIndex .chunkHeader (.chunkHeader chunk.header)
  have hheader : s'.file.length < 2^63 := writeSection_size h (by rw [Fits]; omega)
  have hbody := writeSection_size hheader hfits
  exact hbody

theorem writeHeader_size (hfit : (codec.serialize .header header).length ≤ headerLength) :
    (s.writeHeader codec header).file.length < 2^63 := by
  rw [writeHeader,length_overwrite,length_headerOf hfit]
  exact Nat.max_lt.mpr ⟨h,by decide⟩

end

/-- The chunk has messages, and the header that `Chunk::add` gives it. -/
def Made (header : ChunkHeader) (body : ChunkBody) : Prop := body ≠ [] ∧ header = ChunkHeader.of body

/-- The items in the file can be read back. -/
def Stores (codec : Codec) (s : State) : Prop := ∀ item ∈ s.items, item.ReadsBack codec ∧ item.Meets Made

theorem Stores.add (h : s.Stores codec) (hitems : t.items = s.items ++ [item])
    (hitem : item.ReadsBack codec ∧ item.Meets Made) : t.Stores codec := by
  intro x hx
  rw [hitems,mem_append,mem_singleton] at hx
  rcases hx with hx | rfl
  · exact h x hx
  · exact hitem

/-- What holds in every run in which all sections can be written and read back. -/
structure Sound (codec : Codec) (s : State) : Prop where
  stage : s.Stage
  lays : s.Lays codec
  stores : s.Stores codec
  size : s.file.length < 2^63

theorem Sound.writeIndex (h : s.Sound codec) (hs : s.Serializes codec .advance) (hpc : s.pc = .indexing) :
    Lays codec { s.writeIndex codec with pc := .finishing } ∧ (s.writeIndex codec).file.length < 2^63 := by
  obtain ⟨area,hlen,hat⟩ := (lays_iff (by simp [hpc])).mp h.lays
  obtain ⟨hindex,hfits⟩ := hs.1 hpc
  let s' := { s with
    index := s.index.map s.countMessages
    header := { s.header with indexPosition := some (UInt64.ofNat s.position) } }
  have hat' : s'.At (area ++ s.items.flatMap codec.itemOf) := hat.of_eq rfl rfl
  have hfits' := hfits
  refine ⟨⟨area,_,hlen,hindex,?_⟩,writeSection_size h.size hfits'⟩
  rw [← append_assoc]
  exact (hat'.writeSection codec .index _).of_eq rfl rfl

theorem Sound.writeHeader (h : s.Sound codec) (hs : s.Serializes codec .advance) (hpc : s.pc = .finishing) :
    Lays codec { s.writeHeader codec { s.header with isComplete := some true } with pc := .closed } ∧
      (s.writeHeader codec { s.header with isComplete := some true }).file.length < 2^63 := by
  have hl := h.lays
  rw [Lays,hpc] at hl
  obtain ⟨_,index,hlen,hindex,hat,_⟩ := hl
  obtain ⟨hheader,hfit⟩ := hs.2 hpc
  refine ⟨⟨_,index,hheader,hfit,hindex,rfl,rfl,?_⟩,writeHeader_size h.size hfit⟩
  exact writeHeader_starts hat (by rw [hlen,length_headerOf hfit])

theorem Sound.step (h : s.Sound codec) (hs : s.Serializes codec e) (hfilled : e.Filled codec) (he : s.step codec e = some t) :
    t.Sound codec := by
  have hstage := h.stage.step he
  -- the flush thread ends before the index is written
  have hopen (hphase : s.phase ≠ .done) : s.pc ∉ [.finishing,.closed] := fun hmem =>
    hphase (h.stage.joined (mem_cons_of_mem _ hmem))
  cases step_transition he with
  | writeChannel channel hpc =>
    refine ⟨hstage,?_,h.stores.add rfl ⟨⟨hs.1,hfilled⟩,trivial⟩,writeSection_size h.size hs.2⟩
    exact h.lays.add (by simp [hpc]) rfl rfl fun front hat => hat.writeChannel codec channel
  | writeMessage message hpc hpc' =>
    have hready : (s.writeMessage message).pc ∉ [.finishing,.closed] := by
      rcases hpc' with h | h <;> simp [h]
    exact ⟨hstage,h.lays.move (by simp [hpc]) hready rfl rfl rfl,h.stores,h.size⟩
  | writeIndex hpc =>
    obtain ⟨hlays,hsize⟩ := h.writeIndex hs hpc
    exact ⟨hstage,hlays,h.stores,hsize⟩
  | writeHeader hpc =>
    obtain ⟨hlays,hsize⟩ := h.writeHeader hs hpc
    exact ⟨hstage,hlays,h.stores,hsize⟩
  | writeChunk hphase =>
    obtain ⟨hheader,hbody,hfits⟩ := hs hphase
    refine ⟨hstage,?_,h.stores.add rfl ⟨⟨hheader,hbody⟩,h.stage.filled hphase,s.flush.made⟩,
      writeChunk_size h.size hfits⟩
    exact h.lays.add (hopen (by simp [hphase])) rfl rfl fun _ hat =>
      (hat.writeChunk codec s.flush).of_eq rfl rfl
  | clear hphase =>
    have hpc := hopen (by simp [hphase])
    exact ⟨hstage,h.lays.move hpc hpc rfl rfl rfl,h.stores,h.size⟩
  | loop _ hphase =>
    have hpc := hopen fun hdone => by simp [hdone] at hphase
    exact ⟨hstage,h.lays.move hpc hpc rfl rfl rfl,h.stores,h.size⟩
  | close hpc | swap hpc | drained hpc | lastSwap hpc | flushed hpc | stop hpc | joined hpc =>
    exact ⟨hstage,h.lays.move (by simp [hpc]) (by simp) rfl rfl rfl,h.stores,h.size⟩

theorem sound_opened {old : List UInt8} (hold : old.length < 2^63)
    (hfit : (codec.serialize .header header).length ≤ headerLength) : (opened codec old header).Sound codec := by
  have hstage : (opened codec old header).Stage :=
    stage_of_pc (by simp [opened,State.writeHeader]) (by simp [opened,State.writeHeader])
  have harea := length_headerOf hfit
  refine ⟨hstage,?_,by simp [Stores,opened,writeHeader],writeHeader_size hold hfit⟩
  refine (lays_iff (by simp [opened,writeHeader])).mpr ⟨codec.headerOf header,harea,?_⟩
  have hwrite := overwrite_append [] old (codec.headerOf header)
  refine ⟨⟨old.drop (codec.headerOf header).length,?_⟩,by simp [opened,writeHeader]⟩
  simpa [opened,writeHeader] using hwrite.symm

end State

variable {codec : Codec} {s : State}

/-- The writer and the serialisation agree on everything that is written. -/
theorem sound (h : (system codec).ReachableWhile (fun s e => s.Serializes codec e ∧ e.Filled codec) s) :
    s.Sound codec := by
  refine h.invariant ?_ fun s e t hi hs (he : s.step codec e = some t) => hi.step hs.1 hs.2 he
  rintro s ⟨_,_,hold,hfit,rfl⟩
  exact State.sound_opened hold hfit

theorem State.Sound.holds (h : s.Sound codec) (hpc : s.pc = .closed) :
    ∃ header, Holds codec State.Made s.file header s.items ∧
      header.getBeginTime = s.header.getBeginTime ∧ header.getEndTime = s.header.getEndTime := by
  have hl := h.lays
  rw [State.Lays,hpc] at hl
  obtain ⟨header,index,hheader,hfit,hindex,hbegin,hend,tail,hfile⟩ := hl
  refine ⟨header,⟨⟨s.items.flatMap codec.itemOf ++ (codec.sectionOf .index index ++ tail),?_,
    index,tail,hindex,rfl⟩,h.size,⟨hheader,hfit⟩,h.stores⟩,hbegin,hend⟩
  rw [← hfile,append_assoc,append_assoc]

open RecordReader
variable {codec : Codec} {s t : State} {e : Event}

theorem State.Moves.perm (h : s.Moves t e) (hperm : s.content.Perm s.written) : t.content.Perm t.written := by
  cases h with
  | takes m hwritten hcontent =>
    rw [hwritten,hcontent]
    exact hperm.append_right [m]
  | keeps _ hwritten hcontent => rwa [hwritten,hcontent]
  | swaps _ hwritten hbefore hafter =>
    rw [hwritten,hafter]
    rw [hbefore] at hperm
    exact (perm_append_comm.append_left _).trans hperm

/-- No message is lost or duplicated on its way to the file. -/
theorem content_perm (h : (system codec).Reachable s) : s.content.Perm s.written := by
  refine h.invariant ?_ fun s e t hi (he : s.step codec e = some t) => (step_moves he).perm hi
  rintro s ⟨_,_,_,_,rfl⟩
  exact .refl _

/-- The chunks are swapped by `WriteMessage` only if the flush thread is done with the last one. -/
def State.FlushesFirst (s : State) (e : Event) : Prop :=
  s.pc = .swapping → e = .advance → s.flush.empty

theorem State.Moves.eq (h : s.Moves t e) (hstage : s.Stage) (hflush : s.FlushesFirst e)
    (heq : s.content = s.written) : t.content = t.written := by
  cases h with
  | takes _ hwritten hcontent | keeps _ hwritten hcontent => rw [hwritten,hcontent,heq]
  | swaps hpc hwritten hbefore hafter =>
    have hnil : s.flush.body = [] := by
      rcases hpc with hpc | hpc
      · exact s.flush.empty_iff.mp (hflush hpc rfl)
      · exact hstage.lastSwap hpc
    rw [hwritten,← heq,hbefore,hafter,hnil,nil_append,append_nil]

theorem content_eq (h : (system codec).ReachableWhile (fun s e => s.Serializes codec e ∧ e.Filled codec ∧ s.FlushesFirst e) s) :
    s.content = s.written := by
  have hinv : s.Stage ∧ s.content = s.written := by
    refine h.invariant (P := fun s => s.Stage ∧ s.content = s.written) ?_ ?_
    · rintro s ⟨_,_,hold,hfit,rfl⟩
      exact ⟨(sound_opened hold hfit).stage,rfl⟩
    · rintro s e t ⟨hstage,heq⟩ hok (he : s.step codec e = some t)
      exact ⟨hstage.step he,(step_moves he).eq hstage hok.2.2 heq⟩
  exact hinv.2

/-- The reader returns the messages in the order of the chunks in the file. -/
theorem State.Sound.reads (h : s.Sound codec) (hpc : s.pc = .closed) :
    Returns (readAll codec s.file) (s.content.map (·.toRecordMessage)) := by
  obtain ⟨_,hholds,_⟩ := h.holds hpc
  rw [h.stage.content_closed hpc]
  exact readMessages_all (openFile_stands hholds)

instance (t : SectionType) : DecidableEq t.Payload :=
  match t with
  | .header => inferInstanceAs (DecidableEq Header)
  | .chunkHeader => inferInstanceAs (DecidableEq ChunkHeader)
  | .chunkBody => inferInstanceAs (DecidableEq (List SingleMessage))
  | .index => inferInstanceAs (DecidableEq (List SingleIndex))
  | .channel => inferInstanceAs (DecidableEq Channel)

/-- The serialisation of the messages of a table: one byte says which one it is. -/
def tableCodec (table : (t : SectionType) → List t.Payload) : Codec where
  serialize t x := [UInt8.ofNat ((table t).idxOf x)]
  parse t _ bytes :=
    match bytes with
    | [] => ⟨false,t.fresh,0⟩
    | b::_ => ⟨true,(table t).getD b.toNat t.fresh,1⟩

variable {table : (t : SectionType) → List t.Payload}

theorem tableCodec_roundTrips (hlen : ∀ t, (table t).length ≤ 256) {t : SectionType} {x : t.Payload}
    (hx : x ∈ table t) : (tableCodec table).RoundTrips t x := by
  refine ⟨by simp [tableCodec],fun _ => ?_⟩
  have hlt := idxOf_lt_length_of_mem hx
  have hbyte : (UInt8.ofNat ((table t).idxOf x)).toNat = (table t).idxOf x := by
    have := hlen t
    rw [UInt8.toNat_ofNat']
    omega
  simp [tableCodec,hbyte,getD_eq_getElem?_getD,hlt,blockSize]

/-- The step writes nothing that is not in the table, and not too far behind in the file. -/
def State.tabled (table : (t : SectionType) → List t.Payload) (s : State) : Event → Bool
  | .writeChannel channel => decide (channel ∈ table .channel ∧ s.position < 2^62)
  | .flush => s.phase ≠ .writing ∨
      s.flush.header ∈ table .chunkHeader ∧ s.flush.body ∈ table .chunkBody ∧ s.position < 2^62
  | .advance => (s.pc ≠ .indexing ∨ s.position < 2^62) ∧
      (s.pc ≠ .finishing ∨ { s.header with isComplete := some true } ∈ table .header)
  | _ => true

theorem State.serializes_of_tabled (hround : ∀ {t} {x : t.Payload}, x ∈ table t → codec.RoundTrips t x)
    (hshort : ∀ t x, (codec.serialize t x).length ≤ 1)
    (hfilled : ∀ t x, t ≠ .channel → 0 < (codec.serialize t x).length) (h : s.tabled table e) :
    s.Serializes codec e := by
  have hbytes (t : SectionType) (x : t.Payload) : (codec.sectionOf t x).length ≤ 17 := by
    rw [Codec.length_sectionOf]
    exact Nat.add_le_add_left (hshort t x) 16
  cases e with
  | writeMessage | close => trivial
  | writeChannel channel =>
    obtain ⟨hmem,hpos⟩ := of_decide_eq_true h
    refine ⟨hround hmem,?_⟩
    have := hbytes .channel channel
    rw [State.Fits,Codec.itemOf]
    omega
  | advance =>
    obtain ⟨hpos,hmem⟩ := of_decide_eq_true h
    refine ⟨fun hpc => ⟨(hshort _ _).trans_lt (by decide),?_⟩,fun hpc =>
      ⟨⟨hround (hmem.resolve_left (not_not_intro hpc)),hfilled _ _ (by decide)⟩,(hshort _ _).trans (by decide)⟩⟩
    have := hpos.resolve_left (not_not_intro hpc)
    have := hbytes .index (s.index.map s.countMessages)
    rw [State.Fits]
    omega
  | flush =>
    intro hphase
    obtain ⟨hheader,hbody,hpos⟩ := (of_decide_eq_true h).resolve_left (not_not_intro hphase)
    refine ⟨⟨hround hheader,hfilled _ _ (by decide)⟩,⟨hround hbody,hfilled _ _ (by decide)⟩,?_⟩
    have := hbytes .chunkHeader s.flush.header
    have := hbytes .chunkBody s.flush.body
    rw [State.Fits,Codec.itemOf,length_append]
    omega

theorem State.tableCodec_serializes (hlen : ∀ t, (table t).length ≤ 256) (h : s.tabled table e) :
    s.Serializes (tableCodec table) e ∧ e.Filled (tableCodec table) := by
  refine ⟨serializes_of_tabled (tableCodec_roundTrips hlen) (fun _ _ => le_rfl) (fun _ _ _ => Nat.one_pos) h,?_⟩
  cases e with
  | writeChannel => exact Nat.one_pos
  | _ => trivial

def first : SingleMessage := ⟨some "/a",some 5,some [1,1]⟩

def second : SingleMessage := ⟨some "/a",some 5,some [2,2]⟩

def twoChunks : (t : SectionType) → List t.Payload
  | .header => [{
      chunkRawSize := some 1, size := some 2149, indexPosition := some 2132, chunkNumber := some 2,
      messageNumber := some 2, beginTime := some 5, endTime := some 5, isComplete := some true }]
  | .chunkHeader => [ChunkHeader.of [first]]
  | .chunkBody => [[first],[second]]
  | .index => []
  | .channel => []

theorem length_twoChunks (t : SectionType) : (twoChunks t).length ≤ 256 := by
  cases t <;> simp [twoChunks]

def round : List Event := List.replicate 5 .flush

/-- The second chunk is full before the first one is in the file. The swap takes the first chunk back,
and the last swap of `Close` brings it into the file behind the second. -/
def overtaking : List Event :=
  [.writeMessage first,.advance,.writeMessage second,.advance,.close] ++ round ++
    [.advance,.advance] ++ round ++ [.advance,.advance,.flush,.advance,.advance,.advance]

/-- The flush thread writes the first chunk before the second is full. -/
def inTurn : List Event :=
  [.writeMessage first,.advance] ++ round ++ [.writeMessage second,.advance] ++ round ++
    [.close,.advance,.advance,.advance,.advance,.flush,.advance,.advance,.advance]

theorem twoChunks_initial : (system (tableCodec twoChunks)).initial
    (opened (tableCodec twoChunks) [] { chunkRawSize := some 1 }) :=
  ⟨[],{ chunkRawSize := some 1 },by simp,by simp [tableCodec,headerLength],rfl⟩

theorem overtaking_run : ∃ s, (system (tableCodec twoChunks)).ReachableWhile
      (fun s e => s.Serializes (tableCodec twoChunks) e ∧ e.Filled (tableCodec twoChunks)) s ∧ s.pc = .closed ∧
    s.written = [first,second] ∧ s.content = [second,first] := by
  obtain ⟨s,hs,hlast⟩ := System.reachableWhile_of_exec (system (tableCodec twoChunks))
    (fun s e => s.tabled twoChunks e) overtaking
    (fun s => s.pc = .closed ∧ s.written = [first,second] ∧
      s.content = [second,first]) twoChunks_initial (by decide +kernel)
  exact ⟨s,hs.mono fun _ _ hok => tableCodec_serializes length_twoChunks hok,of_decide_eq_true hlast⟩

theorem inTurn_run : ∃ s, (system (tableCodec twoChunks)).ReachableWhile
      (fun s e => s.Serializes (tableCodec twoChunks) e ∧ e.Filled (tableCodec twoChunks) ∧ s.FlushesFirst e) s ∧ s.pc = .closed ∧
    s.written = [first,second] ∧ s.header.getBeginTime = 5 ∧ s.header.getEndTime = 5 := by
  obtain ⟨s,hs,hlast⟩ := System.reachableWhile_of_exec (system (tableCodec twoChunks))
    (fun s e => s.tabled twoChunks e ∧ (s.pc = .swapping → s.flush.empty)) inTurn
    (fun s => s.pc = .closed ∧ s.written = [first,second] ∧ s.header.getBeginTime = 5 ∧
      s.header.getEndTime = 5) twoChunks_initial (by decide +kernel)
  refine ⟨s,hs.mono fun _ _ hok => ?_,of_decide_eq_true hlast⟩
  obtain ⟨hserializes,hfilled⟩ := tableCodec_serializes length_twoChunks hok.1
  exact ⟨hserializes,hfilled,fun hpc _ => hok.2 hpc⟩

/-- Whatever the flush thread does, a closed file has exactly the messages that were written, if no channel is empty. -/
theorem closed_round_trip
    (h : (system codec).ReachableWhile (fun s e => s.Serializes codec e ∧ e.Filled codec) s) (hpc : s.pc = .closed) :
    ∃ messages, Returns (readAll codec s.file) messages ∧ messages.Perm (s.written.map (·.toRecordMessage)) :=
  ⟨_,(sound h).reads hpc,(content_perm h.reachable).map _⟩

theorem closed_round_trip_two : ∃ (s : State) (messages : List RecordMessage), s.pc = .closed ∧
    s.written = [first,second] ∧ Returns (readAll (tableCodec twoChunks) s.file) messages ∧
    messages.Perm [first.toRecordMessage,second.toRecordMessage] := by
  obtain ⟨s,hs,hpc,hwritten,_⟩ := overtaking_run
  obtain ⟨messages,hreads,hperm⟩ := closed_round_trip hs hpc
  exact ⟨s,messages,hpc,hwritten,hreads,by simpa [hwritten] using hperm⟩

/-- A serialisation in which a channel has no bytes. -/
def emptyChannelCodec (table : (t : SectionType) → List t.Payload) : Codec where
  serialize
    | .channel, _ => []
    | t, x => (tableCodec table).serialize t x
  parse
    | .channel, _, _ => ⟨true,{},8192⟩
    | t, size, bytes => (tableCodec table).parse t size bytes

def oneChunk : (t : SectionType) → List t.Payload
  | .header => [{
      chunkRawSize := some 1, size := some 2131, indexPosition := some 2114, chunkNumber := some 1,
      channelNumber := some 1, messageNumber := some 1, beginTime := some 5, endTime := some 5, isComplete := some true }]
  | .chunkHeader => [ChunkHeader.of [first]]
  | .chunkBody => [[first]]
  | .index => []
  | .channel => [{}]

/-- An empty channel before a message: the block that is read for the channel reaches to the end of the file. -/
theorem closed_loses_message : ∃ s, (system (emptyChannelCodec oneChunk)).ReachableWhile
      (fun s e => s.Serializes (emptyChannelCodec oneChunk) e) s ∧ s.pc = .closed ∧ s.written = [first] ∧
    readAll (emptyChannelCodec oneChunk) s.file 6 = some [] := by
  obtain ⟨s,hs,hlast⟩ := System.reachableWhile_of_exec (system (emptyChannelCodec oneChunk))
    (fun s e => s.tabled oneChunk e) ([.writeChannel {},.writeMessage first,.advance] ++ round ++
      [.close,.advance,.advance,.advance,.advance,.flush,.advance,.advance,.advance])
    (fun s => s.pc = .closed ∧ s.written = [first] ∧ readAll (emptyChannelCodec oneChunk) s.file 6 = some [])
    (show (system (emptyChannelCodec oneChunk)).initial (opened (emptyChannelCodec oneChunk) []
      { chunkRawSize := some 1 }) from ⟨[],_,by simp,by decide,rfl⟩) (by decide +kernel)
  refine ⟨s,hs.mono fun _ _ hok => State.serializes_of_tabled (fun {t x} hx => ?_) (fun t x => ?_) (fun t x ht => ?_) hok,
    of_decide_eq_true hlast⟩
  · cases t with
    | channel =>
      obtain rfl := mem_singleton.mp hx
      exact ⟨by decide,fun _ => rfl⟩
    | _ => exact tableCodec_roundTrips (fun t => by cases t <;> decide) hx
  · cases t with
    | channel => exact Nat.zero_le 1
    | _ => exact le_rfl
  · cases t with
    | channel => exact absurd rfl ht
    | _ => exact Nat.one_pos

/-- A chunk that is swapped back is overtaken by the next one. -/
theorem chunk_overtaken : ∃ s, (system (tableCodec twoChunks)).ReachableWhile
      (fun s e => s.Serializes (tableCodec twoChunks) e ∧ e.Filled (tableCodec twoChunks)) s ∧ s.pc = .closed ∧
    s.written = [first,second] ∧
    Returns (readAll (tableCodec twoChunks) s.file) [second.toRecordMessage,first.toRecordMessage] ∧
    first.toRecordMessage ≠ second.toRecordMessage := by
  obtain ⟨s,hs,hpc,hwritten,hcontent⟩ := overtaking_run
  refine ⟨s,hs,hpc,hwritten,?_,by decide⟩
  have hreads := (sound hs).reads hpc
  rwa [hcontent] at hreads

/-- If each chunk is in the file before the next one is full, the order is kept. -/
theorem closed_in_order (h : (system codec).ReachableWhile (fun s e => s.Serializes codec e ∧ e.Filled codec ∧ s.FlushesFirst e) s)
    (hpc : s.pc = .closed) :
    Returns (readAll codec s.file) (s.written.map (·.toRecordMessage)) := by
  have hreads := (sound (h.mono fun _ _ hok => ⟨hok.1,hok.2.1⟩)).reads hpc
  rwa [content_eq h] at hreads

theorem closed_in_order_two : ∃ s : State, s.pc = .closed ∧ s.written = [first,second] ∧
    Returns (readAll (tableCodec twoChunks) s.file) [first.toRecordMessage,second.toRecordMessage] := by
  obtain ⟨s,hs,hpc,hwritten,_⟩ := inTurn_run
  have hreads := closed_in_order hs hpc
  rw [hwritten] at hreads
  exact ⟨s,hpc,hwritten,hreads⟩

end RecordFileWriter
end Apollo.Cyber.Record
