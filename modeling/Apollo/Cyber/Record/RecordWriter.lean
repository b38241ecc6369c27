import Apollo.Cyber.Record.RecordFile
import Apollo.Foundation.Table
import Apollo.Foundation.Transition

/-! `RecordWriter`: it splits a recording into segment files by size and by time. A file writer stands here for the list
of what it was given; the order in which the hash map of the channels is read comes with the event. The segments of a
recording hold its messages in order, and each of them starts with the channels that were known before. -/
namespace Apollo.Cyber.Record
open Foundation Function

inductive Entry
  | header (header : Header)
  | channel (channel : Channel)
  | message (message : SingleMessage)
  deriving DecidableEq

def Entry.getMessage : Entry → Option SingleMessage
  | .message m => some m
  | _ => none

structure RecordWriter where
  header : Header
  file : String := ""
  path : String := ""
  segmentRawSize : UInt64 := 0
  segmentBeginTime : UInt64 := 0
  fileIndex : UInt32 := 0
  channelMessageNumber : Table String UInt64 := ∅
  channelMessageType : Table String String := ∅
  channelProtoDesc : Table String (List UInt8) := ∅

namespace RecordWriter

def suffix (index : Nat) : String := "." ++ .ofList ((Nat.toDigits 10 index).leftpad 5 '0')

def isNewChannel (w : RecordWriter) (name : String) : Bool := name ∉ w.channelMessageNumber

def onNewChannel (w : RecordWriter) (name type : String) (desc : List UInt8) : RecordWriter :=
  if w.isNewChannel name then { w with
    channelMessageNumber := w.channelMessageNumber.insert name 0
    channelMessageType := w.channelMessageType.insert name type
    channelProtoDesc := w.channelProtoDesc.insert name desc }
  else w

def onNewMessage (w : RecordWriter) (name : String) : RecordWriter :=
  match w.channelMessageNumber.lookup name with
  | some number => { w with channelMessageNumber := w.channelMessageNumber.insert name (number+1) }
  | none => w

def getMessageType (w : RecordWriter) (name : String) : String := (w.channelMessageType.lookup name).getD ""

def channelOf (w : RecordWriter) (name : String) : Channel :=
  ⟨name,w.getMessageType name,(w.channelProtoDesc.lookup name).getD []⟩

def segmentInterval (w : RecordWriter) : UInt64 := w.header.segmentInterval.getD 0

def maxSegmentRawSize (w : RecordWriter) : UInt64 := w.header.segmentRawSize.getD 0

def count (w : RecordWriter) (m : SingleMessage) : RecordWriter :=
  let first := if w.segmentBeginTime = 0 then m.getTime else w.segmentBeginTime
  { w with
    segmentRawSize := w.segmentRawSize+UInt64.ofNat m.getContent.length
    segmentBeginTime := if first > m.getTime then m.getTime else first }

def isFull (w : RecordWriter) (m : SingleMessage) : Bool :=
  (0 < w.segmentInterval && w.segmentInterval < m.getTime - w.segmentBeginTime) ||
    (0 < w.maxSegmentRawSize && w.maxSegmentRawSize < w.segmentRawSize)

/-- `SplitOutfile` up to the opening of the file. -/
def nextSegment (w : RecordWriter) : RecordWriter :=
  let index := if w.fileIndex > 99999 then 0 else w.fileIndex
  { w with
    path := w.file ++ suffix index.toNat
    fileIndex := index+1
    segmentRawSize := 0
    segmentBeginTime := 0 }

def openFile (w : RecordWriter) (file : String) : RecordWriter :=
  { w with
    file
    fileIndex := 1
    path := if 0 < w.segmentInterval || 0 < w.maxSegmentRawSize then file ++ suffix 0 else file }

/-- A segment file, with the channels that were registered before it was started. -/
structure Segment where
  path : String
  registered : List Channel

/-- The files and the writer. `earlier` and `current` log the segments, `written` and `registered` the
messages and the channels that the calls have brought. -/
structure State where
  writer : RecordWriter
  disk : String → List Entry
  earlier : List Segment
  current : Segment
  written : List SingleMessage
  registered : List Channel

/-- `writeMessage` is the call for a serialised message, `writeTyped` the one for a message of a type
(without `content`, its serialisation fails). `order` is the order of the channels in a new segment. -/
inductive Event
  | writeChannel (name type : String) (desc : List UInt8)
  | writeMessage (name : String) (content : List UInt8) (time : UInt64) (order : List String)
  | writeTyped (name type : String) (desc : List UInt8) (content : Option (List UInt8)) (time : UInt64)
    (order : List String)

namespace State

def write (s : State) (entry : Entry) : State :=
  { s with disk := update s.disk s.writer.path (s.disk s.writer.path ++ [entry]) }

def writeChannel (s : State) (name type : String) (desc : List UInt8) : State :=
  if s.writer.isNewChannel name then
    { s with
      writer := s.writer.onNewChannel name type desc
      registered := s.registered ++ [⟨name,type,desc⟩] : State }.write (.channel ⟨name,type,desc⟩)
  else s

def splitOutfile (s : State) (order : List String) : Option State :=
  if order.isPerm s.writer.channelMessageNumber.keys then
    let writer := s.writer.nextSegment
    some { s with
      writer
      disk := update s.disk writer.path
        (.header writer.header::order.map fun name => .channel (writer.channelOf name))
      earlier := s.earlier ++ [s.current]
      current := ⟨writer.path,s.registered⟩ }
  else none

def putMessage (s : State) (m : SingleMessage) (order : List String) : Option State :=
  let s := { s with
    writer := s.writer.onNewMessage (m.channelName.getD "")
    written := s.written ++ [m] : State }.write (.message m)
  let s := { s with writer := s.writer.count m }
  if s.writer.isFull m then s.splitOutfile order else some s

def step (s : State) : Event → Option State
  | .writeChannel name type desc => some (s.writeChannel name type desc)
  | .writeMessage name content time order => s.putMessage ⟨name,time,content⟩ order
  | .writeTyped name type desc content time order =>
    let known := s.writer.getMessageType name
    if known ≠ "" ∧ type ≠ known then some s
    else
      let s := if known = "" then s.writeChannel name type desc else s
      match content with
      | some content => s.putMessage ⟨name,time,content⟩ order
      | none => some s

def segments (s : State) : List Segment := s.earlier ++ [s.current]

end State

/-- A writer that may have been used before is opened, with any files on the disk. -/
def opened (w : RecordWriter) (file : String) (disk : String → List Entry) : State :=
  let writer := w.openFile file
  { writer
    disk := update disk writer.path [.header writer.header]
    earlier := []
    current := ⟨writer.path,[]⟩
    written := []
    registered := [] }

def system : System State Event where
  initial s := ∃ w file disk, s = opened w file disk
  step := State.step

open List State Nat AList
variable {w w' : RecordWriter} {s t : State} {order : List String}

theorem suffix_injective : Function.Injective suffix := by
  intro i j h
  have hvalue (n : Nat) : ofDigitChars 10 ((toDigits 10 n).leftpad 5 '0') 0 = n := by
    rw [List.leftpad,ofDigitChars_append,ofDigitChars_replicate_zero,mul_zero, ofDigitChars_ten_toDigits]
  have hl := congrArg String.toList h
  simp only [suffix,String.toList_append,String.toList_ofList] at hl
  rw [← hvalue i,← hvalue j,append_cancel_left hl]

def splits (w : RecordWriter) : Bool := 0 < w.segmentInterval || 0 < w.maxSegmentRawSize

def segmentPath (w : RecordWriter) (i : Nat) : String := if w.splits then w.file ++ suffix i else w.file

theorem segmentPath_injective (h : w.splits) : Function.Injective w.segmentPath := by
  intro _ _ hij
  rw [segmentPath,segmentPath,if_pos h,if_pos h] at hij
  have hl := congrArg String.toList hij
  rw [String.toList_append,String.toList_append] at hl
  exact suffix_injective (String.toList_injective (append_cancel_left hl))

variable {m : SingleMessage} {c : Channel} {entries : List Entry} {e : Event}

theorem splits_of_isFull (h : w.isFull m) : w.splits := by
  simp only [isFull,splits,Bool.or_eq_true,Bool.and_eq_true] at h ⊢
  exact h.imp And.left And.left

structure SameFile (w w' : RecordWriter) : Prop where
  header : w'.header = w.header
  file : w'.file = w.file
  path : w'.path = w.path
  fileIndex : w'.fileIndex = w.fileIndex

theorem SameFile.splits (h : SameFile w w') : w'.splits = w.splits := by
  rw [RecordWriter.splits,RecordWriter.splits,segmentInterval,maxSegmentRawSize,h.header]
  rfl

theorem SameFile.segmentPath (h : SameFile w w') : w'.segmentPath = w.segmentPath := by
  funext i
  rw [RecordWriter.segmentPath,RecordWriter.segmentPath,h.splits,h.file]

theorem onNewChannel_sameFile (name type : String) (desc : List UInt8) :
    SameFile w (w.onNewChannel name type desc) := by
  rw [onNewChannel]
  split <;> exact ⟨rfl,rfl,rfl,rfl⟩

theorem onNewMessage_sameFile (name : String) : SameFile w (w.onNewMessage name) := by
  rw [onNewMessage]
  split <;> exact ⟨rfl,rfl,rfl,rfl⟩

def Knows (w : RecordWriter) (c : Channel) : Prop := ∃ name ∈ w.channelMessageNumber, c = w.channelOf name

theorem Knows.onNewChannel (h : w.Knows c) (name type : String) (desc : List UInt8) :
    (w.onNewChannel name type desc).Knows c := by
  obtain ⟨x,hx,rfl⟩ := h
  rw [RecordWriter.onNewChannel]
  split
  case isTrue hnew =>
    have hne : x ≠ name := by
      rintro rfl
      simp [isNewChannel,hx] at hnew
    refine ⟨x,(mem_insert _).mpr (.inr hx),?_⟩
    simp only [channelOf,getMessageType,lookup_insert_ne hne]
  case isFalse => exact ⟨x,hx,rfl⟩

theorem knows_onNewChannel {name : String} (type : String) (desc : List UInt8)
    (h : w.isNewChannel name) : (w.onNewChannel name type desc).Knows ⟨name,type,desc⟩ := by
  rw [onNewChannel,if_pos h]
  refine ⟨name,(mem_insert _).mpr (.inl rfl),?_⟩
  simp only [channelOf,getMessageType,lookup_insert,Option.getD_some]

theorem Knows.onNewMessage (h : w.Knows c) (name : String) : (w.onNewMessage name).Knows c := by
  obtain ⟨x,hx,rfl⟩ := h
  rw [RecordWriter.onNewMessage]
  split
  case h_1 _ => exact ⟨x,(mem_insert _).mpr (.inr hx),rfl⟩
  case h_2 => exact ⟨x,hx,rfl⟩

/-- The channel stands in front of the first message of the file. -/
def Declares (entries : List Entry) (c : Channel) : Prop :=
  ∃ before after, entries = before ++ after ∧ .channel c ∈ before ∧ ∀ e ∈ before, e.getMessage = none

theorem Declares.append (h : Declares entries c) (more : List Entry) : Declares (entries ++ more) c := by
  obtain ⟨before,after,rfl,hc,hn⟩ := h
  exact ⟨before,after ++ more,append_assoc ..,hc,hn⟩

def stored (disk : String → List Entry) (segments : List Segment) : List SingleMessage :=
  segments.flatMap fun segment => (disk segment.path).filterMap Entry.getMessage

theorem stored_update {disk : String → List Entry} {segments : List Segment} {path : String}
    (h : ∀ segment ∈ segments, segment.path ≠ path) :
    stored (update disk path entries) segments = stored disk segments := by
  apply flatMap_congr
  intro segment hs
  rw [update_of_ne (h segment hs)]

/-- While there are fewer than 100000 segments, the numbers in their paths do not start again. -/
structure Inv (s : State) : Prop where
  fileIndex : s.writer.fileIndex.toNat = s.segments.length
  paths : s.segments.map (·.path) = (List.range s.segments.length).map s.writer.segmentPath
  single : s.writer.splits = false → s.earlier = []
  path : s.current.path = s.writer.path
  held : stored s.disk s.segments = s.written
  declared : ∀ segment ∈ s.segments, ∀ c ∈ segment.registered, Declares (s.disk segment.path) c
  registered : ∀ c ∈ s.registered, s.writer.Knows c

theorem Inv.nodup (h : Inv s) : (s.segments.map (·.path)).Nodup := by
  by_cases hs : s.writer.splits
  · rw [h.paths]
    exact nodup_range.map (segmentPath_injective hs)
  · rw [segments,h.single (Bool.eq_false_iff.mpr hs)]
    exact nodup_singleton _

theorem Inv.earlier_ne (h : Inv s) : ∀ segment ∈ s.earlier, segment.path ≠ s.writer.path := by
  intro _ hs he
  have hn := h.nodup
  rw [segments,map_append,map_singleton] at hn
  exact disjoint_of_nodup_append hn (mem_map_of_mem hs) (mem_singleton.mpr (he.trans h.path.symm))

theorem stored_segments (disk : String → List Entry) (s : State) : stored disk s.segments =
    stored disk s.earlier ++ (disk s.current.path).filterMap Entry.getMessage := by
  rw [stored,segments,flatMap_append,flatMap_singleton]
  rfl

theorem Inv.write (h : Inv s) (entry : Entry) (hw : SameFile s.writer t.writer)
    (hd : t.disk = update s.disk s.writer.path (s.disk s.writer.path ++ [entry]))
    (he : t.earlier = s.earlier) (hc : t.current = s.current)
    (hm : t.written = s.written ++ entry.getMessage.toList)
    (hr : ∀ c ∈ t.registered, t.writer.Knows c) : Inv t := by
  have hseg : t.segments = s.segments := by rw [segments,segments,he,hc]
  refine ⟨?_,?_,?_,?_,?_,?_,hr⟩
  · rw [hw.fileIndex,hseg,h.fileIndex]
  · rw [hseg,hw.segmentPath,h.paths]
  · rw [hw.splits,he]
    exact h.single
  · rw [hc,hw.path,h.path]
  · rw [hseg,hm,← h.held,stored_segments,stored_segments,hd,stored_update h.earlier_ne,h.path,
      update_self,filterMap_append,append_assoc]
    cases entry <;> rfl
  · rw [hseg,hd]
    intro segment hs c hcr
    have hdecl := h.declared segment hs c hcr
    by_cases hp : segment.path = s.writer.path
    · rw [hp,update_self,← hp]
      exact hdecl.append _
    · rwa [update_of_ne hp]

theorem Inv.writeChannel (h : Inv s) (name type : String) (desc : List UInt8) :
    Inv (s.writeChannel name type desc) := by
  rw [State.writeChannel]
  split
  case isTrue hnew =>
    refine h.write (.channel ⟨name,type,desc⟩) (onNewChannel_sameFile name type desc) ?_ rfl rfl
      (append_nil _).symm ?_
    · rw [State.write,(onNewChannel_sameFile name type desc).path]
    · intro c hc
      rcases mem_append.mp hc with hc | hc
      · exact (h.registered c hc).onNewChannel name type desc
      · rw [mem_singleton.mp hc]
        exact knows_onNewChannel type desc hnew
  case isFalse => exact h

theorem Inv.splitOutfile (h : Inv s) (hs : s.writer.splits) (hlt : s.segments.length < 100000)
    (ht : s.splitOutfile order = some t) : Inv t := by
  rw [State.splitOutfile] at ht
  obtain ⟨hperm,ht⟩ := Option.ite_none_right_eq_some.mp ht
  cases ht
  have hperm := isPerm_iff.mp hperm
  -- the index is below the limit, so the file has the next number
  have hindex : s.writer.nextSegment.fileIndex.toNat = s.segments.length+1 ∧
      s.writer.nextSegment.path = s.writer.segmentPath s.segments.length := by
    have hle : ¬ s.writer.fileIndex > 99999 := by
      rw [gt_iff_lt,UInt32.lt_iff_toNat_lt,h.fileIndex]
      exact not_lt.mpr (le_of_lt_succ hlt)
    simp only [nextSegment,if_neg hle,segmentPath,if_pos hs,h.fileIndex]
    rw [UInt32.toNat_add,h.fileIndex,UInt32.toNat_one]
    exact ⟨mod_eq_of_lt (by omega),trivial⟩
  have hfresh : ∀ segment ∈ s.segments, segment.path ≠ s.writer.nextSegment.path := by
    intro segment hseg heq
    have hmem : segment.path ∈ s.segments.map (·.path) := mem_map_of_mem hseg
    rw [h.paths] at hmem
    obtain ⟨i,hi,hpath⟩ := mem_map.mp hmem
    rw [hindex.2,← hpath] at heq
    exact Nat.ne_of_lt (mem_range.mp hi) (segmentPath_injective hs heq)
  constructor
  · simpa [segments] using hindex.1
  · change (s.segments ++ [_]).map _ = (List.range (s.segments ++ [_]).length).map _
    rw [map_append,h.paths,length_append,length_singleton,range_succ,map_append,map_singleton,map_singleton]
    exact congrArg (fun path => _ ++ [path]) hindex.2
  · intro hn
    exact absurd hs (Bool.eq_false_iff.mp hn)
  · rfl
  · -- the new file has no messages yet
    rw [stored_segments]
    change stored (update s.disk _ _) s.segments ++
      (update s.disk _ _ s.writer.nextSegment.path).filterMap _ = s.written
    rw [stored_update hfresh,h.held,update_self]
    simp [Entry.getMessage]
  · intro segment hseg c hc
    rcases mem_append.mp hseg with hseg | hseg
    · change Declares (update s.disk _ _ segment.path) c
      rw [update_of_ne (hfresh segment hseg)]
      exact h.declared segment hseg c hc
    · obtain rfl := mem_singleton.mp hseg
      obtain ⟨name,hname,rfl⟩ := h.registered c hc
      change Declares (update s.disk _ _ s.writer.nextSegment.path) _
      rw [update_self]
      refine ⟨_,[],(append_nil _).symm,?_,?_⟩
      · exact mem_cons_of_mem _ (mem_map.mpr ⟨name,hperm.mem_iff.mpr hname,rfl⟩)
      · simp [Entry.getMessage]
  · exact h.registered

theorem Inv.message (h : Inv s) (m : SingleMessage) : Inv { ({ s with
        writer := s.writer.onNewMessage (m.channelName.getD "")
        written := s.written ++ [m] : State }.write (.message m)) with
      writer := (s.writer.onNewMessage (m.channelName.getD "")).count m } := by
  have hsame := onNewMessage_sameFile (w := s.writer) (m.channelName.getD "")
  refine h.write (.message m) ⟨hsame.header,hsame.file,hsame.path,hsame.fileIndex⟩ ?_ rfl rfl rfl ?_
  · rw [State.write,hsame.path]
  · intro c hc
    exact (h.registered c hc).onNewMessage (m.channelName.getD "")

theorem putMessage_length (ht : s.putMessage m order = some t) : s.segments.length ≤ t.segments.length := by
  rw [putMessage] at ht
  split at ht
  case isTrue =>
    rw [splitOutfile] at ht
    split at ht
    case isTrue =>
      cases ht
      simp [segments,write]
    case isFalse => cases ht
  case isFalse =>
    cases ht
    exact le_refl _

theorem Inv.putMessage (h : Inv s) (ht : s.putMessage m order = some t) (hlt : t.segments.length < 100000) : Inv t := by
  have hle := putMessage_length ht
  rw [State.putMessage] at ht
  split at ht
  case isTrue hfull =>
    exact (h.message m).splitOutfile (splits_of_isFull hfull) (lt_of_le_of_lt hle hlt) ht
  case isFalse =>
    cases ht
    exact h.message m

theorem opened_inv (w : RecordWriter) (file : String) (disk : String → List Entry) : Inv (opened w file disk) where
  fileIndex := rfl
  paths := rfl
  single _ := rfl
  path := rfl
  held := by
    rw [stored_segments]
    change [] ++ (update disk _ _ (w.openFile file).path).filterMap _ = []
    rw [update_self]
    rfl
  declared segment hs c hc := by
    rw [mem_singleton.mp hs] at hc
    cases hc
  registered _ hc := by cases hc

theorem writeChannel_segments (name type : String) (desc : List UInt8) :
    (s.writeChannel name type desc).segments = s.segments := by
  rw [writeChannel]
  split <;> rfl

theorem step_calls (he : s.step e = some t) : ∃ u : State,
    (u = s ∨ ∃ name type desc, u = s.writeChannel name type desc) ∧
    (t = u ∨ ∃ m order, u.putMessage m order = some t) := by
  cases e with
  | writeChannel name type desc =>
    cases he
    exact ⟨_,.inr ⟨name,type,desc,rfl⟩,.inl rfl⟩
  | writeMessage _ _ _ order => exact ⟨s,.inl rfl,.inr ⟨_,order,he⟩⟩
  | writeTyped name type desc content _ order =>
    rw [step] at he
    split at he
    case isTrue =>
      cases he
      exact ⟨s,.inl rfl,.inl rfl⟩
    case isFalse =>
      refine ⟨if s.writer.getMessageType name = "" then s.writeChannel name type desc else s,?_,?_⟩
      · split
        · exact .inr ⟨name,type,desc,rfl⟩
        · exact .inl rfl
      · cases content with
        | none =>
          cases he
          exact .inl rfl
        | some => exact .inr ⟨_,order,he⟩

theorem Inv.step (h : s.segments.length < 100000 → Inv s) (he : s.step e = some t) (hlt : t.segments.length < 100000) :
    Inv t := by
  obtain ⟨u,hu,ht⟩ := step_calls he
  have hlen : u.segments.length = s.segments.length := by
    rcases hu with rfl | ⟨name,type,desc,rfl⟩
    · rfl
    · rw [writeChannel_segments]
  have hle : u.segments.length ≤ t.segments.length := by
    rcases ht with rfl | ⟨m,order,ht⟩
    · exact le_refl _
    · exact putMessage_length ht
  have hs := h (hlen ▸ lt_of_le_of_lt hle hlt)
  have hinv : Inv u := by
    rcases hu with rfl | ⟨name,type,desc,rfl⟩
    · exact hs
    · exact hs.writeChannel name type desc
  rcases ht with rfl | ⟨m,order,ht⟩
  · exact hinv
  · exact hinv.putMessage ht hlt

theorem reachable_inv (h : system.Reachable s) (hlt : s.segments.length < 100000) : Inv s := by
  revert hlt
  apply h.invariant
  · rintro _ ⟨w,file,disk,rfl⟩ _
    exact opened_inv w file disk
  · intro _ _ _ hs he hlt
    exact Inv.step hs he hlt

end RecordWriter
end Apollo.Cyber.Record
