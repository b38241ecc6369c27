import Apollo.Cyber.Record.RecordWriter

/-! `RecordWriter` when the start of a new segment fails. A file writer stands here for what it was given and for
whether its file was opened; without that it has no chunks. -/
namespace Apollo.Cyber.Record.RecordWriterFailures
open Foundation List Option System Entry AList RecordWriter

/-- Where `SplitOutfile` fails: when it opens the file, writes the header, or writes a channel after some
others. -/
inductive Failure
  | openFile
  | writeHeader
  | writeChannel (written : Nat)
  deriving DecidableEq

/-- What `SplitOutfile` meets: the order of the hash map of the channels, and the failure. -/
structure Split where
  order : List String
  failure : Option Failure := none

/-- `chunk_active_` is allocated and `fd_` valid only if the file is open. -/
structure FileWriter where
  isOpen : Bool
  entries : List Entry
  deriving DecidableEq

def FileWriter.write (f : FileWriter) (entry : Entry) : FileWriter := { f with entries := f.entries ++ [entry] }

/-- Sections in front of the end of the header are overwritten when the file is closed. -/
def FileWriter.hasHeader (f : FileWriter) : Bool :=
  match f.entries with
  | .header _::_ => true
  | _ => false

/-- `returned` is the result of the last call, and `undefined` tells whether it has used chunks that were not
allocated. -/
structure State where
  writer : RecordWriter
  earlier : List FileWriter
  fileWriter : FileWriter
  returned : Bool := true
  undefined : Bool := false

/-- `writeMessage` is the call for a serialised message, `writeTyped` the one for a message of a type
(without `content`, its serialisation fails). -/
inductive Event
  | writeChannel (name type : String) (desc : List UInt8)
  | writeMessage (name : String) (content : List UInt8) (time : UInt64) (split : Split)
  | writeTyped (name type : String) (desc : List UInt8) (content : Option (List UInt8)) (time : UInt64)
    (split : Split)

namespace State

/-- The file writer that `SplitOutfile` leaves behind, and its result. -/
def started (w : RecordWriter) (split : Split) : FileWriter × Bool :=
  let channels := split.order.map fun name => channel (w.channelOf name)
  match split.failure with
  | some .openFile => (⟨false,[]⟩, false)
  | some .writeHeader => (⟨true,[]⟩, false)
  | some (.writeChannel written) => (⟨true,.header w.header::channels.take written⟩, false)
  | none => (⟨true,.header w.header::channels⟩, true)

def splitOutfile (s : State) (split : Split) : Option State :=
  if split.order.isPerm s.writer.channelMessageNumber.keys then
    let writer := s.writer.nextSegment
    some { s with
      writer
      earlier := s.earlier ++ [s.fileWriter]
      fileWriter := (started writer split).1
      returned := (started writer split).2 }
  else none

def writeChannel (s : State) (name type : String) (desc : List UInt8) : State :=
  if s.writer.isNewChannel name then
    let s := { s with writer := s.writer.onNewChannel name type desc }
    if s.fileWriter.isOpen then
      { s with fileWriter := s.fileWriter.write (.channel ⟨name,type,desc⟩), returned := true }
    else { s with returned := false }
  else { s with returned := true }

def putMessage (s : State) (m : SingleMessage) (split : Split) : Option State :=
  let s := { s with writer := s.writer.onNewMessage (m.channelName.getD "") }
  if s.fileWriter.isOpen then
    let s := { s with fileWriter := s.fileWriter.write (.message m), writer := s.writer.count m, returned := true }
    if s.writer.isFull m then s.splitOutfile split else some s
  else some { s with undefined := true }

def writeTyped (s : State) (name type : String) (desc : List UInt8) (content : Option (List UInt8)) (time : UInt64)
    (split : Split) : Option State :=
  let known := s.writer.getMessageType name
  if known ≠ "" ∧ type ≠ known then some { s with returned := false }
  else
    let s := if known = "" then s.writeChannel name type desc else { s with returned := true }
    if s.returned then
      match content with
      | some content => s.putMessage ⟨name,time,content⟩ split
      | none => some { s with returned := false }
    else some s

/-- Nothing is defined after an undefined call. -/
def step (s : State) (e : Event) : Option State :=
  if s.undefined then none
  else
    match e with
    | .writeChannel name type desc => some (s.writeChannel name type desc)
    | .writeMessage name content time split => s.putMessage ⟨name,time,content⟩ split
    | .writeTyped name type desc content time split => s.writeTyped name type desc content time split

def files (s : State) : List FileWriter := s.earlier ++ [s.fileWriter]

def stored (s : State) : List SingleMessage :=
  (s.files.filter FileWriter.hasHeader).flatMap fun f => f.entries.filterMap getMessage

def HoldsChannel (s : State) (name : String) : Prop :=
  ∃ f ∈ s.files, f.hasHeader ∧ ∃ type desc, .channel ⟨some name,type,desc⟩ ∈ f.entries

end State

def opened (w : RecordWriter) (file : String) : State :=
  { writer := w.openFile file, earlier := [], fileWriter := ⟨true,[.header w.header]⟩ }

def system (w : RecordWriter) (file : String) : System State Event where
  initial s := s = opened w file
  step := State.step

def Event.failure : Event → Option Failure
  | .writeChannel .. => none
  | .writeMessage _ _ _ split => split.failure
  | .writeTyped _ _ _ _ _ split => split.failure

/-- The call has stored its argument. A channel that was known before the writer was opened is not written
again. -/
def Stores (w : RecordWriter) (s : State) (e : Event) (t : State) : Prop :=
  match e with
  | .writeChannel name _ _ => w.isNewChannel name → t.HoldsChannel name
  | .writeMessage name content time _ => t.stored = s.stored ++ [⟨name,time,content⟩]
  | .writeTyped name _ _ content time _ =>
    (w.isNewChannel name → t.HoldsChannel name) ∧
      ∃ content' ∈ content, t.stored = s.stored ++ [⟨some name,some time,some content'⟩]

variable {w : RecordWriter} {s t : State} {m : SingleMessage} {split : Split} {name : String}

theorem FileWriter.hasHeader_write {f : FileWriter} (h : f.hasHeader) (entry : Entry) : (f.write entry).hasHeader := by
  obtain ⟨_,entries⟩ := f
  cases entries with
  | nil => cases h
  | cons first => cases first <;> first | rfl | cases h

/-- The current file is given an entry, and perhaps a new one is started. -/
structure Continues (s : State) (entry : Entry) (more : List FileWriter) (t : State) : Prop where
  files : t.files = s.earlier ++ s.fileWriter.write entry::more

variable {entry : Entry} {more : List FileWriter} {type : String} {desc : List UInt8} {content : Option (List UInt8)}
  {time : UInt64} {e : Event}

theorem Continues.holdsChannel (h : Continues s entry more t) (hs : s.HoldsChannel name) : t.HoldsChannel name := by
  obtain ⟨f,hf,hheader,type,desc,hmem⟩ := hs
  rw [State.HoldsChannel,h.files]
  rcases mem_append.mp hf with hf | hf
  · exact ⟨f,mem_append_left _ hf,hheader,type,desc,hmem⟩
  · rw [mem_singleton.mp hf] at hheader hmem
    exact ⟨s.fileWriter.write entry,by simp,FileWriter.hasHeader_write hheader entry,type,desc,
      mem_append_left _ hmem⟩

theorem Continues.stored (h : Continues s entry more t) (hs : ∀ f ∈ s.files, f.hasHeader)
    (hmore : ∀ f ∈ more, f.entries.filterMap getMessage = []) :
    t.stored = s.stored ++ entry.getMessage.toList := by
  have hearlier : ∀ f ∈ s.earlier, f.hasHeader := fun f hf => hs f (mem_append_left _ hf)
  have hcurrent : s.fileWriter.hasHeader := hs _ (mem_append_right _ (mem_singleton_self _))
  have hnew : (more.filter FileWriter.hasHeader).flatMap (fun f => f.entries.filterMap getMessage) = [] := by
    rw [flatMap_eq_nil_iff]
    intro f hf
    exact hmore f (mem_of_mem_filter hf)
  rw [State.stored,State.stored,h.files,State.files,filter_append,filter_append,
    filter_eq_self.mpr hearlier,filter_cons_of_pos (FileWriter.hasHeader_write hcurrent _),
    filter_cons_of_pos hcurrent,filter_nil,flatMap_append,flatMap_append,flatMap_cons,
    hnew,flatMap_cons,FileWriter.write,filterMap_append]
  simp only [append_nil,flatMap_nil,append_assoc]
  cases entry <;> rfl

theorem started_messages (w : RecordWriter) (split : Split) :
    (State.started w split).1.entries.filterMap getMessage = [] := by
  have hchannels (names : List String) :
      (names.map fun name => channel (w.channelOf name)).filterMap getMessage = [] := by
    simp [filterMap_eq_nil_iff,getMessage]
  rw [State.started]
  split
  · rfl
  · rfl
  · rw [← map_take]
    exact hchannels _
  · exact hchannels _

/-- What the calls keep if no new file fails to be opened or to get its header. -/
structure Inv (w : RecordWriter) (s : State) : Prop where
  isOpen : s.fileWriter.isOpen
  defined : s.undefined = false
  headers : ∀ f ∈ s.files, f.hasHeader
  known : ∀ name ∈ s.writer.channelMessageNumber, w.isNewChannel name → s.HoldsChannel name
  synced : ∀ name ∈ s.writer.channelMessageType, name ∈ s.writer.channelMessageNumber

theorem onNewMessage_mem (w : RecordWriter) (other : String) :
    name ∈ (w.onNewMessage other).channelMessageNumber ↔ name ∈ w.channelMessageNumber := by
  rw [onNewMessage]
  split
  case h_1 hlookup =>
    rw [mem_insert]
    refine ⟨?_,.inr⟩
    rintro (rfl | h)
    · exact lookup_isSome.mp (by rw [hlookup]; rfl)
    · exact h
  case h_2 => rfl

theorem onNewMessage_type (w : RecordWriter) (other : String) :
    (w.onNewMessage other).channelMessageType = w.channelMessageType := by
  rw [onNewMessage]
  split <;> rfl

theorem writeChannel_spec (h : Inv w s) (name type : String) (desc : List UInt8) :
    Inv w (s.writeChannel name type desc) ∧ (s.writeChannel name type desc).returned ∧
      (s.writeChannel name type desc).stored = s.stored ∧
        name ∈ (s.writeChannel name type desc).writer.channelMessageNumber := by
  cases hnew : s.writer.isNewChannel name with
  | false =>
    rw [State.writeChannel,if_neg (by simp [hnew])]
    refine ⟨⟨h.isOpen,h.defined,h.headers,h.known,h.synced⟩,rfl,rfl,?_⟩
    exact not_not.mp (of_decide_eq_false hnew)
  | true =>
    have hcall : s.writeChannel name type desc = { s with
          writer := s.writer.onNewChannel name type desc
          fileWriter := s.fileWriter.write (.channel ⟨name,type,desc⟩)
          returned := true } := by
      rw [State.writeChannel,if_pos hnew]
      exact if_pos h.isOpen
    have hcontinues : Continues s (.channel ⟨name,type,desc⟩) [] (s.writeChannel name type desc) := by
      rw [hcall]
      exact ⟨rfl⟩
    have hwriter : s.writer.onNewChannel name type desc = { s.writer with
          channelMessageNumber := s.writer.channelMessageNumber.insert name 0
          channelMessageType := s.writer.channelMessageType.insert name type
          channelProtoDesc := s.writer.channelProtoDesc.insert name desc } := if_pos hnew
    have hheader : s.fileWriter.hasHeader := h.headers _ (mem_append_right _ (mem_singleton_self _))
    have hstored := hcontinues.stored h.headers (fun _ hf => by cases hf)
    rw [hcall] at hcontinues hstored ⊢
    refine ⟨⟨h.isOpen,h.defined,?_,?_,?_⟩,rfl,hstored.trans (append_nil _),?_⟩
    · intro f hf
      rcases mem_append.mp hf with hf | hf
      · exact h.headers f (mem_append_left _ hf)
      · rw [mem_singleton.mp hf]
        exact FileWriter.hasHeader_write hheader _
    · intro other hother hw
      rw [hwriter,mem_insert] at hother
      rcases hother with rfl | hother
      · exact ⟨_,mem_append_right _ (mem_singleton_self _),FileWriter.hasHeader_write hheader _,type,desc,
          mem_append_right _ (mem_singleton_self _)⟩
      · exact hcontinues.holdsChannel (h.known other hother hw)
    · intro other hother
      rw [hwriter,mem_insert] at hother ⊢
      exact hother.imp id (h.synced other)
    · rw [hwriter]
      exact (mem_insert _).mpr (.inl rfl)

/-- The failures that leave the writer without an open file or without a header. -/
def Failure.Severe : Failure → Prop
  | .openFile | .writeHeader => True
  | .writeChannel _ => False

theorem started_spec (hfailure : ∀ failure ∈ split.failure, ¬ failure.Severe) :
    (State.started w split).1.isOpen ∧ (State.started w split).1.hasHeader := by
  rw [State.started]
  split
  case h_1 hopen => exact absurd trivial (hfailure _ hopen)
  case h_2 hheader => exact absurd trivial (hfailure _ hheader)
  case h_3 | h_4 => exact ⟨rfl,rfl⟩

theorem putMessage_cases (hopen : s.fileWriter.isOpen) (hput : s.putMessage m split = some t) :
    t.undefined = s.undefined ∧
      t.writer.channelMessageNumber = (s.writer.onNewMessage (m.channelName.getD "")).channelMessageNumber ∧
      t.writer.channelMessageType = s.writer.channelMessageType ∧
      ∃ more, Continues s (.message m) more t ∧ (∀ f ∈ more, ∃ w', f = (State.started w' split).1) ∧
        (t.fileWriter = s.fileWriter.write (.message m) ∨ t.fileWriter ∈ more) := by
  have htype := onNewMessage_type s.writer (m.channelName.getD "")
  rw [State.putMessage] at hput
  simp only [hopen,if_true] at hput
  split at hput
  case isFalse =>
    cases hput
    exact ⟨rfl,rfl,htype,[],⟨rfl⟩,fun _ hf => (by cases hf),.inl rfl⟩
  case isTrue =>
    rw [State.splitOutfile] at hput
    obtain ⟨_,hput⟩ := ite_none_right_eq_some.mp hput
    cases hput
    refine ⟨rfl,rfl,htype,_,⟨?_⟩,?_,.inr (mem_singleton_self _)⟩
    · rw [State.files,append_assoc]
      rfl
    · intro _ hf
      exact ⟨_,mem_singleton.mp hf⟩

theorem putMessage_spec (h : Inv w s) (hput : s.putMessage m split = some t) : t.stored = s.stored ++ [m] ∧
      (∀ name ∈ s.writer.channelMessageNumber, w.isNewChannel name → t.HoldsChannel name) ∧
        ((∀ failure ∈ split.failure, ¬ failure.Severe) → Inv w t) := by
  obtain ⟨hundefined,hnumber,htype,more,hcontinues,hmore,hcurrent⟩ := putMessage_cases h.isOpen hput
  have hmem (name : String) : name ∈ t.writer.channelMessageNumber ↔ name ∈ s.writer.channelMessageNumber := by
    rw [hnumber]
    exact onNewMessage_mem s.writer _
  have hnone : ∀ f ∈ more, f.entries.filterMap getMessage = [] := by
    intro f hf
    obtain ⟨w',rfl⟩ := hmore f hf
    exact started_messages w' split
  have hknown : ∀ name ∈ s.writer.channelMessageNumber, w.isNewChannel name → t.HoldsChannel name :=
    fun name hname hw => hcontinues.holdsChannel (h.known name hname hw)
  refine ⟨hcontinues.stored h.headers hnone,hknown,fun hfailure => ⟨?_,?_,?_,?_,?_⟩⟩
  · rcases hcurrent with hcurrent | hcurrent
    · rw [hcurrent]
      exact h.isOpen
    · obtain ⟨w',hw'⟩ := hmore _ hcurrent
      rw [hw']
      exact (started_spec hfailure).1
  · rw [hundefined]
    exact h.defined
  · rw [hcontinues.files]
    intro f hf
    rcases mem_append.mp hf with hf | hf
    · exact h.headers f (mem_append_left _ hf)
    · rcases mem_cons.mp hf with rfl | hf
      · exact FileWriter.hasHeader_write (h.headers _ (mem_append_right _ (mem_singleton_self _))) _
      · obtain ⟨w',rfl⟩ := hmore f hf
        exact (started_spec hfailure).2
  · exact fun name hname => hknown name ((hmem name).mp hname)
  · intro name hname
    rw [htype] at hname
    exact (hmem name).mpr (h.synced name hname)

/-- A call for a message of a type returns `false`, or it goes on with the message, perhaps after its channel. -/
theorem writeTyped_cases (hcall : s.writeTyped name type desc content time split = some t) :
    (∃ s', (s' = s ∨ s' = s.writeChannel name type desc) ∧ t = { s' with returned := false }) ∨
    ∃ s' content', content' ∈ content ∧ (s' = s.writeChannel name type desc ∨
        s.writer.getMessageType name ≠ "" ∧ s' = { s with returned := true }) ∧
      s'.putMessage ⟨name,time,content'⟩ split = some t := by
  rw [State.writeTyped] at hcall
  simp only at hcall
  split at hcall
  case isTrue =>
    cases hcall
    exact .inl ⟨s,.inl rfl,rfl⟩
  case isFalse =>
    by_cases hknown : s.writer.getMessageType name = ""
    · rw [if_pos hknown] at hcall
      split at hcall
      case isFalse hreturned =>
        cases hcall
        refine .inl ⟨_,.inr rfl,?_⟩
        rw [← Bool.eq_false_iff.mpr hreturned]
      case isTrue =>
        cases content with
        | none =>
          cases hcall
          exact .inl ⟨_,.inr rfl,rfl⟩
        | some content => exact .inr ⟨_,content,rfl,.inl rfl,hcall⟩
    · rw [if_neg hknown,if_pos rfl] at hcall
      cases content with
      | none =>
        cases hcall
        exact .inl ⟨s,.inl rfl,rfl⟩
      | some content => exact .inr ⟨_,content,rfl,.inr ⟨hknown,rfl⟩,hcall⟩

theorem writeTyped_spec (h : Inv w s) (hcall : s.writeTyped name type desc content time split = some t) :
    (t.returned → (w.isNewChannel name → t.HoldsChannel name) ∧
      ∃ content' ∈ content, t.stored = s.stored ++ [⟨some name,some time,some content'⟩]) ∧
        ((∀ failure ∈ split.failure, ¬ failure.Severe) → Inv w t) := by
  obtain ⟨hchannel,_,hsame,hnew⟩ := writeChannel_spec h name type desc
  rcases writeTyped_cases hcall with ⟨s',hs',rfl⟩ | ⟨s',content',hcontent,hs',hput⟩
  · have hinv : Inv w s' := by
      rcases hs' with rfl | rfl
      · exact h
      · exact hchannel
    exact ⟨Bool.noConfusion,
      fun _ => ⟨hinv.isOpen,hinv.defined,hinv.headers,hinv.known,hinv.synced⟩⟩
  · -- the channel is known now, from this call or from an earlier one
    obtain ⟨hinv,hstored,hname⟩ : Inv w s' ∧ s'.stored = s.stored ∧ name ∈ s'.writer.channelMessageNumber := by
      rcases hs' with rfl | ⟨hknown,rfl⟩
      · exact ⟨hchannel,hsame,hnew⟩
      · refine ⟨⟨h.isOpen,h.defined,h.headers,h.known,h.synced⟩,rfl,h.synced name ?_⟩
        by_contra hmem
        rw [getMessageType,lookup_eq_none.mpr hmem] at hknown
        exact hknown rfl
    obtain ⟨hput,hholds,hkeeps⟩ := putMessage_spec hinv hput
    exact ⟨fun _ => ⟨hholds name hname,content',hcontent,hstored ▸ hput⟩,hkeeps⟩

theorem step_spec (h : Inv w s) (he : s.step e = some t) :
    (t.returned → Stores w s e t) ∧ ((∀ failure ∈ e.failure, ¬ failure.Severe) → Inv w t) := by
  unfold State.step at he
  rw [if_neg (by simp [h.defined])] at he
  cases e with
  | writeChannel name type desc =>
    cases he
    obtain ⟨hinv,_,_,hname⟩ := writeChannel_spec h name type desc
    exact ⟨fun _ => hinv.known name hname,fun _ => hinv⟩
  | writeMessage =>
    obtain ⟨hput,_,hkeeps⟩ := putMessage_spec h he
    exact ⟨fun _ => hput,hkeeps⟩
  | writeTyped => exact writeTyped_spec h he

structure Allocated (s : State) : Prop where
  isOpen : s.fileWriter.isOpen
  defined : s.undefined = false

theorem Allocated.writeChannel (h : Allocated s) (name type : String) (desc : List UInt8) :
    Allocated (s.writeChannel name type desc) := by
  rw [State.writeChannel]
  split
  case isTrue =>
    simp only [h.isOpen,if_true]
    exact ⟨h.isOpen,h.defined⟩
  case isFalse => exact ⟨h.isOpen,h.defined⟩

theorem Allocated.putMessage (h : Allocated s) (hput : s.putMessage m split = some t) :
    t.undefined = false ∧ (split.failure ≠ some .openFile → Allocated t) := by
  obtain ⟨hundefined,_,_,_,_,hmore,hcurrent⟩ := putMessage_cases h.isOpen hput
  have hdefined := hundefined.trans h.defined
  refine ⟨hdefined,fun hfailure => ⟨?_,hdefined⟩⟩
  rcases hcurrent with hcurrent | hcurrent
  · rw [hcurrent]
    exact h.isOpen
  · obtain ⟨_,hw'⟩ := hmore _ hcurrent
    rw [hw',State.started]
    split
    case h_1 hopen => exact absurd hopen hfailure
    case h_2 | h_3 | h_4 => rfl

theorem Allocated.step (h : Allocated s) (he : s.step e = some t) :
    t.undefined = false ∧ (e.failure ≠ some .openFile → Allocated t) := by
  unfold State.step at he
  rw [if_neg (by simp [h.defined])] at he
  cases e with
  | writeChannel name type desc =>
    cases he
    exact ⟨(h.writeChannel name type desc).defined,fun _ => h.writeChannel name type desc⟩
  | writeMessage => exact h.putMessage he
  | writeTyped name type desc =>
    rcases writeTyped_cases he with ⟨s',hs',rfl⟩ | ⟨s',_,_,hs',hput⟩
    · have hallocated : Allocated s' := by
        rcases hs' with rfl | rfl
        · exact h
        · exact h.writeChannel name type desc
      exact ⟨hallocated.defined,fun _ => ⟨hallocated.isOpen,hallocated.defined⟩⟩
    · have hallocated : Allocated s' := by
        rcases hs' with rfl | ⟨_,rfl⟩
        · exact h.writeChannel name type desc
        · exact ⟨h.isOpen,h.defined⟩
      exact hallocated.putMessage hput

/-- As long as each new file is opened, no call works on chunks that were not allocated; as long as each one also
gets its header, every call returns `false` or stores its argument. -/
theorem survives_splits (file : String) (hw : ∀ name ∈ w.channelMessageType, name ∈ w.channelMessageNumber)
    {e : Event} :
    ((system w file).ReachableWhile (fun _ e => e.failure ≠ some .openFile) s → s.step e = some t →
      t.undefined = false) ∧
    ((system w file).ReachableWhile (fun _ e => ∀ failure ∈ e.failure, ¬ failure.Severe) s → s.step e = some t →
      t.returned = false ∨ Stores w s e t) := by
  refine ⟨fun h he => ?_,fun h he => ?_⟩
  · have hallocated : Allocated s := by
      refine h.invariant ?_ fun s e t hs hfailure he => (hs.step he).2 hfailure
      rintro _ rfl
      exact ⟨rfl,rfl⟩
    exact (hallocated.step he).1
  · have hinv : Inv w s := by
      refine h.invariant ?_ fun _ _ t hs hfailure he => (step_spec hs he).2 hfailure
      rintro _ rfl
      refine ⟨rfl,rfl,fun _ hf => ?_,fun _ hname hnew => ?_,hw⟩
      · rw [mem_singleton.mp hf]
        rfl
      · exact absurd hname (of_decide_eq_true hnew)
    cases hreturned : t.returned with
    | false => exact .inl rfl
    | true => exact .inr ((step_spec hinv he).1 hreturned)

def smallSegments : RecordWriter := { header := { segmentRawSize := some 1 } }

def fills (name : String) (failure : Option Failure) (order : List String) : Event :=
  .writeMessage name [0,0] 7 ⟨order,failure⟩

/-- The calls go on after a channel was not written to a new file. -/
theorem survives_splits_channel : ∃ s t, (system smallSegments "a").exec (opened smallSegments "a")
        [.writeChannel "c" "t" [],fills "c" (some (.writeChannel 0)) ["c"]] = some s ∧
      s.step (fills "c" none ["c"]) = some t ∧ t.undefined = false ∧
        (t.returned = false ∨ Stores smallSegments s (fills "c" none ["c"]) t) := by
  have hrun : ((system smallSegments "a").exec (opened smallSegments "a")
      ([.writeChannel "c" "t" [],fills "c" (some (.writeChannel 0)) ["c"]] ++ [fills "c" none ["c"]])).isSome := by
    decide +kernel
  obtain ⟨_,hrun⟩ := isSome_iff_exists.mp hrun
  obtain ⟨s,hs,hlast⟩ := exec_append.mp hrun
  obtain ⟨t,he,_⟩ := exec_cons.mp hlast
  have hopen : ∀ e ∈ [Event.writeChannel "c" "t" [],fills "c" (some (.writeChannel 0)) ["c"]],
      e.failure ≠ some .openFile := by
    simp [fills,Event.failure]
  have hmild : ∀ e ∈ [Event.writeChannel "c" "t" [],fills "c" (some (.writeChannel 0)) ["c"]],
      ∀ failure ∈ e.failure, ¬ failure.Severe := by
    simp [fills,Event.failure,Failure.Severe]
  have hsurvives := survives_splits (w := smallSegments) (s := s) (t := t) (e := fills "c" none ["c"]) "a"
    (fun name hname => absurd hname (notMem_empty name))
  refine ⟨s,t,hs,he,hsurvives.1 ?_ he,hsurvives.2 ?_ he⟩
  · exact exec_keeps (fun _ e _ he hs hstep => .next hs (hopen e he) hstep) (.start rfl) hs
  · exact exec_keeps (fun _ e _ he hs hstep => .next hs (hmild e he) hstep) (.start rfl) hs

/-- After a file that could not be opened a message is written to chunks that do not exist, and a channel is
reported as written that no file has. -/
theorem failed_split_undefined : (∃ s, (system smallSegments "a").exec (opened smallSegments "a")
        [fills "c" (some .openFile) [],fills "c" none []] = some s ∧ s.undefined) ∧
    ∃ s, (system smallSegments "a").exec (opened smallSegments "a")
        [fills "c" (some .openFile) [],.writeChannel "d" "t" [],.writeChannel "d" "t" []] = some s ∧ s.returned ∧
      s.files = [⟨true,[.header smallSegments.header,.message ⟨"c",some 7,some [0,0]⟩]⟩,⟨false,[]⟩] := by
  have hmessage : ((system smallSegments "a").exec (opened smallSegments "a")
      [fills "c" (some .openFile) [],fills "c" none []]).any State.undefined := by decide +kernel
  have hchannel : ((system smallSegments "a").exec (opened smallSegments "a")
      [fills "c" (some .openFile) [],.writeChannel "d" "t" [],.writeChannel "d" "t" []]).any fun s =>
        s.returned ∧ s.files = [⟨true,[.header smallSegments.header,.message ⟨"c",some 7,some [0,0]⟩]⟩,
          ⟨false,[]⟩] := by decide +kernel
  obtain ⟨s,hs,hundefined⟩ := (any_eq_true _ _).mp hmessage
  obtain ⟨t,ht,hend⟩ := (any_eq_true _ _).mp hchannel
  exact ⟨⟨s,hs,hundefined⟩,t,ht,of_decide_eq_true hend⟩

end Apollo.Cyber.Record.RecordWriterFailures
