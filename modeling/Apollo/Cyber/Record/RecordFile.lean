import Apollo.Foundation.Bytes

/-! The format of a record file: a header of fixed length, then the sections of channels and chunks, then the index. Each
section has a type and a size in front of a serialised message. Serialisation itself is a parameter. What a complete
record file holds: the header, channels and chunks in some order, and the index. -/
namespace Apollo.Cyber.Record
open Foundation List

inductive SectionType
  | header
  | chunkHeader
  | chunkBody
  | index
  | channel
  deriving DecidableEq

inductive CompressType
  | none
  | bz2
  | lz4
  deriving DecidableEq

/-- A field of a message that may be set is an `Option`; reading one that is not set gives its
default. -/
structure Header where
  majorVersion : Option UInt32 := .none
  minorVersion : Option UInt32 := .none
  compress : Option CompressType := .none
  chunkInterval : Option UInt64 := .none
  segmentInterval : Option UInt64 := .none
  indexPosition : Option UInt64 := .none
  chunkNumber : Option UInt64 := .none
  channelNumber : Option UInt64 := .none
  beginTime : Option UInt64 := .none
  endTime : Option UInt64 := .none
  messageNumber : Option UInt64 := .none
  size : Option UInt64 := .none
  isComplete : Option Bool := .none
  chunkRawSize : Option UInt64 := .none
  segmentRawSize : Option UInt64 := .none
  deriving DecidableEq

structure Channel where
  name : Option String := none
  messageType : Option String := none
  protoDesc : Option (List UInt8) := none
  deriving DecidableEq

structure SingleMessage where
  channelName : Option String := none
  time : Option UInt64 := none
  content : Option (List UInt8) := none
  deriving DecidableEq

structure ChunkHeader where
  beginTime : UInt64 := 0
  endTime : UInt64 := 0
  messageNumber : Nat := 0
  rawSize : Nat := 0
  deriving DecidableEq

abbrev ChunkBody := List SingleMessage

inductive Cache
  | channel (messageNumber : UInt64) (name messageType : String) (protoDesc : List UInt8)
  | chunkHeader (header : ChunkHeader)
  | chunkBody (messageNumber : Nat)
  deriving DecidableEq

structure SingleIndex where
  type : SectionType
  position : Nat
  cache : Cache
  deriving DecidableEq

abbrev Index := List SingleIndex

structure RecordMessage where
  channelName : String
  content : List UInt8
  time : UInt64
  deriving DecidableEq

namespace SingleMessage

def getTime (m : SingleMessage) : UInt64 := m.time.getD 0

def getContent (m : SingleMessage) : List UInt8 := m.content.getD []

def toRecordMessage (m : SingleMessage) : RecordMessage := ⟨m.channelName.getD "",m.getContent,m.getTime⟩

end SingleMessage

namespace Header

def getBeginTime (h : Header) : UInt64 := h.beginTime.getD 0

def getEndTime (h : Header) : UInt64 := h.endTime.getD 0

end Header

namespace SectionType

def number : SectionType → Nat
  | header => 0
  | chunkHeader => 1
  | chunkBody => 2
  | index => 3
  | channel => 4

def ofNumber : Nat → Option SectionType
  | 0 => some header
  | 1 => some chunkHeader
  | 2 => some chunkBody
  | 3 => some index
  | 4 => some channel
  | _ => none

abbrev Payload : SectionType → Type
  | header => Header
  | chunkHeader => ChunkHeader
  | chunkBody => ChunkBody
  | index => Index
  | channel => Channel

def fresh : (t : SectionType) → Payload t
  | header => {}
  | chunkHeader => {}
  | chunkBody => []
  | index => []
  | channel => {}

theorem ofNumber_number (t : SectionType) : ofNumber t.number = some t := by
  cases t <;> rfl

theorem number_lt (t : SectionType) : t.number < 5 := by
  cases t <;> decide

end SectionType

section
open SectionType

/-- What becomes of parsing from a stream: whether it succeeds, the message (also after a failure) and
the number of bytes that are taken from the file. -/
structure Parsed (α : Type) where
  ok : Bool
  value : α
  count : Nat

/-- Serialisation of the messages, and parsing of a message of the given size from the front of the
bytes that are left in the file. -/
structure Codec where
  serialize : (t : SectionType) → Payload t → List UInt8
  parse : (t : SectionType) → Int → List UInt8 → Parsed (Payload t)

/-- `struct Section` as it stands in the file. -/
structure Section where
  type : Nat
  size : Int

/-- `sizeof(Section)`: four bytes of padding follow the type. -/
def sectionLength : Nat := 16

def headerLength : Nat := 2048

def Section.ofBytes (bytes : List UInt8) : Section :=
  ⟨Bytes.ofBytes (bytes.take 4),(Int64.ofNat (Bytes.ofBytes (bytes.drop 8))).toInt⟩

def sectionBytes (t : SectionType) (size : Nat) : List UInt8 :=
  Bytes.toBytes 4 t.number ++ List.replicate 4 0 ++ Bytes.toBytes 8 size

namespace Codec
variable (codec : Codec) {t : SectionType}

def sectionOf (t : SectionType) (x : Payload t) : List UInt8 :=
  sectionBytes t (codec.serialize t x).length ++ codec.serialize t x

/-- The header is filled up to its fixed length with the bytes of `blank`. -/
def headerOf (h : Header) : List UInt8 :=
  codec.sectionOf .header h ++
    (48::List.replicate (headerLength - 1) 0).take (headerLength - (codec.serialize .header h).length)

/-- The block that `FileInputStream` takes from the file. A size of 0 stands for the default. -/
def blockSize (size : Nat) : Nat := if size = 0 then 8192 else size

/-- The message fits into a section, and parsing takes a block and gives it back. -/
def RoundTrips (t : SectionType) (x : Payload t) : Prop :=
  (codec.serialize t x).length < 2^31 ∧ ∀ rest, codec.parse t (codec.serialize t x).length
    (codec.serialize t x ++ rest) = ⟨true,x,blockSize (codec.serialize t x).length⟩

/-- Parsing takes the bytes of the message and no others. -/
def ReadsBack (t : SectionType) (x : Payload t) : Prop := codec.RoundTrips t x ∧ 0 < (codec.serialize t x).length

end Codec

theorem length_sectionBytes (t : SectionType) (size : Nat) : (sectionBytes t size).length = sectionLength := by
  simp [sectionBytes,sectionLength]

theorem Codec.length_sectionOf (codec : Codec) (t : SectionType) (x : Payload t) :
    (codec.sectionOf t x).length = sectionLength+(codec.serialize t x).length := by
  rw [Codec.sectionOf,length_append,length_sectionBytes]

theorem ofBytes_sectionBytes {size : Nat} (t : SectionType) (h : size < 2^31) :
    Section.ofBytes (sectionBytes t size) = ⟨t.number,size⟩ := by
  have htype : (sectionBytes t size).take 4 = Bytes.toBytes 4 t.number := by
    rw [sectionBytes,append_assoc,take_left' (Bytes.length_toBytes ..)]
  have hsize : (sectionBytes t size).drop 8 = Bytes.toBytes 8 size := by
    rw [sectionBytes,drop_left' (by simp)]
  have ht := t.number_lt
  rw [Section.ofBytes,htype,hsize,Bytes.ofBytes_toBytes (by omega),Bytes.ofBytes_toBytes (by omega),
    Int64.toInt_ofNat_of_lt (by omega)]

theorem Codec.length_headerOf {codec : Codec} {h : Header}
    (hfit : (codec.serialize .header h).length ≤ headerLength) :
    (codec.headerOf h).length = sectionLength+headerLength := by
  rw [Codec.headerOf,length_append,codec.length_sectionOf,length_take,length_cons,length_replicate]
  have : 0 < headerLength := by decide
  omega

end

/-- What the writer puts into the file under its mutex at once. -/
inductive Item
  | channel (channel : Channel)
  | chunk (header : ChunkHeader) (body : ChunkBody)

namespace Item

def messages : Item → List SingleMessage
  | .channel _ => []
  | .chunk _ body => body

def ReadsBack (codec : Codec) : Item → Prop
  | .channel c => codec.ReadsBack .channel c
  | .chunk header body => codec.ReadsBack .chunkHeader header ∧ codec.ReadsBack .chunkBody body

def Meets (P : ChunkHeader → ChunkBody → Prop) : Item → Prop
  | .channel _ => True
  | .chunk header body => P header body

end Item

def Codec.itemOf (codec : Codec) : Item → List UInt8
  | .channel c => codec.sectionOf .channel c
  | .chunk header body => codec.sectionOf .chunkHeader header ++ codec.sectionOf .chunkBody body

/-- The sections behind the header: a chunk whose header has been read already, whole items, the index
and whatever was in the file before. -/
def Codec.Ends (codec : Codec) (bytes : List UInt8) (body : Option ChunkBody) (items : List Item) : Prop :=
  ∃ index tail, (codec.serialize .index index).length < 2^31 ∧
    bytes = (body.map (codec.sectionOf .chunkBody)).getD [] ++
      (items.flatMap codec.itemOf ++ (codec.sectionOf .index index ++ tail))

structure Holds (codec : Codec) (P : ChunkHeader → ChunkBody → Prop) (file : List UInt8) (header : Header)
    (items : List Item) : Prop where
  bytes : ∃ rest, file = codec.headerOf header ++ rest ∧ codec.Ends rest none items
  size : file.length < 2^63
  header : codec.ReadsBack .header header ∧ (codec.serialize .header header).length ≤ headerLength
  items : ∀ item ∈ items, item.ReadsBack codec ∧ item.Meets P

def Bounded (header : ChunkHeader) (body : ChunkBody) : Prop :=
  body ≠ [] ∧ ∀ m ∈ body, header.beginTime ≤ m.getTime ∧ m.getTime ≤ header.endTime

end Apollo.Cyber.Record
