import Apollo.Foundation.Fuel
import Apollo.Cyber.Record.RecordFile

/-! The readers of a record file, on the bytes of any file. A section may have any type and any signed size, so the loops
over the sections have a bound. What the reader makes of a file that the writer could have made. -/
namespace Apollo.Cyber.Record
open Foundation SectionType

structure RecordFileReader where
  file : List UInt8
  position : Nat := 0
  header : Header := {}
  index : Index := []

namespace RecordFileReader

/-- `lseek` refuses negative positions. -/
def setPosition (r : RecordFileReader) (position : Int) : Option RecordFileReader :=
  if position < 0 then none else some { r with position := position.toNat }

def reset (r : RecordFileReader) : RecordFileReader :=
  { r with position := sectionLength+headerLength }

def readSection (r : RecordFileReader) : Option Section × RecordFileReader :=
  let bytes := (r.file.drop r.position).take sectionLength
  let next := { r with position := r.position+bytes.length }
  if bytes.length = sectionLength then (some (Section.ofBytes bytes), next) else (none, next)

/-- The callers do not look at the result of `SkipSection`. -/
def skipSection (r : RecordFileReader) (size : Int) : RecordFileReader :=
  if size > 2^63 - 1 - r.position then r else (r.setPosition (r.position+size)).getD r

def readMessage (codec : Codec) (r : RecordFileReader) (t : SectionType) (size : Int) :
    Bool × t.Payload × RecordFileReader :=
  if size < -2^31 ∨ size > 2^31 - 1 then (false, t.fresh, r)
  else
    let rest := r.file.drop r.position
    let parsed := codec.parse t size rest
    (parsed.ok && (codec.serialize t parsed.value).length == size, parsed.value,
      { r with position := r.position+min parsed.count rest.length })

def readHeader (codec : Codec) (r : RecordFileReader) : Option RecordFileReader :=
  match r.readSection with
  | (none, _) => none
  | (some sec, r) =>
    if ofNumber sec.type ≠ some .header then none
    else
      let (ok, header, r) := r.readMessage codec .header sec.size
      if ok then some { r with header }.reset else none

def openFile (codec : Codec) (file : List UInt8) : Option RecordFileReader := readHeader codec { file }

def readIndex (codec : Codec) (r : RecordFileReader) : RecordFileReader :=
  if !r.header.isComplete.getD false then r
  else
    match r.setPosition (r.header.indexPosition.getD 0).toInt64.toInt with
    | none => r
    | some r =>
      match r.readSection with
      | (none, r) => r
      | (some sec, r) =>
        if ofNumber sec.type ≠ some .index then r
        else
          let (ok, index, r) := r.readMessage codec .index sec.size
          if ok then { r with index }.reset else r

end RecordFileReader

structure RecordReader where
  fileReader : RecordFileReader
  isValid : Bool := false
  reachEnd : Bool := false
  chunk : ChunkBody := []
  messageIndex : Nat := 0
  header : Header := {}

namespace RecordReader

def openFile (codec : Codec) (file : List UInt8) : RecordReader :=
  match RecordFileReader.openFile codec file with
  | none => { fileReader := { file } }
  | some r => { fileReader := (r.readIndex codec).reset, isValid := true, header := r.header }

def reset (r : RecordReader) : RecordReader :=
  { r with fileReader := r.fileReader.reset, reachEnd := false, messageIndex := 0, chunk := [] }

/-- The loop over the messages of the chunk: none is left, the next one is too late, or it is
returned. -/
def scan (beginTime endTime : UInt64) : List SingleMessage → Nat → Option (Option SingleMessage) × Nat
  | [], i => (none, i)
  | m::messages, i =>
    if m.getTime > endTime then (some none, i)
    else if m.getTime < beginTime then scan beginTime endTime messages (i+1)
    else (some (some m), i+1)

/-- The loop over the sections. The flag that skips a chunk is local to the call. -/
def nextChunk (codec : Codec) (beginTime endTime : UInt64) : Nat → Bool → RecordReader → Option (Bool × RecordReader)
  | 0, _, _ => none
  | fuel+1, skip, r =>
    if r.reachEnd then some (false, r)
    else
      match r.fileReader.readSection with
      | (none, fileReader) => some (false, { r with fileReader })
      | (some sec, fileReader) =>
        match ofNumber sec.type with
        | some .index =>
          nextChunk codec beginTime endTime fuel skip
            { r with fileReader := fileReader.skipSection sec.size, reachEnd := true }
        | some .channel =>
          let (ok, _, fileReader) := fileReader.readMessage codec .channel sec.size
          if ok then nextChunk codec beginTime endTime fuel skip { r with fileReader }
          else some (false, { r with fileReader })
        | some .chunkHeader =>
          let (ok, header, fileReader) := fileReader.readMessage codec .chunkHeader sec.size
          if !ok || header.beginTime > endTime then some (false, { r with fileReader })
          else nextChunk codec beginTime endTime fuel (skip || header.endTime < beginTime) { r with fileReader }
        | some .chunkBody =>
          if skip then
            nextChunk codec beginTime endTime fuel false
              { r with fileReader := fileReader.skipSection sec.size }
          else
            let (ok, chunk, fileReader) := fileReader.readMessage codec .chunkBody sec.size
            some (ok, { r with fileReader, chunk })
        | some .header | none => some (false, { r with fileReader })

/-- `ReadMessage`: the next message of the time range, unless there is none. -/
def readMessage (codec : Codec) (beginTime endTime : UInt64) :
    Nat → RecordReader → Option (Option RecordMessage × RecordReader)
  | 0, _ => none
  | fuel+1, r =>
    if !r.isValid then some (none, r)
    else if beginTime > r.header.getEndTime ∨ endTime < r.header.getBeginTime then some (none, r)
    else
      match scan beginTime endTime (r.chunk.drop r.messageIndex) r.messageIndex with
      | (some found, messageIndex) =>
        some (found.map (·.toRecordMessage), { r with messageIndex })
      | (none, messageIndex) =>
        (nextChunk codec beginTime endTime fuel false { r with messageIndex }).bind fun (ok, r) =>
          if ok then readMessage codec beginTime endTime fuel { r with messageIndex := 0 }
          else some (none, r)

/-- `std::numeric_limits<uint64_t>::max()`, the end of the time range by default. -/
def lastTime : UInt64 := UInt64.ofNat (2^64 - 1)

theorem le_lastTime (time : UInt64) : time ≤ lastTime := by
  have hlt := time.toNat_lt
  rw [UInt64.le_iff_toNat_le,show lastTime.toNat = 2^64 - 1 from rfl]
  omega

/-- The messages that repeated calls return, until one returns none. -/
def readMessages (codec : Codec) (beginTime endTime : UInt64) : Nat → RecordReader → Option (List RecordMessage)
  | 0, _ => none
  | fuel+1, r =>
    (readMessage codec beginTime endTime fuel r).bind fun
      | (none, _) => some []
      | (some m, r) => (readMessages codec beginTime endTime fuel r).map (m :: ·)

def readAll (codec : Codec) (file : List UInt8) (fuel : Nat) : Option (List RecordMessage) :=
  readMessages codec 0 lastTime fuel (openFile codec file)

end RecordReader

open List Option RecordFileReader Returns Item Codec
variable {codec : Codec} {t : SectionType} {x : t.Payload} {rest : List UInt8}

namespace RecordFileReader
variable {r : RecordFileReader}

section
variable (h : r.file.drop r.position = codec.sectionOf t x ++ rest)
include h

theorem readSection_eq (hlt : (codec.serialize t x).length < 2^31) :
    r.readSection = (some ⟨t.number,(codec.serialize t x).length⟩,
      { r with position := r.position+sectionLength }) := by
  have htake : (r.file.drop r.position).take sectionLength = sectionBytes t (codec.serialize t x).length := by
    rw [h,sectionOf,append_assoc,take_left' (length_sectionBytes ..)]
  rw [readSection,htake,length_sectionBytes,if_pos rfl,ofBytes_sectionBytes t hlt]

theorem readMessage_section (hrt : codec.ReadsBack t x) :
    { r with position := r.position+sectionLength }.readMessage codec t (codec.serialize t x).length =
      (true, x, { r with position := r.position+sectionLength+(codec.serialize t x).length }) := by
  have hlt := hrt.1.1
  have hdrop : r.file.drop (r.position+sectionLength) = codec.serialize t x ++ rest := by
    rw [← drop_drop,h,sectionOf,append_assoc,drop_left' (length_sectionBytes ..)]
  rw [readMessage,if_neg (by omega)]
  simp [hdrop,hrt.1.2,blockSize,hrt.2.ne']

end

theorem skipSection_eq {n : Nat} (h : r.position+n ≤ r.file.length) (hsize : r.file.length < 2^63) :
    r.skipSection n = { r with position := r.position+n } := by
  rw [skipSection,if_neg (by omega),setPosition,if_neg (by omega)]
  rfl

end RecordFileReader

namespace RecordReader
variable {P : ChunkHeader → ChunkBody → Prop} {beginTime endTime : UInt64}
  {body : Option ChunkBody} {items : List Item}

structure Ahead (codec : Codec) (P : ChunkHeader → ChunkBody → Prop) (r : RecordReader)
    (body : Option ChunkBody) (items : List Item) : Prop where
  place : r.reachEnd = true ∧ body = none ∧ items = [] ∨ r.reachEnd = false ∧
    codec.Ends (r.fileReader.file.drop r.fileReader.position) body items
  size : r.fileReader.file.length < 2^63
  body : ∀ b ∈ body, codec.ReadsBack .chunkBody b
  items : ∀ item ∈ items, item.ReadsBack codec ∧ item.Meets P

/-- The tests of a chunk header against the time range pass over no message of the range, nor over
the first one behind it. -/
def Fits (beginTime endTime : UInt64) (header : ChunkHeader) (body : ChunkBody) : Prop :=
  (header.endTime < beginTime → ∀ m ∈ body, m.getTime < beginTime) ∧
  (endTime < header.beginTime → ∃ m rest, body = m::rest ∧ endTime < m.getTime)

def pass (r : RecordReader) (n : Nat) : RecordReader :=
  { r with fileReader := { r.fileReader with position := r.fileReader.position+n } }

theorem pass_pass (r : RecordReader) (m n : Nat) : (r.pass m).pass n = r.pass (m+n) := by
  rw [pass,pass,pass,add_assoc]

variable {header : Header} {file front : List UInt8} {l ms : List SingleMessage}

theorem drop_pass {r : RecordReader} (h : r.fileReader.file.drop r.fileReader.position = front ++ rest) :
    (r.pass front.length).fileReader.file.drop (r.pass front.length).fileReader.position = rest := by
  simp [pass,← drop_drop,h]

section Sections
variable {r : RecordReader} {fuel : Nat} {skip : Bool}

theorem nextChunk_channel {c : Channel} (hr : r.reachEnd = false)
    (h : r.fileReader.file.drop r.fileReader.position = codec.sectionOf .channel c ++ rest)
    (hrt : codec.ReadsBack .channel c) :
    nextChunk codec beginTime endTime (fuel+1) skip r =
      nextChunk codec beginTime endTime fuel skip (r.pass (codec.sectionOf .channel c).length) := by
  have hm := readMessage_section h hrt
  rw [nextChunk,readSection_eq h hrt.1.1]
  simp only [hr,ofNumber_number,hm,pass,codec.length_sectionOf,add_assoc]
  rfl

theorem nextChunk_header {header : ChunkHeader} (hr : r.reachEnd = false)
    (h : r.fileReader.file.drop r.fileReader.position = codec.sectionOf .chunkHeader header ++ rest)
    (hrt : codec.ReadsBack .chunkHeader header) :
    nextChunk codec beginTime endTime (fuel+1) skip r =
      if endTime < header.beginTime then
        some (false, r.pass (codec.sectionOf .chunkHeader header).length)
      else nextChunk codec beginTime endTime fuel (skip || header.endTime < beginTime)
        (r.pass (codec.sectionOf .chunkHeader header).length) := by
  have hm := readMessage_section h hrt
  rw [nextChunk,readSection_eq h hrt.1.1]
  simp only [hr,ofNumber_number,hm,pass,codec.length_sectionOf,add_assoc]
  simp

variable {b : ChunkBody}

theorem nextChunk_body (hr : r.reachEnd = false)
    (h : r.fileReader.file.drop r.fileReader.position = codec.sectionOf .chunkBody b ++ rest)
    (hrt : codec.ReadsBack .chunkBody b) : nextChunk codec beginTime endTime (fuel+1) false r =
      some (true, { r.pass (codec.sectionOf .chunkBody b).length with chunk := b }) := by
  have hm := readMessage_section h hrt
  rw [nextChunk,readSection_eq h hrt.1.1]
  simp only [hr,ofNumber_number,hm,pass,codec.length_sectionOf,add_assoc]
  rfl

theorem nextChunk_skip (hr : r.reachEnd = false) (hsize : r.fileReader.file.length < 2^63)
    (h : r.fileReader.file.drop r.fileReader.position = codec.sectionOf .chunkBody b ++ rest) (hrest : rest ≠ [])
    (hlt : (codec.serialize .chunkBody b).length < 2^31) : nextChunk codec beginTime endTime (fuel+1) true r =
      nextChunk codec beginTime endTime fuel false (r.pass (codec.sectionOf .chunkBody b).length) := by
  have hlen := congrArg List.length h
  rw [length_drop,length_append,codec.length_sectionOf] at hlen
  have hpos := length_pos_iff.mpr hrest
  have hend : r.fileReader.position+sectionLength+(codec.serialize .chunkBody b).length ≤
      r.fileReader.file.length := by omega
  have hskip := skipSection_eq
    (r := { r.fileReader with position := r.fileReader.position+sectionLength }) hend hsize
  rw [nextChunk,readSection_eq h hlt]
  simp only [hr,ofNumber_number,hskip,pass,codec.length_sectionOf,add_assoc]
  rfl

theorem skipSection_file (r : RecordFileReader) (n : Int) : (r.skipSection n).file = r.file := by
  rw [skipSection]
  split
  · rfl
  · rw [setPosition]
    split <;> rfl

theorem nextChunk_index {index : Index} (hr : r.reachEnd = false)
    (h : r.fileReader.file.drop r.fileReader.position = codec.sectionOf .index index ++ rest)
    (hlt : (codec.serialize .index index).length < 2^31) :
    ∃ fileReader : RecordFileReader, fileReader.file = r.fileReader.file ∧
      ∀ fuel, nextChunk codec beginTime endTime (fuel+2) skip r =
        some (false, { r with fileReader, reachEnd := true }) := by
  refine ⟨_,skipSection_file { r.fileReader with position := r.fileReader.position+sectionLength }
    (codec.serialize .index index).length,fun _ => ?_⟩
  rw [nextChunk,readSection_eq h hlt]
  simp only [hr,ofNumber_number]
  rfl

end Sections

/-- `ReadNextChunk` finds a chunk: it has passed over messages that are too early, and fewer than `n`
items are left. -/
def Finds (codec : Codec) (P : ChunkHeader → ChunkBody → Prop) (beginTime endTime : UInt64)
    (r : RecordReader) (ahead : List SingleMessage) (n : Nat) : Prop :=
  ∃ r' skipped items', Returns (fun fuel => nextChunk codec beginTime endTime fuel false r) (true, r') ∧
    r'.isValid = r.isValid ∧ r'.header = r.header ∧ Ahead codec P r' none items' ∧ items'.length < n ∧
    (∀ m ∈ skipped, m.getTime < beginTime) ∧
    ahead = skipped ++ (r'.chunk ++ items'.flatMap messages)

/-- `ReadNextChunk` ends before a message that is too late, or at the end of the file. -/
def Stops (codec : Codec) (P : ChunkHeader → ChunkBody → Prop) (beginTime endTime : UInt64)
    (r : RecordReader) (ahead : List SingleMessage) : Prop :=
  ∃ r' skipped body' items' left, Returns (fun fuel => nextChunk codec beginTime endTime fuel false r) (false, r') ∧
    r'.isValid = r.isValid ∧ r'.header = r.header ∧ r'.chunk = r.chunk ∧
    r'.messageIndex = r.messageIndex ∧ Ahead codec P r' body' items' ∧
    left = body'.getD [] ++ items'.flatMap messages ∧ (∀ m ∈ skipped, m.getTime < beginTime) ∧
    ahead = skipped ++ left ∧ ∀ m ∈ left.head?, endTime < m.getTime

/-- `ReadNextChunk` ends in one of the two ways. -/
def Proceeds (codec : Codec) (P : ChunkHeader → ChunkBody → Prop) (beginTime endTime : UInt64)
    (r : RecordReader) (ahead : List SingleMessage) (n : Nat) : Prop :=
  Finds codec P beginTime endTime r ahead n ∨ Stops codec P beginTime endTime r ahead

variable {r : RecordReader} {early ahead : List SingleMessage} {n : Nat}

theorem Proceeds.skip {k : Nat} (h : Proceeds codec P beginTime endTime (r.pass k) ahead n)
    (hround : ∀ x, Returns (fun fuel => nextChunk codec beginTime endTime fuel false (r.pass k)) x →
      Returns (fun fuel => nextChunk codec beginTime endTime fuel false r) x)
    (hearly : ∀ m ∈ early, m.getTime < beginTime) :
    Proceeds codec P beginTime endTime r (early ++ ahead) (n+1) := by
  have hskip {skipped : List SingleMessage} (hs : ∀ m ∈ skipped, m.getTime < beginTime) :
      ∀ m ∈ early ++ skipped, m.getTime < beginTime := by
    intro m hm
    exact (mem_append.mp hm).elim (hearly m) (hs m)
  rcases h with ⟨r',skipped,items',hret,hv,hh,ha,_,hs,hm⟩ |
    ⟨r',skipped,body',items',left,hret,hv,hh,hc,hi,ha,hl,hs,hm,hlate⟩
  · refine .inl ⟨r',early ++ skipped,items',hround _ hret,hv,hh,ha,by omega,hskip hs,?_⟩
    rw [hm,append_assoc]
  · refine .inr ⟨r',early ++ skipped,body',items',left,hround _ hret,hv,hh,hc,hi,ha,hl, hskip hs,?_,hlate⟩
    rw [hm,append_assoc]

theorem nextChunk_end (h : Ahead codec P r none []) : Stops codec P beginTime endTime r [] := by
  rcases h.place with ⟨hend,_,_⟩ | ⟨hend,_,_,hlt,hbytes⟩
  · refine ⟨r,[],none,[],[],succ (returns_const _) fun fuel => ?_,rfl,rfl,rfl,rfl,h,rfl, by simp,rfl,by simp⟩
    rw [nextChunk,if_pos hend]
  · obtain ⟨fileReader,hfile,hnext⟩ := nextChunk_index hend hbytes hlt
    refine ⟨{ r with fileReader, reachEnd := true },[],none,[],[],⟨2,fun fuel _ => ?_⟩,rfl,rfl,
      rfl,rfl,⟨.inl ⟨rfl,rfl,rfl⟩,hfile ▸ h.size,by simp,by simp⟩,rfl,by simp,rfl,by simp⟩
    obtain ⟨n,rfl⟩ : ∃ n, fuel = n+2 := ⟨fuel - 2,by omega⟩
    exact hnext n

/-- `ReadNextChunk` at a chunk, with the specification of the items behind it. -/
theorem nextChunk_chunk {header : ChunkHeader} {b : ChunkBody}
    (hfits : Fits beginTime endTime header b) (h : Ahead codec P r none (.chunk header b::items))
    (ih : ∀ k, Ahead codec P (r.pass k) none items →
      Proceeds codec P beginTime endTime (r.pass k) (items.flatMap messages) items.length) :
    Proceeds codec P beginTime endTime r (b ++ items.flatMap messages) (items.length+1) := by
  rcases h.place with ⟨_,_,hnil⟩ | ⟨hend,index,tail,hlt,hbytes⟩
  · cases hnil
  obtain ⟨⟨⟨hrth,hrtb⟩,_⟩,hitems⟩ := forall_mem_cons.mp h.items
  rw [map_none,getD_none,nil_append,flatMap_cons,itemOf,append_assoc,append_assoc] at hbytes
  have hbody := drop_pass hbytes
  by_cases hlate : endTime < header.beginTime
  · obtain ⟨m,_,hb,hm⟩ := hfits.2 hlate
    refine .inr ⟨r.pass (codec.sectionOf .chunkHeader header).length,[],some b,items,
      b ++ items.flatMap messages,succ (returns_const _) fun fuel => ?_,rfl,rfl,rfl,rfl,
      ⟨.inr ⟨hend,index,tail,hlt,hbody⟩,h.size,by simpa using hrtb,hitems⟩,rfl,by simp,rfl,
      by simpa [hb] using hm⟩
    rw [nextChunk_header hend hbytes hrth,if_pos hlate]
  · have hheader (fuel : Nat) : nextChunk codec beginTime endTime (fuel+1) false r =
        nextChunk codec beginTime endTime fuel (header.endTime < beginTime)
          (r.pass (codec.sectionOf .chunkHeader header).length) := by
      rw [nextChunk_header hend hbytes hrth,if_neg hlate,Bool.false_or]
    have hahead : Ahead codec P ((r.pass (codec.sectionOf .chunkHeader header).length).pass
        (codec.sectionOf .chunkBody b).length) none items :=
      ⟨.inr ⟨hend,index,tail,hlt,drop_pass hbody⟩,h.size,by simp,hitems⟩
    by_cases hearly : header.endTime < beginTime
    · rw [pass_pass] at hahead
      refine (ih _ hahead).skip (fun _ hx => ?_) (hfits.1 hearly)
      have hne : items.flatMap codec.itemOf ++ (codec.sectionOf .index index ++ tail) ≠ [] := by
        intro hnil
        have := congrArg List.length hnil
        simp [codec.length_sectionOf,sectionLength] at this
      rw [← pass_pass] at hx
      refine succ (succ hx fun fuel => ?_) hheader
      rw [decide_eq_true hearly]
      exact nextChunk_skip hend h.size hbody hne hrtb.1.1
    · refine .inl ⟨{ ((r.pass (codec.sectionOf .chunkHeader header).length).pass
          (codec.sectionOf .chunkBody b).length) with chunk := b },[],items,?_,rfl,rfl,
        ⟨hahead.place,hahead.size,hahead.body,hahead.items⟩,Nat.lt_succ_self _,by simp,rfl⟩
      refine succ (succ (returns_const _) fun _ => ?_) hheader
      rw [decide_eq_false hearly]
      exact nextChunk_body hend hbody hrtb

/-- `ReadNextChunk` on whole items. -/
theorem nextChunk_items (hfits : ∀ h b, P h b → Fits beginTime endTime h b) (h : Ahead codec P r none items) :
    Proceeds codec P beginTime endTime r (items.flatMap messages) items.length := by
  induction items generalizing r with
  | nil => exact .inr (nextChunk_end h)
  | cons item items ih =>
    obtain ⟨hitem,hitems⟩ := forall_mem_cons.mp h.items
    cases item with
    | chunk header b => exact nextChunk_chunk (hfits header b hitem.2) h fun _ => ih
    | channel c =>
      rcases h.place with ⟨_,_,hnil⟩ | ⟨hend,index,tail,hlt,hbytes⟩
      · cases hnil
      rw [map_none,getD_none,nil_append,flatMap_cons,itemOf,append_assoc] at hbytes
      have hahead : Ahead codec P (r.pass (codec.sectionOf .channel c).length) none items :=
        ⟨.inr ⟨hend,index,tail,hlt,drop_pass hbytes⟩,h.size,by simp,hitems⟩
      refine (ih hahead).skip (fun _ hx => ?_) (by simp [messages])
      exact hx.succ fun _ => nextChunk_channel hend hbytes hitem.1

def sections (body : Option ChunkBody) (items : List Item) : Nat := body.toList.length+items.length

theorem nextChunk_spec (hfits : ∀ h b, P h b → Fits beginTime endTime h b) (h : Ahead codec P r body items) :
    Proceeds codec P beginTime endTime r (body.getD [] ++ items.flatMap messages) (sections body items) := by
  cases body with
  | none =>
    rw [sections,toList_none,length_nil,zero_add]
    exact nextChunk_items hfits h
  | some b =>
    rcases h.place with ⟨_,hnone,_⟩ | ⟨hend,index,tail,hlt,hbytes⟩
    · cases hnone
    refine .inl ⟨{ r.pass (codec.sectionOf .chunkBody b).length with chunk := b },[],items,?_,rfl,rfl,
      ⟨.inr ⟨hend,index,tail,hlt,drop_pass hbytes⟩,h.size,by simp,h.items⟩,
      by simp [sections],by simp,rfl⟩
    exact succ (returns_const _) fun _ => nextChunk_body hend hbytes (h.body b rfl)

/-- The first message of a list that is in the time range, unless a later one comes before it, and what
is behind. -/
def nextIn (beginTime endTime : UInt64) : List SingleMessage → Option SingleMessage × List SingleMessage
  | [] => (none, [])
  | m::messages =>
    if m.getTime > endTime then (none, m::messages)
    else if m.getTime < beginTime then nextIn beginTime endTime messages
    else (some m, messages)

theorem nextIn_append_early (hle : beginTime ≤ endTime) (h : ∀ m ∈ early, m.getTime < beginTime) :
    nextIn beginTime endTime (early ++ l) = nextIn beginTime endTime l := by
  induction early with
  | nil => rfl
  | cons _ _ ih =>
    obtain ⟨hm,h⟩ := forall_mem_cons.mp h
    have hnot := UInt64.not_lt.mpr (UInt64.le_trans (UInt64.le_of_lt hm) hle)
    rw [cons_append,nextIn,if_neg hnot,if_pos hm,ih h]

theorem nextIn_late (h : ∀ m ∈ l.head?, endTime < m.getTime) : nextIn beginTime endTime l = (none, l) := by
  cases l with
  | nil => rfl
  | cons m => rw [nextIn,if_pos (h m rfl)]

theorem nextIn_split (beginTime endTime : UInt64) (l : List SingleMessage) :
    ∃ early, (∀ m ∈ early, m.getTime < beginTime) ∧
      match nextIn beginTime endTime l with
      | (none, rest) => l = early ++ rest ∧ ∀ m ∈ rest.head?, endTime < m.getTime
      | (some m, rest) => l = early ++ m::rest ∧ beginTime ≤ m.getTime ∧ m.getTime ≤ endTime := by
  induction l with
  | nil => exact ⟨[],by simp,rfl,by simp⟩
  | cons m _ ih =>
    rw [nextIn]
    by_cases hlate : m.getTime > endTime
    · rw [if_pos hlate]
      exact ⟨[],by simp,rfl,by simpa using hlate⟩
    · rw [if_neg hlate]
      by_cases hearly : m.getTime < beginTime
      · rw [if_pos hearly]
        obtain ⟨early,hall,hsplit⟩ := ih
        refine ⟨m::early,forall_mem_cons.mpr ⟨hearly,hall⟩,?_⟩
        split at hsplit <;> exact ⟨by rw [hsplit.1]; rfl,hsplit.2⟩
      · rw [if_neg hearly]
        exact ⟨[],by simp,rfl,UInt64.not_lt.mp hearly,UInt64.not_lt.mp hlate⟩

/-- The loop over the messages of a chunk, with more messages behind the chunk. -/
theorem scan_spec (beginTime endTime : UInt64) (l more : List SingleMessage) (i : Nat) :
    match scan beginTime endTime l i with
    | (none, j) => j = i+l.length ∧
        nextIn beginTime endTime (l ++ more) = nextIn beginTime endTime more
    | (some found, j) => i ≤ j ∧
        nextIn beginTime endTime (l ++ more) = (found, l.drop (j - i) ++ more) := by
  induction l generalizing i with
  | nil => exact ⟨rfl,rfl⟩
  | cons m _ ih =>
    rw [scan,cons_append,nextIn]
    by_cases hlate : m.getTime > endTime
    · rw [if_pos hlate,if_pos hlate]
      simp
    · rw [if_neg hlate,if_neg hlate]
      by_cases hearly : m.getTime < beginTime
      · rw [if_pos hearly,if_pos hearly]
        have hi := ih (i+1)
        split at hi
        case h_1 j hs =>
          exact ⟨by rw [length_cons]; omega,hi.2⟩
        case h_2 found j hs =>
          obtain ⟨n,rfl⟩ : ∃ n, j = i+1+n := ⟨j - (i+1),by omega⟩
          refine ⟨by omega,hi.2.trans ?_⟩
          rw [Nat.add_sub_cancel_left,add_assoc,Nat.add_sub_cancel_left,add_comm 1 n,drop_succ_cons]
      · rw [if_neg hearly,if_neg hearly]
        simp

structure Stands (codec : Codec) (P : ChunkHeader → ChunkBody → Prop) (header : Header)
    (r : RecordReader) (ms : List SingleMessage) : Prop where
  valid : r.isValid
  header : r.header = header
  ahead : ∃ body items, Ahead codec P r body items ∧
    ms = r.chunk.drop r.messageIndex ++ (body.getD [] ++ items.flatMap messages)

section Rounds
variable {header : Header} {i fuel : Nat} (hvalid : r.isValid) (hheader : r.header = header)
  (hrange : ¬ (beginTime > header.getEndTime ∨ endTime < header.getBeginTime))
include hvalid hheader hrange

theorem readMessage_found {found : Option SingleMessage}
    (hscan : scan beginTime endTime (r.chunk.drop r.messageIndex) r.messageIndex = (some found, i)) :
    readMessage codec beginTime endTime (fuel+1) r =
      some (found.map (·.toRecordMessage), { r with messageIndex := i }) := by
  rw [readMessage,hvalid,hheader,if_neg hrange,hscan]
  rfl

theorem readMessage_chunk (hscan : scan beginTime endTime (r.chunk.drop r.messageIndex) r.messageIndex = (none, i)) :
    readMessage codec beginTime endTime (fuel+1) r =
      (nextChunk codec beginTime endTime fuel false { r with messageIndex := i }).bind fun next =>
        if next.1 then readMessage codec beginTime endTime fuel { next.2 with messageIndex := 0 }
        else some (none, next.2) := by
  rw [readMessage,hvalid,hheader,if_neg hrange,hscan]
  rfl

end Rounds

/-- `ReadMessage` goes through the messages ahead as through one list. -/
theorem readMessage_spec (hfits : ∀ h b, P h b → Fits beginTime endTime h b) (hle : beginTime ≤ endTime)
    (hrange : ¬ (beginTime > header.getEndTime ∨ endTime < header.getBeginTime)) (h : Stands codec P header r ms) :
    ∃ r', Returns (fun fuel => readMessage codec beginTime endTime fuel r)
        ((nextIn beginTime endTime ms).1.map (·.toRecordMessage), r') ∧
      Stands codec P header r' (nextIn beginTime endTime ms).2 := by
  obtain ⟨hvalid,hheader,body,items,ha,hms⟩ := h
  -- each further chunk leaves fewer sections ahead
  induction hn : sections body items using Nat.strong_induction_on generalizing r body items ms with
  | _ _ ih =>
    have hscan := scan_spec beginTime endTime (r.chunk.drop r.messageIndex)
      (body.getD [] ++ items.flatMap messages) r.messageIndex
    rw [← hms] at hscan
    split at hscan
    case h_2 j hs =>
      refine ⟨{ r with messageIndex := j },?_,hvalid,hheader,body,items,⟨ha.place,ha.size,ha.body, ha.items⟩,?_⟩
      · rw [hscan.2]
        exact succ (returns_const _) fun _ => readMessage_found hvalid hheader hrange hs
      · rw [hscan.2,drop_drop,Nat.add_sub_cancel' hscan.1]
    case h_1 j hs =>
      rw [hscan.2]
      have ha' : Ahead codec P { r with messageIndex := j } body items := ⟨ha.place,ha.size,ha.body,ha.items⟩
      rcases nextChunk_spec hfits ha' with ⟨r',skipped,items',hret,hv,hh,har,hlt,hskip,hahead⟩ |
        ⟨r',skipped,body',items',left,hret,hv,hh,hc,hi,har,hleft,hskip,hahead,hlate⟩
      · have hstep := ih (sections none items') (by simpa [← hn,sections] using hlt)
          (hv.trans hvalid) (hh.trans hheader) none items' (r := { r' with messageIndex := 0 })
          ⟨har.place,har.size,har.body,har.items⟩ rfl rfl
        rw [hahead,nextIn_append_early hle hskip]
        obtain ⟨r'',hr'',hstands⟩ := hstep
        exact ⟨r'',hret.round (fun _ => readMessage_chunk hvalid hheader hrange hs) hr'',hstands⟩
      · rw [hahead,nextIn_append_early hle hskip,nextIn_late hlate]
        refine ⟨r',hret.round (fun _ => readMessage_chunk hvalid hheader hrange hs) (returns_const _),
          hv.trans hvalid,hh.trans hheader,body',items',har,?_⟩
        have hdone : r'.chunk.drop r'.messageIndex = [] := by
          have hj := hscan.1
          rw [length_drop] at hj
          rw [hc,hi]
          exact drop_eq_nil_of_le (show r.chunk.length ≤ j by omega)
        rw [hdone,nil_append,hleft]

theorem readIndex_file (codec : Codec) (r : RecordFileReader) : (r.readIndex codec).file = r.file := by
  have hsection (r : RecordFileReader) : r.readSection.2.file = r.file := by
    rw [readSection]
    split <;> rfl
  have hmessage (r : RecordFileReader) (n : Int) : (r.readMessage codec .index n).2.2.file = r.file := by
    rw [RecordFileReader.readMessage]
    split <;> rfl
  rw [readIndex]
  split
  · rfl
  · rw [setPosition]
    split
    case h_1 => rfl
    case h_2 r' hr =>
      have hfile : r'.file = r.file := by
        split at hr <;> cases hr
        rfl
      rw [← hfile,← hsection r']
      split
      case h_1 => simp [*]
      case h_2 hsec =>
        rw [hsec]
        split
        · rfl
        · simp only []
          split <;> exact hmessage ..

theorem openFile_eq (h : Holds codec P file header items) : RecordFileReader.openFile codec file =
      some { file, header, position := sectionLength+headerLength } := by
  obtain ⟨_,hfile,_⟩ := h.bytes
  rw [headerOf,append_assoc] at hfile
  rw [RecordFileReader.openFile,RecordFileReader.readHeader,
    RecordFileReader.readSection_eq (r := { file }) hfile h.header.1.1.1]
  have hm := RecordFileReader.readMessage_section (r := { file }) hfile h.header.1
  simp only [ofNumber_number,hm]
  rfl

theorem reset_stands (hvalid : r.isValid) (hheader : r.header = header)
    (h : Holds codec P r.fileReader.file header items) :
    Stands codec P header r.reset (items.flatMap messages) := by
  obtain ⟨rest,hfile,hends⟩ := h.bytes
  have hdrop : r.fileReader.file.drop (sectionLength+headerLength) = rest := by
    rw [hfile,drop_left' (length_headerOf h.header.2)]
  refine ⟨hvalid,hheader,none,items,⟨.inr ⟨rfl,?_⟩,h.size,by simp,h.items⟩,rfl⟩
  simp only [reset,RecordFileReader.reset,hdrop]
  exact hends

section
variable (h : Holds codec P file header items)
include h

theorem openFile_reset : ∃ r : RecordReader, openFile codec file = r.reset ∧ r.isValid ∧ r.header = header ∧
      r.fileReader.file = file := by
  let fileReader : RecordFileReader := { file, header, position := sectionLength+headerLength }
  refine ⟨{ fileReader := fileReader.readIndex codec, isValid := true, header },?_,rfl,rfl,
    readIndex_file codec fileReader⟩
  rw [openFile,openFile_eq h]
  rfl

theorem openFile_stands : Stands codec P header (openFile codec file) (items.flatMap messages) := by
  obtain ⟨r,hreset,hvalid,hheader,rfl⟩ := openFile_reset h
  rw [hreset]
  exact reset_stands hvalid hheader h

theorem openFile_file : (openFile codec file).fileReader.file = file := by
  obtain ⟨r,hreset,_,_,hfile⟩ := openFile_reset h
  rw [hreset]
  exact hfile

end

theorem fits_all (header : ChunkHeader) (body : ChunkBody) : Fits 0 lastTime header body := by
  refine ⟨fun h => ?_,fun h => ?_⟩
  · exact absurd h UInt64.not_lt_zero
  · exact absurd (le_lastTime header.beginTime) (UInt64.not_le.mpr h)

theorem nextIn_all (m : SingleMessage) (ms : List SingleMessage) : nextIn 0 lastTime (m::ms) = (some m, ms) := by
  rw [nextIn,if_neg (UInt64.not_lt.mpr (le_lastTime _)),if_neg UInt64.not_lt_zero]

/-- `ReadMessage` with its default arguments returns all messages ahead, one after the other. -/
theorem readMessages_all (h : Stands codec P header r ms) :
    Returns (fun fuel => readMessages codec 0 lastTime fuel r) (ms.map (·.toRecordMessage)) := by
  have hrange : ¬ (0 > header.getEndTime ∨ lastTime < header.getBeginTime) := by
    rintro (h | h)
    · exact UInt64.not_lt_zero h
    · exact UInt64.not_le.mpr h (le_lastTime _)
  induction ms generalizing r with
  | nil =>
    obtain ⟨r',hr,_⟩ := readMessage_spec (fun h b _ => fits_all h b) (le_lastTime 0) hrange h
    exact hr.round (fun _ => rfl) (returns_const _)
  | cons m _ ih =>
    obtain ⟨r',hr,hstands⟩ := readMessage_spec (fun h b _ => fits_all h b) (le_lastTime 0) hrange h
    rw [nextIn_all] at hr hstands
    exact hr.round (fun _ => rfl) ((ih hstands).map (m.toRecordMessage :: ·))

end RecordReader

end Apollo.Cyber.Record
