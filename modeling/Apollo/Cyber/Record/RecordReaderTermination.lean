import Apollo.Cyber.Record.RecordReader
import Mathlib.Data.Prod.Lex
import Mathlib.Logic.Relation

/-! The reader on any bytes. Parsing or skipping a section takes it forward, unless its size is negative. -/
namespace Apollo.Cyber.Record
open Foundation List Option SectionType Relation
variable {codec : Codec}

namespace RecordFileReader

variable {r next : RecordFileReader} {sec : Section}

theorem file_eq (h : next.reset = r.reset) : next.file = r.file := by
  have hfile := congrArg file h
  exact hfile

theorem readSection_some (h : r.readSection = (some sec, next)) :
    next.reset = r.reset ∧ next.position = r.position+sectionLength ∧ next.position ≤ r.file.length := by
  rw [readSection] at h
  split at h
  case isTrue hlen =>
    cases h
    have hle : sectionLength ≤ r.file.length - r.position := by
      rw [← length_drop,← hlen]
      exact length_take_le' ..
    have hpos : 0 < sectionLength := by decide
    refine ⟨rfl,by rw [hlen],?_⟩
    rw [hlen]
    change r.position+sectionLength ≤ r.file.length
    omega
  case isFalse => cases h

theorem readSection_none (h : r.readSection = (none, next)) :
    next.reset = r.reset ∧ r.position ≤ next.position ∧ next.readSection.1 = none := by
  rw [readSection] at h
  split at h
  case isTrue => cases h
  case isFalse hlen =>
    cases h
    refine ⟨rfl,Nat.le_add_right ..,?_⟩
    rw [length_take,length_drop] at hlen
    rw [readSection,if_neg]
    simp only [length_take,length_drop]
    omega

theorem readMessage_forward (codec : Codec) (r : RecordFileReader) (t : SectionType) (size : Int) :
    (r.readMessage codec t size).2.2.reset = r.reset ∧ r.position ≤ (r.readMessage codec t size).2.2.position := by
  rw [readMessage]
  split
  case isTrue => exact ⟨rfl,le_rfl⟩
  case isFalse => exact ⟨rfl,Nat.le_add_right ..⟩

theorem reset_skipSection (r : RecordFileReader) (size : Int) : (r.skipSection size).reset = r.reset := by
  rw [skipSection]
  split
  case isTrue => rfl
  case isFalse =>
    rw [setPosition]
    split <;> rfl

theorem skipSection_forward (r : RecordFileReader) {size : Int} (h : 0 ≤ size) :
    (r.skipSection size).reset = r.reset ∧ r.position ≤ (r.skipSection size).position := by
  refine ⟨r.reset_skipSection size,?_⟩
  rw [skipSection]
  split
  case isTrue => exact le_rfl
  case isFalse =>
    rw [setPosition,if_neg (by omega)]
    change r.position ≤ (r.position+size).toNat
    omega

end RecordFileReader

open RecordFileReader

namespace RecordReader

/-- A round of the loop over the sections after which it goes on, with the flag that skips a chunk. -/
inductive Round (codec : Codec) (beginTime endTime : UInt64) : Bool × RecordReader → Bool × RecordReader → Prop
  | index {skip r sec next} : r.reachEnd = false → r.fileReader.readSection = (some sec, next) →
      ofNumber sec.type = some .index → Round codec beginTime endTime (skip, r)
        (skip, { r with fileReader := next.skipSection sec.size, reachEnd := true })
  | channel {skip r sec next} : r.reachEnd = false → r.fileReader.readSection = (some sec, next) →
      ofNumber sec.type = some .channel → (next.readMessage codec .channel sec.size).1 = true →
      Round codec beginTime endTime (skip, r)
        (skip, { r with fileReader := (next.readMessage codec .channel sec.size).2.2 })
  | chunkHeader {skip r sec next} : r.reachEnd = false → r.fileReader.readSection = (some sec, next) →
      ofNumber sec.type = some .chunkHeader → (next.readMessage codec .chunkHeader sec.size).1 = true →
      ¬(next.readMessage codec .chunkHeader sec.size).2.1.beginTime > endTime →
      Round codec beginTime endTime (skip, r)
        (skip || (next.readMessage codec .chunkHeader sec.size).2.1.endTime < beginTime,
          { r with fileReader := (next.readMessage codec .chunkHeader sec.size).2.2 })
  | chunkBody {r sec next} : r.reachEnd = false → r.fileReader.readSection = (some sec, next) →
      ofNumber sec.type = some .chunkBody → Round codec beginTime endTime (true, r)
        (false, { r with fileReader := next.skipSection sec.size })

/-- The states of the loop over the sections in a call of `ReadMessage`. -/
inductive Comes (codec : Codec) (beginTime endTime : UInt64) : RecordReader → Bool × RecordReader → Prop
  | loop {r i s} : r.isValid → ¬(beginTime > r.header.getEndTime ∨ endTime < r.header.getBeginTime) →
      scan beginTime endTime (r.chunk.drop r.messageIndex) r.messageIndex = (none, i) →
      ReflTransGen (Round codec beginTime endTime) (false, { r with messageIndex := i }) s →
      Comes codec beginTime endTime r s
  | again {r i r' s} : r.isValid → ¬(beginTime > r.header.getEndTime ∨ endTime < r.header.getBeginTime) →
      scan beginTime endTime (r.chunk.drop r.messageIndex) r.messageIndex = (none, i) →
      Returns (fun fuel => nextChunk codec beginTime endTime fuel false { r with messageIndex := i }) (true, r') →
      Comes codec beginTime endTime { r' with messageIndex := 0 } s → Comes codec beginTime endTime r s

/-- No chunk body that the loop is about to skip has a negative size. -/
def Forward (s : Bool × RecordReader) : Prop :=
  s.1 = true → ∀ sec next, s.2.reachEnd = false → s.2.fileReader.readSection = (some sec, next) →
    ofNumber sec.type = some .chunkBody → 0 ≤ sec.size

/-- The call of `ReadMessage` skips no chunk body of negative size. -/
def SkipsForward (codec : Codec) (beginTime endTime : UInt64) (r : RecordReader) : Prop :=
  ∀ s, Comes codec beginTime endTime r s → Forward s

variable {beginTime endTime : UInt64} {skip : Bool} {r : RecordReader}

def left (r : RecordReader) : Nat :=
  if r.reachEnd then 0 else r.fileReader.file.length - r.fileReader.position

variable {next fileReader : RecordFileReader} {sec : Section} {r' : RecordReader}

theorem left_lt (hr : r.reachEnd = false) (hsec : r.fileReader.readSection = (some sec, next))
    (hforward : fileReader.reset = next.reset ∧ next.position ≤ fileReader.position) (chunk : ChunkBody) :
    ({ r with fileReader, chunk } : RecordReader).left < r.left := by
  obtain ⟨hreset,_,_⟩ := readSection_some hsec
  have hfile := file_eq (hforward.1.trans hreset)
  have hpos : 0 < sectionLength := by decide
  simp only [left,hr,hfile,Bool.false_eq_true,if_false]
  omega

theorem nextChunk_section (hforward : Forward (skip, r)) (hend : r.reachEnd = false)
    (hsec : r.fileReader.readSection = (some sec, next)) :
    (∃ ok r', (∀ fuel, nextChunk codec beginTime endTime (fuel+1) skip r = some (ok, r')) ∧ r'.left < r.left) ∨
    ∃ skip' r', (∀ fuel, nextChunk codec beginTime endTime (fuel+1) skip r =
        nextChunk codec beginTime endTime fuel skip' r') ∧
      Round codec beginTime endTime (skip, r) (skip', r') ∧ r'.left < r.left := by
  have hstop : ({ r with fileReader := next } : RecordReader).left < r.left := left_lt hend hsec ⟨rfl,le_rfl⟩ r.chunk
  have hlt (t : SectionType) := left_lt hend hsec (readMessage_forward codec next t sec.size)
  have hround (fuel : Nat) := nextChunk.eq_def codec beginTime endTime (fuel+1) skip r
  simp only [if_neg (ne_true_of_eq_false hend),hsec] at hround
  cases htype : ofNumber sec.type with rw [htype] at hround
  | none => exact .inl ⟨false,_,hround,hstop⟩
  | some t =>
    cases t with
    | header => exact .inl ⟨false,_,hround,hstop⟩
    | index => exact .inr ⟨skip,_,hround,.index hend hsec htype,Nat.lt_of_le_of_lt (Nat.zero_le _) hstop⟩
    | channel =>
      cases hok : (next.readMessage codec .channel sec.size).1 with
      | false =>
        refine .inl ⟨false,_,fun fuel => ?_,hlt .channel r.chunk⟩
        simp only [hround,hok]
        rfl
      | true =>
        refine .inr ⟨skip,_,fun fuel => ?_,.channel hend hsec htype hok,hlt .channel r.chunk⟩
        simp only [hround,hok]
        rfl
    | chunkHeader =>
      dsimp only at hround
      split at hround
      case isTrue => exact .inl ⟨false,_,hround,hlt .chunkHeader r.chunk⟩
      case isFalse hgo =>
        rw [Bool.or_eq_true,Bool.not_eq_true',decide_eq_true_iff,not_or,Bool.not_eq_false] at hgo
        exact .inr ⟨_,_,hround,.chunkHeader hend hsec htype hgo.1 hgo.2,hlt .chunkHeader r.chunk⟩
    | chunkBody =>
      cases skip with
      | true =>
        have hskip := skipSection_forward next (hforward rfl sec next hend hsec htype)
        exact .inr ⟨false,_,hround,.chunkBody hend hsec htype,left_lt hend hsec hskip r.chunk⟩
      | false => exact .inl ⟨_,_,hround,hlt .chunkBody (next.readMessage codec .chunkBody sec.size).2.1⟩

/-- What `ReadNextChunk` makes of a reader: it has gone forward, or it has found nothing and has kept its
chunk. -/
def Advances (r r' : RecordReader) (ok : Bool) : Prop :=
  r'.left < r.left ∨ ok = false ∧ r'.left ≤ r.left ∧ r'.chunk = r.chunk ∧ r'.messageIndex = r.messageIndex

theorem nextChunk_returns
    (hforward : ∀ s, ReflTransGen (Round codec beginTime endTime) (skip, r) s → Forward s) :
    ∃ ok r', Returns (fun fuel => nextChunk codec beginTime endTime fuel skip r) (ok, r') ∧ Advances r r' ok := by
  induction hn : r.left using Nat.strong_induction_on generalizing r skip with
  | _ _ ih =>
    cases hend : r.reachEnd with
    | true =>
      refine ⟨false,r,(returns_const _).succ fun fuel => ?_,.inr ⟨rfl,le_rfl,rfl,rfl⟩⟩
      rw [nextChunk,if_pos hend]
    | false =>
      rcases hsec : r.fileReader.readSection with ⟨_ | sec,next⟩
      · obtain ⟨hreset,_,-⟩ := readSection_none hsec
        have hfile := file_eq hreset
        refine ⟨false,{ r with fileReader := next },(returns_const _).succ fun fuel => ?_,.inr ⟨rfl,?_,rfl,rfl⟩⟩
        · rw [nextChunk,hend,hsec]
          rfl
        · simp only [left,hend,hfile,Bool.false_eq_true,if_false]
          omega
      · rcases nextChunk_section (hforward _ .refl) hend hsec with ⟨ok,r',hround,hlt⟩ | ⟨skip',r',hround,hstep,hlt⟩
        · exact ⟨ok,r',(returns_const _).succ hround,.inl hlt⟩
        · obtain ⟨ok,r'',hreturns,hadvances⟩ := ih r'.left (hn ▸ hlt) (fun s hs => hforward s (hs.head hstep)) rfl
          refine ⟨ok,r'',hreturns.succ hround,.inl ?_⟩
          rcases hadvances with hlt' | ⟨_,hle,_⟩
          · exact hlt'.trans hlt
          · exact hle.trans_lt hlt

theorem scan_index (beginTime endTime : UInt64) (l : List SingleMessage) (i : Nat) :
    i ≤ (scan beginTime endTime l i).2 ∧
      ∀ m, (scan beginTime endTime l i).1 = some (some m) → i < (scan beginTime endTime l i).2 ∧ 0 < l.length := by
  induction l generalizing i with
  | nil => exact ⟨le_rfl,fun m h => by cases h⟩
  | cons _ _ ih =>
    rw [scan]
    split
    case isTrue => exact ⟨le_rfl,fun m h => by cases h⟩
    case isFalse =>
      split
      case isTrue =>
        obtain ⟨_,hfound⟩ := ih (i+1)
        exact ⟨by omega,fun m h => ⟨by have := (hfound m h).1; omega,Nat.succ_pos _⟩⟩
      case isFalse => exact ⟨Nat.le_succ i,fun m _ => ⟨Nat.lt_succ_self i,Nat.succ_pos _⟩⟩

/-- The bytes ahead of the reader, then the messages of its chunk that are ahead. -/
def rank (r : RecordReader) : Nat ×ₗ Nat := toLex (r.left, r.chunk.length - r.messageIndex)

theorem rank_lt (h : r'.left < r.left) : r'.rank < r.rank := Prod.Lex.toLex_lt_toLex.mpr (.inl h)

theorem rank_le (hleft : r'.left ≤ r.left)
    (hmessages : r'.chunk.length - r'.messageIndex ≤ r.chunk.length - r.messageIndex) : r'.rank ≤ r.rank := by
  refine Prod.Lex.toLex_le_toLex.mpr ?_
  rcases hleft.lt_or_eq with hlt | heq
  · exact .inl hlt
  · exact .inr ⟨heq,hmessages⟩

/-- A call that skips forward returns, and if it returns a message it takes the reader forward. -/
theorem readMessage_returns (hforward : SkipsForward codec beginTime endTime r) :
    ∃ m r', Returns (fun fuel => readMessage codec beginTime endTime fuel r) (m, r') ∧
      r'.rank ≤ r.rank ∧ (m.isSome → r'.rank < r.rank) := by
  induction hn : r.left using Nat.strong_induction_on generalizing r with
  | _ _ ih =>
    have hstay (hround : ∀ fuel, readMessage codec beginTime endTime (fuel+1) r = some (none, r)) :
        ∃ m r', Returns (fun fuel => readMessage codec beginTime endTime fuel r) (m, r') ∧
          r'.rank ≤ r.rank ∧ (m.isSome → r'.rank < r.rank) :=
      ⟨none,r,(returns_const _).succ hround,le_rfl,Bool.noConfusion⟩
    by_cases hvalid : r.isValid
    case neg => exact hstay fun fuel => by rw [readMessage,if_pos (by simp [hvalid])]
    by_cases hrange : beginTime > r.header.getEndTime ∨ endTime < r.header.getBeginTime
    · exact hstay fun fuel => by rw [readMessage,if_neg (by simp [hvalid]),if_pos hrange]
    obtain ⟨hindex,hfound⟩ := scan_index beginTime endTime (r.chunk.drop r.messageIndex) r.messageIndex
    rcases hscan : scan beginTime endTime (r.chunk.drop r.messageIndex) r.messageIndex with ⟨_ | found,i⟩
    · rw [hscan] at hindex
      obtain ⟨ok,r',hreturns,hadvances⟩ := nextChunk_returns fun s hs => hforward s (.loop hvalid hrange hscan hs)
      have hround (fuel : Nat) : readMessage codec beginTime endTime (fuel+1) r =
          (nextChunk codec beginTime endTime fuel false { r with messageIndex := i }).bind fun out =>
            if out.1 then readMessage codec beginTime endTime fuel { out.2 with messageIndex := 0 }
            else some (none, out.2) := by
        rw [readMessage,if_neg (by simp [hvalid]),if_neg hrange,hscan]
      cases ok with
      | false =>
        refine ⟨none,r',hreturns.round hround (returns_const _),?_,Bool.noConfusion⟩
        rcases hadvances with hlt | ⟨_,hle,hchunk,hmessages⟩
        · have hlt : r'.left < r.left := hlt
          exact (rank_lt hlt).le
        · refine rank_le hle ?_
          rw [hchunk,hmessages]
          exact Nat.sub_le_sub_left hindex _
      | true =>
        rcases hadvances with hlt | ⟨hfalse,_⟩
        · obtain ⟨m,r'',hreturns',hle,_⟩ := ih r'.left (hn ▸ hlt) (r := { r' with messageIndex := 0 })
            (fun s hs => hforward s (.again hvalid hrange hscan hreturns hs)) rfl
          have hrank : r''.rank < r.rank := hle.trans_lt (rank_lt hlt)
          exact ⟨m,r'',hreturns.round hround hreturns',hrank.le,fun _ => hrank⟩
        · cases hfalse
    · rw [hscan] at hindex hfound
      refine ⟨found.map (·.toRecordMessage),{ r with messageIndex := i },(returns_const _).succ fun fuel => ?_,?_,?_⟩
      · rw [readMessage,if_neg (by simp [hvalid]),if_neg hrange,hscan]
      · exact rank_le le_rfl (Nat.sub_le_sub_left hindex _)
      · intro hm
        obtain ⟨m,rfl⟩ : ∃ m, found = some m := isSome_iff_exists.mp (isSome_map.symm.trans hm)
        obtain ⟨hlt,hpos⟩ := hfound m rfl
        rw [length_drop] at hpos
        have hin : r.messageIndex < r.chunk.length := by omega
        exact Prod.Lex.toLex_lt_toLex.mpr (.inr ⟨rfl,Nat.sub_lt_sub_left hin hlt⟩)

/-- The states of the reader before each of the calls. -/
inductive Before (codec : Codec) (calls : Nat → UInt64 × UInt64) (first : RecordReader) : Nat → RecordReader → Prop
  | first : Before codec calls first 0 first
  | next {n r m r'} : Before codec calls first n r →
      Returns (fun fuel => readMessage codec (calls n).1 (calls n).2 fuel r) (m, r') → Before codec calls first (n+1) r'

/-- Calls with any time ranges return, and only finitely many return a message. -/
theorem readMessage_terminates (file : List UInt8) (calls : Nat → UInt64 × UInt64)
    (hforward : ∀ n r, Before codec calls (openFile codec file) n r → SkipsForward codec (calls n).1 (calls n).2 r) :
    ∃ (readers : Nat → RecordReader) (results : Nat → Option RecordMessage), readers 0 = openFile codec file ∧
      (∀ n, Returns (fun fuel => readMessage codec (calls n).1 (calls n).2 fuel (readers n))
        (results n, readers (n+1))) ∧ { n | (results n).isSome }.Finite := by
  obtain ⟨readers,results,hzero,hcalls⟩ := exists_calls (.first : Before codec calls (openFile codec file) 0 _)
    fun n r hr =>
      let ⟨m,r',hcall⟩ := readMessage_returns (hforward n r hr)
      ⟨m,r',.next hr hcall.1,hcall⟩
  refine ⟨readers,results,hzero,fun n => (hcalls n).1,?_⟩
  exact finite_descents (fun n => (readers n).rank) (fun n => (hcalls n).2.1) fun n => (hcalls n).2.2

/-- Chunks are skipped only if they end before the begin of the time range. -/
theorem skipsForward_zero : SkipsForward codec 0 endTime r := by
  intro _ hs
  induction hs with
  | again _ _ _ _ _ ih => exact ih
  | @loop _ _ s _ _ _ hrounds =>
    have hskip : s.1 = false := by
      induction hrounds with
      | refl => rfl
      | tail _ hround ih =>
        cases hround with
        | index | channel => exact ih
        | chunkHeader => exact Bool.or_eq_false_iff.mpr ⟨ih,decide_eq_false UInt64.not_lt_zero⟩
        | chunkBody => rfl
    rw [Forward,hskip]
    exact nofun

def twoBytes : Codec where
  serialize _ _ := [0,0]
  parse
    | .header, _, _ => ⟨true,{ endTime := some 5 },2⟩
    | t, _, _ => ⟨true,t.fresh,2⟩

def negativeBody : List UInt8 := Bytes.toBytes 4 2 ++ List.replicate 4 0 ++ Bytes.toBytes 8 (2^64 - 34)

/-- A file with one chunk, which ends at time 0. -/
def backwards : List UInt8 :=
  twoBytes.headerOf { endTime := some 5 } ++ (twoBytes.sectionOf .chunkHeader {} ++ negativeBody)

theorem readMessage_terminates_backwards :
    ∃ (readers : Nat → RecordReader) (results : Nat → Option RecordMessage), readers 0 = openFile twoBytes backwards ∧
      (∀ n, Returns (fun fuel => readMessage twoBytes 0 lastTime fuel (readers n)) (results n, readers (n+1))) ∧
      { n | (results n).isSome }.Finite :=
  readMessage_terminates backwards (fun _ => (0, lastTime)) fun _ _ _ => skipsForward_zero

def backwardsAt (position : Nat) : RecordReader :=
  { fileReader := ⟨backwards,position,{ endTime := some 5 },[]⟩, isValid := true, header := { endTime := some 5 } }

theorem openFile_backwards : openFile twoBytes backwards = backwardsAt (sectionLength+headerLength) := rfl

theorem drop_backwards : backwards.drop (sectionLength+headerLength) =
    twoBytes.sectionOf .chunkHeader {} ++ negativeBody :=
  drop_left' (Codec.length_headerOf (by decide))

theorem nextChunk_earlyHeader (fuel : Nat) :
    nextChunk twoBytes 1 lastTime (fuel+1) false (backwardsAt (sectionLength+headerLength)) =
      nextChunk twoBytes 1 lastTime fuel true (backwardsAt (sectionLength+headerLength+18)) := by
  rw [nextChunk_header (r := backwardsAt (sectionLength+headerLength)) rfl drop_backwards ⟨⟨by decide,fun _ => rfl⟩,by decide⟩,
    if_neg (by decide)]
  rfl

/-- The body of the chunk leads back to its header. -/
theorem nextChunk_negativeBody (fuel : Nat) :
    nextChunk twoBytes 1 lastTime (fuel+1) true (backwardsAt (sectionLength+headerLength+18)) =
      nextChunk twoBytes 1 lastTime fuel false (backwardsAt (sectionLength+headerLength)) := by
  have hbody : backwards.drop (sectionLength+headerLength+18) = negativeBody := by
    rw [← drop_drop,drop_backwards]
    rfl
  have hsection : (backwardsAt (sectionLength+headerLength+18)).fileReader.readSection =
      (some ⟨2,-34⟩, (backwardsAt (sectionLength+headerLength+34)).fileReader) := by
    rw [RecordFileReader.readSection,backwardsAt,hbody]
    rfl
  rw [nextChunk,hsection]
  rfl

theorem readMessage_loops : (openFile twoBytes backwards).isValid ∧
    ∀ fuel, readMessage twoBytes 1 lastTime fuel (openFile twoBytes backwards) = none := by
  have hnext (fuel : Nat) :
      nextChunk twoBytes 1 lastTime fuel false (backwardsAt (sectionLength+headerLength)) = none := by
    induction fuel using Nat.twoStepInduction with
    | zero => rfl
    | one =>
      rw [nextChunk_earlyHeader]
      rfl
    | more _ ih => rw [nextChunk_earlyHeader,nextChunk_negativeBody,ih]
  rw [openFile_backwards]
  refine ⟨rfl,fun fuel => ?_⟩
  cases fuel with
  | zero => rfl
  | succ fuel =>
    have hround : readMessage twoBytes 1 lastTime (fuel+1) (backwardsAt (sectionLength+headerLength)) =
        (nextChunk twoBytes 1 lastTime fuel false (backwardsAt (sectionLength+headerLength))).bind fun out =>
          if out.1 then readMessage twoBytes 1 lastTime fuel { out.2 with messageIndex := 0 }
          else some (none, out.2) := rfl
    rw [hround,hnext,bind_none]

end RecordReader
end Apollo.Cyber.Record
