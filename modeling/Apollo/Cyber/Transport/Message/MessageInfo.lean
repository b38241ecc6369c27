import Apollo.Foundation.Bytes
import Mathlib.Data.List.GetD

/-! `Identity` with its cached hash and `MessageInfo`, and the sample identity in which a message info travels over
RTPS. -/
namespace Apollo.Cyber.Transport

/-- The bytes of an identity, with the hash of them that `Update` has stored. -/
structure Identity where
  data : Vector UInt8 8
  hashValue : UInt64
  hashValueStr : String
  deriving DecidableEq

/-- The constructor without generation. -/
def Identity.zero : Identity := ⟨.replicate 8 0,0, ""⟩

/-- `operator==`. -/
def Identity.same (id another : Identity) : Bool := id.data = another.data

structure MessageInfo where
  senderId : Identity
  seqNum : UInt64
  spareId : Identity
  deriving DecidableEq

/-- `related_sample_identity`: the writer's guid and the two halves of a sequence number. -/
structure SampleIdentity where
  writerGuid : Vector UInt8 16
  high : Int32
  low : UInt32
  deriving DecidableEq

def MessageInfo.toSample (info : MessageInfo) : SampleIdentity where
  writerGuid := info.senderId.data ++ info.spareId.data
  high := ((info.seqNum &&& 0xFFFFFFFF00000000) >>> 32).toUInt32.toInt32
  low := (info.seqNum &&& 0xFFFFFFFF).toUInt32.toInt32.toUInt32

section Hash
variable (hash : Vector UInt8 8 → UInt64)

def Identity.update (id : Identity) : Identity :=
  { id with hashValue := hash id.data, hashValueStr := toString (hash id.data) }

def Identity.setData (id : Identity) (data : Vector UInt8 8) : Identity := { id with data }.update hash

def SampleIdentity.toInfo (sample : SampleIdentity) : MessageInfo where
  senderId := Identity.zero.setData hash (sample.writerGuid.take 8)
  spareId := Identity.zero.setData hash (sample.writerGuid.drop 8)
  seqNum := (sample.high.toInt64 <<< 32 ||| sample.low.toUInt64.toInt64).toUInt64

end Hash

theorem Identity.same_iff (id another : Identity) : id.same another = true ↔ id.data = another.data :=
  decide_eq_true_iff

theorem getLsbD_highMask : ∀ i < 64, (0xFFFFFFFF00000000#64).getLsbD i = decide (32 ≤ i) := by decide

theorem getLsbD_lowMask : ∀ i < 64, (0xFFFFFFFF#64).getLsbD i = decide (i < 32) := by decide

/-- The two halves of a number give it back. The sign of the high half is shifted out. -/
theorem halves (b : BitVec 64) : (((b &&& 0xFFFFFFFF00000000#64) >>> 32).setWidth 32).signExtend 64 <<< 32 |||
      ((b &&& 0xFFFFFFFF#64).setWidth 32).setWidth 64 = b := by
  apply BitVec.eq_of_getLsbD_eq
  intro i hi
  by_cases h : i < 32
  · simp only [BitVec.getLsbD_or,BitVec.getLsbD_shiftLeft,BitVec.getLsbD_setWidth,BitVec.getLsbD_and,
      getLsbD_lowMask i hi,h]
    simp [hi]
  · have hlt : i - 32 < 32 := by omega
    have hback : 32+(i - 32) = i := by omega
    simp only [BitVec.getLsbD_or,BitVec.getLsbD_shiftLeft,BitVec.getLsbD_signExtend,
      BitVec.getLsbD_setWidth,BitVec.getLsbD_ushiftRight,BitVec.getLsbD_and,hlt,hback,
      getLsbD_highMask i hi,h]
    simp [hi,Nat.le_of_not_lt h,Nat.lt_of_le_of_lt (Nat.sub_le i 32) hi]

theorem toArray_drop_append {m n : Nat} (a : Vector UInt8 m) (b : Vector UInt8 n) :
    ((a ++ b).drop m).toArray = b.toArray := by
  obtain ⟨a,rfl⟩ := a
  obtain ⟨b,rfl⟩ := b
  simp [Array.extract_append]

theorem seqNum_toInfo_toSample (hash : Vector UInt8 8 → UInt64) (info : MessageInfo) :
    (info.toSample.toInfo hash).seqNum = info.seqNum := by
  apply UInt64.toBitVec_inj.mp
  exact halves info.seqNum.toBitVec

theorem spareId_toInfo_toSample (hash : Vector UInt8 8 → UInt64) (info : MessageInfo) :
    (info.toSample.toInfo hash).spareId.data = info.spareId.data := by
  apply Vector.toArray_inj.mp
  exact toArray_drop_append info.senderId.data info.spareId.data

open Foundation Bytes
namespace Identity

def copy (another : Identity) : Identity := ⟨another.data,another.hashValue,another.hashValueStr⟩

/-- `operator=`. The assignment to itself changes nothing either way. -/
def assign (id another : Identity) : Identity :=
  { id with data := another.data, hashValue := another.hashValue, hashValueStr := another.hashValueStr }

section Hash
variable (hash : Vector UInt8 8 → UInt64)

def generate (uuid : Vector UInt8 16) : Identity := { zero with data := uuid.take 8 }.update hash

def setDataAt (id : Identity) : Option (Vector UInt8 8) → Identity
  | none => id
  | some data => id.setData hash data

/-- The identities of a program, with whether `Update` has been called for their bytes. -/
inductive Obtained : Bool → Identity → Prop
  | ungenerated : Obtained false zero
  | generated (uuid : Vector UInt8 16) : Obtained true (generate hash uuid)
  | copied {updated : Bool} {another : Identity} : Obtained updated another → Obtained updated another.copy
  | assigned {old updated : Bool} {id another : Identity} :
    Obtained old id → Obtained updated another → Obtained updated (id.assign another)
  | setNull {updated : Bool} {id : Identity} : Obtained updated id → Obtained updated (id.setDataAt hash none)
  | setData {old : Bool} {id : Identity} (data : Vector UInt8 8) :
    Obtained old id → Obtained true (id.setDataAt hash (some data))

end Hash
end Identity

namespace MessageInfo

def kSize : Nat := 2*8+8

def serializeTo (info : MessageInfo) : List UInt8 :=
  info.senderId.data.toList ++ toBytes 8 info.seqNum.toNat ++ info.spareId.data.toList

/-- `SerializeTo` a buffer of the length of `dst`. `none` is the result `false`. -/
def serializeToBuffer (info : MessageInfo) (dst : List UInt8) : Option (List UInt8) :=
  if dst.length < kSize then none
  else
    let dst := overwrite dst 0 info.senderId.data.toList
    let dst := overwrite dst 8 (toBytes 8 info.seqNum.toNat)
    some (overwrite dst 16 info.spareId.data.toList)

def dataAt (src : List UInt8) (position : Nat) : Vector UInt8 8 := Vector.ofFn fun i => src.getD (position+i) 0

/-- `DeserializeFrom`. `none` is the result `false`. -/
def deserializeFrom (hash : Vector UInt8 8 → UInt64) (info : MessageInfo) (src : List UInt8) : Option MessageInfo :=
  if src.length ≠ kSize then none
  else some {
    senderId := info.senderId.setData hash (dataAt src 0)
    seqNum := UInt64.ofNat (ofBytes ((src.drop 8).take 8))
    spareId := info.spareId.setData hash (dataAt src 16) }

end MessageInfo

namespace Identity
variable {hash : Vector UInt8 8 → UInt64} {updated : Bool} {id : Identity}

/-- What is cached: the hash of the bytes, or nothing and the bytes are zero. -/
def Cached (hash : Vector UInt8 8 → UInt64) (updated : Bool) (id : Identity) : Prop :=
  id = if updated then id.update hash else zero

theorem Obtained.cached (h : Obtained hash updated id) : Cached hash updated id := by
  induction h with
  | ungenerated | generated => rfl
  | copied _ ih | assigned _ _ _ ih | setNull _ ih => exact ih
  | setData => rfl

theorem toString_ne_empty (n : UInt64) : toString n ≠ "" := by
  intro h
  have hpos : 0 < (toString n).length := Nat.length_repr_pos
  rw [h] at hpos
  exact absurd hpos (Nat.lt_irrefl 0)

theorem Cached.hashValueStr_eq_empty_iff (h : Cached hash updated id) : id.hashValueStr = "" ↔ updated = false := by
  cases updated with
  | false =>
    have hzero := h
    rw [hzero]
    exact iff_of_true rfl rfl
  | true =>
    have hupdate := h
    rw [hupdate]
    exact iff_of_false (toString_ne_empty _) (by decide)

theorem Cached.same_hash_iff {updated' : Bool} {another : Identity} (h : Cached hash updated id)
    (h' : Cached hash updated' another) (hsame : id.same another = true) :
    (id.hashValue = another.hashValue ∧ id.hashValueStr = another.hashValueStr) ↔ updated = updated' := by
  constructor
  · rintro ⟨-,hstr⟩
    have hiff : updated = false ↔ updated' = false := by
      rw [← h.hashValueStr_eq_empty_iff,← h'.hashValueStr_eq_empty_iff,hstr]
    exact Bool.eq_iff_iff.mpr (by grind)
  · rintro rfl
    have hdata := (same_iff id another).mp hsame
    have heq : id = another := by
      rw [h,h']
      cases updated with
      | false => rfl
      | true => simp only [if_true,update,hdata]
    rw [heq]
    exact ⟨rfl,rfl⟩

end Identity

namespace MessageInfo
variable (info : MessageInfo)

theorem length_serializeTo : info.serializeTo.length = kSize := by
  simp [serializeTo,kSize]

theorem dataAt_append (front rest : List UInt8) (data : Vector UInt8 8) :
    dataAt (front ++ data.toList ++ rest) front.length = data := by
  apply Vector.ext
  intro i hi
  have hlength : i < data.toList.length := by rwa [Vector.length_toList]
  rw [dataAt,Vector.getElem_ofFn,List.append_assoc,List.getD_append_right _ _ _ _ (Nat.le_add_right ..),
    Nat.add_sub_cancel_left,List.getD_append _ _ _ _ hlength]
  simp [List.getD_eq_getElem?_getD,hi]

theorem senderId_serializeTo : dataAt info.serializeTo 0 = info.senderId.data := by
  rw [serializeTo,List.append_assoc]
  exact dataAt_append [] _ _

theorem spareId_serializeTo : dataAt info.serializeTo 16 = info.spareId.data := by
  have hfront : (info.senderId.data.toList ++ toBytes 8 info.seqNum.toNat).length = 16 := by simp
  have hread := dataAt_append (info.senderId.data.toList ++ toBytes 8 info.seqNum.toNat) [] info.spareId.data
  rwa [hfront,List.append_nil] at hread

theorem seqNum_serializeTo : UInt64.ofNat (ofBytes ((info.serializeTo.drop 8).take 8)) = info.seqNum := by
  have hdrop : info.serializeTo.drop 8 = toBytes 8 info.seqNum.toNat ++ info.spareId.data.toList := by
    rw [serializeTo,List.append_assoc,List.drop_left' (by simp)]
  rw [hdrop,List.take_left' (by simp),ofBytes_toBytes info.seqNum.toNat_lt,UInt64.ofNat_toNat]

theorem deserializeFrom_serializeTo (hash : Vector UInt8 8 → UInt64) (target : MessageInfo) :
    target.deserializeFrom hash info.serializeTo =
      some ⟨info.senderId.update hash,info.seqNum,info.spareId.update hash⟩ := by
  rw [deserializeFrom,if_neg (not_not.mpr info.length_serializeTo),senderId_serializeTo,seqNum_serializeTo,
    spareId_serializeTo]
  rfl

theorem serializeToBuffer_eq {dst : List UInt8} (h : kSize ≤ dst.length) :
    info.serializeToBuffer dst = some (info.serializeTo ++ dst.drop kSize) := by
  have hsender : overwrite dst 0 info.senderId.data.toList = info.senderId.data.toList ++ dst.drop 8 := by
    have hwrite := overwrite_append [] dst info.senderId.data.toList
    rwa [Vector.length_toList] at hwrite
  have hseq := overwrite_append info.senderId.data.toList (dst.drop 8) (toBytes 8 info.seqNum.toNat)
  have hspare := overwrite_append (info.senderId.data.toList ++ toBytes 8 info.seqNum.toNat) (dst.drop 16)
    info.spareId.data.toList
  simp only [Vector.length_toList,length_toBytes,List.length_append,List.drop_drop] at hseq hspare
  rw [serializeToBuffer,if_neg (Nat.not_lt.mpr h)]
  dsimp only
  rw [hsender,hseq,hspare]
  rfl

/-- The hash law of identities, and the round trip through a buffer. -/
theorem hash_roundTrip (hash : Vector UInt8 8 → UInt64) :
    (∀ (updated updated' : Bool) (id another : Identity), Identity.Obtained hash updated id →
      Identity.Obtained hash updated' another → id.same another = true →
        ((id.hashValue = another.hashValue ∧ id.hashValueStr = another.hashValueStr) ↔ updated = updated')) ∧
    ∀ (senderUpdated spareUpdated : Bool) (info target : MessageInfo) (dst : List UInt8),
      Identity.Obtained hash senderUpdated info.senderId → Identity.Obtained hash spareUpdated info.spareId →
      kSize ≤ dst.length → ∃ dst' received, info.serializeToBuffer dst = some dst' ∧
        target.deserializeFrom hash (dst'.take kSize) = some received ∧
        target.deserializeFrom hash info.serializeTo = some received ∧
        received.senderId.same info.senderId = true ∧ received.seqNum = info.seqNum ∧
        received.spareId.same info.spareId = true ∧
        ((received.senderId.hashValue = info.senderId.hashValue ∧
          received.senderId.hashValueStr = info.senderId.hashValueStr) ↔ senderUpdated = true) ∧
        ((received.spareId.hashValue = info.spareId.hashValue ∧
          received.spareId.hashValueStr = info.spareId.hashValueStr) ↔ spareUpdated = true) := by
  refine ⟨fun _ _ _ _ h h' hsame => h.cached.same_hash_iff h'.cached hsame,?_⟩
  intro _ _ info target dst hsender hspare hdst
  have hcached : ∀ id : Identity, Identity.Cached hash true (id.update hash) := fun _ => rfl
  have hsame : ∀ id : Identity, (id.update hash).same id = true := fun id => (Identity.same_iff _ id).mpr rfl
  have hbuffer : (info.serializeTo ++ dst.drop kSize).take kSize = info.serializeTo :=
    List.take_left' info.length_serializeTo
  refine ⟨_,_,info.serializeToBuffer_eq hdst,?_,info.deserializeFrom_serializeTo hash target,hsame _,rfl,
    hsame _,?_,?_⟩
  · rw [hbuffer]
    exact info.deserializeFrom_serializeTo hash target
  · rw [(hcached info.senderId).same_hash_iff hsender.cached (hsame _),eq_comm]
  · rw [(hcached info.spareId).same_hash_iff hspare.cached (hsame _),eq_comm]

/-- The round trip of a message info of a generated sender, which has no spare id. -/
theorem hash_roundTrip_generated : ∃ dst' received,
    (MessageInfo.mk (.generate (fun _ => 5) (.replicate 16 1)) 7 .zero).serializeToBuffer (.replicate 30 9) = some dst' ∧
    (MessageInfo.mk .zero 0 .zero).deserializeFrom (fun _ => 5) (dst'.take kSize) = some received ∧
      received.seqNum = 7 ∧ received.senderId.hashValue = 5 ∧
      ¬(received.spareId.hashValue = 0 ∧ received.spareId.hashValueStr = "") := by
  obtain ⟨dst',received,hdst,hread,-,-,hseq,-,hsender,hspare⟩ := (hash_roundTrip fun _ => 5).2 true false
    ⟨.generate (fun _ => 5) (.replicate 16 1),7,.zero⟩ ⟨.zero,0,.zero⟩ (.replicate 30 9) (.generated _) .ungenerated
    (by decide)
  exact ⟨dst',received,hdst,hread,hseq,(hsender.mpr rfl).1,fun h => Bool.noConfusion (hspare.mp h)⟩

/-- An identity that was never generated is equal to one of zeros, but its string is empty and its hash is zero. -/
theorem ungenerated_differs :
    (¬ ∃ hash : Vector UInt8 8 → UInt64, ∀ (updated updated' : Bool) (id another : Identity),
      Identity.Obtained hash updated id → Identity.Obtained hash updated' another → id.same another = true →
        id.hashValueStr = another.hashValueStr) ∧
    ¬ ∃ hash : Vector UInt8 8 → UInt64, hash (.replicate 8 0) ≠ 0 ∧
      ∀ (senderUpdated spareUpdated : Bool) (info received : MessageInfo),
        Identity.Obtained hash senderUpdated info.senderId → Identity.Obtained hash spareUpdated info.spareId →
        info.deserializeFrom hash info.serializeTo = some received →
          received.spareId.hashValue = info.spareId.hashValue := by
  constructor
  · rintro ⟨hash,hlaw⟩
    have hzeros : Identity.Obtained hash true (Identity.zero.setDataAt hash (some (.replicate 8 0))) :=
      .setData _ .ungenerated
    exact Identity.toString_ne_empty _ (hlaw false true _ _ .ungenerated hzeros rfl).symm
  · rintro ⟨hash,hne,hlaw⟩
    exact hne (hlaw false false ⟨.zero,1,.zero⟩ _ .ungenerated .ungenerated (deserializeFrom_serializeTo _ hash _))

end MessageInfo

end Apollo.Cyber.Transport
