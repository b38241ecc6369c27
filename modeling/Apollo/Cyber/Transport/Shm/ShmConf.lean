import Mathlib.Algebra.Order.Ring.Int

/-! `ShmConf`: the sizes of a shared-memory segment as a function of the largest message it
should hold. -/
namespace Apollo.Cyber.Transport.Shm

namespace ShmConf

def extraSize : Nat := 1024*4
def stateSize : Nat := 1024
def blockSize : Nat := 1024
def messageInfoSize : Nat := 1024

def blockNum16K : Nat := 512
def messageSize16K : Nat := 1024*16
def blockNum128K : Nat := 128
def messageSize128K : Nat := 1024*128
def blockNum1M : Nat := 64
def messageSize1M : Nat := 1024*1024
def blockNum8M : Nat := 32
def messageSize8M : Nat := 1024*1024*8
def blockNum16M : Nat := 16
def messageSize16M : Nat := 1024*1024*16
def blockNumMore : Nat := 8
def messageSizeMore : Nat := 1024*1024*32

end ShmConf

structure ShmConf where
  ceilingMsgSize : Nat
  blockBufSize : Nat
  blockNum : Nat
  managedShmSize : Nat
  deriving DecidableEq

namespace ShmConf

def getCeilingMessageSize (realMsgSize : Nat) : Nat :=
  if realMsgSize ≤ messageSize16K then messageSize16K
  else if realMsgSize ≤ messageSize128K then messageSize128K
  else if realMsgSize ≤ messageSize1M then messageSize1M
  else if realMsgSize ≤ messageSize8M then messageSize8M
  else if realMsgSize ≤ messageSize16M then messageSize16M
  else messageSizeMore

def getBlockBufSize (ceilingMsgSize : Nat) : Nat := ceilingMsgSize+messageInfoSize

/-- The `switch` of the source; an unknown size has no blocks. -/
def getBlockNum (ceilingMsgSize : Nat) : Nat :=
  if ceilingMsgSize = messageSize16K then blockNum16K
  else if ceilingMsgSize = messageSize128K then blockNum128K
  else if ceilingMsgSize = messageSize1M then blockNum1M
  else if ceilingMsgSize = messageSize8M then blockNum8M
  else if ceilingMsgSize = messageSize16M then blockNum16M
  else if ceilingMsgSize = messageSizeMore then blockNumMore
  else 0

def update (realMsgSize : Nat) : ShmConf :=
  let ceiling := getCeilingMessageSize realMsgSize
  let buf := getBlockBufSize ceiling
  let num := getBlockNum ceiling
  ⟨ceiling,buf,num,extraSize+stateSize+(blockSize+buf)*num⟩

def default : ShmConf := update messageSize16K

def ceilings : List (Nat × Nat) :=
  [(messageSize16K, blockNum16K),(messageSize128K, blockNum128K),(messageSize1M, blockNum1M),
   (messageSize8M, blockNum8M),(messageSize16M, blockNum16M),(messageSizeMore, blockNumMore)]

theorem update_mem (n : Nat) : ((update n).ceilingMsgSize, (update n).blockNum) ∈ ceilings := by
  unfold update getCeilingMessageSize
  split_ifs <;> decide

theorem update_row {P : Nat → Nat → Prop} (h : ∀ r ∈ ceilings, P r.1 r.2) (n : Nat) :
    P (update n).ceilingMsgSize (update n).blockNum := h _ (update_mem n)

theorem update_ceiling (n : Nat) : update (update n).ceilingMsgSize = update n := by
  have : getCeilingMessageSize (update n).ceilingMsgSize = (update n).ceilingMsgSize :=
    update_row (P := fun c _ => getCeilingMessageSize c = c) (by decide) n
  rw [update,this]
  rfl

theorem le_ceiling {n : Nat} (h : n ≤ messageSizeMore) : n ≤ (update n).ceilingMsgSize := by
  change n ≤ getCeilingMessageSize n
  unfold getCeilingMessageSize
  split_ifs <;> assumption

theorem blockNum_pow (n : Nat) : ∃ k < 10, (update n).blockNum = 2^k :=
  update_row (P := fun _ num => ∃ k < 10, num = 2^k) (by decide) n

end ShmConf
end Apollo.Cyber.Transport.Shm
