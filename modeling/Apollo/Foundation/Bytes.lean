import Mathlib.Algebra.Order.Ring.Nat

/-! Files as lists of bytes: numbers of a fixed width in little-endian order, and writes that
overwrite what is there. -/
namespace Apollo.Foundation.Bytes
open List

/-- The `width` low bytes of a number. -/
def toBytes : Nat → Nat → List UInt8
  | 0, _ => []
  | width+1, n => UInt8.ofNat n::toBytes width (n/256)

def ofBytes : List UInt8 → Nat
  | [] => 0
  | b::bytes => b.toNat+256*ofBytes bytes

@[simp] theorem length_toBytes (width n : Nat) : (toBytes width n).length = width := by
  induction width generalizing n with
  | zero => rfl
  | succ _ ih => simp [toBytes,ih]

theorem ofBytes_toBytes {width n : Nat} (h : n < 256^width) : ofBytes (toBytes width n) = n := by
  induction width generalizing n with
  | zero =>
    simp only [toBytes,ofBytes]
    omega
  | succ _ ih =>
    rw [toBytes,ofBytes,ih (by omega),UInt8.toNat_ofNat']
    omega

/-- Write `bytes` from `position` on; a gap behind the end of the file is filled with zeros. -/
def overwrite (file : List UInt8) (position : Nat) (bytes : List UInt8) : List UInt8 :=
  file.take position ++ List.replicate (position - file.length) 0 ++ bytes ++ file.drop (position+bytes.length)

theorem length_overwrite (file : List UInt8) (position : Nat) (bytes : List UInt8) :
    (overwrite file position bytes).length = max file.length (position+bytes.length) := by
  simp only [overwrite,length_append,length_take,length_replicate,length_drop]
  omega

theorem overwrite_append (front rest bytes : List UInt8) :
    overwrite (front ++ rest) front.length bytes = front ++ bytes ++ rest.drop bytes.length := by
  have hgap : front.length - (front ++ rest).length = 0 := by
    rw [length_append]
    omega
  rw [overwrite,hgap,take_left,replicate_zero,append_nil,drop_append,
    drop_eq_nil_of_le (Nat.le_add_right ..),nil_append,Nat.add_sub_cancel_left]

end Apollo.Foundation.Bytes
