import Mathlib.Data.BitVec

/-! `EncodeBase64` and `DecodeBase64`, with signed characters. -/
namespace Apollo.Modules.Common.Util
open BitVec

def base64Array : List (BitVec 8) :=
  "ABCDEFGHIJKLMNOPQRSTUVWXYZabcdefghijklmnopqrstuvwxyz0123456789+/".toList.map fun c => .ofNat 8 c.toNat

def base64CodeTable : List Int :=
  (List.range base64Array.length).foldl (fun table i => table.set (base64Array.getD i 0).toNat i) (.replicate 256 (-1))

def tripletBase64 (triplet : BitVec 32) : List (BitVec 8) :=
  [18,12,6,0].map fun shift => base64Array.getD (triplet.sshiftRight shift &&& 0x3f#32).toNat 0

/-- The triplet of three characters, each of which is converted to `int`. -/
def triplet (a b c : BitVec 8) : BitVec 32 := a.signExtend 32 <<< 16 ||| b.signExtend 32 <<< 8 ||| c.signExtend 32

def encodeBase64 : List (BitVec 8) → List (BitVec 8)
  | a::b::c::rest => tripletBase64 (triplet a b c) ++ encodeBase64 rest
  | [a,b] => (tripletBase64 (triplet a b 0)).take 3 ++ [0x3d]
  | [a] => (tripletBase64 (triplet a 0 0)).take 2 ++ [0x3d,0x3d]
  | [] => []

/-- The loop of `DecodeBase64`. `none` is a negative index into the table. -/
def decodeFrom (sum : BitVec 32) (sumBits : Nat) : List (BitVec 8) → Option (List (BitVec 8))
  | [] => some []
  | c::rest =>
    let code := base64CodeTable.getD c.toNat (-1)
    if c.msb then none
    else if code = -1 then some []
    else
      let sum := sum <<< 6 + .ofInt 32 code
      let sumBits := sumBits+6
      if 8 ≤ sumBits then
        (decodeFrom sum (sumBits - 8) rest).map ((sum >>> (sumBits - 8)).setWidth 8 :: ·)
      else decodeFrom sum sumBits rest

def decodeBase64 (base64Str : List (BitVec 8)) : Option (List (BitVec 8)) := decodeFrom 0 0 base64Str

theorem code_base64Array : ∀ v : Fin 64, (base64Array.getD v 0).msb = false ∧
    base64CodeTable.getD (base64Array.getD v 0).toNat (-1) = v := by
  decide +kernel

theorem decodeFrom_padding (sum : BitVec 32) (sumBits : Nat) (rest : List (BitVec 8)) :
    decodeFrom sum sumBits (0x3d::rest) = some [] := by
  have hcode : base64CodeTable.getD (0x3d : BitVec 8).toNat (-1) = -1 := by decide +kernel
  rw [decodeFrom,hcode]
  rfl

def sextet (t : BitVec 32) (shift : Nat) : Nat := (t.sshiftRight shift &&& 0x3f#32).toNat

theorem sextet_eq (t : BitVec 32) {shift : Nat} (h : shift ≤ 18) : sextet t shift = t.toNat/2^shift%64 := by
  have hsign : t.sshiftRight shift &&& 0x3f#32 = t >>> shift &&& 0x3f#32 := by
    ext i hi
    by_cases hlt : shift+i < 32
    · simp [getElem_sshiftRight,hlt]
    · have hmask : (63#32)[i] = false := by
        rw [getElem_eq_testBit_toNat]
        have hpow : 2^6 ≤ 2^i := Nat.pow_le_pow_right (by decide) (by omega)
        exact Nat.testBit_lt_two_pow (lt_of_lt_of_le (by decide) hpow)
      rw [getElem_and,getElem_and,hmask,Bool.and_false,Bool.and_false]
  rw [sextet,hsign,toNat_and,toNat_ushiftRight,Nat.shiftRight_eq_div_pow]
  exact Nat.and_two_pow_sub_one_eq_mod _ 6

theorem decodeFrom_sextet (t : BitVec 32) {shift : Nat} (h : shift ≤ 18) (sum : BitVec 32) (sumBits : Nat)
    (rest : List (BitVec 8)) :
    decodeFrom sum sumBits (base64Array.getD (sextet t shift) 0::rest) =
      let sum := sum <<< 6 + .ofNat 32 (sextet t shift)
      if 8 ≤ sumBits+6 then
        (decodeFrom sum (sumBits+6 - 8) rest).map ((sum >>> (sumBits+6 - 8)).setWidth 8 :: ·)
      else decodeFrom sum (sumBits+6) rest := by
  have hlt : sextet t shift < 64 := by
    rw [sextet_eq t h]
    omega
  obtain ⟨hmsb,hcode⟩ := code_base64Array ⟨sextet t shift,hlt⟩
  rw [decodeFrom,hmsb,hcode,if_neg Bool.false_ne_true,if_neg (by omega)]
  rfl

/-- Two consecutive sextets have a byte of the triplet, whatever was in front of them. -/
theorem decodeFrom_byte (t : BitVec 32) (shift drop : Nat) (h : (shift, drop) ∈ [(12, 4),(6, 2),(0, 0)])
    (sum : BitVec 32) (rest : List (BitVec 8)) :
    let sum := sum <<< 6 + .ofNat 32 (sextet t (shift+6))
    decodeFrom sum (drop+2) (base64Array.getD (sextet t shift) 0::rest) =
      (decodeFrom (sum <<< 6 + .ofNat 32 (sextet t shift)) drop rest).map ((t >>> (shift+drop)).setWidth 8 :: ·) := by
  intro sum'
  simp only [List.mem_cons,Prod.mk.injEq,List.not_mem_nil,or_false] at h
  have hbyte : ((sum' <<< 6 + .ofNat 32 (sextet t shift)) >>> drop).setWidth 8 = (t >>> (shift+drop)).setWidth 8 := by
    apply eq_of_toNat_eq
    simp only [sum',sextet_eq t (by omega : shift+6 ≤ 18),sextet_eq t (by omega : shift ≤ 18),toNat_setWidth,
      toNat_ushiftRight,toNat_add,toNat_shiftLeft,toNat_ofNat,Nat.shiftLeft_eq,
      Nat.shiftRight_eq_div_pow]
    obtain ⟨rfl,rfl⟩ | ⟨rfl,rfl⟩ | ⟨rfl,rfl⟩ := h <;> omega
  rw [decodeFrom_sextet t (by omega),← hbyte]
  rw [if_pos (by omega),add_assoc,Nat.add_sub_cancel]

theorem exists_decodeFrom (t sum : BitVec 32) :
    ∃ sum₁, (∀ rest, decodeFrom sum 0 (base64Array.getD (sextet t 18) 0::base64Array.getD (sextet t 12) 0::rest) =
      (decodeFrom sum₁ 4 rest).map ((t >>> 16).setWidth 8 :: ·)) ∧
    ∃ sum₂, (∀ rest, decodeFrom sum₁ 4 (base64Array.getD (sextet t 6) 0::rest) =
      (decodeFrom sum₂ 2 rest).map ((t >>> 8).setWidth 8 :: ·)) ∧
    ∃ sum₃, ∀ rest, decodeFrom sum₂ 2 (base64Array.getD (sextet t 0) 0::rest) =
      (decodeFrom sum₃ 0 rest).map ((t >>> 0).setWidth 8 :: ·) := by
  refine ⟨_,fun rest => ?_,_,decodeFrom_byte t 6 2 (by decide) (sum <<< 6 + .ofNat 32 (sextet t 18)),_,
    decodeFrom_byte t 0 0 (by decide) _⟩
  exact (decodeFrom_sextet t le_rfl sum 0 _).trans (decodeFrom_byte t 12 4 (by decide) sum rest)

def received : List (BitVec 8) → List (BitVec 8)
  | a::b::c::rest =>
    (if b.msb ∨ c.msb then .allOnes 8 else a)::(if c.msb then .allOnes 8 else b)::c::received rest
  | [a,b] => [if b.msb then .allOnes 8 else a,b]
  | rest => rest

theorem getLsbD_triplet (a b c : BitVec 8) {i : Nat} (hi : i < 24) :
    (triplet a b c).getLsbD i = ((16 ≤ i && a.getLsbD (i - 16)) ||
      (8 ≤ i && if i < 16 then b.getLsbD (i - 8) else b.msb) || if i < 8 then c.getLsbD i else c.msb) := by
  simp only [triplet,getLsbD_or,getLsbD_shiftLeft,getLsbD_signExtend]
  grind

theorem bytes_triplet (a b c : BitVec 8) :
    (triplet a b c >>> 16).setWidth 8 = (if b.msb ∨ c.msb then .allOnes 8 else a) ∧
      (triplet a b c >>> 8).setWidth 8 = (if c.msb then .allOnes 8 else b) ∧ (triplet a b c >>> 0).setWidth 8 = c := by
  refine ⟨?_,?_,?_⟩ <;> apply eq_of_getLsbD_eq <;> intro i hi <;>
    rw [getLsbD_setWidth,getLsbD_ushiftRight,getLsbD_triplet a b c (by omega)]
  · rw [apply_ite (getLsbD · i),getLsbD_allOnes]
    grind
  · rw [apply_ite (getLsbD · i),getLsbD_allOnes]
    grind
  · grind

theorem tripletBase64_eq (t : BitVec 32) : tripletBase64 t = [base64Array.getD (sextet t 18) 0,
    base64Array.getD (sextet t 12) 0,base64Array.getD (sextet t 6) 0,base64Array.getD (sextet t 0) 0] := rfl

theorem decodeFrom_encodeBase64 (sum : BitVec 32) (bytes : List (BitVec 8)) :
    decodeFrom sum 0 (encodeBase64 bytes) = some (received bytes) := by
  induction bytes using encodeBase64.induct generalizing sum with
  | case1 a b c _ ih =>
    obtain ⟨hfirst,hsecond,hthird⟩ := bytes_triplet a b c
    obtain ⟨_,h₁,_,h₂,_,h₃⟩ := exists_decodeFrom (triplet a b c) sum
    rw [encodeBase64,tripletBase64_eq]
    simp only [List.cons_append,List.nil_append]
    rw [h₁,h₂,h₃,ih,hfirst,hsecond,hthird]
    rfl
  | case2 a b =>
    obtain ⟨hfirst,hsecond,-⟩ := bytes_triplet a b 0
    obtain ⟨_,h₁,_,h₂,-⟩ := exists_decodeFrom (triplet a b 0) sum
    rw [encodeBase64,tripletBase64_eq]
    simp only [List.take_succ_cons,List.take_zero,List.cons_append,List.nil_append]
    rw [h₁,h₂,decodeFrom_padding,hfirst,hsecond]
    simp [received]
  | case3 a =>
    obtain ⟨hfirst,-⟩ := bytes_triplet a 0 0
    obtain ⟨_,h₁,-⟩ := exists_decodeFrom (triplet a 0 0) sum
    rw [encodeBase64,tripletBase64_eq]
    simp only [List.take_succ_cons,List.take_zero,List.cons_append,List.nil_append]
    rw [h₁,decodeFrom_padding,hfirst]
    simp [received]
  | case4 => rfl

/-- A byte of 128 or more needs bytes of 255 in front of it in its triplet. -/
def Survives : List (BitVec 8) → Prop
  | a::b::c::rest => (b.msb ∨ c.msb → a = .allOnes 8) ∧ (c.msb → b = .allOnes 8) ∧ Survives rest
  | [a,b] => b.msb → a = .allOnes 8
  | _ => True

/-- The bytes that come back from the round trip are those that survive the packing of signed characters. -/
theorem decodeBase64_encodeBase64_iff (bytes : List (BitVec 8)) :
    decodeBase64 (encodeBase64 bytes) = some bytes ↔ Survives bytes := by
  rw [decodeBase64,decodeFrom_encodeBase64,Option.some_inj]
  induction bytes using encodeBase64.induct with
  | case1 a _ _ _ ih =>
    simp only [received,Survives,List.cons.injEq,ite_eq_right_iff,eq_comm (a := allOnes 8),ih,true_and]
  | case2 a => simp only [received,Survives,List.cons.injEq,ite_eq_right_iff,eq_comm (a := allOnes 8),
      and_true]
  | case3 | case4 => exact iff_of_true rfl trivial

theorem decodeBase64_encodeBase64_high : decodeBase64 (encodeBase64 [0x00,0x80]) = some [0xff,0x80] ∧
    decodeBase64 (encodeBase64 [0x00,0x80]) ≠ some [0x00,0x80] := by
  decide +kernel

end Apollo.Modules.Common.Util
