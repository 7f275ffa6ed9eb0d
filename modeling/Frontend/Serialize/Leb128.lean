import Frontend.Library.Bytes
import Mathlib.Data.Int.ModEq
import Mathlib.Tactic.LinearCombination
import Mathlib.Tactic.Ring

namespace Frontend.Serialize

open Library List

def maxLeb128Len (width : Nat) : Nat := (width + 6) / 7

def writeUnsignedLeb128 : Nat → Nat → List UInt8
  | 0, _ => []
  | room + 1, value =>
    if value < 0x80 then [UInt8.ofNat value]
    else UInt8.ofNat (value &&& 0x7f ||| 0x80) :: writeUnsignedLeb128 room (value >>> 7)

def readUnsignedLeb128 (width : Nat) : Nat → Nat → List UInt8 → Option (Nat × List UInt8)
  | _, _, [] => none
  | result, shift, byte :: bytes =>
    if byte.toNat &&& 0x80 = 0 then some (result ||| (byte.toNat <<< shift) % 2 ^ width,bytes)
    else
      readUnsignedLeb128 width (result ||| ((byte.toNat &&& 0x7f) <<< shift) % 2 ^ width) (shift + 7) bytes

def writeSignedLeb128 : Nat → Int → List UInt8
  | 0, _ => []
  | room + 1, value =>
    let byte := (value % 128).toNat
    let value := value >>> (7 : Nat)
    let more := !((value == 0 && byte &&& 0x40 == 0) || (value == -1 && byte &&& 0x40 != 0))
    if more then UInt8.ofNat (byte ||| 0x80) :: writeSignedLeb128 room value else [UInt8.ofNat byte]

def readSignedLeb128 (width : Nat) : Nat → Nat → List UInt8 → Option (Nat × List UInt8)
  | _, _, [] => none
  | result, shift, byte :: bytes =>
    let result := result ||| ((byte.toNat &&& 0x7f) <<< shift) % 2 ^ width
    if byte.toNat &&& 0x80 = 0 then
      if shift + 7 < width ∧ byte.toNat &&& 0x40 ≠ 0 then
        some (result ||| ((2 ^ width - 1) <<< (shift + 7)) % 2 ^ width,bytes)
      else some (result,bytes)
    else readSignedLeb128 width result (shift + 7) bytes

def emitU32 (value : UInt32) : List UInt8 := writeUnsignedLeb128 (maxLeb128Len 32) value.toNat

def readU32 (bytes : List UInt8) : Option (UInt32 × List UInt8) :=
  (readUnsignedLeb128 32 0 0 bytes).map fun r => (UInt32.ofNat r.1,r.2)

variable {result shift width room : Nat} {value : Int}

theorem or_shiftLeft (h : result < 2 ^ shift) : result ||| x <<< shift = result + x * 2 ^ shift := by
  rw [Nat.or_comm,← Nat.shiftLeft_add_eq_or_of_lt h,Nat.shiftLeft_eq,Nat.add_comm]

theorem low_bits : ∀ n < 0x80, n &&& 0x80 = 0 ∧ (n ||| 0x80) < 256 ∧ (n ||| 0x80) &&& 0x80 ≠ 0 ∧
    (n ||| 0x80) &&& 0x7f = n := by decide

theorem shiftLeft_mod {x value : Nat} (hv : value * 2 ^ shift < 2 ^ width) (hx : x ≤ value) :
    (x <<< shift) % 2 ^ width = x <<< shift := by
  rw [Nat.shiftLeft_eq]
  exact Nat.mod_eq_of_lt (Nat.lt_of_le_of_lt (Nat.mul_le_mul_right _ hx) hv)

theorem read_continued {value : Nat} (bytes : List UInt8) (hr : result < 2 ^ shift)
    (hv : value * 2 ^ shift < 2 ^ width) :
    readUnsignedLeb128 width result shift (UInt8.ofNat (value &&& 0x7f ||| 0x80) :: bytes) =
      readUnsignedLeb128 width (result + value % 128 * 2 ^ shift) (shift + 7) bytes := by
  have ha := Nat.and_two_pow_sub_one_eq_mod value 7
  obtain ⟨-,hlt,hf,hb⟩ := low_bits (value % 128) (Nat.mod_lt _ (by decide))
  rw [readUnsignedLeb128,ha,toNat_ofNat_of_lt hlt,if_neg hf,hb,shiftLeft_mod hv (Nat.mod_le _ _),or_shiftLeft hr]

theorem read_last {value : Nat} (rest : List UInt8) (hl : value < 0x80) (hr : result < 2 ^ shift)
    (hv : value * 2 ^ shift < 2 ^ width) :
    readUnsignedLeb128 width result shift (UInt8.ofNat value :: rest) = some (result + value * 2 ^ shift,rest) := by
  rw [readUnsignedLeb128,toNat_ofNat_of_lt (by omega),if_pos (low_bits value hl).1,shiftLeft_mod hv le_rfl,
    or_shiftLeft hr]

theorem two_pow_add_seven (shift : Nat) : 2 ^ (shift + 7) = 128 * 2 ^ shift := by rw [Nat.pow_add,Nat.mul_comm]

theorem low_lt (hb : b < 128) (h : result < 2 ^ shift) : result + b * 2 ^ shift < 2 ^ (shift + 7) := by
  have hl : b * 2 ^ shift ≤ 127 * 2 ^ shift := Nat.mul_le_mul_right _ (Nat.le_of_lt_succ hb)
  rw [two_pow_add_seven]
  omega

theorem read_writeUnsignedLeb128 {value : Nat} (rest : List UInt8) (hr : value < 2 ^ (7 * (room + 1)))
    (hre : result < 2 ^ shift)
    (hv : value * 2 ^ shift < 2 ^ width) :
    readUnsignedLeb128 width result shift (writeUnsignedLeb128 (room + 1) value ++ rest) =
    some (result + value * 2 ^ shift,rest) := by
  induction room generalizing value result shift with
  | zero =>
    have hl : value < 0x80 := hr
    rw [writeUnsignedLeb128,if_pos hl]
    exact read_last rest hl hre hv
  | succ room ih =>
    rw [writeUnsignedLeb128]
    split
    · rename_i hl
      exact read_last rest hl hre hv
    · have hs : value % 128 * 2 ^ shift + value / 128 * 2 ^ (shift + 7) = value * 2 ^ shift := by
        rw [two_pow_add_seven,← Nat.mul_assoc,← Nat.add_mul,Nat.mul_comm _ 128,Nat.mod_add_div]
      have hd := Nat.shiftRight_eq_div_pow value 7
      have hr' : value / 128 < 2 ^ (7 * (room + 1)) := by
        rw [Nat.div_lt_iff_lt_mul (by decide)]
        simpa [Nat.mul_succ,Nat.pow_add] using hr
      have hre' := low_lt (Nat.mod_lt value (by decide)) hre
      rw [cons_append,read_continued _ hre hv,hd,ih hr' hre' (by omega)]
      exact congrArg (fun n => some (n,rest)) (by omega)

theorem sign_bit : ∀ n < 0x80, (n &&& 0x40 = 0 ↔ n < 0x40) ∧ n &&& 0x7f = n := by decide

theorem writeSigned_last (hl : -64 ≤ value) (hh : value < 64) :
    writeSignedLeb128 (room + 1) value = [UInt8.ofNat (value % 128).toNat] := by
  have hb := (sign_bit (value % 128).toNat (by omega)).1
  have hd := Int.shiftRight_eq_div_pow value 7
  rw [writeSignedLeb128]
  simp only [hd]
  rcases lt_or_ge value 0 with hn | hp
  · have hs : ¬ (value % 128).toNat &&& 0x40 = 0 := by omega
    have hq : value / 128 = -1 := by omega
    simp [hs,hq]
  · have hs : (value % 128).toNat &&& 0x40 = 0 := by omega
    have hq : value / 128 = 0 := by omega
    simp [hs,hq]

theorem writeSigned_more (h : value < -64 ∨ 64 ≤ value) : writeSignedLeb128 (room + 1) value =
      UInt8.ofNat ((value % 128).toNat ||| 0x80) :: writeSignedLeb128 room (value / 128) := by
  have hb := (sign_bit (value % 128).toNat (by omega)).1
  have hd : value >>> (7 : Nat) = value / 128 := Int.shiftRight_eq_div_pow value 7
  have hz : ¬ value / 128 = 0 ∨ ¬ (value % 128).toNat &&& 0x40 = 0 := by omega
  have ho : ¬ value / 128 = -1 ∨ (value % 128).toNat &&& 0x40 = 0 := by omega
  rw [writeSignedLeb128]
  simp only [hd]
  rw [if_pos (by simpa using ⟨hz,ho⟩)]

theorem or_shiftLeft_mod (x : Nat) (h : result < 2 ^ shift) :
    result % 2 ^ width ||| (x <<< shift) % 2 ^ width = (result + x * 2 ^ shift) % 2 ^ width := by
  rw [← Nat.or_mod_two_pow,or_shiftLeft h]

theorem mod_eq_toNat {m : Nat} (h : (2 ^ width : Int) ∣ m - value) : m % 2 ^ width = (value % 2 ^ width).toNat := by
  have hm := Int.modEq_iff_dvd.mpr h
  rw [hm]
  norm_cast

theorem readSigned_last (rest : List UInt8) (h : result < 2 ^ shift) (hl : -64 ≤ value) (hh : value < 64) :
    readSignedLeb128 width (result % 2 ^ width) shift (UInt8.ofNat (value % 128).toNat :: rest) =
      some (((result + value * 2 ^ shift) % 2 ^ width).toNat,rest) := by
  obtain ⟨hbi,hlow7⟩ := sign_bit (value % 128).toNat (by omega)
  have hf := (low_bits (value % 128).toNat (by omega)).1
  have hp : (2 : Int) ^ (shift + 7) = 128 * 2 ^ shift := by rw [pow_add,mul_comm]; rfl
  rw [readSignedLeb128]
  simp only [toNat_ofNat_of_lt (show (value % 128).toNat < 256 by omega),hf,hlow7,if_true,or_shiftLeft_mod _ h]
  rcases lt_or_ge value 0 with hn | hpo
  · have hb : ((value % 128).toNat : Int) = value + 128 := by omega
    split
    case isTrue he =>
      rw [or_shiftLeft_mod _ (low_lt (by omega) h),mod_eq_toNat]
      refine ⟨2 ^ (shift + 7),?_⟩
      push_cast [Nat.one_le_two_pow,hb,hp]
      ring
    case isFalse he =>
      rw [mod_eq_toNat]
      have hd : (2 : Int) ^ width ∣ 2 ^ (shift + 7) := pow_dvd_pow 2 (by omega)
      refine hd.trans ⟨1,?_⟩
      push_cast [hb,hp]
      ring
  · have hb : ((value % 128).toNat : Int) = value := by omega
    rw [if_neg (by omega),mod_eq_toNat]
    push_cast [hb]
    simp

theorem read_writeSignedLeb128 (rest : List UInt8) (h : result < 2 ^ shift)
    (hlo : -2 ^ (7 * room + 6) ≤ value) (hh : value < 2 ^ (7 * room + 6)) :
    readSignedLeb128 width (result % 2 ^ width) shift (writeSignedLeb128 (room + 1) value ++ rest) =
      some (((result + value * 2 ^ shift) % 2 ^ width).toNat,rest) := by
  induction room generalizing value result shift with
  | zero =>
    have hlo : -64 ≤ value := hlo
    have hh : value < 64 := hh
    rw [writeSigned_last hlo hh]
    exact readSigned_last rest h hlo hh
  | succ room ih =>
    by_cases hl : -64 ≤ value ∧ value < 64
    · rw [writeSigned_last hl.1 hl.2]
      exact readSigned_last rest h hl.1 hl.2
    obtain ⟨-,hlt,hf,hb⟩ := low_bits (value % 128).toNat (by omega)
    have hr : (2 : Int) ^ (7 * (room + 1) + 6) = 128 * 2 ^ (7 * room + 6) := by ring
    have hby : ((value % 128).toNat : Int) = value % 128 := by omega
    rw [writeSigned_more (by omega),cons_append,readSignedLeb128]
    simp only [toNat_ofNat_of_lt hlt,if_neg hf,hb,or_shiftLeft_mod _ h]
    rw [ih (low_lt (by omega) h) (by omega) (by omega)]
    have hs : (↑(result + (value % 128).toNat * 2 ^ shift) : Int) + value / 128 * 2 ^
        (shift + 7) = result + value * 2 ^ shift := by
      push_cast [hby,pow_add]
      linear_combination (2 : Int) ^ shift * Int.emod_add_mul_ediv value 128
    rw [hs]

theorem signed_leb128_round_trip {width : Nat} (value : BitVec (width + 1)) (rest : List UInt8) :
    readSignedLeb128 (width + 1) 0 0 (writeSignedLeb128 (maxLeb128Len (width + 1)) value.toInt ++ rest) =
    some (value.toNat,rest) := by
  have hr : maxLeb128Len (width + 1) = width / 7 + 1 := by
    rw [maxLeb128Len]
    omega
  have hp : (2 : Int) ^ width ≤ 2 ^ (7 * (width / 7) + 6) := pow_le_pow_right₀ (by decide) (by omega)
  have hl : -2 ^ width ≤ value.toInt := value.le_toInt
  have hu : value.toInt < 2 ^ width := value.toInt_lt
  have hv : (value.toInt % 2 ^ (width + 1)).toNat = value.toNat := by
    conv_rhs => rw [← BitVec.ofInt_toInt (x := value),BitVec.toNat_ofInt]
    norm_cast
  simpa [hr,hv] using @read_writeSignedLeb128 0 0 (width + 1) (width / 7) _ rest (by decide) (by omega) (hu.trans_le hp)

theorem readU32_emitU32 (value : UInt32) (rest : List UInt8) : readU32 (emitU32 value ++ rest) = some (value,rest) := by
  have hv := value.toNat_lt
  have hr : readUnsignedLeb128 32 0 0 (emitU32 value ++ rest) = some (0 + value.toNat * 2 ^ 0,rest) :=
    read_writeUnsignedLeb128 rest (hv.trans (by decide)) (by decide) (by simpa using hv)
  simp [readU32,hr]

end Frontend.Serialize
