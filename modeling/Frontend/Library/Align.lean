import Mathlib.Data.Nat.Bitwise

namespace Frontend.Library

open BitVec

variable {w k : Nat}

theorem toNat_twoPow_sub_one (h : k < w) : (twoPow w k - 1#w).toNat = 2 ^ k - 1 := by
  have hk : 2 ^ k < 2 ^ w := Nat.pow_lt_pow_right (by omega) h
  have hp : 0 < 2 ^ k := Nat.two_pow_pos k
  have ho : 1 % 2 ^ w = 1 := Nat.mod_eq_of_lt (by omega)
  have hs : 2 ^ w - 1 + 2 ^ k = 2 ^ w + (2 ^ k - 1) := by omega
  rw [toNat_sub,toNat_twoPow,Nat.mod_eq_of_lt hk,toNat_ofNat,ho,hs,Nat.add_mod_left,Nat.mod_eq_of_lt (by omega)]

theorem toNat_and_not_pred (h : k < w) (x : BitVec w) :
    (x &&& ~~~(twoPow w k - 1#w)).toNat = x.toNat - x.toNat % 2 ^ k := by
  have hl : (x &&& (twoPow w k - 1#w)).toNat = x.toNat % 2 ^ k := by
    rw [toNat_and,toNat_twoPow_sub_one h,Nat.and_two_pow_sub_one_eq_mod]
  set m := twoPow w k - 1#w with hm
  have hd : (x &&& ~~~m) &&& (x &&& m) = 0#w := by
    ext i hi
    simp only [getElem_and,getElem_not,getElem_zero]
    cases x[i] <;> cases m[i] <;> rfl
  have hor : (x &&& ~~~m) ||| (x &&& m) = x := by
    ext i hi
    simp only [getElem_or,getElem_and,getElem_not]
    cases x[i] <;> cases m[i] <;> rfl
  have hs : (x &&& ~~~m).toNat + (x &&& m).toNat = x.toNat := by
    rw [← toNat_add_of_and_eq_zero hd,add_eq_or_of_and_eq_zero _ _ hd,hor]
  omega

end Frontend.Library
