import Mathlib.Data.List.Basic
import Mathlib.Data.Nat.Bitwise

namespace Frontend.Library

open List

-- A decoder takes exactly the bytes of the value; what it makes of them may be named anew.
structure Codec (α : Type) where
  encode : α → List UInt8
  decode : List UInt8 → Option (α × List UInt8)
  reread : α → α
  decode_encode : ∀ a rest, decode (encode a ++ rest) = some (reread a,rest)

def leBytes : Nat → Nat → List UInt8
  | 0, _ => []
  | k + 1, v => UInt8.ofNat (v % 256) :: leBytes k (v / 256)

def ofLeBytes : List UInt8 → Nat
  | [] => 0
  | b :: bs => b.toNat + 256 * ofLeBytes bs

@[simp] theorem length_leBytes (k v : Nat) : (leBytes k v).length = k := by
  induction k generalizing v with
  | zero => rfl
  | succ k ih => simp [leBytes,ih]

theorem toNat_ofNat_of_lt (h : n < 256) : (UInt8.ofNat n).toNat = n := by simp [Nat.mod_eq_of_lt h]

theorem ofLeBytes_leBytes (h : v < 256 ^ k) : ofLeBytes (leBytes k v) = v := by
  induction k generalizing v with
  | zero =>
    have hv : v = 0 := by simpa using h
    simp [leBytes,ofLeBytes,hv]
  | succ k ih =>
    have hd : v / 256 < 256 ^ k := by
      rw [Nat.div_lt_iff_lt_mul (by decide)]
      simpa [Nat.pow_succ] using h
    rw [leBytes,ofLeBytes,toNat_ofNat_of_lt (Nat.mod_lt _ (by decide)),ih hd]
    exact Nat.mod_add_div v 256

def readLe (raw : List UInt8) (width i : Nat) : Option Nat :=
  ((List.range width).mapM fun k => raw[width * i + k]?).map ofLeBytes

theorem mapM_getElem?_append (bytes raw : List UInt8) :
    (List.range bytes.length).mapM (fun k => (bytes ++ raw)[k]?) = some bytes := by
  induction bytes with
  | nil => rfl
  | cons b bytes ih =>
    rw [length_cons,range_succ_eq_map,mapM_cons,mapM_map]
    simp [Function.comp_def,ih]

theorem readLe_zero (h : v < 256 ^ width) (raw : List UInt8) : readLe (leBytes width v ++ raw) width 0 = some v := by
  have hm := mapM_getElem?_append (leBytes width v) raw
  rw [length_leBytes] at hm
  simp [readLe,hm,ofLeBytes_leBytes h]

theorem readLe_succ (width v : Nat) (raw : List UInt8) (i : Nat) :
    readLe (leBytes width v ++ raw) width (i + 1) = readLe raw width i := by
  unfold readLe
  congr 2
  funext k
  have hk : width * (i + 1) + k = (leBytes width v).length + (width * i + k) := by
    rw [length_leBytes,Nat.mul_succ]
    omega
  rw [hk,getElem?_append_right (Nat.le_add_right ..),Nat.add_sub_cancel_left]

theorem mapM_readLe (h : ∀ v ∈ vs, v < 256 ^ width) :
    (List.range vs.length).mapM (readLe (vs.flatMap (leBytes width)) width) = some vs := by
  induction vs with
  | nil => rfl
  | cons v vs ih =>
    rw [length_cons,range_succ_eq_map,mapM_cons,mapM_map,flatMap_cons,readLe_zero (h v (.head _))]
    have hr : (fun i => readLe (leBytes width v ++ vs.flatMap (leBytes width)) width (i + 1)) =
        readLe (vs.flatMap (leBytes width)) width := funext (readLe_succ width v _)
    have ih' := ih fun v' hv' => h v' (.tail _ hv')
    simp only [Function.comp_def,Nat.succ_eq_add_one,hr,ih']
    rfl

theorem length_flatMap_leBytes (width : Nat) (vs : List Nat) :
    (vs.flatMap (leBytes width)).length = width * vs.length := by
  induction vs with
  | nil => simp
  | cons v vs ih => rw [flatMap_cons,length_append,ih,length_leBytes,length_cons,Nat.mul_succ,Nat.add_comm]

end Frontend.Library
