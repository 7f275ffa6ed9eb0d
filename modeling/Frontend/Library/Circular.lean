import Mathlib.Data.Nat.ModEq

namespace Frontend.Library

def Between (s e v : Nat) : Prop := if s ≤ e then s ≤ v ∧ v ≤ e else s ≤ v ∨ v ≤ e

variable {m s e v count k : Nat}

theorem mod_two_mul (h : x < 2 * m) : x % m = if x < m then x else x - m := by
  split
  case isTrue hlt => exact Nat.mod_eq_of_lt hlt
  case isFalse hle =>
    rw [Nat.mod_eq_sub_mod (Nat.le_of_not_lt hle)]
    exact Nat.mod_eq_of_lt (by omega)

def gap (m s e : Nat) : Nat := (s + m - e - 1) % m

theorem gap_eq (hs : s < m) (he : e < m) : gap m s e = if e < s then s - e - 1 else s + m - e - 1 := by
  rw [gap,mod_two_mul (by omega)]
  split <;> split <;> omega

theorem gap_lt (hm : 0 < m) : gap m s e < m := Nat.mod_lt _ hm

def steps (m s v : Nat) : Nat := (v + m - s) % m

theorem steps_eq (hs : s < m) (hv : v < m) : steps m s v = if s ≤ v then v - s else v + m - s := by
  rw [steps,mod_two_mul (by omega)]
  split <;> split <;> omega

theorem steps_lt_iff (hs : s < m) (hv : v < m) (hc : count ≤ m) : steps m s v < count ↔ ∃ k < count,
    v = (s + k) % m := by
  constructor
  · intro h
    refine ⟨_,h,?_⟩
    rw [steps_eq hs hv] at h ⊢
    rw [mod_two_mul (by split <;> omega)]
    split <;> split <;> omega
  · rintro ⟨k,hk,rfl⟩
    rw [steps_eq hs hv,mod_two_mul (by omega)]
    split <;> split <;> omega

theorem extend_down (hs : s < m) (he : e < m) (hc : count ≤ gap m s e) (hv : v < m) :
    (Between ((s + m - count) % m) e v ↔ Between s e v ∨ steps m ((s + m - count) % m) v < count) ∧
      ¬ (Between s e v ∧ steps m ((s + m - count) % m) v < count) := by
  have hlt := gap_lt (m := m) (s := s) (e := e) (by omega)
  rw [gap_eq hs he] at hc hlt
  rw [steps_eq (Nat.mod_lt _ (by omega)) hv,mod_two_mul (by omega)]
  unfold Between
  split at hc <;> constructor <;> split_ifs <;> omega

theorem extend_up (hs : s < m) (he : e < m) (hc : count ≤ gap m s e) (hv : v < m) :
    (Between s ((e + count) % m) v ↔ Between s e v ∨ steps m ((e + 1) % m) v < count) ∧
      ¬ (Between s e v ∧ steps m ((e + 1) % m) v < count) := by
  have hlt := gap_lt (m := m) (s := s) (e := e) (by omega)
  rw [gap_eq hs he] at hc hlt
  rw [steps_eq (Nat.mod_lt _ (by omega)) hv,mod_two_mul (show e + 1 < 2 * m by omega),
    mod_two_mul (by split at hc <;> omega)]
  unfold Between
  split at hc <;> constructor <;> split_ifs <;> omega

theorem add_mod_inj (hi : i < m) (hj : j < m) (h : (s + i) % m = (s + j) % m) : i = j := by
  have := Nat.ModEq.add_left_cancel' s (show (s + i) ≡ (s + j) [MOD m] from h)
  rwa [Nat.ModEq,Nat.mod_eq_of_lt hi,Nat.mod_eq_of_lt hj] at this

end Frontend.Library
