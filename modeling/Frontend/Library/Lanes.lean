import Frontend.Library.Bytes

namespace Frontend.Library

def lane (i x : Nat) : Nat := x / 2 ^ (8 * i) % 2 ^ 8

variable {i j x y : Nat}

theorem lane_lt : lane i x < 256 := Nat.mod_lt _ (by decide)

theorem lane_or : lane i (x ||| y) = lane i x ||| lane i y := by
  rw [lane,Nat.or_div_two_pow,Nat.or_mod_two_pow]
  rfl

theorem lane_and : lane i (x &&& y) = lane i x &&& lane i y := by
  rw [lane,Nat.and_div_two_pow,Nat.and_mod_two_pow]
  rfl

theorem lane_xor : lane i (x ^^^ y) = lane i x ^^^ lane i y := by
  rw [lane,Nat.xor_div_two_pow,Nat.xor_mod_two_pow]
  rfl

theorem lane_zero : lane 0 x = x % 256 := by simp [lane]

theorem lane_succ : lane (i + 1) x = lane i (x / 256) := by
  rw [lane,lane,Nat.div_div_eq_div_mul,Nat.mul_add,Nat.pow_add,Nat.mul_comm]

theorem testBit_lane (h : j < 8) : (lane i x).testBit j = x.testBit (8 * i + j) := by
  rw [lane,Nat.testBit_mod_two_pow,Nat.testBit_div_two_pow,decide_eq_true h,Bool.true_and,Nat.add_comm]

section

variable (n : Nat) (hx : x < 256 ^ n) (hy : y < 256 ^ n) (h : ∀ i < n, lane i y ≤ lane i x)

include n hx hy h

theorem le_of_lanes : y ≤ x := by
  induction n generalizing x y with
  | zero => omega
  | succ n ih =>
    have h0 := h 0 (Nat.succ_pos n)
    have ht : y / 256 ≤ x / 256 := ih (by omega) (by omega) fun i hi => by
      simpa [lane_succ] using h (i + 1) (Nat.succ_lt_succ hi)
    simp only [lane_zero] at h0
    omega

-- No borrow crosses a lane.
theorem lane_sub (hi : i < n) :
    lane i (x - y) = lane i x - lane i y := by
  induction n generalizing x y i with
  | zero => omega
  | succ n ih =>
    have h0 := h 0 (Nat.succ_pos n)
    have ht i (hi : i < n) : lane i (y / 256) ≤ lane i (x / 256) := by
      simpa [lane_succ] using h (i + 1) (Nat.succ_lt_succ hi)
    have hx' : x / 256 < 256 ^ n := by omega
    have hy' : y / 256 < 256 ^ n := by omega
    have hle := le_of_lanes n hx' hy' ht
    simp only [lane_zero] at h0
    cases i with
    | zero =>
      simp only [lane_zero]
      omega
    | succ i =>
      rw [lane_succ,lane_succ,lane_succ,← ih hx' hy' ht (Nat.lt_of_succ_lt_succ hi)]
      congr 1
      omega

end

theorem ofLeBytes_lt (l : List UInt8) : ofLeBytes l < 256 ^ l.length := by
  induction l with
  | nil => decide
  | cons b l ih =>
    have hb := b.toNat_lt
    rw [ofLeBytes,List.length_cons,Nat.pow_succ]
    omega

theorem lane_ofLeBytes (h : l[i]? = some b) : lane i (ofLeBytes l) = b.toNat := by
  induction l generalizing i with
  | nil => cases h
  | cons a l ih =>
    have ha := a.toNat_lt
    cases i with
    | zero =>
      cases h
      rw [lane_zero,ofLeBytes]
      omega
    | succ i =>
      rw [lane_succ,ofLeBytes,← ih h]
      congr 1
      omega

end Frontend.Library
