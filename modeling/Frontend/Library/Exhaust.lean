import Mathlib.Order.Nat

namespace Frontend.Library

variable {S : Type*} {step : S → Option S} {I : S → Prop} {s s' : S}

def exhaust (step : S → Option S) : Nat → S → S
  | 0, s => s
  | fuel + 1, s =>
    match step s with
    | none => s
    | some s' => exhaust step fuel s'

theorem exhaust_spec (measure : S → Nat) (hst : ∀ s s', I s → step s = some s' → I s' ∧ measure s' < measure s)
    (fuel : Nat) (hs : I s)
    (hf : measure s ≤ fuel) : I (exhaust step fuel s) ∧ step (exhaust step fuel s) = none := by
  induction fuel generalizing s with
  | zero =>
    cases h : step s with
    | none => exact ⟨hs,h⟩
    | some s' =>
      have hlt := (hst s s' hs h).2
      omega
  | succ fuel ih =>
    simp only [exhaust]
    split
    case h_1 h => exact ⟨hs,h⟩
    case h_2 s' h =>
      obtain ⟨hs',hlt⟩ := hst s s' hs h
      exact ih hs' (by omega)

end Frontend.Library
