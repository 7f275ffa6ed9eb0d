import Mathlib.Logic.Basic

namespace Frontend.Library

variable {ε α β : Type} {E E' : ε → Prop} {P P' : α → Prop} {Q : β → Prop}

def Outcome (E : ε → Prop) (P : α → Prop) : Except ε α → Prop
  | .ok a => P a
  | .error e => E e

variable {a : α} {e : ε} {f : α → Except ε β} {r : Except ε α}

@[simp] theorem outcome_ok : Outcome E P (.ok a) ↔ P a := Iff.rfl

@[simp] theorem outcome_error : Outcome E P (.error e : Except ε α) ↔ E e := Iff.rfl

@[simp] theorem outcome_pure : Outcome E P (pure a) ↔ P a := Iff.rfl

@[simp] theorem ok_bind : (Except.ok a >>= f) = f a := rfl

@[simp] theorem error_bind : ((Except.error e : Except ε α) >>= f) = .error e := rfl

theorem Outcome.mono (h : Outcome E P r) (hE : ∀ e, E e → E' e) (hP : ∀ a, P a → P' a) : Outcome E' P' r := by
  cases r with
  | ok a => exact hP a h
  | error e => exact hE e h

theorem Outcome.imp (h : Outcome E P r) (hP : ∀ a, P a → P' a) : Outcome E P' r := h.mono (fun _ h => h) hP

theorem Outcome.bind (h : Outcome E P r) (hf : ∀ a, P a → Outcome E Q (f a)) : Outcome E Q (r >>= f) := by
  cases r with
  | ok a => exact hf a h
  | error e => exact h

theorem Outcome.map (h : Outcome E (fun a => Q (g a)) r) : Outcome E Q (r.map g) := by cases r <;> exact h

theorem Outcome.error_of (h : Outcome E P r) (hr : r = .error e) : E e := by
  subst hr
  exact h

theorem Outcome.of_ok (h : Outcome E P r) (hr : r = .ok a) : P a := by
  subst hr
  exact h

theorem ok_of_bind (h : (r >>= f) = .ok b) : ∃ a, r = .ok a ∧ f a = .ok b := by
  cases r with
  | ok a => exact ⟨a,rfl,h⟩
  | error e => cases h

theorem ok_of_map (h : r.map g = .ok b) : ∃ a, r = .ok a ∧ g a = b := by
  cases r with
  | ok a => exact ⟨a,rfl,Except.ok.inj h⟩
  | error e => cases h

end Frontend.Library
