import Mathlib.Tactic

namespace Frontend.Library.Tally

variable {α : Type*} {l : List α} {i : Nat} {a : α}

def tally (f : α → Nat) (l : List α) : Nat := (l.map f).sum

@[simp] theorem tally_nil (f : α → Nat) : tally f [] = 0 := rfl

@[simp] theorem tally_cons (f : α → Nat) (a : α) (l : List α) : tally f (a :: l) = f a + tally f l := by simp [tally]

@[simp] theorem tally_append (f : α → Nat) (l r : List α) : tally f (l ++ r) = tally f l + tally f r := by simp [tally]

theorem tally_set (f : α → Nat) (h : l[i]? = some a) (b : α) : tally f (l.set i b) + f a = tally f l + f b := by
  induction l generalizing i with
  | nil => simp at h
  | cons x l ih =>
    cases i with
    | zero =>
      cases h
      simp only [List.set_cons_zero,tally_cons]
      omega
    | succ i =>
      have hr := ih (by simpa using h)
      simp only [List.set_cons_succ,tally_cons]
      omega

theorem exists_of_tally_pos (h : 0 < tally f l) : ∃ (i : Nat) (a : α), l[i]? = some a ∧ 0 < f a := by
  induction l with
  | nil => simp at h
  | cons x l ih =>
    rw [tally_cons] at h
    by_cases hx : 0 < f x
    · exact ⟨0,x,rfl,hx⟩
    · obtain ⟨i,a,hi,ha⟩ := ih (by omega)
      exact ⟨i + 1,a,hi,ha⟩

theorem le_tally (f : α → Nat) (h : l[i]? = some a) : f a ≤ tally f l := by
  induction l generalizing i with
  | nil => simp at h
  | cons x l ih =>
    cases i with
    | zero =>
      cases h
      simp
    | succ i =>
      have hr := ih (by simpa using h)
      rw [tally_cons]
      omega

theorem tally_eq_zero (h : ∀ a ∈ l, f a = 0) : tally f l = 0 := List.sum_eq_zero (by simpa using h)

end Frontend.Library.Tally
