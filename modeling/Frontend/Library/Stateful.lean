import Mathlib.Logic.Basic

namespace Frontend.Library

variable {ε σ α β : Type}

def Post (Q : α → σ → Prop) (E : ε → σ → Prop) (x : EStateM ε σ α) (s : σ) : Prop :=
  match x s with
  | .ok a s' => Q a s'
  | .error e s' => E e s'

namespace Post

variable {Q Q' : α → σ → Prop} {E E' : ε → σ → Prop} {x : EStateM ε σ α} {s : σ}

theorem mono (h : Post Q E x s) (hQ : ∀ a s', Q a s' → Q' a s') (hE : ∀ e s', E e s' → E' e s') : Post Q' E' x s := by
  unfold Post at h ⊢
  cases hx : x s with
  | ok a s' =>
    rw [hx] at h
    exact hQ a s' h
  | error e s' =>
    rw [hx] at h
    exact hE e s' h

@[simp] theorem pure_iff : Post Q E (pure a) s ↔ Q a s := Iff.rfl

@[simp] theorem throw_iff : Post Q E (throw e) s ↔ E e s := Iff.rfl

@[simp] theorem get_iff {Q : σ → σ → Prop} : Post Q E get s ↔ Q s s := Iff.rfl

@[simp] theorem modify_iff {Q : PUnit → σ → Prop} {f : σ → σ} : Post Q E (modify f) s ↔ Q ⟨⟩ (f s) := Iff.rfl

@[simp] theorem bind_iff :
    Post R E (x >>= f) s ↔ Post (fun a s' => Post R E (f a) s') E x s := by
  simp only [Post,bind,EStateM.bind]
  cases x s <;> rfl

theorem of_ok (h : Post Q E x s) (hx : x s = .ok a s') : Q a s' := by
  rw [Post,hx] at h
  exact h

theorem foldlM {f : α → ι → EStateM ε σ α} {I : α → σ → Prop} {l : List ι}
    (hs : ∀ a i s, i ∈ l → I a s → Post I E (f a i) s) (h : I a s) :
    Post I E (l.foldlM f a) s := by
  induction l generalizing a s with
  | nil => exact h
  | cons i l ih =>
    rw [List.foldlM_cons,bind_iff]
    exact (hs a i s (.head _) h).mono (fun a s' h => ih (fun a i s hi => hs a i s (.tail _ hi)) h) (fun _ _ h => h)

end Post

end Frontend.Library
