import Mathlib.Logic.Relation

namespace Frontend.Library

variable {S : Type*} {init I : S → Prop} {step : S → S → Prop} {s t : S}

def Reachable (init : S → Prop) (step : S → S → Prop) (s : S) : Prop := ∃ s₀, init s₀ ∧ Relation.ReflTransGen step s₀ s

theorem Reachable.start (h : init s) : Reachable init step s := ⟨s,h,.refl⟩

theorem Reachable.tail (h : Reachable init step s) (hs : step s t) : Reachable init step t := by
  obtain ⟨s₀,h0,hr⟩ := h
  exact ⟨s₀,h0,hr.tail hs⟩

theorem Reachable.invariant (h : Reachable init step s) (h0 : ∀ s, init s → I s) (hs : ∀ s t, I s → step s t → I t) :
    I s := by
  obtain ⟨s₀,hi,hr⟩ := h
  induction hr with
  | refl => exact h0 s₀ hi
  | tail _ hst ih => exact hs _ _ ih hst

theorem leads_to_of_rank {goal : S → Prop} (I : S → Prop) (rank : S → Nat)
    (h : ∀ s, I s → goal s ∨ ∃ t, step s t ∧ I t ∧ rank t < rank s) (hs : I s) :
    ∃ t, Relation.ReflTransGen step s t ∧ goal t := by
  obtain ⟨n,hn⟩ : ∃ n, rank s = n := ⟨_,rfl⟩
  induction n using Nat.strongRecOn generalizing s with
  | _ n ih =>
    rcases h s hs with hg | ⟨t,hst,ht,hlt⟩
    · exact ⟨s,.refl,hg⟩
    · obtain ⟨u,hr,hg⟩ := ih (rank t) (hn ▸ hlt) ht rfl
      exact ⟨u,.head hst hr,hg⟩

end Frontend.Library
