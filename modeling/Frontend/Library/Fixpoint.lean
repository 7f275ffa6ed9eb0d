import Mathlib

namespace Frontend.Library

variable {K D : Type*} [SemilatticeSup D]

abbrev Sends (K D : Type*) := K → D → Set (K × D)

def Sends.Monotone (out : Sends K D) : Prop := ∀ k d d', d ≤ d' → ∀ t e, (t,e) ∈ out k d → ∃ e', e ≤ e' ∧
    (t,e') ∈ out k d'

structure Solution (out : Sends K D) (seed value : K → D) : Prop where
  seed : seed ≤ value
  sent : ∀ k t e, (t,e) ∈ out k (value k) → e ≤ value t

def Settled (out : Sends K D) (dirty : Set K) (value : K → D) : Prop := ∀ k, k ∉ dirty →
    ∀ t e, (t,e) ∈ out k (value k) → e ≤ value t

section

variable {value value' : K → D} {dirty dirty' : Set K} {t : K} {e : D}

structure Delivered (sent : Set (K × D)) (value : K → D) (dirty : Set K) (value' : K → D) (dirty' : Set K) : Prop where
  le : value ≤ value'
  arrived : ∀ t e, (t,e) ∈ sent → e ≤ value' t
  least : ∀ bound, value ≤ bound → (∀ t e, (t,e) ∈ sent → e ≤ bound t) → value' ≤ bound
  dirty : ∀ k, k ∈ dirty' ↔ k ∈ dirty ∨ value k ≠ value' k

theorem Delivered.nil : Delivered ∅ value dirty value dirty :=
  ⟨le_rfl,fun _ _ h => absurd h (Set.notMem_empty _),fun _ h _ => h,fun k => by simp⟩

theorem Delivered.cons [DecidableEq K] (hn : next = Function.update value t (value t ⊔ e))
    (hd : ∀ k, k ∈ dirtyNext ↔ k ∈ dirty ∨ value k ≠ next k)
    (h : Delivered sent next dirtyNext value' dirty') :
    Delivered (insert (t,e) sent) value dirty value' dirty' := by
  have hle : value ≤ next := by
    subst hn
    exact le_update_iff.mpr ⟨le_sup_left,fun _ _ => le_rfl⟩
  refine ⟨hle.trans h.le,fun t' e' hm => ?_,fun bound hbo hs => ?_,fun k => ?_⟩
  · rcases hm with heq | hm
    · obtain ⟨rfl,rfl⟩ := Prod.mk.inj heq
      refine le_trans ?_ (h.le t')
      rw [hn,Function.update_self]
      exact le_sup_right
    · exact h.arrived t' e' hm
  · refine h.least bound ?_ fun t' e' hm => hs t' e' (.inr hm)
    rw [hn]
    exact update_le_iff.mpr ⟨sup_le (hbo t) (hs t e (.inl rfl)),fun k _ => hbo k⟩
  · rw [h.dirty,hd,or_assoc]
    refine or_congr_right ⟨?_,fun hne => ?_⟩
    · rintro (hne | hne) heq
      · exact hne (le_antisymm (hle k) (heq ▸ h.le k))
      · exact hne (le_antisymm (h.le k) (heq ▸ hle k))
    · by_contra hb
      push Not at hb
      exact hne (hb.1.trans hb.2)

end

section

variable {out : Sends K D} {seed value value' bound : K → D} {dirty dirty' : Set K} {k : K}

theorem Delivered.settled (h : Delivered (out k (value k)) value (dirty \ {k}) value' dirty')
    (hst : Settled out dirty value) : Settled out dirty' value' := by
  intro j hj t e hs
  rw [h.dirty,not_or,not_not] at hj
  rw [← hj.2] at hs
  by_cases hk : j = k
  · subst hk
    exact h.arrived t e hs
  · refine (hst j (fun hm => hj.1 ⟨hm,hk⟩) t e hs).trans (h.le t)

theorem Delivered.below (h : Delivered (out k (value k)) value (dirty \ {k}) value' dirty')
    (ho : out.Monotone) (hb : Solution out seed bound) (hle : value ≤ bound) : value' ≤ bound := by
  refine h.least bound hle fun t e hs => ?_
  obtain ⟨e',hee',hs'⟩ := ho k _ _ (hle k) t e hs
  exact hee'.trans (hb.sent k t e' hs')

end

def Progress (s' s : (K → D) × Set K) : Prop := s.1 < s'.1 ∨ s'.1 = s.1 ∧ s'.2 ⊂ s.2

theorem Delivered.progress {value value' : K → D} {dirty dirty' : Set K}
    (h : Delivered sent value (dirty \ {k}) value' dirty') (hk : k ∈ dirty) :
    Progress (value',dirty') (value,dirty) := by
  rcases h.le.lt_or_eq with hlt | rfl
  · exact .inl hlt
  · refine .inr ⟨rfl,?_⟩
    have hd : dirty' = dirty \ {k} := Set.ext fun j => (h.dirty j).trans (by simp)
    exact hd ▸ Set.sdiff_singleton_ssubset.mpr hk

theorem progress_wf [Finite K] [WellFoundedGT D] : WellFounded (Progress : (K → D) × Set K → _ → Prop) := by
  have hv : WellFounded (fun a b : K → D => b < a) := (Pi.wellFoundedLT (α := fun _ : K => Dᵒᵈ)).wf
  have hs : WellFounded (fun a b : Set K => a ⊂ b) := wellFounded_lt
  refine Subrelation.wf (fun {a b} h => ?_) (WellFounded.prod_lex hv hs)
  rcases h with hlt | ⟨heq,hlt⟩
  · exact Prod.lex_def.mpr (.inl hlt)
  · exact Prod.lex_def.mpr (.inr ⟨heq,hlt⟩)

end Frontend.Library
