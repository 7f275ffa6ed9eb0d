import Mathlib.Order.Nat

namespace Frontend.Library

open Function

inductive Ancestor (parent : Nat → Nat) : Nat → Nat → Prop
  | refl (v : Nat) : Ancestor parent v v
  | up {u v : Nat} : 0 < v → Ancestor parent u (parent v) → Ancestor parent u v

def PreorderTree (parent : Nat → Nat) (m : Nat) : Prop := ∀ v, 0 < v → v < m → Ancestor parent (parent v) (v - 1)

variable {parent parent' : Nat → Nat} {m u v w : Nat}

namespace Ancestor

theorem trans (h : Ancestor parent u v) (h' : Ancestor parent v w) : Ancestor parent u w := by
  induction h' with
  | refl => exact h
  | up hp _ ih => exact .up hp ih

theorem of_parent (hp : 0 < v) : Ancestor parent (parent v) v := .up hp (.refl _)

theorem parent_of_ne (h : Ancestor parent u v) (hne : u ≠ v) : 0 < v ∧ Ancestor parent u (parent v) := by
  cases h with
  | refl => exact absurd rfl hne
  | up hp h => exact ⟨hp,h⟩

theorem le_of_lt (hlt : ∀ v, 0 < v → v < m → parent v < v) (h : Ancestor parent u v) (hv : v < m) : u ≤ v := by
  induction h with
  | refl => exact le_rfl
  | up hpo _ ih =>
    have hp := hlt _ hpo hv
    exact Nat.le_trans (ih (hp.trans hv)) hp.le

theorem congr (hlt : ∀ v, 0 < v → v < m → parent v < v) (heq : ∀ v, v < m → parent' v = parent v)
    (hv : v < m) (h : Ancestor parent u v) : Ancestor parent' u v := by
  induction h with
  | refl => exact .refl _
  | up hp _ ih =>
    refine .up hp ?_
    rw [heq _ hv]
    exact ih ((hlt _ hp hv).trans hv)

end Ancestor

namespace PreorderTree

section

variable (h : PreorderTree parent m)

include h

theorem parent_lt (hp : 0 < v) (hv : v < m) : parent v < v := by
  induction v using Nat.strongRecOn with
  | ind v ih =>
    have hlt w (hw : 0 < w) (hwv : w < v) : parent w < w := ih w hwv hw (hwv.trans hv)
    have hle := (h v hp hv).le_of_lt hlt (Nat.sub_lt hp Nat.one_pos)
    omega

theorem le (hv : v < m) (huv : Ancestor parent u v) : u ≤ v := huv.le_of_lt (fun _ => h.parent_lt) hv

theorem interval (hv : v < m) (huv : Ancestor parent u v) (huw : u ≤ w) (hwv : w ≤ v) : Ancestor parent u w := by
  induction v with
  | zero =>
    obtain rfl : w = 0 := Nat.le_zero.mp hwv
    exact huv
  | succ v ih =>
    rcases Nat.eq_or_lt_of_le hwv with rfl | hlt
    · exact huv
    · obtain ⟨hp,hup⟩ := huv.parent_of_ne (by omega)
      exact ih (by omega) (hup.trans (h (v + 1) hp hv)) (Nat.le_of_lt_succ hlt)

theorem of_both (hw : w < m) (huw : Ancestor parent u w) (hvw : Ancestor parent v w) (huv : u ≤ v) :
    Ancestor parent u v :=
  h.interval hw huw huv (h.le hw hvw)

theorem root (hv : v < m) : Ancestor parent 0 v := by
  induction v using Nat.strongRecOn with
  | ind v ih =>
    rcases Nat.eq_zero_or_pos v with rfl | hp
    · exact .refl 0
    · have hlt := h.parent_lt hp hv
      exact .up hp (ih _ hlt (hlt.trans hv))

theorem ancestor_update (hv : v < m) (i : Nat) : Ancestor (update parent m i) u v ↔ Ancestor parent u v := by
  have hs v (hv : v < m) : update parent m i v = parent v := update_of_ne hv.ne _ _
  constructor
  · exact Ancestor.congr (fun v hp hv => (hs v hv).symm ▸ h.parent_lt hp hv) (fun v hv => (hs v hv).symm) hv
  · exact Ancestor.congr (fun v => h.parent_lt) hs hv

theorem update_ancestor (hm : 0 < m) (hi : i < m) (hu : Ancestor parent u i) : Ancestor (update parent m i) u m := by
  refine .up hm ?_
  rw [update_self]
  exact (h.ancestor_update hi i).mpr hu

theorem extend (hm : 0 < m) (hi : Ancestor parent i (m - 1)) : PreorderTree (update parent m i) (m + 1) := by
  intro v hp hv
  rcases Nat.eq_or_lt_of_le (Nat.le_of_lt_succ hv) with rfl | hlt
  · rw [update_self]
    exact (h.ancestor_update (by omega) i).mpr hi
  · rw [update_of_ne hlt.ne]
    exact (h.ancestor_update (by omega) i).mpr (h v hp hlt)

end

end PreorderTree

end Frontend.Library
