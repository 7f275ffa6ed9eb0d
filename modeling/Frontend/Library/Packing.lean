import Mathlib.Data.List.Pairwise
import Mathlib.Algebra.Order.Group.Nat

namespace Frontend.Library

variable {I : Type*} {size align pos : I → Nat} {lo lo' mid hi hi' : Nat} {i j : I} {items : List I}

structure Packed (size align pos : I → Nat) (lo hi : Nat) (items : List I) : Prop where
  aligned : ∀ i ∈ items, align i ∣ pos i
  lower : ∀ i ∈ items, lo ≤ pos i
  upper : ∀ i ∈ items, pos i + size i ≤ hi
  ordered : items.Pairwise fun i j => pos i + size i ≤ pos j
  range : lo ≤ hi

namespace Packed

theorem nil (h : lo ≤ hi) : Packed size align pos lo hi [] := ⟨nofun,nofun,nofun,.nil,h⟩

theorem cons (ha : align i ∣ pos i) (hlo : lo ≤ pos i) (h : Packed size align pos (pos i + size i) hi items) :
    Packed size align pos lo hi (i :: items) := by
  have hr := h.range
  refine ⟨fun j hj => ?_,fun j hj => ?_,fun j hj => ?_,.cons h.lower h.ordered,by omega⟩
  · rcases List.mem_cons.mp hj with rfl | hj
    · exact ha
    · exact h.aligned j hj
  · rcases List.mem_cons.mp hj with rfl | hj
    · exact hlo
    · have := h.lower j hj
      omega
  · rcases List.mem_cons.mp hj with rfl | hj
    · exact hr
    · exact h.upper j hj

theorem apart (h : Packed size align pos lo hi items) (hi : i ∈ items) (hj : j ∈ items) (hne : i ≠ j) :
    pos i + size i ≤ pos j ∨ pos j + size j ≤ pos i := by
  let R (i j : I) : Prop := pos i + size i ≤ pos j ∨ pos j + size j ≤ pos i
  have hs : Std.Symm R := ⟨fun _ _ h => h.symm⟩
  have hp : items.Pairwise R := h.ordered.imp .inl
  exact hp.forall hi hj hne

end Packed

end Frontend.Library
