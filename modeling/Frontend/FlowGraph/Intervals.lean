import Frontend.FlowGraph.AccessTime

namespace Frontend.FlowGraph

open Frontend.Library

variable {n : Nat} {imm : Fin n → Option (Fin n)} {start : Fin n} {time : Fin n → Time} {D : Nat}
  {parent : Nat → Nat} {a b c d p x y : Fin n}

namespace Timed

section

variable (h : Timed imm start time D parent)

include h

theorem seen_of_child (hx : imm x = some p) : (time x).start ≠ 0 := (h.seen x).mpr (.inr (by simp [hx]))

section

variable (hr : imm start = none)

include hr

theorem edge (hx : imm x = some p) :
    (time p).start ≠ 0 ∧ 0 < (time x).start - 1 ∧ parent ((time x).start - 1) = (time p).start - 1 := by
  have hxs := h.seen_of_child hx
  have hne : x ≠ start := by
    rintro rfl
    cases hr.symm.trans hx
  obtain ⟨d,hd,hds,hp⟩ := h.numbered.edge x hxs hne
  obtain rfl := Option.mem_unique hx hd
  refine ⟨hds,?_,hp⟩
  by_contra hz
  have ho := h.numbered.root
  exact hne (h.numbered.inj x start (by omega) hxs)

theorem above_iff_ancestor (ha : (time a).start ≠ 0) (hb : (time b).start ≠ 0) :
    Above imm a b ↔ Ancestor parent ((time a).start - 1) ((time b).start - 1) := by
  constructor
  · intro hab
    clear hb
    induction hab with
    | refl => exact .refl _
    | @up b d hd _ ih =>
      obtain ⟨-,hpo,hp⟩ := h.edge hr hd
      exact .up hpo (hp ▸ ih)
  · intro hab
    obtain ⟨k,hk⟩ : ∃ k, (time b).start - 1 = k := ⟨_,rfl⟩
    rw [hk] at hab
    induction hab generalizing b with
    | refl =>
      obtain rfl := h.numbered.inj a b (by omega) ha
      exact .refl a
    | @up k hpo _ ih =>
      have hne : b ≠ start := by
        rintro rfl
        have ho := h.numbered.root
        omega
      obtain ⟨d,hd,hds,hp⟩ := h.numbered.edge b hb hne
      exact .up hd (ih hds (by rw [← hp,hk]))

theorem above_seen (hab : Above imm a b) (hb : (time b).start ≠ 0) : (time a).start ≠ 0 := by
  induction hab with
  | refl => exact hb
  | @up b d hd _ ih => exact ih (h.edge hr hd).1

theorem above_iff_inside (ha : (time a).start ≠ 0) (hb : (time b).start ≠ 0) :
    Above imm a b ↔ (time a).start ≤ (time b).start ∧ (time b).start ≤ (time a).finish := by
  have hbo := h.numbered.bound b
  rw [h.above_iff_ancestor hr ha hb,(h.done a ha).2.2 _ (by omega)]
  omega

theorem finish_le (hb : (time b).start ≠ 0) (hab : Above imm a b) : (time b).finish ≤ (time a).finish := by
  have ha := h.above_seen hr hab hb
  obtain ⟨hle,hD,hbe⟩ := h.done b hb
  by_contra hlt
  have hk : (time b).finish - 1 < D := by omega
  have hup := (hbe _ hk).mpr ⟨by omega,by omega⟩
  have hup' := ((h.above_iff_ancestor hr ha hb).mp hab).trans hup
  have hin := ((h.done a ha).2.2 _ hk).mp hup'
  omega

theorem above_iff (hb : (time b).start ≠ 0) :
    Above imm a b ↔ (time a).start ≤ (time b).start ∧ (time b).finish ≤ (time a).finish := by
  have hd := h.done b hb
  constructor
  · intro hab
    have ha := h.above_seen hr hab hb
    exact ⟨((h.above_iff_inside hr ha hb).mp hab).1,h.finish_le hr hb hab⟩
  · rintro ⟨hs,hf⟩
    have ha : (time a).start ≠ 0 := by
      intro hz
      have hu := h.unseen a hz
      omega
    exact (h.above_iff_inside hr ha hb).mpr ⟨hs,by omega⟩

theorem start_lt (hb : (time b).start ≠ 0) (hab : Above imm a b)
    (hne : a ≠ b) : (time a).start < (time b).start := by
  have hle := ((h.above_iff hr hb).mp hab).1
  refine Nat.lt_of_le_of_ne hle fun heq => hne ?_
  exact h.numbered.inj a b heq (by omega)

theorem not_above_sibling (hx : imm x = some p) (hy : imm y = some p) (hne : x ≠ y) : ¬ Above imm x y := by
  intro hxy
  obtain ⟨d,hd,hxd⟩ := hxy.of_ne hne
  obtain rfl := Option.mem_unique hy hd
  have hxs := h.seen_of_child hx
  have hpx : p ≠ x := by
    rintro rfl
    obtain ⟨-,hp,hpa⟩ := h.edge hr hx
    have hlt := h.numbered.tree.parent_lt hp (by have := h.numbered.bound p; omega)
    omega
  have hlt := h.start_lt hr hxs (.up hx (.refl p)) hpx
  have hle := ((h.above_iff hr (h.edge hr hx).1).mp hxd).1
  omega

theorem finish_eq_of_least (hx : imm x = some p)
    (hl : ∀ y, imm y = some p → x ≤ y) : (time x).finish = (time p).finish := by
  have hxs := h.seen_of_child hx
  obtain ⟨hp,hpo,hpa⟩ := h.edge hr hx
  have hpx : Above imm p x := .up hx (.refl p)
  refine Nat.le_antisymm (h.finish_le hr hxs hpx) ?_
  by_contra hlt
  obtain ⟨hle,hD,hb⟩ := h.done p hp
  obtain ⟨hle',-,hb'⟩ := h.done x hxs
  obtain ⟨z,hz⟩ := h.numbered.onto ((time p).finish - 1) (by omega)
  have hzs : (time z).start ≠ 0 := by omega
  have hpz := (h.above_iff_inside hr hp hzs).mpr (by omega)
  have hlt' := h.numbered.tree.parent_lt hpo (by have := h.numbered.bound x; omega)
  have hne : p ≠ z := by
    rintro rfl
    omega
  obtain ⟨y,hy,hyz⟩ := hpz.child hne
  have hys := h.seen_of_child hy
  by_cases hxy : x = y
  · subst hxy
    have hin := (h.above_iff_inside hr hxs hzs).mp hyz
    omega
  · have hly := h.order p x y hx hy (lt_of_le_of_ne (hl y hy) hxy)
    refine h.not_above_sibling hr hy hx (Ne.symm hxy) ?_
    have hin := (h.above_iff_inside hr hys hzs).mp hyz
    exact (h.above_iff_inside hr hys hxs).mpr (by omega)

theorem least_of_finish_eq (hb : (time b).start ≠ 0)
    (hf : (time b).finish = (time a).finish) (hac : Above imm a c) (hne : c ≠ a)
    (hcb : Above imm c b) (hx : imm x = imm c) : c ≤ x := by
  obtain ⟨p,hp,hap⟩ := hac.of_ne hne.symm
  by_contra hlt
  have hxp := hx.trans hp
  have hc := h.seen_of_child hp
  have hxs := h.seen_of_child hxp
  have hxc : x ≠ c := by
    rintro rfl
    exact hlt le_rfl
  have ho := h.order p x c hxp hp (not_le.mp hlt)
  have hou := mt (h.above_iff_inside hr hc hxs).mpr (h.not_above_sibling hr hp hxp hxc.symm)
  have hax := ((h.above_iff_inside hr (h.above_seen hr hac hc) hxs).mp (.up hxp hap)).2
  have hle := h.finish_le hr hb hcb
  omega

theorem finish_eq_iff (hb : (time b).start ≠ 0) (hab : Above imm a b) :
    (time b).finish = (time a).finish ↔ ∀ c, Above imm a c → c ≠ a → Above imm c b → ∀ x, imm x = imm c → c ≤ x := by
  constructor
  · intro hf c hac hne hcb x hx
    exact h.least_of_finish_eq hr hb hf hac hne hcb hx
  · intro hl
    induction hab with
    | refl => rfl
    | @up b p hp hap ih =>
      have hpb : Above imm p b := .up hp (.refl p)
      have hba : b ≠ a := by
        rintro rfl
        have hlt := h.numbered.tree.parent_lt (h.edge hr hp).2.1 (by have := h.numbered.bound b; omega)
        have hle := ((h.above_iff hr (h.edge hr hp).1).mp hap).1
        have hpa := (h.edge hr hp).2.2
        omega
      have ho := h.finish_eq_of_least hr hp fun y hy => hl b (.up hp hap) hba (.refl b) y (hy.trans hp.symm)
      rw [ho]
      exact ih (h.edge hr hp).1 fun c hac hne hcp => hl c hac hne (hcp.trans hpb)

end

end

end Timed

end Frontend.FlowGraph
