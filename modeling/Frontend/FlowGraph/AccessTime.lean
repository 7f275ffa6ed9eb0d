import Frontend.Library.PreorderTree
import Frontend.FlowGraph.Transpose

namespace Frontend.FlowGraph

open Frontend.Library List Function Option Clock

variable {n : Nat} {imm : Fin n → Option (Fin n)} {start : Fin n} {at' : Fin n → Nat} {D : Nat}
  {parent : Nat → Nat} {pending : Fin n → List (Fin n)} {stack : List (Fin n)} {i j v : Fin n}
  {finish : Fin n → Nat}

section

variable (imm : Fin n → Option (Fin n)) (start : Fin n) (at' finish : Fin n → Nat) (D : Nat) (parent : Nat → Nat)
  (pending : Fin n → List (Fin n))

structure Numbered : Prop where
  tree : PreorderTree parent D
  root : at' start = 1
  bound : ∀ v, at' v ≤ D
  inj : ∀ u v, at' u = at' v → at' u ≠ 0 → u = v
  onto : ∀ k, k < D → ∃ v, at' v = k + 1
  edge : ∀ v, at' v ≠ 0 → v ≠ start → ∃ d, imm v = some d ∧ at' d ≠ 0 ∧ parent (at' v - 1) = at' d - 1

structure Awaiting : Prop where
  child : ∀ v, ∀ x ∈ pending v, imm x = some v ∧ at' x = 0
  all : ∀ v x, imm x = some v → at' x = 0 → x ∈ pending v
  sorted : ∀ v, (pending v).Pairwise fun x y => y < x
  later : ∀ v x, imm x = some v → at' x ≠ 0 → ∀ y ∈ pending v, y < x
  order : ∀ v x y, imm x = some v → imm y = some v → at' x ≠ 0 → at' y ≠ 0 → x < y → at' y < at' x

structure Stacked (stack : List (Fin n)) : Prop where
  seen : ∀ v ∈ stack, at' v ≠ 0
  last : ∀ v ∈ stack, Ancestor parent (at' v - 1) (D - 1)
  chain : stack.Pairwise fun v below => Ancestor parent (at' below - 1) (at' v - 1) ∧ at' below < at' v
  closed : ∀ v ∈ stack, ∀ u, Ancestor parent u (at' v - 1) → ∃ x ∈ stack, at' x - 1 = u
  done : ∀ v, at' v ≠ 0 → v ∉ stack → pending v = [] ∧ at' v ≤ finish v ∧ finish v ≤ D ∧
    ∀ k, k < D → (Ancestor parent (at' v - 1) k ↔ at' v - 1 ≤ k ∧ k < finish v)
  unseen : ∀ v, at' v = 0 → finish v = 0

end

theorem Stacked.pop (hn : Numbered imm start at' D parent) (h : Stacked at' finish D parent pending (i :: stack))
    (hi : pending i = []) :
    Stacked at' (update finish i D) D parent pending stack := by
  have hs := h.seen i (.head _)
  have hb := hn.bound i
  obtain ⟨hh,ht⟩ := pairwise_cons.mp h.chain
  refine ⟨fun v hv => h.seen v (.tail _ hv),fun v hv => h.last v (.tail _ hv),ht,fun v hv u hu => ?_,
    fun v hv hno => ?_,fun v hv => ?_⟩
  · obtain ⟨x,hx,rfl⟩ := h.closed v (.tail _ hv) u hu
    rcases mem_cons.mp hx with rfl | hx
    · have hlt := (hh v hv).2
      have hvs := h.seen v (.tail _ hv)
      have hle := hn.tree.le (by omega) hu
      omega
    · exact ⟨x,hx,rfl⟩
  · by_cases hvi : v = i
    · subst hvi
      rw [update_self]
      refine ⟨hi,hb,le_refl _,fun k hk => ⟨fun hup => ⟨hn.tree.le hk hup,hk⟩,fun hk => ?_⟩⟩
      exact hn.tree.interval (by omega) (h.last v (.head _)) hk.1 (by omega)
    · rw [update_of_ne hvi]
      exact h.done v hv (by simp [hvi,hno])
  · rw [update_of_ne]
    · exact h.unseen v hv
    · rintro rfl
      exact hs hv

section

variable {rest : List (Fin n)}

theorem Numbered.discover (hn : Numbered imm start at' D parent) (hD : 0 < D) (hi : at' i ≠ 0)
    (hl : Ancestor parent (at' i - 1) (D - 1)) (hj : imm j = some i) (hnw : at' j = 0) :
    Numbered imm start (update at' j (D + 1)) (D + 1) (update parent D (at' i - 1)) := by
  have hb := hn.bound i
  refine ⟨hn.tree.extend hD hl,?_,fun v => ?_,fun u v heq hne => ?_,fun k hk => ?_,fun v hv hs => ?_⟩
  · rw [update_of_ne]
    · exact hn.root
    · rintro rfl
      have hr := hn.root
      omega
  · by_cases hv : v = j
    · simp [hv]
    · rw [update_of_ne hv]
      exact (hn.bound v).trans (Nat.le_succ D)
  · have hu := hn.bound u
    have hv := hn.bound v
    simp only [update_apply] at heq hne
    split at heq <;> split at heq
    case isTrue.isTrue huj hvj => rw [huj,hvj]
    case isTrue.isFalse => omega
    case isFalse.isTrue => omega
    case isFalse.isFalse huj hvj =>
      rw [if_neg huj] at hne
      exact hn.inj u v heq hne
  · rcases Nat.eq_or_lt_of_le (Nat.le_of_lt_succ hk) with rfl | hlt
    · exact ⟨j,by simp⟩
    · obtain ⟨v,hv⟩ := hn.onto k hlt
      refine ⟨v,?_⟩
      rw [update_of_ne]
      · exact hv
      · rintro rfl
        omega
  · by_cases hvj : v = j
    · subst hvj
      refine ⟨i,hj,?_,?_⟩
      · rw [update_of_ne]
        · exact hi
        · rintro rfl
          exact hi hnw
      · simp only [update_self,Nat.add_sub_cancel]
        rw [update_of_ne]
        rintro rfl
        exact hi hnw
    · rw [update_of_ne hvj] at hv ⊢
      obtain ⟨d,hd,hds,hp⟩ := hn.edge v hv hs
      have hdj : d ≠ j := by
        rintro rfl
        exact hds hnw
      have hv' := hn.bound v
      refine ⟨d,hd,by rwa [update_of_ne hdj],?_⟩
      rw [update_of_ne hdj,update_of_ne (by omega)]
      exact hp

theorem Awaiting.discover (h : Awaiting imm at' pending) (hb : ∀ v, at' v ≤ D) (hi : pending i = j :: rest) :
    Awaiting imm (update at' j (D + 1)) (update pending i rest) := by
  obtain ⟨hj,hn⟩ := h.child i j (hi ▸ (.head _))
  obtain ⟨hh,ht⟩ := pairwise_cons.mp (hi ▸ h.sorted i)
  have hsu : ∀ v, update pending i rest v ⊆ pending v := by
    intro v x hx
    by_cases hv : v = i
    · subst hv
      rw [update_self] at hx
      exact hi ▸ .tail _ hx
    · rwa [update_of_ne hv] at hx
  have ho : ∀ v, ∀ x ∈ update pending i rest v, x ≠ j := by
    rintro v x hx rfl
    obtain rfl : v = i := some.inj ((h.child v x (hsu v hx)).1.symm.trans hj)
    rw [update_self] at hx
    exact absurd (hh x hx) (lt_irrefl x)
  refine ⟨fun v x hx => ?_,fun v x hx hz => ?_,fun v => ?_,fun v x hx hs y hy => ?_,fun v x y hx hy hsx hsy hlt => ?_⟩
  · rw [update_of_ne (ho v x hx)]
    exact h.child v x (hsu v hx)
  · have hxj : x ≠ j := by
      rintro rfl
      simp at hz
    rw [update_of_ne hxj] at hz
    have hm := h.all v x hx hz
    by_cases hv : v = i
    · subst hv
      rw [update_self]
      exact (mem_cons.mp (hi ▸ hm)).resolve_left hxj
    · rwa [update_of_ne hv]
  · by_cases hv : v = i
    · subst hv
      rwa [update_self]
    · rw [update_of_ne hv]
      exact h.sorted v
  · by_cases hxj : x = j
    · subst hxj
      obtain rfl : v = i := mem_unique hx hj
      rw [update_self] at hy
      exact hh y hy
    · rw [update_of_ne hxj] at hs
      exact h.later v x hx hs y (hsu v hy)
  · by_cases hxj : x = j
    · subst hxj
      rw [update_of_ne hlt.ne',update_self]
      exact Nat.lt_succ_of_le (hb y)
    · rw [update_of_ne hxj] at hsx ⊢
      by_cases hyj : y = j
      · subst hyj
        obtain rfl : v = i := mem_unique hy hj
        exact absurd (h.later v x hx hsx y (hi ▸ (.head _))) hlt.not_gt
      · rw [update_of_ne hyj] at hsy ⊢
        exact h.order v x y hx hy hsx hsy hlt

theorem Stacked.discover (hn : Numbered imm start at' D parent) (hD : 0 < D)
    (ha : Awaiting imm at' pending) (h : Stacked at' finish D parent pending (i :: stack))
    (hi : pending i = j :: rest) :
    Stacked (update at' j (D + 1)) finish (D + 1) (update parent D (at' i - 1)) (update pending i rest)
    (j :: i :: stack) := by
  obtain ⟨hj,hne⟩ := ha.child i j (hi ▸ (.head _))
  have his := h.seen i (.head _)
  have hbo := hn.bound i
  have hs v (hv : v ∈ i :: stack) : update at' j (D + 1) v = at' v := by
    refine update_of_ne ?_ _ _
    rintro rfl
    exact h.seen v hv hne
  have hup : ∀ u v, v < D → (Ancestor (update parent D (at' i - 1)) u v ↔
      Ancestor parent u v) := fun u v hv => hn.tree.ancestor_update hv _
  have hd u (hu : Ancestor parent u (at' i - 1)) : Ancestor (update parent D (at' i - 1)) u D :=
    hn.tree.update_ancestor hD (by omega) hu
  obtain ⟨hh,-⟩ := pairwise_cons.mp h.chain
  have hab : ∀ v ∈ i :: stack, Ancestor parent (at' v - 1) (at' i - 1) :=
    forall_mem_cons.mpr ⟨.refl _,fun v hv => (hh v hv).1⟩
  have hlt v (hv : v ∈ i :: stack) : at' v - 1 < D := by
    have := hn.bound v
    have := h.seen v hv
    omega
  refine ⟨fun v hv => ?_,fun v hv => ?_,?_,fun v hv u hu => ?_,fun v hv hno => ?_,fun v hv => ?_⟩
  · rcases mem_cons.mp hv with rfl | hv
    · simp
    · rw [hs v hv]
      exact h.seen v hv
  · rw [Nat.add_sub_cancel]
    rcases mem_cons.mp hv with rfl | hv
    · rw [update_self,Nat.add_sub_cancel]
      exact .refl D
    · rw [hs v hv]
      exact hd _ (hab v hv)
  · refine .cons (fun v hv => ?_) (h.chain.imp_of_mem fun hv hb hp => ?_)
    · rw [hs v hv,update_self,Nat.add_sub_cancel]
      exact ⟨hd _ (hab v hv),Nat.lt_succ_of_le (hn.bound v)⟩
    · rw [hs _ hv,hs _ hb]
      exact ⟨(hup _ _ (hlt _ hv)).mpr hp.1,hp.2⟩
  · rcases mem_cons.mp hv with rfl | hv
    · rw [update_self,Nat.add_sub_cancel] at hu
      by_cases huD : u = D
      · exact ⟨v,.head _,by simp [huD]⟩
      obtain ⟨-,hu⟩ := hu.parent_of_ne huD
      rw [update_self,hup _ _ (by omega)] at hu
      obtain ⟨x,hx,rfl⟩ := h.closed i (.head _) u hu
      exact ⟨x,.tail _ hx,by rw [hs x hx]⟩
    · rw [hs v hv,hup _ _ (hlt v hv)] at hu
      obtain ⟨x,hx,rfl⟩ := h.closed v hv u hu
      exact ⟨x,.tail _ hx,by rw [hs x hx]⟩
  · rw [mem_cons,not_or] at hno
    rw [update_of_ne hno.1] at hv ⊢
    obtain ⟨he,hle,hf,hbe⟩ := h.done v hv hno.2
    have hvb := hn.bound v
    refine ⟨?_,hle,hf.trans (Nat.le_succ D),fun k hk => ?_⟩
    · rw [update_of_ne]
      · exact he
      · rintro rfl
        exact hno.2 (.head _)
    · rcases Nat.eq_or_lt_of_le (Nat.le_of_lt_succ hk) with rfl | hkD
      · refine iff_of_false (fun hk => hno.2 ?_) (by omega)
        obtain ⟨-,hup'⟩ := hk.parent_of_ne (by omega)
        rw [update_self,hup _ _ (by omega)] at hup'
        obtain ⟨x,hx,heq⟩ := h.closed i (.head _) _ hup'
        have hxs := h.seen x hx
        obtain rfl : x = v := hn.inj x v (by omega) hxs
        exact hx
      · rw [hup _ _ hkD]
        exact hbe k hkD
  · have hvj : v ≠ j := by
      rintro rfl
      simp at hv
    rw [update_of_ne hvj] at hv
    exact h.unseen v hv

end

section

variable {node : Nat → Fin n} {c c' : Clock n} {edges : Edges n}

structure Clocked (imm : Fin n → Option (Fin n)) (start : Fin n) (node : Nat → Fin n) (parent : Nat → Nat)
    (c : Clock n) : Prop where
  pos : 0 < c.discovered
  ranges : ∀ v, (c.edges v).1 ≤ (c.edges v).2
  numbered : Numbered imm start (fun v => (c.time v).start) c.discovered parent
  awaiting : Awaiting imm (fun v => (c.time v).start) (slice c.edges node)
  stacked : Stacked (fun v => (c.time v).start) (fun v => (c.time v).finish) c.discovered parent
    (slice c.edges node) c.stack

theorem slice_cons (node : Nat → Fin n) (hle : (edges v).1 ≤ (edges v).2) (hne : (edges v).1 ≠ (edges v).2) :
    slice edges node v = node (edges v).1 :: slice (update edges v ((edges v).1 + 1,(edges v).2)) node v := by
  have hl : (edges v).2 - (edges v).1 = (edges v).2 - ((edges v).1 + 1) + 1 := by omega
  simp [slice,hl,range'_succ]

theorem slice_update_other (e : Nat × Nat) : slice (update edges i e) node =
    update (slice edges node) i (slice (update edges i e) node i) := by
  funext v
  by_cases hv : v = i
  · simp [hv]
  · simp [slice,hv]

def Clock.work (c : Clock n) : Nat := 2 * (Finset.univ.filter fun v => (c.time v).start = 0).card + c.stack.length

theorem Clocked.step (h : Clocked imm start node parent c) (hs : c.step node = some c') :
    (∃ parent', Clocked imm start node parent' c') ∧ c'.work < c.work := by
  unfold Clock.step at hs
  split at hs
  · cases hs
  rename_i i stack hsk
  have hst := hsk ▸ h.stacked
  simp only at hs
  split at hs
  case isTrue he =>
    cases hs
    have hsa : (fun v => (update c.time i ⟨(c.time i).start,c.discovered⟩ v).start) = fun v => (c.time v).start :=
      (comp_update Time.start ..).trans (update_eq_self ..)
    have hf : (fun v => (update c.time i ⟨(c.time i).start,c.discovered⟩ v).finish) =
        update (fun v => (c.time v).finish) i c.discovered := comp_update Time.finish ..
    refine ⟨⟨parent,h.pos,h.ranges,?_,?_,?_⟩,by simp [work,congrFun hsa,hsk]⟩ <;> simp only [hsa,hf]
    · exact h.numbered
    · exact h.awaiting
    · exact hst.pop h.numbered (by simp [slice,he])
  case isFalse hne =>
    cases hs
    have hsl := slice_cons node (h.ranges i) hne
    have hc := h.awaiting.child i (node (c.edges i).1) (hsl ▸ (.head _))
    generalize node (c.edges i).1 = j at *
    have hsr : (fun v => (update c.time j ⟨c.discovered + 1,(c.time j).finish⟩ v).start) =
        update (fun v => (c.time v).start) j (c.discovered + 1) := comp_update Time.start ..
    have hf : (fun v => (update c.time j ⟨c.discovered + 1,(c.time j).finish⟩ v).finish) = fun v => (c.time v).finish :=
      (comp_update Time.finish ..).trans (update_eq_self ..)
    have he : (Finset.univ.filter fun v => update (fun v => (c.time v).start) j (c.discovered + 1) v = 0) =
        (Finset.univ.filter fun v => (c.time v).start = 0).erase j := by
      ext v
      rw [Finset.mem_erase,Finset.mem_filter,Finset.mem_filter]
      by_cases hv : v = j <;> simp [hv]
    have hm : j ∈ Finset.univ.filter fun v => (c.time v).start = 0 := Finset.mem_filter.mpr ⟨Finset.mem_univ j,hc.2⟩
    have hca := Finset.card_erase_add_one hm
    refine ⟨⟨update parent c.discovered ((c.time i).start - 1),Nat.succ_pos _,fun v => ?_,?_,?_,?_⟩,?_⟩
    · simp only [update_apply]
      have hle := h.ranges i
      split
      · simp only
        omega
      · exact h.ranges v
    on_goal 4 =>
      simp only [work,congrFun hsr,he,hsk,length_cons]
      omega
    all_goals simp only [hsr,hf]
    · exact h.numbered.discover h.pos (hst.seen i (.head _)) (hst.last i (.head _)) hc.1 hc.2
    · rw [slice_update_other]
      exact h.awaiting.discover h.numbered.bound hsl
    · rw [slice_update_other]
      exact hst.discover h.numbered h.pos h.awaiting hsl

theorem clocked_init (hr : imm start = none) (he : ∀ v, slice edges node v =
    (childrenIn imm (List.finRange n) v).reverse ∧
      (edges v).1 ≤ (edges v).2) : Clocked imm start node (fun _ => 0) (.init start edges) := by
  have ht v : ((init start edges).time v).start = if v = start then 1 else 0 := by
    by_cases hv : v = start <;> simp [init,hv,Time.default]
  have hf v : ((init start edges).time v).finish = 0 := by
    by_cases hv : v = start <;> simp [init,hv,Time.default]
  have hm v x : x ∈ slice edges node v ↔ imm x = some v := by
    simp [(he v).1,childrenIn]
  have hne : ∀ v x, imm x = some v → x ≠ start := by
    rintro v x hx rfl
    cases hr.symm.trans hx
  refine ⟨Nat.one_pos,fun v => (he v).2,?_,?_,?_⟩ <;> simp only [ht,hf]
  · refine ⟨fun v hp hv => ?_,by simp,fun v => ?_,fun u v heq hu => ?_,fun k hk => ⟨start,?_⟩,
      fun v hv hst => absurd hv (by simp [hst])⟩
    · change v < 1 at hv
      omega
    · change _ ≤ 1
      split <;> simp
    · by_cases hus : u = start <;> by_cases hvs : v = start <;> simp_all
    · obtain rfl : k = 0 := by
        change k < 1 at hk
        omega
      simp
  · refine ⟨fun v x hx => ?_,fun v x hx _ => (hm v x).mpr hx,fun v => ?_,fun v x hx hs => ?_,fun v x y hx _ hs => ?_⟩
    · have hx := (hm v x).mp hx
      exact ⟨hx,by simp [hne v x hx]⟩
    · change (slice edges node v).Pairwise _
      rw [(he v).1,pairwise_reverse]
      exact (pairwise_lt_finRange n).filter _
    · exact absurd hs (by simp [hne v x hx])
    · exact absurd hs (by simp [hne v x hx])
  · have hsa : (init start edges).stack = [start] := rfl
    rw [hsa]
    refine ⟨by simp,fun v hv => ?_,by simp,fun v hv u hu => ?_,fun v hv hn => ?_,fun _ _ => rfl⟩
    · rw [mem_singleton.mp hv]
      simp only [if_true]
      exact .refl 0
    · rw [mem_singleton.mp hv] at hu
      simp only [if_true] at hu
      refine ⟨start,by simp,?_⟩
      by_contra hne'
      exact absurd (hu.parent_of_ne (by simpa [eq_comm] using hne')).1 (by simp)
    · by_cases hvs : v = start
      · exact absurd (by simp [hvs]) hn
      · simp [hvs] at hv

end

section

variable {time : Fin n → Time} {a b c d : Fin n}

structure DomTree (imm : Fin n → Option (Fin n)) (start : Fin n) : Prop where
  root : imm start = none
  up : ∀ v d, imm v = some d → d = start ∨ (imm d).isSome
  ranked : ∃ rank : Fin n → Nat, ∀ v d, imm v = some d → rank d < rank v

inductive Above (imm : Fin n → Option (Fin n)) : Fin n → Fin n → Prop
  | refl (v : Fin n) : Above imm v v
  | up {a b d : Fin n} : imm b = some d → Above imm a d → Above imm a b

theorem Above.of_ne (h : Above imm a b) (hne : a ≠ b) : ∃ d, imm b = some d ∧ Above imm a d := by
  cases h with
  | refl => exact absurd rfl hne
  | up hd h => exact ⟨_,hd,h⟩

theorem Above.trans (h : Above imm a b) (h' : Above imm b c) : Above imm a c := by
  induction h' with
  | refl => exact h
  | up hd _ ih => exact .up hd ih

theorem Above.child (h : Above imm a b) (hne : a ≠ b) : ∃ y, imm y = some a ∧ Above imm y b := by
  induction h with
  | refl => exact absurd rfl hne
  | @up b d hd h ih =>
    by_cases had : a = d
    · exact ⟨b,had ▸ hd,.refl b⟩
    · obtain ⟨y,hy,hyd⟩ := ih had
      exact ⟨y,hy,.up hd hyd⟩

structure Timed (imm : Fin n → Option (Fin n)) (start : Fin n) (time : Fin n → Time) (D : Nat) (parent : Nat → Nat) :
    Prop where
  numbered : Numbered imm start (fun v => (time v).start) D parent
  seen : ∀ v, (time v).start ≠ 0 ↔ v = start ∨ (imm v).isSome
  order : ∀ v x y, imm x = some v → imm y = some v → x < y → (time y).start < (time x).start
  done : ∀ v, (time v).start ≠ 0 → (time v).start ≤ (time v).finish ∧ (time v).finish ≤ D ∧
    ∀ k, k < D → (Ancestor parent ((time v).start - 1) k ↔ (time v).start - 1 ≤ k ∧ k < (time v).finish)
  unseen : ∀ v, (time v).start = 0 → (time v).finish = 0

theorem Clocked.timed {node : Nat → Fin n} {c : Clock n} (ht : DomTree imm start)
    (h : Clocked imm start node parent c) (he : c.stack = []) :
    Timed imm start c.time c.discovered parent := by
  have hst := he ▸ h.stacked
  have hs v : (c.time v).start ≠ 0 ↔ v = start ∨ (imm v).isSome := by
    constructor
    · intro hv
      by_cases hsr : v = start
      · exact .inl hsr
      · obtain ⟨d,hd,-⟩ := h.numbered.edge v hv hsr
        exact .inr (by simp [hd])
    · intro hv
      obtain ⟨rank,hra⟩ := ht.ranked
      obtain ⟨r,hr⟩ : ∃ r, rank v = r := ⟨_,rfl⟩
      induction r using Nat.strongRecOn generalizing v with
      | ind r ih =>
        rcases hv with rfl | hv
        · have hro := h.numbered.root
          omega
        obtain ⟨d,hd⟩ := isSome_iff_exists.mp hv
        have hds := ih (rank d) (hr ▸ hra v d hd) d (ht.up v d hd) rfl
        intro hz
        have hp := h.awaiting.all d v hd hz
        rw [(hst.done d hds (by simp)).1] at hp
        cases hp
  refine ⟨h.numbered,hs,fun v x y hx hy hlt => ?_,fun v hv => ?_,fun v hv => hst.unseen v hv⟩
  · exact h.awaiting.order v x y hx hy ((hs x).mpr (.inr (by simp [hx]))) ((hs y).mpr (.inr (by simp [hy]))) hlt
  · exact (hst.done v hv (by simp)).2

theorem computeAccessTime_spec (ht : DomTree imm start) :
    ∃ D parent, Timed imm start (computeAccessTime imm start) D parent := by
  have hin : ∃ parent, Clocked imm start (transpose imm start).2 parent (.init start (transpose imm start).1) :=
    ⟨_,clocked_init ht.root fun v => transpose_spec imm start v⟩
  have hst : ∀ c c', (∃ parent, Clocked imm start (transpose imm start).2 parent c) →
    c.step (transpose imm start).2 = some c' →
      (∃ parent, Clocked imm start (transpose imm start).2 parent c') ∧ c'.work < c.work := by
    rintro c c' ⟨parent,h⟩ hs
    exact h.step hs
  have hw : (init start (transpose imm start).1).work ≤ 2 * n := by
    have hf : (Finset.univ.filter fun v =>
        ((init start (transpose imm start).1).time v).start = 0) ⊆ Finset.univ.erase start := by
      intro v hv
      rw [Finset.mem_filter] at hv
      refine Finset.mem_erase.mpr ⟨?_,Finset.mem_univ v⟩
      rintro rfl
      simp [init] at hv
    have hc := Finset.card_le_card hf
    rw [Finset.card_erase_of_mem (Finset.mem_univ start),Finset.card_univ,Fintype.card_fin] at hc
    have hp := start.pos
    simp only [work,init,length_singleton] at hc ⊢
    omega
  obtain ⟨⟨parent,hcl⟩,hd⟩ := exhaust_spec work hst (2 * n) hin hw
  refine ⟨_,parent,hcl.timed ht ?_⟩
  unfold step at hd
  split at hd
  case h_1 h => exact h
  case h_2 =>
    simp only at hd
    split at hd <;> cases hd

end

end Frontend.FlowGraph
