import Frontend.FlowGraph.Model

namespace Frontend.FlowGraph

open List Function

variable {n : Nat} {imm : Fin n → Option (Fin n)} {edges : Edges n} {node : Nat → Fin n}

def slice (edges : Edges n) (node : Nat → Fin n) (v : Fin n) : List (Fin n) :=
  (List.range' (edges v).1 ((edges v).2 - (edges v).1)).map node

def childrenIn (imm : Fin n → Option (Fin n)) (is : List (Fin n)) (v : Fin n) : List (Fin n) :=
  is.filter fun i => imm i = some v

theorem childrenIn_cons (i : Fin n) (is : List (Fin n)) (v : Fin n) :
    childrenIn imm (i :: is) v = if imm i = some v then i :: childrenIn imm is v else childrenIn imm is v := by
  simp [childrenIn,filter_cons]

theorem countChildren_spec (is : List (Fin n)) (edges : Edges n) (v : Fin n) :
    countChildren imm is edges v = ((edges v).1,(edges v).2 + (childrenIn imm is v).length) := by
  induction is generalizing edges with
  | nil => simp [countChildren,childrenIn]
  | cons i is ih =>
    cases hd : imm i with
    | none => simp [countChildren,childrenIn_cons,ih,hd]
    | some d =>
      simp only [countChildren,childrenIn_cons,hd,ih]
      by_cases hv : v = d
      · subst hv
        simp [Nat.add_comm,Nat.add_assoc]
      · simp [hv,Ne.symm hv]

theorem closeRanges_of_notMem (hv : v ∉ is) (m : Nat) (edges : Edges n) : closeRanges is m edges v = edges v := by
  induction is generalizing m edges with
  | nil => rfl
  | cons i is ih =>
    rw [mem_cons,not_or] at hv
    rw [closeRanges,ih hv.2,update_of_ne hv.1]

theorem closeRanges_spec (hn : is.Nodup) (m : Nat) (edges : Edges n) :
    (∀ v ∈ is, (closeRanges is m edges v).1 = (closeRanges is m edges v).2 ∧
    m + (edges v).2 ≤ (closeRanges is m edges v).2) ∧
      is.Pairwise fun u v => (closeRanges is m edges u).2 + (edges v).2 ≤ (closeRanges is m edges v).2 := by
  induction is generalizing m edges with
  | nil => exact ⟨by simp,.nil⟩
  | cons i is ih =>
    rw [nodup_cons] at hn
    obtain ⟨he,hg⟩ := ih hn.2 (m + (edges i).2) (update edges i (m + (edges i).2,m + (edges i).2))
    have hs : closeRanges (i :: is) m edges i = (m + (edges i).2,m + (edges i).2) := by
      rw [closeRanges,closeRanges_of_notMem hn.1,update_self]
    have hc v (hv : v ∈ is) : (update edges i (m + (edges i).2,m + (edges i).2) v) = edges v := by
      refine update_of_ne ?_ _ _
      rintro rfl
      exact hn.1 hv
    have hst : closeRanges (i :: is) m edges = closeRanges is (m + (edges i).2)
      (update edges i (m + (edges i).2,m + (edges i).2)) := rfl
    rw [← hst] at he hg
    refine ⟨fun v hv => ?_,.cons (fun v hv => ?_) (hg.imp_of_mem fun _ hv h => ?_)⟩
    · rcases mem_cons.mp hv with rfl | hv
      · simp [hs]
      · obtain ⟨heq,hle⟩ := he v hv
        rw [hc v hv] at hle
        exact ⟨heq,by omega⟩
    · have hle := (he v hv).2
      rw [hc v hv] at hle
      simpa [hs] using hle
    · rwa [hc _ hv] at h

structure Filled (imm : Fin n → Option (Fin n)) (count stop : Fin n → Nat) (seen : List (Fin n))
    (edges : Edges n) (node : Nat → Fin n) : Prop where
  range : ∀ v, (edges v).2 = stop v ∧ (edges v).1 + (childrenIn imm seen v).length = stop v
  slice : ∀ v, slice edges node v = (childrenIn imm seen v).reverse

theorem childrenIn_append (seen is : List (Fin n)) (v : Fin n) :
    childrenIn imm (seen ++ is) v = childrenIn imm seen v ++ childrenIn imm is v := by
  simp [childrenIn]

theorem slice_update {stop : Fin n → Nat} (hne : v ≠ d)
    (hv : (edges v).2 = stop v) (ho : start < (edges v).1 ∨ stop v ≤ start) (e : Nat × Nat) :
    slice (update edges d e) (update node start i) v = slice edges node v := by
  simp only [slice,update_of_ne hne]
  refine map_congr_left fun k hk => update_of_ne ?_ _ _
  have hk := mem_range'_1.mp hk
  omega

theorem Filled.step {count stop : Fin n → Nat} (h : Filled imm count stop seen edges node) (hd : imm i = some d)
    (hr : ∀ v, (childrenIn imm (seen ++ [i]) v).length ≤ count v ∧ count v ≤ stop v)
    (hdi : ∀ u v, u ≠ v → stop u + count v ≤ stop v ∨ stop v + count u ≤ stop u) :
    Filled imm count stop (seen ++ [i]) (update edges d ((edges d).1 - 1,(edges d).2))
    (update node ((edges d).1 - 1) i) := by
  have hl v : childrenIn imm (seen ++ [i]) v =
      if v = d then childrenIn imm seen v ++ [i] else childrenIn imm seen v := by
    rw [childrenIn_append]
    by_cases hv : v = d
    · subst hv
      simp [childrenIn,hd]
    · simp [childrenIn,hd,hv,Ne.symm hv]
  have hro := hr d
  rw [hl d,if_pos rfl,length_append,length_singleton] at hro
  have hra := h.range d
  constructor
  · intro v
    rw [hl v]
    by_cases hv : v = d
    · subst hv
      simp only [update_self,if_true,length_append,length_singleton]
      omega
    · simp only [update_of_ne hv,if_neg hv]
      exact h.range v
  · intro v
    rw [hl v]
    by_cases hv : v = d
    · subst hv
      have hs := h.slice v
      simp only [FlowGraph.slice] at hs
      have hle : (edges v).2 - ((edges v).1 - 1) = (edges v).2 - (edges v).1 + 1 := by omega
      have hn : (edges v).1 - 1 + 1 = (edges v).1 := by omega
      simp only [FlowGraph.slice,update_self,if_true,reverse_append,reverse_singleton,singleton_append,
        hle,range'_succ,map_cons,hn,← hs]
      congr 1
      refine map_congr_left fun k hk => update_of_ne ?_ _ _
      have hk := mem_range'_1.mp hk
      omega
    · rw [if_neg hv,← h.slice v]
      have hrm := hr v
      rw [hl v,if_neg hv] at hrm
      have hrn := h.range v
      refine slice_update hv (h.range v).1 ?_ _
      rcases hdi v d hv with hg | hg
      · omega
      · omega

theorem fillRanges_spec {count stop : Fin n → Nat} (hr : ∀ v, (childrenIn imm (seen ++ is) v).length ≤ count v ∧
    count v ≤ stop v)
    (hdi : ∀ u v, u ≠ v → stop u + count v ≤ stop v ∨ stop v + count u ≤ stop u)
    (h : Filled imm count stop seen edges node) :
    Filled imm count stop (seen ++ is) (fillRanges imm is edges node).1 (fillRanges imm is edges node).2 := by
  induction is generalizing seen edges node with
  | nil => simpa [fillRanges] using h
  | cons i is ih =>
    have hsp : seen ++ i :: is = (seen ++ [i]) ++ is := by simp
    rw [hsp] at hr ⊢
    cases hd : imm i with
    | none =>
      simp only [fillRanges,hd]
      refine ih hr ?_
      have hs v : childrenIn imm (seen ++ [i]) v = childrenIn imm seen v := by
        simp [childrenIn,hd]
      exact ⟨fun v => by rw [hs]; exact h.range v,fun v => by rw [hs]; exact h.slice v⟩
    | some d =>
      simp only [fillRanges,hd]
      refine ih hr (h.step hd (fun v => ⟨?_,(hr v).2⟩) hdi)
      have hle := (hr v).1
      rw [childrenIn_append,length_append] at hle
      omega

theorem transpose_spec (imm : Fin n → Option (Fin n)) (start v : Fin n) :
    slice (transpose imm start).1 (transpose imm start).2 v = (childrenIn imm (finRange n) v).reverse ∧
      ((transpose imm start).1 v).1 ≤ ((transpose imm start).1 v).2 := by
  obtain ⟨he,hg⟩ := closeRanges_spec (nodup_finRange n) 0 (countChildren imm (finRange n) fun _ => (0,0))
  have hc : ∀ v, (countChildren imm (finRange n) (fun _ => (0,0)) v).2 =
      (childrenIn imm (finRange n) v).length := fun v => by simp [countChildren_spec]
  simp only [hc] at he hg
  generalize hcl : closeRanges (finRange n) 0 (countChildren imm (finRange n) fun _ => (0,0)) = closed at he hg
  have hf : Filled imm (fun v => (childrenIn imm (finRange n) v).length) (fun v => (closed v).2) ([] ++ finRange n)
      (fillRanges imm (finRange n) closed fun _ => ⟨0,start.pos⟩).1
      (fillRanges imm (finRange n) closed fun _ => ⟨0,start.pos⟩).2 := by
    refine fillRanges_spec (fun v => ⟨le_refl _,?_⟩) (fun u v hne => ?_) ⟨fun v => ?_,fun v => ?_⟩
    · have hle := (he v (mem_finRange v)).2
      omega
    · have hlt (u v : Fin n) (huv : u < v) : (closed u).2 + (childrenIn imm (finRange n) v).length ≤ (closed v).2 := by
        simpa using pairwise_iff_getElem.mp hg u v (by simp) (by simp) huv
      rcases lt_or_gt_of_ne hne with huv | hvu
      · exact .inl (hlt u v huv)
      · exact .inr (hlt v u hvu)
    · simpa [childrenIn] using (he v (mem_finRange v)).1
    · simp [slice,childrenIn,(he v (mem_finRange v)).1]
  rw [nil_append] at hf
  simp only [transpose,hcl]
  refine ⟨hf.slice v,?_⟩
  have hr := hf.range v
  omega

end Frontend.FlowGraph
