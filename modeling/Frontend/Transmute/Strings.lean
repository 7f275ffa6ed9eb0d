import Frontend.Transmute.Layout

namespace Frontend.Transmute.Tree

open List

variable {D R T : Type} {t s : Tree D R T} {ts elts alts : List (Tree D R T)} {w : List Nat}

theorem mem_stringsSeq_append : w ∈ stringsSeq (ts ++ elts) ↔ ∃ u ∈ stringsSeq ts, ∃ v ∈ stringsSeq elts,
    w = u ++ v := by
  induction ts generalizing w with
  | nil => simp [stringsSeq]
  | cons t ts ih =>
    simp only [cons_append,stringsSeq,Set.mem_ofPred_eq]
    constructor
    · rintro ⟨u,hu,r,hr,rfl⟩
      obtain ⟨v,hv,x,hx,rfl⟩ := ih.mp hr
      exact ⟨u ++ v,⟨u,hu,v,hv,rfl⟩,x,hx,(append_assoc u v x).symm⟩
    · rintro ⟨-,⟨u,hu,v,hv,rfl⟩,x,hx,rfl⟩
      exact ⟨u,hu,v ++ x,ih.mpr ⟨v,hv,x,hx,rfl⟩,append_assoc u v x⟩

theorem mem_stringsSeq_singleton : w ∈ stringsSeq [t] ↔ w ∈ strings t := by simp [stringsSeq]

theorem stringsAlt_append : stringsAlt (ts ++ alts) = stringsAlt ts ∪ stringsAlt alts := by
  induction ts with
  | nil => simp [stringsAlt]
  | cons t ts ih => rw [cons_append,stringsAlt,stringsAlt,ih,Set.union_assoc]

theorem stringsAlt_singleton : stringsAlt [t] = strings t := by rw [stringsAlt,stringsAlt,Set.union_empty]

theorem refFreeAll_append : refFreeAll (ts ++ elts) ↔ refFreeAll ts ∧ refFreeAll elts := by
  induction ts with
  | nil => simp [refFreeAll]
  | cons t ts ih => simp only [cons_append,refFreeAll,ih,and_assoc]

theorem mem_strings_andThen : w ∈ strings (t.andThen s) ↔ ∃ u ∈ strings t, ∃ v ∈ strings s, w = u ++ v := by
  unfold andThen
  split
  · simp [strings,stringsSeq]
  · simp [strings,stringsSeq]
  · simp only [strings,mem_stringsSeq_append]
  · simp only [strings,mem_stringsSeq_append,mem_stringsSeq_singleton]
  · rfl
  · simp only [strings,stringsSeq,Set.mem_ofPred_eq,Set.mem_singleton_iff]
    simp

theorem refFree_andThen (ht : t.refFree) (hs : s.refFree) : (t.andThen s).refFree := by
  unfold andThen
  split
  · exact hs
  · exact ht
  · exact refFreeAll_append.mpr ⟨ht,hs⟩
  · exact refFreeAll_append.mpr ⟨ht,hs,trivial⟩
  · exact ⟨ht,hs⟩
  · exact ⟨ht,hs,trivial⟩

theorem strings_or : strings (t.or s) = strings t ∪ strings s := by
  unfold or
  split
  · simp [strings,stringsAlt]
  · simp [strings,stringsAlt]
  · rw [strings,strings,strings,stringsAlt_append]
  · rw [strings,strings,stringsAlt_append,stringsAlt_singleton]
  · rw [strings,strings,stringsAlt_append,stringsAlt_singleton,Set.union_comm]
  · rw [strings,stringsAlt,stringsAlt_singleton]

theorem refFree_or (ht : t.refFree) (hs : s.refFree) : (t.or s).refFree := by
  unfold or
  split
  · exact hs
  · exact ht
  · exact refFreeAll_append.mpr ⟨ht,hs⟩
  · exact refFreeAll_append.mpr ⟨ht,hs,trivial⟩
  · exact refFreeAll_append.mpr ⟨hs,ht,trivial⟩
  · exact ⟨ht,hs,trivial⟩

theorem isUninhabited_strings (h : t.isUninhabited = true) : strings t = ∅ := by
  unfold isUninhabited at h
  split at h
  case h_1 => rfl
  case h_2 => cases h

mutual

theorem isInhabited_iff : (t : Tree D R T) → t.refFree → (t.isInhabited = true ↔ (strings t).Nonempty)
  | .byte b valid, _ => by refine iff_of_true rfl ⟨[b.start],b.start,⟨le_rfl,valid.1⟩,rfl⟩
  | .def _ , _ => iff_of_true rfl ⟨[],rfl⟩
  | .seq elts, h => allInhabited_iff elts h
  | .alt alts, h => anyInhabited_iff alts h
  | .ref _, h => h.elim

theorem allInhabited_iff : (ts : List (Tree D R T)) → refFreeAll ts → (allInhabited ts = true ↔ (stringsSeq ts).Nonempty)
  | [], _ => iff_of_true rfl ⟨[],rfl⟩
  | t :: ts, h => by
    rw [allInhabited,Bool.and_eq_true,isInhabited_iff t h.1,allInhabited_iff ts h.2]
    constructor
    · rintro ⟨⟨u,hu⟩,v,hv⟩
      exact ⟨u ++ v,u,hu,v,hv,rfl⟩
    · rintro ⟨-,u,hu,v,hv,-⟩
      exact ⟨⟨u,hu⟩,v,hv⟩

theorem anyInhabited_iff : (ts : List (Tree D R T)) → refFreeAll ts → (anyInhabited ts = true ↔ (stringsAlt ts).Nonempty)
  | [], _ => by simp [anyInhabited,stringsAlt]
  | t :: ts, h => by
    rw [anyInhabited,Bool.or_eq_true,isInhabited_iff t h.1,anyInhabited_iff ts h.2,stringsAlt,Set.union_nonempty]

end

mutual

theorem prune_spec : (t : Tree D R T) → t.refFree → strings (prune (fun _ => false) t) = strings t ∧
    (prune (fun _ => false) t).refFree
  | .byte .., _ => ⟨rfl,trivial⟩
  | .def _ , _ => ⟨rfl,trivial⟩
  | .seq elts, h => by
    obtain ⟨hs,hf⟩ := pruneSeq_spec elts h unit trivial
    refine ⟨Set.ext fun w => ?_,hf⟩
    simpa [prune,strings,stringsSeq,unit] using hs w
  | .alt alts, h => by
    obtain ⟨hs,hf⟩ := pruneAlt_spec alts h uninhabited trivial
    refine ⟨?_,hf⟩
    simpa [prune,strings,stringsAlt,uninhabited] using hs
  | .ref _, h => h.elim

theorem pruneSeq_spec : (ts : List (Tree D R T)) → refFreeAll ts → (acc : Tree Empty R T) → acc.refFree →
    (∀ w, w ∈ strings (pruneSeq (fun _ => false) acc ts) ↔
      ∃ u ∈ strings acc, ∃ v ∈ stringsSeq ts, w = u ++ v) ∧ (pruneSeq (fun _ => false) acc ts).refFree
  | [], _, acc, ha => ⟨by simp [pruneSeq,stringsSeq],ha⟩
  | t :: ts, h, acc, ha => by
    obtain ⟨hs,hf⟩ := prune_spec t h.1
    rw [pruneSeq]
    by_cases hun : (prune (fun _ => false) t).isUninhabited = true
    · rw [if_pos hun]
      refine ⟨fun w => iff_of_false (fun hw => hw) ?_,trivial⟩
      rintro ⟨-,-,-,⟨u,hu,-⟩,-⟩
      rw [← hs,isUninhabited_strings hun] at hu
      exact hu
    · rw [if_neg hun]
      obtain ⟨hr,hf'⟩ := pruneSeq_spec ts h.2 _ (refFree_andThen ha hf)
      refine ⟨fun w => (hr w).trans ?_,hf'⟩
      simp only [mem_strings_andThen,hs,stringsSeq,Set.mem_ofPred_eq]
      constructor
      · rintro ⟨-,⟨u,hu,v,hv,rfl⟩,x,hx,rfl⟩
        exact ⟨u,hu,v ++ x,⟨v,hv,x,hx,rfl⟩,append_assoc u v x⟩
      · rintro ⟨u,hu,-,⟨v,hv,x,hx,rfl⟩,rfl⟩
        exact ⟨u ++ v,⟨u,hu,v,hv,rfl⟩,x,hx,(append_assoc u v x).symm⟩

theorem pruneAlt_spec : (ts : List (Tree D R T)) → refFreeAll ts → (acc : Tree Empty R T) → acc.refFree →
    strings (pruneAlt (fun _ => false) acc ts) = strings acc ∪ stringsAlt ts ∧ (pruneAlt (fun _ => false) acc ts).refFree
  | [], _, acc, ha => ⟨by simp [pruneAlt,stringsAlt],ha⟩
  | t :: ts, h, acc, ha => by
    obtain ⟨hs,hf⟩ := prune_spec t h.1
    obtain ⟨hr,hf'⟩ := pruneAlt_spec ts h.2 _ (refFree_or ha hf)
    refine ⟨?_,hf'⟩
    rw [pruneAlt,hr,strings_or,hs,stringsAlt,Set.union_assoc]

end

theorem strings_eq_empty (h : t.refFree) (hun : t.isInhabited = false) : strings t = ∅ := by
  refine Set.not_nonempty_iff_eq_empty.mp fun hne => ?_
  rw [(isInhabited_iff t h).mpr hne] at hun
  cases hun

theorem prune_isInhabited (h : t.refFree) : (prune (fun _ => false) t).isInhabited = t.isInhabited := by
  obtain ⟨hs,hf⟩ := prune_spec t h
  rw [Bool.eq_iff_iff,isInhabited_iff _ hf,isInhabited_iff t h,hs]

def Uniform (n : Nat) (L : Set (List Nat)) : Prop := ∀ w ∈ L, w.length = n

theorem Uniform.split (h : Uniform n {w | ∃ u ∈ L, ∃ v ∈ M, w = u ++ v})
    (hL : L.Nonempty) (hM : M.Nonempty) : ∃ m k, m + k = n ∧ Uniform m L ∧ Uniform k M := by
  obtain ⟨u,hu⟩ := hL
  obtain ⟨v,hv⟩ := hM
  have hl u (hu : u ∈ L) v (hv : v ∈ M) : u.length + v.length = n := by
    rw [← length_append]
    exact h _ ⟨u,hu,v,hv,rfl⟩
  refine ⟨u.length,v.length,hl u hu v hv,fun x hx => ?_,fun x hx => ?_⟩
  · have h1 := hl u hu v hv
    have h2 := hl x hx v hv
    omega
  · have h1 := hl u hu v hv
    have h2 := hl u hu x hx
    omega

end Frontend.Transmute.Tree
