import Mathlib.Data.List.Basic

namespace Frontend.Library

open List

variable {K V : Type} [DecidableEq K] {m t : List (K × V)} {k k' : K} {v v' : V}

def IndexMap.insert : List (K × V) → K → V → List (K × V)
  | [], k, v => [(k,v)]
  | (k',v') :: m, k, v => if k' = k then (k',v) :: m else (k',v') :: IndexMap.insert m k v

def IndexMap.extend (m : List (K × V)) (entries : List (K × V)) : List (K × V) :=
  entries.foldl (fun m e => IndexMap.insert m e.1 e.2) m

namespace IndexMap

theorem insert_insert (m : List (K × V)) (k : K) (v v' : V) : insert (insert m k v) k v' = insert m k v' := by
  induction m with
  | nil => simp [insert]
  | cons e m ih => by_cases h : e.1 = k <;> simp [insert,h,ih]

theorem keys_insert (m : List (K × V)) (k : K) (v : V) : (insert m k v).map Prod.fst =
      if k ∈ m.map Prod.fst then m.map Prod.fst else m.map Prod.fst ++ [k] := by
  induction m with
  | nil => simp [insert]
  | cons e m ih =>
    by_cases h : e.1 = k
    · simp [insert,h]
    have h' : ¬k = e.1 := fun hk => h hk.symm
    by_cases hm : k ∈ m.map Prod.fst
    · simp only [insert,if_neg h,map_cons,ih,mem_cons,hm,or_true,if_true]
    · simp only [insert,if_neg h,map_cons,ih,mem_cons,h',hm,or_self,if_false,cons_append]

theorem mem_keys_insert : k ∈ (insert m k v).map Prod.fst := by
  rw [keys_insert]
  split
  · assumption
  · simp

theorem nodup_insert (h : (m.map Prod.fst).Nodup) : ((insert m k v).map Prod.fst).Nodup := by
  rw [keys_insert]
  split
  · exact h
  · rename_i hk
    exact nodup_append.2 ⟨h,by simp,fun a ha b hb hab => hk (by simp_all)⟩

theorem insert_comm (hne : k ≠ k') (hk : k ∈ m.map Prod.fst) :
    insert (insert m k v) k' v' = insert (insert m k' v') k v := by
  induction m with
  | nil => simp at hk
  | cons e m ih =>
    by_cases h : e.1 = k
    · have h' : ¬e.1 = k' := fun hk' => hne (h.symm.trans hk')
      have h'' : ¬k = k' := hne
      simp [insert,h,h'']
    · have hm : k ∈ m.map Prod.fst := by
        rcases mem_cons.1 hk with hk | hk
        · exact absurd hk.symm h
        · exact hk
      by_cases h' : e.1 = k'
      · have hne' : ¬k' = k := fun hk => hne hk.symm
        simp [insert,h',hne']
      · simp [insert,h,h',ih hm]

theorem extend_insert_of_notMem (hk : k ∈ m.map Prod.fst) (ht : k ∉ t.map Prod.fst) :
    extend (insert m k v) t = insert (extend m t) k v := by
  induction t generalizing m with
  | nil => rfl
  | cons e t ih =>
    simp only [map_cons,mem_cons,not_or] at ht
    have hk' : k ∈ (insert m e.1 e.2).map Prod.fst := by
      rw [keys_insert]
      split
      · exact hk
      · exact mem_append_left _ hk
    simp only [extend,foldl_cons] at ih ⊢
    rw [insert_comm ht.1 hk]
    exact ih hk' ht.2

theorem extend_insert (ht : (t.map Prod.fst).Nodup) :
    extend m (insert t k v) = insert (extend m t) k v := by
  induction t generalizing m with
  | nil => rfl
  | cons e t ih =>
    simp only [map_cons,nodup_cons] at ht
    by_cases h : e.1 = k
    · subst h
      have hc := extend_insert_of_notMem (v := v) (mem_keys_insert (m := m) (v := e.2)) ht.1
      rw [insert_insert] at hc
      simpa [insert,extend] using hc
    · simpa [insert,h,extend] using ih (m := insert m e.1 e.2) ht.2

theorem insert_of_notMem (hk : k ∉ m.map Prod.fst) : insert m k v = m ++ [(k,v)] := by
  induction m with
  | nil => rfl
  | cons e m ih =>
    simp only [map_cons,mem_cons,not_or] at hk
    rw [insert,if_neg fun h => hk.1 h.symm,ih hk.2,cons_append]

end IndexMap

section

variable {K V : Type} [BEq K] [LawfulBEq K] {m t : List (K × V)} {k : K} {v : V}

namespace IndexMap

theorem lookup_eq_none_iff : m.lookup k = none ↔ k ∉ m.map Prod.fst := by
  rw [List.lookup_eq_none_iff,List.mem_map,not_exists]
  refine forall_congr' fun e => ?_
  rw [bne_iff_ne,ne_comm,not_and]

omit [LawfulBEq K] in
theorem lookup_append : (m ++ t).lookup k = (m.lookup k).or (t.lookup k) := by
  induction m with
  | nil => rfl
  | cons e m ih =>
    rw [cons_append,lookup_cons,lookup_cons,ih]
    split <;> rfl

theorem mem_of_lookup (h : m.lookup k = some v) : (k,v) ∈ m := by
  obtain ⟨l1,l2,rfl,-⟩ := lookup_eq_some_iff.mp h
  simp

theorem lookup_of_mem (hm : (m.map Prod.fst).Nodup) (h : (k,v) ∈ m) : m.lookup k = some v := by
  induction m with
  | nil => cases h
  | cons e m ih =>
    rw [map_cons,nodup_cons] at hm
    rcases mem_cons.mp h with rfl | h
    · simp
    have hne : k ≠ e.1 := by
      rintro rfl
      exact hm.1 (mem_map.mpr ⟨_,h,rfl⟩)
    rw [lookup_cons,beq_eq_false_iff_ne.mpr hne]
    exact ih hm.2 h

theorem lookup_map [BEq K'] [LawfulBEq K'] (f : K → K') (g : V → V') (hin : ∀ k' ∈ m.map Prod.fst, f k' = f k → k' = k) :
    (m.map fun e => (f e.1,g e.2)).lookup (f k) = (m.lookup k).map g := by
  induction m with
  | nil => rfl
  | cons e m ih =>
    have hr := ih fun k' hk' => hin k' (.tail _ hk')
    rw [map_cons,lookup_cons,lookup_cons,hr]
    by_cases h : k = e.1
    · rw [beq_iff_eq.mpr h,beq_iff_eq.mpr (congrArg f h)]
      rfl
    · have hf : f k ≠ f e.1 := fun heq => h (hin e.1 (.head _) heq.symm).symm
      rw [beq_eq_false_iff_ne.mpr h,beq_eq_false_iff_ne.mpr hf]

end IndexMap

end

end Frontend.Library
