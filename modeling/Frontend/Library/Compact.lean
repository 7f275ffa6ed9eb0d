import Mathlib.Data.List.Basic

namespace Frontend.Library

open List Option

variable {α : Type*} (p : α → Bool)

def rank (l : List α) (i : Nat) : Nat := (l.take i).countP p

@[simp] theorem rank_zero (l : List α) : rank p l 0 = 0 := by simp [rank]

theorem rank_cons_succ (a : α) (l : List α) (i : Nat) : rank p (a :: l) (i + 1) = rank p l i + if p a then 1 else 0 := by
  simp [rank,countP_cons]

variable {l : List α} {i : Nat} {a : α} {β : Type*} {g : α → Option β} {l' : List β}

theorem rank_succ (h : l[i]? = some a) : rank p l (i + 1) = rank p l i + if p a then 1 else 0 := by
  simp [rank,take_add_one,h,countP_append,countP_singleton]

theorem rank_le (l : List α) (i : Nat) : rank p l i ≤ i := by
  have hc := countP_le_length (p := p) (l := l.take i)
  simp only [length_take] at hc
  exact Nat.le_trans hc (Nat.min_le_left ..)

theorem rank_of_all (h : ∀ a ∈ l, p a) (hi : i ≤ l.length) : rank p l i = i := by
  rw [rank,countP_eq_length.mpr fun a ha => h a (mem_of_mem_take ha),length_take,Nat.min_eq_left hi]

theorem filter_rank (h : l[i]? = some a) (ha : p a) : (l.filter p)[rank p l i]? = some a := by
  induction l generalizing i with
  | nil => simp at h
  | cons b l ih =>
    cases i with
    | zero =>
      cases h
      simp [ha]
    | succ i =>
      have hi := ih (by simpa using h)
      rw [rank_cons_succ]
      by_cases hb : p b
      · simpa [hb] using hi
      · simpa [hb] using hi

theorem exists_rank (h : (l.filter p)[j]? = some a) : ∃ i, l[i]? = some a ∧ p a ∧ rank p l i = j := by
  induction l generalizing j with
  | nil => simp at h
  | cons b l ih =>
    by_cases hb : p b
    · cases j with
      | zero =>
        obtain rfl : b = a := by simpa [hb] using h
        exact ⟨0,rfl,hb,rank_zero ..⟩
      | succ j =>
        obtain ⟨i,hi,ha,hr⟩ := ih (j := j) (by simpa [hb] using h)
        exact ⟨i + 1,by simpa using hi,ha,by simp [rank_cons_succ,hb,hr]⟩
    · obtain ⟨i,hi,ha,hr⟩ := ih (j := j) (by simpa [hb] using h)
      exact ⟨i + 1,by simpa using hi,ha,by simp [rank_cons_succ,hb,hr]⟩

theorem set_set_rotate (kept ds rest : List α) (d a : α) :
    ((kept ++ d :: ds ++ a :: rest).set (kept.length + (ds.length + 1)) d).set kept.length a = kept ++
    [a] ++ (ds ++ [d]) ++ rest := by
  rw [set_append_right _ _ (by simp),append_assoc,set_append_right _ _ (by simp)]
  simp

theorem dropLast_set_length (l rest : List α) (d last : α) :
    ((l ++ d :: (rest ++ [last])).set l.length last).dropLast = l ++ last :: rest := by
  rw [set_append_right _ _ (Nat.le_refl _)]
  have h : l ++ last :: (rest ++ [last]) = (l ++ last :: rest) ++ [last] := by simp
  simp only [Nat.sub_self,set_cons_zero,h,dropLast_concat]

theorem getElem?_of_mapM (h : l.mapM g = some l') (i : Nat) : l'[i]? = l[i]?.bind g := by
  induction l generalizing l' i with
  | nil =>
    cases h
    simp
  | cons a l ih =>
    simp only [mapM_cons,bind_eq_bind,bind_eq_some_iff] at h
    obtain ⟨b,hb,rest,hr,h⟩ := h
    obtain rfl : b :: rest = l' := by simpa using h
    cases i with
    | zero => simp [hb]
    | succ i => simpa using ih hr i

theorem length_of_mapM (h : l.mapM g = some l') : l'.length = l.length := by
  induction l generalizing l' with
  | nil =>
    cases h
    rfl
  | cons a l ih =>
    simp only [mapM_cons,bind_eq_bind,bind_eq_some_iff] at h
    obtain ⟨b,-,rest,hr,h⟩ := h
    obtain rfl : b :: rest = l' := by simpa using h
    simp [ih hr]

theorem exists_of_mapM (h : l.mapM g = some l') (ha : l[i]? = some a) : ∃ b, g a = some b ∧ l'[i]? = some b := by
  have hlt : i < l'.length := by
    rw [length_of_mapM h]
    exact (List.getElem_of_getElem? ha).1
  have hg := getElem?_of_mapM h i
  rw [List.getElem?_eq_getElem hlt,ha,bind_some] at hg
  exact ⟨l'[i],hg.symm,List.getElem?_eq_getElem hlt⟩

end Frontend.Library
