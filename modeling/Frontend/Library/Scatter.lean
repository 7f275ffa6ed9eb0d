import Mathlib.Data.List.Nodup
import Mathlib.Data.List.Perm.Subperm

namespace Frontend.Library

open List

variable {A : Type*} {init : List A} {slots : List Nat} {values : List A} {i k : Nat} {a : A}

def scatter (init : List A) : List (Nat × A) → List A
  | [] => init
  | (slot,a) :: writes => scatter (init.set slot a) writes

theorem scatter_length (writes : List (Nat × A)) : (scatter init writes).length = init.length := by
  induction writes generalizing init with
  | nil => rfl
  | cons w writes ih => rw [scatter,ih,length_set]

theorem scatter_other (writes : List (Nat × A)) (hk : k ∉ writes.map Prod.fst) :
    (scatter init writes)[k]? = init[k]? := by
  induction writes generalizing init with
  | nil => rfl
  | cons w writes ih =>
    rw [map_cons,mem_cons,not_or] at hk
    rw [scatter,ih hk.2,getElem?_set_ne (Ne.symm hk.1)]

theorem scatter_written (writes : List (Nat × A)) (hn : (writes.map Prod.fst).Nodup)
    (hm : (k,a) ∈ writes) (hk : k < init.length) : (scatter init writes)[k]? = some a := by
  induction writes generalizing init with
  | nil => cases hm
  | cons w writes ih =>
    obtain ⟨hw,hn⟩ := nodup_cons.mp hn
    rcases mem_cons.mp hm with rfl | hm
    · rw [scatter,scatter_other writes hw,getElem?_set_self hk]
    · rw [scatter]
      exact ih hn hm (by rwa [length_set])

def indexed (slots : List Nat) (i : Nat) : List (Nat × Nat) := slots.zipIdx i

theorem mem_indexed : (k,i) ∈ indexed slots 0 ↔ slots[i]? = some k := mem_zipIdx_iff_getElem?

theorem map_fst_indexed (i : Nat) : (indexed slots i).map Prod.fst = slots := zipIdx_map_fst i slots

theorem scatter_eq_some (hn : slots.Nodup) (hlt : ∀ k ∈ slots, k < N) (hi : i ≠ invalid) :
    (scatter (replicate N invalid) (indexed slots 0))[k]? = some i ↔ slots[i]? = some k := by
  constructor
  · intro h
    by_cases hm : k ∈ slots
    · obtain ⟨j,hj,hg⟩ := getElem_of_mem hm
      have hs := getElem?_eq_some_iff.mpr ⟨hj,hg⟩
      have hk : k < (replicate N invalid).length := by
        rw [length_replicate]
        exact hlt k hm
      have hw := scatter_written (indexed slots 0) (by rwa [map_fst_indexed]) (mem_indexed.mpr hs) hk
      obtain rfl := Option.mem_unique h hw
      exact hs
    · rw [scatter_other _ (by rwa [map_fst_indexed]),getElem?_replicate] at h
      split at h
      · exact absurd (Option.some.inj h).symm hi
      · cases h
  · intro h
    exact scatter_written _ (by rwa [map_fst_indexed]) (mem_indexed.mpr h)
      (by rw [length_replicate]; exact hlt k (mem_of_getElem? h))

theorem scatter_filter_perm (hn : slots.Nodup) (hlt : ∀ k ∈ slots, k < N) (hl : slots.length ≤ invalid) :
    ((scatter (replicate N invalid) (indexed slots 0)).filter (· ≠ invalid)).Perm (range slots.length) := by
  have hf : ∀ {i k}, i ≠ invalid → ((scatter (replicate N invalid) (indexed slots 0))[k]? = some i ↔
      slots[i]? = some k) := fun hi => scatter_eq_some hn hlt hi
  generalize scatter (replicate N invalid) (indexed slots 0) = c at hf
  have hm i : i ∈ c.filter (· ≠ invalid) ↔ i ∈ range slots.length := by
    rw [mem_filter,mem_range,decide_eq_true_iff]
    constructor
    · rintro ⟨hi,hne⟩
      obtain ⟨k,hk,hg⟩ := getElem_of_mem hi
      exact (List.getElem_of_getElem? ((hf hne).mp (List.getElem?_eq_some_iff.mpr ⟨hk,hg⟩))).1
    · intro hi
      have hne : i ≠ invalid := by omega
      have hs := getElem?_eq_getElem hi
      exact ⟨mem_of_getElem? ((hf hne).mpr hs),hne⟩
  refine (perm_ext_iff_of_nodup ?_ nodup_range).mpr hm
  rw [nodup_iff_pairwise_ne,pairwise_filter,pairwise_iff_getElem]
  intro p q hp hq hpq hne hne'
  simp only [decide_eq_true_eq] at hne hne'
  intro heq
  have h1 := (hf hne).mp (getElem?_eq_getElem hp)
  have h2 := (hf hne').mp (getElem?_eq_getElem hq)
  rw [← heq,h1] at h2
  have := Option.some.inj h2
  omega

end Frontend.Library
