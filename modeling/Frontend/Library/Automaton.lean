import Mathlib.Data.Set.Insert
import Mathlib.Data.List.Induction

namespace Frontend.Library

open List Option

variable {S V : Type*} {step : S → V → Option S} {s t accept : S} {u w : List V} {v : V}

def runWord (step : S → V → Option S) : S → List V → Option S
  | s, [] => some s
  | s, v :: w => (step s v).bind fun t => runWord step t w

@[simp] theorem runWord_nil : runWord step s [] = some s := rfl

@[simp] theorem runWord_cons : runWord step s (v :: w) = (step s v).bind fun t => runWord step t w := rfl

theorem runWord_append : runWord step s (u ++ w) = (runWord step s u).bind fun t => runWord step t w := by
  induction u generalizing s with
  | nil => rfl
  | cons v u ih =>
    rw [cons_append,runWord_cons,runWord_cons,bind_assoc]
    congr
    funext t
    exact ih

theorem runWord_concat : runWord step s (u ++ [v]) = (runWord step s u).bind fun t => step t v := by
  rw [runWord_append]
  congr
  funext t
  cases h : step t v <;> simp [h]

structure Recognizes (step : S → V → Option S) (start accept : S) (n : Nat) (L : Set (List V)) : Prop where
  language : ∀ w, runWord step start w = some accept ↔ w ∈ L
  live : ∀ u s, runWord step start u = some s → ∃ w, runWord step s w = some accept
  halt : ∀ v, step accept v = none
  length : ∀ w ∈ L, w.length = n

namespace Recognizes

variable {start : S} {n : Nat} {L : Set (List V)}

section

variable (h : Recognizes step start accept n L)

include h

theorem nonempty : ∃ w, w ∈ L := by
  obtain ⟨w,hw⟩ := h.live [] start rfl
  exact ⟨w,(h.language w).mp hw⟩

theorem complete (hu : runWord step start u = some s) (hw : runWord step s w = some accept) : u ++ w ∈ L :=
  (h.language _).mp (by rw [runWord_append,hu,bind_some,hw])

theorem length_le (hu : runWord step start u = some s) : u.length ≤ n := by
  obtain ⟨w,hw⟩ := h.live u s hu
  have := h.length _ (h.complete hu hw)
  rw [length_append] at this
  omega

theorem accept_iff (hu : runWord step start u = some s) : s = accept ↔ u.length = n := by
  constructor
  · rintro rfl
    exact h.length u ((h.language u).mp hu)
  · intro hle
    obtain ⟨w,hw⟩ := h.live u s hu
    have hl := h.length _ (h.complete hu hw)
    rw [length_append] at hl
    obtain rfl : w = [] := eq_nil_of_length_eq_zero (by omega)
    exact some.inj hw

theorem start_eq_accept_iff : start = accept ↔ n = 0 := by
  rw [h.accept_iff (u := []) rfl]
  exact eq_comm

end

theorem empty_word (h : Recognizes step start accept 0 L) : L = {[]} := by
  obtain ⟨w,hw⟩ := h.nonempty
  have hn w (hw : w ∈ L) : w = [] := eq_nil_of_length_eq_zero (h.length w hw)
  exact Set.eq_singleton_iff_unique_mem.mpr ⟨hn w hw ▸ hw,hn⟩

theorem from_reached (h : Recognizes step start accept n L) (hu : runWord step start u = some s) :
    Recognizes step s accept (n - u.length) {w | u ++ w ∈ L} := by
  refine ⟨fun w => ?_,fun w t hw => ?_,h.halt,fun w hw => ?_⟩
  · rw [Set.mem_ofPred_eq,← h.language,runWord_append,hu,bind_some]
  · refine h.live (u ++ w) t ?_
    rw [runWord_append,hu,bind_some,hw]
  · have := h.length _ hw
    rw [length_append] at this
    omega

end Recognizes

section

variable {S₁ S₂ S : Type*} {step₁ : S₁ → V → Option S₁} {step₂ : S₂ → V → Option S₂}
  {step : S → V → Option S} {start₁ accept₁ : S₁} {start₂ accept₂ : S₂} {n : Nat} {L₁ L₂ : Set (List V)}

section

variable (step₁ : S₁ → V → Option S₁) (step₂ : S₂ → V → Option S₂)

def pairStep (p : Option S₁ × Option S₂) (v : V) : Option S₁ × Option S₂ :=
  (p.1.bind fun s => step₁ s v,p.2.bind fun s => step₂ s v)

def pairRun (start₁ : S₁) (start₂ : S₂) (u : List V) : Option S₁ × Option S₂ :=
  (runWord step₁ start₁ u,runWord step₂ start₂ u)

end

theorem pairRun_concat : pairRun step₁ step₂ start₁ start₂ (u ++ [v]) = pairStep step₁ step₂
    (pairRun step₁ step₂ start₁ start₂ u) v := by
  simp [pairRun,pairStep,runWord_concat]

structure Labels (step₁ : S₁ → V → Option S₁) (step₂ : S₂ → V → Option S₂) (accept₁ : S₁) (accept₂ : S₂)
    (step : S → V → Option S) (accept : S) (reached : Set (Option S₁ × Option S₂))
    (label : Option S₁ × Option S₂ → S) : Prop where
  accepting : ∀ p ∈ reached, label p = accept ↔ p.1 = some accept₁ ∨ p.2 = some accept₂
  halt : ∀ v, step accept v = none
  stuck : ∀ p ∈ reached, label p ≠ accept → ∀ v, pairStep step₁ step₂ p v = (none,none) → step (label p) v = none
  next : ∀ p ∈ reached, label p ≠ accept → ∀ v, pairStep step₁ step₂ p v ≠ (none,none) →
    step (label p) v = some (label (pairStep step₁ step₂ p v)) ∧ pairStep step₁ step₂ p v ∈ reached

variable {accept : S} {reached : Set (Option S₁ × Option S₂)} {label : Option S₁ × Option S₂ → S}

section

variable (h : Labels step₁ step₂ accept₁ accept₂ step accept reached label)
  (h₁ : Recognizes step₁ start₁ accept₁ n L₁) (h₂ : Recognizes step₂ start₂ accept₂ n L₂)
  (hsta : (some start₁,some start₂) ∈ reached)

include h h₁ h₂ hsta

theorem Labels.run (u : List V) : (pairRun step₁ step₂ start₁ start₂ u = (none,none) ∧
      runWord step (label (some start₁,some start₂)) u = none) ∨
    (pairRun step₁ step₂ start₁ start₂ u ≠ (none,none) ∧ pairRun step₁ step₂ start₁ start₂ u ∈ reached ∧
      runWord step (label (some start₁,some start₂)) u = some (label (pairRun step₁ step₂ start₁ start₂ u))) := by
  induction u using List.reverseRecOn with
  | nil => exact .inr ⟨by simp [pairRun],hsta,rfl⟩
  | append_singleton u v ih =>
    rw [runWord_concat,pairRun_concat]
    rcases ih with ⟨hp,hr⟩ | ⟨-,hm,hr⟩
    · rw [hp,hr]
      exact .inl ⟨rfl,rfl⟩
    rw [hr,bind_some]
    by_cases ha : label (pairRun step₁ step₂ start₁ start₂ u) = accept
    · -- The word is complete, and both automata halt.
      have hl : u.length = n := by
        rcases (h.accepting _ hm).mp ha with hu | hu
        · exact (h₁.accept_iff hu).mp rfl
        · exact (h₂.accept_iff hu).mp rfl
      refine .inl ⟨?_,ha ▸ h.halt v⟩
      have hlo : n < (u ++ [v]).length := by
        rw [length_append,hl]
        exact Nat.lt_succ_self n
      rw [← pairRun_concat,pairRun,Prod.mk.injEq]
      refine ⟨eq_none_iff_forall_ne_some.mpr fun s hs => ?_,eq_none_iff_forall_ne_some.mpr fun s hs => ?_⟩
      · exact absurd (h₁.length_le hs) (by omega)
      · exact absurd (h₂.length_le hs) (by omega)
    by_cases hst : pairStep step₁ step₂ (pairRun step₁ step₂ start₁ start₂ u) v = (none,none)
    · exact .inl ⟨hst,h.stuck _ hm ha v hst⟩
    · obtain ⟨hsp,hm'⟩ := h.next _ hm ha v hst
      exact .inr ⟨hst,hm',hsp⟩

theorem Labels.recognizes : Recognizes step (label (some start₁,some start₂)) accept n (L₁ ∪ L₂) := by
  have hl w : runWord step (label (some start₁,some start₂)) w = some accept ↔ w ∈ L₁ ∪ L₂ := by
    rw [Set.mem_union,← h₁.language,← h₂.language]
    rcases h.run h₁ h₂ hsta w with ⟨hp,hr⟩ | ⟨-,hm,hr⟩
    · obtain ⟨hn1,hn2⟩ := Prod.mk.inj hp
      simp [hr,hn1,hn2]
    · rw [hr,some.injEq]
      exact h.accepting _ hm
  refine ⟨hl,fun u s hu => ?_,h.halt,?_⟩
  · -- One of the two can still complete the word.
    have hf w (hw : u ++ w ∈ L₁ ∪ L₂) : ∃ w, runWord step s w = some accept := by
      have hr := (hl _).mpr hw
      rw [runWord_append,hu,bind_some] at hr
      exact ⟨w,hr⟩
    rcases h.run h₁ h₂ hsta u with ⟨-,hr⟩ | ⟨hp,-,-⟩
    · cases hr.symm.trans hu
    cases hs1 : runWord step₁ start₁ u with
    | some s1 =>
      obtain ⟨w,hw⟩ := h₁.live u s1 hs1
      exact hf w (.inl (h₁.complete hs1 hw))
    | none =>
      cases hs2 : runWord step₂ start₂ u with
      | some s2 =>
        obtain ⟨w,hw⟩ := h₂.live u s2 hs2
        exact hf w (.inr (h₂.complete hs2 hw))
      | none => exact absurd (by rw [pairRun,hs1,hs2]) hp
  · rintro w (hw | hw)
    · exact h₁.length w hw
    · exact h₂.length w hw

end

end

section

variable {S₁ S₂ S : Type*} {step₁ : S₁ → V → Option S₁} {step₂ : S₂ → V → Option S₂}
  {step : S → V → Option S} {start₁ accept₁ : S₁} {start₂ accept₂ : S₂} {n₁ n₂ : Nat}
  {L₁ L₂ : Set (List V)} {f₁ : S₁ → S} {f₂ : S₂ → S}

structure Glued (step₁ : S₁ → V → Option S₁) (step₂ : S₂ → V → Option S₂) (start₁ accept₁ : S₁)
    (start₂ accept₂ : S₂) (step : S → V → Option S) (f₁ : S₁ → S) (f₂ : S₂ → S) : Prop where
  first : ∀ u s, runWord step₁ start₁ u = some s → s ≠ accept₁ → ∀ v, step (f₁ s) v = (step₁ s v).map f₁
  second : ∀ u s, runWord step₂ start₂ u = some s → ∀ v, step (f₂ s) v = (step₂ s v).map f₂
  glue : f₁ accept₁ = f₂ start₂
  apart : ∀ u s, runWord step₁ start₁ u = some s → s ≠ accept₁ → f₁ s ≠ f₂ accept₂
  accept : ∀ u s, runWord step₂ start₂ u = some s → f₂ s = f₂ accept₂ → s = accept₂

section

variable (h : Glued step₁ step₂ start₁ accept₁ start₂ accept₂ step f₁ f₂)

include h

theorem Glued.run_first (h₁ : Recognizes step₁ start₁ accept₁ n₁ L₁) (u : List V)
    (hu : u.length ≤ n₁) : runWord step (f₁ start₁) u = (runWord step₁ start₁ u).map f₁ := by
  induction u using List.reverseRecOn with
  | nil => rfl
  | append_singleton u v ih =>
    rw [length_append,length_singleton] at hu
    rw [runWord_concat,runWord_concat,ih (by omega)]
    cases hs : runWord step₁ start₁ u with
    | none => rfl
    | some s =>
      refine h.first u s hs (fun ha => ?_) v
      have := (h₁.accept_iff hs).mp ha
      omega

theorem Glued.run_second (w : List V) : runWord step (f₂ start₂) w = (runWord step₂ start₂ w).map f₂ := by
  induction w using List.reverseRecOn with
  | nil => rfl
  | append_singleton w v ih =>
    rw [runWord_concat,runWord_concat,ih]
    cases hs : runWord step₂ start₂ w with
    | none => rfl
    | some s => exact h.second w s hs v

theorem Glued.run_both (h₁ : Recognizes step₁ start₁ accept₁ n₁ L₁) (u w : List V) (hu : u.length = n₁) :
    runWord step (f₁ start₁) (u ++ w) = (runWord step₁ start₁ u).bind fun _ => (runWord step₂ start₂ w).map f₂ := by
  rw [runWord_append,h.run_first h₁ u hu.le]
  cases hs : runWord step₁ start₁ u with
  | none => rfl
  | some s =>
    obtain rfl := (h₁.accept_iff hs).mpr hu
    rw [map_some,bind_some,bind_some,h.glue,h.run_second]

end

theorem split_at (hn : n ≤ w.length) : ∃ u v, w = u ++ v ∧ u.length = n :=
  ⟨w.take n,w.drop n,(take_append_drop n w).symm,length_take_of_le hn⟩

section

variable (h : Glued step₁ step₂ start₁ accept₁ start₂ accept₂ step f₁ f₂)
  (h₁ : Recognizes step₁ start₁ accept₁ n₁ L₁) (h₂ : Recognizes step₂ start₂ accept₂ n₂ L₂)

include h h₁ h₂

theorem Glued.language (w : List V) : runWord step (f₁ start₁) w = some (f₂ accept₂) ↔ ∃ u ∈ L₁, ∃ v ∈ L₂,
    w = u ++ v := by
  constructor
  · intro hr
    by_cases hl : n₁ ≤ w.length
    · obtain ⟨u,v,rfl,hu⟩ := split_at hl
      rw [h.run_both h₁ u v hu] at hr
      obtain ⟨s,hs,hr⟩ := bind_eq_some_iff.mp hr
      obtain ⟨t,ht,heq⟩ := map_eq_some_iff.mp hr
      obtain rfl := h.accept v t ht heq
      obtain rfl := (h₁.accept_iff hs).mpr hu
      exact ⟨u,(h₁.language u).mp hs,v,(h₂.language v).mp ht,rfl⟩
    · rw [h.run_first h₁ w (by omega)] at hr
      obtain ⟨s,hs,heq⟩ := map_eq_some_iff.mp hr
      refine absurd heq (h.apart w s hs fun ha => hl ?_)
      exact ((h₁.accept_iff hs).mp ha).ge
  · rintro ⟨u,hu,v,hv,rfl⟩
    rw [h.run_both h₁ u v (h₁.length u hu),(h₁.language u).mpr hu,(h₂.language v).mpr hv]
    rfl

theorem Glued.recognizes : Recognizes step (f₁ start₁) (f₂ accept₂) (n₁ + n₂) {w | ∃ u ∈ L₁, ∃ v ∈ L₂, w = u ++ v} := by
  obtain ⟨u0,hu0⟩ := h₁.nonempty
  obtain ⟨w0,hw0⟩ := h₂.nonempty
  refine ⟨h.language h₁ h₂,fun u s hu => ?_,fun v => ?_,?_⟩
  · have hf w (hw : ∃ a ∈ L₁, ∃ b ∈ L₂, u ++ w = a ++ b) : ∃ w, runWord step s w = some (f₂ accept₂) := by
      have hr := (h.language h₁ h₂ _).mpr hw
      rw [runWord_append,hu,bind_some] at hr
      exact ⟨w,hr⟩
    by_cases hl : n₁ ≤ u.length
    · obtain ⟨a,b,rfl,ha⟩ := split_at hl
      rw [h.run_both h₁ a b ha] at hu
      obtain ⟨s',hs',hr⟩ := bind_eq_some_iff.mp hu
      obtain ⟨t,ht,-⟩ := map_eq_some_iff.mp hr
      obtain ⟨w,hw⟩ := h₂.live b t ht
      obtain rfl := (h₁.accept_iff hs').mpr ha
      exact hf w ⟨a,(h₁.language a).mp hs',b ++ w,h₂.complete ht hw,append_assoc a b w⟩
    · rw [h.run_first h₁ u (by omega)] at hu
      obtain ⟨s',hs',-⟩ := map_eq_some_iff.mp hu
      obtain ⟨w,hw⟩ := h₁.live u s' hs'
      exact hf (w ++ w0) ⟨u ++ w,h₁.complete hs' hw,w0,hw0,(append_assoc u w w0).symm⟩
  · rw [h.second w0 accept₂ ((h₂.language w0).mpr hw0),h₂.halt]
    rfl
  · rintro w ⟨u,hu,v,hv,rfl⟩
    rw [length_append,h₁.length u hu,h₂.length v hv]

end

end

end Frontend.Library
