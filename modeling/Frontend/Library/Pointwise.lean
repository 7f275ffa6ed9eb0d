import Mathlib.Order.Lattice

namespace Frontend.Library

open List

variable {A B C : Type*} {R : Nat → A → B → Prop} {S : Nat → B → C → Prop} {i : Nat} {as : List A}
  {bs : List B} {cs : List C}

theorem lt_of_getElem? (h : as[i]? = some a) : i < as.length := (List.getElem_of_getElem? h).1

inductive Each (R : Nat → A → B → Prop) : Nat → List A → List B → Prop
  | nil (i : Nat) : Each R i [] []
  | cons {i : Nat} {a : A} {b : B} {as : List A} {bs : List B} : R i a b → Each R (i + 1) as bs →
      Each R i (a :: as) (b :: bs)

namespace Each

theorem length_eq (h : Each R i as bs) : as.length = bs.length := by
  induction h with
  | nil => rfl
  | cons _ _ ih => rw [length_cons,length_cons,ih]

theorem mono (h : Each R i as bs) (him : ∀ i a b, R i a b → R' i a b) : Each R' i as bs := by
  induction h with
  | nil => exact .nil _
  | cons hab _ ih => exact .cons (him _ _ _ hab) ih

theorem get (h : Each R i as bs) (ha : as[k]? = some a) : ∃ b, bs[k]? = some b ∧ R (i + k) a b := by
  induction h generalizing k with
  | nil => cases ha
  | @cons i a' b as bs hab _ ih =>
    cases k with
    | zero =>
      cases ha
      exact ⟨b,rfl,hab⟩
    | succ k =>
      obtain ⟨b',hb',hr⟩ := ih ha
      exact ⟨b',hb',by rwa [Nat.add_comm k 1,← Nat.add_assoc]⟩

theorem comp (h : Each R i as bs) (h' : Each S i bs cs) : Each (fun i a c => ∃ b, R i a b ∧ S i b c) i as cs := by
  induction h generalizing cs with
  | nil =>
    cases h'
    exact .nil _
  | cons hab _ ih =>
    cases h' with
    | cons hbc h' => exact .cons ⟨_,hab,hbc⟩ (ih h')

theorem of_map (f : A → B) (as : List A) (i : Nat) : Each (fun _ a b => b = f a) i as (as.map f) := by
  induction as generalizing i with
  | nil => exact .nil i
  | cons a as ih => exact .cons rfl (ih (i + 1))

end Each

theorem find_first {l : List A} {p : A → Bool} {r : A → A → Prop} (hl : l.Pairwise r) (h : l.find? p = some x) :
    p x = true ∧ x ∈ l ∧ ∀ y ∈ l, p y = true → y = x ∨ r x y := by
  obtain ⟨hp,front,back,rfl,hf⟩ := find?_eq_some_iff_append.mp h
  refine ⟨hp,mem_append_right _ (mem_cons_self ..),fun y hy hpy => ?_⟩
  rcases mem_append.mp hy with hy | hy
  · have := hf y hy
    simp [hpy] at this
  · rcases mem_cons.mp hy with rfl | hy
    · exact .inl rfl
    · exact .inr ((pairwise_cons.mp (pairwise_append.mp hl).2.1).1 y hy)

theorem getElem?_concat : (l ++ [x])[i]? = some y ↔ l[i]? = some y ∨ i = l.length ∧ y = x := by
  rcases lt_trichotomy i l.length with hi | rfl | hi
  · simp [getElem?_append_left hi,hi.ne]
  · simp [eq_comm]
  · have hn : i - l.length ≠ 0 := by omega
    simp [getElem?_append_right hi.le,hn,hi.ne',hi.le]

section

variable {L : Type*} [LinearOrder L]

theorem le_foldl_max (xs : List L) (x : L) : x ≤ xs.foldl max x ∧ ∀ y ∈ xs, y ≤ xs.foldl max x := by
  induction xs generalizing x with
  | nil => exact ⟨le_rfl,nofun⟩
  | cons z xs ih =>
    obtain ⟨hx,hxs⟩ := ih (max x z)
    exact ⟨(le_max_left x z).trans hx,forall_mem_cons.mpr ⟨(le_max_right x z).trans hx,hxs⟩⟩

theorem foldl_max_lt (xs : List L) (x b : L) (hx : x < b) (hxs : ∀ y ∈ xs, y < b) : xs.foldl max x < b := by
  induction xs generalizing x with
  | nil => exact hx
  | cons z xs ih =>
    rw [forall_mem_cons] at hxs
    exact ih (max x z) (max_lt hx hxs.1) hxs.2

theorem foldl_min_le (xs : List L) (x : L) : xs.foldl min x ≤ x ∧ ∀ y ∈ xs, xs.foldl min x ≤ y :=
  le_foldl_max (L := Lᵒᵈ) xs x

end

end Frontend.Library
