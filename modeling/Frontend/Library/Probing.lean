import Mathlib.Tactic
import Mathlib.Data.Nat.Bitwise

namespace Frontend.Library.Probing

open List Option

def walk {R : Type*} (mask : Nat) (visit : Nat → Option R) : Nat → Nat → Option R
  | 0, _ => none
  | fuel + 1, slot =>
    match visit slot with
    | some r => some r
    | none => walk mask visit fuel ((slot + 1) &&& mask)

section

variable {R : Type*} {visit : Nat → Option R} {n k s a d fuel : Nat} {r : R}

theorem and_mask (hn : n = 2 ^ k) (x : Nat) : x &&& (n - 1) = x % n := by
  subst hn
  exact Nat.and_two_pow_sub_one_eq_mod x k

theorem next_slot (hn : n = 2 ^ k) (s d : Nat) : ((s + d) % n + 1) &&& (n - 1) = (s + (d + 1)) % n := by
  rw [and_mask hn,Nat.mod_add_mod,Nat.add_assoc]

theorem walk_of_visit (hn : n = 2 ^ k) (hle : a ≤ d) (hf : d - a < fuel) (hb : ∀ d', a ≤ d' → d' < d →
    visit ((s + d') % n) = none)
    (hv : visit ((s + d) % n) = some r) :
    walk (n - 1) visit fuel ((s + a) % n) = some r := by
  induction fuel generalizing a with
  | zero => omega
  | succ fuel ih =>
    rcases Nat.eq_or_lt_of_le hle with rfl | hlt
    · simp [walk,hv]
    · rw [walk,hb a le_rfl hlt,next_slot hn]
      exact ih hlt (by omega) fun d' h1 h2 => hb d' (by omega) h2

theorem exists_ring (hj : j < n) (s : Nat) : ∃ d, d < n ∧ (s + d) % n = j := by
  have hm : s % n < n := Nat.mod_lt s (by omega)
  have hd := Nat.mod_add_div s n
  by_cases hle : s % n ≤ j
  · refine ⟨j - s % n,by omega,?_⟩
    have : s + (j - s % n) = j + n * (s / n) := by omega
    rw [this,Nat.add_mul_mod_self_left,Nat.mod_eq_of_lt hj]
  · refine ⟨j + n - s % n,by omega,?_⟩
    have : s + (j + n - s % n) = j + n * (s / n + 1) := by rw [Nat.mul_add]; omega
    rw [this,Nat.add_mul_mod_self_left,Nat.mod_eq_of_lt hj]

end

section

variable {K : Type*} {n : Nat} {home : K → Nat} {t t' : Nat → Option K} {key : K} {d : Nat}

structure Linked (n : Nat) (home : K → Nat) (t : Nat → Option K) : Prop where
  chain : ∀ i < n, ∀ key, t i = some key → ∃ d, i = (home key + d) % n ∧ ∀ d' < d, (t ((home key + d') % n)).isSome
  unique : ∀ i < n, ∀ j < n, ∀ key, t i = some key → t j = some key → i = j

def Passed (n : Nat) (home : K → Nat) (t : Nat → Option K) (key : K) (d : Nat) : Prop :=
  ∀ d' < d, ∃ other, t ((home key + d') % n) = some other ∧ other ≠ key

theorem passed_zero : Passed n home t key 0 := fun _ h => absurd h (Nat.not_lt_zero _)

theorem Passed.mono (h : Passed n home t key d) (hle : ∀ i other, t i = some other → t' i = some other) :
    Passed n home t' key d := by
  intro d' hd'
  obtain ⟨other,ho,hne⟩ := h d' hd'
  exact ⟨other,hle _ _ ho,hne⟩

theorem Passed.succ (h : Passed n home t key d) (ho : t ((home key + d) % n) = some other) (hne : other ≠ key) :
    Passed n home t key (d + 1) := by
  intro d' hd'
  rcases Nat.lt_succ_iff_lt_or_eq.mp hd' with hlt | rfl
  · exact h d' hlt
  · exact ⟨other,ho,hne⟩

theorem Passed.lt (h : Passed n home t key d) (hf : ∃ j < n, t j = none) : d < n := by
  obtain ⟨j,hj,hn⟩ := hf
  obtain ⟨d',hd',rfl⟩ := exists_ring hj (home key)
  by_contra hle
  obtain ⟨other,ho,_⟩ := h d' (by omega)
  simp [hn] at ho

theorem Linked.absent (h : Linked n home t) (hp : Passed n home t key d)
    (he : t ((home key + d) % n) = none) : ∀ i < n, t i ≠ some key := by
  intro i hi hk
  obtain ⟨e,rfl,hf⟩ := h.chain i hi key hk
  rcases Nat.lt_trichotomy e d with hlt | rfl | hlt
  · obtain ⟨other,ho,hne⟩ := hp e hlt
    rw [hk,some.injEq] at ho
    exact hne ho.symm
  · simp [he] at hk
  · simpa [he] using hf d hlt

theorem exists_first_stop (hf : ∃ j < n, t j = none) (a : Nat) (hp : Passed n home t key a) :
    ∃ d, a ≤ d ∧ d < n ∧ Passed n home t key d ∧
      (t ((home key + d) % n) = none ∨ t ((home key + d) % n) = some key) := by
  classical
  have hs : ∃ d, a ≤ d ∧ (t ((home key + d) % n) = none ∨ t ((home key + d) % n) = some key) := by
    obtain ⟨j,hj,hno⟩ := hf
    obtain ⟨d,_,rfl⟩ := exists_ring hj (home key)
    have ha := hp.lt ⟨_,hj,hno⟩
    refine ⟨d + n,by omega,.inl ?_⟩
    rwa [← Nat.add_assoc,Nat.add_mod_right]
  obtain ⟨hle,hat⟩ := Nat.find_spec hs
  have hp' : Passed n home t key (Nat.find hs) := by
    intro d' hd'
    by_cases hlt : d' < a
    · exact hp d' hlt
    have hn := Nat.find_min hs hd'
    rw [not_and_or,not_or] at hn
    rcases hn with hn | ⟨hne,hk⟩
    · omega
    · obtain ⟨other,ho⟩ := ne_none_iff_exists'.mp hne
      exact ⟨other,ho,fun heq => hk (heq ▸ ho)⟩
  exact ⟨Nat.find hs,hle,hp'.lt hf,hp',hat⟩

theorem Linked.insert (h : Linked n home t) (hp : Passed n home t key d) (hem : t ((home key + d) % n) = none)
    (hu : ∀ i, t' i = if i = (home key + d) % n then some key else t i) :
    Linked n home t' := by
  have ha := h.absent hp hem
  have hm i (hi : (t i).isSome) : (t' i).isSome := by
    rw [hu]
    split
    · rfl
    · exact hi
  constructor
  · intro i hi other ho
    rw [hu] at ho
    split at ho
    · rename_i heq
      cases ho
      refine ⟨d,heq,fun d' hd' => hm _ ?_⟩
      obtain ⟨x,hx,_⟩ := hp d' hd'
      simp [hx]
    · obtain ⟨e,he,hf⟩ := h.chain i hi other ho
      exact ⟨e,he,fun d' hd' => hm _ (hf d' hd')⟩
  · intro i hi j hj other h1 h2
    rw [hu] at h1 h2
    split at h1 <;> split at h2
    · simp_all
    · cases h1
      exact absurd h2 (ha j hj)
    · cases h2
      exact absurd h1 (ha i hi)
    · exact h.unique i hi j hj other h1 h2

end

section

variable {E K : Type*} {home : K → Nat} {key : E → Option K} {slots : List E} {i d : Nat} {k : K} {e : E}

section

variable (home : K → Nat) (key : E → Option K) (slots : List E)

def view (i : Nat) : Option K := slots[i]?.bind key

def fill : Nat := slots.countP fun e => (key e).isSome

structure Table : Prop where
  size : ∃ k, slots.length = 2 ^ k
  linked : Linked slots.length home (view key slots)
  half : 2 * fill key slots ≤ slots.length

end

section

variable (h : Table home key slots)

include h

theorem Table.pos : 0 < slots.length := by
  obtain ⟨k,hk⟩ := h.size
  rw [hk]
  exact Nat.two_pow_pos k

theorem Table.ring_lt (x : Nat) : x % slots.length < slots.length := Nat.mod_lt _ h.pos

theorem Table.exists_free : ∃ j < slots.length, view key slots j = none := by
  have hp := h.pos
  have hh := h.half
  by_contra ha
  push Not at ha
  have hf : fill key slots = slots.length := by
    rw [fill,countP_eq_length]
    intro e he
    obtain ⟨j,hj,rfl⟩ := getElem_of_mem he
    have hv := ha j hj
    rw [view,getElem?_eq_getElem hj,bind_some] at hv
    exact isSome_iff_ne_none.mpr hv
  omega

theorem Table.start (x : Nat) : x &&& (slots.length - 1) = (x + 0) % slots.length := by
  obtain ⟨n,hn⟩ := h.size
  rw [and_mask hn,Nat.add_zero]

theorem Table.walk_stop (hp : Passed slots.length home (view key slots) k a)
    (hv : ∀ slot < slots.length, ∀ other, view key slots slot = some other → other ≠ k → visit slot = none) :
    ∃ d, Passed slots.length home (view key slots) k d ∧
      (view key slots ((home k + d) % slots.length) = none ∨ view key slots ((home k + d) % slots.length) = some k) ∧
      ∀ r, visit ((home k + d) % slots.length) = some r →
        walk (slots.length - 1) visit slots.length ((home k + a) % slots.length) = some r := by
  obtain ⟨n,hn⟩ := h.size
  obtain ⟨d,hle,hlt,hd,hs⟩ := exists_first_stop h.exists_free a hp
  refine ⟨d,hd,hs,fun r hr => walk_of_visit hn hle (by omega) (fun x _ hx => ?_) hr⟩
  obtain ⟨other,ho,hne⟩ := hd x hx
  exact hv _ (h.ring_lt _) other ho hne

end

theorem view_set (hi : i < slots.length) (j : Nat) : view key (slots.set i e) j = if j = i then key e
    else view key slots j := by
  rw [view,getElem?_set]
  by_cases h : i = j
  · simp [h,h ▸ hi]
  · simp [h,Ne.symm h,view]

theorem fill_set (hi : i < slots.length) (he : view key slots i = none)
    (hk : (key e).isSome) : fill key (slots.set i e) = fill key slots + 1 := by
  have ho : (key (slots.get ⟨i,hi⟩)).isSome = false := by
    rw [view,getElem?_eq_getElem hi,bind_some] at he
    simp [he]
  rw [fill,countP_set hi]
  simp only [get_eq_getElem] at ho
  simp [ho,hk,fill]

theorem table_replicate (hk : key e = none) : Table home key (List.replicate (2 ^ size) e) := by
  have hv : view key (List.replicate (2 ^ size) e) = fun _ => none := by
    funext i
    rw [view,getElem?_replicate]
    split <;> simp [hk]
  refine ⟨⟨size,length_replicate⟩,hv ▸ ⟨by simp,by simp⟩,?_⟩
  simp [fill,countP_replicate,hk]

theorem Table.insert (h : Table home key slots) (hp : Passed slots.length home (view key slots) k d)
    (he : view key slots ((home k + d) % slots.length) = none) (hk : key e = some k)
    (hr : 2 * (fill key slots + 1) ≤ slots.length) :
    Table home key (slots.set ((home k + d) % slots.length) e) := by
  have hlt := h.ring_lt (home k + d)
  refine ⟨by simpa using h.size,?_,?_⟩
  · rw [length_set]
    exact h.linked.insert hp he fun i => by rw [view_set hlt,hk]
  · rw [length_set,fill_set hlt he (by simp [hk])]
    exact hr

end

end Frontend.Library.Probing
