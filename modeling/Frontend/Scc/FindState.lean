import Frontend.Library.Pointwise
import Frontend.Library.Scatter
import Frontend.Scc.Construction

namespace Frontend.Scc

open Library List Option

variable {A : Type}

theorem getElem?_set_of_mem {states : List (NodeState A)} {ps : List Nat}
    (hu : u ∉ ps) (hx : x ∈ ps) : (states.set u s)[x]? = states[x]? := by
  refine getElem?_set_ne ?_
  rintro rfl
  exact hu hx

inductive Leads (states : List (NodeState A)) : Nat → List Nat → Nat → Prop
  | root {v : Nat} {s : NodeState A} : states[v]? = some s → (∀ p, s ≠ .inCycleWith p) → Leads states v [] v
  | link {v p r : Nat} {ps : List Nat} : states[v]? = some (.inCycleWith p) → Leads states p ps r →
      Leads states v (v :: ps) r

namespace Leads

variable {states : List (NodeState A)} {v r : Nat} {ps : List Nat}

section

variable (h : Leads states v ps r)

include h

theorem unique (h' : Leads states v ps' r') : ps = ps' ∧ r = r' := by
  induction h generalizing ps' r' with
  | root hs hr =>
    cases h' with
    | root => exact ⟨rfl,rfl⟩
    | link hl => exact absurd (mem_unique hs hl) (hr _)
  | link hs _ ih =>
    cases h' with
    | root hs' hr => exact absurd (mem_unique hs' hs) (hr _)
    | link hs' h' =>
      obtain rfl : _ = _ := NodeState.inCycleWith.inj (mem_unique hs hs')
      obtain ⟨rfl,rfl⟩ := ih h'
      exact ⟨rfl,rfl⟩

theorem suffix (hx : x ∈ ps) : ∃ qs, Leads states x qs r ∧ qs.length ≤ ps.length ∧
    ∃ p, states[x]? = some (.inCycleWith p) := by
  induction h with
  | root => simp at hx
  | link hs hr ih =>
    rcases mem_cons.mp hx with rfl | hx
    · exact ⟨_,.link hs hr,Nat.le_refl _,_,hs⟩
    · obtain ⟨qs,hqs,hle,hl⟩ := ih hx
      exact ⟨qs,hqs,Nat.le_succ_of_le hle,hl⟩

theorem root_state : ∃ s, states[r]? = some s ∧ ∀ p, s ≠ .inCycleWith p := by
  induction h with
  | root hs hr => exact ⟨_,hs,hr⟩
  | link _ _ ih => exact ih

theorem not_mem (hs : states[x]? = some s) (hr : ∀ p, s ≠ .inCycleWith p) : x ∉ ps := by
  intro hx
  obtain ⟨_,-,-,p,hp⟩ := h.suffix hx
  exact hr p (mem_unique hs hp)

theorem root_not_mem : r ∉ ps := by
  obtain ⟨s,hs,hr⟩ := h.root_state
  exact h.not_mem hs hr

theorem nodup : ps.Nodup := by
  induction h with
  | root => exact nodup_nil
  | link hs hr ih =>
    refine nodup_cons.mpr ⟨fun hm => ?_,ih⟩
    obtain ⟨qs,hqs,hl,-⟩ := hr.suffix hm
    obtain ⟨rfl,-⟩ := hqs.unique (.link hs hr)
    exact absurd hl (Nat.not_succ_le_self _)

theorem lt_length (hx : x ∈ ps) : x < states.length := by
  obtain ⟨_,-,-,_,hp⟩ := h.suffix hx
  exact lt_of_getElem? hp

theorem length_le : ps.length ≤ states.length := by
  have hs : ps ⊆ List.range states.length := fun x hx => mem_range.mpr (h.lt_length hx)
  simpa using (h.nodup.subperm hs).length_le

end

variable {states' : List (NodeState A)}

theorem reroot (h : Leads states v ps r) (hps : ∀ x ∈ ps, states'[x]? = states[x]?)
    (hr : states'[r]? = some s) (hs : ∀ p, s ≠ .inCycleWith p) :
    Leads states' v ps r := by
  induction h with
  | root => exact .root hr hs
  | link hl _ ih =>
    refine .link ((hps _ (.head _)).trans hl) (ih (fun x hx => ?_) hr)
    exact hps x (.tail _ hx)

theorem congr (h : Leads states v ps r) (hps : ∀ x ∈ ps, states'[x]? = states[x]?)
    (hr : states'[r]? = states[r]?) : Leads states' v ps r := by
  obtain ⟨s,hs,hro⟩ := h.root_state
  exact h.reroot hps (hr.trans hs) hro

theorem set {u : Nat} (h : Leads states v ps r) (hu : u ∉ ps) (hr : u ≠ r) : Leads (states.set u s) v ps r := by
  exact h.congr (fun x hx => getElem?_set_of_mem hu hx) (getElem?_set_ne hr)

theorem extend (h : Leads states v ps r) (hps : ∀ x ∈ ps, states'[x]? = states[x]?)
    (hl : states'[r]? = some (.inCycleWith p)) (hp : Leads states' p qs r') :
    Leads states' v (ps ++ r :: qs) r' := by
  induction h with
  | root => exact .link hl hp
  | link hs _ ih =>
    refine .link ((hps _ (.head _)).trans hs) (ih (fun x hx => ?_) hl)
    exact hps x (.tail _ hx)

end Leads

section

def turn (states : List (NodeState A)) (previous : Nat) : List Nat → List (NodeState A)
  | [] => states
  | p :: ps => turn (states.set p (.inCycleWith previous)) p ps

variable {states : List (NodeState A)} {x : Nat} {ps rs : List Nat}

theorem turn_of_not_mem (hx : x ∉ ps) : (turn states previous ps)[x]? = states[x]? := by
  induction ps generalizing states previous with
  | nil => rfl
  | cons p ps ih =>
    rw [turn,ih fun hm => hx (.tail _ hm)]
    exact getElem?_set_ne (ne_of_not_mem_cons hx).symm

@[simp] theorem length_turn (states : List (NodeState A)) (previous : Nat) (ps : List Nat) :
    (turn states previous ps).length = states.length := by
  induction ps generalizing states previous with
  | nil => rfl
  | cons p ps ih => rw [turn,ih,length_set]

inductive Turned (states : List (NodeState A)) : List Nat → Prop
  | start {q : Nat} : states[q]? = some (.inCycleWith q) → Turned states [q]
  | back {q q' : Nat} {rs : List Nat} : states[q]? = some (.inCycleWith q') → Turned states (q' :: rs) →
      Turned states (q :: q' :: rs)

theorem Turned.congr (h : Turned states rs) (heq : ∀ x ∈ rs, states'[x]? = states[x]?) : Turned states' rs := by
  induction h with
  | start hq => exact .start ((heq _ (.head _)).trans hq)
  | back hq _ ih =>
    refine .back ((heq _ (.head _)).trans hq) (ih fun x hx => ?_)
    exact heq x (.tail _ hx)

theorem Turned.turn {q : Nat} (h : Turned states (q :: rs)) (hn : (ps.reverse ++ q :: rs).Nodup)
    (hlt : ∀ p ∈ ps, p < states.length) : Turned (turn states q ps) (ps.reverse ++ q :: rs) := by
  induction ps generalizing states q rs with
  | nil => exact h
  | cons p ps ih =>
    simp only [reverse_cons,append_assoc,singleton_append] at hn ⊢
    have hp : p ∉ q :: rs := by
      have hr := (nodup_append.mp hn).2.1
      exact (nodup_cons.mp hr).1
    refine ih (.back ?_ (h.congr fun x hx => getElem?_set_of_mem hp hx)) hn fun x hx => ?_
    · exact getElem?_set_self (hlt p (.head _))
    · rw [length_set]
      exact hlt x (.tail _ hx)

def lastOf (previous : Nat) (ps : List Nat) : Nat := ps.getLast?.getD previous

@[simp] theorem lastOf_nil (previous : Nat) : lastOf previous [] = previous := rfl

theorem lastOf_cons (previous p : Nat) (ps : List Nat) : lastOf previous (p :: ps) = lastOf p ps := by
  cases ps with
  | nil => rfl
  | cons q qs => simp [lastOf,getLast?_cons]

theorem descend_eq (h : Leads states node ps r) (hf : ps.length < fuel) : descend nodeStack fuel states node previous =
      descend nodeStack (fuel - ps.length) (turn states previous ps) r (lastOf previous ps) := by
  induction ps generalizing states node previous fuel with
  | nil =>
    cases h
    rfl
  | cons p ps ih =>
    obtain ⟨hn,hno⟩ := nodup_cons.mp h.nodup
    have hro := h.root_not_mem
    cases h with
    | @link _ next _ _ hs hr =>
      rcases fuel with _ | fuel
      · simp at hf
      have hne : p ≠ next := by
        rintro rfl
        obtain ⟨hse,-⟩ := hr.unique (.link hs hr)
        simp at hse
      have hr' : Leads (states.set p (.inCycleWith previous)) next ps r := hr.set hn fun hnr => hro (hnr ▸ (.head _))
      rw [descend,hs]
      simp only [hne,if_false]
      rw [ih hr' (by simpa using hf)]
      simp [turn,lastOf_cons]

theorem ascend_eq (assigned : NodeState A) {node q fuel : Nat} (h : Turned states (q :: rs))
    (hnd : (q :: rs).Nodup) (hn : node ∉ q :: rs) (hf : (q :: rs).length < fuel) :
    ascend assigned fuel states node q = some (scatter states ((q :: rs).map (·,assigned))) := by
  induction rs generalizing states node q fuel with
  | nil =>
    cases h with
    | start hq =>
      obtain ⟨fuel,rfl⟩ : ∃ k, fuel = k + 2 := ⟨fuel - 2,by simp at hf; omega⟩
      have hne : q ≠ node := fun heq => hn (heq ▸ (.head _))
      simp [ascend,hne,hq,scatter]
  | cons q' rs ih =>
    cases h with
    | back hq hr =>
      obtain ⟨fuel,rfl⟩ : ∃ k, fuel = k + 1 := ⟨fuel - 1,by simp at hf; omega⟩
      have hne : q ≠ node := fun heq => hn (heq ▸ (.head _))
      obtain ⟨hno,hn'⟩ := nodup_cons.mp hnd
      rw [ascend,hq]
      simp only [hne,if_false]
      exact ih (hr.congr fun x hx => getElem?_set_of_mem hno hx) hn' hno (by simpa using hf)

end

section

structure Compressed (states states' : List (NodeState A)) (ps : List Nat) (assigned : NodeState A) : Prop where
  length : states'.length = states.length
  path : ∀ x ∈ ps, states'[x]? = some assigned
  rest : ∀ x, x ∉ ps → states'[x]? = states[x]?

variable {r v : Nat} {ps : List Nat} {c : Construction A}

theorem ascend_turn (h : Leads states node ps r) (assigned : NodeState A) (hf : ps.length < fuel) :
    ∃ states', ascend assigned fuel (turn states node ps) r (lastOf node ps) = some states' ∧
    Compressed states states' ps assigned := by
  have hlt x (hx : x ∈ ps) : x < states.length := h.lt_length hx
  have hn := h.nodup
  have hro := h.root_not_mem
  cases ps with
  | nil =>
    obtain rfl : node = r := by cases h; rfl
    obtain ⟨fuel,rfl⟩ : ∃ k, fuel = k + 1 := ⟨fuel - 1,by omega⟩
    exact ⟨states,by simp [ascend,turn],rfl,by simp,fun _ _ => rfl⟩
  | cons p ps =>
    obtain rfl : p = node := by cases h; rfl
    have hs : Turned (states.set p (.inCycleWith p)) [p] := .start (getElem?_set_self (hlt p (.head _)))
    have hre : (ps.reverse ++ [p]).Nodup := by simpa using nodup_reverse.mpr hn
    have ht := hs.turn hre fun x hx => by
      rw [length_set]
      exact hlt x (.tail _ hx)
    obtain ⟨q,rs,hq⟩ : ∃ q rs, ps.reverse ++ [p] = q :: rs := by
      cases hps : ps.reverse ++ [p] with
      | nil => simp at hps
      | cons q rs => exact ⟨q,rs,rfl⟩
    have hl : lastOf p (p :: ps) = q := by
      have hrv : (p :: ps).reverse = q :: rs := by simpa using hq
      rw [lastOf,← head?_reverse,hrv]
      rfl
    have hm x : x ∈ q :: rs ↔ x ∈ p :: ps := by
      rw [← hq]
      simp [or_comm]
    rw [hq] at ht hre
    have hle : (q :: rs).length < fuel := by
      rw [← hq]
      simpa using hf
    have ha := ascend_eq assigned ht hre (fun hr => hro ((hm r).mp hr)) hle
    have hfs : ((q :: rs).map (·,assigned)).map Prod.fst = q :: rs := by simp [Function.comp_def]
    rw [hl,turn]
    refine ⟨_,ha,?_,fun x hx => ?_,fun x hx => ?_⟩
    · rw [scatter_length,length_turn,length_set]
    · refine scatter_written _ (by rwa [hfs]) (mem_map_of_mem ((hm x).mpr hx)) ?_
      rw [length_turn,length_set]
      exact hlt x hx
    · rw [scatter_other _ fun hr => hx ((hm x).mp (by rwa [hfs] at hr)),turn_of_not_mem fun hr => hx (.tail _ hr)]
      exact getElem?_set_ne (ne_of_not_mem_cons hx).symm

theorem findState_compressed (h : Leads c.nodeStates v ps r)
    (hr : ∀ fuel previous states, states[r]? = c.nodeStates[r]? →
      descend c.nodeStack (fuel + 1) states r previous = some (states,.root r previous s assigned)) :
    ∃ states, findState c v = some (s,{ c with nodeStates := states }) ∧ Compressed c.nodeStates states ps assigned := by
  have hl := Nat.lt_succ_of_le h.length_le
  obtain ⟨states,ha,hc⟩ := ascend_turn h assigned hl
  refine ⟨states,?_,hc⟩
  obtain ⟨fuel,hf⟩ : ∃ k, c.nodeStates.length + 1 - ps.length = k + 1 := ⟨c.nodeStates.length - ps.length,by omega⟩
  have hd : descend c.nodeStack (c.nodeStates.length + 1) c.nodeStates v v =
      some (turn c.nodeStates v ps,.root r (lastOf v ps) s assigned) := by
    rw [descend_eq h hl,hf,hr _ _ _ (turn_of_not_mem h.root_not_mem)]
  simp [findState,hd,ha]

end

end Frontend.Scc
