import Mathlib.Tactic

namespace Frontend.Library.CycleSearch

open List

section

variable {V : Type*} [DecidableEq V]

structure Search (V : Type*) where
  found : Bool
  stack : List V
  visited : List V

def visitAll (visit : V → List V → List V → Option (Search V)) : List V → List V → List V → Option (Search V)
  | [], stack, visited => some ⟨false,stack,visited⟩
  | v :: vs, stack, visited => do
    let r ← visit v stack visited
    if r.found then return r else visitAll visit vs r.stack r.visited

def findCycle (succ : V → List V) : Nat → V → List V → List V → Option (Search V)
  | 0, _, _, _ => none
  | fuel + 1, v, stack, visited =>
    if v ∈ visited then
      if v ∈ stack then some ⟨true,stack.drop (stack.idxOf v),visited⟩
      else some ⟨false,stack,visited⟩
    else do
      let r ← visitAll (findCycle succ fuel) (succ v) (stack ++ [v]) (v :: visited)
      if r.found then return r else return { r with stack := r.stack.dropLast }

variable {succ : V → List V}

structure Explored (succ : V → List V) (stack visited : List V) (r : Search V) : Prop where
  stack_eq : r.stack = stack
  grows : ∀ v ∈ visited, v ∈ r.visited
  closed : ∀ v ∈ r.visited, v ∉ visited → ∀ w ∈ succ v, w ∈ r.visited ∧ w ∉ stack

def unvisited (all visited : List V) : Nat := (all.filter (· ∉ visited)).length

def Visits (succ : V → List V) (all : List V) (n : Nat) (visit : V → List V → List V → Option (Search V)) : Prop :=
  ∀ v ∈ all, ∀ stack visited, unvisited all visited < n → ∃ r, visit v stack visited = some r ∧
    (∀ x ∈ visited, x ∈ r.visited) ∧
    ((∀ x ∈ stack, x ∈ visited) → r.found = false → Explored succ stack visited r ∧ v ∈ r.visited ∧ v ∉ stack)

variable {visited all : List V} {v : V}

theorem unvisited_mono (h : ∀ v ∈ visited, v ∈ visited') : unvisited all visited' ≤ unvisited all visited := by
  refine (List.Sublist.length_le ?_)
  refine monotone_filter_right all fun x hx => ?_
  simp only [decide_eq_true_eq] at hx ⊢
  exact fun hm => hx (h x hm)

theorem unvisited_cons (hv : v ∈ all) (hn : v ∉ visited) : unvisited all (v :: visited) < unvisited all visited := by
  have hs : all.filter (· ∉ v :: visited) = (all.filter (· ∉ visited)).filter (· ≠ v) := by
    rw [filter_filter]
    refine filter_congr fun x _ => ?_
    simp [not_or]
  rw [unvisited,hs,unvisited]
  refine length_filter_lt_length_iff_exists.mpr ⟨v,?_,by simp⟩
  simp [hv,hn]

theorem visitAll_spec (hvi : Visits succ all n visit)
    (hvs : ∀ v ∈ vs, v ∈ all) (stack visited : List V) (hn : unvisited all visited < n) :
    ∃ r, visitAll visit vs stack visited = some r ∧ (∀ x ∈ visited, x ∈ r.visited) ∧
    ((∀ x ∈ stack, x ∈ visited) → r.found = false →
      Explored succ stack visited r ∧ ∀ v ∈ vs, v ∈ r.visited ∧ v ∉ stack) := by
  induction vs generalizing stack visited with
  | nil => exact ⟨_,rfl,fun _ h => h,fun _ _ => ⟨⟨rfl,fun _ h => h,fun _ h hn => absurd h hn⟩,by simp⟩⟩
  | cons v vs ih =>
    rw [forall_mem_cons] at hvs
    obtain ⟨r1,hr1,hg1,hx1⟩ := hvi v hvs.1 stack visited hn
    have hle : unvisited all r1.visited ≤ unvisited all visited := unvisited_mono hg1
    cases hf : r1.found with
    | true => exact ⟨r1,by simp [visitAll,hr1,hf],hg1,fun _ hr => by cases hf.symm.trans hr⟩
    | false =>
      obtain ⟨r,hr,hg,hx⟩ := ih hvs.2 r1.stack r1.visited (by omega)
      refine ⟨r,by simp [visitAll,hr1,hf,hr],fun x hm => hg x (hg1 x hm),fun hs hfo => ?_⟩
      obtain ⟨he,hv,hns⟩ := hx1 hs hf
      rw [he.stack_eq] at hx
      obtain ⟨he',ha⟩ := hx (fun x hm => hg1 x (hs x hm)) hfo
      refine ⟨⟨he'.stack_eq,fun x hm => hg x (hg1 x hm),fun x hm hno w hw => ?_⟩,forall_mem_cons.mpr ⟨⟨hg _ hv,hns⟩,ha⟩⟩
      by_cases hm1 : x ∈ r1.visited
      · obtain ⟨h1,h2⟩ := he.closed x hm1 hno w hw
        exact ⟨hg w h1,h2⟩
      · exact he'.closed x hm hm1 w hw

theorem findCycle_visits (ha : ∀ v ∈ all, ∀ w ∈ succ v, w ∈ all) (fuel : Nat) :
    Visits succ all fuel (findCycle succ fuel) := by
  induction fuel with
  | zero => exact fun _ _ _ _ hn => absurd hn (Nat.not_lt_zero _)
  | succ fuel ih =>
    intro v hv stack visited hn
    rw [findCycle]
    split
    · rename_i hm
      split
      · exact ⟨_,rfl,fun _ h => h,fun _ hr => by cases hr⟩
      · rename_i hno
        exact ⟨_,rfl,fun _ h => h,fun _ _ => ⟨⟨rfl,fun _ h => h,fun _ h hn => absurd h hn⟩,hm,hno⟩⟩
    rename_i hm
    have hlt := unvisited_cons hv hm
    obtain ⟨r,hr,hg,hx⟩ := visitAll_spec ih (ha v hv) (stack ++ [v]) (v :: visited) (by omega)
    have hg' x (hx : x ∈ visited) : x ∈ r.visited := hg x (.tail _ hx)
    cases hf : r.found with
    | true => exact ⟨r,by simp [hr,hf],hg',fun _ h => by cases hf.symm.trans h⟩
    | false =>
      refine ⟨{ r with stack := r.stack.dropLast },by simp [hr,hf],hg',fun hs _ => ?_⟩
      obtain ⟨he,hsc⟩ := hx (forall_mem_append.mpr ⟨fun x hx => .tail _ (hs x hx),forall_mem_singleton.mpr (.head _)⟩) hf
      refine ⟨⟨by simp [he.stack_eq],hg',fun x hx hno w hw => ?_⟩,hg v (.head _),fun h => hm (hs v h)⟩
      have hw' : w ∈ r.visited ∧ w ∉ stack ++ [v] := by
        by_cases hxv : x = v
        · exact hsc w (hxv ▸ hw)
        · exact he.closed x hx (by simp [hxv,hno]) w hw
      exact ⟨hw'.1,fun h => hw'.2 (mem_append_left _ h)⟩

def Edge (succ : V → List V) (v w : V) : Prop := w ∈ succ v

theorem findCycle_complete (ha : ∀ v ∈ all, ∀ w ∈ succ v, w ∈ all) (hv : v ∈ all) (hn : unvisited all [] < fuel)
    (hcy : Relation.TransGen (Edge succ) v v) : ∃ r, findCycle succ fuel v [] [] = some r ∧ r.found = true := by
  cases fuel with
  | zero => omega
  | succ fuel =>
    have hlt := unvisited_cons hv not_mem_nil
    obtain ⟨r,hr,hg,hx⟩ := visitAll_spec (findCycle_visits ha fuel) (ha v hv) [v] [v] (by omega)
    cases hf : r.found with
    | true => exact ⟨r,by simp [findCycle,hr,hf],hf⟩
    | false =>
      obtain ⟨he,hs⟩ := hx (fun _ h => h) hf
      have hc x (hx : x ∈ r.visited) w (hw : w ∈ succ x) : w ∈ r.visited ∧ w ≠ v := by
        rw [ne_eq,← mem_singleton]
        by_cases hxv : x = v
        · exact hs w (hxv ▸ hw)
        · exact he.closed x hx (by simpa using hxv) w hw
      have hra x (hx : Relation.TransGen (Edge succ) v x) : x ∈ r.visited ∧ x ≠ v := by
        induction hx with
        | single h => exact hc v (hg v (.head _)) _ h
        | tail _ h ih => exact hc _ ih.1 _ h
      exact absurd rfl (hra v hcy).2

end

end Frontend.Library.CycleSearch
