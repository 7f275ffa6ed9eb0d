import Mathlib.Tactic

namespace Frontend.Library.Chain

open Relation List

section

variable {V : Type*}

def Acyclic (r : V → V → Prop) : Prop := ∀ v, ¬ TransGen r v v

variable {r s : V → V → Prop}

theorem Acyclic.mono (hs : Acyclic s) (h : ∀ v w, r v w → s v w) : Acyclic r :=
  fun v hv => hs v (TransGen.mono (fun _ _ => h _ _) _ _ hv)

theorem transGen_insert (h : ∀ v w, s v w → r v w ∨ v = a ∧ w = b)
    (hvw : TransGen s v w) : TransGen r v w ∨ ReflTransGen r v a ∧ ReflTransGen r b w := by
  induction hvw with
  | single hs =>
    rcases h _ _ hs with hr | ⟨rfl,rfl⟩
    · exact .inl (.single hr)
    · exact .inr ⟨.refl,.refl⟩
  | tail _ hs ih =>
    rcases h _ _ hs with hr | ⟨rfl,rfl⟩
    · rcases ih with ih | ⟨hva,hbw⟩
      · exact .inl (ih.tail hr)
      · exact .inr ⟨hva,hbw.tail hr⟩
    · rcases ih with ih | ⟨hva,_⟩
      · exact .inr ⟨ih.to_reflTransGen,.refl⟩
      · exact .inr ⟨hva,.refl⟩

theorem Acyclic.insert (hr : Acyclic r) (hb : ¬ ReflTransGen r b a) (h : ∀ v w, s v w → r v w ∨ v = a ∧ w = b) :
    Acyclic s := by
  intro v hv
  rcases transGen_insert h hv with hv | ⟨hva,hbv⟩
  · exact hr v hv
  · exact hb (hbv.trans hva)

end

section

variable {V : Type*} [DecidableEq V] {edges : List (V × V)} {target : V}

def Edge (edges : List (V × V)) (v w : V) : Prop := (v,w) ∈ edges

def follow (edges : List (V × V)) (target : V) : Nat → V → Bool
  | 0, _ => true
  | fuel + 1, v =>
    if v = target then true
    else
      match edges.find? (fun e => e.1 = v) with
      | some e => follow edges target fuel e.2
      | none => false

omit [DecidableEq V] in
variable {v : V}

theorem find_edge (hno : (edges.map Prod.fst).Nodup) (h : Edge edges v w) :
    edges.find? (fun e => e.1 = v) = some (v,w) := by
  rcases hf : edges.find? (fun e => e.1 = v) with _ | e
  · have hn := find?_eq_none.mp hf (v,w) h
    simp at hn
  obtain ⟨x,y⟩ := e
  obtain rfl : x = v := by simpa using find?_some hf
  obtain rfl : y = w := congrArg Prod.snd (inj_on_of_nodup_map hno (mem_of_find?_eq_some hf) h rfl)
  rw [hf]

theorem follow_of_reaches (hn : (edges.map Prod.fst).Nodup) (hr : ReflTransGen (Edge edges) v target) (fuel : Nat) :
    follow edges target fuel v = true := by
  induction hr using ReflTransGen.head_induction_on generalizing fuel with
  | refl => cases fuel <;> simp [follow]
  | head hvw _ ih =>
    cases fuel with
    | zero => rfl
    | succ fuel =>
      rw [follow,find_edge hn hvw]
      split
      · rfl
      · exact ih fuel

structure Walk (edges : List (V × V)) (v : V) (walk : List V) : Prop where
  source : ∀ x ∈ walk, x ∈ edges.map Prod.fst
  onward : walk.Pairwise (TransGen (Edge edges))
  reached : ∀ x ∈ walk, ReflTransGen (Edge edges) v x

omit [DecidableEq V] in
theorem Walk.nil (v : V) : Walk edges v [] := ⟨by simp,.nil,by simp⟩

omit [DecidableEq V] in
theorem Walk.cons (he : Edge edges v w) (h : Walk edges w walk) : Walk edges v (v :: walk) := by
  refine ⟨?_,pairwise_cons.mpr ⟨fun y hy => .head' he (h.reached y hy),h.onward⟩,?_⟩
  · exact forall_mem_cons.mpr ⟨mem_map_of_mem he,h.source⟩
  · exact forall_mem_cons.mpr ⟨.refl,fun y hy => .head he (h.reached y hy)⟩

omit [DecidableEq V] in
theorem Walk.length_le (ha : Acyclic (Edge edges)) (h : Walk edges v walk) : walk.length ≤ edges.length := by
  have hn : walk.Nodup := by
    refine h.onward.imp ?_
    rintro x y hxy rfl
    exact ha x hxy
  simpa using (hn.subperm h.source).length_le

theorem reaches_or_walk (hf : follow edges target fuel v = true) :
    ReflTransGen (Edge edges) v target ∨ ∃ walk, walk.length = fuel ∧ Walk edges v walk := by
  induction fuel generalizing v with
  | zero => exact .inr ⟨[],rfl,Walk.nil v⟩
  | succ fuel ih =>
    rw [follow] at hf
    split at hf
    · rename_i hv
      exact .inl (hv ▸ .refl)
    split at hf
    · rename_i e hfi
      obtain ⟨x,next⟩ := e
      obtain rfl : x = v := by simpa using find?_some hfi
      have he := mem_of_find?_eq_some hfi
      rcases ih hf with hr | ⟨walk,hl,hw⟩
      · exact .inl (.head he hr)
      · exact .inr ⟨x :: walk,by simp [hl],hw.cons he⟩
    · cases hf

theorem follow_iff (hn : (edges.map Prod.fst).Nodup) (ha : Acyclic (Edge edges)) :
    follow edges target (edges.length + 1) v = true ↔ ReflTransGen (Edge edges) v target := by
  refine ⟨fun hf => ?_,fun hr => follow_of_reaches hn hr _⟩
  rcases reaches_or_walk hf with hr | ⟨walk,hl,hw⟩
  · exact hr
  · have hle := hw.length_le ha
    omega

omit [DecidableEq V] in
theorem exists_end (ha : Acyclic (Edge edges)) (v : V) : ∃ w, ReflTransGen (Edge edges) v w ∧
    w ∉ edges.map Prod.fst := by
  by_contra hal
  have hn w (hw : ReflTransGen (Edge edges) v w) : ∃ x, Edge edges w x := by
    by_contra hno
    refine hal ⟨w,hw,fun hm => ?_⟩
    obtain ⟨⟨a,b⟩,he,rfl⟩ := mem_map.mp hm
    exact hno ⟨b,he⟩
  have hwl : ∀ n w, ReflTransGen (Edge edges) v w → ∃ walk, walk.length = n ∧ Walk edges w walk := by
    intro n
    induction n with
    | zero => exact fun w _ => ⟨[],rfl,Walk.nil w⟩
    | succ n ih =>
      intro w hw
      obtain ⟨x,hx⟩ := hn w hw
      obtain ⟨walk,hl,hwa⟩ := ih x (hw.tail hx)
      exact ⟨w :: walk,by simp [hl],hwa.cons hx⟩
  obtain ⟨walk,hl,hwa⟩ := hwl (edges.length + 1) v .refl
  have hle := hwa.length_le ha
  omega

end

end Frontend.Library.Chain
