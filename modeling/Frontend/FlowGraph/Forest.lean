import Frontend.Library.Dominance
import Frontend.FlowGraph.Model

namespace Frontend.FlowGraph

open Frontend.Library Function Forest

variable {parent semi : Nat → Nat} {m u v w fuel : Nat} {lastlinked : Option Nat} {f : Forest}

theorem isProcessed_some : isProcessed v (some last) = true ↔ last ≤ v := by simp [isProcessed]

theorem isProcessed_mono (h : isProcessed u lastlinked) (huv : u ≤ v) : isProcessed v lastlinked := by
  cases lastlinked with
  | none => simp [isProcessed] at h
  | some last => exact isProcessed_some.mpr (Nat.le_trans (isProcessed_some.mp h) huv)

structure Linked (parent semi : Nat → Nat) (m : Nat) (lastlinked : Option Nat) (f : Forest) : Prop where
  root : ¬ isProcessed 0 lastlinked
  unlinked : ∀ v, v < m → ¬ isProcessed v lastlinked → f.ancestor v = parent v ∧ f.label v = v
  above : ∀ v, v < m → isProcessed v lastlinked → Ancestor parent (f.ancestor v) v ∧ f.ancestor v < v
  label : ∀ v, v < m → isProcessed v lastlinked → Ancestor parent (f.label v) v ∧ f.ancestor v < f.label v
  between : ∀ v u, v < m → isProcessed v lastlinked → Ancestor parent u v → f.ancestor v < u →
    isProcessed u lastlinked ∧ semi (f.label v) ≤ semi u

def Forest.shorten (semi : Nat → Nat) (f : Forest) (v u : Nat) : Forest where
  ancestor := update f.ancestor v (f.ancestor u)
  label :=
    if semi (f.label u) < semi (f.label v) then update f.label v (f.label u) else f.label

theorem Forest.shorten_ancestor : (f.shorten semi v u).ancestor w = if w = v then f.ancestor u else f.ancestor w := by
  simp [shorten,update_apply]

theorem Forest.shorten_label : (f.shorten semi v u).label w =
    if w = v ∧ semi (f.label u) < semi (f.label v) then f.label u else f.label w := by
  by_cases hlt : semi (f.label u) < semi (f.label v) <;>
    simp [shorten,hlt,update_apply]

namespace Linked

theorem shorten (ht : PreorderTree parent m) (h : Linked parent semi m lastlinked f) (hv : v < m)
    (hpv : isProcessed v lastlinked) (hpu : isProcessed u lastlinked) (hu : f.ancestor v = u) :
    Linked parent semi m lastlinked (f.shorten semi v u) := by
  obtain ⟨huv,hlt⟩ := h.above v hv hpv
  rw [hu] at huv hlt
  have hum : u < m := hlt.trans hv
  obtain ⟨hru,hr⟩ := h.above u hum hpu
  obtain ⟨hlu,hrl⟩ := h.label u hum hpu
  obtain ⟨hlv,hul⟩ := h.label v hv hpv
  rw [hu] at hul
  refine ⟨h.root,fun x hx hn => ?_,fun x hx hpx => ?_,fun x hx hpx => ?_,fun x y hx hpx hyx hl => ?_⟩
  · have hne : x ≠ v := by
      rintro rfl
      exact hn hpv
    rw [shorten_ancestor,shorten_label,if_neg hne,if_neg fun ha => hne ha.1]
    exact h.unlinked x hx hn
  · rw [shorten_ancestor]
    split
    case isTrue hxv => exact hxv ▸ ⟨hru.trans huv,hr.trans hlt⟩
    case isFalse => exact h.above x hx hpx
  · rw [shorten_ancestor,shorten_label]
    by_cases hxv : x = v
    · subst hxv
      rw [if_pos rfl]
      split
      · exact ⟨hlu.trans huv,hrl⟩
      · exact ⟨hlv,hr.trans hul⟩
    · rw [if_neg hxv,if_neg fun ha => hxv ha.1]
      exact h.label x hx hpx
  · rw [shorten_ancestor] at hl
    rw [shorten_label]
    by_cases hxv : x = v
    · subst hxv
      rw [if_pos rfl] at hl
      rcases Nat.lt_or_ge u y with huy | hyu
      · obtain ⟨hpy,hle⟩ := h.between x y hv hpv hyx (hu.symm ▸ huy)
        refine ⟨hpy,?_⟩
        split
        case isTrue hls => exact hls.2.le.trans hle
        case isFalse => exact hle
      · obtain ⟨hpy,hle⟩ := h.between u y hum hpu (ht.of_both hv hyx huv hyu) hl
        refine ⟨hpy,?_⟩
        split
        case isTrue => exact hle
        case isFalse hls => exact (Nat.le_of_not_lt fun hlt => hls ⟨rfl,hlt⟩).trans hle
    · rw [if_neg hxv] at hl
      rw [if_neg fun ha => hxv ha.1]
      exact h.between x y hx hpx hyx hl

structure Compressed (parent semi : Nat → Nat) (m : Nat) (lastlinked : Option Nat) (f : Forest) (v : Nat)
    (f' : Forest) : Prop where
  linked : Linked parent semi m lastlinked f'
  root : ¬ isProcessed (f'.ancestor v) lastlinked
  rest : ∀ x, v < x → f'.ancestor x = f.ancestor x ∧ f'.label x = f.label x

theorem relabel (ht : PreorderTree parent m) (h : Linked parent semi m lastlinked f) (hv : v < m)
    (hpv : isProcessed v lastlinked) (hf : v ≤ fuel) :
    Compressed parent semi m lastlinked f v (FlowGraph.relabel semi
    (processedChain f.ancestor lastlinked fuel v) f) := by
  induction fuel generalizing v with
  | zero =>
    obtain rfl := Nat.le_zero.mp hf
    exact absurd hpv h.root
  | succ fuel ih =>
    have hlt := (h.above v hv hpv).2
    rw [processedChain]
    split
    case isTrue hpu =>
      obtain ⟨hl,hro,hr⟩ := ih (hlt.trans hv) hpu (by omega)
      obtain ⟨chain,hc⟩ : ∃ chain, processedChain f.ancestor lastlinked fuel (f.ancestor v) = f.ancestor v ::
        chain := by cases fuel <;> exact ⟨_,rfl⟩
      rw [hc] at hl hro hr ⊢
      have hs := hl.shorten ht hv hpv hpu (hr v hlt).1
      refine ⟨hs,?_,fun x hx => ?_⟩
      · change ¬ isProcessed ((Forest.shorten semi _ v (f.ancestor v)).ancestor v) lastlinked
        rw [shorten_ancestor,if_pos rfl]
        exact hro
      · change (Forest.shorten semi _ v (f.ancestor v)).ancestor x = _ ∧
          (Forest.shorten semi _ v (f.ancestor v)).label x = _
        rw [shorten_ancestor,shorten_label,if_neg (Nat.ne_of_gt hx),if_neg fun ha => Nat.ne_of_gt hx ha.1]
        exact hr x (hlt.trans hx)
    case isFalse hpu => exact ⟨h,hpu,fun _ _ => ⟨rfl,rfl⟩⟩

structure Evaluated (parent semi : Nat → Nat) (m : Nat) (lastlinked : Option Nat) (v : Nat) (f' : Forest) (y : Nat) :
    Prop where
  linked : Linked parent semi m lastlinked f'
  unlinked : ¬ isProcessed v lastlinked → y = v
  above : isProcessed v lastlinked → isProcessed y lastlinked ∧ Ancestor parent y v
  least : ∀ u, Ancestor parent u v → isProcessed u lastlinked → semi y ≤ semi u

theorem eval (ht : PreorderTree parent m) (h : Linked parent semi m lastlinked f) (hv : v < m) :
    Evaluated parent semi m lastlinked v (eval f lastlinked semi v).1 (eval f lastlinked semi v).2 := by
  unfold FlowGraph.eval
  split
  case isTrue hpv =>
    obtain ⟨hl,hr,-⟩ := h.relabel ht hv hpv (Nat.le_refl v)
    have hla := hl.label v hv hpv
    refine ⟨hl,fun hn => absurd hpv hn,fun _ => ⟨?_,hla.1⟩,fun u huv hpu => ?_⟩
    · exact (hl.between v _ hv hpv hla.1 hla.2).1
    · refine (hl.between v u hv hpv huv ?_).2
      by_contra hle
      exact hr (isProcessed_mono hpu (Nat.le_of_not_lt hle))
  case isFalse hpv =>
    refine ⟨h,fun _ => rfl,fun hp => absurd hp hpv,fun u huv hpu => ?_⟩
    exact absurd (isProcessed_mono hpu (ht.le hv huv)) hpv

end Linked

end Frontend.FlowGraph
